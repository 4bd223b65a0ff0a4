import Firewall.Proofs.Product
import Firewall.Proofs.Recovery
import Firewall.Proofs.Reordering

/-!
# The chains of a rule

Chains are set and added, and a chain that is set is no longer an extra one. `Rule.Follows` tells the chains
of a rule from the history of all moves: the primary chain is the one set last, the extra ones are those
added while they were not primary and not set since, in the order of the additions that last made them
present. It is kept by each move (`Rule.Follows.setChain`, `Rule.Follows.addChain`), hence by each call and
each step. Main statement: `Compiler.chains_of_calls`.
-/

namespace Firewall

/-- A change of one chain. -/
inductive ChainMove where
  | set (chain : Text)
  | add (chain : Text)
deriving DecidableEq, Repr

/-- A call that changes the chains of a rule; several may be added at once. -/
inductive ChainCall where
  | set (chain : Text)
  | add (chains : List Text)
deriving DecidableEq, Repr

def ChainCall.moves : ChainCall → List ChainMove
  | set c => [.set c]
  | add cs => cs.map .add

def Rule.call (r : Rule) : ChainCall → Rule
  | .set c => r.setChain c
  | .add cs => r.addChains cs

/-- What a clause does to the chains of a rule. To add the primary chain does nothing. -/
def Clause.chainCalls (t : Table) : Clause → List ChainCall
  | forward => [.set "FORWARD"]
  | output => [.set "OUTPUT"]
  | all => [.add (t.hooks.map Hook.name)]
  | chain names =>
    match namedHooks names with
    | [] => []
    | h :: hs => [.set h.name, .add (hs.map Hook.name)]
  | _ => []

namespace ChainMove
variable {start x : Text} {ms : List ChainMove} {m : ChainMove} {i : Nat}

def target? : ChainMove → Option Text
  | set c => some c
  | add _ => none

/-- The primary chain after the moves: the one set last, if there is one. -/
def primary (start : Text) (ms : List ChainMove) : Text := (ms.filterMap target?).getLast?.getD start

/-- The chain has been added at a moment when it was not the primary one, and has not been set since. -/
def Extra (start : Text) (ms : List ChainMove) (x : Text) : Prop :=
  ∃ pre post, ms = pre ++ add x :: post ∧ primary start pre ≠ x ∧ set x ∉ post

/-- The move at a place adds the chain where it was absent. -/
def Makes (start : Text) (ms : List ChainMove) (i : Nat) (x : Text) : Prop :=
  ms[i]? = some (add x) ∧ primary start (ms.take i) ≠ x ∧ ¬ Extra start (ms.take i) x

/-- The move at a place is the last one that makes the chain present. -/
def LastMakes (start : Text) (ms : List ChainMove) (i : Nat) (x : Text) : Prop :=
  Makes start ms i x ∧ ∀ j, Makes start ms j x → j ≤ i

theorem primary_concat_set (start c : Text) (ms : List ChainMove) : primary start (ms ++ [set c]) = c := by
  simp [primary, target?]

theorem primary_append_adds (start : Text) (ms : List ChainMove) (cs : List Text) :
    primary start (ms ++ cs.map add) = primary start ms := by
  have hadds : (cs.map add).filterMap target? = [] := by simp [target?]
  rw [primary, List.filterMap_append, hadds, List.append_nil, primary]

theorem primary_concat_add (start c : Text) (ms : List ChainMove) :
    primary start (ms ++ [add c]) = primary start ms := primary_append_adds start ms [c]

theorem not_extra_nil : ¬ Extra start [] x := by
  rintro ⟨pre, post, hms, -⟩
  simp at hms

theorem split_concat {pre post : List ChainMove} {m' : ChainMove} (h : ms ++ [m] = pre ++ m' :: post) :
    (pre = ms ∧ m' = m ∧ post = []) ∨ ∃ post', post = post' ++ [m] ∧ ms = pre ++ m' :: post' := by
  rcases List.eq_nil_or_concat post with rfl | ⟨post', b, rfl⟩
  · obtain ⟨rfl, hm⟩ := List.append_inj' h rfl
    exact .inl ⟨rfl, (List.singleton_inj.1 hm).symm, rfl⟩
  · have h' : ms ++ [m] = (pre ++ m' :: post') ++ [b] := by simpa using h
    obtain ⟨hms, hm⟩ := List.append_inj' h' rfl
    obtain rfl := List.singleton_inj.1 hm
    exact .inr ⟨post', by simp, hms⟩

theorem extra_concat : Extra start (ms ++ [m]) x ↔
    (Extra start ms x ∧ m ≠ set x) ∨ (m = add x ∧ primary start ms ≠ x) := by
  constructor
  · rintro ⟨pre, post, hms, hp, hpost⟩
    rcases split_concat hms with ⟨rfl, rfl, rfl⟩ | ⟨post, rfl, rfl⟩
    · exact .inr ⟨rfl, hp⟩
    · simp only [List.mem_append, List.mem_singleton, not_or] at hpost
      exact .inl ⟨⟨pre, post, rfl, hp, hpost.1⟩, Ne.symm hpost.2⟩
  · rintro (⟨⟨pre, post, rfl, hp, hpost⟩, hm⟩ | ⟨rfl, hp⟩)
    · exact ⟨pre, post ++ [m], by simp, hp, by simpa [hpost] using Ne.symm hm⟩
    · exact ⟨ms, [], rfl, hp, by simp⟩

theorem extra_append_adds {cs : List Text} (hx : x ∈ cs) (hp : primary start ms ≠ x) :
    Extra start (ms ++ cs.map add) x := by
  obtain ⟨as, bs, rfl⟩ := List.append_of_mem hx
  exact ⟨ms ++ as.map add, bs.map add, by simp, by rwa [primary_append_adds], by simp⟩

theorem Makes.lt_length (h : Makes start ms i x) : i < ms.length := (List.getElem?_eq_some_iff.1 h.1).1

theorem makes_concat : Makes start (ms ++ [m]) i x ↔
    Makes start ms i x ∨ (i = ms.length ∧ m = add x ∧ primary start ms ≠ x ∧ ¬ Extra start ms x) := by
  rcases Nat.lt_trichotomy i ms.length with hi | rfl | hi
  · unfold Makes
    rw [List.getElem?_append_left hi, List.take_append_of_le_length hi.le]
    simp [hi.ne]
  · simp [Makes]
  · have hms : ms[i]? = none := List.getElem?_eq_none hi.le
    have hms' : (ms ++ [m])[i]? = none := List.getElem?_eq_none (by simp; omega)
    simp [Makes, hms, hms', hi.ne']

/-- A move that does not make a chain present leaves its last addition as it is. -/
theorem lastMakes_concat (h : ¬ (m = add x ∧ primary start ms ≠ x ∧ ¬ Extra start ms x)) :
    LastMakes start (ms ++ [m]) i x ↔ LastMakes start ms i x := by
  simp only [LastMakes, makes_concat, h, and_false, or_false]

theorem lastMakes_concat_add (hp : primary start ms ≠ x) (hx : ¬ Extra start ms x) :
    LastMakes start (ms ++ [add x]) ms.length x := by
  refine ⟨makes_concat.2 (.inr ⟨rfl, rfl, hp, hx⟩), fun j hj => ?_⟩
  rcases makes_concat.1 hj with hj | ⟨rfl, -⟩
  · exact hj.lt_length.le
  · exact le_rfl

end ChainMove

open ChainMove

namespace Rule
variable {r : Rule} {start : Text} {ms : List ChainMove}

/-- The chains of the rule are those that the moves come to. -/
structure Follows (start : Text) (ms : List ChainMove) (r : Rule) : Prop where
  chain : r.chain = primary start ms
  distinct : r.ChainsDistinct
  mem_extraChains_iff : ∀ x, x ∈ r.extraChains ↔ Extra start ms x
  made : ∀ x ∈ r.extraChains, ∃ i, LastMakes start ms i x
  /-- The extra chains stand in the order of the moves that last made them present. -/
  order : r.extraChains.Pairwise fun x y => ∃ i j, i < j ∧ LastMakes start ms i x ∧ LastMakes start ms j y

namespace Follows

theorem onChain (start : Text) : (Rule.onChain start).Follows start [] where
  chain := rfl
  distinct := chainsDistinct_onChain start
  mem_extraChains_iff x := by simp [Rule.onChain, not_extra_nil]
  made x hx := by cases hx
  order := .nil

theorem of_eq {r' : Rule} (h : r.Follows start ms) (hc : r'.chain = r.chain)
    (hxs : r'.extraChains = r.extraChains) : r'.Follows start ms := by
  obtain ⟨hchain, hdistinct, hmem, hmade, horder⟩ := h
  constructor
  · rw [hc, hchain]
  · rwa [ChainsDistinct, hc, hxs]
  · rwa [hxs]
  · rwa [hxs]
  · rwa [hxs]

theorem setChain (h : r.Follows start ms) (c : Text) : (r.setChain c).Follows start (ms ++ [.set c]) := by
  have hlast : ∀ i x, LastMakes start (ms ++ [.set c]) i x ↔ LastMakes start ms i x :=
    fun i x => lastMakes_concat (by simp)
  constructor
  · exact (primary_concat_set start c ms).symm
  · exact h.distinct.setChain c
  · intro x
    rw [extra_concat, ← h.mem_extraChains_iff, Rule.setChain, List.mem_filter]
    simp [eq_comm (a := x)]
  · intro x hx
    simp only [hlast]
    exact h.made x (List.mem_filter.1 hx).1
  · simp only [hlast]
    exact h.order.filter _

theorem add_of_mem (h : r.Follows start ms) {c : Text} (hc : c = r.chain ∨ c ∈ r.extraChains) :
    r.Follows start (ms ++ [.add c]) := by
  -- the chain is there, so this move does not make it present
  have hlast : ∀ i x, LastMakes start (ms ++ [.add c]) i x ↔ LastMakes start ms i x := by
    refine fun i x => lastMakes_concat ?_
    rintro ⟨⟨rfl⟩, hp, hx⟩
    exact hc.elim (fun he => hp (he.trans h.chain).symm) (mt (h.mem_extraChains_iff c).1 hx)
  constructor
  · rw [primary_concat_add, h.chain]
  · exact h.distinct
  · intro x
    rw [extra_concat, ← h.mem_extraChains_iff, ← h.chain]
    refine ⟨fun hx => .inl ⟨hx, by simp⟩, ?_⟩
    rintro (⟨hx, -⟩ | ⟨⟨rfl⟩, hp⟩)
    · exact hx
    · exact hc.resolve_left (Ne.symm hp)
  · simpa only [hlast] using h.made
  · simpa only [hlast] using h.order

theorem add_of_notMem (h : r.Follows start ms) {c : Text} (hp : c ≠ r.chain) (hx : c ∉ r.extraChains)
    (hdistinct : { r with extraChains := r.extraChains ++ [c] }.ChainsDistinct) :
    { r with extraChains := r.extraChains ++ [c] }.Follows start (ms ++ [ChainMove.add c]) := by
  have hold : ∀ x ∈ r.extraChains, ∀ i, LastMakes start (ms ++ [.add c]) i x ↔ LastMakes start ms i x := by
    refine fun x hmem i => lastMakes_concat ?_
    rintro ⟨⟨rfl⟩, -⟩
    exact hx hmem
  have hnew : LastMakes start (ms ++ [.add c]) ms.length c :=
    lastMakes_concat_add (h.chain ▸ Ne.symm hp) (mt (h.mem_extraChains_iff c).2 hx)
  constructor
  · rw [primary_concat_add, h.chain]
  · exact hdistinct
  · intro x
    rw [extra_concat, ← h.mem_extraChains_iff, ← h.chain, List.mem_append, List.mem_singleton]
    constructor
    · rintro (hmem | rfl)
      · exact .inl ⟨hmem, by simp⟩
      · exact .inr ⟨rfl, Ne.symm hp⟩
    · rintro (⟨hmem, -⟩ | ⟨⟨rfl⟩, -⟩)
      · exact .inl hmem
      · exact .inr rfl
  · intro x hmem
    rcases List.mem_append.1 hmem with hmem | hmem
    · obtain ⟨i, hi⟩ := h.made x hmem
      exact ⟨i, (hold x hmem i).2 hi⟩
    · obtain rfl := List.mem_singleton.1 hmem
      exact ⟨_, hnew⟩
  · -- whatever was there has been added before
    refine List.pairwise_append.2 ⟨h.order.imp_of_mem ?_, List.pairwise_singleton _ _, ?_⟩
    · rintro x y hmem hmem' ⟨i, j, hij, hi, hj⟩
      exact ⟨i, j, hij, (hold x hmem i).2 hi, (hold y hmem' j).2 hj⟩
    · intro x hmem y hy
      obtain rfl := List.mem_singleton.1 hy
      obtain ⟨i, hi⟩ := h.made x hmem
      exact ⟨i, ms.length, hi.1.lt_length, (hold x hmem i).2 hi, hnew⟩

theorem addChain (h : r.Follows start ms) (c : Text) : (r.addChain c).Follows start (ms ++ [.add c]) := by
  have hdistinct := h.distinct.addChain c
  unfold Rule.addChain at hdistinct ⊢
  by_cases hc : c = r.chain ∨ c ∈ r.extraChains
  · rw [if_pos hc]
    exact h.add_of_mem hc
  · rw [if_neg hc] at hdistinct ⊢
    exact h.add_of_notMem (not_or.1 hc).1 (not_or.1 hc).2 hdistinct

theorem addChains (h : r.Follows start ms) (cs : List Text) :
    (r.addChains cs).Follows start (ms ++ cs.map .add) := by
  induction cs generalizing r ms with
  | nil => simpa [Rule.addChains] using h
  | cons c cs ih =>
    rw [List.map_cons, List.append_cons]
    exact ih (h.addChain c)

/-- A chain that has just been added is there. -/
theorem mem_of_adds {cs : List Text} {x : Text} (h : r.Follows start (ms ++ cs.map .add)) (hx : x ∈ cs) :
    x ∈ r.chain :: r.extraChains := by
  rw [List.mem_cons, h.mem_extraChains_iff, h.chain, primary_append_adds]
  by_cases hp : primary start ms = x
  · exact .inl hp.symm
  · exact .inr (extra_append_adds hx hp)

theorem call (h : r.Follows start ms) (k : ChainCall) : (r.call k).Follows start (ms ++ k.moves) := by
  cases k with
  | set c => exact h.setChain c
  | add cs => exact h.addChains cs

theorem calls (h : r.Follows start ms) (ks : List ChainCall) :
    (ks.foldl Rule.call r).Follows start (ms ++ ks.flatMap ChainCall.moves) := by
  induction ks generalizing r ms with
  | nil => simpa using h
  | cons k ks ih =>
    rw [List.flatMap_cons, ← List.append_assoc]
    exact ih (h.call k)

end Follows

/-- The primary chain may be left out of the chains to add. -/
theorem addChains_filter (r : Rule) (cs : List Text) :
    r.addChains (cs.filter (· ≠ r.chain)) = r.addChains cs := by
  induction cs generalizing r with
  | nil => rfl
  | cons c cs ih =>
    have hchain : (r.addChain c).chain = r.chain := by
      unfold addChain
      split <;> rfl
    by_cases hc : c = r.chain
    · have hadd : r.addChain c = r := if_pos (.inl hc)
      rw [List.filter_cons_of_neg (by simpa using hc), ih, addChains, addChains, List.foldl_cons, hadd]
    · rw [List.filter_cons_of_pos (by simpa using hc), addChains, List.foldl_cons, ← addChains, ← hchain, ih]
      rfl

end Rule

namespace Step
variable {s : Step}

/-- Only a step that names chains, or asks for all of them, changes the chains. -/
theorem chains_apply_of_topic_ne (h : s.topic ≠ .chains) (t : Table) (r : Rule) :
    (s.apply t r).chain = r.chain ∧ (s.apply t r).extraChains = r.extraChains := by
  obtain ⟨hc, hxs, -⟩ := Rule.chains_adopt h r (s.apply t r) r.chain []
  rw [s.apply_eq_adopt]
  exact ⟨hc, hxs⟩

/-- A step does to the chains what the calls of its clause do. -/
theorem chains_apply {strict : Bool} {cl : Clause} (h : cl.Asks strict s) (t : Table) (r : Rule) :
    (s.apply t r).chain = ((cl.chainCalls t).foldl Rule.call r).chain ∧
      (s.apply t r).extraChains = ((cl.chainCalls t).foldl Rule.call r).extraChains := by
  cases h with
  | forward => exact ⟨rfl, rfl⟩
  | output => exact ⟨rfl, rfl⟩
  | all =>
    have hothers : (otherHooks t r).map Hook.name = (t.hooks.map Hook.name).filter (· ≠ r.chain) := by
      rw [List.filter_map]
      rfl
    rw [apply, hothers, Rule.addChains_filter]
    exact ⟨rfl, rfl⟩
  | chain hn => simp [Clause.chainCalls, hn, apply, Rule.call]
  | _ => exact chains_apply_of_topic_ne (by simp [topic]) t r

end Step

/-! ### The fragments for a chain -/

theorem Hook.name_mem (h : Hook) :
    h.name ∈ (["INPUT", "FORWARD", "OUTPUT", "PREROUTING", "POSTROUTING"] : List Text) := by
  cases h <;> decide

theorem Fragment.exists_text_eq (g : Fragment) : ∃ u, g.text = "-A" ++ ' ' :: g.chain ++ ' ' :: u := by
  obtain ⟨ws, hws, hne⟩ : ∃ ws, g.words = "-A".toList :: g.chain :: ws ∧ ws ≠ [] := by
    unfold words
    generalize "-A".toList = a
    generalize "-j".toList = j
    simp only [List.flatten_cons, List.flatten_nil, List.cons_append, List.nil_append]
    -- the target stands last
    exact ⟨_, rfl, by simp only [ne_eq, List.append_eq_nil_iff, reduceCtorEq, and_false, not_false_eq_true]⟩
  obtain ⟨w, ws, rfl⟩ := List.exists_cons_of_ne_nil hne
  refine ⟨w ++ ws.flatMap (' ' :: ·), ?_⟩
  rw [text, hws, intercalate_cons_eq_append]
  simp only [List.flatMap_cons, List.append_assoc, List.cons_append]

namespace Rule
variable {r : Rule}

theorem chain_mem_of_mem_fragments {g : Fragment} {o : Option Family} (hg : g ∈ r.fragments o) :
    g.chain ∈ r.chains := by
  obtain ⟨x, hx, q, -, s, -, d, -, i, -, j, -, rfl⟩ := mem_fragments.1 hg
  exact hx

/-- The rule on one chain alone. -/
def onlyOn (r : Rule) (x : Text) : Rule := { r with chain := x, extraChains := [] }

/-- The fragments come in a block for each chain, as they are for this chain alone. -/
theorem fragments_eq_flatMap (r : Rule) (f : Option Family) :
    r.fragments f = r.chains.flatMap fun x => (r.onlyOn x).fragments f := by
  have hblock : ∀ x, (r.onlyOn x).chains = [x] := fun _ => rfl
  simp only [fragments, hblock, List.flatMap_singleton]
  rfl

theorem chains_eq (h : r.ChainsDistinct) : r.chains = r.chain :: r.extraChains := eraseDups_eq_self h

theorem render_eq_flatMap (h : r.ChainsDistinct) (f : Option Family) :
    r.render f = (r.chain :: r.extraChains).flatMap fun x => (r.onlyOn x).render f := by
  rw [render, fragments_eq_flatMap, List.map_flatMap, chains_eq h]
  rfl

theorem exists_eq_of_mem_render {x t : Text} {f : Option Family} (ht : t ∈ (r.onlyOn x).render f) :
    ∃ u, t = "-A" ++ ' ' :: x ++ ' ' :: u := by
  obtain ⟨g, hg, rfl⟩ := List.mem_map.1 ht
  have hx : g.chain = x := by simpa [mem_chains, onlyOn] using chain_mem_of_mem_fragments hg
  exact hx ▸ g.exists_text_eq

end Rule

namespace Compiler
variable {c : Compiler} {cs : List Clause} {r : Rule}

theorem follows_of_rule (hr : (c.rule cs).result = .ok r) :
    r.Follows c.chain ((cs.flatMap (Clause.chainCalls c.table)).flatMap ChainCall.moves) := by
  refine rule_induction (P := fun cs r =>
    r.Follows c.chain ((cs.flatMap (Clause.chainCalls c.table)).flatMap ChainCall.moves)) (.onChain c.chain) ?_ hr
  intro cs r cl s h hs
  obtain ⟨hchain, hextra⟩ := Step.chains_apply (Clause.step_eq_ok_iff.1 hs) c.table r
  rw [List.flatMap_append, List.flatMap_append, List.flatMap_singleton]
  exact (h.calls _).of_eq hchain hextra

/-- Whatever calls set and add chains, and whatever clauses do, the extra chains are different from each other
and from the primary one; they are those that have been added while they were not primary and have not been
set since, and they stand in the order of the additions that last made them present. The fragments of a rule
come in blocks, one for the primary chain and then one for each extra chain, as they are for this chain alone.
Those of a line are for the chain of the compiler and built-in ones, and right behind a clause that asks for
all chains the rule has every built-in chain of the table. -/
theorem chains_of_calls (c : Compiler) :
    (∀ start (ks : List ChainCall),
      (ks.foldl Rule.call (Rule.onChain start)).Follows start (ks.flatMap ChainCall.moves)) ∧
    (∀ cs r, (c.rule cs).result = .ok r →
      r.Follows c.chain ((cs.flatMap (Clause.chainCalls c.table)).flatMap ChainCall.moves)) ∧
    (∀ (r : Rule) f, (r.ChainsDistinct →
        r.render f = (r.chain :: r.extraChains).flatMap fun x => (r.onlyOn x).render f) ∧
      ∀ x, (r.onlyOn x).render f ≠ [] ∧
        ∀ t ∈ (r.onlyOn x).render f, ∃ u, t = "-A" ++ ' ' :: x ++ ' ' :: u) ∧
    (∀ line out, (c.compileLine line).result = .ok (some out) → ∀ f,
      out.ofFamily f = (c.lineFragments line f).map Fragment.text ∧
        ∀ g ∈ c.lineFragments line f, g.chain = c.chain ∨
          g.chain ∈ (["INPUT", "FORWARD", "OUTPUT", "PREROUTING", "POSTROUTING"] : List Text)) ∧
    ∀ cs r, (c.rule (cs ++ [.all])).result = .ok r →
      ∀ k ∈ c.table.hooks, k.name ∈ r.chain :: r.extraChains := by
  refine ⟨fun start ks => (Rule.Follows.onChain start).calls ks, fun cs r => follows_of_rule, fun r f =>
    ⟨fun h => Rule.render_eq_flatMap h f, fun x => ⟨?_, fun t => Rule.exists_eq_of_mem_render⟩⟩, ?_, ?_⟩
  · obtain ⟨g, hg⟩ := (r.onlyOn x).exists_mem_fragments f
    exact List.ne_nil_of_mem (List.mem_map_of_mem hg)
  · intro line out h f
    refine ⟨ofFamily_eq_map_text h f, fun g hg => ?_⟩
    obtain ⟨r, o, hr, hg⟩ := exists_rule_of_mem_lineFragments hg
    rcases eq_or_eq_name_of_mem_chains hr (Rule.chain_mem_of_mem_fragments hg) with hx | ⟨k, hk⟩
    · exact .inl hx
    · exact .inr (hk ▸ k.name_mem)
  · intro cs r hr k hk
    have hfollows := follows_of_rule hr
    have hall : ([Clause.all].flatMap (Clause.chainCalls c.table)).flatMap ChainCall.moves =
        (c.table.hooks.map Hook.name).map .add := by simp [Clause.chainCalls, ChainCall.moves]
    rw [List.flatMap_append, List.flatMap_append, hall] at hfollows
    exact hfollows.mem_of_adds (List.mem_map_of_mem hk)

theorem chains_of_calls_again :
    let c : Compiler := ⟨.filter, "INPUT", false⟩
    let line : Text := "all forward chain output,forward all"
    let adds : List ChainMove := [.add "INPUT", .add "FORWARD", .add "OUTPUT"]
    let out : List Text := ["-A OUTPUT -j ACCEPT", "-A FORWARD -j ACCEPT", "-A INPUT -j ACCEPT"]
    (c.compileLine line).result = .ok (some ⟨out, out⟩) ∧
      ∃ r, (c.rule line.clauses).result = .ok r ∧
        r.Follows "INPUT" (adds ++ [.set "FORWARD", .set "OUTPUT", .add "FORWARD"] ++ adds) ∧
        (r.onlyOn "OUTPUT").render none ++ (r.onlyOn "FORWARD").render none ++ (r.onlyOn "INPUT").render none
          = out ∧
        (∀ f, ∀ g ∈ c.lineFragments line f, g.chain = "INPUT" ∨
          g.chain ∈ (["INPUT", "FORWARD", "OUTPUT", "PREROUTING", "POSTROUTING"] : List Text)) ∧
        ∀ k ∈ Table.filter.hooks, k.name ∈ r.chain :: r.extraChains := by
  intro c line adds out
  let r : Rule := { chain := "OUTPUT", extraChains := ["FORWARD", "INPUT"] }
  have h : (c.compileLine line).result = .ok (some ⟨out, out⟩) := by decide +kernel
  have hr : (c.rule line.clauses).result = .ok r := by decide +kernel
  have hcs : line.clauses = [.all, .forward, .chain "output,forward"] ++ [.all] := by decide +kernel
  obtain ⟨-, hruns, hblocks, hlines, hall⟩ := chains_of_calls c
  have hfollows := hruns _ r hr
  have hmoves : (line.clauses.flatMap (Clause.chainCalls c.table)).flatMap ChainCall.moves =
      adds ++ [.set "FORWARD", .set "OUTPUT", .add "FORWARD"] ++ adds := by decide +kernel
  rw [hmoves] at hfollows
  refine ⟨h, r, hr, hfollows, ?_, fun f => (hlines line _ h f).2, hall _ r (hcs ▸ hr)⟩
  have hrender : r.render none = out := by decide +kernel
  rw [← hrender, (hblocks r none).1 hfollows.distinct]
  simp [r]

end Compiler

end Firewall
