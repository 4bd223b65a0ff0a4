import Firewall.Proofs.Composition
import Mathlib.Logic.Relation

/-!
# The order of clauses

Clauses on different topics may change places. A step reads and writes what the rule says on its own topic
only, which two laws tell: it leaves all else as it is (`Step.apply_eq_adopt`), and it does the same whatever
the rule says on another topic (`Step.apply_adopt`). So two steps on different topics commute
(`Step.apply_comm`), and so do their clauses (`Compiler.rule_swap`). An order of clauses that keeps the order
on each topic comes about by such exchanges (`Clause.IsReordering.swaps`). Main statement: `compileLine_reorder`.
-/

namespace Firewall

/-- What clauses may speak of. -/
inductive Topic where
  | action
  | chains
  | state
  | addresses (side : Side)
  | interfaces (way : Way)
  | ports
deriving DecidableEq, Repr

def Keyword.topic : Keyword → Topic
  | act _ => .action
  | forward | output | all | chain => .chains
  | state => .state
  | addresses e => .addresses e
  | interfaces w => .interfaces w
  | ports _ => .ports

def Clause.topic (cl : Clause) : Topic := cl.keyword.topic

def Step.topic : Step → Topic
  | act _ => .action
  | onChains _ _ | replicate => .chains
  | states _ => .state
  | networks e _ => .addresses e
  | interfaces w _ => .interfaces w
  | ports _ _ _ => .ports

theorem Clause.Asks.topic_eq {strict : Bool} {cl : Clause} {s : Step} (h : cl.Asks strict s) :
    s.topic = cl.topic := by
  cases h <;> rfl

/-! ### Steps on different topics -/

namespace Rule

/-- The rule, but on one topic with what another rule says. -/
def adopt (r : Rule) (k : Topic) (q : Rule) : Rule :=
  match k with
  | .action => { r with action := q.action }
  | .chains => { r with chain := q.chain, extraChains := q.extraChains }
  | .state => { r with matchRules := q.matchRules }
  | .addresses .source => { r with source := { r.source with networks := q.source.networks } }
  | .addresses .destination =>
    { r with destination := { r.destination with networks := q.destination.networks } }
  | .interfaces .incoming => { r with inInterfaces := q.inInterfaces }
  | .interfaces .outgoing => { r with outInterfaces := q.outInterfaces }
  | .ports =>
    { r with
      protocol := q.protocol
      extraProtocols := q.extraProtocols
      source := { r.source with ports := q.source.ports }
      destination := { r.destination with ports := q.destination.ports } }

variable {k : Topic}

theorem adopt_adopt {j : Topic} (h : j ≠ k) (x y z : Rule) : x.adopt j (y.adopt k z) = x.adopt j y := by
  rcases j with _ | _ | _ | (_ | _) | (_ | _) | _ <;> rcases k with _ | _ | _ | (_ | _) | (_ | _) | _ <;>
    first | rfl | exact absurd rfl h

theorem chains_adopt (h : k ≠ .chains) (r q : Rule) (c : Text) (xs : List Text) :
    (r.adopt k q).chain = r.chain ∧ (r.adopt k q).extraChains = r.extraChains ∧
      { r.adopt k q with chain := c, extraChains := xs } =
        { r with chain := c, extraChains := xs }.adopt k q := by
  cases k with
  | chains => exact absurd rfl h
  | addresses e => cases e <;> exact ⟨rfl, rfl, rfl⟩
  | interfaces w => cases w <;> exact ⟨rfl, rfl, rfl⟩
  | _ => exact ⟨rfl, rfl, rfl⟩

theorem protocols_adopt (h : k ≠ .ports) (r q : Rule) (p : Option Protocol) (ps : List Protocol) :
    (r.adopt k q).protocol = r.protocol ∧ (r.adopt k q).extraProtocols = r.extraProtocols ∧
      { r.adopt k q with protocol := p, extraProtocols := ps } =
        { r with protocol := p, extraProtocols := ps }.adopt k q := by
  cases k with
  | ports => exact absurd rfl h
  | addresses e => cases e <;> exact ⟨rfl, rfl, rfl⟩
  | interfaces w => cases w <;> exact ⟨rfl, rfl, rfl⟩
  | _ => exact ⟨rfl, rfl, rfl⟩

theorem addChain_adopt (h : k ≠ .chains) (r q : Rule) (c : Text) :
    (r.adopt k q).addChain c = (r.addChain c).adopt k q := by
  obtain ⟨hc, hxs, hset⟩ := chains_adopt h r q r.chain (r.extraChains ++ [c])
  unfold addChain
  rw [hc, hxs]
  split
  · rfl
  · rw [← hset, ← hc]

theorem addChains_adopt (h : k ≠ .chains) (r q : Rule) (cs : List Text) :
    (r.adopt k q).addChains cs = (r.addChains cs).adopt k q := by
  induction cs generalizing r with
  | nil => rfl
  | cons c cs ih =>
    rw [addChains, List.foldl_cons, addChain_adopt h]
    exact ih (r.addChain c)

theorem setChain_adopt (h : k ≠ .chains) (r q : Rule) (c : Text) :
    (r.adopt k q).setChain c = (r.setChain c).adopt k q := by
  obtain ⟨-, hxs, hset⟩ := chains_adopt h r q c (r.extraChains.filter (· ≠ c))
  rw [setChain, hxs, hset]
  rfl

theorem addProtocol_adopt (h : k ≠ .ports) (r q : Rule) (p : Protocol) :
    (r.adopt k q).addProtocol p = (r.addProtocol p).adopt k q := by
  obtain ⟨hp, hps, hset⟩ := protocols_adopt h r q r.protocol (r.extraProtocols ++ [p])
  unfold addProtocol
  rw [hp, hps]
  split
  · rfl
  · rw [← hset, ← hp]

theorem chooseProtocol_adopt (h : k ≠ .ports) (r q : Rule) (ch : Option ProtocolChoice) :
    (r.adopt k q).chooseProtocol ch = (r.chooseProtocol ch).adopt k q := by
  have hp := (protocols_adopt h r q none []).1
  have hset : ∀ p, { r.adopt k q with protocol := some p } = ({ r with protocol := some p } : Rule).adopt k q := by
    intro p
    obtain ⟨-, hps, hset⟩ := protocols_adopt h r q (some p) r.extraProtocols
    rw [← hset, ← hps]
  unfold chooseProtocol
  rw [hp]
  split
  · exact hset _
  · exact hset _
  · rw [hset, addProtocol_adopt h]
  · rw [addProtocol_adopt h, addProtocol_adopt h]
  · rfl

end Rule

namespace Step
variable {a b s : Step} {k : Topic}

/-- A step changes what the rule says on its own topic only. -/
theorem apply_eq_adopt (s : Step) (t : Table) (r : Rule) : s.apply t r = r.adopt s.topic (s.apply t r) := by
  cases s with
  | onChains h others =>
    obtain ⟨xs, hxs⟩ := (r.setChain h.name).addChains_eq (others.map Hook.name)
    rw [apply, hxs]
    rfl
  | replicate =>
    obtain ⟨xs, hxs⟩ := r.addChains_eq ((otherHooks t r).map Hook.name)
    rw [apply, hxs]
    rfl
  | networks e ns => cases e <;> rfl
  | interfaces w ns => cases w <;> rfl
  | ports e ch ss =>
    obtain ⟨ps, hps⟩ := r.chooseProtocol_eq ch
    rw [apply, hps]
    cases e <;> rfl
  | _ => rfl

/-- A step does the same whatever the rule says on another topic. -/
theorem apply_adopt (h : k ≠ s.topic) (t : Table) (r q : Rule) :
    s.apply t (r.adopt k q) = (s.apply t r).adopt k q := by
  cases s with
  | onChains hook others => rw [apply, Rule.setChain_adopt h, Rule.addChains_adopt h, apply]
  | replicate =>
    have hother : otherHooks t (r.adopt k q) = otherHooks t r := by
      unfold otherHooks
      rw [(Rule.chains_adopt h r q r.chain []).1]
    rw [apply, hother, Rule.addChains_adopt h, apply]
  | networks e ns =>
    rcases k with _ | _ | _ | (_ | _) | (_ | _) | _ <;> cases e <;> first | rfl | exact absurd rfl h
  | interfaces w ns =>
    rcases k with _ | _ | _ | (_ | _) | (_ | _) | _ <;> cases w <;> first | rfl | exact absurd rfl h
  | ports e ch ss =>
    rw [apply, Rule.chooseProtocol_adopt h, apply]
    rcases k with _ | _ | _ | (_ | _) | (_ | _) | _ <;> cases e <;> first | rfl | exact absurd rfl h
  | _ => rcases k with _ | _ | _ | (_ | _) | (_ | _) | _ <;> first | rfl | exact absurd rfl h

/-- Steps on different topics may be taken in either order. -/
theorem apply_comm (h : a.topic ≠ b.topic) (t : Table) (r : Rule) :
    b.apply t (a.apply t r) = a.apply t (b.apply t r) := by
  -- each order leaves the rule of `b` alone with what `a` says on its topic
  calc b.apply t (a.apply t r)
      = b.apply t (r.adopt a.topic (a.apply t r)) := by rw [← a.apply_eq_adopt]
    _ = (b.apply t r).adopt a.topic (a.apply t r) := apply_adopt h t r _
    _ = (b.apply t r).adopt a.topic ((a.apply t r).adopt b.topic (b.apply t r)) :=
      (Rule.adopt_adopt h _ _ _).symm
    _ = (b.apply t r).adopt a.topic (a.apply t (r.adopt b.topic (b.apply t r))) := by
      rw [apply_adopt h.symm]
    _ = (b.apply t r).adopt a.topic (a.apply t (b.apply t r)) := by rw [← b.apply_eq_adopt]
    _ = a.apply t (b.apply t r) := (a.apply_eq_adopt t _).symm

end Step

/-! ### Clauses in another order -/

namespace Clause
variable {cs cs' : List Clause}

/-- Whether two lists of clauses are the same but for the order of clauses on different topics. -/
def IsReordering (cs cs' : List Clause) : Prop :=
  ∀ k, cs'.filter (fun cl => cl.topic = k) = cs.filter fun cl => cl.topic = k

/-- Two neighbours on different topics change places. -/
inductive Swap : List Clause → List Clause → Prop
  | intro (pre : List Clause) {a b : Clause} (h : a.topic ≠ b.topic) (post : List Clause) :
    Swap (pre ++ a :: b :: post) (pre ++ b :: a :: post)

theorem IsReordering.mem_iff {cl : Clause} (h : IsReordering cs cs') : cl ∈ cs' ↔ cl ∈ cs := by
  have hmem : ∀ l : List Clause, cl ∈ l ↔ cl ∈ l.filter fun x => x.topic = cl.topic := by simp
  rw [hmem cs', h, ← hmem cs]

theorem Swap.cons (h : Swap cs cs') (cl : Clause) : Swap (cl :: cs) (cl :: cs') := by
  obtain ⟨pre, h, post⟩ := h
  exact .intro (cl :: pre) h post

theorem Swap.isReordering (h : Swap cs cs') : IsReordering cs cs' := by
  obtain @⟨pre, a, b, h, post⟩ := h
  intro k
  by_cases ha : a.topic = k
  · have hb : b.topic ≠ k := fun hb => h (ha.trans hb.symm)
    simp [ha, hb]
  · simp [List.filter_cons, ha]

theorem swaps_to_front {b : Clause} {pre : List Clause} (h : ∀ a ∈ pre, a.topic ≠ b.topic)
    (post : List Clause) : Relation.ReflTransGen Swap (pre ++ b :: post) (b :: (pre ++ post)) := by
  -- the clauses nearest to `b` let it pass first
  induction pre with
  | nil => exact .refl
  | cons a pre ih =>
    obtain ⟨ha, hpre⟩ := List.forall_mem_cons.1 h
    have htail := (ih hpre).lift (a :: ·) fun _ _ hs => hs.cons a
    exact htail.tail (.intro [] ha (pre ++ post))

theorem IsReordering.of_cons {b : Clause} {pre post : List Clause} (hpre : ∀ a ∈ pre, a.topic ≠ b.topic)
    (h : IsReordering (pre ++ b :: post) (b :: cs')) : IsReordering (pre ++ post) cs' := by
  intro k
  have hk := h k
  by_cases hb : b.topic = k
  · have hfilter : pre.filter (fun cl => cl.topic = k) = [] :=
      List.filter_eq_nil_iff.2 fun a ha => by simpa [hb] using hpre a ha
    simpa [List.filter_cons, hb, hfilter] using hk
  · simpa [List.filter_cons, hb] using hk

/-- Each order that keeps the order on each topic comes about by exchanging neighbours. -/
theorem IsReordering.swaps (h : IsReordering cs cs') : Relation.ReflTransGen Swap cs cs' := by
  induction cs' generalizing cs with
  | nil =>
    have hcs : cs = [] := by
      rw [List.eq_nil_iff_forall_not_mem]
      intro cl hcl
      cases h.mem_iff.2 hcl
    exact hcs ▸ .refl
  | cons b cs' ih =>
    -- the first clause on the topic of `b` is `b`, which comes to the front
    have hb := (h b.topic).symm
    rw [List.filter_cons_of_pos (by simp), List.filter_eq_cons_iff] at hb
    obtain ⟨pre, post, rfl, hpre, -, -⟩ := hb
    have hother : ∀ a ∈ pre, a.topic ≠ b.topic := fun a ha => by simpa using hpre a ha
    have hrest := (ih (h.of_cons hother)).lift (b :: ·) fun _ _ hs => hs.cons b
    exact (swaps_to_front hother post).trans hrest

theorem topic_of_skipped {strict : Bool} {cl : Clause} (h : cl.skipped strict ≠ []) : cl.topic = .ports := by
  cases cl with
  | ports e p l => rfl
  | _ => exact absurd rfl h

theorem flatMap_skipped (strict : Bool) (cs : List Clause) :
    cs.flatMap (skipped strict) = (cs.filter fun cl => cl.topic = .ports).flatMap (skipped strict) := by
  induction cs with
  | nil => rfl
  | cons cl cs ih =>
    by_cases hcl : cl.topic = .ports
    · rw [List.filter_cons_of_pos (by simpa using hcl), List.flatMap_cons, List.flatMap_cons, ih]
    · have hskip : cl.skipped strict = [] := by_contra fun h => hcl (topic_of_skipped h)
      rw [List.filter_cons_of_neg (by simpa using hcl), List.flatMap_cons, hskip, List.nil_append, ih]

end Clause

namespace Compiler
variable {c : Compiler} {cs cs' : List Clause} {r : Rule}

theorem rule_swap (h : Clause.Swap cs cs') (hr : (c.rule cs).result = .ok r) :
    (c.rule cs').result = .ok r := by
  obtain @⟨pre, a, b, h, post⟩ := h
  induction post using List.reverseRecOn generalizing r with
  | nil =>
    rw [List.append_cons pre a [b], rule_concat_eq_ok] at hr
    obtain ⟨_, sb, hr, hsb, rfl⟩ := hr
    obtain ⟨r, sa, hpre, hsa, rfl⟩ := rule_concat_eq_ok.1 hr
    have htopic : sa.topic ≠ sb.topic := by
      rw [(Clause.step_eq_ok_iff.1 hsa).topic_eq, (Clause.step_eq_ok_iff.1 hsb).topic_eq]
      exact h
    rw [List.append_cons pre b [a], rule_concat_eq_ok]
    exact ⟨_, sa, rule_concat_eq_ok.2 ⟨r, sb, hpre, hsb, rfl⟩, hsa, Step.apply_comm htopic c.table r⟩
  | append_singleton post cl ih =>
    rw [← List.cons_append, ← List.cons_append, ← List.append_assoc] at hr ⊢
    obtain ⟨r', s, hr', hs, rfl⟩ := rule_concat_eq_ok.1 hr
    exact rule_concat_eq_ok.2 ⟨r', s, ih hr', hs, rfl⟩

theorem rule_reorder (h : Clause.IsReordering cs cs') (hr : (c.rule cs).result = .ok r) :
    (c.rule cs').result = .ok r := by
  have hswaps := h.swaps
  clear h
  induction hswaps with
  | refl => exact hr
  | tail _ hs ih => exact rule_swap hs ih

/-- The clauses of a line with a ruleset may be put in any order that keeps the order on each topic, an
exchange of neighbours on different topics among them: every line of these clauses, with a comment behind
them or none, is read as these clauses, has the same ruleset and warns of the same. There is one such line
with the comment of the first. -/
theorem compileLine_reorder (c : Compiler) (line : Text) {out : Ruleset}
    (h : (c.compileLine line).result = .ok (some out)) :
    (∃ left, line.IsComposed line.clauses left ∧ ∀ cs, Clause.IsReordering line.clauses cs →
      (Text.ofWords (cs.flatMap Clause.words ++ left)).IsComposed cs left) ∧
    (∀ pre a b post, line.clauses = pre ++ a :: b :: post → a.topic ≠ b.topic →
      Clause.IsReordering line.clauses (pre ++ b :: a :: post)) ∧
    ∀ cs, Clause.IsReordering line.clauses cs → ∀ line' left, line'.IsComposed cs left →
      line'.clauses = cs ∧ (c.compileLine line').result = .ok (some out) ∧
        (c.compileLine line').warnings = (c.compileLine line).warnings := by
  obtain ⟨hd, r, hr, -⟩ := compileLine_eq_some_iff.1 h
  refine ⟨?_, fun pre a b post hcs hab => hcs ▸ (Clause.Swap.intro pre hab post).isReordering, ?_⟩
  · obtain ⟨left, hleft⟩ := Text.exists_isComposed hd
    have hword : ∀ w ∈ line.clauses.flatMap Clause.words ++ left, Text.IsWord w :=
      hleft.1 ▸ fun w => Text.isWord_of_mem_words
    refine ⟨left, hleft, fun cs hcs => Text.isComposed_ofWords (fun cl hcl w hw => hword w ?_)
      (fun w hw => hword w (List.mem_append_right _ hw)) hleft.2⟩
    exact List.mem_append_left _ (List.mem_flatMap.2 ⟨cl, hcs.mem_iff.1 hcl, hw⟩)
  · intro cs hcs line' left hline'
    have hlegible : ∀ cl ∈ cs, cl.IsLegible := fun cl hcl => Clause.isLegible_of_mem (hcs.mem_iff.1 hcl)
    have hclauses := hline'.clauses_eq hlegible
    have hr' : (c.rule line'.clauses).result = .ok r := hclauses ▸ rule_reorder hcs hr
    have hnil : line'.clauses = [] ↔ line.clauses = [] := by
      simp only [hclauses, List.eq_nil_iff_forall_not_mem, hcs.mem_iff]
    have hres := compileLine_of_rule h hr (hline'.isDone_ending hlegible) hnil hr'
    refine ⟨hclauses, hres, ?_⟩
    rw [warnings_eq hres hr', warnings_eq h hr, hclauses, Clause.flatMap_skipped, hcs,
      ← Clause.flatMap_skipped]

theorem compileLine_reorder_all :
    let c : Compiler := ⟨.filter, "INPUT", false⟩
    let line : Text := "port 80,0 tcp from 10.0.0.1/8 chain output drop all # x"
    let line' : Text := "drop chain output from 10.0.0.1/8 all port 80,0 tcp"
    ∃ out, (c.compileLine line).result = .ok (some out) ∧ (c.compileLine line').result = .ok (some out) ∧
      (c.compileLine line').warnings = (c.compileLine line).warnings ∧ (c.compileLine line).warnings ≠ [] := by
  intro c line line'
  let out : Ruleset :=
    ⟨["-A OUTPUT -p tcp -s 10.0.0.0/8 --dport 80 -j DROP", "-A INPUT -p tcp -s 10.0.0.0/8 --dport 80 -j DROP",
      "-A FORWARD -p tcp -s 10.0.0.0/8 --dport 80 -j DROP"], []⟩
  let cs : List Clause :=
    [.act .drop, .chain "output", .addresses .source "10.0.0.1/8", .all,
      .ports .destination (.after "tcp") "80,0"]
  have h : (c.compileLine line).result = .ok (some out) := by decide +kernel
  have hcs : Clause.IsReordering line.clauses cs := by
    have hline : line.clauses = [.ports .destination (.after "tcp") "80,0",
      .addresses .source "10.0.0.1/8", .chain "output", .act .drop, .all] := by decide +kernel
    rw [hline]
    intro k
    rcases k with _ | _ | _ | (_ | _) | (_ | _) | _ <;> decide +kernel
  obtain ⟨-, -, hsame⟩ := compileLine_reorder c line h
  obtain ⟨-, hres, hwarn⟩ := hsame cs hcs line' [] ⟨by decide +kernel, .inl rfl⟩
  exact ⟨out, h, hres, hwarn, by decide +kernel⟩

end Compiler

end Firewall
