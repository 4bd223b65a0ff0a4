import Firewall.Proofs.Restrictions
import Mathlib.Data.List.Induction
import Mathlib.Tactic.Ring

/-!
# The fragments of a rule as a product

`Rule.fragments` runs through six lists, and the place of a fragment is a number in a mixed radix whose
digits are the places of its components: `Rule.getElem?_fragments`, by one lemma on blocks of equal length
(`getElem?_flatMap_of_length`). `Rule.written` is the text of a fragment, part by part
(`Rule.text_fragment`). Main statement: `Rule.render_product`.
-/

namespace Firewall

/-! ### Lists without repeats -/

section
variable {α β : Type}

theorem eraseDups_concat [BEq α] [LawfulBEq α] (l : List α) (a : α) :
    (l ++ [a]).eraseDups = if a ∈ l then l.eraseDups else l.eraseDups ++ [a] := by
  rw [List.eraseDups_append]
  by_cases ha : a ∈ l <;> simp [List.removeAll, ha, List.eraseDups_cons]

theorem eraseDups_eq_self [BEq α] [LawfulBEq α] {l : List α} (h : l.Nodup) : l.eraseDups = l := by
  induction l using List.reverseRecOn with
  | nil => rfl
  | append_singleton l a ih =>
    obtain ⟨hl, -, ha⟩ := List.nodup_append.1 h
    have hnot : a ∉ l := fun hmem => ha a hmem a (by simp) rfl
    rw [eraseDups_concat, if_neg hnot, ih hl]

/-- Repeats are left out one by one: an item is taken unless it is there already. -/
theorem foldl_eq_eraseDups [BEq α] [LawfulBEq α] (a : α) (l : List α) :
    l.foldl (fun as b => if b ∈ as then as else as ++ [b]) [a] = (a :: l).eraseDups := by
  induction l using List.reverseRecOn with
  | nil => rfl
  | append_singleton l b ih =>
    rw [List.foldl_append, ih, ← List.cons_append, eraseDups_concat]
    exact if_congr List.mem_eraseDups rfl rfl

/-! ### Blocks of equal length -/

theorem mul_add_lt_mul {m n i j : Nat} (hi : i < m) (hj : j < n) : i * n + j < m * n := by
  calc i * n + j < i * n + n := by omega
    _ = (i + 1) * n := by rw [Nat.add_mul, Nat.one_mul]
    _ ≤ m * n := Nat.mul_le_mul_right n hi

/-- An entry of a list of blocks is found in its block. -/
theorem getElem?_flatMap_of_length {f : α → List β} {n : Nat} (hf : ∀ a, (f a).length = n) {l : List α}
    {a : α} {i j : Nat} (hi : l[i]? = some a) (hj : j < n) : (l.flatMap f)[i * n + j]? = (f a)[j]? := by
  induction l generalizing i with
  | nil => simp at hi
  | cons b l ih =>
    rw [List.flatMap_cons]
    cases i with
    | zero =>
      obtain rfl : b = a := by simpa using hi
      rw [Nat.zero_mul, Nat.zero_add, List.getElem?_append_left (by rw [hf]; exact hj)]
    | succ i =>
      have hn : (i + 1) * n + j = n + (i * n + j) := by rw [Nat.add_mul, Nat.one_mul]; omega
      rw [hn, List.getElem?_append_right (by rw [hf]; omega), hf, Nat.add_sub_cancel_left]
      exact ih hi

end

/-! ### The text of a fragment -/

/-- A flag with its value behind a space, if there is a value. -/
def flagPart (flag : Text) : Option Text → Text
  | some value => ' ' :: flag ++ ' ' :: value
  | none => []

/-- The match on ports: `--FLAG P` for one port, `-m multiport --FLAGs P,Q` for more. -/
def portPart (flag : Text) : List Text → Text
  | [] => []
  | [p] => " --" ++ flag ++ ' ' :: p
  | ps => " -m multiport --" ++ flag ++ "s " ++ Text.ofItems ps

namespace Rule

/-- A fragment as it is written: the chain, the interfaces, the protocol and the networks that there are,
the ports beside a protocol, the matches of the rule and its target. -/
def written (r : Rule) (chain : Text) (protocol : Option Protocol) (source destination : Option Network)
    (inInterface outInterface : Option Text) : Text :=
  "-A" ++ ' ' :: chain ++ flagPart "-i" inInterface ++ flagPart "-o" outInterface
    ++ flagPart "-p" (protocol.map Protocol.name)
    ++ flagPart "-s" (source.map Network.text) ++ flagPart "-d" (destination.map Network.text)
    ++ (if protocol.isSome then portPart "sport" r.source.ports else [])
    ++ (if protocol.isSome then portPart "dport" r.destination.ports else [])
    ++ r.matchRules.flatMap (' ' :: ·) ++ flagPart "-j" (some r.action.target)

end Rule

theorem flatMap_flagged (flag : Text) (o : Option Text) :
    (Fragment.flagged flag o).flatMap (' ' :: ·) = flagPart flag o := by
  cases o <;> simp [Fragment.flagged, flagPart]

theorem flatMap_portMatch (flag : Text) (ps : List Text) :
    (Fragment.portMatch flag ps).flatMap (' ' :: ·) = portPart flag ps := by
  match ps with
  | [] => rfl
  | [p] => simp [Fragment.portMatch, portPart]
  | p :: q :: ps => simp [Fragment.portMatch, portPart]

namespace Rule
variable {r : Rule} {f : Option Family}

theorem text_fragment (r : Rule) (chain : Text) (protocol : Option Protocol)
    (source destination : Option Network) (inInterface outInterface : Option Text) :
    (r.fragment chain protocol source destination inInterface outInterface).text =
      r.written chain protocol source destination inInterface outInterface := by
  have hports : ∀ flag ps, (if protocol.isSome then Fragment.portMatch flag ps else []).flatMap (' ' :: ·) =
      if protocol.isSome then portPart flag ps else [] := by
    intro flag ps
    rw [← flatMap_portMatch]
    split <;> rfl
  unfold Fragment.text Fragment.words fragment written
  generalize "-A".toList = w
  simp only [List.flatten_cons, List.flatten_nil, List.cons_append, List.nil_append, intercalate_cons_eq_append,
    List.flatMap_cons, List.flatMap_append, List.flatMap_nil, flatMap_flagged, hports, flagPart,
    List.append_nil, List.append_assoc]

/-! ### The place of a fragment -/

/-- The fragment whose components stand at given places stands at the place with these digits, the place of
the chain first. -/
theorem getElem?_fragments {chain : Text} {protocol : Option Protocol} {source destination : Option Network}
    {inInterface outInterface : Option Text} {c p s d i o : Nat} (hc : r.chains[c]? = some chain)
    (hp : r.protocols[p]? = some protocol)
    (hs : (orAbsent (r.source.networks.select f))[s]? = some source)
    (hd : (orAbsent (r.destination.networks.select f))[d]? = some destination)
    (hi : (orAbsent r.inInterfaces)[i]? = some inInterface)
    (ho : (orAbsent r.outInterfaces)[o]? = some outInterface) :
    (r.fragments f)[((((c * r.protocols.length + p) * (orAbsent (r.source.networks.select f)).length + s)
        * (orAbsent (r.destination.networks.select f)).length + d) * (orAbsent r.inInterfaces).length + i)
        * (orAbsent r.outInterfaces).length + o]? =
      some (r.fragment chain protocol source destination inInterface outInterface) := by
  have hlt : ∀ {α : Type} {l : List α} {n : Nat} {a : α}, l[n]? = some a → n < l.length :=
    fun h => (List.getElem?_eq_some_iff.1 h).1
  generalize hP : r.protocols.length = P
  generalize hS : (orAbsent (r.source.networks.select f)).length = S
  generalize hD : (orAbsent (r.destination.networks.select f)).length = D
  generalize hI : (orAbsent r.inInterfaces).length = I
  generalize hO : (orAbsent r.outInterfaces).length = O
  -- the digits in front tell the block, those behind the place in it
  have hindex : ((((c * P + p) * S + s) * D + d) * I + i) * O + o =
      c * (P * (S * (D * (I * O)))) + (p * (S * (D * (I * O))) + (s * (D * (I * O)) +
        (d * (I * O) + (i * O + o)))) := by ring
  have h₁ : i * O + o < I * O := mul_add_lt_mul (hI ▸ hlt hi) (hO ▸ hlt ho)
  have h₂ : d * (I * O) + (i * O + o) < D * (I * O) := mul_add_lt_mul (hD ▸ hlt hd) h₁
  have h₃ := mul_add_lt_mul (hS ▸ hlt hs) h₂
  have h₄ := mul_add_lt_mul (hP ▸ hlt hp) h₃
  rw [hindex, fragments]
  rw [getElem?_flatMap_of_length (by simp [List.length_flatMap, List.map_const', *]) hc h₄,
    getElem?_flatMap_of_length (by simp [List.length_flatMap, List.map_const', *]) hp h₃,
    getElem?_flatMap_of_length (by simp [List.length_flatMap, List.map_const', *]) hs h₂,
    getElem?_flatMap_of_length (by simp [List.length_flatMap, List.map_const', *]) hd h₁,
    getElem?_flatMap_of_length (by simp [hO]) hi (hO ▸ hlt ho),
    List.getElem?_map, ho]
  rfl

/-- How many fragments a rule has for a chain and a protocol. -/
def variants (r : Rule) (f : Option Family) : Nat :=
  (orAbsent (r.source.networks.select f)).length * ((orAbsent (r.destination.networks.select f)).length *
    ((orAbsent r.inInterfaces).length * (orAbsent r.outInterfaces).length))

theorem variants_pos (r : Rule) (f : Option Family) : 0 < r.variants f := by
  have hpos : ∀ {α : Type} (l : List α), 0 < (orAbsent l).length :=
    fun l => List.length_pos_iff.2 (orAbsent_ne_nil l)
  exact Nat.mul_pos (hpos _) (Nat.mul_pos (hpos _) (Nat.mul_pos (hpos _) (hpos _)))

/-- What the chain and the protocol of a fragment decide comes in blocks of equal length: for each chain
in its place, for each protocol in its place. -/
theorem map_fragments {α : Type} (key : Fragment → α) {k : Text → Option Protocol → α}
    (hk : ∀ g, key g = k g.chain g.protocol) (r : Rule) (f : Option Family) :
    (r.fragments f).map key =
      r.chains.flatMap fun c => r.protocols.flatMap fun p => List.replicate (r.variants f) (k c p) := by
  simp only [fragments, List.map_flatMap]
  congr 1
  funext c
  congr 1
  funext p
  rw [List.eq_replicate_iff]
  constructor
  · simp [variants, List.length_flatMap, List.map_const']
  · simp +contextual [hk, fragment]

/-- The blocks are empty for a family that the rule does not use only if it uses the other one. -/
theorem exists_map_fragmentsFor {α : Type} (key : Fragment → α) {k : Text → Option Protocol → α}
    (hk : ∀ g, key g = k g.chain g.protocol) (r : Rule) (f : Family) :
    ∃ n, (0 < n ↔ (r.uses f.other = true → r.uses f = true)) ∧ (r.fragmentsFor f).map key =
      r.chains.flatMap fun c => r.protocols.flatMap fun p => List.replicate n (k c p) := by
  unfold fragmentsFor
  split
  · next hf => exact ⟨_, by simp [variants_pos, hf], map_fragments key hk r (some f)⟩
  · next hf =>
    split
    · next ho => exact ⟨0, by simp [hf, ho], by simp⟩
    · next ho => exact ⟨_, by simp [variants_pos, ho], map_fragments key hk r none⟩

theorem protocols_eq (r : Rule) :
    r.protocols = r.protocol.elim [none] fun p => (p :: r.extraProtocols).map some := by
  unfold protocols
  cases r.protocol <;> rfl

/-- The fragments of a rule are all combinations of a chain, a protocol, a network at either end and an
interface of either way, each at the place whose digits in a mixed radix are the places of its components,
the chain first. Repeated chains count once, where they come first, and an empty list counts as one choice of
nothing. A rule without networks of a family has the same fragments for the other family as for both. Nothing is
asked of the rule: a network that no clause names, say one with host bits, is printed as it is. -/
theorem render_product (r : Rule) (f : Option Family) :
    let C := (r.chain :: r.extraChains).eraseDups
    let P := r.protocol.elim [none] fun p => (p :: r.extraProtocols).map some
    let S := orAbsent (r.source.networks.select f)
    let D := orAbsent (r.destination.networks.select f)
    let I := orAbsent r.inInterfaces
    let O := orAbsent r.outInterfaces
    C = r.extraChains.foldl (fun cs x => if x ∈ cs then cs else cs ++ [x]) [r.chain] ∧
    (r.render f).length = C.length * P.length * S.length * D.length * I.length * O.length ∧
    (∀ (c : Fin C.length) (p : Fin P.length) (s : Fin S.length) (d : Fin D.length) (i : Fin I.length)
      (o : Fin O.length),
      (r.render f)[((((c * P.length + p) * S.length + s) * D.length + d) * I.length + i) * O.length + o]? =
        some (r.written C[c] P[p] S[s] D[d] I[i] O[o])) ∧
    r.render f ≠ [] ∧
    ∀ g : Family, r.source.networks.ofFamily g.other = [] → r.destination.networks.ofFamily g.other = [] →
      r.render none = r.render (some g) := by
  intro C P S D I O
  have hP : r.protocols = P := r.protocols_eq
  have hlength : (r.render f).length =
      C.length * P.length * S.length * D.length * I.length * O.length := by
    rw [render, List.length_map, length_fragments, hP]
    simp only [Nat.mul_assoc]
    rfl
  refine ⟨(foldl_eq_eraseDups _ _).symm, hlength, fun c p s d i o => ?_, ?_, fun g hs hd => ?_⟩
  · have hget : ∀ {α : Type} (l : List α) (n : Fin l.length), l[(n : ℕ)]? = some l[n] := by simp
    have hp : r.protocols[(p : ℕ)]? = some P[p] := by rw [hP, hget P p]
    have hentry := getElem?_fragments (hget C c) hp (hget S s) (hget D d) (hget I i) (hget O o)
    rw [hP] at hentry
    rw [render, List.getElem?_map, hentry, Option.map_some, text_fragment]
  · obtain ⟨g, hg⟩ := r.exists_mem_fragments f
    exact List.ne_nil_of_mem (List.mem_map_of_mem hg)
  · have hsel : ∀ e : Side, (r.endpoint e).networks.ofFamily g.other = [] →
        (r.endpoint e).networks.select none = (r.endpoint e).networks.select (some g) := by
      intro e he
      cases g <;> simp_all [Networks.select, Networks.ofFamily, Family.other]
    have hs' := hsel .source hs
    have hd' := hsel .destination hd
    simp only [endpoint] at hs' hd'
    simp only [render, fragments, hs', hd']

theorem render_product_repeats :
    let net : Network := ⟨.v4 0x0A000000#32, 8, by decide⟩
    let net' : Network := ⟨.v4 0x0A000001#32, 8, by decide⟩
    let r : Rule :=
      { chain := "A", extraChains := ["B", "A", "B"], protocol := some .udp, extraProtocols := [.udp, .tcp]
        source := { ports := ["7"] }, destination := { networks := ⟨[net, net'], []⟩, ports := ["1", "2"] }
        outInterfaces := ["x"], matchRules := ["", "m"] }
    net'.hasHostBits = true ∧ (r.render none).length = 12 ∧ r.render none = r.render (some .v4) ∧
      (r.render none)[11]? =
        some "-A B -o x -p tcp -d 10.0.0.1/8 --sport 7 -m multiport --dports 1,2  m -j ACCEPT".toList := by
  intro net net' r
  obtain ⟨-, hlength, hentry, -, hfamily⟩ := render_product r none
  refine ⟨by decide, hlength.trans (by decide), hfamily .v4 rfl rfl, ?_⟩
  -- the last chain, protocol and destination, of two, three and two
  exact (hentry ⟨1, by decide⟩ ⟨2, by decide⟩ ⟨0, by decide⟩ ⟨1, by decide⟩ ⟨0, by decide⟩ ⟨0, by decide⟩).trans
    (by decide +kernel)

end Rule

end Firewall
