import Firewall.Proofs.Families

/-!
# Rules of one family

What a line says for one filter does not depend on the literals of the other family. `Clause.without`
erases them from a clause, `Rule.without` takes their networks out of a rule, and `rule_without` says
that the two agree: compiling what is left of the clauses gives what is left of the rule. Main
statement: `ofFamily_eq_of_without`.
-/

namespace Firewall

namespace Clause

/-- The clause without the literals of a family; `none` if it names no other. Of the two words that
let a packet pass one stands for both. -/
def without (f : Family) : Clause → Option Clause
  | addresses e t =>
    let ls := t.items.filter fun l => Literal.family? l ≠ some f
    if ls = [] then none else some (addresses e (Text.ofItems ls))
  | act .accept => some (act .allow)
  | cl => some cl

end Clause

def Networks.without (f : Family) (ns : Networks) : Networks :=
  match f with
  | .v4 => { ns with v4 := [] }
  | .v6 => { ns with v6 := [] }

def Endpoint.without (f : Family) (p : Endpoint) : Endpoint :=
  { p with networks := p.networks.without f }

def Rule.without (f : Family) (r : Rule) : Rule :=
  { r with source := r.source.without f, destination := r.destination.without f }

namespace Rule
variable {f : Family}

theorem addChains_without (r : Rule) (cs : List Text) :
    (r.without f).addChains cs = (r.addChains cs).without f := by
  induction cs generalizing r with
  | nil => rfl
  | cons c cs ih =>
    have hc : (r.without f).addChain c = (r.addChain c).without f := by
      show (if c = r.chain ∨ c ∈ r.extraChains then _ else _) = (if _ then _ else _ : Rule).without f
      split <;> rfl
    rw [addChains, List.foldl_cons, hc]
    exact ih (r.addChain c)

theorem addProtocol_without (r : Rule) (p : Protocol) :
    (r.without f).addProtocol p = (r.addProtocol p).without f := by
  show (if r.protocol = some p ∨ p ∈ r.extraProtocols then _ else _) = (if _ then _ else _ : Rule).without f
  split <;> rfl

theorem chooseProtocol_without (r : Rule) (ch : Option ProtocolChoice) :
    (r.without f).chooseProtocol ch = (r.chooseProtocol ch).without f := by
  have hp : (r.without f).protocol = r.protocol := rfl
  have htcp : { r.without f with protocol := some .tcp } = ({ r with protocol := some .tcp } : Rule).without f :=
    rfl
  unfold chooseProtocol
  rw [hp, htcp]
  split
  · rfl
  · rfl
  · exact addProtocol_without _ _
  · rw [addProtocol_without, addProtocol_without]
  · rfl

theorem addNetworks_without (r : Rule) (e : Side) (ns : List Network) :
    (r.without f).addNetworks e (ns.filter fun n => n.family ≠ f) = (r.addNetworks e ns).without f := by
  have hns : ∀ m : Networks, (m.without f).addAll (ns.filter fun n => n.family ≠ f) =
      (m.addAll ns).without f := by
    intro m
    have h4 : ∀ n : Network, (decide (n.family = .v6) && !decide (n.family = .v4)) =
        decide (n.family = .v6) := fun n => by cases n.family <;> rfl
    have h6 : ∀ n : Network, (decide (n.family = .v4) && !decide (n.family = .v6)) =
        decide (n.family = .v4) := fun n => by cases n.family <;> rfl
    cases f <;> simp [Networks.addAll_eq, Networks.without, h4, h6]
  cases e
  · simp only [addNetworks, mapEndpoint, without, Endpoint.without, hns]
  · simp only [addNetworks, mapEndpoint, without, Endpoint.without, hns]

/-- Without the networks of a family, the fragments with those of the other are the same. -/
theorem fragments_without (r : Rule) (f : Family) :
    (r.without f.other).fragments (some f) = r.fragments (some f) := by
  cases f <;> rfl

end Rule

theorem Step.apply_without {s : Step} (hs : ∀ e ns, s ≠ .networks e ns) (t : Table) (r : Rule)
    (f : Family) : s.apply t (r.without f) = (s.apply t r).without f := by
  cases s with
  | networks e ns => exact absurd rfl (hs e ns)
  | onChains h others => exact (r.setChain h.name).addChains_without _
  | replicate => exact r.addChains_without _
  | ports e ch ss =>
    rw [apply, r.chooseProtocol_without]
    cases e <;> rfl
  | interfaces w ns => cases w <;> rfl
  | _ => rfl

theorem mapM_filter_eq_ok {α β ε : Type} {g : α → Except ε β} {p : α → Bool} {q : β → Bool}
    (h : ∀ a b, g a = .ok b → p a = q b) {as : List α} {bs : List β} (hm : as.mapM g = .ok bs) :
    (as.filter p).mapM g = .ok (bs.filter q) := by
  induction as generalizing bs with
  | nil =>
    cases hm
    rfl
  | cons a as ih =>
    obtain ⟨b, bs, hb, hbs, rfl⟩ := mapM_cons_eq_ok_iff.1 hm
    have hpq := h a b hb
    cases hq : q b with
    | true =>
      rw [List.filter_cons_of_pos (hpq.trans hq), List.filter_cons_of_pos hq]
      exact mapM_cons_eq_ok_iff.2 ⟨b, _, hb, ih hbs, rfl⟩
    | false =>
      rw [List.filter_cons_of_neg (by simp [hpq, hq]), List.filter_cons_of_neg (by simp [hq])]
      exact ih hbs

namespace Clause
variable {strict : Bool} {cl cl' : Clause} {s : Step} {f : Family}

theorem items_ofItems_filter (t : Text) {p : Text → Bool} (h : t.items.filter p ≠ []) :
    Text.items (Text.ofItems (t.items.filter p)) = t.items.filter p :=
  Text.items_ofItems (fun _ hu => Text.comma_notMem_of_mem_items (List.mem_filter.1 hu).1) h

/-- Erasing literals from a clause leaves out the same networks that are taken out of the rule. -/
theorem readAll_filter {t : Text} {ns : List Network} (hn : Network.readAll strict t.items = .ok ns) :
    Network.readAll strict (t.items.filter fun l => Literal.family? l ≠ some f) =
      .ok (ns.filter fun n => n.family ≠ f) := by
  refine mapM_filter_eq_ok (fun l n hl => ?_) hn
  rw [Network.family?_of_read hl]
  simp

theorem apply_of_without_eq_none (hcl : cl.without f = none) (hs : cl.Asks strict s) (t : Table)
    (r : Rule) : (s.apply t r).without f = r.without f := by
  cases hs with
  | @addresses e u ns hn =>
    have hnil : u.items.filter (fun l => Literal.family? l ≠ some f) = [] := by
      by_contra hne
      rw [without, if_neg hne] at hcl
      cases hcl
    have hns := readAll_filter (f := f) hn
    rw [hnil] at hns
    rw [Step.apply, ← r.addNetworks_without, ← Except.ok.inj hns]
    cases e <;> rfl
  | act v => cases v <;> cases hcl
  | _ => cases hcl

theorem apply_of_without_eq_some (hcl : cl.without f = some cl') (hs : cl.Asks strict s) :
    ∃ s', cl'.Asks strict s' ∧ ∀ t r, s'.apply t (r.without f) = (s.apply t r).without f := by
  by_cases hadd : ∃ e ns, s = .networks e ns
  · obtain ⟨e, ns, rfl⟩ := hadd
    cases hs with
    | @addresses e u ns hn =>
      simp only [without] at hcl
      split_ifs at hcl with hne
      cases hcl
      have hread := readAll_filter (f := f) hn
      rw [← items_ofItems_filter u hne] at hread
      exact ⟨_, .addresses hread, fun t r => r.addNetworks_without e ns⟩
  · -- any other clause asks for the same step as before
    have hs' : cl'.Asks strict s := by
      cases hs with
      | addresses hn => exact absurd ⟨_, _, rfl⟩ hadd
      | act v =>
        cases v with
        | accept => cases hcl; exact .act .allow
        | _ => cases hcl; exact .act _
      | _ => cases hcl; constructor <;> assumption
    exact ⟨s, hs', fun t r => Step.apply_without (by simpa using hadd) t r f⟩

end Clause

namespace Compiler
variable {c : Compiler} {cs : List Clause} {r : Rule} {f : Family}

/-- What is left of the clauses makes what is left of the rule. -/
theorem rule_without (h : (c.rule cs).result = .ok r) (f : Family) :
    (c.rule (cs.filterMap (Clause.without f))).result = .ok (r.without f) := by
  refine rule_induction (P := fun cs r => (c.rule (cs.filterMap (Clause.without f))).result = .ok (r.without f))
    ?_ (fun cs r cl s ih hs => ?_) h
  · cases f <;> rfl
  · rw [Clause.step_eq_ok_iff] at hs
    rw [List.filterMap_append]
    cases hcl : cl.without f with
    | none =>
      rw [Clause.apply_of_without_eq_none hcl hs]
      simpa [hcl] using ih
    | some cl' =>
      obtain ⟨s', hs', happly⟩ := Clause.apply_of_without_eq_some hcl hs
      rw [← happly c.table r]
      simp only [List.filterMap_cons, hcl, List.filterMap_nil]
      exact rule_concat_eq_ok.2 ⟨_, s', ih, Clause.step_eq_ok_iff.2 hs', rfl⟩

/-- The fragments for the filter of a family, of a line with a literal of that family, are those of the
rule without the networks of the other. -/
theorem ofFamily_eq_of_literal {line : Text} {out : Ruleset}
    (h : (c.compileLine line).result = .ok (some out))
    (hl : ∃ l ∈ line.literals, Literal.family? l = some f) :
    ∃ r, (c.rule line.clauses).result = .ok r ∧
      out.ofFamily f = (r.without f.other).render (some f) := by
  obtain ⟨-, r, hr, rfl⟩ := compileLine_eq_some_iff.1 h
  have hne : line.clauses ≠ [] := by
    rintro hnil
    obtain ⟨l, hl, -⟩ := hl
    simp [Text.literals, hnil] at hl
  refine ⟨r, hr, ?_⟩
  rw [if_neg hne, Rule.ofFamily_ruleset, Rule.fragmentsFor, if_pos ((uses_iff_literals hr).2 hl), Rule.render,
    r.fragments_without]

/-- Two lines that have literals of a family, and whose clauses are the same once the literals of the
other family are erased, give the filter of that family the same fragments. -/
theorem ofFamily_eq_of_without (c : Compiler) (f : Family) {line line' : Text} {out out' : Ruleset}
    (h : (c.compileLine line).result = .ok (some out))
    (h' : (c.compileLine line').result = .ok (some out'))
    (hcs : line.clauses.filterMap (Clause.without f.other) =
      line'.clauses.filterMap (Clause.without f.other))
    (hl : ∃ l ∈ line.literals, Literal.family? l = some f)
    (hl' : ∃ l ∈ line'.literals, Literal.family? l = some f) :
    out.ofFamily f = out'.ofFamily f := by
  obtain ⟨r, hr, hout⟩ := ofFamily_eq_of_literal h hl
  obtain ⟨r', hr', hout'⟩ := ofFamily_eq_of_literal h' hl'
  have hrule := rule_without hr f.other
  rw [hcs, rule_without hr' f.other] at hrule
  rw [hout, hout', Except.ok.inj hrule]

theorem ofFamily_eq_of_without_order :
    let c : Compiler := ⟨.filter, "INPUT", false⟩
    let line : Text := "accept from 10.0.0.0/8,::1,10.1.0.0/16 to fe80::/10 port 22"
    let line' : Text := "to ::2 allow from ::1,10.0.0.0/8,10.1.0.0/16 port 22 # home"
    ∃ out out', (c.compileLine line).result = .ok (some out) ∧
      (c.compileLine line').result = .ok (some out') ∧ out.ofFamily .v4 = out'.ofFamily .v4 := by
  intro c line line'
  let v4 : List Text := ["-A INPUT -p tcp -s 10.0.0.0/8 --dport 22 -j ACCEPT",
    "-A INPUT -p tcp -s 10.1.0.0/16 --dport 22 -j ACCEPT"]
  have h : (c.compileLine line).result =
      .ok (some ⟨v4, ["-A INPUT -p tcp -s ::1/128 -d fe80::/10 --dport 22 -j ACCEPT"]⟩) := by
    decide +kernel
  have h' : (c.compileLine line').result =
      .ok (some ⟨v4, ["-A INPUT -p tcp -s ::1/128 -d ::2/128 --dport 22 -j ACCEPT"]⟩) := by
    decide +kernel
  have hcs : line.clauses.filterMap (Clause.without .v6) = line'.clauses.filterMap (Clause.without .v6) := by
    decide +kernel
  have hl : ∃ l ∈ line.literals, Literal.family? l = some .v4 := by decide +kernel
  have hl' : ∃ l ∈ line'.literals, Literal.family? l = some .v4 := by decide +kernel
  exact ⟨_, _, h, h', ofFamily_eq_of_without c .v4 h h' hcs hl hl'⟩

end Compiler

end Firewall
