import Firewall.Proofs.Restrictions

/-!
# The two families apart

A rule files networks by family, and what it has of a family decides which filter gets fragments. A
`Draft` is a rule with two marks instead, one for each family that a clause has named a network of:
`Compiler.draft_eq` says that the marks and the filed networks agree after every run of clauses. A
colon tells the family of a literal (`Literal.family_iff`), and the literals of a line tell
for which filters it has fragments (`uses_iff_literals`). Main statement: `families_apart`.
-/

namespace Firewall

/-! ### The family of a literal -/

namespace Literal

/-- The family of the address that a literal writes. -/
def family? (t : Text) : Option Family := (read? t).map Network.family

theorem family_of_read {s : Address.Style} {t : Text} {a : Address} (h : Address.read? s t = some a) :
    a.family = .v6 ↔ ':' ∈ t := by
  unfold Address.read? at h
  split at h
  · next hc =>
    obtain ⟨b, -, rfl⟩ := Option.map_eq_some_iff.1 h
    exact iff_of_true rfl hc
  · next hc =>
    obtain ⟨b, -, rfl⟩ := Option.map_eq_some_iff.1 h
    exact iff_of_false (by simp [Address.family]) hc

/-- A colon tells a literal of the one family from a literal of the other. -/
theorem family_iff {t : Text} {l : Network} (h : read? t = some l) : l.family = .v6 ↔ ':' ∈ t := by
  simp only [read?, Option.orElse_eq_orElse, Option.orElse_eq_or, Option.or_eq_some_iff] at h
  rcases h with h | ⟨-, h⟩
  · simp only [readNetwork?, Option.bind_eq_bind, Option.bind_eq_some_iff, Prod.exists] at h
    obtain ⟨a, b, hcut, address, ha, n, hn, h⟩ := h
    split_ifs at h
    cases h
    obtain ⟨c, hc, -, rfl⟩ := Text.cut?_eq_some_iff.1 hcut
    obtain rfl : c = '/' := by simpa using hc
    -- the prefix length is a numeral, so a colon stands in front of the slash
    have hb : ':' ∉ b := by
      intro hmem
      have hnum : Numeral.isNumeral 10 b = true := by
        unfold Numeral.read? at hn
        split at hn
        · assumption
        · cases hn
      have hd := (isDigits_iff.2 hnum).2 ':' hmem
      cases hd
    rw [Network.family, family_of_read ha]
    simp [hb]
  · obtain ⟨a, ha, rfl⟩ := Option.map_eq_some_iff.1 h
    exact family_of_read ha

end Literal

theorem Network.family?_of_read {strict : Bool} {t : Text} {n : Network}
    (h : Network.read strict t = .ok n) : Literal.family? t = some n.family := by
  unfold Network.read at h
  unfold Literal.family?
  cases hl : Literal.read? t with
  | none => simp [hl] at h
  | some l =>
    simp only [hl] at h
    split at h
    · cases h
    · cases h
      simp

theorem Network.family_iff_of_read {strict : Bool} {t : Text} {n : Network}
    (h : Network.read strict t = .ok n) : n.family = .v6 ↔ ':' ∈ t := by
  obtain ⟨l, hl, hf⟩ := Option.map_eq_some_iff.1 (Network.family?_of_read h)
  rw [← hf, Literal.family_iff hl]

namespace Clause

/-- The address literals of a clause. -/
def literals : Clause → List Text
  | addresses _ t => t.items
  | _ => []

theorem mem_networksAt_iff {strict : Bool} {e : Side} {f : Family} {cl : Clause} {n : Network} :
    n ∈ cl.networksAt strict e f ↔ ∃ t, cl = addresses e t ∧
      ∃ l ∈ t.items, Network.read strict l = .ok n ∧ n.family = f := by
  have hread : ∀ l, (Network.read strict l).toOption = some n ↔ Network.read strict l = .ok n := by
    intro l
    cases Network.read strict l <;> simp [Except.toOption]
  cases cl with
  | addresses e' t =>
    by_cases he : e' = e
    · subst he
      simp [networksAt, hread, ← and_assoc]
    · simp [networksAt, he]
  | _ => simp [networksAt]

end Clause

/-- The address literals of a line. -/
def Text.literals (line : Text) : List Text := line.clauses.flatMap Clause.literals

/-! ### Marks for the families -/

def Address.isV4 : Address → Bool
  | v4 _ => true
  | v6 _ => false

/-- A rule in the making, and for each family whether a clause has named a network of it. -/
structure Draft where
  rule : Rule
  hasV4 : Bool := false
  hasV6 : Bool := false

namespace Draft

def has (d : Draft) : Family → Bool
  | .v4 => d.hasV4
  | .v6 => d.hasV6

/-- Adds networks at one end, those of the one family first, and marks the families. -/
def addNetworks (d : Draft) (e : Side) (ns : List Network) : Draft :=
  let (v4, v6) := ns.partition fun n => n.base.isV4
  { rule := (d.rule.addNetworks e v4).addNetworks e v6
    hasV4 := d.hasV4 || !v4.isEmpty
    hasV6 := d.hasV6 || !v6.isEmpty }

/-- Adds to a draft what a step asks for. -/
def apply (t : Table) (d : Draft) : Step → Draft
  | .networks e ns => d.addNetworks e ns
  | s => { d with rule := s.apply t d.rule }

/-- The ruleset of a draft, by its marks. -/
def ruleset (d : Draft) : Ruleset :=
  if !d.hasV4 && !d.hasV6 then ⟨d.rule.render none, d.rule.render none⟩
  else
    { v4 := if d.hasV4 then d.rule.render (some .v4) else []
      v6 := if d.hasV6 then d.rule.render (some .v6) else [] }

/-- The draft whose marks are those of the networks filed in the rule. -/
def ofRule (r : Rule) : Draft := ⟨r, r.uses .v4, r.uses .v6⟩

theorem has_ofRule (r : Rule) (f : Family) : (ofRule r).has f = r.uses f := by cases f <;> rfl

end Draft

/-- The draft of a line with the given clauses. -/
def Compiler.draft (c : Compiler) (cs : List Clause) : Except Error Draft :=
  cs.foldlM (fun d cl => (cl.step c.strict).map (d.apply c.table)) { rule := Rule.onChain c.chain }

namespace Rule

theorem ofFamily_addNetworks (r : Rule) (e e' : Side) (ns : List Network) (f : Family) :
    ((r.addNetworks e ns).endpoint e').networks.ofFamily f =
      (r.endpoint e').networks.ofFamily f ++ if e' = e then ns.filter (fun n => n.family = f) else [] := by
  cases e <;> cases e' <;> simp [addNetworks, mapEndpoint, endpoint, Networks.ofFamily_addAll]

theorem uses_addNetworks_iff {r : Rule} {e : Side} {ns : List Network} {f : Family} :
    (r.addNetworks e ns).uses f = true ↔ r.uses f = true ∨ ns.filter (fun n => n.family = f) ≠ [] := by
  simp only [uses_iff, ofFamily_addNetworks, ne_eq, List.append_eq_nil_iff, not_and_or, exists_or]
  refine or_congr_right ⟨?_, fun h => ⟨e, by simpa using h⟩⟩
  rintro ⟨e', h⟩
  split at h
  · exact h
  · exact absurd rfl h

/-- Networks may be filed family by family. -/
theorem addNetworks_filter (r : Rule) (e : Side) (ns : List Network) :
    (r.addNetworks e (ns.filter fun n => n.family = .v4)).addNetworks e
      (ns.filter fun n => n.family = .v6) = r.addNetworks e ns := by
  cases e <;> simp +contextual [addNetworks, mapEndpoint, Networks.addAll_eq]

end Rule

theorem Network.isV4_base (n : Network) : n.base.isV4 = decide (n.family = .v4) := by
  unfold family
  cases n.base <;> rfl

theorem Network.not_v4_iff (n : Network) : (!decide (n.family = .v4)) = decide (n.family = .v6) := by
  cases n.family <;> rfl

/-- Only a step that names networks changes what a rule has of a family. -/
theorem Step.uses_apply {s : Step} (hs : ∀ e ns, s ≠ .networks e ns) (t : Table) (r : Rule)
    (f : Family) : (s.apply t r).uses f = r.uses f := by
  cases s with
  | networks e ns => exact absurd rfl (hs e ns)
  | onChains h others =>
    obtain ⟨xs, hxs⟩ := (r.setChain h.name).addChains_eq (others.map Hook.name)
    rw [apply, hxs]
    rfl
  | replicate =>
    obtain ⟨xs, hxs⟩ := r.addChains_eq ((otherHooks t r).map Hook.name)
    rw [apply, hxs]
    rfl
  | ports e ch ss =>
    obtain ⟨ps, hps⟩ := r.chooseProtocol_eq ch
    rw [apply, hps]
    cases e <;> rfl
  | interfaces w ns => cases w <;> rfl
  | _ => rfl

namespace Draft

theorem addNetworks_ofRule (r : Rule) (e : Side) (ns : List Network) :
    (ofRule r).addNetworks e ns = ofRule (r.addNetworks e ns) := by
  have huses : ∀ f, (r.uses f || !(ns.filter fun n => n.family = f).isEmpty) =
      (r.addNetworks e ns).uses f := by
    intro f
    rw [Bool.eq_iff_iff, Rule.uses_addNetworks_iff]
    simp
  have hparts : ns.partition (fun n => n.base.isV4) =
      (ns.filter (fun n => n.family = .v4), ns.filter fun n => n.family = .v6) := by
    simp only [List.partition_eq_filter_filter, Function.comp_def, Network.isV4_base,
      Network.not_v4_iff]
  simp only [addNetworks, ofRule, hparts, Rule.addNetworks_filter, huses]

theorem apply_ofRule (t : Table) (r : Rule) (s : Step) :
    (ofRule r).apply t s = ofRule (s.apply t r) := by
  by_cases hs : ∃ e ns, s = .networks e ns
  · obtain ⟨e, ns, rfl⟩ := hs
    exact addNetworks_ofRule r e ns
  · simp only [not_exists] at hs
    have hsame : (ofRule r).apply t s = { ofRule r with rule := s.apply t r } := by
      cases s with
      | networks e ns => exact absurd rfl (hs e ns)
      | _ => rfl
    rw [hsame]
    simp only [ofRule, Step.uses_apply hs]

end Draft

namespace Compiler
variable {c : Compiler} {cs : List Clause} {line : Text} {r : Rule} {f : Family}

/-- After every run of clauses the marks are those of the networks filed in the rule. -/
theorem draft_eq (c : Compiler) (cs : List Clause) :
    c.draft cs = (c.rule cs).result.map Draft.ofRule := by
  induction cs using List.reverseRecOn with
  | nil => rfl
  | append_singleton cs cl ih =>
    have hconcat : c.draft (cs ++ [cl]) =
        c.draft cs >>= fun d => (cl.step c.strict).map (d.apply c.table) := by
      simp [draft, List.foldlM_append]
    rw [hconcat, ih, rule_concat, Outcome.result_bind]
    cases (c.rule cs).result with
    | error e => rfl
    | ok r =>
      show (cl.step c.strict).map ((Draft.ofRule r).apply c.table) =
        (c.addClause r cl).result.map Draft.ofRule
      rw [result_addClause]
      cases cl.step c.strict with
      | error e => rfl
      | ok s => exact congrArg Except.ok (Draft.apply_ofRule c.table r s)

/-! ### The literals of a line -/

theorem exists_read_of_literals (hr : (c.rule cs).result = .ok r) {l : Text}
    (hl : l ∈ cs.flatMap Clause.literals) : ∃ n, Network.read c.strict l = .ok n := by
  obtain ⟨cl, hcl, hl⟩ := List.mem_flatMap.1 hl
  obtain ⟨s, hs⟩ := asks_of_rule hr hcl
  cases hs with
  | addresses hn => exact exists_mapM_iff.1 ⟨_, hn⟩ l hl
  | _ => cases hl

/-- A rule has networks of the families of the literals behind it, and of no other. -/
theorem uses_iff_literals (hr : (c.rule cs).result = .ok r) :
    r.uses f = true ↔ ∃ l ∈ cs.flatMap Clause.literals, Literal.family? l = some f := by
  simp only [Rule.uses_iff, (says_of_rule hr).networks, ne_eq, List.eq_nil_iff_forall_not_mem, not_forall,
    not_not, List.mem_flatMap, Clause.mem_networksAt_iff]
  constructor
  · rintro ⟨e, n, _, hcl, t, rfl, l, hl, hread, rfl⟩
    exact ⟨l, ⟨_, hcl, hl⟩, Network.family?_of_read hread⟩
  · rintro ⟨l, ⟨cl, hcl, hl⟩, hf⟩
    obtain ⟨n, hread⟩ := exists_read_of_literals hr (List.mem_flatMap.2 ⟨cl, hcl, hl⟩)
    rw [Network.family?_of_read hread, Option.some.injEq] at hf
    cases cl with
    | addresses e t => exact ⟨e, n, _, hcl, t, rfl, l, hl, hread, hf⟩
    | _ => cases hl

end Compiler

/-! ### The networks of a fragment -/

/-- The network at one end of a fragment. -/
def Fragment.network? (g : Fragment) : Side → Option Network
  | .source => g.source
  | .destination => g.destination

namespace Rule
variable {r : Rule} {f : Family} {g : Fragment} {e : Side} {n : Network}

theorem mem_select_of_network? {o : Option Family} (hg : g ∈ r.fragments o)
    (hn : g.network? e = some n) : n ∈ (r.endpoint e).networks.select o := by
  obtain ⟨c, -, p, -, s, hs, d, hd, i, -, j, -, rfl⟩ := mem_fragments.1 hg
  cases e with
  | source =>
    obtain rfl : s = some n := hn
    exact some_mem_orAbsent_iff.1 hs
  | destination =>
    obtain rfl : d = some n := hn
    exact some_mem_orAbsent_iff.1 hd

/-- The networks in the fragments for a filter are those filed under its family. -/
theorem mem_ofFamily_of_network? (hg : g ∈ r.fragmentsFor f) (hn : g.network? e = some n) :
    n ∈ (r.endpoint e).networks.ofFamily f := by
  have huses : ∀ f', n ∈ (r.endpoint e).networks.ofFamily f' → r.uses f' = true :=
    fun f' hmem => uses_iff.2 ⟨e, List.ne_nil_of_mem hmem⟩
  unfold fragmentsFor at hg
  split at hg
  · exact mem_select_of_network? hg hn
  · next hf =>
    split at hg
    · cases hg
    · next ho =>
      -- a rule without networks has no fragment with one
      have hnone : ∀ f', n ∉ (r.endpoint e).networks.ofFamily f' := by
        intro f' hmem
        rcases f.eq_or_eq_other f' with rfl | rfl
        · exact hf (huses _ hmem)
        · exact ho (huses _ hmem)
      rcases List.mem_append.1 (mem_select_of_network? hg hn) with h4 | h6
      · exact absurd h4 (hnone .v4)
      · exact absurd h6 (hnone .v6)

theorem fragmentsFor_ne_nil_iff :
    r.fragmentsFor f ≠ [] ↔ r.uses f = true ∨ ∀ f', r.uses f' = false := by
  rw [← List.isEmpty_eq_false_iff, List.isEmpty_eq_false_iff_exists_mem, exists_mem_fragmentsFor]
  constructor
  · intro h
    by_cases hf : r.uses f = true
    · exact .inl hf
    · refine .inr fun f' => Bool.eq_false_iff.2 fun hf' => ?_
      rcases f.eq_or_eq_other f' with rfl | rfl
      · exact hf hf'
      · exact hf (h hf')
  · rintro (h | h) ho
    · exact h
    · rw [h] at ho
      cases ho

theorem ofFamily_ruleset (r : Rule) (f : Family) :
    r.ruleset.ofFamily f = (r.fragmentsFor f).map Fragment.text := by cases f <;> rfl

end Rule

namespace Compiler
variable {c : Compiler} {cs : List Clause} {line : Text} {r : Rule} {f : Family}

theorem family_of_mem_ofFamily (hr : (c.rule cs).result = .ok r) {e : Side} {n : Network}
    (hn : n ∈ (r.endpoint e).networks.ofFamily f) : n.family = f := by
  rw [(says_of_rule hr).networks, List.mem_flatMap] at hn
  obtain ⟨cl, -, hn⟩ := hn
  obtain ⟨t, -, l, -, -, hf⟩ := Clause.mem_networksAt_iff.1 hn
  exact hf

theorem literals_eq_nil_iff (hr : (c.rule cs).result = .ok r) :
    cs.flatMap Clause.literals = [] ↔ ∀ f, r.uses f = false := by
  constructor
  · intro h f
    rw [Bool.eq_false_iff, ne_eq, uses_iff_literals hr, h]
    simp
  · intro h
    by_contra hne
    obtain ⟨l, hl⟩ := List.exists_mem_of_ne_nil _ hne
    obtain ⟨n, hn⟩ := exists_read_of_literals hr hl
    have hu := (uses_iff_literals hr).2 ⟨l, hl, Network.family?_of_read hn⟩
    rw [h] at hu
    cases hu

theorem exists_rule_of_draft {d : Draft} (hd : c.draft cs = .ok d) :
    ∃ r, (c.rule cs).result = .ok r ∧ d = Draft.ofRule r := by
  rw [draft_eq] at hd
  cases hr : (c.rule cs).result with
  | error e => simp [hr, Except.map] at hd
  | ok r =>
    simp only [hr, Except.map, Except.ok.injEq] at hd
    exact ⟨r, rfl, hd.symm⟩

theorem ruleset_ofRule (r : Rule) : (Draft.ofRule r).ruleset = r.ruleset := by
  unfold Draft.ruleset Draft.ofRule Rule.ruleset Rule.fragmentsFor Rule.render Family.other
  cases r.uses .v4 <;> cases r.uses .v6 <;> simp

/-- The two families stay apart. Whatever clauses are compiled, networks stand under their own family,
which for a literal a colon tells, and each mark says whether there are any. So a filter gets networks
of its own family only, and gets fragments if the line has a literal of that family, or none at all,
when both filters get the same. -/
theorem families_apart (c : Compiler) :
    (∀ l n, Network.read c.strict l = .ok n → (n.family = .v6 ↔ ':' ∈ l)) ∧
    (∀ cs, (c.draft cs).map Draft.rule = (c.rule cs).result) ∧
    (∀ cs d, c.draft cs = .ok d →
      (∀ e f, ∀ n ∈ (d.rule.endpoint e).networks.ofFamily f, n.family = f) ∧
      ∀ f, d.has f = true ↔ ∃ e, (d.rule.endpoint e).networks.ofFamily f ≠ []) ∧
    ∀ (line : Text) (out : Ruleset), (c.compileLine line).result = .ok (some out) →
      line.clauses ≠ [] →
      (∃ d, c.draft line.clauses = .ok d ∧ out = d.ruleset) ∧
      (∀ f, out.ofFamily f = (c.lineFragments line f).map Fragment.text ∧
        ∀ g ∈ c.lineFragments line f, ∀ e n, g.network? e = some n → n.family = f) ∧
      (∀ f, out.ofFamily f ≠ [] ↔
        (∃ l ∈ line.literals, Literal.family? l = some f) ∨ line.literals = []) ∧
      (line.literals = [] → out.v4 = out.v6) := by
  refine ⟨fun l n => Network.family_iff_of_read, fun cs => ?_, fun cs d hd => ?_, ?_⟩
  · rw [draft_eq]
    cases (c.rule cs).result <;> rfl
  · obtain ⟨r, hr, rfl⟩ := exists_rule_of_draft hd
    refine ⟨fun e f n => family_of_mem_ofFamily hr, fun f => ?_⟩
    rw [Draft.has_ofRule]
    exact Rule.uses_iff
  · intro line out h hne
    obtain ⟨-, r, hr, rfl⟩ := compileLine_eq_some_iff.1 h
    have huses : ∀ f, r.uses f = true ↔ ∃ l ∈ line.literals, Literal.family? l = some f :=
      fun f => uses_iff_literals hr
    refine ⟨⟨Draft.ofRule r, ?_, ?_⟩, fun f => ⟨ofFamily_eq_map_text h f, ?_⟩, fun f => ?_, fun hl => ?_⟩
    · rw [draft_eq, hr]
      rfl
    · rw [if_neg hne, ruleset_ofRule]
    · intro g hg e n hn
      rw [lineFragments_of_ne_nil hr hne] at hg
      exact family_of_mem_ofFamily hr (Rule.mem_ofFamily_of_network? hg hn)
    · rw [if_neg hne, ← huses, Text.literals, literals_eq_nil_iff hr, Rule.ofFamily_ruleset, ne_eq,
        List.map_eq_nil_iff]
      exact Rule.fragmentsFor_ne_nil_iff
    · have hnone := (literals_eq_nil_iff hr).1 hl
      simp [hne, Rule.ruleset, Rule.fragmentsFor, hnone]

theorem families_apart_mapped :
    let c : Compiler := ⟨.filter, "INPUT", false⟩
    let line : Text := "drop from 10.0.0.0/8,::ffff:10.0.0.1"
    let out : Ruleset :=
      ⟨["-A INPUT -s 10.0.0.0/8 -j DROP"], ["-A INPUT -s ::ffff:10.0.0.1/128 -j DROP"]⟩
    (c.compileLine line).result = .ok (some out) ∧ line.clauses ≠ [] ∧
      ∀ f, ∀ g ∈ c.lineFragments line f, ∀ e n, g.network? e = some n → n.family = f := by
  intro c line out
  have h : (c.compileLine line).result = .ok (some out) := by decide +kernel
  have hne : line.clauses ≠ [] := by decide +kernel
  obtain ⟨-, hfrag, -⟩ := (families_apart c).2.2.2 line out h hne
  exact ⟨h, hne, fun f => (hfrag f).2⟩

end Compiler

end Firewall
