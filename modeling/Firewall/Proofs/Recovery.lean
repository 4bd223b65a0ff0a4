import Firewall.Proofs.Decoding

/-!
# What a line says is read back from its fragments

Names of interfaces and states go into fragments as they stand in a line, unchecked. They are items
of words of the line, so they hold neither a space nor a comma; chains are those of the compiler and
the built-in ones, and ports and networks are printed from numbers. So the parts of every fragment of
a line are clean (`exists_parts_of_mem`), provided that the chain of the compiler is one word. Main
statement: `decode_of_mem_lineFragments`.
-/

namespace Firewall

/-! ### Words of a line -/

namespace Text
variable {line : Text}

theorem isBlank_of_mem_words {w : Text} (hw : w ∈ line.words) : ∀ c ∈ w, isBlank c = false :=
  eq_false_of_mem_splitOnP (List.mem_filter.1 hw).1

theorem mem_words_of_mem_arguments {cl : Clause} {w : Text} (hcl : cl ∈ line.clauses)
    (hw : w ∈ cl.arguments) : w ∈ line.words := by
  obtain ⟨rest, hwords, -⟩ := Clause.words_sequence line.words
  rw [hwords]
  exact List.mem_append_left _ (List.mem_flatMap.2 ⟨cl, hcl, List.mem_cons_of_mem _ hw⟩)

/-- An argument holds no blank, so its items hold none either. -/
theorem isItem_of_mem_items {cl : Clause} {t u : Text} (hcl : cl ∈ line.clauses)
    (ht : t ∈ cl.arguments) (hu : u ∈ t.items) : IsItem u := by
  refine ⟨fun hs => ?_, comma_notMem_of_mem_items hu⟩
  have hmem : ' ' ∈ t := by
    rw [← ofItems_items t]
    exact mem_intercalate_of_mem hu hs
  have hblank := isBlank_of_mem_words (mem_words_of_mem_arguments hcl ht) ' ' hmem
  cases hblank

end Text

theorem isItem_stateText {t : Text} (h : IsItem t) : IsItem (stateText t) := by
  unfold stateText
  split
  · exact ⟨by decide, by decide⟩
  · split
    · exact ⟨by decide, by decide⟩
    · split
      · exact ⟨by decide, by decide⟩
      · split
        · exact ⟨by decide, by decide⟩
        · exact h

theorem PortSpan.isItem_text (s : PortSpan) : IsItem s.text := by
  have hport : ∀ (p : Port) (c : Char), Numeral.digitValue c = 16 → c ∉ p.text :=
    fun p c hc => Numeral.notMem_text (by omega) (by omega) hc
  have hspace := fun p => hport p ' ' (by decide)
  have hcomma := fun p => hport p ',' (by decide)
  cases s with
  | single p => exact ⟨hspace p, hcomma p⟩
  | range p q => simp [IsItem, text, hspace, hcomma]

/-! ### The chains of a rule -/

theorem Hook.space_notMem_name (k : Hook) : ' ' ∉ k.name := by cases k <;> decide

namespace Rule

theorem mem_chains {r : Rule} {x : Text} : x ∈ r.chains ↔ x = r.chain ∨ x ∈ r.extraChains := by
  rw [chains, List.mem_eraseDups, List.mem_cons]

theorem mem_chains_addChains {r : Rule} {cs : List Text} {x : Text} (h : x ∈ (r.addChains cs).chains) :
    x ∈ r.chains ∨ x ∈ cs := by
  induction cs generalizing r with
  | nil => exact .inl h
  | cons c cs ih =>
    rcases ih h with h | h
    · unfold addChain at h
      split at h
      · exact .inl h
      · rw [mem_chains, List.mem_append, List.mem_singleton] at h
        rcases h with h | h | rfl
        · exact .inl (mem_chains.2 (.inl h))
        · exact .inl (mem_chains.2 (.inr h))
        · exact .inr List.mem_cons_self
    · exact .inr (List.mem_cons_of_mem c h)

theorem mem_chains_setChain {r : Rule} {c x : Text} (h : x ∈ (r.setChain c).chains) :
    x ∈ r.chains ∨ x = c := by
  rcases mem_chains.1 h with h | h
  · exact .inr h
  · exact .inl (mem_chains.2 (.inr (List.mem_filter.1 h).1))

theorem chains_chooseProtocol (r : Rule) (choice : Option ProtocolChoice) :
    (r.chooseProtocol choice).chains = r.chains := by
  obtain ⟨ps, hps⟩ := r.chooseProtocol_eq choice
  rw [hps]
  rfl

end Rule

/-- A step adds built-in chains only. -/
theorem Step.mem_chains_apply {s : Step} {t : Table} {r : Rule} {x : Text}
    (h : x ∈ (s.apply t r).chains) : x ∈ r.chains ∨ ∃ k : Hook, x = k.name := by
  have hadd : ∀ {r' : Rule} {ks : List Hook}, x ∈ (r'.addChains (ks.map Hook.name)).chains →
      x ∈ r'.chains ∨ ∃ k : Hook, x = k.name := by
    intro r' ks h
    rcases Rule.mem_chains_addChains h with h | h
    · exact .inl h
    · obtain ⟨k, -, rfl⟩ := List.mem_map.1 h
      exact .inr ⟨k, rfl⟩
  cases s with
  | act a => exact .inl h
  | onChains k ks =>
    rcases hadd h with h | h
    · rcases Rule.mem_chains_setChain h with h | h
      · exact .inl h
      · exact .inr ⟨k, h⟩
    · exact .inr h
  | replicate => exact hadd h
  | states names => exact .inl h
  | networks e ns => cases e <;> exact .inl h
  | interfaces w names => cases w <;> exact .inl h
  | ports e choice ss =>
    rw [← Rule.chains_chooseProtocol r choice]
    cases e <;> exact .inl h

/-- The states that a clause asks for, by their names in a rule. -/
def Clause.stateNames? : Clause → Option (List Text)
  | state t => some (t.items.map stateText)
  | _ => none

theorem Clause.stateRule?_eq (cl : Clause) : cl.stateRule? = cl.stateNames?.map stateMatch := by
  cases cl <;> rfl

namespace Compiler
variable {c : Compiler} {line : Text} {r : Rule}

/-! ### The values in the rule of a line -/

theorem eq_or_eq_name_of_mem_chains {cs : List Clause} (hr : (c.rule cs).result = .ok r) {x : Text}
    (hx : x ∈ r.chains) : x = c.chain ∨ ∃ k : Hook, x = k.name := by
  refine rule_induction (P := fun _ r => ∀ x ∈ r.chains, x = c.chain ∨ ∃ k : Hook, x = k.name)
    ?_ ?_ hr x hx
  · intro x hx
    exact .inl (by simpa [Rule.mem_chains, Rule.onChain] using hx)
  · intro cs r cl s ih hs x hx
    rcases Step.mem_chains_apply hx with hx | hx
    · exact ih x hx
    · exact .inr hx

theorem isItem_of_mem_interfaces (hr : (c.rule line.clauses).result = .ok r) {w : Way} {i : Text}
    (hi : i ∈ r.interfaces w) : IsItem i := by
  rw [(says_of_rule hr).interfaces w] at hi
  obtain ⟨cl, hcl, hi⟩ := List.mem_flatMap.1 hi
  unfold Clause.interfaceNames at hi
  split at hi
  · split at hi
    · exact Text.isItem_of_mem_items hcl (by simp [Clause.arguments]) hi
    · cases hi
  · cases hi

theorem isItem_of_mem_ports (hr : (c.rule line.clauses).result = .ok r) {e : Side} {t : Text}
    (ht : t ∈ (r.endpoint e).ports) : IsItem t := by
  rw [(says_of_rule hr).ports e] at ht
  obtain ⟨cl, -, ht⟩ := List.mem_flatMap.1 ht
  unfold Clause.portTexts at ht
  split at ht
  · split at ht
    · obtain ⟨s, -, rfl⟩ := List.mem_map.1 ht
      exact s.isItem_text
    · cases ht
  · cases ht

theorem isItem_of_mem_stateNames {cl : Clause} (hcl : cl ∈ line.clauses) {ts : List Text}
    (hts : cl.stateNames? = some ts) : ts ≠ [] ∧ ∀ t ∈ ts, IsItem t := by
  unfold Clause.stateNames? at hts
  split at hts
  · cases hts
    refine ⟨by simpa using Text.items_ne_nil _, fun t ht => ?_⟩
    obtain ⟨u, hu, rfl⟩ := List.mem_map.1 ht
    exact isItem_stateText (Text.isItem_of_mem_items hcl (by simp [Clause.arguments]) hu)
  · cases hts

/-! ### The parts of a fragment of a line -/

theorem exists_parts_of_mem (hc : ' ' ∉ c.chain) (hr : (c.rule line.clauses).result = .ok r)
    {o : Option Family} {g : Fragment} (hg : g ∈ r.fragments o) :
    ∃ p : Parts, p.IsClean ∧ p.fragment = g ∧
      p.states = line.clauses.filterMap Clause.stateNames? := by
  have hnone := Rule.protocol_eq_none_iff hg
  obtain ⟨x, hx, q, -, s, -, d, -, i, hi, j, hj, rfl⟩ := Rule.mem_fragments.1 hg
  let p : Parts := ⟨x, i, j, q, s, d, r.source.ports, r.destination.ports,
    line.clauses.filterMap Clause.stateNames?, r.action⟩
  have hmatch : r.matchRules = p.states.map stateMatch := by
    rw [(says_of_rule hr).matchRules, List.map_filterMap]
    exact List.filterMap_congr fun cl _ => cl.stateRule?_eq
  have hfragment : p.fragment = r.fragment x q s d i j := by
    unfold Parts.fragment Rule.fragment
    rw [hmatch]
  refine ⟨p, ?_, hfragment, rfl⟩
  constructor
  · rcases eq_or_eq_name_of_mem_chains hr hx with rfl | ⟨k, rfl⟩
    · exact hc
    · exact k.space_notMem_name
  · intro y hy
    obtain rfl : i = some y := Option.mem_toList.1 hy
    exact (isItem_of_mem_interfaces hr (w := .incoming) (some_mem_orAbsent_iff.1 hi)).1
  · intro y hy
    obtain rfl : j = some y := Option.mem_toList.1 hy
    exact (isItem_of_mem_interfaces hr (w := .outgoing) (some_mem_orAbsent_iff.1 hj)).1
  · exact fun t ht => isItem_of_mem_ports hr (e := .source) ht
  · exact fun t ht => isItem_of_mem_ports hr (e := .destination) ht
  · intro hq
    have hr' := hnone.1 hq
    exact ⟨ports_eq_nil_of_protocol_eq_none hr hr' .source,
      ports_eq_nil_of_protocol_eq_none hr hr' .destination⟩
  · intro ts hts
    obtain ⟨cl, hcl, hts⟩ := List.mem_filterMap.1 hts
    exact isItem_of_mem_stateNames hcl hts

theorem exists_parts_of_mem_lineFragments (hc : ' ' ∉ c.chain) {f : Family} {g : Fragment}
    (hg : g ∈ c.lineFragments line f) :
    ∃ p : Parts, p.IsClean ∧ p.fragment = g ∧
      p.states = line.clauses.filterMap Clause.stateNames? := by
  obtain ⟨r, o, hr, hg⟩ := exists_rule_of_mem_lineFragments hg
  exact exists_parts_of_mem hc hr hg

/-- Split at spaces, a fragment of a line is just the words of its parts, whatever the names in the
line are, and one decoder finds the parts again: the states are those that the state clauses of the
line ask for. So two fragments, of whatever lines, have the same text only if they agree in every
part. -/
theorem decode_of_mem_lineFragments (c : Compiler) (line : Text) {out : Ruleset}
    (hc : ' ' ∉ c.chain) (h : (c.compileLine line).result = .ok (some out)) :
    (∀ f, out.ofFamily f = (c.lineFragments line f).map Fragment.text ∧
      ∀ g ∈ c.lineFragments line f, ∃ p : Parts,
        p.fragment = g ∧ p.states = line.clauses.filterMap Clause.stateNames? ∧
          g.text.splitOn ' ' = p.words ∧ Parts.decode g.text = some p) ∧
    ∀ (c' : Compiler) (line' : Text) (out' : Ruleset), ' ' ∉ c'.chain →
      (c'.compileLine line').result = .ok (some out') →
      ∀ f f', ∀ g ∈ c.lineFragments line f, ∀ g' ∈ c'.lineFragments line' f', g.text = g'.text →
        g = g' ∧ line.clauses.filterMap Clause.stateNames? =
          line'.clauses.filterMap Clause.stateNames? := by
  refine ⟨fun f => ⟨ofFamily_eq_map_text h f, fun g hg => ?_⟩, ?_⟩
  · obtain ⟨p, hp, rfl, hstates⟩ := exists_parts_of_mem_lineFragments hc hg
    exact ⟨p, rfl, hstates, Parts.splitOn_text hp, Parts.decode_text hp⟩
  · intro c' line' out' hc' _ f f' g hg g' hg' htext
    obtain ⟨p, hp, rfl, hstates⟩ := exists_parts_of_mem_lineFragments hc hg
    obtain ⟨p', hp', rfl, hstates'⟩ := exists_parts_of_mem_lineFragments hc' hg'
    have hdecode : some p = some p' := by
      rw [← Parts.decode_text hp, ← Parts.decode_text hp', htext]
    obtain rfl := Option.some.inj hdecode
    exact ⟨rfl, hstates.symm.trans hstates'⟩

theorem decode_of_mem_lineFragments_flags :
    let c : Compiler := ⟨.filter, "INPUT", false⟩
    let line : Text := "if-in -j, state new,-m port 22,53"
    let text (i : String) : Text :=
      "-A INPUT -i " ++ i ++ " -p tcp -m multiport --dports 22,53 -m state --state NEW,-m -j ACCEPT"
    let out : Ruleset := ⟨[text "-j", text ""], [text "-j", text ""]⟩
    ' ' ∉ c.chain ∧ (c.compileLine line).result = .ok (some out) ∧
      ∀ f, out.ofFamily f = (c.lineFragments line f).map Fragment.text ∧
        ∀ g ∈ c.lineFragments line f, ∃ p : Parts,
          p.fragment = g ∧ p.states = [["NEW".toList, "-m"]] ∧ Parts.decode g.text = some p ∧
            ∀ f', ∀ g' ∈ c.lineFragments line f', g.text = g'.text → g = g' := by
  intro c line text out
  have hc : ' ' ∉ c.chain := by decide
  have h : (c.compileLine line).result = .ok (some out) := by decide +kernel
  have hstates : line.clauses.filterMap Clause.stateNames? = [["NEW".toList, "-m"]] := by
    decide +kernel
  obtain ⟨hparts, hinj⟩ := decode_of_mem_lineFragments c line hc h
  refine ⟨hc, h, fun f => ⟨(hparts f).1, fun g hg => ?_⟩⟩
  obtain ⟨p, hp, hp', -, hdecode⟩ := (hparts f).2 g hg
  exact ⟨p, hp, hp'.trans hstates, hdecode,
    fun f' g' hg' htext => (hinj c line out hc h f f' g hg g' hg' htext).1⟩

end Compiler

end Firewall
