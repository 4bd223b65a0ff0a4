import Firewall.Proofs.Composition
import Firewall.Proofs.Printing

/-!
# Canonical lines

The canonical line of a line writes down what a lenient reader makes of it: in each clause the argument is
printed anew from what was understood, and comments go. Whatever is printed is an entry of a comma list,
without a comma or a blank in it, and is read back as it was meant, by a strict reader too
(`Clause.Asks.canonical`). Hence the canonical line has the same ruleset with either strictness, no port in
it is skipped, and it is its own canonical line. Main statement: `compileLine_canonical`.
-/

namespace Firewall

/-! ### Entries of comma lists -/

/-- Whether a text can be an entry of a comma list in one word. -/
def IsEntry (t : Text) : Prop := ∀ c ∈ t, c ≠ ',' ∧ isBlank c = false

instance (t : Text) : Decidable (IsEntry t) := List.decidableBAll (fun c => c ≠ ',' ∧ isBlank c = false) t

theorem IsEntry.comma_notMem {t : Text} (h : IsEntry t) : ',' ∉ t := fun hc => (h ',' hc).1 rfl

theorem isBlank_of_digitValue_lt {c : Char} (h : Numeral.digitValue c < 16) : isBlank c = false := by
  unfold Numeral.digitValue at h
  split at h
  · next hd => exact isBlank_of_isDigit hd
  · have hlo : 65 ≤ c.toNat ∧ c.toNat ≤ 102 := by
      split at h
      · next hc => exact ⟨Nat.le_trans (by decide) (show 97 ≤ c.toNat from hc.1), hc.2⟩
      · split at h
        · next hc => exact ⟨hc.1, Nat.le_trans (show c.toNat ≤ 70 from hc.2) (by decide)⟩
        · omega
    simp only [isBlank, Bool.or_eq_false_iff, Bool.and_eq_false_iff, decide_eq_false_iff_not,
      beq_eq_false_iff_ne]
    omega

theorem Hook.isEntry_word (k : Hook) : IsEntry k.word := by cases k <;> decide

theorem Hook.word_ne_nil (k : Hook) : k.word ≠ [] := by cases k <;> decide

/-- The name of a state is what a line writes, or else one of four names. -/
theorem stateName_eq_self_or (t : Text) :
    stateName t = t ∨ IsEntry (stateName t) ∧ stateName t ≠ [] := by
  rw [stateName_eq]
  unfold stateText
  split_ifs
  · exact .inr ⟨by decide, by decide⟩
  · exact .inr ⟨by decide, by decide⟩
  · exact .inr ⟨by decide, by decide⟩
  · exact .inr ⟨by decide, by decide⟩
  · exact .inl rfl

theorem Network.isEntry_text (n : Network) : IsEntry n.text := by
  intro c hc
  rcases mem_text hc with hd | rfl | rfl | rfl
  · refine ⟨?_, isBlank_of_digitValue_lt hd⟩
    rintro rfl
    exact absurd hd (by decide)
  · decide
  · decide
  · decide

theorem Port.isDigits_text (p : Port) : IsDigits p.text :=
  isDigits_iff.2 (Numeral.isNumeral_text_and_value_text (by omega) (by omega) p.number).1

theorem Port.read_text (p : Port) : Port.read p.text = .ok p := by
  have hvalue : Numeral.value 10 p.text = p.number :=
    (Numeral.isNumeral_text_and_value_text (by omega) (by omega) p.number).2
  rw [read, read?_of_isDigits p.isDigits_text, hvalue, ofNat?_number]

namespace PortSpan

theorem text_range (p q : Port) : (range p q).text = p.text ++ ':' :: q.text :=
  List.append_assoc _ _ _

theorem exists_form_text (s : PortSpan) : ∃ ns, Form s.text ns := by
  cases s with
  | single p => exact ⟨_, .single p.isDigits_text⟩
  | range p q =>
    rw [text_range]
    exact ⟨_, .range p.isDigits_text (.inl rfl) q.isDigits_text⟩

theorem isEntry_text (s : PortSpan) : IsEntry s.text := by
  have hport : ∀ p : Port, IsEntry p.text := by
    intro p c hc
    have hd := p.isDigits_text.2 c hc
    refine ⟨?_, isBlank_of_isDigit hd⟩
    rintro rfl
    cases hd
  cases s with
  | single p => exact hport p
  | range p q =>
    intro c hc
    rw [text_range] at hc
    rcases List.mem_append.1 hc with hc | hc
    · exact hport p c hc
    · rcases List.mem_cons.1 hc with rfl | hc
      · decide
      · exact hport q c hc

theorem text_ne_nil (s : PortSpan) : s.text ≠ [] := by
  cases s with
  | single p => exact p.isDigits_text.1
  | range p q => simp [text_range]

theorem read_text (s : PortSpan) : PortSpan.read s.text = .ok s := by
  have hdigits : ∀ p : Port, ∀ c ∈ p.text, isMark c = false :=
    fun p c hc => isMark_of_isDigit (p.isDigits_text.2 c hc)
  cases s with
  | single p =>
    have hcut : Text.cut? isMark p.text = none := Text.cut?_eq_none_iff.2 (hdigits p)
    rw [text, PortSpan.read, hcut]
    simp only [p.read_text]
    rfl
  | range p q =>
    have hcut : Text.cut? isMark (p.text ++ ':' :: q.text) = some (p.text, q.text) :=
      Text.cut?_eq_some_iff.2 ⟨':', rfl, hdigits p, rfl⟩
    rw [text_range, PortSpan.read, hcut]
    simp only [p.read_text, q.read_text]
    rfl

end PortSpan

/-! ### Comma lists of entries -/

namespace Text
variable {ts : List Text} {α : Type} {f : α → Text} {as : List α}

theorem ofItems_eq_nil_iff : ofItems ts = [] ↔ ts = [] ∨ ts = [[]] := by
  rcases ts with _ | ⟨t, _ | ⟨u, ts⟩⟩
  · simp [ofItems]
  · simp [ofItems]
  · simp [ofItems, List.intercalate_cons_cons]

theorem isWord_ofItems (h : ∀ t ∈ ts, IsEntry t) (hne : ofItems ts ≠ []) : IsWord (ofItems ts) := by
  refine ⟨hne, fun c hc => ?_⟩
  rcases eq_or_exists_mem_of_mem_intercalate hc with rfl | ⟨t, ht, hc⟩
  · rfl
  · exact (h t ht c hc).2

theorem items_ofItems_map (h : ∀ a, IsEntry (f a)) (hne : as ≠ []) : (ofItems (as.map f)).items = as.map f :=
  items_ofItems (List.forall_mem_map.2 fun a _ => (h a).comma_notMem) (by simpa using hne)

theorem isWord_ofItems_map (h : ∀ a, IsEntry (f a)) (hf : ∀ a, f a ≠ []) (hne : as ≠ []) :
    IsWord (ofItems (as.map f)) := by
  refine isWord_ofItems (List.forall_mem_map.2 fun a _ => h a) fun hnil => ?_
  obtain ⟨a, as, rfl⟩ := List.exists_cons_of_ne_nil hne
  rcases ofItems_eq_nil_iff.1 hnil with hnil | hnil
  · cases hnil
  · exact hf a (List.cons.inj hnil).1

end Text

theorem mapM_map_eq_ok {α β ε : Type} {f : α → β} {g : β → Except ε α} {as : List α}
    (h : ∀ a ∈ as, g (f a) = .ok a) : (as.map f).mapM g = .ok as := by
  induction as with
  | nil => rfl
  | cons a as ih =>
    obtain ⟨ha, has⟩ := List.forall_mem_cons.1 h
    rw [List.map_cons, mapM_cons_eq_ok_iff]
    exact ⟨a, as, ha, ih has, rfl⟩

theorem filterMap_map_eq_self {α β : Type} {f : α → β} {g : β → Option α} (h : ∀ a, g (f a) = some a)
    (as : List α) : (as.map f).filterMap g = as := by
  rw [List.filterMap_map, show g ∘ f = some from funext h, List.filterMap_some]

/-! ### What is printed is read back -/

theorem namedHooks_ofItems {hs : List Hook} (hne : hs ≠ []) :
    namedHooks (Text.ofItems (hs.map Hook.word)) = hs := by
  rw [namedHooks, Text.items_ofItems_map Hook.isEntry_word hne]
  exact filterMap_map_eq_self Hook.ofWord?_word hs

theorem stateName_stateName (t : Text) : stateName (stateName t) = stateName t := by
  by_cases ht : t ∈ knownStates
  · simp only [knownStates, List.mem_cons, List.not_mem_nil, or_false] at ht
    rcases ht with rfl | rfl | rfl | rfl <;> decide +kernel
  · have hname : stateName t = t := if_neg ht
    rw [hname, hname]

theorem Network.readAll_ofItems (strict : Bool) {ns : List Network} (hne : ns ≠ [])
    (hmasked : ∀ n ∈ ns, n.masked = n) :
    Network.readAll strict (Text.ofItems (ns.map text)).items = .ok ns := by
  rw [Text.items_ofItems_map isEntry_text hne]
  exact mapM_map_eq_ok fun n hn => read_text strict (hmasked n hn)

namespace PortList
variable {ss : List PortSpan}

theorem goodItems_ofItems (hne : ss ≠ []) : goodItems (Text.ofItems (ss.map PortSpan.text)) = ss := by
  rw [goodItems, Text.items_ofItems_map PortSpan.isEntry_text hne]
  exact filterMap_map_eq_self (fun s => by rw [s.read_text]; rfl) ss

theorem read_ofItems (strict : Bool) (hne : ss ≠ []) :
    PortList.read strict (Text.ofItems (ss.map PortSpan.text)) = .ok ss := by
  have hitems := Text.items_ofItems_map PortSpan.isEntry_text hne
  have hform : isPortList (Text.ofItems (ss.map PortSpan.text)) = true := by
    rw [isPortList_iff, hitems]
    exact List.forall_mem_map.2 fun s _ => s.exists_form_text
  have hstrict : (ss.map PortSpan.text).mapM readStrict = .ok ss :=
    mapM_map_eq_ok fun s _ => by rw [readStrict, s.read_text]
  cases strict with
  | true => simpa [PortList.read, hform, hitems] using hstrict
  | false => simp [PortList.read, hform, goodItems_ofItems hne, hne]

theorem not_isOverride_ofItems (hne : ss ≠ []) : ¬ IsOverride (Text.ofItems (ss.map PortSpan.text)) :=
  IsGoodList.not_isOverride (PortList.exists_read_iff.1 ⟨ss, read_ofItems true hne⟩)

end PortList

/-! ### Canonical clauses -/

namespace Clause
variable {cl : Clause} {s : Step}

/-- The clause with its argument as a lenient reader understands it: the built-in chains among the names,
the states as a rule names them, the networks, and the ports in range. -/
def canonical : Clause → Clause
  | chain t => chain (Text.ofItems ((namedHooks t).map Hook.word))
  | state t => state (Text.ofItems (t.items.map stateName))
  | addresses e t =>
    addresses e (Text.ofItems ((t.items.filterMap fun l => (Network.read false l).toOption).map Network.text))
  | ports e p l => ports e p (Text.ofItems ((PortList.goodItems l).map PortSpan.text))
  | cl => cl

theorem items_canonical_state (t : Text) :
    (Text.ofItems (t.items.map stateName)).items = t.items.map stateName := by
  refine Text.items_ofItems (List.forall_mem_map.2 fun u hu => ?_) (by simpa using t.items_ne_nil)
  rcases stateName_eq_self_or u with h | h
  · rw [h]
    exact Text.comma_notMem_of_mem_items hu
  · exact h.1.comma_notMem

theorem isWord_canonical_state {t : Text} (ht : Text.IsWord t) :
    Text.IsWord (Text.ofItems (t.items.map stateName)) := by
  have hentry : ∀ u ∈ t.items, IsEntry (stateName u) := by
    intro u hu
    rcases stateName_eq_self_or u with h | h
    · rw [h]
      intro c hc
      refine ⟨fun he => Text.comma_notMem_of_mem_items hu (he ▸ hc), ht.2 c ?_⟩
      rw [← t.ofItems_items]
      exact mem_intercalate_of_mem hu hc
    · exact h.1
  refine Text.isWord_ofItems (List.forall_mem_map.2 hentry) fun hnil => ?_
  -- a list of one empty name comes from an empty text only
  rcases Text.ofItems_eq_nil_iff.1 hnil with hnil | hnil
  · exact t.items_ne_nil (List.map_eq_nil_iff.1 hnil)
  · obtain ⟨u, hu, hname⟩ := List.map_eq_singleton_iff.1 hnil
    rcases stateName_eq_self_or u with h | h
    · refine ht.1 ?_
      rw [← t.ofItems_items, hu, ← h, hname]
      rfl
    · exact h.2 hname

/-- A reader of either strictness understands the canonical clause as a lenient one does the clause. -/
theorem Asks.canonical (h : cl.Asks false s) (strict : Bool) : cl.canonical.Asks strict s := by
  cases h with
  | act v => exact .act v
  | forward => exact .forward
  | output => exact .output
  | all => exact .all
  | @chain t k ks hn =>
    have hne : namedHooks t ≠ [] := by simp [hn]
    exact .chain ((namedHooks_ofItems hne).trans hn)
  | state t =>
    have hread : (t.items.map stateName).map stateName = t.items.map stateName := by
      rw [List.map_map]
      exact List.map_congr_left fun u _ => stateName_stateName u
    have hasks : (Clause.state t).canonical.Asks strict _ := .state _
    rwa [items_canonical_state, hread] at hasks
  | @addresses e t ns hn =>
    have hmasked := fun n => Network.masked_of_mem_readAll (n := n) hn
    obtain ⟨rfl, hne⟩ := Network.readAll_eq_ok hn
    exact .addresses (Network.readAll_ofItems strict hne hmasked)
  | interfaces w t => exact .interfaces w t
  | @ports e p l ss hp =>
    obtain ⟨rfl, hne⟩ := PortList.read_eq_ok hp
    exact .ports (PortList.read_ofItems strict hne)

theorem Asks.canonical_canonical (h : cl.Asks false s) : cl.canonical.canonical = cl.canonical := by
  cases h with
  | @chain t k ks hn =>
    have hne : namedHooks t ≠ [] := by simp [hn]
    simp only [Clause.canonical, namedHooks_ofItems hne]
  | state t =>
    simp only [Clause.canonical, items_canonical_state, List.map_map, Function.comp_def, stateName_stateName]
  | @addresses e t ns hn =>
    have hmasked := fun n => Network.masked_of_mem_readAll (n := n) hn
    obtain ⟨rfl, hne⟩ := Network.readAll_eq_ok hn
    have hread := (Network.readAll_eq_ok (Network.readAll_ofItems false hne hmasked)).1
    simp only [Clause.canonical, ← hread]
  | @ports e p l ss hp =>
    obtain ⟨rfl, hne⟩ := PortList.read_eq_ok hp
    simp only [Clause.canonical, PortList.goodItems_ofItems hne]
  | _ => rfl

theorem Asks.skipped_canonical (h : cl.Asks false s) (strict : Bool) : cl.canonical.skipped strict = [] := by
  cases strict with
  | true => exact cl.canonical.skipped_strict
  | false => exact (step_strict_iff.1 (step_eq_ok_iff.2 (h.canonical true))).2.1

theorem Asks.isLegible_canonical (h : cl.Asks false s) (hl : cl.IsLegible) : cl.canonical.IsLegible := by
  cases h with
  | @ports e p l ss hp =>
    obtain ⟨rfl, hne⟩ := PortList.read_eq_ok hp
    have hlist := PortList.not_isOverride_ofItems hne
    cases p with
    | absent => exact hlist
    | before w => exact hl
    | after w => exact ⟨hlist, hl.2⟩
  | _ => trivial

theorem Asks.isWord_canonical (h : cl.Asks false s) (hw : ∀ w ∈ cl.words, Text.IsWord w) :
    ∀ w ∈ cl.canonical.words, Text.IsWord w := by
  obtain ⟨hkeyword, hargs⟩ := List.forall_mem_cons.1 hw
  cases h with
  | @chain t k ks hn =>
    have hne : namedHooks t ≠ [] := by simp [hn]
    have hlist := Text.isWord_ofItems_map Hook.isEntry_word Hook.word_ne_nil hne
    exact List.forall_mem_cons.2 ⟨hkeyword, List.forall_mem_singleton.2 hlist⟩
  | state t =>
    have hlist := isWord_canonical_state (List.forall_mem_singleton.1 hargs)
    exact List.forall_mem_cons.2 ⟨hkeyword, List.forall_mem_singleton.2 hlist⟩
  | @addresses e t ns hn =>
    obtain ⟨rfl, hne⟩ := Network.readAll_eq_ok hn
    have hlist := Text.isWord_ofItems_map Network.isEntry_text (fun n => by simp [Network.text]) hne
    exact List.forall_mem_cons.2 ⟨hkeyword, List.forall_mem_singleton.2 hlist⟩
  | @ports e p l ss hp =>
    obtain ⟨rfl, hne⟩ := PortList.read_eq_ok hp
    have hlist := Text.isWord_ofItems_map PortSpan.isEntry_text PortSpan.text_ne_nil hne
    refine List.forall_mem_cons.2 ⟨hkeyword, ?_⟩
    cases p with
    | absent => exact List.forall_mem_singleton.2 hlist
    | before w =>
      exact List.forall_mem_cons.2 ⟨(List.forall_mem_cons.1 hargs).1, List.forall_mem_singleton.2 hlist⟩
    | after w => exact List.forall_mem_cons.2 ⟨hlist, (List.forall_mem_cons.1 hargs).2⟩
  | _ => exact hw

end Clause

/-! ### Canonical lines -/

/-- The canonical line: the canonical clauses of the line, one after the other. -/
def Text.canonical (line : Text) : Text := ofWords ((line.clauses.map Clause.canonical).flatMap Clause.words)

namespace Text
variable {line : Text}

theorem isComposed_canonical (h : ∀ cl ∈ line.clauses, ∃ s, cl.Asks false s) :
    line.canonical.IsComposed (line.clauses.map Clause.canonical) [] := by
  obtain ⟨left, hwords, -⟩ := Clause.words_sequence line.words
  have hword : ∀ cl ∈ line.clauses, ∀ w ∈ cl.words, IsWord w := by
    intro cl hcl w hw
    refine isWord_of_mem_words (t := line) ?_
    rw [hwords]
    exact List.mem_append_left _ (List.mem_flatMap.2 ⟨cl, hcl, hw⟩)
  rw [canonical, ← List.append_nil (List.flatMap _ _)]
  refine isComposed_ofWords (List.forall_mem_map.2 fun cl hcl => ?_) (by simp) (.inl rfl)
  obtain ⟨s, hs⟩ := h cl hcl
  exact hs.isWord_canonical (hword cl hcl)

theorem isLegible_canonical (h : ∀ cl ∈ line.clauses, ∃ s, cl.Asks false s) :
    ∀ cl ∈ line.clauses.map Clause.canonical, cl.IsLegible := by
  refine List.forall_mem_map.2 fun cl hcl => ?_
  obtain ⟨s, hs⟩ := h cl hcl
  exact hs.isLegible_canonical (Clause.isLegible_of_mem hcl)

theorem canonical_canonical (h : ∀ cl ∈ line.clauses, ∃ s, cl.Asks false s) :
    line.canonical.canonical = line.canonical := by
  have hclauses : (line.clauses.map Clause.canonical).map Clause.canonical =
      line.clauses.map Clause.canonical := by
    rw [List.map_map]
    refine List.map_congr_left fun cl hcl => ?_
    obtain ⟨s, hs⟩ := h cl hcl
    exact hs.canonical_canonical
  have hread := (isComposed_canonical h).clauses_eq (isLegible_canonical h)
  calc line.canonical.canonical
      = ofWords ((line.canonical.clauses.map Clause.canonical).flatMap Clause.words) := rfl
    _ = ofWords ((line.clauses.map Clause.canonical).flatMap Clause.words) := by rw [hread, hclauses]
    _ = line.canonical := rfl

end Text

namespace Compiler
variable {c : Compiler} {line : Text} {out : Ruleset}

theorem rule_canonical {cs : List Clause} {r : Rule} (hr : ((c.withStrict false).rule cs).result = .ok r)
    (strict : Bool) : ((c.withStrict strict).rule (cs.map Clause.canonical)).result = .ok r := by
  induction cs using List.reverseRecOn generalizing r with
  | nil => exact hr
  | append_singleton cs cl ih =>
    obtain ⟨r, s, hcs, hs, rfl⟩ := rule_concat_eq_ok.1 hr
    have hs' := Clause.step_eq_ok_iff.2 ((Clause.step_eq_ok_iff.1 hs).canonical strict)
    rw [List.map_append]
    exact rule_concat_eq_ok.2 ⟨r, s, ih hcs, hs', rfl⟩

theorem filter_warnings (h : (c.compileLine line).result = .ok (some out)) {r : Rule}
    (hr : (c.rule line.clauses).result = .ok r) :
    (c.compileLine line).warnings.filter (fun e => e = .widened) = if r.widens then [.widened] else [] := by
  have hskips : ∀ es : List Error, (es.map Event.skippedPort).filter (fun e => e = .widened) = [] :=
    fun es => List.filter_eq_nil_iff.2 (by simp)
  rw [warnings_eq h hr, List.filter_append, hskips, List.nil_append]
  split <;> rfl

/-- The canonical line of a line that a lenient compiler accepts is made of the canonical clauses alone. Both
a lenient and a strict compiler accept it with the same ruleset and warn of no more than that a fragment is
widened, if the line itself does. It is its own canonical line. -/
theorem compileLine_canonical (c : Compiler) (line : Text) {out : Ruleset}
    (h : ((c.withStrict false).compileLine line).result = .ok (some out)) :
    line.canonical.IsComposed (line.clauses.map Clause.canonical) [] ∧
    line.canonical.clauses = line.clauses.map Clause.canonical ∧
    line.canonical.canonical = line.canonical ∧
    ∀ strict, ((c.withStrict strict).compileLine line.canonical).result = .ok (some out) ∧
      ((c.withStrict strict).compileLine line.canonical).warnings =
        ((c.withStrict false).compileLine line).warnings.filter fun e => e = .widened := by
  obtain ⟨-, r, hr, -⟩ := compileLine_eq_some_iff.1 h
  have hasks : ∀ cl ∈ line.clauses, ∃ s, cl.Asks false s := fun cl hcl => asks_of_rule hr hcl
  have hcomposed := Text.isComposed_canonical hasks
  have hlegible := Text.isLegible_canonical hasks
  have hclauses := hcomposed.clauses_eq hlegible
  refine ⟨hcomposed, hclauses, Text.canonical_canonical hasks, fun strict => ?_⟩
  have hr' : ((c.withStrict strict).rule line.canonical.clauses).result = .ok r := by
    rw [hclauses]
    exact rule_canonical hr strict
  have hres := compileLine_of_rule h hr (hcomposed.isDone_ending hlegible) (by simp [hclauses]) hr'
  have hskips : (line.clauses.map Clause.canonical).flatMap (Clause.skipped strict) = [] := by
    rw [List.flatMap_eq_nil_iff, List.forall_mem_map]
    intro cl hcl
    obtain ⟨s, hs⟩ := hasks cl hcl
    exact hs.skipped_canonical strict
  refine ⟨hres, ?_⟩
  rw [filter_warnings h hr, warnings_eq hres hr', hclauses]
  exact congrArg (List.map Event.skippedPort · ++ _) hskips

theorem compileLine_canonical_mended :
    let c : Compiler := ⟨.filter, "INPUT", false⟩
    let line : Text := "port 0022,0,80-090 UDP from 1:0:0::1/64 state new,x chain no,output drop # x"
    let printed : Text := "port 22,80:90 UDP from 1::/64 state NEW,x chain output drop"
    ∃ out, (c.compileLine line).result = .ok (some out) ∧ line.canonical = printed ∧
      (∀ strict, ((c.withStrict strict).compileLine printed).result = .ok (some out)) ∧
      printed.canonical = printed := by
  intro c line printed
  let out : Ruleset :=
    ⟨[], ["-A OUTPUT -p udp -s 1::/64 -m multiport --dports 22,80:90 -m state --state NEW,x -j DROP"]⟩
  have h : (c.compileLine line).result = .ok (some out) := by decide +kernel
  have hclauses : line.clauses = [.ports .destination (.after "UDP") "0022,0,80-090",
      .addresses .source "1:0:0::1/64", .state "new,x", .chain "no,output", .act .drop] := by
    decide +kernel
  have hprinted : line.canonical = printed := by
    rw [Text.canonical, hclauses]
    decide +kernel
  obtain ⟨-, -, hsame, hres⟩ := compileLine_canonical c line h
  rw [hprinted] at hsame hres
  exact ⟨out, h, hprinted, fun strict => (hres strict).1, hsame⟩

end Compiler

end Firewall
