import Firewall.Proofs.Composition

/-!
# Text behind a decided line

A word that is no keyword ends a line, and so does a clause that fails: whatever stands behind is not looked
at. There is one way back: a port clause at the end of a line may take the next word for its protocol
(`Clause.Continues`). But then it fails as it failed before, since its port list is read without regard to
the protocol (`Compiler.rule_of_continues`). A comment is no protocol and no argument, so it may stand behind
each line that has a ruleset. Main statement: `compileLine_append`.
-/

namespace Firewall

/-! ### Clauses of a longer line -/

namespace Clause
variable {cl : Clause} {cs cs' : List Clause} {ws us left : List Text}

/-- How clauses may go on in a longer line: they stay, or the last one takes a word for its protocol. -/
inductive Continues : List Clause → List Clause → Prop
  | stay (cs ds : List Clause) : Continues cs (cs ++ ds)
  | take (cs : List Clause) (e : Side) (l p : Text) (ds : List Clause) :
    Continues (cs ++ [ports e .absent l]) (cs ++ ports e (.after p) l :: ds)

/-- Of the words behind a clause only the first one counts. -/
theorem Fits.append (h : cl.Fits left) (hne : left ≠ []) (us : List Text) : cl.Fits (left ++ us) := by
  obtain ⟨w, left, rfl⟩ := List.exists_cons_of_ne_nil hne
  cases cl with
  | ports e p l => cases p <;> exact h
  | _ => trivial

/-- A clause that fits the end of a line, but not what is put there, is a port clause that takes the next
word for its protocol. -/
theorem Fits.exists_taken (h : cl.Fits left) (hnot : ¬ cl.Fits (left ++ us)) :
    left = [] ∧ ∃ e l p us', cl = ports e .absent l ∧ us = p :: us' ∧ ¬ IsOverride l ∧ IsOverride p := by
  obtain rfl : left = [] := by_contra fun hne => hnot (h.append hne us)
  cases cl with
  | ports e p l =>
    cases p with
    | absent =>
      have hhead : ¬ ∀ p, us.head? = some p → ¬ IsOverride p := fun hus => hnot ⟨h.1, hus⟩
      push Not at hhead
      obtain ⟨p, hp, hover⟩ := hhead
      obtain ⟨us', rfl⟩ := List.head?_eq_some_iff.1 hp
      exact ⟨rfl, e, l, p, us', rfl, rfl, h.1, hover⟩
    | before p => exact absurd h hnot
    | after p => exact absurd h hnot
  | _ => exact absurd trivial hnot

theorem fits_of_sequence (hcs : (sequence ws).1 = cs ++ [cl]) (hws : ws = (cs ++ [cl]).flatMap words ++ left) :
    cl.Fits left := by
  obtain ⟨behind, hbehind, hlast⟩ := exists_of_sequence_eq_append hcs
  obtain ⟨rest, rfl, hfits, -⟩ := exists_of_sequence_eq_cons (congrArg Prod.fst hlast)
  obtain rfl : rest = left := by simpa [hbehind] using hws
  exact hfits

theorem isLegible_of_mem_init (hcs : (sequence ws).1 = cs ++ [cl]) : ∀ cl' ∈ cs, cl'.IsLegible := by
  intro cl' hcl
  have hmem : cl' ∈ (sequence ws).1 := hcs ▸ List.mem_append_left _ hcl
  exact isLegible_of_mem hmem

/-- Clauses are read as they are where the last of them fits what is behind it. -/
theorem sequence_concat_append (hcs : ∀ cl' ∈ cs, cl'.IsLegible) (hcl : cl.Fits left) :
    sequence ((cs ++ [cl]).flatMap words ++ left) = (cs ++ cl :: (sequence left).1, (sequence left).2) := by
  have hread := read?_eq_some_iff.2 ⟨rfl, rfl, hcl⟩
  have hhead : ∀ p, (cl.words ++ left).head? = some p → ¬ IsOverride p := by
    rintro p ⟨⟩
    exact cl.keyword.not_isOverride_word
  rw [List.flatMap_append, List.flatMap_singleton, List.append_assoc, sequence_flatMap_words hcs hhead, words,
    List.cons_append, sequence_cons hread]

/-- A longer line is read like the shorter one where the last clause fits what is behind it. -/
theorem sequence_append (hws : ws = (sequence ws).1.flatMap words ++ left)
    (hfits : ∀ cs cl, (sequence ws).1 = cs ++ [cl] → cl.Fits (left ++ us)) :
    sequence (ws ++ us) = ((sequence ws).1 ++ (sequence (left ++ us)).1, (sequence (left ++ us)).2) := by
  have hwords : ws ++ us = (sequence ws).1.flatMap words ++ (left ++ us) := by
    rw [← List.append_assoc, ← hws]
  rcases List.eq_nil_or_concat (sequence ws).1 with hcs | ⟨cs, cl, hcs⟩
  · rw [hwords, hcs]
    rfl
  · rw [List.concat_eq_append] at hcs
    rw [hwords, hcs, sequence_concat_append (isLegible_of_mem_init hcs) (hfits cs cl hcs), List.append_assoc]
    rfl

theorem continues_sequence (ws us : List Text) : Continues (sequence ws).1 (sequence (ws ++ us)).1 := by
  obtain ⟨left, hws, -⟩ := words_sequence ws
  by_cases hfits : ∀ cs cl, (sequence ws).1 = cs ++ [cl] → cl.Fits (left ++ us)
  · rw [sequence_append hws hfits]
    exact .stay _ _
  · push Not at hfits
    obtain ⟨cs, cl, hcs, hnot⟩ := hfits
    rw [hcs] at hws
    obtain ⟨rfl, e, l, p, us, rfl, rfl, hl, hp⟩ := (fits_of_sequence hcs hws).exists_taken hnot
    have hwords : ws ++ p :: us = (cs ++ [ports e (.after p) l]).flatMap words ++ us := by
      rw [hws]
      simp [words, arguments, keyword]
    have htaken : (ports e (.after p) l).Fits us := ⟨hl, hp⟩
    rw [hwords, sequence_concat_append (isLegible_of_mem_init hcs) htaken, hcs]
    exact .take cs e l p _

/-- Nothing behind a comment or a word that is no keyword is read. -/
theorem sequence_append_of_stop {w : Text} (h : (sequence ws).2 = .comment w ∨ (sequence ws).2 = .unknown w)
    (us : List Text) : sequence (ws ++ us) = sequence ws := by
  obtain ⟨left, hws, hend⟩ := words_sequence ws
  have hleft : left ≠ [] ∧ sequence (left ++ us) = ([], (sequence ws).2) := by
    rcases h with h | h <;> rw [h] at hend ⊢
    · obtain ⟨hc, rest, rfl⟩ := hend
      exact ⟨by simp, sequence_comment hc⟩
    · obtain ⟨hc, hk, rest, rfl⟩ := hend
      exact ⟨by simp, sequence_unknown hc hk⟩
  obtain ⟨hne, hleft⟩ := hleft
  have hfits : ∀ cs cl, (sequence ws).1 = cs ++ [cl] → cl.Fits (left ++ us) :=
    fun cs cl hcs => (fits_of_sequence hcs (hcs ▸ hws)).append hne us
  rw [sequence_append hws hfits, hleft, List.append_nil]

end Clause

theorem Text.isRemark_words (t : Text) : IsRemark (words ('#' :: t)) := by
  obtain ⟨w, ws, h⟩ := words_eq_cons (by decide : isBlank '#' = false) t
  exact .inr ⟨_, ws, h, rfl⟩

theorem Text.IsRemark.append {left us : List Text} (h : IsRemark left) (hus : IsRemark us) :
    IsRemark (left ++ us) := by
  rcases h with rfl | ⟨w, rest, rfl, hw⟩
  · exact hus
  · exact .inr ⟨w, rest ++ us, rfl, hw⟩

/-! ### Runs that have failed -/

namespace Compiler
variable {c : Compiler} {cs cs' : List Clause} {line line' : Text} {e : Error}

theorem rule_append_of_error (h : (c.rule cs).result = .error e) (ds : List Clause) :
    c.rule (cs ++ ds) = c.rule cs := by
  have happend : c.rule (cs ++ ds) = c.rule cs >>= fun r => ds.foldlM c.addClause r := by
    simp [rule, List.foldlM_append]
  rw [happend, Outcome.bind_eq_of_error h, ← h]

theorem addClause_eq_error_iff {r : Rule} {cl : Clause} :
    (c.addClause r cl).result = .error e ↔ cl.step c.strict = .error e := by
  rw [result_addClause]
  cases cl.step c.strict <;> simp [Except.map]

/-- A port clause fails for its port list, wherever its protocol stands. -/
theorem addClause_ports_of_error {r : Rule} {s : Side} {p : ProtocolWord} {l : Text}
    (h : (c.addClause r (.ports s p l)).result = .error e) (q : ProtocolWord) :
    c.addClause r (.ports s q l) = c.addClause r (.ports s p l) := by
  have hstep : ∀ q, (Clause.ports s q l).step c.strict = .error e := by
    rw [addClause_eq_error_iff, Clause.step_ports_eq_error_iff] at h
    exact fun q => Clause.step_ports_eq_error_iff.2 h
  unfold addClause
  rw [hstep p, hstep q]
  rfl

theorem rule_of_continues (h : Clause.Continues cs cs') (he : (c.rule cs).result = .error e) :
    c.rule cs' = c.rule cs := by
  cases h with
  | stay cs ds => exact rule_append_of_error he ds
  | take cs s l p ds =>
    have hlast : c.rule (cs ++ [.ports s (.after p) l]) = c.rule (cs ++ [.ports s .absent l]) := by
      rw [rule_concat] at he ⊢
      rw [rule_concat]
      cases hr : (c.rule cs).result with
      | error e' => rw [Outcome.bind_eq_of_error hr, Outcome.bind_eq_of_error hr]
      | ok r =>
        rw [Outcome.bind_eq_of_ok hr] at he
        rw [Outcome.bind_eq_of_ok hr, Outcome.bind_eq_of_ok hr, addClause_ports_of_error he]
    rw [List.append_cons, rule_append_of_error (hlast ▸ he), hlast]

theorem compileLine_of_rule_error (he : (c.rule line.clauses).result = .error e) :
    c.compileLine line = ⟨.error e, (c.rule line.clauses).log⟩ := by
  have hcs : line.clauses ≠ [] := by
    intro hcs
    rw [hcs] at he
    cases he
  rw [compileLine_eq, if_neg fun h => hcs h.1]
  exact Outcome.bind_eq_of_error he _

theorem compileLine_of_sequence_eq (h : Clause.sequence line'.words = Clause.sequence line.words) :
    c.compileLine line' = c.compileLine line := by
  rw [compileLine_eq, compileLine_eq, Text.clauses, Text.ending, compileWords, compileWords, h]
  rfl

theorem rule_eq_error (h : (c.compileLine line).result = .error e)
    (he : ∀ k, e ≠ .malformed (.missingArgument k)) : (c.rule line.clauses).result = .error e := by
  rw [result_compileLine] at h
  cases hr : (c.rule line.clauses).result with
  | error e' => simpa [hr, Except.bind] using h
  | ok r =>
    rw [hr] at h
    cases hend : line.ending with
    | missing k =>
      rw [hend] at h
      cases h
      exact absurd rfl (he k)
    | _ => simp [hend, Except.bind] at h

/-- A comment may be put behind a line that has a ruleset: this and the warnings stay. Behind a line that holds
a word which is no keyword, or that fails for anything but a missing argument, any text may be put: the result
stays and so does all that is noted on the way. -/
theorem compileLine_append (c : Compiler) (line : Text) {w : Char} (hw : isBlank w = true) :
    (∀ out, (c.compileLine line).result = .ok (some out) → ∀ t,
      (c.compileLine (line ++ w :: '#' :: t)).result = .ok (some out) ∧
        (c.compileLine (line ++ w :: '#' :: t)).warnings = (c.compileLine line).warnings) ∧
    ((c.compileLine line).result = .ok none ∨
        (∃ e, (c.compileLine line).result = .error e ∧ ∀ k, e ≠ .malformed (.missingArgument k)) →
      ∀ t, c.compileLine (line ++ w :: t) = c.compileLine line) := by
  refine ⟨fun out h t => ?_, fun h t => ?_⟩
  · obtain ⟨hd, r, hr, -⟩ := compileLine_eq_some_iff.1 h
    obtain ⟨left, hleft⟩ := Text.exists_isComposed hd
    have hlonger : (line ++ w :: '#' :: t).IsComposed line.clauses (left ++ Text.words ('#' :: t)) :=
      ⟨by rw [Text.words_append_blank _ _ hw, hleft.1, List.append_assoc], hleft.2.append (Text.isRemark_words t)⟩
    have hlegible : ∀ cl ∈ line.clauses, cl.IsLegible := fun cl => Clause.isLegible_of_mem
    have hclauses := hlonger.clauses_eq hlegible
    have hr' : (c.rule (line ++ w :: '#' :: t).clauses).result = .ok r := hclauses.symm ▸ hr
    have hres := compileLine_of_rule h hr (hlonger.isDone_ending hlegible) (by rw [hclauses]) hr'
    exact ⟨hres, by rw [warnings_eq hres hr', warnings_eq h hr, hclauses]⟩
  · have hwords := Text.words_append_blank line t hw
    rcases h with h | ⟨e, h, he⟩
    · obtain ⟨⟨u, hu⟩, -⟩ := compileLine_eq_none_iff.1 h
      refine compileLine_of_sequence_eq ?_
      rw [hwords]
      exact Clause.sequence_append_of_stop (.inr hu) _
    · have hr := rule_eq_error h he
      have hcontinues : Clause.Continues line.clauses (line ++ w :: t).clauses := by
        have h := Clause.continues_sequence line.words (Text.words t)
        rwa [← hwords] at h
      have hrule := rule_of_continues hcontinues hr
      rw [compileLine_of_rule_error hr, compileLine_of_rule_error (hrule ▸ hr), hrule]

theorem compileLine_append_udp :
    let c : Compiler := ⟨.filter, "INPUT", false⟩
    let line : Text := "port 22"
    let bad : Text := "port 0"
    let unknown : Text := "port udp 22 tcp"
    let out : Ruleset :=
      ⟨["-A INPUT -p tcp --dport 22 -j ACCEPT"], ["-A INPUT -p tcp --dport 22 -j ACCEPT"]⟩
    (isBlank ' ' = true ∧ (c.compileLine line).result = .ok (some out) ∧
        ∀ t, (c.compileLine (line ++ ' ' :: '#' :: t)).result = .ok (some out)) ∧
      ((c.compileLine bad).result = .error (.malformed .noPort) ∧
        ∀ t, c.compileLine (bad ++ ' ' :: t) = c.compileLine bad) ∧
      ((c.compileLine unknown).result = .ok none ∧
        ∀ t, c.compileLine (unknown ++ ' ' :: t) = c.compileLine unknown) := by
  intro c line bad unknown out
  have hw : isBlank ' ' = true := by decide
  have hline : (c.compileLine line).result = .ok (some out) := by decide +kernel
  have hbad : (c.compileLine bad).result = .error (.malformed .noPort) := by decide +kernel
  have hunknown : (c.compileLine unknown).result = .ok none := by decide +kernel
  exact ⟨⟨hw, hline, fun t => ((compileLine_append c line hw).1 out hline t).1⟩,
    ⟨hbad, (compileLine_append c bad hw).2 (.inr ⟨_, hbad, by simp⟩)⟩,
    hunknown, (compileLine_append c unknown hw).2 (.inl hunknown)⟩

end Compiler

end Firewall
