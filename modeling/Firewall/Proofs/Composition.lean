import Firewall.Proofs.Words

/-!
# Lines composed of clauses

A line may be composed of clauses, one after the other, with a comment behind them or none. They are read
again as they are (`Text.IsComposed.clauses_eq`), provided that each of them is legible: its protocol stands
where a reader looks for it. No clause can take a word of the next one for its protocol, since that begins
with a keyword. Clauses that come from a line are legible (`Clause.isLegible_of_mem`), so they may be put
in any order.
-/

namespace Firewall

instance (w : Text) : Decidable (IsOverride w) :=
  inferInstanceAs (Decidable (w.map Char.toLower ∈ (["tcp", "udp", "both"] : List Text)))

theorem not_isOverride_of_head {w : Text} (h : w.head? = some '#') : ¬ IsOverride w := by
  obtain ⟨t, rfl⟩ := List.head?_eq_some_iff.1 h
  simp [IsOverride, show Char.toLower '#' = '#' from rfl]

theorem Keyword.not_isOverride_word (k : Keyword) : ¬ IsOverride k.word := by
  rcases k with (_ | _ | _ | _) | _ | _ | _ | _ | _ | (_ | _) | (_ | _) | (_ | _) <;> decide

namespace Clause

/-- Whether a clause is read as it stands where no protocol word follows it. -/
def IsLegible : Clause → Prop
  | ports _ .absent l => ¬ IsOverride l
  | ports _ (.before p) _ => IsOverride p
  | ports _ (.after p) l => ¬ IsOverride l ∧ IsOverride p
  | _ => True

theorem Fits.isLegible {cl : Clause} {rest : List Text} (h : cl.Fits rest) : cl.IsLegible := by
  cases cl with
  | ports e p l =>
    cases p with
    | absent => exact h.1
    | before p => exact h
    | after p => exact h
  | _ => trivial

theorem IsLegible.fits {cl : Clause} {rest : List Text} (h : cl.IsLegible)
    (hrest : ∀ p, rest.head? = some p → ¬ IsOverride p) : cl.Fits rest := by
  cases cl with
  | ports e p l =>
    cases p with
    | absent => exact ⟨h, hrest⟩
    | before p => exact h
    | after p => exact h
  | _ => trivial

theorem isLegible_of_mem {ws : List Text} {cl : Clause} (hcl : cl ∈ (sequence ws).1) : cl.IsLegible := by
  obtain ⟨pre, post, hsplit⟩ := List.append_of_mem hcl
  obtain ⟨left, -, hleft⟩ := exists_of_sequence_eq_append hsplit
  obtain ⟨rest, -, hfits, -⟩ := exists_of_sequence_eq_cons (congrArg Prod.fst hleft)
  exact hfits.isLegible

theorem sequence_flatMap_words {cs : List Clause} {left : List Text} (hcs : ∀ cl ∈ cs, cl.IsLegible)
    (hleft : ∀ p, left.head? = some p → ¬ IsOverride p) :
    sequence (cs.flatMap words ++ left) = (cs ++ (sequence left).1, (sequence left).2) := by
  induction cs with
  | nil => rfl
  | cons cl cs ih =>
    obtain ⟨hcl, hcs⟩ := List.forall_mem_cons.1 hcs
    have hhead : ∀ p, (cs.flatMap words ++ left).head? = some p → ¬ IsOverride p := by
      cases cs with
      | nil => exact hleft
      | cons cl' cs =>
        rintro p ⟨⟩
        exact cl'.keyword.not_isOverride_word
    have hr := read?_eq_some_iff.2 ⟨rfl, rfl, hcl.fits hhead⟩
    rw [List.flatMap_cons, List.append_assoc, words, List.cons_append, sequence_cons hr, ih hcs]
    rfl

end Clause

namespace Text
variable {line : Text} {cs : List Clause} {left : List Text}

/-- Whether words can stand behind the clauses of a line that has a ruleset: a comment or none. -/
def IsRemark (left : List Text) : Prop := left = [] ∨ ∃ w rest, left = w :: rest ∧ w.head? = some '#'

/-- Whether a line is made of clauses and of words behind them. -/
def IsComposed (line : Text) (cs : List Clause) (left : List Text) : Prop :=
  line.words = cs.flatMap Clause.words ++ left ∧ IsRemark left

theorem IsRemark.not_isOverride (h : IsRemark left) : ∀ p, left.head? = some p → ¬ IsOverride p := by
  rcases h with rfl | ⟨w, rest, rfl, hw⟩
  · simp
  · rintro p ⟨⟩
    exact not_isOverride_of_head hw

theorem IsRemark.sequence_eq (h : IsRemark left) :
    (Clause.sequence left).1 = [] ∧ (Clause.sequence left).2.isDone = true := by
  rcases h with rfl | ⟨w, rest, rfl, hw⟩
  · simp [Ending.isDone]
  · rw [Clause.sequence_comment (isComment_iff.2 hw)]
    exact ⟨rfl, rfl⟩

namespace IsComposed

theorem clauses_eq (h : line.IsComposed cs left) (hcs : ∀ cl ∈ cs, cl.IsLegible) : line.clauses = cs := by
  rw [clauses, h.1, Clause.sequence_flatMap_words hcs h.2.not_isOverride, h.2.sequence_eq.1, List.append_nil]

theorem isDone_ending (h : line.IsComposed cs left) (hcs : ∀ cl ∈ cs, cl.IsLegible) :
    line.ending.isDone = true := by
  rw [ending, h.1, Clause.sequence_flatMap_words hcs h.2.not_isOverride]
  exact h.2.sequence_eq.2

end IsComposed

theorem exists_isComposed (hd : line.ending.isDone = true) : ∃ left, line.IsComposed line.clauses left := by
  obtain ⟨left, hwords, hend⟩ := Clause.words_sequence line.words
  exact ⟨left, hwords, hend.eq_nil_or_comment hd⟩

theorem isComposed_ofWords (hcs : ∀ cl ∈ cs, ∀ w ∈ cl.words, IsWord w) (hleft : ∀ w ∈ left, IsWord w)
    (h : IsRemark left) : (ofWords (cs.flatMap Clause.words ++ left)).IsComposed cs left := by
  refine ⟨words_ofWords fun w hw => ?_, h⟩
  rcases List.mem_append.1 hw with hw | hw
  · obtain ⟨cl, hcl, hw⟩ := List.mem_flatMap.1 hw
    exact hcs cl hcl w hw
  · exact hleft w hw

end Text

/-! ### Lines with the same rule -/

namespace Compiler
variable {c c' : Compiler} {cs : List Clause} {line line' : Text} {out : Ruleset} {r : Rule}

theorem warnings_addClause {cl : Clause} {s : Step} (hs : cl.step c.strict = .ok s) (r : Rule) :
    (c.addClause r cl).warnings = (cl.skipped c.strict).map .skippedPort := by
  have hevents : (s.events c.table r).filter (fun e => e.level = .warn) = [] := by
    cases s <;> rfl
  have hskips : ((cl.skipped c.strict).map Event.skippedPort).filter (fun e => e.level = .warn) =
      (cl.skipped c.strict).map .skippedPort := List.filter_eq_self.2 (by simp [Event.level])
  rw [Outcome.warnings, log_addClause, hs, List.cons_append, List.filter_cons_of_neg (by simp [Event.level]),
    List.filter_append, hskips]
  exact (congrArg _ hevents).trans (List.append_nil _)

theorem warnings_rule (hr : (c.rule cs).result = .ok r) :
    (c.rule cs).warnings = (cs.flatMap (Clause.skipped c.strict)).map .skippedPort := by
  induction cs using List.reverseRecOn generalizing r with
  | nil => rfl
  | append_singleton cs cl ih =>
    obtain ⟨r, s, hcs, hs, rfl⟩ := rule_concat_eq_ok.1 hr
    have hlog : (c.rule (cs ++ [cl])).log = (c.rule cs).log ++ (c.addClause r cl).log := by
      rw [rule_concat, Outcome.bind_eq_of_ok hcs]
    rw [Outcome.warnings, hlog, List.filter_append, ← Outcome.warnings, ← Outcome.warnings, ih hcs,
      warnings_addClause hs, List.flatMap_append, List.map_append, List.flatMap_singleton]

theorem warnings_eq (h : (c.compileLine line).result = .ok (some out))
    (hr : (c.rule line.clauses).result = .ok r) :
    (c.compileLine line).warnings =
      (line.clauses.flatMap (Clause.skipped c.strict)).map .skippedPort ++
        if r.widens then [.widened] else [] := by
  by_cases hcs : line.clauses = []
  · rw [warnings_of_clauses_eq_nil h hcs]
    rw [hcs] at hr ⊢
    cases hr
    rfl
  · rw [warnings_compileLine h hcs hr, warnings_rule hr]

/-- A line has the ruleset of another whose clauses make the same rule. -/
theorem compileLine_of_rule (h : (c.compileLine line).result = .ok (some out))
    (hr : (c.rule line.clauses).result = .ok r) (hd : line'.ending.isDone = true)
    (hnil : line'.clauses = [] ↔ line.clauses = []) (hr' : (c'.rule line'.clauses).result = .ok r) :
    (c'.compileLine line').result = .ok (some out) := by
  obtain ⟨-, r₀, hr₀, rfl⟩ := compileLine_eq_some_iff.1 h
  rw [hr] at hr₀
  cases hr₀
  exact compileLine_eq_some_iff.2 ⟨hd, r, hr', by simp only [hnil]⟩

end Compiler

end Firewall
