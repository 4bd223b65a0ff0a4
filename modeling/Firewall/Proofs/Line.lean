import Firewall.Compiler
import Mathlib.Data.List.Induction

/-!
# The run of a line

A line is compiled clause by clause. `Compiler.rule_induction` is the induction over the clauses of
a line that make a rule; `Compiler.exists_rule_iff` says when they do. `compileLine_eq_some_iff` and
`compileLine_eq_none_iff` tell the results of a line from its clauses, their rule and what follows
them; `exists_warnings_eq` tells the warnings.
-/

namespace Firewall

namespace Outcome
variable {α β : Type}

theorem result_bind (x : Outcome α) (f : α → Outcome β) :
    (x >>= f).result = x.result.bind fun a => (f a).result := by
  rcases x with ⟨_ | _, _⟩ <;> rfl

theorem log_bind (x : Outcome α) (f : α → Outcome β) :
    (x >>= f).log = x.log ++ (x.result.toOption.elim [] fun a => (f a).log) := by
  rcases x with ⟨e | a, l⟩
  · exact (List.append_nil l).symm
  · rfl

@[simp] theorem result_note (es : List Event) : (note es).result = .ok () := rfl

@[simp] theorem log_note (es : List Event) : (note es).log = es := rfl

@[simp] theorem result_ofExcept (r : Except Error α) : (ofExcept r).result = r := rfl

@[simp] theorem log_ofExcept (r : Except Error α) : (ofExcept r).log = [] := rfl

end Outcome

namespace Text

/-- The clauses of a line, up to where they end. -/
def clauses (line : Text) : List Clause := (Clause.sequence line.words).1

/-- What follows the clauses of a line. -/
def ending (line : Text) : Ending := (Clause.sequence line.words).2

/-- Whether a line has a clause that begins with the keyword. -/
def HasClause (line : Text) (k : Keyword) : Prop := ∃ cl ∈ line.clauses, cl.keyword = k

end Text

/-- Whether a line that ends like this says all it has to say: nothing follows the clauses but a
comment. -/
def Ending.isDone : Ending → Bool
  | .complete | .comment _ => true
  | .unknown _ | .missing _ => false

theorem Ending.isDone_iff {e : Ending} : e.isDone = true ↔ e = .complete ∨ ∃ w, e = .comment w := by
  cases e <;> simp [isDone]

namespace Compiler
variable {c : Compiler} {cs : List Clause} {r : Rule}

/-! ### The rule of some clauses -/

theorem result_addClause (c : Compiler) (r : Rule) (cl : Clause) :
    (c.addClause r cl).result = (cl.step c.strict).map fun s => s.apply c.table r := by
  unfold addClause
  simp only [Outcome.result_bind, Outcome.result_note, Outcome.result_ofExcept, Except.bind]
  cases cl.step c.strict <;> rfl

theorem rule_nil (c : Compiler) : c.rule [] = pure (Rule.onChain c.chain) := rfl

theorem rule_concat (c : Compiler) (cs : List Clause) (cl : Clause) :
    c.rule (cs ++ [cl]) = c.rule cs >>= fun r => c.addClause r cl := by
  simp [rule, List.foldlM_append]

theorem rule_concat_eq_ok {cl : Clause} {r' : Rule} :
    (c.rule (cs ++ [cl])).result = .ok r' ↔
      ∃ r s, (c.rule cs).result = .ok r ∧ cl.step c.strict = .ok s ∧ r' = s.apply c.table r := by
  rw [rule_concat, Outcome.result_bind]
  cases hr : (c.rule cs).result with
  | error e => simp [Except.bind]
  | ok r =>
    simp only [Except.bind, result_addClause]
    cases hs : cl.step c.strict with
    | error e => simp [Except.map]
    | ok s => simp [Except.map, eq_comm]

/-- What holds of the rule without clauses and is kept by every step holds of the rule of all
clauses. -/
theorem rule_induction {P : List Clause → Rule → Prop} (nil : P [] (Rule.onChain c.chain))
    (concat : ∀ cs r cl s, P cs r → cl.step c.strict = .ok s → P (cs ++ [cl]) (s.apply c.table r))
    (h : (c.rule cs).result = .ok r) : P cs r := by
  induction cs using List.reverseRecOn generalizing r with
  | nil =>
    cases h
    exact nil
  | append_singleton cs cl ih =>
    obtain ⟨r₀, s, hr, hs, rfl⟩ := rule_concat_eq_ok.1 h
    exact concat cs r₀ cl s (ih hr) hs

theorem exists_rule_iff :
    (∃ r, (c.rule cs).result = .ok r) ↔ ∀ cl ∈ cs, ∃ s, cl.step c.strict = .ok s := by
  induction cs using List.reverseRecOn with
  | nil => simp [rule_nil]
  | append_singleton cs cl ih =>
    simp only [rule_concat_eq_ok, List.mem_append, List.mem_singleton]
    constructor
    · rintro ⟨_, r, s, hr, hs, -⟩ cl' (hcl | rfl)
      · exact ih.1 ⟨r, hr⟩ cl' hcl
      · exact ⟨s, hs⟩
    · intro h
      obtain ⟨r, hr⟩ := ih.2 fun cl' hcl => h cl' (.inl hcl)
      obtain ⟨s, hs⟩ := h cl (.inr rfl)
      exact ⟨_, r, s, hr, hs, rfl⟩

theorem widened_notMem_log_rule (c : Compiler) (cs : List Clause) :
    Event.widened ∉ (c.rule cs).log := by
  induction cs using List.reverseRecOn with
  | nil => simp [rule_nil]
  | append_singleton cs cl ih =>
    rw [rule_concat, Outcome.log_bind]
    cases (c.rule cs).result with
    | error e => simpa [Except.toOption] using ih
    | ok r =>
      have hs : ∀ s : Step, Event.widened ∉ s.events c.table r := by
        intro s
        cases s <;> simp [Step.events]
      simp only [addClause, Outcome.log_bind, Outcome.log_note, Outcome.result_note,
        Outcome.log_ofExcept, Outcome.result_ofExcept, Except.toOption, Option.elim]
      cases cl.step c.strict <;> simp [ih, hs]

/-! ### The result of a line -/

theorem sequence_ne_nil {w : Text} {ws : List Text} (hw : isComment w = false)
    (hd : (Clause.sequence (w :: ws)).2.isDone = true) : (Clause.sequence (w :: ws)).1 ≠ [] := by
  cases hk : Keyword.ofWord? w with
  | none =>
    rw [Clause.sequence_unknown hw hk] at hd
    cases hd
  | some k =>
    obtain rfl := Keyword.ofWord?_eq_some_iff.1 hk
    cases hr : Clause.read? k ws with
    | none =>
      rw [Clause.sequence_missing hr] at hd
      cases hd
    | some p =>
      rw [Clause.sequence_cons hr]
      exact List.cons_ne_nil _ _

/-- Only a blank line and a comment say all they have to say without a clause. -/
theorem compileLine_eq (c : Compiler) (line : Text) :
    c.compileLine line =
      if line.clauses = [] ∧ line.ending.isDone = true then pure (some {})
      else c.compileWords line.words := by
  unfold compileLine Text.clauses Text.ending
  cases line.words with
  | nil => simp [Ending.isDone]
  | cons w ws =>
    cases hw : isComment w with
    | true => simp [Clause.sequence_comment hw, Ending.isDone, hw]
    | false =>
      -- any other line has a clause, or ends before it has said all
      have hne : ¬ ((Clause.sequence (w :: ws)).1 = [] ∧ (Clause.sequence (w :: ws)).2.isDone = true) :=
        fun h => sequence_ne_nil hw h.2 h.1
      simp [hne, hw]

theorem result_compileLine (c : Compiler) (line : Text) :
    (c.compileLine line).result = (c.rule line.clauses).result.bind fun r =>
      match line.ending with
      | .complete | .comment _ => .ok (some (if line.clauses = [] then {} else r.ruleset))
      | .unknown _ => .ok none
      | .missing k => .error (.malformed (.missingArgument k)) := by
  have hwords : (c.compileWords line.words).result =
      (c.rule line.clauses).result.bind fun r => (conclude r line.ending).result :=
    Outcome.result_bind _ _
  rw [compileLine_eq]
  by_cases hcs : line.clauses = []
  · rw [hcs, rule_nil] at hwords ⊢
    cases he : line.ending <;> rw [he] at hwords <;> simp [Ending.isDone, hwords, Except.bind]
    all_goals rfl
  · rw [if_neg fun h => hcs h.1, hwords]
    cases line.ending <;> simp only [hcs, if_false] <;> rfl

/-- A line has a ruleset if and only if its clauses make a rule and nothing follows them but a
comment. A line without clauses has the empty one. -/
theorem compileLine_eq_some_iff {line : Text} {out : Ruleset} :
    (c.compileLine line).result = .ok (some out) ↔
      line.ending.isDone = true ∧ ∃ r, (c.rule line.clauses).result = .ok r ∧
        out = if line.clauses = [] then {} else r.ruleset := by
  rw [result_compileLine]
  cases (c.rule line.clauses).result with
  | error e => simp [Except.bind]
  | ok r => cases line.ending <;> simp [Except.bind, Ending.isDone, eq_comm (a := out)]

theorem compileLine_eq_none_iff {line : Text} :
    (c.compileLine line).result = .ok none ↔
      (∃ w, line.ending = .unknown w) ∧ ∃ r, (c.rule line.clauses).result = .ok r := by
  rw [result_compileLine]
  cases (c.rule line.clauses).result with
  | error e => simp [Except.bind]
  | ok r => cases line.ending <;> simp [Except.bind]

/-! ### The warnings of a line -/

theorem warnings_conclude {e : Ending} (hd : e.isDone = true) (r : Rule) :
    (conclude r e).warnings = if r.widens then [.widened] else [] := by
  have hf : (finish r).log = if r.widens then [.widened] else [] := List.append_nil _
  have hfilter : (finish r).log.filter (·.level = .warn) = (finish r).log := by
    rw [hf]
    split <;> rfl
  rcases Ending.isDone_iff.1 hd with rfl | ⟨w, rfl⟩
  · exact hfilter.trans hf
  · exact hfilter.trans hf

theorem warnings_compileLine {line : Text} {out : Ruleset} {r : Rule}
    (h : (c.compileLine line).result = .ok (some out)) (hcs : line.clauses ≠ [])
    (hr : (c.rule line.clauses).result = .ok r) :
    (c.compileLine line).warnings =
      (c.rule line.clauses).warnings ++ if r.widens then [.widened] else [] := by
  have hd := (compileLine_eq_some_iff.1 h).1
  have hlog : (c.compileLine line).log = (c.rule line.clauses).log ++ (conclude r line.ending).log := by
    rw [compileLine_eq, if_neg fun h => hcs h.1]
    refine (Outcome.log_bind _ _).trans ?_
    rw [← Text.clauses, hr]
    rfl
  rw [← warnings_conclude hd r]
  unfold Outcome.warnings
  rw [hlog, List.filter_append]

/-- A line with a ruleset warns last, and once, that a fragment is widened, if it does at all. -/
theorem exists_warnings_eq {line : Text} {out : Ruleset} {r : Rule}
    (h : (c.compileLine line).result = .ok (some out)) (hcs : line.clauses ≠ [])
    (hr : (c.rule line.clauses).result = .ok r) :
    ∃ es, Event.widened ∉ es ∧
      (c.compileLine line).warnings = es ++ if r.widens then [.widened] else [] :=
  ⟨(c.rule line.clauses).warnings,
    fun hw => widened_notMem_log_rule c _ (List.mem_filter.1 hw).1, warnings_compileLine h hcs hr⟩

theorem warnings_of_clauses_eq_nil {line : Text} {out : Ruleset}
    (h : (c.compileLine line).result = .ok (some out)) (hcs : line.clauses = []) :
    (c.compileLine line).warnings = [] := by
  rw [compileLine_eq, if_pos ⟨hcs, (compileLine_eq_some_iff.1 h).1⟩]
  rfl

/-! ### The fragments of a line -/

/-- The fragments of a line for the filter of a family; a line without clauses has none. -/
def lineFragments (c : Compiler) (line : Text) (f : Family) : List Fragment :=
  match (c.rule line.clauses).result with
  | .ok r => if line.clauses = [] then [] else r.fragmentsFor f
  | .error _ => []

theorem lineFragments_eq {line : Text} (hr : (c.rule line.clauses).result = .ok r) (f : Family) :
    c.lineFragments line f = if line.clauses = [] then [] else r.fragmentsFor f := by
  simp only [lineFragments, hr]

theorem ofFamily_eq_map_text {line : Text} {out : Ruleset}
    (h : (c.compileLine line).result = .ok (some out)) (f : Family) :
    out.ofFamily f = (c.lineFragments line f).map Fragment.text := by
  obtain ⟨-, r, hr, rfl⟩ := compileLine_eq_some_iff.1 h
  rw [lineFragments_eq hr]
  split <;> cases f <;> rfl

end Compiler

end Firewall
