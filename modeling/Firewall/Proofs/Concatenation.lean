import Firewall.Proofs.Strictness

/-!
# Texts put together

The lines of two texts, put one behind the other, are the lines of the one and the lines of the other,
provided that the first is empty or ends with a line feed (`Text.lines_append`). So the first may be
compiled by itself. The errors of a second part tell the numbers of its lines as if it stood alone, and
`compileLines_add` counts the lines in front of it: `compile_append` is the law of both together. The first
line without a ruleset decides the error (`compileLines_eq_error_iff`). Main statement: `compile_append_line`.
-/

namespace Firewall

/-! ### Lines -/

namespace Text
variable {t : Text}

/-- The cases of `lines`: a line feed, one with a carriage return, and a character of a line. -/
theorem lines_induction {P : Text → Prop} (nil : P []) (newline : ∀ t, P t → P ('\n' :: t))
    (return_newline : ∀ t, P t → P ('\r' :: '\n' :: t))
    (char : ∀ x t, x ≠ '\n' → (x = '\r' → t.head? ≠ some '\n') → P t → P (x :: t)) (t : Text) : P t := by
  have hreturn : ∀ (x : Char) (t : Text), (∀ u, x = '\r' → t = '\n' :: u → False) →
      x = '\r' → t.head? ≠ some '\n' := by
    intro x t h hx ht
    obtain ⟨u, hu⟩ := List.head?_eq_some_iff.1 ht
    exact h u hx hu
  induction t using lines.induct with
  | case1 => exact nil
  | case2 t ih => exact newline t ih
  | case3 t ih => exact return_newline t ih
  | case4 x t hx hr _ ih => exact char x t hx (hreturn x t hr) ih
  | case5 x t hx hr _ _ _ ih => exact char x t hx (hreturn x t hr) ih

theorem lines_ne_nil (h : t ≠ []) : lines t ≠ [] := by
  fun_cases lines t with
  | case1 => exact absurd rfl h
  | _ => simp

/-- Whether every line of a text is complete. -/
def IsEnded (t : Text) : Prop := t = [] ∨ t.getLast? = some '\n'

namespace IsEnded

theorem of_newline_cons (h : IsEnded ('\n' :: t)) : IsEnded t := by
  rcases h with h | h
  · cases h
  · cases t with
    | nil => exact .inl rfl
    | cons y t => exact .inr (by simpa [List.getLast?_cons_cons] using h)

theorem of_cons {x : Char} (hx : x ≠ '\n') (h : IsEnded (x :: t)) : t ≠ [] ∧ IsEnded t := by
  rcases h with h | h
  · cases h
  · cases t with
    | nil => exact absurd (by simpa using h) hx
    | cons y t => exact ⟨List.cons_ne_nil y t, .inr (by simpa [List.getLast?_cons_cons] using h)⟩

end IsEnded

theorem lines_append (h : IsEnded t) (u : Text) : lines (t ++ u) = lines t ++ lines u := by
  induction t using lines_induction with
  | nil => rfl
  | newline t ih => simp [ih h.of_newline_cons]
  | return_newline t ih =>
    have h' := (h.of_cons (by decide)).2
    simp [ih h'.of_newline_cons]
  | char x t hx hr ih =>
    obtain ⟨hne, ht⟩ := h.of_cons hx
    have hr' : x = '\r' → (t ++ u).head? ≠ some '\n' := by
      obtain ⟨y, v, rfl⟩ := List.exists_cons_of_ne_nil hne
      exact hr
    obtain ⟨l, ls, hl⟩ := List.exists_cons_of_ne_nil (lines_ne_nil hne)
    rw [List.cons_append, lines_cons hx hr', lines_cons hx hr, ih ht, hl]
    rfl

theorem length_lines (h : IsEnded t) : (lines t).length = t.count '\n' := by
  induction t using lines_induction with
  | nil => rfl
  | newline t ih => simp [ih h.of_newline_cons]
  | return_newline t ih =>
    have h' := (h.of_cons (by decide)).2
    simp [ih h'.of_newline_cons]
  | char x t hx hr ih =>
    obtain ⟨hne, ht⟩ := h.of_cons hx
    obtain ⟨l, ls, hl⟩ := List.exists_cons_of_ne_nil (lines_ne_nil hne)
    rw [List.count_cons_of_ne hx, ← ih ht, lines_cons hx hr, hl]
    rfl

theorem lines_eq_singleton (hne : t ≠ []) (h : '\n' ∉ t) : lines t = [t] := by
  induction t using lines_induction with
  | nil => exact absurd rfl hne
  | newline t ih => simp at h
  | return_newline t ih => simp at h
  | char x t hx hr ih =>
    rw [lines_cons hx hr]
    by_cases ht : t = []
    · rw [ht]
      rfl
    · rw [ih ht fun hm => h (List.mem_cons_of_mem x hm)]
      rfl

end Text

/-! ### Numbers of lines -/

/-- The error of a line when `k` lines are put in front of it. -/
def Error.addLines (k : Nat) : Error → Error
  | .unrecognized n t => .unrecognized (n + k) t
  | .atLine n e => .atLine (n + k) e
  | e => e

/-- Whether an error tells a line by its number. -/
inductive Error.IsNumbered : Error → Prop
  | atLine (n : Nat) (e : Error) : IsNumbered (.atLine n e)
  | unrecognized (n : Nat) (t : Text) : IsNumbered (.unrecognized n t)

namespace Outcome
variable {α β : Type}

theorem mapError_bind (f : Error → Error) (x : Outcome α) (g : α → Outcome β) :
    (x >>= g).mapError f = x.mapError f >>= fun a => (g a).mapError f := by
  rcases x with ⟨_ | _, _⟩ <;> rfl

theorem mapError_map (f : Error → Error) (g : α → β) (x : Outcome α) :
    (g <$> x).mapError f = g <$> x.mapError f := by
  rcases x with ⟨_ | _, _⟩ <;> rfl

theorem mapError_mapError (f g : Error → Error) (x : Outcome α) :
    (x.mapError f).mapError g = x.mapError (g ∘ f) := by
  rcases x with ⟨_ | _, _⟩ <;> rfl

theorem result_mapError (f : Error → Error) (x : Outcome α) :
    (x.mapError f).result = x.result.mapError f := rfl

theorem log_mapError (f : Error → Error) (x : Outcome α) : (x.mapError f).log = x.log := rfl

end Outcome

namespace Compiler
variable {c : Compiler}

theorem compileNumbered_add (c : Compiler) (n k : Nat) (l : Text) :
    c.compileNumbered (n + k) l = (c.compileNumbered n l).mapError (Error.addLines k) := by
  unfold compileNumbered
  rw [Outcome.mapError_bind, Outcome.mapError_mapError]
  refine congrArg _ (funext fun o => ?_)
  cases o <;> rfl

theorem compileLines_add (c : Compiler) (n k : Nat) (ls : List Text) :
    c.compileLines (n + k) ls = (c.compileLines n ls).mapError (Error.addLines k) := by
  induction ls generalizing n with
  | nil => rfl
  | cons l ls ih =>
    have hn : n + k + 1 = n + 1 + k := by omega
    simp only [compileLines, Outcome.mapError_bind, Outcome.mapError_map, compileNumbered_add, hn, ih]

/-! ### The first line that fails -/

theorem compileNumbered_eq_error_iff {n : Nat} {line : Text} {e : Error} :
    (c.compileNumbered n line).result = .error e ↔
      (∃ cause, (c.compileLine line).result = .error cause ∧ e = .atLine n cause) ∨
        (c.compileLine line).result = .ok none ∧ e = .unrecognized n line.strip := by
  rw [compileNumbered, Outcome.result_bind, Outcome.result_mapError]
  rcases (c.compileLine line).result with e' | _ | out
  · simp [Except.mapError, Except.bind, eq_comm]
  · simp [Except.mapError, Except.bind, eq_comm]
  · simp [Except.mapError, Except.bind]

theorem exists_compileNumbered_iff {n : Nat} {line : Text} :
    (∃ r, (c.compileNumbered n line).result = .ok r) ↔ ∃ r, (c.compileLine line).result = .ok (some r) := by
  rw [compileNumbered, Outcome.result_bind, Outcome.result_mapError]
  rcases (c.compileLine line).result with e' | _ | out
  · simp [Except.mapError, Except.bind]
  · simp [Except.mapError, Except.bind]
  · simp [Except.mapError, Except.bind]

theorem compileLines_cons_eq_error_iff {n : Nat} {l : Text} {ls : List Text} {e : Error} :
    (c.compileLines n (l :: ls)).result = .error e ↔ (c.compileNumbered n l).result = .error e ∨
      (∃ r, (c.compileNumbered n l).result = .ok r) ∧ (c.compileLines (n + 1) ls).result = .error e := by
  rw [compileLines, Outcome.result_bind]
  cases (c.compileNumbered n l).result with
  | error e' => simp [Except.bind]
  | ok r =>
    simp only [Except.bind, Outcome.map_eq]
    cases (c.compileLines (n + 1) ls).result <;> simp [Except.map]

/-- The first line without a ruleset decides the error. -/
theorem compileLines_eq_error_iff {n : Nat} {ls : List Text} {e : Error} :
    (c.compileLines n ls).result = .error e ↔
      ∃ pre line post, ls = pre ++ line :: post ∧ (∀ m ∈ pre, ∃ r, (c.compileLine m).result = .ok (some r)) ∧
        (c.compileNumbered (n + pre.length) line).result = .error e := by
  induction ls generalizing n with
  | nil => simp [compileLines]
  | cons l ls ih =>
    have hn : ∀ k, n + 1 + k = n + (k + 1) := fun k => by omega
    rw [compileLines_cons_eq_error_iff, ih, exists_compileNumbered_iff]
    constructor
    · rintro (h | ⟨hl, pre, line, post, rfl, hpre, h⟩)
      · exact ⟨[], l, ls, rfl, by simp, h⟩
      · exact ⟨l :: pre, line, post, rfl, List.forall_mem_cons.2 ⟨hl, hpre⟩, hn pre.length ▸ h⟩
    · rintro ⟨_ | ⟨m, pre⟩, line, post, hls, hpre, h⟩
      · obtain ⟨rfl, rfl⟩ := List.cons.inj hls
        exact .inl h
      · obtain ⟨rfl, rfl⟩ := List.cons.inj hls
        obtain ⟨hl, hpre⟩ := List.forall_mem_cons.1 hpre
        exact .inr ⟨hl, pre, line, post, rfl, hpre, (hn pre.length).symm ▸ h⟩

theorem isNumbered_of_compileLines {n : Nat} {ls : List Text} {e : Error}
    (h : (c.compileLines n ls).result = .error e) : e.IsNumbered := by
  obtain ⟨pre, line, post, -, -, hline⟩ := compileLines_eq_error_iff.1 h
  rcases compileNumbered_eq_error_iff.1 hline with ⟨cause, -, rfl⟩ | ⟨-, rfl⟩
  · exact .atLine _ cause
  · exact .unrecognized _ line.strip

/-! ### Two texts -/

/-- A text behind complete lines is compiled after them and like a text by itself, but for the numbers
of its lines. -/
theorem compile_append (c : Compiler) {t : Text} (h : t.IsEnded) (u : Text) :
    c.compile (t ++ u) = do
      let r ← c.compile t
      let s ← (c.compile u).mapError (Error.addLines (t.count '\n'))
      return r ++ s := by
  unfold compile
  rw [Text.lines_append h, compileLines_append, Text.length_lines h]
  simp only [compileLines_add]

theorem compile_append_of_error (c : Compiler) {t : Text} (h : t.IsEnded) (u : Text) {e : Error}
    (he : (c.compile t).result = .error e) : c.compile (t ++ u) = c.compile t := by
  rw [compile_append c h, Outcome.bind_eq_of_error he]
  exact Outcome.ext he.symm rfl

theorem compile_append_of_ok (c : Compiler) {t : Text} (h : t.IsEnded) (u : Text) {r : Ruleset}
    (hr : (c.compile t).result = .ok r) :
    (c.compile (t ++ u)).result =
        ((c.compile u).result.mapError (Error.addLines (t.count '\n'))).map (r ++ ·) ∧
      (c.compile (t ++ u)).log = (c.compile t).log ++ (c.compile u).log := by
  rw [compile_append c h, Outcome.bind_eq_of_ok hr, Outcome.bind_pure_eq_map]
  exact ⟨rfl, rfl⟩

theorem compile_eq_compileNumbered (c : Compiler) {line : Text} (hne : line ≠ []) (h : '\n' ∉ line) :
    c.compile line = c.compileNumbered 1 line := by
  have happend : ∀ r : Ruleset, r ++ ({} : Ruleset) = r := Ruleset.append_empty
  rw [compile, Text.lines_eq_singleton hne h]
  simp [compileLines, happend]

theorem log_compileNumbered (c : Compiler) (n : Nat) (line : Text) :
    (c.compileNumbered n line).log = (c.compileLine line).log := by
  unfold compileNumbered
  rw [Outcome.log_bind, Outcome.log_mapError, Outcome.result_mapError]
  rcases (c.compileLine line).result with e | _ | r
  · exact List.append_nil _
  · exact List.append_nil _
  · exact List.append_nil _

/-- An error in the first of two texts, the lines of which are complete, is that of both; otherwise their
rulesets are put together, or the number in an error of the second text counts the lines of the first.
The notes of the second text follow those of the first. A text that is a single line is compiled like
that line. -/
theorem compile_append_line (c : Compiler) :
    (∀ t u : Text, t = [] ∨ t.getLast? = some '\n' →
      (∀ e, (c.compile t).result = .error e → c.compile (t ++ u) = c.compile t) ∧
      ∀ r, (c.compile t).result = .ok r →
        (c.compile (t ++ u)).warnings = (c.compile t).warnings ++ (c.compile u).warnings ∧
        (c.compile (t ++ u)).log = (c.compile t).log ++ (c.compile u).log ∧
        (∀ s, (c.compile u).result = .ok s →
          (c.compile (t ++ u)).result = .ok ⟨r.v4 ++ s.v4, r.v6 ++ s.v6⟩) ∧
        ∀ e, (c.compile u).result = .error e →
          (∃ n cause, e = .atLine n cause ∧
            (c.compile (t ++ u)).result = .error (.atLine (n + t.count '\n') cause)) ∨
          ∃ n text, e = .unrecognized n text ∧
            (c.compile (t ++ u)).result = .error (.unrecognized (n + t.count '\n') text)) ∧
    ∀ line : Text, line ≠ [] → '\n' ∉ line →
      (c.compile line).warnings = (c.compileLine line).warnings ∧
      (c.compile line).log = (c.compileLine line).log ∧
      (∀ r, (c.compileLine line).result = .ok (some r) → (c.compile line).result = .ok r) ∧
      ((c.compileLine line).result = .ok none →
        (c.compile line).result = .error (.unrecognized 1 line.strip)) ∧
      ∀ e, (c.compileLine line).result = .error e → (c.compile line).result = .error (.atLine 1 e) := by
  refine ⟨fun t u ht => ⟨fun e => c.compile_append_of_error ht u, fun r hr => ?_⟩, fun line hne h => ?_⟩
  · obtain ⟨hresult, hlog⟩ := c.compile_append_of_ok ht u hr
    refine ⟨?_, hlog, fun s hs => ?_, fun e he => ?_⟩
    · unfold Outcome.warnings
      rw [hlog, List.filter_append]
    · rw [hresult, hs]
      rfl
    · rw [hresult, he]
      rcases isNumbered_of_compileLines he with ⟨n, cause⟩ | ⟨n, text⟩
      · exact .inl ⟨n, cause, rfl, rfl⟩
      · exact .inr ⟨n, text, rfl, rfl⟩
  · rw [c.compile_eq_compileNumbered hne h]
    have hlog := c.log_compileNumbered 1 line
    refine ⟨congrArg (List.filter _) hlog, hlog, fun r hr => ?_, fun hr => ?_, fun e he => ?_⟩
    · rw [compileNumbered, Outcome.result_bind, Outcome.result_mapError, hr]
      rfl
    · rw [compileNumbered, Outcome.result_bind, Outcome.result_mapError, hr]
      rfl
    · rw [compileNumbered, Outcome.result_bind, Outcome.result_mapError, he]
      rfl

theorem compile_append_line_numbers :
    let c : Compiler := ⟨.filter, "INPUT", true⟩
    let t : Text := "# web\x0d\nport 80\n\x0d\n"
    let r : Ruleset := ⟨["-A INPUT -p tcp --dport 80 -j ACCEPT"], ["-A INPUT -p tcp --dport 80 -j ACCEPT"]⟩
    (c.compile t).result = .ok r ∧
      (c.compile (t ++ "drop\n permit all\n")).result = .error (.unrecognized 5 "permit all") ∧
      (c.compile (t ++ "port 0")).result = .error (.atLine 4 (.malformed (.badPort "0"))) ∧
      c.compile ("from x\n" ++ t) = c.compile "from x\n" := by
  intro c t r
  obtain ⟨happend, hline⟩ := compile_append_line c
  have ht : t = [] ∨ t.getLast? = some '\n' := .inr (by decide)
  have hr : (c.compile t).result = .ok r := by decide +kernel
  refine ⟨hr, ?_, ?_, ?_⟩
  · have he : (c.compile "drop\n permit all\n").result = .error (.unrecognized 2 "permit all") := by
      decide +kernel
    rcases ((happend t "drop\n permit all\n" ht).2 r hr).2.2.2 _ he with ⟨n, cause, h, -⟩ | ⟨n, text, h, h'⟩
    · cases h
    · cases h
      exact h'
  · have he : (c.compileLine "port 0").result = .error (.malformed (.badPort "0")) := by decide +kernel
    have he' := (hline "port 0" (by decide) (by decide)).2.2.2.2 _ he
    rcases ((happend t "port 0" ht).2 r hr).2.2.2 _ he' with ⟨n, cause, h, h'⟩ | ⟨n, text, h, -⟩
    · cases h
      exact h'
    · cases h
  · have he : (c.compile "from x\n").result = .error (.atLine 1 (.invalidAddress "x")) := by decide +kernel
    exact (happend "from x\n" t (.inr (by decide))).1 _ he

end Compiler

end Firewall
