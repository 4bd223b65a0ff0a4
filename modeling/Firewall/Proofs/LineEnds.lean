import Firewall.Proofs.Words
import Mathlib.Data.List.TakeWhile

/-!
# How lines end

A line feed may have a carriage return in front of it, and the last line may do without either. A line keeps the
carriage returns that do not end it, but they are blanks and count for nothing (`Alike.words_eq`,
`Alike.strip_eq`). `Text.Restyled` is the relation between texts that differ in how their lines end:
`Text.Restyled.alike_lines` compares their lines one by one. Main statement: `Compiler.compile_restyled`.
-/

namespace Firewall

namespace Text
variable {t u l m : Text} {ls ms : List Text}

/-! ### Lines that are alike -/

theorem strip_append_blanks (t : Text) (hu : ∀ x ∈ u, isBlank x = true) : strip (t ++ u) = strip t := by
  have hdrop : u.dropWhile isBlank = [] := List.dropWhile_eq_nil_iff.2 hu
  have hback : ∀ x ∈ u.reverse, isBlank x = true := fun x hx => hu x (List.mem_reverse.1 hx)
  unfold strip
  rw [List.dropWhile_append]
  split
  · next ht => rw [hdrop, List.isEmpty_iff.1 ht]
  · rw [List.reverse_append, List.dropWhile_append_of_pos hback]

/-- Whether two lines differ at most by a carriage return at the end of one of them. -/
def Alike (l m : Text) : Prop := m = l ∨ m = l ++ ['\r'] ∨ l = m ++ ['\r']

namespace Alike

theorem refl (l : Text) : Alike l l := .inl rfl

theorem cons (x : Char) (h : Alike l m) : Alike (x :: l) (x :: m) := by
  rcases h with rfl | rfl | rfl
  · exact .inl rfl
  · exact .inr (.inl rfl)
  · exact .inr (.inr rfl)

theorem words_eq (h : Alike l m) : words m = words l := by
  have hblank : ∀ x ∈ ['\r'], isBlank x = true := List.forall_mem_singleton.2 rfl
  rcases h with rfl | rfl | rfl
  · rfl
  · exact words_append_blanks l hblank
  · exact (words_append_blanks m hblank).symm

theorem strip_eq (h : Alike l m) : strip m = strip l := by
  have hblank : ∀ x ∈ ['\r'], isBlank x = true := List.forall_mem_singleton.2 rfl
  rcases h with rfl | rfl | rfl
  · rfl
  · exact strip_append_blanks l hblank
  · exact (strip_append_blanks m hblank).symm

end Alike

/-- Whether the lines of two texts are alike one by one, where the second text may have an empty line more. -/
def AlikeLines (ls ms : List Text) : Prop :=
  ∃ ms', List.Forall₂ Alike ls ms' ∧ (ms = ms' ∨ ms = ms' ++ [[]])

namespace AlikeLines

theorem cons (hl : Alike l m) (h : AlikeLines ls ms) : AlikeLines (l :: ls) (m :: ms) := by
  obtain ⟨ms', hms, rfl | rfl⟩ := h
  · exact ⟨m :: ms, .cons hl hms, .inl rfl⟩
  · exact ⟨m :: ms', .cons hl hms, .inr rfl⟩

theorem tail (h : AlikeLines (l :: ls) ms) : AlikeLines ls ms.tail := by
  obtain ⟨ms', _ | ⟨_, hrest⟩, rfl | rfl⟩ := h
  · exact ⟨_, hrest, .inl rfl⟩
  · exact ⟨_, hrest, .inr rfl⟩

/-- A character put in front belongs to the first line. -/
theorem cons_char (x : Char) (h : AlikeLines ls ms) :
    AlikeLines ((x :: ls.headD []) :: ls.tail) ((x :: ms.headD []) :: ms.tail) := by
  cases ls with
  | nil =>
    -- the empty line, if there is one, is where the character goes
    obtain ⟨_, _ | _, rfl | rfl⟩ := h
    · exact ⟨[[x]], .cons (.refl [x]) .nil, .inl rfl⟩
    · exact ⟨[[x]], .cons (.refl [x]) .nil, .inl rfl⟩
  | cons l ls =>
    have hhead : Alike l (ms.headD []) := by
      obtain ⟨ms', _ | ⟨hl, _⟩, rfl | rfl⟩ := h <;> exact hl
    exact h.tail.cons (hhead.cons x)

end AlikeLines

/-! ### Texts in another style -/

/-- Texts that differ in how their lines end: the second one may have a carriage return more in front of a line
feed, wherever one stands, and a line feed more at its end. -/
inductive Restyled : Text → Text → Prop
  | nil : Restyled [] []
  | ended : Restyled [] ['\n']
  | char {x : Char} {t u : Text} (hx : x ≠ '\n') (h : Restyled t u) : Restyled (x :: t) (x :: u)
  | newline {t u : Text} (h : Restyled t u) : Restyled ('\n' :: t) ('\n' :: u)
  | return_newline {t u : Text} (h : Restyled t u) : Restyled ('\n' :: t) ('\r' :: '\n' :: u)

/-- The text with a carriage return in front of every line feed. -/
def crlf (t : Text) : Text := t.flatMap fun x => if x = '\n' then ['\r', '\n'] else [x]

theorem restyled_crlf (t : Text) : Restyled t t.crlf := by
  induction t with
  | nil => exact .nil
  | cons x t ih =>
    by_cases hx : x = '\n'
    · subst hx
      exact .return_newline ih
    · have hcons : crlf (x :: t) = x :: crlf t := by simp [crlf, hx]
      rw [hcons]
      exact .char hx ih

theorem restyled_append_newline (t : Text) : Restyled t (t ++ ['\n']) := by
  induction t with
  | nil => exact .ended
  | cons x t ih =>
    by_cases hx : x = '\n'
    · subst hx
      exact .newline ih
    · exact .char hx ih

theorem Restyled.alike_lines (h : Restyled t u) : AlikeLines (lines t) (lines u) := by
  induction h with
  | nil => exact ⟨[], .nil, .inl rfl⟩
  | ended => exact ⟨[], .nil, .inr rfl⟩
  | newline _ ih => simpa using ih.cons (.refl [])
  | return_newline _ ih => simpa using ih.cons (.refl [])
  | @char x t u hx h ih =>
    have hchar : (x = '\r' → t.head? ≠ some '\n') → (x = '\r' → u.head? ≠ some '\n') →
        AlikeLines (lines (x :: t)) (lines (x :: u)) := by
      intro ht hu
      rw [lines_cons hx ht, lines_cons hx hu]
      exact ih.cons_char x
    by_cases hr : x = '\r'
    · subst hr
      -- what becomes of a carriage return depends on what comes next in either text
      cases h with
      | nil => exact hchar (by simp) (by simp)
      | char hy h => exact hchar (by simpa using hy) (by simpa using hy)
      | ended => exact ⟨[[]], .cons (.inr (.inr rfl)) .nil, .inl rfl⟩
      | newline h => simpa using ih
      | return_newline h =>
        -- there are two carriage returns in the second text, and the first one stays in the line
        rw [lines_newline, lines_return_newline] at ih
        rw [lines_return_newline, lines_cons (by decide) (by simp), lines_return_newline]
        exact ih.tail.cons (.inr (.inl rfl))
    · exact hchar (fun h => absurd h hr) (fun h => absurd h hr)

end Text

/-! ### Compiling them -/

namespace Compiler
variable {c : Compiler} {ls ms : List Text}

theorem compileNumbered_congr (c : Compiler) (n : Nat) {l m : Text} (hw : m.words = l.words)
    (hs : m.strip = l.strip) : c.compileNumbered n m = c.compileNumbered n l := by
  simp only [compileNumbered, c.compileLine_congr hw, hs]

theorem compileLines_of_forall₂ (n : Nat) (h : List.Forall₂ Text.Alike ls ms) :
    c.compileLines n ms = c.compileLines n ls := by
  induction h generalizing n with
  | nil => rfl
  | cons hl _ ih => simp only [compileLines, c.compileNumbered_congr n hl.words_eq hl.strip_eq, ih]

/-- An empty line adds nothing, wherever it stands. -/
theorem compileLines_append_nil (n : Nat) : c.compileLines n (ls ++ [[]]) = c.compileLines n ls := by
  have hnil : ∀ k, c.compileLines k [[]] = pure {} := fun _ => rfl
  rw [compileLines_append]
  simp only [hnil, pure_bind, Ruleset.append_empty, bind_pure]

theorem compileLines_of_alikeLines (n : Nat) (h : Text.AlikeLines ls ms) :
    c.compileLines n ms = c.compileLines n ls := by
  obtain ⟨ms', hms, rfl | rfl⟩ := h
  · exact compileLines_of_forall₂ n hms
  · rw [compileLines_append_nil, compileLines_of_forall₂ n hms]

/-- How the lines of a text end does not matter: with carriage returns put in front of all line feeds or of some,
and with a line feed at the end, it has the same ruleset, or the same error with the same number and the same text
of a line, and the same notes. -/
theorem compile_restyled (c : Compiler) (t : Text) :
    c.compile t.crlf = c.compile t ∧ c.compile (t ++ ['\n']) = c.compile t ∧
      ∀ u, Text.Restyled t u → c.compile u = c.compile t := by
  have hall : ∀ u, Text.Restyled t u → c.compile u = c.compile t :=
    fun u h => compileLines_of_alikeLines 1 h.alike_lines
  exact ⟨hall _ t.restyled_crlf, hall _ t.restyled_append_newline, hall⟩

theorem compile_restyled_returns :
    let c : Compiler := ⟨.filter, "INPUT", false⟩
    let t : Text := "\x0d\n\x0dx"
    let u : Text := "\x0d\x0d\n\x0dx\n"
    Text.Restyled t u ∧ (c.compile t).result = .error (.unrecognized 2 "x") ∧
      c.compile u = c.compile t ∧ c.compile t.crlf = c.compile t := by
  intro c t u
  obtain ⟨hcrlf, -, hall⟩ := compile_restyled c t
  have hu : Text.Restyled t u :=
    .char (by decide) (.return_newline (.char (by decide) (.char (by decide) .ended)))
  exact ⟨hu, by decide +kernel, hall u hu, hcrlf⟩

end Compiler

end Firewall
