import Firewall.Text.Basic

/-!
# Lines

A line feed ends a line, together with one carriage return directly before it. A last line may do
without: a line feed at the end of a text begins no further line.
-/

namespace Firewall.Text

/-- The lines of a text, without what ends them. -/
def lines : Text → List Text
  | [] => []
  | '\n' :: t => [] :: lines t
  | '\r' :: '\n' :: t => [] :: lines t
  | c :: t =>
    match lines t with
    | [] => [[c]]
    | l :: ls => (c :: l) :: ls

@[simp] theorem lines_nil : lines [] = [] := rfl

@[simp] theorem lines_newline (t : Text) : lines ('\n' :: t) = [] :: lines t := by rw [lines]

@[simp] theorem lines_return_newline (t : Text) : lines ('\r' :: '\n' :: t) = [] :: lines t := by
  rw [lines]

theorem lines_cons {c : Char} {t : Text} (hc : c ≠ '\n') (hr : c = '\r' → t.head? ≠ some '\n') :
    lines (c :: t) = (c :: (lines t).headD []) :: (lines t).tail := by
  rw [lines]
  · cases lines t <;> rfl
  · simpa using hc
  · rintro u rfl rfl
    simp at hr

end Firewall.Text
