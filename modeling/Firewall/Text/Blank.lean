import Firewall.Text.Basic

/-!
# Blanks and words

Blanks are the characters of Unicode's `White_Space` property. The words of a text are its maximal
runs of other characters; `words_append_blank` says that a blank keeps the words of its two sides
apart.
-/

namespace Firewall

/-- The characters with Unicode's `White_Space` property. -/
def isBlank (c : Char) : Bool :=
  let n := c.toNat
  (0x09 ≤ n && n ≤ 0x0D) || n == 0x20 || n == 0x85 || n == 0xA0 || n == 0x1680
    || (0x2000 ≤ n && n ≤ 0x200A) || n == 0x2028 || n == 0x2029 || n == 0x202F || n == 0x205F
    || n == 0x3000

namespace Text

/-- The text without the blanks at its two ends. -/
def strip (t : Text) : Text := ((t.dropWhile isBlank).reverse.dropWhile isBlank).reverse

/-- The words of a text, in order. -/
def words (t : Text) : List Text := (t.splitOnP isBlank).filter fun w => !w.isEmpty

@[simp] theorem words_nil : words [] = [] := by simp [words]

theorem words_append_blank (t u : Text) {c : Char} (h : isBlank c = true) :
    words (t ++ c :: u) = words t ++ words u := by
  simp [words, List.splitOnP_append_cons t u h]

theorem words_eq_singleton {t : Text} (h : ∀ c ∈ t, isBlank c = false) (hne : t ≠ []) :
    words t = [t] := by
  rw [words, List.splitOnP_eq_singleton (by simpa using h)]
  simp [hne]

end Text

end Firewall
