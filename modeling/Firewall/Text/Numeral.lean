import Firewall.Text.Basic

/-!
# Numerals

Numbers written in a base up to sixteen, most significant digit first, with digits above nine as
letters in either case. Main statement: `read?_text`, what `text` writes is read back.
-/

namespace Firewall.Numeral

/-- The value of a digit; a character that is no digit in any base up to sixteen counts sixteen. -/
def digitValue (c : Char) : Nat :=
  if c.isDigit then c.toNat - '0'.toNat
  else if 'a' ≤ c ∧ c ≤ 'f' then c.toNat - 'a'.toNat + 10
  else if 'A' ≤ c ∧ c ≤ 'F' then c.toNat - 'A'.toNat + 10
  else 16

/-- Whether `t` is a numeral in `base`: one digit or more and nothing else. -/
def isNumeral (base : Nat) (t : Text) : Bool := !t.isEmpty && t.all (digitValue · < base)

/-- The number whose digits in `base` are those of `t`. -/
def value (base : Nat) (t : Text) : Nat := t.foldl (fun n c => base * n + digitValue c) 0

/-- The number that `t` writes in `base`; leading zeros do no harm. -/
def read? (base : Nat) (t : Text) : Option Nat :=
  if isNumeral base t then some (value base t) else none

/-- The number as written in `base`: without leading zeros, letters in lower case. -/
def text (base n : Nat) : Text := Nat.toDigits base n

theorem digitValue_lt_ten_iff {c : Char} : digitValue c < 10 ↔ c.isDigit = true := by
  unfold digitValue
  split
  · next h =>
    simp only [Char.isDigit, Bool.and_eq_true, decide_eq_true_eq] at h
    have h9 : c.toNat ≤ 57 := h.2
    have : '0'.toNat = 48 := rfl
    simp only [Char.isDigit, h, decide_true, Bool.and_self, iff_true]
    omega
  · next h =>
    refine iff_of_false ?_ h
    split
    · omega
    · split <;> omega

theorem digitValue_digitChar {d : Nat} (h : d < 16) : digitValue (Nat.digitChar d) = d := by
  revert d
  decide

theorem value_append_singleton (base : Nat) (t : Text) (c : Char) :
    value base (t ++ [c]) = base * value base t + digitValue c := by
  simp [value, List.foldl_append]

theorem isNumeral_append_singleton {base : Nat} {t : Text} {c : Char} (ht : t ≠ []) :
    isNumeral base (t ++ [c]) = (isNumeral base t && decide (digitValue c < base)) := by
  cases t <;> simp_all [isNumeral, Bool.and_assoc]

theorem isNumeral_text_and_value_text {base : Nat} (h : 1 < base) (h' : base ≤ 16) (n : Nat) :
    isNumeral base (text base n) = true ∧ value base (text base n) = n := by
  induction n using Nat.strongRecOn with
  | ind n ih =>
    by_cases hn : n < base
    · rw [text, Nat.toDigits_of_lt_base hn]
      simp [isNumeral, value, digitValue_digitChar (show n < 16 by omega), hn]
    · have hq : 0 < n / base := Nat.div_pos (by omega) (by omega)
      have hr : n % base < base := Nat.mod_lt _ (by omega)
      have hsplit := Nat.toDigits_append_toDigits h hq hr
      rw [Nat.div_add_mod, Nat.toDigits_of_lt_base hr] at hsplit
      have ⟨hnum, hval⟩ := ih (n / base) (Nat.div_lt_self (by omega) h)
      rw [text] at hnum hval
      rw [text, ← hsplit, isNumeral_append_singleton Nat.toDigits_ne_nil, value_append_singleton,
        hnum, hval, digitValue_digitChar (by omega)]
      exact ⟨by simpa using hr, Nat.div_add_mod n base⟩

/-- What `text` writes is read back. -/
theorem read?_text {base : Nat} (h : 1 < base) (h' : base ≤ 16) (n : Nat) :
    read? base (text base n) = some n := by
  obtain ⟨hnum, hval⟩ := isNumeral_text_and_value_text h h' n
  simp [read?, hnum, hval]

end Firewall.Numeral
