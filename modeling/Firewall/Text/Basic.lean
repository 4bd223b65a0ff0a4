/-!
# Texts

A text is a list of characters: the rules on words, lines, numerals and comma lists are recursions
on that list. `Text.cut?` splits at the first character of a kind; `Text.items` and `Text.ofItems`
pass between a comma list and its items.
-/

namespace Firewall

/-- A text, character by character. -/
abbrev Text := List Char

/-- A string stands for the list of its characters. -/
instance : Coe String Text := ⟨String.toList⟩

instance : LawfulBEq Text := inferInstance

namespace Text

/-- The text before the first character satisfying `p` and the text after it; `none` if no
character does. -/
def cut? (p : Char → Bool) : Text → Option (Text × Text)
  | [] => none
  | c :: t => if p c then some ([], t) else (cut? p t).map fun (a, b) => (c :: a, b)

/-- The items of a comma list. An empty text is one empty item. -/
def items (t : Text) : List Text := t.splitOn ','

/-- The comma list of `ts`. -/
def ofItems (ts : List Text) : Text := [','].intercalate ts

theorem ofItems_items (t : Text) : ofItems (items t) = t := List.intercalate_splitOn ','

theorem items_ofItems {ts : List Text} (h : ∀ t ∈ ts, ',' ∉ t) (hne : ts ≠ []) :
    items (ofItems ts) = ts := List.splitOn_intercalate ',' h hne

theorem cut?_eq_none_iff {p : Char → Bool} {t : Text} : cut? p t = none ↔ ∀ c ∈ t, p c = false := by
  induction t with
  | nil => simp [cut?]
  | cons c t ih => cases h : p c <;> simp [cut?, h, ih]

theorem cut?_eq_some_iff {p : Char → Bool} {t a b : Text} :
    cut? p t = some (a, b) ↔ ∃ c, p c = true ∧ (∀ x ∈ a, p x = false) ∧ t = a ++ c :: b := by
  induction t generalizing a with
  | nil => simp [cut?]
  | cons c t ih =>
    cases h : p c with
    | true =>
      simp only [cut?, h, if_true, Option.some.injEq, Prod.mk.injEq]
      constructor
      · rintro ⟨rfl, rfl⟩
        exact ⟨c, h, by simp, rfl⟩
      · rintro ⟨d, hd, ha, ht⟩
        cases a with
        | nil => simpa using (List.cons.inj ht).2
        | cons x a =>
          have hx := ha x (by simp)
          rw [← (List.cons.inj ht).1, h] at hx
          cases hx
    | false =>
      simp only [cut?, h, Bool.false_eq_true, if_false, Option.map_eq_some_iff, Prod.exists,
        Prod.mk.injEq]
      constructor
      · rintro ⟨a', b', hcut, rfl, rfl⟩
        obtain ⟨d, hd, ha, rfl⟩ := ih.1 hcut
        exact ⟨d, hd, by simpa [h] using ha, rfl⟩
      · rintro ⟨d, hd, ha, ht⟩
        cases a with
        | nil =>
          rw [← (List.cons.inj ht).1, h] at hd
          cases hd
        | cons x a =>
          obtain ⟨rfl, rfl⟩ := List.cons.inj ht
          exact ⟨a, b, ih.2 ⟨d, hd, fun y hy => ha y (by simp [hy]), rfl⟩, rfl, rfl⟩

end Text

end Firewall
