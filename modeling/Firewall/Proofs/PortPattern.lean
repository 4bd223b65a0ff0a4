import Firewall.Proofs.PortClauses
import Mathlib.Computability.RegularExpressions

/-!
# The pattern of a port list

The form of a port list is a regular expression, `PortList.pattern`: digits, with a mark and digits behind them
or not, and the same again behind each comma. The pass over a list (`PortList.isPortList`) and the split at the
commas find the same (`PortList.mem_pattern_iff`). So an item that comes to be read has one mark at most, with
digits on both sides of it, and all that can be wrong with it is a number out of range. Main statement:
`PortList.pattern_iff_items`.
-/

namespace Firewall

/-! ### Reading an item -/

namespace PortSpan
variable {i : Text} {ns : List Text}

/-- How an item is taken apart: there is nothing to cut, or the cut is at the one mark that it has. The numerals
are what is on the two sides. -/
inductive Halves (i : Text) : List Text → Prop
  | whole (hcut : i.cut? isMark = none) (hi : IsDigits i) : Halves i [i]
  | two {a b : Text} {m : Char} (hi : i = a ++ m :: b) (hm : m = ':' ∨ m = '-') (hone : i.countP isMark = 1)
      (hcut : i.cut? isMark = some (a, b)) (ha : IsDigits a) (hb : IsDigits b) : Halves i [a, b]

theorem exists_form_iff : (∃ ns, Form i ns) ↔
    IsDigits i ∨ ∃ a m b, i = a ++ m :: b ∧ IsDigits a ∧ (m = ':' ∨ m = '-') ∧ IsDigits b := by
  constructor
  · rintro ⟨ns, hi | @⟨a, b, m, ha, hm, hb⟩⟩
    · exact .inl hi
    · exact .inr ⟨a, m, b, rfl, ha, hm, hb⟩
  · rintro (hi | ⟨a, m, b, rfl, ha, hm, hb⟩)
    · exact ⟨_, .single hi⟩
    · exact ⟨_, .range ha hm hb⟩

theorem Form.halves {ks : List Nat} (h : Form i ks) : Halves i (numerals i) := by
  have hmarks : ∀ a : Text, IsDigits a → a.countP isMark = 0 := by
    intro a ha
    rw [List.countP_eq_zero]
    intro c hc
    simp [isMark_of_isDigit (ha.2 c hc)]
  rcases h with hi | @⟨a, b, m, ha, hm, hb⟩
  · rw [numerals_single hi]
    exact .whole (Text.cut?_eq_none_iff.2 fun c hc => isMark_of_isDigit (hi.2 c hc)) hi
  · rw [numerals_range ha hm hb]
    refine .two rfl hm ?_ ?_ ha hb
    · simp [hmarks a ha, hmarks b hb, isMark_iff.2 hm]
    · exact Text.cut?_eq_some_iff.2 ⟨m, isMark_iff.2 hm, fun c hc => isMark_of_isDigit (ha.2 c hc), rfl⟩

/-- An item of the form of one is refused for the first of its numerals that is out of range. -/
theorem read_eq_error_iff (h : ∃ ks, Form i ks) {e : Error} :
    PortSpan.read i = .error e ↔ ∃ n, fault? i = some n ∧ e = .invalidPort n := by
  rcases read_of_form h with ⟨hf, s, hs, -⟩ | ⟨a, hf, hs⟩
  · simp [hf, hs]
  · simp [hf, hs, eq_comm]

theorem fault?_eq_some_iff {n : Text} : fault? i = some n ↔ ∃ pre post, numerals i = pre ++ n :: post ∧
    (∀ k ∈ pre, 1 ≤ Numeral.value 10 k ∧ Numeral.value 10 k ≤ 65535) ∧
    (Numeral.value 10 n = 0 ∨ 65535 < Numeral.value 10 n) := by
  have hin : ∀ k, Port.inRange k = true ↔ 1 ≤ Numeral.value 10 k ∧ Numeral.value 10 k ≤ 65535 := by
    intro k
    simp [Port.inRange, Nat.succ_le_iff]
  have hout : Port.inRange n = false ↔ Numeral.value 10 n = 0 ∨ 65535 < Numeral.value 10 n := by
    rw [← Bool.not_eq_true, hin]
    omega
  simp only [fault?, List.find?_eq_some_iff_append, Bool.not_not, Bool.not_eq_true', hin, hout]
  constructor
  · rintro ⟨hn, pre, post, hns, hpre⟩
    exact ⟨pre, post, hns, hpre, hn⟩
  · rintro ⟨pre, post, hns, hpre, hn⟩
    exact ⟨hn, pre, post, hns, hpre⟩

end PortSpan

namespace PortList
variable {t : Text} {cs : List Char}

/-! ### The pattern -/

/-- One of several characters. -/
def oneOf (cs : List Char) : RegularExpression Char := (cs.map .char).foldr (· + ·) 0

/-- A run of several characters, of length one or more. -/
def runOf (cs : List Char) : RegularExpression Char := oneOf cs * .star (oneOf cs)

def digitChars : List Char := "0123456789".toList

/-- A number, or two numbers with a mark between them. -/
def itemPattern : RegularExpression Char :=
  runOf digitChars * (1 + oneOf [':', '-'] * runOf digitChars)

/-- An item, and behind it items with a comma in front of each. -/
def pattern : RegularExpression Char := itemPattern * .star (.char ',' * itemPattern)

theorem mem_oneOf_iff : t ∈ (oneOf cs).matches' ↔ ∃ c ∈ cs, t = [c] := by
  induction cs with
  | nil => simp [oneOf, RegularExpression.matches'_zero, Language.notMem_zero]
  | cons c cs ih =>
    have hcons : oneOf (c :: cs) = .char c + oneOf cs := rfl
    have hchar : t ∈ (RegularExpression.char c).matches' ↔ t = [c] := Iff.rfl
    rw [hcons, RegularExpression.matches'_add, Language.mem_add, ih, hchar]
    simp

theorem mem_star_oneOf_iff : t ∈ (RegularExpression.star (oneOf cs)).matches' ↔ ∀ c ∈ t, c ∈ cs := by
  rw [RegularExpression.matches'_star, Language.mem_kstar]
  simp only [mem_oneOf_iff]
  constructor
  · rintro ⟨ts, rfl, h⟩ c hc
    obtain ⟨u, hu, hc⟩ := List.mem_flatten.1 hc
    obtain ⟨d, hd, rfl⟩ := h u hu
    rw [List.mem_singleton] at hc
    exact hc ▸ hd
  · intro h
    refine ⟨t.map ([·]), (List.flatMap_singleton' t).symm, ?_⟩
    rw [List.forall_mem_map]
    exact fun c hc => ⟨c, h c hc, rfl⟩

theorem mem_runOf_iff : t ∈ (runOf cs).matches' ↔ t ≠ [] ∧ ∀ c ∈ t, c ∈ cs := by
  rw [runOf, RegularExpression.matches'_mul, Language.mem_mul]
  simp only [mem_oneOf_iff, mem_star_oneOf_iff]
  constructor
  · rintro ⟨_, ⟨c, hc, rfl⟩, u, hu, rfl⟩
    exact ⟨by simp, List.forall_mem_cons.2 ⟨hc, hu⟩⟩
  · rintro ⟨hne, h⟩
    obtain ⟨c, u, rfl⟩ := List.exists_cons_of_ne_nil hne
    obtain ⟨hc, hu⟩ := List.forall_mem_cons.1 h
    exact ⟨[c], ⟨c, hc, rfl⟩, u, hu, rfl⟩

theorem mem_digitChars_iff {c : Char} : c ∈ digitChars ↔ c.isDigit = true := by
  constructor
  · intro h
    have hall : ∀ c ∈ digitChars, c.isDigit = true := List.all_eq_true.1 (by decide)
    exact hall c h
  · intro h
    simp only [Char.isDigit, Bool.and_eq_true, decide_eq_true_eq] at h
    have h0 : 48 ≤ c.toNat := h.1
    have h9 : c.toNat ≤ 57 := h.2
    have hall : ∀ n < 58, 48 ≤ n → Char.ofNat n ∈ digitChars := by decide
    simpa using hall c.toNat (by omega) h0

theorem mem_digits_iff : t ∈ (runOf digitChars).matches' ↔ IsDigits t := by
  simp only [mem_runOf_iff, mem_digitChars_iff]
  rfl

theorem mem_itemPattern_iff : t ∈ itemPattern.matches' ↔ ∃ ns, PortSpan.Form t ns := by
  rw [PortSpan.exists_form_iff]
  simp only [itemPattern, RegularExpression.matches'_mul, RegularExpression.matches'_add,
    RegularExpression.matches'_epsilon, Language.mem_mul, Language.mem_add, Language.mem_one, mem_oneOf_iff,
    mem_digits_iff]
  constructor
  · rintro ⟨a, ha, _, rfl | ⟨_, ⟨m, hm, rfl⟩, b, hb, rfl⟩, rfl⟩
    · exact .inl (by simpa using ha)
    · exact .inr ⟨a, m, b, rfl, ha, by simpa using hm, hb⟩
  · rintro (ha | ⟨a, m, b, rfl, ha, hm, hb⟩)
    · exact ⟨t, ha, [], .inl rfl, by simp⟩
    · exact ⟨a, ha, m :: b, .inr ⟨[m], ⟨m, by simpa using hm, rfl⟩, b, hb, rfl⟩, rfl⟩

theorem comma_notMem_of_form (h : ∃ ns, PortSpan.Form t ns) : ',' ∉ t := by
  have hdigits : ∀ a : Text, IsDigits a → ',' ∉ a := fun a ha hc => absurd (ha.2 ',' hc) (by decide)
  rcases PortSpan.exists_form_iff.1 h with ha | ⟨a, m, b, rfl, ha, hm, hb⟩
  · exact hdigits t ha
  · rw [List.mem_append, List.mem_cons]
    rintro (hc | rfl | hc)
    · exact hdigits a ha hc
    · exact absurd hm (by decide)
    · exact hdigits b hb hc

theorem mem_star_comma_iff : t ∈ (RegularExpression.star (.char ',' * itemPattern)).matches' ↔
    ∃ ps : List Text, t = ps.flatMap (',' :: ·) ∧ ∀ p ∈ ps, ∃ ns, PortSpan.Form p ns := by
  have hone : ∀ u : Text, u ∈ (RegularExpression.char ',' * itemPattern).matches' ↔
      ∃ p : Text, u = ',' :: p ∧ ∃ ns, PortSpan.Form p ns := by
    intro u
    rw [RegularExpression.matches'_mul, Language.mem_mul]
    simp only [mem_itemPattern_iff]
    constructor
    · rintro ⟨_, rfl, p, hp, rfl⟩
      exact ⟨p, rfl, hp⟩
    · rintro ⟨p, rfl, hp⟩
      exact ⟨[','], rfl, p, hp, rfl⟩
  rw [RegularExpression.matches'_star, Language.mem_kstar]
  simp only [hone]
  constructor
  · rintro ⟨us, rfl, h⟩
    -- the items are what stands behind the commas
    refine ⟨us.map List.tail, ?_, ?_⟩
    · rw [List.flatMap_map, ← List.flatMap_id]
      refine List.flatMap_congr fun u hu => ?_
      obtain ⟨p, rfl, -⟩ := h u hu
      rfl
    · rw [List.forall_mem_map]
      intro u hu
      obtain ⟨p, rfl, hp⟩ := h u hu
      exact hp
  · rintro ⟨ps, rfl, h⟩
    refine ⟨ps.map (',' :: ·), List.flatMap_def, ?_⟩
    rw [List.forall_mem_map]
    exact fun p hp => ⟨p, rfl, h p hp⟩

/-- The pattern and the split at the commas agree. -/
theorem mem_pattern_iff : t ∈ pattern.matches' ↔ ∀ p ∈ t.items, ∃ ns, PortSpan.Form p ns := by
  rw [pattern, RegularExpression.matches'_mul, Language.mem_mul]
  simp only [mem_itemPattern_iff, mem_star_comma_iff]
  constructor
  · rintro ⟨p, hp, _, ⟨ps, rfl, hps⟩, rfl⟩
    have hall : ∀ q ∈ p :: ps, ∃ ns, PortSpan.Form q ns := List.forall_mem_cons.2 ⟨hp, hps⟩
    have hitems : Text.items (Text.ofItems (p :: ps)) = p :: ps :=
      Text.items_ofItems (fun q hq => comma_notMem_of_form (hall q hq)) (by simp)
    rw [← intercalate_cons_eq_append, ← Text.ofItems, hitems]
    exact hall
  · intro h
    obtain ⟨p, ps, hitems⟩ := List.exists_cons_of_ne_nil t.items_ne_nil
    rw [hitems] at h
    obtain ⟨hp, hps⟩ := List.forall_mem_cons.1 h
    refine ⟨p, hp, ps.flatMap (',' :: ·), ⟨ps, rfl, hps⟩, ?_⟩
    rw [← intercalate_cons_eq_append, ← hitems]
    exact Text.ofItems_items t

/-! ### Lists of another form -/

/-- A list is refused for its form just in case it is not of the pattern. -/
theorem read_eq_badPortList_iff {strict : Bool} :
    PortList.read strict t = .error (.malformed (.badPortList t)) ↔ ¬ ∀ i ∈ t.items, ∃ ns, PortSpan.Form i ns := by
  rw [read_eq_error_iff]
  constructor
  · rintro ⟨f, h, hf⟩
    cases h
    cases hf with
    | form hform => exact hform
  · exact fun hform => ⟨_, rfl, .form hform⟩

/-- The pattern of a port list, the pass over it and the split at its commas find the same: the items are runs of
digits, or two such runs with one mark between them. A list that is not so is refused for its form, and no other
is. The items of one that is so are taken apart at the mark, if they have one, into runs of digits, and an item is
refused just in case the number of one of them is not from 1 to 65535: the error names the first of these. -/
theorem pattern_iff_items (t : Text) :
    (t ∈ pattern.matches' ↔ isPortList t = true) ∧
    (t ∈ pattern.matches' ↔ ∀ i ∈ t.splitOn ',',
      IsDigits i ∨ ∃ a m b, i = a ++ m :: b ∧ IsDigits a ∧ (m = ':' ∨ m = '-') ∧ IsDigits b) ∧
    (∀ strict, PortList.read strict t = .error (.malformed (.badPortList t)) ↔ t ∉ pattern.matches') ∧
    (t ∈ pattern.matches' → ∀ i ∈ t.splitOn ',', ∃ ns, PortSpan.Halves i ns ∧
      ∀ e, PortSpan.read i = .error e ↔ ∃ pre n post, ns = pre ++ n :: post ∧ e = .invalidPort n ∧
        (∀ k ∈ pre, 1 ≤ Numeral.value 10 k ∧ Numeral.value 10 k ≤ 65535) ∧
        (Numeral.value 10 n = 0 ∨ 65535 < Numeral.value 10 n)) := by
  refine ⟨?_, ?_, fun strict => ?_, fun h i hi => ?_⟩
  · rw [mem_pattern_iff, isPortList_iff]
  · simp only [mem_pattern_iff, PortSpan.exists_form_iff]
    rfl
  · rw [mem_pattern_iff, read_eq_badPortList_iff]
  · obtain ⟨ks, hform⟩ := mem_pattern_iff.1 h i hi
    refine ⟨PortSpan.numerals i, hform.halves, fun e => ?_⟩
    rw [PortSpan.read_eq_error_iff ⟨ks, hform⟩]
    simp only [PortSpan.fault?_eq_some_iff]
    constructor
    · rintro ⟨n, ⟨pre, post, hns, hpre, hn⟩, he⟩
      exact ⟨pre, n, post, hns, he, hpre, hn⟩
    · rintro ⟨pre, n, post, hns, he, hpre, hn⟩
      exact ⟨n, ⟨pre, post, hns, hpre, hn⟩, he⟩

theorem pattern_iff_items_mixed :
    let t : Text := "007-80,9:70000"
    let i : Text := "9:70000"
    let u : Text := "80,,443"
    t ∈ pattern.matches' ∧ PortSpan.read i = .error (.invalidPort "70000") ∧
      (∃ ns, PortSpan.Halves i ns ∧ ∃ n ∈ ns, Numeral.value 10 n = 0 ∨ 65535 < Numeral.value 10 n) ∧
      u ∉ pattern.matches' ∧ PortList.read false u = .error (.malformed (.badPortList u)) := by
  intro t i u
  obtain ⟨hlist, -, -, hitems⟩ := pattern_iff_items t
  obtain ⟨hlist', -, hrefused, -⟩ := pattern_iff_items u
  have ht : t ∈ pattern.matches' := hlist.2 (by decide +kernel)
  have hu : u ∉ pattern.matches' := fun h => absurd (hlist'.1 h) (by decide +kernel)
  have hread : PortSpan.read i = .error (.invalidPort "70000") := by decide +kernel
  obtain ⟨ns, hns, herror⟩ := hitems ht i (by decide +kernel)
  obtain ⟨pre, n, post, rfl, -, -, hn⟩ := (herror _).1 hread
  exact ⟨ht, hread, ⟨_, hns, n, by simp, hn⟩, hu, (hrefused false).2 hu⟩

end PortList

end Firewall
