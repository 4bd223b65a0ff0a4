import Firewall.Proofs.Words
import Mathlib.Data.List.Induction
import Mathlib.Data.Nat.Digits.Defs

/-!
# Port numbers in machine words

A port is read as a natural number, so a long numeral cannot wrap around and pass for another port.
`Port.readWord` reads it in 32 bits instead: it gives up where the next digit does not fit
(`Port.foldlM_push?_eq_some_iff`), and cuts the number down to 16 bits at the end. The two agree on every
text (`Port.readWord_eq`). `Port.Written` says how a number may be written, with the value of its digits by
place. Main statement: `Port.read_iff_written`.
-/

namespace Firewall

/-! ### The value of a numeral -/

namespace Numeral

theorem value_eq_ofDigits (base : Nat) (t : Text) :
    value base t = Nat.ofDigits base (t.reverse.map digitValue) := by
  induction t using List.reverseRecOn with
  | nil => rfl
  | append_singleton t c ih =>
    rw [value_append_singleton, ih, List.reverse_append, List.reverse_singleton, List.singleton_append,
      List.map_cons, Nat.ofDigits_cons]
    exact Nat.add_comm _ _

theorem digitValue_of_isDigit {c : Char} (h : c.isDigit = true) : digitValue c = c.toNat - '0'.toNat :=
  if_pos h

/-- A numeral is worth no less than any of its beginnings. -/
theorem le_foldl_digits {base : Nat} (h : 0 < base) (n : Nat) (t : Text) :
    n ≤ t.foldl (fun n c => base * n + digitValue c) n := by
  induction t generalizing n with
  | nil => exact Nat.le_refl n
  | cons c t ih =>
    have hstep : n ≤ base * n + digitValue c := Nat.le_add_right_of_le (Nat.le_mul_of_pos_left n h)
    exact Nat.le_trans hstep (ih _)

end Numeral

/-! ### The ends of a text -/

namespace Text

theorem exists_strip (t : Text) :
    ∃ b b', t = b ++ t.strip ++ b' ∧ (∀ x ∈ b, isBlank x = true) ∧ ∀ x ∈ b', isBlank x = true := by
  refine ⟨t.takeWhile isBlank, ((t.dropWhile isBlank).reverse.takeWhile isBlank).reverse, ?_, ?_, ?_⟩
  · rw [List.append_assoc, ← dropWhile_isBlank_eq, List.takeWhile_append_dropWhile]
  · exact List.all_eq_true.1 List.all_takeWhile
  · exact fun x hx => List.all_eq_true.1 List.all_takeWhile x (List.mem_reverse.1 hx)

theorem strip_append {b u b' : Text} (hb : ∀ x ∈ b, isBlank x = true) (hu : ∀ x ∈ u, isBlank x = false)
    (hb' : ∀ x ∈ b', isBlank x = true) (hne : u ≠ []) : strip (b ++ u ++ b') = u := by
  have hfront : ∀ v w : Text, (∀ x ∈ v, isBlank x = true) → (∀ x, w.head? = some x → isBlank x = false) →
      (v ++ w).dropWhile isBlank = w := by
    intro v w hv hw
    rw [List.dropWhile_append_of_pos hv]
    cases w with
    | nil => rfl
    | cons x w => simp [hw x rfl]
  have hhead : ∀ v w : Text, v ≠ [] → (∀ x ∈ v, isBlank x = false) →
      ∀ x, (v ++ w).head? = some x → isBlank x = false := by
    intro v w hv hblank x hx
    obtain ⟨y, v, rfl⟩ := List.exists_cons_of_ne_nil hv
    obtain rfl : y = x := by simpa using hx
    exact hblank y (by simp)
  have hback : ∀ x ∈ u.reverse, isBlank x = false := fun x hx => hu x (List.mem_reverse.1 hx)
  rw [strip, List.append_assoc, hfront b (u ++ b') hb (hhead u b' hne hu), List.reverse_append,
    hfront b'.reverse u.reverse (fun x hx => hb' x (List.mem_reverse.1 hx)) ?_, List.reverse_reverse]
  simpa using hhead u.reverse [] (by simpa using hne) hback

end Text

namespace Port

/-! ### Reading in 32 bits -/

/-- The sum of two words, if it fits. -/
def add? (m n : BitVec 32) : Option (BitVec 32) := if m.uaddOverflow n then none else some (m + n)

/-- The product of two words, if it fits. -/
def mul? (m n : BitVec 32) : Option (BitVec 32) := if m.umulOverflow n then none else some (m * n)

def digit? (c : Char) : Option (BitVec 32) :=
  if c.isDigit then some (BitVec.ofNat 32 (c.toNat - '0'.toNat)) else none

/-- The word with a further digit, if it fits. -/
def push? (n : BitVec 32) (c : Char) : Option (BitVec 32) := do
  let m ← mul? n 10
  let d ← digit? c
  add? m d

/-- The word that a numeral writes, with one plus sign in front or none. -/
def word? (t : Text) : Option (BitVec 32) :=
  match dropSign t with
  | [] => none
  | ds => ds.foldlM push? 0

/-- The port that a text writes, read in 32 bits and cut down to 16. -/
def readWord (t : Text) : Except Error (BitVec 16) :=
  match word? t.strip with
  | none => .error (.invalidPort t)
  | some n => if n < 1 ∨ 65535 < n then .error (.invalidPort t) else .ok (n.setWidth 16)

variable {m n k : BitVec 32} {c : Char} {t : Text}

theorem add?_eq_some_iff : add? m n = some k ↔ m.toNat + n.toNat = k.toNat := by
  unfold add?
  by_cases h : m.uaddOverflow n = true
  · have hlt := k.isLt
    have hge : m.toNat + n.toNat ≥ 2 ^ 32 := by simpa [BitVec.uaddOverflow] using h
    simp only [h, if_true, reduceCtorEq, false_iff]
    omega
  · rw [if_neg h, Option.some.injEq, ← BitVec.toNat_inj, BitVec.toNat_add_of_not_uaddOverflow h]

theorem mul?_eq_some_iff : mul? m n = some k ↔ m.toNat * n.toNat = k.toNat := by
  unfold mul?
  by_cases h : m.umulOverflow n = true
  · have hlt := k.isLt
    have hge : m.toNat * n.toNat ≥ 2 ^ 32 := by simpa [BitVec.umulOverflow] using h
    simp only [h, if_true, reduceCtorEq, false_iff]
    omega
  · rw [if_neg h, Option.some.injEq, ← BitVec.toNat_inj, BitVec.toNat_mul_of_not_umulOverflow h]

theorem digit?_eq_some_iff : digit? c = some k ↔ c.isDigit = true ∧ Numeral.digitValue c = k.toNat := by
  unfold digit?
  by_cases h : c.isDigit = true
  · have hlt : Numeral.digitValue c < 10 := Numeral.digitValue_lt_ten_iff.2 h
    rw [if_pos h, ← Numeral.digitValue_of_isDigit h, Option.some.injEq, ← BitVec.toNat_inj,
      BitVec.toNat_ofNat, Nat.mod_eq_of_lt (by omega)]
    simp [h]
  · simp [h]

/-- A digit is put behind a word exactly if the number fits. -/
theorem push?_eq_some_iff :
    push? n c = some k ↔ c.isDigit = true ∧ 10 * n.toNat + Numeral.digitValue c = k.toNat := by
  have hten : (10 : BitVec 32).toNat = 10 := rfl
  simp only [push?, Option.bind_eq_bind, Option.bind_eq_some_iff, add?_eq_some_iff, mul?_eq_some_iff,
    digit?_eq_some_iff, hten]
  constructor
  · rintro ⟨m, hm, d, ⟨hc, hd⟩, hk⟩
    exact ⟨hc, by omega⟩
  · rintro ⟨hc, hk⟩
    have hlt := k.isLt
    refine ⟨BitVec.ofNat 32 (10 * n.toNat), ?_, BitVec.ofNat 32 (Numeral.digitValue c), ⟨hc, ?_⟩, ?_⟩ <;>
      simp only [BitVec.toNat_ofNat] <;> omega

/-- Digits are read exactly if the number fits, and then none of it is lost. -/
theorem foldlM_push?_eq_some_iff :
    t.foldlM push? n = some k ↔ (∀ c ∈ t, c.isDigit = true) ∧
      t.foldl (fun n c => 10 * n + Numeral.digitValue c) n.toNat = k.toNat := by
  induction t generalizing n with
  | nil => simp [BitVec.toNat_inj]
  | cons c t ih =>
    simp only [List.foldlM_cons, List.foldl_cons, Option.bind_eq_bind, Option.bind_eq_some_iff, ih,
      push?_eq_some_iff, List.forall_mem_cons]
    constructor
    · rintro ⟨m, ⟨hc, hm⟩, ht, hk⟩
      exact ⟨⟨hc, ht⟩, by rw [hm, hk]⟩
    · rintro ⟨⟨hc, ht⟩, hk⟩
      -- a number that fits in the end fits all the way
      have hle := Numeral.le_foldl_digits (by omega : 0 < 10) (10 * n.toNat + Numeral.digitValue c) t
      have hlt := k.isLt
      have hword : (BitVec.ofNat 32 (10 * n.toNat + Numeral.digitValue c)).toNat =
          10 * n.toNat + Numeral.digitValue c := by
        rw [BitVec.toNat_ofNat, Nat.mod_eq_of_lt (by omega)]
      exact ⟨_, ⟨hc, hword.symm⟩, ht, by rw [hword, hk]⟩

theorem word?_eq_some_iff :
    word? t = some k ↔ IsDigits (dropSign t) ∧ Numeral.value 10 (dropSign t) = k.toNat := by
  unfold word?
  cases dropSign t with
  | nil => simp [IsDigits]
  | cons c ds =>
    simp only [foldlM_push?_eq_some_iff]
    simp [IsDigits, Numeral.value]

theorem readWord_eq_ok_iff {w : BitVec 16} :
    readWord t = .ok w ↔ IsDigits (dropSign t.strip) ∧ 1 ≤ w.toNat ∧
      Numeral.value 10 (dropSign t.strip) = w.toNat := by
  have hone : (1 : BitVec 32).toNat = 1 := rfl
  have hmax : (65535 : BitVec 32).toNat = 65535 := rfl
  have hw := w.isLt
  unfold readWord
  constructor
  · intro h
    cases hn : word? t.strip with
    | none => simp [hn] at h
    | some n =>
      obtain ⟨hds, hvalue⟩ := word?_eq_some_iff.1 hn
      simp only [hn, BitVec.lt_def, hone, hmax] at h
      split_ifs at h with hrange
      cases h
      have hnarrow : (n.setWidth 16).toNat = n.toNat := by
        rw [BitVec.toNat_setWidth, Nat.mod_eq_of_lt (by omega)]
      rw [hnarrow]
      exact ⟨hds, by omega, hvalue⟩
  · rintro ⟨hds, hpos, hvalue⟩
    have hwide : (w.setWidth 32).toNat = w.toNat := by
      rw [BitVec.toNat_setWidth, Nat.mod_eq_of_lt (by omega)]
    have hn : word? t.strip = some (w.setWidth 32) := word?_eq_some_iff.2 ⟨hds, by rw [hwide, hvalue]⟩
    simp only [hn, BitVec.lt_def, hone, hmax, hwide]
    rw [if_neg (by omega), BitVec.setWidth_setWidth_of_le _ (by omega), BitVec.setWidth_eq]

theorem read_eq_ok_iff {p : Port} :
    Port.read t = .ok p ↔
      IsDigits (dropSign t.strip) ∧ Numeral.value 10 (dropSign t.strip) = p.number := by
  unfold Port.read read? Numeral.read?
  by_cases hds : Numeral.isNumeral 10 (dropSign t.strip) = true
  · simp only [hds, if_true, Option.bind_some, isDigits_iff, true_and, ← ofNat?_eq_some_iff]
    cases ofNat? (Numeral.value 10 (dropSign t.strip)) <;> simp
  · simp [hds, isDigits_iff]

theorem eq_invalidPort_of_read {e : Error} (h : Port.read t = .error e) : e = .invalidPort t := by
  unfold Port.read at h
  split at h <;> cases h
  rfl

theorem eq_invalidPort_of_readWord {e : Error} (h : readWord t = .error e) : e = .invalidPort t := by
  unfold readWord at h
  split at h
  · cases h
    rfl
  · split_ifs at h
    cases h
    rfl

/-- Nothing wraps around: a text is read in words as it is read in numbers. -/
theorem readWord_eq (t : Text) : (readWord t).map BitVec.toNat = (Port.read t).map Port.number := by
  cases hp : Port.read t with
  | ok p =>
    obtain ⟨hds, hvalue⟩ := read_eq_ok_iff.1 hp
    have hmax := p.le_max
    have hword : (BitVec.ofNat 16 p.number).toNat = p.number := by
      rw [BitVec.toNat_ofNat, Nat.mod_eq_of_lt (by omega)]
    have hw : readWord t = .ok (BitVec.ofNat 16 p.number) :=
      readWord_eq_ok_iff.2 ⟨hds, by rw [hword]; exact p.pos, by rw [hword, hvalue]⟩
    rw [hw]
    exact congrArg Except.ok hword
  | error e =>
    obtain rfl := eq_invalidPort_of_read hp
    cases hw : readWord t with
    | error e' =>
      obtain rfl := eq_invalidPort_of_readWord hw
      rfl
    | ok w =>
      obtain ⟨hds, hpos, hvalue⟩ := readWord_eq_ok_iff.1 hw
      have hlt := w.isLt
      have hread : Port.read t = .ok ⟨w.toNat, hpos, by omega⟩ := read_eq_ok_iff.2 ⟨hds, hvalue⟩
      rw [hp] at hread
      cases hread

/-! ### How a number is written -/

/-- How a number may be written where a port is read: in digits, whatever zeros come first, with one plus
sign in front or none, between blanks. The number is the sum of its digits, each by its place. -/
inductive Written : Text → Nat → Prop
  | intro {b s ds b' : Text} (hb : ∀ x ∈ b, isBlank x = true) (hs : s = [] ∨ s = ['+']) (hds : IsDigits ds)
      (hb' : ∀ x ∈ b', isBlank x = true) :
      Written (b ++ (s ++ ds) ++ b') (Nat.ofDigits 10 (ds.reverse.map fun c => c.toNat - '0'.toNat))

theorem ofDigits_eq_value {ds : Text} (h : IsDigits ds) :
    Nat.ofDigits 10 (ds.reverse.map fun c => c.toNat - '0'.toNat) = Numeral.value 10 ds := by
  rw [Numeral.value_eq_ofDigits]
  congr 1
  exact List.map_congr_left fun c hc =>
    (Numeral.digitValue_of_isDigit (h.2 c (List.mem_reverse.1 hc))).symm

theorem dropSign_append {s ds : Text} (hs : s = [] ∨ s = ['+']) (hds : IsDigits ds) :
    dropSign (s ++ ds) = ds := by
  rcases hs with rfl | rfl
  · cases ds with
    | nil => rfl
    | cons c ds =>
      have hc : c ≠ '+' := by
        rintro rfl
        exact absurd (hds.2 '+' (by simp)) (by decide)
      simp [dropSign, hc]
  · rfl

theorem exists_eq_append_dropSign (t : Text) : ∃ s, (s = [] ∨ s = ['+']) ∧ t = s ++ dropSign t := by
  unfold dropSign
  split
  · exact ⟨['+'], .inr rfl, rfl⟩
  · exact ⟨[], .inl rfl, rfl⟩

theorem written_iff {n : Nat} :
    Written t n ↔ IsDigits (dropSign t.strip) ∧ Numeral.value 10 (dropSign t.strip) = n := by
  constructor
  · intro h
    cases h with
    | @intro b s ds b' hb hs hds hb' =>
      have hblank : ∀ x ∈ s ++ ds, isBlank x = false := by
        intro x hx
        rcases List.mem_append.1 hx with hx | hx
        · rcases hs with rfl | rfl
          · cases hx
          · obtain rfl : x = '+' := by simpa using hx
            rfl
        · exact isBlank_of_isDigit (hds.2 x hx)
      rw [Text.strip_append hb hblank hb' (by simp [hds.1]), dropSign_append hs hds, ofDigits_eq_value hds]
      exact ⟨hds, rfl⟩
  · rintro ⟨hds, rfl⟩
    obtain ⟨b, b', ht, hb, hb'⟩ := t.exists_strip
    obtain ⟨s, hs, hstrip⟩ := exists_eq_append_dropSign t.strip
    have h := Written.intro hb hs hds hb'
    rwa [← hstrip, ← ht, ofDigits_eq_value hds] at h

/-- A port is read exactly where a number from 1 to 65535 is written, and it is that number; in all other
cases, a larger number among them, the error holds the text as it came. Reading in 32 bits, with a check at
each digit and a cut down to 16 bits, comes to the same. -/
theorem read_iff_written (t : Text) :
    (∀ n, (∃ p, Port.read t = .ok p ∧ p.number = n) ↔ Written t n ∧ 1 ≤ n ∧ n ≤ 65535) ∧
    (∀ e, Port.read t = .error e ↔ e = .invalidPort t ∧ ¬ ∃ n, Written t n ∧ 1 ≤ n ∧ n ≤ 65535) ∧
    (∀ n, Written t n → 65535 < n → Port.read t = .error (.invalidPort t)) ∧
    (readWord t).map BitVec.toNat = (Port.read t).map Port.number := by
  have hok : ∀ n, (∃ p, Port.read t = .ok p ∧ p.number = n) ↔ Written t n ∧ 1 ≤ n ∧ n ≤ 65535 := by
    intro n
    simp only [read_eq_ok_iff, written_iff]
    constructor
    · rintro ⟨p, ⟨hds, hvalue⟩, rfl⟩
      exact ⟨⟨hds, hvalue⟩, p.pos, p.le_max⟩
    · rintro ⟨⟨hds, hvalue⟩, hpos, hmax⟩
      exact ⟨⟨n, hpos, hmax⟩, ⟨hds, hvalue⟩, rfl⟩
  have herror : ∀ e, Port.read t = .error e ↔
      e = .invalidPort t ∧ ¬ ∃ n, Written t n ∧ 1 ≤ n ∧ n ≤ 65535 := by
    intro e
    simp only [← hok]
    constructor
    · intro h
      refine ⟨eq_invalidPort_of_read h, ?_⟩
      rintro ⟨n, p, hp, -⟩
      rw [h] at hp
      cases hp
    · rintro ⟨rfl, hno⟩
      cases hp : Port.read t with
      | ok p => exact absurd ⟨p.number, p, hp, rfl⟩ hno
      | error e => rw [eq_invalidPort_of_read hp]
  refine ⟨hok, herror, fun n hn hmax => (herror _).2 ⟨rfl, ?_⟩, readWord_eq t⟩
  rintro ⟨m, hm, -, hle⟩
  obtain rfl : m = n := (written_iff.1 hm).2.symm.trans (written_iff.1 hn).2
  omega

theorem read_iff_written_wraps :
    let t : Text := "\u00a0+00443\n"
    let long : Text := "4294967739"
    (∃ p, Port.read t = .ok p ∧ p.number = 443) ∧ readWord t = .ok 443 ∧
      Written long (2 ^ 32 + 443) ∧ Port.read long = .error (.invalidPort long) := by
  intro t long
  have hwritten : Written t 443 := written_iff.2 ⟨isDigits_iff.2 (by decide +kernel), by decide +kernel⟩
  have hlong : Written long (2 ^ 32 + 443) := written_iff.2 ⟨isDigits_iff.2 (by decide +kernel), by decide +kernel⟩
  exact ⟨((read_iff_written t).1 443).2 ⟨hwritten, by decide, by decide⟩, by decide +kernel, hlong,
    (read_iff_written long).2.2.1 _ hlong (by decide)⟩

end Port

end Firewall
