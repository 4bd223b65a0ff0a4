import Firewall.Proofs.Printing
import Firewall.Proofs.Strictness
import Mathlib.Data.List.Forall2

/-!
# Literals and their networks

`Literal.Writes` is the grammar of literals: an address and a prefix length with a slash between them, or a bare
address, whose prefix length is its width. An address is written without a slash, so there is one way only to take
a literal apart, and it is read as the grammar says (`Literal.writes_iff`). `Address.Cleared` says bit by bit what
is left of an address under a prefix. Main statement: `Network.readAll_iff_written`.
-/

namespace Firewall

/-! ### Reading one by one -/

section
variable {α β ε : Type} {f : α → Except ε β}

theorem mapM_eq_ok_iff_forall₂ {as : List α} {bs : List β} :
    as.mapM f = .ok bs ↔ List.Forall₂ (fun a b => f a = .ok b) as bs := by
  induction as generalizing bs with
  | nil => simp [pure, Except.pure, eq_comm]
  | cons a as ih =>
    rw [mapM_cons_eq_ok_iff]
    constructor
    · rintro ⟨b, bs, hb, hbs, rfl⟩
      exact .cons hb (ih.1 hbs)
    · rintro (_ | ⟨hb, hbs⟩)
      exact ⟨_, _, hb, ih.2 hbs, rfl⟩

theorem mapM_singleton_eq_ok_iff {a : α} {b : β} : [a].mapM f = .ok [b] ↔ f a = .ok b := by
  rw [mapM_eq_ok_iff_forall₂, List.forall₂_cons]
  simp

theorem mapM_singleton_eq_error_iff {a : α} {e : ε} : [a].mapM f = .error e ↔ f a = .error e := by
  rw [mapM_eq_error_iff]
  constructor
  · rintro ⟨pre, a', post, has, -, ha⟩
    obtain rfl : a' = a := List.mem_singleton.1 (has ▸ by simp)
    exact ha
  · exact fun h => ⟨[], a, [], rfl, by simp, h⟩

end

/-! ### Bits -/

namespace Address

/-- The bit at a place, counted from the top. -/
def bit (a : Address) (i : Nat) : Bool :=
  match a with
  | v4 b => b.getMsbD i
  | v6 b => b.getMsbD i

/-- Whether `b` is `a` with all bits but the top `n` cleared. -/
structure Cleared (n : Nat) (a b : Address) : Prop where
  family : b.family = a.family
  bit : ∀ i, b.bit i = if i < n then a.bit i else false

variable {n : Nat} {a b : Address}

theorem bit_mask (n : Nat) (a : Address) (i : Nat) : (a.mask n).bit i = if i < n then a.bit i else false := by
  have hbits : ∀ {w : Nat} (b : BitVec w), (maskBits n b).getMsbD i = if i < n then b.getMsbD i else false := by
    intro w b
    rw [getMsbD_maskBits]
    by_cases hi : i < n <;> simp [hi]
  cases a with
  | v4 b => exact hbits b
  | v6 b => exact hbits b

theorem eq_of_bit (hf : b.family = a.family) (h : ∀ i, b.bit i = a.bit i) : b = a := by
  rcases a with a | a <;> rcases b with b | b
  · exact congrArg v4 (BitVec.eq_of_getMsbD_eq fun i _ => h i)
  · cases hf
  · cases hf
  · exact congrArg v6 (BitVec.eq_of_getMsbD_eq fun i _ => h i)

theorem cleared_iff : Cleared n a b ↔ b = a.mask n := by
  constructor
  · intro h
    refine eq_of_bit (by rw [h.family, family_mask]) fun i => ?_
    rw [h.bit, bit_mask]
  · rintro rfl
    exact ⟨family_mask n a, bit_mask n a⟩

end Address

/-! ### The grammar of literals -/

namespace Literal
variable {t : Text} {a : Address} {n : Nat}

/-- The literals: an address with a prefix length, and a bare address, whose prefix length is its width. -/
inductive Writes : Text → Address → Nat → Prop
  | network {u p : Text} {a : Address} (ha : Address.read? .network u = some a) (hp : IsDigits p)
      (hlen : p.length ≤ lengthDigits a.family) (hle : Numeral.value 10 p ≤ a.family.width) :
      Writes (u ++ '/' :: p) a (Numeral.value 10 p)
  | bare {t : Text} {a : Address} (ha : Address.read? .bare t = some a) : Writes t a a.family.width

theorem readNetwork?_eq_some_iff {l : Network} : readNetwork? t = some l ↔
    ∃ u p, t = u ++ '/' :: p ∧ Address.read? .network u = some l.base ∧ IsDigits p ∧
      p.length ≤ lengthDigits l.base.family ∧ Numeral.value 10 p = l.length := by
  constructor
  · intro h
    simp only [readNetwork?, Option.bind_eq_bind, Option.bind_eq_some_iff, Prod.exists] at h
    obtain ⟨u, p, hcut, a, ha, n, hn, h⟩ := h
    obtain ⟨c, hc, -, rfl⟩ := Text.cut?_eq_some_iff.1 hcut
    obtain rfl : c = '/' := by simpa using hc
    unfold Numeral.read? at hn
    split_ifs at h hn with hle hlen hp
    cases hn
    cases h
    exact ⟨u, p, rfl, ha, isDigits_iff.2 hp, hlen, rfl⟩
  · rintro ⟨u, p, rfl, ha, hp, hlen, hn⟩
    have hcut : Text.cut? (· == '/') (u ++ '/' :: p) = some (u, p) := by
      refine Text.cut?_eq_some_iff.2 ⟨'/', by simp, fun c hc => ?_, rfl⟩
      rw [beq_eq_false_iff_ne]
      rintro rfl
      exact Address.slash_notMem_of_read? ha hc
    have hread : Numeral.read? 10 p = some l.length := by
      rw [Numeral.read?, if_pos (isDigits_iff.1 hp), hn]
    simp [readNetwork?, hcut, ha, hread, l.length_le, hlen]

theorem writes_iff : Writes t a n ↔ ∃ h, read? t = some ⟨a, n, h⟩ := by
  constructor
  · rintro (@⟨u, p, a, ha, hp, hlen, hle⟩ | ha)
    · refine ⟨hle, ?_⟩
      have hread : readNetwork? (u ++ '/' :: p) = some ⟨a, Numeral.value 10 p, hle⟩ :=
        readNetwork?_eq_some_iff.2 ⟨u, p, rfl, ha, hp, hlen, rfl⟩
      rw [read?, hread]
      rfl
    · refine ⟨Nat.le_refl _, ?_⟩
      rw [read?_eq_bare (Address.slash_notMem_of_read? ha), readBare?, ha]
      rfl
  · rintro ⟨hle, h⟩
    simp only [read?, Option.orElse_eq_orElse, Option.orElse_eq_or, Option.or_eq_some_iff] at h
    rcases h with h | ⟨-, h⟩
    · obtain ⟨u, p, rfl, ha, hp, hlen, rfl⟩ := readNetwork?_eq_some_iff.1 h
      exact .network ha hp hlen hle
    · obtain ⟨a', ha, h⟩ := Option.map_eq_some_iff.1 h
      cases h
      exact .bare ha

/-- Each address is written with each prefix length up to its width. -/
theorem writes_address_text (h : n ≤ a.family.width) : Writes (a.text ++ '/' :: Numeral.text 10 n) a n := by
  refine writes_iff.2 ⟨h, ?_⟩
  have hread := Network.readNetwork?_text ⟨a, n, h⟩
  rw [Network.text_eq] at hread
  rw [read?, hread]
  rfl

end Literal

/-! ### The networks of literals -/

namespace Network
variable {t : Text} {ts : List Text} {n : Network} {ns : List Network}

theorem read_lenient_iff :
    Network.read false t = .ok n ↔ ∃ a, Literal.Writes t a n.length ∧ a.Cleared n.length n.base := by
  simp only [Literal.writes_iff, Address.cleared_iff]
  unfold Network.read
  constructor
  · intro h
    split at h
    · next l hl =>
      cases h
      exact ⟨l.base, ⟨l.length_le, hl⟩, rfl⟩
    · cases h
  · rintro ⟨a, ⟨hle, hl⟩, hbase⟩
    rw [hl]
    exact congrArg Except.ok (Network.ext hbase.symm rfl)

theorem exists_read_lenient_iff : (∃ n, Network.read false t = .ok n) ↔ ∃ a n, Literal.Writes t a n := by
  constructor
  · rintro ⟨n, hn⟩
    obtain ⟨a, ha, -⟩ := read_lenient_iff.1 hn
    exact ⟨a, n.length, ha⟩
  · rintro ⟨a, n, hw⟩
    obtain ⟨hle, -⟩ := Literal.writes_iff.1 hw
    exact ⟨Network.masked ⟨a, n, hle⟩, read_lenient_iff.2 ⟨a, hw, Address.cleared_iff.2 rfl⟩⟩

theorem not_isMasked_iff : ¬ Literal.IsMasked t ↔ ∀ a n, Literal.Writes t a n → a.mask n = a := by
  simp only [Literal.IsMasked, not_exists, not_and, Bool.not_eq_true, hasHostBits_eq_false_iff]
  constructor
  · intro h a n hw
    obtain ⟨hle, hl⟩ := Literal.writes_iff.1 hw
    exact congrArg base (h _ hl)
  · intro h l hl
    exact Network.ext (h l.base l.length (Literal.writes_iff.2 ⟨l.length_le, hl⟩)) rfl

theorem eq_invalidAddress_of_read {strict : Bool} {e : Error} (h : Network.read strict t = .error e) :
    e = .invalidAddress t := by
  unfold Network.read at h
  split at h
  · split at h
    · cases h
      rfl
    · cases h
  · cases h
    rfl

/-- A list of literals fails with the first one that fails alone. -/
theorem readAll_eq_error_iff {strict : Bool} {e : Error} : readAll strict ts = .error e ↔
    ∃ pre t post, ts = pre ++ t :: post ∧ e = .invalidAddress t ∧
      (∀ u ∈ pre, ∃ n, readAll strict [u] = .ok [n]) ∧ ∃ e', readAll strict [t] = .error e' := by
  have hone : ∀ u n, readAll strict [u] = .ok [n] ↔ Network.read strict u = .ok n :=
    fun u n => mapM_singleton_eq_ok_iff
  have hfail : ∀ u e, readAll strict [u] = .error e ↔ Network.read strict u = .error e :=
    fun u e => mapM_singleton_eq_error_iff
  simp only [hone, hfail]
  rw [readAll, mapM_eq_error_iff]
  constructor
  · rintro ⟨pre, t, post, hts, hpre, ht⟩
    exact ⟨pre, t, post, hts, eq_invalidAddress_of_read ht, hpre, e, ht⟩
  · rintro ⟨pre, t, post, hts, rfl, hpre, e', ht⟩
    obtain rfl := eq_invalidAddress_of_read ht
    exact ⟨pre, t, post, hts, hpre, ht⟩

/-- The networks of a list of literals. A lenient reader understands the list just in case all of its items are
literals, and gives for each one, in order, the network of its family and prefix length in which its address lies,
whatever the prefix length is. A strict reader gives the same networks, and refuses the list if a bit is set below a
prefix. Either one fails with the first item that it does not understand when that stands alone. -/
theorem readAll_iff_written (ts : List Text) :
    (∀ (n : Nat) (a : Address), a.Cleared n (a.mask n) ∧ (a.mask n).mask n = a.mask n) ∧
    (∀ (n : Nat) (a : Address), n ≤ a.family.width → Literal.Writes (a.text ++ '/' :: Numeral.text 10 n) a n) ∧
    ((∃ ns, readAll false ts = .ok ns) ↔ ∀ t ∈ ts, ∃ a n, Literal.Writes t a n) ∧
    (∀ ns, readAll false ts = .ok ns ↔ List.Forall₂
      (fun t n => ∃ a, Literal.Writes t a n.length ∧ a.Cleared n.length n.base) ts ns) ∧
    (∀ ns, readAll true ts = .ok ns ↔
      readAll false ts = .ok ns ∧ ∀ t ∈ ts, ∀ a n, Literal.Writes t a n → a.mask n = a) ∧
    ∀ strict e, readAll strict ts = .error e ↔ ∃ pre t post, ts = pre ++ t :: post ∧ e = .invalidAddress t ∧
      (∀ u ∈ pre, ∃ n, readAll strict [u] = .ok [n]) ∧ ∃ e', readAll strict [t] = .error e' := by
  refine ⟨fun n a => ⟨Address.cleared_iff.2 rfl, a.mask_mask n⟩, fun n a => Literal.writes_address_text, ?_, ?_, ?_,
    fun strict e => ?_⟩
  · simp only [readAll, exists_mapM_iff, exists_read_lenient_iff]
  · simp only [readAll, mapM_eq_ok_iff_forall₂, read_lenient_iff, implies_true]
  · intro ns
    simp only [readAll, ← not_isMasked_iff]
    exact mapM_eq_ok_iff_of_forall fun t n => read_strict_iff
  · exact readAll_eq_error_iff

theorem readAll_iff_written_masked :
    let ts : List Text := ["10.1.2.3/12", "010.0.0.7/0", "1:2::", "::ffff:1.2.3.4/33"]
    let us : List Text := ["1:2::", "1.2.3.4/33", "10.1.2.3/12"]
    ∃ ns : List Network, readAll false ts = .ok ns ∧
      ns.map text = (["10.0.0.0/12", "0.0.0.0/0", "1:2::/128", "::/33"] : List Text) ∧
      readAll true ts = .error (.invalidAddress "10.1.2.3/12") ∧
      readAll true us = .error (.invalidAddress "1.2.3.4/33") := by
  intro ts us
  obtain ⟨-, -, -, hlenient, -, hfail⟩ := readAll_iff_written ts
  obtain ⟨-, -, -, -, -, hfail'⟩ := readAll_iff_written us
  let ns : List Network := [⟨.v4 0x0A000000, 12, by decide⟩, ⟨.v4 0, 0, by decide⟩,
    ⟨.v6 0x00010002000000000000000000000000, 128, by decide⟩, ⟨.v6 0, 33, by decide⟩]
  have hns : List.Forall₂ (fun t n => ∃ a, Literal.Writes t a n.length ∧ a.Cleared n.length n.base) ts ns := by
    refine .cons ⟨.v4 0x0A010203, Literal.writes_iff.2 ?_, Address.cleared_iff.2 ?_⟩
      (.cons ⟨.v4 0x0A000007, Literal.writes_iff.2 ?_, Address.cleared_iff.2 ?_⟩
      (.cons ⟨.v6 0x00010002000000000000000000000000, Literal.writes_iff.2 ?_, Address.cleared_iff.2 ?_⟩
      (.cons ⟨.v6 0xFFFF01020304, Literal.writes_iff.2 ?_, Address.cleared_iff.2 ?_⟩ .nil))) <;> decide +kernel
  refine ⟨ns, (hlenient ns).2 hns, by decide +kernel, (hfail true _).2 ?_, (hfail' true _).2 ?_⟩
  · exact ⟨[], "10.1.2.3/12", _, rfl, rfl, by simp, .invalidAddress "10.1.2.3/12", by decide +kernel⟩
  · refine ⟨["1:2::"], "1.2.3.4/33", _, rfl, rfl, ?_, .invalidAddress "1.2.3.4/33", by decide +kernel⟩
    rw [List.forall_mem_singleton]
    exact ⟨⟨.v6 0x00010002000000000000000000000000, 128, by decide⟩, by decide +kernel⟩

end Network

end Firewall
