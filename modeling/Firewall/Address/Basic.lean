/-!
# Addresses

An address is a word of 32 or 128 bits, according to its family. `Address.mask` clears all bits
below the top ones; `getMsbD_maskBits` says which bits stay. A word is also read as the groups in
which its family is written, four of 8 bits or eight of 16 bits; `ofOctets?_octets` and
`ofGroups?_groups` put them together again.
-/

namespace Firewall

/-- The two families of addresses. -/
inductive Family where
  | v4
  | v6
deriving DecidableEq, Repr

namespace Family

/-- The number of bits of an address. -/
def width : Family → Nat
  | v4 => 32
  | v6 => 128

def other : Family → Family
  | v4 => v6
  | v6 => v4

@[simp] theorem other_other (f : Family) : f.other.other = f := by cases f <;> rfl

theorem eq_or_eq_other (f g : Family) : g = f ∨ g = f.other := by
  cases f <;> cases g <;> simp [other]

end Family

/-- The word with all but its top `n` bits cleared. -/
def maskBits {w : Nat} (n : Nat) (b : BitVec w) : BitVec w := (b >>> (w - n)) <<< (w - n)

theorem getMsbD_maskBits {w n : Nat} (b : BitVec w) (i : Nat) :
    (maskBits n b).getMsbD i = (decide (i < n) && b.getMsbD i) := by
  simp only [maskBits, BitVec.getMsbD_shiftLeft, BitVec.getMsbD_ushiftRight]
  by_cases hw : i < w
  · by_cases hn : i < n
    · have h1 : i + (w - n) < w := by omega
      have h2 : ¬ i + (w - n) < w - n := by omega
      simp [hn, h1, h2]
    · have h1 : ¬ i + (w - n) < w := by omega
      simp [hn, h1]
  · have h1 : ¬ i + (w - n) < w := by omega
    have h2 : b.getMsbD i = false := BitVec.getMsbD_of_ge b i (by omega)
    simp [h1, h2]

@[simp] theorem maskBits_maskBits {w n : Nat} (b : BitVec w) :
    maskBits n (maskBits n b) = maskBits n b := by
  apply BitVec.eq_of_getMsbD_eq
  intro i _
  simp only [getMsbD_maskBits]
  cases decide (i < n) <;> rfl

@[simp] theorem maskBits_self {w : Nat} (b : BitVec w) : maskBits w b = b := by simp [maskBits]

inductive Address where
  | v4 (bits : BitVec 32)
  | v6 (bits : BitVec 128)
deriving DecidableEq, Repr

namespace Address

def family : Address → Family
  | v4 _ => .v4
  | v6 _ => .v6

/-- The address with all but its top `n` bits cleared. -/
def mask (n : Nat) : Address → Address
  | v4 b => v4 (maskBits n b)
  | v6 b => v6 (maskBits n b)

@[simp] theorem family_mask (n : Nat) (a : Address) : (a.mask n).family = a.family := by
  cases a <;> rfl

@[simp] theorem mask_mask (n : Nat) (a : Address) : (a.mask n).mask n = a.mask n := by
  cases a <;> simp [mask]

@[simp] theorem mask_width (a : Address) : a.mask a.family.width = a := by
  cases a <;> simp [mask, family, Family.width]

/-- The four octets of a 32-bit word, highest first. -/
def octets (b : BitVec 32) : List (BitVec 8) :=
  [b.extractLsb' 24 8, b.extractLsb' 16 8, b.extractLsb' 8 8, b.extractLsb' 0 8]

/-- The word of four octets, highest first; `none` for any other number of octets. -/
def ofOctets? : List (BitVec 8) → Option (BitVec 32)
  | [a, b, c, d] => some (a ++ b ++ c ++ d)
  | _ => none

/-- The eight groups of 16 bits of a 128-bit word, highest first. -/
def groups (b : BitVec 128) : List (BitVec 16) :=
  [b.extractLsb' 112 16, b.extractLsb' 96 16, b.extractLsb' 80 16, b.extractLsb' 64 16,
    b.extractLsb' 48 16, b.extractLsb' 32 16, b.extractLsb' 16 16, b.extractLsb' 0 16]

/-- The word of eight groups, highest first; `none` for any other number of groups. -/
def ofGroups? : List (BitVec 16) → Option (BitVec 128)
  | [a, b, c, d, e, f, g, h] => some (a ++ b ++ c ++ d ++ e ++ f ++ g ++ h)
  | _ => none

@[simp] theorem length_groups (b : BitVec 128) : (groups b).length = 8 := rfl

@[simp] theorem ofOctets?_octets (b : BitVec 32) : ofOctets? (octets b) = some b := by
  simp only [ofOctets?, octets, Option.some.injEq]
  apply BitVec.eq_of_getLsbD_eq
  intro i hi
  simp only [BitVec.getLsbD_append, BitVec.getLsbD_extractLsb']
  grind

@[simp] theorem ofGroups?_groups (b : BitVec 128) : ofGroups? (groups b) = some b := by
  simp only [ofGroups?, groups, Option.some.injEq]
  apply BitVec.eq_of_getLsbD_eq
  intro i hi
  simp only [BitVec.getLsbD_append, BitVec.getLsbD_extractLsb']
  grind

end Address

end Firewall
