import Firewall.Address.Printer

/-!
# Networks

A network is an address with a prefix length: the set of addresses that agree with the address in
the top `length` bits. The other bits of the address, the host bits, mean nothing, but they are kept
and printed; `masked` clears them.
-/

namespace Firewall

/-- A block of addresses: those of the base's family with the same top `length` bits as the base. -/
@[ext] structure Network where
  base : Address
  length : Nat
  length_le : length ≤ base.family.width
deriving Repr

instance : DecidableEq Network := fun _ _ => decidable_of_iff' _ Network.ext_iff

namespace Network

def family (n : Network) : Family := n.base.family

/-- The text of a network: its base, a slash and the length. -/
def text (n : Network) : Text := n.base.text ++ "/" ++ Numeral.text 10 n.length

/-- The network of one address. -/
def host (a : Address) : Network := ⟨a, a.family.width, Nat.le_refl _⟩

/-- The same block of addresses with the host bits of the base cleared. -/
def masked (n : Network) : Network where
  base := n.base.mask n.length
  length := n.length
  length_le := by simpa using n.length_le

/-- Whether the base has bits set below the prefix. -/
def hasHostBits (n : Network) : Bool := n.base.mask n.length != n.base

@[simp] theorem family_masked (n : Network) : n.masked.family = n.family :=
  n.base.family_mask n.length

theorem hasHostBits_eq_false_iff {n : Network} : n.hasHostBits = false ↔ n.masked = n := by
  simp [hasHostBits, masked, Network.ext_iff]

@[simp] theorem masked_masked (n : Network) : n.masked.masked = n.masked :=
  Network.ext (n.base.mask_mask n.length) rfl

@[simp] theorem masked_host (a : Address) : (host a).masked = host a :=
  Network.ext a.mask_width rfl

end Network

end Firewall
