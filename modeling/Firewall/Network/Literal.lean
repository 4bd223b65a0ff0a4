import Firewall.Address.Reader
import Firewall.Error
import Firewall.Network.Basic

/-!
# Network literals

A literal is an address with a prefix length, or a bare address, which stands for itself alone. The
address may have bits set below the prefix: a strict reader refuses it then and a lenient one
clears them, so a network that is read has none (`masked_of_read`). Main statement: `read?_eq_bare`,
a text without a slash is a bare address.
-/

namespace Firewall

namespace Literal

/-- The most digits that a prefix length may have: those of the width. -/
def lengthDigits (f : Family) : Nat := (Numeral.text 10 f.width).length

/-- An address, a slash and a prefix length. -/
def readNetwork? (t : Text) : Option Network := do
  let (a, l) ← t.cut? (· == '/')
  let address ← Address.read? .network a
  let length ← Numeral.read? 10 l
  if h : length ≤ address.family.width then
    if l.length ≤ lengthDigits address.family then some ⟨address, length, h⟩ else none
  else none

def readBare? (t : Text) : Option Network := (Address.read? .bare t).map Network.host

/-- The network that a text writes, with the host bits as written. -/
def read? (t : Text) : Option Network := readNetwork? t <|> readBare? t

theorem readNetwork?_eq_none {t : Text} (h : '/' ∉ t) : readNetwork? t = none := by
  have hcut : t.cut? (· == '/') = none := Text.cut?_eq_none_iff.2 fun c hc => by
    simpa using fun he : c = '/' => h (he ▸ hc)
  simp [readNetwork?, hcut]

theorem read?_eq_bare {t : Text} (h : '/' ∉ t) : read? t = readBare? t := by
  simp [read?, readNetwork?_eq_none h]

end Literal

namespace Network

/-- The network that a text writes. Bits below the prefix are an error if `strict`, else they are
cleared. -/
def read (strict : Bool) (t : Text) : Except Error Network :=
  match Literal.read? t with
  | some l => if strict && l.hasHostBits then .error (.invalidAddress t) else .ok l.masked
  | none => .error (.invalidAddress t)

theorem masked_of_read {strict : Bool} {t : Text} {n : Network} (h : read strict t = .ok n) :
    n.masked = n := by
  unfold read at h
  split at h
  · split at h
    · cases h
    · cases h
      exact masked_masked _
  · cases h

/-- The networks that texts write; the first text that writes none decides the error. -/
def readAll (strict : Bool) (ts : List Text) : Except Error (List Network) := ts.mapM (read strict)

end Network

end Firewall
