import Firewall.Address.Basic
import Firewall.Text.Numeral

/-!
# The text of an address

A v4 address is written as four decimal octets joined by dots. A v6 address is written as eight
hexadecimal groups joined by colons, where `::` takes the place of the longest run of two or more
zero groups, the first of equally long ones. An address that embeds a v4 address under `::ffff:0:0`
is written with that v4 address at its end.
-/

namespace Firewall.Address

/-- Four decimal octets joined by dots. -/
def quadText (b : BitVec 32) : Text :=
  ['.'].intercalate ((octets b).map fun o => Numeral.text 10 o.toNat)

/-- Hexadecimal groups joined by colons. -/
def groupsText (gs : List (BitVec 16)) : Text :=
  [':'].intercalate (gs.map fun g => Numeral.text 16 g.toNat)

/-- The number of zero groups at the front. -/
def leadingZeros (gs : List (BitVec 16)) : Nat := (gs.takeWhile (· == 0)).length

/-- Where the longest run of zero groups begins, the first of equally long ones, and its length. -/
def longestZeros : List (BitVec 16) → Nat × Nat
  | [] => (0, 0)
  | g :: gs =>
    let (start, length) := longestZeros gs
    if length ≤ leadingZeros (g :: gs) then (0, leadingZeros (g :: gs)) else (start + 1, length)

/-- Hexadecimal groups, with `::` for the longest run of zero groups if that holds two or more. -/
def shortGroupsText (gs : List (BitVec 16)) : Text :=
  let (start, length) := longestZeros gs
  if length < 2 then groupsText gs
  else groupsText (gs.take start) ++ "::" ++ groupsText (gs.drop (start + length))

/-- The v4 address that a 128-bit word embeds under `::ffff:0:0`. -/
def embedded? (b : BitVec 128) : Option (BitVec 32) :=
  if b.extractLsb' 32 96 = 0xFFFF then some (b.extractLsb' 0 32) else none

def text : Address → Text
  | v4 b => quadText b
  | v6 b =>
    match embedded? b with
    | some q => "::ffff:" ++ quadText q
    | none => shortGroupsText (groups b)

end Firewall.Address
