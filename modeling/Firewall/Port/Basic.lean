import Firewall.Error
import Firewall.Text.Blank

/-!
# Ports

A port is a number from 1 to 65535. It is read from a decimal numeral of any length that may have
blanks around it and one plus sign in front, so no number wraps around. `PortSpan` is a port or a
range of ports, as written in a port list.
-/

namespace Firewall

structure Port where
  number : Nat
  pos : 0 < number
  le_max : number ≤ 65535
deriving DecidableEq, Repr

namespace Port

/-- The port of a number; `none` if the number is out of range. -/
def ofNat? (n : Nat) : Option Port := if h : 0 < n ∧ n ≤ 65535 then some ⟨n, h.1, h.2⟩ else none

/-- The text without one plus sign in front. -/
def dropSign : Text → Text
  | '+' :: t => t
  | t => t

/-- The port that a text writes. -/
def read? (t : Text) : Option Port := (Numeral.read? 10 (dropSign t.strip)).bind ofNat?

/-- The port that a text writes; the error holds the whole text. -/
def read (t : Text) : Except Error Port :=
  match read? t with
  | some p => .ok p
  | none => .error (.invalidPort t)

def text (p : Port) : Text := Numeral.text 10 p.number

@[simp] theorem ofNat?_number (p : Port) : ofNat? p.number = some p := by
  simp [ofNat?, p.pos, p.le_max]

theorem ofNat?_eq_some_iff {n : Nat} {p : Port} : ofNat? n = some p ↔ n = p.number := by
  constructor
  · intro h
    unfold ofNat? at h
    split at h
    · cases h
      rfl
    · cases h
  · rintro rfl
    exact ofNat?_number p

end Port

/-- A port or a range of ports. -/
inductive PortSpan where
  | single (port : Port)
  | range (first last : Port)
deriving DecidableEq, Repr

namespace PortSpan

/-- The marks between the two ends of a range. -/
def isMark (c : Char) : Bool := c == ':' || c == '-'

/-- The span that a text writes; the error is that of the first number which is no port. -/
def read (t : Text) : Except Error PortSpan :=
  match t.cut? isMark with
  | none => do return single (← Port.read t)
  | some (a, b) => do return range (← Port.read a) (← Port.read b)

/-- The span in decimal, with a colon between the ends of a range. -/
def text : PortSpan → Text
  | single p => p.text
  | range p q => p.text ++ ":" ++ q.text

end PortSpan

end Firewall
