import Firewall.Port.Basic

/-!
# Port lists

A port list is a comma list of numbers and ranges. Its form is checked first, in one pass from left
to right; then the items are read. A strict reader refuses a list with an item that is out of
range, a lenient one skips such items.
-/

namespace Firewall.PortList

/-- Where a reader stands in a port list. -/
inductive Spot where
  /-- Before the first digit of an item. -/
  | item
  /-- Behind a digit of the first number of an item. -/
  | first
  /-- Behind the mark of a range. -/
  | mark
  /-- Behind a digit of the last number of a range. -/
  | last
deriving DecidableEq, Repr

/-- The spot behind the next character; `none` if no port list goes on with it. -/
def step : Spot → Char → Option Spot
  | .item, c => if c.isDigit then some .first else none
  | .first, c =>
    if c.isDigit then some .first
    else if PortSpan.isMark c then some .mark
    else if c = ',' then some .item
    else none
  | .mark, c => if c.isDigit then some .last else none
  | .last, c => if c.isDigit then some .last else if c = ',' then some .item else none

/-- Whether a port list may end at a spot. -/
def Spot.isFinal : Spot → Bool
  | .first | .last => true
  | .item | .mark => false

/-- Whether the text, from the spot on, goes on to the end of a port list. -/
def accepts (s : Spot) (t : Text) : Bool := (t.foldlM step s).any Spot.isFinal

/-- Whether a text has the form of a port list. -/
def isPortList (t : Text) : Bool := accepts .item t

/-- The errors of the items that are out of range. -/
def badItems (t : Text) : List Error :=
  t.items.filterMap fun i =>
    match PortSpan.read i with
    | .ok _ => none
    | .error e => some e

/-- The items that are in range. -/
def goodItems (t : Text) : List PortSpan := t.items.filterMap fun i => (PortSpan.read i).toOption

/-- The errors of the items that a reader skips: a strict one skips none. -/
def skipped (strict : Bool) (t : Text) : List Error :=
  if strict || !isPortList t then [] else badItems t

/-- The span of an item of a list that must hold ports only. -/
def readStrict (i : Text) : Except Error PortSpan :=
  match PortSpan.read i with
  | .ok s => .ok s
  | .error _ => .error (.malformed (.badPort i))

/-- The spans of a port list. -/
def read (strict : Bool) (t : Text) : Except Error (List PortSpan) :=
  if !isPortList t then .error (.malformed (.badPortList t))
  else if strict then t.items.mapM readStrict
  else if goodItems t = [] then .error (.malformed .noPort)
  else .ok (goodItems t)

@[simp] theorem accepts_nil (s : Spot) : accepts s [] = s.isFinal := rfl

theorem accepts_cons (s : Spot) (c : Char) (t : Text) :
    accepts s (c :: t) = (step s c).any (accepts · t) := by
  simp only [accepts, List.foldlM_cons]
  cases step s c <;> rfl

end Firewall.PortList
