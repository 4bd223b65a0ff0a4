import Firewall.Error

/-!
# Tables and their built-in chains

A table is named by a word and has some of the five built-in chains, in a fixed order.
-/

namespace Firewall

/-- The built-in chains. -/
inductive Hook where
  | input
  | forward
  | output
  | prerouting
  | postrouting
deriving DecidableEq, Repr

namespace Hook

def name : Hook → Text
  | input => "INPUT"
  | forward => "FORWARD"
  | output => "OUTPUT"
  | prerouting => "PREROUTING"
  | postrouting => "POSTROUTING"

def word : Hook → Text
  | input => "input"
  | forward => "forward"
  | output => "output"
  | prerouting => "prerouting"
  | postrouting => "postrouting"

def list : List Hook := [input, forward, output, prerouting, postrouting]

def ofWord? (w : Text) : Option Hook := list.find? fun h => h.word == w

@[simp] theorem ofWord?_word (h : Hook) : ofWord? h.word = some h := by cases h <;> rfl

theorem ofWord?_eq_some_iff {w : Text} {h : Hook} : ofWord? w = some h ↔ w = h.word := by
  refine ⟨fun hw => ?_, fun hw => hw ▸ ofWord?_word h⟩
  unfold ofWord? at hw
  have hk := List.find?_some hw
  exact (eq_of_beq hk).symm

end Hook

inductive Table where
  | filter
  | mangle
  | nat
  | raw
  | security
deriving DecidableEq, Repr

namespace Table

def name : Table → Text
  | filter => "filter"
  | mangle => "mangle"
  | nat => "nat"
  | raw => "raw"
  | security => "security"

def list : List Table := [filter, mangle, nat, raw, security]

def read (t : Text) : Except Error Table :=
  match list.find? fun x => x.name == t with
  | some x => .ok x
  | none => .error (.unsupportedTable t)

/-- The built-in chains of a table, in the order in which a rule is replicated onto them. -/
def hooks : Table → List Hook
  | filter => [.input, .forward, .output]
  | mangle => [.prerouting, .output, .input, .forward, .postrouting]
  | nat => [.prerouting, .postrouting, .output]
  | raw => [.prerouting, .output]
  | security => [.input, .output, .forward]

@[simp] theorem read_name (t : Table) : read t.name = .ok t := by cases t <;> rfl

end Table

end Firewall
