import Firewall.Rule.Basic

/-!
# Clauses

A clause is a keyword with the words it takes. A port clause may name a protocol, in front of its
port list or behind it. `Clause.words` is the clause as it stands in a line.
-/

namespace Firewall

/-- The protocol choice that a word makes, in any letter case. -/
def ProtocolChoice.ofWord? (w : Text) : Option ProtocolChoice :=
  let l := w.map Char.toLower
  if l = "tcp" then some (.one .tcp)
  else if l = "udp" then some (.one .udp)
  else if l = "both" then some .both
  else none

def isProtocolWord (w : Text) : Bool := (ProtocolChoice.ofWord? w).isSome

/-- The word of a port clause that names a protocol, and where it stands. -/
inductive ProtocolWord where
  | absent
  | before (word : Text)
  | after (word : Text)
deriving DecidableEq, Repr

def ProtocolWord.choice? : ProtocolWord → Option ProtocolChoice
  | absent => none
  | before w | after w => ProtocolChoice.ofWord? w

/-- A clause as written. -/
inductive Clause where
  | act (verb : Verb)
  | forward
  | output
  | all
  | chain (names : Text)
  | state (names : Text)
  | addresses (side : Side) (literals : Text)
  | interfaces (way : Way) (names : Text)
  | ports (side : Side) (protocol : ProtocolWord) (list : Text)
deriving DecidableEq, Repr

namespace Clause

def keyword : Clause → Keyword
  | act v => .act v
  | forward => .forward
  | output => .output
  | all => .all
  | chain _ => .chain
  | state _ => .state
  | addresses s _ => .addresses s
  | interfaces w _ => .interfaces w
  | ports s _ _ => .ports s

/-- The words behind the keyword. -/
def arguments : Clause → List Text
  | act _ | forward | output | all => []
  | chain t | state t | addresses _ t | interfaces _ t => [t]
  | ports _ .absent l => [l]
  | ports _ (.before w) l => [w, l]
  | ports _ (.after w) l => [l, w]

def words (c : Clause) : List Text := c.keyword.word :: c.arguments

end Clause

end Firewall
