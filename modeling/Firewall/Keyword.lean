import Firewall.Text.Basic

/-!
# Keywords

The words that begin a clause. `Keyword.ofWord?_eq_some_iff` says that a keyword is written in one
way only.
-/

namespace Firewall

/-- The two ends of a connection. -/
inductive Side where
  | source
  | destination
deriving DecidableEq, Repr

/-- The two ways in which a packet passes an interface. -/
inductive Way where
  | incoming
  | outgoing
deriving DecidableEq, Repr

/-- The words that say what becomes of a packet. -/
inductive Verb where
  | allow
  | accept
  | drop
  | reject
deriving DecidableEq, Repr

/-- The words that begin a clause. -/
inductive Keyword where
  | act (verb : Verb)
  | forward
  | output
  | all
  | chain
  | state
  | addresses (side : Side)
  | interfaces (way : Way)
  | ports (side : Side)
deriving DecidableEq, Repr

namespace Keyword

def word : Keyword → Text
  | act .allow => "allow"
  | act .accept => "accept"
  | act .drop => "drop"
  | act .reject => "reject"
  | forward => "forward"
  | output => "output"
  | all => "all"
  | chain => "chain"
  | state => "state"
  | addresses .source => "from"
  | addresses .destination => "to"
  | interfaces .incoming => "if-in"
  | interfaces .outgoing => "if-out"
  | ports .source => "sport"
  | ports .destination => "port"

def list : List Keyword :=
  [act .allow, act .accept, act .drop, act .reject, forward, output, all, chain, state,
    addresses .source, addresses .destination, interfaces .incoming, interfaces .outgoing,
    ports .source, ports .destination]

def ofWord? (w : Text) : Option Keyword := list.find? fun k => k.word == w

@[simp] theorem ofWord?_word (k : Keyword) : ofWord? k.word = some k := by
  rcases k with (_ | _ | _ | _) | _ | _ | _ | _ | _ | (_ | _) | (_ | _) | (_ | _) <;> rfl

theorem ofWord?_eq_some_iff {w : Text} {k : Keyword} : ofWord? w = some k ↔ w = k.word := by
  refine ⟨fun h => ?_, fun h => h ▸ ofWord?_word k⟩
  unfold ofWord? at h
  have hk := List.find?_some h
  exact (eq_of_beq hk).symm

end Keyword

end Firewall
