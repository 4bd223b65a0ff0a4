import Firewall.Chain
import Firewall.Clause.Basic
import Firewall.Network.Literal
import Firewall.Port.List

/-!
# What a clause asks for

A step is a clause understood: its names are chains, its literals networks, its numbers ports.
`Clause.step` understands a clause or says what is wrong with it, more strictly or less, and
`Step.apply` adds it to a rule. Only `replicate` depends on the table.
-/

namespace Firewall

/-- What a clause asks for. -/
inductive Step where
  | act (action : Action)
  /-- Append to `first` and to `others` too. -/
  | onChains (first : Hook) (others : List Hook)
  /-- Append to every built-in chain too. -/
  | replicate
  | states (names : List Text)
  | networks (side : Side) (networks : List Network)
  | interfaces (way : Way) (names : List Text)
  | ports (side : Side) (choice : Option ProtocolChoice) (spans : List PortSpan)
deriving DecidableEq, Repr

/-- The connection states that a line may write in lower case. -/
def knownStates : List Text := ["invalid", "new", "related", "established"]

/-- The name of a connection state in a rule. -/
def stateName (t : Text) : Text := if t ∈ knownStates then t.map Char.toUpper else t

/-- The condition on the connection state. -/
def stateMatch (names : List Text) : Text := "-m state --state " ++ Text.ofItems names

/-- The built-in chains that a comma list names; other names count for nothing. -/
def namedHooks (t : Text) : List Hook := t.items.filterMap Hook.ofWord?

namespace Clause

def step (strict : Bool) : Clause → Except Error Step
  | act v => .ok (.act v.action)
  | forward => .ok (.onChains .forward [])
  | output => .ok (.onChains .output [])
  | all => .ok .replicate
  | chain t =>
    match namedHooks t with
    | [] => .error (.malformed .noChain)
    | h :: hs => .ok (.onChains h hs)
  | state t => .ok (.states (t.items.map stateName))
  | addresses s t => do return .networks s (← Network.readAll strict t.items)
  | interfaces w t => .ok (.interfaces w t.items)
  | ports s p t => do return .ports s p.choice? (← PortList.read strict t)

/-- The errors that understanding the clause passes over. -/
def skipped (strict : Bool) : Clause → List Error
  | ports _ _ t => PortList.skipped strict t
  | _ => []

end Clause

namespace Step

/-- The built-in chains of the table that are not the primary chain of the rule. -/
def otherHooks (t : Table) (r : Rule) : List Hook := t.hooks.filter fun h => h.name ≠ r.chain

def apply (t : Table) (r : Rule) : Step → Rule
  | act a => { r with action := a }
  | onChains h hs => (r.setChain h.name).addChains (hs.map Hook.name)
  | replicate => r.addChains ((otherHooks t r).map Hook.name)
  | states names => r.addMatchRule (stateMatch names)
  | networks s ns => r.addNetworks s ns
  | interfaces w names => r.addInterfaces w names
  | ports s choice spans => (r.chooseProtocol choice).addPorts s (spans.map PortSpan.text)

end Step

end Firewall
