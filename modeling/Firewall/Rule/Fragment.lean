import Firewall.Rule.Basic

/-!
# Fragments

The packet filter takes a rule in fragments, each with one chain, one protocol, one network at
either end and one interface of either way. `Rule.fragments` lists one fragment for each
combination of what the rule offers, chains slowest and outgoing interfaces fastest;
`length_fragments` counts them.
-/

namespace Firewall

/-- One rule of the packet filter. -/
structure Fragment where
  chain : Text
  inInterface : Option Text
  outInterface : Option Text
  protocol : Option Protocol
  source : Option Network
  destination : Option Network
  sourcePorts : List Text
  destinationPorts : List Text
  matchRules : List Text
  action : Action
deriving DecidableEq, Repr

namespace Fragment

/-- A flag and its value, if there is one. -/
def flagged (flag : Text) : Option Text → List Text
  | some value => [flag, value]
  | none => []

/-- The match on the ports of one end: a single port by itself, several as a comma list. -/
def portMatch (flag : Text) : List Text → List Text
  | [] => []
  | [p] => ["--" ++ flag, p]
  | ps => ["-m", "multiport", "--" ++ flag ++ "s", Text.ofItems ps]

/-- The words of a fragment. Ports are matched only where there is a protocol. -/
def words (f : Fragment) : List Text :=
  List.flatten [
    ["-A", f.chain],
    flagged "-i" f.inInterface,
    flagged "-o" f.outInterface,
    flagged "-p" (f.protocol.map Protocol.name),
    flagged "-s" (f.source.map Network.text),
    flagged "-d" (f.destination.map Network.text),
    if f.protocol.isSome then portMatch "sport" f.sourcePorts else [],
    if f.protocol.isSome then portMatch "dport" f.destinationPorts else [],
    f.matchRules,
    ["-j", f.action.target]]

/-- The text of a fragment: its words with a space between them. -/
def text (f : Fragment) : Text := [' '].intercalate f.words

end Fragment

/-- The choices from a list that may be empty: then the one choice is none. -/
def orAbsent {α : Type} : List α → List (Option α)
  | [] => [none]
  | l => l.map some

namespace Rule

/-- The chains of the rule, the primary one first, without repeats. -/
def chains (r : Rule) : List Text := (r.chain :: r.extraChains).eraseDups

/-- The protocols of the rule, the primary one first; without a primary one there is no choice. -/
def protocols (r : Rule) : List (Option Protocol) :=
  match r.protocol with
  | some p => (p :: r.extraProtocols).map some
  | none => [none]

def fragment (r : Rule) (chain : Text) (protocol : Option Protocol)
    (source destination : Option Network) (inInterface outInterface : Option Text) : Fragment where
  chain := chain
  inInterface := inInterface
  outInterface := outInterface
  protocol := protocol
  source := source
  destination := destination
  sourcePorts := r.source.ports
  destinationPorts := r.destination.ports
  matchRules := r.matchRules
  action := r.action

/-- The fragments of the rule with the networks of one family, or of both families at once. -/
def fragments (r : Rule) (family : Option Family) : List Fragment :=
  r.chains.flatMap fun chain =>
  r.protocols.flatMap fun protocol =>
  (orAbsent (r.source.networks.select family)).flatMap fun source =>
  (orAbsent (r.destination.networks.select family)).flatMap fun destination =>
  (orAbsent r.inInterfaces).flatMap fun inInterface =>
  (orAbsent r.outInterfaces).map fun outInterface =>
  r.fragment chain protocol source destination inInterface outInterface

def render (r : Rule) (family : Option Family) : List Text := (r.fragments family).map Fragment.text

/-- There is one fragment for each combination. -/
theorem length_fragments (r : Rule) (f : Option Family) :
    (r.fragments f).length = r.chains.length * (r.protocols.length *
      ((orAbsent (r.source.networks.select f)).length *
        ((orAbsent (r.destination.networks.select f)).length *
          ((orAbsent r.inInterfaces).length * (orAbsent r.outInterfaces).length)))) := by
  simp [fragments, List.length_flatMap, List.map_const']

end Rule

end Firewall
