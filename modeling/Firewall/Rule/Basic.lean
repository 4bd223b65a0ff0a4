import Firewall.Keyword
import Firewall.Network.Basic

/-!
# Rules

A rule collects what a line says: the chains it is appended to, what becomes of a packet, and what
a packet must look like. Each update says one thing and keeps the others; networks are filed by
family. A chain is never both the primary chain and an extra one, nor an extra one twice, as long
as only `setChain` and `addChain` touch the chains (`ChainsDistinct`); the same goes for protocols.
-/

namespace Firewall

/-- What becomes of a packet. -/
inductive Action where
  | allow
  | drop
  | reject
deriving DecidableEq, Repr

def Action.target : Action → Text
  | allow => "ACCEPT"
  | drop => "DROP"
  | reject => "REJECT"

def Verb.action : Verb → Action
  | allow | accept => .allow
  | drop => .drop
  | reject => .reject

/-- The protocols that have ports. -/
inductive Protocol where
  | tcp
  | udp
deriving DecidableEq, Repr

def Protocol.name : Protocol → Text
  | tcp => "tcp"
  | udp => "udp"

/-- What a port clause may say about protocols. -/
inductive ProtocolChoice where
  | one (protocol : Protocol)
  | both
deriving DecidableEq, Repr

/-- Networks filed by family, in order of arrival. -/
structure Networks where
  v4 : List Network := []
  v6 : List Network := []
deriving DecidableEq, Repr

namespace Networks

def ofFamily (ns : Networks) : Family → List Network
  | .v4 => ns.v4
  | .v6 => ns.v6

/-- The networks of a family, or of both families one after the other. -/
def select (ns : Networks) : Option Family → List Network
  | some f => ns.ofFamily f
  | none => ns.v4 ++ ns.v6

/-- Files a network under its family. -/
def add (ns : Networks) (n : Network) : Networks :=
  match n.family with
  | .v4 => { ns with v4 := ns.v4 ++ [n] }
  | .v6 => { ns with v6 := ns.v6 ++ [n] }

def addAll (ns : Networks) (l : List Network) : Networks := l.foldl add ns

theorem ofFamily_add (ns : Networks) (n : Network) (f : Family) :
    (ns.add n).ofFamily f = ns.ofFamily f ++ if n.family = f then [n] else [] := by
  unfold add
  cases hn : n.family <;> cases f <;> simp [ofFamily]

/-- Filing keeps the order within a family. -/
theorem ofFamily_addAll (ns : Networks) (l : List Network) (f : Family) :
    (ns.addAll l).ofFamily f = ns.ofFamily f ++ l.filter fun n => n.family = f := by
  induction l generalizing ns with
  | nil => simp [addAll]
  | cons n l ih =>
    rw [addAll, List.foldl_cons, ← addAll, ih, ofFamily_add]
    by_cases hn : n.family = f <;> simp [hn]

end Networks

/-- What a packet must say at one end of its way. -/
@[ext] structure Endpoint where
  networks : Networks := {}
  ports : List Text := []
deriving DecidableEq, Repr

/-- What one line says. -/
@[ext] structure Rule where
  chain : Text
  extraChains : List Text := []
  action : Action := .allow
  protocol : Option Protocol := none
  extraProtocols : List Protocol := []
  source : Endpoint := {}
  destination : Endpoint := {}
  inInterfaces : List Text := []
  outInterfaces : List Text := []
  matchRules : List Text := []
deriving DecidableEq, Repr

namespace Rule

/-- The rule that says no more than where it is appended. -/
def onChain (c : Text) : Rule := { chain := c }

/-- Makes `c` the primary chain, and no longer an extra one. -/
def setChain (r : Rule) (c : Text) : Rule :=
  { r with chain := c, extraChains := r.extraChains.filter (· ≠ c) }

/-- Adds an extra chain unless the rule has it. -/
def addChain (r : Rule) (c : Text) : Rule :=
  if c = r.chain ∨ c ∈ r.extraChains then r else { r with extraChains := r.extraChains ++ [c] }

def addChains (r : Rule) (cs : List Text) : Rule := cs.foldl addChain r

/-- Adds an extra protocol unless the rule has it. -/
def addProtocol (r : Rule) (p : Protocol) : Rule :=
  if r.protocol = some p ∨ p ∈ r.extraProtocols then r
  else { r with extraProtocols := r.extraProtocols ++ [p] }

/-- What a port clause does to the protocols: the first one sets the primary protocol, TCP unless it
asks for UDP alone, and any that asks for both adds what is missing. -/
def chooseProtocol (r : Rule) (choice : Option ProtocolChoice) : Rule :=
  match r.protocol, choice with
  | none, none => { r with protocol := some .tcp }
  | none, some (.one p) => { r with protocol := some p }
  | none, some .both => { r with protocol := some .tcp }.addProtocol .udp
  | some _, some .both => (r.addProtocol .tcp).addProtocol .udp
  | some _, _ => r

def endpoint (r : Rule) : Side → Endpoint
  | .source => r.source
  | .destination => r.destination

def mapEndpoint (r : Rule) (s : Side) (f : Endpoint → Endpoint) : Rule :=
  match s with
  | .source => { r with source := f r.source }
  | .destination => { r with destination := f r.destination }

def addNetworks (r : Rule) (s : Side) (ns : List Network) : Rule :=
  r.mapEndpoint s fun e => { e with networks := e.networks.addAll ns }

def addPorts (r : Rule) (s : Side) (ps : List Text) : Rule :=
  r.mapEndpoint s fun e => { e with ports := e.ports ++ ps }

def interfaces (r : Rule) : Way → List Text
  | .incoming => r.inInterfaces
  | .outgoing => r.outInterfaces

def addInterfaces (r : Rule) (w : Way) (is : List Text) : Rule :=
  match w with
  | .incoming => { r with inInterfaces := r.inInterfaces ++ is }
  | .outgoing => { r with outInterfaces := r.outInterfaces ++ is }

/-- Adds a condition in the words of the packet filter. -/
def addMatchRule (r : Rule) (m : Text) : Rule := { r with matchRules := r.matchRules ++ [m] }

/-- Whether the rule has networks of a family at either end. -/
def uses (r : Rule) (f : Family) : Bool :=
  r.source.networks.ofFamily f ≠ [] || r.destination.networks.ofFamily f ≠ []

/-! ### Chains and protocols without repeats -/

/-- The chains of the rule are all different. -/
def ChainsDistinct (r : Rule) : Prop := (r.chain :: r.extraChains).Nodup

/-- There are extra protocols only beside a primary one, and all are different. -/
def ProtocolsDistinct (r : Rule) : Prop :=
  match r.protocol with
  | none => r.extraProtocols = []
  | some p => (p :: r.extraProtocols).Nodup

theorem chainsDistinct_onChain (c : Text) : (onChain c).ChainsDistinct := by
  simp [ChainsDistinct, onChain]

theorem ChainsDistinct.setChain {r : Rule} (h : r.ChainsDistinct) (c : Text) :
    (r.setChain c).ChainsDistinct := by
  simp only [ChainsDistinct, Rule.setChain, List.nodup_cons] at h ⊢
  exact ⟨by simp, h.2.filter _⟩

theorem ChainsDistinct.addChain {r : Rule} (h : r.ChainsDistinct) (c : Text) :
    (r.addChain c).ChainsDistinct := by
  unfold Rule.addChain
  split
  · exact h
  · next hc =>
    simp only [not_or] at hc
    simp only [ChainsDistinct] at h ⊢
    rw [← List.cons_append, List.nodup_append]
    refine ⟨h, by simp, ?_⟩
    rintro a ha b hb rfl
    simp only [List.mem_singleton] at hb
    subst hb
    rcases List.mem_cons.1 ha with ha | ha
    · exact hc.1 ha
    · exact hc.2 ha

theorem ProtocolsDistinct.addProtocol {r : Rule} (h : r.ProtocolsDistinct)
    (hp : r.protocol.isSome) (q : Protocol) : (r.addProtocol q).ProtocolsDistinct := by
  obtain ⟨p, hp⟩ := Option.isSome_iff_exists.1 hp
  unfold Rule.addProtocol
  split
  · exact h
  · next hq =>
    simp only [hp, Option.some.injEq, not_or] at hq
    simp only [ProtocolsDistinct, hp] at h ⊢
    rw [← List.cons_append, List.nodup_append]
    refine ⟨h, by simp, ?_⟩
    rintro a ha b hb rfl
    simp only [List.mem_singleton] at hb
    subst hb
    rcases List.mem_cons.1 ha with ha | ha
    · exact hq.1 ha.symm
    · exact hq.2 ha

theorem protocol_addProtocol (r : Rule) (p : Protocol) : (r.addProtocol p).protocol = r.protocol := by
  unfold addProtocol
  split <;> rfl

theorem ProtocolsDistinct.chooseProtocol {r : Rule} (h : r.ProtocolsDistinct)
    (c : Option ProtocolChoice) : (r.chooseProtocol c).ProtocolsDistinct := by
  unfold Rule.chooseProtocol
  split
  · next hp => simp_all [ProtocolsDistinct]
  · next hp => simp_all [ProtocolsDistinct]
  · next hp =>
    refine ProtocolsDistinct.addProtocol ?_ rfl _
    simp_all [ProtocolsDistinct]
  · next hp =>
    refine ProtocolsDistinct.addProtocol (h.addProtocol (by simp [hp]) _) ?_ _
    simp [protocol_addProtocol, hp]
  · exact h

theorem ChainsDistinct.addChains {r : Rule} (h : r.ChainsDistinct) (cs : List Text) :
    (r.addChains cs).ChainsDistinct := by
  induction cs generalizing r with
  | nil => exact h
  | cons c cs ih => exact ih (h.addChain c)

end Rule

end Firewall
