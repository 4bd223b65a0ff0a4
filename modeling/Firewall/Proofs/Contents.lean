import Firewall.Proofs.Items
import Firewall.Proofs.Line

/-!
# What a rule says

Each clause says something of its own: an action, a chain, a protocol, some ports, networks or
interfaces, or a match on the state. `Step.apply_eq`: a step adds to the rule what its clause says
and leaves all else as it is, extra chains and protocols apart. `Rule.Says` collects what the clauses
of a line say, in order, and `says_of_rule` finds it in their rule.
-/

namespace Firewall

/-! ### What a clause says -/

/-- The name of a connection state in a rule: the four that a line may write in lower case are put
in upper case, any other text stands as it is. -/
def stateText (t : Text) : Text :=
  if t = "invalid" then "INVALID"
  else if t = "new" then "NEW"
  else if t = "related" then "RELATED"
  else if t = "established" then "ESTABLISHED"
  else t

theorem stateName_eq (t : Text) : stateName t = stateText t := by
  by_cases h1 : t = "invalid"
  · subst h1
    decide +kernel
  by_cases h2 : t = "new"
  · subst h2
    decide +kernel
  by_cases h3 : t = "related"
  · subst h3
    decide +kernel
  by_cases h4 : t = "established"
  · subst h4
    decide +kernel
  unfold stateName stateText knownStates
  simp only [h1, h2, h3, h4, if_false, List.mem_cons, List.not_mem_nil, or_self]

namespace Clause

def action? : Clause → Option Action
  | act v => some v.action
  | _ => none

/-- The chain that a clause makes the primary one. -/
def target? : Clause → Option Hook
  | forward => some .forward
  | output => some .output
  | chain t => (namedHooks t).head?
  | _ => none

/-- The protocol that a clause sets in a rule without one. -/
def protocol? : Clause → Option Protocol
  | ports _ p _ =>
    match p.choice? with
    | some (.one q) => some q
    | _ => some .tcp
  | _ => none

/-- The ports that a clause asks for at one end, those out of range left out. -/
def portTexts (e : Side) : Clause → List Text
  | ports e' _ l => if e' = e then (PortList.goodItems l).map PortSpan.text else []
  | _ => []

/-- The networks of a family that a clause names at one end. -/
def networksAt (strict : Bool) (e : Side) (f : Family) : Clause → List Network
  | addresses e' t =>
    if e' = e then
      (t.items.filterMap fun l => (Network.read strict l).toOption).filter fun n => n.family = f
    else []
  | _ => []

def interfaceNames (w : Way) : Clause → List Text
  | interfaces w' t => if w' = w then t.items else []
  | _ => []

/-- The match on the connection state that a clause asks for. -/
def stateRule? : Clause → Option Text
  | state t => some ("-m state --state " ++ Text.ofItems (t.items.map stateText))
  | _ => none

/-- Which step a clause asks for. -/
inductive Asks (strict : Bool) : Clause → Step → Prop
  | act (v : Verb) : Asks strict (act v) (.act v.action)
  | forward : Asks strict forward (.onChains .forward [])
  | output : Asks strict output (.onChains .output [])
  | all : Asks strict all .replicate
  | chain {t : Text} {h : Hook} {hs : List Hook} (hn : namedHooks t = h :: hs) :
      Asks strict (chain t) (.onChains h hs)
  | state (t : Text) : Asks strict (state t) (.states (t.items.map stateName))
  | addresses {e : Side} {t : Text} {ns : List Network} (hn : Network.readAll strict t.items = .ok ns) :
      Asks strict (addresses e t) (.networks e ns)
  | interfaces (w : Way) (t : Text) : Asks strict (interfaces w t) (.interfaces w t.items)
  | ports {e : Side} {p : ProtocolWord} {l : Text} {ss : List PortSpan}
      (hp : PortList.read strict l = .ok ss) : Asks strict (ports e p l) (.ports e p.choice? ss)

theorem step_eq_ok_iff {strict : Bool} {cl : Clause} {s : Step} :
    cl.step strict = .ok s ↔ cl.Asks strict s := by
  constructor
  · intro h
    cases cl with
    | act v => cases h; exact .act v
    | forward => cases h; exact .forward
    | output => cases h; exact .output
    | all => cases h; exact .all
    | chain t =>
      cases hn : namedHooks t with
      | nil => simp [step, hn] at h
      | cons k ks =>
        simp only [step, hn, Except.ok.injEq] at h
        subst h
        exact .chain hn
    | state t => cases h; exact .state t
    | addresses e t =>
      cases hn : Network.readAll strict t.items with
      | error e => simp [step, hn, bind, Except.bind] at h
      | ok ns =>
        simp only [step, hn, bind, Except.bind, pure, Except.pure, Except.ok.injEq] at h
        subst h
        exact .addresses hn
    | interfaces w t => cases h; exact .interfaces w t
    | ports e p l =>
      cases hp : PortList.read strict l with
      | error e => simp [step, hp, bind, Except.bind] at h
      | ok ss =>
        simp only [step, hp, bind, Except.bind, pure, Except.pure, Except.ok.injEq] at h
        subst h
        exact .ports hp
  · intro h
    cases h with
    | chain hn => simp [step, hn]
    | addresses hn => simp [step, hn, bind, Except.bind, pure, Except.pure]
    | ports hp => simp [step, hp, bind, Except.bind, pure, Except.pure]
    | _ => rfl

theorem step_addresses_eq_error_iff {strict : Bool} {s : Side} {t : Text} {e : Error} :
    (addresses s t).step strict = .error e ↔ Network.readAll strict t.items = .error e := by
  cases h : Network.readAll strict t.items <;> simp [step, h, bind, Except.bind, pure, Except.pure]

theorem step_ports_eq_error_iff {strict : Bool} {s : Side} {p : ProtocolWord} {l : Text} {e : Error} :
    (ports s p l).step strict = .error e ↔ PortList.read strict l = .error e := by
  cases h : PortList.read strict l <;> simp [step, h, bind, Except.bind, pure, Except.pure]

end Clause

/-! ### What a step adds -/

namespace Rule

theorem addChains_eq (r : Rule) (cs : List Text) :
    ∃ xs, r.addChains cs = { r with extraChains := xs } := by
  induction cs generalizing r with
  | nil => exact ⟨r.extraChains, rfl⟩
  | cons c cs ih =>
    obtain ⟨xs, hxs⟩ := ih (r.addChain c)
    refine ⟨xs, hxs.trans ?_⟩
    unfold addChain
    split <;> rfl

theorem addProtocol_eq (r : Rule) (p : Protocol) :
    ∃ ps, r.addProtocol p = { r with extraProtocols := ps } := by
  unfold addProtocol
  split
  · exact ⟨r.extraProtocols, rfl⟩
  · exact ⟨_, rfl⟩

theorem extraProtocols_addProtocol (r : Rule) (p : Protocol) :
    (r.addProtocol p).extraProtocols =
      if r.protocol = some p ∨ p ∈ r.extraProtocols then r.extraProtocols else r.extraProtocols ++ [p] := by
  unfold addProtocol
  split <;> rfl

/-- A choice touches the protocols alone, and the primary one only if there is none yet. -/
theorem chooseProtocol_eq (r : Rule) (choice : Option ProtocolChoice) :
    ∃ ps, r.chooseProtocol choice = { r with
      protocol := some (r.protocol.getD (if choice = some (.one .udp) then .udp else .tcp))
      extraProtocols := ps } := by
  unfold chooseProtocol
  split
  · next hr => exact ⟨r.extraProtocols, by simp [hr]⟩
  · next p hr => exact ⟨r.extraProtocols, by cases p <;> simp [hr]⟩
  · next hr =>
    obtain ⟨ps, hps⟩ := addProtocol_eq { r with protocol := some .tcp } .udp
    exact ⟨ps, by simp [hr, hps]⟩
  · next q hr =>
    obtain ⟨ps, hps⟩ := r.addProtocol_eq .tcp
    obtain ⟨ps', hps'⟩ := addProtocol_eq { r with extraProtocols := ps } .udp
    exact ⟨ps', by rw [hps, hps', hr, Option.getD_some, ← hr]⟩
  · next q hr _ => exact ⟨r.extraProtocols, by rw [hr, Option.getD_some, ← hr]⟩

theorem protocol_chooseProtocol (r : Rule) (choice : Option ProtocolChoice) :
    (r.chooseProtocol choice).protocol =
      some (r.protocol.getD (if choice = some (.one .udp) then .udp else .tcp)) := by
  obtain ⟨ps, hps⟩ := r.chooseProtocol_eq choice
  rw [hps]

/-- A choice of both adds what is missing. -/
theorem extraProtocols_chooseProtocol (r : Rule) (choice : Option ProtocolChoice) :
    (r.chooseProtocol choice).extraProtocols = r.extraProtocols ++
      if choice = some .both then
        [Protocol.tcp, .udp].filter fun q => (r.chooseProtocol choice).protocol ≠ some q ∧ q ∉ r.extraProtocols
      else [] := by
  rw [protocol_chooseProtocol]
  unfold chooseProtocol
  rcases hp : r.protocol with _ | q
  · rcases choice with _ | (_ | _) | _
    case none.some.both =>
      by_cases hu : .udp ∈ r.extraProtocols <;> simp [extraProtocols_addProtocol, hu]
    all_goals simp
  · rcases choice with _ | _ | _
    case some.some.both =>
      -- the second addition looks at what the first one has added, which is another protocol
      by_cases ht : .tcp ∈ r.extraProtocols <;> by_cases hu : .udp ∈ r.extraProtocols <;> cases q <;>
        simp [extraProtocols_addProtocol, protocol_addProtocol, hp, ht, hu]
    all_goals simp

end Rule

theorem Clause.protocol?_ports (e : Side) (p : ProtocolWord) (l : Text) :
    (ports e p l).protocol? = some (if p.choice? = some (.one .udp) then .udp else .tcp) := by
  simp only [protocol?]
  rcases p.choice? with _ | (_ | _) | _ <;> rfl

/-- The endpoint with what a clause says about it. -/
def Endpoint.extend (p : Endpoint) (strict : Bool) (e : Side) (cl : Clause) : Endpoint where
  networks :=
    { v4 := p.networks.v4 ++ cl.networksAt strict e .v4
      v6 := p.networks.v6 ++ cl.networksAt strict e .v6 }
  ports := p.ports ++ cl.portTexts e

/-- The rule with what a clause says, its extra chains and protocols left as they are. -/
def Rule.extend (r : Rule) (strict : Bool) (cl : Clause) : Rule :=
  { r with
    chain := (cl.target?.map Hook.name).getD r.chain
    action := cl.action?.getD r.action
    protocol := r.protocol.or cl.protocol?
    source := r.source.extend strict .source cl
    destination := r.destination.extend strict .destination cl
    inInterfaces := r.inInterfaces ++ cl.interfaceNames .incoming
    outInterfaces := r.outInterfaces ++ cl.interfaceNames .outgoing
    matchRules := r.matchRules ++ cl.stateRule?.toList }

theorem Networks.addAll_eq (ns : Networks) (l : List Network) :
    ns.addAll l =
      ⟨ns.v4 ++ l.filter fun n => n.family = .v4, ns.v6 ++ l.filter fun n => n.family = .v6⟩ := by
  have h4 := ns.ofFamily_addAll l .v4
  have h6 := ns.ofFamily_addAll l .v6
  simp only [ofFamily] at h4 h6
  rw [← h4, ← h6]

/-- A step adds to a rule what its clause says; all else but the extra chains and protocols stays. -/
theorem Step.apply_eq {strict : Bool} {cl : Clause} {s : Step} (h : cl.Asks strict s) (t : Table)
    (r : Rule) :
    ∃ xs ps, s.apply t r = { r.extend strict cl with extraChains := xs, extraProtocols := ps } := by
  unfold Rule.extend Endpoint.extend Clause.action? Clause.target? Clause.protocol? Clause.networksAt
    Clause.portTexts Clause.interfaceNames Clause.stateRule?
  cases h with
  | act v => exact ⟨r.extraChains, r.extraProtocols, by simp [apply]⟩
  | forward => exact ⟨_, r.extraProtocols, by simp [apply, Rule.setChain, Rule.addChains]; rfl⟩
  | output => exact ⟨_, r.extraProtocols, by simp [apply, Rule.setChain, Rule.addChains]; rfl⟩
  | all =>
    obtain ⟨xs, hxs⟩ := r.addChains_eq ((otherHooks t r).map Hook.name)
    exact ⟨xs, r.extraProtocols, by simp [apply, hxs]⟩
  | @chain n h hs hn =>
    obtain ⟨xs, hxs⟩ := (r.setChain h.name).addChains_eq (hs.map Hook.name)
    exact ⟨xs, r.extraProtocols, by rw [apply, hxs]; simp [Rule.setChain, hn]⟩
  | state n =>
    have hrule : stateMatch (n.items.map stateName) =
        "-m state --state " ++ Text.ofItems (n.items.map stateText) := by
      rw [List.map_congr_left fun x _ => stateName_eq x]
      rfl
    exact ⟨r.extraChains, r.extraProtocols, by simp [apply, Rule.addMatchRule, hrule]⟩
  | @addresses e n ns hn =>
    obtain ⟨rfl, -⟩ := Network.readAll_eq_ok hn
    refine ⟨r.extraChains, r.extraProtocols, ?_⟩
    cases e <;> simp [apply, Rule.addNetworks, Rule.mapEndpoint, Networks.addAll_eq]
  | interfaces w n =>
    refine ⟨r.extraChains, r.extraProtocols, ?_⟩
    cases w <;> simp [apply, Rule.addInterfaces]
  | @ports e p l ss hp =>
    obtain ⟨rfl, -⟩ := PortList.read_eq_ok hp
    obtain ⟨ps, hps⟩ := r.chooseProtocol_eq p.choice?
    have hfirst := Clause.protocol?_ports e p l
    simp only [Clause.protocol?] at hfirst
    refine ⟨r.extraChains, ps, ?_⟩
    cases e <;> simp [apply, hps, hfirst, Rule.addPorts, Rule.mapEndpoint]

/-! ### What a rule says -/

/-- The rule says what the clauses say, no more and no less: of an action, a chain and a protocol it
takes the one that counts, and all else it keeps in the order of the clauses. -/
structure Rule.Says (strict : Bool) (chain : Text) (cs : List Clause) (r : Rule) : Prop where
  /-- The last action counts. -/
  action : r.action = (cs.filterMap Clause.action?).getLast?.getD .allow
  /-- The last chain counts. -/
  chain : r.chain = ((cs.filterMap Clause.target?).getLast?.map Hook.name).getD chain
  /-- The first protocol counts. -/
  protocol : r.protocol = (cs.filterMap Clause.protocol?).head?
  ports : ∀ e, (r.endpoint e).ports = cs.flatMap (Clause.portTexts e)
  networks : ∀ e f, (r.endpoint e).networks.ofFamily f = cs.flatMap (Clause.networksAt strict e f)
  interfaces : ∀ w, r.interfaces w = cs.flatMap (Clause.interfaceNames w)
  matchRules : r.matchRules = cs.filterMap Clause.stateRule?

namespace Rule.Says
variable {strict : Bool} {chain : Text} {cs : List Clause} {cl : Clause} {r : Rule} {s : Step}

theorem onChain (chain : Text) : (Rule.onChain chain).Says strict chain [] where
  action := rfl
  chain := rfl
  protocol := rfl
  ports e := by cases e <;> rfl
  networks e f := by cases e <;> cases f <;> rfl
  interfaces w := by cases w <;> rfl
  matchRules := rfl

theorem concat (h : r.Says strict chain cs) (hs : cl.Asks strict s) (t : Table) :
    (s.apply t r).Says strict chain (cs ++ [cl]) := by
  obtain ⟨xs, ps, happly⟩ := Step.apply_eq hs t r
  rw [happly]
  constructor
  · show cl.action?.getD r.action = _
    rw [h.action, List.filterMap_append]
    cases ha : cl.action? <;> simp [ha]
  · show (cl.target?.map Hook.name).getD r.chain = _
    rw [h.chain, List.filterMap_append]
    cases ht : cl.target? <;> simp [ht]
  · show r.protocol.or cl.protocol? = _
    rw [h.protocol, List.filterMap_append, List.head?_append]
    cases hp : cl.protocol? <;> simp [hp]
  · intro e
    rw [List.flatMap_append, ← h.ports e]
    cases e <;> simp [endpoint, extend, Endpoint.extend]
  · intro e f
    rw [List.flatMap_append, ← h.networks e f]
    cases e <;> cases f <;> simp [endpoint, extend, Endpoint.extend, Networks.ofFamily]
  · intro w
    rw [List.flatMap_append, ← h.interfaces w]
    cases w <;> simp [Rule.interfaces, extend]
  · show r.matchRules ++ cl.stateRule?.toList = _
    rw [h.matchRules, List.filterMap_append]
    cases hm : cl.stateRule? <;> simp [hm]

end Rule.Says

namespace Compiler
variable {c : Compiler} {cs : List Clause} {r : Rule}

theorem says_of_rule (h : (c.rule cs).result = .ok r) : r.Says c.strict c.chain cs :=
  rule_induction (.onChain c.chain)
    (fun _ _ _ _ h hs => h.concat (Clause.step_eq_ok_iff.1 hs) c.table) h

theorem asks_of_rule (h : (c.rule cs).result = .ok r) {cl : Clause} (hcl : cl ∈ cs) :
    ∃ s, cl.Asks c.strict s := by
  obtain ⟨s, hs⟩ := exists_rule_iff.1 ⟨r, h⟩ cl hcl
  exact ⟨s, Clause.step_eq_ok_iff.1 hs⟩

/-- The ruleset of a line is that of a rule which says what the clauses of the line say, each of
which is understood: one list for both families if no clause names a network, otherwise for each
family with networks a list of its own. -/
theorem exists_rule_says (c : Compiler) (line : Text) {out : Ruleset}
    (h : (c.compileLine line).result = .ok (some out)) (hne : line.clauses ≠ []) :
    ∃ r, (c.rule line.clauses).result = .ok r ∧ r.Says c.strict c.chain line.clauses ∧
      (∀ cl ∈ line.clauses, ∃ s, cl.step c.strict = .ok s) ∧
      (∀ f, r.uses f = true ↔ ∃ e, line.clauses.flatMap (Clause.networksAt c.strict e f) ≠ []) ∧
      out = if r.uses .v4 = false ∧ r.uses .v6 = false then ⟨r.render none, r.render none⟩
        else ⟨if r.uses .v4 then r.render (some .v4) else [],
          if r.uses .v6 then r.render (some .v6) else []⟩ := by
  obtain ⟨-, r, hr, rfl⟩ := compileLine_eq_some_iff.1 h
  have hsays := says_of_rule hr
  refine ⟨r, hr, hsays, exists_rule_iff.1 ⟨r, hr⟩, fun f => ?_, ?_⟩
  · simp only [← hsays.networks]
    constructor
    · intro hu
      rcases (by simpa [Rule.uses] using hu :
        r.source.networks.ofFamily f ≠ [] ∨ r.destination.networks.ofFamily f ≠ []) with hs | hd
      · exact ⟨.source, hs⟩
      · exact ⟨.destination, hd⟩
    · rintro ⟨_ | _, he⟩
      · simp [Rule.uses, show r.source.networks.ofFamily f ≠ [] from he]
      · simp [Rule.uses, show r.destination.networks.ofFamily f ≠ [] from he]
  · rw [if_neg hne]
    cases h4 : r.uses .v4 <;> cases h6 : r.uses .v6 <;>
      simp [Rule.ruleset, Rule.fragmentsFor, Rule.render, Family.other, h4, h6]

theorem exists_rule_says_mixed :
    let c : Compiler := ⟨.nat, "INPUT", false⟩
    let line : Text := "from ::1,10.1.0.0/8 drop port 0,22 output reject"
    let out : Ruleset := ⟨["-A OUTPUT -p tcp -s 10.0.0.0/8 --dport 22 -j REJECT"],
      ["-A OUTPUT -p tcp -s ::1/128 --dport 22 -j REJECT"]⟩
    (c.compileLine line).result = .ok (some out) ∧ line.clauses ≠ [] ∧
      ∃ r, (c.rule line.clauses).result = .ok r ∧ r.Says false "INPUT" line.clauses ∧
        r.uses .v4 = true ∧ r.uses .v6 = true ∧ out = ⟨r.render (some .v4), r.render (some .v6)⟩ := by
  intro c line out
  have h : (c.compileLine line).result = .ok (some out) := by decide +kernel
  have hne : line.clauses ≠ [] := by decide +kernel
  obtain ⟨r, hr, hsays, -, huses, hout⟩ := exists_rule_says c line h hne
  have hu : ∀ f, r.uses f = true := by
    intro f
    rw [huses]
    cases f <;> exact ⟨.source, by decide +kernel⟩
  exact ⟨h, hne, r, hr, hsays, hu .v4, hu .v6, by simpa [hu] using hout⟩

end Compiler

end Firewall
