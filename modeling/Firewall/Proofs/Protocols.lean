import Firewall.Proofs.Product
import Firewall.Proofs.Reordering

/-!
# The protocols of a rule

The port clauses of a line choose its protocols: the first of them settles the primary one for good, and any
that asks for both adds what is missing. `Rule.Settled` tells the protocols of a rule from all choices so far.
It is kept by each choice (`Rule.Settled.chooseProtocol`) and hence by each step, and so it holds after every
run of clauses (`Compiler.settled_of_rule`). Main statement: `protocols_of_choices`.
-/

namespace Firewall

/-- The other protocol. -/
def Protocol.other : Protocol → Protocol
  | tcp => udp
  | udp => tcp

/-- What a port clause says about protocols, which may be nothing; no other clause says anything. -/
def Clause.choice? : Clause → Option (Option ProtocolChoice)
  | ports _ p _ => some p.choice?
  | _ => none

/-- The protocol of a rule with these choices: UDP if the first one asks for UDP alone, else TCP. -/
def primaryProtocol (chs : List (Option ProtocolChoice)) : Protocol :=
  if chs.head? = some (some (.one .udp)) then .udp else .tcp

/-- The protocols beside it: the other one if a choice asks for both. -/
def addedProtocols (chs : List (Option ProtocolChoice)) : List Protocol :=
  if some .both ∈ chs then [(primaryProtocol chs).other] else []

theorem primaryProtocol_append {chs : List (Option ProtocolChoice)} (h : chs ≠ [])
    (chs' : List (Option ProtocolChoice)) : primaryProtocol (chs ++ chs') = primaryProtocol chs := by
  obtain ⟨ch, chs, rfl⟩ := List.exists_cons_of_ne_nil h
  rfl

namespace Rule
variable {r : Rule} {chs : List (Option ProtocolChoice)} {p : Protocol}

/-- The protocols of the rule are those that the choices come to. -/
structure Settled (chs : List (Option ProtocolChoice)) (r : Rule) : Prop where
  protocol : r.protocol = if chs = [] then none else some (primaryProtocol chs)
  extraProtocols : r.extraProtocols = addedProtocols chs

namespace Settled

theorem of_eq {r' : Rule} (h : r.Settled chs) (hp : r'.protocol = r.protocol)
    (hps : r'.extraProtocols = r.extraProtocols) : r'.Settled chs :=
  ⟨hp.trans h.protocol, hps.trans h.extraProtocols⟩

theorem protocol_eq_some (h : r.Settled chs) (hne : chs ≠ []) : r.protocol = some (primaryProtocol chs) := by
  rw [h.protocol, if_neg hne]

theorem ne_nil (h : r.Settled chs) (hp : r.protocol = some p) : chs ≠ [] := by
  rintro rfl
  rw [h.protocol] at hp
  cases hp

theorem protocolsDistinct (h : r.Settled chs) : r.ProtocolsDistinct := by
  have hother : primaryProtocol chs ≠ (primaryProtocol chs).other := by
    cases primaryProtocol chs <;> simp [Protocol.other]
  unfold ProtocolsDistinct
  rw [h.protocol, h.extraProtocols, addedProtocols]
  by_cases hne : chs = []
  · simp [hne]
  · by_cases hb : some .both ∈ chs <;> simp [hne, hb, hother]

end Settled

/-- A rule with a protocol keeps it whatever is chosen later. -/
theorem protocol_chooseProtocol_of_some (hp : r.protocol = some p) (ch : Option ProtocolChoice) :
    (r.chooseProtocol ch).protocol = some p := by
  rw [protocol_chooseProtocol, hp, Option.getD_some]

theorem Settled.chooseProtocol_first (h : r.Settled []) (ch : Option ProtocolChoice) :
    (r.chooseProtocol ch).Settled [ch] := by
  have hp : r.protocol = none := h.protocol
  have hps : r.extraProtocols = [] := h.extraProtocols
  rcases ch with _ | (_ | _) | _ <;> constructor <;>
    simp [protocol_chooseProtocol, extraProtocols_chooseProtocol, hp, hps, primaryProtocol, addedProtocols,
      Protocol.other]

theorem Settled.chooseProtocol (h : r.Settled chs) (ch : Option ProtocolChoice) :
    (r.chooseProtocol ch).Settled (chs ++ [ch]) := by
  by_cases hne : chs = []
  · subst hne
    exact h.chooseProtocol_first ch
  have hp := h.protocol_eq_some hne
  refine ⟨?_, ?_⟩
  · rw [protocol_chooseProtocol_of_some hp, if_neg (by simp), primaryProtocol_append hne]
  · rw [extraProtocols_chooseProtocol, protocol_chooseProtocol_of_some hp, h.extraProtocols, addedProtocols,
      addedProtocols, primaryProtocol_append hne]
    by_cases hb : ch = some .both
    · -- what is missing beside the primary protocol is the other one
      subst hb
      by_cases hmem : some .both ∈ chs <;> cases primaryProtocol chs <;> simp [hmem, Protocol.other]
    · have hmem : some .both ∈ chs ++ [ch] ↔ some .both ∈ chs := by simp [Ne.symm hb]
      simp [hb, hmem]

end Rule

/-- Only a step that names ports changes the protocols. -/
theorem Step.protocols_apply {s : Step} (h : s.topic ≠ .ports) (t : Table) (r : Rule) :
    (s.apply t r).protocol = r.protocol ∧ (s.apply t r).extraProtocols = r.extraProtocols := by
  obtain ⟨hp, hps, -⟩ := Rule.protocols_adopt h r (s.apply t r) none []
  rw [s.apply_eq_adopt]
  exact ⟨hp, hps⟩

namespace Compiler
variable {c : Compiler} {cs : List Clause} {line : Text} {r : Rule}

theorem settled_of_rule (hr : (c.rule cs).result = .ok r) : r.Settled (cs.filterMap Clause.choice?) := by
  refine rule_induction (P := fun cs r => r.Settled (cs.filterMap Clause.choice?)) ⟨rfl, rfl⟩ ?_ hr
  intro cs r cl s h hs
  have hasks := Clause.step_eq_ok_iff.1 hs
  rw [List.filterMap_append]
  cases hk : cl.choice? with
  | none =>
    have htopic : s.topic ≠ .ports := by
      rw [hasks.topic_eq]
      cases cl <;> simp_all [Clause.choice?, Clause.topic, Clause.keyword, Keyword.topic]
    obtain ⟨hp, hps⟩ := s.protocols_apply htopic c.table r
    simpa [hk] using h.of_eq hp hps
  | some ch =>
    cases hasks with
    | @ports e p l ss hl =>
      obtain rfl : p.choice? = ch := by simpa [Clause.choice?] using hk
      have hchoose : ((Step.ports e p.choice? ss).apply c.table r).Settled
          (cs.filterMap Clause.choice? ++ [p.choice?]) :=
        (h.chooseProtocol p.choice?).of_eq (by cases e <;> rfl) (by cases e <;> rfl)
      simpa [hk] using hchoose
    | _ => cases hk

theorem choices_ne_nil (h : ∃ e, line.HasClause (.ports e)) : line.clauses.filterMap Clause.choice? ≠ [] := by
  obtain ⟨e, cl, hcl, hk⟩ := h
  cases cl with
  | ports e' p l => exact List.ne_nil_of_mem (List.mem_filterMap.2 ⟨_, hcl, rfl⟩)
  | _ => cases hk

/-- Whatever the clauses so far, and where a port clause has chosen protocols and then fails as well, there
are extra protocols only beside a primary one and all of them are different; a primary protocol stays as it
is, whatever clauses follow. The primary protocol of a line with a port clause is UDP if the first such clause
asks for UDP alone, and TCP otherwise. Its fragments are for this protocol alone if no port clause asks for
both, and otherwise for this one and then the other one, once for each chain and each choice of the rest. There
are such choices for a family unless the line has networks of the other family and none of this one. -/
theorem protocols_of_choices (c : Compiler) :
    (∀ cs r, (c.rule cs).result = .ok r → r.ProtocolsDistinct ∧ (∀ ch, (r.chooseProtocol ch).ProtocolsDistinct) ∧
      ∀ p, r.protocol = some p → (∀ ch, (r.chooseProtocol ch).protocol = some p) ∧
        ∀ ds r', (c.rule (cs ++ ds)).result = .ok r' → r'.protocol = some p) ∧
    ∀ line out, (c.compileLine line).result = .ok (some out) → (∃ e, line.HasClause (.ports e)) →
      let choices := line.clauses.filterMap Clause.choice?
      let p : Protocol := if choices.head? = some (some (.one .udp)) then .udp else .tcp
      let ps := if some .both ∈ choices then [p, p.other] else [p]
      ∃ r, (c.rule line.clauses).result = .ok r ∧ out = r.ruleset ∧ r.protocol = some p ∧
        r.protocols = ps.map some ∧
        ∀ f, ∃ n, (0 < n ↔ (r.uses f.other = true → r.uses f = true)) ∧
          (c.lineFragments line f).map (fun g => (g.chain, g.protocol)) =
            r.chains.flatMap fun ch => ps.flatMap fun q => List.replicate n (ch, some q) := by
  refine ⟨fun cs r hr => ?_, fun line out h hports => ?_⟩
  · have hs := settled_of_rule hr
    refine ⟨hs.protocolsDistinct, fun ch => (hs.chooseProtocol ch).protocolsDistinct, fun p hp =>
      ⟨Rule.protocol_chooseProtocol_of_some hp, fun ds r' hr' => ?_⟩⟩
    -- the first choice of the longer run is that of the shorter one
    have hs' := settled_of_rule hr'
    have hne := hs.ne_nil hp
    rw [List.filterMap_append] at hs'
    rw [hs'.protocol_eq_some (by simp [hne]), primaryProtocol_append hne, ← hs.protocol_eq_some hne, hp]
  · intro choices p ps
    obtain ⟨-, r, hr, rfl⟩ := compileLine_eq_some_iff.1 h
    have hs := settled_of_rule hr
    have hne : choices ≠ [] := choices_ne_nil hports
    have hcs : line.clauses ≠ [] := fun hnil => hne (by simp [choices, hnil])
    have hp : r.protocol = some p := hs.protocol_eq_some hne
    have hps : r.protocols = ps.map some := by
      rw [r.protocols_eq, hp, hs.extraProtocols, addedProtocols]
      by_cases hb : some .both ∈ choices <;> simp [ps, choices, hb, p, primaryProtocol]
    refine ⟨r, hr, if_neg hcs, hp, hps, fun f => ?_⟩
    obtain ⟨n, hpos, hn⟩ := Rule.exists_map_fragmentsFor (fun g => (g.chain, g.protocol)) (fun _ => rfl) r f
    refine ⟨n, hpos, ?_⟩
    rw [lineFragments_of_ne_nil hr hcs, hn, hps]
    simp only [List.flatMap_map]

theorem protocols_of_choices_both :
    let c : Compiler := ⟨.filter, "INPUT", false⟩
    let line : Text := "port 53 UDP sport both 7 port tcp 1"
    let text (p : String) : Text :=
      "-A INPUT -p " ++ p ++ " --sport 7 -m multiport --dports 53,1 -j ACCEPT"
    (c.compileLine line).result = .ok (some ⟨[text "udp", text "tcp"], [text "udp", text "tcp"]⟩) ∧
      (∃ e, line.HasClause (.ports e)) ∧
      ∃ r, (c.rule line.clauses).result = .ok r ∧ r.protocol = some .udp ∧
        r.protocols = [some .udp, some .tcp] ∧ r.ProtocolsDistinct ∧
        (∀ ds r', (c.rule (line.clauses ++ ds)).result = .ok r' → r'.protocol = some .udp) ∧
        ∀ f, ∃ n, 0 < n ∧ (c.lineFragments line f).map (fun g => (g.chain, g.protocol)) =
          List.replicate n ("INPUT".toList, some Protocol.udp) ++ List.replicate n ("INPUT".toList, some .tcp) := by
  intro c line text
  have h : (c.compileLine line).result = .ok (some ⟨[text "udp", text "tcp"], [text "udp", text "tcp"]⟩) := by
    decide +kernel
  have hports : ∃ e, line.HasClause (.ports e) := ⟨.source, .ports .source (.before "both") "7", by decide +kernel⟩
  obtain ⟨hstates, hlines⟩ := protocols_of_choices c
  obtain ⟨r, hr, -, hp, hps, hblocks⟩ := hlines line _ h hports
  have hudp : r.protocol = some .udp := hp.trans (by decide +kernel)
  obtain ⟨hdistinct, -, hkeep⟩ := hstates _ r hr
  refine ⟨h, hports, r, hr, hudp, hps.trans (by decide +kernel), hdistinct, (hkeep .udp hudp).2, fun f => ?_⟩
  obtain ⟨n, hpos, hn⟩ := hblocks f
  let r' : Rule :=
    { chain := "INPUT", protocol := some .udp, extraProtocols := [.tcp]
      source := { ports := ["7"] }, destination := { ports := ["53", "1"] } }
  have hr' : (c.rule line.clauses).result = .ok r' := by decide +kernel
  obtain rfl : r = r' := Except.ok.inj (hr.symm.trans hr')
  have hchoices : line.clauses.filterMap Clause.choice? = [some (.one .udp), some .both, some (.one .tcp)] := by
    decide +kernel
  have hchains : r'.chains = (["INPUT"] : List Text) := by decide
  refine ⟨n, hpos.2 (by cases f <;> decide), hn.trans ?_⟩
  rw [hchoices, hchains]
  simp [Protocol.other]

end Compiler

end Firewall
