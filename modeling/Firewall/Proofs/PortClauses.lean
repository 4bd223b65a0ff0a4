import Firewall.Proofs.Composition
import Mathlib.Data.List.Basic

/-!
# Port clauses

`Compiler.dispatch` is one round of a line: a keyword takes its arguments off the words behind it, and its
clause is added to the rule made so far. `Compiler.compileFrom_keyword` says that a line is compiled round by
round. Behind `port` and `sport` the port list stands in the first place, or in the second if there is a
protocol word in the first (`portList?`). A port list is understood numeral by numeral: `PortSpan.read_of_form`
tells an item in range, with its text, from one out of range, with the numeral at fault. `Rule.PortsAdded` says
field by field what becomes of the rule, and leaves nothing open (`Rule.PortsAdded.eq`). Main statement:
`Compiler.dispatch_ports`.
-/

namespace Firewall

/-! ### Items, numeral by numeral -/

namespace Port

/-- Whether a numeral writes a number from 1 to 65535. -/
def inRange (a : Text) : Bool := 0 < Numeral.value 10 a && Numeral.value 10 a ≤ 65535

/-- The number of a numeral in decimal, without leading zeros. -/
def canonical (a : Text) : Text := Numeral.text 10 (Numeral.value 10 a)

theorem read_of_isDigits {a : Text} (h : IsDigits a) :
    inRange a = true ∧ (∃ p, Port.read a = .ok p ∧ p.text = canonical a) ∨
      inRange a = false ∧ Port.read a = .error (.invalidPort a) := by
  rw [Port.read, read?_of_isDigits h, ofNat?]
  by_cases hn : 0 < Numeral.value 10 a ∧ Numeral.value 10 a ≤ 65535
  · rw [dif_pos hn]
    exact .inl ⟨by simpa [inRange] using hn, _, rfl, rfl⟩
  · rw [dif_neg hn]
    exact .inr ⟨by simpa [inRange] using hn, rfl⟩

end Port

namespace PortSpan

/-- The numerals of an item, as they are written on the two sides of the mark or without one. -/
def numerals (i : Text) : List Text := i.splitOnP isMark

/-- The item in decimal, with a colon between the ends of a range. -/
def canonical (i : Text) : Text := [':'].intercalate ((numerals i).map Port.canonical)

/-- The first numeral of an item that is out of range. -/
def fault? (i : Text) : Option Text := (numerals i).find? fun a => !Port.inRange a

theorem numerals_single {a : Text} (ha : IsDigits a) : numerals a = [a] :=
  List.splitOnP_eq_singleton fun c hc => isMark_of_isDigit (ha.2 c hc)

theorem numerals_range {a b : Text} {m : Char} (ha : IsDigits a) (hm : m = ':' ∨ m = '-') (hb : IsDigits b) :
    numerals (a ++ m :: b) = [a, b] := by
  have h : numerals (a ++ m :: b) = numerals a ++ numerals b := List.splitOnP_append_cons a b (isMark_iff.2 hm)
  rw [h, numerals_single ha, numerals_single hb]
  rfl

/-- An item of the form of one is read as its numerals tell: in decimal if all of them are in range, else with
an error that names the first one that is not. -/
theorem read_of_form {i : Text} (h : ∃ ns, Form i ns) :
    fault? i = none ∧ (∃ s, PortSpan.read i = .ok s ∧ s.text = canonical i) ∨
      ∃ a, fault? i = some a ∧ PortSpan.read i = .error (.invalidPort a) := by
  obtain ⟨ns, h⟩ := h
  rcases h with ha | @⟨a, b, m, ha, hm, hb⟩
  · have hcut : i.cut? isMark = none :=
      Text.cut?_eq_none_iff.2 fun c hc => isMark_of_isDigit (ha.2 c hc)
    have hread : PortSpan.read i = do return single (← Port.read i) := by rw [PortSpan.read, hcut]
    rw [fault?, canonical, numerals_single ha, hread]
    rcases Port.read_of_isDigits ha with ⟨hin, p, hp, htext⟩ | ⟨hout, hp⟩
    · exact .inl ⟨by simp [hin], single p, by rw [hp]; rfl, by simp [text, htext]⟩
    · exact .inr ⟨i, by simp [hout], by rw [hp]; rfl⟩
  · have hcut : Text.cut? isMark (a ++ m :: b) = some (a, b) :=
      Text.cut?_eq_some_iff.2 ⟨m, isMark_iff.2 hm, fun c hc => isMark_of_isDigit (ha.2 c hc), rfl⟩
    have hread : PortSpan.read (a ++ m :: b) = do return range (← Port.read a) (← Port.read b) := by
      rw [PortSpan.read, hcut]
    rw [fault?, canonical, numerals_range ha hm hb, hread]
    rcases Port.read_of_isDigits ha with ⟨hina, p, hp, htexta⟩ | ⟨houta, hp⟩
    · rcases Port.read_of_isDigits hb with ⟨hinb, q, hq, htextb⟩ | ⟨houtb, hq⟩
      · refine .inl ⟨by simp [hina, hinb], range p q, by rw [hp, hq]; rfl, ?_⟩
        simp [text, htexta, htextb, List.intercalate_cons_cons]
      · exact .inr ⟨b, by simp [hina, houtb], by rw [hp, hq]; rfl⟩
    · exact .inr ⟨a, by simp [houta], by rw [hp]; rfl⟩

end PortSpan

namespace PortList
variable {l : Text}

/-- The items in range, in decimal. -/
def goodTexts (l : Text) : List Text := (l.items.filter fun i => (PortSpan.fault? i).isNone).map PortSpan.canonical

/-- For each item out of range the first numeral at fault. -/
def faults (l : Text) : List Text := l.items.filterMap PortSpan.fault?

/-- The first item out of range. -/
def firstBad? (l : Text) : Option Text := l.items.find? fun i => (PortSpan.fault? i).isSome

theorem map_text_goodItems (h : ∀ i ∈ l.items, ∃ ns, PortSpan.Form i ns) :
    (goodItems l).map PortSpan.text = goodTexts l := by
  rw [goodItems, goodTexts, List.map_filterMap, ← List.filterMap_eq_map, List.filterMap_filter]
  refine List.filterMap_congr fun i hi => ?_
  rcases PortSpan.read_of_form (h i hi) with ⟨hf, s, hs, htext⟩ | ⟨a, hf, hs⟩
  · simp [hf, hs, htext, Except.toOption]
  · simp [hf, hs, Except.toOption]

theorem badItems_eq (h : ∀ i ∈ l.items, ∃ ns, PortSpan.Form i ns) :
    badItems l = (faults l).map .invalidPort := by
  rw [badItems, faults, List.map_filterMap]
  refine List.filterMap_congr fun i hi => ?_
  rcases PortSpan.read_of_form (h i hi) with ⟨hf, s, hs, -⟩ | ⟨a, hf, hs⟩
  · simp [hf, hs]
  · simp [hf, hs]

/-- A lenient reader takes the items in range and fails only if there are none. -/
theorem read_lenient (h : ∀ i ∈ l.items, ∃ ns, PortSpan.Form i ns) :
    (PortList.read false l).map (List.map PortSpan.text) =
      if goodTexts l = [] then .error (.malformed .noPort) else .ok (goodTexts l) := by
  have hnil : goodTexts l = [] ↔ goodItems l = [] := by
    rw [← map_text_goodItems h, List.map_eq_nil_iff]
  rw [PortList.read, isPortList_iff.2 h]
  by_cases hg : goodItems l = []
  · simp [hg, hnil, Except.map]
  · simp [hg, hnil, Except.map, map_text_goodItems h]

/-- A strict reader fails at the first item out of range. -/
theorem read_strict (h : ∀ i ∈ l.items, ∃ ns, PortSpan.Form i ns) :
    (PortList.read true l).map (List.map PortSpan.text) =
      match firstBad? l with
      | some i => .error (.malformed (.badPort i))
      | none => .ok (goodTexts l) := by
  rw [PortList.read, isPortList_iff.2 h]
  simp only [Bool.not_true, Bool.false_eq_true, if_false, if_true]
  have hread : ∀ i ∈ l.items, PortSpan.fault? i = none → ∃ s, readStrict i = .ok s := by
    intro i hi hf
    rcases PortSpan.read_of_form (h i hi) with ⟨-, s, hs, -⟩ | ⟨a, hf', -⟩
    · exact exists_readStrict_iff.2 ⟨s, hs⟩
    · rw [hf] at hf'
      cases hf'
  rcases hbad : firstBad? l with _ | i
  · have hnone : ∀ i ∈ l.items, PortSpan.fault? i = none := by
      simpa [firstBad?, List.find?_eq_none] using hbad
    obtain ⟨ss, hss⟩ := exists_mapM_iff.2 fun i hi => hread i hi (hnone i hi)
    have hgood : ss = goodItems l := by
      rw [eq_filterMap_of_mapM hss, goodItems]
      simp only [toOption_readStrict]
    rw [hss]
    simp only [Except.map, hgood, map_text_goodItems h]
  · obtain ⟨hi, pre, post, hl, hpre⟩ := List.find?_eq_some_iff_append.1 hbad
    have hmem : i ∈ l.items := by simp [hl]
    have hfail : readStrict i = .error (.malformed (.badPort i)) := by
      rcases PortSpan.read_of_form (h i hmem) with ⟨hf, -⟩ | ⟨a, -, hs⟩
      · simp [hf] at hi
      · rw [readStrict, hs]
    have herror : l.items.mapM readStrict = .error (.malformed (.badPort i)) := by
      refine mapM_eq_error_iff.2 ⟨pre, i, post, hl, fun j hj => hread j (by simp [hl, hj]) ?_, hfail⟩
      simpa using hpre j hj
    rw [herror]
    rfl

end PortList

/-! ### Where the port list stands -/

/-- The place of the first protocol word among the next two words. -/
def overridePlace? (ws : List Text) : Option Nat := (ws.take 2).findIdx? fun w => decide (IsOverride w)

/-- The port list behind a port keyword: the second word if the first one names a protocol, else the first. -/
def portList? (ws : List Text) : Option Text := if overridePlace? ws = some 0 then ws[1]? else ws[0]?

/-- What the protocol word behind a port keyword asks for, if there is one. -/
def portChoice? (ws : List Text) : Option ProtocolChoice :=
  (overridePlace? ws).bind fun i => ws[i]?.bind ProtocolChoice.ofWord?

/-- The words behind a port clause: its port list is taken, and its protocol word if there is one. -/
def portRest (ws : List Text) : List Text := ws.drop (if (overridePlace? ws).isSome then 2 else 1)

section
variable {w p l : Text} {ws : List Text}

theorem overridePlace?_first (hw : IsOverride w) : overridePlace? (w :: ws) = some 0 := by
  simp [overridePlace?, List.findIdx?_cons, hw]

theorem overridePlace?_second (hl : ¬ IsOverride l) (hp : IsOverride p) : overridePlace? (l :: p :: ws) = some 1 := by
  simp [overridePlace?, List.findIdx?_cons, hl, hp]

theorem overridePlace?_absent (hl : ¬ IsOverride l) (hws : ∀ p, ws.head? = some p → ¬ IsOverride p) :
    overridePlace? (l :: ws) = none := by
  rcases ws with _ | ⟨p, ws⟩
  · simp [overridePlace?, List.findIdx?_cons, hl]
  · simp [overridePlace?, List.findIdx?_cons, hl, hws p rfl]

end

/-- The reader takes the port list and the protocol word from where they stand. -/
theorem Clause.read?_ports (e : Side) (ws : List Text) :
    ∃ p : ProtocolWord, p.choice? = portChoice? ws ∧
      Clause.read? (.ports e) ws = (portList? ws).map fun l => (.ports e p l, portRest ws) := by
  rcases ws with _ | ⟨w, ws⟩
  · exact ⟨.absent, rfl, rfl⟩
  by_cases hw : IsOverride w
  · have hplace : overridePlace? (w :: ws) = some 0 := overridePlace?_first hw
    refine ⟨.before w, by simp [ProtocolWord.choice?, portChoice?, hplace], ?_⟩
    rcases ws with _ | ⟨l, ws⟩ <;> simp [Clause.read?, isOverride_iff.1 hw, portList?, portRest, hplace]
  have hw' : isProtocolWord w = false := Bool.eq_false_iff.2 fun h => hw (isOverride_iff.2 h)
  by_cases hws : ∀ p, ws.head? = some p → ¬ IsOverride p
  · have hplace := overridePlace?_absent hw hws
    refine ⟨.absent, by simp [ProtocolWord.choice?, portChoice?, hplace], ?_⟩
    rcases ws with _ | ⟨p, ws⟩
    · simp [Clause.read?, hw', portList?, portRest, hplace]
    · have hp' : isProtocolWord p = false := Bool.eq_false_iff.2 fun h => hws p rfl (isOverride_iff.2 h)
      simp [Clause.read?, hw', hp', portList?, portRest, hplace]
  · push Not at hws
    obtain ⟨p, hhead, hp⟩ := hws
    obtain ⟨ws, rfl⟩ := List.head?_eq_some_iff.1 hhead
    have hplace : overridePlace? (w :: p :: ws) = some 1 := overridePlace?_second hw hp
    exact ⟨.after p, by simp [ProtocolWord.choice?, portChoice?, hplace],
      by simp [Clause.read?, hw', isOverride_iff.1 hp, portList?, portRest, hplace]⟩

/-! ### The rule that a port clause leaves -/

/-- The other end of a connection. -/
def Side.other : Side → Side
  | source => destination
  | destination => source

theorem Side.eq_or_eq_other (e e' : Side) : e' = e ∨ e' = e.other := by
  cases e <;> cases e' <;> simp [other]

namespace Rule
variable {e : Side} {choice : Option ProtocolChoice} {ts : List Text} {r r₁ r₂ : Rule}

/-- How the rule `r'` comes of `r` by a port clause. Its ports are put behind those that the rule has at that
end. A rule without a primary protocol gets one, TCP unless the clause asks for UDP alone, and a clause that asks
for both adds those that the rule does not have. All else stays as it is. -/
structure PortsAdded (r : Rule) (e : Side) (choice : Option ProtocolChoice) (ts : List Text) (r' : Rule) : Prop where
  ports : (r'.endpoint e).ports = (r.endpoint e).ports ++ ts
  networks : (r'.endpoint e).networks = (r.endpoint e).networks
  otherEnd : r'.endpoint e.other = r.endpoint e.other
  protocol : r'.protocol = some (r.protocol.getD (if choice = some (.one .udp) then .udp else .tcp))
  extraProtocols : r'.extraProtocols = r.extraProtocols ++
    if choice = some .both then
      [Protocol.tcp, .udp].filter fun p => r'.protocol ≠ some p ∧ p ∉ r.extraProtocols
    else []
  chain : r'.chain = r.chain
  extraChains : r'.extraChains = r.extraChains
  action : r'.action = r.action
  inInterfaces : r'.inInterfaces = r.inInterfaces
  outInterfaces : r'.outInterfaces = r.outInterfaces
  matchRules : r'.matchRules = r.matchRules

/-- There is only one such rule. -/
theorem PortsAdded.eq (h₁ : r.PortsAdded e choice ts r₁) (h₂ : r.PortsAdded e choice ts r₂) : r₁ = r₂ := by
  have hp : r₁.protocol = r₂.protocol := h₁.protocol.trans h₂.protocol.symm
  have hps : r₁.extraProtocols = r₂.extraProtocols := by rw [h₁.extraProtocols, h₂.extraProtocols, hp]
  have hend : ∀ e', r₁.endpoint e' = r₂.endpoint e' := by
    intro e'
    rcases e.eq_or_eq_other e' with rfl | rfl
    · exact Endpoint.ext (h₁.networks.trans h₂.networks.symm) (h₁.ports.trans h₂.ports.symm)
    · exact h₁.otherEnd.trans h₂.otherEnd.symm
  exact Rule.ext (h₁.chain.trans h₂.chain.symm) (h₁.extraChains.trans h₂.extraChains.symm)
    (h₁.action.trans h₂.action.symm) hp hps (hend .source) (hend .destination)
    (h₁.inInterfaces.trans h₂.inInterfaces.symm) (h₁.outInterfaces.trans h₂.outInterfaces.symm)
    (h₁.matchRules.trans h₂.matchRules.symm)

theorem portsAdded_addPorts (r : Rule) (e : Side) (choice : Option ProtocolChoice) (ts : List Text) :
    r.PortsAdded e choice ts ((r.chooseProtocol choice).addPorts e ts) := by
  have hps := r.extraProtocols_chooseProtocol choice
  obtain ⟨ps, heq⟩ := r.chooseProtocol_eq choice
  rw [heq] at hps ⊢
  cases e with
  | source => exact ⟨rfl, rfl, rfl, rfl, hps, rfl, rfl, rfl, rfl, rfl, rfl⟩
  | destination => exact ⟨rfl, rfl, rfl, rfl, hps, rfl, rfl, rfl, rfl, rfl, rfl⟩

end Rule

namespace Compiler

/-! ### A line, round by round -/

/-- One round of a line: a keyword takes its arguments off the words behind it and its clause is added to the
rule, which leaves a rule and the words that follow. -/
def dispatch (c : Compiler) (k : Keyword) (r : Rule) (ws : List Text) : Outcome (Rule × List Text) :=
  match Clause.read? k ws with
  | some (cl, rest) => do
    let r ← c.addClause r cl
    return (r, rest)
  | none => do
    Outcome.note [.clause k]
    Outcome.ofExcept (.error (.malformed (.missingArgument k)))

/-- Compiles the words of a line with the rule that the words in front of them have made. -/
def compileFrom (c : Compiler) (r : Rule) (ws : List Text) : Outcome (Option Ruleset) := do
  let r ← (Clause.sequence ws).1.foldlM c.addClause r
  conclude r (Clause.sequence ws).2

theorem compileWords_eq (c : Compiler) (ws : List Text) :
    c.compileWords ws = c.compileFrom (Rule.onChain c.chain) ws := rfl

/-- A line is compiled round by round. -/
theorem compileFrom_keyword (c : Compiler) (k : Keyword) (r : Rule) (ws : List Text) :
    c.compileFrom r (k.word :: ws) = c.dispatch k r ws >>= fun p => c.compileFrom p.1 p.2 := by
  rcases hr : Clause.read? k ws with _ | ⟨cl, rest⟩
  · simp only [compileFrom, dispatch, Clause.sequence_missing hr, hr]
    rfl
  · simp only [compileFrom, dispatch, Clause.sequence_cons hr, hr, List.foldlM_cons, bind_assoc, pure_bind]

/-! ### A port clause -/

theorem addClause_ports (c : Compiler) (r : Rule) (e : Side) (p : ProtocolWord) (l : Text) :
    c.addClause r (.ports e p l) =
      ⟨((PortList.read c.strict l).map (List.map PortSpan.text)).map fun ts =>
          (r.chooseProtocol p.choice?).addPorts e ts,
        .clause (.ports e) :: (PortList.skipped c.strict l).map .skippedPort⟩ := by
  refine Outcome.ext ?_ ?_
  · rw [result_addClause]
    rcases hl : PortList.read c.strict l with e | ss <;>
      simp [Clause.step, hl, Except.map, Step.apply, bind, Except.bind, pure, Except.pure]
  · rw [log_addClause]
    rcases hl : PortList.read c.strict l with e | ss <;>
      simp [Clause.step, Clause.skipped, Clause.keyword, hl, Step.events, Except.toOption, bind, Except.bind,
        pure, Except.pure]

variable {c : Compiler} {e : Side} {r : Rule} {ws : List Text} {l : Text}

theorem dispatch_of_portList?_eq_none (h : portList? ws = none) :
    c.dispatch (.ports e) r ws = ⟨.error (.malformed (.missingArgument (.ports e))), [.clause (.ports e)]⟩ := by
  obtain ⟨p, -, hread⟩ := Clause.read?_ports e ws
  rw [dispatch, hread, h]
  rfl

theorem dispatch_of_portList?_eq_some (h : portList? ws = some l) :
    c.dispatch (.ports e) r ws =
      ⟨((PortList.read c.strict l).map (List.map PortSpan.text)).map fun ts =>
          ((r.chooseProtocol (portChoice? ws)).addPorts e ts, portRest ws),
        .clause (.ports e) :: (PortList.skipped c.strict l).map .skippedPort⟩ := by
  obtain ⟨p, hchoice, hread⟩ := Clause.read?_ports e ws
  rw [dispatch, hread, h, ← hchoice]
  simp only [Option.map_some, addClause_ports, Outcome.bind_pure_eq_map, Outcome.map_eq]
  rcases PortList.read c.strict l with _ | _ <;> rfl

/-- A protocol word may stand in front of the port list or behind it. -/
theorem dispatch_exchange (c : Compiler) (e : Side) (r : Rule) {p l : Text} (hp : IsOverride p)
    (hl : ¬ IsOverride l) (rest : List Text) :
    c.dispatch (.ports e) r (p :: l :: rest) = c.dispatch (.ports e) r (l :: p :: rest) := by
  have hfirst : overridePlace? (p :: l :: rest) = some 0 := overridePlace?_first hp
  have hsecond : overridePlace? (l :: p :: rest) = some 1 := overridePlace?_second hl hp
  have hlist : portList? (p :: l :: rest) = some l := by simp [portList?, hfirst]
  have hlist' : portList? (l :: p :: rest) = some l := by simp [portList?, hsecond]
  rw [dispatch_of_portList?_eq_some hlist, dispatch_of_portList?_eq_some hlist']
  simp [portChoice?, portRest, hfirst, hsecond]

/-- A port clause, whatever the rule and the words behind the keyword are. Without a port list, or with one that
is not of that form, it fails and no port is skipped. A lenient compiler adds the items in range in decimal,
skips each other one with a warning that names the first numeral at fault, and fails only if no item is left. A
strict one fails at the first item out of range, and skips none. Where the clause succeeds, the ports stand behind
those that the rule has at that end, its protocols are chosen, and nothing else is touched; the port list is taken
and the protocol word if there is one, which may stand on either side of the list. -/
theorem dispatch_ports (c : Compiler) (e : Side) (r : Rule) (ws : List Text) :
    (∀ line, c.compileWords line = c.compileFrom (Rule.onChain c.chain) line) ∧
    c.compileFrom r ((Keyword.ports e).word :: ws) =
      (c.dispatch (.ports e) r ws >>= fun p => c.compileFrom p.1 p.2) ∧
    (portList? ws = none → c.dispatch (.ports e) r ws =
      ⟨.error (.malformed (.missingArgument (.ports e))), [.clause (.ports e)]⟩) ∧
    (∀ l, portList? ws = some l → (¬ ∀ i ∈ l.items, ∃ ns, PortSpan.Form i ns) →
      c.dispatch (.ports e) r ws = ⟨.error (.malformed (.badPortList l)), [.clause (.ports e)]⟩) ∧
    (∀ l, portList? ws = some l → (∀ i ∈ l.items, ∃ ns, PortSpan.Form i ns) → c.strict = false →
      ∃ r', r.PortsAdded e (portChoice? ws) (PortList.goodTexts l) r' ∧ c.dispatch (.ports e) r ws =
        ⟨if PortList.goodTexts l = [] then .error (.malformed .noPort) else .ok (r', portRest ws),
        .clause (.ports e) :: (PortList.faults l).map fun a => .skippedPort (.invalidPort a)⟩) ∧
    (∀ l, portList? ws = some l → (∀ i ∈ l.items, ∃ ns, PortSpan.Form i ns) → c.strict = true →
      ∃ r', r.PortsAdded e (portChoice? ws) (PortList.goodTexts l) r' ∧ c.dispatch (.ports e) r ws =
        ⟨match PortList.firstBad? l with
          | some i => .error (.malformed (.badPort i))
          | none => .ok (r', portRest ws),
        [.clause (.ports e)]⟩) ∧
    ∀ p l rest, IsOverride p → ¬ IsOverride l →
      c.dispatch (.ports e) r (p :: l :: rest) = c.dispatch (.ports e) r (l :: p :: rest) := by
  refine ⟨c.compileWords_eq, c.compileFrom_keyword _ r ws, dispatch_of_portList?_eq_none, fun l hl hform => ?_,
    fun l hl hform hs => ?_, fun l hl hform hs => ?_, fun p l rest hp hl => c.dispatch_exchange e r hp hl rest⟩
  · have hlist : PortList.isPortList l = false :=
      Bool.eq_false_iff.2 fun h => hform (PortList.isPortList_iff.1 h)
    rw [dispatch_of_portList?_eq_some hl]
    simp [PortList.read, PortList.skipped, hlist, Except.map]
  · have hlist : PortList.isPortList l = true := PortList.isPortList_iff.2 hform
    refine ⟨_, r.portsAdded_addPorts e _ _, ?_⟩
    rw [dispatch_of_portList?_eq_some hl, hs, PortList.read_lenient hform]
    by_cases hgood : PortList.goodTexts l = []
    · simp [PortList.skipped, hlist, PortList.badItems_eq hform, hgood, Except.map]
    · simp [PortList.skipped, hlist, PortList.badItems_eq hform, hgood, Except.map]
  · refine ⟨_, r.portsAdded_addPorts e _ _, ?_⟩
    rw [dispatch_of_portList?_eq_some hl, hs, PortList.read_strict hform]
    rcases PortList.firstBad? l with _ | i <;> simp [PortList.skipped, Except.map]

theorem dispatch_ports_mixed :
    let c : Compiler := ⟨.filter, "INPUT", false⟩
    let r : Rule := { chain := "INPUT", source := { ports := ["53"] }, destination := { ports := ["443"] } }
    let ws : List Text := ["007-80,9:70000,0,22", "UDP", "drop"]
    let us : List Text := ["Both", "80", "drop"]
    let udp : Rule :=
      { chain := "INPUT", protocol := some .udp
        source := { ports := ["53"] }, destination := { ports := ["443", "7:80", "22"] } }
    let both : Rule :=
      { chain := "INPUT", protocol := some .tcp, extraProtocols := [.udp]
        source := { ports := ["53", "80"] }, destination := { ports := ["443"] } }
    c.dispatch (.ports .destination) r ws = ⟨.ok (udp, ["drop"]),
      [.clause (.ports .destination), .skippedPort (.invalidPort "70000"), .skippedPort (.invalidPort "0")]⟩ ∧
    (c.withStrict true).dispatch (.ports .destination) r ws =
      ⟨.error (.malformed (.badPort "9:70000")), [.clause (.ports .destination)]⟩ ∧
    (c.withStrict true).dispatch (.ports .source) r us = ⟨.ok (both, ["drop"]), [.clause (.ports .source)]⟩ ∧
    c.dispatch (.ports .source) r ["tcp"] =
      ⟨.error (.malformed (.missingArgument (.ports .source))), [.clause (.ports .source)]⟩ ∧
    c.dispatch (.ports .source) r ["80,", "tcp"] =
      ⟨.error (.malformed (.badPortList "80,")), [.clause (.ports .source)]⟩ ∧
    c.dispatch (.ports .source) r us = c.dispatch (.ports .source) r ["80", "Both", "drop"] := by
  intro c r ws us udp both
  have hform : ∀ i ∈ Text.items "007-80,9:70000,0,22", ∃ ns, PortSpan.Form i ns :=
    PortList.isPortList_iff.1 (by decide +kernel)
  have hform' : ∀ i ∈ Text.items "80", ∃ ns, PortSpan.Form i ns := PortList.isPortList_iff.1 (by decide +kernel)
  have hbad : ¬ ∀ i ∈ Text.items "80,", ∃ ns, PortSpan.Form i ns :=
    fun h => absurd (PortList.isPortList_iff.2 h) (by decide +kernel)
  obtain ⟨-, -, -, -, hlenient, -, -⟩ := dispatch_ports c .destination r ws
  obtain ⟨-, -, -, -, -, hstrict, -⟩ := dispatch_ports (c.withStrict true) .destination r ws
  obtain ⟨-, -, -, -, -, hstrict', -⟩ := dispatch_ports (c.withStrict true) .source r us
  obtain ⟨-, -, hmissing, -, -, -, hexchange⟩ := dispatch_ports c .source r ["tcp"]
  obtain ⟨-, -, -, hlist, -, -, -⟩ := dispatch_ports c .source r ["80,", "tcp"]
  have hgood : PortList.goodTexts "007-80,9:70000,0,22" = (["7:80", "22"] : List Text) := by decide +kernel
  have hgood' : PortList.goodTexts "80" = (["80"] : List Text) := by decide +kernel
  have hfaults : PortList.faults "007-80,9:70000,0,22" = (["70000", "0"] : List Text) := by decide +kernel
  have hfirst : PortList.firstBad? "007-80,9:70000,0,22" = some ("9:70000" : Text) := by decide +kernel
  have hchoice : portChoice? ws = some (.one .udp) := by decide +kernel
  have hchoice' : portChoice? us = some .both := by decide +kernel
  obtain ⟨r₁, hr₁, hmended⟩ := hlenient _ (by decide +kernel) hform rfl
  obtain ⟨_, -, hrefused⟩ := hstrict _ (by decide +kernel) hform rfl
  obtain ⟨r₂, hr₂, haccepted⟩ := hstrict' _ (by decide +kernel) hform' rfl
  rw [hgood, hchoice] at hr₁
  rw [hgood', hchoice'] at hr₂
  rw [hgood, hfaults] at hmended
  rw [hfirst] at hrefused
  have hudp : r.PortsAdded .destination (some (.one .udp)) ["7:80", "22"] udp :=
    ⟨rfl, rfl, rfl, rfl, rfl, rfl, rfl, rfl, rfl, rfl, rfl⟩
  have hboth : r.PortsAdded .source (some .both) ["80"] both :=
    ⟨rfl, rfl, rfl, rfl, rfl, rfl, rfl, rfl, rfl, rfl, rfl⟩
  obtain rfl : r₁ = udp := hr₁.eq hudp
  obtain rfl : r₂ = both := hr₂.eq hboth
  exact ⟨hmended, hrefused, haccepted, hmissing (by decide +kernel), hlist _ (by decide +kernel) hbad,
    hexchange _ _ _ (by decide +kernel) (by decide +kernel)⟩

end Compiler

end Firewall
