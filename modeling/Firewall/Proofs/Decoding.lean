import Firewall.Proofs.Printing
import Firewall.Proofs.Restrictions
import Mathlib.Data.List.Infix

/-!
# Reading fragments back

A fragment is a row of settings, each a flag and one word behind it. The words of the flags form a
prefix code (`Setting.read?_words`), so the settings are found again whatever words the values are
(`Setting.readAll_words`), and with them the parts of the fragment. That takes values without spaces
and list items without commas, see `Parts.IsClean`. Main statement: `Parts.decode_text`.
-/

namespace Firewall

/-! ### Settings -/

/-- What a setting is about. -/
inductive Flag where
  | chain
  | interface (way : Way)
  | protocol
  | network (side : Side)
  | port (side : Side)
  | ports (side : Side)
  | states
  | target
deriving DecidableEq, Repr

namespace Flag

/-- The words in front of the value. -/
def words : Flag → List Text
  | chain => ["-A"]
  | interface .incoming => ["-i"]
  | interface .outgoing => ["-o"]
  | protocol => ["-p"]
  | network .source => ["-s"]
  | network .destination => ["-d"]
  | port .source => ["--sport"]
  | port .destination => ["--dport"]
  | ports .source => ["-m", "multiport", "--sports"]
  | ports .destination => ["-m", "multiport", "--dports"]
  | states => ["-m", "state", "--state"]
  | target => ["-j"]

def list : List Flag :=
  [chain, interface .incoming, interface .outgoing, protocol, network .source, network .destination,
    port .source, port .destination, ports .source, ports .destination, states, target]

end Flag

/-- A flag and its value, which is one word. -/
structure Setting where
  flag : Flag
  value : Text
deriving DecidableEq, Repr

namespace Setting

def words (o : Setting) : List Text := o.flag.words ++ [o.value]

/-- The setting that words begin with, and the words behind it. -/
def read? (ws : List Text) : Option (Setting × List Text) :=
  Flag.list.findSome? fun k =>
    match k.words.isPrefixOf? ws with
    | some (v :: rest) => some (⟨k, v⟩, rest)
    | _ => none

theorem read?_eq_some {ws rest : List Text} {o : Setting} (h : read? ws = some (o, rest)) :
    ws = o.words ++ rest := by
  obtain ⟨k, -, hk⟩ := List.exists_of_findSome?_eq_some h
  split at hk
  · next v rest' hp =>
    cases hk
    rw [words, List.append_assoc]
    exact (List.isPrefixOf?_eq_some_iff_append_eq.1 hp).symm
  · cases hk

/-- No flag begins like another, so the words of a setting tell where it ends. -/
theorem read?_words (o : Setting) (ws : List Text) : read? (o.words ++ ws) = some (o, ws) := by
  rcases o with ⟨_ | (_ | _) | _ | (_ | _) | (_ | _) | (_ | _) | _ | _, v⟩ <;> rfl

def readAll (ws : List Text) : Option (List Setting) :=
  if ws = [] then some []
  else
    match h : read? ws with
    | none => none
    | some (o, rest) =>
      have : rest.length < ws.length := by
        rw [read?_eq_some h, words, List.append_assoc, List.length_append, List.length_append]
        exact Nat.lt_add_left _ (Nat.lt_add_of_pos_left Nat.zero_lt_one)
      (readAll rest).map (o :: ·)
termination_by ws.length

theorem readAll_words (os : List Setting) : readAll (os.flatMap words) = some os := by
  induction os with
  | nil => rw [readAll, if_pos List.flatMap_nil]
  | cons o os ih =>
    have hne : o.words ++ os.flatMap words ≠ [] := by simp [words]
    rw [List.flatMap_cons, readAll, if_neg hne]
    split
    · next h =>
      rw [read?_words] at h
      cases h
    · next o' rest h =>
      rw [read?_words] at h
      cases h
      rw [ih]
      rfl

/-- The values of the settings with a flag, in order. -/
def values (k : Flag) (os : List Setting) : List Text :=
  os.filterMap fun o => if o.flag = k then some o.value else none

/-- The settings with one flag and each of the values. -/
def row (k : Flag) (vs : List Text) : List Setting := vs.map (mk k)

theorem values_row (k k' : Flag) (vs : List Text) :
    values k (row k' vs) = if k' = k then vs else [] := by
  by_cases h : k' = k <;> simp [values, row, List.filterMap_map, h]

theorem values_append (k : Flag) (os os' : List Setting) :
    values k (os ++ os') = values k os ++ values k os' := List.filterMap_append

end Setting

/-! ### The parts of a fragment -/

def Protocol.ofName? (t : Text) : Option Protocol := [tcp, udp].find? fun p => p.name == t

def Action.ofTarget? (t : Text) : Option Action := [allow, drop, reject].find? fun a => a.target == t

/-- What a fragment says, with the states of each match on the connection state as a list. -/
structure Parts where
  chain : Text
  inInterface : Option Text
  outInterface : Option Text
  protocol : Option Protocol
  source : Option Network
  destination : Option Network
  sourcePorts : List Text
  destinationPorts : List Text
  states : List (List Text)
  action : Action
deriving DecidableEq, Repr

namespace Parts

def fragment (p : Parts) : Fragment where
  chain := p.chain
  inInterface := p.inInterface
  outInterface := p.outInterface
  protocol := p.protocol
  source := p.source
  destination := p.destination
  sourcePorts := p.sourcePorts
  destinationPorts := p.destinationPorts
  matchRules := p.states.map stateMatch
  action := p.action

/-- The settings of ports: a single port by itself, several as a comma list. -/
def portSettings (e : Side) : List Text → List Setting
  | [] => []
  | [t] => Setting.row (.port e) [t]
  | ts => Setting.row (.ports e) [Text.ofItems ts]

/-- The settings in front of the states. -/
def front (p : Parts) : List Setting :=
  List.flatten [
    Setting.row .chain [p.chain],
    Setting.row (.interface .incoming) p.inInterface.toList,
    Setting.row (.interface .outgoing) p.outInterface.toList,
    Setting.row .protocol (p.protocol.map Protocol.name).toList,
    Setting.row (.network .source) (p.source.map Network.text).toList,
    Setting.row (.network .destination) (p.destination.map Network.text).toList,
    portSettings .source p.sourcePorts,
    portSettings .destination p.destinationPorts]

/-- The settings that say these parts. -/
def settings (p : Parts) : List Setting :=
  p.front ++ Setting.row .states (p.states.map Text.ofItems) ++ Setting.row .target [p.action.target]

def words (p : Parts) : List Text := p.settings.flatMap Setting.words

/-- The ports that settings say. -/
def portsOf (e : Side) (os : List Setting) : List Text :=
  Setting.values (.port e) os ++ (Setting.values (.ports e) os).flatMap Text.items

/-- The parts that settings say. -/
def ofSettings? (os : List Setting) : Option Parts := do
  return {
    chain := ← (Setting.values .chain os).head?
    inInterface := (Setting.values (.interface .incoming) os).head?
    outInterface := (Setting.values (.interface .outgoing) os).head?
    protocol := (Setting.values .protocol os).head?.bind Protocol.ofName?
    source := (Setting.values (.network .source) os).head?.bind Literal.readNetwork?
    destination := (Setting.values (.network .destination) os).head?.bind Literal.readNetwork?
    sourcePorts := portsOf .source os
    destinationPorts := portsOf .destination os
    states := (Setting.values .states os).map Text.items
    action := ← (Setting.values .target os).head?.bind Action.ofTarget? }

/-- The parts of the fragment that a text writes. -/
def decode (t : Text) : Option Parts := (Setting.readAll (t.splitOn ' ')).bind ofSettings?

end Parts

/-- Whether a text can stand as an item of a comma list that is one word. -/
def IsItem (t : Text) : Prop := ' ' ∉ t ∧ ',' ∉ t

namespace Parts

/-- The values of the parts are words and items of lists, and ports come with a protocol. -/
structure IsClean (p : Parts) : Prop where
  chain : ' ' ∉ p.chain
  inInterface : ∀ i ∈ p.inInterface.toList, ' ' ∉ i
  outInterface : ∀ i ∈ p.outInterface.toList, ' ' ∉ i
  sourcePorts : ∀ t ∈ p.sourcePorts, IsItem t
  destinationPorts : ∀ t ∈ p.destinationPorts, IsItem t
  protocol : p.protocol = none → p.sourcePorts = [] ∧ p.destinationPorts = []
  states : ∀ ts ∈ p.states, ts ≠ [] ∧ ∀ t ∈ ts, IsItem t

theorem values_portSettings {k : Flag} {e : Side} (h : k ≠ .port e) (h' : k ≠ .ports e)
    (ts : List Text) : Setting.values k (portSettings e ts) = [] := by
  match ts with
  | [] => rfl
  | [_] => simp [portSettings, Setting.values_row, Ne.symm h]
  | _ :: _ :: _ => simp [portSettings, Setting.values_row, Ne.symm h']

theorem portsOf_portSettings {e : Side} {ts : List Text} (h : ∀ t ∈ ts, IsItem t) :
    portsOf e (portSettings e ts) = ts := by
  match ts with
  | [] => rfl
  | [t] => simp [portsOf, portSettings, Setting.values_row]
  | t :: t' :: ts =>
    have hitems : (Text.ofItems (t :: t' :: ts)).items = t :: t' :: ts :=
      Text.items_ofItems (fun u hu => (h u hu).2) (by simp)
    simp [portsOf, portSettings, Setting.values_row, hitems]

theorem ofSettings?_settings {p : Parts} (h : p.IsClean) : ofSettings? p.settings = some p := by
  have hsource : portsOf .source p.settings = p.sourcePorts := by
    rw [← portsOf_portSettings (e := .source) h.sourcePorts]
    simp [portsOf, settings, front, Setting.values_append, Setting.values_row, values_portSettings]
  have hdestination : portsOf .destination p.settings = p.destinationPorts := by
    rw [← portsOf_portSettings (e := .destination) h.destinationPorts]
    simp [portsOf, settings, front, Setting.values_append, Setting.values_row, values_portSettings]
  have hstates : p.states.map (Text.items ∘ Text.ofItems) = p.states := by
    conv => rhs; rw [← List.map_id p.states]
    refine List.map_congr_left fun ts hts => ?_
    obtain ⟨hne, hitems⟩ := h.states ts hts
    exact Text.items_ofItems (fun t ht => (hitems t ht).2) hne
  have hprotocol : (p.protocol.map Protocol.name).bind Protocol.ofName? = p.protocol := by
    rcases p.protocol with _ | _ | _ <;> rfl
  have hnetwork : ∀ o : Option Network, (o.map Network.text).bind Literal.readNetwork? = o := by
    rintro (_ | n)
    · rfl
    · exact n.readNetwork?_text
  have haction : Action.ofTarget? p.action.target = some p.action := by
    cases p.action <;> rfl
  rw [ofSettings?, hsource, hdestination]
  simp [settings, front, Setting.values_append, Setting.values_row, values_portSettings, haction,
    hstates, hprotocol, hnetwork]

/-! ### The words of a fragment -/

theorem splitOn_intercalate_eq_flatMap {ws : List Text} (h : ws ≠ []) (x : Char) :
    ([x].intercalate ws).splitOn x = ws.flatMap (List.splitOn x) := by
  induction ws with
  | nil => exact absurd rfl h
  | cons w ws ih =>
    cases ws with
    | nil => simp
    | cons w' ws =>
      rw [List.intercalate_cons_cons, List.append_assoc, List.singleton_append,
        List.splitOn_append_cons_self, ih (List.cons_ne_nil w' ws)]
      rfl

theorem flatMap_splitOn_eq_self {ws : List Text} {x : Char} (h : ∀ w ∈ ws, x ∉ w) :
    ws.flatMap (List.splitOn x) = ws := by
  induction ws with
  | nil => rfl
  | cons w ws ih =>
    rw [List.forall_mem_cons] at h
    rw [List.flatMap_cons, List.splitOn_eq_singleton h.1, ih h.2, List.singleton_append]

theorem flagged_eq {k : Flag} {flag : Text} (hk : k.words = [flag]) (o : Option Text) :
    Fragment.flagged flag o = (Setting.row k o.toList).flatMap Setting.words := by
  cases o <;> simp [Fragment.flagged, Setting.row, Setting.words, hk]

theorem portWords_eq (e : Side) (flag : Text) (h : (Flag.port e).words = ["--" ++ flag])
    (h' : (Flag.ports e).words = ["-m".toList, "multiport", "--" ++ flag ++ "s"]) (ts : List Text) :
    Fragment.portWords flag ts = (portSettings e ts).flatMap Setting.words := by
  match ts with
  | [] => rfl
  | [_] => simp [Fragment.portWords, portSettings, Setting.row, Setting.words, h]
  | _ :: _ :: _ =>
    simp [Fragment.portWords, portSettings, Setting.row, Setting.words, h', Text.ofItems,
      intercalate_cons_eq_append]

theorem words_fragment {p : Parts} (h : p.IsClean) :
    p.fragment.words = p.front.flatMap Setting.words ++
      p.states.map stateMatch ++ Setting.words ⟨.target, p.action.target⟩ := by
  have hlayout : p.fragment.words = p.fragment.layout p.sourcePorts p.destinationPorts := by
    rw [Fragment.words_eq_layout]
    cases hp : p.protocol with
    | none =>
      obtain ⟨hs, hd⟩ := h.protocol hp
      simp [fragment, hp, hs, hd]
    | some q => simp [fragment, hp]
  rw [hlayout]
  simp only [Fragment.layout, Fragment.networkWords, fragment]
  rw [flagged_eq (k := .interface .incoming) rfl, flagged_eq (k := .interface .outgoing) rfl,
    flagged_eq (k := .protocol) rfl, flagged_eq (k := .network .source) rfl,
    flagged_eq (k := .network .destination) rfl, portWords_eq .source "sport" rfl rfl,
    portWords_eq .destination "dport" rfl rfl]
  simp only [front, List.flatten_cons, List.flatten_nil, List.flatMap_append, List.append_assoc,
    List.append_nil]
  rfl

theorem space_notMem_ofItems {ts : List Text} (h : ∀ t ∈ ts, IsItem t) : ' ' ∉ Text.ofItems ts := by
  intro hs
  rcases eq_or_exists_mem_of_mem_intercalate hs with hs | ⟨t, ht, hs⟩
  · cases hs
  · exact (h t ht).1 hs

theorem space_notMem_portSettings {e : Side} {ts : List Text} (h : ∀ t ∈ ts, IsItem t) :
    ∀ o ∈ portSettings e ts, ' ' ∉ o.value := by
  match ts with
  | [] => simp [portSettings]
  | [t] => simpa [portSettings, Setting.row] using (h t (by simp)).1
  | t :: t' :: ts => simpa [portSettings, Setting.row] using space_notMem_ofItems h

theorem space_notMem_networkText (n : Network) : ' ' ∉ n.text :=
  fun hs => absurd (Network.mem_text hs) (by decide)

theorem space_notMem_row {k : Flag} {vs : List Text} :
    (∀ o ∈ Setting.row k vs, ' ' ∉ o.value) ↔ ∀ v ∈ vs, ' ' ∉ v := by simp [Setting.row]

/-- Each value is one word. -/
theorem space_notMem_value {p : Parts} (h : p.IsClean) : ∀ o ∈ p.settings, ' ' ∉ o.value := by
  have hprotocol : ∀ q : Protocol, ' ' ∉ q.name := by
    intro q
    cases q <;> decide
  have htarget : ' ' ∉ p.action.target := by
    cases p.action <;> decide
  have hstates : ∀ ts ∈ p.states, ' ' ∉ Text.ofItems ts := fun ts hts =>
    space_notMem_ofItems (h.states ts hts).2
  simp only [settings, front, List.flatten_cons, List.flatten_nil, List.append_nil,
    List.forall_mem_append, space_notMem_row]
  refine ⟨⟨⟨by simpa using h.chain, h.inInterface, h.outInterface, ?_, ?_, ?_,
    space_notMem_portSettings h.sourcePorts, space_notMem_portSettings h.destinationPorts⟩,
    by simpa using hstates⟩, by simpa using htarget⟩
  · simp [hprotocol]
  · simp [space_notMem_networkText]
  · simp [space_notMem_networkText]

theorem space_notMem_words {o : Setting} (h : ' ' ∉ o.value) : ∀ w ∈ o.words, ' ' ∉ w := by
  have hflag : ∀ k : Flag, ∀ w ∈ k.words, ' ' ∉ w := by
    rintro (_ | (_ | _) | _ | (_ | _) | (_ | _) | (_ | _) | _ | _) <;> decide
  intro w hw
  rcases List.mem_append.1 hw with hw | hw
  · exact hflag o.flag w hw
  · rw [List.mem_singleton.1 hw]
    exact h

/-- A match on the state is not one word but four. -/
theorem splitOn_stateMatch {ts : List Text} (h : ∀ t ∈ ts, IsItem t) :
    (stateMatch ts).splitOn ' ' = Setting.words ⟨.states, Text.ofItems ts⟩ := by
  have hspace : ' ' ∉ Text.ofItems ts := space_notMem_ofItems h
  have hjoin : stateMatch ts = [' '].intercalate (Setting.words ⟨.states, Text.ofItems ts⟩) := by
    simp only [Setting.words, Flag.words, List.cons_append, List.nil_append,
      List.intercalate_cons_cons, List.intercalate_singleton]
    rfl
  rw [hjoin]
  exact List.splitOn_intercalate ' ' (space_notMem_words hspace) (by simp [Setting.words])

theorem splitOn_text {p : Parts} (h : p.IsClean) : p.fragment.text.splitOn ' ' = p.words := by
  have hvalue := space_notMem_value h
  rw [settings, List.forall_mem_append, List.forall_mem_append] at hvalue
  obtain ⟨⟨hfront, -⟩, htarget⟩ := hvalue
  have hwords : ∀ w ∈ p.front.flatMap Setting.words, ' ' ∉ w := by
    intro w hw
    obtain ⟨o, ho, hw⟩ := List.mem_flatMap.1 hw
    exact space_notMem_words (hfront o ho) w hw
  have hstates : (p.states.map stateMatch).flatMap (List.splitOn ' ') =
      (Setting.row .states (p.states.map Text.ofItems)).flatMap Setting.words := by
    rw [Setting.row, List.map_map, List.flatMap_map, List.flatMap_map]
    exact List.flatMap_congr fun ts hts => splitOn_stateMatch (h.states ts hts).2
  have hne : p.fragment.words ≠ [] := by
    rw [words_fragment h]
    exact List.append_ne_nil_of_right_ne_nil _ (List.append_ne_nil_of_right_ne_nil _ (by simp))
  rw [Fragment.text, splitOn_intercalate_eq_flatMap hne, words_fragment h, List.flatMap_append,
    List.flatMap_append, flatMap_splitOn_eq_self hwords, hstates,
    flatMap_splitOn_eq_self (space_notMem_words (htarget _ (by simp [Setting.row])))]
  simp [words, settings, Setting.row]

theorem decode_text {p : Parts} (h : p.IsClean) : decode p.fragment.text = some p := by
  rw [decode, splitOn_text h, words, Setting.readAll_words]
  exact ofSettings?_settings h

-- values that look like flags, and an empty one
example :
    let p : Parts := ⟨"FORWARD", some "-j".toList, some [], none, none, none, [], [], [["NEW", "-s"]],
      .drop⟩
    decode "-A FORWARD -i -j -o  -m state --state NEW,-s -j DROP" = some p := by decide +kernel

end Parts

end Firewall
