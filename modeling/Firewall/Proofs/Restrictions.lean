import Firewall.Proofs.Contents

/-!
# What every fragment restricts

A fragment restricts the networks of an end with `-s` or `-d`, and ports beside a protocol only.
`networkWords_eq_nil_iff` tells from the rule where a fragment of its filter goes without networks,
`widens_iff` reads the warning of a rule off its fragments, and `words_eq_of_mem` shows that a rule
with ports always has a protocol to match them with. The two main statements hold for lines: no
restriction to networks is dropped without a warning (`widened_mem_warnings_iff`), and none to ports
at all (`ports_of_mem_lineFragments`).
-/

namespace Firewall

namespace Fragment

/-- The words of a fragment on the networks at one end, if it restricts them. -/
def networkWords (g : Fragment) : Side → List Text
  | .source => flagged "-s" (g.source.map Network.text)
  | .destination => flagged "-d" (g.destination.map Network.text)

/-- The words that match ports: `--FLAG P` for one port, `-m multiport --FLAGs P,Q,R` for more, with a comma in
front of each port but the first. -/
def portWords (flag : Text) : List Text → List Text
  | [] => []
  | [p] => ["--" ++ flag, p]
  | p :: ps => ["-m", "multiport", "--" ++ flag ++ "s", p ++ ps.flatMap (',' :: ·)]

theorem portMatch_eq_portWords (flag : Text) (ps : List Text) : portMatch flag ps = portWords flag ps := by
  match ps with
  | [] => rfl
  | [_] => rfl
  | p :: q :: ps => simp [portMatch, portWords, Text.ofItems, intercalate_cons_eq_append]

theorem portWords_ne_nil_iff {flag : Text} {ps : List Text} : portWords flag ps ≠ [] ↔ ps ≠ [] := by
  match ps with
  | [] => simp [portWords]
  | [_] => simp [portWords]
  | _ :: _ :: _ => simp [portWords]

/-- The words of a fragment, part by part, with matches on the given ports of the two ends. -/
def layout (g : Fragment) (sourcePorts destinationPorts : List Text) : List Text :=
  List.flatten [
    ["-A", g.chain],
    flagged "-i" g.inInterface,
    flagged "-o" g.outInterface,
    flagged "-p" (g.protocol.map Protocol.name),
    g.networkWords .source,
    g.networkWords .destination,
    portWords "sport" sourcePorts,
    portWords "dport" destinationPorts,
    g.matchRules,
    ["-j", g.action.target]]

/-- Only the ports depend on whether the fragment has a protocol. -/
theorem words_eq_layout (g : Fragment) :
    g.words = if g.protocol.isSome then g.layout g.sourcePorts g.destinationPorts
      else g.layout [] [] := by
  simp only [words, layout, portMatch_eq_portWords]
  cases g.protocol <;> rfl

theorem exists_words_eq (g : Fragment) : ∃ ps qs, g.words = g.layout ps qs := by
  rw [words_eq_layout]
  split
  · exact ⟨_, _, rfl⟩
  · exact ⟨_, _, rfl⟩

end Fragment

theorem eq_none_iff_of_mem_orAbsent {α : Type} {l : List α} {o : Option α} (h : o ∈ orAbsent l) :
    o = none ↔ l = [] := by
  cases l with
  | nil => simpa [orAbsent] using h
  | cons a l =>
    obtain ⟨b, -, rfl⟩ := List.mem_map.1 h
    simp

theorem some_mem_orAbsent_iff {α : Type} {l : List α} {a : α} : some a ∈ orAbsent l ↔ a ∈ l := by
  cases l <;> simp [orAbsent]

theorem orAbsent_ne_nil {α : Type} (l : List α) : orAbsent l ≠ [] := by
  cases l <;> simp [orAbsent]

namespace Rule
variable {r : Rule} {f : Family} {g : Fragment}

/-! ### The fragments of a rule -/

theorem mem_fragments {o : Option Family} :
    g ∈ r.fragments o ↔ ∃ c ∈ r.chains, ∃ p ∈ r.protocols,
      ∃ s ∈ orAbsent (r.source.networks.select o), ∃ d ∈ orAbsent (r.destination.networks.select o),
        ∃ i ∈ orAbsent r.inInterfaces, ∃ j ∈ orAbsent r.outInterfaces, r.fragment c p s d i j = g := by
  simp only [fragments, List.mem_flatMap, List.mem_map]

theorem exists_mem_fragments (r : Rule) (o : Option Family) : ∃ g, g ∈ r.fragments o := by
  have hp : ∃ p, p ∈ r.protocols := by
    unfold protocols
    split <;> exact ⟨_, List.mem_cons_self⟩
  obtain ⟨p, hp⟩ := hp
  obtain ⟨s, hs⟩ := List.exists_mem_of_ne_nil _ (orAbsent_ne_nil (r.source.networks.select o))
  obtain ⟨d, hd⟩ := List.exists_mem_of_ne_nil _ (orAbsent_ne_nil (r.destination.networks.select o))
  obtain ⟨i, hi⟩ := List.exists_mem_of_ne_nil _ (orAbsent_ne_nil r.inInterfaces)
  obtain ⟨j, hj⟩ := List.exists_mem_of_ne_nil _ (orAbsent_ne_nil r.outInterfaces)
  have hc : r.chain ∈ r.chains := List.mem_eraseDups.2 List.mem_cons_self
  exact ⟨_, mem_fragments.2 ⟨r.chain, hc, p, hp, s, hs, d, hd, i, hi, j, hj, rfl⟩⟩

theorem networkWords_eq_nil_of_mem {o : Option Family} (hg : g ∈ r.fragments o) (e : Side) :
    g.networkWords e = [] ↔ (r.endpoint e).networks.select o = [] := by
  obtain ⟨c, -, p, -, s, hs, d, hd, i, -, j, -, rfl⟩ := mem_fragments.1 hg
  cases e with
  | source =>
    show Fragment.flagged "-s" (s.map Network.text) = [] ↔ r.source.networks.select o = []
    rw [← eq_none_iff_of_mem_orAbsent hs]
    cases s <;> simp [Fragment.flagged]
  | destination =>
    show Fragment.flagged "-d" (d.map Network.text) = [] ↔ r.destination.networks.select o = []
    rw [← eq_none_iff_of_mem_orAbsent hd]
    cases d <;> simp [Fragment.flagged]

/-! ### Networks -/

theorem uses_iff : r.uses f = true ↔ ∃ e, (r.endpoint e).networks.ofFamily f ≠ [] := by
  unfold uses
  simp only [Bool.or_eq_true, decide_eq_true_eq, ne_eq]
  constructor
  · rintro (h | h)
    · exact ⟨.source, h⟩
    · exact ⟨.destination, h⟩
  · rintro ⟨_ | _, h⟩
    · exact .inl h
    · exact .inr h

/-- A filter gets fragments unless the rule has networks, but none of its family. -/
theorem exists_mem_fragmentsFor :
    (∃ g, g ∈ r.fragmentsFor f) ↔ (r.uses f.other = true → r.uses f = true) := by
  unfold fragmentsFor
  cases r.uses f with
  | true => simpa using r.exists_mem_fragments (some f)
  | false =>
    cases r.uses f.other with
    | true => simp
    | false => simpa using r.exists_mem_fragments none

/-- A fragment for a family goes without networks at an end where the rule has none of the family. -/
theorem networkWords_eq_nil_iff (hg : g ∈ r.fragmentsFor f) (e : Side) :
    g.networkWords e = [] ↔ (r.endpoint e).networks.ofFamily f = [] := by
  unfold fragmentsFor at hg
  split at hg
  · exact networkWords_eq_nil_of_mem hg e
  · next hf =>
    split at hg
    · cases hg
    · next ho =>
      -- no network at all: both sides hold
      have hnone : ∀ f', (r.endpoint e).networks.ofFamily f' = [] := by
        intro f'
        by_contra hne
        rcases f.eq_or_eq_other f' with rfl | rfl
        · exact hf (uses_iff.2 ⟨e, hne⟩)
        · exact ho (uses_iff.2 ⟨e, hne⟩)
      have hsel : (r.endpoint e).networks.select none = [] :=
        List.append_eq_nil_iff.2 ⟨hnone .v4, hnone .v6⟩
      exact iff_of_true ((networkWords_eq_nil_of_mem hg e).2 hsel) (hnone f)

theorem widens_iff' : r.widens = true ↔ ∃ f e, r.uses f = true ∧
    (r.endpoint e).networks.ofFamily f = [] ∧ (r.endpoint e).networks.ofFamily f.other ≠ [] := by
  have hl : ∀ f, (r.lacks f .source || r.lacks f .destination) = true ↔ ∃ e,
      (r.endpoint e).networks.ofFamily f = [] ∧ (r.endpoint e).networks.ofFamily f.other ≠ [] := by
    intro f
    simp only [lacks, Bool.or_eq_true, Bool.and_eq_true, decide_eq_true_eq]
    constructor
    · rintro (h | h)
      · exact ⟨.source, h⟩
      · exact ⟨.destination, h⟩
    · rintro ⟨_ | _, h⟩
      · exact .inl h
      · exact .inr h
  unfold widens
  simp only [List.any_eq_true, Bool.and_eq_true, hl]
  constructor
  · rintro ⟨f, -, hu, e, he⟩
    exact ⟨f, e, hu, he⟩
  · rintro ⟨f, e, hu, he⟩
    exact ⟨f, by cases f <;> simp, hu, e, he⟩

/-- A rule widens if and only if a fragment of it goes without networks at an end where the rule has
some. -/
theorem widens_iff : r.widens = true ↔ ∃ f, ∃ g ∈ r.fragmentsFor f, ∃ e,
    g.networkWords e = [] ∧ ∃ f', (r.endpoint e).networks.ofFamily f' ≠ [] := by
  rw [widens_iff']
  constructor
  · rintro ⟨f, e, hu, hnil, hne⟩
    obtain ⟨g, hg⟩ := exists_mem_fragmentsFor.2 fun _ => hu
    exact ⟨f, g, hg, e, (networkWords_eq_nil_iff hg e).2 hnil, f.other, hne⟩
  · rintro ⟨f, g, hg, e, hw, f', hne⟩
    have hnil := (networkWords_eq_nil_iff hg e).1 hw
    rcases f.eq_or_eq_other f' with rfl | rfl
    · exact absurd hnil hne
    · exact ⟨f, e, exists_mem_fragmentsFor.1 ⟨g, hg⟩ (uses_iff.2 ⟨e, hne⟩), hnil, hne⟩

/-! ### Ports -/

theorem protocol_eq_none_iff {o : Option Family} (hg : g ∈ r.fragments o) :
    g.protocol = none ↔ r.protocol = none := by
  obtain ⟨c, -, p, hp, s, -, d, -, i, -, j, -, rfl⟩ := mem_fragments.1 hg
  show p = none ↔ r.protocol = none
  unfold protocols at hp
  split at hp
  · next q hq =>
    obtain ⟨q', -, rfl⟩ := List.mem_map.1 hp
    simp [hq]
  · next hq => simpa [hq] using hp

theorem mem_fragments_of_mem_fragmentsFor (hg : g ∈ r.fragmentsFor f) : ∃ o, g ∈ r.fragments o := by
  unfold fragmentsFor at hg
  split at hg
  · exact ⟨_, hg⟩
  · split at hg
    · cases hg
    · exact ⟨_, hg⟩

/-- Where a rule has a protocol as soon as it has ports, its fragments match all of its ports. -/
theorem words_eq_of_mem {o : Option Family} (hg : g ∈ r.fragments o)
    (hp : r.protocol = none → r.source.ports = [] ∧ r.destination.ports = []) :
    g.words = g.layout r.source.ports r.destination.ports := by
  have hnone := protocol_eq_none_iff hg
  obtain ⟨c, -, p, -, s, -, d, -, i, -, j, -, rfl⟩ := mem_fragments.1 hg
  rw [Fragment.words_eq_layout]
  cases p with
  | some q => rfl
  | none =>
    obtain ⟨hs, hd⟩ := hp (hnone.1 rfl)
    rw [hs, hd]
    rfl

end Rule

namespace Compiler
variable {c : Compiler} {line : Text} {r : Rule}

/-! ### The clauses behind a restriction -/

theorem hasClause_addresses_iff (hr : (c.rule line.clauses).result = .ok r) (e : Side) :
    line.HasClause (.addresses e) ↔ ∃ f, (r.endpoint e).networks.ofFamily f ≠ [] := by
  simp only [(says_of_rule hr).networks]
  constructor
  · rintro ⟨cl, hcl, hk⟩
    obtain ⟨s, hs⟩ := asks_of_rule hr hcl
    cases hs with
    | @addresses e' t ns hn =>
      obtain rfl : e' = e := by simpa [Clause.keyword] using hk
      obtain ⟨hns, hne⟩ := Network.readAll_eq_ok hn
      obtain ⟨n, hmem⟩ := List.exists_mem_of_ne_nil _ hne
      refine ⟨n.family, List.ne_nil_of_mem (a := n) (List.mem_flatMap.2 ⟨_, hcl, ?_⟩)⟩
      simpa [Clause.networksAt, ← hns] using hmem
    | _ => simp [Clause.keyword] at hk
  · rintro ⟨f, hne⟩
    obtain ⟨n, hn⟩ := List.exists_mem_of_ne_nil _ hne
    obtain ⟨cl, hcl, hn⟩ := List.mem_flatMap.1 hn
    refine ⟨cl, hcl, ?_⟩
    unfold Clause.networksAt at hn
    split at hn
    · split at hn
      · next he => simp [Clause.keyword, he]
      · cases hn
    · cases hn

theorem hasClause_ports_iff (hr : (c.rule line.clauses).result = .ok r) (e : Side) :
    line.HasClause (.ports e) ↔ line.clauses.flatMap (Clause.portTexts e) ≠ [] := by
  constructor
  · rintro ⟨cl, hcl, hk⟩
    obtain ⟨s, hs⟩ := asks_of_rule hr hcl
    cases hs with
    | @ports e' p l ss hp =>
      obtain rfl : e' = e := by simpa [Clause.keyword] using hk
      obtain ⟨hss, hne⟩ := PortList.read_eq_ok hp
      obtain ⟨x, hmem⟩ := List.exists_mem_of_ne_nil _ hne
      refine List.ne_nil_of_mem (a := x.text) (List.mem_flatMap.2 ⟨_, hcl, ?_⟩)
      simpa [Clause.portTexts, ← hss] using ⟨x, hmem, rfl⟩
    | _ => simp [Clause.keyword] at hk
  · intro hne
    obtain ⟨x, hx⟩ := List.exists_mem_of_ne_nil _ hne
    obtain ⟨cl, hcl, hx⟩ := List.mem_flatMap.1 hx
    refine ⟨cl, hcl, ?_⟩
    unfold Clause.portTexts at hx
    split at hx
    · split at hx
      · next he => simp [Clause.keyword, he]
      · cases hx
    · cases hx

/-- The rule of a line has a protocol as soon as the line has a port clause. -/
theorem protocol_ne_none_iff (hr : (c.rule line.clauses).result = .ok r) :
    r.protocol ≠ none ↔ ∃ e, line.HasClause (.ports e) := by
  rw [(says_of_rule hr).protocol, ne_eq, List.head?_eq_none_iff, ← List.isEmpty_iff,
    Bool.not_eq_true, List.isEmpty_eq_false_iff_exists_mem]
  simp only [List.mem_filterMap]
  constructor
  · rintro ⟨p, cl, hcl, hp⟩
    unfold Clause.protocol? at hp
    split at hp
    · next e w l => exact ⟨e, _, hcl, rfl⟩
    · cases hp
  · rintro ⟨e, cl, hcl, hk⟩
    cases cl with
    | ports e' w l => exact ⟨_, _, hcl, Clause.protocol?_ports e' w l⟩
    | _ => simp [Clause.keyword] at hk

theorem ports_eq_nil_of_protocol_eq_none (hr : (c.rule line.clauses).result = .ok r)
    (hp : r.protocol = none) (e : Side) : (r.endpoint e).ports = [] := by
  by_contra hne
  rw [(says_of_rule hr).ports e, ← ne_eq, ← hasClause_ports_iff hr e] at hne
  exact (protocol_ne_none_iff hr).2 ⟨e, hne⟩ hp

/-! ### The fragments of a line -/

theorem lineFragments_of_ne_nil (hr : (c.rule line.clauses).result = .ok r) (hcs : line.clauses ≠ [])
    (f : Family) : c.lineFragments line f = r.fragmentsFor f := by
  rw [lineFragments_eq hr, if_neg hcs]

theorem lineFragments_of_eq_nil (hcs : line.clauses = []) (f : Family) :
    c.lineFragments line f = [] := by
  unfold lineFragments
  split
  · rw [if_pos hcs]
  · rfl

theorem exists_rule_of_mem_lineFragments {f : Family} {g : Fragment} (hg : g ∈ c.lineFragments line f) :
    ∃ r o, (c.rule line.clauses).result = .ok r ∧ g ∈ r.fragments o := by
  unfold lineFragments at hg
  split at hg
  · next r hr =>
    split at hg
    · cases hg
    · obtain ⟨o, hg⟩ := Rule.mem_fragments_of_mem_fragmentsFor hg
      exact ⟨r, o, hr, hg⟩
  · cases hg

/-- A line warns, once and last, if and only if a fragment of it goes without networks at an end that
the line has an address clause for. Without the warning every fragment restricts the networks of just
those ends. -/
theorem widened_mem_warnings_iff (c : Compiler) (line : Text) {out : Ruleset}
    (h : (c.compileLine line).result = .ok (some out)) :
    (∀ f, out.ofFamily f = (c.lineFragments line f).map Fragment.text ∧
      ∀ g ∈ c.lineFragments line f, ∃ ps qs, g.words = g.layout ps qs) ∧
    (Event.widened ∈ (c.compileLine line).warnings ↔
      ∃ f, ∃ g ∈ c.lineFragments line f, ∃ e,
        g.networkWords e = [] ∧ line.HasClause (.addresses e)) ∧
    (Event.widened ∈ (c.compileLine line).warnings →
      (c.compileLine line).warnings.count .widened = 1 ∧
        (c.compileLine line).warnings.getLast? = some .widened) ∧
    (Event.widened ∉ (c.compileLine line).warnings →
      ∀ f, ∀ g ∈ c.lineFragments line f, ∀ e,
        g.networkWords e ≠ [] ↔ line.HasClause (.addresses e)) := by
  refine ⟨fun f => ⟨ofFamily_eq_map_text h f, fun g _ => g.exists_words_eq⟩, ?_⟩
  obtain ⟨-, r, hr, -⟩ := compileLine_eq_some_iff.1 h
  by_cases hcs : line.clauses = []
  · simp [warnings_of_clauses_eq_nil h hcs, lineFragments_of_eq_nil hcs]
  -- the rule of the line stands between its clauses and its fragments
  obtain ⟨es, hes, hw⟩ := exists_warnings_eq h hcs hr
  have hmem : Event.widened ∈ (c.compileLine line).warnings ↔ r.widens = true := by
    rw [hw]
    cases r.widens <;> simp [hes]
  simp only [hmem, hasClause_addresses_iff hr, lineFragments_of_ne_nil hr hcs]
  refine ⟨Rule.widens_iff, fun hr' => ?_, fun hr' f g hg e => ⟨fun hne => ?_, fun he hnil => ?_⟩⟩
  · rw [hw, if_pos hr', List.count_append, List.count_eq_zero.2 hes]
    simp
  · exact ⟨f, fun hnil => hne ((Rule.networkWords_eq_nil_iff hg e).2 hnil)⟩
  · exact hr' (Rule.widens_iff.2 ⟨f, g, hg, e, hnil, he⟩)

theorem widened_mem_warnings_mixed :
    let c : Compiler := ⟨.filter, "INPUT", false⟩
    let line : Text := "allow from 10.0.0.0/8 to ::1"
    (c.compileLine line).result =
        .ok (some ⟨["-A INPUT -s 10.0.0.0/8 -j ACCEPT"], ["-A INPUT -d ::1/128 -j ACCEPT"]⟩) ∧
      Event.widened ∈ (c.compileLine line).warnings ∧
      ∃ f, ∃ g ∈ c.lineFragments line f, ∃ e,
        g.networkWords e = [] ∧ line.HasClause (.addresses e) := by
  intro c line
  have h : (c.compileLine line).result =
      .ok (some ⟨["-A INPUT -s 10.0.0.0/8 -j ACCEPT"], ["-A INPUT -d ::1/128 -j ACCEPT"]⟩) := by
    decide +kernel
  have hw : Event.widened ∈ (c.compileLine line).warnings := by decide +kernel
  exact ⟨h, hw, (widened_mem_warnings_iff c line h).2.1.1 hw⟩

/-- Every fragment of a line matches just the ports that the port clauses of the line ask for, all of
them and in order, and names a protocol if and only if there is such a clause. -/
theorem ports_of_mem_lineFragments (c : Compiler) (line : Text) {out : Ruleset}
    (h : (c.compileLine line).result = .ok (some out)) :
    (∀ f, out.ofFamily f = (c.lineFragments line f).map Fragment.text) ∧
    ∀ f, ∀ g ∈ c.lineFragments line f,
      g.words = g.layout (line.clauses.flatMap (Clause.portTexts .source))
        (line.clauses.flatMap (Clause.portTexts .destination)) ∧
      (Fragment.flagged "-p" (g.protocol.map Protocol.name) ≠ [] ↔
        ∃ e, line.HasClause (.ports e)) ∧
      ∀ flag e, Fragment.portWords flag (line.clauses.flatMap (Clause.portTexts e)) ≠ [] ↔
        line.HasClause (.ports e) := by
  refine ⟨fun f => ofFamily_eq_map_text h f, fun f g hg => ?_⟩
  obtain ⟨-, r, hr, -⟩ := compileLine_eq_some_iff.1 h
  by_cases hcs : line.clauses = []
  · rw [lineFragments_of_eq_nil hcs] at hg
    cases hg
  rw [lineFragments_of_ne_nil hr hcs] at hg
  obtain ⟨o, hg⟩ := Rule.mem_fragments_of_mem_fragmentsFor hg
  have hports := (says_of_rule hr).ports
  refine ⟨?_, ?_, fun flag e => ?_⟩
  · rw [← hports .source, ← hports .destination]
    refine Rule.words_eq_of_mem hg fun hnone => ?_
    have hno : ∀ e, (r.endpoint e).ports = [] := by
      intro e
      by_contra hne
      rw [hports e, ← ne_eq, ← hasClause_ports_iff hr e] at hne
      exact (protocol_ne_none_iff hr).2 ⟨e, hne⟩ hnone
    exact ⟨hno .source, hno .destination⟩
  · rw [← protocol_ne_none_iff hr, ne_eq, ne_eq, ← Rule.protocol_eq_none_iff hg]
    cases g.protocol <;> simp [Fragment.flagged]
  · rw [hasClause_ports_iff hr e, Fragment.portWords_ne_nil_iff]

theorem ports_of_mem_lineFragments_both :
    let c : Compiler := ⟨.filter, "INPUT", false⟩
    let line : Text := "port both 0,53,80-90 sport 7 port 443"
    let text (p : String) : Text :=
      "-A INPUT -p " ++ p ++ " --sport 7 -m multiport --dports 53,80:90,443 -j ACCEPT"
    let out : Ruleset := ⟨[text "tcp", text "udp"], [text "tcp", text "udp"]⟩
    (c.compileLine line).result = .ok (some out) ∧
      ∀ f, ∀ g ∈ c.lineFragments line f,
        g.words = g.layout ["7"] ["53", "80:90", "443"] ∧ g.protocol ≠ none := by
  intro c line text out
  have h : (c.compileLine line).result = .ok (some out) := by decide +kernel
  have hs : line.clauses.flatMap (Clause.portTexts .source) = (["7"] : List Text) := by decide +kernel
  have hd : line.clauses.flatMap (Clause.portTexts .destination) = (["53", "80:90", "443"] : List Text) := by
    decide +kernel
  refine ⟨h, fun f g hg => ?_⟩
  obtain ⟨hwords, hp, hm⟩ := (ports_of_mem_lineFragments c line h).2 f g hg
  rw [hs, hd] at hwords
  have hport : line.HasClause (.ports .source) := (hm "sport" .source).1 (by simp [hs, Fragment.portWords])
  exact ⟨hwords, fun hnone => hp.2 ⟨_, hport⟩ (by simp [hnone, Fragment.flagged])⟩

end Compiler

end Firewall
