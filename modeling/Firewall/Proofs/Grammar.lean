import Firewall.Proofs.Contents

/-!
# The grammar of a line

`ClauseForm` is the grammar of one clause and `ClauseSeq` that of several, in the words of a line:
neither mentions the reader. A clause is a matter of its own words and, for a port clause, of the
next one: `Clause.read?_eq_some_iff` says so of the reader, `clauseForm_iff` of the grammar.
`sequence_eq_iff` carries the two over to a line, from clause to clause, and
`Compiler.compileLine_grammar` says which lines have a ruleset, which are passed over and which fail.
-/

namespace Firewall

/-! ### The words of the grammar -/

def keywordTexts : List Text :=
  ["port", "sport", "allow", "accept", "drop", "reject", "forward", "output", "from", "to", "if-in",
    "if-out", "state", "all", "chain"]

def chainTexts : List Text := ["input", "forward", "output", "prerouting", "postrouting"]

/-- Whether a word names a protocol, in any letter case. -/
def IsOverride (w : Text) : Prop := w.map Char.toLower ∈ (["tcp", "udp", "both"] : List Text)

theorem mem_keywordTexts_iff {w : Text} : w ∈ keywordTexts ↔ ∃ k : Keyword, w = k.word := by
  constructor
  · intro hw
    simp only [keywordTexts, List.mem_cons, List.not_mem_nil, or_false] at hw
    rcases hw with rfl | rfl | rfl | rfl | rfl | rfl | rfl | rfl | rfl | rfl | rfl | rfl | rfl | rfl | rfl
    · exact ⟨.ports .destination, rfl⟩
    · exact ⟨.ports .source, rfl⟩
    · exact ⟨.act .allow, rfl⟩
    · exact ⟨.act .accept, rfl⟩
    · exact ⟨.act .drop, rfl⟩
    · exact ⟨.act .reject, rfl⟩
    · exact ⟨.forward, rfl⟩
    · exact ⟨.output, rfl⟩
    · exact ⟨.addresses .source, rfl⟩
    · exact ⟨.addresses .destination, rfl⟩
    · exact ⟨.interfaces .incoming, rfl⟩
    · exact ⟨.interfaces .outgoing, rfl⟩
    · exact ⟨.state, rfl⟩
    · exact ⟨.all, rfl⟩
    · exact ⟨.chain, rfl⟩
  · rintro ⟨(_ | _ | _ | _) | _ | _ | _ | _ | _ | (_ | _) | (_ | _) | (_ | _), rfl⟩ <;> decide

theorem mem_addressTexts {w : Text} (hw : w ∈ (["from", "to"] : List Text)) :
    ∃ e, w = (Keyword.addresses e).word := by
  simp only [List.mem_cons, List.not_mem_nil, or_false] at hw
  rcases hw with rfl | rfl
  · exact ⟨.source, rfl⟩
  · exact ⟨.destination, rfl⟩

theorem mem_portTexts {w : Text} (hw : w ∈ (["port", "sport"] : List Text)) :
    ∃ e, w = (Keyword.ports e).word := by
  simp only [List.mem_cons, List.not_mem_nil, or_false] at hw
  rcases hw with rfl | rfl
  · exact ⟨.destination, rfl⟩
  · exact ⟨.source, rfl⟩

theorem isComment_iff {w : Text} : isComment w = true ↔ w.head? = some '#' := beq_iff_eq

theorem ofWord?_eq_none_iff {w : Text} : Keyword.ofWord? w = none ↔ w ∉ keywordTexts := by
  rw [mem_keywordTexts_iff, Option.eq_none_iff_forall_ne_some]
  simp only [ne_eq, Keyword.ofWord?_eq_some_iff, not_exists]

theorem mem_chainTexts_iff {w : Text} : w ∈ chainTexts ↔ ∃ h : Hook, w = h.word := by
  constructor
  · intro hw
    simp only [chainTexts, List.mem_cons, List.not_mem_nil, or_false] at hw
    rcases hw with rfl | rfl | rfl | rfl | rfl
    · exact ⟨.input, rfl⟩
    · exact ⟨.forward, rfl⟩
    · exact ⟨.output, rfl⟩
    · exact ⟨.prerouting, rfl⟩
    · exact ⟨.postrouting, rfl⟩
  · rintro ⟨_ | _ | _ | _ | _, rfl⟩ <;> decide

theorem namedHooks_ne_nil_iff {t : Text} : namedHooks t ≠ [] ↔ ∃ n ∈ t.items, n ∈ chainTexts := by
  simp only [namedHooks, ne_eq, List.filterMap_eq_nil_iff, not_forall, mem_chainTexts_iff,
    ← Hook.ofWord?_eq_some_iff, exists_prop, Option.ne_none_iff_exists']

theorem isOverride_iff {w : Text} : IsOverride w ↔ isProtocolWord w = true := by
  simp only [IsOverride, isProtocolWord, ProtocolChoice.ofWord?, List.mem_cons, List.not_mem_nil,
    or_false]
  split_ifs with htcp hudp hboth
  · exact iff_of_true (.inl htcp) rfl
  · exact iff_of_true (.inr (.inl hudp)) rfl
  · exact iff_of_true (.inr (.inr hboth)) rfl
  · exact iff_of_false (by simp only [htcp, hudp, hboth, or_self, not_false_eq_true]) (by simp)

/-! ### The grammar -/

/-- Whether a text is a port list of which an item is a port, or all are in a strict reading. -/
def IsGoodList (strict : Bool) (t : Text) : Prop :=
  (∀ p ∈ t.items, ∃ ns, PortSpan.Form p ns) ∧ (∃ p ∈ t.items, PortList.IsGood p) ∧
    (strict = true → ∀ p ∈ t.items, PortList.IsGood p)

/-- The words of a clause, and the words that may follow them. -/
inductive ClauseForm (strict : Bool) : List Text → List Text → Prop
  | word {w : Text} {rest : List Text}
      (hw : w ∈ (["allow", "accept", "drop", "reject", "forward", "output", "all"] : List Text)) :
      ClauseForm strict [w] rest
  | addresses {w t : Text} {rest : List Text} (hw : w ∈ (["from", "to"] : List Text))
      (ht : ∀ l ∈ t.items, ∃ n, Network.read strict l = .ok n) : ClauseForm strict [w, t] rest
  | names {w t : Text} {rest : List Text} (hw : w ∈ (["if-in", "if-out", "state"] : List Text)) :
      ClauseForm strict [w, t] rest
  | chain {t : Text} {rest : List Text} (ht : ∃ n ∈ t.items, n ∈ chainTexts) :
      ClauseForm strict ["chain", t] rest
  | portsBefore {w p l : Text} {rest : List Text} (hw : w ∈ (["port", "sport"] : List Text))
      (hp : IsOverride p) (hl : IsGoodList strict l) : ClauseForm strict [w, p, l] rest
  | portsAfter {w p l : Text} {rest : List Text} (hw : w ∈ (["port", "sport"] : List Text))
      (hl : IsGoodList strict l) (hp : IsOverride p) : ClauseForm strict [w, l, p] rest
  | ports {w l : Text} {rest : List Text} (hw : w ∈ (["port", "sport"] : List Text))
      (hl : IsGoodList strict l) (hrest : ∀ p, rest.head? = some p → ¬ IsOverride p) :
      ClauseForm strict [w, l] rest

/-- Words that are clauses one after the other, up to the words that are left. -/
inductive ClauseSeq (strict : Bool) : List Text → List Text → Prop
  | nil {left : List Text} : ClauseSeq strict left left
  | cons {ws rest left : List Text} (h : ClauseForm strict ws rest)
      (hs : ClauseSeq strict rest left) : ClauseSeq strict (ws ++ rest) left

/-- Words that are clauses, with a comment behind them or none. -/
def IsAccepted (strict : Bool) (ws : List Text) : Prop :=
  ∃ left, ClauseSeq strict ws left ∧ (left = [] ∨ ∃ w rest, left = w :: rest ∧ w.head? = some '#')

/-- Words that are clauses and then a word that begins neither a clause nor a comment. -/
def IsPassedOver (strict : Bool) (ws : List Text) : Prop :=
  ∃ w rest, ClauseSeq strict ws (w :: rest) ∧ w ∉ keywordTexts ∧ w.head? ≠ some '#'

theorem toLower_of_isDigit {c : Char} (h : c.isDigit = true) : c.toLower = c := by
  simp only [Char.isDigit, Bool.and_eq_true, decide_eq_true_eq] at h
  have h9 : c.toNat ≤ 57 := h.2
  have hA : ¬ (c.val ≥ 'A'.val ∧ c.val ≤ 'Z'.val) := by
    rintro ⟨hA, -⟩
    have h65 : 65 ≤ c.toNat := hA
    omega
  exact dif_neg hA

theorem IsGoodList.not_isOverride {strict : Bool} {l : Text} (h : IsGoodList strict l) :
    ¬ IsOverride l := by
  intro ho
  have hl := PortList.isPortList_iff.2 h.1
  cases l with
  | nil => cases hl
  | cons c l =>
    -- a port list begins with a digit, which is its own lower case
    have hc : c.isDigit = true := by
      by_contra hc
      rw [PortList.isPortList, PortList.accepts_cons] at hl
      simp [PortList.step, hc] at hl
    simp only [IsOverride, List.map_cons, toLower_of_isDigit hc, List.mem_cons, List.not_mem_nil,
      or_false] at ho
    rcases ho with ho | ho | ho
    · obtain ⟨rfl, -⟩ := List.cons.inj ho
      exact absurd hc (by decide)
    · obtain ⟨rfl, -⟩ := List.cons.inj ho
      exact absurd hc (by decide)
    · obtain ⟨rfl, -⟩ := List.cons.inj ho
      exact absurd hc (by decide)

/-! ### A clause -/

namespace Clause

/-- What the words of a clause and the words behind it must be for the reader to take the clause. -/
def Fits : Clause → List Text → Prop
  | ports _ .absent l, rest => ¬ IsOverride l ∧ ∀ p, rest.head? = some p → ¬ IsOverride p
  | ports _ (.before p) _, _ => IsOverride p
  | ports _ (.after p) l, _ => ¬ IsOverride l ∧ IsOverride p
  | _, _ => True

/-- The reader takes a clause off if its arguments stand first and fit what is behind them. -/
theorem read?_eq_some_iff {k : Keyword} {ws rest : List Text} {cl : Clause} :
    read? k ws = some (cl, rest) ↔ cl.keyword = k ∧ ws = cl.arguments ++ rest ∧ cl.Fits rest := by
  constructor
  · intro h
    obtain ⟨hk, hws⟩ := read?_eq_some h
    refine ⟨hk, hws, ?_⟩
    subst hk hws
    cases cl with
    | ports e p l =>
      cases p with
      | absent =>
        by_cases hl : isProtocolWord l = true
        · cases rest <;> simp [keyword, arguments, read?, hl] at h
        · refine ⟨fun ho => hl (isOverride_iff.1 ho), ?_⟩
          intro w hw ho
          obtain ⟨rest, rfl⟩ := List.head?_eq_some_iff.1 hw
          simp [keyword, arguments, read?, hl, isOverride_iff.1 ho] at h
      | before p =>
        by_cases hp : isProtocolWord p = true
        · exact isOverride_iff.2 hp
        · by_cases hl : isProtocolWord l = true <;> simp [keyword, arguments, read?, hp, hl] at h
      | after p =>
        by_cases hl : isProtocolWord l = true
        · simp [keyword, arguments, read?, hl] at h
        · refine ⟨fun ho => hl (isOverride_iff.1 ho), isOverride_iff.2 ?_⟩
          by_contra hp
          simp [keyword, arguments, read?, hl, hp] at h
    | _ => trivial
  · rintro ⟨rfl, rfl, h⟩
    cases cl with
    | ports e p l =>
      cases p with
      | absent =>
        obtain ⟨hl, hrest⟩ := h
        rw [isOverride_iff] at hl
        cases rest with
        | nil => simp [keyword, arguments, read?, hl]
        | cons w rest =>
          have hw := hrest w rfl
          rw [isOverride_iff] at hw
          simp [keyword, arguments, read?, hl, hw]
      | before p => simp [keyword, arguments, read?, isOverride_iff.1 h]
      | after p =>
        obtain ⟨hl, hp⟩ := h
        rw [isOverride_iff] at hl hp
        simp [keyword, arguments, read?, hl, hp]
    | _ => rfl

end Clause

/-- The grammar of a clause: some clause has these words, fits what is behind it and is understood. -/
theorem clauseForm_iff {strict : Bool} {ws rest : List Text} :
    ClauseForm strict ws rest ↔
      ∃ cl : Clause, ws = cl.words ∧ cl.Fits rest ∧ ∃ s, cl.Asks strict s := by
  constructor
  · intro h
    cases h with
    | word hw =>
      simp only [List.mem_cons, List.not_mem_nil, or_false] at hw
      rcases hw with rfl | rfl | rfl | rfl | rfl | rfl | rfl
      · exact ⟨.act .allow, rfl, trivial, _, .act .allow⟩
      · exact ⟨.act .accept, rfl, trivial, _, .act .accept⟩
      · exact ⟨.act .drop, rfl, trivial, _, .act .drop⟩
      · exact ⟨.act .reject, rfl, trivial, _, .act .reject⟩
      · exact ⟨.forward, rfl, trivial, _, .forward⟩
      · exact ⟨.output, rfl, trivial, _, .output⟩
      · exact ⟨.all, rfl, trivial, _, .all⟩
    | @addresses w t _ hw ht =>
      obtain ⟨e, rfl⟩ := mem_addressTexts hw
      obtain ⟨ns, hn⟩ := exists_mapM_iff.2 ht
      exact ⟨.addresses e t, rfl, trivial, _, .addresses hn⟩
    | @names w t _ hw =>
      simp only [List.mem_cons, List.not_mem_nil, or_false] at hw
      rcases hw with rfl | rfl | rfl
      · exact ⟨.interfaces .incoming t, rfl, trivial, _, .interfaces .incoming t⟩
      · exact ⟨.interfaces .outgoing t, rfl, trivial, _, .interfaces .outgoing t⟩
      · exact ⟨.state t, rfl, trivial, _, .state t⟩
    | @chain t _ ht =>
      obtain ⟨k, ks, hn⟩ := List.exists_cons_of_ne_nil (namedHooks_ne_nil_iff.2 ht)
      exact ⟨.chain t, rfl, trivial, _, .chain hn⟩
    | @portsBefore w p l _ hw hp hl =>
      obtain ⟨e, rfl⟩ := mem_portTexts hw
      obtain ⟨ss, hs⟩ := PortList.exists_read_iff.2 hl
      exact ⟨.ports e (.before p) l, rfl, hp, _, .ports hs⟩
    | @portsAfter w p l _ hw hl hp =>
      obtain ⟨e, rfl⟩ := mem_portTexts hw
      obtain ⟨ss, hs⟩ := PortList.exists_read_iff.2 hl
      exact ⟨.ports e (.after p) l, rfl, ⟨hl.not_isOverride, hp⟩, _, .ports hs⟩
    | @ports w l _ hw hl hrest =>
      obtain ⟨e, rfl⟩ := mem_portTexts hw
      obtain ⟨ss, hs⟩ := PortList.exists_read_iff.2 hl
      exact ⟨.ports e .absent l, rfl, ⟨hl.not_isOverride, hrest⟩, _, .ports hs⟩
  · rintro ⟨cl, rfl, hfits, s, hs⟩
    cases hs with
    | act v => exact .word (by cases v <;> decide)
    | forward => exact .word (by decide)
    | output => exact .word (by decide)
    | all => exact .word (by decide)
    | chain hn => exact .chain (namedHooks_ne_nil_iff.1 (by simp [hn]))
    | state t =>
      have hw : Keyword.state.word ∈ (["if-in", "if-out", "state"] : List Text) := by decide
      exact .names hw
    | @addresses e t ns hn =>
      have hw : (Keyword.addresses e).word ∈ (["from", "to"] : List Text) := by cases e <;> decide
      exact .addresses hw (exists_mapM_iff.1 ⟨ns, hn⟩)
    | interfaces w t =>
      have hw : (Keyword.interfaces w).word ∈ (["if-in", "if-out", "state"] : List Text) := by
        cases w <;> decide
      exact .names hw
    | @ports e p l ss hp =>
      have hw : (Keyword.ports e).word ∈ (["port", "sport"] : List Text) := by cases e <;> decide
      have hl : IsGoodList strict l := PortList.exists_read_iff.1 ⟨ss, hp⟩
      cases p with
      | absent => exact .ports hw hl hfits.2
      | before p => exact .portsBefore hw hfits hl
      | after p => exact .portsAfter hw hl hfits.2

/-! ### A line -/

/-- Behind a line that says all it has to say there is a comment or nothing. -/
theorem Ending.Begins.eq_nil_or_comment {e : Ending} {left : List Text} (h : e.Begins left)
    (hd : e.isDone = true) : left = [] ∨ ∃ w rest, left = w :: rest ∧ w.head? = some '#' := by
  rcases Ending.isDone_iff.1 hd with rfl | ⟨w, rfl⟩
  · exact .inl h
  · obtain ⟨hw, rest, rfl⟩ := h
    exact .inr ⟨w, rest, rfl, isComment_iff.1 hw⟩

theorem Clause.sequence_of_begins {e : Ending} {left : List Text} (h : e.Begins left) :
    sequence left = ([], e) := by
  cases e with
  | complete =>
    cases h
    exact sequence_nil
  | comment w =>
    obtain ⟨hw, rest, rfl⟩ := h
    exact sequence_comment hw
  | unknown w =>
    obtain ⟨hw, hk, rest, rfl⟩ := h
    exact sequence_unknown hw hk
  | missing k =>
    obtain ⟨rest, rfl, hr⟩ := h
    exact sequence_missing hr

/-- The first clause stands in front and fits what is behind it, where the other clauses are read. -/
theorem Clause.exists_of_sequence_eq_cons {ws : List Text} {cl : Clause} {cs : List Clause}
    (h : (sequence ws).1 = cl :: cs) :
    ∃ rest, ws = cl.words ++ rest ∧ cl.Fits rest ∧ sequence rest = (cs, (sequence ws).2) := by
  rcases ws with _ | ⟨w, ws⟩
  · simp at h
  cases hc : isComment w with
  | true => simp [sequence_comment hc] at h
  | false =>
    cases hk : Keyword.ofWord? w with
    | none => simp [sequence_unknown hc hk] at h
    | some k =>
      obtain rfl := Keyword.ofWord?_eq_some_iff.1 hk
      cases hr : read? k ws with
      | none => simp [sequence_missing hr] at h
      | some p =>
        obtain ⟨cl', rest⟩ := p
        obtain ⟨rfl, rfl, hfits⟩ := read?_eq_some_iff.1 hr
        rw [sequence_cons hr] at h ⊢
        obtain ⟨rfl, rfl⟩ := List.cons.inj h
        exact ⟨rest, rfl, hfits, rfl⟩

theorem Clause.exists_of_sequence_eq_append {ws : List Text} {pre post : List Clause}
    (h : (sequence ws).1 = pre ++ post) :
    ∃ left, ws = pre.flatMap words ++ left ∧ sequence left = (post, (sequence ws).2) := by
  induction pre generalizing ws with
  | nil => exact ⟨ws, rfl, Prod.ext h rfl⟩
  | cons cl pre ih =>
    obtain ⟨rest, rfl, -, hrest⟩ := exists_of_sequence_eq_cons h
    obtain ⟨left, rfl, hleft⟩ := ih (congrArg Prod.fst hrest)
    rw [hrest] at hleft
    exact ⟨left, by rw [List.flatMap_cons, List.append_assoc], hleft⟩

/-- The grammar follows the clauses of a line as far as they are understood. -/
theorem ClauseSeq.exists_of_append {strict : Bool} {ws : List Text} {pre post : List Clause}
    (h : (Clause.sequence ws).1 = pre ++ post) (hpre : ∀ cl ∈ pre, ∃ s, cl.Asks strict s) :
    ∃ left, ClauseSeq strict ws left ∧ Clause.sequence left = (post, (Clause.sequence ws).2) := by
  induction pre generalizing ws with
  | nil => exact ⟨ws, .nil, Prod.ext h rfl⟩
  | cons cl pre ih =>
    obtain ⟨hcl, hpre⟩ := List.forall_mem_cons.1 hpre
    obtain ⟨rest, rfl, hfits, hrest⟩ := Clause.exists_of_sequence_eq_cons h
    obtain ⟨left, hleft, heq⟩ := ih (congrArg Prod.fst hrest) hpre
    rw [hrest] at heq
    exact ⟨left, .cons (clauseForm_iff.2 ⟨cl, rfl, hfits, hcl⟩) hleft, heq⟩

theorem ClauseSeq.exists_of_sequence {strict : Bool} (ws : List Text)
    (h : ∀ cl ∈ (Clause.sequence ws).1, ∃ s, cl.Asks strict s) :
    ∃ left, ClauseSeq strict ws left ∧ (Clause.sequence ws).2.Begins left := by
  obtain ⟨left, hleft, heq⟩ := exists_of_append (List.append_nil _).symm h
  obtain ⟨rest, hrest, hend⟩ := Clause.words_sequence left
  rw [heq] at hrest hend
  obtain rfl : left = rest := hrest
  exact ⟨left, hleft, hend⟩

theorem ClauseSeq.sequence_eq {strict : Bool} {ws left : List Text} (h : ClauseSeq strict ws left) :
    ∃ cs, (∀ cl ∈ cs, ∃ s, cl.Asks strict s) ∧
      Clause.sequence ws = (cs ++ (Clause.sequence left).1, (Clause.sequence left).2) := by
  induction h with
  | nil => exact ⟨[], by simp, rfl⟩
  | @cons ws rest left hform _ ih =>
    obtain ⟨cs, hcs, heq⟩ := ih
    obtain ⟨cl, rfl, hfits, hs⟩ := clauseForm_iff.1 hform
    have hr := Clause.read?_eq_some_iff.2 ⟨rfl, rfl, hfits⟩
    refine ⟨cl :: cs, List.forall_mem_cons.2 ⟨hs, hcs⟩, ?_⟩
    rw [Clause.words, List.cons_append, Clause.sequence_cons hr, heq, List.cons_append]

/-- The reader and the grammar agree on every line, whatever ends its clauses. -/
theorem sequence_eq_iff {strict : Bool} {ws : List Text} {e : Ending} :
    ((Clause.sequence ws).2 = e ∧ ∀ cl ∈ (Clause.sequence ws).1, ∃ s, cl.Asks strict s) ↔
      ∃ left, ClauseSeq strict ws left ∧ e.Begins left := by
  constructor
  · rintro ⟨rfl, h⟩
    exact ClauseSeq.exists_of_sequence ws h
  · rintro ⟨left, hleft, hend⟩
    obtain ⟨cs, hcs, heq⟩ := hleft.sequence_eq
    rw [heq, Clause.sequence_of_begins hend, List.append_nil]
    exact ⟨rfl, hcs⟩

namespace Compiler
variable {c : Compiler} {line : Text}

theorem ending_eq_and_exists_rule_iff {e : Ending} :
    (line.ending = e ∧ ∃ r, (c.rule line.clauses).result = .ok r) ↔
      ∃ left, ClauseSeq c.strict line.words left ∧ e.Begins left := by
  rw [← sequence_eq_iff, exists_rule_iff]
  simp only [Clause.step_eq_ok_iff]
  rfl

theorem exists_ruleset_iff :
    (∃ out, (c.compileLine line).result = .ok (some out)) ↔ IsAccepted c.strict line.words := by
  constructor
  · rintro ⟨out, h⟩
    obtain ⟨hd, r, hr, -⟩ := compileLine_eq_some_iff.1 h
    obtain ⟨left, hleft, hend⟩ := ending_eq_and_exists_rule_iff.1 ⟨rfl, r, hr⟩
    exact ⟨left, hleft, hend.eq_nil_or_comment hd⟩
  · rintro ⟨left, hleft, rfl | ⟨w, ws, rfl, hw⟩⟩
    · have hend : Ending.complete.Begins [] := rfl
      obtain ⟨he, r, hr⟩ := ending_eq_and_exists_rule_iff.2 ⟨[], hleft, hend⟩
      exact ⟨_, compileLine_eq_some_iff.2 ⟨by rw [he]; rfl, r, hr, rfl⟩⟩
    · have hend : (Ending.comment w).Begins (w :: ws) := ⟨isComment_iff.2 hw, ws, rfl⟩
      obtain ⟨he, r, hr⟩ := ending_eq_and_exists_rule_iff.2 ⟨w :: ws, hleft, hend⟩
      exact ⟨_, compileLine_eq_some_iff.2 ⟨by rw [he]; rfl, r, hr, rfl⟩⟩

theorem passedOver_iff :
    (c.compileLine line).result = .ok none ↔ IsPassedOver c.strict line.words := by
  rw [compileLine_eq_none_iff]
  constructor
  · rintro ⟨⟨w, he⟩, hr⟩
    obtain ⟨_, hleft, hw, hk, ws, rfl⟩ := ending_eq_and_exists_rule_iff.1 ⟨he, hr⟩
    have hne : ¬ w.head? = some '#' := by
      rw [← isComment_iff, hw]
      exact Bool.false_ne_true
    exact ⟨w, ws, hleft, ofWord?_eq_none_iff.1 hk, hne⟩
  · rintro ⟨w, ws, hleft, hk, hw⟩
    have hend : (Ending.unknown w).Begins (w :: ws) :=
      ⟨Bool.eq_false_iff.2 fun h => hw (isComment_iff.1 h), ofWord?_eq_none_iff.2 hk, ws, rfl⟩
    obtain ⟨he, hr⟩ := ending_eq_and_exists_rule_iff.2 ⟨_, hleft, hend⟩
    exact ⟨⟨w, he⟩, hr⟩

/-- Which lines have a ruleset, which are passed over, and that all others fail. -/
theorem compileLine_grammar (c : Compiler) (line : Text) :
    ((∃ out, (c.compileLine line).result = .ok (some out)) ↔ IsAccepted c.strict line.words) ∧
      ((c.compileLine line).result = .ok none ↔ IsPassedOver c.strict line.words) ∧
      ((∃ e, (c.compileLine line).result = .error e) ↔
        ¬ IsAccepted c.strict line.words ∧ ¬ IsPassedOver c.strict line.words) := by
  refine ⟨exists_ruleset_iff, passedOver_iff, ?_⟩
  rw [← exists_ruleset_iff, ← passedOver_iff]
  rcases (c.compileLine line).result with e | _ | out
  · refine iff_of_true ⟨e, rfl⟩ ⟨?_, ?_⟩
    · rintro ⟨out, h⟩
      cases h
    · intro h
      cases h
  · refine iff_of_false ?_ fun h => h.2 rfl
    rintro ⟨e, h⟩
    cases h
  · refine iff_of_false ?_ fun h => h.1 ⟨out, rfl⟩
    rintro ⟨e, h⟩
    cases h

end Compiler

end Firewall
