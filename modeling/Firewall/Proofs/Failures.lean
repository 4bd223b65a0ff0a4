import Firewall.Proofs.Concatenation
import Firewall.Proofs.Continuation
import Firewall.Proofs.Literals

/-!
# Where errors come from

`FailsWith` is the grammar of the lines that fail, with their errors: behind clauses that are understood stands one
that is not (`Clause.Fails`), or a keyword without its argument (`Keyword.Lacks`). A line fails just in case it is of
this grammar (`Compiler.compileLine_eq_error_iff`), and a text fails at its first line that fails or is passed over
(`Compiler.compileLines_eq_error_iff`). Main statement: `Compiler.compile_eq_error_iff`.
-/

namespace Firewall

/-! ### Clauses that fail -/

namespace Clause
variable {strict : Bool} {cl : Clause} {e : Error}

/-- What is wrong with a clause: the first of its literals that is refused alone, its chains, or its port list. -/
inductive Fails (strict : Bool) : Clause → Error → Prop
  | addresses {s : Side} {t l : Text} {pre post : List Text} {e : Error} (ht : t.items = pre ++ l :: post)
      (hpre : ∀ u ∈ pre, ∃ n, Network.readAll strict [u] = .ok [n]) (hl : Network.readAll strict [l] = .error e) :
      Fails strict (addresses s t) (.invalidAddress l)
  | chain {t : Text} (ht : ∀ n ∈ t.items, n ∉ chainTexts) : Fails strict (chain t) (.malformed .noChain)
  | ports {s : Side} {p : ProtocolWord} {l : Text} {f : Fault} (hl : PortList.Fails strict l f) :
      Fails strict (ports s p l) (.malformed f)

theorem step_chain_eq_error_iff {t : Text} : (chain t).step strict = .error e ↔
    (∀ n ∈ t.items, n ∉ chainTexts) ∧ e = .malformed .noChain := by
  have hnil : namedHooks t = [] ↔ ∀ n ∈ t.items, n ∉ chainTexts := by
    rw [← not_iff_not, ← ne_eq, namedHooks_ne_nil_iff]
    push Not
    rfl
  rw [← hnil]
  cases h : namedHooks t <;> simp [step, h, eq_comm]

theorem step_eq_error_iff : cl.step strict = .error e ↔ cl.Fails strict e := by
  cases cl with
  | addresses s t =>
    rw [step_addresses_eq_error_iff, Network.readAll_eq_error_iff]
    constructor
    · rintro ⟨pre, l, post, ht, rfl, hpre, e', hl⟩
      exact .addresses ht hpre hl
    · intro h
      cases h with
      | addresses ht hpre hl => exact ⟨_, _, _, ht, rfl, hpre, _, hl⟩
  | chain t =>
    rw [step_chain_eq_error_iff]
    constructor
    · rintro ⟨ht, rfl⟩
      exact .chain ht
    · intro h
      cases h with
      | chain ht => exact ⟨ht, rfl⟩
  | ports s p l =>
    rw [step_ports_eq_error_iff, PortList.read_eq_error_iff]
    constructor
    · rintro ⟨f, rfl, hl⟩
      exact .ports hl
    · intro h
      cases h with
      | ports hl => exact ⟨_, rfl, hl⟩
  | _ => exact iff_of_false (by rintro ⟨⟩) (by rintro ⟨⟩)

end Clause

/-! ### Keywords without their argument -/

/-- Whether the words behind a keyword end before its argument: there is none, or a port clause ends with its
protocol. -/
inductive Keyword.Lacks : Keyword → List Text → Prop
  | argument {k : Keyword}
      (hk : k.word ∈ (["port", "sport", "from", "to", "if-in", "if-out", "state", "chain"] : List Text)) : Lacks k []
  | list {s : Side} {p : Text} (hp : IsOverride p) : Lacks (.ports s) [p]

theorem Clause.read?_nil_eq_none_iff {k : Keyword} : read? k [] = none ↔
    k.word ∈ (["port", "sport", "from", "to", "if-in", "if-out", "state", "chain"] : List Text) := by
  rcases k with (_ | _ | _ | _) | _ | _ | _ | _ | _ | (_ | _) | (_ | _) | (_ | _) <;> decide

theorem Clause.read?_eq_none_iff {k : Keyword} {ws : List Text} : read? k ws = none ↔ k.Lacks ws := by
  constructor
  · intro h
    rcases ws with _ | ⟨w, ws⟩
    · exact .argument (read?_nil_eq_none_iff.1 h)
    · cases k with
      | ports s =>
        by_cases hw : isProtocolWord w = true
        · rcases ws with _ | ⟨l, ws⟩
          · exact .list (isOverride_iff.2 hw)
          · simp [read?, hw] at h
        · rcases ws with _ | ⟨l, ws⟩
          · simp [read?, hw] at h
          · by_cases hl : isProtocolWord l = true <;> simp [read?, hw, hl] at h
      | _ => cases h
  · intro h
    cases h with
    | argument hk => exact read?_nil_eq_none_iff.2 hk
    | list hp => simp [read?, isOverride_iff.1 hp]

/-! ### Lines that fail -/

/-- The words of a line that fails, and its error. Clauses that are understood stand in front. -/
inductive FailsWith (strict : Bool) (ws : List Text) : Error → Prop
  | clause {cl : Clause} {rest : List Text} {e : Error} (hs : ClauseSeq strict ws (cl.words ++ rest))
      (hfits : cl.Fits rest) (hcl : cl.Fails strict e) : FailsWith strict ws e
  | missing {k : Keyword} {rest : List Text} (hs : ClauseSeq strict ws (k.word :: rest)) (hk : k.Lacks rest) :
      FailsWith strict ws (.malformed (.missingArgument k))

/-- The reader and the grammar agree on what stands behind clauses that are understood. -/
theorem exists_sequence_split_iff {strict : Bool} {ws : List Text} {cl : Clause} :
    (∃ pre post, (Clause.sequence ws).1 = pre ++ cl :: post ∧ ∀ cl' ∈ pre, ∃ s, cl'.Asks strict s) ↔
      ∃ rest, ClauseSeq strict ws (cl.words ++ rest) ∧ cl.Fits rest := by
  constructor
  · rintro ⟨pre, post, hsplit, hpre⟩
    obtain ⟨left, hs, hleft⟩ := ClauseSeq.exists_of_append hsplit hpre
    obtain ⟨rest, rfl, hfits, -⟩ := Clause.exists_of_sequence_eq_cons (congrArg Prod.fst hleft)
    exact ⟨rest, hs, hfits⟩
  · rintro ⟨rest, hs, hfits⟩
    obtain ⟨cs, hcs, heq⟩ := hs.sequence_eq
    have hread := Clause.read?_eq_some_iff.2 ⟨rfl, rfl, hfits⟩
    rw [Clause.words, List.cons_append, Clause.sequence_cons hread] at heq
    exact ⟨cs, _, congrArg Prod.fst heq, hcs⟩

namespace Compiler
variable {c : Compiler} {cs : List Clause} {line : Text} {e : Error}

/-- The first clause that fails decides the error. -/
theorem rule_eq_error_iff : (c.rule cs).result = .error e ↔
    ∃ pre cl post, cs = pre ++ cl :: post ∧ (∀ cl' ∈ pre, ∃ s, cl'.step c.strict = .ok s) ∧
      cl.step c.strict = .error e := by
  have hconcat : ∀ cs cl r, (c.rule cs).result = .ok r →
      ((c.rule (cs ++ [cl])).result = .error e ↔ cl.step c.strict = .error e) := by
    intro cs cl r hr
    rw [rule_concat, Outcome.bind_eq_of_ok hr, addClause_eq_error_iff]
  constructor
  · intro h
    induction cs using List.reverseRecOn with
    | nil => cases h
    | append_singleton cs cl ih =>
      cases hr : (c.rule cs).result with
      | error e' =>
        obtain ⟨pre, cl', post, rfl, hpre, hcl⟩ := ih (by rwa [← rule_append_of_error hr [cl]])
        exact ⟨pre, cl', post ++ [cl], by simp, hpre, hcl⟩
      | ok r => exact ⟨cs, cl, [], rfl, exists_rule_iff.1 ⟨r, hr⟩, (hconcat cs cl r hr).1 h⟩
  · rintro ⟨pre, cl, post, rfl, hpre, hcl⟩
    obtain ⟨r, hr⟩ := exists_rule_iff.2 hpre
    have hfail := (hconcat pre cl r hr).2 hcl
    rw [List.append_cons, rule_append_of_error hfail, hfail]

theorem compileLine_eq_error_iff_or : (c.compileLine line).result = .error e ↔
    (c.rule line.clauses).result = .error e ∨
      ∃ k, (line.ending = .missing k ∧ ∃ r, (c.rule line.clauses).result = .ok r) ∧
        e = .malformed (.missingArgument k) := by
  rw [result_compileLine]
  cases (c.rule line.clauses).result with
  | error e' => simp [Except.bind]
  | ok r => cases line.ending <;> simp [Except.bind, eq_comm (b := e)]

/-- The lines that fail are those of the grammar, with their errors. -/
theorem compileLine_eq_error_iff : (c.compileLine line).result = .error e ↔ FailsWith c.strict line.words e := by
  simp only [compileLine_eq_error_iff_or, rule_eq_error_iff, ending_eq_and_exists_rule_iff, Clause.step_eq_ok_iff,
    Clause.step_eq_error_iff]
  constructor
  · rintro (⟨pre, cl, post, hsplit, hpre, hcl⟩ | ⟨k, ⟨_, hs, rest, rfl, hk⟩, rfl⟩)
    · obtain ⟨rest, hs, hfits⟩ := exists_sequence_split_iff.1 ⟨pre, post, hsplit, hpre⟩
      exact .clause hs hfits hcl
    · exact .missing hs (Clause.read?_eq_none_iff.1 hk)
  · intro h
    cases h with
    | clause hs hfits hcl =>
      obtain ⟨pre, post, hsplit, hpre⟩ := exists_sequence_split_iff.2 ⟨_, hs, hfits⟩
      exact .inl ⟨pre, _, post, hsplit, hpre, hcl⟩
    | missing hs hk => exact .inr ⟨_, ⟨_, hs, _, rfl, Clause.read?_eq_none_iff.2 hk⟩, rfl⟩

theorem compileLine_error_cases (h : (c.compileLine line).result = .error e) :
    (∃ f, e = .malformed f) ∨ ∃ l, e = .invalidAddress l := by
  cases compileLine_eq_error_iff.1 h with
  | clause hs hfits hcl =>
    cases hcl with
    | @addresses s t l pre post e' ht hpre hl => exact .inr ⟨l, rfl⟩
    | chain ht => exact .inl ⟨_, rfl⟩
    | @ports s p l f hl => exact .inl ⟨f, rfl⟩
  | @missing k rest hs hk => exact .inl ⟨.missingArgument k, rfl⟩

/-- An address is refused in the argument of `from` or `to`, and it is the first one there that is refused alone. -/
theorem compileLine_eq_invalidAddress_iff {l : Text} : (c.compileLine line).result = .error (.invalidAddress l) ↔
    ∃ w t rest pre post, ClauseSeq c.strict line.words (w :: t :: rest) ∧ w ∈ (["from", "to"] : List Text) ∧
      t.items = pre ++ l :: post ∧ (∀ u ∈ pre, ∃ n, Network.readAll c.strict [u] = .ok [n]) ∧
      ∃ e, Network.readAll c.strict [l] = .error e := by
  rw [compileLine_eq_error_iff]
  constructor
  · intro h
    cases h with
    | clause hs hfits hcl =>
      cases hcl with
      | @addresses s t l pre post e ht hpre hl =>
        have hw : (Keyword.addresses s).word ∈ (["from", "to"] : List Text) := by cases s <;> decide
        exact ⟨_, t, _, pre, post, hs, hw, ht, hpre, e, hl⟩
  · rintro ⟨w, t, rest, pre, post, hs, hw, ht, hpre, e, hl⟩
    obtain ⟨s, rfl⟩ := mem_addressTexts hw
    have hfits : (Clause.addresses s t).Fits rest := trivial
    exact .clause hs hfits (.addresses ht hpre hl)

/-! ### Texts that fail -/

/-- What errors there are, and where they come from. A line fails if a clause of it does, or a keyword lacks its
argument, behind clauses that are understood; its error is about the words or about an address, and about an address
just in case the first clause that fails begins with `from` or `to`: the address is the first in its argument that
is refused alone. A text fails at its first line that has no ruleset. Its error tells the number of that line, and
the error of that line by itself or, if that is passed over, the line without the blanks around it. -/
theorem compile_eq_error_iff (c : Compiler) :
    (∀ line e, (c.compileLine line).result = .error e ↔ FailsWith c.strict line.words e) ∧
    (∀ line e, (c.compileLine line).result = .error e → (∃ f, e = .malformed f) ∨ ∃ l, e = .invalidAddress l) ∧
    (∀ line l, (c.compileLine line).result = .error (.invalidAddress l) ↔
      ∃ w t rest pre post, ClauseSeq c.strict line.words (w :: t :: rest) ∧ w ∈ (["from", "to"] : List Text) ∧
        t.items = pre ++ l :: post ∧ (∀ u ∈ pre, ∃ n, Network.readAll c.strict [u] = .ok [n]) ∧
        ∃ e, Network.readAll c.strict [l] = .error e) ∧
    (∀ t e, (c.compile t).result = .error e ↔ ∃ pre line post, t.lines = pre ++ line :: post ∧
      (∀ m ∈ pre, ∃ r, (c.compileLine m).result = .ok (some r)) ∧
      ((∃ cause, (c.compileLine line).result = .error cause ∧ e = .atLine (pre.length + 1) cause) ∨
        (c.compileLine line).result = .ok none ∧ e = .unrecognized (pre.length + 1) line.strip)) ∧
    ∀ t e, (c.compile t).result = .error e → ∃ k, 1 ≤ k ∧ k ≤ t.lines.length ∧
      ((∃ f, e = .atLine k (.malformed f)) ∨ (∃ l, e = .atLine k (.invalidAddress l)) ∨
        ∃ u, e = .unrecognized k u) := by
  have htext : ∀ t e, (c.compile t).result = .error e ↔ ∃ pre line post, t.lines = pre ++ line :: post ∧
      (∀ m ∈ pre, ∃ r, (c.compileLine m).result = .ok (some r)) ∧
      ((∃ cause, (c.compileLine line).result = .error cause ∧ e = .atLine (pre.length + 1) cause) ∨
        (c.compileLine line).result = .ok none ∧ e = .unrecognized (pre.length + 1) line.strip) := by
    intro t e
    simp only [compile, compileLines_eq_error_iff, compileNumbered_eq_error_iff, Nat.add_comm 1]
  refine ⟨fun line e => compileLine_eq_error_iff, fun line e => compileLine_error_cases,
    fun line l => compileLine_eq_invalidAddress_iff, htext, fun t e h => ?_⟩
  obtain ⟨pre, line, post, ht, -, hline⟩ := (htext t e).1 h
  refine ⟨pre.length + 1, by omega, by simp [ht], ?_⟩
  rcases hline with ⟨cause, hcause, rfl⟩ | ⟨-, rfl⟩
  · rcases compileLine_error_cases hcause with ⟨f, rfl⟩ | ⟨l, rfl⟩
    · exact .inl ⟨f, rfl⟩
    · exact .inr (.inl ⟨l, rfl⟩)
  · exact .inr (.inr ⟨_, rfl⟩)

theorem compile_eq_error_iff_mixed :
    let c : Compiler := ⟨.filter, "INPUT", true⟩
    let d : Compiler := ⟨.filter, "INPUT", false⟩
    let line : Text := "allow from 10.0.0.0/8,1.2.3.4/8,x port 0"
    let t : Text := "drop\n\nall to\nwat"
    let u : Text := "drop\n\n allow wat from x"
    (c.compileLine line).result = .error (.invalidAddress "1.2.3.4/8") ∧
      (d.compileLine line).result = .error (.invalidAddress "x") ∧
      (d.compile t).result = .error (.atLine 3 (.malformed (.missingArgument (.addresses .destination)))) ∧
      (d.compile u).result = .error (.unrecognized 3 "allow wat from x") := by
  intro c d line t u
  obtain ⟨-, -, hstrict, -, -⟩ := compile_eq_error_iff c
  obtain ⟨hline, -, hlenient, htext, -⟩ := compile_eq_error_iff d
  have hseq : ∀ strict, ClauseSeq strict line.words ("from" :: "10.0.0.0/8,1.2.3.4/8,x" :: ["port", "0"]) := by
    intro strict
    have hwords : line.words = ["allow"] ++ ["from", "10.0.0.0/8,1.2.3.4/8,x", "port", "0"] := by decide +kernel
    rw [hwords]
    exact .cons (.word (by decide)) .nil
  let m : Network := ⟨.v4 0x0A000000, 8, by decide⟩
  let n : Network := ⟨.v4 0x01000000, 8, by decide⟩
  have hfront : ∀ l ∈ (["drop", ""] : List Text), ∃ r, (d.compileLine l).result = .ok (some r) := by
    refine List.forall_mem_cons.2 ⟨⟨⟨["-A INPUT -j DROP"], ["-A INPUT -j DROP"]⟩, by decide +kernel⟩, ?_⟩
    exact List.forall_mem_singleton.2 ⟨{}, rfl⟩
  refine ⟨(hstrict line _).2 ?_, (hlenient line _).2 ?_, (htext t _).2 ?_, (htext u _).2 ?_⟩
  · exact ⟨"from", _, _, ["10.0.0.0/8"], ["x"], hseq true, by decide, by decide +kernel,
      List.forall_mem_singleton.2 ⟨m, by decide +kernel⟩, .invalidAddress "1.2.3.4/8", by decide +kernel⟩
  · exact ⟨"from", _, _, ["10.0.0.0/8", "1.2.3.4/8"], [], hseq false, by decide, by decide +kernel,
      List.forall_mem_cons.2 ⟨⟨m, by decide +kernel⟩, List.forall_mem_singleton.2 ⟨n, by decide +kernel⟩⟩,
      .invalidAddress "x", by decide +kernel⟩
  · have hfails : FailsWith false (Text.words "all to") (.malformed (.missingArgument (.addresses .destination))) := by
      have hwords : Text.words "all to" = ["all"] ++ ["to"] := by decide +kernel
      rw [hwords]
      exact .missing (.cons (.word (by decide)) .nil) (.argument (by decide))
    exact ⟨["drop", ""], "all to", ["wat"], by decide +kernel, hfront, .inl ⟨_, (hline _ _).2 hfails, rfl⟩⟩
  · exact ⟨["drop", ""], " allow wat from x", [], by decide +kernel, hfront,
      .inr ⟨by decide +kernel, by decide +kernel⟩⟩

end Compiler

end Firewall
