import Firewall.Proofs.Cursor
import Firewall.Proofs.PortClauses

/-!
# The rounds of a line

`Compiler.loop` compiles the words of a line round by round over a cursor. In a round the next word is taken
and, if that is a keyword, its arguments are, and its clause is added to the rule (`Compiler.round_cases`); each
round takes a word at least, so the rounds come to an end. `Compiler.outcome_loop` says that a line is compiled
in this way, and `Compiler.upTo_cursors` that the rounds of a line take its clauses one by one. Main statement:
`Compiler.loop_takes_words`.
-/

namespace Firewall

/-- What a round of a line comes to: the line goes on with a rule, or it ends. -/
inductive Turn where
  | goesOn (rule : Rule)
  | ends (out : Option Ruleset)

/-- What the rounds of a line come to, and the cursors behind them. -/
structure Course where
  outcome : Outcome (Option Ruleset)
  cursors : List Cursor

/-- Puts a round in front, by what it notes and the cursor behind it. -/
def Course.after (es : List Event) (t : Cursor) (s : Course) : Course :=
  ⟨⟨s.outcome.result, es ++ s.outcome.log⟩, t :: s.cursors⟩

namespace Compiler

/-- Takes the arguments of a keyword at a cursor and adds its clause to the rule. -/
def handle (c : Compiler) (k : Keyword) (r : Rule) (t : Cursor) : Outcome Rule × Cursor :=
  match t.take k with
  | (some cl, u) => (c.addClause r cl, u)
  | (none, u) => (⟨.error (.malformed (.missingArgument k)), [.clause k]⟩, u)

variable {c : Compiler} {r r' : Rule} {t u : Cursor} {w : Text} {k : Keyword} {out : Option Ruleset}

/-! ### A keyword -/

theorem reaches_handle (h : t.place ≤ t.words.length) (c : Compiler) (k : Keyword) (r : Rule) :
    t.Reaches (c.handle k r t).2 := by
  have htake := Cursor.Reaches.take h k
  unfold handle
  split
  · next heq => rwa [heq] at htake
  · next heq => rwa [heq] at htake

theorem dispatch_ahead (c : Compiler) (k : Keyword) (r : Rule) (t : Cursor) :
    c.dispatch k r t.ahead = (fun r' => (r', (c.handle k r t).2.ahead)) <$> (c.handle k r t).1 := by
  have hread := t.view_take k
  unfold dispatch handle
  rw [← hread]
  rcases t.take k with ⟨_ | cl, u⟩
  · rfl
  · exact Outcome.bind_pure_eq_map _ _

theorem exists_read?_of_handle (h : (c.handle k r t).1.result = .ok r') :
    ∃ cl, Clause.read? k t.ahead = some (cl, (c.handle k r t).2.ahead) := by
  have hread := t.view_take k
  unfold handle at h ⊢
  rcases ht : t.take k with ⟨_ | cl, u⟩
  · rw [ht] at h
    cases h
  · rw [ht] at hread
    exact ⟨cl, hread.symm⟩

/-- Where a clause is understood, its keyword has taken its words and no other. -/
theorem place_handle (hin : t.place ≤ t.words.length) (h : (c.handle k r t).1.result = .ok r') :
    (c.handle k r t).2.place = t.place + k.arity t.ahead := by
  obtain ⟨cl, hread⟩ := exists_read?_of_handle h
  rw [← Clause.length_arguments hread]
  exact (reaches_handle hin c k r).place_eq (Clause.read?_eq_some hread).2

/-! ### Round by round -/

/-- One round of a line, behind the word `w` that begins it. -/
def round (c : Compiler) (r : Rule) (w : Text) (t : Cursor) : Outcome Turn × Cursor :=
  if isComment w then (.ends <$> conclude r (.comment w), t)
  else
    match Keyword.ofWord? w with
    | none => (.ends <$> conclude r (.unknown w), t)
    | some k => (.goesOn <$> (c.handle k r t).1, (c.handle k r t).2)

/-- What a round can be: the one of a keyword, or the last one, at a word that ends the clauses. -/
theorem round_cases (c : Compiler) (r : Rule) (w : Text) (t : Cursor) :
    (∃ k, w = k.word ∧ c.round r w t = (.goesOn <$> (c.handle k r t).1, (c.handle k r t).2)) ∨
      ∃ e : Ending, (∀ ws, e.Begins (w :: ws)) ∧ c.round r w t = (.ends <$> conclude r e, t) := by
  unfold round
  cases hc : isComment w with
  | true => exact .inr ⟨.comment w, fun ws => ⟨hc, ws, rfl⟩, rfl⟩
  | false =>
    cases hk : Keyword.ofWord? w with
    | none => exact .inr ⟨.unknown w, fun ws => ⟨hc, hk, ws, rfl⟩, rfl⟩
    | some k => exact .inl ⟨k, Keyword.ofWord?_eq_some_iff.1 hk, rfl⟩

theorem passes_round (c : Compiler) (r : Rule) (h : t.next? = some (w, u)) : t.Passes (c.round r w u).2 := by
  have hnext := Cursor.Passes.next? h
  rcases round_cases c r w u with ⟨k, -, heq⟩ | ⟨e, -, heq⟩
  · rw [heq]
    exact hnext.reaches (reaches_handle hnext.inside c k r)
  · rw [heq]
    exact hnext

/-- Compiles the words ahead of a cursor, round by round. -/
def loop (c : Compiler) (r : Rule) (t : Cursor) : Course :=
  match h : t.next? with
  | none => ⟨conclude r .complete, []⟩
  | some (w, u) =>
    -- no round leaves as many words ahead as it finds
    have hpasses := passes_round c r h
    have : (c.round r w u).2.words.length - (c.round r w u).2.place < t.words.length - t.place := by
      have hlt := hpasses.lt
      have hinside := hpasses.inside
      rw [hpasses.words_eq] at hinside ⊢
      omega
    match (c.round r w u).1.result with
    | .ok (.goesOn r') => (loop c r' (c.round r w u).2).after (c.round r w u).1.log (c.round r w u).2
    | .ok (.ends out) => ⟨⟨.ok out, (c.round r w u).1.log⟩, [(c.round r w u).2]⟩
    | .error e => ⟨⟨.error e, (c.round r w u).1.log⟩, [(c.round r w u).2]⟩
termination_by t.words.length - t.place

theorem loop_of_next?_eq_none (h : t.next? = none) : c.loop r t = ⟨conclude r .complete, []⟩ := by
  rw [loop]
  split
  · rfl
  · next h' =>
    rw [h] at h'
    cases h'

theorem loop_of_next?_eq_some (h : t.next? = some (w, u)) : c.loop r t =
    match (c.round r w u).1.result with
    | .ok (.goesOn r') => (c.loop r' (c.round r w u).2).after (c.round r w u).1.log (c.round r w u).2
    | .ok (.ends out) => ⟨⟨.ok out, (c.round r w u).1.log⟩, [(c.round r w u).2]⟩
    | .error e => ⟨⟨.error e, (c.round r w u).1.log⟩, [(c.round r w u).2]⟩ := by
  rw [loop]
  split
  · next h' =>
    rw [h] at h'
    cases h'
  · next h' =>
    rw [h] at h'
    cases h'
    rfl

/-! ### The loop compiles a line -/

theorem compileFrom_of_begins {e : Ending} {ws : List Text} (h : e.Begins ws) (c : Compiler) (r : Rule) :
    c.compileFrom r ws = conclude r e := by
  rw [compileFrom, Clause.sequence_of_begins h]
  exact pure_bind _ _

/-- The words of a line are compiled by its first round and by the others behind it. -/
theorem compileFrom_cons (c : Compiler) (r : Rule) (w : Text) (t : Cursor) :
    c.compileFrom r (w :: t.ahead) = (c.round r w t).1 >>= fun
      | .goesOn r' => c.compileFrom r' (c.round r w t).2.ahead
      | .ends out => pure out := by
  rcases round_cases c r w t with ⟨k, rfl, heq⟩ | ⟨e, he, heq⟩
  · rw [heq, compileFrom_keyword, dispatch_ahead]
    simp only [bind_map_left]
  · rw [heq, compileFrom_of_begins (he _)]
    simp only [bind_map_left, bind_pure]

theorem outcome_loop (c : Compiler) (r : Rule) (t : Cursor) : (c.loop r t).outcome = c.compileFrom r t.ahead := by
  induction r, t using loop.induct c with
  | case1 r t hnext =>
    have hbegins : Ending.complete.Begins t.ahead := Cursor.ahead_eq_nil hnext
    rw [loop_of_next?_eq_none hnext, compileFrom_of_begins hbegins]
  | case2 r t w u hnext _ _ r' hr ih =>
    rw [loop_of_next?_eq_some hnext, Cursor.ahead_of_next? hnext, compileFrom_cons, Outcome.bind_eq_of_ok hr]
    simp only [hr, Course.after, ih]
  | case3 r t w u hnext _ _ out hr =>
    rw [loop_of_next?_eq_some hnext, Cursor.ahead_of_next? hnext, compileFrom_cons, Outcome.bind_eq_of_ok hr]
    simp [hr]
  | case4 r t w u hnext _ _ e hr =>
    rw [loop_of_next?_eq_some hnext, Cursor.ahead_of_next? hnext, compileFrom_cons, Outcome.bind_eq_of_error hr]
    simp only [hr]

theorem compileLine_eq_loop (c : Compiler) (line : Text) :
    c.compileLine line = if line.words.head?.all isComment then pure (some {})
      else (c.loop (Rule.onChain c.chain) { words := line.words }).outcome := by
  rw [outcome_loop]
  show c.compileLine line = if line.words.head?.all isComment then pure (some {}) else c.compileWords line.words
  unfold compileLine
  cases line.words <;> rfl

/-! ### What the rounds take -/

theorem exists_clause_of_goesOn (h : (c.round r w t).1.result = .ok (.goesOn r')) :
    ∃ k cl, w = k.word ∧ Clause.read? k t.ahead = some (cl, (c.round r w t).2.ahead) := by
  rcases round_cases c r w t with ⟨k, hk, heq⟩ | ⟨e, -, heq⟩
  · rw [heq, Outcome.map_eq] at h
    cases hr : (c.handle k r t).1.result with
    | error e => simp [hr, Except.map] at h
    | ok r'' =>
      obtain ⟨cl, hread⟩ := exists_read?_of_handle hr
      exact ⟨k, cl, hk, by rw [heq, hread]⟩
  · rw [heq, Outcome.map_eq] at h
    cases hr : (conclude r e).result <;> simp [hr, Except.map] at h

theorem sequence_of_ends (h : (c.round r w t).1.result = .ok (.ends out)) :
    (c.round r w t).2 = t ∧ ∀ ws, (Clause.sequence (w :: ws)).1 = [] := by
  rcases round_cases c r w t with ⟨k, -, heq⟩ | ⟨e, he, heq⟩
  · rw [heq, Outcome.map_eq] at h
    cases hr : (c.handle k r t).1.result <;> simp [hr, Except.map] at h
  · rw [heq]
    exact ⟨rfl, fun ws => congrArg Prod.fst (Clause.sequence_of_begins (he ws))⟩

theorem isChain_cursors (c : Compiler) (r : Rule) (t : Cursor) :
    (t :: (c.loop r t).cursors).IsChain Cursor.Passes := by
  induction r, t using loop.induct c with
  | case1 r t hnext =>
    rw [loop_of_next?_eq_none hnext]
    exact .singleton t
  | case2 r t w u hnext hpasses _ r' hr ih =>
    rw [loop_of_next?_eq_some hnext, hr]
    exact .cons_cons hpasses ih
  | case3 r t w u hnext hpasses _ out hr =>
    rw [loop_of_next?_eq_some hnext, hr]
    exact .cons_cons hpasses (.singleton _)
  | case4 r t w u hnext hpasses _ e hr =>
    rw [loop_of_next?_eq_some hnext, hr]
    exact .cons_cons hpasses (.singleton _)

/-- Rounds that do not fail take a clause each, in order, and the last one the word that ends the clauses. -/
theorem upTo_cursors {left : List Text} (h : (c.loop r t).outcome.result = .ok out)
    (hleft : t.ahead = (Clause.sequence t.ahead).1.flatMap Clause.words ++ left) :
    List.zipWith Cursor.upTo (t :: (c.loop r t).cursors) (c.loop r t).cursors =
      (Clause.sequence t.ahead).1.map Clause.words ++ (left.take 1).map ([·]) := by
  -- from round to round the words behind the clauses stay, and one clause less is in front of them
  induction r, t using loop.induct c with
  | case1 r t hnext =>
    have hnil := Cursor.ahead_eq_nil hnext
    simp only [hnil, Clause.sequence_nil, List.flatMap_nil, List.nil_append] at hleft ⊢
    rw [loop_of_next?_eq_none hnext, ← hleft]
    rfl
  | case2 r t w u hnext hpasses _ r' hr ih =>
    obtain ⟨k, cl, rfl, hread⟩ := exists_clause_of_goesOn hr
    obtain ⟨rfl, hwords⟩ := Clause.read?_eq_some hread
    set v := (c.round r cl.keyword.word u).2
    have hloop : c.loop r t = (c.loop r' v).after (c.round r cl.keyword.word u).1.log v := by
      rw [loop_of_next?_eq_some hnext, hr]
    have hcs : (Clause.sequence t.ahead).1 = cl :: (Clause.sequence v.ahead).1 := by
      rw [Cursor.ahead_of_next? hnext, Clause.sequence_cons hread]
    have hahead : t.ahead = cl.words ++ v.ahead := by
      rw [Cursor.ahead_of_next? hnext, hwords]
      rfl
    rw [hloop] at h ⊢
    rw [hcs, hahead, List.flatMap_cons, List.append_assoc] at hleft
    rw [hcs]
    show t.upTo v :: _ = cl.words :: (_ ++ _)
    rw [hpasses.upTo_eq hahead, ← ih h (List.append_cancel_left hleft)]
    rfl
  | case3 r t w u hnext hpasses _ out' hr =>
    obtain ⟨heq, hnil⟩ := sequence_of_ends hr
    have hahead := Cursor.ahead_of_next? hnext
    have hupTo : t.upTo u = [w] := (heq ▸ hpasses).upTo_eq hahead
    have hcs : (Clause.sequence t.ahead).1 = [] := hahead ▸ hnil _
    rw [hcs] at hleft ⊢
    obtain rfl : t.ahead = left := hleft
    rw [loop_of_next?_eq_some hnext, hr, heq, hahead]
    show [t.upTo u] = [[w]]
    rw [hupTo]
  | case4 r t w u hnext hpasses _ e hr =>
    rw [loop_of_next?_eq_some hnext, hr] at h
    cases h

theorem exists_result_conclude {e : Ending} (hd : e.isDone = true) (r : Rule) :
    ∃ out, (conclude r e).result = .ok out := by
  rcases Ending.isDone_iff.1 hd with rfl | ⟨w, rfl⟩
  · exact ⟨_, rfl⟩
  · exact ⟨_, rfl⟩

theorem exists_result_loop {line : Text} {out : Ruleset} (h : (c.compileLine line).result = .ok (some out)) :
    ∃ o, (c.loop (Rule.onChain c.chain) { words := line.words }).outcome.result = .ok o := by
  obtain ⟨hd, r, hr, -⟩ := compileLine_eq_some_iff.1 h
  obtain ⟨o, ho⟩ := exists_result_conclude hd r
  refine ⟨o, ?_⟩
  rw [outcome_loop]
  show (c.rule line.clauses >>= fun r => conclude r line.ending).result = .ok o
  rw [Outcome.bind_eq_of_ok hr]
  exact ho

/-- A line is compiled round by round over a cursor, which is kept among the words and never goes back. A keyword
takes no word for an action, for `forward`, `output` and `all`, one for addresses, interfaces, states and chains,
and for ports one or, with a protocol word among the next two words, two. Each round takes a word at least, so there
are no more rounds than words. The rounds of a line that has a ruleset take its clauses one after the other, each a
keyword with its arguments; what is left is a comment or nothing, and the last round takes the first word of it. -/
theorem loop_takes_words (c : Compiler) :
    (∀ line, c.compileLine line = if line.words.head?.all isComment then pure (some {})
      else (c.loop (Rule.onChain c.chain) { words := line.words }).outcome) ∧
    (∀ k (t : Cursor), Cursor.view (t.take k) = Clause.read? k t.ahead) ∧
    (∀ t : Cursor, t.place ≤ t.words.length →
      (∀ w u, t.next? = some (w, u) → t.Passes u) ∧ ∀ n, t.Reaches (t.skip n)) ∧
    (∀ k r (t : Cursor), t.place ≤ t.words.length → t.Reaches (c.handle k r t).2 ∧
      ∀ r', (c.handle k r t).1.result = .ok r' → (c.handle k r t).2.place = t.place + k.arity t.ahead) ∧
    (∀ r t, (t :: (c.loop r t).cursors).IsChain Cursor.Passes ∧
      (c.loop r t).cursors.length ≤ t.words.length - t.place) ∧
    ∀ line out, (c.compileLine line).result = .ok (some out) →
      ∃ left, line.IsComposed line.clauses left ∧
        let t : Cursor := { words := line.words }
        let us := (c.loop (Rule.onChain c.chain) t).cursors
        List.zipWith Cursor.upTo (t :: us) us = line.clauses.map Clause.words ++ (left.take 1).map ([·]) := by
  refine ⟨c.compileLine_eq_loop, fun k t => t.view_take k,
    fun t h => ⟨fun w u => Cursor.Passes.next?, Cursor.Reaches.skip h⟩,
    fun k r t h => ⟨reaches_handle h c k r, fun r' => place_handle h⟩,
    fun r t => ⟨c.isChain_cursors r t, Cursor.Passes.length_le (c.isChain_cursors r t)⟩, fun line out h => ?_⟩
  obtain ⟨left, hleft⟩ := Text.exists_isComposed (compileLine_eq_some_iff.1 h).1
  obtain ⟨o, ho⟩ := exists_result_loop h
  exact ⟨left, hleft, upTo_cursors ho hleft.1⟩

theorem loop_takes_words_override :
    let c : Compiler := ⟨.filter, "INPUT", false⟩
    let r := Rule.onChain "INPUT"
    let line : Text := "drop sport Both 53 from ::1 # to y port"
    let s : Cursor := { words := line.words }
    let t : Cursor := ⟨["port", "22", "UDP"], 1⟩
    let out : Ruleset := ⟨[], ["-A INPUT -p tcp -s ::1/128 --sport 53 -j DROP",
      "-A INPUT -p udp -s ::1/128 --sport 53 -j DROP"]⟩
    let taken : List (List Text) := [["drop"], ["sport", "Both", "53"], ["from", "::1"], ["#"]]
    ((c.compileLine line).result = .ok (some out) ∧
        List.zipWith Cursor.upTo (s :: (c.loop r s).cursors) (c.loop r s).cursors = taken) ∧
      t.place ≤ t.words.length ∧
      (c.handle (.ports .destination) r t).1.result =
        .ok ((r.chooseProtocol (some (.one .udp))).addPorts .destination ["22"]) ∧
      (c.handle (.ports .destination) r t).2.place = 3 := by
  intro c r line s t out taken
  obtain ⟨-, -, -, hhandle, -, hline⟩ := loop_takes_words c
  have hout : (c.compileLine line).result = .ok (some out) := by decide +kernel
  have hin : t.place ≤ t.words.length := by decide
  have hports : (c.handle (.ports .destination) r t).1.result =
      .ok ((r.chooseProtocol (some (.one .udp))).addPorts .destination ["22"]) := by decide +kernel
  refine ⟨⟨hout, ?_⟩, hin, hports, (hhandle _ r t hin).2 _ hports⟩
  obtain ⟨left, hcomposed, htaken⟩ := hline line out hout
  have hwords : line.words = line.clauses.flatMap Clause.words ++ (["#", "to", "y", "port"] : List Text) := by
    decide +kernel
  obtain rfl := List.append_cancel_left (hwords.symm.trans hcomposed.1)
  refine htaken.trans ?_
  decide +kernel

end Compiler

end Firewall
