import Firewall.Proofs.Families
import Firewall.Proofs.Grammar
import Firewall.Proofs.Strictness

/-!
# The words of a line

Nothing but the words of a line counts. `Runs` says what the words of a text are, without a reader:
the maximal runs of characters that are no blanks, whatever blanks stand between them and at the ends
(`runs_iff`). A `Scanner` finds them character by character, with one word in the making
(`scan_eq_words`), and `Compiler.compileScanned` compiles a line with it, after a look at the first
character that is no blank. Main statement: `compileLine_eq_of_runs`.
-/

namespace Firewall

namespace Text
variable {t u : Text} {ws : List Text}

/-! ### Runs -/

/-- The maximal runs of characters that are no blanks in a text: in front of each there are blanks, and
behind it there is a blank or nothing. -/
inductive Runs : List Text → Text → Prop
  | nil {b : Text} (hb : ∀ x ∈ b, isBlank x = true) : Runs [] b
  | cons {b w t : Text} {ws : List Text} (hb : ∀ x ∈ b, isBlank x = true) (hne : w ≠ [])
      (hw : ∀ x ∈ w, isBlank x = false) (ht : ∀ x, t.head? = some x → isBlank x = true)
      (h : Runs ws t) : Runs (w :: ws) (b ++ w ++ t)

theorem words_cons_blank {x : Char} (hx : isBlank x = true) (t : Text) : words (x :: t) = words t := by
  simpa using words_append_blank [] t hx

theorem words_append_of_head (ht : ∀ x, t.head? = some x → isBlank x = true) :
    words (u ++ t) = words u ++ words t := by
  cases t with
  | nil => simp
  | cons x t => rw [words_append_blank u t (ht x rfl), words_cons_blank (ht x rfl)]

theorem words_eq_nil (ht : ∀ x ∈ t, isBlank x = true) : words t = [] := by
  induction t with
  | nil => exact words_nil
  | cons x t ih =>
    rw [List.forall_mem_cons] at ht
    rw [words_cons_blank ht.1, ih ht.2]

theorem words_blank_append (hu : ∀ x ∈ u, isBlank x = true) (t : Text) : words (u ++ t) = words t := by
  induction u with
  | nil => rfl
  | cons x u ih =>
    rw [List.forall_mem_cons] at hu
    rw [List.cons_append, words_cons_blank hu.1, ih hu.2]

theorem words_append_blanks (t : Text) (hu : ∀ x ∈ u, isBlank x = true) : words (t ++ u) = words t := by
  have hhead : ∀ x, u.head? = some x → isBlank x = true := fun x hx => hu x (List.mem_of_head? hx)
  rw [words_append_of_head hhead, words_eq_nil hu, List.append_nil]

theorem Runs.words_eq (h : Runs ws t) : t.words = ws := by
  induction h with
  | nil hb => exact words_eq_nil hb
  | @cons b w t ws hb hne hw ht h ih =>
    rw [words_append_of_head ht, words_blank_append hb, words_eq_singleton hw hne, ih]
    rfl

theorem Runs.blank_cons {x : Char} (hx : isBlank x = true) (h : Runs ws t) : Runs ws (x :: t) := by
  cases h with
  | nil hb => exact .nil (List.forall_mem_cons.2 ⟨hx, hb⟩)
  | cons hb hne hw ht h => exact .cons (List.forall_mem_cons.2 ⟨hx, hb⟩) hne hw ht h

theorem exists_runs (t : Text) : ∃ ws, Runs ws t := by
  induction t with
  | nil => exact ⟨[], .nil (by simp)⟩
  | cons x t ih =>
    obtain ⟨ws, h⟩ := ih
    cases hx : isBlank x with
    | true => exact ⟨ws, h.blank_cons hx⟩
    | false =>
      have hx' : ∀ y ∈ [x], isBlank y = false := by simpa using hx
      -- the character joins the first run if that begins the text, else it is a run of its own
      cases h with
      | nil hb =>
        exact ⟨[[x]], .cons (b := []) (by simp) (by simp) hx' (fun y hy => hb y (List.mem_of_head? hy))
          (.nil hb)⟩
      | @cons b w t ws hb hne hw ht h =>
        cases b with
        | nil =>
          have hxw : ∀ y ∈ x :: w, isBlank y = false := List.forall_mem_cons.2 ⟨hx, hw⟩
          exact ⟨(x :: w) :: ws, .cons (b := []) hb (by simp) hxw ht h⟩
        | cons y b =>
          have hy : ∀ z, (y :: b ++ w ++ t).head? = some z → isBlank z = true := by
            rintro z ⟨⟩
            exact hb y (by simp)
          exact ⟨[x] :: w :: ws, .cons (b := []) (by simp) (by simp) hx' hy (.cons hb hne hw ht h)⟩

/-- Every text has runs, and the words of the text are just these. -/
theorem runs_iff : Runs ws t ↔ t.words = ws := by
  refine ⟨Runs.words_eq, ?_⟩
  rintro rfl
  obtain ⟨ws, h⟩ := exists_runs t
  exact h.words_eq ▸ h

/-! ### The ends of a text -/

theorem dropWhile_isBlank_eq (t : Text) :
    t.dropWhile isBlank = t.strip ++ ((t.dropWhile isBlank).reverse.takeWhile isBlank).reverse := by
  rw [strip, ← List.reverse_append, List.takeWhile_append_dropWhile, List.reverse_reverse]

theorem words_strip (t : Text) : t.strip.words = t.words := by
  have hblank : ∀ u : Text, ∀ x ∈ u.takeWhile isBlank, isBlank x = true :=
    fun u => List.all_eq_true.1 List.all_takeWhile
  have hback : ∀ x ∈ ((t.dropWhile isBlank).reverse.takeWhile isBlank).reverse, isBlank x = true :=
    fun x hx => hblank _ x (List.mem_reverse.1 hx)
  calc words t.strip = words (t.dropWhile isBlank) := by
        rw [dropWhile_isBlank_eq, words_append_blanks _ hback]
    _ = words (t.takeWhile isBlank ++ t.dropWhile isBlank) := (words_blank_append (hblank t) _).symm
    _ = words t := by rw [List.takeWhile_append_dropWhile]

theorem isBlank_of_head?_strip {x : Char} (h : t.strip.head? = some x) : isBlank x = false := by
  obtain ⟨s, hs⟩ := List.head?_eq_some_iff.1 h
  have hhead : (t.dropWhile isBlank).head? = some x := by
    rw [dropWhile_isBlank_eq, hs]
    rfl
  have hnot := List.head?_dropWhile_not isBlank t
  rw [hhead] at hnot
  simpa using hnot

/-- A text begins with the first of its words if it does not begin with a blank. -/
theorem words_eq_cons {x : Char} (hx : isBlank x = false) (t : Text) :
    ∃ w ws, words (x :: t) = (x :: w) :: ws := by
  obtain ⟨ws, h⟩ := exists_runs (x :: t)
  rw [h.words_eq]
  generalize hu : x :: t = u at h
  cases h with
  | nil hb =>
    subst hu
    have hblank := hb x (by simp)
    rw [hx] at hblank
    cases hblank
  | @cons b w t' ws hb hne hw ht h =>
    cases b with
    | nil =>
      obtain ⟨y, w, rfl⟩ := List.exists_cons_of_ne_nil hne
      obtain ⟨rfl, -⟩ := List.cons.inj hu
      exact ⟨w, ws, rfl⟩
    | cons y b =>
      obtain ⟨rfl, -⟩ := List.cons.inj hu
      have hblank := hb x (by simp)
      rw [hx] at hblank
      cases hblank

/-! ### Reading words character by character -/

/-- The words read so far and the one in the making, if there is one. -/
structure Scanner where
  words : List Text := []
  buffer : Text := []
  pending : Bool := false

namespace Scanner

def push (s : Scanner) (x : Char) : Scanner :=
  if isBlank x then
    if s.pending then { words := s.words ++ [s.buffer], buffer := [], pending := false } else s
  else { s with buffer := s.buffer ++ [x], pending := true }

def finish (s : Scanner) : List Text := if s.pending then s.words ++ [s.buffer] else s.words

/-- There is a word in the making if the buffer holds something, and it holds no blank. -/
structure Ok (s : Scanner) : Prop where
  pending : s.pending = true ↔ s.buffer ≠ []
  buffer : ∀ x ∈ s.buffer, isBlank x = false

theorem finish_eq {s : Scanner} (h : s.Ok) : s.finish = s.words ++ Text.words s.buffer := by
  unfold finish
  split
  · next hp => rw [words_eq_singleton h.buffer (h.pending.1 hp)]
  · next hp =>
    have hb : s.buffer = [] := by simpa [h.pending] using hp
    rw [hb, words_nil, List.append_nil]

theorem finish_foldl_push {s : Scanner} (h : s.Ok) (t : Text) :
    (t.foldl push s).finish = s.words ++ Text.words (s.buffer ++ t) := by
  -- the word in the making is what the text goes on with
  induction t generalizing s with
  | nil => rw [List.foldl_nil, List.append_nil, finish_eq h]
  | cons x t ih =>
    rw [List.foldl_cons]
    cases hx : isBlank x with
    | true =>
      rw [words_append_blank _ _ hx]
      by_cases hp : s.pending = true
      · have hpush : s.push x = { words := s.words ++ [s.buffer] } := by simp [push, hx, hp]
        have hok : ({ words := s.words ++ [s.buffer] } : Scanner).Ok := ⟨by simp, by simp⟩
        rw [hpush, ih hok, words_eq_singleton h.buffer (h.pending.1 hp)]
        exact List.append_assoc _ _ _
      · have hb : s.buffer = [] := by simpa [h.pending] using hp
        have hpush : s.push x = s := by simp [push, hx, hp]
        rw [hpush, ih h, hb, words_nil]
        rfl
    | false =>
      have hpush : s.push x = ⟨s.words, s.buffer ++ [x], true⟩ := by simp [push, hx]
      have hok : (⟨s.words, s.buffer ++ [x], true⟩ : Scanner).Ok := by
        refine ⟨by simp, ?_⟩
        simpa [or_imp, forall_and] using ⟨h.buffer, hx⟩
      rw [hpush, ih hok, List.append_assoc]
      rfl

end Scanner

/-- The words of a text, put together character by character. This cannot fail: a buffer of characters is a
text as it stands, so there is nothing to decode and no error for it. -/
def scan (t : Text) : List Text := (t.foldl Scanner.push {}).finish

theorem scan_eq_words (t : Text) : t.scan = t.words := Scanner.finish_foldl_push ⟨by simp, by simp⟩ t

/-! ### A line of given words -/

/-- Whether a text can be a word of a line. -/
def IsWord (w : Text) : Prop := w ≠ [] ∧ ∀ x ∈ w, isBlank x = false

def ofWords (ws : List Text) : Text := [' '].intercalate ws

theorem isWord_of_mem_words {w : Text} (hw : w ∈ t.words) : IsWord w := by
  obtain ⟨hw, hne⟩ := List.mem_filter.1 hw
  exact ⟨by simpa using hne, eq_false_of_mem_splitOnP hw⟩

theorem words_ofWords (h : ∀ w ∈ ws, IsWord w) : (ofWords ws).words = ws := by
  induction ws with
  | nil => exact words_nil
  | cons w ws ih =>
    obtain ⟨⟨hne, hw⟩, hws⟩ := List.forall_mem_cons.1 h
    have hspace : isBlank ' ' = true := rfl
    cases ws with
    | nil =>
      have hsingle : ofWords [w] = w := List.intercalate_singleton
      rw [hsingle, words_eq_singleton hw hne]
    | cons w' ws =>
      have hcons : ofWords (w :: w' :: ws) = w ++ ' ' :: ofWords (w' :: ws) := by
        simp [ofWords, List.intercalate_cons_cons]
      rw [hcons, words_append_blank w _ hspace, words_eq_singleton hw hne, ih hws]
      rfl

end Text

theorem Rule.exists_fragmentsFor_ne_nil (r : Rule) : ∃ f, r.fragmentsFor f ≠ [] := by
  simp only [fragmentsFor_ne_nil_iff]
  by_cases h : ∃ f, r.uses f = true
  · obtain ⟨f, hf⟩ := h
    exact ⟨f, .inl hf⟩
  · exact ⟨.v4, .inr fun f => Bool.eq_false_iff.2 fun hf => h ⟨f, hf⟩⟩

namespace Compiler
variable {c : Compiler} {line : Text} {out : Ruleset}

/-- Compiles a line as it comes: blanks are taken off its ends, a line without anything else or with a
number sign in front is done with, and the words of any other are scanned. -/
def compileScanned (c : Compiler) (line : Text) : Outcome (Option Ruleset) :=
  let t := line.strip
  if t = [] ∨ isComment t = true then pure (some {}) else c.compileWords t.scan

theorem compileScanned_eq (c : Compiler) (line : Text) : c.compileScanned line = c.compileLine line := by
  have hwords := line.words_strip
  simp only [compileScanned, compileLine, Text.scan_eq_words]
  cases hs : line.strip with
  | nil =>
    rw [hs] at hwords
    simp [← hwords]
  | cons x t =>
    -- the first character of the line is that of its first word
    have hx := Text.isBlank_of_head?_strip (t := line) (x := x) (by rw [hs]; rfl)
    obtain ⟨w, ws, hw⟩ := Text.words_eq_cons hx t
    have hcomment : isComment (x :: t) = isComment (x :: w) := rfl
    rw [hs, hw] at hwords
    simp [hw, ← hwords, hcomment]

/-! ### Lines without a clause -/

theorem clauses_eq_nil_iff (h : (c.compileLine line).result = .ok (some out)) :
    line.clauses = [] ↔ ∀ w, line.words.head? = some w → w.head? = some '#' := by
  have hd := (compileLine_eq_some_iff.1 h).1
  simp only [← isComment_iff]
  unfold Text.clauses
  unfold Text.ending at hd
  cases hw : line.words with
  | nil => simp
  | cons w ws =>
    rw [hw] at hd
    cases hc : isComment w with
    | true => simp [Clause.sequence_comment hc, hc]
    | false => simp [sequence_ne_nil hc hd, hc]

theorem isEmpty_iff_clauses_eq_nil (h : (c.compileLine line).result = .ok (some out)) :
    out.isEmpty = true ↔ line.clauses = [] := by
  obtain ⟨-, r, -, rfl⟩ := compileLine_eq_some_iff.1 h
  split
  · next hcs => exact iff_of_true rfl hcs
  · next hcs =>
    refine iff_of_false (fun he => ?_) hcs
    obtain ⟨f, hf⟩ := r.exists_fragmentsFor_ne_nil
    simp only [Ruleset.isEmpty, Rule.ruleset, Bool.and_eq_true, List.isEmpty_iff, List.map_eq_nil_iff] at he
    cases f with
    | v4 => exact hf he.1
    | v6 => exact hf he.2

theorem clause_mem_log_rule (c : Compiler) (cl : Clause) (cs : List Clause) :
    Event.clause cl.keyword ∈ (c.rule (cl :: cs)).log := by
  rw [rule, List.foldlM_cons, Outcome.log_bind, log_addClause]
  simp

theorem clause_notMem_log_iff (h : (c.compileLine line).result = .ok (some out)) :
    (∀ k, Event.clause k ∉ (c.compileLine line).log) ↔ line.clauses = [] := by
  have hd := (compileLine_eq_some_iff.1 h).1
  rw [compileLine_eq]
  constructor
  · intro hlog
    by_contra hcs
    obtain ⟨cl, cs, hcl⟩ := List.exists_cons_of_ne_nil hcs
    refine hlog cl.keyword ?_
    rw [if_neg fun h => hcs h.1, compileWords, Outcome.log_bind, ← Text.clauses, hcl]
    exact List.mem_append_left _ (clause_mem_log_rule c cl cs)
  · intro hcs
    rw [if_pos ⟨hcs, hd⟩]
    simp

/-- Nothing but the words of a line counts, the runs of characters that are no blanks: two lines with the
same words have the same outcome, with the same notes, whatever blanks they are written with. The ruleset
of a line is empty if and only if no clause of it was noted, which is so for a line without a word and for
one whose first word is a comment. -/
theorem compileLine_eq_of_runs (c : Compiler) :
    (∀ t ws, Text.Runs ws t ↔ t.strip.scan = ws) ∧
    (∀ line, c.compileScanned line = c.compileLine line) ∧
    (∀ line line' ws, Text.Runs ws line → Text.Runs ws line' →
      c.compileLine line = c.compileLine line') ∧
    ∀ line out, (c.compileLine line).result = .ok (some out) →
      (out.isEmpty = true ↔ ∀ k, Event.clause k ∉ (c.compileLine line).log) ∧
      (out.isEmpty = true ↔ ∀ ws, Text.Runs ws line → ∀ w, ws.head? = some w → w.head? = some '#') := by
  refine ⟨fun t ws => ?_, c.compileScanned_eq, fun line line' ws h h' => ?_, fun line out h => ⟨?_, ?_⟩⟩
  · rw [Text.scan_eq_words, Text.words_strip, Text.runs_iff]
  · rw [Text.runs_iff] at h h'
    exact c.compileLine_congr (h.trans h'.symm)
  · rw [isEmpty_iff_clauses_eq_nil h, clause_notMem_log_iff h]
  · rw [isEmpty_iff_clauses_eq_nil h, clauses_eq_nil_iff h]
    simp [Text.runs_iff]

theorem compileLine_eq_of_runs_spaces :
    let c : Compiler := ⟨.filter, "INPUT", false⟩
    let line : Text := "\u00a0drop\u3000 port\x0c22\u2028# ssh\x0d"
    let comment : Text := "\u0085 #drop"
    let out : Ruleset := ⟨["-A INPUT -p tcp --dport 22 -j DROP"], ["-A INPUT -p tcp --dport 22 -j DROP"]⟩
    (c.compileLine line).result = .ok (some out) ∧
      c.compileLine line = c.compileLine "drop port 22 # ssh" ∧
      (∃ k, Event.clause k ∈ (c.compileLine line).log) ∧
      (c.compileLine comment).result = .ok (some {}) ∧ ∀ k, Event.clause k ∉ (c.compileLine comment).log := by
  intro c line comment out
  obtain ⟨hruns, -, hline, hempty⟩ := compileLine_eq_of_runs c
  have h : (c.compileLine line).result = .ok (some out) := by decide +kernel
  have h' : (c.compileLine comment).result = .ok (some {}) := by decide +kernel
  have hl : Text.Runs ["drop".toList, "port", "22", "#", "ssh"] line := (hruns _ _).2 (by decide +kernel)
  have hm : Text.Runs ["drop".toList, "port", "22", "#", "ssh"] "drop port 22 # ssh" :=
    (hruns _ _).2 (by decide +kernel)
  have hk : ¬ ∀ k, Event.clause k ∉ (c.compileLine line).log := by
    rw [← (hempty line out h).1]
    decide
  exact ⟨h, hline _ _ _ hl hm, by simpa using hk, h', (hempty comment {} h').1.1 rfl⟩

end Compiler

end Firewall
