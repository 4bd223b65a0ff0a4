import Firewall.Clause.Basic

/-!
# Reading clauses

`Clause.read?` takes the arguments of one keyword off the words that follow it, and
`Clause.sequence` reads the words of a line as clauses up to where they end: with the line, at a
comment, at a word that is no keyword, or at a keyword whose argument is missing. Reading looks at
words only, whatever they ask for. Main statement: `words_sequence`, the clauses and what is left
make up the line without gap or overlap.
-/

namespace Firewall

/-- What follows the clauses of a line. -/
inductive Ending where
  | complete
  /-- A comment, which begins with this word. -/
  | comment (word : Text)
  /-- A word that is no keyword. -/
  | unknown (word : Text)
  /-- A keyword whose argument is missing. -/
  | missing (keyword : Keyword)
deriving DecidableEq, Repr

def isComment (w : Text) : Bool := w.head? == some '#'

namespace Clause

/-- The clause that a keyword begins, and the words behind it. The protocol of a port clause is the
first protocol word among the next two words. -/
def read? : Keyword → List Text → Option (Clause × List Text)
  | .act v, ws => some (act v, ws)
  | .forward, ws => some (forward, ws)
  | .output, ws => some (output, ws)
  | .all, ws => some (all, ws)
  | .chain, w :: ws => some (chain w, ws)
  | .state, w :: ws => some (state w, ws)
  | .addresses s, w :: ws => some (addresses s w, ws)
  | .interfaces i, w :: ws => some (interfaces i w, ws)
  | .ports s, w :: ws =>
    if isProtocolWord w then
      match ws with
      | [] => none
      | l :: ws => some (ports s (.before w) l, ws)
    else
      match ws with
      | [] => some (ports s .absent w, [])
      | p :: ws => if isProtocolWord p then some (ports s (.after p) w, ws)
          else some (ports s .absent w, p :: ws)
  | _, [] => none

theorem read?_eq_some {k : Keyword} {ws rest : List Text} {c : Clause}
    (h : read? k ws = some (c, rest)) : c.keyword = k ∧ ws = c.arguments ++ rest := by
  unfold read? at h
  split at h
  · cases h; exact ⟨rfl, rfl⟩
  · cases h; exact ⟨rfl, rfl⟩
  · cases h; exact ⟨rfl, rfl⟩
  · cases h; exact ⟨rfl, rfl⟩
  · cases h; exact ⟨rfl, rfl⟩
  · cases h; exact ⟨rfl, rfl⟩
  · cases h; exact ⟨rfl, rfl⟩
  · cases h; exact ⟨rfl, rfl⟩
  · split at h
    · split at h
      · cases h
      · cases h; exact ⟨rfl, rfl⟩
    · split at h
      · cases h; exact ⟨rfl, rfl⟩
      · split at h
        · cases h; exact ⟨rfl, rfl⟩
        · cases h; exact ⟨rfl, rfl⟩
  · cases h

theorem length_le_of_read? {k : Keyword} {ws rest : List Text} {c : Clause}
    (h : read? k ws = some (c, rest)) : rest.length ≤ ws.length := by
  rw [(read?_eq_some h).2, List.length_append]
  omega

/-- The clauses of a line and what follows them. -/
def sequence : List Text → List Clause × Ending
  | [] => ([], .complete)
  | w :: ws =>
    if isComment w then ([], .comment w)
    else
      match Keyword.ofWord? w with
      | none => ([], .unknown w)
      | some k =>
        match h : read? k ws with
        | none => ([], .missing k)
        | some (c, rest) =>
          have : rest.length ≤ ws.length := length_le_of_read? h
          (c :: (sequence rest).1, (sequence rest).2)
termination_by ws => ws.length

@[simp] theorem sequence_nil : sequence [] = ([], .complete) := by rw [sequence]

theorem sequence_comment {w : Text} {ws : List Text} (h : isComment w = true) :
    sequence (w :: ws) = ([], .comment w) := by
  rw [sequence, if_pos h]

theorem sequence_unknown {w : Text} {ws : List Text} (h : isComment w = false)
    (hk : Keyword.ofWord? w = none) : sequence (w :: ws) = ([], .unknown w) := by
  rw [sequence, if_neg (by simp [h]), hk]

theorem not_isComment_word (k : Keyword) : isComment k.word = false := by
  rcases k with (_ | _ | _ | _) | _ | _ | _ | _ | _ | (_ | _) | (_ | _) | (_ | _) <;> rfl

theorem sequence_missing {k : Keyword} {ws : List Text} (h : read? k ws = none) :
    sequence (k.word :: ws) = ([], .missing k) := by
  rw [sequence, if_neg (by simp [not_isComment_word]), Keyword.ofWord?_word]
  simp only
  split
  · rfl
  · next c rest h' => rw [h] at h'; cases h'

theorem sequence_cons {k : Keyword} {ws rest : List Text} {c : Clause}
    (h : read? k ws = some (c, rest)) :
    sequence (k.word :: ws) = (c :: (sequence rest).1, (sequence rest).2) := by
  rw [sequence, if_neg (by simp [not_isComment_word]), Keyword.ofWord?_word]
  simp only
  split
  · next h' => rw [h] at h'; cases h'
  · next c' rest' h' =>
    rw [h] at h'
    cases h'
    rfl

end Clause

namespace Ending

/-- Whether the words `ws` can follow the clauses of a line that ends like this. -/
def Begins : Ending → List Text → Prop
  | complete, ws => ws = []
  | comment w, ws => isComment w = true ∧ ∃ rest, ws = w :: rest
  | unknown w, ws => isComment w = false ∧ Keyword.ofWord? w = none ∧ ∃ rest, ws = w :: rest
  | missing k, ws => ∃ rest, ws = k.word :: rest ∧ Clause.read? k rest = none

end Ending

namespace Clause

/-- The clauses of a line and what is left make up the line. -/
theorem words_sequence (ws : List Text) :
    ∃ rest, ws = ((sequence ws).1.flatMap words) ++ rest ∧ (sequence ws).2.Begins rest := by
  induction h : ws.length using Nat.strongRecOn generalizing ws with
  | ind n ih =>
    cases ws with
    | nil => exact ⟨[], by simp [Ending.Begins]⟩
    | cons w ws =>
      cases hc : isComment w with
      | true =>
        rw [sequence_comment hc]
        exact ⟨w :: ws, rfl, hc, ws, rfl⟩
      | false =>
        cases hk : Keyword.ofWord? w with
        | none =>
          rw [sequence_unknown hc hk]
          exact ⟨w :: ws, rfl, hc, hk, ws, rfl⟩
        | some k =>
          obtain rfl := Keyword.ofWord?_eq_some_iff.1 hk
          cases hr : read? k ws with
          | none =>
            rw [sequence_missing hr]
            exact ⟨k.word :: ws, rfl, ws, rfl, hr⟩
          | some p =>
            obtain ⟨c, rest⟩ := p
            rw [sequence_cons hr]
            have hlen := length_le_of_read? hr
            obtain ⟨rfl, hws⟩ := read?_eq_some hr
            simp only [List.length_cons] at h
            obtain ⟨left, hleft, hend⟩ := ih rest.length (by omega) rest rfl
            refine ⟨left, ?_, hend⟩
            rw [hws, List.flatMap_cons, words, List.cons_append, List.cons_append, List.append_assoc,
              ← hleft]

end Clause

end Firewall
