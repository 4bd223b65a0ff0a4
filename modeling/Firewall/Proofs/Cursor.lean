import Firewall.Proofs.Composition

/-!
# Cursors

A `Cursor` is a place among the words of a line. It looks ahead by `peek?` and is moved by `next?` and `skip`
only; `Cursor.take` takes the arguments of a keyword with these. Every move keeps a cursor among its words and
never takes it back (`Cursor.Reaches`). What is ahead of a cursor is what a reader of words has left, so both
take the same clause and leave the same words (`Cursor.view_take`). `Keyword.arity` is how many words a keyword
takes (`Clause.length_arguments`).
-/

namespace Firewall

/-- The words of a line and a place among them: the words in front of the place are taken. -/
structure Cursor where
  words : List Text
  place : Nat := 0
deriving DecidableEq, Repr

namespace Cursor

/-! ### Moving a cursor -/

/-- The words that are not taken. -/
def ahead (t : Cursor) : List Text := t.words.drop t.place

/-- The word that stands `n` words ahead. -/
def peek? (t : Cursor) (n : Nat) : Option Text := t.words[t.place + n]?

/-- Takes the next word, if there is one. -/
def next? (t : Cursor) : Option (Text × Cursor) :=
  (t.peek? 0).map fun w => (w, { t with place := t.place + 1 })

/-- Passes over `n` words, or over those that are left. -/
def skip (t : Cursor) (n : Nat) : Cursor := { t with place := min (t.place + n) t.words.length }

/-- The words from a cursor up to another. -/
def upTo (t u : Cursor) : List Text := t.ahead.take (u.place - t.place)

variable {t u v : Cursor} {w : Text} {ws : List Text}

theorem length_ahead (t : Cursor) : t.ahead.length = t.words.length - t.place := List.length_drop

@[simp] theorem peek?_eq (t : Cursor) (n : Nat) : t.peek? n = t.ahead[n]? := List.getElem?_drop.symm

@[simp] theorem ahead_skip (t : Cursor) (n : Nat) : (t.skip n).ahead = t.ahead.drop n := by
  rw [ahead, ahead, List.drop_drop]
  show t.words.drop (min (t.place + n) t.words.length) = t.words.drop (t.place + n)
  rcases Nat.le_total (t.place + n) t.words.length with h | h
  · rw [Nat.min_eq_left h]
  · rw [Nat.min_eq_right h, List.drop_length, List.drop_of_length_le h]

theorem next?_of_nil (h : t.ahead = []) : t.next? = none := by
  simp [next?, h]

theorem next?_of_cons (h : t.ahead = w :: ws) : t.next? = some (w, { t with place := t.place + 1 }) := by
  simp [next?, h]

theorem ahead_eq_nil (h : t.next? = none) : t.ahead = [] := by
  rcases hws : t.ahead with _ | ⟨w, ws⟩
  · rfl
  · rw [next?_of_cons hws] at h
    cases h

theorem ahead_of_next? (h : t.next? = some (w, u)) : t.ahead = w :: u.ahead := by
  rcases hws : t.ahead with _ | ⟨x, ws⟩
  · rw [next?_of_nil hws] at h
    cases h
  · rw [next?_of_cons hws] at h
    cases h
    show w :: ws = w :: t.words.drop (t.place + 1)
    rw [← List.drop_drop, show t.words.drop t.place = w :: ws from hws]
    rfl

/-! ### Where a cursor may come to -/

/-- Whether a cursor may come to another: among the same words, not behind it and not beyond their end. -/
structure Reaches (t u : Cursor) : Prop where
  words_eq : u.words = t.words
  le : t.place ≤ u.place
  inside : u.place ≤ u.words.length

/-- Whether a cursor may come to another by taking a word at least. -/
structure Passes (t u : Cursor) : Prop extends Reaches t u where
  lt : t.place < u.place

namespace Reaches

theorem refl (h : t.place ≤ t.words.length) : t.Reaches t := ⟨rfl, Nat.le_refl _, h⟩

theorem trans (h : t.Reaches u) (h' : u.Reaches v) : t.Reaches v :=
  ⟨h'.words_eq.trans h.words_eq, Nat.le_trans h.le h'.le, h'.inside⟩

theorem skip (h : t.place ≤ t.words.length) (n : Nat) : t.Reaches (t.skip n) :=
  ⟨rfl, Nat.le_min.2 ⟨Nat.le_add_right _ _, h⟩, Nat.min_le_right _ _⟩

/-- A cursor has moved as many places as there are words between. -/
theorem place_eq (h : t.Reaches u) (hws : t.ahead = ws ++ u.ahead) : u.place = t.place + ws.length := by
  have hlen := congrArg List.length hws
  rw [List.length_append, length_ahead, length_ahead, h.words_eq] at hlen
  have hinside := h.inside
  rw [h.words_eq] at hinside
  have hle := h.le
  omega

theorem upTo_eq (h : t.Reaches u) (hws : t.ahead = ws ++ u.ahead) : t.upTo u = ws := by
  rw [upTo, h.place_eq hws, Nat.add_sub_cancel_left, hws, List.take_left]

end Reaches

namespace Passes

theorem next? (h : t.next? = some (w, u)) : t.Passes u := by
  have hahead := ahead_of_next? h
  rw [next?_of_cons hahead] at h
  cases h
  have hlen := t.length_ahead
  rw [hahead, List.length_cons] at hlen
  have hinside : t.place + 1 ≤ t.words.length := by omega
  exact ⟨⟨rfl, Nat.le_succ _, hinside⟩, Nat.lt_succ_self _⟩

theorem reaches (h : t.Passes u) (h' : u.Reaches v) : t.Passes v :=
  ⟨h.toReaches.trans h', Nat.lt_of_lt_of_le h.lt h'.le⟩

/-- A cursor that takes words again and again does so no more often than there are words ahead. -/
theorem length_le {us : List Cursor} (h : (t :: us).IsChain Passes) : us.length ≤ t.words.length - t.place := by
  induction us generalizing t with
  | nil => exact Nat.zero_le _
  | cons u us ih =>
    obtain ⟨hu, hus⟩ := List.isChain_cons_cons.1 h
    have hle := ih hus
    have hlt := hu.lt
    have hinside := hu.inside
    rw [hu.words_eq] at hle hinside
    rw [List.length_cons]
    omega

end Passes

/-! ### The arguments of a keyword -/

/-- A protocol word among the next two words, and how far ahead it stands; the first one counts. -/
def override? (t : Cursor) : Option (Nat × Text) :=
  [0, 1].findSome? fun n => ((t.peek? n).filter isProtocolWord).map fun w => (n, w)

/-- Takes the next word as the argument of a clause. -/
def argument (t : Cursor) (f : Text → Clause) : Option Clause × Cursor :=
  match t.next? with
  | some (w, u) => (some (f w), u)
  | none => (none, t)

/-- Takes the arguments of a keyword for its clause, as far as there are any. -/
def take (t : Cursor) : Keyword → Option Clause × Cursor
  | .act v => (some (.act v), t)
  | .forward => (some .forward, t)
  | .output => (some .output, t)
  | .all => (some .all, t)
  | .chain => t.argument .chain
  | .state => t.argument .state
  | .addresses s => t.argument (.addresses s)
  | .interfaces w => t.argument (.interfaces w)
  | .ports s =>
    match t.override? with
    | none => t.argument (.ports s .absent)
    | some (0, p) => (t.skip 1).argument (.ports s (.before p))
    | some (_, p) =>
      match t.argument (.ports s (.after p)) with
      | (some cl, u) => (some cl, u.skip 1)
      | (none, u) => (none, u)

theorem Reaches.argument (h : t.place ≤ t.words.length) (f : Text → Clause) : t.Reaches (t.argument f).2 := by
  unfold Cursor.argument
  split
  · next hnext => exact (Passes.next? hnext).toReaches
  · exact refl h

/-- Whatever a keyword finds, the cursor stays among its words and does not go back. -/
theorem Reaches.take (h : t.place ≤ t.words.length) (k : Keyword) : t.Reaches (t.take k).2 := by
  cases k with
  | ports s =>
    rcases hover : t.override? with _ | ⟨_ | n, p⟩
    · simp only [Cursor.take, hover]
      exact argument h _
    · simp only [Cursor.take, hover]
      exact (skip h 1).trans (argument (skip h 1).inside _)
    · have hlist := argument h (.ports s (.after p))
      simp only [Cursor.take, hover]
      rcases hl : t.argument (.ports s (.after p)) with ⟨_ | cl, u⟩ <;> rw [hl] at hlist
      · exact hlist
      · exact hlist.trans (skip hlist.inside 1)
  | chain | state | addresses | interfaces => exact argument h _
  | _ => exact refl h

/-- A clause that has been taken, with the words ahead. -/
def view (p : Option Clause × Cursor) : Option (Clause × List Text) := p.1.map fun cl => (cl, p.2.ahead)

theorem argument_of_cons (h : t.ahead = w :: ws) (f : Text → Clause) :
    ∃ u, t.argument f = (some (f w), u) ∧ u.ahead = ws := by
  have hnext := next?_of_cons h
  refine ⟨{ t with place := t.place + 1 }, by rw [argument, hnext], ?_⟩
  exact (List.cons.inj (h.symm.trans (ahead_of_next? hnext))).2.symm

theorem view_argument (t : Cursor) (f : Text → Clause) : view (t.argument f) =
    match t.ahead with
    | [] => none
    | w :: ws => some (f w, ws) := by
  rcases h : t.ahead with _ | ⟨w, ws⟩
  · rw [argument, next?_of_nil h]
    rfl
  · obtain ⟨u, hu, rfl⟩ := argument_of_cons h f
    rw [hu]
    rfl

theorem override?_eq (t : Cursor) : t.override? =
    [0, 1].findSome? fun n => (t.ahead[n]?.filter isProtocolWord).map fun w => (n, w) := by
  simp only [override?, peek?_eq]

theorem view_take_ports (t : Cursor) (s : Side) : view (t.take (.ports s)) = Clause.read? (.ports s) t.ahead := by
  rcases h : t.ahead with _ | ⟨w, ws⟩
  · have hover : t.override? = none := by simp [override?_eq, h]
    simp only [take, hover, view_argument, h]
    rfl
  cases hw : isProtocolWord w with
  | true =>
    have hover : t.override? = some (0, w) := by simp [override?_eq, h, hw]
    simp only [take, hover, view_argument, ahead_skip, h, Clause.read?, hw, if_true]
    cases ws <;> rfl
  | false =>
    rcases ws with _ | ⟨p, ws⟩
    · have hover : t.override? = none := by simp [override?_eq, h, hw]
      simp [take, hover, view_argument, h, Clause.read?, hw]
    cases hp : isProtocolWord p with
    | true =>
      have hover : t.override? = some (1, p) := by simp [override?_eq, h, hw, hp]
      obtain ⟨u, hu, hahead⟩ := argument_of_cons h (.ports s (.after p))
      simp [take, hover, hu, view, hahead, Clause.read?, hw, hp]
    | false =>
      have hover : t.override? = none := by simp [override?_eq, h, hw, hp]
      simp [take, hover, view_argument, h, Clause.read?, hw, hp]

/-- A keyword takes at a cursor what a reader takes off the words ahead. -/
theorem view_take (t : Cursor) (k : Keyword) : view (t.take k) = Clause.read? k t.ahead := by
  cases k with
  | ports s => exact view_take_ports t s
  | chain | state | addresses | interfaces =>
    refine (view_argument t _).trans ?_
    cases t.ahead <;> rfl
  | _ => rfl

end Cursor

/-! ### How many words a keyword takes -/

/-- How many words a keyword takes of those behind it: a port clause takes a second one if one of the next two
words names a protocol. -/
def Keyword.arity : Keyword → List Text → Nat
  | act _, _ | forward, _ | output, _ | all, _ => 0
  | chain, _ | state, _ | addresses _, _ | interfaces _, _ => 1
  | ports _, ws => if ∃ w ∈ ws.take 2, IsOverride w then 2 else 1

theorem Clause.length_arguments {k : Keyword} {ws rest : List Text} {cl : Clause}
    (h : read? k ws = some (cl, rest)) : cl.arguments.length = k.arity ws := by
  obtain ⟨rfl, rfl, hfits⟩ := read?_eq_some_iff.1 h
  cases cl with
  | ports s p l =>
    cases p with
    | absent =>
      have hnone : ¬ ∃ w ∈ (l :: rest).take 2, IsOverride w := by
        obtain ⟨hl, hrest⟩ := hfits
        rcases rest with _ | ⟨p, rest⟩
        · simpa using hl
        · simpa using ⟨hl, hrest p rfl⟩
      exact (if_neg hnone).symm
    | before p =>
      have hsome : ∃ w ∈ (p :: l :: rest).take 2, IsOverride w := ⟨p, by simp, hfits⟩
      exact (if_pos hsome).symm
    | after p =>
      have hsome : ∃ w ∈ (l :: p :: rest).take 2, IsOverride w := ⟨p, by simp, hfits.2⟩
      exact (if_pos hsome).symm
  | _ => rfl

end Firewall
