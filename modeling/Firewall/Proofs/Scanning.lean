import Firewall.Proofs.Literals
import Firewall.Proofs.PortNumbers

/-!
# Groups from left to right

`Address.read?` cuts a text at its separators and reads the pieces. The readers here have a place in the text and
go on from there, with no look at what is to come: digit by digit (`Numeral.goOn?`), octet by octet
(`Address.takeOctets?`) and group by group (`Address.takeGroups`). Each of them takes as much as it can. The
groups taken are those that the pieces write (`Groups.of_takeGroups`), and all of them are taken if what follows is
the end, a slash or a gap (`Groups.takeGroups_eq`).
-/

namespace Firewall

/-! ### Numbers -/

namespace Numeral
variable {base digits bound left n m : Nat} {p t u : Text}

/-- Whether no digit in `base` stands in front of a text. -/
def IsOver (base : Nat) (t : Text) : Prop := ∀ c, t.head? = some c → base ≤ digitValue c

/-- Takes the digits in `base` that go on with the number `n`. There may be `left` of them, and the number may not
reach the bound. -/
def goOn? (base bound left n : Nat) : Text → Option (Nat × Text)
  | [] => some (n, [])
  | c :: t =>
    if digitValue c < base then
      if 0 < left ∧ base * n + digitValue c < bound then goOn? base bound (left - 1) (base * n + digitValue c) t
      else none
    else some (n, c :: t)

/-- Takes a number below the bound from the front of a text, with one digit in `base` or more. -/
def take? (base digits bound : Nat) (t : Text) : Option (Nat × Text) :=
  if t.head?.any (digitValue · < base) then goOn? base bound digits 0 t else none

theorem isOver_nil : IsOver base [] := nofun

theorem isOver_cons {c : Char} : IsOver base (c :: t) ↔ base ≤ digitValue c := by simp [IsOver]

theorem goOn?_eq_some_iff (hbase : 0 < base) (hn : n < bound) : goOn? base bound left n t = some (m, u) ↔
    ∃ p : Text, t = p ++ u ∧ (∀ c ∈ p, digitValue c < base) ∧ IsOver base u ∧ p.length ≤ left ∧
      p.foldl (fun n c => base * n + digitValue c) n = m ∧ m < bound := by
  induction t generalizing left n with
  | nil =>
    rw [goOn?]
    constructor
    · intro h
      cases h
      exact ⟨[], rfl, by simp, isOver_nil, Nat.zero_le _, rfl, hn⟩
    · rintro ⟨p, ht, -, -, -, rfl, -⟩
      obtain ⟨rfl, rfl⟩ := List.append_eq_nil_iff.1 ht.symm
      rfl
  | cons c t ih =>
    rw [goOn?]
    by_cases hc : digitValue c < base
    · rw [if_pos hc]
      constructor
      · intro h
        split at h
        · next hgo =>
          obtain ⟨p, rfl, hp, hu, hlen, hm, hbound⟩ := (ih hgo.2).1 h
          exact ⟨c :: p, rfl, List.forall_mem_cons.2 ⟨hc, hp⟩, hu, by simp only [List.length_cons]; omega, hm, hbound⟩
        · cases h
      · rintro ⟨_ | ⟨d, p⟩, ht, hp, hu, hlen, hm, hbound⟩
        · obtain rfl : u = c :: t := by simpa using ht.symm
          rw [isOver_cons] at hu
          omega
        · obtain ⟨rfl, rfl⟩ := List.cons.inj ht
          simp only [List.length_cons] at hlen
          -- a number below the bound has been so all the way
          have hle : base * n + digitValue c ≤ m := hm ▸ le_foldl_digits hbase _ p
          rw [if_pos ⟨by omega, by omega⟩]
          exact (ih (by omega)).2 ⟨p, rfl, (List.forall_mem_cons.1 hp).2, hu, by omega, hm, hbound⟩
    · rw [if_neg hc]
      constructor
      · intro h
        cases h
        exact ⟨[], rfl, by simp, isOver_cons.2 (by omega), Nat.zero_le _, rfl, hn⟩
      · rintro ⟨_ | ⟨d, p⟩, ht, hp, -, -, hm, -⟩
        · simpa using ⟨hm, ht⟩
        · obtain ⟨rfl, rfl⟩ := List.cons.inj ht
          exact absurd (hp c List.mem_cons_self) hc

theorem eq_of_append_eq {v w : Text} (hp : ∀ c ∈ p, digitValue c < base) (hu : IsOver base u)
    (hv : ∀ c ∈ v, digitValue c < base) (hw : IsOver base w) (h : p ++ u = v ++ w) : p = v ∧ u = w := by
  induction p generalizing v with
  | nil =>
    rcases v with _ | ⟨c, v⟩
    · exact ⟨rfl, h⟩
    · have hc := hv c List.mem_cons_self
      have hover := hu c (by rw [show u = c :: (v ++ w) from h]; rfl)
      omega
  | cons c p ih =>
    obtain ⟨hc, hp⟩ := List.forall_mem_cons.1 hp
    rcases v with _ | ⟨d, v⟩
    · have hover := hw c (by rw [show w = c :: (p ++ u) from h.symm]; rfl)
      omega
    · obtain ⟨rfl, htail⟩ := List.cons.inj h
      obtain ⟨rfl, rfl⟩ := ih hp (List.forall_mem_cons.1 hv).2 htail
      exact ⟨rfl, rfl⟩

theorem value_lt_pow (hbase : 1 < base) (h : ∀ c ∈ p, digitValue c < base) : value base p < base ^ p.length := by
  rw [value_eq_ofDigits]
  have hlt := Nat.ofDigits_lt_base_pow_length hbase (l := p.reverse.map digitValue) (by simpa using h)
  simpa using hlt

/-- The number is taken up to the last digit, or not at all. -/
theorem take?_eq_some_iff (hbase : 0 < base) (hbound : 0 < bound) : take? base digits bound t = some (n, u) ↔
    ∃ p, t = p ++ u ∧ isNumeral base p = true ∧ IsOver base u ∧ p.length ≤ digits ∧ value base p = n ∧ n < bound := by
  simp only [take?, Option.ite_none_right_eq_some, goOn?_eq_some_iff hbase hbound, isNumeral_iff]
  constructor
  · rintro ⟨hhead, p, rfl, hp, hu, hlen, hn, hlt⟩
    refine ⟨p, rfl, ⟨?_, hp⟩, hu, hlen, hn, hlt⟩
    rintro rfl
    rcases u with _ | ⟨c, u⟩
    · cases hhead
    · have hc : digitValue c < base := by simpa using hhead
      rw [isOver_cons] at hu
      omega
  · rintro ⟨p, rfl, ⟨hne, hp⟩, hu, hlen, hn, hlt⟩
    obtain ⟨c, p, rfl⟩ := List.exists_cons_of_ne_nil hne
    exact ⟨by simpa using hp c List.mem_cons_self, c :: p, rfl, hp, hu, hlen, hn, hlt⟩

end Numeral

/-! ### Octets and groups -/

namespace Address
variable {s : Style} {t u : Text}

/-- Takes an octet from the front of a text. -/
def takeOctet? (s : Style) (t : Text) : Option (BitVec 8 × Text) := do
  let (n, u) ← Numeral.take? 10 3 256 t
  if s.paddedOctets = true ∨ t.length = u.length + 1 ∨ t.head? ≠ some '0' then some (BitVec.ofNat 8 n, u) else none

/-- Takes a group from the front of a text. -/
def takeGroup? (t : Text) : Option (BitVec 16 × Text) :=
  (Numeral.take? 16 4 65536 t).map fun (n, u) => (BitVec.ofNat 16 n, u)

theorem octet?_eq_some_iff {p : Text} {o : BitVec 8} : octet? s p = some o ↔
    Numeral.isNumeral 10 p = true ∧ p.length ≤ 3 ∧ Numeral.value 10 p < 256 ∧
      (s.paddedOctets = true ∨ p.length = 1 ∨ p.head? ≠ some '0') ∧ BitVec.ofNat 8 (Numeral.value 10 p) = o := by
  simp only [octet?, Numeral.read?, Option.bind_eq_bind, Option.bind_eq_some_iff, Option.ite_none_right_eq_some,
    Option.some.injEq]
  constructor
  · rintro ⟨_, ⟨hp, rfl⟩, ⟨hlen, hlt, hzero⟩, ho⟩
    exact ⟨hp, hlen, hlt, hzero, ho⟩
  · rintro ⟨hp, hlen, hlt, hzero, ho⟩
    exact ⟨_, ⟨hp, rfl⟩, ⟨hlen, hlt, hzero⟩, ho⟩

theorem takeOctet?_eq_some_iff {o : BitVec 8} :
    takeOctet? s t = some (o, u) ↔ ∃ p, t = p ++ u ∧ octet? s p = some o ∧ Numeral.IsOver 10 u := by
  -- the first digit of the octet is the first character of the text, and the rest of the text tells its length
  have hfront : ∀ p : Text, Numeral.isNumeral 10 p = true →
      ((p ++ u).length = u.length + 1 ∨ (p ++ u).head? ≠ some '0' ↔ p.length = 1 ∨ p.head? ≠ some '0') := by
    intro p hp
    have hhead : (p ++ u).head? = p.head? := List.head?_append_of_ne_nil p (Numeral.isNumeral_iff.1 hp).1
    have hlen : (p ++ u).length = u.length + 1 ↔ p.length = 1 := by
      rw [List.length_append]
      omega
    rw [hhead, hlen]
  simp only [takeOctet?, octet?_eq_some_iff, Option.bind_eq_bind, Option.bind_eq_some_iff, Prod.exists,
    Numeral.take?_eq_some_iff (by omega : 0 < 10) (by omega : 0 < 256), Option.ite_none_right_eq_some]
  constructor
  · rintro ⟨n, u', ⟨p, rfl, hp, hu, hlen, rfl, hlt⟩, hzero, h⟩
    cases h
    exact ⟨p, rfl, ⟨hp, hlen, hlt, by rwa [hfront p hp] at hzero, rfl⟩, hu⟩
  · rintro ⟨p, rfl, ⟨hp, hlen, hlt, hzero, rfl⟩, hu⟩
    exact ⟨_, u, ⟨p, rfl, hp, hu, hlen, rfl, hlt⟩, by rwa [hfront p hp], rfl⟩

theorem takeGroup?_eq_some_iff {g : BitVec 16} :
    takeGroup? t = some (g, u) ↔ ∃ p, t = p ++ u ∧ group? p = some g ∧ Numeral.IsOver 16 u := by
  simp only [takeGroup?, group?, Numeral.read?, Option.bind_eq_bind, Option.bind_eq_some_iff, Option.map_eq_some_iff,
    Prod.exists, Prod.mk.injEq, Option.ite_none_right_eq_some, Option.some.injEq,
    Numeral.take?_eq_some_iff (by omega : 0 < 16) (by omega : 0 < 65536)]
  constructor
  · rintro ⟨_, _, ⟨p, rfl, hp, hu, hlen, rfl, -⟩, hg, rfl⟩
    exact ⟨p, rfl, ⟨_, ⟨hp, rfl⟩, hlen, hg⟩, hu⟩
  · rintro ⟨p, rfl, ⟨_, ⟨hp, rfl⟩, hlen, hg⟩, hu⟩
    have hlt := Numeral.value_lt_pow (by omega) (Numeral.isNumeral_iff.1 hp).2
    have hpow : 16 ^ p.length ≤ 16 ^ 4 := Nat.pow_le_pow_right (by omega) hlen
    exact ⟨_, _, ⟨p, rfl, hp, hu, hlen, rfl, by omega⟩, hg, rfl⟩

/-! ### Pieces between separators -/

/-- The text with a separator in front, unless it is the first piece. -/
def led (x : Char) (first : Bool) (t : Text) : Text := if first then t else x :: t

/-- Pieces with a separator in front of each one but the first. -/
def joined (x : Char) : Bool → List Text → Text
  | _, [] => []
  | first, p :: ps => led x first (p ++ joined x false ps)

/-- Takes the separator in front of a piece, unless it is the first one, and goes on. -/
def after? {α : Type} (x : Char) (first : Bool) (take : Text → Option (α × Text)) (t : Text) : Option (α × Text) :=
  if first then take t
  else if t.head? = some x then take t.tail
  else none

section
variable {x : Char} {first : Bool} {p : Text} {ps : List Text} {α : Type} {take : Text → Option (α × Text)} {a : α}

theorem led_append : led x first t ++ u = led x first (t ++ u) := by cases first <;> rfl

theorem joined_cons_append : joined x first (p :: ps) ++ u = led x first (p ++ (joined x false ps ++ u)) := by
  rw [joined, led_append, List.append_assoc]

theorem joined_true (ps : List Text) : joined x true ps = [x].intercalate ps := by
  induction ps with
  | nil => rfl
  | cons p ps ih =>
    rcases ps with _ | ⟨q, ps⟩
    · simp [joined, led]
    · rw [List.intercalate_cons_cons, ← ih]
      simp [joined, led]

theorem after?_led : after? x first take (led x first t) = take t := by cases first <;> simp [after?, led]

theorem after?_eq_some_iff : after? x first take t = some (a, u) ↔ ∃ v, t = led x first v ∧ take v = some (a, u) := by
  constructor
  · intro h
    cases first with
    | true => exact ⟨t, rfl, h⟩
    | false =>
      simp only [after?, Bool.false_eq_true, if_false, Option.ite_none_right_eq_some] at h
      obtain ⟨v, rfl⟩ := List.head?_eq_some_iff.1 h.1
      exact ⟨v, rfl, h.2⟩
  · rintro ⟨v, rfl, h⟩
    rw [after?_led, h]

end

/-! ### Quads -/

/-- Takes octets with dots between them from the front of a text. -/
def takeOctets? (s : Style) : Nat → Bool → Text → Option (List (BitVec 8) × Text)
  | 0, _, t => some ([], t)
  | n + 1, first, t => do
    let (o, u) ← after? '.' first (takeOctet? s) t
    let (os, v) ← takeOctets? s n false u
    return (o :: os, v)

/-- Takes four octets from the front of a text. -/
def takeQuad? (s : Style) (t : Text) : Option (BitVec 32 × Text) := do
  let (os, u) ← takeOctets? s 4 true t
  return (← ofOctets? os, u)

theorem isOver_joined {x : Char} (hx : 16 ≤ Numeral.digitValue x) {base : Nat} (hbase : base ≤ 16) {ps : List Text}
    (hu : Numeral.IsOver base u) : Numeral.IsOver base (joined x false ps ++ u) := by
  cases ps with
  | nil => exact hu
  | cons p ps =>
    rw [joined_cons_append]
    exact Numeral.isOver_cons.2 (by omega)

theorem takeOctets?_eq_some_iff {n : Nat} {first : Bool} {os : List (BitVec 8)} :
    takeOctets? s n first t = some (os, u) ↔ ∃ ps, t = joined '.' first ps ++ u ∧ ps.mapM (octet? s) = some os ∧
      ps.length = n ∧ (n ≠ 0 → Numeral.IsOver 10 u) := by
  induction n generalizing first t u os with
  | zero =>
    constructor
    · intro h
      cases h
      exact ⟨[], rfl, rfl, rfl, by simp⟩
    · rintro ⟨ps, rfl, hps, hlen, -⟩
      obtain rfl := List.length_eq_zero_iff.1 hlen
      cases hps
      rfl
  | succ n ih =>
    simp only [takeOctets?, Option.bind_eq_bind, Option.bind_eq_some_iff, Prod.exists, after?_eq_some_iff,
      takeOctet?_eq_some_iff, ih]
    constructor
    · rintro ⟨o, _, ⟨_, rfl, p, rfl, hp, hover⟩, os', _, ⟨ps, rfl, hps, rfl, hu⟩, h⟩
      cases h
      refine ⟨p :: ps, by rw [joined_cons_append], by simp [hp, hps], rfl, fun _ => ?_⟩
      rcases ps with _ | ⟨p', ps⟩
      · exact hover
      · exact hu (by simp)
    · rintro ⟨_ | ⟨p, ps⟩, rfl, hps, hlen, hu⟩
      · cases hlen
      · simp only [List.mapM_cons, Option.bind_eq_bind, Option.bind_eq_some_iff] at hps
        obtain ⟨o, hp, os', hps, hos⟩ := hps
        cases hos
        exact ⟨o, _, ⟨_, joined_cons_append, p, rfl, hp, isOver_joined (by decide) (by omega) (hu (by simp))⟩, os', u,
          ⟨ps, rfl, hps, by simpa using hlen, fun _ => hu (by simp)⟩, rfl⟩

theorem splitOn_joined {x : Char} {ps : List Text} (h : ∀ p ∈ ps, x ∉ p) (hne : ps ≠ []) :
    (joined x true ps).splitOn x = ps := by
  rw [joined_true, List.splitOn_intercalate x h hne]

theorem exists_joined (x : Char) (t : Text) : t = joined x true (t.splitOn x) := by
  rw [joined_true, List.intercalate_splitOn]

theorem isNumeral_of_octet? {p : Text} {o : BitVec 8} (h : octet? s p = some o) : Numeral.isNumeral 10 p = true :=
  (octet?_eq_some_iff.1 h).1

theorem quad?_eq_some_iff {p : Text} {q : BitVec 32} : quad? s p = some q ↔
    ∃ ps os, p = joined '.' true ps ∧ ps.mapM (octet? s) = some os ∧ ofOctets? os = some q := by
  simp only [quad?, Option.bind_eq_bind, Option.bind_eq_some_iff]
  constructor
  · rintro ⟨os, hos, hq⟩
    exact ⟨p.splitOn '.', os, exists_joined '.' p, hos, hq⟩
  · rintro ⟨ps, os, rfl, hos, hq⟩
    refine ⟨os, ?_, hq⟩
    rw [splitOn_joined, hos]
    · intro p hp hdot
      obtain ⟨o, ho⟩ := exists_of_mapM_eq_some hos p hp
      exact absurd ((Numeral.isNumeral_iff.1 (isNumeral_of_octet? ho)).2 '.' hdot) (by decide)
    · rintro rfl
      cases hos
      cases hq

theorem length_of_ofOctets? {os : List (BitVec 8)} {q : BitVec 32} (h : ofOctets? os = some q) : os.length = 4 := by
  unfold ofOctets? at h
  split at h
  · rfl
  · cases h

theorem takeQuad?_eq_some_iff {q : BitVec 32} :
    takeQuad? s t = some (q, u) ↔ ∃ p, t = p ++ u ∧ quad? s p = some q ∧ Numeral.IsOver 10 u := by
  simp only [takeQuad?, quad?_eq_some_iff, Option.bind_eq_bind, Option.bind_eq_some_iff, Prod.exists,
    takeOctets?_eq_some_iff]
  constructor
  · rintro ⟨os, _, ⟨ps, rfl, hps, -, hu⟩, q', hq, h⟩
    cases h
    exact ⟨_, rfl, ⟨ps, os, rfl, hps, hq⟩, hu (by omega)⟩
  · rintro ⟨_, rfl, ⟨ps, os, rfl, hps, hq⟩, hu⟩
    have hlen : ps.length = 4 := by
      rw [← length_of_mapM_eq_some hps, length_of_ofOctets? hq]
    exact ⟨os, u, ⟨ps, rfl, hps, hlen, fun _ => hu⟩, q, hq, rfl⟩

/-- Whether a text is empty or begins with a colon or a slash, which end a number and a quad. -/
def IsBreak (t : Text) : Prop := ∀ c, t.head? = some c → c = ':' ∨ c = '/'

theorem isBreak_nil : IsBreak [] := by simp [IsBreak]

theorem IsBreak.isOver {base : Nat} (h : IsBreak t) (hbase : base ≤ 16) : Numeral.IsOver base t := by
  intro c hc
  rcases h c hc with rfl | rfl
  · exact hbase
  · exact hbase

theorem IsBreak.joined (h : IsBreak u) (ps : List Text) : IsBreak (joined ':' false ps ++ u) := by
  cases ps with
  | nil => exact h
  | cons p ps =>
    intro c hc
    rw [joined_cons_append] at hc
    exact .inl (Option.some.inj hc).symm

/-- Behind the first octet of a quad there is a dot, so no quad is taken from where a group stands. -/
theorem takeQuad?_eq_none {p : Text} (hp : ∀ c ∈ p, Numeral.digitValue c < 16) (hu : IsBreak u) :
    takeQuad? s (p ++ u) = none := by
  rw [Option.eq_none_iff_forall_ne_some]
  rintro ⟨q, v⟩ h
  obtain ⟨w, hw, hq, -⟩ := takeQuad?_eq_some_iff.1 h
  obtain ⟨ps, os, rfl, hps, hos⟩ := quad?_eq_some_iff.1 hq
  have hlen := length_of_ofOctets? hos
  rw [length_of_mapM_eq_some hps] at hlen
  obtain ⟨o, o', ps, rfl⟩ : ∃ o o' ps', ps = o :: o' :: ps' := by
    rcases ps with _ | ⟨o, _ | ⟨o', ps⟩⟩
    · cases hlen
    · cases hlen
    · exact ⟨o, o', ps, rfl⟩
  obtain ⟨b, hb⟩ := exists_of_mapM_eq_some hps o List.mem_cons_self
  have ho : ∀ c ∈ o, Numeral.digitValue c < 16 := by
    intro c hc
    have hlt := (Numeral.isNumeral_iff.1 (isNumeral_of_octet? hb)).2 c hc
    omega
  rw [joined_cons_append, joined_cons_append] at hw
  -- the run of digits at the front is the group and the first octet as well
  obtain ⟨-, rfl⟩ := Numeral.eq_of_append_eq hp (hu.isOver (by omega)) ho
    (Numeral.isOver_cons.2 (by decide)) hw
  rcases hu '.' rfl with hdot | hdot <;> cases hdot

/-! ### Groups -/

/-- Takes groups with colons between them from the front of a text, no more than the limit. Where two groups may
come, a quad may come in place of them, and is the last. The mark tells whether there was one. -/
def takeGroups (s : Style) : Nat → Bool → Text → List (BitVec 16) × Bool × Text
  | 0, _, t => ([], false, t)
  | n + 1, first, t =>
    match if n = 0 then none else after? ':' first (takeQuad? s) t with
    | some (q, u) => ([q.extractLsb' 16 16, q.extractLsb' 0 16], true, u)
    | none =>
      match after? ':' first takeGroup? t with
      | some (g, u) =>
        let (gs, quad, v) := takeGroups s n false u
        (g :: gs, quad, v)
      | none => ([], false, t)

/-- The groups that pieces write, and whether the last piece is a quad. -/
inductive Groups (s : Style) : Bool → List Text → List (BitVec 16) → Prop
  | nil : Groups s false [] []
  | quad {p : Text} {q : BitVec 32} (hp : quad? s p = some q) :
      Groups s true [p] [q.extractLsb' 16 16, q.extractLsb' 0 16]
  | cons {p : Text} {g : BitVec 16} {quad : Bool} {ps : List Text} {gs : List (BitVec 16)} (hp : group? p = some g)
      (hps : Groups s quad ps gs) : Groups s quad (p :: ps) (g :: gs)

variable {ps : List Text} {gs : List (BitVec 16)} {quad first : Bool} {limit : Nat}

theorem isNumeral_of_group? {p : Text} {g : BitVec 16} (h : group? p = some g) : Numeral.isNumeral 16 p = true := by
  simp only [group?, Numeral.read?, Option.bind_eq_bind, Option.bind_eq_some_iff, Option.ite_none_right_eq_some] at h
  obtain ⟨-, ⟨hp, -⟩, -⟩ := h
  exact hp

theorem Groups.of_takeGroups (h : takeGroups s limit first t = (gs, quad, u)) :
    ∃ ps, t = joined ':' first ps ++ u ∧ Groups s quad ps gs ∧ gs.length ≤ limit := by
  induction limit generalizing first t gs quad u with
  | zero =>
    cases h
    exact ⟨[], rfl, .nil, Nat.le_refl _⟩
  | succ n ih =>
    rw [takeGroups] at h
    split at h
    · next q v hquad =>
      obtain ⟨hn, hquad⟩ := Option.ite_none_left_eq_some.1 hquad
      obtain ⟨w, rfl, hw⟩ := after?_eq_some_iff.1 hquad
      obtain ⟨p, rfl, hp, -⟩ := takeQuad?_eq_some_iff.1 hw
      cases h
      refine ⟨[p], ?_, .quad hp, ?_⟩
      · rw [joined_cons_append]
        rfl
      · simp only [List.length_cons, List.length_nil]
        omega
    · split at h
      · next g v hgroup =>
        obtain ⟨w, rfl, hw⟩ := after?_eq_some_iff.1 hgroup
        obtain ⟨p, rfl, hp, -⟩ := takeGroup?_eq_some_iff.1 hw
        rcases hrest : takeGroups s n false v with ⟨gs', quad', u'⟩
        obtain ⟨ps, rfl, hps, hlen⟩ := ih hrest
        rw [hrest] at h
        cases h
        refine ⟨p :: ps, by rw [joined_cons_append], .cons hp hps, ?_⟩
        simp only [List.length_cons]
        omega
      · cases h
        exact ⟨[], rfl, .nil, Nat.zero_le _⟩

/-- A text after which no more groups are taken: the end, a slash or a gap. -/
inductive Stops : Text → Prop
  | nil : Stops []
  | slash (t : Text) : Stops ('/' :: t)
  | gap (t : Text) : Stops (':' :: ':' :: t)

theorem Stops.isBreak (h : Stops u) : IsBreak u := by
  intro c hc
  rcases h with _ | t | t
  · cases hc
  · exact .inr (Option.some.inj hc).symm
  · exact .inl (Option.some.inj hc).symm

theorem takeGroup?_eq_none (hu : IsBreak u) : takeGroup? u = none := by
  rw [Option.eq_none_iff_forall_ne_some]
  rintro ⟨g, v⟩ h
  obtain ⟨p, hp, hg, hv⟩ := takeGroup?_eq_some_iff.1 h
  obtain ⟨hne, hdigits⟩ := Numeral.isNumeral_iff.1 (isNumeral_of_group? hg)
  exact hne (Numeral.eq_of_append_eq (p := []) (by simp) (hu.isOver (Nat.le_refl _)) hdigits hv hp).1.symm

theorem Stops.after?_eq_none (h : Stops u) {α : Type} {take : Text → Option (α × Text)}
    (htake : ∀ v, IsBreak v → take v = none) : after? ':' first take u = none := by
  cases first with
  | true => exact htake u h.isBreak
  | false =>
    rcases h with _ | t | t
    · rfl
    · rfl
    · exact htake (':' :: t) fun c hc => .inl (Option.some.inj hc).symm

theorem Groups.takeGroups_eq (h : Groups s quad ps gs) (hlen : gs.length ≤ limit) (hu : Stops u) :
    takeGroups s limit first (joined ':' first ps ++ u) = (gs, quad, u) := by
  induction h generalizing limit first with
  | nil =>
    rcases limit with _ | n
    · rfl
    · have hquad : after? ':' first (takeQuad? s) u = none :=
        hu.after?_eq_none fun v hv => takeQuad?_eq_none (p := []) (by simp) hv
      have hgroup : after? ':' first takeGroup? u = none := hu.after?_eq_none fun v => takeGroup?_eq_none
      simp [joined, takeGroups, hquad, hgroup]
  | @quad p q hp =>
    simp only [List.length_cons, List.length_nil] at hlen
    obtain ⟨n, rfl⟩ : ∃ n, limit = n + 2 := ⟨limit - 2, by omega⟩
    have hquad : takeQuad? s (p ++ u) = some (q, u) :=
      takeQuad?_eq_some_iff.2 ⟨p, rfl, hp, hu.isBreak.isOver (by omega)⟩
    rw [joined_cons_append, joined, List.nil_append, takeGroups, after?_led, hquad]
    simp
  | @cons p g quad ps gs hp hps ih =>
    rw [List.length_cons] at hlen
    obtain ⟨n, rfl⟩ : ∃ n, limit = n + 1 := ⟨limit - 1, by omega⟩
    have hrest := hu.isBreak.joined ps
    have hdigits := (Numeral.isNumeral_iff.1 (isNumeral_of_group? hp)).2
    -- a quad is tried first, but none begins with a whole group
    have hquad : takeQuad? s (p ++ (joined ':' false ps ++ u)) = none := takeQuad?_eq_none hdigits hrest
    have hgroup : takeGroup? (p ++ (joined ':' false ps ++ u)) = some (g, joined ':' false ps ++ u) :=
      takeGroup?_eq_some_iff.2 ⟨p, rfl, hp, hrest.isOver (Nat.le_refl _)⟩
    rw [joined_cons_append, takeGroups, after?_led, after?_led, hquad, hgroup]
    simp [ih (by omega : gs.length ≤ n)]

end Address

end Firewall
