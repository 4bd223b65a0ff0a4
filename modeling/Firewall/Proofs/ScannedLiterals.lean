import Firewall.Proofs.Scanning

/-!
# Literals from left to right

`Address.takeEight?` reads the groups in front of a gap and those behind it, as far as they come, and agrees with
`Address.eightGroups?`, which looks for the gap first: `Address.eightGroups?_eq_some_iff` tells the two forms of a v6
address. The readers of literals in `Literal` try a v4 address and then a v6 address, and agree with the readers of
the two kinds of literal (`Literal.scanNetwork?_eq`, `Literal.scanBare?_eq`). Main statement:
`Network.readAll_whole_length`.
-/

namespace Firewall

namespace Address
variable {s : Style} {t u : Text} {ps : List Text} {gs : List (BitVec 16)} {quad : Bool}

/-! ### Pieces and groups -/

/-- A quad holds a dot, so it is no group. -/
theorem group?_eq_none_of_quad? {p : Text} {q : BitVec 32} (h : quad? s p = some q) : group? p = none := by
  rw [Option.eq_none_iff_forall_ne_some]
  intro g hg
  have htake : takeQuad? s (p ++ []) = some (q, []) := takeQuad?_eq_some_iff.2 ⟨p, rfl, h, Numeral.isOver_nil⟩
  rw [takeQuad?_eq_none (Numeral.isNumeral_iff.1 (isNumeral_of_group? hg)).2 isBreak_nil] at htake
  cases htake

theorem pieces?_eq_some_iff : pieces? s ps = some gs ↔ ∃ quad, Groups s quad ps gs := by
  constructor
  · intro h
    fun_induction pieces? s ps generalizing gs with
    | case1 =>
      cases h
      exact ⟨false, .nil⟩
    | case2 p =>
      simp only [Option.orElse_eq_orElse, Option.orElse_eq_or, Option.or_eq_some_iff, Option.map_eq_some_iff] at h
      rcases h with ⟨g, hg, rfl⟩ | ⟨-, q, hq, rfl⟩
      · exact ⟨false, .cons hg .nil⟩
      · exact ⟨true, .quad hq⟩
    | case3 p ps _ ih =>
      simp only [Option.bind_eq_bind, Option.bind_eq_some_iff] at h
      obtain ⟨g, hg, gs', hgs, h⟩ := h
      obtain ⟨quad, hps⟩ := ih hgs
      cases h
      exact ⟨quad, .cons hg hps⟩
  · rintro ⟨quad, h⟩
    induction h with
    | nil => rfl
    | quad hp => simp [pieces?, group?_eq_none_of_quad? hp, hp]
    | @cons p g quad ps gs hp hps ih =>
      rcases ps with _ | ⟨p', ps⟩
      · cases hps
        simp [pieces?, hp]
      · simp [pieces?, hp, ih]

theorem mapM_group?_eq_some_iff : ps.mapM group? = some gs ↔ Groups s false ps gs := by
  induction ps generalizing gs with
  | nil =>
    constructor
    · intro h
      cases h
      exact .nil
    · intro h
      cases h
      rfl
  | cons p ps ih =>
    simp only [List.mapM_cons, Option.bind_eq_bind, Option.bind_eq_some_iff]
    constructor
    · rintro ⟨g, hg, gs', hgs, h⟩
      cases h
      exact .cons hg (ih.1 hgs)
    · rintro (_ | _ | ⟨hg, hps⟩)
      exact ⟨_, hg, _, ih.2 hps, rfl⟩

theorem Groups.forall_ne_nil (h : Groups s quad ps gs) : ∀ p ∈ ps, p ≠ [] ∧ ':' ∉ p := by
  induction h with
  | nil => simp
  | @quad p q hp =>
    rw [List.forall_mem_singleton]
    constructor
    · rintro rfl
      cases hp
    · intro hc
      rcases mem_of_quad? hp hc with hc | hc
      · exact absurd hc (by decide)
      · cases hc
  | cons hp _ ih =>
    obtain ⟨hne, hdigits⟩ := Numeral.isNumeral_iff.1 (isNumeral_of_group? hp)
    exact List.forall_mem_cons.2 ⟨⟨hne, fun hc => absurd (hdigits ':' hc) (by decide)⟩, ih⟩

theorem Groups.splitOn_joined (h : Groups s quad ps gs) (hne : ps ≠ []) :
    joined ':' true ps ≠ [] ∧ (joined ':' true ps).splitOn ':' = ps := by
  have hps := h.forall_ne_nil
  refine ⟨?_, Address.splitOn_joined (fun p hp => (hps p hp).2) hne⟩
  obtain ⟨p, ps, rfl⟩ := List.exists_cons_of_ne_nil hne
  simp [joined, led, (hps p List.mem_cons_self).1]

theorem head?_eq_some_iff : head? t = some gs ↔ ∃ ps, t = joined ':' true ps ∧ Groups s false ps gs := by
  unfold head?
  constructor
  · intro h
    split at h
    · next ht =>
      cases h
      exact ⟨[], ht, .nil⟩
    · exact ⟨t.splitOn ':', exists_joined ':' t, mapM_group?_eq_some_iff.1 h⟩
  · rintro ⟨ps, rfl, h⟩
    rcases ps with _ | ⟨p, ps⟩
    · cases h
      rfl
    · obtain ⟨hne, hsplit⟩ := h.splitOn_joined (by simp)
      rw [if_neg hne, hsplit, mapM_group?_eq_some_iff.2 h]

theorem tail?_eq_some_iff : tail? s t = some gs ↔ ∃ ps quad, t = joined ':' true ps ∧ Groups s quad ps gs := by
  unfold tail?
  constructor
  · intro h
    split at h
    · next ht =>
      cases h
      exact ⟨[], false, ht, .nil⟩
    · obtain ⟨quad, hps⟩ := pieces?_eq_some_iff.1 h
      exact ⟨t.splitOn ':', quad, exists_joined ':' t, hps⟩
  · rintro ⟨ps, quad, rfl, h⟩
    rcases ps with _ | ⟨p, ps⟩
    · cases h
      rfl
    · obtain ⟨hne, hsplit⟩ := h.splitOn_joined (by simp)
      rw [if_neg hne, hsplit, pieces?_eq_some_iff.2 ⟨quad, h⟩]

/-! ### Eight groups -/

theorem length_of_ofGroups? {b : BitVec 128} (h : ofGroups? gs = some b) : gs.length = 8 := by
  unfold ofGroups? at h
  split at h
  · rfl
  · cases h

theorem Groups.cutGap?_append (h : Groups s quad ps gs) (u : Text) :
    cutGap? (joined ':' true ps ++ u) = (cutGap? u).map fun (a, b) => (joined ':' true ps ++ a, b) := by
  rw [joined_true]
  exact cutGap?_intercalate h.forall_ne_nil u

/-- The two forms of eight groups: all of them written, or with a gap. -/
theorem eightGroups?_eq_some_iff {b : BitVec 128} : eightGroups? s t = some b ↔
    (∃ ps quad gs, t = joined ':' true ps ∧ Groups s quad ps gs ∧ ofGroups? gs = some b) ∨
    ∃ ps hd qs quad tl, t = joined ':' true ps ++ ':' :: ':' :: joined ':' true qs ∧ Groups s false ps hd ∧
      Groups s quad qs tl ∧ fillGap? s hd tl = some b := by
  unfold eightGroups?
  constructor
  · intro h
    split at h
    · simp only [Option.bind_eq_bind, Option.bind_eq_some_iff] at h
      obtain ⟨gs, hgs, hb⟩ := h
      obtain ⟨quad, hps⟩ := pieces?_eq_some_iff.1 hgs
      exact .inl ⟨t.splitOn ':', quad, gs, exists_joined ':' t, hps, hb⟩
    · next u v huv =>
      simp only [Option.bind_eq_bind, Option.bind_eq_some_iff] at h
      obtain ⟨hd, hhd, tl, htl, hb⟩ := h
      obtain ⟨ps, rfl, hps⟩ := head?_eq_some_iff.1 hhd
      obtain ⟨qs, quad, rfl, hqs⟩ := tail?_eq_some_iff.1 htl
      exact .inr ⟨ps, hd, qs, quad, tl, eq_append_of_cutGap? huv, hps, hqs, hb⟩
  · rintro (⟨ps, quad, gs, rfl, hps, hb⟩ | ⟨ps, hd, qs, quad, tl, rfl, hps, hqs, hb⟩)
    · have hnone : cutGap? (joined ':' true ps) = none := by simpa [cutGap?] using hps.cutGap?_append []
      have hne : ps ≠ [] := by
        rintro rfl
        cases hps
        cases hb
      rw [hnone]
      simp [(hps.splitOn_joined hne).2, pieces?_eq_some_iff.2 ⟨quad, hps⟩, hb]
    · rw [hps.cutGap?_append]
      simp [cutGap?, head?_eq_some_iff.2 ⟨ps, rfl, hps⟩, tail?_eq_some_iff.2 ⟨qs, quad, rfl, hqs⟩, hb]

/-- Takes eight groups from the front of a text, some of which may be left out at a gap. A quad may not stand in front
of a gap. -/
def takeEight? (s : Style) (t : Text) : Option (BitVec 128 × Text) :=
  let (hd, quad, u) := takeGroups s 8 true t
  if hd.length = 8 then (ofGroups? hd).map (·, u)
  else if quad then none
  else
    match u with
    | ':' :: ':' :: v =>
      let (tl, _, w) := takeGroups s ((if s.emptyGap then 8 else 7) - hd.length) true v
      (ofGroups? (hd ++ List.replicate (8 - (hd.length + tl.length)) 0 ++ tl)).map (·, w)
    | _ => none

theorem eightGroups?_of_takeEight? {b : BitVec 128} (h : takeEight? s t = some (b, u)) :
    ∃ p, t = p ++ u ∧ eightGroups? s p = some b := by
  unfold takeEight? at h
  rcases hhead : takeGroups s 8 true t with ⟨hd, quad, v⟩
  obtain ⟨ps, rfl, hps, hlen⟩ := Groups.of_takeGroups hhead
  simp only [hhead] at h
  by_cases height : hd.length = 8
  · rw [if_pos height] at h
    obtain ⟨b', hb, h⟩ := Option.map_eq_some_iff.1 h
    cases h
    exact ⟨_, rfl, eightGroups?_eq_some_iff.2 (.inl ⟨ps, quad, hd, rfl, hps, hb⟩)⟩
  · rw [if_neg height] at h
    cases quad with
    | true => cases h
    | false =>
      rw [if_neg Bool.false_ne_true] at h
      split at h
      · next v =>
        rcases htail : takeGroups s ((if s.emptyGap then 8 else 7) - hd.length) true v with ⟨tl, quad, w⟩
        obtain ⟨qs, rfl, hqs, htotal⟩ := Groups.of_takeGroups htail
        simp only [htail] at h
        obtain ⟨b', hb, h⟩ := Option.map_eq_some_iff.1 h
        cases h
        have hgap : 7 ≤ if s.emptyGap = true then 8 else 7 := by split <;> omega
        have hfill : fillGap? s hd tl = some b := by rw [fillGap?, if_pos ⟨by omega, by omega⟩, hb]
        exact ⟨joined ':' true ps ++ ':' :: ':' :: joined ':' true qs, by simp,
          eightGroups?_eq_some_iff.2 (.inr ⟨ps, hd, qs, quad, tl, rfl, hps, hqs, hfill⟩)⟩
      · cases h

/-- No quad is taken from where the first of some groups stands. -/
theorem Groups.takeQuad?_eq_none (h : Groups s quad ps gs) (hquad : quad = false ∨ 2 < gs.length) (hu : IsBreak u) :
    takeQuad? s (joined ':' true ps ++ u) = none := by
  rcases h with _ | hp | ⟨hp, -⟩
  · exact Address.takeQuad?_eq_none (p := []) (by simp) hu
  · rcases hquad with hquad | hlen
    · cases hquad
    · simp at hlen
  · rw [joined_cons_append]
    exact Address.takeQuad?_eq_none (Numeral.isNumeral_iff.1 (isNumeral_of_group? hp)).2 (hu.joined _)

theorem takeQuad?_of_eightGroups? {p : Text} {b : BitVec 128} (h : eightGroups? s p = some b) (hu : IsBreak u) :
    takeQuad? s (p ++ u) = none := by
  rcases eightGroups?_eq_some_iff.1 h with ⟨ps, quad, gs, rfl, hps, hb⟩ | ⟨ps, hd, qs, quad, tl, rfl, hps, -, -⟩
  · have hlen := length_of_ofGroups? hb
    exact hps.takeQuad?_eq_none (.inr (by omega)) hu
  · rw [List.append_assoc]
    exact hps.takeQuad?_eq_none (.inl rfl) (Stops.gap _).isBreak

theorem takeEight?_of_eightGroups? {p : Text} {b : BitVec 128} (h : eightGroups? s p = some b) (hu : Stops u) :
    takeEight? s (p ++ u) = some (b, u) := by
  unfold takeEight?
  rcases eightGroups?_eq_some_iff.1 h with ⟨ps, quad, gs, rfl, hps, hb⟩ | ⟨ps, hd, qs, quad, tl, rfl, hps, hqs, hb⟩
  · have hlen := length_of_ofGroups? hb
    have hhead : takeGroups s 8 true (joined ':' true ps ++ u) = (gs, quad, u) := hps.takeGroups_eq (by omega) hu
    simp [hhead, hlen, hb]
  · obtain ⟨⟨hlen, htotal⟩, hb⟩ := Option.ite_none_right_eq_some.1 hb
    have hhead : takeGroups s 8 true (joined ':' true ps ++ ':' :: ':' :: (joined ':' true qs ++ u)) =
        (hd, false, ':' :: ':' :: (joined ':' true qs ++ u)) := hps.takeGroups_eq (by omega) (.gap _)
    have htail : takeGroups s ((if s.emptyGap then 8 else 7) - hd.length) true (joined ':' true qs ++ u) =
        (tl, quad, u) := hqs.takeGroups_eq (by omega) hu
    have hne : hd.length ≠ 8 := by omega
    simpa [hhead, hne, htail] using hb

theorem colon_mem_of_eightGroups? {b : BitVec 128} (h : eightGroups? s t = some b) : ':' ∈ t := by
  rcases eightGroups?_eq_some_iff.1 h with ⟨ps, quad, gs, rfl, hps, hb⟩ | ⟨ps, hd, qs, quad, tl, rfl, -⟩
  · have hlen := length_of_ofGroups? hb
    rcases hps with _ | hp | @⟨p, g, _, _ | ⟨p', ps⟩, _, hp, hps⟩
    · cases hlen
    · cases hlen
    · cases hps
      cases hlen
    · simp [joined, led]
  · simp

theorem read?_eq_some_iff {a : Address} : Address.read? s t = some a ↔
    (∃ q, quad? s t = some q ∧ v4 q = a) ∨ ∃ b, eightGroups? s t = some b ∧ v6 b = a := by
  unfold Address.read?
  by_cases hcolon : ':' ∈ t
  · rw [if_pos hcolon, Option.map_eq_some_iff]
    refine ⟨.inr, ?_⟩
    rintro (⟨q, hq, -⟩ | h)
    · rcases mem_of_quad? hq hcolon with hc | hc
      · exact absurd hc (by decide)
      · cases hc
    · exact h
  · rw [if_neg hcolon, Option.map_eq_some_iff]
    refine ⟨.inl, ?_⟩
    rintro (h | ⟨b, hb, -⟩)
    · exact h
    · exact absurd (colon_mem_of_eightGroups? hb) hcolon

end Address

/-! ### Literals -/

namespace Literal
variable {s : Address.Style} {close : Address → Text → Option (Network × Text)} {t u v : Text} {a : Address}
  {l : Network}

/-- Takes a v4 address and what closes a literal of it, or else a v6 address and what closes a literal of that. -/
def takeEither? (s : Address.Style) (close : Address → Text → Option (Network × Text)) (t : Text) :
    Option (Network × Text) :=
  ((Address.takeQuad? s t).bind fun (q, u) => close (.v4 q) u) <|>
    (Address.takeEight? s t).bind fun (b, u) => close (.v6 b) u

/-- Closes a literal with a slash and a prefix length. -/
def closeNetwork? (a : Address) : Text → Option (Network × Text)
  | '/' :: t => do
    let (n, u) ← Numeral.take? 10 (lengthDigits a.family) (a.family.width + 1) t
    if h : n ≤ a.family.width then some (⟨a, n, h⟩, u) else none
  | _ => none

/-- Closes a literal with nothing. -/
def closeBare? (a : Address) (t : Text) : Option (Network × Text) := some (Network.host a, t)

/-- The literal taken from the front of a text if nothing is left behind it. -/
def whole? : Option (Network × Text) → Option Network
  | some (l, []) => some l
  | _ => none

/-- `readNetwork?` from left to right. -/
def scanNetwork? (t : Text) : Option Network := whole? (takeEither? .network closeNetwork? t)

/-- `readBare?` from left to right. -/
def scanBare? (t : Text) : Option Network := whole? (takeEither? .bare closeBare? t)

theorem whole?_eq_some_iff {x : Option (Network × Text)} : whole? x = some l ↔ x = some (l, []) := by
  rcases x with _ | ⟨l', _ | ⟨c, u⟩⟩ <;> simp [whole?]

theorem exists_of_takeEither? (h : takeEither? s close t = some (l, v)) :
    ∃ p a u, t = p ++ u ∧ Address.read? s p = some a ∧ close a u = some (l, v) := by
  simp only [takeEither?, Option.orElse_eq_orElse, Option.orElse_eq_or, Option.or_eq_some_iff,
    Option.bind_eq_some_iff, Prod.exists] at h
  rcases h with ⟨q, u, hq, hl⟩ | ⟨-, b, u, hb, hl⟩
  · obtain ⟨p, rfl, hp, -⟩ := Address.takeQuad?_eq_some_iff.1 hq
    exact ⟨p, .v4 q, u, rfl, Address.read?_eq_some_iff.2 (.inl ⟨q, hp, rfl⟩), hl⟩
  · obtain ⟨p, rfl, hp⟩ := Address.eightGroups?_of_takeEight? hb
    exact ⟨p, .v6 b, u, rfl, Address.read?_eq_some_iff.2 (.inr ⟨b, hp, rfl⟩), hl⟩

theorem takeEither?_of_read? {p : Text} (hp : Address.read? s p = some a) (hu : Address.Stops u)
    (h : close a u = some (l, v)) : takeEither? s close (p ++ u) = some (l, v) := by
  rcases Address.read?_eq_some_iff.1 hp with ⟨q, hq, rfl⟩ | ⟨b, hb, rfl⟩
  · have htake : Address.takeQuad? s (p ++ u) = some (q, u) :=
      Address.takeQuad?_eq_some_iff.2 ⟨p, rfl, hq, hu.isBreak.isOver (by omega)⟩
    simp [takeEither?, htake, h]
  · simp [takeEither?, Address.takeQuad?_of_eightGroups? hb hu.isBreak, Address.takeEight?_of_eightGroups? hb hu, h]

theorem closeNetwork?_eq_some_iff : closeNetwork? a u = some (l, []) ↔ ∃ p, u = '/' :: p ∧ l.base = a ∧
    IsDigits p ∧ p.length ≤ lengthDigits l.base.family ∧ Numeral.value 10 p = l.length := by
  constructor
  · intro h
    unfold closeNetwork? at h
    split at h
    · next t =>
      simp only [Option.bind_eq_bind, Option.bind_eq_some_iff, Prod.exists] at h
      obtain ⟨n, v, htake, h⟩ := h
      split_ifs at h
      cases h
      obtain ⟨p, rfl, hp, -, hlen, hn, -⟩ := (Numeral.take?_eq_some_iff (by omega) (by omega)).1 htake
      rw [List.append_nil]
      exact ⟨p, rfl, rfl, isDigits_iff.2 hp, hlen, hn⟩
    · cases h
  · rintro ⟨p, rfl, rfl, hp, hlen, hn⟩
    have hle := l.length_le
    have htake : Numeral.take? 10 (lengthDigits l.base.family) (l.base.family.width + 1) p =
        some (l.length, []) := (Numeral.take?_eq_some_iff (by omega) (by omega)).2
      ⟨p, by simp, isDigits_iff.1 hp, Numeral.isOver_nil, hlen, hn, by omega⟩
    simp [closeNetwork?, htake, hle]

/-- A network is read alike from left to right. -/
theorem scanNetwork?_eq (t : Text) : scanNetwork? t = readNetwork? t := by
  refine Option.ext fun l => ?_
  rw [scanNetwork?, whole?_eq_some_iff, readNetwork?_eq_some_iff]
  constructor
  · intro h
    obtain ⟨p, a, u, rfl, hp, hl⟩ := exists_of_takeEither? h
    obtain ⟨d, rfl, rfl, hd, hlen, hn⟩ := closeNetwork?_eq_some_iff.1 hl
    exact ⟨p, d, rfl, hp, hd, hlen, hn⟩
  · rintro ⟨p, d, rfl, hp, hd, hlen, hn⟩
    exact takeEither?_of_read? hp (.slash d) (closeNetwork?_eq_some_iff.2 ⟨d, rfl, rfl, hd, hlen, hn⟩)

/-- A bare address is read alike from left to right. -/
theorem scanBare?_eq (t : Text) : scanBare? t = readBare? t := by
  refine Option.ext fun l => ?_
  rw [scanBare?, whole?_eq_some_iff, readBare?, Option.map_eq_some_iff]
  constructor
  · intro h
    obtain ⟨p, a, u, rfl, hp, hl⟩ := exists_of_takeEither? h
    cases hl
    exact ⟨a, by rwa [List.append_nil], rfl⟩
  · rintro ⟨a, ha, rfl⟩
    simpa using takeEither?_of_read? ha .nil (rfl : closeBare? a [] = some (Network.host a, []))

/-- A gap may stand for no group in a network, but not in a bare address. -/
example : (scanNetwork? "1:2:3:4::5:6:7:8/64").isSome = true ∧ scanBare? "1:2:3:4::5:6:7:8" = none := by decide +kernel

/-- A literal with a slash in it is no bare address, and one without a slash is no network. -/
theorem readNetwork?_eq_none_or (t : Text) : readNetwork? t = none ∨ readBare? t = none := by
  by_cases hslash : '/' ∈ t
  · refine .inr (Option.eq_none_iff_forall_ne_some.2 fun l h => ?_)
    obtain ⟨a, ha, -⟩ := Option.map_eq_some_iff.1 h
    exact Address.slash_notMem_of_read? ha hslash
  · exact .inl (readNetwork?_eq_none hslash)

end Literal

namespace Network

/-- The prefix length that makes a network of a single address, with the slash in front. -/
def wholeLength : Family → Text
  | .v4 => "/32"
  | .v6 => "/128"

variable {strict : Bool} {t : Text} {a : Address}

theorem wholeLength_eq (f : Family) : ∃ p, wholeLength f = '/' :: p ∧ IsDigits p ∧
    p.length ≤ Literal.lengthDigits f ∧ Numeral.value 10 p = f.width := by
  cases f with
  | v4 => exact ⟨"32", rfl, isDigits_iff.2 rfl, by decide, rfl⟩
  | v6 => exact ⟨"128", rfl, isDigits_iff.2 rfl, by decide, rfl⟩

theorem read_of_host (h : Literal.read? t = some (host a)) : Network.read strict t = .ok (host a) := by
  simp [Network.read, h, hasHostBits_eq_false_iff.2 (masked_host a)]

theorem exists_of_read {n : Network} (hslash : '/' ∉ t) (h : Network.read strict t = .ok n) :
    ∃ a, Address.read? .bare t = some a ∧ n = host a := by
  rcases hread : Literal.readBare? t with _ | l
  · rw [Network.read, Literal.read?_eq_bare hslash, hread] at h
    cases h
  · obtain ⟨a, ha, rfl⟩ := Option.map_eq_some_iff.1 hread
    rw [read_of_host ((Literal.read?_eq_bare hslash).trans hread)] at h
    exact ⟨a, ha, (Except.ok.inj h).symm⟩

theorem read?_append_wholeLength (h : Address.read? .bare t = some a) :
    Literal.read? (t ++ wholeLength a.family) = some (host a) := by
  obtain ⟨p, hp, hdigits, hlen, hvalue⟩ := wholeLength_eq a.family
  have hread : Literal.readNetwork? (t ++ wholeLength a.family) = some (host a) :=
    Literal.readNetwork?_eq_some_iff.2 ⟨t, p, by rw [hp], Address.read?_network h, hdigits, hlen, hvalue⟩
  rw [Literal.read?, hread]
  rfl

/-- Both readers of literals read from left to right. No text is understood by the two of them, so it does not matter
which one goes first. A literal without a slash stands for a single address, and means the same with the whole width
behind it. -/
theorem readAll_whole_length (t : Text) :
    Literal.scanNetwork? t = Literal.readNetwork? t ∧ Literal.scanBare? t = Literal.readBare? t ∧
    (Literal.readNetwork? t = none ∨ Literal.readBare? t = none) ∧
    (Literal.readBare? t <|> Literal.readNetwork? t) = Literal.read? t ∧
    ∀ strict ns, '/' ∉ t → readAll strict [t] = .ok ns → ∃ n, ns = [n] ∧ n.length = n.family.width ∧
      readAll strict [t ++ wholeLength n.family] = .ok [n] := by
  have hapart := Literal.readNetwork?_eq_none_or t
  refine ⟨Literal.scanNetwork?_eq t, Literal.scanBare?_eq t, hapart, ?_, fun strict ns hslash h => ?_⟩
  · rw [Literal.read?]
    rcases hapart with h | h <;> simp [h]
  · rw [readAll, mapM_eq_ok_iff_forall₂] at h
    rcases h with _ | ⟨hn, _ | _⟩
    obtain ⟨a, ha, rfl⟩ := exists_of_read hslash hn
    refine ⟨_, rfl, rfl, ?_⟩
    rw [readAll, mapM_singleton_eq_ok_iff]
    exact read_of_host (read?_append_wholeLength ha)

theorem readAll_whole_length_quad :
    let t : Text := "1:2:3:4:5:6:1.2.3.4"
    let n : Network := ⟨.v6 0x00010002000300040005000601020304, 128, by decide⟩
    readAll true [t] = .ok [n] ∧ readAll true [t ++ "/128"] = .ok [n] := by
  intro t n
  have h : readAll true [t] = .ok [n] := by decide +kernel
  obtain ⟨-, -, -, -, hwhole⟩ := readAll_whole_length t
  obtain ⟨m, hm, -, hread⟩ := hwhole true [n] (by decide +kernel) h
  obtain rfl : n = m := List.singleton_injective hm
  exact ⟨h, hread⟩

end Network

end Firewall
