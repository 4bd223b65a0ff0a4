import Firewall.Proofs.Items

/-!
# Texts of networks

An address is read only from digits, dots and colons (`Address.isPlain_of_read?_eq_some`). The text of a
network holds those and a slash, and it is read back. For v6 addresses printer and reader are
different algorithms: the printer cuts out the longest run of zero groups (`take_longestZeros`), and
the reader fills up the gap that it finds (`cutGap?_groupsText`). Main statements:
`Network.readNetwork?_text`, which holds of every network, and `Network.read_text`, which holds of
those without host bits.
-/

namespace Firewall

/-! ### Numerals -/

namespace Numeral
variable {base n : Nat}

theorem isNumeral_iff {t : Text} : isNumeral base t = true ↔ t ≠ [] ∧ ∀ c ∈ t, digitValue c < base := by
  simp [isNumeral]

theorem digitValue_lt_of_mem_text (h : 1 < base) (h' : base ≤ 16) {c : Char}
    (hc : c ∈ text base n) : digitValue c < base :=
  (isNumeral_iff.1 (isNumeral_text_and_value_text h h' n).1).2 c hc

theorem notMem_text (h : 1 < base) (h' : base ≤ 16) {c : Char} (hc : digitValue c = 16) :
    c ∉ text base n := by
  intro hm
  have hlt := digitValue_lt_of_mem_text h h' hm
  omega

end Numeral

theorem eq_or_exists_mem_of_mem_intercalate {α : Type} {x a : α} {ls : List (List α)}
    (h : a ∈ [x].intercalate ls) : a = x ∨ ∃ l ∈ ls, a ∈ l := by
  induction ls with
  | nil => simp at h
  | cons l ls ih =>
    cases ls with
    | nil => exact .inr ⟨l, by simp, by simpa using h⟩
    | cons l' ls =>
      rw [List.intercalate_cons_cons, List.mem_append, List.mem_append, List.mem_singleton] at h
      rcases h with (h | h) | h
      · exact .inr ⟨l, by simp, h⟩
      · exact .inl h
      · rcases ih h with h | ⟨m, hm, h⟩
        · exact .inl h
        · exact .inr ⟨m, List.mem_cons_of_mem l hm, h⟩

theorem mem_intercalate_of_mem {α : Type} {x a : α} {l : List α} {ls : List (List α)} (hl : l ∈ ls)
    (ha : a ∈ l) : a ∈ [x].intercalate ls := by
  induction ls with
  | nil => cases hl
  | cons m ls ih =>
    cases ls with
    | nil =>
      rw [List.mem_singleton] at hl
      simpa [← hl] using ha
    | cons m' ls =>
      rw [List.intercalate_cons_cons, List.mem_append]
      rcases List.mem_cons.1 hl with rfl | hl
      · exact .inl (List.mem_append_left _ ha)
      · exact .inr (ih hl)

/-- What is read item by item is what was written item by item. -/
theorem mapM_map_eq_some {α β : Type} {f : α → β} {g : β → Option α} (h : ∀ a, g (f a) = some a)
    (as : List α) : (as.map f).mapM g = some as := by
  induction as with
  | nil => rfl
  | cons a as ih => simp [h, ih]

theorem exists_of_mapM_eq_some {α β : Type} {f : α → Option β} {as : List α} {bs : List β} (h : as.mapM f = some bs) :
    ∀ a ∈ as, ∃ b, f a = some b := by
  induction as generalizing bs with
  | nil => simp
  | cons a as ih =>
    simp only [List.mapM_cons, Option.bind_eq_bind, Option.bind_eq_some_iff] at h
    obtain ⟨b, hb, bs', hbs, -⟩ := h
    exact List.forall_mem_cons.2 ⟨⟨b, hb⟩, ih hbs⟩

theorem length_of_mapM_eq_some {α β : Type} {f : α → Option β} {as : List α} {bs : List β}
    (h : as.mapM f = some bs) : bs.length = as.length := by
  induction as generalizing bs with
  | nil =>
    cases h
    rfl
  | cons a as ih =>
    simp only [List.mapM_cons, Option.bind_eq_bind, Option.bind_eq_some_iff] at h
    obtain ⟨b, -, bs', hbs, h⟩ := h
    cases h
    rw [List.length_cons, ih hbs, List.length_cons]

namespace Address
variable {s : Style} {t : Text}

/-! ### The characters of an address -/

/-- Whether a text holds hexadecimal digits, dots and colons only. -/
def IsPlain (t : Text) : Prop := ∀ c ∈ t, Numeral.digitValue c < 16 ∨ c = '.' ∨ c = ':'

theorem isPlain_append {u : Text} : IsPlain (t ++ u) ↔ IsPlain t ∧ IsPlain u := by
  simp only [IsPlain, List.mem_append, or_imp, forall_and]

theorem isPlain_of_splitOn (h : ∀ u ∈ t.splitOn ':', IsPlain u) : IsPlain t := by
  have ht : [':'].intercalate (t.splitOn ':') = t := List.intercalate_splitOn ':'
  intro c hc
  rw [← ht] at hc
  rcases eq_or_exists_mem_of_mem_intercalate hc with hcolon | ⟨u, hu, hc⟩
  · exact .inr (.inr hcolon)
  · exact h u hu c hc

theorem digitValue_lt_of_read? {base n : Nat} (h : Numeral.read? base t = some n) :
    ∀ c ∈ t, Numeral.digitValue c < base := by
  unfold Numeral.read? at h
  split at h
  · next hnum => exact (Numeral.isNumeral_iff.1 hnum).2
  · cases h

theorem mem_of_quad? {q : BitVec 32} (h : quad? s t = some q) {c : Char} (hc : c ∈ t) :
    Numeral.digitValue c < 10 ∨ c = '.' := by
  simp only [quad?, Option.bind_eq_bind, Option.bind_eq_some_iff] at h
  obtain ⟨os, hos, -⟩ := h
  have ht : ['.'].intercalate (t.splitOn '.') = t := List.intercalate_splitOn '.'
  rw [← ht] at hc
  rcases eq_or_exists_mem_of_mem_intercalate hc with rfl | ⟨u, hu, hc⟩
  · exact .inr rfl
  · obtain ⟨o, ho⟩ := exists_of_mapM_eq_some hos u hu
    simp only [octet?, Option.bind_eq_bind, Option.bind_eq_some_iff] at ho
    obtain ⟨n, hn, -⟩ := ho
    exact .inl (digitValue_lt_of_read? hn c hc)

theorem isPlain_of_quad? {q : BitVec 32} (h : quad? s t = some q) : IsPlain t :=
  fun _ hc => (mem_of_quad? h hc).imp (fun hlt => by omega) .inl

theorem isPlain_of_group? {g : BitVec 16} (h : group? t = some g) : IsPlain t := by
  simp only [group?, Option.bind_eq_bind, Option.bind_eq_some_iff] at h
  obtain ⟨n, hn, -⟩ := h
  exact fun c hc => .inl (digitValue_lt_of_read? hn c hc)

theorem isPlain_of_pieces? {ts : List Text} {gs : List (BitVec 16)} (h : pieces? s ts = some gs) :
    ∀ u ∈ ts, IsPlain u := by
  fun_induction pieces? s ts generalizing gs with
  | case1 => simp
  | case2 t =>
    rw [List.forall_mem_singleton]
    simp only [Option.orElse_eq_orElse, Option.orElse_eq_or, Option.or_eq_some_iff, Option.map_eq_some_iff] at h
    rcases h with ⟨g, hg, -⟩ | ⟨-, q, hq, -⟩
    · exact isPlain_of_group? hg
    · exact isPlain_of_quad? hq
  | case3 t ts _ ih =>
    simp only [Option.bind_eq_bind, Option.bind_eq_some_iff] at h
    obtain ⟨g, hg, gs, hgs, -⟩ := h
    exact List.forall_mem_cons.2 ⟨isPlain_of_group? hg, ih hgs⟩

theorem isPlain_of_head? {gs : List (BitVec 16)} (h : head? t = some gs) : IsPlain t := by
  unfold head? at h
  split at h
  · next ht => simp [IsPlain, ht]
  · refine isPlain_of_splitOn fun u hu => ?_
    obtain ⟨g, hg⟩ := exists_of_mapM_eq_some h u hu
    exact isPlain_of_group? hg

theorem isPlain_of_tail? {gs : List (BitVec 16)} (h : tail? s t = some gs) : IsPlain t := by
  unfold tail? at h
  split at h
  · next ht => simp [IsPlain, ht]
  · exact isPlain_of_splitOn (isPlain_of_pieces? h)

theorem eq_append_of_cutGap? {a b : Text} (h : cutGap? t = some (a, b)) : t = a ++ ':' :: ':' :: b := by
  fun_induction cutGap? t generalizing a with
  | case1 => cases h
  | case2 t =>
    cases h
    rfl
  | case3 c t _ ih =>
    obtain ⟨⟨a', b'⟩, hcut, hab⟩ := Option.map_eq_some_iff.1 h
    cases hab
    rw [ih hcut, List.cons_append]

/-- An address is written with hexadecimal digits, dots and colons. -/
theorem isPlain_of_read?_eq_some {a : Address} (h : Address.read? s t = some a) : IsPlain t := by
  unfold Address.read? at h
  split at h
  · obtain ⟨b, hb, -⟩ := Option.map_eq_some_iff.1 h
    unfold eightGroups? at hb
    split at hb
    · simp only [Option.bind_eq_bind, Option.bind_eq_some_iff] at hb
      obtain ⟨gs, hgs, -⟩ := hb
      exact isPlain_of_splitOn (isPlain_of_pieces? hgs)
    · next u v hcut =>
      simp only [Option.bind_eq_bind, Option.bind_eq_some_iff] at hb
      obtain ⟨hd, hhd, tl, htl, -⟩ := hb
      have hcolon : Numeral.digitValue ':' < 16 ∨ ':' = '.' ∨ ':' = ':' := .inr (.inr rfl)
      rw [eq_append_of_cutGap? hcut, isPlain_append]
      exact ⟨isPlain_of_head? hhd,
        List.forall_mem_cons.2 ⟨hcolon, List.forall_mem_cons.2 ⟨hcolon, isPlain_of_tail? htl⟩⟩⟩
  · obtain ⟨q, hq, -⟩ := Option.map_eq_some_iff.1 h
    exact isPlain_of_quad? hq

theorem slash_notMem_of_read? {a : Address} (h : Address.read? s t = some a) : '/' ∉ t :=
  fun hm => absurd (isPlain_of_read?_eq_some h '/' hm) (by decide)

/-! ### Quads -/

theorem octet?_text (o : BitVec 8) : octet? s (Numeral.text 10 o.toNat) = some o := by
  have hlt : o.toNat < 256 := o.isLt
  -- a numeral of two digits or more does not begin with a zero
  have hhead : ∀ n < 256, (Numeral.text 10 n).length = 1 ∨ (Numeral.text 10 n).head? ≠ some '0' := by
    decide +kernel
  have hlen : (Numeral.text 10 o.toNat).length ≤ 3 :=
    (Nat.length_toDigits_le_iff (by omega) (by omega)).2 (by omega)
  rw [octet?, Numeral.read?_text (by omega) (by omega)]
  simp [hlen, hlt, hhead o.toNat hlt]

theorem quad?_quadText (q : BitVec 32) : quad? s (quadText q) = some q := by
  have hsplit : (quadText q).splitOn '.' = (octets q).map fun o => Numeral.text 10 o.toNat := by
    refine List.splitOn_intercalate '.' ?_ (by simp [octets])
    intro t ht
    obtain ⟨o, -, rfl⟩ := List.mem_map.1 ht
    exact Numeral.notMem_text (by omega) (by omega) (by decide)
  rw [quad?, hsplit, mapM_map_eq_some octet?_text]
  exact ofOctets?_octets q

/-! ### Groups -/

theorem group?_text (g : BitVec 16) : group? (Numeral.text 16 g.toNat) = some g := by
  have hlen : (Numeral.text 16 g.toNat).length ≤ 4 :=
    (Nat.length_toDigits_le_iff (by omega) (by omega)).2 g.isLt
  rw [group?, Numeral.read?_text (by omega) (by omega)]
  simp [hlen]

theorem colon_notMem_groupText (g : BitVec 16) : ':' ∉ Numeral.text 16 g.toNat :=
  Numeral.notMem_text (by omega) (by omega) (by decide)

theorem groupsText_cons (g : BitVec 16) (gs : List (BitVec 16)) :
    groupsText (g :: gs) =
      Numeral.text 16 g.toNat ++ if gs = [] then [] else ':' :: groupsText gs := by
  cases gs <;> simp [groupsText, List.intercalate_cons_cons]

theorem splitOn_groupsText {gs : List (BitVec 16)} (h : gs ≠ []) :
    (groupsText gs).splitOn ':' = gs.map fun g => Numeral.text 16 g.toNat := by
  refine List.splitOn_intercalate ':' ?_ (by simpa using h)
  intro t ht
  obtain ⟨g, -, rfl⟩ := List.mem_map.1 ht
  exact colon_notMem_groupText g

theorem groupsText_eq_nil_iff {gs : List (BitVec 16)} : groupsText gs = [] ↔ gs = [] := by
  cases gs with
  | nil => simp [groupsText]
  | cons g gs => simp [groupsText_cons, Numeral.text, Nat.toDigits_ne_nil]

theorem pieces?_map_text (gs : List (BitVec 16)) :
    pieces? s (gs.map fun g => Numeral.text 16 g.toNat) = some gs := by
  induction gs with
  | nil => rfl
  | cons g gs ih =>
    cases gs with
    | nil => simp [pieces?, group?_text]
    | cons g' gs =>
      rw [List.map_cons] at ih
      simp [pieces?, group?_text, ih]

theorem head?_groupsText (gs : List (BitVec 16)) : head? (groupsText gs) = some gs := by
  by_cases h : gs = []
  · subst h
    rfl
  · rw [head?, if_neg fun ht => h (groupsText_eq_nil_iff.1 ht), splitOn_groupsText h,
      mapM_map_eq_some group?_text]

theorem tail?_groupsText (gs : List (BitVec 16)) : tail? s (groupsText gs) = some gs := by
  by_cases h : gs = []
  · subst h
    rfl
  · rw [tail?, if_neg fun ht => h (groupsText_eq_nil_iff.1 ht), splitOn_groupsText h,
      pieces?_map_text]

/-! ### The gap -/

theorem cutGap?_append {u : Text} (hu : ':' ∉ u) (t : Text) :
    cutGap? (u ++ t) = (cutGap? t).map fun (a, b) => (u ++ a, b) := by
  induction u with
  | nil => simp
  | cons c u ih =>
    simp only [List.mem_cons, not_or] at hu
    rw [List.cons_append, cutGap?, ih hu.2, Option.map_map]
    · rfl
    · rintro t' rfl -
      exact hu.1 rfl

theorem cutGap?_colon {t : Text} (ht : t.head? ≠ some ':') :
    cutGap? (':' :: t) = (cutGap? t).map fun (a, b) => (':' :: a, b) := by
  rw [cutGap?]
  rintro t' - rfl
  exact ht rfl

/-- There is no gap between pieces joined by colons, so the first one lies behind them. -/
theorem cutGap?_intercalate {ps : List Text} (h : ∀ p ∈ ps, p ≠ [] ∧ ':' ∉ p) (t : Text) :
    cutGap? ([':'].intercalate ps ++ t) = (cutGap? t).map fun (a, b) => ([':'].intercalate ps ++ a, b) := by
  induction ps with
  | nil => simp
  | cons p ps ih =>
    obtain ⟨⟨-, hp⟩, hps⟩ := List.forall_mem_cons.1 h
    rcases ps with _ | ⟨q, ps⟩
    · rw [List.intercalate_singleton, cutGap?_append hp]
    · -- the next piece does not begin with a colon
      have hhead : ([':'].intercalate (q :: ps) ++ t).head? ≠ some ':' := by
        obtain ⟨hne, hq⟩ := hps q List.mem_cons_self
        obtain ⟨c, u, rfl⟩ := List.exists_cons_of_ne_nil hne
        have hc : c ≠ ':' := fun hc => hq (hc ▸ List.mem_cons_self)
        rcases ps with _ | ⟨r, ps⟩
        · simpa using hc
        · simpa [List.intercalate_cons_cons] using hc
      rw [List.intercalate_cons_cons, List.append_assoc, List.append_assoc, cutGap?_append hp,
        List.singleton_append, cutGap?_colon hhead, ih hps, Option.map_map, Option.map_map]
      simp [Function.comp_def]

theorem cutGap?_groupsText (gs : List (BitVec 16)) (t : Text) :
    cutGap? (groupsText gs ++ t) = (cutGap? t).map fun (a, b) => (groupsText gs ++ a, b) :=
  cutGap?_intercalate
    (List.forall_mem_map.2 fun g _ => ⟨Nat.toDigits_ne_nil, colon_notMem_groupText g⟩) t

theorem take_leadingZeros (gs : List (BitVec 16)) :
    gs.take (leadingZeros gs) = List.replicate (leadingZeros gs) 0 := by
  have hpre : gs.takeWhile (· == 0) = gs.take (leadingZeros gs) :=
    List.prefix_iff_eq_take.1 (List.takeWhile_prefix _)
  rw [← hpre, leadingZeros, List.eq_replicate_iff]
  exact ⟨rfl, fun g hg => by simpa using List.all_eq_true.1 List.all_takeWhile g hg⟩

theorem leadingZeros_le (gs : List (BitVec 16)) : leadingZeros gs ≤ gs.length :=
  (List.takeWhile_prefix _).length_le

/-- The longest run of zero groups lies within the groups and holds zeros only. -/
theorem take_longestZeros (gs : List (BitVec 16)) :
    (longestZeros gs).1 + (longestZeros gs).2 ≤ gs.length ∧
      (gs.drop (longestZeros gs).1).take (longestZeros gs).2 =
        List.replicate (longestZeros gs).2 0 := by
  induction gs with
  | nil => simp [longestZeros]
  | cons g gs ih =>
    rw [longestZeros]
    dsimp only
    split
    · simpa using ⟨leadingZeros_le (g :: gs), take_leadingZeros (g :: gs)⟩
    · simp only [List.drop_succ_cons, List.length_cons]
      exact ⟨by omega, ih.2⟩

/-- The longest run of zero groups stands between those before and behind it. -/
theorem append_longestZeros (gs : List (BitVec 16)) :
    gs.take (longestZeros gs).1 ++ List.replicate (longestZeros gs).2 0 ++
      gs.drop ((longestZeros gs).1 + (longestZeros gs).2) = gs := by
  rw [← (take_longestZeros gs).2, List.append_assoc, ← List.drop_drop, List.take_append_drop, List.take_append_drop]

theorem fillGap?_longestZeros {gs : List (BitVec 16)} (h8 : gs.length = 8)
    (h2 : 2 ≤ (longestZeros gs).2) :
    fillGap? s (gs.take (longestZeros gs).1)
      (gs.drop ((longestZeros gs).1 + (longestZeros gs).2)) = ofGroups? gs := by
  obtain ⟨hle, -⟩ := take_longestZeros gs
  have hjoin := append_longestZeros gs
  generalize (longestZeros gs).1 = start at *
  generalize (longestZeros gs).2 = length at *
  have hgap : 8 - (start + (8 - (start + length))) = length := by omega
  have htotal : start + (8 - (start + length)) ≤ if s.emptyGap then 8 else 7 := by
    split <;> omega
  rw [fillGap?, List.length_take, List.length_drop, h8, Nat.min_eq_left (by omega), hgap, hjoin,
    if_pos ⟨by omega, htotal⟩]

theorem eightGroups?_shortGroupsText (b : BitVec 128) :
    eightGroups? s (shortGroupsText (groups b)) = some b := by
  rw [shortGroupsText]
  dsimp only
  split
  · have hcut : cutGap? (groupsText (groups b)) = none := by
      simpa [cutGap?] using cutGap?_groupsText (groups b) []
    rw [eightGroups?, hcut]
    simp only
    rw [splitOn_groupsText (by simp [groups]), pieces?_map_text]
    exact ofGroups?_groups b
  · next h2 =>
    rw [List.append_assoc, eightGroups?, cutGap?_groupsText]
    have hfill := fillGap?_longestZeros (s := s) (length_groups b) (Nat.not_lt.1 h2)
    simp [cutGap?, head?_groupsText, tail?_groupsText, hfill]

/-! ### Embedded quads -/

theorem ofGroups?_embedded {b : BitVec 128} (h : b.extractLsb' 32 96 = 0xFFFF) :
    ofGroups? [0, 0, 0, 0, 0, 0xFFFF, (b.extractLsb' 0 32).extractLsb' 16 16,
      (b.extractLsb' 0 32).extractLsb' 0 16] = some b := by
  have hb : b.extractLsb' 32 96 ++ b.extractLsb' 0 32 = b :=
    @BitVec.extractLsb'_append_extractLsb' 96 32 b
  generalize b.extractLsb' 0 32 = q at *
  have hq : q.extractLsb' 16 16 ++ q.extractLsb' 0 16 = q :=
    @BitVec.extractLsb'_append_extractLsb' 16 16 q
  generalize q.extractLsb' 16 16 = hi at *
  generalize q.extractLsb' 0 16 = lo at *
  have hones : (0 : BitVec 16) ++ (0 : BitVec 16) ++ (0 : BitVec 16) ++ (0 : BitVec 16) ++
      (0 : BitVec 16) ++ (0xFFFF : BitVec 16) = (0xFFFF : BitVec 96) := by decide
  rw [ofGroups?, hones, BitVec.append_assoc, BitVec.cast_eq, hq, ← h, hb]

theorem dot_mem_quadText (q : BitVec 32) : '.' ∈ quadText q := by
  simp [quadText, octets, List.intercalate_cons_cons]

theorem pieces?_quadText (q : BitVec 32) :
    pieces? s ["ffff", quadText q] = some [0xFFFF, q.extractLsb' 16 16, q.extractLsb' 0 16] := by
  -- a quad holds a dot, so it is no group
  have hgroup : group? (quadText q) = none := by
    have hnum : Numeral.isNumeral 16 (quadText q) = false := by
      rw [Bool.eq_false_iff]
      intro h
      exact absurd ((Numeral.isNumeral_iff.1 h).2 _ (dot_mem_quadText q)) (by decide)
    simp [group?, Numeral.read?, hnum]
  have hones : group? "ffff" = some 0xFFFF := by decide +kernel
  rw [pieces?, hones, pieces?, hgroup, quad?_quadText]
  · rfl
  · simp

theorem colon_notMem_quadText (q : BitVec 32) : ':' ∉ quadText q :=
  fun h => absurd (mem_of_quad? (quad?_quadText (s := .bare) q) h) (by decide)

theorem eightGroups?_embedded {b : BitVec 128} (h : b.extractLsb' 32 96 = 0xFFFF) :
    eightGroups? s ("::ffff:" ++ quadText (b.extractLsb' 0 32)) = some b := by
  have hgroups := ofGroups?_embedded h
  generalize b.extractLsb' 0 32 = q at *
  have hcut : cutGap? ("::ffff:" ++ quadText q) = some ([], "ffff:" ++ quadText q) := rfl
  have hsplit : ("ffff:" ++ quadText q : Text).splitOn ':' = ["ffff".toList, quadText q] := by
    have hones : ':' ∉ "ffff".toList := by decide
    rw [← List.splitOn_eq_singleton (colon_notMem_quadText q)]
    exact List.splitOn_append_cons_self_of_not_mem hones (quadText q)
  have htail : tail? s ("ffff:" ++ quadText q) =
      some [0xFFFF, q.extractLsb' 16 16, q.extractLsb' 0 16] := by
    rw [tail?, if_neg (by simp), hsplit, pieces?_quadText]
  have hfill : fillGap? s [] [0xFFFF, q.extractLsb' 16 16, q.extractLsb' 0 16] = some b := by
    rw [fillGap?, if_pos (by cases s.emptyGap <;> simp)]
    exact hgroups
  simp only [eightGroups?, hcut, head?, if_true, htail, Option.bind_eq_bind, Option.bind_some,
    hfill]

/-! ### Addresses -/

theorem colon_mem_text (b : BitVec 128) : ':' ∈ (v6 b).text := by
  simp only [text]
  split
  · simp
  · unfold shortGroupsText
    dsimp only
    split
    · simp [groups, groupsText_cons]
    · simp

theorem read?_text (a : Address) : read? s a.text = some a := by
  cases a with
  | v4 q =>
    rw [text, read?, if_neg (colon_notMem_quadText q), quad?_quadText]
    rfl
  | v6 b =>
    have hread : eightGroups? s (v6 b).text = some b := by
      simp only [text, embedded?]
      split
      · next h =>
        split at h
        · next hb =>
          cases h
          exact eightGroups?_embedded hb
        · cases h
      · exact eightGroups?_shortGroupsText b
    rw [read?, if_pos (colon_mem_text b), hread]
    rfl

theorem mem_text {a : Address} {c : Char} (h : c ∈ a.text) :
    Numeral.digitValue c < 16 ∨ c = '.' ∨ c = ':' :=
  isPlain_of_read?_eq_some (read?_text (s := .bare) a) c h

end Address

/-- A prefix length within the width has no more digits than the width. -/
theorem Literal.length_text_le_lengthDigits {f : Family} {n : Nat} (h : n ≤ f.width) :
    (Numeral.text 10 n).length ≤ lengthDigits f := by
  cases f with
  | v4 =>
    have hlt : n < 10 ^ 2 := Nat.lt_of_le_of_lt h (by decide)
    show _ ≤ 2
    exact (Nat.length_toDigits_le_iff (by omega) (by omega)).2 hlt
  | v6 =>
    have hlt : n < 10 ^ 3 := Nat.lt_of_le_of_lt h (by decide)
    show _ ≤ 3
    exact (Nat.length_toDigits_le_iff (by omega) (by omega)).2 hlt

namespace Network

theorem text_eq (n : Network) : n.text = n.base.text ++ '/' :: Numeral.text 10 n.length := by
  simp [text]

theorem mem_text {n : Network} {c : Char} (h : c ∈ n.text) :
    Numeral.digitValue c < 16 ∨ c = '.' ∨ c = ':' ∨ c = '/' := by
  simp only [text, List.mem_append] at h
  rcases h with (h | h) | h
  · rcases Address.mem_text h with h | h | h
    · exact .inl h
    · exact .inr (.inl h)
    · exact .inr (.inr (.inl h))
  · exact .inr (.inr (.inr (by simpa using h)))
  · have hlt := Numeral.digitValue_lt_of_mem_text (by omega) (by omega) h
    exact .inl (by omega)

/-- What `text` writes is read back with its host bits. -/
theorem readNetwork?_text (n : Network) : Literal.readNetwork? n.text = some n := by
  have hcut : Text.cut? (· == '/') n.text = some (n.base.text, Numeral.text 10 n.length) := by
    refine Text.cut?_eq_some_iff.2 ⟨'/', by simp, ?_, n.text_eq⟩
    intro c hc
    rw [beq_eq_false_iff_ne]
    rintro rfl
    exact absurd (Address.mem_text hc) (by decide)
  have hdigits := Literal.length_text_le_lengthDigits n.length_le
  simp [Literal.readNetwork?, hcut, Address.read?_text, Numeral.read?_text, n.length_le, hdigits]

/-- What `text` writes of a network without host bits is read back, even by a strict reader. -/
theorem read_text (strict : Bool) {n : Network} (h : n.masked = n) : read strict n.text = .ok n := by
  simp [read, Literal.read?, readNetwork?_text, hasHostBits_eq_false_iff.2 h, h]

theorem text_injective : Function.Injective text := by
  intro m n h
  have hm := readNetwork?_text m
  rw [h, readNetwork?_text] at hm
  exact (Option.some.inj hm).symm

end Network

end Firewall
