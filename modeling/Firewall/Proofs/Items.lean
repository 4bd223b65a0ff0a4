import Firewall.Network.Literal
import Firewall.Port.List

/-!
# The items of a comma list

Networks and ports come in comma lists, read item by item. `PortSpan.Form` is the grammar of one
item of a port list, with the numbers it holds. `PortList.isPortList_iff`: the one pass over a port
list and the grammar of its items agree. `PortList.exists_read_iff` says which port lists are read,
`PortList.read_eq_ok` and `Network.readAll_eq_ok` say what is read.
-/

namespace Firewall

/-! ### Reading one by one -/

section
variable {α β ε : Type} {f : α → Except ε β}

theorem mapM_cons_eq_ok_iff {a : α} {as : List α} {bs : List β} :
    (a :: as).mapM f = .ok bs ↔ ∃ b bs', f a = .ok b ∧ as.mapM f = .ok bs' ∧ bs = b :: bs' := by
  rw [List.mapM_cons]
  rcases f a with e | b
  · simp [bind, Except.bind]
  · rcases as.mapM f with e | bs'
    · simp [bind, Except.bind]
    · simp [bind, Except.bind, pure, Except.pure, eq_comm]

theorem exists_mapM_iff {as : List α} :
    (∃ bs, as.mapM f = .ok bs) ↔ ∀ a ∈ as, ∃ b, f a = .ok b := by
  induction as with
  | nil => simp [pure, Except.pure]
  | cons a as ih =>
    simp only [mapM_cons_eq_ok_iff, List.forall_mem_cons, ← ih]
    constructor
    · rintro ⟨_, b, bs, hb, hbs, -⟩
      exact ⟨⟨b, hb⟩, bs, hbs⟩
    · rintro ⟨⟨b, hb⟩, bs, hbs⟩
      exact ⟨_, b, bs, hb, hbs, rfl⟩

/-- The first failure decides the error. -/
theorem mapM_eq_error_iff {as : List α} {e : ε} :
    as.mapM f = .error e ↔ ∃ pre a post, as = pre ++ a :: post ∧ (∀ x ∈ pre, ∃ b, f x = .ok b) ∧
      f a = .error e := by
  induction as with
  | nil => simp [pure, Except.pure]
  | cons a as ih =>
    rw [List.mapM_cons]
    constructor
    · intro h
      cases ha : f a with
      | error e' =>
        rw [ha] at h
        cases h
        exact ⟨[], a, as, rfl, by simp, ha⟩
      | ok b =>
        have has : as.mapM f = .error e := by
          cases has : as.mapM f with
          | error e' => simpa [ha, has, bind, Except.bind] using h
          | ok bs => simp [ha, has, bind, Except.bind, pure, Except.pure] at h
        obtain ⟨pre, x, post, rfl, hpre, hx⟩ := ih.1 has
        exact ⟨a :: pre, x, post, rfl, List.forall_mem_cons.2 ⟨⟨b, ha⟩, hpre⟩, hx⟩
    · rintro ⟨_ | ⟨y, pre⟩, x, post, has, hpre, hx⟩
      · obtain ⟨rfl, rfl⟩ := List.cons.inj has
        rw [hx]
        rfl
      · obtain ⟨rfl, rfl⟩ := List.cons.inj has
        obtain ⟨⟨b, ha⟩, hpre⟩ := List.forall_mem_cons.1 hpre
        rw [ha, ih.2 ⟨pre, x, post, rfl, hpre, hx⟩]
        rfl

theorem eq_filterMap_of_mapM {as : List α} {bs : List β} (h : as.mapM f = .ok bs) :
    bs = as.filterMap fun a => (f a).toOption := by
  induction as generalizing bs with
  | nil =>
    cases h
    rfl
  | cons a as ih =>
    obtain ⟨b, bs', hb, hbs, rfl⟩ := mapM_cons_eq_ok_iff.1 h
    rw [List.filterMap_cons, hb, ← ih hbs]
    rfl

theorem ne_nil_of_mapM {as : List α} {bs : List β} (h : as.mapM f = .ok bs) (has : as ≠ []) :
    bs ≠ [] := by
  cases as with
  | nil => exact absurd rfl has
  | cons a as =>
    obtain ⟨b, bs', -, -, rfl⟩ := mapM_cons_eq_ok_iff.1 h
    exact List.cons_ne_nil b bs'

end

/-- What is joined is the first part, and the others with a separator in front of each. -/
theorem intercalate_cons_eq_append {α : Type} (x : α) (l : List α) (ls : List (List α)) :
    [x].intercalate (l :: ls) = l ++ ls.flatMap (x :: ·) := by
  induction ls generalizing l with
  | nil => simp
  | cons m ls ih => simp [List.intercalate_cons_cons, ih]

theorem Text.items_ne_nil (t : Text) : t.items ≠ [] := List.splitOn_ne_nil ',' t

/-- The pieces between separators hold no separator. -/
theorem Text.eq_false_of_mem_splitOnP {p : Char → Bool} {t u : Text} (h : u ∈ t.splitOnP p) :
    ∀ c ∈ u, p c = false := by
  induction t generalizing u with
  | nil =>
    obtain rfl : u = [] := by simpa using h
    simp
  | cons c t ih =>
    rw [List.splitOnP_cons_eq_if_modifyHead] at h
    split at h
    · rcases List.mem_cons.1 h with rfl | h
      · simp
      · exact ih h
    · next hc =>
      obtain ⟨v, vs, hv⟩ := List.exists_cons_of_ne_nil (List.splitOnP_ne_nil p t)
      rw [hv, List.modifyHead_cons] at h
      rw [hv] at ih
      rcases List.mem_cons.1 h with rfl | h
      · exact List.forall_mem_cons.2 ⟨Bool.eq_false_iff.2 hc, ih List.mem_cons_self⟩
      · exact ih (List.mem_cons_of_mem v h)

theorem Text.comma_notMem_of_mem_items {t u : Text} (h : u ∈ t.items) : ',' ∉ u := by
  rw [Text.items, List.splitOn_eq_splitOnP] at h
  intro hc
  simpa using Text.eq_false_of_mem_splitOnP h ',' hc

theorem Network.readAll_eq_ok {strict : Bool} {t : Text} {ns : List Network}
    (h : Network.readAll strict t.items = .ok ns) :
    ns = (t.items.filterMap fun l => (Network.read strict l).toOption) ∧ ns ≠ [] :=
  ⟨eq_filterMap_of_mapM h, ne_nil_of_mapM h t.items_ne_nil⟩

theorem Network.masked_of_mem_readAll {strict : Bool} {ts : List Text} {ns : List Network} {n : Network}
    (h : Network.readAll strict ts = .ok ns) (hn : n ∈ ns) : n.masked = n := by
  rw [eq_filterMap_of_mapM h] at hn
  obtain ⟨t, -, ht⟩ := List.mem_filterMap.1 hn
  cases hread : Network.read strict t with
  | error e => simp [hread, Except.toOption] at ht
  | ok m =>
    obtain rfl : m = n := by simpa [hread, Except.toOption] using ht
    exact masked_of_read hread

/-! ### The items of a port list -/

/-- Whether a text is a run of decimal digits. -/
def IsDigits (t : Text) : Prop := t ≠ [] ∧ ∀ c ∈ t, c.isDigit = true

theorem isDigits_iff {t : Text} : IsDigits t ↔ Numeral.isNumeral 10 t = true := by
  simp [IsDigits, Numeral.isNumeral, Numeral.digitValue_lt_ten_iff]

theorem isBlank_of_isDigit {c : Char} (h : c.isDigit = true) : isBlank c = false := by
  simp only [Char.isDigit, Bool.and_eq_true, decide_eq_true_eq] at h
  have h0 : 48 ≤ c.toNat := h.1
  have h9 : c.toNat ≤ 57 := h.2
  simp only [isBlank, Bool.or_eq_false_iff, Bool.and_eq_false_iff, decide_eq_false_iff_not,
    beq_eq_false_iff_ne]
  omega

theorem isMark_of_isDigit {c : Char} (h : c.isDigit = true) : PortSpan.isMark c = false := by
  simp only [PortSpan.isMark, Bool.or_eq_false_iff, beq_eq_false_iff_ne]
  constructor <;> rintro rfl <;> simp [Char.isDigit] at h

theorem Text.strip_eq_self {t : Text} (h : ∀ c ∈ t, isBlank c = false) : t.strip = t := by
  have hdrop : ∀ u : Text, (∀ c ∈ u, isBlank c = false) → u.dropWhile isBlank = u := by
    intro u hu
    cases u with
    | nil => rfl
    | cons c u => simp [hu c (by simp)]
  rw [strip, hdrop t h, hdrop t.reverse (by simpa using h), List.reverse_reverse]

theorem Port.read?_of_isDigits {t : Text} (h : IsDigits t) :
    Port.read? t = Port.ofNat? (Numeral.value 10 t) := by
  have hsign : Port.dropSign t = t := by
    unfold Port.dropSign
    split
    · exact absurd (h.2 '+' (by simp)) (by decide)
    · rfl
  rw [read?, Text.strip_eq_self fun c hc => isBlank_of_isDigit (h.2 c hc), hsign, Numeral.read?,
    if_pos (isDigits_iff.1 h), Option.bind_some]

theorem Port.exists_read_iff {t : Text} (h : IsDigits t) :
    (∃ p, Port.read t = .ok p) ↔ 1 ≤ Numeral.value 10 t ∧ Numeral.value 10 t ≤ 65535 := by
  rw [read, read?_of_isDigits h, ofNat?]
  by_cases hn : 0 < Numeral.value 10 t ∧ Numeral.value 10 t ≤ 65535
  · rw [dif_pos hn]
    exact iff_of_true ⟨_, rfl⟩ hn
  · rw [dif_neg hn]
    refine iff_of_false ?_ hn
    rintro ⟨p, hp⟩
    cases hp

namespace PortSpan

/-- The form of an item of a port list, a number or two numbers with a mark between them, and the
numbers. -/
inductive Form : Text → List Nat → Prop
  | single {a : Text} (ha : IsDigits a) : Form a [Numeral.value 10 a]
  | range {a b : Text} {m : Char} (ha : IsDigits a) (hm : m = ':' ∨ m = '-') (hb : IsDigits b) :
      Form (a ++ m :: b) [Numeral.value 10 a, Numeral.value 10 b]

theorem isMark_iff {c : Char} : isMark c = true ↔ c = ':' ∨ c = '-' := by simp [isMark]

theorem Form.exists_read_iff {t : Text} {ns : List Nat} (h : Form t ns) :
    (∃ s, PortSpan.read t = .ok s) ↔ ∀ n ∈ ns, 1 ≤ n ∧ n ≤ 65535 := by
  cases h with
  | single ha =>
    have hcut : t.cut? isMark = none :=
      Text.cut?_eq_none_iff.2 fun c hc => isMark_of_isDigit (ha.2 c hc)
    simp only [PortSpan.read, hcut, List.mem_singleton, forall_eq, ← Port.exists_read_iff ha]
    cases Port.read t <;> simp [bind, Except.bind, pure, Except.pure]
  | @range a b m ha hm hb =>
    have hcut : Text.cut? isMark (a ++ m :: b) = some (a, b) :=
      Text.cut?_eq_some_iff.2 ⟨m, isMark_iff.2 hm, fun c hc => isMark_of_isDigit (ha.2 c hc), rfl⟩
    simp only [PortSpan.read, hcut, List.mem_cons, List.not_mem_nil, or_false, forall_eq_or_imp,
      forall_eq, ← Port.exists_read_iff ha, ← Port.exists_read_iff hb]
    cases Port.read a <;> cases Port.read b <;> simp [bind, Except.bind, pure, Except.pure]

end PortSpan

namespace PortList

/-! ### The form of a port list -/

/-- What the rest of an item may be, from a spot in it on. -/
def Rest : Spot → Text → Prop
  | .item, t => ∃ ns, PortSpan.Form t ns
  | .first, t => (∀ c ∈ t, c.isDigit = true) ∨
      ∃ a m b, t = a ++ m :: b ∧ (∀ c ∈ a, c.isDigit = true) ∧ (m = ':' ∨ m = '-') ∧ IsDigits b
  | .mark, t => IsDigits t
  | .last, t => ∀ c ∈ t, c.isDigit = true

theorem rest_nil {s : Spot} : Rest s [] ↔ s.isFinal = true := by
  cases s with
  | item =>
    refine iff_of_false ?_ (by simp [Spot.isFinal])
    rintro ⟨ns, h⟩
    generalize ht : ([] : Text) = t at h
    cases h with
    | single ha => exact ha.1 ht.symm
    | range ha _ _ => simp at ht
  | first => simp [Rest, Spot.isFinal]
  | mark => simp [Rest, Spot.isFinal, IsDigits]
  | last => simp [Rest, Spot.isFinal]

theorem isDigits_cons {c : Char} {t : Text} :
    IsDigits (c :: t) ↔ c.isDigit = true ∧ ∀ x ∈ t, x.isDigit = true := by
  simp [IsDigits]

theorem rest_item_cons {c : Char} {t : Text} :
    Rest .item (c :: t) ↔ c.isDigit = true ∧ Rest .first t := by
  constructor
  · rintro ⟨ns, h⟩
    generalize ht : c :: t = u at h
    cases h with
    | single ha =>
      subst ht
      exact ⟨(isDigits_cons.1 ha).1, .inl (isDigits_cons.1 ha).2⟩
    | @range a b m ha hm hb =>
      cases a with
      | nil => exact absurd rfl ha.1
      | cons x a =>
        obtain ⟨rfl, rfl⟩ := List.cons.inj ht
        exact ⟨(isDigits_cons.1 ha).1, .inr ⟨a, m, b, rfl, (isDigits_cons.1 ha).2, hm, hb⟩⟩
  · rintro ⟨hc, ht | ⟨a, m, b, rfl, ha, hm, hb⟩⟩
    · exact ⟨_, .single (isDigits_cons.2 ⟨hc, ht⟩)⟩
    · exact ⟨_, .range (a := c :: a) (isDigits_cons.2 ⟨hc, ha⟩) hm hb⟩

theorem rest_first_cons {c : Char} {t : Text} :
    Rest .first (c :: t) ↔ c.isDigit = true ∧ Rest .first t ∨ (c = ':' ∨ c = '-') ∧ Rest .mark t := by
  constructor
  · rintro (ht | ⟨a, m, b, ht, ha, hm, hb⟩)
    · exact .inl ⟨ht c (by simp), .inl fun x hx => ht x (by simp [hx])⟩
    · cases a with
      | nil =>
        obtain ⟨rfl, rfl⟩ := List.cons.inj ht
        exact .inr ⟨hm, hb⟩
      | cons x a =>
        obtain ⟨rfl, rfl⟩ := List.cons.inj ht
        exact .inl ⟨ha c (by simp), .inr ⟨a, m, b, rfl, fun x hx => ha x (by simp [hx]), hm, hb⟩⟩
  · rintro (⟨hc, ht | ⟨a, m, b, rfl, ha, hm, hb⟩⟩ | ⟨hc, ht⟩)
    · exact .inl (List.forall_mem_cons.2 ⟨hc, ht⟩)
    · exact .inr ⟨c :: a, m, b, rfl, List.forall_mem_cons.2 ⟨hc, ha⟩, hm, hb⟩
    · exact .inr ⟨[], c, t, rfl, by simp, hc, ht⟩

/-- A character that is no comma leads from spot to spot within an item. -/
theorem rest_cons {s : Spot} {c : Char} {t : Text} (hc : c ≠ ',') :
    Rest s (c :: t) ↔ ∃ s', step s c = some s' ∧ Rest s' t := by
  cases s with
  | item => by_cases hd : c.isDigit = true <;> simp [rest_item_cons, step, hd]
  | first =>
    rw [rest_first_cons, ← PortSpan.isMark_iff]
    by_cases hd : c.isDigit = true
    · simp [step, hd, isMark_of_isDigit hd]
    · by_cases hm : PortSpan.isMark c = true <;> simp [step, hd, hm, hc]
  | mark => by_cases hd : c.isDigit = true <;> simp [Rest, isDigits_cons, step, hd]
  | last => by_cases hd : c.isDigit = true <;> simp [Rest, step, hd, hc]

theorem step_comma (s : Spot) : step s ',' = if s.isFinal then some .item else none := by
  cases s <;> rfl

/-- What the rest of a list may be, from a spot in its first item on. -/
def RestItems (s : Spot) : List Text → Prop
  | [] => False
  | p :: ps => Rest s p ∧ ∀ q ∈ ps, ∃ ns, PortSpan.Form q ns

theorem restItems_item {ts : List Text} (h : ts ≠ []) :
    RestItems .item ts ↔ ∀ p ∈ ts, ∃ ns, PortSpan.Form p ns := by
  cases ts with
  | nil => exact absurd rfl h
  | cons p ps => exact List.forall_mem_cons.symm

/-- The pass over a list from a spot on accepts what the grammar of items accepts. -/
theorem accepts_iff {s : Spot} {t : Text} : accepts s t = true ↔ RestItems s (Text.items t) := by
  induction t generalizing s with
  | nil => simp [Text.items, RestItems, rest_nil]
  | cons c t ih =>
    have hne := Text.items_ne_nil t
    rw [accepts_cons, Text.items, List.splitOn_cons_eq_if_modifyHead, ← Text.items]
    -- a comma ends the first item, any other character belongs to it
    by_cases hc : c = ','
    · subst hc
      rw [step_comma, beq_self_eq_true, if_pos rfl, RestItems, rest_nil, ← restItems_item hne, ← ih]
      cases s.isFinal <;> simp
    · obtain ⟨p, ps, ht⟩ := List.exists_cons_of_ne_nil hne
      rw [if_neg (by simpa using hc), ht, List.modifyHead_cons, RestItems, rest_cons hc]
      cases hs : step s c with
      | none => simp
      | some s' => simp [ih, ht, RestItems]

theorem isPortList_iff {t : Text} :
    isPortList t = true ↔ ∀ p ∈ t.items, ∃ ns, PortSpan.Form p ns := by
  rw [isPortList, accepts_iff, restItems_item t.items_ne_nil]

/-! ### Reading a port list -/

/-- Whether a text is an item of a port list whose numbers are ports. -/
def IsGood (t : Text) : Prop := ∃ ns, PortSpan.Form t ns ∧ ∀ n ∈ ns, 1 ≤ n ∧ n ≤ 65535

theorem isGood_iff {t : Text} (h : ∃ ns, PortSpan.Form t ns) :
    IsGood t ↔ ∃ s, PortSpan.read t = .ok s := by
  constructor
  · rintro ⟨ns, hns, hr⟩
    exact hns.exists_read_iff.2 hr
  · intro hr
    obtain ⟨ns, hns⟩ := h
    exact ⟨ns, hns, hns.exists_read_iff.1 hr⟩

theorem toOption_readStrict (t : Text) : (readStrict t).toOption = (PortSpan.read t).toOption := by
  unfold readStrict
  cases PortSpan.read t <;> rfl

theorem exists_readStrict_iff {t : Text} :
    (∃ s, readStrict t = .ok s) ↔ ∃ s, PortSpan.read t = .ok s := by
  unfold readStrict
  cases PortSpan.read t <;> simp

theorem goodItems_ne_nil_iff {t : Text} :
    goodItems t ≠ [] ↔ ∃ p ∈ t.items, ∃ s, PortSpan.read p = .ok s := by
  have hsome : ∀ p, (PortSpan.read p).toOption ≠ none ↔ ∃ s, PortSpan.read p = .ok s := by
    intro p
    cases PortSpan.read p <;> simp [Except.toOption]
  simp [goodItems, List.filterMap_eq_nil_iff, ← hsome]

/-- A port list is read if every item has the form of one and, in a strict reading, all of them are
ports, otherwise at least one. -/
theorem exists_read_iff {strict : Bool} {t : Text} :
    (∃ ss, PortList.read strict t = .ok ss) ↔
      (∀ p ∈ t.items, ∃ ns, PortSpan.Form p ns) ∧ (∃ p ∈ t.items, IsGood p) ∧
        (strict = true → ∀ p ∈ t.items, IsGood p) := by
  rw [← isPortList_iff]
  unfold PortList.read
  by_cases hl : isPortList t = true
  · have hgood : ∀ p ∈ t.items, (IsGood p ↔ ∃ s, PortSpan.read p = .ok s) :=
      fun p hp => isGood_iff (isPortList_iff.1 hl p hp)
    have hsome : (∃ p ∈ t.items, IsGood p) ↔ goodItems t ≠ [] := by
      rw [goodItems_ne_nil_iff]
      exact exists_congr fun p => and_congr_right fun hp => hgood p hp
    have hall : (∀ p ∈ t.items, IsGood p) ↔ ∃ ss, t.items.mapM readStrict = .ok ss := by
      rw [exists_mapM_iff]
      exact forall₂_congr fun p hp => (hgood p hp).trans exists_readStrict_iff.symm
    cases strict with
    | true =>
      have hne : (∀ p ∈ t.items, IsGood p) → ∃ p ∈ t.items, IsGood p := by
        obtain ⟨p, ps, ht⟩ := List.exists_cons_of_ne_nil t.items_ne_nil
        rw [ht]
        exact fun h => ⟨p, by simp, h p (by simp)⟩
      simp only [hl, Bool.not_true, Bool.false_eq_true, if_false, if_true, true_and, forall_const,
        ← hall]
      exact ⟨fun h => ⟨hne h, h⟩, And.right⟩
    | false => by_cases hg : goodItems t = [] <;> simp [hl, hsome, hg]
  · simp [hl]

theorem read_eq_ok {strict : Bool} {t : Text} {ss : List PortSpan}
    (h : PortList.read strict t = .ok ss) : ss = goodItems t ∧ ss ≠ [] := by
  unfold PortList.read at h
  split at h
  · cases h
  · split at h
    · refine ⟨?_, ne_nil_of_mapM h t.items_ne_nil⟩
      rw [goodItems]
      simpa only [toOption_readStrict] using eq_filterMap_of_mapM h
    · split at h
      · cases h
      · next hg =>
        cases h
        exact ⟨rfl, hg⟩

/-! ### Port lists that are refused -/

/-- What is wrong with a port list: its form, in a strict reading the first item that is no port, in a lenient one
that no item is a port. -/
inductive Fails (strict : Bool) (l : Text) : Fault → Prop
  | form (hform : ¬ ∀ i ∈ l.items, ∃ ns, PortSpan.Form i ns) : Fails strict l (.badPortList l)
  | item {pre post : List Text} {i : Text} (hstrict : strict = true)
      (hform : ∀ i ∈ l.items, ∃ ns, PortSpan.Form i ns) (hl : l.items = pre ++ i :: post)
      (hpre : ∀ j ∈ pre, IsGood j) (hi : ¬ IsGood i) : Fails strict l (.badPort i)
  | none (hstrict : strict = false) (hform : ∀ i ∈ l.items, ∃ ns, PortSpan.Form i ns)
      (hl : ∀ i ∈ l.items, ¬ IsGood i) : Fails strict l .noPort

section
variable {strict : Bool} {l i : Text} {e : Error}

theorem readStrict_eq_error_iff :
    readStrict i = .error e ↔ (¬ ∃ s, PortSpan.read i = .ok s) ∧ e = .malformed (.badPort i) := by
  unfold readStrict
  cases PortSpan.read i <;> simp [eq_comm]

theorem mapM_readStrict_eq_error_iff (hform : ∀ i ∈ l.items, ∃ ns, PortSpan.Form i ns) :
    l.items.mapM readStrict = .error e ↔ ∃ pre i post, l.items = pre ++ i :: post ∧ (∀ j ∈ pre, IsGood j) ∧
      ¬ IsGood i ∧ e = .malformed (.badPort i) := by
  rw [mapM_eq_error_iff]
  refine exists_congr fun pre => exists_congr fun i => exists_congr fun post => and_congr_right fun hl => ?_
  have hgood : ∀ j ∈ pre ++ i :: post, (IsGood j ↔ ∃ s, PortSpan.read j = .ok s) :=
    fun j hj => isGood_iff (hform j (hl ▸ hj))
  rw [readStrict_eq_error_iff, hgood i (by simp)]
  refine and_congr_left fun _ => forall₂_congr fun j hj => ?_
  rw [exists_readStrict_iff, hgood j (by simp [hj])]

theorem goodItems_eq_nil_iff (hform : ∀ i ∈ l.items, ∃ ns, PortSpan.Form i ns) :
    goodItems l = [] ↔ ∀ i ∈ l.items, ¬ IsGood i := by
  constructor
  · intro h i hi hgood
    exact goodItems_ne_nil_iff.2 ⟨i, hi, (isGood_iff (hform i hi)).1 hgood⟩ h
  · intro h
    refine Classical.byContradiction fun hne => ?_
    obtain ⟨i, hi, hread⟩ := goodItems_ne_nil_iff.1 hne
    exact h i hi ((isGood_iff (hform i hi)).2 hread)

/-- A port list is refused for what is wrong with it. -/
theorem read_eq_error_iff : PortList.read strict l = .error e ↔ ∃ f, e = .malformed f ∧ Fails strict l f := by
  by_cases hform : ∀ i ∈ l.items, ∃ ns, PortSpan.Form i ns
  · rw [PortList.read, isPortList_iff.2 hform]
    cases strict with
    | true =>
      simp only [Bool.not_true, Bool.false_eq_true, if_false, if_true, mapM_readStrict_eq_error_iff hform]
      constructor
      · rintro ⟨pre, i, post, hl, hpre, hi, rfl⟩
        exact ⟨_, rfl, .item rfl hform hl hpre hi⟩
      · rintro ⟨f, rfl, h | ⟨-, -, hl, hpre, hi⟩ | h⟩
        · exact absurd hform h
        · exact ⟨_, _, _, hl, hpre, hi, rfl⟩
        · cases h
    | false =>
      simp only [Bool.not_true, Bool.false_eq_true, if_false]
      constructor
      · intro h
        split at h
        · next hl =>
          cases h
          exact ⟨_, rfl, .none rfl hform ((goodItems_eq_nil_iff hform).1 hl)⟩
        · cases h
      · rintro ⟨f, rfl, h | h | ⟨-, -, hl⟩⟩
        · exact absurd hform h
        · cases h
        · rw [if_pos ((goodItems_eq_nil_iff hform).2 hl)]
  · have hlist : isPortList l = false := Bool.eq_false_iff.2 fun h => hform (isPortList_iff.1 h)
    simp only [PortList.read, hlist, Bool.not_false, if_true]
    constructor
    · intro h
      cases h
      exact ⟨_, rfl, .form hform⟩
    · rintro ⟨f, rfl, h | ⟨-, h⟩ | ⟨-, h⟩⟩
      · rfl
      · exact absurd h hform
      · exact absurd h hform

end

end PortList

end Firewall
