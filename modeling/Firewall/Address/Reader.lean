import Firewall.Address.Basic
import Firewall.Text.Numeral

/-!
# Reading an address

A v4 address is a quad: four octets joined by dots. A v6 address is eight groups joined by colons.
A quad may stand for the last two groups, and `::` for a run of zero groups wherever one is left
out. Two styles of writing are in use, see `Address.Style`. Main statement: `read?_network`, what a
text says in the style of a bare address it says in the style of a network too.
-/

namespace Firewall.Address

/-- What a style of writing addresses admits. -/
structure Style where
  /-- Whether an octet may begin with zeros that do not count. -/
  paddedOctets : Bool
  /-- Whether `::` may stand beside eight groups, for no group at all. -/
  emptyGap : Bool

/-- The style of an address that stands alone. -/
def Style.bare : Style := ⟨false, false⟩

/-- The style of an address in front of a prefix length. -/
def Style.network : Style := ⟨true, true⟩

/-- An octet: at most three decimal digits, below 256. -/
def octet? (s : Style) (t : Text) : Option (BitVec 8) := do
  let n ← Numeral.read? 10 t
  if t.length ≤ 3 ∧ n < 256 ∧ (s.paddedOctets = true ∨ t.length = 1 ∨ t.head? ≠ some '0') then
    some (BitVec.ofNat 8 n)
  else none

/-- Four octets joined by dots. -/
def quad? (s : Style) (t : Text) : Option (BitVec 32) := do
  ofOctets? (← (t.splitOn '.').mapM (octet? s))

/-- A group: at most four hexadecimal digits. -/
def group? (t : Text) : Option (BitVec 16) := do
  let n ← Numeral.read? 16 t
  if t.length ≤ 4 then some (BitVec.ofNat 16 n) else none

/-- The groups before `::`; there may be none. -/
def head? (t : Text) : Option (List (BitVec 16)) :=
  if t = [] then some [] else (t.splitOn ':').mapM group?

/-- The groups that the pieces between colons write. The last piece may be a quad, which stands for
two groups. -/
def pieces? (s : Style) : List Text → Option (List (BitVec 16))
  | [] => some []
  | [t] => (group? t).map ([·]) <|> (quad? s t).map fun q => [q.extractLsb' 16 16, q.extractLsb' 0 16]
  | t :: ts => do return (← group? t) :: (← pieces? s ts)

/-- The groups after `::`; there may be none. -/
def tail? (s : Style) (t : Text) : Option (List (BitVec 16)) :=
  if t = [] then some [] else pieces? s (t.splitOn ':')

/-- The texts on the two sides of the first `::`. -/
def cutGap? : Text → Option (Text × Text)
  | [] => none
  | ':' :: ':' :: t => some ([], t)
  | c :: t => (cutGap? t).map fun (a, b) => (c :: a, b)

/-- Eight groups, with zero groups between `head` and `tail` for those left out. -/
def fillGap? (s : Style) (head tail : List (BitVec 16)) : Option (BitVec 128) :=
  if head.length < 8 ∧ head.length + tail.length ≤ (if s.emptyGap then 8 else 7) then
    ofGroups? (head ++ List.replicate (8 - (head.length + tail.length)) 0 ++ tail)
  else none

/-- Eight groups joined by colons, some of which may be left out at `::`. -/
def eightGroups? (s : Style) (t : Text) : Option (BitVec 128) :=
  match cutGap? t with
  | none => do ofGroups? (← pieces? s (t.splitOn ':'))
  | some (a, b) => do fillGap? s (← head? a) (← tail? s b)

/-- The address that a text writes in the style `s`. A colon tells a v6 address. -/
def read? (s : Style) (t : Text) : Option Address :=
  if ':' ∈ t then (eightGroups? s t).map v6 else (quad? s t).map v4

/-! ### What a bare address says, it says in front of a prefix length too -/

theorem octet?_network {t : Text} {o : BitVec 8} (h : octet? .bare t = some o) :
    octet? .network t = some o := by
  simp only [octet?, Option.bind_eq_bind, Option.bind_eq_some_iff,
    Option.ite_none_right_eq_some] at h ⊢
  obtain ⟨n, hn, ⟨hlen, hlt, _⟩, ho⟩ := h
  exact ⟨n, hn, ⟨hlen, hlt, .inl rfl⟩, ho⟩

theorem mapM_octet?_network {ts : List Text} {os : List (BitVec 8)}
    (h : ts.mapM (octet? .bare) = some os) : ts.mapM (octet? .network) = some os := by
  induction ts generalizing os with
  | nil => simpa using h
  | cons t ts ih =>
    simp only [List.mapM_cons, Option.bind_eq_bind, Option.bind_eq_some_iff] at h ⊢
    obtain ⟨o, ho, os', hos, hr⟩ := h
    exact ⟨o, octet?_network ho, os', ih hos, hr⟩

theorem quad?_network {t : Text} {b : BitVec 32} (h : quad? .bare t = some b) :
    quad? .network t = some b := by
  simp only [quad?, Option.bind_eq_bind, Option.bind_eq_some_iff] at h ⊢
  obtain ⟨os, hos, hb⟩ := h
  exact ⟨os, mapM_octet?_network hos, hb⟩

theorem pieces?_network {ts : List Text} {gs : List (BitVec 16)}
    (h : pieces? .bare ts = some gs) : pieces? .network ts = some gs := by
  fun_induction pieces? .bare ts generalizing gs with
  | case1 => simpa [pieces?] using h
  | case2 t =>
    simp only [pieces?, Option.orElse_eq_orElse, Option.orElse_eq_or, Option.or_eq_some_iff] at h ⊢
    rcases h with h | ⟨hg, h⟩
    · exact .inl h
    · obtain ⟨q, hq, rfl⟩ := Option.map_eq_some_iff.1 h
      exact .inr ⟨hg, by rw [quad?_network hq]; rfl⟩
  | case3 t ts hne ih =>
    simp only [Option.bind_eq_bind, Option.bind_eq_some_iff] at h
    obtain ⟨g, hg, gs', hgs, hr⟩ := h
    rw [pieces?, hg, ih hgs]
    · exact hr
    · exact hne

theorem tail?_network {t : Text} {gs : List (BitVec 16)} (h : tail? .bare t = some gs) :
    tail? .network t = some gs := by
  unfold tail? at h ⊢
  split at h
  · next ht => simpa [ht] using h
  · next ht => simpa [ht] using pieces?_network h

theorem eightGroups?_network {t : Text} {b : BitVec 128} (h : eightGroups? .bare t = some b) :
    eightGroups? .network t = some b := by
  unfold eightGroups? at h ⊢
  split at h
  · simp only [Option.bind_eq_bind, Option.bind_eq_some_iff] at h ⊢
    obtain ⟨gs, hgs, hb⟩ := h
    exact ⟨gs, pieces?_network hgs, hb⟩
  · simp only [fillGap?, Option.bind_eq_bind, Option.bind_eq_some_iff,
      Option.ite_none_right_eq_some] at h ⊢
    obtain ⟨hd, hhd, tl, htl, ⟨hlen, htot⟩, hb⟩ := h
    refine ⟨hd, hhd, tl, tail?_network htl, ⟨hlen, ?_⟩, hb⟩
    simp only [Style.bare, Style.network, Bool.false_eq_true, if_false, if_true] at htot ⊢
    omega

/-- A bare address is read alike in front of a prefix length. -/
theorem read?_network {t : Text} {a : Address} (h : read? .bare t = some a) :
    read? .network t = some a := by
  unfold read? at h ⊢
  split at h
  · next hc =>
    obtain ⟨b, hb, rfl⟩ := Option.map_eq_some_iff.1 h
    rw [if_pos hc, eightGroups?_network hb]
    rfl
  · next hc =>
    obtain ⟨b, hb, rfl⟩ := Option.map_eq_some_iff.1 h
    rw [if_neg hc, quad?_network hb]
    rfl

end Firewall.Address
