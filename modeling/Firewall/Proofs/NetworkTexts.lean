import Firewall.Proofs.Literals
import Firewall.Rule.Fragment
import Mathlib.Data.List.TakeWhile

/-!
# Reading a printed network

`Address.Shows` says how an address is shown, without the printer: a v4 address by its octets, a v6 address that
embeds one by that one, and any other v6 address by its groups, with `::` for the longest run of two or more zeros,
the first of equally long ones. That is the text of the address (`Address.shows_iff`), since the printer's run is
such a run (`lt_or_eq_of_replicate_prefix`). Main statement: `Network.readAll_text`.
-/

namespace Firewall

namespace Address

/-! ### Runs of zero groups -/

section
variable {gs pre post : List (BitVec 16)} {k i : Nat}

theorem le_leadingZeros_of_prefix (h : List.replicate k 0 <+: gs) : k ≤ leadingZeros gs := by
  obtain ⟨gs, rfl⟩ := h
  have hzeros : ∀ g ∈ List.replicate k (0 : BitVec 16), (g == 0) = true := by simp [List.mem_replicate]
  rw [leadingZeros, List.takeWhile_append_of_pos hzeros, List.length_append, List.length_replicate]
  exact Nat.le_add_right k _

/-- No run of zeros is longer than the one that is cut out, and one as long does not begin before it. -/
theorem lt_or_eq_of_replicate_prefix (h : List.replicate k 0 <+: gs.drop i) :
    k < (longestZeros gs).2 ∨ k = (longestZeros gs).2 ∧ (longestZeros gs).1 ≤ i := by
  induction gs generalizing i with
  | nil =>
    rw [List.drop_nil, List.prefix_nil, List.replicate_eq_nil_iff] at h
    exact .inr ⟨h, Nat.zero_le i⟩
  | cons g gs ih =>
    rw [longestZeros]
    dsimp only
    cases i with
    | zero =>
      -- a run at the front is no longer than the zeros there
      have hle : k ≤ leadingZeros (g :: gs) := le_leadingZeros_of_prefix h
      split <;> simp only <;> omega
    | succ i =>
      have hrun := ih h
      split <;> simp only <;> omega

/-- Whether `k` zeros, two or more, stand between `pre` and `post`, and no run of zeros of the whole is longer or
comes earlier and is as long. -/
structure IsGap (pre : List (BitVec 16)) (k : Nat) (post : List (BitVec 16)) : Prop where
  two_le : 2 ≤ k
  longest : ∀ pre' k' post', pre' ++ List.replicate k' 0 ++ post' = pre ++ List.replicate k 0 ++ post →
    k' < k ∨ k' = k ∧ pre.length ≤ pre'.length

theorem lt_or_eq_of_eq_append (h : pre ++ List.replicate k 0 ++ post = gs) :
    k < (longestZeros gs).2 ∨ k = (longestZeros gs).2 ∧ (longestZeros gs).1 ≤ pre.length := by
  refine lt_or_eq_of_replicate_prefix ⟨post, ?_⟩
  rw [← h, List.append_assoc, List.drop_left]

theorem IsGap.longestZeros_eq (h : IsGap pre k post) :
    longestZeros (pre ++ List.replicate k 0 ++ post) = (pre.length, k) := by
  have hprinted := lt_or_eq_of_eq_append (rfl : pre ++ List.replicate k 0 ++ post = _)
  have hgap := h.longest _ _ _ (append_longestZeros _)
  have hle := (take_longestZeros (pre ++ List.replicate k 0 ++ post)).1
  rw [List.length_take, Nat.min_eq_left (by omega)] at hgap
  exact Prod.ext (by omega) (by omega)

theorem isGap_longestZeros (h : 2 ≤ (longestZeros gs).2) : IsGap (gs.take (longestZeros gs).1)
    (longestZeros gs).2 (gs.drop ((longestZeros gs).1 + (longestZeros gs).2)) := by
  refine ⟨h, fun pre k post hsplit => ?_⟩
  rw [append_longestZeros] at hsplit
  have hle := (take_longestZeros gs).1
  rw [List.length_take, Nat.min_eq_left (by omega)]
  exact lt_or_eq_of_eq_append hsplit

theorem IsGap.shortGroupsText_eq (h : IsGap pre k post) :
    shortGroupsText (pre ++ List.replicate k 0 ++ post) = groupsText pre ++ "::" ++ groupsText post := by
  have htake : (pre ++ List.replicate k 0 ++ post).take pre.length = pre := by simp
  have hdrop : (pre ++ List.replicate k 0 ++ post).drop (pre.length + k) = post := by
    rw [← List.drop_drop, List.append_assoc, List.drop_left, List.drop_left' (List.length_replicate ..)]
  rw [shortGroupsText, h.longestZeros_eq]
  dsimp only
  rw [if_neg (Nat.not_lt.2 h.two_le), htake, hdrop]

/-- Without a run of two zeros or more all groups are written. -/
theorem shortGroupsText_of_not_isGap (h : ∀ pre k post, IsGap pre k post → gs ≠ pre ++ List.replicate k 0 ++ post) :
    shortGroupsText gs = groupsText gs := by
  rw [shortGroupsText]
  dsimp only
  refine if_pos (Nat.lt_of_not_le fun h2 => ?_)
  exact h _ _ _ (isGap_longestZeros h2) (append_longestZeros gs).symm

end

/-! ### How an address is shown -/

/-- The word that embeds a v4 address. -/
def embed (q : BitVec 32) : BitVec 128 := (0xFFFF : BitVec 96) ++ q

theorem embedded?_eq_some_iff {b : BitVec 128} {q : BitVec 32} : embedded? b = some q ↔ b = embed q := by
  have hb : b.extractLsb' 32 96 ++ b.extractLsb' 0 32 = b := @BitVec.extractLsb'_append_extractLsb' 96 32 b
  rw [embedded?, Option.ite_none_right_eq_some, Option.some.injEq]
  constructor
  · rintro ⟨hones, rfl⟩
    rw [embed, ← hones, hb]
  · rintro rfl
    exact ⟨BitVec.extractLsb'_append_eq_left, BitVec.extractLsb'_append_eq_right⟩

/-- How an address is shown. -/
inductive Shows : Address → Text → Prop
  | quad (q : BitVec 32) : Shows (v4 q) (quadText q)
  | embedded (q : BitVec 32) : Shows (v6 (embed q)) ("::ffff:" ++ quadText q)
  | groups {b : BitVec 128} (hq : ∀ q, b ≠ embed q)
      (hgap : ∀ pre k post, IsGap pre k post → groups b ≠ pre ++ List.replicate k 0 ++ post) :
      Shows (v6 b) (groupsText (groups b))
  | gap {b : BitVec 128} {pre post : List (BitVec 16)} {k : Nat} (hq : ∀ q, b ≠ embed q) (hgap : IsGap pre k post)
      (hb : groups b = pre ++ List.replicate k 0 ++ post) : Shows (v6 b) (groupsText pre ++ "::" ++ groupsText post)

theorem text_embed (q : BitVec 32) : (v6 (embed q)).text = "::ffff:" ++ quadText q := by
  rw [text, embedded?_eq_some_iff.2 rfl]

theorem text_of_ne_embed {b : BitVec 128} (h : ∀ q, b ≠ embed q) : (v6 b).text = shortGroupsText (groups b) := by
  have hnone : embedded? b = none := Option.eq_none_iff_forall_ne_some.2 fun q hq => h q (embedded?_eq_some_iff.1 hq)
  rw [text, hnone]

theorem Shows.eq_text {a : Address} {t : Text} (h : a.Shows t) : t = a.text := by
  cases h with
  | quad q => rfl
  | embedded q => exact (text_embed q).symm
  | groups hq hgap => rw [text_of_ne_embed hq, shortGroupsText_of_not_isGap hgap]
  | gap hq hgap hb => rw [text_of_ne_embed hq, hb, hgap.shortGroupsText_eq]

theorem shows_text (a : Address) : a.Shows a.text := by
  rcases a with q | b
  · exact .quad q
  · by_cases hq : ∀ q, b ≠ embed q
    · rw [text_of_ne_embed hq]
      by_cases hgap : ∀ pre k post, IsGap pre k post → Address.groups b ≠ pre ++ List.replicate k 0 ++ post
      · rw [shortGroupsText_of_not_isGap hgap]
        exact .groups hq hgap
      · push Not at hgap
        obtain ⟨pre, k, post, hgap, hb⟩ := hgap
        rw [hb, hgap.shortGroupsText_eq]
        exact .gap hq hgap hb
    · push Not at hq
      obtain ⟨q, rfl⟩ := hq
      rw [text_embed]
      exact .embedded q

/-- There is one way to show an address, and it is its text. -/
theorem shows_iff {a : Address} {t : Text} : a.Shows t ↔ t = a.text :=
  ⟨Shows.eq_text, fun h => h ▸ shows_text a⟩

end Address

/-! ### Networks -/

/-- A network of a fragment is the word behind its flag. -/
theorem Fragment.flagged_infix_words (g : Fragment) (n : Network) :
    (g.source = some n → (["-s", n.text] : List Text) <:+: g.words) ∧
    (g.destination = some n → (["-d", n.text] : List Text) <:+: g.words) := by
  have hsource : flagged "-s" (g.source.map Network.text) <:+: g.words :=
    List.infix_of_mem_flatten (.tail _ (.tail _ (.tail _ (.tail _ (.head _)))))
  have hdestination : flagged "-d" (g.destination.map Network.text) <:+: g.words :=
    List.infix_of_mem_flatten (.tail _ (.tail _ (.tail _ (.tail _ (.tail _ (.head _))))))
  constructor
  · intro h
    rwa [h] at hsource
  · intro h
    rwa [h] at hdestination

namespace Network

/-- What is printed for a network is read back as that network alone, even by a strict reader, whatever literals it
comes from. Different networks have different texts, also where they differ in host bits only. All addresses with all
prefix lengths make networks that are read.
The text is the base as it is shown, a slash and the length, and it is the word behind `-s` or `-d` wherever a rule is
rendered with the network. -/
theorem readAll_text :
    (∀ strict ts ns, readAll strict ts = .ok ns → ∀ n ∈ ns, readAll true [n.text] = .ok [n]) ∧
    (∀ m n : Network, m ≠ n → m.text ≠ n.text) ∧
    (∀ (a : Address) (p : Nat), p ≤ a.family.width → ∃ n : Network,
      readAll false [a.text ++ '/' :: Numeral.text 10 p] = .ok [n] ∧ n.base = a.mask p ∧ n.length = p) ∧
    (∀ (n : Network) (t : Text), t = n.text ↔ ∃ u, n.base.Shows u ∧ t = u ++ '/' :: Numeral.text 10 n.length) ∧
    ∀ (r : Rule) (f : Option Family), ∀ line ∈ r.render f, ∃ g ∈ r.fragments f, line = [' '].intercalate g.words ∧
      ∀ n, (g.source = some n → (["-s", n.text] : List Text) <:+: g.words) ∧
        (g.destination = some n → (["-d", n.text] : List Text) <:+: g.words) := by
  refine ⟨fun _ _ _ hns n hn => ?_, fun m n h ht => h (text_injective ht), fun a p hp => ?_, fun n t => ?_,
    fun r f line hline => ?_⟩
  · exact mapM_singleton_eq_ok_iff.2 (read_text true (masked_of_mem_readAll hns hn))
  · obtain ⟨_, hread⟩ := Literal.writes_iff.1 (Literal.writes_address_text hp)
    refine ⟨masked ⟨a, p, hp⟩, mapM_singleton_eq_ok_iff.2 ?_, rfl, rfl⟩
    rw [Network.read, hread]
    rfl
  · simp only [Address.shows_iff, exists_eq_left, text_eq]
  · obtain ⟨g, hg, rfl⟩ := List.mem_map.1 hline
    exact ⟨g, hg, rfl, g.flagged_infix_words⟩

theorem readAll_text_runs :
    let ts : List Text := ["0:0:0:1:2:3:4:5/128", "1:2:0:0:3:4:0:0", "1:0:2:0:3:0:4:0", "1:2:3:4:5::/90",
      "0:1::/0", "::ffff:10.0.0.7", "::10.0.0.7", "010.1.2.3/9"]
    let us : List Text := ["::1:2:3:4:5/128", "1:2::3:4:0:0/128", "1:0:2:0:3:0:4:0/128", "1:2:3:4:5::/90",
      "::/0", "::ffff:10.0.0.7/128", "::a00:7/128", "10.0.0.0/9"]
    ∃ ns : List Network, readAll false ts = .ok ns ∧ ns.map text = us ∧
      ∀ n ∈ ns, readAll true [n.text] = .ok [n] := by
  intro ts us
  obtain ⟨hread, -⟩ := readAll_text
  let ns : List Network := [⟨.v6 0x00000000000000010002000300040005, 128, by decide⟩,
    ⟨.v6 0x00010002000000000003000400000000, 128, by decide⟩,
    ⟨.v6 0x00010000000200000003000000040000, 128, by decide⟩,
    ⟨.v6 0x00010002000300040005000000000000, 90, by decide⟩, ⟨.v6 0, 0, by decide⟩,
    ⟨.v6 0xFFFF0A000007, 128, by decide⟩, ⟨.v6 0x0A000007, 128, by decide⟩, ⟨.v4 0x0A000000, 9, by decide⟩]
  have hns : readAll false ts = .ok ns := by decide +kernel
  exact ⟨ns, hns, by decide +kernel, hread false ts ns hns⟩

end Network

end Firewall
