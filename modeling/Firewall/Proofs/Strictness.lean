import Firewall.Proofs.Contents
import Firewall.Script

/-!
# Strict and lenient compilers

A strict compiler accepts what a lenient one accepts without mending it. `Outcome.Refines` relates
the outcomes of the two on one input. It is kept along `>>=` (`Outcome.Refines.bind`), so that it
need be shown of a single clause only, where `Clause.step_strict_iff` settles it: a strict reader
understands a clause as a lenient one does, unless there are ports to skip or literals to mask.
-/

namespace Firewall

/-! ### Two readings of an item -/

section
variable {α β ε : Type} {f g : α → Except ε β} {p : α → Prop}

theorem mapM_eq_ok_iff_of_forall (h : ∀ a b, f a = .ok b ↔ g a = .ok b ∧ p a) {as : List α}
    {bs : List β} : as.mapM f = .ok bs ↔ as.mapM g = .ok bs ∧ ∀ a ∈ as, p a := by
  induction as generalizing bs with
  | nil => simp
  | cons a as ih =>
    simp only [mapM_cons_eq_ok_iff, h, ih, List.forall_mem_cons]
    constructor
    · rintro ⟨b, bs, ⟨hb, ha⟩, ⟨hbs, has⟩, rfl⟩
      exact ⟨⟨b, bs, hb, hbs, rfl⟩, ha, has⟩
    · rintro ⟨⟨b, bs, hb, hbs, rfl⟩, ha, has⟩
      exact ⟨b, bs, ⟨hb, ha⟩, ⟨hbs, has⟩, rfl⟩

end

/-- Whether a text is a literal with bits set below its prefix, which a lenient reader clears. -/
def Literal.IsMasked (t : Text) : Prop := ∃ l, Literal.read? t = some l ∧ l.hasHostBits = true

theorem Network.read_strict_iff {t : Text} {n : Network} :
    Network.read true t = .ok n ↔ Network.read false t = .ok n ∧ ¬ Literal.IsMasked t := by
  unfold Network.read Literal.IsMasked
  cases Literal.read? t with
  | none => simp
  | some l => cases hl : l.hasHostBits <;> simp [hl]

theorem PortList.badItems_eq_nil_iff {t : Text} :
    badItems t = [] ↔ ∀ p ∈ t.items, ∃ s, PortSpan.read p = .ok s := by
  simp only [badItems, List.filterMap_eq_nil_iff]
  refine forall₂_congr fun p _ => ?_
  cases PortSpan.read p <;> simp

theorem PortList.read_strict_iff {t : Text} {ss : List PortSpan} :
    PortList.read true t = .ok ss ↔ PortList.read false t = .ok ss ∧ skipped false t = [] := by
  by_cases hl : isPortList t = true
  · have hskip : skipped false t = [] ↔ ∃ ss, t.items.mapM readStrict = .ok ss := by
      simp [skipped, hl, badItems_eq_nil_iff, exists_mapM_iff, exists_readStrict_iff]
    have hstrict : ∀ ss, PortList.read true t = .ok ss ↔ t.items.mapM readStrict = .ok ss := by
      simp [PortList.read, hl]
    rw [hskip]
    constructor
    · intro h
      obtain ⟨rfl, hne⟩ := read_eq_ok h
      exact ⟨by simp [PortList.read, hl, hne], _, (hstrict _).1 h⟩
    · rintro ⟨h, ss', h'⟩
      rw [(read_eq_ok h).1, ← (read_eq_ok ((hstrict ss').2 h')).1]
      exact (hstrict ss').2 h'
  · simp [PortList.read, hl]

/-! ### Two readings of a clause -/

namespace Clause
variable {strict : Bool} {s : Step}

/-- Whether a clause names a literal that a lenient reader masks. -/
def Masks (cl : Clause) : Prop := ∃ e t, cl = addresses e t ∧ ∃ l ∈ t.items, Literal.IsMasked l

theorem step_addresses_iff {e : Side} {t : Text} :
    (addresses e t).step strict = .ok s ↔
      ∃ ns, Network.readAll strict t.items = .ok ns ∧ s = .networks e ns := by
  rw [step_eq_ok_iff]
  constructor
  · intro h
    cases h with
    | addresses hn => exact ⟨_, hn, rfl⟩
  · rintro ⟨ns, hn, rfl⟩
    exact .addresses hn

theorem step_ports_iff {e : Side} {p : ProtocolWord} {t : Text} :
    (ports e p t).step strict = .ok s ↔
      ∃ ss, PortList.read strict t = .ok ss ∧ s = .ports e p.choice? ss := by
  rw [step_eq_ok_iff]
  constructor
  · intro h
    cases h with
    | ports hp => exact ⟨_, hp, rfl⟩
  · rintro ⟨ss, hp, rfl⟩
    exact .ports hp

/-- A strict reader understands a clause as a lenient one does, unless there are ports to skip or
literals to mask. -/
theorem step_strict_iff {cl : Clause} :
    cl.step true = .ok s ↔ cl.step false = .ok s ∧ cl.skipped false = [] ∧ ¬ cl.Masks := by
  cases cl with
  | addresses e t =>
    have hread : ∀ ns, Network.readAll true t.items = .ok ns ↔
        Network.readAll false t.items = .ok ns ∧ ∀ l ∈ t.items, ¬ Literal.IsMasked l :=
      fun ns => mapM_eq_ok_iff_of_forall fun _ _ => Network.read_strict_iff
    have hmasks : ¬ (addresses e t).Masks ↔ ∀ l ∈ t.items, ¬ Literal.IsMasked l := by simp [Masks]
    simp only [step_addresses_iff, hread, hmasks, skipped, true_and, ← exists_and_right]
    exact exists_congr fun ns => and_right_comm
  | ports e p t =>
    have hmasks : ¬ (ports e p t).Masks := by simp [Masks]
    simp only [step_ports_iff, PortList.read_strict_iff, hmasks, skipped, not_false_eq_true, and_true,
      ← exists_and_right]
    exact exists_congr fun ss => and_right_comm
  | _ => simp [step, skipped, Masks]

theorem skipped_strict (cl : Clause) : cl.skipped true = [] := by
  cases cl <;> simp [skipped, PortList.skipped]

end Clause

/-! ### Two outcomes -/

namespace Outcome
variable {α β : Type} {x y : Outcome α} {m n : Prop}

/-- How the outcome `x` of a strict run stands to the outcome `y` of the lenient run on the same
input, where `masks` says whether the input holds a literal that a lenient reader masks. -/
structure Refines (x y : Outcome α) (masks : Prop) : Prop where
  /-- What the strict run accepts, the lenient one accepts, and notes the same. -/
  same : ∀ a, x.result = .ok a → y.result = .ok a ∧ y.warnings = x.warnings ∧ y.log = x.log
  /-- What the lenient run accepts without mending anything, the strict one accepts, -/
  accepts_iff : ∀ a, y.result = .ok a →
    (x.result = .ok a ↔ (∀ e, Event.skippedPort e ∉ y.warnings) ∧ ¬ masks)
  /-- and it refuses all else. -/
  refuses : ∀ a, y.result = .ok a → (∃ e, Event.skippedPort e ∈ y.warnings) ∨ masks →
    ∃ e, x.result = .error e
  /-- What the lenient run refuses, the strict one refuses. -/
  error : ∀ e, y.result = .error e → ∃ e', x.result = .error e'
  /-- A strict run never skips a port. -/
  silent : ∀ e, Event.skippedPort e ∉ x.warnings

theorem ext {x y : Outcome α} (hr : x.result = y.result) (hl : x.log = y.log) : x = y := by
  cases x
  cases y
  cases hr
  cases hl
  rfl

theorem skippedPort_mem_warnings_iff {e : Error} :
    Event.skippedPort e ∈ x.warnings ↔ Event.skippedPort e ∈ x.log := by
  simp [warnings, Event.level]

/-- It is enough that the two runs are the same where the strict one succeeds, and that it succeeds
where the lenient one mends nothing. -/
theorem refines_iff : x.Refines y m ↔
    (∀ a, x.result = .ok a → y = x ∧ ¬ m) ∧
    (∀ a, y.result = .ok a → (∀ e, Event.skippedPort e ∉ y.log) → ¬ m → x.result = .ok a) ∧
    ∀ e, Event.skippedPort e ∉ x.log := by
  simp only [← skippedPort_mem_warnings_iff]
  constructor
  · intro h
    refine ⟨fun a ha => ?_, fun a ha hs hm => (h.accepts_iff a ha).2 ⟨hs, hm⟩, h.silent⟩
    obtain ⟨hy, -, hlog⟩ := h.same a ha
    exact ⟨ext (hy.trans ha.symm) hlog, ((h.accepts_iff a hy).1 ha).2⟩
  · rintro ⟨hsame, hok, hsilent⟩
    have hiff : ∀ a, y.result = .ok a →
        (x.result = .ok a ↔ (∀ e, Event.skippedPort e ∉ y.warnings) ∧ ¬ m) := by
      intro a hy
      refine ⟨fun ha => ?_, fun h => hok a hy h.1 h.2⟩
      obtain ⟨rfl, hm⟩ := hsame a ha
      exact ⟨hsilent, hm⟩
    refine ⟨fun a ha => ?_, hiff, fun a hy h => ?_, fun e hy => ?_, hsilent⟩
    · obtain ⟨rfl, -⟩ := hsame a ha
      exact ⟨ha, rfl, rfl⟩
    · cases hx : x.result with
      | error e => exact ⟨e, rfl⟩
      | ok b =>
        obtain ⟨rfl, hm⟩ := hsame b hx
        rcases h with ⟨e, he⟩ | h
        · exact absurd he (hsilent e)
        · exact absurd h hm
    · cases hx : x.result with
      | error e' => exact ⟨e', rfl⟩
      | ok b =>
        obtain ⟨rfl, -⟩ := hsame b hx
        rw [hy] at hx
        cases hx

theorem Refines.refl (h : ∀ e, Event.skippedPort e ∉ x.log) : x.Refines x False :=
  refines_iff.2 ⟨fun _ _ => ⟨rfl, id⟩, fun _ ha _ _ => ha, h⟩

theorem Refines.of_iff (h : x.Refines y m) (hm : m ↔ n) : x.Refines y n := propext hm ▸ h

theorem Refines.bind {f g : α → Outcome β} (h : x.Refines y m)
    (hf : ∀ a, (f a).Refines (g a) n) : (x >>= f).Refines (y >>= g) (m ∨ n) := by
  obtain ⟨hsame, hok, hsilent⟩ := refines_iff.1 h
  refine refines_iff.2 ⟨fun b hb => ?_, fun b hb hs hmn => ?_, fun e he => ?_⟩
  · cases hx : x.result with
    | error e => simp [bind_eq_of_error hx] at hb
    | ok a =>
      obtain ⟨rfl, hm⟩ := hsame a hx
      rw [bind_eq_of_ok hx] at hb
      obtain ⟨hg, hn⟩ := (refines_iff.1 (hf a)).1 b hb
      exact ⟨by rw [bind_eq_of_ok hx, bind_eq_of_ok hx, hg], not_or.2 ⟨hm, hn⟩⟩
  · cases hy : y.result with
    | error e => simp [bind_eq_of_error hy] at hb
    | ok a =>
      rw [bind_eq_of_ok hy] at hb hs
      simp only [List.mem_append, not_or, forall_and] at hs
      have hx := hok a hy hs.1 fun hm => hmn (.inl hm)
      rw [bind_eq_of_ok hx]
      exact (refines_iff.1 (hf a)).2.1 b hb hs.2 fun hn => hmn (.inr hn)
  · cases hx : x.result with
    | error e' =>
      rw [bind_eq_of_error hx] at he
      exact hsilent e he
    | ok a =>
      rw [bind_eq_of_ok hx] at he
      rcases List.mem_append.1 he with he | he
      · exact hsilent e he
      · exact (refines_iff.1 (hf a)).2.2 e he

theorem Refines.map (h : x.Refines y m) (f : α → β) : (f <$> x).Refines (f <$> y) m := by
  have hpure : ∀ a, (pure (f a) : Outcome β).Refines (pure (f a)) False :=
    fun a => .refl (by simp)
  simpa only [bind_pure_eq_map, or_false] using h.bind hpure

theorem Refines.mapError (h : x.Refines y m) (f : Error → Error) :
    (x.mapError f).Refines (y.mapError f) m := by
  have hres : ∀ (z : Outcome α) (a : α), (z.mapError f).result = .ok a ↔ z.result = .ok a := by
    intro z a
    rcases z with ⟨_ | _, _⟩ <;> simp [Outcome.mapError, Except.mapError]
  obtain ⟨hsame, hok, hsilent⟩ := refines_iff.1 h
  refine refines_iff.2 ⟨fun a ha => ?_, fun a ha => ?_, hsilent⟩
  · obtain ⟨rfl, hm⟩ := hsame a ((hres x a).1 ha)
    exact ⟨rfl, hm⟩
  · rw [hres] at ha ⊢
    exact hok a ha

end Outcome

/-! ### Two runs -/

/-- Whether a clause of the line names a literal that a lenient reader masks. -/
def Text.Masks (line : Text) : Prop := ∃ cl ∈ line.clauses, cl.Masks

namespace Compiler

def withStrict (c : Compiler) (strict : Bool) : Compiler := { c with strict := strict }

variable (c : Compiler)

theorem log_addClause (r : Rule) (cl : Clause) :
    (c.addClause r cl).log = .clause cl.keyword :: (cl.skipped c.strict).map .skippedPort ++
      (cl.step c.strict).toOption.elim [] fun s => s.events c.table r := by
  unfold addClause
  simp only [Outcome.log_bind, Outcome.log_note, Outcome.result_note, Outcome.log_ofExcept,
    Outcome.result_ofExcept]
  cases cl.step c.strict <;> simp [Except.toOption]

theorem refines_addClause (r : Rule) (cl : Clause) :
    ((c.withStrict true).addClause r cl).Refines ((c.withStrict false).addClause r cl) cl.Masks := by
  have hevents : ∀ e (s : Step), Event.skippedPort e ∉ s.events c.table r := by
    intro e s
    cases s <;> simp [Step.events]
  have hresult : ∀ b r', ((c.withStrict b).addClause r cl).result = .ok r' ↔
      ∃ s, cl.step b = .ok s ∧ s.apply c.table r = r' := by
    intro b r'
    rw [result_addClause]
    show (cl.step b).map (fun s => s.apply c.table r) = .ok r' ↔ _
    cases cl.step b <;> simp [Except.map]
  have hlog : ∀ b, ((c.withStrict b).addClause r cl).log =
      .clause cl.keyword :: (cl.skipped b).map .skippedPort ++
        (cl.step b).toOption.elim [] fun s => s.events c.table r :=
    fun b => log_addClause _ _ _
  refine Outcome.refines_iff.2 ⟨fun r' h => ?_, fun r' h hs hm => ?_, fun e he => ?_⟩
  · obtain ⟨s, hs, rfl⟩ := (hresult true r').1 h
    obtain ⟨hs', hskip, hm⟩ := Clause.step_strict_iff.1 hs
    refine ⟨Outcome.ext ?_ ?_, hm⟩
    · rw [h, (hresult false _).2 ⟨s, hs', rfl⟩]
    · rw [hlog, hlog, hs, hs', hskip, cl.skipped_strict]
  · obtain ⟨s, hs', rfl⟩ := (hresult false r').1 h
    have hskip : cl.skipped false = [] := by
      rw [List.eq_nil_iff_forall_not_mem]
      exact fun e he => hs e (by simp [hlog, he])
    exact (hresult true _).2 ⟨s, Clause.step_strict_iff.2 ⟨hs', hskip, hm⟩, rfl⟩
  · rw [hlog, cl.skipped_strict] at he
    cases hs : cl.step true <;> simp [hs, Except.toOption, hevents] at he

theorem skippedPort_notMem_log_conclude (r : Rule) (en : Ending) (e : Error) :
    Event.skippedPort e ∉ (conclude r en).log := by
  have hfinish : Event.skippedPort e ∉ (finish r).log := by
    unfold finish
    cases r.widens <;> simp [Outcome.map_eq]
  cases en <;> simp [conclude, Outcome.log_bind, Outcome.map_eq, Except.toOption, hfinish]

theorem refines_rule (cs : List Clause) :
    ((c.withStrict true).rule cs).Refines ((c.withStrict false).rule cs) (∃ cl ∈ cs, cl.Masks) := by
  have hfold : ∀ r, (cs.foldlM (c.withStrict true).addClause r).Refines
      (cs.foldlM (c.withStrict false).addClause r) (∃ cl ∈ cs, cl.Masks) := by
    induction cs with
    | nil => exact fun r => (Outcome.Refines.refl (by simp)).of_iff (by simp)
    | cons cl cs ih =>
      intro r
      simp only [List.foldlM_cons]
      exact ((c.refines_addClause r cl).bind ih).of_iff (by simp)
  exact hfold _

theorem refines_compileLine (line : Text) :
    ((c.withStrict true).compileLine line).Refines ((c.withStrict false).compileLine line)
      line.Masks := by
  rw [compileLine_eq, compileLine_eq]
  split
  · next h => exact (Outcome.Refines.refl (by simp)).of_iff (by simp [Text.Masks, h.1])
  · have hconclude : ∀ r, (conclude r line.ending).Refines (conclude r line.ending) False :=
      fun r => .refl (skippedPort_notMem_log_conclude r _)
    exact ((c.refines_rule line.clauses).bind hconclude).of_iff (by simp [Text.Masks])

theorem refines_compileNumbered (n : Nat) (line : Text) :
    ((c.withStrict true).compileNumbered n line).Refines ((c.withStrict false).compileNumbered n line)
      line.Masks := by
  refine (((c.refines_compileLine line).mapError (.atLine n)).bind (n := False) fun o => ?_).of_iff
    (by simp)
  cases o <;> exact .refl (by simp)

theorem refines_compileLines (n : Nat) (ls : List Text) :
    ((c.withStrict true).compileLines n ls).Refines ((c.withStrict false).compileLines n ls)
      (∃ l ∈ ls, l.Masks) := by
  induction ls generalizing n with
  | nil => exact (Outcome.Refines.refl (by simp [compileLines])).of_iff (by simp)
  | cons l ls ih =>
    exact ((c.refines_compileNumbered n l).bind fun r => (ih (n + 1)).map (r ++ ·)).of_iff (by simp)

/-- On every line and on every text a strict compiler accepts what a lenient one accepts without
skipping a port or masking a literal, with the same result and the same notes, and refuses all else. -/
theorem refines_lenient (c : Compiler) :
    (∀ line, ((c.withStrict true).compileLine line).Refines ((c.withStrict false).compileLine line)
      line.Masks) ∧
    ∀ t : Text, ((c.withStrict true).compile t).Refines ((c.withStrict false).compile t)
      (∃ line ∈ t.lines, line.Masks) :=
  ⟨c.refines_compileLine, fun t => c.refines_compileLines 1 t.lines⟩

theorem refines_lenient_host_bits :
    let c : Compiler := ⟨.filter, "INPUT", false⟩
    let line : Text := "drop from 10.0.0.1/8"
    let mended : Text := "drop from 10.0.0.0/8\nport 22"
    (∃ out, (c.compileLine line).result = .ok (some out)) ∧ line.Masks ∧
      (∃ e, ((c.withStrict true).compileLine line).result = .error e) ∧
      ∃ out, ((c.withStrict true).compile mended).result = .ok out ∧
        (c.compile mended).result = .ok out := by
  intro c line mended
  let out : Ruleset := ⟨["-A INPUT -s 10.0.0.0/8 -j DROP"], []⟩
  have hline : (c.compileLine line).result = .ok (some out) := by decide +kernel
  have hmasks : line.Masks := by
    refine ⟨.addresses .source "10.0.0.1/8", by decide +kernel, _, _, rfl, "10.0.0.1/8", by decide +kernel,
      ⟨.v4 0x0A000001, 8, by decide⟩, by decide +kernel, by decide +kernel⟩
  refine ⟨⟨out, hline⟩, hmasks, ((refines_lenient c).1 line).refuses _ hline (.inr hmasks), ?_⟩
  let all : Ruleset :=
    ⟨["-A INPUT -s 10.0.0.0/8 -j DROP", "-A INPUT -p tcp --dport 22 -j ACCEPT"],
      ["-A INPUT -p tcp --dport 22 -j ACCEPT"]⟩
  have hstrict : ((c.withStrict true).compile mended).result = .ok all := by decide +kernel
  exact ⟨all, hstrict, (((refines_lenient c).2 mended).same _ hstrict).1⟩

end Compiler

end Firewall
