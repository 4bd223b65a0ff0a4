import Firewall.Event

/-!
# Outcomes

A computation that may fail and that notes events as it goes. What was noted before a failure stays
noted.
-/

namespace Firewall

/-- A value or an error, and the events noted on the way. -/
structure Outcome (α : Type) where
  result : Except Error α
  log : List Event

namespace Outcome

variable {α β : Type}

/-- Goes on with `f` after a success. -/
def bind (x : Outcome α) (f : α → Outcome β) : Outcome β :=
  match x.result with
  | .ok a =>
    let y := f a
    ⟨y.result, x.log ++ y.log⟩
  | .error e => ⟨.error e, x.log⟩

def map (f : α → β) (x : Outcome α) : Outcome β := ⟨x.result.map f, x.log⟩

instance : Monad Outcome where
  pure a := ⟨.ok a, []⟩
  bind := bind
  map := map

def note (es : List Event) : Outcome Unit := ⟨.ok (), es⟩

def ofExcept (r : Except Error α) : Outcome α := ⟨r, []⟩

def mapError (f : Error → Error) (x : Outcome α) : Outcome α := ⟨x.result.mapError f, x.log⟩

/-- The warnings among the events. -/
def warnings (x : Outcome α) : List Event := x.log.filter fun e => e.level = .warn

@[simp] theorem result_pure (a : α) : (pure a : Outcome α).result = .ok a := rfl

@[simp] theorem log_pure (a : α) : (pure a : Outcome α).log = [] := rfl

theorem bind_eq_of_ok {x : Outcome α} {a : α} (h : x.result = .ok a) (f : α → Outcome β) :
    x >>= f = ⟨(f a).result, x.log ++ (f a).log⟩ := by
  simp only [Bind.bind, bind, h]

theorem bind_eq_of_error {x : Outcome α} {e : Error} (h : x.result = .error e)
    (f : α → Outcome β) : x >>= f = ⟨.error e, x.log⟩ := by
  simp only [Bind.bind, bind, h]

theorem map_eq (f : α → β) (x : Outcome α) : f <$> x = ⟨x.result.map f, x.log⟩ := rfl

theorem bind_pure_eq_map (f : α → β) (x : Outcome α) : (x >>= fun a => pure (f a)) = f <$> x := by
  rcases x with ⟨_ | _, log⟩
  · rfl
  · rw [bind_eq_of_ok rfl, log_pure, List.append_nil]
    rfl

instance : LawfulMonad Outcome :=
  LawfulMonad.mk' Outcome
    (fun x => by rcases x with ⟨_ | _, log⟩ <;> rfl)
    (fun a f => bind_eq_of_ok rfl f)
    (fun x f g => by
      rcases x with ⟨e | a, log⟩
      · rfl
      · simp only [Bind.bind, bind]
        cases (f a).result <;> simp)
    (fun _ _ => rfl) (fun _ _ => rfl) (fun _ _ => rfl) bind_pure_eq_map (fun _ _ => rfl)

end Outcome

end Firewall
