/-!
# Attempts

Most operations of the device and of the host change a state and may fail, and what a failed
operation leaves behind matters as much as its error: a power cut in the middle of an update is the
point of the whole design. So an attempt hands back the state with its error as well as with its
result, and a sequence of attempts stops at the first that fails, in the state that one left.
-/

namespace SignedBoot

/-- An operation on a state `σ` that gives a result `α` or an error `ε`. -/
structure Attempt (σ ε α : Type) where
  /-- Carries out the operation. -/
  run : σ → Except ε α × σ

namespace Attempt

variable {σ ε δ α β : Type}

/-- Gives a result and changes nothing. -/
protected def pure (a : α) : Attempt σ ε α :=
  ⟨fun s => (.ok a, s)⟩

/-- Carries out an operation and then one that depends on its result. -/
protected def bind (x : Attempt σ ε α) (f : α → Attempt σ ε β) : Attempt σ ε β :=
  ⟨fun s =>
    match x.run s with
    | (.ok a, s) => (f a).run s
    | (.error e, s) => (.error e, s)⟩

/-- Fails and changes nothing. -/
def fail (e : ε) : Attempt σ ε α :=
  ⟨fun s => (.error e, s)⟩

/-- Gives what was found without looking at the state. -/
def ofExcept (found : Except ε α) : Attempt σ ε α :=
  ⟨fun s => (found, s)⟩

/-- Changes the state. -/
def update (f : σ → σ) : Attempt σ ε Unit :=
  ⟨fun s => (.ok (), f s)⟩

/-- The same operation with its errors said differently. -/
def mapError (f : ε → δ) (x : Attempt σ ε α) : Attempt σ δ α :=
  ⟨fun s =>
    match x.run s with
    | (.ok a, s) => (.ok a, s)
    | (.error e, s) => (.error (f e), s)⟩

instance : Monad (Attempt σ ε) where
  pure := Attempt.pure
  bind := Attempt.bind

@[simp]
theorem run_pure (a : α) (s : σ) : (pure a : Attempt σ ε α).run s = (.ok a, s) := rfl

@[simp]
theorem run_fail (e : ε) (s : σ) : (fail e : Attempt σ ε α).run s = (.error e, s) := rfl

@[simp]
theorem run_update (f : σ → σ) (s : σ) : (update f : Attempt σ ε Unit).run s = (.ok (), f s) := rfl

theorem run_bind (x : Attempt σ ε α) (f : α → Attempt σ ε β) (s : σ) :
    (x >>= f).run s =
      match x.run s with
      | (.ok a, s) => (f a).run s
      | (.error e, s) => (.error e, s) := rfl

/-- What a sequence gives is what the results of its parts give. -/
theorem fst_run_bind (x : Attempt σ ε α) (f : α → Attempt σ ε β) (s : σ) :
    ((x >>= f).run s).1 = (x.run s).1 >>= fun a => ((f a).run (x.run s).2).1 := by
  rw [run_bind]
  rcases x.run s with ⟨e | a, t⟩ <;> rfl

/-- What follows an operation that succeeded starts in the state it left. -/
theorem run_bind_ok {x : Attempt σ ε α} {f : α → Attempt σ ε β} {s s' : σ} {a : α}
    (h : x.run s = (.ok a, s')) : (x >>= f).run s = (f a).run s' := by
  rw [run_bind, h]

/-- Nothing follows an operation that failed. -/
theorem run_bind_error {x : Attempt σ ε α} {f : α → Attempt σ ε β} {s s' : σ} {e : ε}
    (h : x.run s = (.error e, s')) : (x >>= f).run s = (.error e, s') := by
  rw [run_bind, h]

/-- A sequence succeeds exactly if both parts do, one after the other. -/
theorem run_bind_eq_ok_iff {x : Attempt σ ε α} {f : α → Attempt σ ε β} {s s' : σ} {b : β} :
    (x >>= f).run s = (.ok b, s') ↔
      ∃ a t, x.run s = (.ok a, t) ∧ (f a).run t = (.ok b, s') := by
  rw [run_bind]
  rcases x.run s with ⟨e | a, t⟩
  · simp
  · constructor
    · exact fun h => ⟨a, t, rfl, h⟩
    · rintro ⟨a', t', heq, h⟩
      cases heq
      exact h

/-- Saying errors differently changes no result and no state. -/
theorem run_mapError_ok {x : Attempt σ ε α} {f : ε → δ} {s s' : σ} {a : α}
    (h : x.run s = (.ok a, s')) : (x.mapError f).run s = (.ok a, s') := by
  simp only [mapError, h]

theorem run_mapError_error {x : Attempt σ ε α} {f : ε → δ} {s s' : σ} {e : ε}
    (h : x.run s = (.error e, s')) : (x.mapError f).run s = (.error (f e), s') := by
  simp only [mapError, h]

@[simp]
theorem run_ite (c : Prop) [Decidable c] (x y : Attempt σ ε α) (s : σ) :
    (if c then x else y).run s = if c then x.run s else y.run s := by
  split <;> rfl

/-- Attempts that do the same are the same. -/
theorem eq_of_run {x y : Attempt σ ε α} (h : ∀ s, x.run s = y.run s) : x = y := by
  cases x
  cases y
  exact congrArg Attempt.mk (funext h)

theorem mapError_bind (x : Attempt σ ε α) (f : α → Attempt σ ε β) (g : ε → δ) :
    (x >>= f).mapError g = x.mapError g >>= fun a => (f a).mapError g := by
  refine eq_of_run fun s => ?_
  simp only [mapError, run_bind]
  rcases x.run s with ⟨e | a, t⟩ <;> rfl

theorem id_map_eq (x : Attempt σ ε α) : id <$> x = x := by
  refine eq_of_run fun s => ?_
  show (x >>= fun a => pure (id a)).run s = x.run s
  rw [run_bind]
  rcases x.run s with ⟨e | a, t⟩ <;> rfl

theorem bind_assoc_eq {γ : Type} (x : Attempt σ ε α) (f : α → Attempt σ ε β)
    (g : β → Attempt σ ε γ) : x >>= f >>= g = x >>= fun a => f a >>= g := by
  refine eq_of_run fun s => ?_
  simp only [run_bind]
  rcases x.run s with ⟨e | a, t⟩ <;> rfl

instance : LawfulMonad (Attempt σ ε) :=
  LawfulMonad.mk' _ id_map_eq (fun _ _ => rfl) bind_assoc_eq

end Attempt

end SignedBoot
