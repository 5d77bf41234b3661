import Mathlib.Order.Basic

/-!
This module contains the ways in which a call of a Go function can end.
-/

/--
A call returns, it stops with a run-time panic, it makes the program exit, or it has not come to an
end within the number of loop turns it was given.
-/
inductive Outcome (α : Type u) where
  | ret (val : α)
  | panic (msg : String)
  | exit (msg : String)
  | running
  deriving DecidableEq, Repr

namespace Outcome

def bind (x : Outcome α) (f : α → Outcome β) : Outcome β :=
  match x with
  | .ret val => f val
  | .panic msg => .panic msg
  | .exit msg => .exit msg
  | .running => .running

instance : Monad Outcome where
  pure := .ret
  bind := bind

def toOption (x : Outcome α) : Option α :=
  match x with
  | .ret val => some val
  | .panic _ => none
  | .exit _ => none
  | .running => none

def Panics (x : Outcome α) : Prop := ∃ msg, x = .panic msg

inductive Rel (R : α → β → Prop) : Outcome α → Outcome β → Prop where
  | ret {a : α} {b : β} : R a b → Rel R (.ret a) (.ret b)
  | panic (msg : String) : Rel R (.panic msg) (.panic msg)
  | exit (msg : String) : Rel R (.exit msg) (.exit msg)
  | running : Rel R .running .running

@[simp]
theorem pure_eq (a : α) : (pure a : Outcome α) = .ret a := rfl

@[simp]
theorem ret_bind (a : α) (f : α → Outcome β) : (Outcome.ret a >>= f) = f a := rfl

@[simp]
theorem panic_bind (msg : String) (f : α → Outcome β)
    : (Outcome.panic msg >>= f) = .panic msg := rfl

@[simp]
theorem exit_bind (msg : String) (f : α → Outcome β)
    : (Outcome.exit msg >>= f) = .exit msg := rfl

@[simp]
theorem running_bind (f : α → Outcome β) : (Outcome.running >>= f) = .running := rfl

theorem bind_assoc (x : Outcome α) (f : α → Outcome β) (g : β → Outcome γ)
    : (x >>= f >>= g) = x >>= fun a => f a >>= g := by
  cases x <;> rfl

theorem Rel.bind {R : α → β → Prop} {S : γ → δ → Prop} {x : Outcome α} {y : Outcome β}
    {f : α → Outcome γ} {g : β → Outcome δ} (h : Rel R x y) (hfg : ∀ a b, R a b → Rel S (f a) (g b))
    : Rel S (x >>= f) (y >>= g) := by
  cases h with
  | ret hab => exact hfg _ _ hab
  | panic msg => exact .panic msg
  | exit msg => exact .exit msg
  | running => exact .running

theorem Rel.bind_left {R : α → β → Prop} {S : γ → β → Prop} {x : Outcome α} {y : Outcome β} {f : α → Outcome γ}
    (h : Rel R x y) (hf : ∀ a b, R a b → Rel S (f a) (.ret b))
    : Rel S (x >>= f) y := by
  cases h with
  | ret hab => exact hf _ _ hab
  | panic msg => exact .panic msg
  | exit msg => exact .exit msg
  | running => exact .running

theorem Panics.bind {x : Outcome α} (h : x.Panics) (f : α → Outcome β) : (x >>= f).Panics := by
  rcases h with ⟨msg, hmsg⟩
  rw [hmsg]
  exact ⟨msg, rfl⟩

theorem bind_eq_ret {x : Outcome α} {f : α → Outcome β} {b : β} (h : (x >>= f) = .ret b)
    : ∃ a, x = .ret a ∧ f a = .ret b := by
  cases x with
  | ret a => exact ⟨a, rfl, h⟩
  | panic msg => simp at h
  | exit msg => simp at h
  | running => simp at h

theorem map_ok_ne_error {x : Outcome α} {err : ε} : (Except.ok <$> x) ≠ .ret (.error err) := by
  cases x <;> simp [Functor.map, bind]

theorem map_ok_eq_iff {x : Outcome α} {a : α}
    : (Except.ok <$> x : Outcome (Except ε α)) = .ret (.ok a) ↔ x = .ret a := by
  cases x <;> simp [Functor.map, bind]

@[simp]
theorem toOption_ret (a : α) : (Outcome.ret a).toOption = some a := rfl

@[simp]
theorem toOption_panic (msg : String) : (Outcome.panic msg : Outcome α).toOption = none := rfl

@[simp]
theorem toOption_exit (msg : String) : (Outcome.exit msg : Outcome α).toOption = none := rfl

@[simp]
theorem toOption_running : (Outcome.running : Outcome α).toOption = none := rfl

@[simp]
theorem toOption_eq_some {x : Outcome α} {a : α} : x.toOption = some a ↔ x = .ret a := by
  cases x <;> simp

theorem exists_of_any {x : Outcome α} (p : α → Bool) (h : x.toOption.any p = true)
    : ∃ a, x = .ret a ∧ p a = true := by
  rw [Option.any_eq_true] at h
  rcases h with ⟨a, ha, hp⟩
  exact ⟨a, toOption_eq_some.mp ha, hp⟩

end Outcome
