import GoYcsb.Lib.Outcome

/-!
This module contains programs that send requests to a server and go on with its answers, together
with what such a program does if nobody else talks to the server meanwhile.
-/

inductive Rpc (Req : Type) (Answer : Req → Type) (α : Type) where
  | done (out : Outcome α)
  | call (req : Req) (cont : Answer req → Rpc Req Answer α)

namespace Rpc

variable {Req : Type} {Answer : Req → Type} {α β σ : Type}

def bind (prog : Rpc Req Answer α) (f : α → Rpc Req Answer β) : Rpc Req Answer β :=
  match prog with
  | .done (.ret a) => f a
  | .done (.panic msg) => .done (.panic msg)
  | .done (.exit msg) => .done (.exit msg)
  | .done .running => .done .running
  | .call req cont => .call req (fun answer => bind (cont answer) f)

instance : Monad (Rpc Req Answer) where
  pure a := .done (.ret a)
  bind := bind

def lift (out : Outcome α) : Rpc Req Answer α := .done out

def send (req : Req) : Rpc Req Answer (Answer req) := .call req (fun answer => .done (.ret answer))

@[simp]
theorem pure_eq (a : α) : (pure a : Rpc Req Answer α) = .done (.ret a) := rfl

@[simp]
theorem ret_bind (a : α) (f : α → Rpc Req Answer β) : (.done (.ret a) >>= f) = f a := rfl

@[simp]
theorem lift_ret_bind (a : α) (f : α → Rpc Req Answer β) : (lift (.ret a) >>= f) = f a := rfl

@[simp]
theorem lift_panic_bind (msg : String) (f : α → Rpc Req Answer β)
    : (lift (.panic msg) >>= f) = .done (.panic msg) := rfl

@[simp]
theorem send_bind (req : Req) (f : Answer req → Rpc Req Answer β) : (send req >>= f) = .call req f := rfl

@[simp]
theorem call_bind (req : Req) (cont : Answer req → Rpc Req Answer α) (f : α → Rpc Req Answer β)
    : (.call req cont >>= f) = .call req (fun answer => cont answer >>= f) := rfl

theorem bind_assoc {γ : Type} (prog : Rpc Req Answer α) (f : α → Rpc Req Answer β) (g : β → Rpc Req Answer γ)
    : (prog >>= f >>= g) = (prog >>= fun a => f a >>= g) := by
  induction prog with
  | done out => cases out <;> rfl
  | call req cont ih =>
    rw [call_bind, call_bind, call_bind]
    congr 1
    funext answer
    exact ih answer

def Returns (prog : Rpc Req Answer α) : Prop :=
  match prog with
  | .done out => ∃ a, out = .ret a
  | .call _ cont => ∀ answer, Returns (cont answer)

def exec (handle : (req : Req) → σ → Answer req × σ) (prog : Rpc Req Answer α) (s : σ)
    : Outcome α × σ :=
  match prog with
  | .done out => (out, s)
  | .call req cont =>
    let (answer, s) := handle req s
    exec handle (cont answer) s

variable {handle : (req : Req) → σ → Answer req × σ}

@[simp]
theorem exec_done (out : Outcome α) (s : σ)
    : exec handle (.done out : Rpc Req Answer α) s = (out, s) := rfl

@[simp]
theorem exec_call (req : Req) (cont : Answer req → Rpc Req Answer α) (s : σ)
    : exec handle (.call req cont) s = exec handle (cont (handle req s).1) (handle req s).2 := rfl

theorem exec_bind {prog : Rpc Req Answer α} {out : Outcome α} {s t : σ} (h : exec handle prog s = (out, t))
    (f : α → Rpc Req Answer β)
    : exec handle (prog >>= f) s = exec handle (.done out >>= f) t := by
  induction prog generalizing s with
  | done out =>
    cases h
    rfl
  | call req cont ih =>
    rw [call_bind, exec_call]
    apply ih
    exact h

theorem exec_bind_ret {prog : Rpc Req Answer α} {f : α → Rpc Req Answer β} {a : α} {s t : σ}
    (h : exec handle prog s = (.ret a, t))
    : exec handle (prog >>= f) s = exec handle (f a) t := by
  rw [exec_bind h, ret_bind]

theorem exec_bind_panic {prog : Rpc Req Answer α} {f : α → Rpc Req Answer β} {msg : String} {s t : σ}
    (h : exec handle prog s = (.panic msg, t))
    : exec handle (prog >>= f) s = (.panic msg, t) := by
  rw [exec_bind h]
  rfl

theorem exec_bind_lift {prog : Rpc Req Answer α} {f : α → Rpc Req Answer β} {g : α → Outcome β} {out : Outcome α}
    {s t : σ} (h : exec handle prog s = (out, t)) (hf : ∀ a, exec handle (f a) t = (g a, t))
    : exec handle (prog >>= f) s = (out >>= g, t) := by
  rw [exec_bind h]
  cases out with
  | ret a => exact hf a
  | panic msg => rfl
  | exit msg => rfl
  | running => rfl

theorem exec_bind_eq_ret {prog : Rpc Req Answer α} {f : α → Rpc Req Answer β} {b : β} {s u : σ}
    (h : exec handle (prog >>= f) s = (.ret b, u))
    : ∃ a t, exec handle prog s = (.ret a, t) ∧ exec handle (f a) t = (.ret b, u) := by
  generalize hprog : exec handle prog s = ending at h ⊢
  rcases ending with ⟨out, t⟩
  rw [exec_bind hprog] at h
  cases out with
  | ret a => exact ⟨a, t, rfl, h⟩
  | panic msg => cases h
  | exit msg => cases h
  | running => cases h

end Rpc
