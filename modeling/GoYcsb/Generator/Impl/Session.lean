import GoYcsb.Generator.Impl.AcknowledgedCounter
import GoYcsb.Lib.Run
import Mathlib.Order.Bounds.Basic

/-!
This module contains the sequences of `Next` and `Acknowledge` calls on one `AcknowledgedCounter`,
executed one at a time, and the abstract meaning of the number that `Last` reports.
-/

def IsFrontier (start : Int) (acked : Int → Prop) (last : Int) : Prop :=
  IsGreatest { l | start - 1 ≤ l ∧ ∀ v, start ≤ v → v ≤ l → acked v } last

theorem IsFrontier.of_not_acked {start last : Int} {acked : Int → Prop} (hge : start - 1 ≤ last)
    (hcovered : ∀ v, start ≤ v → v ≤ last → acked v) (hstop : ¬ acked (last + 1))
    : IsFrontier start acked last := by
  refine ⟨⟨hge, hcovered⟩, ?_⟩
  intro l hl
  by_contra hlt
  apply hstop
  exact hl.2 (last + 1) (by omega) (by omega)

inductive Call where
  | next
  | acknowledge (value : Int)
  deriving DecidableEq, Repr

-- The counter together with the values that its `Next` has returned and the values that have been
-- acknowledged so far.
structure Session where
  a : AcknowledgedCounter
  issued : List Int
  acked : List Int

namespace Session

def new (start : Int) : Session where
  a := AcknowledgedCounter.new start
  issued := []
  acked := []

def next (s : Session) : Session :=
  let (value, a) := s.a.next
  { s with a, issued := value :: s.issued }

def acknowledge (fuel : Nat) (s : Session) (value : Int) : Outcome Session := do
  let a ← s.a.acknowledge fuel value
  return { s with a, acked := value :: s.acked }

def call (fuel : Nat) (s : Session) (call : Call) : Outcome Session :=
  match call with
  | .next => .ret s.next
  | .acknowledge value => s.acknowledge fuel value

def step (fuel : Nat) (s : Session) (call : Call) : Option Session := (s.call fuel call).toOption

def AcksOnce (s : Session) (call : Call) : Prop :=
  match call with
  | .next => True
  | .acknowledge value => value ∈ s.issued ∧ value ∉ s.acked

def InWindow (s : Session) (call : Call) : Prop :=
  match call with
  | .next => s.a.next.1 ≤ s.a.last + windowSize
  | .acknowledge _ => True

def CounterFits (s : Session) (call : Call) : Prop :=
  match call with
  | .next => s.a.c.counter + 1 < 2 ^ 63
  | .acknowledge _ => True

def NoOverrun (s : Session) (call : Call) : Prop :=
  match call with
  | .next => True
  | .acknowledge value => value ≤ s.a.last + windowSize ∨ s.a.window (slotOf value) = true

instance (s : Session) (call : Call) : Decidable (s.AcksOnce call) := by
  unfold AcksOnce; cases call <;> infer_instance

instance (s : Session) (call : Call) : Decidable (s.InWindow call) := by
  unfold InWindow; cases call <;> infer_instance

instance (s : Session) (call : Call) : Decidable (s.CounterFits call) := by
  unfold CounterFits; cases call <;> infer_instance

instance (s : Session) (call : Call) : Decidable (s.NoOverrun call) := by
  unfold NoOverrun; cases call <;> infer_instance

end Session
