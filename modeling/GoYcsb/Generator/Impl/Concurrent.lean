import GoYcsb.Generator.Impl.Session

/-!
This module contains the `AcknowledgedCounter` as it is shared by any number of goroutines. A call
of `Acknowledge` is split into its atomic steps, which the scheduler may interleave in any order.
-/

inductive PC where
  | idle
  | testSlot (value : Int)
  | setSlot (value : Int)
  | tryLock (value : Int)
  | loadLimit (value : Int)
  | scan (value beforeFirstSlot index : Int)
  | storeLimit (value index : Int)
  | unlock (value : Int)
  | panicked (value : Int)
  deriving DecidableEq, Repr

namespace PC

def InScan (pc : PC) : Prop :=
  match pc with
  | .loadLimit _ | .scan _ _ _ | .storeLimit _ _ | .unlock _ => True
  | .idle | .testSlot _ | .setSlot _ | .tryLock _ | .panicked _ => False

def Pending (pc : PC) (value : Int) : Prop := pc = .testSlot value ∨ pc = .setSlot value

instance (pc : PC) : Decidable pc.InScan := by
  unfold InScan; cases pc <;> infer_instance

end PC

-- The shared counter and the goroutines, together with the values that `Next` has returned, those that
-- `Acknowledge` was called with and those whose slot has been set.
structure Goroutines (G : Type u) where
  a : AcknowledgedCounter
  pc : G → PC
  issued : List Int
  called : List Int
  marked : List Int

namespace Goroutines

inductive Label (G : Type u) where
  | next (g : G)
  | acknowledge (g : G) (value : Int)
  | step (g : G)
  deriving DecidableEq, Repr

variable {G : Type u} [DecidableEq G]

def new (start : Int) : Goroutines G where
  a := AcknowledgedCounter.new start
  pc := fun _ => .idle
  issued := []
  called := []
  marked := []

def goto (s : Goroutines G) (g : G) (pc : PC) : Goroutines G :=
  { s with pc := Function.update s.pc g pc }

/--
The next atomic step of the `Acknowledge` call that `g` is in. One turn of the scan loop is one step.
-/
def atomic (s : Goroutines G) (g : G) : Option (Goroutines G) :=
  match s.pc g with
  | .idle => none
  | .testSlot value =>
    if s.a.window (slotOf value) then
      some (s.goto g (.panicked value))
    else
      some (s.goto g (.setSlot value))
  | .setSlot value =>
    let a := { s.a with window := Function.update s.a.window (slotOf value) true }
    some ({ s with a, marked := value :: s.marked }.goto g (.tryLock value))
  | .tryLock value =>
    match s.a.lock.tryLock with
    | (false, lock) => some ({ s with a := { s.a with lock } }.goto g .idle)
    | (true, lock) => some ({ s with a := { s.a with lock } }.goto g (.loadLimit value))
  | .loadLimit value =>
    let limit := s.a.limit
    some (s.goto g (.scan value (I64.land limit windowMask) (I64.add limit 1)))
  | .scan value beforeFirstSlot index =>
    if index ≠ beforeFirstSlot then
      if !s.a.window (slotOf index) then
        some (s.goto g (.storeLimit value index))
      else
        let a := { s.a with window := Function.update s.a.window (slotOf index) false }
        some ({ s with a }.goto g (.scan value beforeFirstSlot (I64.add index 1)))
    else
      some (s.goto g (.storeLimit value index))
  | .storeLimit value index =>
    let a := { s.a with limit := I64.sub index 1 }
    some ({ s with a }.goto g (.unlock value))
  | .unlock _ =>
    let a := { s.a with lock := s.a.lock.unlock }
    some ({ s with a }.goto g .idle)
  | .panicked _ => none

def step (s : Goroutines G) (label : Label G) : Option (Goroutines G) :=
  match label with
  | .next g =>
    if s.pc g = .idle then
      let (value, a) := s.a.next
      some { s with a, issued := value :: s.issued }
    else
      none
  | .acknowledge g value =>
    if s.pc g = .idle then
      some ({ s with called := value :: s.called }.goto g (.testSlot value))
    else
      none
  | .step g => s.atomic g

def AcksOnce (s : Goroutines G) (label : Label G) : Prop :=
  match label with
  | .next _ => True
  | .acknowledge _ value => value ∈ s.issued ∧ value ∉ s.called
  | .step _ => True

def InWindow (s : Goroutines G) (label : Label G) : Prop :=
  match label with
  | .next _ => s.a.next.1 ≤ s.a.last + windowSize
  | .acknowledge _ _ => True
  | .step _ => True

def CounterFits (s : Goroutines G) (label : Label G) : Prop :=
  match label with
  | .next _ => s.a.c.counter + 1 < 2 ^ 63
  | .acknowledge _ _ => True
  | .step _ => True

def Quiescent (s : Goroutines G) : Prop := ∀ g, s.pc g = .idle

instance (s : Goroutines G) (label : Label G) : Decidable (s.AcksOnce label) := by
  unfold AcksOnce; cases label <;> infer_instance

instance (s : Goroutines G) (label : Label G) : Decidable (s.InWindow label) := by
  unfold InWindow; cases label <;> infer_instance

instance (s : Goroutines G) (label : Label G) : Decidable (s.CounterFits label) := by
  unfold CounterFits; cases label <;> infer_instance

end Goroutines
