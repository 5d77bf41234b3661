import GoYcsb.Lib.Int64
import GoYcsb.Lib.Outcome
import GoYcsb.Lib.RingBuffer
import GoYcsb.Util.SpinLock

/-!
This module contains the counters of `pkg/generator/counter.go` and
`pkg/generator/acknowledged_counter.go`, with every call carried out without interruption.
-/

structure Counter where
  counter : Int
  deriving DecidableEq, Repr

namespace Counter

def new (start : Int) : Counter := ⟨start⟩

def next (c : Counter) : Int × Counter :=
  let counter := I64.add c.counter 1
  (I64.sub counter 1, ⟨counter⟩)

def last (c : Counter) : Int := I64.sub c.counter 1

end Counter

def windowSize : Nat := 2 ^ 20

instance : NeZero windowSize := ⟨by decide⟩

def windowMask : Int := (windowSize : Int) - 1

theorem land_windowMask (value : Int) : I64.land value windowMask = value % windowSize :=
  I64.land_mask value (k := 20) (by omega)

-- The slot `value & WindowMask`. It is a valid index of the window whatever the value is.
def slotOf (value : Int) : Fin windowSize :=
  ⟨(I64.land value windowMask).toNat, by
    rw [land_windowMask]
    exact (RingBuffer.slot windowSize value).isLt⟩

theorem slotOf_eq_slot (value : Int) : slotOf value = RingBuffer.slot windowSize value := by
  unfold slotOf RingBuffer.slot
  simp only [land_windowMask]

structure AcknowledgedCounter where
  c : Counter
  lock : SpinLock
  window : Fin windowSize → Bool
  limit : Int

namespace AcknowledgedCounter

def new (start : Int) : AcknowledgedCounter where
  c := Counter.new start
  lock := SpinLock.unlocked
  window := fun _ => false
  limit := I64.sub start 1

def next (a : AcknowledgedCounter) : Int × AcknowledgedCounter :=
  let (value, c) := a.c.next
  (value, { a with c })

def last (a : AcknowledgedCounter) : Int := a.limit

def scan (fuel : Nat) (window : Fin windowSize → Bool) (beforeFirstSlot index : Int)
    : Outcome ((Fin windowSize → Bool) × Int) :=
  match fuel with
  | 0 => .running
  | fuel + 1 =>
    if index ≠ beforeFirstSlot then
      let slot := slotOf index
      if !window slot then
        .ret (window, index)
      else
        scan fuel (Function.update window slot false) beforeFirstSlot (I64.add index 1)
    else
      .ret (window, index)

def acknowledge (fuel : Nat) (a : AcknowledgedCounter) (value : Int)
    : Outcome AcknowledgedCounter :=
  let currentSlot := slotOf value
  if a.window currentSlot then
    .panic "Too many unacknowledged insertion keys."
  else
    let window := Function.update a.window currentSlot true
    match a.lock.tryLock with
    | (false, lock) => .ret { a with window, lock }
    | (true, lock) => do
      let limit := a.limit
      let beforeFirstSlot := I64.land limit windowMask
      let (window, index) ← scan fuel window beforeFirstSlot (I64.add limit 1)
      return { a with window, limit := I64.sub index 1, lock := lock.unlock }

end AcknowledgedCounter
