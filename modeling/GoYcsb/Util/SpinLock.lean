import Mathlib.Order.Basic

/-!
This module contains the spin lock of `pkg/util/spinlock.go`. Its methods are single atomic
operations on the word `f`, which is why each of them is one function on the state of the lock.
-/

structure SpinLock where
  f : UInt32
  deriving DecidableEq, Repr

namespace SpinLock

def unlocked : SpinLock := ⟨0⟩

def unlock (_sl : SpinLock) : SpinLock := ⟨0⟩

def tryLock (sl : SpinLock) : Bool × SpinLock :=
  if sl.f = 0 then
    (true, ⟨1⟩)
  else
    (false, sl)

@[simp]
theorem unlock_eq (sl : SpinLock) : sl.unlock = unlocked := rfl

@[simp]
theorem tryLock_unlocked : unlocked.tryLock = (true, ⟨1⟩) := rfl

end SpinLock
