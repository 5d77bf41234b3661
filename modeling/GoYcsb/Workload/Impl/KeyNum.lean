import GoYcsb.Generator.Impl.Concurrent
import GoYcsb.Workload.Impl.Create

/-!
This module contains `nextKeyNum` and the choosing of key numbers while other goroutines insert records.
-/

def exponentialKeyNum (P : Platform) (last : Int) (e : Generator.Exponential) (draws : List Draw)
    : Outcome Int :=
  match draws with
  | [] => .running
  | d :: draws =>
    let keyNum := I64.sub last (e.next P d)
    if keyNum < 0 then
      exponentialKeyNum P last e draws
    else
      .ret keyNum

def nextKeyNum (P : Platform) (last : Int) (keyChooser : Generator) (draws : List Draw)
    : Outcome (Int × Generator) :=
  match keyChooser with
  | .exponential e => do
    let keyNum ← exponentialKeyNum P last e draws
    return (keyNum, keyChooser)
  | .constant _ | .uniform _ | .sequential _ | .zipfian _ | .scrambledZipfian _ | .skewedLatest _
  | .hotspot _ | .histogram _ =>
    match draws with
    | [] => .running
    | d :: _ => keyChooser.next P last d

-- What keeps the key chooser to the key numbers that `Last()` has reported: the key range of the
-- scrambled Zipfian does not reach beyond them, the rate of the exponential is not negative, the
-- counter of the sequential has not wrapped around and the hotspot can tell its numbers apart.
def Generator.Contained (last : Int) (g : Generator) : Prop :=
  match g with
  | .scrambledZipfian s => s.min ≤ s.max ∧ s.max ≤ last
  | .exponential e => e.gamma.NonNeg
  | .sequential s => 0 ≤ s.counter ∧ s.counter + 1 < 2 ^ 63
  | .hotspot h => h.upperBound - h.lowerBound + 1 ≤ 2 ^ 53
  | .constant _ | .uniform _ | .zipfian _ | .skewedLatest _ | .histogram _ => True

instance (last : Int) (g : Generator) : Decidable (g.Contained last) :=
  match g with
  | .scrambledZipfian s => inferInstanceAs (Decidable (s.min ≤ s.max ∧ s.max ≤ last))
  | .exponential e => inferInstanceAs (Decidable e.gamma.NonNeg)
  | .sequential s => inferInstanceAs (Decidable (0 ≤ s.counter ∧ s.counter + 1 < 2 ^ 63))
  | .hotspot h => inferInstanceAs (Decidable (h.upperBound - h.lowerBound + 1 ≤ 2 ^ 53))
  | .constant _ | .uniform _ | .zipfian _ | .skewedLatest _ | .histogram _ => instDecidableTrue

structure Choosing (G : Type u) where
  sequence : Goroutines G
  keyChooser : Generator

namespace Choosing

inductive Label (G : Type u) where
  | sequence (action : Goroutines.Label G)
  | nextKeyNum (draws : List Draw)
  deriving DecidableEq, Repr

variable {G : Type u} [DecidableEq G]

def new (c : Core) : Choosing G where
  sequence := {
    a := c.transactionInsertKeySequence,
    pc := fun _ => .idle,
    issued := [],
    called := [],
    marked := []
  }
  keyChooser := c.keyChooser

def last (s : Choosing G) : Int := s.sequence.a.last

def step (P : Platform) (s : Choosing G) (label : Label G) : Option (Choosing G) :=
  match label with
  | .sequence action =>
    (s.sequence.step action).map (fun sequence => { s with sequence })
  | .nextKeyNum draws =>
    (nextKeyNum P s.last s.keyChooser draws).toOption.map (fun res => { s with keyChooser := res.2 })

def Allowed (s : Choosing G) (label : Label G) : Prop :=
  match label with
  | .sequence action => s.sequence.AcksOnce action ∧ s.sequence.CounterFits action
  | .nextKeyNum _ => True

instance (s : Choosing G) (label : Label G) : Decidable (s.Allowed label) := by
  unfold Allowed; cases label <;> infer_instance

end Choosing
