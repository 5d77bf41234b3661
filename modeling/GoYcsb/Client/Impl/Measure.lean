import GoYcsb.Lib.Run
import GoYcsb.Measurement.Impl.Prometheus
import Mathlib.Logic.Function.Basic

/-!
This module contains `measure` of `pkg/client/dbwrapper.go` as any number of workers call it while the warm-up comes to
its end. The test of the warm-up flag and the locked recording are one step each.
-/

open Measurement

-- Where a worker is in its call of `measure`; `rest` are the operations that it will measure afterwards.
inductive MeasurePC where
  | idle
  | isWarmUpFinished (op : Operation) (rest : List Operation)
  | record (op : Operation) (rest : List Operation)
  deriving DecidableEq, Repr

namespace MeasurePC

def next (ops : List Operation) : MeasurePC :=
  match ops with
  | [] => .idle
  | op :: rest => .isWarmUpFinished op rest

def measure (op : Call) (err : Option String) : List Operation :=
  match err with
  | some _ => [.error op]
  | none => [.done op, .total]

end MeasurePC

structure Measuring (W : Type) where
  warmUp : Bool
  recorded : List Operation
  pc : W → MeasurePC

namespace Measuring

inductive Label (W : Type) where
  | measure (w : W) (op : Call) (err : Option String)
  | step (w : W)
  -- `EnableWarmUp(false)`
  | finishWarmUp

variable {W : Type} [DecidableEq W]

def init (warmUp : Bool) : Measuring W where
  warmUp := warmUp
  recorded := []
  pc := fun _ => .idle

def goto (s : Measuring W) (w : W) (pc : MeasurePC) : Measuring W :=
  { s with pc := Function.update s.pc w pc }

def step (s : Measuring W) (label : Label W) : Option (Measuring W) :=
  match label with
  | .measure w op err =>
    match s.pc w with
    | .idle => some (s.goto w (.next (MeasurePC.measure op err)))
    | .isWarmUpFinished _ _ | .record _ _ => none
  | .step w =>
    match s.pc w with
    | .idle => none
    | .isWarmUpFinished op rest =>
      if s.warmUp then
        some (s.goto w (.next rest))
      else
        some (s.goto w (.record op rest))
    | .record op rest => some ({ s with recorded := s.recorded ++ [op] }.goto w (.next rest))
  | .finishWarmUp => some { s with warmUp := false }

end Measuring
