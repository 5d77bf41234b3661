import GoYcsb.Workload.Impl.Load
import Mathlib.Data.Fintype.Basic
import Mathlib.Logic.Function.Basic

/-!
This module contains the workers of `pkg/client/client.go` with the goroutine that ends the warm-up. All
of them run at the same time, the steps of different goroutines may come in any order. The delays of
`throttle` are left out, and a transaction is one step that leaves the key sequence of the load alone. A
goroutine that panics ends the process.
-/

structure Worker where
  doTransactions : Bool
  doBatch : Bool
  batchSize : Int
  opCount : Int
  threadID : Int
  deriving DecidableEq, Repr

namespace Properties

def getDoTransactions (p : Properties) : Bool := p.doTransactions.getD true

def getBatchSize (p : Properties) : Int := getInt64 p.batchSize 1

def getThreadCount (p : Properties) : Int := getInt64 p.threadCount 1

def getWarmUpTime (p : Properties) : Int := getInt64 p.warmUpTime 0

def totalOpCount (p : Properties) : Int :=
  if p.getDoTransactions then
    getInt64 p.operationCount 0
  else
    match p.insertCount with
    | some insertCount => insertCount.val
    | none => getInt64 p.recordCount 0

end Properties

def newWorker (p : Properties) (threadID threadCount : Int) : Outcome Worker :=
  let doTransactions := p.getDoTransactions
  let batchSize := p.getBatchSize
  let doBatch := 1 < batchSize
  let totalOpCount := p.totalOpCount
  if totalOpCount < threadCount then
    .exit s!"totalOpCount(operationcount/insertcount/recordcount): {totalOpCount} should be bigger than threadCount: {threadCount}"
  else if threadCount = 0 then
    .panic "runtime error: integer divide by zero"
  else
    let opCount := Int.tdiv totalOpCount threadCount
    let opCount := if threadID < Int.tmod totalOpCount threadCount then I64.add opCount 1 else opCount
    .ret { doTransactions, doBatch, batchSize, opCount, threadID }

namespace Worker

inductive PC where
  -- the condition of the loop
  | test
  | transaction
  -- `keySequence.Next` and `buildValues`, for `left` more records
  | next (left : Nat) (keyNums : List Int)
  -- the database call
  | insert (keyNums : List Int) (numOfRetries : Int)
  -- `IsWarmUpFinished` and the counting of the operations
  | count
  | select
  | returned
  deriving DecidableEq, Repr

def opsCount (worker : Worker) : Int := if worker.doBatch then worker.batchSize else 1

def operation (worker : Worker) : PC :=
  if worker.doTransactions then
    .transaction
  else if worker.doBatch then
    .next worker.batchSize.toNat []
  else
    .next 1 []

end Worker

-- The field `opsDone` of the workers is kept apart from those that do not change. `calls` are the key
-- numbers of each call of `Insert` and `BatchInsert`.
structure Client (W : Type) where
  keySequence : Counter
  warmUp : Bool
  warmingUp : Bool
  ctxErr : Option Load.CtxErr
  crashed : Bool
  opsDone : W → Int
  pc : W → Worker.PC
  calls : List (List Int)

namespace Client

-- `err` is the error of the database call, `builds` are the answers while the values of a record are built.
structure Answer where
  err : Option String
  builds : Nat → Build

inductive Label (W : Type) where
  | step (w : W) (answer : Answer)
  -- `EnableWarmUp(false)` in the goroutine of `Run`
  | finishWarmUp
  | cancel (err : Load.CtxErr)

variable {W : Type} [DecidableEq W]

-- `InitMeasure` has raised the warm-up flag if there is a warm-up time.
def new (p : Properties) (c : Core) : Client W where
  keySequence := c.keySequence
  warmUp := 0 < p.getWarmUpTime
  warmingUp := true
  ctxErr := none
  crashed := false
  opsDone := fun _ => 0
  pc := fun _ => .test
  calls := []

def goto (s : Client W) (w : W) (pc : Worker.PC) : Client W :=
  { s with pc := Function.update s.pc w pc }

def workerStep (P : Platform) (c : Core) (worker : Worker) (s : Client W) (w : W) (answer : Answer)
    : Option (Client W) :=
  match s.pc w with
  | .test =>
    if worker.opCount = 0 ∨ s.opsDone w < worker.opCount then
      some (s.goto w worker.operation)
    else
      some (s.goto w .returned)
  | .transaction => some (s.goto w .count)
  | .next (left + 1) keyNums =>
    let (keyNum, keySequence) := s.keySequence.next
    let s := { s with keySequence }
    match Load.buildRecord P c answer.builds keyNum with
    | .ret _ => some (s.goto w (.next left (keyNums ++ [keyNum])))
    | .panic _ | .exit _ => some { s with crashed := true }
    | .running => none
  | .next 0 keyNums => some (s.goto w (.insert keyNums 0))
  | .insert keyNums numOfRetries =>
    let s := { s with calls := s.calls ++ [keyNums] }
    match Load.afterCall c.insertionRetryLimit numOfRetries s.ctxErr answer.err with
    | .again numOfRetries => some (s.goto w (.insert keyNums numOfRetries))
    | .ret _ => some (s.goto w .count)
  | .count =>
    if s.warmUp then
      some (s.goto w .select)
    else
      let opsDone := Function.update s.opsDone w (I64.add (s.opsDone w) worker.opsCount)
      some ({ s with opsDone }.goto w .select)
  | .select =>
    match s.ctxErr with
    | some _ => some (s.goto w .returned)
    | none => some (s.goto w .test)
  | .returned => none

def step (P : Platform) (c : Core) (worker : W → Worker) (s : Client W) (label : Label W) : Option (Client W) :=
  if s.crashed then
    none
  else
    match label with
    | .step w answer => s.workerStep P c (worker w) w answer
    | .finishWarmUp =>
      if s.warmingUp then
        some { s with warmUp := false, warmingUp := false }
      else
        none
    | .cancel err =>
      match s.ctxErr with
      | some _ => none
      | none => some { s with ctxErr := some err }

-- `env` says what pool, allocator and random source may answer. The context is not canceled.
def Allowed (env : Build → Prop) (_ : Client W) (label : Label W) : Prop :=
  match label with
  | .step _ answer => ∀ i, env (answer.builds i)
  | .finishWarmUp => True
  | .cancel _ => False

def Ended (s : Client W) : Prop := ∀ w, s.pc w = .returned

instance (s : Client (Fin n)) : Decidable s.Ended := inferInstanceAs (Decidable (∀ _, _))

end Client
