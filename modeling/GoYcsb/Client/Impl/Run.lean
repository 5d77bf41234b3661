import GoYcsb.Client.Impl.Client
import GoYcsb.Lib.Run

/-!
This module contains `Run` of `pkg/client/client.go` with all of its goroutines: the workers with the delays of
`throttle`, the one that ends the warm-up and prints summaries, and the one that waits for them. Time passes by steps of
its own, and a timer may fire at any moment from its deadline on.
-/

namespace F64

def le (x y : F64) : Bool := x.lt y || (x == y && x != .nan)

end F64

namespace ClientRun

structure TargetWorker extends Worker where
  targetOpsPerMs : F64
  targetOpsTickNs : Int
  deriving DecidableEq, Repr

def newTargetWorker (P : Platform) (p : Properties) (target : Option I64.Value) (threadID threadCount : Int)
    : Outcome TargetWorker := do
  let worker ← newWorker p threadID threadCount
  let v := getInt64 target 0
  let targetPerThreadPerms :=
    if 0 < v then
      ((F64.ofInt P v).div P (F64.ofInt P threadCount)).div P (F64.ofInt P 1000)
    else
      F64.ofInt P (-1)
  if (F64.ofInt P 0).lt targetPerThreadPerms then
    return {
      toWorker := worker
      targetOpsPerMs := targetPerThreadPerms
      targetOpsTickNs := ((F64.ofInt P 1000000).div P targetPerThreadPerms).toInt64 P
    }
  else
    return { toWorker := worker, targetOpsPerMs := .fin 0, targetOpsTickNs := 0 }

-- What all goroutines see: the clock in nanoseconds, the context and the warm-up flag.
structure Env where
  now : Int
  canceled : Bool
  warmUp : Bool
  deriving DecidableEq, Repr

inductive PC where
  | notStarted
  | starting
  -- `time.Sleep` before the loop
  | spread (deadline : Int)
  | test
  | operation
  -- `IsWarmUpFinished` and the counting of the operations
  | count
  | throttle
  -- `select` of `throttle`
  | wait (deadline : Int)
  | select
  | cleanup
  -- the deferred `wg.Done`
  | leave
  | ended
  -- `rand.Int63n` has panicked
  | crashed
  deriving DecidableEq, Repr

structure Goroutine where
  pc : PC
  startTime : Int
  opsDone : Int
  deriving DecidableEq, Repr

namespace TargetWorker

variable (worker : TargetWorker)

def hasTarget : Bool := !worker.targetOpsPerMs.le (.fin 0)

def spreads : Bool := (F64.fin 0).lt worker.targetOpsPerMs && worker.targetOpsPerMs.le (.fin 1)

-- The next step of a worker. `delay` is what `rand.Int63n` returns in it.
def step (env : Env) (g : Goroutine) (delay : Int) : Option Goroutine :=
  match g.pc with
  | .notStarted => none
  | .starting =>
    if worker.spreads then
      if worker.targetOpsTickNs ≤ 0 then
        some { g with pc := .crashed }
      else if 0 ≤ delay ∧ delay < worker.targetOpsTickNs then
        some { g with pc := .spread (env.now + delay) }
      else
        none
    else
      some { g with pc := .test, startTime := env.now }
  | .spread deadline => if deadline ≤ env.now then some { g with pc := .test, startTime := env.now } else none
  | .test =>
    if worker.opCount = 0 ∨ g.opsDone < worker.opCount then
      some { g with pc := .operation }
    else
      some { g with pc := .cleanup }
  | .operation => some { g with pc := .count }
  | .count =>
    if env.warmUp then
      some { g with pc := .select }
    else
      some { g with pc := .throttle, opsDone := I64.add g.opsDone worker.opsCount }
  | .throttle =>
    if worker.hasTarget then
      let deadline := g.startTime + I64.mul g.opsDone worker.targetOpsTickNs
      if deadline - env.now < 0 then
        some { g with pc := .select }
      else
        some { g with pc := .wait deadline }
    else
      some { g with pc := .select }
  | .wait deadline => if env.canceled ∨ deadline ≤ env.now then some { g with pc := .select } else none
  | .select => if env.canceled then some { g with pc := .cleanup } else some { g with pc := .test }
  | .cleanup => some { g with pc := .leave }
  | .leave => some { g with pc := .ended }
  | .ended => none
  | .crashed => none

end TargetWorker

inductive MainPC where
  | spawn (i : Nat)
  -- `wg.Wait`
  | wait
  | analyze
  | cancel
  -- `<-measureCh`
  | receive
  | returned
  deriving DecidableEq, Repr

inductive MeasurerPC where
  | start
  | warmUp (deadline : Int)
  | enable
  | loop
  -- the deferred `measureCh <- struct{}{}`
  | send
  | ended
  -- `time.NewTicker` has panicked
  | crashed
  deriving DecidableEq, Repr

inductive Event (n : Nat) where
  | operation (i : Fin n)
  | cleanup (i : Fin n)
  | summary
  | analyze
  | returned
  deriving DecidableEq, Repr

structure Config (n : Nat) where
  worker : Fin n → TargetWorker
  doTransactions : Bool
  analyzeDB : Bool
  warmUpTime : Int
  logInterval : Int

structure State (n : Nat) where
  env : Env
  wg : Int
  measureCanceled : Bool
  -- there is a message in the channel
  measureCh : Bool
  -- there is a tick in the channel of the ticker, and the next one comes at `nextTick`
  ticked : Bool
  nextTick : Int
  main : MainPC
  measurer : MeasurerPC
  goroutine : Fin n → Goroutine
  events : List (Event n)

inductive Label (n : Nat) where
  | pass (d : Nat)
  | cancel
  | tick
  | main
  -- `timer` says whether the goroutine takes the case of the timer in its `select`
  | measurer (timer : Bool)
  | worker (i : Fin n) (delay : Int)
  deriving DecidableEq, Repr

def Label.isOwn {n : Nat} (label : Label n) : Bool :=
  match label with
  | .main | .measurer _ | .worker _ _ => true
  | .pass _ | .cancel | .tick => false

def Label.isTick {n : Nat} (label : Label n) : Bool :=
  match label with
  | .tick => true
  | .pass _ | .cancel | .main | .measurer _ | .worker _ _ => false

def seconds (dur : Int) : Int := I64.mul dur 1000000000

namespace Config

variable {n : Nat} (cfg : Config n)

def init (now : Int) : State n where
  env := { now, canceled := false, warmUp := decide (0 < cfg.warmUpTime) }
  wg := n
  measureCanceled := false
  measureCh := false
  ticked := false
  nextTick := 0
  main := .spawn 0
  measurer := .start
  goroutine := fun _ => { pc := .notStarted, startTime := 0, opsDone := 0 }
  events := []

def mainStep (s : State n) : Option (State n) :=
  match s.main with
  | .spawn i =>
    if h : i < n then
      some { s with
        main := .spawn (i + 1)
        goroutine := Function.update s.goroutine ⟨i, h⟩ { s.goroutine ⟨i, h⟩ with pc := .starting }
      }
    else
      some { s with main := .wait }
  | .wait =>
    if s.wg = 0 then
      some { s with main := if !cfg.doTransactions && cfg.analyzeDB then .analyze else .cancel }
    else
      none
  | .analyze => some { s with main := .cancel, events := s.events ++ [.analyze] }
  | .cancel => some { s with main := .receive, measureCanceled := true }
  | .receive =>
    if s.measureCh then
      some { s with main := .returned, measureCh := false, events := s.events ++ [.returned] }
    else
      none
  | .returned => none

def measurerStep (s : State n) (timer : Bool) : Option (State n) :=
  match s.measurer with
  | .start =>
    if cfg.doTransactions then
      some { s with measurer := .warmUp (s.env.now + seconds cfg.warmUpTime) }
    else
      some { s with measurer := .enable }
  | .warmUp deadline =>
    if timer then
      if deadline ≤ s.env.now then some { s with measurer := .enable } else none
    else
      if s.env.canceled then some { s with measurer := .send } else none
  | .enable =>
    if seconds cfg.logInterval ≤ 0 then
      some { s with env := { s.env with warmUp := false }, measurer := .crashed }
    else
      some { s with
        env := { s.env with warmUp := false }
        measurer := .loop
        nextTick := s.env.now + seconds cfg.logInterval
      }
  | .loop =>
    if timer then
      if s.ticked then some { s with ticked := false, events := s.events ++ [.summary] } else none
    else
      if s.env.canceled ∨ s.measureCanceled then some { s with measurer := .send } else none
  | .send => some { s with measurer := .ended, measureCh := true }
  | .ended => none
  | .crashed => none

def eventsOf (i : Fin n) (pc : PC) : List (Event n) :=
  match pc with
  | .operation => [.operation i]
  | .cleanup => [.cleanup i]
  | .notStarted | .starting | .spread _ | .test | .count | .throttle | .wait _ | .select | .leave | .ended
  | .crashed => []

def workerStep (s : State n) (i : Fin n) (delay : Int) : Option (State n) :=
  match (cfg.worker i).step s.env (s.goroutine i) delay with
  | some g =>
    some { s with
      goroutine := Function.update s.goroutine i g
      wg := if (s.goroutine i).pc = .leave then s.wg - 1 else s.wg
      events := s.events ++ eventsOf i (s.goroutine i).pc
    }
  | none => none

def step (s : State n) (label : Label n) : Option (State n) :=
  match label with
  | .pass d => some { s with env := { s.env with now := s.env.now + d } }
  | .cancel => if s.env.canceled then none else some { s with env := { s.env with canceled := true } }
  | .tick =>
    if s.measurer = .loop ∧ s.nextTick ≤ s.env.now then
      some { s with ticked := true, nextTick := s.nextTick + seconds cfg.logInterval }
    else
      none
  | .main => cfg.mainStep s
  | .measurer timer => cfg.measurerStep s timer
  | .worker i delay => cfg.workerStep s i delay

end Config

end ClientRun
