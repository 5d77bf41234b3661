import GoYcsb.Lib.AtomicObject
import GoYcsb.Lib.Rpc
import GoYcsb.Lib.Run

/-!
This module contains any number of threads that call programs, whose requests all go to one server. Each request is one
step, and the code that runs between two requests belongs to the step of the first. A server may keep a thread waiting,
and where its answer is not determined a choice comes with the step.
-/

namespace Threads

open AtomicObject

structure System (W C Req : Type) (Answer : Req → Type) (R Choice σ : Type) where
  prog : C → Rpc Req Answer R
  serve : W → (req : Req) → Choice → σ → Option (Answer req × σ)

inductive Thread (C Req : Type) (Answer : Req → Type) (R : Type) where
  | idle
  | busy (call : C) (prog : Rpc Req Answer R)

def Thread.isBusy {C Req : Type} {Answer : Req → Type} {R : Type} (thread : Thread C Req Answer R) : Bool :=
  match thread with
  | .idle => false
  | .busy _ _ => true

structure State (W C Req : Type) (Answer : Req → Type) (R σ : Type) where
  server : σ
  thread : W → Thread C Req Answer R
  history : List (Event W C R)

inductive Label (W C Choice : Type) where
  | invoke (w : W) (call : C)
  | request (w : W) (choice : Choice)
  | respond (w : W)

variable {W C Req : Type} {Answer : Req → Type} {R Choice σ : Type} [DecidableEq W]

def init (server : σ) : State W C Req Answer R σ := ⟨server, fun _ => .idle, []⟩

namespace State

def resume (s : State W C Req Answer R σ) (w : W) (server : σ) (call : C) (prog : Rpc Req Answer R)
    : State W C Req Answer R σ :=
  { s with server, thread := Function.update s.thread w (.busy call prog) }

def invoke (s : State W C Req Answer R σ) (w : W) (call : C) (prog : Rpc Req Answer R) : State W C Req Answer R σ :=
  { s with history := s.history ++ [.invoke w call], thread := Function.update s.thread w (.busy call prog) }

def respond (s : State W C Req Answer R σ) (w : W) (call : C) (res : R) : State W C Req Answer R σ :=
  { s with history := s.history ++ [.respond w call res], thread := Function.update s.thread w .idle }

end State

namespace System

variable (sys : System W C Req Answer R Choice σ)

def step (s : State W C Req Answer R σ) (label : Label W C Choice) : Option (State W C Req Answer R σ) :=
  match label with
  | .invoke w call =>
    match s.thread w with
    | .idle => some (s.invoke w call (sys.prog call))
    | .busy _ _ => none
  | .request w choice =>
    match s.thread w with
    | .busy call (.call req cont) =>
      match sys.serve w req choice s.server with
      | some (answer, server) => some (s.resume w server call (cont answer))
      | none => none
    | .busy _ (.done _) | .idle => none
  | .respond w =>
    match s.thread w with
    | .busy call (.done (.ret res)) => some (s.respond w call res)
    | .busy _ (.done (.panic _)) | .busy _ (.done (.exit _)) | .busy _ (.done .running) | .busy _ (.call _ _) | .idle =>
      none

inductive Takes (s : State W C Req Answer R σ)
    : Label W C Choice → State W C Req Answer R σ → Prop where
  | invoke {w : W} {call : C} : s.thread w = .idle → Takes s (.invoke w call) (s.invoke w call (sys.prog call))
  | request {w : W} {choice : Choice} {call : C} {req : Req} {cont : Answer req → Rpc Req Answer R}
      {answer : Answer req} {server : σ} : s.thread w = .busy call (.call req cont) →
      sys.serve w req choice s.server = some (answer, server) →
      Takes s (.request w choice) (s.resume w server call (cont answer))
  | respond {w : W} {call : C} {res : R} : s.thread w = .busy call (.done (.ret res)) →
      Takes s (.respond w) (s.respond w call res)

variable {sys} {s t : State W C Req Answer R σ} {label : Label W C Choice}

theorem takes_of_step (h : sys.step s label = some t) : sys.Takes s label t := by
  cases label with
  | invoke w call =>
    dsimp only [step] at h
    split at h
    . next hidle =>
      cases h
      exact .invoke hidle
    . contradiction
  | request w choice =>
    dsimp only [step] at h
    split at h
    . next hbusy =>
      split at h
      . next hserve =>
        cases h
        exact .request hbusy hserve
      . contradiction
    . contradiction
    . contradiction
  | respond w =>
    dsimp only [step] at h
    split at h
    . next hbusy =>
      cases h
      exact .respond hbusy
    all_goals contradiction

omit [DecidableEq W] in
def Thread.Returns (thread : Thread C Req Answer R) : Prop :=
  match thread with
  | .idle => True
  | .busy _ prog => prog.Returns

theorem returns_of_run {allowed : State W C Req Answer R σ → Label W C Choice → Prop} {server : σ}
    {labels : List (Label W C Choice)} (hprog : ∀ call, (sys.prog call).Returns)
    (hrun : Run sys.step allowed (init server) labels s) (w : W)
    : Thread.Returns (s.thread w) := by
  revert w
  apply hrun.invariant (I := fun s => ∀ w, Thread.Returns (s.thread w))
  . exact fun _ => trivial
  . intro s label t hreturns _ hstep
    have hupdate : ∀ (w : W) (thread : Thread C Req Answer R), Thread.Returns thread →
        ∀ w', Thread.Returns (Function.update s.thread w thread w') := by
      intro w thread hthread w'
      by_cases heq : w' = w
      . subst heq
        rw [Function.update_self]
        exact hthread
      . rw [Function.update_of_ne heq]
        exact hreturns w'
    cases takes_of_step hstep with
    | invoke hidle => exact hupdate _ _ (hprog _)
    | @request w _ _ _ _ answer _ hbusy hserve =>
      have hw := hreturns w
      rw [hbusy] at hw
      exact hupdate _ _ (hw answer)
    | respond hbusy => exact hupdate _ _ trivial

end System

end Threads
