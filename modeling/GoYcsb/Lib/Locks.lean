import GoYcsb.Lib.Threads
import Mathlib.Data.Finset.Basic

/-!
This module contains cells that are guarded by one read-write lock each. If every program accesses a cell only while it
holds the lock of the cell, then the threads do in every interleaving of their accesses what they do if all that happens
between a lock and its unlock is one step.
-/

namespace Locks

open Threads

inductive Request (ι σ : Type) where
  -- the first part of `Lock`, which keeps new readers out
  | announce (i : ι)
  | lock (i : ι)
  | unlock (i : ι)
  | rLock (i : ι)
  | rUnlock (i : ι)
  | load (i : ι)
  | store (i : ι) (f : σ → σ)

abbrev Request.Answer {ι σ : Type} (req : Request ι σ) : Type :=
  match req with
  | .load _ => σ
  | .announce _ | .lock _ | .unlock _ | .rLock _ | .rUnlock _ | .store _ _ => Unit

abbrev Prog (ι σ R : Type) := Rpc (Request ι σ) Request.Answer R

section

variable {ι σ : Type}

def lock (i : ι) : Prog ι σ Unit := do
  .send (Request.announce i)
  .send (Request.lock i)

def unlock (i : ι) : Prog ι σ Unit := .send (Request.unlock i)

def rLock (i : ι) : Prog ι σ Unit := .send (Request.rLock i)

def rUnlock (i : ι) : Prog ι σ Unit := .send (Request.rUnlock i)

def load (i : ι) : Prog ι σ σ := .send (Request.load i)

def store (i : ι) (f : σ → σ) : Prog ι σ Unit := .send (Request.store i f)

end

structure RWMutex (W : Type) where
  writer : Option W
  -- the writer that waits for the readers to leave
  waiting : Option W
  readers : Finset W

structure Cells (W ι σ : Type) where
  cell : ι → σ
  mutex : ι → RWMutex W

variable {W ι σ C R : Type}

def Cells.new (cell : ι → σ) : Cells W ι σ := ⟨cell, fun _ => ⟨none, none, ∅⟩⟩

section

variable [DecidableEq W] [DecidableEq ι]

def Cells.setMutex (s : Cells W ι σ) (i : ι) (mutex : RWMutex W) : Cells W ι σ :=
  { s with mutex := Function.update s.mutex i mutex }

-- A request is served once the lock permits it. A writer waits for the writer before it, and then for the readers.
def serve (w : W) (req : Request ι σ) (_ : Unit) (s : Cells W ι σ) : Option (req.Answer × Cells W ι σ) :=
  match req with
  | .announce i =>
    if (s.mutex i).writer = none ∧ (s.mutex i).waiting = none then
      some ((), s.setMutex i { s.mutex i with waiting := some w })
    else
      none
  | .lock i =>
    if (s.mutex i).waiting = some w ∧ (s.mutex i).readers = ∅ then
      some ((), s.setMutex i { s.mutex i with writer := some w, waiting := none })
    else
      none
  | .unlock i =>
    if (s.mutex i).writer = some w then
      some ((), s.setMutex i { s.mutex i with writer := none })
    else
      none
  | .rLock i =>
    if (s.mutex i).writer = none ∧ (s.mutex i).waiting = none then
      some ((), s.setMutex i { s.mutex i with readers := insert w (s.mutex i).readers })
    else
      none
  | .rUnlock i =>
    if w ∈ (s.mutex i).readers then
      some ((), s.setMutex i { s.mutex i with readers := (s.mutex i).readers.erase w })
    else
      none
  | .load i => some (s.cell i, s)
  | .store i f => some ((), { s with cell := Function.update s.cell i (f (s.cell i)) })

abbrev State (W ι σ C R : Type) := Threads.State W C (Request ι σ) Request.Answer R (Cells W ι σ)

def system (prog : C → Prog ι σ R) : System W C (Request ι σ) Request.Answer R Unit (Cells W ι σ) := ⟨prog, serve⟩

-- What is left of a program up to its next unlock. A writer that waits has done nothing yet.
def finish (prog : Prog ι σ R) (cell : ι → σ) : Prog ι σ R × (ι → σ) :=
  match prog with
  | .done out => (.done out, cell)
  | .call (.load i) cont => finish (cont (cell i)) cell
  | .call (.store i f) cont => finish (cont ()) (Function.update cell i (f (cell i)))
  | .call (.unlock _) cont => (cont (), cell)
  | .call (.rUnlock _) cont => (cont (), cell)
  | .call (.announce i) cont => (.call (.announce i) cont, cell)
  | .call (.lock i) cont => (.call (.announce i) (fun _ => .call (.lock i) cont), cell)
  | .call (.rLock i) cont => (.call (.rLock i) cont, cell)

def runSection (prog : Prog ι σ R) (cell : ι → σ) : Option (Prog ι σ R × (ι → σ)) :=
  match prog with
  | .call (.announce _) cont =>
    match cont () with
    | .call (.lock _) cont => some (finish (cont ()) cell)
    | .call (.announce _) _ | .call (.rLock _) _ | .call (.unlock _) _ | .call (.rUnlock _) _ | .call (.load _) _
    | .call (.store _ _) _ | .done _ => none
  | .call (.rLock _) cont => some (finish (cont ()) cell)
  | .call (.lock _) _ | .call (.unlock _) _ | .call (.rUnlock _) _ | .call (.load _) _ | .call (.store _ _) _
  | .done _ => none

abbrev AtomicState (W ι σ C R : Type) := Threads.State W C (Request ι σ) Request.Answer R (ι → σ)

/--
A step of the machine that needs no locks, because it runs a section as a whole.
-/
def atomicStep (prog : C → Prog ι σ R) (s : AtomicState W ι σ C R) (label : Label W C Unit)
    : Option (AtomicState W ι σ C R) :=
  match label with
  | .invoke w call =>
    match s.thread w with
    | .idle => some (s.invoke w call (prog call))
    | .busy _ _ => none
  | .request w _ =>
    match s.thread w with
    | .busy call rest =>
      match runSection rest s.server with
      | some (rest, cell) => some (s.resume w cell call rest)
      | none => none
    | .idle => none
  | .respond w =>
    match s.thread w with
    | .busy call (.done (.ret res)) => some (s.respond w call res)
    | .busy _ (.done (.panic _)) | .busy _ (.done (.exit _)) | .busy _ (.done .running) | .busy _ (.call _ _) | .idle =>
      none

inductive AtomicTakes (prog : C → Prog ι σ R) (s : AtomicState W ι σ C R)
    : Label W C Unit → AtomicState W ι σ C R → Prop where
  | invoke {w : W} {call : C} : s.thread w = .idle → AtomicTakes prog s (.invoke w call) (s.invoke w call (prog call))
  | request {w : W} {call : C} {rest rest' : Prog ι σ R} {cell : ι → σ} : s.thread w = .busy call rest →
      runSection rest s.server = some (rest', cell) → AtomicTakes prog s (.request w ()) (s.resume w cell call rest')
  | respond {w : W} {call : C} {res : R} : s.thread w = .busy call (.done (.ret res)) →
      AtomicTakes prog s (.respond w) (s.respond w call res)

theorem atomicTakes_of_step {prog : C → Prog ι σ R} {s t : AtomicState W ι σ C R} {label : Label W C Unit}
    (h : atomicStep prog s label = some t)
    : AtomicTakes prog s label t := by
  cases label with
  | invoke w call =>
    dsimp only [atomicStep] at h
    split at h
    . next hidle =>
      cases h
      exact .invoke hidle
    . contradiction
  | request w choice =>
    dsimp only [atomicStep] at h
    split at h
    . next hbusy =>
      split at h
      . next hsection =>
        cases h
        exact .request hbusy hsection
      . contradiction
    . contradiction
  | respond w =>
    dsimp only [atomicStep] at h
    split at h
    . next hbusy =>
      cases h
      exact .respond hbusy
    all_goals contradiction

end

inductive Mode where
  | read
  | wait
  | write
  deriving DecidableEq, Repr

abbrev Held (ι : Type) := Option (Mode × ι)

/--
A program that has `held` locked, or waits for it, goes on without any other lock, accesses the cell of this lock only,
writes to it only if it may, and unlocks it before it returns or locks again.
-/
def Disciplined (held : Held ι) (prog : Prog ι σ R) : Prop :=
  match prog with
  | .done _ => held = none
  | .call (.announce i) cont => held = none ∧ Disciplined (some (.wait, i)) (cont ())
  | .call (.lock i) cont => held = some (.wait, i) ∧ Disciplined (some (.write, i)) (cont ())
  | .call (.rLock i) cont => held = none ∧ Disciplined (some (.read, i)) (cont ())
  | .call (.unlock i) cont => held = some (.write, i) ∧ Disciplined none (cont ())
  | .call (.rUnlock i) cont => held = some (.read, i) ∧ Disciplined none (cont ())
  | .call (.load i) cont => (held = some (.read, i) ∨ held = some (.write, i)) ∧ ∀ v, Disciplined held (cont v)
  | .call (.store i _) cont => held = some (.write, i) ∧ Disciplined held (cont ())

section

variable [DecidableEq ι]

theorem finish_of_none {prog : Prog ι σ R} (h : Disciplined none prog) (cell : ι → σ)
    : finish prog cell = (prog, cell) := by
  cases prog with
  | done out => rfl
  | call req cont =>
    cases req with
    | announce i => rfl
    | lock i => cases h.1
    | rLock i => rfl
    | unlock i => cases h.1
    | rUnlock i => cases h.1
    | load i => simp [Disciplined] at h
    | store i f => cases h.1

theorem finish_congr {prog : Prog ι σ R} {mode : Mode} {i : ι} {cell cell' : ι → σ}
    (h : Disciplined (some (mode, i)) prog) (heq : cell i = cell' i)
    : (finish prog cell).1 = (finish prog cell').1 ∧ (finish prog cell).2 i = (finish prog cell').2 i := by
  induction prog generalizing cell cell' with
  | done out => cases h
  | call req cont ih =>
    cases req with
    | announce j => cases h.1
    | lock j => exact ⟨rfl, heq⟩
    | rLock j => cases h.1
    | unlock j => exact ⟨rfl, heq⟩
    | rUnlock j => exact ⟨rfl, heq⟩
    | load j =>
      have hj : i = j := by
        rcases h.1 with hheld | hheld
        . cases hheld
          rfl
        . cases hheld
          rfl
      subst hj
      unfold finish
      rw [heq]
      exact ih _ (h.2 _) heq
    | store j f =>
      cases h.1
      unfold finish
      apply ih _ h.2
      rw [Function.update_self, Function.update_self, heq]

theorem finish_of_ne {prog : Prog ι σ R} {mode : Mode} {i j : ι} {cell : ι → σ}
    (h : Disciplined (some (mode, i)) prog) (hne : j ≠ i)
    : (finish prog cell).2 j = cell j := by
  induction prog generalizing cell with
  | done out => cases h
  | call req cont ih =>
    cases req with
    | announce k => cases h.1
    | lock k => rfl
    | rLock k => cases h.1
    | unlock k => rfl
    | rUnlock k => rfl
    | load k => exact ih _ (h.2 _)
    | store k f =>
      cases h.1
      unfold finish
      rw [ih _ h.2, Function.update_of_ne hne]

theorem finish_of_read {prog : Prog ι σ R} {i : ι} (h : Disciplined (some (.read, i)) prog) (cell : ι → σ)
    : (finish prog cell).2 = cell := by
  induction prog with
  | done out => cases h
  | call req cont ih =>
    cases req with
    | announce k => cases h.1
    | lock k => cases h.1
    | rLock k => cases h.1
    | unlock k => cases h.1
    | rUnlock k => rfl
    | load k => exact ih _ (h.2 _)
    | store k f => cases h.1

end

theorem exists_of_wait {prog : Prog ι σ R} {i : ι} (h : Disciplined (some (.wait, i)) prog)
    : ∃ cont, prog = .call (.lock i) cont ∧ Disciplined (some (.write, i)) (cont ()) := by
  cases prog with
  | done out => cases h
  | call req cont =>
    cases req with
    | announce j => cases h.1
    | lock j =>
      cases h.1
      exact ⟨cont, rfl, h.2⟩
    | rLock j => cases h.1
    | unlock j => cases h.1
    | rUnlock j => cases h.1
    | load j => simp [Disciplined] at h
    | store j f => cases h.1

abbrev LockThread (ι σ C R : Type) := Thread C (Request ι σ) Request.Answer R

namespace LockThread

variable [DecidableEq ι] (thread : LockThread ι σ C R)

def finish (cell : ι → σ) : LockThread ι σ C R :=
  match thread with
  | .idle => .idle
  | .busy call prog => .busy call (Locks.finish prog cell).1

def after (cell : ι → σ) : ι → σ :=
  match thread with
  | .idle => cell
  | .busy _ prog => (Locks.finish prog cell).2

omit [DecidableEq ι] in
def Disciplined (held : Held ι) : Prop :=
  match thread with
  | .idle => held = none
  | .busy _ prog => Locks.Disciplined held prog

variable {thread}

theorem finish_congr {held : Held ι} {cell cell' : ι → σ} (h : Disciplined thread held)
    (heq : ∀ mode i, held = some (mode, i) → cell i = cell' i)
    : finish thread cell = finish thread cell' := by
  cases thread with
  | idle => rfl
  | busy call prog =>
    cases held with
    | none =>
      unfold finish
      dsimp only
      rw [finish_of_none h, finish_of_none h]
    | some held =>
      unfold finish
      dsimp only
      rw [(Locks.finish_congr h (heq _ _ rfl)).1]

theorem after_congr {mode : Mode} {i : ι} {cell cell' : ι → σ} (h : Disciplined thread (some (mode, i)))
    (heq : cell i = cell' i)
    : after thread cell i = after thread cell' i := by
  cases thread with
  | idle => cases h
  | busy call prog => exact (Locks.finish_congr h heq).2

end LockThread

/--
The locks as they are if each thread has locked what `held` says. A cell that is locked for writing is not locked by
anybody else.
-/
structure Owns (mutex : ι → RWMutex W) (held : W → Held ι) : Prop where
  writer : ∀ i w, (mutex i).writer = some w ↔ held w = some (.write, i)
  waiting : ∀ i w, (mutex i).waiting = some w ↔ held w = some (.wait, i)
  reader : ∀ i w, w ∈ (mutex i).readers ↔ held w = some (.read, i)
  exclusive : ∀ i, (mutex i).writer ≠ none → (mutex i).waiting = none ∧ (mutex i).readers = ∅

namespace Owns

variable {mutex : ι → RWMutex W} {held : W → Held ι} {w : W} {i : ι}

theorem eq_of_write (h : Owns mutex held) {mode : Mode} {w' : W} (hw : held w = some (.write, i))
    (hw' : held w' = some (mode, i))
    : w' = w := by
  have hwriter := (h.writer i w).mpr hw
  cases mode with
  | write =>
    have hwriter' := (h.writer i w').mpr hw'
    rw [hwriter, Option.some.injEq] at hwriter'
    exact hwriter'.symm
  | wait =>
    have hwaiting := (h.waiting i w').mpr hw'
    rw [(h.exclusive i (by simp [hwriter])).1] at hwaiting
    contradiction
  | read =>
    have hreader := (h.reader i w').mpr hw'
    rw [(h.exclusive i (by simp [hwriter])).2] at hreader
    simp at hreader

theorem writer_of_wait (h : Owns mutex held) (hheld : held w = some (.wait, i)) : (mutex i).writer = none := by
  by_contra hwriter
  have hwaiting := (h.waiting i w).mpr hheld
  rw [(h.exclusive i hwriter).1] at hwaiting
  contradiction

variable [DecidableEq W] [DecidableEq ι]

theorem announce (h : Owns mutex held) (hheld : held w = none) (hwriter : (mutex i).writer = none)
    (hwaiting : (mutex i).waiting = none)
    : Owns (Function.update mutex i { mutex i with waiting := some w }) (Function.update held w (some (.wait, i))) := by
  have hw := h.writer
  have hp := h.waiting
  have hr := h.reader
  have he := h.exclusive
  refine ⟨?_, ?_, ?_, ?_⟩ <;> grind [Function.update_apply]

theorem lock (h : Owns mutex held) (hheld : held w = some (.wait, i)) (hreaders : (mutex i).readers = ∅)
    : Owns (Function.update mutex i { mutex i with writer := some w, waiting := none })
        (Function.update held w (some (.write, i))) := by
  have hw := h.writer
  have hp := h.waiting
  have hr := h.reader
  have he := h.exclusive
  have hnone := h.writer_of_wait hheld
  refine ⟨?_, ?_, ?_, ?_⟩ <;> grind [Function.update_apply]

theorem unlock (h : Owns mutex held) (hheld : held w = some (.write, i))
    : Owns (Function.update mutex i { mutex i with writer := none }) (Function.update held w none) := by
  have hw := h.writer
  have hp := h.waiting
  have hr := h.reader
  have he := h.exclusive
  have honly : ∀ w', held w' = some (.write, i) → w' = w := fun w' => h.eq_of_write hheld
  refine ⟨?_, ?_, ?_, ?_⟩ <;> grind [Function.update_apply]

theorem rLock (h : Owns mutex held) (hheld : held w = none) (hwriter : (mutex i).writer = none)
    : Owns (Function.update mutex i { mutex i with readers := insert w (mutex i).readers })
        (Function.update held w (some (.read, i))) := by
  have hw := h.writer
  have hp := h.waiting
  have hr := h.reader
  have he := h.exclusive
  refine ⟨?_, ?_, ?_, ?_⟩ <;> grind [Function.update_apply]

theorem rUnlock (h : Owns mutex held) (hheld : held w = some (.read, i))
    : Owns (Function.update mutex i { mutex i with readers := (mutex i).readers.erase w })
        (Function.update held w none) := by
  have hw := h.writer
  have hp := h.waiting
  have hr := h.reader
  have he := h.exclusive
  refine ⟨?_, ?_, ?_, ?_⟩ <;> grind [Function.update_apply]

end Owns

variable [DecidableEq ι]

/--
The state in which every thread has already run its section to the end.
-/
def abstract (s : State W ι σ C R) : AtomicState W ι σ C R where
  server := fun i =>
    match (s.server.mutex i).writer with
    | none => s.server.cell i
    | some w => LockThread.after (s.thread w) s.server.cell i
  thread := fun w => LockThread.finish (s.thread w) s.server.cell
  history := s.history

section

variable {s : State W ι σ C R} {i : ι}

theorem abstract_server_of_none (h : (s.server.mutex i).writer = none)
    : (abstract s).server i = s.server.cell i := by
  unfold abstract
  dsimp only
  rw [h]

theorem abstract_server_of_some {w : W} (h : (s.server.mutex i).writer = some w)
    : (abstract s).server i = LockThread.after (s.thread w) s.server.cell i := by
  unfold abstract
  dsimp only
  rw [h]

end

structure Inv (s : State W ι σ C R) (held : W → Held ι) : Prop where
  disciplined : ∀ w, LockThread.Disciplined (s.thread w) (held w)
  owns : Owns s.server.mutex held

variable [DecidableEq W] {s t : State W ι σ C R} {held : W → Held ι} {w : W} {i : ι} {call : C}
  {prog : C → Prog ι σ R}

omit [DecidableEq ι] in
theorem Inv.disciplined_update (h : Inv s held) {thread : LockThread ι σ C R} {held' : Held ι}
    (hthread : LockThread.Disciplined thread held') (w' : W)
    : LockThread.Disciplined (Function.update s.thread w thread w') (Function.update held w held' w') := by
  by_cases heq : w' = w
  . subst heq
    rw [Function.update_self, Function.update_self]
    exact hthread
  . rw [Function.update_of_ne heq, Function.update_of_ne heq]
    exact h.disciplined w'

omit [DecidableEq ι] in
theorem Inv.disciplined_keep (h : Inv s held) {thread : LockThread ι σ C R}
    (hthread : LockThread.Disciplined thread (held w)) (w' : W)
    : LockThread.Disciplined (Function.update s.thread w thread w') (held w') := by
  have hupdate := h.disciplined_update (w := w) hthread w'
  rw [Function.update_eq_self] at hupdate
  exact hupdate

omit [DecidableEq ι] [DecidableEq W] in
theorem Inv.busy (h : Inv s held) {prog : Prog ι σ R} (hthread : s.thread w = .busy call prog)
    : Disciplined (held w) prog := by
  have hw := h.disciplined w
  rw [hthread] at hw
  exact hw

theorem abstract_thread_update {cell : ι → σ} {thread : LockThread ι σ C R} {mutex : ι → RWMutex W}
    {history : List (AtomicObject.Event W C R)} (h : Inv s held)
    (hcell : ∀ w', w' ≠ w → ∀ mode j, held w' = some (mode, j) → cell j = s.server.cell j)
    : (abstract ⟨⟨cell, mutex⟩, Function.update s.thread w thread, history⟩).thread
        =
      Function.update (abstract s).thread w (LockThread.finish thread cell) := by
  funext w'
  unfold abstract
  dsimp only
  by_cases heq : w' = w
  . subst heq
    rw [Function.update_self, Function.update_self]
  . rw [Function.update_of_ne heq, Function.update_of_ne heq]
    exact LockThread.finish_congr (h.disciplined w') (hcell w' heq)

theorem abstract_server_eq {cell : ι → σ} {thread : LockThread ι σ C R} {mutex : ι → RWMutex W}
    {history : List (AtomicObject.Event W C R)} (h : Inv s held) (hmutex : (mutex i).writer = (s.server.mutex i).writer)
    (hcell : cell i = s.server.cell i) (hw : (s.server.mutex i).writer ≠ some w)
    : (abstract ⟨⟨cell, mutex⟩, Function.update s.thread w thread, history⟩).server i = (abstract s).server i := by
  cases hwriter : (s.server.mutex i).writer with
  | none =>
    rw [hwriter] at hmutex
    rw [abstract_server_of_none hmutex, abstract_server_of_none hwriter]
    exact hcell
  | some w' =>
    have hne : w' ≠ w := by
      rintro rfl
      exact hw hwriter
    rw [hwriter] at hmutex
    rw [abstract_server_of_some hmutex, abstract_server_of_some hwriter]
    dsimp only
    rw [Function.update_of_ne hne]
    have hdisciplined := h.disciplined w'
    rw [(h.owns.writer i w').mp hwriter] at hdisciplined
    exact LockThread.after_congr hdisciplined hcell

theorem abstract_server_self {cell : ι → σ} {thread : LockThread ι σ C R} {mutex : ι → RWMutex W}
    {history : List (AtomicObject.Event W C R)} (hwriter : (mutex i).writer = some w)
    : (abstract ⟨⟨cell, mutex⟩, Function.update s.thread w thread, history⟩).server i
        =
      LockThread.after thread cell i := by
  rw [abstract_server_of_some hwriter]
  dsimp only
  rw [Function.update_self]

theorem abstract_eq {cell : ι → σ} {thread : LockThread ι σ C R} {mutex : ι → RWMutex W}
    {history : List (AtomicObject.Event W C R)} (h : Inv s held) (server : ι → σ)
    (hcell : ∀ w', w' ≠ w → ∀ mode j, held w' = some (mode, j) → cell j = s.server.cell j)
    (hserver : ∀ j, (abstract ⟨⟨cell, mutex⟩, Function.update s.thread w thread, history⟩).server j = server j)
    : abstract ⟨⟨cell, mutex⟩, Function.update s.thread w thread, history⟩
        =
      ⟨server, Function.update (abstract s).thread w (LockThread.finish thread cell), history⟩ := by
  rw [← abstract_thread_update h hcell, ← funext hserver]
  rfl

omit [DecidableEq ι] [DecidableEq W] in
theorem Inv.writer_ne (h : Inv s held) (hheld : held w ≠ some (.write, i)) : (s.server.mutex i).writer ≠ some w := by
  intro hwriter
  exact hheld ((h.owns.writer i w).mp hwriter)

omit [DecidableEq W] in
theorem abstract_thread {thread : LockThread ι σ C R} (hthread : s.thread w = thread)
    : (abstract s).thread w = LockThread.finish thread s.server.cell := by
  rw [← hthread]
  rfl

theorem Inv.lock (h : Inv s held) (prog : C → Prog ι σ R) {cont : Unit → Prog ι σ R}
    (hthread : s.thread w = .busy call (.call (.lock i) cont)) (hreaders : (s.server.mutex i).readers = ∅)
    {t : State W ι σ C R}
    (ht : t = s.resume w (s.server.setMutex i { s.server.mutex i with writer := some w, waiting := none }) call
      (cont ()))
    : Inv t (Function.update held w (some (.write, i)))
        ∧
      atomicStep prog (abstract s) (.request w ()) = some (abstract t) := by
  subst ht
  have hbusy := h.busy hthread
  have hwriter := h.owns.writer_of_wait hbusy.1
  have hseen : s.server.cell i = (abstract s).server i := (abstract_server_of_none hwriter).symm
  have hfinish := finish_congr hbusy.2 hseen
  refine ⟨⟨h.disciplined_update hbusy.2, h.owns.lock hbusy.1 hreaders⟩, ?_⟩
  unfold atomicStep
  dsimp only
  rw [abstract_thread hthread]
  dsimp only [LockThread.finish, finish, runSection]
  rw [← hfinish.1]
  unfold State.resume Cells.setMutex
  rw [abstract_eq h (finish (cont ()) (abstract s).server).2]
  . rfl
  . intro w' _ mode j _
    rfl
  . intro j
    by_cases hj : j = i
    . subst hj
      rw [abstract_server_self (by simp)]
      exact hfinish.2
    . rw [abstract_server_eq h, finish_of_ne hbusy.2 hj]
      . rw [Function.update_of_ne hj]
      . rfl
      . exact h.writer_ne (by simp [hbusy.1])

theorem Inv.rLock (h : Inv s held) (prog : C → Prog ι σ R) {cont : Unit → Prog ι σ R}
    (hthread : s.thread w = .busy call (.call (.rLock i) cont)) (hwriter : (s.server.mutex i).writer = none)
    {t : State W ι σ C R}
    (ht : t = s.resume w (s.server.setMutex i { s.server.mutex i with readers := insert w (s.server.mutex i).readers })
      call (cont ()))
    : Inv t (Function.update held w (some (.read, i)))
        ∧
      atomicStep prog (abstract s) (.request w ()) = some (abstract t) := by
  subst ht
  have hbusy := h.busy hthread
  have hseen : s.server.cell i = (abstract s).server i := (abstract_server_of_none hwriter).symm
  have hfinish := finish_congr hbusy.2 hseen
  refine ⟨⟨h.disciplined_update hbusy.2, h.owns.rLock hbusy.1 hwriter⟩, ?_⟩
  unfold atomicStep
  dsimp only
  rw [abstract_thread hthread]
  dsimp only [LockThread.finish, finish, runSection]
  rw [← hfinish.1, finish_of_read hbusy.2]
  unfold State.resume Cells.setMutex
  rw [abstract_eq h (abstract s).server]
  . rfl
  . intro w' _ mode j _
    rfl
  . intro j
    rw [abstract_server_eq h]
    . by_cases hj : j = i
      . subst hj
        rw [Function.update_self]
      . rw [Function.update_of_ne hj]
    . rfl
    . exact h.writer_ne (by simp [hbusy.1])

theorem Inv.silent (h : Inv s held) {prog' : Prog ι σ R} {req : Request ι σ} {cont : req.Answer → Prog ι σ R}
    {cell : ι → σ} {mutex : ι → RWMutex W} (hthread : s.thread w = .busy call (.call req cont))
    (hcell : ∀ w', w' ≠ w → ∀ mode j, held w' = some (mode, j) → cell j = s.server.cell j)
    (hfinish : (finish prog' cell).1 = (finish (.call req cont) s.server.cell).1)
    (hserver : ∀ j, (abstract (s.resume w ⟨cell, mutex⟩ call prog')).server j = (abstract s).server j)
    : abstract (s.resume w ⟨cell, mutex⟩ call prog') = abstract s := by
  unfold State.resume
  rw [abstract_eq h _ hcell hserver]
  dsimp only [LockThread.finish]
  have hsame : (abstract s).thread w = .busy call (finish prog' cell).1 := by
    rw [hfinish]
    exact abstract_thread hthread
  rw [← hsame, Function.update_eq_self]
  rfl

theorem Inv.announce (h : Inv s held) {cont : Unit → Prog ι σ R}
    (hthread : s.thread w = .busy call (.call (.announce i) cont)) (hwriter : (s.server.mutex i).writer = none)
    (hwaiting : (s.server.mutex i).waiting = none) {t : State W ι σ C R}
    (ht : t = s.resume w (s.server.setMutex i { s.server.mutex i with waiting := some w }) call (cont ()))
    : Inv t (Function.update held w (some (.wait, i))) ∧ abstract t = abstract s := by
  subst ht
  have hbusy := h.busy hthread
  rcases exists_of_wait hbusy.2 with ⟨cont', hcont, _⟩
  refine ⟨⟨h.disciplined_update hbusy.2, h.owns.announce hbusy.1 hwriter hwaiting⟩, ?_⟩
  unfold Cells.setMutex
  apply h.silent hthread
  . intro w' _ mode j _
    rfl
  . have hsame : (fun _ => .call (.lock i) cont') = cont := by
      funext _
      exact hcont.symm
    rw [hcont]
    dsimp only [finish]
    rw [hsame]
  . intro j
    apply abstract_server_eq h
    . by_cases hj : j = i
      . subst hj
        rw [Function.update_self]
      . rw [Function.update_of_ne hj]
    . rfl
    . exact h.writer_ne (by simp [hbusy.1])

theorem Inv.unlock (h : Inv s held) {cont : Unit → Prog ι σ R}
    (hthread : s.thread w = .busy call (.call (.unlock i) cont)) {t : State W ι σ C R}
    (ht : t = s.resume w (s.server.setMutex i { s.server.mutex i with writer := none }) call (cont ()))
    : Inv t (Function.update held w none) ∧ abstract t = abstract s := by
  subst ht
  have hbusy := h.busy hthread
  have hwriter := (h.owns.writer i w).mpr hbusy.1
  refine ⟨⟨h.disciplined_update hbusy.2, h.owns.unlock hbusy.1⟩, ?_⟩
  unfold Cells.setMutex
  apply h.silent hthread
  . intro w' _ mode j _
    rfl
  . rw [finish_of_none hbusy.2]
    rfl
  . intro j
    by_cases hj : j = i
    . subst hj
      rw [abstract_server_of_none (by simp [State.resume]), abstract_server_of_some hwriter, hthread]
      rfl
    . apply abstract_server_eq h
      . rw [Function.update_of_ne hj]
      . rfl
      . apply h.writer_ne
        simp [hbusy.1, Ne.symm hj]

theorem Inv.rUnlock (h : Inv s held) {cont : Unit → Prog ι σ R}
    (hthread : s.thread w = .busy call (.call (.rUnlock i) cont)) {t : State W ι σ C R}
    (ht : t = s.resume w (s.server.setMutex i { s.server.mutex i with readers := (s.server.mutex i).readers.erase w })
      call (cont ()))
    : Inv t (Function.update held w none) ∧ abstract t = abstract s := by
  subst ht
  have hbusy := h.busy hthread
  refine ⟨⟨h.disciplined_update hbusy.2, h.owns.rUnlock hbusy.1⟩, ?_⟩
  unfold Cells.setMutex
  apply h.silent hthread
  . intro w' _ mode j _
    rfl
  . rw [finish_of_none hbusy.2]
    rfl
  . intro j
    apply abstract_server_eq h
    . by_cases hj : j = i
      . subst hj
        rw [Function.update_self]
      . rw [Function.update_of_ne hj]
    . rfl
    . exact h.writer_ne (by simp [hbusy.1])

theorem Inv.load (h : Inv s held) {cont : σ → Prog ι σ R} (hthread : s.thread w = .busy call (.call (.load i) cont))
    {t : State W ι σ C R} (ht : t = s.resume w s.server call (cont (s.server.cell i)))
    : Inv t held ∧ abstract t = abstract s := by
  subst ht
  have hbusy := h.busy hthread
  have hdisciplined : LockThread.Disciplined (.busy call (cont (s.server.cell i))) (held w) := hbusy.2 _
  refine ⟨⟨h.disciplined_keep hdisciplined, h.owns⟩, ?_⟩
  apply h.silent hthread
  . intro w' _ mode j _
    rfl
  . rfl
  . intro j
    by_cases hwriter : (s.server.mutex j).writer = some w
    . rw [abstract_server_of_some hwriter, hthread]
      exact abstract_server_self hwriter
    . exact abstract_server_eq h rfl rfl hwriter

theorem Inv.store (h : Inv s held) {cont : Unit → Prog ι σ R} {f : σ → σ}
    (hthread : s.thread w = .busy call (.call (.store i f) cont)) {t : State W ι σ C R}
    (ht : t = s.resume w { s.server with cell := Function.update s.server.cell i (f (s.server.cell i)) } call (cont ()))
    : Inv t held ∧ abstract t = abstract s := by
  subst ht
  have hbusy := h.busy hthread
  have hdisciplined : LockThread.Disciplined (.busy call (cont ())) (held w) := hbusy.2
  refine ⟨⟨h.disciplined_keep hdisciplined, h.owns⟩, ?_⟩
  apply h.silent hthread
  . intro w' hne mode j hheld
    apply Function.update_of_ne
    rintro rfl
    exact hne (h.owns.eq_of_write hbusy.1 hheld)
  . rfl
  . intro j
    by_cases hj : j = i
    . subst hj
      have hwriter := (h.owns.writer j w).mpr hbusy.1
      rw [abstract_server_of_some hwriter, hthread]
      exact abstract_server_self hwriter
    . apply abstract_server_eq h rfl
      . exact Function.update_of_ne hj _ _
      . apply h.writer_ne
        simp [hbusy.1, Ne.symm hj]

theorem Inv.outside (h : Inv s held) (thread : LockThread ι σ C R) {history : List (AtomicObject.Event W C R)}
    (hheld : held w = none) (hthread : LockThread.Disciplined thread none) {t : State W ι σ C R}
    (ht : t = ⟨s.server, Function.update s.thread w thread, history⟩)
    : Inv t held ∧ abstract t = ⟨(abstract s).server, Function.update (abstract s).thread w thread, history⟩ := by
  subst ht
  refine ⟨⟨?_, h.owns⟩, ?_⟩
  . rw [← hheld] at hthread
    exact h.disciplined_keep hthread
  . have hfinish : LockThread.finish thread s.server.cell = thread := by
      cases thread with
      | idle => rfl
      | busy call prog =>
        unfold LockThread.finish
        dsimp only
        rw [finish_of_none hthread]
    rw [abstract_eq h (abstract s).server, hfinish]
    . intro w' _ mode j _
      rfl
    . intro j
      apply abstract_server_eq h rfl rfl
      exact h.writer_ne (by simp [hheld])

omit [DecidableEq ι] [DecidableEq W] in
theorem Inv.idle (h : Inv s held) (hthread : s.thread w = .idle) : held w = none := by
  have hw := h.disciplined w
  rw [hthread] at hw
  exact hw

/--
Each step is one of the machine that runs whole sections, or it is nothing there.
-/
theorem Inv.step (hprog : ∀ call, Disciplined none (prog call)) (h : Inv s held) {label : Label W C Unit}
    (hstep : (system prog).Takes s label t)
    : ∃ held',
        Inv t held'
          ∧
        (atomicStep prog (abstract s) label = some (abstract t) ∨ abstract t = abstract s) := by
  cases hstep with
  | @invoke w call hidle =>
    have hheld := h.idle hidle
    rcases h.outside (.busy call (prog call)) hheld (hprog call) rfl with ⟨hinv, habstract⟩
    refine ⟨held, hinv, .inl ?_⟩
    have hthread := abstract_thread hidle
    unfold atomicStep
    dsimp only
    rw [hthread]
    exact congrArg some habstract.symm
  | @respond w call res hbusy =>
    have hheld : held w = none := h.busy hbusy
    rcases h.outside .idle hheld rfl rfl with ⟨hinv, habstract⟩
    refine ⟨held, hinv, .inl ?_⟩
    have hthread := abstract_thread hbusy
    unfold atomicStep
    dsimp only
    rw [hthread]
    exact congrArg some habstract.symm
  | @request w choice call req cont answer server hbusy hserve =>
    dsimp only [system] at hserve
    cases req with
    | announce i =>
      dsimp only [serve] at hserve
      split at hserve
      . next hfree =>
        cases hserve
        rcases h.announce hbusy hfree.1 hfree.2 rfl with ⟨hinv, hsame⟩
        exact ⟨_, hinv, .inr hsame⟩
      . contradiction
    | lock i =>
      dsimp only [serve] at hserve
      split at hserve
      . next hfree =>
        cases hserve
        rcases h.lock prog hbusy hfree.2 rfl with ⟨hinv, hstep⟩
        exact ⟨_, hinv, .inl hstep⟩
      . contradiction
    | rLock i =>
      dsimp only [serve] at hserve
      split at hserve
      . next hfree =>
        cases hserve
        rcases h.rLock prog hbusy hfree.1 rfl with ⟨hinv, hstep⟩
        exact ⟨_, hinv, .inl hstep⟩
      . contradiction
    | unlock i =>
      dsimp only [serve] at hserve
      split at hserve
      . cases hserve
        rcases h.unlock hbusy rfl with ⟨hinv, hsame⟩
        exact ⟨_, hinv, .inr hsame⟩
      . contradiction
    | rUnlock i =>
      dsimp only [serve] at hserve
      split at hserve
      . cases hserve
        rcases h.rUnlock hbusy rfl with ⟨hinv, hsame⟩
        exact ⟨_, hinv, .inr hsame⟩
      . contradiction
    | load i =>
      cases hserve
      rcases h.load hbusy rfl with ⟨hinv, hsame⟩
      exact ⟨_, hinv, .inr hsame⟩
    | store i f =>
      cases hserve
      rcases h.store hbusy rfl with ⟨hinv, hsame⟩
      exact ⟨_, hinv, .inr hsame⟩

omit [DecidableEq ι] [DecidableEq W] in
theorem inv_init (cell : ι → σ) : Inv (W := W) (C := C) (R := R) (init (.new cell)) (fun _ => none) where
  disciplined := fun _ => rfl
  owns :=
    {
      writer := by simp [init, Cells.new]
      waiting := by simp [init, Cells.new]
      reader := by simp [init, Cells.new]
      exclusive := by simp [init, Cells.new]
    }

theorem exists_inv {allowed : State W ι σ C R → Label W C Unit → Prop} (hprog : ∀ call, Disciplined none (prog call))
    {cell : ι → σ} {labels : List (Label W C Unit)}
    (hrun : Run (system prog).step allowed (init (.new cell)) labels s)
    : ∃ held, Inv s held := by
  apply hrun.invariant (I := fun s => ∃ held, Inv s held)
  . exact ⟨_, inv_init cell⟩
  . intro s label t hinv _ htake
    rcases hinv with ⟨held, hinv⟩
    rcases hinv.step hprog (System.takes_of_step htake) with ⟨held', hinv', _⟩
    exact ⟨held', hinv'⟩

/--
Every interleaving of the accesses is an interleaving of whole sections.
-/
theorem run_abstract {allowed : State W ι σ C R → Label W C Unit → Prop}
    (allowed' : AtomicState W ι σ C R → Label W C Unit → Prop) (hprog : ∀ call, Disciplined none (prog call))
    (hallowed : ∀ s label, allowed s label → allowed' (abstract s) label) {cell : ι → σ}
    {labels : List (Label W C Unit)}
    (hrun : Run (system prog).step allowed (init (.new cell)) labels s)
    : ∃ labels', Run (atomicStep prog) allowed' (init cell) labels' (abstract s) := by
  have hinv : ∃ held labels', Inv s held ∧ Run (atomicStep prog) allowed' (init cell) labels' (abstract s) := by
    induction hrun with
    | nil => exact ⟨fun _ => none, [], inv_init cell, .nil⟩
    | @snoc _ s t label _ hlabel htake ih =>
      rcases ih with ⟨held, labels', hinv, hrun'⟩
      rcases hinv.step hprog (System.takes_of_step htake) with ⟨held', hinv', hstep⟩
      cases hstep with
      | inl hstep => exact ⟨held', labels' ++ [label], hinv', hrun'.snoc (hallowed _ _ hlabel) hstep⟩
      | inr hsame =>
        rw [hsame]
        exact ⟨held', labels', hinv', hrun'⟩
  rcases hinv with ⟨held, labels', _, hrun'⟩
  exact ⟨labels', hrun'⟩

theorem exists_step_of_serve {rest : Prog ι σ R} {req : Request ι σ} {cont : req.Answer → Prog ι σ R}
    (prog : C → Prog ι σ R) (hthread : s.thread w = .busy call rest) (hrest : rest = .call req cont)
    {answer : req.Answer} {server : Cells W ι σ} (hserve : serve w req () s.server = some (answer, server))
    : ∃ t, (system prog).step s (.request w ()) = some t := by
  refine ⟨s.resume w server call (cont answer), ?_⟩
  dsimp only [System.step, system]
  rw [hthread, hrest]
  dsimp only
  rw [hserve]

theorem Inv.exists_step_of_held (h : Inv s held) (prog : C → Prog ι σ R) {mode : Mode} (hmode : mode ≠ .wait)
    (hheld : held w = some (mode, i))
    : ∃ t, (system prog).step s (.request w ()) = some t := by
  cases hthread : s.thread w with
  | idle =>
    rw [h.idle hthread] at hheld
    contradiction
  | busy call rest =>
    have hbusy := h.busy hthread
    rw [hheld] at hbusy
    cases rest with
    | done out => cases hbusy
    | call req cont =>
      cases req with
      | announce j => cases hbusy.1
      | lock j =>
        cases hbusy.1
        contradiction
      | rLock j => cases hbusy.1
      | unlock j =>
        cases hbusy.1
        exact exists_step_of_serve prog hthread rfl (if_pos ((h.owns.writer i w).mpr hheld))
      | rUnlock j =>
        cases hbusy.1
        exact exists_step_of_serve prog hthread rfl (if_pos ((h.owns.reader i w).mpr hheld))
      | load j => exact exists_step_of_serve prog hthread rfl rfl
      | store j f => exact exists_step_of_serve prog hthread rfl rfl

-- A writer that waits for the readers waits for one that can go on, and goes on itself once they have left.
theorem Inv.exists_step_of_wait (h : Inv s held) (prog : C → Prog ι σ R) (hheld : held w = some (.wait, i))
    : ∃ w' t, (system prog).step s (.request w' ()) = some t := by
  by_cases hreaders : (s.server.mutex i).readers = ∅
  . cases hthread : s.thread w with
    | idle =>
      rw [h.idle hthread] at hheld
      contradiction
    | busy call rest =>
      have hbusy := h.busy hthread
      rw [hheld] at hbusy
      rcases exists_of_wait hbusy with ⟨cont, hrest, _⟩
      exact ⟨w, exists_step_of_serve prog hthread hrest (if_pos ⟨(h.owns.waiting i w).mpr hheld, hreaders⟩)⟩
  . rcases Finset.nonempty_iff_ne_empty.mpr hreaders with ⟨w', hw'⟩
    exact ⟨w', h.exists_step_of_held prog Mode.noConfusion ((h.owns.reader i w').mp hw')⟩

theorem Inv.exists_step (h : Inv s held) (prog : C → Prog ι σ R) {req : Request ι σ} {cont : req.Answer → Prog ι σ R}
    (hthread : s.thread w = .busy call (.call req cont))
    : ∃ w' t, (system prog).step s (.request w' ()) = some t := by
  have hbusy := h.busy hthread
  have hholder : ∀ w' mode j, held w' = some (mode, j) → ∃ w' t, (system prog).step s (.request w' ()) = some t := by
    intro w' mode j hheld
    by_cases hmode : mode = .wait
    . rw [hmode] at hheld
      exact h.exists_step_of_wait prog hheld
    . exact ⟨w', h.exists_step_of_held prog hmode hheld⟩
  -- the lock is free, or a writer has it, or one waits for it
  have hblocked : ∀ i, ¬ ((s.server.mutex i).writer = none ∧ (s.server.mutex i).waiting = none) →
      ∃ w' t, (system prog).step s (.request w' ()) = some t := by
    intro i hnot
    cases hwriter : (s.server.mutex i).writer with
    | some w' => exact hholder w' _ _ ((h.owns.writer i w').mp hwriter)
    | none =>
      cases hwaiting : (s.server.mutex i).waiting with
      | some w' => exact hholder w' _ _ ((h.owns.waiting i w').mp hwaiting)
      | none => exact absurd ⟨hwriter, hwaiting⟩ hnot
  cases req with
  | announce i =>
    by_cases hfree : (s.server.mutex i).writer = none ∧ (s.server.mutex i).waiting = none
    . exact ⟨w, exists_step_of_serve prog hthread rfl (if_pos hfree)⟩
    . exact hblocked i hfree
  | rLock i =>
    by_cases hfree : (s.server.mutex i).writer = none ∧ (s.server.mutex i).waiting = none
    . exact ⟨w, exists_step_of_serve prog hthread rfl (if_pos hfree)⟩
    . exact hblocked i hfree
  | lock i => exact hholder w _ _ hbusy.1
  | unlock i => exact hholder w _ _ hbusy.1
  | rUnlock i => exact hholder w _ _ hbusy.1
  | load i =>
    rcases hbusy.1 with hheld | hheld
    . exact hholder w _ _ hheld
    . exact hholder w _ _ hheld
  | store i f => exact hholder w _ _ hbusy.1

end Locks
