import GoYcsb.Db.Tikv.Impl.Raw
import GoYcsb.Lib.Run
import Mathlib.Logic.Function.Basic

/-!
This module contains the raw mode driver as any number of threads use it at the same time. Every request
to the store is one step, and the code that runs between two requests belongs to the step of the first. The
return of a call is a step of its own.
-/

namespace Tikv

inductive RawThread where
  | idle (ctx : Option RawDBState)
  -- `seen` is the row that the last `Get` of the call has returned.
  | busy (call : RawDB.Call) (seen : Option Bytes) (prog : Raw (RawDB.Result × Option RawDBState))
  -- The last request has been answered, the caller has not got the result yet.
  | returning (call : RawDB.Call) (res : RawDB.Result) (ctx : Option RawDBState)
  | stopped

namespace RawThread

def isIdle (thread : RawThread) : Bool :=
  match thread with
  | .idle _ => true
  | .busy _ _ _ | .returning _ _ _ | .stopped => false

def result (thread : RawThread) : Option (RawDB.Call × RawDB.Result) :=
  match thread with
  | .returning call res _ => some (call, res)
  | .idle _ | .busy _ _ _ | .stopped => none

end RawThread

structure RawThreads (W : Type) where
  store : KV
  thread : W → RawThread
  returned : List (RawDB.Call × RawDB.Result)

namespace RawRequest

def seen (req : RawRequest) (store : KV) (old : Option Bytes) : Option Bytes :=
  match req with
  | .get key => store.lookup key
  | .batchGet _ | .put _ _ | .batchPut _ _ | .delete _ | .batchDelete _ | .compareAndSwap _ _ _ => old

end RawRequest

namespace RawThreads

inductive Label (W : Type) where
  | call (w : W) (call : RawDB.Call) (orders : Orders)
  | rpc (w : W)
  -- The client reports an error for a request, which may have reached the store nevertheless.
  | fail (w : W) (err : String) (reached : Bool)
  | ret (w : W)

variable {W : Type} [DecidableEq W]

def init (store : KV) (ctx : W → Option RawDBState) : RawThreads W where
  store := store
  thread := fun w => .idle (ctx w)
  returned := []

def goto (s : RawThreads W) (w : W) (thread : RawThread) : RawThreads W :=
  { s with thread := Function.update s.thread w thread }

def resume (s : RawThreads W) (w : W) (call : RawDB.Call) (seen : Option Bytes)
    (prog : Raw (RawDB.Result × Option RawDBState)) : RawThreads W :=
  match prog with
  | .done (.ret (res, ctx)) => s.goto w (.returning call res ctx)
  | .done _ => s.goto w .stopped
  | .call req cont => s.goto w (.busy call seen (.call req cont))

def step (db : RawDB) (s : RawThreads W) (label : Label W) : Option (RawThreads W) :=
  match label with
  | .call w call orders =>
    match s.thread w with
    | .idle ctx => some (s.resume w call none (db.serve orders ctx call))
    | .busy _ _ _ | .returning _ _ _ | .stopped => none
  | .rpc w =>
    match s.thread w with
    | .busy call seen (.call req cont) =>
      let (answer, store) := req.handle s.store
      some ({ s with store }.resume w call (req.seen s.store seen) (cont answer))
    | .busy _ _ (.done _) | .idle _ | .returning _ _ _ | .stopped => none
  | .fail w err reached =>
    match s.thread w with
    | .busy call seen (.call req cont) =>
      let store := if reached then (req.handle s.store).2 else s.store
      some ({ s with store }.resume w call seen (cont (.error err)))
    | .busy _ _ (.done _) | .idle _ | .returning _ _ _ | .stopped => none
  | .ret w =>
    match s.thread w with
    | .returning call res ctx => some ({ s with returned := s.returned ++ [(call, res)] }.goto w (.idle ctx))
    | .idle _ | .busy _ _ _ | .stopped => none

def Quiescent (s : RawThreads W) : Prop := ∀ w, (s.thread w).isIdle = true

end RawThreads

end Tikv
