import GoYcsb.Lib.Bytes
import GoYcsb.Lib.GoMap
import GoYcsb.Lib.Rpc
import GoYcsb.Lib.Run
import Mathlib.Logic.Function.Basic

/-!
This module contains `Update` of `db/aerospike/db.go`, together with any number of clients that update a record at the
same time. `Get` and `Put` are one step each.
-/

namespace Aerospike

abbrev BinMap := GoMap Bytes Bytes

structure Key where
  ns : Bytes
  table : Bytes
  key : Bytes
  deriving DecidableEq, Repr

structure Record where
  bins : BinMap
  generation : Nat

inductive GenerationPolicy where
  | none
  | expectGenEqual
  deriving DecidableEq, Repr

structure WritePolicy where
  generationPolicy : GenerationPolicy
  generation : Nat

abbrev Store := GoMap Key Record

inductive Request where
  | get (key : Key)
  | put (policy : Option WritePolicy) (key : Key) (bins : BinMap)

namespace Request

abbrev Answer (req : Request) : Type :=
  match req with
  | .get _ => Except String (Option Record)
  | .put _ _ _ => Option String

def write (store : Store) (key : Key) (bins : BinMap) : Store :=
  match store.lookup key with
  | some record => store.insert key ⟨record.bins.merge bins, record.generation + 1⟩
  | none => store.insert key ⟨bins, 1⟩

def generation (store : Store) (key : Key) : Nat := ((store.lookup key).map Record.generation).getD 0

def handle (req : Request) (store : Store) : req.Answer × Store :=
  match req with
  | .get key => (.ok (store.lookup key), store)
  | .put policy key bins =>
    match policy with
    | none => (none, write store key bins)
    | some policy =>
      match policy.generationPolicy with
      | .none => (none, write store key bins)
      | .expectGenEqual =>
        if policy.generation = generation store key then
          (none, write store key bins)
        else
          (some "Generation error", store)

-- The client reports an error for a request that has not reached the server.
def failed (req : Request) (err : String) : req.Answer :=
  match req with
  | .get _ => .error err
  | .put _ _ _ => some err

def seen (req : Request) (store : Store) (old : Option Record) : Option Record :=
  match req with
  | .get key => store.lookup key
  | .put _ _ _ => old

end Request

abbrev Prog := Rpc Request Request.Answer

def get (key : Key) : Prog (Except String (Option Record)) := .send (Request.get key)

def put (policy : Option WritePolicy) (key : Key) (bins : BinMap) : Prog (Option String) :=
  .send (Request.put policy key bins)

def update (order : GoMap.Order Bytes Bytes) (key : Key) (values : BinMap) : Prog (Option String) := do
  match ← get key with
  | .error err => return some err
  | .ok record =>
    let policy : Option WritePolicy := none
    let bins : BinMap :=
      match record with
      | some record =>
        -- `policy :=` declares another variable, which nobody reads.
        let _policy : WritePolicy := { generationPolicy := .expectGenEqual, generation := record.generation }
        record.bins
      | none => ∅
    put policy key (bins.merge (order.visit values))

inductive Client where
  | idle
  -- `seen` is the record that `Get` has returned.
  | busy (values : BinMap) (seen : Option Record) (prog : Prog (Option String))
  | stopped

structure Returned where
  values : BinMap
  err : Option String
  changed : Bool

structure Clients (W : Type) where
  store : Store
  client : W → Client
  returned : List Returned

namespace Clients

inductive Label (W : Type) where
  | update (w : W) (values : BinMap) (order : GoMap.Order Bytes Bytes)
  | rpc (w : W)
  | fail (w : W) (err : String)

variable {W : Type} [DecidableEq W]

def init (store : Store) : Clients W where
  store := store
  client := fun _ => .idle
  returned := []

def goto (s : Clients W) (w : W) (client : Client) : Clients W :=
  { s with client := Function.update s.client w client }

def resume (s : Clients W) (w : W) (values : BinMap) (seen : Option Record) (changed : Bool)
    (prog : Prog (Option String)) : Clients W :=
  match prog with
  | .done (.ret err) => { s with returned := s.returned ++ [Returned.mk values err changed] }.goto w .idle
  | .done (.panic _) | .done (.exit _) | .done .running => s.goto w .stopped
  | .call req cont => s.goto w (.busy values seen (.call req cont))

def isStale (key : Key) (seen : Option Record) (req : Request) (store : Store) : Bool :=
  match req with
  | .get _ => false
  | .put _ _ _ => (seen.map Record.generation).getD 0 ≠ Request.generation store key

def step (key : Key) (s : Clients W) (label : Label W) : Option (Clients W) :=
  match label with
  | .update w values order =>
    match s.client w with
    | .idle => some (s.resume w values none false (Aerospike.update order key values))
    | .busy _ _ _ | .stopped => none
  | .rpc w =>
    match s.client w with
    | .busy values seen (.call req cont) =>
      let r := req.handle s.store
      some ({ s with store := r.2 }.resume w values (req.seen s.store seen) (isStale key seen req s.store) (cont r.1))
    | .busy _ _ (.done _) | .idle | .stopped => none
  | .fail w err =>
    match s.client w with
    | .busy values seen (.call req cont) =>
      some (s.resume w values seen (isStale key seen req s.store) (cont (req.failed err)))
    | .busy _ _ (.done _) | .idle | .stopped => none

end Clients

end Aerospike
