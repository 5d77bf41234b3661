import GoYcsb.Lib.Bytes
import GoYcsb.Lib.GoMap
import GoYcsb.Lib.Rpc

/-!
This module contains a server that is a plain map from keys to byte strings.
-/

namespace Kv

inductive Request (K : Type) where
  | get (key : K)
  | put (key : K) (value : Bytes)
  | delete (key : K)

abbrev Store (K : Type) := GoMap K Bytes

namespace Request

variable {K : Type}

abbrev Value (req : Request K) : Type :=
  match req with
  | .get _ => Option Bytes
  | .put _ _ | .delete _ => Unit

abbrev Answer (req : Request K) : Type := Except Bytes req.Value

def handle [DecidableEq K] (req : Request K) (store : Store K) : req.Answer × Store K :=
  match req with
  | .get key => (.ok (store.lookup key), store)
  | .put key value => (.ok (), store.insert key value)
  | .delete key => (.ok (), store.erase key)

end Request

abbrev Prog (K : Type) := Rpc (Request K) Request.Answer

variable {K : Type}

def get (key : K) : Prog K (Except Bytes (Option Bytes)) := .send (Request.get key)

def put (key : K) (value : Bytes) : Prog K (Except Bytes Unit) := .send (Request.put key value)

def delete (key : K) : Prog K (Except Bytes Unit) := .send (Request.delete key)

end Kv
