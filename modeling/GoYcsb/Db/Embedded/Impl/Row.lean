import GoYcsb.Util.Impl.RowCodec

/-!
This module contains what the drivers of the databases that run inside of the benchmark have in common, which is what
they do with the rows of a transaction. An error is its text.
-/

namespace Embedded

abbrev FieldMap := GoMap Bytes Bytes

def decode (r : Util.RowCodec) (row : Bytes) (fields : List Bytes) : Outcome (Except Bytes FieldMap) := do
  match ← r.decode row fields with
  | .error err => return .error (Bytes.ofAscii err)
  | .ok m => return .ok m

-- The loop of `Scan` from its `i`th turn on. A cursor is what it has yet to go through.
def fillRows (r : Util.RowCodec) (fields : List Bytes) (count i : Nat) (cursor : List (Bytes × Bytes))
    (res : List (Option FieldMap)) : Outcome (List (Option FieldMap) × Option Bytes) :=
  match cursor with
  | [] => .ret (res, none)
  | (_, value) :: cursor =>
    if i < count then do
      match ← decode r value fields with
      | .error err => return (res, some err)
      | .ok m => fillRows r fields count (i + 1) cursor (res.set i (some m))
    else
      .ret (res, none)

def mergeRow (r : Util.RowCodec) (order : GoMap.Order Bytes Bytes) (row : Bytes) (values : FieldMap)
    : Outcome (Except Bytes Bytes) := do
  match ← decode r row [] with
  | .error err => return .error err
  | .ok data =>
    match r.encode [] (order.visit (data.merge values)) with
    | .error err => return .error (Bytes.ofAscii err)
    | .ok buf => return .ok buf

end Embedded
