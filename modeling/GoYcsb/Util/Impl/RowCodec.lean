import GoYcsb.Prop.Properties
import GoYcsb.Util.Impl.Row
import Mathlib.Data.List.Sort

/-!
This module contains the `RowCodec` and the field pairs of `pkg/util/core.go`.
-/

namespace Util

def createFieldIndices (p : Properties) : GoMap Bytes Int :=
  (List.range p.getFieldCount.toNat).foldl (fun m i => m.insert (fieldName i) i) ∅

def allFields (p : Properties) : Outcome (List Bytes) :=
  if p.getFieldCount < 0 then
    .panic "runtime error: makeslice: cap out of range"
  else
    .ret ((List.range p.getFieldCount.toNat).map fieldName)

structure RowCodec where
  fieldIndices : GoMap Bytes Int
  fields : List Bytes

def newRowCodec (p : Properties) : Outcome RowCodec := do
  let fields ← allFields p
  return { fieldIndices := createFieldIndices p, fields }

namespace RowCodec

def selectFields (r : RowCodec) (data : GoMap Int Bytes) (fields : List Bytes)
    : GoMap Bytes Bytes :=
  fields.foldl (fun res field =>
    let i := r.fieldIndices.get field 0
    match data.lookup i with
    | some v => res.insert field v
    | none => res) ∅

def decode (r : RowCodec) (row : Bytes) (fields : List Bytes)
    : Outcome (Except String (GoMap Bytes Bytes)) := do
  let fields := if fields.length = 0 then r.fields else fields
  let (data, err) ← decodeRow row
  match err with
  | some err => return .error err
  | none => return .ok (r.selectFields data fields)

def encode (r : RowCodec) (buf : Bytes) (values : GoMap Bytes Bytes) : Except String Bytes :=
  let cols := values.entries.map (fun entry => entry.2)
  let colIDs := values.entries.map (fun entry => r.fieldIndices.get entry.1 0)
  encodeRow cols colIDs buf

end RowCodec

structure FieldPair where
  field : Bytes
  value : Bytes
  deriving DecidableEq, Repr

def newFieldPairs (order : GoMap.Order Bytes Bytes) (values : GoMap Bytes Bytes) : List FieldPair :=
  let pairs := (order.visit values).entries.map (fun entry => { field := entry.1, value := entry.2 : FieldPair })
  pairs.insertionSort (fun x y => x.field ≤ y.field)

end Util
