import GoYcsb.Lib.GoMap
import GoYcsb.Lib.Outcome
import GoYcsb.Lib.Varint

/-!
This module contains the row format of `pkg/util/row.go`.
-/

namespace Util

def compactBytesFlag : UInt8 := 2

def varintFlag : UInt8 := 8

def encodeInt64 (b : Bytes) (v : Int) : Bytes := b ++ varintFlag :: Varint.putVarint v

def encodeBytes (b v : Bytes) : Bytes :=
  b ++ compactBytesFlag :: Varint.putVarint v.length ++ v

def encodeColumns (valBuf : Bytes) (cols : List Bytes) (colIDs : List Int) : Bytes :=
  match cols, colIDs with
  | col :: cols, colID :: colIDs =>
    let valBuf := encodeInt64 valBuf colID
    let valBuf := encodeBytes valBuf col
    encodeColumns valBuf cols colIDs
  | _, _ => valBuf

def encodeRow (cols : List Bytes) (colIDs : List Int) (valBuf : Bytes) : Except String Bytes :=
  let numCols := cols.length
  let numIDs := colIDs.length
  if numCols ≠ numIDs then
    .error s!"EncodeRow error: cols and colIDs count not match {numCols} vs {numIDs}"
  else
    let valBuf := valBuf.take 0
    if numCols = 0 then
      .ok (valBuf ++ [0])
    else
      .ok (encodeColumns valBuf cols colIDs)

-- `b[n:]`
def sliceFrom (b : Bytes) (n : Int) : Outcome Bytes :=
  let len := b.length
  if n < 0 then
    .panic s!"runtime error: slice bounds out of range [{n}:]"
  else if len < n then
    .panic s!"runtime error: slice bounds out of range [{n}:{len}]"
  else
    .ret (b.drop n.toNat)

-- `b[:n]`
def sliceTo (b : Bytes) (n : Int) : Outcome Bytes :=
  let len := b.length
  if n < 0 then
    .panic s!"runtime error: slice bounds out of range [:{n}]"
  else if len < n then
    .panic s!"runtime error: slice bounds out of range [:{n}] with capacity {len}"
  else
    .ret (b.take n.toNat)

def decodeVarint (b : Bytes) : Outcome (Except String (Bytes × Int)) :=
  let (v, n) := Varint.varint b
  if 0 < n then do
    let remain ← sliceFrom b n
    return .ok (remain, v)
  else if n < 0 then
    .ret (.error "value larger than 64 bits")
  else
    .ret (.error "insufficient bytes to decode value")

-- The flag is skipped, whatever it is.
def decodeInt64 (b : Bytes) : Outcome (Except String (Bytes × Int)) := do
  let b ← sliceFrom b 1
  decodeVarint b

def decodeBytes (b : Bytes) : Outcome (Except String (Bytes × Bytes)) := do
  let b ← sliceFrom b 1
  match ← decodeVarint b with
  | .error err => return .error err
  | .ok (remain, n) =>
    if remain.length < n then
      return .error s!"insufficient bytes to decode value, expected length: {n}"
    else
      let rest ← sliceFrom remain n
      let v ← sliceTo remain n
      return .ok (rest, v)

-- The columns decoded so far are returned along with an error.
def decodeColumns (fuel : Nat) (row : GoMap Int Bytes) (b : Bytes)
    : Outcome (GoMap Int Bytes × Option String) :=
  if b.length = 0 then
    .ret (row, none)
  else
    match fuel with
    | 0 => .running
    | fuel + 1 => do
      match ← decodeInt64 b with
      | .error err => return (row, some err)
      | .ok (remain, rowID) =>
        match ← decodeBytes remain with
        | .error err => return (row, some err)
        | .ok (remain, v) => decodeColumns fuel (row.insert rowID v) remain

-- Every turn of the loop uses up a part of `b`.
def decodeRow (b : Bytes) : Outcome (GoMap Int Bytes × Option String) :=
  if b.length = 0 then
    .ret (∅, none)
  else if b = [0] then
    .ret (∅, none)
  else
    decodeColumns b.length ∅ b

end Util
