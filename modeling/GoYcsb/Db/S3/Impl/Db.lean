import GoYcsb.Lib.KeyRange
import GoYcsb.Lib.Msgpack
import GoYcsb.Lib.Rpc

/-!
This module contains `Read`, `Scan`, `Update` and `Insert` of `db/s3/db.go`. The requests are the calls of the S3
client.
-/

namespace S3

abbrev FieldMap := GoMap Bytes Bytes

structure ListInput where
  pre : Bytes
  startAfter : Bytes
  continuationToken : Option Bytes
  maxKeys : Int

structure ListOutput where
  contents : List Bytes
  isTruncated : Bool
  nextContinuationToken : Option Bytes

-- The body of an object is read along with `GetObject`.
inductive Request where
  | getObject (key : Bytes)
  | putObject (key body : Bytes)
  | listObjectsV2 (input : ListInput)

namespace Request

abbrev Answer (req : Request) : Type :=
  match req with
  | .getObject _ => Except Bytes Bytes
  | .putObject _ _ => Except Bytes Unit
  | .listObjectsV2 _ => Except Bytes ListOutput

end Request

abbrev Prog := Rpc Request Request.Answer

def getObject (key : Bytes) : Prog (Except Bytes Bytes) := .send (Request.getObject key)

def putObject (key body : Bytes) : Prog (Except Bytes Unit) := .send (Request.putObject key body)

def listObjectsV2 (input : ListInput) : Prog (Except Bytes ListOutput) := .send (Request.listObjectsV2 input)

structure DB where
  msgpack : Msgpack
  updateOverwrite : Bool
  scanKeysOnly : Bool

def composeObjectKey (table key : Bytes) : Bytes := if table = [] then key else table ++ [47] ++ key

def filterFields (allValues : FieldMap) (fields : List Bytes) (filtered : FieldMap) : FieldMap :=
  match fields with
  | [] => filtered
  | f :: fields =>
    match allValues.lookup f with
    | some v => filterFields allValues fields (filtered.insert f v)
    | none => filterFields allValues fields filtered

-- `int32(n)`
def toInt32 (n : Int) : Int := (n + 2 ^ 31) % 2 ^ 32 - 2 ^ 31

/--
An entry of the result of `Scan`. The key is the one that the record was asked for with, the driver returns the record
only.
-/
structure Entry where
  key : Bytes
  record : Option FieldMap

def keyRecord (key : Bytes) : FieldMap := GoMap.insertAll ∅ [(key, [])]

namespace DB

variable (db : DB)

def decodeBody (payload : Bytes) (fields : List Bytes) : Except Bytes (Option FieldMap) :=
  match db.msgpack.decode payload with
  | .error err => .error err
  | .ok allValues =>
    if 0 < fields.length then
      .ok (some (filterFields (allValues.getD ∅) fields ∅))
    else
      .ok allValues

def read (table key : Bytes) (fields : List Bytes) : Prog (Except Bytes (Option FieldMap)) := do
  let objectKey := composeObjectKey table key
  match ← getObject objectKey with
  | .error err => return .error err
  | .ok payload => return db.decodeBody payload fields

def startRecord (table startKey : Bytes) (fields : List Bytes) : Prog (List Entry) :=
  if startKey ≠ [] then
    if db.scanKeysOnly then
      return [⟨startKey, some (keyRecord startKey)⟩]
    else do
      match ← db.read table startKey fields with
      | .ok (some rec) => return [⟨startKey, some rec⟩]
      | .ok none => return []
      | .error _ => return []
  else
    return []

def recordKey (pre key : Bytes) : Bytes :=
  if pre ≠ [] ∧ pre.length < key.length ∧ key.take pre.length = pre then
    key.drop pre.length
  else
    key

def addRecords (table pre startAfter : Bytes) (fields contents : List Bytes) (results : List Entry) (remaining : Int)
    : Prog (List Entry × Int) :=
  match contents with
  | [] => return (results, remaining)
  | key :: contents =>
    if remaining = 0 then
      return (results, remaining)
    else if key = startAfter then
      addRecords table pre startAfter fields contents results remaining
    else
      let recordKey := recordKey pre key
      if db.scanKeysOnly then
        addRecords table pre startAfter fields contents (results ++ [⟨recordKey, some (keyRecord recordKey)⟩])
          (remaining - 1)
      else do
        match ← db.read table recordKey fields with
        | .error _ => addRecords table pre startAfter fields contents results remaining
        | .ok rec =>
          addRecords table pre startAfter fields contents (results ++ [⟨recordKey, rec⟩]) (remaining - 1)

def scanLoop (table pre startAfter : Bytes) (fields : List Bytes) (fuel : Nat) (contToken : Option Bytes)
    (results : List Entry) (remaining : Int) : Prog (Except Bytes (List Entry)) :=
  if 0 < remaining then
    match fuel with
    | 0 => .done .running
    | fuel + 1 => do
      let maxKeys := toInt32 remaining
      let maxKeys := if 1000 < maxKeys then 1000 else maxKeys
      match ← listObjectsV2 { pre, startAfter, continuationToken := contToken, maxKeys } with
      | .error err => return .error err
      | .ok out =>
        if out.contents.length = 0 then
          return .ok results
        else
          let r ← db.addRecords table pre startAfter fields out.contents results remaining
          if ¬ out.isTruncated ∨ r.2 = 0 then
            return .ok r.1
          else
            scanLoop table pre startAfter fields fuel out.nextContinuationToken r.1 r.2
  else
    return .ok results

def scanEntries (fuel : Nat) (table startKey : Bytes) (count : Int) (fields : List Bytes)
    : Prog (Except Bytes (List Entry)) :=
  if count ≤ 0 then
    return .ok []
  else do
    let results ← db.startRecord table startKey fields
    if count ≤ results.length then
      return .ok results
    else
      let pre := if table ≠ [] then table ++ [47] else []
      let startAfter := composeObjectKey table startKey
      db.scanLoop table pre startAfter fields fuel none results (count - results.length)

def scan (fuel : Nat) (table startKey : Bytes) (count : Int) (fields : List Bytes)
    : Prog (Except Bytes (List (Option FieldMap))) := do
  match ← db.scanEntries fuel table startKey count fields with
  | .error err => return .error err
  | .ok results => return .ok (results.map Entry.record)

def insert (table key : Bytes) (values : Option FieldMap) : Prog (Except Bytes Unit) := do
  let objectKey := composeObjectKey table key
  match db.msgpack.encode values with
  | .error err => return .error err
  | .ok payload => putObject objectKey payload

-- An error of `Read` is dropped, and a record that is `nil` becomes an empty one.
def update (table key : Bytes) (values : Option FieldMap) : Prog (Except Bytes Unit) :=
  if ¬ db.updateOverwrite then do
    let existing ← db.read table key []
    let existing := existing.toOption.join.getD ∅
    db.insert table key (some (existing.merge (values.getD ∅)))
  else
    db.insert table key values

end DB

/--
What the service does of its own accord: it may fail to get or to put an object, and it decides how many keys a listing
has at most.
-/
structure Service where
  getFails : Bytes → Option Bytes
  putFails : Bytes → Option Bytes
  pageSize : Nat → Nat

structure State where
  bucket : GoMap Bytes Bytes
  listings : Nat

namespace Service

def listed (bucket : GoMap Bytes Bytes) (input : ListInput) : List Bytes :=
  KeyRange.keysWhere (fun key => decide (input.pre <+: key) && input.continuationToken.getD input.startAfter < key)
    bucket.keys

def page (bucket : GoMap Bytes Bytes) (input : ListInput) (size : Nat) : ListOutput :=
  let keys := listed bucket input
  let contents := keys.take (min (max 1 size) input.maxKeys.toNat)
  let isTruncated := contents.length < keys.length
  { contents, isTruncated, nextContinuationToken := if isTruncated then contents.getLast? else none }

def objectAt (service : Service) (bucket : GoMap Bytes Bytes) (key : Bytes) : Except Bytes Bytes :=
  match service.getFails key with
  | some err => .error err
  | none =>
    match bucket.lookup key with
    | some body => .ok body
    | none => .error (Bytes.ofAscii "NoSuchKey")

def handle (service : Service) (req : Request) (s : State) : req.Answer × State :=
  match req with
  | .getObject key => (service.objectAt s.bucket key, s)
  | .putObject key body =>
    match service.putFails key with
    | some err => (.error err, s)
    | none => (.ok (), { s with bucket := s.bucket.insert key body })
  | .listObjectsV2 input =>
    (.ok (page s.bucket input (service.pageSize s.listings)), { s with listings := s.listings + 1 })

end Service

end S3
