import GoYcsb.Lib.Rpc
import GoYcsb.Util.Impl.RowCodec

/-!
This module contains the operations of `db/sqlite/db.go`, all of which run through `optimisticTx`. The requests are
the statements of a transaction; what the database answers to them is not fixed.
-/

namespace Sqlite

abbrev FieldMap := GoMap Bytes Bytes

abbrev Orders := Nat → GoMap.Order Bytes Bytes

inductive Error where
  | sqlite3 (code extendedCode : Nat)
  | other (msg : String)
  deriving DecidableEq, Repr

def Error.isBusy (err : Error) : Bool :=
  match err with
  | .sqlite3 code extendedCode => code == 5 || extendedCode == 2058
  | .other _ => false

inductive Arg where
  | bytes (val : Bytes)
  | int (val : Int)
  deriving DecidableEq, Repr

-- An open result: its columns, what `Scan` gives for each row, and the error after the last one.
structure Rows where
  columns : Except Error (List Bytes)
  next : List (Except Error (List Bytes))
  err : Option Error

inductive Request where
  | query (text : Bytes) (args : List Arg)
  | exec (text : Bytes) (args : List Arg)

abbrev Answer (req : Request) : Type :=
  match req with
  | .query _ _ => Except Error Rows
  | .exec _ _ => Option Error

abbrev Tx := Rpc Request Answer

def queryContext (text : Bytes) (args : List Arg) : Tx (Except Error Rows) := .send (Request.query text args)

def execContext (text : Bytes) (args : List Arg) : Tx (Option Error) := .send (Request.exec text args)

def scanRows (cols : List Bytes) (next : List (Except Error (List Bytes))) : Except Error (List FieldMap) :=
  match next with
  | [] => .ok []
  | .error err :: _ => .error err
  | .ok dest :: next =>
    match scanRows cols next with
    | .error err => .error err
    | .ok vs => .ok (GoMap.insertAll ∅ (cols.zip dest) :: vs)

def doQueryRows (query : Bytes) (count : Int) (args : List Arg) : Tx (List FieldMap × Option Error) := do
  match ← queryContext query args with
  | .error err => return ([], some err)
  | .ok rows =>
    match rows.columns with
    | .error err => return ([], some err)
    | .ok cols =>
      if count < 0 then
        .lift (.panic "runtime error: makeslice: cap out of range")
      else
        match scanRows cols rows.next with
        | .error err => return ([], some err)
        | .ok vs => return (vs, rows.err)

def selectFrom (table : Bytes) (fields : List Bytes) : Bytes :=
  match fields with
  | [] => Bytes.ofAscii "SELECT * FROM " ++ table
  | fields => Bytes.ofAscii "SELECT " ++ (Bytes.ofAscii ",").intercalate fields ++ Bytes.ofAscii " FROM " ++ table

def doRead (table key : Bytes) (fields : List Bytes) : Tx (Option FieldMap × Option Error) := do
  let query := selectFrom table fields ++ Bytes.ofAscii " WHERE YCSB_KEY = ?"
  let rows ← doQueryRows query 1 [.bytes key]
  match rows.2 with
  | some err => return (none, some err)
  | none => return (rows.1.head?, none)

def doScan (table startKey : Bytes) (count : Int) (fields : List Bytes) : Tx (List FieldMap × Option Error) :=
  let query := selectFrom table fields ++ Bytes.ofAscii " WHERE YCSB_KEY >= ? LIMIT ?"
  doQueryRows query count [.bytes startKey, .int count]

def setClause (pairs : List Util.FieldPair) : Bytes :=
  (Bytes.ofAscii ", ").intercalate (pairs.map (fun p => p.field ++ Bytes.ofAscii "= ?"))

def doUpdate (order : GoMap.Order Bytes Bytes) (table key : Bytes) (values : FieldMap) : Tx (Option Error) :=
  let pairs := Util.newFieldPairs order values
  let buf := Bytes.ofAscii "UPDATE " ++ table ++ Bytes.ofAscii " SET " ++ setClause pairs
    ++ Bytes.ofAscii " WHERE YCSB_KEY = ?"
  execContext buf (pairs.map (fun p => .bytes p.value) ++ [.bytes key])

def doInsert (order : GoMap.Order Bytes Bytes) (table key : Bytes) (values : FieldMap) : Tx (Option Error) :=
  let pairs := Util.newFieldPairs order values
  let buf := Bytes.ofAscii "INSERT OR IGNORE INTO " ++ table ++ Bytes.ofAscii " (YCSB_KEY"
  let buf := pairs.foldl (fun buf p => buf ++ Bytes.ofAscii " ," ++ p.field) buf
  let buf := buf ++ Bytes.ofAscii ") VALUES (?"
  let buf := pairs.foldl (fun buf _ => buf ++ Bytes.ofAscii " ,?") buf
  execContext (buf ++ [41]) (.bytes key :: pairs.map (fun p => .bytes p.value))

def doDelete (table key : Bytes) : Tx (Option Error) :=
  execContext (Bytes.ofAscii "DELETE FROM " ++ table ++ Bytes.ofAscii " WHERE YCSB_KEY = ?") [.bytes key]

def eachValue (write : GoMap.Order Bytes Bytes → Bytes → FieldMap → Tx (Option Error)) (orders : Orders) (i : Nat)
    (keys : List Bytes) (values : List FieldMap) : Tx (Option Error) :=
  match keys, values with
  | [], _ => return none
  | _ :: _, [] => .lift (.panic s!"runtime error: index out of range [{i}] with length {i}")
  | key :: keys, value :: values => do
    match ← write (orders i) key value with
    | some err => return some err
    | none => eachValue write orders (i + 1) keys values

def eachDelete (table : Bytes) (keys : List Bytes) : Tx (Option Error) :=
  match keys with
  | [] => return none
  | key :: keys => do
    match ← doDelete table key with
    | some err => return some err
    | none => eachDelete table keys

def eachRead (table : Bytes) (fields keys : List Bytes) (output : List (Option FieldMap))
    : Tx (Option Error × List (Option FieldMap)) :=
  match keys with
  | [] => return (none, output)
  | key :: keys => do
    let res ← doRead table key fields
    match res.2 with
    | some err => return (some err, output)
    | none => eachRead table fields keys (output ++ [res.1])

/--
A turn of the loop of `optimisticTx`: what `BeginTx` answers, the database that the transaction sees, and what `Commit`
answers.
-/
structure Attempt (σ : Type) where
  beginTx : Option Error
  snapshot : σ
  orders : Orders
  commit : Option Error

structure Returned (β σ : Type) where
  output : β
  err : Option Error
  committed : Option σ

section

variable {β σ : Type} (optimistic : Bool) (handle : (req : Request) → σ → Answer req × σ)

/--
The closure `f` gets the variable that it captures and gives it back. The attempts are those that the call would make;
there may be fewer than it needs.
-/
def optimisticTx (f : Orders → β → Tx (Option Error × β)) (output : β) (attempts : List (Attempt σ))
    : Outcome (Returned β σ) :=
  match attempts with
  | [] => .running
  | attempt :: attempts =>
    match attempt.beginTx with
    | some err => return ⟨output, some err, none⟩
    | none => do
      let run := (f attempt.orders output).exec handle attempt.snapshot
      let res ← run.1
      match res.1 with
      | some err => return ⟨res.2, some err, none⟩
      | none =>
        match attempt.commit with
        | none => return ⟨res.2, none, some run.2⟩
        | some err =>
          if optimistic && err.isBusy then
            optimisticTx f res.2 attempts
          else
            return ⟨res.2, some err, none⟩

end

def uncaptured (f : Orders → Tx (Option Error)) (orders : Orders) (_ : Unit) : Tx (Option Error × Unit) := do
  return (← f orders, ())

def assigning {β : Type} (f : Tx (β × Option Error)) (_ : Orders) (_ : β) : Tx (Option Error × β) := do
  let res ← f
  return (res.2, res.1)

inductive Op where
  | read (table key : Bytes) (fields : List Bytes)
  | scan (table startKey : Bytes) (count : Int) (fields : List Bytes)
  | update (table key : Bytes) (values : FieldMap)
  | insert (table key : Bytes) (values : FieldMap)
  | delete (table key : Bytes)
  | batchInsert (table : Bytes) (keys : List Bytes) (values : List FieldMap)
  | batchRead (table : Bytes) (keys fields : List Bytes)
  | batchUpdate (table : Bytes) (keys : List Bytes) (values : List FieldMap)
  | batchDelete (table : Bytes) (keys : List Bytes)

namespace Op

abbrev Output (op : Op) : Type :=
  match op with
  | .read _ _ _ => Option FieldMap
  | .scan _ _ _ _ => List FieldMap
  | .batchRead _ _ _ => List (Option FieldMap)
  | .update _ _ _ | .insert _ _ _ | .delete _ _ | .batchInsert _ _ _ | .batchUpdate _ _ _ | .batchDelete _ _ => Unit

def zero (op : Op) : op.Output :=
  match op with
  | .read _ _ _ => none
  | .scan _ _ _ _ => []
  | .batchRead _ _ _ => []
  | .update _ _ _ | .insert _ _ _ | .delete _ _ | .batchInsert _ _ _ | .batchUpdate _ _ _ | .batchDelete _ _ => ()

def body (op : Op) : Orders → op.Output → Tx (Option Error × op.Output) :=
  match op with
  | .read table key fields => assigning (doRead table key fields)
  | .scan table startKey count fields => assigning (doScan table startKey count fields)
  | .update table key values => uncaptured (fun orders => doUpdate (orders 0) table key values)
  | .insert table key values => uncaptured (fun orders => doInsert (orders 0) table key values)
  | .delete table key => uncaptured (fun _ => doDelete table key)
  | .batchInsert table keys values =>
    uncaptured (fun orders => eachValue (fun order => doInsert order table) orders 0 keys values)
  | .batchRead table keys fields => fun _ output => eachRead table fields keys output
  | .batchUpdate table keys values =>
    uncaptured (fun orders => eachValue (fun order => doUpdate order table) orders 0 keys values)
  | .batchDelete table keys => uncaptured (fun _ => eachDelete table keys)

def serve {σ : Type} (optimistic : Bool) (handle : (req : Request) → σ → Answer req × σ) (op : Op)
    (attempts : List (Attempt σ)) : Outcome (Returned op.Output σ) :=
  optimisticTx optimistic handle op.body op.zero attempts

end Op

end Sqlite
