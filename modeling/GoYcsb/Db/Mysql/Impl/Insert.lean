import GoYcsb.Lib.Rpc
import GoYcsb.Lib.SqlTable
import GoYcsb.Util.Impl.RowCodec

/-!
This module contains `Insert` and `BatchInsert` of `db/mysql/db.go`. The requests are the statements that are
prepared and executed with their arguments.
-/

namespace Mysql

abbrev FieldMap := GoMap Bytes Bytes

abbrev Orders := Nat → GoMap.Order Bytes Bytes

abbrev Prog := Rpc Sql.Request Sql.Answer

def execQuery (query : Bytes) (args : List Bytes) : Prog (Except String Unit) := .send ⟨query, args⟩

def insert (order : GoMap.Order Bytes Bytes) (table key : Bytes) (values : FieldMap)
    : Prog (Except String Unit) :=
  let pairs := Util.newFieldPairs order values
  let args := key :: pairs.map Util.FieldPair.value
  let buf := Bytes.ofAscii "INSERT IGNORE INTO " ++ table ++ Bytes.ofAscii " (YCSB_KEY"
  let buf := pairs.foldl (fun buf p => buf ++ Bytes.ofAscii " ," ++ p.field) buf
  let buf := buf ++ Bytes.ofAscii ") VALUES (?"
  let buf := pairs.foldl (fun buf _ => buf ++ Bytes.ofAscii " ,?") buf
  execQuery (buf ++ [41]) args

def batchArgs (orders : Orders) (i : Nat) (keys : List Bytes) (values : List FieldMap) : Outcome (List Bytes) :=
  match keys, values with
  | [], _ => .ret []
  | _ :: _, [] => .panic s!"runtime error: index out of range [{i}] with length {i}"
  | key :: keys, value :: values => do
    let pairs := Util.newFieldPairs (orders i) value
    let args ← batchArgs orders (i + 1) keys values
    return key :: pairs.map Util.FieldPair.value ++ args

def batchInsert (order : GoMap.Order Bytes Bytes) (orders : Orders) (table : Bytes) (keys : List Bytes)
    (values : List FieldMap) : Prog (Except String Unit) :=
  match values with
  | [] => .done (.panic "runtime error: index out of range [0] with length 0")
  | first :: _ => do
    let pairs := Util.newFieldPairs order first
    let buf := Bytes.ofAscii "INSERT IGNORE INTO " ++ table ++ Bytes.ofAscii " (YCSB_KEY"
    let buf := pairs.foldl (fun buf p => buf ++ Bytes.ofAscii " ," ++ p.field) buf
    let buf := buf ++ Bytes.ofAscii ") VALUES "
    let valueString := pairs.foldl (fun buf _ => buf ++ Bytes.ofAscii " ,?") (Bytes.ofAscii "(?") ++ [41]
    let buf := buf ++ (Bytes.ofAscii ",").intercalate (keys.map (fun _ => valueString))
    let args ← .lift (batchArgs orders 0 keys values)
    execQuery buf args

end Mysql
