import GoYcsb.Db.Mysql.Impl.Insert

/-!
This module contains `Update` and `Insert` of `db/pg/db.go`, with requests like those of the driver for MySQL.
-/

namespace Pg

open Mysql (FieldMap Prog)

def execQuery (query : Bytes) (args : List Bytes) : Prog (Except String Unit) := .send ⟨query, args⟩

structure SetClause where
  buf : Bytes
  firstField : Bool
  placeHolderIndex : Nat

def SetClause.add (s : SetClause) (p : Util.FieldPair) : SetClause :=
  let buf := if s.firstField then s.buf else s.buf ++ Bytes.ofAscii ", "
  {
    buf := buf ++ (p.field ++ Bytes.ofAscii " = $" ++ Bytes.decimal s.placeHolderIndex),
    firstField := false,
    placeHolderIndex := s.placeHolderIndex + 1
  }

def update (order : GoMap.Order Bytes Bytes) (table key : Bytes) (values : FieldMap)
    : Prog (Except String Unit) :=
  let buf := Bytes.ofAscii "UPDATE " ++ table ++ Bytes.ofAscii " SET "
  let pairs := Util.newFieldPairs order values
  let s := pairs.foldl SetClause.add { buf, firstField := true, placeHolderIndex := 1 }
  let args := pairs.map Util.FieldPair.value
  execQuery (s.buf ++ (Bytes.ofAscii " WHERE YCSB_KEY = $" ++ Bytes.decimal s.placeHolderIndex)) (args ++ [key])

def insert (order : GoMap.Order Bytes Bytes) (table key : Bytes) (values : FieldMap)
    : Prog (Except String Unit) :=
  let pairs := Util.newFieldPairs order values
  let args := key :: pairs.map Util.FieldPair.value
  let buf := Bytes.ofAscii "INSERT INTO " ++ table ++ Bytes.ofAscii " (YCSB_KEY"
  let buf := pairs.foldl (fun buf p => buf ++ Bytes.ofAscii " ," ++ p.field) buf
  let buf := buf ++ Bytes.ofAscii ") VALUES ($1"
  let buf := (List.range pairs.length).foldl
    (fun buf i => buf ++ (Bytes.ofAscii " ,$" ++ Bytes.decimal (i + 2))) buf
  execQuery (buf ++ Bytes.ofAscii ") ON CONFLICT DO NOTHING") args

end Pg
