import GoYcsb.Db.Mysql.Impl.Insert

/-!
This module contains `Update` of `db/mysql/db.go`.
-/

namespace Mysql

structure SetClause where
  buf : Bytes
  firstField : Bool

def SetClause.add (s : SetClause) (p : Util.FieldPair) : SetClause :=
  let buf := if s.firstField then s.buf else s.buf ++ Bytes.ofAscii ", "
  { buf := buf ++ p.field ++ Bytes.ofAscii "= ?", firstField := false }

def update (order : GoMap.Order Bytes Bytes) (table key : Bytes) (values : FieldMap)
    : Prog (Except String Unit) :=
  let buf := Bytes.ofAscii "UPDATE " ++ table ++ Bytes.ofAscii " SET "
  let pairs := Util.newFieldPairs order values
  let s := pairs.foldl SetClause.add { buf, firstField := true }
  let args := pairs.map Util.FieldPair.value
  execQuery (s.buf ++ Bytes.ofAscii " WHERE YCSB_KEY = ?") (args ++ [key])

end Mysql
