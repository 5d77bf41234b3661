import GoYcsb.Lib.Bytes
import GoYcsb.Lib.GoMap
import GoYcsb.Lib.Outcome

/-!
This module contains the statement cache of a worker in `db/mysql/db.go` and `db/pg/db.go`. What the calls of
`database/sql` answer is an argument of the functions.
-/

namespace StmtCache

inductive Error where
  -- `sql.ErrConnDone`
  | connDone
  | other (msg : String)
  deriving DecidableEq

structure Stmt where
  -- The connection that the statement was prepared on.
  conn : Nat
  closed : Bool
  deriving DecidableEq

namespace Stmt

def close (stmt : Stmt) : Stmt := { stmt with closed := true }

end Stmt

/--
`mysqlState` and `pgState`. A connection is the number of calls of `DB.Conn` that were successful before it was handed
out.
-/
structure State where
  stmtCache : GoMap Bytes Stmt
  conn : Option Nat
  conns : Nat

structure Answers where
  prepare : Except Error Unit
  conn : Except Error Unit
  prepareAgain : Except Error Unit

def prepareContext (conn : Option Nat) (answer : Except Error Unit) : Outcome (Except Error Stmt) :=
  match conn with
  | none => .panic "runtime error: invalid memory address or nil pointer dereference"
  | some conn => .ret (answer.map (fun _ => ⟨conn, false⟩))

namespace State

def initThread (answer : Except Error Unit) : Outcome State :=
  match answer with
  | .error _ => .panic "failed to create db conn"
  | .ok () => .ret ⟨∅, some 0, 1⟩

def cache (state : State) (query : Bytes) (stmt : Stmt) : State :=
  { state with stmtCache := state.stmtCache.insert query stmt }

def getAndCacheStmt (state : State) (query : Bytes) (answers : Answers) : Outcome (Except Error Stmt × State) :=
  match state.stmtCache.lookup query with
  | some stmt => return (.ok stmt, state)
  | none => do
    match ← prepareContext state.conn answers.prepare with
    | .error .connDone =>
      -- The connection is assigned before the error is looked at.
      match answers.conn with
      | .error err => return (.error err, { state with conn := none })
      | .ok () =>
        let state := { state with conn := some state.conns, conns := state.conns + 1 }
        match ← prepareContext state.conn answers.prepareAgain with
        | .error err => return (.error err, state)
        | .ok stmt => return (.ok stmt, state.cache query stmt)
    | .error (.other msg) => return (.error (.other msg), state)
    | .ok stmt => return (.ok stmt, state.cache query stmt)

def clearCacheIfFailed (state : State) (query : Bytes) (err : Option Error) : State :=
  match err with
  | none => state
  | some _ =>
    let stmtCache :=
      match state.stmtCache.lookup query with
      | some stmt => state.stmtCache.insert query stmt.close
      | none => state.stmtCache
    { state with stmtCache := stmtCache.erase query }

def cleanupThread (state : State) : Outcome State :=
  let stmtCache := state.stmtCache.mapValues Stmt.close
  match state.conn with
  | none => .panic "runtime error: invalid memory address or nil pointer dereference"
  | some _ => .ret { state with stmtCache }

def execQuery (state : State) (query : Bytes) (answers : Answers) (exec : Option Error)
    : Outcome (Option Error × State) := do
  match ← state.getAndCacheStmt query answers with
  | (.error err, state) => return (some err, state)
  | (.ok _, state) => return (exec, state.clearCacheIfFailed query exec)

end State

inductive Call where
  | getAndCacheStmt (query : Bytes) (answers : Answers)
  | clearCacheIfFailed (query : Bytes) (err : Option Error)
  | cleanupThread

def State.serve (state : State) (call : Call) : Outcome State :=
  match call with
  | .getAndCacheStmt query answers => do return (← state.getAndCacheStmt query answers).2
  | .clearCacheIfFailed query err => .ret (state.clearCacheIfFailed query err)
  | .cleanupThread => state.cleanupThread

end StmtCache

-- The text of the functions is the same in both drivers.
namespace Mysql

def initThread := StmtCache.State.initThread

def serve := StmtCache.State.serve

end Mysql

namespace Pg

def initThread := StmtCache.State.initThread

def serve := StmtCache.State.serve

end Pg

namespace StmtCache

inductive Driver where
  | mysql
  | pg

namespace Driver

def initThread (driver : Driver) : Except Error Unit → Outcome State :=
  match driver with
  | .mysql => Mysql.initThread
  | .pg => Pg.initThread

def serve (driver : Driver) : State → Call → Outcome State :=
  match driver with
  | .mysql => Mysql.serve
  | .pg => Pg.serve

def serveAll (driver : Driver) (state : State) (calls : List Call) : Outcome State :=
  match calls with
  | [] => return state
  | call :: calls => do
    let state ← driver.serve state call
    driver.serveAll state calls

end Driver

end StmtCache
