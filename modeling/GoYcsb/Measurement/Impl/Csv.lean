import GoYcsb.Lib.Csv
import GoYcsb.Lib.GoMap
import GoYcsb.Lib.Int64
import GoYcsb.Lib.LockedObject

/-!
This module contains the raw measurements of `pkg/measurement/csv.go` behind the lock of
`pkg/measurement/measurement.go`.
Times and durations are in nanoseconds.
-/

namespace Measurement

structure CsvEntry where
  startUs : Int
  latencyUs : Int
  deriving DecidableEq, Repr

abbrev Csvs := GoMap Bytes (List CsvEntry)

-- `UnixMicro` counts whole microseconds since the epoch, and `Microseconds` cuts off a fraction.
def csvEntry (start lan : Int) : CsvEntry := ⟨I64.wrap (start / 1000), lan.tdiv 1000⟩

namespace Csvs

def measure (c : Csvs) (op : Bytes) (start lan : Int) : Csvs :=
  c.insert op (c.get op [] ++ [csvEntry start lan])

def header : Bytes := Bytes.ofAscii "operation,timestamp_us,latency_us\n"

-- `"%s,%d,%d\n"`
def line (op : Bytes) (entry : CsvEntry) : Bytes :=
  op ++ [44] ++ Bytes.ofInt entry.startUs ++ [44] ++ Bytes.ofInt entry.latencyUs ++ [10]

def output (order : GoMap.Order Bytes (List CsvEntry)) (c : Csvs) : Bytes :=
  header ++ (order.visit c).entries.flatMap (fun entry => entry.2.flatMap (line entry.1))

end Csvs

namespace Raw

inductive Call where
  | measure (op : Bytes) (start lan : Int)
  | output (order : GoMap.Order Bytes (List CsvEntry))

inductive Result where
  | unit
  | text (b : Bytes)
  deriving DecidableEq, Repr

open Locks

abbrev Prog := Locks.Prog Unit Csvs

def measure (op : Bytes) (start lan : Int) : Prog Unit := do
  lock ()
  let c ← load ()
  store () (fun _ => c.measure op start lan)
  unlock ()

def output (order : GoMap.Order Bytes (List CsvEntry)) : Prog Bytes := do
  rLock ()
  let c ← load ()
  rUnlock ()
  return c.output order

def serve (call : Call) : Prog Result :=
  match call with
  | .measure op start lan => do
    measure op start lan
    return .unit
  | .output order => do
    let b ← output order
    return .text b

end Raw

end Measurement
