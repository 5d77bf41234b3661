import GoYcsb.Lib.GoMap
import GoYcsb.Util.Impl.Output
import Mathlib.Data.List.Sort

/-!
This module contains the plain output of the histograms of `pkg/measurement/histograms.go`.
-/

namespace Measurement

def header : List Bytes :=
  [Bytes.ofAscii "Operation", Bytes.ofAscii "Takes(s)", Bytes.ofAscii "Count", Bytes.ofAscii "OPS",
    Bytes.ofAscii "Avg(us)", Bytes.ofAscii "Min(us)", Bytes.ofAscii "Max(us)", Bytes.ofAscii "50th(us)",
    Bytes.ofAscii "90th(us)", Bytes.ofAscii "95th(us)", Bytes.ofAscii "99th(us)", Bytes.ofAscii "99.9th(us)",
    Bytes.ofAscii "99.99th(us)"]

structure Summary where
  elapsed : Bytes
  count : Bytes
  qps : Bytes
  avg : Bytes
  min : Bytes
  max : Bytes
  per50th : Bytes
  per90th : Bytes
  per95th : Bytes
  per99th : Bytes
  per999th : Bytes
  per9999th : Bytes

def Summary.cells (s : Summary) : List Bytes :=
  [s.elapsed, s.count, s.qps, s.avg, s.min, s.max, s.per50th, s.per90th, s.per95th, s.per99th, s.per999th, s.per9999th]

def lineFormat (op args : Bytes) : Bytes := Strings.padRight 6 op ++ Bytes.ofAscii " - " ++ args ++ Bytes.ofAscii "\n"

def line (op : Bytes) (s : Summary) : List Bytes := op :: s.cells

-- The keys are sorted, so that the order of the map is not seen.
def output (summaries : GoMap Bytes Summary) : Outcome Bytes :=
  let rows := summaries.entries.insertionSort (fun x y => x.1 ≤ y.1)
  Util.renderString lineFormat header (rows.map (fun row => line row.1 row.2))

end Measurement
