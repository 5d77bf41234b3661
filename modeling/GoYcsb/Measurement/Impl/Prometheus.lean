import GoYcsb.Lib.Bytes
import GoYcsb.Lib.GoMap
import GoYcsb.Lib.Regexp
import Mathlib.Algebra.Field.Rat
import Mathlib.Algebra.Order.Ring.Unbundled.Rat
import Mathlib.Data.List.Sort

/-!
This module contains how the results of a benchmark become Prometheus time series, and how the series of
several instances are put together again. The values are rational numbers.
-/

namespace Measurement

inductive Call where
  | read
  | batchRead
  | scan
  | update
  | batchUpdate
  | insert
  | batchInsert
  | delete
  | batchDelete
  | count
  | clean
  deriving DecidableEq, Repr

def Call.name (call : Call) : String :=
  match call with
  | .read => "READ"
  | .batchRead => "BATCH_READ"
  | .scan => "SCAN"
  | .update => "UPDATE"
  | .batchUpdate => "BATCH_UPDATE"
  | .insert => "INSERT"
  | .batchInsert => "BATCH_INSERT"
  | .delete => "DELETE"
  | .batchDelete => "BATCH_DELETE"
  | .count => "COUNT"
  | .clean => "CLEAN"

inductive Operation where
  | done (call : Call)
  | error (call : Call)
  | total
  | readModifyWrite
  deriving DecidableEq, Repr

def Operation.name (op : Operation) : Bytes :=
  match op with
  | .done call => Bytes.ofAscii call.name
  | .error call => Bytes.ofAscii (call.name ++ "_ERROR")
  | .total => Bytes.ofAscii "TOTAL"
  | .readModifyWrite => Bytes.ofAscii "READ_MODIFY_WRITE"

structure Info where
  elapsed : Rat
  count : Int
  qps : Rat
  avg : Int
  min : Int
  max : Int
  per90th : Int
  per95th : Int
  per99th : Int
  per999th : Int
  per9999th : Int
  deriving DecidableEq, Repr

inductive Metric where
  | totalTime
  | operCount
  | ops
  | avg
  | min
  | max
  | p90
  | p95
  | p99
  | p999
  | p9999
  deriving DecidableEq, Repr

namespace Metric

def all : List Metric := [.totalTime, .operCount, .ops, .avg, .min, .max, .p90, .p95, .p99, .p999, .p9999]

def name (metric : Metric) : Bytes :=
  match metric with
  | .totalTime => Bytes.ofAscii "total_time"
  | .operCount => Bytes.ofAscii "oper_count"
  | .ops => Bytes.ofAscii "ops"
  | .avg => Bytes.ofAscii "avg"
  | .min => Bytes.ofAscii "min"
  | .max => Bytes.ofAscii "max"
  | .p90 => Bytes.ofAscii "p90"
  | .p95 => Bytes.ofAscii "p95"
  | .p99 => Bytes.ofAscii "p99"
  | .p999 => Bytes.ofAscii "p999"
  | .p9999 => Bytes.ofAscii "p9999"

-- The latencies are converted from microseconds to milliseconds.
def value (metric : Metric) (info : Info) : Rat :=
  match metric with
  | .totalTime => info.elapsed
  | .operCount => info.count
  | .ops => info.qps
  | .avg => info.avg / 1000
  | .min => info.min / 1000
  | .max => info.max / 1000
  | .p90 => info.per90th / 1000
  | .p95 => info.per95th / 1000
  | .p99 => info.per99th / 1000
  | .p999 => info.per999th / 1000
  | .p9999 => info.per9999th / 1000

end Metric

structure TimeSeries where
  -- the labels `__name__`, `bench_no` and `operation`
  metricName : Bytes
  benchNo : Bytes
  opLabel : Bytes
  timestamp : Int
  value : Rat
  deriving DecidableEq, Repr

structure PrometheusRemoteWriter where
  benchNo : Bytes
  randomNum : Bytes
  deriving DecidableEq, Repr

def benchNoSafe (benchNo : Bytes) : Bytes := benchNo.map (fun c => if c = 45 then 95 else c)

-- `ycsb_<bench_no>_<random_num>_<oper>`
def metricPrefix (benchNoSafe randomNum oper : Bytes) : Bytes :=
  Bytes.ofAscii "ycsb_" ++ benchNoSafe ++ [95] ++ randomNum ++ [95] ++ oper

def Operation.oper (op : Operation) : Bytes :=
  if op = .total then Bytes.ofAscii "all" else op.name.toLower

namespace PrometheusRemoteWriter

variable (w : PrometheusRemoteWriter) (now : Int)

def createSeries (metricName : Bytes) (value : Rat) (opLabel : Bytes) : TimeSeries :=
  { metricName, benchNo := w.benchNo, opLabel, timestamp := now, value }

def operations (h : GoMap Operation Info) (skipReadModifyWrite : Bool) : List (Operation × Info) :=
  let operations := h.entries.filter (fun entry => !(skipReadModifyWrite && entry.1 = .readModifyWrite))
  (operations.map (fun entry => (entry.1, entry.2))).insertionSort (fun x y => x.1.name ≤ y.1.name)

def operationSeries (op : Operation) (info : Info) : List TimeSeries :=
  let metricPrefix := metricPrefix (benchNoSafe w.benchNo) w.randomNum op.oper
  Metric.all.map (fun metric =>
    w.createSeries now (metricPrefix ++ [95] ++ metric.name) (metric.value info) op.name)

def calculatedTotalOps (operations : List (Operation × Info)) : Rat :=
  operations.foldl (fun total entry => if entry.1 ≠ .total then total + entry.2.qps else total) 0

def buildTimeSeries (h : GoMap Operation Info) (skipReadModifyWrite : Bool) : List TimeSeries :=
  let operations := operations h skipReadModifyWrite
  let calculatedMetricName :=
    metricPrefix (benchNoSafe w.benchNo) w.randomNum (Bytes.ofAscii "calculated_total_ops")
  operations.flatMap (fun entry => w.operationSeries now entry.1 entry.2)
    ++ [w.createSeries now calculatedMetricName (calculatedTotalOps operations) (Bytes.ofAscii "CALCULATED")]

end PrometheusRemoteWriter

def isDigit (c : UInt8) : Bool := 48 ≤ c && c ≤ 57

def isWord (c : UInt8) : Bool := isDigit c || 65 ≤ c && c ≤ 90 || 97 ≤ c && c ≤ 122 || c = 95

-- `^ycsb_<bench-no>_(\d+)_(\w+)_(\w+)$`
def pattern (benchNoSafe : Bytes) : Regexp UInt8 :=
  .seq .textBegin <|
  .seq (.literal (Bytes.ofAscii "ycsb_" ++ benchNoSafe ++ [95])) <|
  .seq (.group (.plus isDigit)) <|
  .seq (.char (· = 95)) <|
  .seq (.group (.plus isWord)) <|
  .seq (.char (· = 95)) <|
  .seq (.group (.plus isWord)) .textEnd

inductive Method where
  | sum
  | min
  | max
  | average
  deriving DecidableEq, Repr

def method (metric : Bytes) : Option Method :=
  if metric ∈ [Bytes.ofAscii "oper_count", Bytes.ofAscii "total_time", Bytes.ofAscii "ops"] then
    some .sum
  else if metric = Bytes.ofAscii "min" then
    some .min
  else if metric = Bytes.ofAscii "max" then
    some .max
  else if metric ∈ [Bytes.ofAscii "avg", Bytes.ofAscii "p90", Bytes.ofAscii "p95", Bytes.ofAscii "p99",
      Bytes.ofAscii "p999", Bytes.ofAscii "p9999"] then
    some .average
  else
    none

def aggregationKey (benchNoSafe metricName : Bytes) : Option (Bytes × Method) :=
  match (pattern benchNoSafe).findStringSubmatch metricName with
  | [_, _, oper, metric] =>
    if oper = Bytes.ofAscii "calculated" then
      none
    else
      (method metric).map (fun method => (oper ++ [95] ++ metric, method))
  | _ => none

structure Aggregation where
  aggregated : GoMap Bytes Rat
  counts : GoMap Bytes Int
  minValues : GoMap Bytes Rat
  maxValues : GoMap Bytes Rat
  deriving DecidableEq

namespace Aggregation

def new : Aggregation where
  aggregated := ∅
  counts := ∅
  minValues := ∅
  maxValues := ∅

def extremum (values : GoMap Bytes Rat) (better : Rat → Rat → Bool) (aggKey : Bytes) (value : Rat)
    : GoMap Bytes Rat :=
  match values.lookup aggKey with
  | none => values.insert aggKey value
  | some current => if better value current then values.insert aggKey value else values

def add (a : Aggregation) (aggKey : Bytes) (method : Method) (value : Rat) : Aggregation :=
  match method with
  | .sum => { a with aggregated := a.aggregated.insert aggKey (a.aggregated.get aggKey 0 + value) }
  | .min =>
    let minValues := extremum a.minValues (fun value current => value < current) aggKey value
    { a with minValues, aggregated := a.aggregated.insert aggKey (minValues.get aggKey 0) }
  | .max =>
    let maxValues := extremum a.maxValues (fun value current => current < value) aggKey value
    { a with maxValues, aggregated := a.aggregated.insert aggKey (maxValues.get aggKey 0) }
  | .average =>
    {
      a with
      aggregated := a.aggregated.insert aggKey (a.aggregated.get aggKey 0 + value)
      counts := a.counts.insert aggKey (a.counts.get aggKey 0 + 1)
    }

def addSeries (benchNoSafe : Bytes) (a : Aggregation) (series : Bytes × Rat) : Aggregation :=
  match aggregationKey benchNoSafe series.1 with
  | some (aggKey, method) => a.add aggKey method series.2
  | none => a

def addAll (benchNoSafe : Bytes) (a : Aggregation) (series : List (Bytes × Rat)) : Aggregation :=
  series.foldl (addSeries benchNoSafe) a

def divide (aggregated : GoMap Bytes Rat) (counts : List (Bytes × Int)) : GoMap Bytes Rat :=
  counts.foldl (fun aggregated entry =>
    if 0 < entry.2 then
      aggregated.insert entry.1 (aggregated.get entry.1 0 / entry.2)
    else
      aggregated) aggregated

end Aggregation

def aggregateMetrics (order : GoMap.Order Bytes Rat) (countsOrder : GoMap.Order Bytes Int)
    (metrics : GoMap Bytes Rat) (benchNoSafe : Bytes) : GoMap Bytes Rat :=
  let series := (order.visit metrics).entries.map (fun entry => (entry.1, entry.2))
  let a := Aggregation.new.addAll benchNoSafe series
  let counts := (countsOrder.visit a.counts).entries.map (fun entry => (entry.1, entry.2))
  Aggregation.divide a.aggregated counts

structure Instance where
  randomNum : Nat
  now : Int
  histograms : GoMap Operation Info
  skipReadModifyWrite : Bool
  -- `10000000 + rand.Intn(90000000)`
  eightDigits : 10000000 ≤ randomNum ∧ randomNum < 100000000

def Instance.series (benchNo : Bytes) (i : Instance) : List TimeSeries :=
  let w : PrometheusRemoteWriter := { benchNo, randomNum := Bytes.decimal i.randomNum }
  w.buildTimeSeries i.now i.histograms i.skipReadModifyWrite

def TimeSeries.entry (s : TimeSeries) : Bytes × Rat := (s.metricName, s.value)

def writtenMetrics (benchNo : Bytes) (instances : List Instance) : GoMap Bytes Rat :=
  GoMap.insertAll ∅ ((instances.flatMap (Instance.series benchNo)).map TimeSeries.entry)

end Measurement
