import GoYcsb.Measurement.Impl.Prometheus

/-!
This module contains how the statistics of a bench number are asked for. The database holds a sample for
each series, whoever has written it.
-/

namespace Measurement

-- `ycsb_<bench-no>_.+`, matched against the whole name. The bench number goes in without quoting, so that it is a
-- literal only as long as it is made of letters, digits and underscores.
def queryPattern (benchNoSafe : Bytes) : Regexp UInt8 :=
  .seq .textBegin <|
  .seq (.literal (Bytes.ofAscii "ycsb_" ++ benchNoSafe ++ [95])) <|
  .seq (.plus (· ≠ 10)) .textEnd

def queried (benchNoSafe metricName : Bytes) : Bool :=
  (queryPattern benchNoSafe).findStringSubmatch metricName ≠ []

namespace PrometheusRemoteWriter

variable (w : PrometheusRemoteWriter)

def queryMetrics (database : List TimeSeries) (benchNoSafe : Bytes) : Except Bytes (GoMap Bytes Rat) :=
  let result := database.filter (fun r => queried benchNoSafe r.metricName)
  let metrics := GoMap.insertAll ∅ ((result.filter (fun r => r.metricName ≠ [] ∧ 0 < r.value)).map TimeSeries.entry)
  if metrics.keys.length = 0 then
    .error (Bytes.ofAscii "no metrics found for bench-no: " ++ w.benchNo)
  else
    .ok metrics

-- The aggregated metrics, without the file they are written to.
def queryAndAggregate (order : GoMap.Order Bytes Rat) (countsOrder : GoMap.Order Bytes Int)
    (database : List TimeSeries) : Except Bytes (GoMap Bytes Rat) :=
  let benchNoSafe := benchNoSafe w.benchNo
  match w.queryMetrics database benchNoSafe with
  | .error err => .error (Bytes.ofAscii "failed to query metrics: " ++ err)
  | .ok metrics =>
    if metrics.keys.length = 0 then
      .error (Bytes.ofAscii "no metrics found for bench-no: " ++ w.benchNo)
    else
      .ok (aggregateMetrics order countsOrder metrics benchNoSafe)

end PrometheusRemoteWriter

end Measurement
