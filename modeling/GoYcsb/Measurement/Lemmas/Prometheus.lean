import GoYcsb.Measurement.Lemmas.Aggregation

/-!
This module contains the verification of the way from the results of the instances over the time series from
`GoYcsb.Measurement.Impl.Prometheus` to the aggregated metrics.
-/

namespace Measurement

def Metric.method (metric : Metric) : Method :=
  match metric with
  | .totalTime | .operCount | .ops => .sum
  | .min => .min
  | .max => .max
  | .avg | .p90 | .p95 | .p99 | .p999 | .p9999 => .average

def Metric.compound (metric : Metric) : Bool := metric = .operCount || metric = .totalTime

theorem Metric.mem_all (metric : Metric) : metric ∈ all := by
  cases metric <;> decide

theorem Metric.names
    : (∀ metric ∈ all, Measurement.method metric.name = some metric.method)
        ∧
      (all.map (fun metric => lastPart metric.name)).Nodup
        ∧
      (∀ metric ∈ all, ¬ metric.compound → (metric.name ≠ [] ∧ metric.name.all isWord) ∧ 95 ∉ metric.name)
        ∧
      ∀ metric ∈ all, metric.compound → Measurement.method (lastPart metric.name) = none := by
  decide +kernel

theorem Metric.method_name (metric : Metric) : Measurement.method metric.name = some metric.method := by
  apply names.1 metric metric.mem_all

theorem Metric.lastPart_injective {metric metric' : Metric} (h : lastPart metric.name = lastPart metric'.name)
    : metric = metric' := by
  apply List.inj_on_of_nodup_map names.2.1 metric.mem_all metric'.mem_all h

def Call.all : List Call :=
  [.read, .batchRead, .scan, .update, .batchUpdate, .insert, .batchInsert, .delete, .batchDelete, .count, .clean]

def Operation.all : List Operation :=
  Call.all.map .done ++ Call.all.map .error ++ [.total, .readModifyWrite]

theorem Operation.mem_all (op : Operation) : op ∈ all := by
  cases op with
  | done call => cases call <;> decide
  | error call => cases call <;> decide
  | total => decide
  | readModifyWrite => decide

theorem Operation.names
    : (all.map oper).Nodup
        ∧
      ∀ op ∈ all, (op.oper ≠ [] ∧ op.oper.all isWord) ∧
        op.oper ≠ Bytes.ofAscii "calculated" ∧ op.oper ≠ Bytes.ofAscii "calculated_total" := by
  decide +kernel

theorem Operation.oper_injective {op op' : Operation} (h : op.oper = op'.oper) : op = op' := by
  apply List.inj_on_of_nodup_map names.1 op.mem_all op'.mem_all h

structure IsOper (oper : Bytes) : Prop where
  ne_nil : oper ≠ []
  word : ∀ c ∈ oper, isWord c
  ne_calculated : oper ≠ Bytes.ofAscii "calculated"
  ne_calculatedTotal : oper ≠ Bytes.ofAscii "calculated_total"

theorem Operation.isOper (op : Operation) : IsOper op.oper := by
  rcases names.2 op op.mem_all with ⟨⟨hne, hword⟩, hcalculated, htotal⟩
  refine ⟨hne, List.all_eq_true.mp hword, hcalculated, htotal⟩

theorem isDigit_decimal (n : Nat) : ∀ c ∈ Bytes.decimal n, isDigit c := by
  intro c hc
  have hdigit := Bytes.digit_of_mem_decimal hc
  simpa [isDigit] using hdigit

theorem Metric.plain_name {metric : Metric} (h : ¬ metric.compound)
    : (metric.name ≠ [] ∧ ∀ c ∈ metric.name, isWord c) ∧ 95 ∉ metric.name := by
  rcases names.2.2.1 metric metric.mem_all h with ⟨⟨hne, hword⟩, hunderscore⟩
  exact ⟨⟨hne, List.all_eq_true.mp hword⟩, hunderscore⟩

theorem calculated_total_ops_eq
    : Bytes.ofAscii "calculated_total_ops" = Bytes.ofAscii "calculated_total" ++ 95 :: Metric.ops.name := by
  decide +kernel

section

variable (benchNoSafe : Bytes) {randomNum : Bytes} (hdigits : randomNum ≠ [] ∧ ∀ c ∈ randomNum, isDigit c)

include hdigits

theorem aggregationKey_metricPrefix {oper metric : Bytes} (hoper : oper ≠ [] ∧ ∀ c ∈ oper, isWord c)
    (hcalculated : oper ≠ Bytes.ofAscii "calculated") (hmetric : metric ≠ [] ∧ ∀ c ∈ metric, isWord c)
    (hunderscore : 95 ∉ metric)
    : aggregationKey benchNoSafe (metricPrefix benchNoSafe randomNum (oper ++ 95 :: metric))
        =
      (method metric).map (fun method => (oper ++ 95 :: metric, method)) := by
  have hparsed : Parsed benchNoSafe (metricPrefix benchNoSafe randomNum oper ++ 95 :: metric) randomNum oper
      metric := by
    refine ⟨rfl, hdigits, hoper, hmetric, ?_⟩
    intro x y heq
    simp [heq] at hunderscore
  rw [← metricPrefix_append, hparsed.aggregationKey hcalculated]

theorem aggregationKey_operation (op : Operation) (metric : Metric)
    : aggregationKey benchNoSafe (metricPrefix benchNoSafe randomNum (op.oper ++ 95 :: metric.name))
        =
      if metric.compound then none else some (op.oper ++ 95 :: metric.name, metric.method) := by
  split
  . next hcompound =>
    rw [Option.eq_none_iff_forall_ne_some]
    rintro ⟨aggKey, method⟩ hkey
    have hmethod := (method_lastPart hkey).1
    rw [← metricPrefix_append, lastPart_append, Metric.names.2.2.2 metric metric.mem_all hcompound] at hmethod
    contradiction
  . next hcompound =>
    rcases Metric.plain_name hcompound with ⟨hmetric, hunderscore⟩
    have hoper := op.isOper
    rw [aggregationKey_metricPrefix _ hdigits ⟨hoper.ne_nil, hoper.word⟩ hoper.ne_calculated hmetric hunderscore]
    simp [metric.method_name]

theorem aggregationKey_calculated
    : aggregationKey benchNoSafe (metricPrefix benchNoSafe randomNum (Bytes.ofAscii "calculated_total_ops"))
        =
      some (Bytes.ofAscii "calculated_total_ops", .sum) := by
  rw [calculated_total_ops_eq, aggregationKey_metricPrefix _ hdigits]
  . simp [Metric.method_name, Metric.method]
  . decide +kernel
  . decide +kernel
  . decide +kernel
  . decide +kernel

end

theorem suffix_inj {op op' : Operation} {metric metric' : Metric}
    (h : op.oper ++ 95 :: metric.name = op'.oper ++ 95 :: metric'.name)
    : op = op' ∧ metric = metric' := by
  have hlast := congrArg lastPart h
  rw [lastPart_append, lastPart_append] at hlast
  have hmetric := Metric.lastPart_injective hlast
  subst hmetric
  rw [List.append_cancel_right_eq] at h
  simp [Operation.oper_injective h]

theorem suffix_ne_calculated (op : Operation) (metric : Metric)
    : op.oper ++ 95 :: metric.name ≠ Bytes.ofAscii "calculated_total_ops" := by
  intro h
  have hlast := congrArg lastPart h
  rw [calculated_total_ops_eq, lastPart_append, lastPart_append] at hlast
  have hmetric := Metric.lastPart_injective hlast
  rw [calculated_total_ops_eq, hmetric, List.append_cancel_right_eq] at h
  apply op.isOper.ne_calculatedTotal h

def Instance.info (i : Instance) (op : Operation) : Option Info :=
  if i.skipReadModifyWrite && op = .readModifyWrite then none else i.histograms.lookup op

def Instance.totalOps (i : Instance) : Rat :=
  PrometheusRemoteWriter.calculatedTotalOps
    (PrometheusRemoteWriter.operations i.histograms i.skipReadModifyWrite)

theorem Metric.filter_all (metric : Metric) : all.filter (· = metric) = [metric] := by
  cases metric <;> rfl

section

variable (benchNo : Bytes)

theorem entry_series (i : Instance)
    : (i.series benchNo).map TimeSeries.entry
        =
      (PrometheusRemoteWriter.operations i.histograms i.skipReadModifyWrite).flatMap (fun entry =>
        Metric.all.map (fun metric =>
          (metricPrefix (benchNoSafe benchNo) (Bytes.decimal i.randomNum) (entry.1.oper ++ 95 :: metric.name),
            metric.value entry.2)))
        ++
      [(metricPrefix (benchNoSafe benchNo) (Bytes.decimal i.randomNum) (Bytes.ofAscii "calculated_total_ops"),
        i.totalOps)] := by
  simp [Instance.series, PrometheusRemoteWriter.buildTimeSeries, PrometheusRemoteWriter.operationSeries,
    PrometheusRemoteWriter.createSeries, TimeSeries.entry, List.map_flatMap, metricPrefix_append,
    Instance.totalOps, Function.comp_def]

theorem flatMap_filter (l : List α) (q : α → Bool) (f : α → List β)
    : (l.filter q).flatMap f = l.flatMap (fun x => if q x then f x else []) := by
  induction l with
  | nil => simp
  | cons x l ih =>
    rw [List.flatMap_cons, ← ih]
    cases hq : q x with
    | true => simp [List.filter_cons_of_pos, hq]
    | false => simp [List.filter_cons_of_neg, hq]

theorem flatMap_operations (i : Instance) (op : Operation) (f : Info → List Rat)
    : ((PrometheusRemoteWriter.operations i.histograms i.skipReadModifyWrite).flatMap (fun entry =>
        if entry.1 = op then f entry.2 else [])).Perm
      (((i.info op).map f).getD []) := by
  unfold PrometheusRemoteWriter.operations
  apply ((List.perm_insertionSort _ _).flatMap_right _).trans
  rw [List.flatMap_map, flatMap_filter]
  have hskip : ((i.info op).map f).getD []
      = i.histograms.entries.flatMap (fun entry =>
        if entry.1 = op then
          if i.skipReadModifyWrite && op = .readModifyWrite then [] else f entry.2
        else
          []) := by
    rw [GoMap.flatMap_entries i.histograms op
      (fun info => if i.skipReadModifyWrite && op = .readModifyWrite then [] else f info)]
    unfold Instance.info
    cases i.histograms.lookup op with
    | none => simp
    | some info => split <;> simp_all
  rw [hskip]
  apply List.Perm.of_eq
  apply List.flatMap_congr
  intro entry _
  grind

theorem aggregationKey_fst {randomNum : Bytes} (hdigits : randomNum ≠ [] ∧ ∀ c ∈ randomNum, isDigit c)
    (b : Bytes) (op op' : Operation) (metric metric' : Metric)
    : (aggregationKey b (metricPrefix b randomNum (op'.oper ++ 95 :: metric'.name))).map Prod.fst
          = some (op.oper ++ 95 :: metric.name)
        ↔
      (op' = op ∧ metric.compound = false) ∧ metric' = metric := by
  rw [aggregationKey_operation b hdigits]
  constructor
  . intro h
    split at h
    . simp at h
    . next hcompound =>
      simp only [Option.map_some, Option.some.injEq] at h
      rcases suffix_inj h with ⟨hop, hmetric⟩
      simp_all
  . rintro ⟨⟨hop, hcompound⟩, hmetric⟩
    simp [hop, hmetric, hcompound]

theorem valuesAt_operation {randomNum : Bytes} (hdigits : randomNum ≠ [] ∧ ∀ c ∈ randomNum, isDigit c)
    (b : Bytes) (op op' : Operation) (metric : Metric) (info : Info)
    : valuesAt b
        (Metric.all.map (fun metric =>
          (metricPrefix b randomNum (op'.oper ++ 95 :: metric.name), metric.value info)))
        (op.oper ++ 95 :: metric.name)
        =
      if op' = op then if metric.compound then [] else [metric.value info] else [] := by
  simp only [valuesAt, List.filter_map, Function.comp_def, aggregationKey_fst hdigits, Bool.decide_and]
  split
  . next hop =>
    split
    . next hcompound => simp [hcompound]
    . next hcompound => simp [hop, hcompound, Metric.filter_all]
  . next hop => simp [hop]

def values (instances : List Instance) (op : Operation) (metric : Metric) : List Rat :=
  instances.filterMap (fun i => (i.info op).map metric.value)

theorem digits_decimal (n : Nat) : Bytes.decimal n ≠ [] ∧ ∀ c ∈ Bytes.decimal n, isDigit c := by
  constructor
  . apply Bytes.decimal_ne_nil
  . apply isDigit_decimal

theorem valuesAt_instance (i : Instance) (op : Operation) (metric : Metric)
    : (valuesAt (benchNoSafe benchNo) ((i.series benchNo).map TimeSeries.entry)
        (op.oper ++ 95 :: metric.name)).Perm
      (if metric.compound then [] else ((i.info op).map metric.value).toList) := by
  have hdigits := digits_decimal i.randomNum
  have hcalculated : valuesAt (benchNoSafe benchNo)
      [(metricPrefix (benchNoSafe benchNo) (Bytes.decimal i.randomNum) (Bytes.ofAscii "calculated_total_ops"),
        i.totalOps)]
      (op.oper ++ 95 :: metric.name) = [] := by
    simp [valuesAt, aggregationKey_calculated _ hdigits, (suffix_ne_calculated op metric).symm]
  rw [entry_series, valuesAt_append, valuesAt_flatMap, hcalculated, List.append_nil]
  simp only [valuesAt_operation hdigits]
  apply (flatMap_operations i op (fun info => if metric.compound then [] else [metric.value info])).trans
  apply List.Perm.of_eq
  cases i.info op with
  | none => simp
  | some info => simp

theorem valuesAt_instances (instances : List Instance) (op : Operation) (metric : Metric)
    : (valuesAt (benchNoSafe benchNo) ((instances.flatMap (Instance.series benchNo)).map TimeSeries.entry)
        (op.oper ++ 95 :: metric.name)).Perm
      (if metric.compound then [] else values instances op metric) := by
  rw [List.map_flatMap, valuesAt_flatMap]
  apply (List.Perm.flatMap_left _ (fun i _ => valuesAt_instance benchNo i op metric)).trans
  apply List.Perm.of_eq
  split
  . simp
  . rw [values, List.filterMap_eq_flatMap_toList]

theorem valuesAt_calculated (instances : List Instance)
    : valuesAt (benchNoSafe benchNo) ((instances.flatMap (Instance.series benchNo)).map TimeSeries.entry)
        (Bytes.ofAscii "calculated_total_ops")
        =
      instances.map Instance.totalOps := by
  rw [List.map_flatMap, valuesAt_flatMap, List.map_eq_flatMap]
  apply List.flatMap_congr
  intro i _
  have hdigits := digits_decimal i.randomNum
  have hoperation (op : Operation) (metric : Metric)
      : (aggregationKey (benchNoSafe benchNo) (metricPrefix (benchNoSafe benchNo) (Bytes.decimal i.randomNum)
          (op.oper ++ 95 :: metric.name))).map Prod.fst ≠ some (Bytes.ofAscii "calculated_total_ops") := by
    rw [aggregationKey_operation _ hdigits]
    split
    . simp
    . simp [suffix_ne_calculated]
  rw [entry_series, valuesAt_append, valuesAt_flatMap]
  simp [valuesAt, List.filter_map, Function.comp_def, hoperation, aggregationKey_calculated _ hdigits]

def suffixes (operations : List Operation) : List Bytes :=
  (operations ×ˢ Metric.all).map (fun x => x.1.oper ++ 95 :: x.2.name) ++ [Bytes.ofAscii "calculated_total_ops"]

theorem nodup_suffixes {operations : List Operation} (h : operations.Nodup) : (suffixes operations).Nodup := by
  unfold suffixes
  rw [List.nodup_append]
  refine ⟨?_, by simp, ?_⟩
  . apply (h.product (by decide)).map
    intro x y heq
    rcases suffix_inj heq with ⟨hop, hmetric⟩
    apply Prod.ext hop hmetric
  . intro suffix hmem calculated hcalculated
    rcases List.mem_map.mp hmem with ⟨x, _, heq⟩
    rw [← heq, List.mem_singleton.mp hcalculated]
    apply suffix_ne_calculated

theorem nodup_operations (i : Instance)
    : ((PrometheusRemoteWriter.operations i.histograms i.skipReadModifyWrite).map Prod.fst).Nodup := by
  unfold PrometheusRemoteWriter.operations
  rw [((List.perm_insertionSort _ _).map _).nodup_iff, List.map_map]
  apply List.Nodup.sublist _ i.histograms.keys_nodup
  apply (List.filter_sublist).map

theorem names_series (i : Instance)
    : ((i.series benchNo).map TimeSeries.entry).map Prod.fst
        =
      (suffixes ((PrometheusRemoteWriter.operations i.histograms i.skipReadModifyWrite).map Prod.fst)).map
        (metricPrefix (benchNoSafe benchNo) (Bytes.decimal i.randomNum)) := by
  rw [entry_series]
  simp [suffixes, SProd.sprod, List.product, List.map_flatMap, List.flatMap_map, Function.comp_def]

theorem nodup_names {instances : List Instance} (hdistinct : (instances.map Instance.randomNum).Nodup)
    : (((instances.flatMap (Instance.series benchNo)).map TimeSeries.entry).map Prod.fst).Nodup := by
  rw [List.map_flatMap, List.map_flatMap, List.nodup_flatMap]
  constructor
  . intro i _
    rw [names_series]
    apply (nodup_suffixes (nodup_operations i)).map
    intro x y heq
    apply (metricPrefix_inj (isDigit_decimal _) (isDigit_decimal _) heq).2
  . apply (List.pairwise_map.mp hdistinct).imp
    intro i j hne name hi hj
    simp only [names_series] at hi hj
    rcases List.mem_map.mp hi with ⟨x, _, hx⟩
    rcases List.mem_map.mp hj with ⟨y, _, hy⟩
    have heq := metricPrefix_inj (isDigit_decimal _) (isDigit_decimal _) (hx.trans hy.symm)
    apply hne (Bytes.decimal_injective heq.1)

theorem entries_writtenMetrics {instances : List Instance} (hdistinct : (instances.map Instance.randomNum).Nodup)
    : ((writtenMetrics benchNo instances).entries.map (fun entry => (entry.1, entry.2))).Perm
        ((instances.flatMap (Instance.series benchNo)).map TimeSeries.entry) := by
  have hperm := GoMap.entries_insertAll_perm (m := ∅) (nodup_names benchNo hdistinct) (by simp)
  simpa [writtenMetrics] using hperm

end

/-- The entry for an operation is made of what the instances have measured. -/
def AggregatedRight (aggregated : GoMap Bytes Rat) (instances : List Instance) (op : Operation) (metric : Metric)
    : Prop :=
  Entry (values instances op metric) (metric.method.IsResult (values instances op metric))
    (aggregated.lookup (op.oper ++ 95 :: metric.name))

section

variable (benchNo : Bytes) {instances : List Instance}
  (hdistinct : (instances.map Instance.randomNum).Nodup) (order : GoMap.Order Bytes Rat)
  (countsOrder : GoMap.Order Bytes Int)

include hdistinct

theorem aggregated_entry {aggKey : Bytes} {values : List Rat}
    (hvalues : (valuesAt (benchNoSafe benchNo)
      ((instances.flatMap (Instance.series benchNo)).map TimeSeries.entry) aggKey).Perm values)
    : Entry values (((method (lastPart aggKey)).getD .sum).IsResult values)
        ((aggregateMetrics order countsOrder (writtenMetrics benchNo instances) (benchNoSafe benchNo)).lookup
          aggKey) := by
  apply Entry.perm (aggregateMetrics_entry order countsOrder _ _ aggKey)
  apply (valuesAt_perm (entries_writtenMetrics benchNo hdistinct)).trans hvalues

theorem aggregatedRight_iff (op : Operation) (metric : Metric)
    : AggregatedRight (aggregateMetrics order countsOrder (writtenMetrics benchNo instances) (benchNoSafe benchNo))
        instances op metric
        ↔
      metric.compound = false ∨ values instances op metric = [] := by
  have hentry := aggregated_entry benchNo hdistinct order countsOrder
    (valuesAt_instances benchNo instances op metric)
  unfold AggregatedRight
  generalize (aggregateMetrics order countsOrder (writtenMetrics benchNo instances) (benchNoSafe benchNo)).lookup
    (op.oper ++ 95 :: metric.name) = entry at *
  split at hentry
  . next hcompound =>
    cases entry with
    | none => simp [Entry, hcompound]
    | some x => simp [Entry] at hentry
  . next hcompound =>
    rw [lastPart_append, lastPart_eq_self (Metric.plain_name hcompound).2, metric.method_name] at hentry
    simp only [hcompound, true_or, iff_true]
    apply hentry

theorem calculated_eq_none_iff
    : (aggregateMetrics order countsOrder (writtenMetrics benchNo instances) (benchNoSafe benchNo)).lookup
          (Bytes.ofAscii "calculated_total_ops") = none
        ↔
      instances = [] := by
  have hentry := aggregated_entry benchNo hdistinct order countsOrder
    (.of_eq (valuesAt_calculated benchNo instances))
  generalize (aggregateMetrics order countsOrder (writtenMetrics benchNo instances) (benchNoSafe benchNo)).lookup
    (Bytes.ofAscii "calculated_total_ops") = entry at *
  cases entry with
  | none => simpa [Entry] using hentry
  | some x => simpa [Entry] using hentry.1

end

theorem aggregateMetrics_right_iff (benchNo : Bytes) (instances : List Instance)
    (hdistinct : (instances.map Instance.randomNum).Nodup) (order : GoMap.Order Bytes Rat)
    (countsOrder : GoMap.Order Bytes Int)
    : let aggregated :=
        aggregateMetrics order countsOrder (writtenMetrics benchNo instances) (benchNoSafe benchNo)
      ((∀ op metric, AggregatedRight aggregated instances op metric)
          ∧
        aggregated.lookup (Bytes.ofAscii "calculated_total_ops") = none
          ↔
        instances = [])
        ∧
      (∀ op metric,
        AggregatedRight aggregated instances op metric
          ↔
        (metric ≠ .operCount ∧ metric ≠ .totalTime) ∨ ∀ i ∈ instances, i.info op = none)
        ∧
      (aggregated.lookup (Bytes.ofAscii "calculated_total_ops") = none ↔ instances = []) := by
  dsimp only
  have hcalculated := calculated_eq_none_iff benchNo hdistinct order countsOrder
  have hright := aggregatedRight_iff benchNo hdistinct order countsOrder
  refine ⟨?_, ?_, hcalculated⟩
  . rw [hcalculated]
    constructor
    . rintro ⟨_, hnil⟩
      assumption
    . intro hnil
      refine ⟨?_, hnil⟩
      intro op metric
      rw [hright]
      simp [hnil, values]
  . intro op metric
    rw [hright]
    simp [Metric.compound, values, List.filterMap_eq_nil_iff]

def readInstance (randomNum : Nat) (count : Int) (h : 10000000 ≤ randomNum ∧ randomNum < 100000000) : Instance where
  randomNum
  now := 0
  histograms := AList.insert (.done .read)
    {
      elapsed := 2, count, qps := count / 2, avg := 500, min := 100, max := 900, per90th := 800, per95th := 850,
      per99th := 890, per999th := 899, per9999th := 900
    } ∅
  skipReadModifyWrite := false
  eightDigits := h

theorem aggregateMetrics_right_two_instances
    : let instances := [readInstance 10000001 3 (by decide), readInstance 10000002 5 (by decide)]
      let aggregated := aggregateMetrics .id .id (writtenMetrics (Bytes.ofAscii "b1") instances)
        (benchNoSafe (Bytes.ofAscii "b1"))
      (instances.map Instance.randomNum).Nodup
        ∧
      AggregatedRight aggregated instances (.done .read) .avg := by
  have hdistinct : ([readInstance 10000001 3 (by decide), readInstance 10000002 5 (by decide)].map
      Instance.randomNum).Nodup := by
    decide
  have hright := (aggregateMetrics_right_iff (Bytes.ofAscii "b1") _ hdistinct .id .id).2.1
  refine ⟨hdistinct, ?_⟩
  rw [hright]
  simp

def oneReadInstance : List Instance := [readInstance 10000001 3 (by decide)]

def oneReadAggregated : GoMap Bytes Rat :=
  aggregateMetrics .id .id (writtenMetrics (Bytes.ofAscii "b1") oneReadInstance)
    (benchNoSafe (Bytes.ofAscii "b1"))

theorem aggregateMetrics_drops_count
    : values oneReadInstance (.done .read) .operCount = [3]
        ∧
      oneReadAggregated.lookup (Bytes.ofAscii "read_oper_count") = none
        ∧
      oneReadAggregated.lookup (Bytes.ofAscii "read_ops") = some (3 / 2)
        ∧
      oneReadAggregated.lookup (Bytes.ofAscii "calculated_total_ops") = some (3 / 2)
        ∧
      ¬ AggregatedRight oneReadAggregated oneReadInstance (.done .read) .operCount := by
  obtain ⟨hvalues, hcount, hops, hcalculated, hkey⟩ : values oneReadInstance (.done .read) .operCount = [3]
      ∧ oneReadAggregated.lookup (Bytes.ofAscii "read_oper_count") = none
      ∧ oneReadAggregated.lookup (Bytes.ofAscii "read_ops") = some (3 / 2)
      ∧ oneReadAggregated.lookup (Bytes.ofAscii "calculated_total_ops") = some (3 / 2)
      ∧ (Operation.done .read).oper ++ 95 :: Metric.operCount.name = Bytes.ofAscii "read_oper_count" := by
    decide +kernel
  refine ⟨hvalues, hcount, hops, hcalculated, ?_⟩
  rw [AggregatedRight, hkey, hcount, hvalues]
  simp [Entry]

end Measurement
