import GoYcsb.Measurement.Lemmas.Query
import Mathlib.Algebra.Order.BigOperators.Group.List
import Mathlib.Algebra.Order.Field.Rat

/-!
This module contains what the statistics of a bench number say about the series there are: `aggregateMetrics` puts
the values of a key together whatever the order of the maps, and the query decides which values there are.
-/

namespace Measurement

theorem aggregateMetrics_aggregates (order order' : GoMap.Order Bytes Rat)
    (countsOrder countsOrder' : GoMap.Order Bytes Int) (metrics : GoMap Bytes Rat) (benchNoSafe aggKey : Bytes)
    : (aggregateMetrics order countsOrder metrics benchNoSafe).lookup aggKey
          = (aggregateMetrics order' countsOrder' metrics benchNoSafe).lookup aggKey
        ∧
      ((∀ name ∈ metrics, (aggregationKey benchNoSafe name).map Prod.fst ≠ some aggKey)
        → (aggregateMetrics order countsOrder metrics benchNoSafe).lookup aggKey = none)
        ∧
      (∀ name ∈ metrics, ∀ method, aggregationKey benchNoSafe name = some (aggKey, method)
        → (∃ x,
            (aggregateMetrics order countsOrder metrics benchNoSafe).lookup aggKey = some x
              ∧
            method.IsResult (valuesAt benchNoSafe (metrics.entries.map (fun entry => (entry.1, entry.2))) aggKey) x)
          ∧
          (∀ name' method', aggregationKey benchNoSafe name' = some (aggKey, method') → method' = method)) := by
  refine ⟨?_, ?_, ?_⟩
  . apply aggregateMetrics_congr
    intro name _
    rfl
  . intro hnone
    exact (aggregateMetrics_eq_none_iff order countsOrder).mpr hnone
  . intro name hname method hkey
    have hmethod := (method_lastPart hkey).2
    constructor
    . have hentry := aggregateMetrics_entry order countsOrder metrics benchNoSafe aggKey
      dsimp only at hentry
      rw [hmethod, Option.getD_some] at hentry
      cases hlookup : (aggregateMetrics order countsOrder metrics benchNoSafe).lookup aggKey with
      | none =>
        have hnot := (aggregateMetrics_eq_none_iff order countsOrder).mp hlookup name hname
        rw [hkey] at hnot
        exact absurd rfl hnot
      | some x =>
        rw [hlookup] at hentry
        exact ⟨x, rfl, hentry.2⟩
    . intro name' method' hkey'
      have hmethod' := (method_lastPart hkey').2
      rw [hmethod, Option.some.injEq] at hmethod'
      exact hmethod'.symm

theorem aggregateMetrics_aggregates_minimum
    : let metrics : GoMap Bytes Rat := GoMap.insertAll ∅
        [(Bytes.ofAscii "ycsb_b1_10000001_read_min", 7), (Bytes.ofAscii "ycsb_b1_10000002_read_min", 5)]
      ∃ x,
        (aggregateMetrics .id .id metrics (Bytes.ofAscii "b1")).lookup (Bytes.ofAscii "read_min") = some x
          ∧
        Method.min.IsResult
          (valuesAt (Bytes.ofAscii "b1") (metrics.entries.map (fun entry => (entry.1, entry.2)))
            (Bytes.ofAscii "read_min")) x := by
  intro metrics
  have hmem : Bytes.ofAscii "ycsb_b1_10000001_read_min" ∈ metrics := by decide +kernel
  have hkey : aggregationKey (Bytes.ofAscii "b1") (Bytes.ofAscii "ycsb_b1_10000001_read_min")
      = some (Bytes.ofAscii "read_min", .min) := by
    decide +kernel
  exact ((aggregateMetrics_aggregates .id .id .id .id metrics (Bytes.ofAscii "b1") (Bytes.ofAscii "read_min")).2.2
    _ hmem .min hkey).1

section

variable (safe : Bytes) (op : Operation) (metric : Metric)

def isSeriesOf (name : Bytes) : Bool :=
  let digits := (name.drop (Bytes.ofAscii "ycsb_" ++ safe ++ [95]).length).takeWhile isDigit
  digits ≠ [] ∧ name = metricPrefix safe digits (op.oper ++ 95 :: metric.name)

theorem isSeriesOf_iff {name : Bytes}
    : isSeriesOf safe op metric name
        ↔
      ∃ digits, (digits ≠ [] ∧ ∀ c ∈ digits, isDigit c) ∧ name = metricPrefix safe digits (op.oper ++ 95 :: metric.name)
    := by
  unfold isSeriesOf
  rw [decide_eq_true_eq]
  constructor
  . rintro ⟨hne, hname⟩
    refine ⟨_, ⟨hne, ?_⟩, hname⟩
    intro c hc
    exact List.mem_takeWhile_imp hc
  . rintro ⟨digits, ⟨hne, hdigits⟩, rfl⟩
    have hdrop : (metricPrefix safe digits (op.oper ++ 95 :: metric.name)).drop
        (Bytes.ofAscii "ycsb_" ++ safe ++ [95]).length = digits ++ 95 :: (op.oper ++ 95 :: metric.name) := by
      have hsplit : metricPrefix safe digits (op.oper ++ 95 :: metric.name)
          = Bytes.ofAscii "ycsb_" ++ safe ++ [95] ++ (digits ++ 95 :: (op.oper ++ 95 :: metric.name)) := by
        simp [metricPrefix]
      rw [hsplit, List.drop_left]
    have htake : (digits ++ 95 :: (op.oper ++ 95 :: metric.name)).takeWhile isDigit = digits := by
      rw [List.takeWhile_append_of_pos hdigits, List.takeWhile_cons_of_neg (by decide), List.append_nil]
    rw [hdrop, htake]
    exact ⟨hne, rfl⟩

/--
The values of all instances that have a series for the operation and the metric.
-/
def instanceValues (database : List TimeSeries) : List Rat :=
  (database.filter (fun s => isSeriesOf safe op metric s.metricName)).map TimeSeries.value

end

def PrometheusRemoteWriter.reported (w : PrometheusRemoteWriter) (order : GoMap.Order Bytes Rat)
    (countsOrder : GoMap.Order Bytes Int) (database : List TimeSeries) (op : Operation) (metric : Metric)
    : Option Rat :=
  (w.queryAndAggregate order countsOrder database).toOption.bind
    (fun aggregated => aggregated.lookup (op.oper ++ [95] ++ metric.name))

def latencies : List Metric := [.min, .max, .avg, .p90, .p95, .p99, .p999, .p9999]

section

variable {safe : Bytes} {op : Operation} {metric : Metric}

theorem aggregationKey_fst_iff_isSeriesOf (hmetric : metric.compound = false) (name : Bytes)
    : (aggregationKey safe name).map Prod.fst = some (op.oper ++ 95 :: metric.name)
        ↔
      isSeriesOf safe op metric name := by
  rw [isSeriesOf_iff]
  constructor
  . intro h
    rcases Option.map_eq_some_iff.mp h with ⟨⟨aggKey, method⟩, hkey, haggKey⟩
    rcases parsed_of_aggregationKey hkey with ⟨digits, oper, metric', hparsed, _, hparts⟩
    refine ⟨digits, hparsed.digits, ?_⟩
    rw [hparsed.eq, metricPrefix_append, ← hparts]
    exact congrArg _ haggKey
  . rintro ⟨digits, hdigits, rfl⟩
    rw [aggregationKey_operation safe hdigits, hmetric]
    rfl

variable {database : List TimeSeries}

theorem valuesAt_answer (hmetric : metric.compound = false)
    : valuesAt safe ((answer safe database).map TimeSeries.entry) (op.oper ++ 95 :: metric.name)
        =
      (instanceValues safe op metric database).filter (fun v => 0 < v) := by
  have hqueried : ∀ name, isSeriesOf safe op metric name → queried safe name ∧ name ≠ [] := by
    intro name hname
    rw [← aggregationKey_fst_iff_isSeriesOf hmetric] at hname
    rcases Option.map_eq_some_iff.mp hname with ⟨⟨aggKey, method⟩, hkey, _⟩
    rcases parsed_of_aggregationKey hkey with ⟨_, _, _, hparsed, _, _⟩
    refine ⟨hparsed.queried, ?_⟩
    simp [hparsed.eq]
  unfold valuesAt instanceValues answer
  rw [List.filter_map, List.map_map, List.filter_map, List.filter_filter, List.filter_filter, List.filter_filter]
  congr 1
  apply List.filter_congr
  intro s _
  have hseries : (aggregationKey safe s.metricName).map Prod.fst = some (op.oper ++ 95 :: metric.name)
      ↔ isSeriesOf safe op metric s.metricName :=
    aggregationKey_fst_iff_isSeriesOf hmetric s.metricName
  simp only [Function.comp_apply, TimeSeries.entry, hseries, Bool.decide_and]
  cases hname : isSeriesOf safe op metric s.metricName with
  | false => simp
  | true => simp [hqueried _ hname]

variable (w : PrometheusRemoteWriter) (order : GoMap.Order Bytes Rat) (countsOrder : GoMap.Order Bytes Int)
  (hnames : (database.map TimeSeries.metricName).Nodup)

include hnames

theorem entries_answered_perm
    : ((answered safe database).entries.map (fun entry => (entry.1, entry.2))).Perm
        ((answer safe database).map TimeSeries.entry) := by
  have hnodup : (((answer safe database).map TimeSeries.entry).map Prod.fst).Nodup := by
    rw [List.map_map]
    apply List.Nodup.sublist _ hnames
    exact (List.filter_sublist.trans List.filter_sublist).map _
  have hperm := GoMap.entries_insertAll_perm (m := ∅) hnodup (by simp)
  simpa [answered] using hperm

theorem reported_entry (op : Operation) (hmetric : metric.compound = false)
    : let values := (instanceValues (benchNoSafe w.benchNo) op metric database).filter (fun v => 0 < v)
      Entry values (metric.method.IsResult values) (w.reported order countsOrder database op metric) := by
  have haggKey : op.oper ++ [95] ++ metric.name = op.oper ++ 95 :: metric.name := by simp
  have hunderscore := (metric.plain_name (by simp [hmetric])).2
  dsimp only
  unfold PrometheusRemoteWriter.reported
  rw [queryAndAggregate_eq, haggKey, ← valuesAt_answer hmetric]
  split
  . next hnil =>
    rw [hnil]
    rfl
  . have hentry := aggregateMetrics_entry order countsOrder (answered (benchNoSafe w.benchNo) database)
      (benchNoSafe w.benchNo) (op.oper ++ 95 :: metric.name)
    dsimp only at hentry
    rw [lastPart_append, lastPart_eq_self hunderscore, metric.method_name, Option.getD_some] at hentry
    exact hentry.perm (valuesAt_perm (entries_answered_perm hnames))

end

section

variable {values : List Rat}

theorem sum_filter_pos (hvalues : ∀ v ∈ values, 0 ≤ v) : (values.filter (fun v => 0 < v)).sum = values.sum := by
  induction values with
  | nil => rfl
  | cons v values ih =>
    rw [List.forall_mem_cons] at hvalues
    rw [List.filter_cons, List.sum_cons, ← ih hvalues.2]
    split
    . rw [List.sum_cons]
    . next hnot =>
      rw [decide_eq_true_eq, not_lt] at hnot
      rw [le_antisymm hnot hvalues.1, zero_add]

theorem isGreatest_filter_pos {x : Rat} (h : IsGreatest { v | v ∈ values.filter (fun v => 0 < v) } x)
    : IsGreatest { v | v ∈ values } x := by
  rcases h with ⟨hmem, hle⟩
  rw [Set.mem_ofPred_eq, List.mem_filter, decide_eq_true_eq] at hmem
  refine ⟨hmem.1, ?_⟩
  intro v hv
  cases lt_or_ge 0 v with
  | inl hpos => exact hle (List.mem_filter.mpr ⟨hv, decide_eq_true hpos⟩)
  | inr hnot => exact le_trans hnot (le_of_lt hmem.2)

end

section

variable {values : List Rat} {entry : Option Rat} {method : Method}

theorem Entry.exists_of_ne_nil {p : Rat → Prop} (h : Entry values p entry) (hne : values ≠ [])
    : ∃ x, entry = some x ∧ p x := by
  cases entry with
  | none => exact absurd h hne
  | some x => exact ⟨x, rfl, h.2⟩

-- A zero that is left out is less than the least of the others, and it counts for the average.
theorem all_pos_of_entry (hmethod : method = .min ∨ method = .average) (hvalues : ∀ v ∈ values, 0 ≤ v)
    (hpos : Entry (values.filter (fun v => 0 < v)) (method.IsResult (values.filter (fun v => 0 < v))) entry)
    (h : Entry values (method.IsResult values) entry)
    : ∀ v ∈ values, 0 < v := by
  intro v hv
  rcases h.exists_of_ne_nil (List.ne_nil_of_mem hv) with ⟨x, rfl, hx⟩
  rcases hpos with ⟨hne, hx'⟩
  cases hmethod with
  | inl hmin =>
    subst hmin
    have hpositive : 0 < x := of_decide_eq_true (List.mem_filter.mp hx'.1).2
    exact lt_of_lt_of_le hpositive (hx.2 hv)
  | inr haverage =>
    subst haverage
    have hsum : 0 < values.sum := by
      rw [← sum_filter_pos hvalues]
      apply List.sum_pos _ _ hne
      intro u hu
      exact of_decide_eq_true (List.mem_filter.mp hu).2
    have hlength : ((values.filter (fun v => 0 < v)).length : Rat) = values.length := by
      simp only [Method.IsResult] at hx hx'
      rw [hx', sum_filter_pos hvalues, div_eq_mul_inv, div_eq_mul_inv] at hx
      exact inv_injective (mul_left_cancel₀ (ne_of_gt hsum) hx)
    have hall := List.length_filter_eq_length_iff.mp (Nat.cast_injective hlength) v hv
    exact of_decide_eq_true hall

theorem entry_of_all_pos (hall : ∀ v ∈ values, 0 < v)
    (hpos : Entry (values.filter (fun v => 0 < v)) (method.IsResult (values.filter (fun v => 0 < v))) entry)
    : Entry values (method.IsResult values) entry := by
  have hself : values.filter (fun v => 0 < v) = values := by
    rw [List.filter_eq_self]
    intro v hv
    exact decide_eq_true (hall v hv)
  rwa [hself] at hpos

theorem entry_max_iff
    (hpos : Entry (values.filter (fun v => 0 < v)) (Method.max.IsResult (values.filter (fun v => 0 < v))) entry)
    : Entry values (Method.max.IsResult values) entry ↔ values = [] ∨ ∃ v ∈ values, 0 < v := by
  cases entry with
  | none =>
    have hnil : values.filter (fun v => 0 < v) = [] := hpos
    rw [List.filter_eq_nil_iff] at hnil
    constructor
    . intro h
      exact .inl h
    . rintro (hempty | ⟨v, hv, hlt⟩)
      . exact hempty
      . exact absurd (decide_eq_true hlt) (hnil v hv)
  | some x =>
    have hmem := List.mem_filter.mp hpos.2.1
    constructor
    . intro _
      exact .inr ⟨x, hmem.1, of_decide_eq_true hmem.2⟩
    . intro _
      exact ⟨List.ne_nil_of_mem hmem.1, isGreatest_filter_pos hpos.2⟩

end

theorem reported_right_iff (w : PrometheusRemoteWriter) (order : GoMap.Order Bytes Rat)
    (countsOrder : GoMap.Order Bytes Int) (database : List TimeSeries)
    (hnames : (database.map TimeSeries.metricName).Nodup) (hvalues : ∀ s ∈ database, 0 ≤ s.value) (op : Operation)
    (metric : Metric) (hmetric : metric ∈ latencies)
    : let values := instanceValues (benchNoSafe w.benchNo) op metric database
      Entry values (metric.method.IsResult values) (w.reported order countsOrder database op metric)
        ↔
      if metric = .max then values = [] ∨ ∃ v ∈ values, 0 < v else ∀ v ∈ values, 0 < v := by
  have hplain : ∀ metric ∈ latencies, metric.compound = false := by decide
  have hmethod : ∀ metric ∈ latencies, metric ≠ .max → metric.method = .min ∨ metric.method = .average := by decide
  have hentry := reported_entry w order countsOrder hnames op (hplain metric hmetric)
  have hnonneg : ∀ v ∈ instanceValues (benchNoSafe w.benchNo) op metric database, 0 ≤ v := by
    intro v hv
    rcases List.mem_map.mp hv with ⟨s, hs, rfl⟩
    exact hvalues s (List.mem_of_mem_filter hs)
  dsimp only at hentry ⊢
  split
  . next hmax =>
    subst hmax
    exact entry_max_iff hentry
  . next hne =>
    constructor
    . exact all_pos_of_entry (hmethod metric hmetric hne) hnonneg hentry
    . intro hall
      exact entry_of_all_pos hall hentry

-- Two instances have read, the fastest read of the first one took less than a microsecond.
def zeroMinimum : List TimeSeries :=
  [{
    metricName := Bytes.ofAscii "ycsb_b1_10000001_read_min", benchNo := Bytes.ofAscii "b1",
    opLabel := Bytes.ofAscii "READ", timestamp := 0, value := 0
  },
  {
    metricName := Bytes.ofAscii "ycsb_b1_10000002_read_min", benchNo := Bytes.ofAscii "b1",
    opLabel := Bytes.ofAscii "READ", timestamp := 0, value := 5
  }]

theorem reported_right_without_zero
    : let w : PrometheusRemoteWriter := { benchNo := Bytes.ofAscii "b1", randomNum := Bytes.ofAscii "10000003" }
      let values := instanceValues (benchNoSafe w.benchNo) (.done .read) .min zeroMinimum.tail
      values = [5]
        ∧
      Entry values (Method.min.IsResult values) (w.reported .id .id zeroMinimum.tail (.done .read) .min) := by
  have hiff := reported_right_iff { benchNo := Bytes.ofAscii "b1", randomNum := Bytes.ofAscii "10000003" } .id .id
    zeroMinimum.tail (by decide +kernel) (by decide +kernel) (.done .read) .min (by decide)
  have hvalues : instanceValues (benchNoSafe (Bytes.ofAscii "b1")) (.done .read) .min zeroMinimum.tail = [5] := by
    decide +kernel
  refine ⟨hvalues, hiff.mpr ?_⟩
  rw [if_neg (by decide), hvalues]
  decide +kernel

theorem reported_minimum_drops_zero
    : let w : PrometheusRemoteWriter := { benchNo := Bytes.ofAscii "b1", randomNum := Bytes.ofAscii "10000003" }
      let values := instanceValues (benchNoSafe w.benchNo) (.done .read) .min zeroMinimum
      values = [0, 5]
        ∧
      w.reported .id .id zeroMinimum (.done .read) .min = some 5
        ∧
      ¬ Entry values (Method.min.IsResult values) (w.reported .id .id zeroMinimum (.done .read) .min) := by
  intro w values
  have hvalues : values = [0, 5] := by decide +kernel
  have hreported : w.reported .id .id zeroMinimum (.done .read) .min = some 5 := by decide +kernel
  refine ⟨hvalues, hreported, ?_⟩
  rw [hreported, hvalues]
  rintro ⟨_, _, hleast⟩
  have hzero : (5 : Rat) ≤ 0 := hleast (by simp)
  exact absurd hzero (by decide)

end Measurement
