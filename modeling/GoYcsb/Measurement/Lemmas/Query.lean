import GoYcsb.Measurement.Impl.Query
import GoYcsb.Measurement.Lemmas.Prometheus
import Mathlib.Data.List.Chain

/-!
This module contains when the statistics of a bench number depend on the series of another one. The names of
the series are all there is to tell them apart.
-/

namespace Measurement

open Regexp

def ValidBenchNo (benchNo : Bytes) : Prop := ∀ c ∈ benchNo, isWord c ∨ c = 45

def WrittenBy (benchNo : Bytes) (s : TimeSeries) : Prop := ∃ i : Instance, s ∈ i.series benchNo

def without (benchNo : Bytes) (database : List TimeSeries) : List TimeSeries :=
  database.filter (fun s => s.benchNo ≠ benchNo)

inductive SameStatistics : Except Bytes (GoMap Bytes Rat) → Except Bytes (GoMap Bytes Rat) → Prop where
  | ok {aggregated aggregated' : GoMap Bytes Rat}
    (lookup : ∀ aggKey, aggregated.lookup aggKey = aggregated'.lookup aggKey)
    : SameStatistics (.ok aggregated) (.ok aggregated')
  | error (err : Bytes) : SameStatistics (.error err) (.error err)

/--
The pattern of the first bench number takes the second one for itself, or for itself with a random number
and the beginning of an operation after it.
-/
def Confused (safe safe' : Bytes) : Prop :=
  safe = safe'
    ∨
  ∃ digits,
    (digits ≠ [] ∧ ∀ c ∈ digits, isDigit c)
      ∧
    (safe' = safe ++ 95 :: digits ∨ ∃ rest, safe' = safe ++ 95 :: (digits ++ 95 :: rest))

theorem queried_iff {benchNoSafe name : Bytes}
    : queried benchNoSafe name
        ↔
      ∃ rest, name = Bytes.ofAscii "ycsb_" ++ benchNoSafe ++ [95] ++ rest ∧ rest ≠ [] ∧ ∀ c ∈ rest, c ≠ 10 := by
  unfold queried queryPattern
  rw [findStringSubmatch_textBegin, decide_eq_true_eq]
  constructor
  . intro h
    rcases Option.ne_none_iff_exists'.mp (mt (congrArg (Option.getD · [])) h) with ⟨submatches, hrun⟩
    rw [Regexp.run, run_literal] at hrun
    simp only [Regexp.run, many_eq_some] at hrun
    rcases hrun with ⟨_, hname, rest, _, rfl, hne, hall, hend, _⟩
    simp at hend
    refine ⟨rest, ?_, hne, by simpa using hall⟩
    simpa [hend.1] using hname
  . rintro ⟨rest, hname, hne, hall⟩
    have hrun : (seq (literal (Bytes.ofAscii "ycsb_" ++ benchNoSafe ++ [95])) (seq (plus (· ≠ 10)) textEnd)).run
        ⟨[], name, []⟩ (fun s => some (s.before :: s.groups)) = some [name] := by
      rw [Regexp.run, run_literal]
      refine ⟨rest, hname, ?_⟩
      rw [Regexp.run, Regexp.run, many_eq_some]
      refine ⟨rest, [], by simp, hne, by simpa using hall, ?_, by simp [many]⟩
      simp [Regexp.run, hname]
    rw [hrun]
    simp

section

variable {benchNo : Bytes} {s : TimeSeries} {i : Instance}

theorem benchNo_of_mem_series (h : s ∈ i.series benchNo) : s.benchNo = benchNo := by
  simp only [Instance.series, PrometheusRemoteWriter.buildTimeSeries, PrometheusRemoteWriter.operationSeries,
    PrometheusRemoteWriter.createSeries, List.mem_append, List.mem_flatMap, List.mem_map, List.mem_singleton] at h
  rcases h with ⟨_, _, _, _, rfl⟩ | rfl
  . rfl
  . rfl

theorem exists_suffix_of_mem_series (h : s ∈ i.series benchNo)
    : ∃ suffix ∈ suffixes ((PrometheusRemoteWriter.operations i.histograms i.skipReadModifyWrite).map Prod.fst),
        s.metricName = metricPrefix (benchNoSafe benchNo) (Bytes.decimal i.randomNum) suffix := by
  have hmem : s.metricName ∈ ((i.series benchNo).map TimeSeries.entry).map Prod.fst := by
    rw [List.map_map]
    exact List.mem_map.mpr ⟨s, h, rfl⟩
  rw [names_series] at hmem
  rcases List.mem_map.mp hmem with ⟨suffix, hsuffix, heq⟩
  exact ⟨suffix, hsuffix, heq.symm⟩

theorem mem_suffixes_all {operations : List Operation} {suffix : Bytes} (h : suffix ∈ suffixes operations)
    : suffix ∈ suffixes Operation.all := by
  unfold suffixes at h ⊢
  rw [List.mem_append, List.mem_map] at h ⊢
  rcases h with ⟨⟨op, metric⟩, _, rfl⟩ | hcalculated
  . left
    exact ⟨(op, metric), List.pair_mem_product.mpr ⟨op.mem_all, metric.mem_all⟩, rfl⟩
  . exact .inr hcalculated

end

theorem isChain_suffixes
    : ∀ suffix ∈ suffixes Operation.all, List.IsChain (fun c d => c = 95 → isDigit d = false) (95 :: suffix) := by
  have hall : (∀ op ∈ Operation.all,
      List.IsChain (fun c d => c = 95 → isDigit d = false) ((95 :: op.oper) ++ [95]))
        ∧
      (∀ metric ∈ Metric.all, List.IsChain (fun c d => c = 95 → isDigit d = false) (95 :: metric.name))
        ∧
      List.IsChain (fun c d => c = 95 → isDigit d = false) (95 :: Bytes.ofAscii "calculated_total_ops") := by
    decide +kernel
  intro suffix hsuffix
  unfold suffixes at hsuffix
  rw [List.mem_append, List.mem_map, List.mem_singleton] at hsuffix
  rcases hsuffix with ⟨⟨op, metric⟩, _, rfl⟩ | rfl
  . rw [← List.cons_append, List.isChain_split]
    exact ⟨hall.1 op op.mem_all, hall.2.1 metric metric.mem_all⟩
  . exact hall.2.2

theorem not_digits_after_underscore {suffix x digits rest : Bytes} (hsuffix : suffix ∈ suffixes Operation.all)
    (hdigits : digits ≠ [] ∧ ∀ c ∈ digits, isDigit c)
    : 95 :: suffix ≠ x ++ 95 :: (digits ++ rest) := by
  intro heq
  have hchain := isChain_suffixes suffix hsuffix
  rw [heq] at hchain
  cases digits with
  | nil => exact hdigits.1 rfl
  | cons d digits =>
    rw [List.cons_append, List.isChain_append_cons_cons] at hchain
    have hdigit := hdigits.2 d List.mem_cons_self
    rw [hchain.2.1 rfl] at hdigit
    contradiction

theorem eq_or_exists_of_append_eq {digits x y z : Bytes} (hdigits : ∀ c ∈ digits, isDigit c)
    (h : digits ++ 95 :: x = y ++ 95 :: z)
    : (y = digits ∧ z = x) ∨ ∃ rest, y = digits ++ 95 :: rest ∧ x = rest ++ 95 :: z := by
  rcases List.append_eq_append_iff.mp h with ⟨more, hy, hmore⟩ | ⟨more, hdigits', hmore⟩
  . cases more with
    | nil =>
      rw [List.nil_append, List.cons.injEq] at hmore
      rw [List.append_nil] at hy
      exact .inl ⟨hy, hmore.2.symm⟩
    | cons c rest =>
      rw [List.cons_append, List.cons.injEq] at hmore
      rw [← hmore.1] at hy
      exact .inr ⟨rest, hy, hmore.2⟩
  . cases more with
    | nil =>
      rw [List.nil_append, List.cons.injEq] at hmore
      rw [List.append_nil] at hdigits'
      exact .inl ⟨hdigits'.symm, hmore.2⟩
    | cons c rest =>
      rw [List.cons_append, List.cons.injEq] at hmore
      have hunderscore := underscore_not_mem_of_digits hdigits
      simp [hdigits', ← hmore.1] at hunderscore

theorem confused_of_aggregationKey {safe safe' randomNum suffix : Bytes}
    (hrandom : ∀ c ∈ randomNum, isDigit c) (hsuffix : suffix ∈ suffixes Operation.all)
    {aggKey : Bytes} {method : Method}
    (h : aggregationKey safe (metricPrefix safe' randomNum suffix) = some (aggKey, method))
    : Confused safe safe' := by
  rcases parsed_of_aggregationKey h with ⟨digits, oper, metric, hparsed, _, _⟩
  have heq := hparsed.eq
  simp only [metricPrefix, List.append_assoc, List.cons_append, List.nil_append, List.append_cancel_left_eq] at heq
  rcases List.append_eq_append_iff.mp heq with ⟨more, hsafe, hmore⟩ | ⟨more, hsafe, hmore⟩
  . cases more with
    | nil =>
      left
      simpa using hsafe
    -- a longer name would have to end within the suffix
    | cons c more =>
      rw [List.cons_append, List.cons.injEq] at hmore
      rcases eq_or_exists_of_append_eq hrandom hmore.2 with ⟨_, hrest⟩ | ⟨rest, _, hrest⟩
      . have hstart : 95 :: suffix = [] ++ 95 :: (digits ++ 95 :: (oper ++ 95 :: metric)) := by
          rw [List.nil_append, hrest]
        exact absurd hstart (not_digits_after_underscore hsuffix hparsed.digits)
      . have hstart : 95 :: suffix = (95 :: rest) ++ 95 :: (digits ++ 95 :: (oper ++ 95 :: metric)) := by
          rw [hrest, List.cons_append]
        exact absurd hstart (not_digits_after_underscore hsuffix hparsed.digits)
  . cases more with
    | nil =>
      left
      simpa using hsafe.symm
    | cons c more =>
      rw [List.cons_append, List.cons.injEq] at hmore
      right
      refine ⟨digits, hparsed.digits, ?_⟩
      rw [hsafe, ← hmore.1]
      rcases eq_or_exists_of_append_eq hparsed.digits.2 hmore.2 with ⟨hmore', _⟩ | ⟨rest, hmore', _⟩
      . exact .inl (by rw [hmore'])
      . exact .inr ⟨rest, by rw [hmore']⟩

theorem isWord_of_isDigit {c : UInt8} (h : isDigit c) : isWord c := by
  simp [isWord, h]

theorem isWord_benchNoSafe {benchNo : Bytes} (h : ValidBenchNo benchNo) : ∀ c ∈ benchNoSafe benchNo, isWord c := by
  intro c hc
  rcases List.mem_map.mp hc with ⟨d, hd, rfl⟩
  split
  . decide
  . next hne => exact (h d hd).resolve_right hne

theorem Parsed.queried {safe name randomNum oper metric : Bytes} (h : Parsed safe name randomNum oper metric)
    : queried safe name := by
  have hnewline : ∀ b : Bytes, (∀ c ∈ b, isWord c) → 10 ∉ b := by
    intro b hword hmem
    have hten := hword 10 hmem
    simp [isWord, isDigit] at hten
  have hdigits := hnewline randomNum (fun c hc => isWord_of_isDigit (h.digits.2 c hc))
  rw [queried_iff]
  refine ⟨randomNum ++ 95 :: (oper ++ 95 :: metric), ?_, by simp, ?_⟩
  . simp [h.eq, metricPrefix]
  . rintro c hc rfl
    simp [hdigits, hnewline oper h.operWord.2, hnewline metric h.metricWord.2] at hc

theorem aggregationKey_of_mem_suffixes {safe randomNum suffix aggKey : Bytes}
    (hdigits : randomNum ≠ [] ∧ ∀ c ∈ randomNum, isDigit c) (hsuffix : suffix ∈ suffixes operations)
    (h : (aggregationKey safe (metricPrefix safe randomNum suffix)).map Prod.fst = some aggKey)
    : aggKey = suffix := by
  unfold suffixes at hsuffix
  rw [List.mem_append, List.mem_map, List.mem_singleton] at hsuffix
  rcases hsuffix with ⟨x, _, rfl⟩ | rfl
  . rw [aggregationKey_operation safe hdigits] at h
    split at h
    . contradiction
    . cases h
      rfl
  . rw [aggregationKey_calculated safe hdigits] at h
    cases h
    rfl

theorem exists_parsed_of_confused {safe safe' randomNum oper metric : Bytes} (h : Confused safe safe')
    (hsafe : ∀ c ∈ safe', isWord c) (hrandom : randomNum ≠ [] ∧ ∀ c ∈ randomNum, isDigit c)
    (hoper : oper ≠ [] ∧ ∀ c ∈ oper, isWord c) (hmetric : metric ≠ [] ∧ ∀ c ∈ metric, isWord c)
    (hunderscore : 95 ∉ metric)
    : ∃ digits start,
        Parsed safe (metricPrefix safe' randomNum oper ++ 95 :: metric) digits (start ++ oper) metric := by
  have hlast : ∀ x y, metric = x ++ 95 :: y → y = [] := by
    intro x y heq
    simp [heq] at hunderscore
  have hword : ∀ start, (∀ c ∈ start, isWord c) →
      start ++ randomNum ++ 95 :: oper ≠ [] ∧ ∀ c ∈ start ++ randomNum ++ 95 :: oper, isWord c := by
    intro start hstart
    refine ⟨by simp, ?_⟩
    rw [List.forall_mem_append, List.forall_mem_append, List.forall_mem_cons]
    exact ⟨⟨hstart, fun c hc => isWord_of_isDigit (hrandom.2 c hc)⟩, by decide, hoper.2⟩
  rcases h with rfl | ⟨digits, hdigits, rfl | ⟨rest, rfl⟩⟩
  . exact ⟨randomNum, [], rfl, hrandom, hoper, hmetric, hlast⟩
  . refine ⟨digits, randomNum ++ [95], ?_, hdigits, ?_, hmetric, hlast⟩
    . simp [metricPrefix]
    . simpa using hword [] (by simp)
  . rw [List.forall_mem_append, List.forall_mem_cons, List.forall_mem_append] at hsafe
    refine ⟨digits, rest ++ 95 :: (randomNum ++ [95]), ?_, hdigits, ?_, hmetric, hlast⟩
    . simp [metricPrefix]
    . rw [List.forall_mem_cons] at hsafe
      have hrest : ∀ c ∈ rest ++ [95], isWord c := by
        rw [List.forall_mem_append]
        exact ⟨hsafe.2.2.2.2, List.all_eq_true.mp (by decide)⟩
      simpa using hword (rest ++ [95]) hrest

def answer (safe : Bytes) (database : List TimeSeries) : List TimeSeries :=
  (database.filter (fun r => queried safe r.metricName)).filter (fun r => r.metricName ≠ [] ∧ 0 < r.value)

def answered (safe : Bytes) (database : List TimeSeries) : GoMap Bytes Rat :=
  GoMap.insertAll ∅ ((answer safe database).map TimeSeries.entry)

theorem queryAndAggregate_eq (w : PrometheusRemoteWriter) (order : GoMap.Order Bytes Rat)
    (countsOrder : GoMap.Order Bytes Int) (database : List TimeSeries)
    : w.queryAndAggregate order countsOrder database
        =
      if answer (benchNoSafe w.benchNo) database = [] then
        .error (Bytes.ofAscii "failed to query metrics: "
          ++ (Bytes.ofAscii "no metrics found for bench-no: " ++ w.benchNo))
      else
        .ok (aggregateMetrics order countsOrder (answered (benchNoSafe w.benchNo) database)
          (benchNoSafe w.benchNo)) := by
  have hempty : (answered (benchNoSafe w.benchNo) database).keys.length = 0
      ↔ answer (benchNoSafe w.benchNo) database = [] := by
    unfold answered
    rw [GoMap.insertAll_eq_empty_iff, List.map_eq_nil_iff]
  have hquery : w.queryMetrics database (benchNoSafe w.benchNo)
      = if (answered (benchNoSafe w.benchNo) database).keys.length = 0 then
          .error (Bytes.ofAscii "no metrics found for bench-no: " ++ w.benchNo)
        else
          .ok (answered (benchNoSafe w.benchNo) database) := rfl
  unfold PrometheusRemoteWriter.queryAndAggregate
  dsimp only
  rw [hquery]
  by_cases hnil : answer (benchNoSafe w.benchNo) database = []
  . rw [if_pos (hempty.mpr hnil), if_pos hnil]
  . rw [if_neg (mt hempty.mp hnil), if_neg hnil]
    dsimp only
    rw [if_neg (mt hempty.mp hnil)]

theorem mem_answer {safe : Bytes} {database : List TimeSeries} {s : TimeSeries}
    : s ∈ answer safe database ↔ s ∈ database ∧ queried safe s.metricName ∧ 0 < s.value := by
  have hname : queried safe s.metricName → s.metricName ≠ [] := by
    intro h
    rcases queried_iff.mp h with ⟨rest, heq, _⟩
    simp [heq]
  unfold answer
  rw [List.mem_filter, List.mem_filter, decide_eq_true_eq]
  tauto

theorem answer_without (safe benchNo : Bytes) (database : List TimeSeries)
    : answer safe (without benchNo database) = (answer safe database).filter (fun s => s.benchNo ≠ benchNo) := by
  unfold answer without
  rw [List.filter_comm (fun s : TimeSeries => decide (s.benchNo ≠ benchNo)),
    List.filter_comm (fun s : TimeSeries => decide (s.benchNo ≠ benchNo))]

theorem IsResult.unique {method : Method} {values : List Rat} {x y : Rat} (hx : method.IsResult values x)
    (hy : method.IsResult values y)
    : x = y := by
  cases method with
  | sum => exact hx.trans hy.symm
  | min => exact hx.unique hy
  | max => exact hx.unique hy
  | average => exact hx.trans hy.symm

theorem Entry.unique {method : Method} {values : List Rat} {entry entry' : Option Rat}
    (h : Entry values (method.IsResult values) entry) (h' : Entry values (method.IsResult values) entry')
    : entry = entry' := by
  cases entry with
  | none =>
    cases entry' with
    | none => rfl
    | some y => exact absurd h h'.1
  | some x =>
    cases entry' with
    | none => exact absurd h' h.1
    | some y => rw [IsResult.unique h.2 h'.2]

theorem valuesAt_entries_perm {safe aggKey : Bytes} {m m' : GoMap Bytes Rat}
    (h : ∀ name, (aggregationKey safe name).map Prod.fst = some aggKey → m.lookup name = m'.lookup name)
    : (valuesAt safe (m.entries.map (fun entry => (entry.1, entry.2))) aggKey).Perm
        (valuesAt safe (m'.entries.map (fun entry => (entry.1, entry.2))) aggKey) := by
  have hnodup (m : GoMap Bytes Rat) : (m.entries.map (fun entry => (entry.1, entry.2))).Nodup := by
    apply List.Nodup.of_map Prod.fst
    rw [List.map_map]
    exact m.keys_nodup
  unfold valuesAt
  apply List.Perm.map
  rw [List.perm_ext_iff_of_nodup ((hnodup m).filter _) ((hnodup m').filter _)]
  rintro ⟨name, value⟩
  rw [List.mem_filter, List.mem_filter, GoMap.mem_map_entries, GoMap.mem_map_entries, decide_eq_true_eq]
  constructor
  . rintro ⟨hvalue, hkey⟩
    exact ⟨by rw [← h name hkey, hvalue], hkey⟩
  . rintro ⟨hvalue, hkey⟩
    exact ⟨by rw [h name hkey, hvalue], hkey⟩

theorem aggregateMetrics_congr (order order' : GoMap.Order Bytes Rat) (countsOrder countsOrder' : GoMap.Order Bytes Int)
    {safe : Bytes} {m m' : GoMap Bytes Rat}
    (h : ∀ name, (aggregationKey safe name).isSome → m.lookup name = m'.lookup name) (aggKey : Bytes)
    : (aggregateMetrics order countsOrder m safe).lookup aggKey
        =
      (aggregateMetrics order' countsOrder' m' safe).lookup aggKey := by
  have hperm : (valuesAt safe (m.entries.map (fun entry => (entry.1, entry.2))) aggKey).Perm
      (valuesAt safe (m'.entries.map (fun entry => (entry.1, entry.2))) aggKey) := by
    apply valuesAt_entries_perm
    intro name hkey
    apply h
    rcases Option.map_eq_some_iff.mp hkey with ⟨x, hx, _⟩
    rw [hx]
    rfl
  apply Entry.unique
  . exact Entry.perm (aggregateMetrics_entry order countsOrder m safe aggKey) hperm
  . exact aggregateMetrics_entry order' countsOrder' m' safe aggKey

theorem aggregateMetrics_eq_none_iff (order : GoMap.Order Bytes Rat) (countsOrder : GoMap.Order Bytes Int)
    {m : GoMap Bytes Rat} {safe aggKey : Bytes}
    : (aggregateMetrics order countsOrder m safe).lookup aggKey = none
        ↔
      ∀ name ∈ m, (aggregationKey safe name).map Prod.fst ≠ some aggKey := by
  have hentry := aggregateMetrics_entry order countsOrder m safe aggKey
  have hvalues : valuesAt safe (m.entries.map (fun entry => (entry.1, entry.2))) aggKey = []
      ↔ ∀ name ∈ m, (aggregationKey safe name).map Prod.fst ≠ some aggKey := by
    unfold valuesAt
    rw [List.map_eq_nil_iff, List.filter_eq_nil_iff]
    simp only [Prod.forall, GoMap.mem_map_entries, decide_eq_true_eq]
    constructor
    . intro hall name hname
      rcases Option.isSome_iff_exists.mp (AList.lookup_isSome.mpr hname) with ⟨value, hvalue⟩
      exact hall name value hvalue
    . intro hall name value hvalue
      apply hall name
      rw [← AList.lookup_isSome, hvalue]
      rfl
  rw [← hvalues]
  generalize (aggregateMetrics order countsOrder m safe).lookup aggKey = entry at *
  cases entry with
  | none => simpa [Entry] using hentry
  | some x => simpa [Entry] using hentry.1

section

variable {benchNo benchNo' : Bytes} {database : List TimeSeries} {w : PrometheusRemoteWriter}
  (order order' : GoMap.Order Bytes Rat) (countsOrder countsOrder' : GoMap.Order Bytes Int)

theorem sameStatistics_of_not_queried
    (h : ∀ s ∈ database, s.benchNo = benchNo' → queried (benchNoSafe w.benchNo) s.metricName = false)
    : SameStatistics (w.queryAndAggregate order countsOrder database)
        (w.queryAndAggregate order' countsOrder' (without benchNo' database)) := by
  have hanswer : answer (benchNoSafe w.benchNo) (without benchNo' database)
      = answer (benchNoSafe w.benchNo) database := by
    rw [answer_without, List.filter_eq_self]
    intro s hs
    rw [mem_answer] at hs
    rw [decide_eq_true_eq]
    intro heq
    rw [h s hs.1 heq] at hs
    exact Bool.false_ne_true hs.2.1
  rw [queryAndAggregate_eq, queryAndAggregate_eq, answered, answered, hanswer]
  split
  . exact .error _
  . apply SameStatistics.ok
    apply aggregateMetrics_congr
    intro name _
    rfl

theorem sameStatistics_of_not_aggregated
    (h : ∀ s ∈ database, s.benchNo = benchNo' → aggregationKey (benchNoSafe w.benchNo) s.metricName = none)
    {aggregated : GoMap Bytes Rat}
    (hok : w.queryAndAggregate order' countsOrder' (without benchNo' database) = .ok aggregated)
    : SameStatistics (w.queryAndAggregate order countsOrder database) (.ok aggregated) := by
  rw [queryAndAggregate_eq] at hok ⊢
  split at hok
  . contradiction
  . next hne =>
    have hne' : answer (benchNoSafe w.benchNo) database ≠ [] := by
      intro hnil
      rw [answer_without, hnil] at hne
      exact hne rfl
    cases hok
    rw [if_neg hne']
    apply SameStatistics.ok
    apply aggregateMetrics_congr
    intro name hkey
    unfold answered
    rw [answer_without]
    symm
    apply GoMap.lookup_insertAll_map_filter
    intro s hs heq
    rw [decide_eq_true_eq]
    intro howner
    rw [mem_answer] at hs
    have hname : s.metricName = name := heq
    rw [← hname, h s hs.1 howner] at hkey
    contradiction

end

def unitInfo : Info := ⟨1, 1, 1, 1, 1, 1, 1, 1, 1, 1, 1⟩

def unitInstance (op : Operation) (randomNum : Nat)
    (eightDigits : 10000000 ≤ randomNum ∧ randomNum < 100000000) : Instance where
  randomNum := randomNum
  now := 0
  histograms := GoMap.insertAll ∅ [(op, unitInfo)]
  skipReadModifyWrite := false
  eightDigits := eightDigits

theorem value_unitInfo (metric : Metric) : 0 < metric.value unitInfo := by
  cases metric <;> decide +kernel

section

variable {benchNo : Bytes} {randomNum : Nat} {eightDigits : 10000000 ≤ randomNum ∧ randomNum < 100000000}

theorem entry_unitInstance (op : Operation)
    : ((unitInstance op randomNum eightDigits).series benchNo).map TimeSeries.entry
        =
      Metric.all.map (fun metric =>
        (metricPrefix (benchNoSafe benchNo) (Bytes.decimal randomNum) (op.oper ++ 95 :: metric.name),
          metric.value unitInfo))
        ++
      [(metricPrefix (benchNoSafe benchNo) (Bytes.decimal randomNum) (Bytes.ofAscii "calculated_total_ops"),
        if op ≠ .total then 1 else 0)] := by
  have hops : PrometheusRemoteWriter.operations (unitInstance op randomNum eightDigits).histograms
      (unitInstance op randomNum eightDigits).skipReadModifyWrite = [(op, unitInfo)] := rfl
  have htotal : (unitInstance op randomNum eightDigits).totalOps = if op ≠ .total then 1 else 0 := by
    unfold Instance.totalOps PrometheusRemoteWriter.calculatedTotalOps
    rw [hops]
    simp [unitInfo]
  rw [entry_series, hops, htotal, List.flatMap_singleton]
  rfl

theorem exists_mem_unitInstance {op : Operation} {name : Bytes} {value : Rat}
    (h : (name, value) ∈ ((unitInstance op randomNum eightDigits).series benchNo).map TimeSeries.entry)
    : ∃ s ∈ (unitInstance op randomNum eightDigits).series benchNo, s.metricName = name ∧ s.value = value := by
  rcases List.mem_map.mp h with ⟨s, hs, heq⟩
  cases heq
  exact ⟨s, hs, rfl, rfl⟩

variable (benchNo eightDigits) in
theorem exists_mem_metric (op : Operation) (metric : Metric)
    : ∃ s ∈ (unitInstance op randomNum eightDigits).series benchNo,
        s.metricName = metricPrefix (benchNoSafe benchNo) (Bytes.decimal randomNum) (op.oper ++ 95 :: metric.name)
          ∧
        0 < s.value := by
  have hentry : (metricPrefix (benchNoSafe benchNo) (Bytes.decimal randomNum) (op.oper ++ 95 :: metric.name),
      metric.value unitInfo)
        ∈ ((unitInstance op randomNum eightDigits).series benchNo).map TimeSeries.entry := by
    rw [entry_unitInstance]
    exact List.mem_append_left _ (List.mem_map.mpr ⟨metric, metric.mem_all, rfl⟩)
  rcases exists_mem_unitInstance hentry with ⟨s, hs, hname, hvalue⟩
  refine ⟨s, hs, hname, ?_⟩
  rw [hvalue]
  exact value_unitInfo metric

theorem exists_positive {i : Instance} {s : TimeSeries} (h : s ∈ i.series benchNo)
    : ∃ op, ∃ s' ∈ (unitInstance op i.randomNum i.eightDigits).series benchNo,
        s'.metricName = s.metricName ∧ 0 < s'.value := by
  rcases exists_suffix_of_mem_series h with ⟨suffix, hsuffix, hname⟩
  unfold suffixes at hsuffix
  rw [List.mem_append, List.mem_map, List.mem_singleton] at hsuffix
  rcases hsuffix with ⟨⟨op, metric⟩, _, rfl⟩ | rfl
  . rw [hname]
    exact ⟨op, exists_mem_metric benchNo i.eightDigits op metric⟩
  . have hentry : (s.metricName, 1)
        ∈ ((unitInstance (.done .read) i.randomNum i.eightDigits).series benchNo).map TimeSeries.entry := by
      rw [entry_unitInstance, hname]
      exact List.mem_append_right _ (by simp)
    rcases exists_mem_unitInstance hentry with ⟨s', hs', hname', hvalue⟩
    refine ⟨.done .read, s', hs', hname', ?_⟩
    rw [hvalue]
    exact one_pos

end

theorem without_append_series {benchNo benchNo' : Bytes} (hne : benchNo ≠ benchNo') (i i' : Instance)
    : without benchNo' (i.series benchNo ++ i'.series benchNo') = i.series benchNo := by
  unfold without
  rw [List.filter_append, List.filter_eq_self.mpr, List.filter_eq_nil_iff.mpr, List.append_nil]
  . intro s hs
    simp [benchNo_of_mem_series hs]
  . intro s hs
    simp [benchNo_of_mem_series hs, hne]

section

variable {benchNo benchNo' : Bytes} {w : PrometheusRemoteWriter}
  {order order' : GoMap.Order Bytes Rat} {countsOrder countsOrder' : GoMap.Order Bytes Int}

theorem not_queried_of_sameStatistics
    (h : ∀ database, (∀ s ∈ database, WrittenBy w.benchNo s ∨ WrittenBy benchNo' s) →
      SameStatistics (w.queryAndAggregate order countsOrder database)
        (w.queryAndAggregate order' countsOrder' (without benchNo' database)))
    {s : TimeSeries} (hs : WrittenBy benchNo' s)
    : queried (benchNoSafe w.benchNo) s.metricName = false := by
  rw [Bool.eq_false_iff]
  intro hqueried
  rcases hs with ⟨i, hs⟩
  rcases exists_positive hs with ⟨op, s', hs', hname, hpos⟩
  have hsame := h ((unitInstance op i.randomNum i.eightDigits).series benchNo') (fun t ht => .inr ⟨_, ht⟩)
  have hempty : without benchNo' ((unitInstance op i.randomNum i.eightDigits).series benchNo') = [] := by
    unfold without
    rw [List.filter_eq_nil_iff]
    intro t ht
    simp [benchNo_of_mem_series ht]
  have hne : answer (benchNoSafe w.benchNo) ((unitInstance op i.randomNum i.eightDigits).series benchNo') ≠ [] := by
    apply List.ne_nil_of_mem
    rw [mem_answer]
    refine ⟨hs', ?_, hpos⟩
    rw [hname]
    exact hqueried
  have hnil : answer (benchNoSafe w.benchNo) [] = [] := rfl
  rw [hempty, queryAndAggregate_eq, queryAndAggregate_eq, if_neg hne, if_pos hnil] at hsame
  cases hsame

theorem update_ops_not_suffix {start : Bytes}
    : start ++ (Operation.done .update).oper ++ 95 :: Metric.ops.name ∉ suffixes [.done .read] := by
  have hall : ∀ suffix ∈ suffixes [.done .read],
      ¬ (Operation.done .update).oper ++ 95 :: Metric.ops.name <:+ suffix := by
    decide +kernel
  intro hmem
  apply hall _ hmem
  rw [List.append_assoc]
  exact List.suffix_append _ _

theorem update_ne_calculated {start : Bytes}
    : start ++ (Operation.done .update).oper ≠ Bytes.ofAscii "calculated" := by
  have hnot : ¬ (Operation.done .update).oper <:+ Bytes.ofAscii "calculated" := by decide
  intro heq
  apply hnot
  rw [← heq]
  exact List.suffix_append _ _

theorem mem_answered {safe name : Bytes} {database : List TimeSeries}
    : name ∈ answered safe database ↔ ∃ s ∈ answer safe database, s.metricName = name := by
  unfold answered
  rw [GoMap.mem_insertAll, List.map_map, List.mem_map]
  simp [TimeSeries.entry]

theorem aggregated_read_eq_none {benchNo : Bytes} {randomNum : Nat}
    (eightDigits : 10000000 ≤ randomNum ∧ randomNum < 100000000) (start : Bytes)
    : (aggregateMetrics order countsOrder
        (answered (benchNoSafe benchNo) ((unitInstance (.done .read) randomNum eightDigits).series benchNo))
        (benchNoSafe benchNo)).lookup (start ++ (Operation.done .update).oper ++ 95 :: Metric.ops.name) = none := by
  rw [aggregateMetrics_eq_none_iff]
  intro name hname hkey
  rcases mem_answered.mp hname with ⟨s, hs, rfl⟩
  rcases exists_suffix_of_mem_series (mem_answer.mp hs).1 with ⟨suffix, hsuffix, hname⟩
  rw [hname] at hkey
  have heq := aggregationKey_of_mem_suffixes (digits_decimal _) hsuffix hkey
  rw [← heq] at hsuffix
  exact update_ops_not_suffix hsuffix

-- A run of each bench number, with an operation that the other one has not measured.
theorem not_confused_of_sameStatistics (hne : w.benchNo ≠ benchNo') (hvalid : ValidBenchNo w.benchNo)
    (hvalid' : ValidBenchNo benchNo')
    (h : ∀ database, (∀ s ∈ database, WrittenBy w.benchNo s ∨ WrittenBy benchNo' s) →
      ∀ aggregated, w.queryAndAggregate order' countsOrder' (without benchNo' database) = .ok aggregated →
        SameStatistics (w.queryAndAggregate order countsOrder database) (.ok aggregated))
    : ¬ Confused (benchNoSafe w.benchNo) (benchNoSafe benchNo') := by
  intro hconfused
  have hread : 10000000 ≤ 10000000 ∧ 10000000 < 100000000 := by decide
  have hupdate : 10000000 ≤ 10000001 ∧ 10000001 < 100000000 := by decide
  rcases Metric.plain_name (show ¬ Metric.ops.compound by decide) with ⟨hops, hunderscore⟩
  have hwithout := without_append_series hne (unitInstance (.done .read) _ hread)
    (unitInstance (.done .update) _ hupdate)
  have hsame := h ((unitInstance (.done .read) _ hread).series w.benchNo
    ++ (unitInstance (.done .update) _ hupdate).series benchNo')
  rw [hwithout, queryAndAggregate_eq, queryAndAggregate_eq] at hsame
  -- the query of the first run succeeds without the second one
  have hown : answer (benchNoSafe w.benchNo) ((unitInstance (.done .read) _ hread).series w.benchNo) ≠ [] := by
    rcases exists_mem_metric w.benchNo hread (.done .read) .ops with ⟨s, hs, hname, hpos⟩
    have hoper := (Operation.done .read).isOper
    rcases exists_parsed_of_confused (.inl rfl) (isWord_benchNoSafe hvalid) (digits_decimal 10000000)
      ⟨hoper.ne_nil, hoper.word⟩ hops hunderscore with ⟨_, _, hparsed⟩
    apply List.ne_nil_of_mem
    rw [mem_answer]
    refine ⟨hs, ?_, hpos⟩
    rw [hname, ← metricPrefix_append]
    exact hparsed.queried
  -- the second one adds an entry
  rcases exists_mem_metric benchNo' hupdate (.done .update) .ops with ⟨s, hs, hname, hpos⟩
  have hoper := (Operation.done .update).isOper
  rcases exists_parsed_of_confused hconfused (isWord_benchNoSafe hvalid') (digits_decimal 10000001)
    ⟨hoper.ne_nil, hoper.word⟩ hops hunderscore with ⟨digits, start, hparsed⟩
  rw [← metricPrefix_append] at hname
  rw [← hname] at hparsed
  have hmem : s ∈ answer (benchNoSafe w.benchNo) ((unitInstance (.done .read) _ hread).series w.benchNo
      ++ (unitInstance (.done .update) _ hupdate).series benchNo') := by
    rw [mem_answer]
    exact ⟨List.mem_append_right _ hs, hparsed.queried, hpos⟩
  rw [if_neg hown, if_neg (List.ne_nil_of_mem hmem)] at hsame
  have hwritten : ∀ s ∈ (unitInstance (.done .read) _ hread).series w.benchNo
      ++ (unitInstance (.done .update) _ hupdate).series benchNo', WrittenBy w.benchNo s ∨ WrittenBy benchNo' s := by
    rw [List.forall_mem_append]
    exact ⟨fun s hs => .inl ⟨_, hs⟩, fun s hs => .inr ⟨_, hs⟩⟩
  cases hsame hwritten _ rfl with
  | ok hsame =>
    have hlookup := hsame (start ++ (Operation.done .update).oper ++ 95 :: Metric.ops.name)
    rw [aggregated_read_eq_none hread, aggregateMetrics_eq_none_iff] at hlookup
    apply hlookup s.metricName (mem_answered.mpr ⟨s, hmem, rfl⟩)
    rw [hparsed.aggregationKey update_ne_calculated, Metric.method_name]
    rfl

end

theorem statistics_independent_iff {benchNo benchNo' : Bytes} (hne : benchNo ≠ benchNo')
    (hvalid : ValidBenchNo benchNo) (hvalid' : ValidBenchNo benchNo') (randomNum : Bytes)
    (order order' : GoMap.Order Bytes Rat) (countsOrder countsOrder' : GoMap.Order Bytes Int)
    : let w : PrometheusRemoteWriter := { benchNo, randomNum }
      ((∀ database, (∀ s ∈ database, WrittenBy benchNo s ∨ WrittenBy benchNo' s) →
        ∀ aggregated, w.queryAndAggregate order' countsOrder' (without benchNo' database) = .ok aggregated →
          SameStatistics (w.queryAndAggregate order countsOrder database) (.ok aggregated))
          ↔
        ¬ Confused (benchNoSafe benchNo) (benchNoSafe benchNo'))
        ∧
      ((∀ database, (∀ s ∈ database, WrittenBy benchNo s ∨ WrittenBy benchNo' s) →
        SameStatistics (w.queryAndAggregate order countsOrder database)
          (w.queryAndAggregate order' countsOrder' (without benchNo' database)))
          ↔
        ∀ s, WrittenBy benchNo' s → queried (benchNoSafe benchNo) s.metricName = false) := by
  have howner {database : List TimeSeries} {s : TimeSeries}
      (hwritten : ∀ s ∈ database, WrittenBy benchNo s ∨ WrittenBy benchNo' s) (hs : s ∈ database)
      (hbench : s.benchNo = benchNo') : WrittenBy benchNo' s := by
    rcases hwritten s hs with ⟨i, hi⟩ | hother
    . exact absurd ((benchNo_of_mem_series hi).symm.trans hbench) hne
    . exact hother
  intro w
  constructor
  . constructor
    . intro h
      exact not_confused_of_sameStatistics (w := w) hne hvalid hvalid' h
    . intro hconfused database hwritten aggregated hok
      apply sameStatistics_of_not_aggregated order order' countsOrder countsOrder' _ hok
      intro s hs hbench
      rcases howner hwritten hs hbench with ⟨i, hi⟩
      rcases exists_suffix_of_mem_series hi with ⟨suffix, hsuffix, hname⟩
      rw [Option.eq_none_iff_forall_ne_some]
      rintro ⟨aggKey, method⟩ hkey
      rw [hname] at hkey
      exact hconfused (confused_of_aggregationKey (isDigit_decimal _) (mem_suffixes_all hsuffix) hkey)
  . constructor
    . intro h s hs
      exact not_queried_of_sameStatistics (w := w) h hs
    . intro h database hwritten
      apply sameStatistics_of_not_queried
      intro s hs hbench
      exact h s (howner hwritten hs hbench)

theorem statistics_independent_of_other_name
    : ¬ Confused (Bytes.ofAscii "a") (Bytes.ofAscii "b")
        ∧
      ∀ database,
        (∀ s ∈ database, WrittenBy (Bytes.ofAscii "a") s ∨ WrittenBy (Bytes.ofAscii "b") s) →
          ∀ aggregated,
            PrometheusRemoteWriter.queryAndAggregate ⟨Bytes.ofAscii "a", []⟩ .id .id
              (without (Bytes.ofAscii "b") database) = .ok aggregated →
            SameStatistics
              (PrometheusRemoteWriter.queryAndAggregate ⟨Bytes.ofAscii "a", []⟩ .id .id database)
              (.ok aggregated) := by
  have hiff := statistics_independent_iff (show Bytes.ofAscii "a" ≠ Bytes.ofAscii "b" by decide)
    (List.forall_mem_singleton.mpr (by decide)) (List.forall_mem_singleton.mpr (by decide)) [] .id .id .id .id
  have hnot : ¬ Confused (Bytes.ofAscii "a") (Bytes.ofAscii "b") := by
    rintro (heq | ⟨digits, _, heq | ⟨rest, heq⟩⟩)
    . exact absurd heq (by decide)
    . cases heq
    . cases heq
  exact ⟨hnot, hiff.1.mpr hnot⟩

theorem sanitised_twin_adds_entry
    : let own := (unitInstance (.done .read) 10000000 (by decide)).series (Bytes.ofAscii "a-b")
      let other := (unitInstance (.done .update) 10000001 (by decide)).series (Bytes.ofAscii "a_b")
      let statistics (database : List TimeSeries) : Option (Option Rat) :=
        (PrometheusRemoteWriter.queryAndAggregate ⟨Bytes.ofAscii "a-b", []⟩ .id .id database).toOption.map
          (fun aggregated => aggregated.lookup (Bytes.ofAscii "update_ops"))
      statistics (own ++ other) = some (some 1)
        ∧
      statistics (without (Bytes.ofAscii "a_b") (own ++ other)) = some none := by
  decide +kernel

end Measurement
