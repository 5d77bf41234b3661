import GoYcsb.Measurement.Impl.Prometheus
import Mathlib.Data.List.DropRight

/-!
This module contains how the names of the time series are taken apart by the pattern from
`GoYcsb.Measurement.Impl.Prometheus`: the metric is what follows the last underscore.
-/

namespace Measurement

open Regexp

section

variable {s : State UInt8} {k : State UInt8 → Option β} {b : β}

theorem run_underscore {r : Regexp UInt8}
    : (seq (char (· = 95)) r).run s k = some b
        ↔
      ∃ rest, s.rest = 95 :: rest ∧ r.run { s with before := s.before ++ [95], rest } k = some b := by
  cases hrest : s.rest with
  | nil => simp [run, hrest]
  | cons c rest =>
    simp only [run, hrest, decide_eq_true_eq]
    split
    . next heq => simp [heq]
    . next hne => simp [hne]

theorem run_metric
    : (seq (group (plus isWord)) textEnd).run s k = some b
        ↔
      s.rest ≠ [] ∧ (∀ c ∈ s.rest, isWord c) ∧
        k ⟨s.before ++ s.rest, [], s.groups ++ [s.rest]⟩ = some b := by
  simp only [Regexp.run, many_eq_some]
  constructor
  . rintro ⟨metric, rest, hrest, hne, hword, hk, _⟩
    simp at hk
    simp only [hk.1, List.append_nil] at hrest hk
    simp_all
  . rintro ⟨hne, hword, hk⟩
    refine ⟨s.rest, [], by simp, hne, hword, ?_, ?_⟩
    . simpa using hk
    . simp [many]

theorem run_underscore_metric
    : (seq (char (· = 95)) (seq (group (plus isWord)) textEnd)).run s k = some b
        ↔
      ∃ metric,
        s.rest = 95 :: metric ∧ (metric ≠ [] ∧ ∀ c ∈ metric, isWord c) ∧
          k ⟨s.before ++ s.rest, [], s.groups ++ [metric]⟩ = some b := by
  rw [run_underscore]
  constructor
  . rintro ⟨metric, hrest, hrun⟩
    rcases run_metric.mp hrun with ⟨hne, hword, hk⟩
    refine ⟨metric, hrest, ⟨hne, hword⟩, ?_⟩
    simpa [hrest] using hk
  . rintro ⟨metric, hrest, ⟨hne, hword⟩, hk⟩
    refine ⟨metric, hrest, ?_⟩
    rw [run_metric]
    refine ⟨hne, hword, ?_⟩
    simpa [hrest] using hk

theorem run_underscore_metric_eq_none (hk : ∀ s, (k s).isSome)
    : (seq (char (· = 95)) (seq (group (plus isWord)) textEnd)).run s k = none
        ↔
      ∀ metric, s.rest = 95 :: metric → (∀ c ∈ metric, isWord c) → metric = [] := by
  rw [Option.eq_none_iff_forall_ne_some]
  constructor
  . intro h metric hrest hword
    apply Classical.byContradiction
    intro hne
    rcases Option.isSome_iff_exists.mp (hk ⟨s.before ++ s.rest, [], s.groups ++ [metric]⟩) with ⟨b, hb⟩
    apply h b
    rw [run_underscore_metric]
    refine ⟨metric, hrest, ⟨hne, hword⟩, hb⟩
  . intro h b hrun
    rcases run_underscore_metric.mp hrun with ⟨metric, hrest, ⟨hne, hword⟩, _⟩
    apply hne (h metric hrest hword)

theorem run_oper (hk : ∀ s, (k s).isSome)
    : (seq (group (plus isWord)) (seq (char (· = 95)) (seq (group (plus isWord)) textEnd))).run s k = some b
        ↔
      ∃ oper metric,
        s.rest = oper ++ 95 :: metric
          ∧
        (oper ≠ [] ∧ ∀ c ∈ oper, isWord c)
          ∧
        (metric ≠ [] ∧ ∀ c ∈ metric, isWord c)
          ∧
        (∀ x y, metric = x ++ 95 :: y → y = [])
          ∧
        k ⟨s.before ++ s.rest, [], s.groups ++ [oper, metric]⟩ = some b := by
  rw [Regexp.run, run_group_plus, many_eq_some]
  simp only [many_eq_none, run_underscore_metric_eq_none hk, run_underscore_metric]
  constructor
  . rintro ⟨oper, rest, hrest, hne, hword, ⟨metric, hrest', hmetric, hk⟩, hlast⟩
    refine ⟨oper, metric, by simp [hrest, hrest'], ⟨hne, hword⟩, hmetric, ?_, ?_⟩
    . intro x y heq
      have hword' := hmetric.2
      rw [heq, List.forall_mem_append, List.forall_mem_cons] at hword'
      refine hlast (95 :: x) (95 :: y) ?_ ?_ ?_ y rfl hword'.2.2
      . simp [hrest', heq]
      . simp
      . rw [List.forall_mem_cons]
        simp only [hword'.2.1, true_and]
        apply hword'.1
    . simpa [hrest, hrest'] using hk
  . rintro ⟨oper, metric, hrest, ⟨hne, hword⟩, hmetric, hlast, hk⟩
    refine ⟨oper, 95 :: metric, hrest, hne, hword, ⟨metric, rfl, hmetric, ?_⟩, ?_⟩
    . simpa [hrest] using hk
    . intro text rest heq hne hword y hy _
      cases text with
      | nil => contradiction
      | cons c x =>
        simp only [hy, List.cons_append, List.cons.injEq] at heq
        apply hlast x y heq.2

end

structure Parsed (benchNoSafe name randomNum oper metric : Bytes) : Prop where
  eq : name = metricPrefix benchNoSafe randomNum oper ++ 95 :: metric
  digits : randomNum ≠ [] ∧ ∀ c ∈ randomNum, isDigit c
  operWord : oper ≠ [] ∧ ∀ c ∈ oper, isWord c
  metricWord : metric ≠ [] ∧ ∀ c ∈ metric, isWord c
  last : ∀ x y, metric = x ++ 95 :: y → y = []

theorem run_randomNum {s : State UInt8} {k : State UInt8 → Option β} {b : β} {r : Regexp UInt8}
    : (seq (group (plus isDigit)) (seq (char (· = 95)) r)).run s k = some b
        ↔
      ∃ randomNum rest,
        s.rest = randomNum ++ 95 :: rest
          ∧
        (randomNum ≠ [] ∧ ∀ c ∈ randomNum, isDigit c)
          ∧
        r.run ⟨s.before ++ randomNum ++ [95], rest, s.groups ++ [randomNum]⟩ k = some b := by
  rw [Regexp.run, run_group_plus, many_eq_some]
  simp only [run_underscore]
  constructor
  . rintro ⟨randomNum, _, hrest, hne, hdigit, ⟨rest, hrest', hrun⟩, _⟩
    refine ⟨randomNum, rest, by simp [hrest, hrest'], ⟨hne, hdigit⟩, ?_⟩
    simpa using hrun
  . rintro ⟨randomNum, rest, hrest, ⟨hne, hdigit⟩, hrun⟩
    refine ⟨randomNum, 95 :: rest, hrest, hne, hdigit, ⟨rest, rfl, ?_⟩, ?_⟩
    . simpa using hrun
    -- an underscore is no digit
    . simp [many, isDigit]

theorem findStringSubmatch_pattern {benchNoSafe name : Bytes} {submatches : List Bytes} (hne : submatches ≠ [])
    : (pattern benchNoSafe).findStringSubmatch name = submatches
        ↔
      ∃ randomNum oper metric,
        Parsed benchNoSafe name randomNum oper metric ∧ submatches = [name, randomNum, oper, metric] := by
  have hgetD {x : Option (List Bytes)} : x.getD [] = submatches ↔ x = some submatches := by
    cases x with
    | none => simp [hne.symm]
    | some y => simp
  unfold pattern
  rw [findStringSubmatch_textBegin, hgetD, Regexp.run, run_literal]
  simp only [run_randomNum, run_oper (fun _ => Option.isSome_some)]
  constructor
  . rintro ⟨_, hname, randomNum, _, hrest, hdigits, oper, metric, hrest', hoper, hmetric, hlast, hsub⟩
    refine ⟨randomNum, oper, metric, ⟨?_, hdigits, hoper, hmetric, hlast⟩, ?_⟩
    . simp [hname, hrest, hrest', metricPrefix]
    . simp at hsub
      simp [← hsub, hname, hrest, hrest']
  . rintro ⟨randomNum, oper, metric, hparsed, hsub⟩
    refine ⟨randomNum ++ 95 :: (oper ++ 95 :: metric), ?_, randomNum, oper ++ 95 :: metric, rfl, hparsed.digits,
      oper, metric, rfl, hparsed.operWord, hparsed.metricWord, hparsed.last, ?_⟩
    . simp [hparsed.eq, metricPrefix]
    . simp [hsub, hparsed.eq, metricPrefix]

theorem Parsed.aggregationKey {benchNoSafe name randomNum oper metric : Bytes}
    (h : Parsed benchNoSafe name randomNum oper metric) (hoper : oper ≠ Bytes.ofAscii "calculated")
    : Measurement.aggregationKey benchNoSafe name
        =
      (method metric).map (fun method => (oper ++ 95 :: metric, method)) := by
  have hfind : (pattern benchNoSafe).findStringSubmatch name = [name, randomNum, oper, metric] := by
    rw [findStringSubmatch_pattern (by simp)]
    refine ⟨randomNum, oper, metric, h, rfl⟩
  simp [Measurement.aggregationKey, hfind, hoper]

theorem parsed_of_aggregationKey {benchNoSafe name aggKey : Bytes} {method : Method}
    (h : aggregationKey benchNoSafe name = some (aggKey, method))
    : ∃ randomNum oper metric,
        Parsed benchNoSafe name randomNum oper metric
          ∧
        Measurement.method metric = some method
          ∧
        aggKey = oper ++ 95 :: metric := by
  unfold aggregationKey at h
  split at h
  . next hfind =>
    rcases (findStringSubmatch_pattern (by simp)).mp hfind with ⟨randomNum, oper, metric, hparsed, heq⟩
    cases heq
    split at h
    . simp at h
    . simp at h
      refine ⟨_, _, _, hparsed, h.1, h.2.symm⟩
  . simp at h

def lastPart (b : Bytes) : Bytes := b.rtakeWhile (· ≠ 95)

theorem lastPart_append (x y : Bytes) : lastPart (x ++ 95 :: y) = lastPart y := by
  unfold lastPart
  induction y using List.reverseRecOn with
  | nil => simp
  | append_singleton y c ih =>
    rw [← List.cons_append, ← List.append_assoc, List.rtakeWhile_concat, List.rtakeWhile_concat, ih]

theorem lastPart_eq_self {b : Bytes} (h : 95 ∉ b) : lastPart b = b := by
  unfold lastPart
  rw [List.rtakeWhile_eq_self_iff]
  intro c hc
  simp
  intro heq
  apply h
  rwa [← heq]

theorem mem_names_of_method {metric : Bytes} {method : Method} (h : Measurement.method metric = some method)
    : metric ∈ Metric.all.map Metric.name := by
  apply Classical.byContradiction
  intro hnot
  simp only [Metric.all, Metric.name, List.map_cons, List.map_nil, List.mem_cons, not_or] at hnot
  simp [Measurement.method, hnot] at h

theorem Parsed.underscore_not_mem {benchNoSafe name randomNum oper metric : Bytes} {method : Method}
    (h : Parsed benchNoSafe name randomNum oper metric) (hmethod : Measurement.method metric = some method)
    : 95 ∉ metric := by
  intro hmem
  rcases List.append_of_mem hmem with ⟨x, y, heq⟩
  have hnames : ∀ name ∈ Metric.all.map Metric.name, name.getLast? ≠ some 95 := by decide +kernel
  apply hnames metric (mem_names_of_method hmethod)
  simp [heq, h.last x y heq]

theorem method_lastPart {benchNoSafe name aggKey : Bytes} {method : Method}
    (h : aggregationKey benchNoSafe name = some (aggKey, method))
    : Measurement.method (lastPart name) = some method ∧ Measurement.method (lastPart aggKey) = some method := by
  rcases parsed_of_aggregationKey h with ⟨_, oper, metric, hparsed, hmethod, hkey⟩
  have hlast := lastPart_eq_self (hparsed.underscore_not_mem hmethod)
  rw [hkey, hparsed.eq, lastPart_append, lastPart_append, hlast]
  simp [hmethod]

theorem metricPrefix_append (benchNoSafe randomNum x y : Bytes)
    : metricPrefix benchNoSafe randomNum x ++ y = metricPrefix benchNoSafe randomNum (x ++ y) := by
  simp [metricPrefix]

theorem underscore_not_mem_of_digits {b : Bytes} (h : ∀ c ∈ b, isDigit c) : 95 ∉ b := by
  intro hmem
  have hdigit := h 95 hmem
  simp [isDigit] at hdigit

theorem metricPrefix_inj {benchNoSafe randomNum randomNum' x x' : Bytes}
    (hdigits : ∀ c ∈ randomNum, isDigit c) (hdigits' : ∀ c ∈ randomNum', isDigit c)
    (h : metricPrefix benchNoSafe randomNum x = metricPrefix benchNoSafe randomNum' x')
    : randomNum = randomNum' ∧ x = x' := by
  simp only [metricPrefix, List.append_assoc, List.append_cancel_left_eq, List.cons_append, List.nil_append,
    List.cons.injEq, true_and] at h
  apply Bytes.append_cons_inj (underscore_not_mem_of_digits hdigits) (underscore_not_mem_of_digits hdigits') h

end Measurement
