import GoYcsb.Measurement.Lemmas.MetricName
import Mathlib.Algebra.BigOperators.Group.List.Basic
import Mathlib.Order.Bounds.Basic

/-!
This module contains the verification of `aggregateMetrics` from `GoYcsb.Measurement.Impl.Prometheus`: what
there is for a key is a function of the values that belong to the key.
-/

namespace Measurement

def Method.IsRunning (method : Method) (values : List Rat) (x : Rat) : Prop :=
  match method with
  | .sum | .average => x = values.sum
  | .min => IsLeast { v | v ∈ values } x
  | .max => IsGreatest { v | v ∈ values } x

def Method.IsResult (method : Method) (values : List Rat) (x : Rat) : Prop :=
  match method with
  | .sum => x = values.sum
  | .min => IsLeast { v | v ∈ values } x
  | .max => IsGreatest { v | v ∈ values } x
  | .average => x = values.sum / values.length

/-- What a map has for a key, where there is no entry if there are no values. -/
def Entry (values : List Rat) (p : Rat → Prop) (entry : Option Rat) : Prop :=
  match entry with
  | none => values = []
  | some x => values ≠ [] ∧ p x

theorem Entry.mono {values : List Rat} {p q : Rat → Prop} {entry : Option Rat} (h : Entry values p entry)
    (himp : values ≠ [] → ∀ x, p x → q x)
    : Entry values q entry := by
  cases entry with
  | none => apply h
  | some x =>
    rcases h with ⟨hne, hp⟩
    constructor
    . assumption
    . apply himp hne x hp

def valuesAt (benchNoSafe : Bytes) (series : List (Bytes × Rat)) (aggKey : Bytes) : List Rat :=
  (series.filter (fun s => (aggregationKey benchNoSafe s.1).map Prod.fst = some aggKey)).map Prod.snd

theorem valuesAt_append (benchNoSafe : Bytes) (series series' : List (Bytes × Rat)) (aggKey : Bytes)
    : valuesAt benchNoSafe (series ++ series') aggKey
        =
      valuesAt benchNoSafe series aggKey ++ valuesAt benchNoSafe series' aggKey := by
  simp [valuesAt]

theorem valuesAt_cons (benchNoSafe : Bytes) (s : Bytes × Rat) (series : List (Bytes × Rat)) (aggKey : Bytes)
    : valuesAt benchNoSafe (s :: series) aggKey
        =
      valuesAt benchNoSafe [s] aggKey ++ valuesAt benchNoSafe series aggKey := by
  rw [← valuesAt_append, List.singleton_append]

theorem valuesAt_flatMap (benchNoSafe : Bytes) (l : List α) (series : α → List (Bytes × Rat)) (aggKey : Bytes)
    : valuesAt benchNoSafe (l.flatMap series) aggKey
        =
      l.flatMap (fun x => valuesAt benchNoSafe (series x) aggKey) := by
  simp [valuesAt, List.filter_flatMap, List.map_flatMap]

namespace Aggregation

structure Aggregates (a : Aggregation) (aggKey : Bytes) (method : Method) (values : List Rat) : Prop where
  aggregated : Entry values (method.IsRunning values) (a.aggregated.lookup aggKey)
  counts :
    a.counts.lookup aggKey = if method = .average ∧ values ≠ [] then some (values.length : Int) else none
  minValues : method = .min → a.minValues.lookup aggKey = a.aggregated.lookup aggKey
  maxValues : method = .max → a.maxValues.lookup aggKey = a.aggregated.lookup aggKey

theorem aggregates_new (aggKey : Bytes) (method : Method) : new.Aggregates aggKey method [] := by
  constructor
  . simp [new, Entry]
  . simp [new]
  . simp [new]
  . simp [new]

theorem get_aggregated {a : Aggregation} {aggKey : Bytes} {method : Method} {values : List Rat}
    (h : a.Aggregates aggKey method values) (hmethod : method = .sum ∨ method = .average)
    : a.aggregated.get aggKey 0 = values.sum := by
  have hentry := h.aggregated
  unfold GoMap.get
  cases hlookup : a.aggregated.lookup aggKey with
  | none =>
    rw [hlookup] at hentry
    simp [show values = [] from hentry]
  | some x =>
    rw [hlookup] at hentry
    cases hmethod with
    | inl hsum =>
      subst hsum
      apply hentry.2
    | inr haverage =>
      subst haverage
      apply hentry.2

theorem exists_extremum {values : List Rat} {p : List Rat → Rat → Prop} {m : GoMap Bytes Rat} {aggKey : Bytes}
    {better : Rat → Rat → Bool} (hone : ∀ value, p [value] value)
    (hconcat : ∀ values x value, p values x → p (values ++ [value]) (if better value x then value else x))
    (h : Entry values (p values) (m.lookup aggKey)) (value : Rat)
    : ∃ x, (extremum m better aggKey value).lookup aggKey = some x ∧ p (values ++ [value]) x := by
  unfold extremum
  split
  . next hnone =>
    rw [hnone] at h
    apply Exists.intro value
    simp [show values = [] from h, hone]
  . next current hsome =>
    rw [hsome] at h
    have hp := hconcat values current value h.2
    split
    . next hbetter =>
      apply Exists.intro value
      simpa [hbetter] using hp
    . next hbetter =>
      apply Exists.intro current
      simpa [hbetter, hsome] using hp

theorem lookup_extremum_ne (values : GoMap Bytes Rat) (better : Rat → Rat → Bool) {aggKey aggKey' : Bytes}
    (value : Rat) (hne : aggKey ≠ aggKey')
    : (extremum values better aggKey' value).lookup aggKey = values.lookup aggKey := by
  unfold extremum
  split
  . rw [GoMap.lookup_insert, if_neg hne]
  . split
    . rw [GoMap.lookup_insert, if_neg hne]
    . rfl

theorem isLeast_concat (values : List Rat) (x value : Rat) (h : Method.min.IsRunning values x)
    : Method.min.IsRunning (values ++ [value]) (if decide (value < x) then value else x) := by
  simp only [decide_eq_true_eq]
  rcases h with ⟨hmem, hle⟩
  simp only [mem_lowerBounds, Set.mem_ofPred_eq] at hmem hle
  constructor
  . simp only [Set.mem_ofPred_eq, List.mem_append, List.mem_singleton]
    grind
  . simp only [mem_lowerBounds, Set.mem_ofPred_eq, List.mem_append, List.mem_singleton]
    grind

theorem isGreatest_concat (values : List Rat) (x value : Rat) (h : Method.max.IsRunning values x)
    : Method.max.IsRunning (values ++ [value]) (if decide (x < value) then value else x) := by
  simp only [decide_eq_true_eq]
  rcases h with ⟨hmem, hle⟩
  simp only [mem_upperBounds, Set.mem_ofPred_eq] at hmem hle
  constructor
  . simp only [Set.mem_ofPred_eq, List.mem_append, List.mem_singleton]
    grind
  . simp only [mem_upperBounds, Set.mem_ofPred_eq, List.mem_append, List.mem_singleton]
    grind

theorem Aggregates.add {a : Aggregation} {aggKey : Bytes} {method : Method} {values : List Rat}
    (h : a.Aggregates aggKey method values) (value : Rat)
    : (a.add aggKey method value).Aggregates aggKey method (values ++ [value]) := by
  have hcounts := h.counts
  cases method with
  | sum =>
    constructor
    . simp [Aggregation.add, Entry, Method.IsRunning, get_aggregated h]
    . simpa [Aggregation.add] using hcounts
    . simp
    . simp
  | min =>
    have hmin := h.aggregated
    rw [← h.minValues rfl] at hmin
    rcases exists_extremum (by simp [Method.IsRunning]) isLeast_concat hmin value with ⟨x, hx, hleast⟩
    constructor
    . simpa [Aggregation.add, Entry, GoMap.get, hx] using hleast
    . simpa [Aggregation.add] using hcounts
    . simp [Aggregation.add, GoMap.get, hx]
    . simp
  | max =>
    have hmax := h.aggregated
    rw [← h.maxValues rfl] at hmax
    rcases exists_extremum (by simp [Method.IsRunning]) isGreatest_concat hmax value with ⟨x, hx, hgreatest⟩
    constructor
    . simpa [Aggregation.add, Entry, GoMap.get, hx] using hgreatest
    . simpa [Aggregation.add] using hcounts
    . simp
    . simp [Aggregation.add, GoMap.get, hx]
  | average =>
    constructor
    . simp [Aggregation.add, Entry, Method.IsRunning, get_aggregated h]
    . have hget : a.counts.get aggKey 0 = values.length := by
        unfold GoMap.get
        rw [hcounts]
        cases values <;> simp
      simp [Aggregation.add, hget]
    . simp
    . simp

theorem Aggregates.add_ne {a : Aggregation} {aggKey aggKey' : Bytes} {method : Method} {values : List Rat}
    (h : a.Aggregates aggKey method values) (method' : Method) (value : Rat) (hne : aggKey ≠ aggKey')
    : (a.add aggKey' method' value).Aggregates aggKey method values := by
  rcases h with ⟨haggregated, hcounts, hmin, hmax⟩
  cases method' with
  | sum => constructor <;> simpa [Aggregation.add, AList.lookup_insert_ne hne]
  | min => constructor <;> simpa [Aggregation.add, AList.lookup_insert_ne hne, lookup_extremum_ne _ _ _ hne]
  | max => constructor <;> simpa [Aggregation.add, AList.lookup_insert_ne hne, lookup_extremum_ne _ _ _ hne]
  | average => constructor <;> simpa [Aggregation.add, AList.lookup_insert_ne hne]

theorem Aggregates.addSeries {benchNoSafe : Bytes} {a : Aggregation} {aggKey : Bytes} {method : Method}
    {values : List Rat} {s : Bytes × Rat} (h : a.Aggregates aggKey method values)
    (hmethod : ∀ method', aggregationKey benchNoSafe s.1 = some (aggKey, method') → method' = method)
    : (a.addSeries benchNoSafe s).Aggregates aggKey method (values ++ valuesAt benchNoSafe [s] aggKey) := by
  unfold Aggregation.addSeries
  split
  . next aggKey' method' hkey =>
    cases decEq aggKey' aggKey with
    | isTrue heq =>
      subst heq
      rw [hmethod method' hkey]
      simpa [valuesAt, hkey] using h.add s.2
    | isFalse hne => simpa [valuesAt, hkey, hne] using h.add_ne method' s.2 (Ne.symm hne)
  . next hkey => simpa [valuesAt, hkey] using h

theorem Aggregates.addAll {benchNoSafe : Bytes} {a : Aggregation} {aggKey : Bytes} {method : Method}
    {values : List Rat} {series : List (Bytes × Rat)} (h : a.Aggregates aggKey method values)
    (hmethod : ∀ s ∈ series, ∀ method', aggregationKey benchNoSafe s.1 = some (aggKey, method') → method' = method)
    : (a.addAll benchNoSafe series).Aggregates aggKey method (values ++ valuesAt benchNoSafe series aggKey) := by
  induction series generalizing a values with
  | nil => simpa [Aggregation.addAll, valuesAt] using h
  | cons s series ih =>
    rw [List.forall_mem_cons] at hmethod
    rw [valuesAt_cons, ← List.append_assoc]
    apply ih (h.addSeries hmethod.1) hmethod.2

theorem divide_cons (aggregated : GoMap Bytes Rat) (entry : Bytes × Int) (counts : List (Bytes × Int))
    : divide aggregated (entry :: counts) = divide (divide aggregated [entry]) counts := by
  simp [divide]

theorem lookup_divide_singleton (aggregated : GoMap Bytes Rat) {aggKey aggKey' : Bytes} (n : Int)
    (hne : aggKey ≠ aggKey')
    : (divide aggregated [(aggKey', n)]).lookup aggKey = aggregated.lookup aggKey := by
  simp only [divide, List.foldl_cons, List.foldl_nil]
  split
  . rw [AList.lookup_insert_ne hne]
  . rfl

theorem lookup_divide_of_not_mem (aggregated : GoMap Bytes Rat) {counts : List (Bytes × Int)} {aggKey : Bytes}
    (h : aggKey ∉ counts.map Prod.fst)
    : (divide aggregated counts).lookup aggKey = aggregated.lookup aggKey := by
  induction counts generalizing aggregated with
  | nil => simp [divide]
  | cons entry counts ih =>
    rw [List.map_cons, List.mem_cons, not_or] at h
    rw [divide_cons, ih _ h.2, lookup_divide_singleton _ _ h.1]

theorem lookup_divide_of_mem (aggregated : GoMap Bytes Rat) {counts : List (Bytes × Int)} {aggKey : Bytes} {n : Int}
    (hnodup : (counts.map Prod.fst).Nodup) (h : (aggKey, n) ∈ counts) (hpos : 0 < n)
    : (divide aggregated counts).lookup aggKey = some (aggregated.get aggKey 0 / n) := by
  induction counts generalizing aggregated with
  | nil => simp at h
  | cons entry counts ih =>
    rw [List.map_cons, List.nodup_cons] at hnodup
    rw [divide_cons]
    cases List.mem_cons.mp h with
    | inl heq =>
      subst heq
      rw [lookup_divide_of_not_mem _ hnodup.1]
      simp [divide, hpos]
    | inr hmem =>
      have hne : aggKey ≠ entry.1 := by
        intro heq
        apply hnodup.1
        rw [← heq]
        apply List.mem_map_of_mem hmem
      rw [ih _ hnodup.2 hmem]
      simp only [GoMap.get, lookup_divide_singleton _ _ hne]

theorem Aggregates.divide {a : Aggregation} {aggKey : Bytes} {method : Method} {values : List Rat}
    (h : a.Aggregates aggKey method values) (order : GoMap.Order Bytes Int)
    : Entry values (method.IsResult values)
        ((Aggregation.divide a.aggregated
          ((order.visit a.counts).entries.map (fun entry => (entry.1, entry.2)))).lookup aggKey) := by
  have hkeys : ((order.visit a.counts).entries.map (fun entry => (entry.1, entry.2))).map Prod.fst
      = (order.visit a.counts).keys := by
    simp [AList.keys, List.keys]
  have hcounts := h.counts
  rw [← order.lookup_visit] at hcounts
  split at hcounts
  . next haverage =>
    have hmem := List.mem_map_of_mem (f := fun entry => (entry.1, entry.2)) (AList.mem_lookup_iff.mp hcounts)
    have hpos : 0 < values.length := List.length_pos_iff.mpr haverage.2
    rw [lookup_divide_of_mem _ (by simpa [hkeys] using AList.keys_nodup _) hmem (by simpa using hpos)]
    rw [get_aggregated h (.inr haverage.1)]
    simp [Entry, haverage, Method.IsResult]
  . next hne =>
    rw [AList.lookup_eq_none, AList.mem_keys, ← hkeys] at hcounts
    rw [lookup_divide_of_not_mem _ hcounts]
    apply h.aggregated.mono
    intro hvalues x hx
    cases method with
    | sum => apply hx
    | min => apply hx
    | max => apply hx
    | average => simp [hvalues] at hne

end Aggregation

theorem Entry.perm {values values' : List Rat} {method : Method} {entry : Option Rat}
    (h : Entry values (method.IsResult values) entry) (hperm : values.Perm values')
    : Entry values' (method.IsResult values') entry := by
  cases entry with
  | none =>
    have hnil : values = [] := h
    subst hnil
    apply List.nil_perm.mp hperm
  | some x =>
    rcases h with ⟨hne, hx⟩
    constructor
    . intro hnil
      subst hnil
      apply hne (List.perm_nil.mp hperm)
    . cases method with
      | sum =>
        simp only [Method.IsResult, ← hperm.sum_eq]
        apply hx
      | min =>
        simp only [Method.IsResult, ← hperm.mem_iff]
        apply hx
      | max =>
        simp only [Method.IsResult, ← hperm.mem_iff]
        apply hx
      | average =>
        simp only [Method.IsResult, ← hperm.sum_eq, ← hperm.length_eq]
        apply hx

theorem valuesAt_perm {benchNoSafe aggKey : Bytes} {series series' : List (Bytes × Rat)} (h : series.Perm series')
    : (valuesAt benchNoSafe series aggKey).Perm (valuesAt benchNoSafe series' aggKey) := by
  unfold valuesAt
  apply (h.filter _).map

theorem aggregateMetrics_entry (order : GoMap.Order Bytes Rat) (countsOrder : GoMap.Order Bytes Int)
    (metrics : GoMap Bytes Rat) (benchNoSafe aggKey : Bytes)
    : let values := valuesAt benchNoSafe (metrics.entries.map (fun entry => (entry.1, entry.2))) aggKey
      Entry values (((method (lastPart aggKey)).getD .sum).IsResult values)
        ((aggregateMetrics order countsOrder metrics benchNoSafe).lookup aggKey) := by
  apply Entry.perm _ (valuesAt_perm ((order.perm metrics).map _))
  apply Aggregation.Aggregates.divide
  rw [← List.nil_append (valuesAt _ _ _)]
  apply (Aggregation.aggregates_new aggKey _).addAll
  intro s _ method hkey
  rw [(method_lastPart hkey).2, Option.getD_some]

end Measurement
