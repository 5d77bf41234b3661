import GoYcsb.Lib.Bytes
import GoYcsb.Lib.GoMap
import Mathlib.Data.List.Sort
import Mathlib.Data.List.Nodup

/-!
This module contains the keys of an ordered key space that have some property, in their order. For those of a
half open range there is how the range is cut at one of its keys.
-/

namespace KeyRange

section

variable {α : Type u} [LE α] [DecidableLE α]

def keysWhere (p : α → Bool) (keys : List α) : List α := (keys.filter p).insertionSort (fun x y => x ≤ y)

theorem perm_keysWhere (p : α → Bool) (keys : List α) : (keysWhere p keys).Perm (keys.filter p) :=
  List.perm_insertionSort _ _

theorem mem_keysWhere {p : α → Bool} {keys : List α} {k : α} : k ∈ keysWhere p keys ↔ k ∈ keys ∧ p k := by
  rw [(perm_keysWhere p keys).mem_iff, List.mem_filter]

theorem nodup_keysWhere {keys : List α} (h : keys.Nodup) (p : α → Bool) : (keysWhere p keys).Nodup := by
  rw [(perm_keysWhere p keys).nodup_iff]
  exact h.filter _

theorem keysWhere_congr {p q : α → Bool} {keys : List α} (h : ∀ k ∈ keys, p k = q k)
    : keysWhere p keys = keysWhere q keys := by
  unfold keysWhere
  rw [List.filter_congr h]

variable [Std.IsLinearOrder α]

theorem pairwise_keysWhere (p : α → Bool) (keys : List α) : (keysWhere p keys).Pairwise (fun x y => x ≤ y) :=
  List.pairwise_insertionSort _ _

theorem keysWhere_eq {keys l : List α} (hkeys : keys.Nodup) {p : α → Bool}
    (hsorted : l.Pairwise (fun x y => x ≤ y)) (hnodup : l.Nodup) (hmem : ∀ k, k ∈ l ↔ k ∈ keys ∧ p k)
    : keysWhere p keys = l := by
  refine List.Perm.eq_of_pairwise ?_ (pairwise_keysWhere p keys) hsorted ?_
  . intro x y _ _ hxy hyx
    exact Std.le_antisymm hxy hyx
  . rw [List.perm_ext_iff_of_nodup (nodup_keysWhere hkeys p) hnodup]
    intro k
    rw [mem_keysWhere, hmem]

-- The keys of another key space, in which `f` puts them in the same order.
theorem keysWhere_eq_map {β : Type v} [LE β] [DecidableLE β] [Std.IsLinearOrder β] {f : α → β}
    (hf : ∀ x y, f x ≤ f y ↔ x ≤ y) {keys : List α} (hkeys : keys.Nodup) {keys' : List β} (hkeys' : keys'.Nodup)
    {p : α → Bool} {q : β → Bool} (h : ∀ y, (∃ x, (x ∈ keys ∧ p x) ∧ f x = y) ↔ y ∈ keys' ∧ q y)
    : keysWhere q keys' = (keysWhere p keys).map f := by
  apply keysWhere_eq hkeys'
  . rw [List.pairwise_map]
    apply (pairwise_keysWhere p keys).imp
    intro x y hle
    exact (hf x y).mpr hle
  . apply List.Nodup.map
    . intro x y heq
      exact Std.le_antisymm ((hf x y).mp (Std.le_of_eq heq)) ((hf y x).mp (Std.le_of_eq heq.symm))
    . exact nodup_keysWhere hkeys p
  . intro y
    rw [← h, List.mem_map]
    simp only [mem_keysWhere]

theorem keysWhere_append {keys : List α} (hkeys : keys.Nodup) {p q : α → Bool}
    (h : ∀ x y, p x → q x → p y → q y = false → x ≤ y)
    : keysWhere p keys = keysWhere (fun k => p k && q k) keys ++ keysWhere (fun k => p k && !q k) keys := by
  apply keysWhere_eq hkeys
  . rw [List.pairwise_append]
    refine ⟨pairwise_keysWhere _ _, pairwise_keysWhere _ _, ?_⟩
    intro x hx y hy
    simp only [mem_keysWhere, Bool.and_eq_true, Bool.not_eq_true'] at hx hy
    exact h x y hx.2.1 hx.2.2 hy.2.1 hy.2.2
  . rw [List.nodup_append]
    refine ⟨nodup_keysWhere hkeys _, nodup_keysWhere hkeys _, ?_⟩
    intro x hx y hy heq
    simp only [mem_keysWhere, Bool.and_eq_true, Bool.not_eq_true'] at hx hy
    rw [heq, hy.2.2] at hx
    exact absurd hx.2.2 (by decide)
  . intro k
    simp only [List.mem_append, mem_keysWhere, Bool.and_eq_true, Bool.not_eq_true']
    cases q k <;> simp

end

section

variable {α : Type u} [LE α] [LT α] [DecidableLE α] [DecidableLT α]

def InRange (start stop k : α) : Prop := start ≤ k ∧ k < stop

instance (start stop k : α) : Decidable (InRange start stop k) := inferInstanceAs (Decidable (_ ∧ _))

def keysIn (keys : List α) (start stop : α) : List α := keysWhere (fun k => InRange start stop k) keys

theorem perm_keysIn (keys : List α) (start stop : α)
    : (keysIn keys start stop).Perm (keys.filter (fun k => InRange start stop k)) :=
  perm_keysWhere _ _

theorem mem_keysIn {keys : List α} {start stop k : α}
    : k ∈ keysIn keys start stop ↔ k ∈ keys ∧ InRange start stop k := by
  rw [keysIn, mem_keysWhere, decide_eq_true_eq]

theorem nodup_keysIn {keys : List α} (h : keys.Nodup) (start stop : α) : (keysIn keys start stop).Nodup :=
  nodup_keysWhere h _

end

section

variable {α : Type u} [LE α] [LT α] [DecidableLE α] [DecidableLT α] [Std.IsLinearOrder α]

theorem pairwise_keysIn (keys : List α) (start stop : α)
    : (keysIn keys start stop).Pairwise (fun x y => x ≤ y) :=
  pairwise_keysWhere _ _

theorem keysIn_eq {keys l : List α} (hkeys : keys.Nodup) {start stop : α}
    (hsorted : l.Pairwise (fun x y => x ≤ y)) (hnodup : l.Nodup)
    (hmem : ∀ k, k ∈ l ↔ k ∈ keys ∧ InRange start stop k)
    : keysIn keys start stop = l := by
  apply keysWhere_eq hkeys hsorted hnodup
  intro k
  rw [hmem, decide_eq_true_eq]

variable [Std.LawfulOrderLT α]

omit [DecidableLE α] [DecidableLT α] in
theorem mem_after {pre post : List α} {last k : α}
    (hsorted : (pre ++ last :: post).Pairwise (fun x y => x ≤ y)) (hnodup : (pre ++ last :: post).Nodup)
    : k ∈ post ↔ k ∈ pre ++ last :: post ∧ last < k := by
  rw [List.pairwise_append, List.pairwise_cons] at hsorted
  rw [List.nodup_append, List.nodup_cons] at hnodup
  constructor
  . intro hk
    refine ⟨by simp [hk], ?_⟩
    rw [Std.lt_iff_le_and_not_ge]
    refine ⟨hsorted.2.1.1 k hk, ?_⟩
    intro hle
    have heq := Std.le_antisymm hle (hsorted.2.1.1 k hk)
    rw [heq] at hk
    exact hnodup.2.1.1 hk
  . rintro ⟨hk, hlt⟩
    rw [Std.lt_iff_le_and_not_ge] at hlt
    rw [List.mem_append, List.mem_cons] at hk
    rcases hk with hk | rfl | hk
    . exact absurd (hsorted.2.2 k hk last List.mem_cons_self) hlt.2
    . exact absurd hlt.1 hlt.2
    . exact hk

theorem keysWhere_after {keys : List α} (hkeys : keys.Nodup) {p : α → Bool} {last : α} {pre post : List α}
    (h : keysWhere p keys = pre ++ last :: post)
    : keysWhere (fun k => p k && last < k) keys = post := by
  have hsorted := pairwise_keysWhere p keys
  have hnodup := nodup_keysWhere hkeys p
  rw [h] at hsorted hnodup
  apply keysWhere_eq hkeys
  . rw [List.pairwise_append, List.pairwise_cons] at hsorted
    exact hsorted.2.1.2
  . rw [List.nodup_append, List.nodup_cons] at hnodup
    exact hnodup.2.1.2
  . intro k
    rw [mem_after hsorted hnodup, ← h, mem_keysWhere, Bool.and_eq_true, decide_eq_true_eq, and_assoc]

-- `first` is the first key after `last`, whether it is taken or not.
theorem keysIn_after {keys : List α} (hkeys : keys.Nodup) {start stop first last : α} {pre post : List α}
    (hfirst : ∀ k, first ≤ k ↔ last < k) (h : keysIn keys start stop = pre ++ last :: post)
    : keysIn keys first stop = post := by
  have hlast : last ∈ keysIn keys start stop := by simp [h]
  have hstart := (mem_keysIn.mp hlast).2.1
  rw [← keysWhere_after hkeys h]
  apply keysWhere_congr
  intro k _
  rw [← Bool.decide_and, decide_eq_decide]
  unfold InRange
  rw [hfirst]
  constructor
  . rintro ⟨hlt, hstop⟩
    exact ⟨⟨Std.le_trans hstart (Std.le_of_lt hlt), hstop⟩, hlt⟩
  . rintro ⟨⟨_, hstop⟩, hlt⟩
    exact ⟨hlt, hstop⟩

theorem keysIn_next_page {keys : List α} (hkeys : keys.Nodup) {start stop first last : α} {limit : Nat}
    (hfirst : ∀ k, first ≤ k ↔ last < k)
    (hlast : ((keysIn keys start stop).take limit).getLast? = some last)
    : keysIn keys first stop = (keysIn keys start stop).drop limit := by
  rcases List.getLast?_eq_some_iff.mp hlast with ⟨pre, hpre⟩
  apply keysIn_after hkeys hfirst
  calc keysIn keys start stop
      = (keysIn keys start stop).take limit ++ (keysIn keys start stop).drop limit :=
        (List.take_append_drop limit _).symm
    _ = pre ++ last :: (keysIn keys start stop).drop limit := by simp [hpre]

end

section

variable {α : Type u} [LE α] [LT α] [Std.IsLinearOrder α] [Std.LawfulOrderLT α]

theorem append_le_iff {zero : α} (hzero : ∀ c, zero ≤ c) (x y : List α) : x ++ [zero] ≤ y ↔ x < y := by
  induction x generalizing y with
  | nil =>
    cases y with
    | nil => simp
    | cons c y =>
      rw [List.nil_append, List.cons_le_cons_iff]
      simp only [List.nil_lt_cons, iff_true]
      by_cases heq : zero = c
      . exact .inr ⟨heq, List.nil_le y⟩
      . left
        rw [Std.lt_iff_le_and_ne]
        exact ⟨hzero c, heq⟩
  | cons d x ih =>
    cases y with
    | nil => simp
    | cons c y => rw [List.cons_append, List.cons_le_cons_iff, List.cons_lt_cons_iff, ih]

theorem inRange_append_iff (p stop x : List α)
    : InRange p (p ++ stop) x ↔ ∃ s, x = p ++ s ∧ s < stop := by
  induction p generalizing x with
  | nil => simp [InRange]
  | cons c p ih =>
    cases x with
    | nil => simp [InRange]
    | cons d x =>
      unfold InRange at ih ⊢
      rw [List.cons_append, List.cons_le_cons_iff, List.cons_lt_cons_iff]
      constructor
      . rintro ⟨hstart, hstop⟩
        rcases hstart with hlt | ⟨rfl, hstart⟩
        . rcases hstop with hgt | ⟨rfl, _⟩
          . exact absurd (Std.lt_trans hlt hgt) (Std.lt_irrefl)
          . exact absurd hlt Std.lt_irrefl
        . rcases hstop with hlt | ⟨_, hstop⟩
          . exact absurd hlt Std.lt_irrefl
          . rcases (ih x).mp ⟨hstart, hstop⟩ with ⟨s, rfl, hs⟩
            exact ⟨s, rfl, hs⟩
      . rintro ⟨s, heq, hs⟩
        cases heq
        have hrest := (ih (p ++ s)).mpr ⟨s, rfl, hs⟩
        exact ⟨.inr ⟨rfl, hrest.1⟩, .inr ⟨rfl, hrest.2⟩⟩

theorem append_le_append_iff (p x y : List α) : p ++ x ≤ p ++ y ↔ x ≤ y := by
  induction p with
  | nil => rfl
  | cons c p ih =>
    rw [List.cons_append, List.cons_append, List.cons_le_cons_iff, ih]
    constructor
    . rintro (hlt | ⟨_, hle⟩)
      . exact absurd hlt Std.lt_irrefl
      . exact hle
    . intro hle
      exact .inr ⟨rfl, hle⟩

theorem append_le_of_not_extends {p s y : List α} (h : p ++ s ≤ y) (hy : ¬ p <+: y) (x : List α) : p ++ x ≤ y := by
  induction p generalizing y with
  | nil => exact absurd List.nil_prefix hy
  | cons c p ih =>
    cases y with
    | nil => simp at h
    | cons d y =>
      rw [List.cons_append, List.cons_le_cons_iff] at h ⊢
      cases h with
      | inl hlt => exact .inl hlt
      | inr heq =>
        right
        refine ⟨heq.1, ih heq.2 ?_⟩
        intro hextends
        apply hy
        rw [List.cons_prefix_cons]
        exact ⟨heq.1, hextends⟩

end

def entriesFrom (store : GoMap Bytes Bytes) (startKey : Bytes) : List (Bytes × Bytes) :=
  (keysWhere (fun key => startKey ≤ key) store.keys).map (fun key => (key, store.get key []))

end KeyRange
