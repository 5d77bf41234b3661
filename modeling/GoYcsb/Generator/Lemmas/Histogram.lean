import GoYcsb.Generator.Impl.Generator
import Mathlib.Algebra.BigOperators.Ring.Finset
import Mathlib.Algebra.Order.BigOperators.Group.List

/-!
This module contains the verification of the generator `Histogram` from `GoYcsb.Generator.Impl.Generator`: how many
of the draws give the value of a bucket.
-/

namespace Generator
namespace Histogram

/--
The number of draws, out of the `area` ones that are equally likely, for which `Next` returns `value`.
-/
def drawsOf (h : Histogram) (value : Int) : Nat :=
  (List.range h.area.toNat).countP (fun n => h.next { int63 := n, fraction := 0, zipfian := 0 } = .ret value)

def Proportional (buckets : List Int) (blockSize : Int) : Prop :=
  ∀ (i : Nat) (b : Int), buckets[i]? = some b → ((new buckets blockSize).drawsOf ((i + 1) * blockSize) : Int) = b

def blocks (n : Int) (buckets : List Int) : Int :=
  match buckets with
  | [] => 0
  | [_] => 0
  | b :: c :: buckets => if n - b ≤ 0 then 1 else 1 + blocks (n - b) (c :: buckets)

theorem blocks_nonneg (n : Int) (buckets : List Int) : 0 ≤ blocks n buckets := by
  fun_induction blocks n buckets with
  | case1 => omega
  | case2 => omega
  | case3 => omega
  | case4 n b c buckets hn ih => omega

variable {buckets : List Int} {blockSize : Int}

theorem search_eq (i : Int) {n : Int} (hn : n < 2 ^ 63) (h : ∀ b ∈ buckets, 0 ≤ b ∧ b < 2 ^ 63) (hpos : 0 ≤ n)
    : search blockSize i n buckets = I64.mul (i + blocks n buckets) blockSize := by
  induction buckets generalizing i n with
  | nil => rw [search, blocks, Int.add_zero]
  | cons b buckets ih =>
    cases buckets with
    | nil => rw [search, blocks, Int.add_zero]
    | cons c buckets =>
      rw [List.forall_mem_cons] at h
      have hsub : I64.sub n b = n - b := I64.sub_eq ⟨by omega, by omega⟩
      rw [search, blocks, hsub]
      . split
        . rfl
        . rw [ih (i + 1) (by omega) h.2 (by omega), Int.add_assoc]
      . simp

theorem area_new (buckets : List Int) (blockSize : Int) : (new buckets blockSize).area = I64.wrap buckets.sum := by
  have hfoldl (x : Int) : buckets.foldl I64.add (I64.wrap x) = I64.wrap (x + buckets.sum) := by
    induction buckets generalizing x with
    | nil => rw [List.foldl_nil, List.sum_nil, Int.add_zero]
    | cons b buckets ih =>
      have hadd : I64.add (I64.wrap x) b = I64.wrap (x + b) := by
        unfold I64.add I64.wrap
        rw [Int.bmod_add_bmod]
      rw [List.foldl_cons, hadd, ih, List.sum_cons, Int.add_assoc]
  have hzero := hfoldl 0
  rw [Int.zero_add] at hzero
  exact hzero

theorem drawsOf_eq (h : ∀ b ∈ buckets, 0 ≤ b ∧ b < 2 ^ 63) (value : Int)
    : (new buckets blockSize).drawsOf value
        =
      (List.range (I64.wrap buckets.sum).toNat).countP
        (fun n : Nat => I64.mul (blocks n buckets) blockSize = value) := by
  unfold drawsOf
  rw [area_new]
  apply List.countP_congr
  intro n hn
  rw [List.mem_range] at hn
  have hrange := I64.inRange_wrap buckets.sum
  unfold I64.InRange at hrange
  have hdraw : Draw.int63n { int63 := n, fraction := 0, zipfian := 0 } (I64.wrap buckets.sum) = .ret n := by
    unfold Draw.int63n
    dsimp only
    rw [if_neg (by omega), Int.emod_eq_of_lt (by omega) (by omega)]
  have hnext : (new buckets blockSize).next { int63 := n, fraction := 0, zipfian := 0 }
      = .ret (I64.mul (blocks n buckets) blockSize) := by
    unfold next
    rw [area_new, hdraw, Outcome.ret_bind, Outcome.pure_eq]
    rw [show (new buckets blockSize).buckets = buckets from rfl, search_eq 0 (by omega) h (by omega), Int.zero_add]
    rfl
  rw [decide_eq_true_eq, decide_eq_true_eq, hnext, Outcome.ret.injEq]

theorem sum_countP_le (l : List α) (f : α → Int) {values : List Int} (h : values.Nodup)
    : (values.map (fun v => l.countP (fun x => f x = v))).sum ≤ l.length := by
  induction values generalizing l with
  | nil => simp
  | cons v values ih =>
    rw [List.nodup_cons] at h
    have hrest : values.map (fun v' => (l.filter (fun x => f x ≠ v)).countP (fun x => f x = v'))
        = values.map (fun v' => l.countP (fun x => f x = v')) := by
      apply List.map_congr_left
      intro v' hv'
      rw [List.countP_filter]
      apply List.countP_congr
      intro x _
      have hne : v' ≠ v := by
        rintro rfl
        exact h.1 hv'
      grind
    have hle := ih (l.filter (fun x => f x ≠ v)) h.2
    rw [hrest, ← List.countP_eq_length_filter] at hle
    rw [List.map_cons, List.sum_cons, List.length_eq_countP_add_countP (fun x => decide (f x = v))]
    simpa using hle

-- The loop leaves the last bucket to the fall through, and goes on to the next bucket only with what is more than
-- the buckets so far.
theorem blocks_le {front rest : List Int} {b n : Int} (hfront : front ≠ []) (hn : n ≤ front.sum)
    : blocks n (front ++ b :: rest) ≤ front.length := by
  induction front generalizing n with
  | nil => contradiction
  | cons a front ih =>
    rw [List.sum_cons] at hn
    cases front with
    | nil =>
      rw [List.cons_append, List.nil_append, blocks, if_pos (by simpa using hn)]
      simp
    | cons c front =>
      rw [List.cons_append, List.cons_append, blocks, ← List.cons_append]
      split
      . rw [List.length_cons]
        push_cast
        omega
      . have hle := ih (by simp) (n := n - a) (by omega)
        rw [List.length_cons]
        push_cast
        omega

theorem countP_range_lt (m : Int) (n : Nat) (hm : 0 ≤ m)
    : (List.range n).countP (fun k : Nat => m < k) = n - 1 - m.toNat := by
  induction n with
  | zero => simp
  | succ n ih =>
    rw [List.range_succ, List.countP_append, ih, List.countP_singleton]
    split
    . next hlt =>
      rw [decide_eq_true_eq] at hlt
      omega
    . next hlt =>
      rw [decide_eq_true_eq] at hlt
      omega

theorem exists_last_pos (hbuckets : ∀ b ∈ buckets, 0 ≤ b ∧ b < 2 ^ 63) (h : 0 < buckets.sum)
    : ∃ front b rest, buckets = front ++ b :: rest ∧ 0 < b ∧ ∀ c ∈ rest, c = 0 := by
  induction buckets with
  | nil => simp at h
  | cons a buckets ih =>
    rw [List.forall_mem_cons] at hbuckets
    rw [List.sum_cons] at h
    by_cases hpos : 0 < buckets.sum
    . rcases ih hbuckets.2 hpos with ⟨front, b, rest, heq, hb, hrest⟩
      exact ⟨a :: front, b, rest, by rw [heq, List.cons_append], hb, hrest⟩
    . have hzero : ∀ c ∈ buckets, c = 0 := by
        have hle : ∀ c ∈ buckets, 0 ≤ c := fun c hc => (hbuckets.2 c hc).1
        intro c hc
        have hsum := List.single_le_sum hle c hc
        have hc0 := hle c hc
        omega
      refine ⟨[], a, buckets, rfl, ?_, hzero⟩
      omega

section

variable (hbuckets : ∀ b ∈ buckets, 0 ≤ b ∧ b < 2 ^ 63) (hblockSize : 0 < blockSize)

include hbuckets hblockSize

theorem sum_le_of_proportional (h : Proportional buckets blockSize) : buckets.sum ≤ (I64.wrap buckets.sum).toNat := by
  have hvalues : ((List.range buckets.length).map (fun i : Nat => (i + 1) * blockSize)).Nodup := by
    apply List.nodup_range.map
    intro i j heq
    have hij := Int.eq_of_mul_eq_mul_right (by omega) heq
    omega
  have hcounts : buckets = (List.range buckets.length).map (fun i : Nat =>
      (((new buckets blockSize).drawsOf ((i + 1) * blockSize) : Nat) : Int)) := by
    apply List.ext_getElem?
    intro i
    rw [List.getElem?_map]
    cases hi : buckets[i]? with
    | none =>
      rw [List.getElem?_eq_none_iff] at hi
      rw [List.getElem?_eq_none_iff.mpr (by simpa using hi), Option.map_none]
    | some b =>
      rw [List.getElem?_range (List.getElem?_eq_some_iff.mp hi).1, Option.map_some, h i b hi]
  have hle := sum_countP_le (List.range (I64.wrap buckets.sum).toNat)
    (fun n : Nat => I64.mul (blocks n buckets) blockSize) hvalues
  rw [List.length_range] at hle
  have hsum : buckets.sum = ((((List.range buckets.length).map (fun i : Nat => (i + 1) * blockSize)).map (fun v =>
      (List.range (I64.wrap buckets.sum).toNat).countP (fun n : Nat =>
        I64.mul (blocks n buckets) blockSize = v))).sum : Nat) := by
    nth_rewrite 1 [hcounts]
    rw [List.map_map, Nat.cast_list_sum, List.map_map]
    simp only [drawsOf_eq hbuckets, Function.comp_def]
  omega

theorem drawsOf_lt {front rest : List Int} {b : Int} (heq : buckets = front ++ b :: rest) (hfront : front ≠ [])
    (hb : 0 < b) (hsum : (I64.wrap buckets.sum).toNat = front.sum + b)
    : ((new buckets blockSize).drawsOf ((front.length + 1) * blockSize) : Int) < b := by
  have hnonneg : 0 ≤ front.sum := by
    apply List.sum_nonneg
    intro a ha
    refine (hbuckets a ?_).1
    rw [heq]
    exact List.mem_append_left _ ha
  have hle : (List.range (I64.wrap buckets.sum).toNat).countP (fun n : Nat =>
        I64.mul (blocks n buckets) blockSize = (front.length + 1) * blockSize)
      ≤ (List.range (I64.wrap buckets.sum).toNat).countP (fun n : Nat => front.sum < n) := by
    apply List.countP_mono_left
    intro n _ hn
    rw [decide_eq_true_eq] at hn ⊢
    by_contra hnot
    have hblocks : blocks n buckets ≤ front.length := by
      rw [heq]
      exact blocks_le hfront (by omega)
    have hrange := I64.inRange_wrap (blocks n buckets * blockSize)
    unfold I64.mul at hn
    rw [hn] at hrange
    have hmul : blocks n buckets * blockSize < (front.length + 1) * blockSize :=
      Int.mul_lt_mul_of_pos_right (by omega) hblockSize
    have hpos : 0 ≤ blocks n buckets * blockSize := Int.mul_nonneg (blocks_nonneg n buckets) (by omega)
    rw [I64.wrap_eq_self ⟨by omega, Int.lt_trans hmul hrange.2⟩] at hn
    omega
  have hcount : (List.range (I64.wrap buckets.sum).toNat).countP (fun n : Nat => front.sum < n) = b.toNat - 1 := by
    rw [countP_range_lt _ _ hnonneg]
    omega
  rw [drawsOf_eq hbuckets]
  omega

theorem zero_of_proportional (harea : 0 < I64.wrap buckets.sum) (h : Proportional buckets blockSize)
    : ∃ b rest, buckets = b :: rest ∧ rest ≠ [] ∧ ∀ c ∈ rest, c = 0 := by
  have hle := sum_le_of_proportional hbuckets hblockSize h
  have hnonneg : 0 ≤ buckets.sum := List.sum_nonneg (fun b hb => (hbuckets b hb).1)
  have hge := I64.wrap_le hnonneg
  rcases exists_last_pos hbuckets (by omega) with ⟨front, b, rest, heq, hb, hrest⟩
  have hget : buckets[front.length]? = some b := by
    rw [heq, List.getElem?_append_right (by omega), Nat.sub_self, List.getElem?_cons_zero]
  have hcount := h front.length b hget
  cases front with
  | nil =>
    refine ⟨b, rest, heq, ?_, hrest⟩
    -- a single bucket is the last one, which gives the value zero
    rintro rfl
    rw [drawsOf_eq hbuckets, heq, List.nil_append, List.length_nil, List.countP_eq_zero.mpr] at hcount
    . omega
    . intro n _
      rw [decide_eq_true_eq, blocks]
      simp [I64.mul, I64.wrap]
      omega
  | cons a front =>
    have hzero : rest.sum = 0 := List.sum_eq_zero hrest
    have hsum : buckets.sum = (a :: front).sum + b := by
      rw [heq, List.sum_append, List.sum_cons (a := b), hzero, Int.add_zero]
    have hlt := drawsOf_lt hbuckets hblockSize heq (by simp) hb (by omega)
    omega

theorem proportional_of_zero (hlt : blockSize < 2 ^ 63) {b : Int} {rest : List Int} (heq : buckets = b :: rest)
    (hne : rest ≠ []) (hrest : ∀ c ∈ rest, c = 0)
    : Proportional buckets blockSize := by
  rcases hbuckets b (by rw [heq]; exact List.mem_cons_self) with ⟨hb, hb63⟩
  have hsum : I64.wrap buckets.sum = b := by
    rw [heq, List.sum_cons, List.sum_eq_zero hrest, Int.add_zero, I64.wrap_eq_self ⟨by omega, by omega⟩]
  have hone : ∀ n ∈ List.range b.toNat, I64.mul (blocks n buckets) blockSize = blockSize := by
    intro n hn
    rw [List.mem_range] at hn
    rcases List.exists_cons_of_ne_nil hne with ⟨c, rest, rfl⟩
    rw [heq, blocks, if_pos (by omega), I64.mul, Int.one_mul, I64.wrap_eq_self ⟨by omega, by omega⟩]
  intro i c hi
  rw [drawsOf_eq hbuckets, hsum]
  cases i with
  | zero =>
    rw [heq, List.getElem?_cons_zero, Option.some.injEq] at hi
    rw [List.countP_eq_length.mpr, List.length_range]
    . omega
    . intro n hn
      rw [decide_eq_true_eq, hone n hn]
      simp
  | succ i =>
    rw [heq, List.getElem?_cons_succ] at hi
    rw [hrest c (List.mem_of_getElem? hi), List.countP_eq_zero.mpr]
    . rfl
    . intro n hn
      rw [decide_eq_true_eq, hone n hn]
      have hmul : 1 * blockSize < ((i + 1 : Nat) + 1) * blockSize :=
        Int.mul_lt_mul_of_pos_right (by omega) hblockSize
      omega

end

theorem proportional_iff (buckets : List Int) (blockSize : Int) (hbuckets : ∀ b ∈ buckets, 0 ≤ b ∧ b < 2 ^ 63)
    (hblockSize : 0 < blockSize ∧ blockSize < 2 ^ 63) (harea : 0 < (new buckets blockSize).area)
    : Proportional buckets blockSize ↔ 2 ≤ buckets.length ∧ ∀ c ∈ buckets.tail, c = 0 := by
  rw [area_new] at harea
  constructor
  . intro h
    rcases zero_of_proportional hbuckets hblockSize.1 harea h with ⟨b, rest, rfl, hne, hrest⟩
    have hlen := List.length_pos_iff.mpr hne
    exact ⟨by rw [List.length_cons]; omega, hrest⟩
  . rintro ⟨hlen, hrest⟩
    cases buckets with
    | nil => simp at hlen
    | cons b rest =>
      refine proportional_of_zero hbuckets hblockSize.1 hblockSize.2 rfl ?_ hrest
      rintro rfl
      simp at hlen

theorem proportional_first_bucket
    : (new [3, 0] 10).area = 3 ∧ Proportional [3, 0] 10 := by
  refine ⟨by decide, (proportional_iff [3, 0] 10 (by decide) (by decide) (by decide)).mpr (by decide)⟩

theorem last_bucket_never_drawn
    : (new [1, 1] 1).area = 2 ∧ (new [1, 1] 1).drawsOf 1 = 2 ∧ (new [1, 1] 1).drawsOf 2 = 0
        ∧
      ¬ Proportional [1, 1] 1 := by
  refine ⟨by decide, by decide, by decide, ?_⟩
  intro h
  have hcount := h 1 1 rfl
  have hzero : (new [1, 1] 1).drawsOf ((1 + 1) * 1) = 0 := by decide
  simp only [Nat.cast_one, hzero] at hcount
  omega

end Histogram
end Generator
