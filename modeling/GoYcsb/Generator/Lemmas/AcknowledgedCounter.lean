import GoYcsb.Generator.Impl.AcknowledgedCounter

/-!
This module contains what the calls of a `Counter` and the scan loop of an `AcknowledgedCounter`
compute.
-/

open RingBuffer

namespace Counter

theorem next_eq {c : Counter} (h : c.counter + 1 < 2 ^ 63) (hpos : 0 ≤ c.counter)
    : c.next = (c.counter, ⟨c.counter + 1⟩) := by
  unfold next
  have hadd : I64.add c.counter 1 = c.counter + 1 := by
    apply I64.add_eq
    constructor <;> omega
  have hsub : I64.sub (c.counter + 1) 1 = c.counter := by
    rw [I64.sub_eq]
    . omega
    . constructor <;> omega
  simp only [hadd, hsub]

end Counter

namespace AcknowledgedCounter

theorem land_windowMask_le {limit : Int} (h : 0 ≤ limit) : I64.land limit windowMask ≤ limit := by
  rw [land_windowMask]
  unfold windowSize
  omega

/--
The loop consumes the numbers from `index` on that satisfy `P` and stops at the first one that does
not. The loop's own guard never ends it, as it compares the index with a slot number below it.
-/
theorem scan_spec {P : Int → Prop} {lo : Int} (hP : ∀ i, P i → i ≤ lo + windowSize)
    (hfits : ∀ i, P i → 0 ≤ i ∧ i + 1 < 2 ^ 63) (fuel : Nat) {window : Fin windowSize → Bool}
    {beforeFirstSlot index : Int} (hbefore : beforeFirstSlot < index)
    (htracks : Tracks window lo index P) (hfuel : lo + windowSize + 1 - index < fuel)
    : ∃ window' index',
        scan fuel window beforeFirstSlot index = .ret (window', index')
          ∧
        Tracks window' lo index' P
          ∧
        index ≤ index'
          ∧
        (∀ i, index ≤ i → i < index' → P i)
          ∧
        ¬ P index' := by
  induction fuel generalizing window index with
  | zero =>
    have := htracks.idx_le
    omega
  | succ fuel ih =>
    unfold scan
    have hguard : index ≠ beforeFirstSlot := by omega
    simp only [hguard, ne_eq, not_false_eq_true, ↓reduceIte, slotOf_eq_slot]
    by_cases hset : window (slot windowSize index) = true
    . have hin : index ≤ lo + windowSize := by
        by_contra hout
        have hend : index = lo + windowSize + 1 := by
          have := htracks.idx_le
          omega
        subst hend
        rw [htracks.flag_end_eq_false] at hset
        simp at hset
      have hPindex : P index := (htracks.iff index (by omega) hin).mp hset
      have hadd : I64.add index 1 = index + 1 := by
        have := hfits index hPindex
        apply I64.add_eq
        constructor <;> omega
      simp only [hset, Bool.not_true, Bool.false_eq_true, ↓reduceIte, hadd]
      rcases ih (by omega) (htracks.clear hin) (by omega)
        with ⟨window', index', hscan, htracks', hle, hall, hstop⟩
      refine ⟨window', index', hscan, htracks', by omega, ?_, hstop⟩
      intro i hi1 hi2
      by_cases heq : i = index
      . rw [heq]
        exact hPindex
      . exact hall i (by omega) hi2
    . simp only [Bool.not_eq_true] at hset
      simp only [hset, Bool.not_false, ↓reduceIte]
      refine ⟨window, index, rfl, htracks, by omega, ?_, ?_⟩
      . intro i hi1 hi2
        omega
      . intro hPindex
        have := (htracks.iff index (by omega) (hP index hPindex)).mpr hPindex
        simp [hset] at this

end AcknowledgedCounter
