import Mathlib.Data.Int.ModEq
import Mathlib.Data.Fintype.Card
import Mathlib.Tactic.Linarith

/-!
This module contains a ring of `n` reused flags that follows a predicate on the numbers of a moving
window of length `n`. The window starts after the number `lo`, its numbers below `idx` have been
consumed already: their flags are cleared again, although the window has not moved on yet.
-/

namespace RingBuffer

variable {n : Nat} [NeZero n]

def slot (n : Nat) [NeZero n] (i : Int) : Fin n :=
  ⟨(i % n).toNat, by
    have hpos : (0 : Int) < n := by exact_mod_cast Nat.pos_of_neZero n
    have hlt := Int.emod_lt_of_pos i hpos
    have hnonneg := Int.emod_nonneg i (Int.ne_of_gt hpos)
    omega⟩

theorem slot_eq_iff {i j : Int} : slot n i = slot n j ↔ i % n = j % n := by
  have hpos : (0 : Int) < n := by exact_mod_cast Nat.pos_of_neZero n
  have hi := Int.emod_nonneg i (Int.ne_of_gt hpos)
  have hj := Int.emod_nonneg j (Int.ne_of_gt hpos)
  unfold slot
  rw [Fin.mk.injEq]
  omega

@[simp]
theorem slot_add_n (i : Int) : slot n (i + n) = slot n i := by
  rw [slot_eq_iff]
  simp

theorem slot_inj {lo i j : Int} (hi1 : lo < i) (hi2 : i ≤ lo + n) (hj1 : lo < j) (hj2 : j ≤ lo + n)
    (h : slot n i = slot n j)
    : i = j := by
  rw [slot_eq_iff] at h
  have hlt : |j - i| < n := by
    rw [abs_lt]
    constructor <;> omega
  have hzero : j - i = 0 := Int.eq_zero_of_abs_lt_dvd (Int.ModEq.dvd h) hlt
  omega

/--
The flags from `idx` to the end of the window that starts after `lo` say whether `P` holds, the
flags of the window before `idx` are cleared.
-/
structure Tracks (flags : Fin n → Bool) (lo idx : Int) (P : Int → Prop) : Prop where
  lt_idx : lo < idx
  idx_le : idx ≤ lo + n + 1
  cleared : ∀ i, lo < i → i < idx → flags (slot n i) = false
  iff : ∀ i, idx ≤ i → i ≤ lo + n → (flags (slot n i) = true ↔ P i)

namespace Tracks

variable {flags : Fin n → Bool} {lo idx : Int} {P : Int → Prop}

theorem flag_eq_false (h : Tracks flags lo idx P) {i : Int} (hi1 : idx ≤ i) (hi2 : i ≤ lo + n)
    (hP : ¬ P i)
    : flags (slot n i) = false := by
  rw [← Bool.not_eq_true]
  rw [h.iff i hi1 hi2]
  exact hP

theorem set (h : Tracks flags lo idx P) {v : Int} (hv1 : idx ≤ v) (hv2 : v ≤ lo + n)
    : Tracks (Function.update flags (slot n v) true) lo idx (fun i => i = v ∨ P i) := by
  have hlo := h.lt_idx
  refine ⟨h.lt_idx, h.idx_le, ?_, ?_⟩
  . intro i hi1 hi2
    have hne : slot n i ≠ slot n v := by
      intro heq
      have := slot_inj hi1 (by omega) (by omega) hv2 heq
      omega
    rw [Function.update_of_ne hne]
    exact h.cleared i hi1 hi2
  . intro i hi1 hi2
    by_cases hiv : i = v
    . subst hiv
      simp
    . have hne : slot n i ≠ slot n v := by
        intro heq
        exact hiv (slot_inj (by omega) hi2 (by omega) hv2 heq)
      rw [Function.update_of_ne hne]
      rw [h.iff i hi1 hi2]
      simp [hiv]

theorem clear (h : Tracks flags lo idx P) (hidx : idx ≤ lo + n)
    : Tracks (Function.update flags (slot n idx) false) lo (idx + 1) P := by
  have hlo := h.lt_idx
  refine ⟨by omega, by omega, ?_, ?_⟩
  . intro i hi1 hi2
    by_cases hii : i = idx
    . subst hii
      simp
    . have hne : slot n i ≠ slot n idx := by
        intro heq
        exact hii (slot_inj hi1 (by omega) hlo hidx heq)
      rw [Function.update_of_ne hne]
      exact h.cleared i hi1 (by omega)
  . intro i hi1 hi2
    have hne : slot n i ≠ slot n idx := by
      intro heq
      have := slot_inj (by omega) hi2 hlo hidx heq
      omega
    rw [Function.update_of_ne hne]
    exact h.iff i (by omega) hi2

-- The number behind the window owns the flag of the window's first number, which is cleared once the
-- whole window is consumed.
theorem flag_end_eq_false (h : Tracks flags lo (lo + n + 1) P)
    : flags (slot n (lo + n + 1)) = false := by
  have hpos : (0 : Int) < n := by exact_mod_cast Nat.pos_of_neZero n
  have heq : lo + n + 1 = lo + 1 + n := by omega
  rw [heq, slot_add_n]
  exact h.cleared (lo + 1) (by omega) (by omega)

-- The consumed numbers leave the window. The flags they leave behind are right for the numbers that
-- enter it, since none of these satisfies `P`.
theorem advance (h : Tracks flags lo idx P) (hP : ∀ i, P i → i ≤ lo + n)
    : Tracks flags (idx - 1) idx P := by
  have hlo := h.lt_idx
  have hle := h.idx_le
  refine ⟨by omega, by omega, ?_, ?_⟩
  . intro i hi1 hi2
    omega
  . intro i hi1 hi2
    by_cases hin : i ≤ lo + n
    . exact h.iff i hi1 hin
    . have hcleared : flags (slot n i) = false := by
        have := h.cleared (i - n) (by omega) (by omega)
        rw [← slot_add_n] at this
        simpa using this
      have hnot : ¬ P i := by
        intro hPi
        exact hin (hP i hPi)
      simp [hcleared, hnot]

end Tracks

def raised (flags : Fin n → Bool) : Nat := (Finset.univ.filter (fun i => flags i = true)).card

omit [NeZero n] in
theorem raised_set_le (flags : Fin n → Bool) (i : Fin n)
    : raised (Function.update flags i true) ≤ raised flags + 1 := by
  have hsub : Finset.univ.filter (fun j => Function.update flags i true j = true)
      ⊆ insert i (Finset.univ.filter (fun j => flags j = true)) := by
    intro j hj
    by_cases heq : j = i
    . simp [heq]
    . simpa [heq] using hj
  apply Nat.le_trans (Finset.card_le_card hsub)
  apply Finset.card_insert_le

omit [NeZero n] in
theorem raised_clear {flags : Fin n → Bool} {i : Fin n} (h : flags i = true)
    : raised (Function.update flags i false) + 1 = raised flags := by
  have herase : Finset.univ.filter (fun j => Function.update flags i false j = true)
      = (Finset.univ.filter (fun j => flags j = true)).erase i := by
    ext j
    by_cases heq : j = i
    . simp [heq]
    . simp [heq]
  unfold raised
  rw [herase]
  apply Finset.card_erase_add_one
  simp [h]

end RingBuffer
