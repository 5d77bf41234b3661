import Mathlib.Algebra.Order.BigOperators.Ring.Finset
import Mathlib.Data.Int.ModEq
import Mathlib.Data.Matrix.Mul

/-!
This module contains how bounded digits are found from their weighted sum modulo `q`. A multiple of the weights with
small remainders `w` has small sums: the one for the digits is known from its remainder. With enough multiples the
digits are the solution of a system of linear equations.
-/

namespace Congruence

open Matrix

variable {ι : Type} [Fintype ι] {q m c : Int} {a w bound y : ι → Int}

def low (w bound : ι → Int) : Int := ∑ k, min 0 (w k * bound k)

def high (w bound : ι → Int) : Int := ∑ k, max 0 (w k * bound k)

structure Digits (bound y : ι → Int) : Prop where
  nonneg : ∀ k, 0 ≤ y k
  le : ∀ k, y k ≤ bound k

theorem Digits.low_le (h : Digits bound y) (w : ι → Int) : low w bound ≤ w ⬝ᵥ y := by
  apply Finset.sum_le_sum
  intro k _
  cases Int.le_total 0 (w k) with
  | inl hw => exact min_le_of_left_le (Int.mul_nonneg hw (h.nonneg k))
  | inr hw => exact min_le_of_right_le (Int.mul_le_mul_of_nonpos_left hw (h.le k))

theorem Digits.le_high (h : Digits bound y) (w : ι → Int) : w ⬝ᵥ y ≤ high w bound := by
  apply Finset.sum_le_sum
  intro k _
  cases Int.le_total 0 (w k) with
  | inl hw => exact le_max_of_le_right (Int.mul_le_mul_of_nonneg_left (h.le k) hw)
  | inr hw => exact le_max_of_le_left (Int.mul_nonpos_of_nonpos_of_nonneg hw (h.nonneg k))

theorem dvd_dotProduct_sub (hw : ∀ k, q ∣ w k - m * a k) (hsum : q ∣ a ⬝ᵥ y - c) : q ∣ w ⬝ᵥ y - m * c := by
  have hdiff : w ⬝ᵥ y - m * (a ⬝ᵥ y) = ∑ k, (w k - m * a k) * y k := by
    simp only [dotProduct, Finset.mul_sum, ← Finset.sum_sub_distrib]
    apply Finset.sum_congr rfl
    intro k _
    ring
  have hdvd : q ∣ w ⬝ᵥ y - m * (a ⬝ᵥ y) := by
    rw [hdiff]
    apply Finset.dvd_sum
    intro k _
    exact Dvd.dvd.mul_right (hw k) (y k)
  have hmul : q ∣ m * (a ⬝ᵥ y) - m * c := by
    rw [← Int.mul_sub]
    exact Dvd.dvd.mul_left hsum m
  have hadd := Int.dvd_add hdvd hmul
  rwa [sub_add_sub_cancel] at hadd

-- The sum is less than `q` above the least one, so the remainder is all of it.
theorem Digits.emod_eq (h : Digits bound y) (hw : ∀ k, q ∣ w k - m * a k) (hsum : q ∣ a ⬝ᵥ y - c)
    (hwidth : high w bound - low w bound < q)
    : (m * c - low w bound) % q = w ⬝ᵥ y - low w bound := by
  have hlow := h.low_le w
  have hhigh := h.le_high w
  have hdvd : q ∣ (w ⬝ᵥ y - low w bound) - (m * c - low w bound) := by
    rw [sub_sub_sub_cancel_right]
    exact dvd_dotProduct_sub hw hsum
  rw [← Int.emod_eq_of_lt (a := w ⬝ᵥ y - low w bound) (b := q) (by omega) (by omega)]
  exact (Int.emod_eq_emod_iff_emod_sub_eq_zero.mpr (Int.emod_eq_zero_of_dvd hdvd)).symm

theorem smul_eq_mulVec [DecidableEq ι] {B W : Matrix ι ι Int} (h : B * W = q • 1) (y : ι → Int)
    : q • y = B *ᵥ (W *ᵥ y) := by
  rw [mulVec_mulVec, h, smul_mulVec, one_mulVec]

end Congruence
