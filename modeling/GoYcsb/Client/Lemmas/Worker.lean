import GoYcsb.Client.Impl.Client
import Mathlib.Algebra.BigOperators.Ring.Finset
import Mathlib.Algebra.Group.Action.Defs
import Mathlib.Data.Fintype.Fin

/-!
This module contains the verification of `newWorker`: the operations are shared out among the workers
evenly and completely.
-/

def share (total parts i : Nat) : Nat := total / parts + if i < total % parts then 1 else 0

theorem sum_share {parts : Nat} (hparts : 0 < parts) (total : Nat)
    : ∑ i : Fin parts, share total parts i = total := by
  have hmod : total % parts < parts := Nat.mod_lt total hparts
  unfold share
  rw [Finset.sum_add_distrib, Finset.sum_const, Finset.card_univ, Fintype.card_fin, smul_eq_mul]
  rw [Finset.sum_boole, Fin.card_filter_val_lt, Nat.min_eq_right (Nat.le_of_lt hmod)]
  exact Nat.div_add_mod total parts

theorem share_le_share (total parts i j : Nat) : share total parts i ≤ share total parts j + 1 := by
  unfold share
  split <;> omega

theorem share_pos {total parts : Nat} (hparts : 0 < parts) (h : parts ≤ total) (i : Nat)
    : 0 < share total parts i := by
  have hdiv : 0 < total / parts := Nat.div_pos h hparts
  unfold share
  omega

theorem share_le {total parts i : Nat} (hparts : i < parts) : share total parts i ≤ total := by
  have hdiv : total / parts ≤ parts * (total / parts) := Nat.le_mul_of_pos_left _ (by omega)
  have hmod := Nat.div_add_mod total parts
  unfold share
  split <;> omega

theorem forall_dvd_share_iff {total parts size : Nat} (hparts : 0 < parts) (hsize : 1 < size)
    : (∀ i : Fin parts, size ∣ share total parts i) ↔ parts * size ∣ total := by
  constructor
  . intro h
    have hmod : total % parts < parts := Nat.mod_lt total hparts
    -- the first and the last share differ by the remainder if there is one
    have hrem : total % parts = 0 := by
      by_contra hne
      have hfirst := h ⟨0, hparts⟩
      have hlast := h ⟨total % parts, hmod⟩
      unfold share at hfirst hlast
      dsimp only at hfirst hlast
      rw [if_pos (Nat.pos_of_ne_zero hne)] at hfirst
      rw [if_neg (Nat.lt_irrefl _), Nat.add_zero] at hlast
      have hone := (Nat.dvd_add_right hlast).mp hfirst
      have := Nat.le_of_dvd Nat.one_pos hone
      omega
    have hfirst := h ⟨0, hparts⟩
    unfold share at hfirst
    dsimp only at hfirst
    rw [hrem, if_neg (Nat.lt_irrefl 0), Nat.add_zero] at hfirst
    rw [← Nat.div_add_mod total parts, hrem, Nat.add_zero]
    exact Nat.mul_dvd_mul_left parts hfirst
  . rintro ⟨k, rfl⟩ i
    unfold share
    rw [Nat.mul_assoc, Nat.mul_mod_right, if_neg (Nat.not_lt_zero _), Nat.mul_div_cancel_left _ hparts]
    exact ⟨k, rfl⟩

namespace Properties

theorem totalOpCount_inRange (p : Properties) : I64.InRange p.totalOpCount := by
  have hzero : I64.InRange 0 := by decide
  have hget : ∀ x : Option I64.Value, I64.InRange (getInt64 x 0) := by
    intro x
    cases x with
    | none => exact hzero
    | some v => exact v.property
  unfold totalOpCount
  split
  . apply hget
  . split
    . next insertCount _ => exact insertCount.property
    . apply hget

end Properties

theorem newWorker_eq {p : Properties} {threads i : Nat} (hi : i < threads)
    (htotal : (threads : Int) ≤ p.totalOpCount)
    : newWorker p i threads
        =
      .ret {
        doTransactions := p.getDoTransactions
        doBatch := 1 < p.getBatchSize
        batchSize := p.getBatchSize
        opCount := share p.totalOpCount.toNat threads i
        threadID := i
      } := by
  have hrange := p.totalOpCount_inRange
  unfold I64.InRange at hrange
  have hle : share p.totalOpCount.toNat threads i ≤ p.totalOpCount.toNat := share_le hi
  rcases Int.eq_ofNat_of_zero_le (a := p.totalOpCount) (by omega) with ⟨total, heq⟩
  unfold newWorker
  rw [heq] at htotal hrange hle ⊢
  dsimp only
  rw [if_neg (by omega), if_neg (by omega)]
  rw [Int.toNat_natCast] at hle ⊢
  rw [← Int.ofNat_tdiv, ← Int.ofNat_tmod]
  congr
  unfold share at hle ⊢
  generalize total / threads = quotient at hle ⊢
  by_cases hlt : i < total % threads
  . rw [if_pos hlt] at hle ⊢
    rw [if_pos (by omega), I64.add_eq (by unfold I64.InRange; omega)]
    rfl
  . rw [if_neg hlt, if_neg (by omega)]
    rfl

theorem le_totalOpCount_of_newWorker {p : Properties} {threadID threadCount : Int} {worker : Worker}
    (h : newWorker p threadID threadCount = .ret worker)
    : threadCount ≤ p.totalOpCount := by
  unfold newWorker at h
  dsimp only at h
  split at h
  . contradiction
  . next hlt => omega
