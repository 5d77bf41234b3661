import Mathlib.Algebra.BigOperators.Group.Finset.Basic
import Mathlib.Algebra.Order.Group.Multiset
import Mathlib.Algebra.Order.BigOperators.Group.Finset

/-!
This module contains the accounting for a dispenser of tickets that many parties draw from: every ticket
that was handed out is held by one party or was used, and it is so exactly once.
-/

section

variable {W : Type u} [Fintype W] {M : Type v} [AddCommMonoid M]

theorem sum_add_eq_of_agree [DecidableEq W] {f g : W → M} (w : W) (h : ∀ w', w' ≠ w → g w' = f w')
    : (∑ w', g w') + f w = (∑ w', f w') + g w := by
  rw [← Finset.add_sum_erase _ f (Finset.mem_univ w), ← Finset.add_sum_erase _ g (Finset.mem_univ w)]
  have hrest : ∑ w' ∈ Finset.univ.erase w, g w' = ∑ w' ∈ Finset.univ.erase w, f w' := by
    apply Finset.sum_congr rfl
    intro w' hw'
    apply h
    exact Finset.ne_of_mem_erase hw'
  rw [hrest, add_right_comm, add_comm (g w), add_right_comm]

end

/--
The first `n` tickets are those in `used` together with those that the parties hold.
-/
def Dispensed {W : Type u} [Fintype W] {α : Type v} (ticket : Nat → α) (n : Nat) (held : W → List α)
    (used : List α) : Prop :=
  (used : Multiset α) + ∑ w, (held w : Multiset α) = ((List.range n).map ticket : List α)

namespace Dispensed

variable {W : Type u} [Fintype W] {α : Type v} {ticket : Nat → α} {n : Nat} {held held' : W → List α}
  {used : List α}

theorem init (ticket : Nat → α) : Dispensed (W := W) ticket 0 (fun _ => []) [] := by
  simp [Dispensed]

theorem congr (h : Dispensed ticket n held used) (hheld : ∀ w, held' w = held w)
    : Dispensed ticket n held' used := by
  have heq : held' = held := funext hheld
  rw [heq]
  exact h

theorem draw [DecidableEq W] (h : Dispensed ticket n held used) (w : W)
    (hother : ∀ w', w' ≠ w → held' w' = held w') (hdraw : held' w = held w ++ [ticket n])
    : Dispensed ticket (n + 1) held' used := by
  have hsum := sum_add_eq_of_agree (f := fun w => (held w : Multiset α))
    (g := fun w => (held' w : Multiset α)) w (fun w' hw' => by rw [hother w' hw'])
  rw [hdraw, ← Multiset.coe_add, ← add_assoc, add_right_comm, add_left_inj] at hsum
  unfold Dispensed at h ⊢
  rw [hsum, ← add_assoc, h, List.range_succ, List.map_append, ← Multiset.coe_add]
  rfl

theorem use [DecidableEq W] (h : Dispensed ticket n held used) (w : W)
    (hother : ∀ w', w' ≠ w → held' w' = held w') (huse : held' w = [])
    : Dispensed ticket n held' (used ++ held w) := by
  have hsum := sum_add_eq_of_agree (f := fun w => (held w : Multiset α))
    (g := fun w => (held' w : Multiset α)) w (fun w' hw' => by rw [hother w' hw'])
  rw [huse, Multiset.coe_nil, add_zero] at hsum
  unfold Dispensed at h ⊢
  rw [← Multiset.coe_add, add_assoc, add_comm (held w : Multiset α), hsum]
  exact h

theorem subperm (h : Dispensed ticket n held used) : used.Subperm ((List.range n).map ticket) := by
  rw [← Multiset.coe_le, ← h]
  exact Multiset.le_add_right _ _

theorem perm (h : Dispensed ticket n held used) (hheld : ∀ w, held w = [])
    : used.Perm ((List.range n).map ticket) := by
  rw [← Multiset.coe_eq_coe, ← h]
  simp [hheld]

theorem length (h : Dispensed ticket n held used) (hheld : ∀ w, held w = []) : used.length = n := by
  rw [(h.perm hheld).length_eq, List.length_map, List.length_range]

end Dispensed
