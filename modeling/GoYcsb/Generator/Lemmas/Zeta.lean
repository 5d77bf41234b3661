import GoYcsb.Generator.Impl.Zeta
import GoYcsb.Lib.Run
import Mathlib.Order.Bounds.Basic

/-!
This module contains the verification of the sums that a `Zipfian` from `GoYcsb.Generator.Impl.Zeta` keeps: after
any calls, the sum that was extended is the one that is computed from scratch.
-/

namespace Zeta

variable {F : Type u} {ops : Floats F}

theorem zetaStatic_extend {m n : Int} (hm : 0 ≤ m) (hle : m ≤ n) (theta initialSum : F)
    : zetaStatic ops m n theta (zetaStatic ops 0 m theta initialSum) = zetaStatic ops 0 n theta initialSum := by
  have hlength : (n - 0).toNat = (m - 0).toNat + (n - m).toNat := by omega
  have hindex : ∀ k : Nat, m + (k : Int) = 0 + (((m - 0).toNat + k : Nat) : Int) := by
    intro k
    omega
  unfold zetaStatic
  rw [hlength, List.range_add, List.foldl_append, List.foldl_map]
  simp only [hindex]

namespace Zipfian

variable {z : Zipfian F}

/--
What every call finds: the sum belongs to the count, whatever calls there have been.
-/
structure Consistent (ops : Floats F) (constant : F) (z : Zipfian F) : Prop where
  theta : z.theta = constant
  zetan : z.zetan = zetaStatic ops 0 z.countForZeta constant (ops.ofInt 0)
  zeta2Theta : z.zeta2Theta = zetaStatic ops 0 2 constant (ops.ofInt 0)
  positive : 1 ≤ z.countForZeta
  growing : z.allowItemCountDecrease = false

theorem countForZeta_extend {theta : F} (h : Consistent ops theta z) (itemCount : Int)
    : (z.extend ops itemCount).countForZeta = max z.countForZeta itemCount := by
  unfold extend
  rw [h.growing]
  split
  . simp only [zeta]
    omega
  . simp only [Bool.and_false, Bool.false_eq_true, if_false]
    omega

theorem Consistent.extend {theta : F} (h : Consistent ops theta z) (itemCount : Int)
    : Consistent ops theta (z.extend ops itemCount) := by
  unfold Zipfian.extend
  rw [h.growing]
  split
  . next hgt =>
    refine ⟨h.theta, ?_, h.zeta2Theta, ?_, h.growing⟩
    . have hpositive := h.positive
      simp only [zeta]
      rw [h.theta, h.zetan, zetaStatic_extend (by omega) (Int.le_of_lt hgt)]
    . have hpositive := h.positive
      simp only [zeta]
      omega
  . simp only [Bool.and_false, Bool.false_eq_true, if_false]
    exact h

end Zipfian

-- The count that the sum of two terms leaves behind is overwritten.
theorem newZipfianWithRange_eq (ops : Floats F) (min max : Int) (theta u : F)
    : (newZipfianWithRange ops min max theta u).countForZeta = I64.add (I64.sub max min) 1
        ∧
      (1 ≤ I64.add (I64.sub max min) 1
        → (newZipfianWithRange ops min max theta u).Consistent ops theta) := by
  simp only [newZipfianWithRange, newZipfian, Zipfian.next, Zipfian.zeta, ne_eq, not_true_eq_false, if_false]
  refine ⟨trivial, ?_⟩
  intro hpositive
  exact ⟨rfl, rfl, rfl, hpositive, rfl⟩

namespace Calls

theorem step_cases {s t : Calls F} {action : Action} (h : s.step ops action = some t)
    : (∃ itemCount,
        action = .compare itemCount ∧ itemCount ≠ s.zipfian.countForZeta
          ∧ t = { s with waiting := itemCount :: s.waiting })
        ∨
      (action = .compare s.zipfian.countForZeta ∧ t = { s with seen := s.zipfian.countForZeta :: s.seen })
        ∨
      (∃ itemCount,
        action = .locked itemCount ∧ itemCount ∈ s.waiting
          ∧ t = ⟨s.zipfian.extend ops itemCount, s.waiting.erase itemCount, itemCount :: s.seen⟩) := by
  cases action with
  | compare itemCount =>
    simp only [step] at h
    split at h
    . next hne => exact .inl ⟨itemCount, rfl, hne, (Option.some.inj h).symm⟩
    . next heq =>
      rw [not_not] at heq
      subst heq
      exact .inr (.inl ⟨rfl, (Option.some.inj h).symm⟩)
  | locked itemCount =>
    simp only [step] at h
    split at h
    . next hmem => exact .inr (.inr ⟨itemCount, rfl, hmem, (Option.some.inj h).symm⟩)
    . contradiction

structure Inv (ops : Floats F) (items : Int) (theta : F) (s : Calls F) : Prop where
  consistent : s.zipfian.Consistent ops theta
  greatest : IsGreatest {n | n = items ∨ n ∈ s.seen} s.zipfian.countForZeta

theorem inv_step {items : Int} {theta : F} {s t : Calls F} {action : Action} (h : s.Inv ops items theta)
    (hstep : s.step ops action = some t)
    : t.Inv ops items theta := by
  have hseen : ∀ itemCount,
      IsGreatest {n | n = items ∨ n ∈ itemCount :: s.seen} (max s.zipfian.countForZeta itemCount) := by
    intro itemCount
    have hset : {n | n = items ∨ n ∈ itemCount :: s.seen} = {n | n = items ∨ n ∈ s.seen} ∪ {itemCount} := by
      ext n
      simp only [List.mem_cons, Set.mem_ofPred_eq, Set.mem_union, Set.mem_singleton_iff]
      tauto
    rw [hset]
    exact h.greatest.union isGreatest_singleton
  rcases step_cases hstep with ⟨itemCount, _, _, rfl⟩ | ⟨_, rfl⟩ | ⟨itemCount, _, _, rfl⟩
  . exact ⟨h.consistent, h.greatest⟩
  . have hgreatest := hseen s.zipfian.countForZeta
    rw [max_self] at hgreatest
    exact ⟨h.consistent, hgreatest⟩
  . refine ⟨h.consistent.extend itemCount, ?_⟩
    have hgreatest := hseen itemCount
    rw [← Zipfian.countForZeta_extend h.consistent] at hgreatest
    exact hgreatest

theorem perm_calls {z : Zipfian F} {actions : List Action} {s : Calls F}
    (hrun : Run (step ops) (fun _ _ => True) (new z) actions s)
    : (s.waiting ++ s.seen).Perm (actions.filterMap Action.call) := by
  induction hrun with
  | nil => exact .refl _
  | @snoc actions s t action _ _ hstep ih =>
    rw [List.filterMap_append]
    rcases step_cases hstep with ⟨itemCount, rfl, _, rfl⟩ | ⟨rfl, rfl⟩ | ⟨itemCount, rfl, hmem, rfl⟩
    . exact (ih.cons itemCount).trans (List.perm_append_singleton _ _).symm
    . exact List.perm_middle.trans ((ih.cons _).trans (List.perm_append_singleton _ _).symm)
    . have herase : (s.waiting.erase itemCount ++ itemCount :: s.seen).Perm (s.waiting ++ s.seen) :=
        List.perm_middle.trans ((List.perm_cons_erase hmem).symm.append_right s.seen)
      have hnone : [Action.locked itemCount].filterMap Action.call = [] := rfl
      rw [hnone, List.append_nil]
      exact herase.trans ih

theorem run_next (z : Zipfian F) (u : F) (itemCount : Int) (seen : List Int)
    : ∃ actions,
        Run (step ops) (fun _ _ => True) ⟨z, [], seen⟩ actions ⟨(z.next ops u itemCount).2, [], itemCount :: seen⟩ := by
  by_cases heq : itemCount = z.countForZeta
  . refine ⟨[.compare itemCount], .snoc .nil trivial ?_⟩
    simp [step, Zipfian.next, heq]
  . have hcompare : step ops ⟨z, [], seen⟩ (.compare itemCount) = some ⟨z, [itemCount], seen⟩ := by
      simp [step, heq]
    refine ⟨[.compare itemCount, .locked itemCount], .snoc (.snoc .nil trivial hcompare) trivial ?_⟩
    simp [step, Zipfian.next, heq]

end Calls

theorem zetan_eq_zetaStatic {min max : Int} {theta u : F} (hitems : 1 ≤ I64.add (I64.sub max min) 1)
    {actions : List Action} {s : Calls F}
    (hrun : Run (Calls.step ops) (fun _ _ => True) (Calls.new (newZipfianWithRange ops min max theta u)) actions s)
    : s.zipfian.zetan = zetaStatic ops 0 s.zipfian.countForZeta theta (ops.ofInt 0)
        ∧
      IsGreatest {n | n = I64.add (I64.sub max min) 1 ∨ n ∈ s.seen} s.zipfian.countForZeta
        ∧
      (s.waiting ++ s.seen).Perm (actions.filterMap Action.call)
        ∧
      s.zipfian.theta = theta
        ∧
      s.zipfian.zeta2Theta = zetaStatic ops 0 2 theta (ops.ofInt 0) := by
  have hnew := newZipfianWithRange_eq ops min max theta u
  have hinv : s.Inv ops (I64.add (I64.sub max min) 1) theta := by
    apply hrun.invariant (I := fun s => s.Inv ops (I64.add (I64.sub max min) 1) theta)
    . refine ⟨hnew.2 hitems, ?_⟩
      simp only [Calls.new, List.not_mem_nil, or_false, Set.ofPred_eq_eq_singleton, hnew.1]
      exact isGreatest_singleton
    . intro s action t h _ hstep
      exact Calls.inv_step h hstep
  exact ⟨hinv.consistent.zetan, hinv.greatest, Calls.perm_calls hrun, hinv.consistent.theta,
    hinv.consistent.zeta2Theta⟩

-- The call with 2 has compared its count with 3, and finds 5 when it has the lock.
theorem zetan_eq_zetaStatic_two_calls
    : ∃ (ops : Floats Int) (s : Calls Int),
        Run (Calls.step ops) (fun _ _ => True) (Calls.new (newZipfianWithRange ops 0 2 1 0))
          [.compare 5, .compare 2, .locked 5, .locked 2] s
          ∧
        s.zipfian.countForZeta = 5
          ∧
        s.zipfian.zetan = zetaStatic ops 0 s.zipfian.countForZeta 1 (ops.ofInt 0) := by
  have hrun : ∀ ops : Floats Int, ∃ s,
      Run (Calls.step ops) (fun _ _ => True) (Calls.new (newZipfianWithRange ops 0 2 1 0))
          [.compare 5, .compare 2, .locked 5, .locked 2] s
        ∧
      s.zipfian.countForZeta = 5 := by
    intro ops
    exact ⟨_, .snoc (.snoc (.snoc (.snoc .nil trivial rfl) trivial rfl) trivial rfl) trivial rfl, rfl⟩
  let ops : Floats Int := {
    ofInt := id, half := 0, add := Int.add, sub := Int.sub, mul := Int.mul, div := Int.ediv,
    pow := fun x _ => x, lt := fun x y => decide (x < y), toInt64 := id, term := fun i _ => i + 1
  }
  rcases hrun ops with ⟨s, hs, hcount⟩
  exact ⟨ops, s, hs, hcount, (zetan_eq_zetaStatic (by decide) hs).1⟩

end Zeta
