import GoYcsb.Lib.Run
import Mathlib.Algebra.BigOperators.Fin

/-!
This module contains workers that run side by side, each for itself, and add what they come to at their end to a
shared total. If each of them comes to an end, so do they all, in any interleaving, and the total is made of their
results in some order.
-/

namespace ForkJoin

structure Machine (ι σ α : Type) where
  -- One turn of a worker, which goes on or has its result.
  turn : ι → σ → σ ⊕ α
  add : α → α → α

structure State (ι σ α : Type) where
  total : α
  workers : ι → Option σ

def State.Done (s : State ι σ α) : Prop := ∀ i, s.workers i = none

def fork (total : α) (start : ι → σ) : State ι σ α := ⟨total, fun i => some (start i)⟩

namespace Machine

variable {ι σ α : Type} (m : Machine ι σ α)

inductive Ends (i : ι) : σ → Nat → α → Prop where
  | last {w : σ} {result : α} : m.turn i w = .inr result → Ends i w 1 result
  | next {w w' : σ} {n : Nat} {result : α} : m.turn i w = .inl w' → Ends i w' n result → Ends i w (n + 1) result

variable [DecidableEq ι]

def step (s : State ι σ α) (i : ι) : Option (State ι σ α) :=
  match s.workers i with
  | none => none
  | some w =>
    match m.turn i w with
    | .inl w => some { s with workers := Function.update s.workers i (some w) }
    | .inr result => some { total := m.add s.total result, workers := Function.update s.workers i none }

variable {m} {s t : State ι σ α} {i : ι}

theorem step_cases (h : m.step s i = some t)
    : (∃ w w', s.workers i = some w ∧ m.turn i w = .inl w'
        ∧ t = { s with workers := Function.update s.workers i (some w') })
        ∨
      (∃ w result, s.workers i = some w ∧ m.turn i w = .inr result
        ∧ t = { total := m.add s.total result, workers := Function.update s.workers i none }) := by
  unfold step at h
  cases hworker : s.workers i with
  | none => simp [hworker] at h
  | some w =>
    cases hturn : m.turn i w with
    | inl w' =>
      simp only [hworker, hturn, Option.some.injEq] at h
      exact .inl ⟨w, w', rfl, hturn, h.symm⟩
    | inr result =>
      simp only [hworker, hturn, Option.some.injEq] at h
      exact .inr ⟨w, result, rfl, hturn, h.symm⟩

theorem exists_step {w : σ} (h : s.workers i = some w) : ∃ t, m.step s i = some t := by
  unfold step
  rw [h]
  dsimp only
  cases m.turn i w with
  | inl w' => exact ⟨_, rfl⟩
  | inr result => exact ⟨_, rfl⟩

theorem exists_step_of_not_done (h : ¬ s.Done) : ∃ i t, m.step s i = some t := by
  unfold State.Done at h
  rw [not_forall] at h
  rcases h with ⟨i, hi⟩
  rcases Option.ne_none_iff_exists'.mp hi with ⟨w, hw⟩
  rcases exists_step hw with ⟨t, ht⟩
  exact ⟨i, t, ht⟩

section

variable {w w' : σ} {n : Nat} {result result' : α}

omit [DecidableEq ι]

theorem Ends.of_inl (h : m.Ends i w n result) (hturn : m.turn i w = .inl w')
    : ∃ n', n = n' + 1 ∧ m.Ends i w' n' result := by
  cases h with
  | last hlast =>
    rw [hturn] at hlast
    contradiction
  | next hnext hends =>
    rw [hturn, Sum.inl.injEq] at hnext
    rw [hnext]
    exact ⟨_, rfl, hends⟩

theorem Ends.of_inr (h : m.Ends i w n result) (hturn : m.turn i w = .inr result')
    : n = 1 ∧ result = result' := by
  cases h with
  | last hlast =>
    rw [hturn, Sum.inr.injEq] at hlast
    exact ⟨rfl, hlast.symm⟩
  | next hnext _ =>
    rw [hturn] at hnext
    contradiction

end

section

variable (m) (total : α) (result : ι → α)

def Ahead (i : ι) (worker : Option σ) (n : Nat) : Prop :=
  match worker with
  | none => n = 0
  | some w => m.Ends i w n (result i)

/--
The workers have `turns` left, and those of `order` have added their results.
-/
structure Inv (turns : ι → Nat) (order : List ι) (s : State ι σ α) : Prop where
  ahead : ∀ i, m.Ahead result i (s.workers i) (turns i)
  nodup : order.Nodup
  mem : ∀ i, i ∈ order ↔ s.workers i = none
  total_eq : s.total = (order.map result).foldl m.add total

variable {m total result} {turns : ι → Nat} {order : List ι}

theorem Inv.ahead_update (h : m.Inv total result turns order s) {worker : Option σ} {n : Nat}
    (hworker : m.Ahead result i worker n) (j : ι)
    : m.Ahead result j (Function.update s.workers i worker j) (Function.update turns i n j) := by
  by_cases heq : j = i
  . subst heq
    rw [Function.update_self, Function.update_self]
    exact hworker
  . rw [Function.update_of_ne heq, Function.update_of_ne heq]
    exact h.ahead j

theorem Inv.step (h : m.Inv total result turns order s) (hstep : m.step s i = some t)
    : ∃ n order', turns i = n + 1 ∧ m.Inv total result (Function.update turns i n) order' t := by
  have hahead := h.ahead i
  rcases step_cases hstep with ⟨w, w', hworker, hturn, rfl⟩ | ⟨w, r, hworker, hturn, rfl⟩
  . rw [hworker] at hahead
    rcases hahead.of_inl hturn with ⟨n, hn, hends⟩
    refine ⟨n, order, hn, h.ahead_update hends, h.nodup, ?_, h.total_eq⟩
    intro j
    rw [h.mem]
    dsimp only
    by_cases heq : j = i
    . subst heq
      simp [hworker]
    . rw [Function.update_of_ne heq]
  . rw [hworker] at hahead
    rcases hahead.of_inr hturn with ⟨hn, hresult⟩
    have hnotMem : i ∉ order := by
      rw [h.mem, hworker]
      simp
    refine ⟨0, order ++ [i], hn, h.ahead_update rfl, ?_, ?_, ?_⟩
    . rw [List.nodup_append_comm, List.singleton_append, List.nodup_cons]
      exact ⟨hnotMem, h.nodup⟩
    . intro j
      rw [List.mem_append, List.mem_singleton, h.mem]
      dsimp only
      by_cases heq : j = i
      . subst heq
        simp
      . rw [Function.update_of_ne heq]
        simp [heq]
    . rw [List.map_append, List.foldl_append, ← h.total_eq, List.map_singleton, hresult]
      rfl

omit [DecidableEq ι] in
theorem inv_fork {start : ι → σ} (h : ∀ i, m.Ends i (start i) (turns i) (result i))
    : m.Inv total result turns [] (fork total start) := by
  refine ⟨h, List.nodup_nil, ?_, rfl⟩
  intro i
  simp [fork]

variable [Fintype ι]

theorem sum_update {n : Nat} (h : turns i = n + 1)
    : ∑ j, Function.update turns i n j + 1 = ∑ j, turns j := by
  rw [← Finset.add_sum_erase Finset.univ turns (Finset.mem_univ i),
    ← Finset.add_sum_erase Finset.univ (Function.update turns i n) (Finset.mem_univ i), Function.update_self, h]
  have hrest : ∑ j ∈ Finset.univ.erase i, Function.update turns i n j = ∑ j ∈ Finset.univ.erase i, turns j := by
    apply Finset.sum_congr rfl
    intro j hj
    exact Function.update_of_ne (Finset.ne_of_mem_erase hj) _ _
  omega

theorem Inv.run (h : m.Inv total result turns order s) {labels : List ι}
    (hrun : Run m.step (fun _ _ => True) s labels t)
    : ∃ turns' order', m.Inv total result turns' order' t ∧ labels.length + ∑ i, turns' i = ∑ i, turns i := by
  induction hrun with
  | nil => exact ⟨turns, order, h, by simp⟩
  | snoc _ _ hstep ih =>
    rcases ih with ⟨turns', order', hinv, hsum⟩
    rcases hinv.step hstep with ⟨n, order'', hn, hinv'⟩
    refine ⟨_, order'', hinv', ?_⟩
    have hupdate := sum_update hn
    rw [List.length_append, List.length_singleton]
    omega

variable {start : ι → σ} (h : ∀ i, m.Ends i (start i) (turns i) (result i))

include h

theorem length_le_of_ends {labels : List ι} (hrun : Run m.step (fun _ _ => True) (fork total start) labels s)
    : labels.length ≤ ∑ i, turns i := by
  rcases (inv_fork h).run hrun with ⟨turns', order, _, hsum⟩
  omega

theorem total_of_ends {labels : List ι} (hrun : Run m.step (fun _ _ => True) (fork total start) labels s)
    (hdone : s.Done)
    : ∃ order : List ι, order.Nodup ∧ (∀ i, i ∈ order) ∧ s.total = (order.map result).foldl m.add total := by
  rcases (inv_fork h).run hrun with ⟨turns', order, hinv, _⟩
  refine ⟨order, hinv.nodup, ?_, hinv.total_eq⟩
  intro i
  exact (hinv.mem i).mpr (hdone i)

end

end Machine

end ForkJoin
