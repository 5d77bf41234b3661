import Mathlib.Data.List.Basic

/-!
This module contains the runs of a machine that is given by a partial step function, together with
the rule that an invariant of the steps is an invariant of the runs.
-/

/--
`Run step allowed s₀ labels s` holds if `labels` leads from `s₀` to `s`, where every label was
`allowed` in the state it was taken from and the machine was able to take it.
-/
inductive Run {σ : Type u} {ι : Type v} (step : σ → ι → Option σ) (allowed : σ → ι → Prop)
    (s₀ : σ) : List ι → σ → Prop where
  | nil : Run step allowed s₀ [] s₀
  | snoc {labels : List ι} {s t : σ} {label : ι} : Run step allowed s₀ labels s →
      allowed s label → step s label = some t → Run step allowed s₀ (labels ++ [label]) t

namespace Run

variable {σ : Type u} {ι : Type v} {step : σ → ι → Option σ} {allowed : σ → ι → Prop}

theorem invariant {I : σ → Prop} {s₀ s : σ} {labels : List ι} (hrun : Run step allowed s₀ labels s)
    (hinit : I s₀)
    (hstep : ∀ s label t, I s → allowed s label → step s label = some t → I t)
    : I s := by
  induction hrun with
  | nil => exact hinit
  | snoc _ hallowed htake ih => exact hstep _ _ _ ih hallowed htake

theorem trans {s t u : σ} {pre post : List ι} (hpre : Run step allowed s pre t)
    (hpost : Run step allowed t post u)
    : Run step allowed s (pre ++ post) u := by
  induction hpost with
  | nil => simpa using hpre
  | snoc _ hallowed htake ih =>
    rw [← List.append_assoc]
    exact .snoc ih hallowed htake

theorem cons {s t u : σ} {label : ι} {labels : List ι} (hallowed : allowed s label)
    (htake : step s label = some t) (hrun : Run step allowed t labels u)
    : Run step allowed s (label :: labels) u := by
  have hone : Run step allowed s [label] t := .snoc .nil hallowed htake
  exact trans hone hrun

theorem mono {allowed' : σ → ι → Prop} {s₀ s : σ} {labels : List ι} (hrun : Run step allowed s₀ labels s)
    (h : ∀ s label, allowed s label → allowed' s label)
    : Run step allowed' s₀ labels s := by
  induction hrun with
  | nil => exact .nil
  | snoc _ hallowed htake ih => exact .snoc ih (h _ _ hallowed) htake

theorem of_forall_mem {allowed' : σ → ι → Prop} {s₀ s : σ} {labels : List ι} (hrun : Run step allowed s₀ labels s)
    (h : ∀ s, ∀ label ∈ labels, allowed' s label)
    : Run step allowed' s₀ labels s := by
  induction hrun with
  | nil => exact .nil
  | snoc _ _ htake ih =>
    apply snoc (ih (fun s label hmem => h s label (List.mem_append_left _ hmem))) _ htake
    exact h _ _ (List.mem_append_right _ List.mem_cons_self)

theorem eq_of_run {allowed' : σ → ι → Prop} {s₀ s t : σ} {labels : List ι} (hrun : Run step allowed s₀ labels s)
    (hrun' : Run step allowed' s₀ labels t)
    : s = t := by
  induction hrun generalizing t with
  | nil =>
    generalize hnil : ([] : List ι) = labels at hrun'
    cases hrun' with
    | nil => rfl
    | snoc _ _ _ => simp at hnil
  | @snoc labels _ _ label _ _ htake ih =>
    generalize hsnoc : labels ++ [label] = labels' at hrun'
    cases hrun' with
    | nil => simp at hsnoc
    | snoc hrun' _ htake' =>
      rcases List.append_inj' hsnoc rfl with ⟨rfl, hlabel⟩
      rw [List.singleton_inj] at hlabel
      rw [ih hrun', hlabel, htake'] at htake
      exact (Option.some.inj htake).symm

theorem snoc_iff {allowed' : σ → ι → Prop} {s₀ s t : σ} {labels : List ι} {label : ι}
    (hrun : Run step allowed s₀ labels s) (htake : step s label = some t)
    : Run step allowed' s₀ (labels ++ [label]) t ↔ Run step allowed' s₀ labels s ∧ allowed' s label := by
  constructor
  . intro h
    generalize hsnoc : labels ++ [label] = labels' at h
    cases h with
    | nil => simp at hsnoc
    | snoc hrun' hallowed _ =>
      rcases List.append_inj' hsnoc rfl with ⟨rfl, hlabel⟩
      rw [List.singleton_inj] at hlabel
      rw [hlabel, hrun.eq_of_run hrun']
      exact ⟨hrun', hallowed⟩
  . rintro ⟨hrun', hallowed⟩
    exact .snoc hrun' hallowed htake

theorem length_le {I : σ → Prop} {measure : σ → Nat} {s₀ s : σ} {labels : List ι}
    (hrun : Run step allowed s₀ labels s) (hinit : I s₀)
    (hstep : ∀ s label t, I s → allowed s label → step s label = some t →
      I t ∧ measure t < measure s)
    : labels.length ≤ measure s₀ := by
  have hsum : I s ∧ labels.length + measure s ≤ measure s₀ := by
    induction hrun with
    | nil => exact ⟨hinit, by simp⟩
    | snoc _ hallowed htake ih =>
      rcases hstep _ _ _ ih.1 hallowed htake with ⟨ht, hlt⟩
      refine ⟨ht, ?_⟩
      rw [List.length_append, List.length_singleton]
      omega
  omega

-- A machine that can go on until it is done, and cannot go on for ever, gets done.
theorem exists_done {I Done : σ → Prop} {measure : σ → Nat} {s₀ : σ} (hinit : I s₀)
    (hstep : ∀ s label t, I s → allowed s label → step s label = some t →
      I t ∧ measure t < measure s)
    (hprogress : ∀ s, I s → ¬ Done s → ∃ label t, allowed s label ∧ step s label = some t)
    : ∃ labels s, Run step allowed s₀ labels s ∧ I s ∧ Done s := by
  induction hm : measure s₀ using Nat.strongRecOn generalizing s₀ with
  | ind m ih =>
    by_cases hdone : Done s₀
    . exact ⟨[], s₀, .nil, hinit, hdone⟩
    . rcases hprogress s₀ hinit hdone with ⟨label, t, hallowed, htake⟩
      rcases hstep s₀ label t hinit hallowed htake with ⟨ht, hlt⟩
      rcases ih (measure t) (by omega) ht rfl with ⟨labels, s, hrun, hs⟩
      exact ⟨label :: labels, s, hrun.cons hallowed htake, hs⟩

theorem exists_done_of_length_le {Done : σ → Prop} {s₀ : σ} {bound : Nat}
    (hbound : ∀ labels s, Run step allowed s₀ labels s → labels.length ≤ bound)
    (hprogress : ∀ labels s, Run step allowed s₀ labels s → ¬ Done s →
      ∃ label t, allowed s label ∧ step s label = some t)
    : ∃ labels s, Run step allowed s₀ labels s ∧ Done s := by
  by_contra hnever
  have hlong : ∀ n, ∃ labels s, Run step allowed s₀ labels s ∧ labels.length = n := by
    intro n
    induction n with
    | zero => exact ⟨[], s₀, .nil, rfl⟩
    | succ n ih =>
      rcases ih with ⟨labels, s, hrun, hlength⟩
      have hdone : ¬ Done s := fun hdone => hnever ⟨labels, s, hrun, hdone⟩
      rcases hprogress labels s hrun hdone with ⟨label, t, hallowed, htake⟩
      exact ⟨labels ++ [label], t, hrun.snoc hallowed htake, by simp [hlength]⟩
  rcases hlong (bound + 1) with ⟨labels, s, hrun, hlength⟩
  have hle := hbound labels s hrun
  omega

def exec (step : σ → ι → Option σ) (allowed : σ → ι → Prop)
    [∀ s label, Decidable (allowed s label)] (s : σ) (labels : List ι) : Option σ :=
  match labels with
  | [] => some s
  | label :: labels =>
    if allowed s label then
      match step s label with
      | some t => exec step allowed t labels
      | none => none
    else
      none

theorem of_exec [∀ s label, Decidable (allowed s label)] {s t : σ} {labels : List ι}
    (h : exec step allowed s labels = some t)
    : Run step allowed s labels t := by
  induction labels generalizing s with
  | nil =>
    simp only [exec, Option.some.injEq] at h
    subst h
    exact .nil
  | cons label labels ih =>
    unfold exec at h
    split at h
    . next hallowed =>
      split at h
      . next htake => exact cons hallowed htake (ih h)
      . simp at h
    . simp at h

theorem exists_of_exec [∀ s label, Decidable (allowed s label)] {s : σ} {labels : List ι}
    (p : σ → Bool) (h : (exec step allowed s labels).any p = true)
    : ∃ t, Run step allowed s labels t ∧ p t = true := by
  rw [Option.any_eq_true] at h
  rcases h with ⟨t, ht, hp⟩
  exact ⟨t, of_exec ht, hp⟩

end Run
