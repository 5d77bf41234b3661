import GoYcsb.Lib.Memory
import Mathlib.Data.List.Nodup
import Mathlib.Logic.Function.Basic

/-!
This module contains the division of the slices of a memory among owners. No two slices share an array,
so that a write through one of them is not seen through any other.
-/

namespace Memory

structure Separate {ι : Type u} (m : Memory) (own : ι → List Slice) : Prop where
  valid : ∀ o, ∀ b ∈ own o, m.Valid b
  nodup : ∀ o, ((own o).map Slice.array).Nodup
  disjoint : ∀ o o', ∀ b ∈ own o, ∀ b' ∈ own o', b.array = b'.array → o = o'

def Unowned {ι : Type u} (own : ι → List Slice) (a : Nat) : Prop := ∀ o, ∀ b ∈ own o, b.array ≠ a

variable {ι : Type u} {m : Memory} {own : ι → List Slice}

theorem Separate.unowned_length (h : Separate m own) : Unowned own m.arrays.length := by
  intro o b hb heq
  have hlt := (h.valid o b hb).array_lt
  omega

variable [DecidableEq ι]

theorem Separate.sublist {l : List Slice} {o : ι} (h : Separate m own) (hl : l.Sublist (own o))
    : Separate m (Function.update own o l) := by
  have hsub (o' : ι) : (Function.update own o l o').Sublist (own o') := by
    by_cases heq : o' = o
    . subst heq
      rwa [Function.update_self]
    . rw [Function.update_of_ne heq]
  refine
    {
      valid := ?_
      nodup := ?_
      disjoint := ?_
    }
  . intro o' b hb
    apply h.valid o' b
    apply (hsub o').subset hb
  . intro o'
    apply List.Nodup.sublist _ (h.nodup o')
    apply (hsub o').map
  . intro o₁ o₂ b₁ hb₁ b₂ hb₂
    apply h.disjoint
    . apply (hsub o₁).subset hb₁
    . apply (hsub o₂).subset hb₂

theorem Separate.unowned_eraseIdx {o : ι} {i : Nat} {b : Slice} (h : Separate m own)
    (hb : (own o)[i]? = some b)
    : Unowned (Function.update own o ((own o).eraseIdx i)) b.array := by
  intro o' b' hb' heq
  by_cases ho : o' = o
  . subst ho
    rw [Function.update_self, List.mem_eraseIdx_iff_getElem?] at hb'
    rcases hb' with ⟨j, hne, hj⟩
    have hj' : ((own o').map Slice.array)[j]? = some b.array := by
      rw [List.getElem?_map, hj, Option.map_some, heq]
    have hi' : ((own o').map Slice.array)[i]? = some b.array := by
      rw [List.getElem?_map, hb, Option.map_some]
    rcases List.getElem?_eq_some_iff.mp hj' with ⟨hlt, _⟩
    apply hne
    rw [← List.getElem?_inj hlt (h.nodup o'), hj', hi']
  . rw [Function.update_of_ne ho] at hb'
    apply ho
    apply h.disjoint o' o b' hb' b (List.mem_of_getElem? hb) heq

theorem Separate.give {o : ι} {b : Slice} (h : Separate m own) (hvalid : m.Valid b)
    (hunowned : Unowned own b.array)
    : Separate m (Function.update own o (own o ++ [b])) := by
  have hmem {o' : ι} {b' : Slice} (hb' : b' ∈ Function.update own o (own o ++ [b]) o')
      : b' ∈ own o' ∨ (o' = o ∧ b' = b) := by
    by_cases ho : o' = o
    . subst ho
      simpa using hb'
    . rw [Function.update_of_ne ho] at hb'
      left
      assumption
  refine
    {
      valid := ?_
      nodup := ?_
      disjoint := ?_
    }
  . intro o' b' hb'
    rcases hmem hb' with hold | ⟨_, heq⟩
    . apply h.valid o' b' hold
    . rwa [heq]
  . intro o'
    by_cases ho : o' = o
    . subst ho
      rw [Function.update_self, List.map_append, List.map_singleton]
      apply List.Nodup.append (h.nodup o') (List.nodup_singleton _)
      rw [List.disjoint_singleton]
      intro hin
      rcases List.mem_map.mp hin with ⟨b', hb', heq⟩
      apply hunowned o' b' hb' heq
    . rw [Function.update_of_ne ho]
      apply h.nodup
  . intro o₁ o₂ b₁ hb₁ b₂ hb₂ heq
    rcases hmem hb₁ with hold₁ | ⟨ho₁, heq₁⟩
    . rcases hmem hb₂ with hold₂ | ⟨_, heq₂⟩
      . apply h.disjoint o₁ o₂ b₁ hold₁ b₂ hold₂ heq
      . rw [heq₂] at heq
        exact absurd heq (hunowned o₁ b₁ hold₁)
    . rcases hmem hb₂ with hold₂ | ⟨ho₂, _⟩
      . rw [heq₁] at heq
        exact absurd heq.symm (hunowned o₂ b₂ hold₂)
      . rw [ho₁, ho₂]

theorem Separate.move {o o' : ι} (h : Separate m own) (hne : o ≠ o')
    : Separate m (Function.update (Function.update own o' (own o ++ own o')) o []) := by
  -- a slice is with an owner that had it or it has moved
  have hmem {x : ι} {b : Slice}
      (hb : b ∈ Function.update (Function.update own o' (own o ++ own o')) o [] x)
      : x ≠ o ∧ (b ∈ own x ∨ (x = o' ∧ b ∈ own o)) := by
    by_cases ho : x = o
    . subst ho
      simp at hb
    . rw [Function.update_of_ne ho] at hb
      refine ⟨ho, ?_⟩
      by_cases ho' : x = o'
      . subst ho'
        rw [Function.update_self, List.mem_append] at hb
        cases hb with
        | inl hb => exact .inr ⟨rfl, hb⟩
        | inr hb => exact .inl hb
      . rw [Function.update_of_ne ho'] at hb
        exact .inl hb
  refine
    {
      valid := ?_
      nodup := ?_
      disjoint := ?_
    }
  . intro x b hb
    rcases (hmem hb).2 with hold | ⟨_, hmoved⟩
    . apply h.valid x b hold
    . apply h.valid o b hmoved
  . intro x
    by_cases ho : x = o
    . subst ho
      simp
    . rw [Function.update_of_ne ho]
      by_cases ho' : x = o'
      . subst ho'
        rw [Function.update_self, List.map_append]
        apply List.Nodup.append (h.nodup o) (h.nodup x)
        intro a ha ha'
        rcases List.mem_map.mp ha with ⟨b, hb, heq⟩
        rcases List.mem_map.mp ha' with ⟨b', hb', heq'⟩
        apply hne
        apply h.disjoint o x b hb b' hb'
        rw [heq, heq']
      . rw [Function.update_of_ne ho']
        apply h.nodup
  . intro x y b hb b' hb' heq
    rcases hmem hb with ⟨hx, hold | ⟨hx', hmoved⟩⟩
    . rcases hmem hb' with ⟨_, hold' | ⟨_, hmoved'⟩⟩
      . apply h.disjoint x y b hold b' hold' heq
      . exact absurd (h.disjoint x o b hold b' hmoved' heq) hx
    . rcases hmem hb' with ⟨hy, hold' | ⟨hy', _⟩⟩
      . exact absurd (h.disjoint o y b hmoved b' hold' heq).symm hy
      . rw [hx', hy']

end Memory

namespace Buffer.Owns

variable {ι : Type u} {m : Memory} {own : ι → List Slice} {a : Nat} {b : Buffer}

theorem array_eq (h : Owns m a b) (hsep : m.Separate own) (hunowned : Memory.Unowned own a) {o : ι}
    {x : Slice} (hx : x ∈ own o)
    : b.memory.array x.array = m.array x.array := by
  apply h.frame
  . apply hunowned o x hx
  . apply (hsep.valid o x hx).array_lt

theorem content_eq (h : Owns m a b) (hsep : m.Separate own) (hunowned : Memory.Unowned own a) {o : ι}
    {x : Slice} (hx : x ∈ own o)
    : b.memory.content x = m.content x := by
  unfold Memory.content
  rw [h.array_eq hsep hunowned hx]

theorem separate (h : Owns m a b) (hsep : m.Separate own) (hunowned : Memory.Unowned own a)
    : b.memory.Separate own where
  valid := by
    intro o x hx
    have hvalid := hsep.valid o x hx
    have hle := h.length_le
    have hcap : b.memory.cap x = m.cap x := by
      unfold Memory.cap
      rw [h.array_eq hsep hunowned hx]
    constructor
    . apply Nat.lt_of_lt_of_le hvalid.array_lt hle
    . rw [hcap]
      exact hvalid.len_le
    . rw [hcap, h.limit]
      exact hvalid.cap_le
  nodup := hsep.nodup
  disjoint := hsep.disjoint

theorem unowned (h : Owns m a b) (hsep : m.Separate own) (hunowned : Memory.Unowned own a)
    : Memory.Unowned own b.slice.array := by
  intro o x hx heq
  cases h.own with
  | inl hsame => exact hunowned o x hx (heq.trans hsame)
  | inr hnew =>
    have hlt := (hsep.valid o x hx).array_lt
    omega

end Buffer.Owns
