import GoYcsb.Lib.Ownership
import GoYcsb.Workload.Impl.Bench
import GoYcsb.Workload.Lemmas.Value

/-!
This module contains who has which value buffer in `GoYcsb.Workload.Impl.Bench`. A buffer that a worker
has taken from the pool is in nobody else's hands, the pool's included.
-/

namespace Thread

theorem mem_slices {t : Thread} {record : Record} {value : Bytes × Slice} (hrecord : record ∈ t.records)
    (hvalue : value ∈ record.values)
    : value.2 ∈ t.slices := by
  unfold slices
  rw [List.mem_flatMap]
  exact ⟨record, hrecord, List.mem_map_of_mem hvalue⟩

theorem slices_addValue {t : Thread} {record : Record} (h : t.records.getLast? = some record)
    (fieldKey : Bytes) (buf : Slice)
    : (t.addValue fieldKey buf).slices = t.slices ++ [buf] := by
  have hrecords := List.dropLast_append_getLast? record h
  unfold addValue slices
  rw [h]
  dsimp only
  conv =>
    rhs
    rw [← hrecords]
  simp

end Thread

namespace Bench

variable {W : Type}

def own (s : Bench W) (o : Option W) : List Slice :=
  match o with
  | none => s.pool
  | some w => (s.thread w).slices

-- `s'` has come from `s` in that array `a` was taken from the pool or is new. The values of the
-- workers are what they were.
structure Takes (s s' : Bench W) (a : Nat) : Prop where
  limit : s'.memory.limit = s.memory.limit
  store : s'.store = s.store
  thread : s'.thread = s.thread
  separate : s'.memory.Separate s'.own
  unowned : Memory.Unowned s'.own a
  frame : ∀ w, ∀ b ∈ (s.thread w).slices, s'.memory.content b = s.memory.content b

theorem Takes.owns {s s' : Bench W} {a : Nat} {b : Buffer} (h : Takes s s' a)
    (hown : Buffer.Owns s'.memory a b)
    : Takes s { s' with memory := b.memory } b.slice.array where
  limit := hown.limit.trans h.limit
  store := h.store
  thread := h.thread
  separate := hown.separate h.separate h.unowned
  unowned := hown.unowned h.separate h.unowned
  frame := by
    intro w x hx
    rw [← h.frame w x hx]
    have hx' : x ∈ s'.own (some w) := by
      unfold own
      rwa [h.thread]
    apply hown.content_eq h.separate h.unowned hx'

theorem takes_length {s : Bench W} (h : s.memory.Separate s.own) : Takes s s s.memory.arrays.length where
  limit := rfl
  store := rfl
  thread := rfl
  separate := h
  unowned := h.unowned_length
  frame := by intros; rfl

variable [DecidableEq W]

theorem own_setThread (s : Bench W) (w : W) (t : Thread)
    : (s.setThread w t).own = Function.update s.own (some w) t.slices := by
  funext o
  cases o with
  | none => simp [own, setThread]
  | some w' =>
    by_cases h : w' = w
    . subst h
      simp [own, setThread]
    . simp [own, setThread, h]

theorem own_pool (s : Bench W) (pool : List Slice)
    : own { s with pool } = Function.update s.own none pool := by
  funext o
  cases o with
  | none => simp [own]
  | some w => simp [own]

theorem takes_eraseIdx {s : Bench W} {i : Nat} {buf : Slice} (h : s.memory.Separate s.own)
    (hbuf : s.pool[i]? = some buf)
    : Takes s { s with pool := s.pool.eraseIdx i } buf.array where
  limit := rfl
  store := rfl
  thread := rfl
  separate := by
    rw [own_pool]
    apply h.sublist
    apply List.eraseIdx_sublist
  unowned := by
    rw [own_pool]
    apply h.unowned_eraseIdx (o := none) hbuf
  frame := by intros; rfl

theorem getBuffer_cases (c : Core) {s : Bench W} (pooled : Nat) (h : s.memory.Separate s.own)
    : (s.getBuffer c pooled).Panics
        ∨
      ∃ s' buf, s.getBuffer c pooled = .ret (s', buf) ∧ Takes s s' buf.array ∧ s'.memory.Valid buf := by
  unfold getBuffer
  split
  . next buf hbuf =>
    right
    refine ⟨_, _, rfl, takes_eraseIdx h hbuf, ?_⟩
    apply h.valid none
    apply List.mem_of_getElem? hbuf
  . rcases makeBuffer_cases s.memory c.fieldLength with hpanics | ⟨b, hb, hown⟩
    . left
      apply hpanics.bind
    . right
      rw [hb]
      refine ⟨_, _, rfl, ?_, hown.valid⟩
      apply (takes_length h).owns hown

theorem buildDeterministic_cases (P : Platform) {c : Core} {s : Bench W} {size : Int} (answer : Answer)
    (key fieldKey : Bytes) (hconstant : c.fieldLengthGenerator = .constant ⟨size⟩) (hsize : 0 ≤ size)
    (hlt : size < 2 ^ 63) (h : s.memory.Separate s.own)
    : (s.buildDeterministic P c answer key fieldKey).Panics
        ∨
      ∃ s' buf,
        s.buildDeterministic P c answer key fieldKey = .ret (s', buf)
          ∧
        Takes s s' buf.array
          ∧
        s'.memory.Valid buf
          ∧
        IsValue s.memory.limit size key fieldKey (s'.memory.content buf) := by
  have hnext : c.fieldLengthGenerator.next P 0 answer.draw = .ret (size, c.fieldLengthGenerator) := by
    rw [hconstant]
    rfl
  unfold buildDeterministic
  rw [hnext, Outcome.ret_bind]
  dsimp only
  rcases getBuffer_cases c answer.pooled h with hpanics | ⟨s', buf, hget, htakes, hvalid⟩
  . left
    apply hpanics.bind
  . rw [hget, Outcome.ret_bind]
    dsimp only
    rcases buildDeterministicValue_cases answer.slack key fieldKey hvalid hsize hlt with
      hpanics | ⟨b, hb, hown, hvalue⟩
    . left
      apply hpanics.bind
    . right
      rw [hb]
      rw [htakes.limit] at hvalue
      exact ⟨_, _, rfl, htakes.owns hown, hown.valid, hvalue⟩

end Bench
