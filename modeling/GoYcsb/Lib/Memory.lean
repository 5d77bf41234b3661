import GoYcsb.Lib.Bytes
import GoYcsb.Lib.Outcome

/-!
This module contains byte slices that share a memory, and Go's `bytes.Buffer` on top of them. A slice
starts at the beginning of its array, its capacity is the size of the array. Memory is never freed, what
nobody can reach any more is garbage. No array is larger than the limit of the allocator.
-/

structure Memory where
  limit : Nat
  arrays : List Bytes
  deriving DecidableEq, Repr

structure Slice where
  array : Nat
  len : Nat
  deriving DecidableEq, Repr

namespace Memory

def array (m : Memory) (a : Nat) : Bytes := m.arrays.getD a []

def cap (m : Memory) (b : Slice) : Nat := (m.array b.array).length

def content (m : Memory) (b : Slice) : Bytes := (m.array b.array).take b.len

structure Valid (m : Memory) (b : Slice) : Prop where
  array_lt : b.array < m.arrays.length
  len_le : b.len ≤ m.cap b
  cap_le : m.cap b ≤ m.limit

def alloc (m : Memory) (a : Bytes) (len : Nat) : Slice × Memory :=
  (⟨m.arrays.length, len⟩, { m with arrays := m.arrays ++ [a] })

theorem array_append_lt {m : Memory} {a : Nat} (x : Bytes) (h : a < m.arrays.length)
    : array { m with arrays := m.arrays ++ [x] } a = m.array a := by
  unfold array
  rw [List.getD_append _ _ _ _ h]

theorem array_append_length (m : Memory) (x : Bytes)
    : array { m with arrays := m.arrays ++ [x] } m.arrays.length = x := by
  simp [array]

theorem valid_alloc {m : Memory} {x : Bytes} {len : Nat} (hlen : len ≤ x.length) (hlimit : x.length ≤ m.limit)
    : (m.alloc x len).2.Valid (m.alloc x len).1 where
  array_lt := by simp [alloc]
  len_le := by
    simp only [cap, alloc, array_append_length]
    exact hlen
  cap_le := by
    simp only [cap, alloc, array_append_length]
    exact hlimit

theorem array_set {m : Memory} {a : Nat} (a' : Nat) (x : Bytes) (h : a < m.arrays.length)
    : array { m with arrays := m.arrays.set a x } a' = if a' = a then x else m.array a' := by
  unfold array
  split
  . next heq =>
    subst heq
    simp [h]
  . next hne =>
    rw [List.getD_eq_getElem?_getD, List.getD_eq_getElem?_getD, List.getElem?_set_ne (Ne.symm hne)]

end Memory

structure Buffer where
  memory : Memory
  slice : Slice
  deriving DecidableEq, Repr

namespace Buffer

def bytes (b : Buffer) : Bytes := b.memory.content b.slice

-- In place if the capacity allows it. Else the buffer moves to a larger array, `slack` says by how
-- much it is larger than needed.
def write (slack : Nat → Nat) (b : Buffer) (s : Bytes) : Outcome Buffer :=
  let a := b.memory.array b.slice.array
  let len := b.slice.len + s.length
  if len ≤ b.memory.cap b.slice then
    let arrays := b.memory.arrays.set b.slice.array (a.take b.slice.len ++ s ++ a.drop len)
    .ret { memory := { b.memory with arrays }, slice := { b.slice with len } }
  else if len + slack len ≤ b.memory.limit then
    let (slice, memory) := b.memory.alloc (a.take b.slice.len ++ s ++ List.replicate (slack len) 0) len
    .ret { memory, slice }
  else
    .panic "bytes.Buffer: too large"

-- `b` has come from `m` by writing to array `a` and to new arrays only, one of which it uses.
structure Owns (m : Memory) (a : Nat) (b : Buffer) : Prop where
  limit : b.memory.limit = m.limit
  length_le : m.arrays.length ≤ b.memory.arrays.length
  frame : ∀ a', a' ≠ a → a' < m.arrays.length → b.memory.array a' = m.array a'
  own : b.slice.array = a ∨ m.arrays.length ≤ b.slice.array
  valid : b.memory.Valid b.slice

theorem Owns.length_bytes {m : Memory} {a : Nat} {b : Buffer} (h : Owns m a b)
    : b.bytes.length = b.slice.len := by
  have hle := h.valid.len_le
  unfold Memory.cap at hle
  simp only [bytes, Memory.content, List.length_take]
  omega

theorem Owns.reslice {m : Memory} {a len : Nat} {b : Buffer} (h : Owns m a b)
    (hlen : len ≤ b.memory.cap b.slice)
    : Owns m a { b with slice := { b.slice with len } } where
  limit := h.limit
  length_le := h.length_le
  frame := h.frame
  own := h.own
  valid := ⟨h.valid.array_lt, hlen, h.valid.cap_le⟩

theorem Owns.refl {m : Memory} {buf : Slice} (h : m.Valid buf)
    : Owns m buf.array { memory := m, slice := buf } where
  limit := rfl
  length_le := Nat.le_refl _
  frame := by intros; rfl
  own := .inl rfl
  valid := h

theorem Owns.fresh {m : Memory} {x : Bytes} {len : Nat} (hlen : len ≤ x.length) (hlimit : x.length ≤ m.limit)
    : Owns m m.arrays.length { memory := (m.alloc x len).2, slice := (m.alloc x len).1 } where
  limit := rfl
  length_le := by simp [Memory.alloc]
  frame := by
    intro a' _ hlt
    apply Memory.array_append_lt x hlt
  own := .inl rfl
  valid := Memory.valid_alloc hlen hlimit

theorem Owns.alloc {m : Memory} {a len : Nat} {b : Buffer} (h : Owns m a b) {x : Bytes}
    (hlen : len ≤ x.length) (hlimit : x.length ≤ b.memory.limit)
    : Owns m a { memory := (b.memory.alloc x len).2, slice := (b.memory.alloc x len).1 } := by
  have hle := h.length_le
  refine
    {
      limit := h.limit
      length_le := ?_
      frame := ?_
      own := ?_
      valid := Memory.valid_alloc hlen hlimit
    }
  . simp only [Memory.alloc, List.length_append, List.length_singleton]
    omega
  . intro a' hne hlt
    rw [← h.frame a' hne hlt]
    apply Memory.array_append_lt
    omega
  . right
    assumption

theorem Owns.set {m : Memory} {a len : Nat} {b : Buffer} (h : Owns m a b) {x : Bytes}
    (hlength : x.length = b.memory.cap b.slice) (hlen : len ≤ x.length)
    : Owns m a
        {
          memory := { b.memory with arrays := b.memory.arrays.set b.slice.array x }
          slice := { b.slice with len }
        } := by
  have hset (a' : Nat) := Memory.array_set a' x h.valid.array_lt
  refine
    {
      limit := h.limit
      length_le := ?_
      frame := ?_
      own := h.own
      valid := ⟨?_, ?_, ?_⟩
    }
  . rw [List.length_set]
    exact h.length_le
  . intro a' hne hlt
    have hother : a' ≠ b.slice.array := by
      cases h.own with
      | inl heq => rwa [heq]
      | inr hnew => omega
    rw [hset, if_neg hother]
    apply h.frame a' hne hlt
  . rw [List.length_set]
    exact h.valid.array_lt
  . unfold Memory.cap
    rw [hset, if_pos rfl]
    exact hlen
  . unfold Memory.cap
    rw [hset, if_pos rfl, hlength]
    exact h.valid.cap_le

structure Appends (m : Memory) (a : Nat) (b : Buffer) (s : Bytes) (b' : Buffer) : Prop where
  owns : Owns m a b'
  bytes : b'.bytes = b.bytes ++ s
  cap : b.memory.cap b.slice ≤ b'.memory.cap b'.slice

theorem Appends.len {m : Memory} {a : Nat} {b b' : Buffer} {s : Bytes} (h : Appends m a b s b') (hb : Owns m a b)
    : b'.slice.len = b.slice.len + s.length := by
  rw [← h.owns.length_bytes, ← hb.length_bytes, h.bytes, List.length_append]

def HasRoom (slack : Nat → Nat) (b : Buffer) (s : Bytes) : Prop :=
  b.slice.len + s.length ≤ b.memory.cap b.slice
    ∨
  b.slice.len + s.length + slack (b.slice.len + s.length) ≤ b.memory.limit

def Grows (limit : Nat) (slack : Nat → Nat) (capacity need : Nat) : Prop :=
  ∀ len, capacity < len → len ≤ need → len + slack len ≤ limit

theorem Grows.hasRoom {slack : Nat → Nat} {b : Buffer} {s : Bytes} {capacity need : Nat}
    (h : Grows b.memory.limit slack capacity need) (hcap : capacity ≤ b.memory.cap b.slice)
    (hneed : b.slice.len + s.length ≤ need)
    : HasRoom slack b s := by
  by_cases hfits : b.slice.len + s.length ≤ b.memory.cap b.slice
  . exact Or.inl hfits
  . right
    apply h _ _ hneed
    omega

theorem Owns.write_of_hasRoom {m : Memory} {a : Nat} {b : Buffer} (h : Owns m a b) {slack : Nat → Nat} {s : Bytes}
    (hroom : HasRoom slack b s)
    : ∃ b', b.write slack s = .ret b' ∧ Appends m a b s b' := by
  have hle := h.valid.len_le
  have hcap : (b.memory.array b.slice.array).length = b.memory.cap b.slice := rfl
  have hlength : ((b.memory.array b.slice.array).take b.slice.len ++ s).length
      = b.slice.len + s.length := by
    simp only [List.length_append, List.length_take]
    omega
  unfold Buffer.write
  dsimp only
  split
  . next hfits =>
    have hsame : ((b.memory.array b.slice.array).take b.slice.len ++ s
        ++ (b.memory.array b.slice.array).drop (b.slice.len + s.length)).length = b.memory.cap b.slice := by
      rw [List.length_append, hlength, List.length_drop]
      omega
    refine ⟨_, rfl, ?_, ?_, ?_⟩
    . apply h.set hsame
      omega
    . unfold bytes Memory.content
      dsimp only
      rw [Memory.array_set _ _ h.valid.array_lt, if_pos rfl, List.take_left' hlength]
    . unfold Memory.cap
      rw [Memory.array_set _ _ h.valid.array_lt, if_pos rfl, hsame]
      exact Nat.le_refl _
  . next hgrows =>
    have hlimit := hroom.resolve_left hgrows
    have hlarger : ((b.memory.array b.slice.array).take b.slice.len ++ s
        ++ List.replicate (slack (b.slice.len + s.length)) 0).length
          = b.slice.len + s.length + slack (b.slice.len + s.length) := by
      rw [List.length_append, hlength, List.length_replicate]
    rw [if_pos hlimit]
    refine ⟨_, rfl, ?_, ?_, ?_⟩
    . apply h.alloc <;> omega
    . unfold bytes Memory.content Memory.alloc
      dsimp only
      rw [Memory.array_append_length, List.take_left' hlength]
    . unfold Memory.cap Memory.alloc
      dsimp only
      rw [Memory.array_append_length, hlarger]
      omega

theorem Owns.write_cases {m : Memory} {a : Nat} {b : Buffer} (h : Owns m a b) (slack : Nat → Nat) (s : Bytes)
    : (b.write slack s).Panics ∧ ¬ HasRoom slack b s ∨ ∃ b', b.write slack s = .ret b' ∧ Appends m a b s b' := by
  by_cases hroom : HasRoom slack b s
  . right
    exact h.write_of_hasRoom hroom
  . left
    refine ⟨?_, hroom⟩
    rw [HasRoom, not_or] at hroom
    unfold Buffer.write
    dsimp only
    rw [if_neg hroom.1, if_neg hroom.2]
    exact ⟨_, rfl⟩

theorem bytes_reslice {b : Buffer} {len : Nat} (hlen : len ≤ b.slice.len)
    : Buffer.bytes { b with slice := { b.slice with len } } = b.bytes.take len := by
  unfold bytes Memory.content
  rw [List.take_take, Nat.min_eq_left hlen]

end Buffer
