import GoYcsb.Generator.Lemmas.Concurrent
import Mathlib.Order.Interval.Finset.Defs
import Mathlib.Data.Int.Interval

/-!
This module contains the position up to which the window is consumed: the scan index of the
goroutine that holds the lock, or the number after the limit while the two agree. However many values
are outstanding, every turn of a scan uses up a slot that some `Acknowledge` has set, which keeps
the limit below the counter and lets it only ever move up.
-/

open RingBuffer

def PC.CursorAt (pc : PC) (limit idx : Int) : Prop :=
  match pc with
  | .loadLimit _ => idx = limit + 1
  | .scan _ before index => index = idx ∧ before < idx
  | .storeLimit _ index => index = idx
  | .unlock _ => idx = limit + 1
  | .idle | .testSlot _ | .setSlot _ | .tryLock _ | .panicked _ => True

theorem PC.cursorAt_of_not_inScan {pc : PC} (h : ¬ pc.InScan) (limit idx : Int)
    : pc.CursorAt limit idx := by
  cases pc with
  | loadLimit _ | scan _ _ _ | storeLimit _ _ | unlock _ => simp [PC.InScan] at h
  | idle | testSlot _ | setSlot _ | tryLock _ | panicked _ => trivial

namespace Goroutines

variable {G : Type u} [DecidableEq G]

structure Cursor (s : Goroutines G) (idx : Int) : Prop where
  lt_idx : s.a.limit < idx
  cursor : ∀ g, (s.pc g).CursorAt s.a.limit idx
  rest : (∀ g, ¬ (s.pc g).InScan) → idx = s.a.limit + 1

namespace Cursor

variable {idx : Int} {s t : Goroutines G} {g : G}

omit [DecidableEq G] in
theorem new {start : Int} (hlimit : (Goroutines.new start : Goroutines G).a.limit = start - 1)
    : Cursor (Goroutines.new start : Goroutines G) start where
  lt_idx := by omega
  cursor := by intro g; trivial
  rest := by intro _; omega

theorem cursor_update {pc : PC} (h : Cursor s idx) (ht : t.pc = Function.update s.pc g pc)
    (hlimit : t.a.limit = s.a.limit) (hpc' : ¬ pc.InScan) (g' : G)
    : (t.pc g').CursorAt t.a.limit idx := by
  rw [ht, hlimit]
  by_cases heq : g' = g
  . subst heq
    rw [Function.update_self]
    apply PC.cursorAt_of_not_inScan hpc'
  . rw [Function.update_of_ne heq]
    apply h.cursor

theorem outside {pc : PC} (h : Cursor s idx) (ht : t.pc = Function.update s.pc g pc)
    (hlimit : t.a.limit = s.a.limit) (hpc : ¬ (s.pc g).InScan) (hpc' : ¬ pc.InScan)
    : Cursor t idx where
  lt_idx := by
    rw [hlimit]
    apply h.lt_idx
  cursor := h.cursor_update ht hlimit hpc'
  rest := by
    intro hnone
    rw [hlimit]
    apply h.rest
    intro g'
    by_cases heq : g' = g
    . subst heq
      assumption
    . have := hnone g'
      rw [ht, Function.update_of_ne heq] at this
      assumption

theorem inside {pc : PC} {idx' : Int} (ht : t.pc = Function.update s.pc g pc)
    (hothers : ∀ g', g' ≠ g → ¬ (s.pc g').InScan) (hpc : pc.InScan)
    (hlt : t.a.limit < idx') (hcursor : pc.CursorAt t.a.limit idx')
    : Cursor t idx' where
  lt_idx := hlt
  cursor := by
    intro g'
    rw [ht]
    by_cases heq : g' = g
    . subst heq
      rw [Function.update_self]
      assumption
    . rw [Function.update_of_ne heq]
      apply PC.cursorAt_of_not_inScan
      apply hothers
      assumption
  rest := by
    intro hnone
    have := hnone g
    rw [ht, Function.update_self] at this
    contradiction

theorem leave {pc : PC} (h : Cursor s idx) (ht : t.pc = Function.update s.pc g pc)
    (hlimit : t.a.limit = s.a.limit) (hpc' : ¬ pc.InScan) (hidx : idx = s.a.limit + 1)
    : Cursor t idx where
  lt_idx := by omega
  cursor := h.cursor_update ht hlimit hpc'
  rest := by
    intro _
    omega

end Cursor

def nextIdx (s : Goroutines G) (label : Label G) (idx : Int) : Int :=
  match label with
  | .next _ => idx
  | .acknowledge _ _ => idx
  | .step g =>
    match s.pc g with
    | .scan _ before index =>
      if index ≠ before ∧ s.a.window (slotOf index) = true then idx + 1 else idx
    | _ => idx

omit [DecidableEq G] in
theorem nextIdx_scanStop {s : Goroutines G} {g : G} {value before index idx : Int}
    (hpc : s.pc g = .scan value before index)
    (hstop : index = before ∨ s.a.window (slotOf index) = false)
    : s.nextIdx (.step g) idx = idx := by
  simp only [nextIdx, hpc]
  rw [if_neg]
  cases hstop with
  | inl heq => simp [heq]
  | inr hfree => simp [hfree]

namespace Cursor

variable {idx : Int} {s t : Goroutines G} {label : Label G}

omit [DecidableEq G] in
theorem others {g : G} (hmutex : Mutex s) (hpc : (s.pc g).InScan)
    : ∀ g', g' ≠ g → ¬ (s.pc g').InScan := by
  intro g' hne hin
  apply hne
  apply hmutex.unique <;> assumption

section

variable {g : G} {value before index : Int}

theorem holder {pc : PC} {idx' : Int} (hmutex : Mutex s) (hpc : (s.pc g).InScan)
    (ht : t.pc = Function.update s.pc g pc) (hpc' : pc.InScan) (hlt : t.a.limit < idx')
    (hcursor : pc.CursorAt t.a.limit idx')
    : Cursor t idx' := by
  apply inside ht _ hpc' hlt hcursor
  apply others hmutex hpc

theorem loadLimit (h : Cursor s idx) (hmutex : Mutex s) (hlimit : 0 ≤ s.a.limit) (hidx : idx < 2 ^ 63)
    (hpc : s.pc g = .loadLimit value)
    : Cursor (s.goto g (.scan value (I64.land s.a.limit windowMask) (I64.add s.a.limit 1))) idx := by
  have hcursor := h.cursor g
  simp only [hpc, PC.CursorAt] at hcursor
  have hadd : I64.add s.a.limit 1 = s.a.limit + 1 := by
    apply I64.add_eq
    constructor <;> omega
  have hbefore : I64.land s.a.limit windowMask ≤ s.a.limit :=
    AcknowledgedCounter.land_windowMask_le hlimit
  refine holder hmutex ?_ rfl ?_ ?_ ?_
  . simp [hpc, PC.InScan]
  . simp [PC.InScan]
  . apply h.lt_idx
  . simp only [PC.CursorAt, hadd]
    omega

theorem scanClear (h : Cursor s idx) (hmutex : Mutex s) (hlimit : 0 ≤ s.a.limit)
    (hidx : idx + 1 < 2 ^ 63) (hpc : s.pc g = .scan value before index)
    {window : Fin windowSize → Bool}
    : Cursor ({ s with a := { s.a with window } }.goto g (.scan value before (I64.add index 1)))
        (idx + 1) := by
  have hlt := h.lt_idx
  have hcursor := h.cursor g
  simp only [hpc, PC.CursorAt] at hcursor
  have hadd : I64.add index 1 = idx + 1 := by
    rw [hcursor.1]
    apply I64.add_eq
    constructor <;> omega
  refine holder hmutex ?_ rfl ?_ ?_ ?_
  . simp [hpc, PC.InScan]
  . simp [PC.InScan]
  . simp only [goto]
    omega
  . simp only [PC.CursorAt, hadd, true_and]
    omega

theorem scanStop (h : Cursor s idx) (hmutex : Mutex s) (hpc : s.pc g = .scan value before index)
    : Cursor (s.goto g (.storeLimit value index)) idx := by
  have hcursor := h.cursor g
  simp only [hpc, PC.CursorAt] at hcursor
  refine holder hmutex ?_ rfl ?_ ?_ ?_
  . simp [hpc, PC.InScan]
  . simp [PC.InScan]
  . apply h.lt_idx
  . apply hcursor.1

theorem storeLimit (h : Cursor s idx) (hmutex : Mutex s) (hlimit : 0 ≤ s.a.limit) (hidx : idx < 2 ^ 63)
    (hpc : s.pc g = .storeLimit value index)
    : I64.sub index 1 = idx - 1
        ∧
      Cursor ({ s with a := { s.a with limit := I64.sub index 1 } }.goto g (.unlock value)) idx := by
  have hlt := h.lt_idx
  have hcursor := h.cursor g
  simp only [hpc, PC.CursorAt] at hcursor
  have hsub : I64.sub index 1 = idx - 1 := by
    rw [hcursor]
    apply I64.sub_eq
    constructor <;> omega
  refine ⟨hsub, holder hmutex ?_ rfl ?_ ?_ ?_⟩
  . simp [hpc, PC.InScan]
  . simp [PC.InScan]
  . simp only [goto]
    omega
  . simp only [goto, PC.CursorAt]
    omega

end

theorem step (h : Cursor s idx) (hmutex : Mutex s) (hlimit : 0 ≤ s.a.limit) (hidx : idx < 2 ^ 63)
    (hclear : s.a.window (slotOf idx) = true → idx + 1 < 2 ^ 63) (htakes : Takes s label t)
    : Cursor t (s.nextIdx label idx) := by
  cases htakes with
  | next g hpc => exact ⟨h.lt_idx, h.cursor, h.rest⟩
  | acknowledge g value hpc => refine h.outside rfl rfl ?_ ?_ <;> simp [hpc, PC.InScan]
  | testSlotPanic g value hpc _ | testSlot g value hpc _ | setSlot g value hpc
  | tryLockFail g value hpc _ =>
    simp only [nextIdx, hpc]
    refine h.outside rfl rfl ?_ ?_ <;> simp [hpc, PC.InScan]
  | tryLock g value hpc hf =>
    simp only [nextIdx, hpc]
    have hnone := hmutex.free hf
    refine inside rfl ?_ ?_ ?_ ?_
    . intro g' _
      apply hnone
    . simp [PC.InScan]
    . apply h.lt_idx
    . apply h.rest hnone
  | loadLimit g value hpc =>
    simp only [nextIdx, hpc]
    apply h.loadLimit hmutex hlimit hidx hpc
  | scanClear g value before index hpc hguard hset =>
    have hcursor := h.cursor g
    simp only [hpc, PC.CursorAt] at hcursor
    simp only [nextIdx, hpc]
    rw [if_pos ⟨hguard, hset⟩]
    rw [hcursor.1] at hset
    apply h.scanClear hmutex hlimit (hclear hset) hpc
  | scanStop g value before index hpc hstop =>
    rw [nextIdx_scanStop hpc hstop]
    apply h.scanStop hmutex hpc
  | storeLimit g value index hpc =>
    simp only [nextIdx, hpc]
    apply (h.storeLimit hmutex hlimit hidx hpc).2
  | unlock g value hpc =>
    have hcursor := h.cursor g
    simp only [hpc, PC.CursorAt] at hcursor
    simp only [nextIdx, hpc]
    refine h.leave rfl rfl ?_ ?_
    . simp [PC.InScan]
    . assumption

theorem limit_step (h : Cursor s idx) (hmutex : Mutex s) (hlimit : 0 ≤ s.a.limit) (hidx : idx < 2 ^ 63)
    (htakes : Takes s label t)
    : t.a.limit = s.a.limit ∨ t.a.limit = idx - 1 := by
  cases htakes with
  | storeLimit g value index hpc =>
    right
    apply (h.storeLimit hmutex hlimit hidx hpc).1
  | _ =>
    left
    rfl

end Cursor

omit [DecidableEq G] in
theorem Values.length_marked_le {start : Int} {s : Goroutines G} (h : Values start s)
    : (s.marked.length : Int) ≤ s.a.c.counter - start := by
  have hsub : s.marked.toFinset ⊆ Finset.Ico start s.a.c.counter := by
    intro v hv
    rw [Finset.mem_Ico]
    apply h.issued_of_marked
    simpa using hv
  have hcard := Finset.card_le_card hsub
  rw [List.toFinset_card_of_nodup h.nodup, Int.card_Ico] at hcard
  have := h.start_le
  omega

-- Every number the index has passed has used up a slot that was set, and so will the raised slots.
structure Counted (start : Int) (s : Goroutines G) (idx : Int) : Prop where
  cursor : Cursor s idx
  start_le : start - 1 ≤ s.a.limit
  count : idx - start + raised s.a.window ≤ s.marked.length

namespace Counted

variable {start idx : Int} {s t : Goroutines G} {label : Label G}

omit [DecidableEq G] in
theorem new (hstart : 1 ≤ start) (hfits : start < 2 ^ 63)
    : Counted start (Goroutines.new start : Goroutines G) start := by
  have hlimit : (Goroutines.new start : Goroutines G).a.limit = start - 1 := by
    apply I64.sub_eq
    constructor <;> omega
  refine ⟨Cursor.new hlimit, by omega, ?_⟩
  simp [Goroutines.new, AcknowledgedCounter.new, raised]

omit [DecidableEq G] in
theorem frame (h : Counted start s idx) (hcursor : Cursor t idx)
    (hlimit : s.a.limit ≤ t.a.limit) (hwindow : t.a.window = s.a.window)
    (hmarked : t.marked = s.marked)
    : Counted start t idx where
  cursor := hcursor
  start_le := by
    have := h.start_le
    omega
  count := by
    rw [hwindow, hmarked]
    apply h.count

theorem step (hstart : 1 ≤ start) (h : Counted start s idx) (hvalues : Values start s)
    (hmutex : Mutex s) (htakes : Takes s label t)
    : Counted start t (s.nextIdx label idx) ∧ s.a.limit ≤ t.a.limit := by
  have hlimit := h.start_le
  have hlt := h.cursor.lt_idx
  have hcount := h.count
  have hlength := hvalues.length_marked_le
  have hfits := hvalues.fits
  have hclear : s.a.window (slotOf idx) = true → idx + 1 < 2 ^ 63 := by
    intro hset
    have := raised_clear hset
    omega
  have hcursor := h.cursor.step hmutex (by omega) (by omega) hclear htakes
  have hlimit' := h.cursor.limit_step hmutex (by omega) (by omega) htakes
  have hle : s.a.limit ≤ t.a.limit := by omega
  refine ⟨?_, hle⟩
  cases htakes with
  | next g hpc => apply h.frame hcursor hle rfl rfl
  | acknowledge g value hpc => apply h.frame hcursor hle rfl rfl
  | testSlotPanic g value hpc hset =>
    simp only [nextIdx, hpc] at hcursor ⊢
    apply h.frame hcursor hle rfl rfl
  | testSlot g value hpc hset =>
    simp only [nextIdx, hpc] at hcursor ⊢
    apply h.frame hcursor hle rfl rfl
  | setSlot g value hpc =>
    simp only [nextIdx, hpc] at hcursor ⊢
    refine ⟨hcursor, h.start_le, ?_⟩
    have := raised_set_le s.a.window (slotOf value)
    simp only [goto, List.length_cons]
    omega
  | tryLockFail g value hpc hf =>
    simp only [nextIdx, hpc] at hcursor ⊢
    apply h.frame hcursor hle rfl rfl
  | tryLock g value hpc hf =>
    simp only [nextIdx, hpc] at hcursor ⊢
    apply h.frame hcursor hle rfl rfl
  | loadLimit g value hpc =>
    simp only [nextIdx, hpc] at hcursor ⊢
    apply h.frame hcursor hle rfl rfl
  | scanClear g value before index hpc hguard hset =>
    have hindex := h.cursor.cursor g
    simp only [hpc, PC.CursorAt] at hindex
    rw [hindex.1] at hset hguard
    simp only [nextIdx, hpc, hindex.1] at hcursor ⊢
    rw [if_pos ⟨hguard, hset⟩] at hcursor ⊢
    refine ⟨hcursor, h.start_le, ?_⟩
    have := raised_clear hset
    simp only [goto]
    omega
  | scanStop g value before index hpc hstop =>
    rw [nextIdx_scanStop hpc hstop] at hcursor ⊢
    apply h.frame hcursor hle rfl rfl
  | storeLimit g value index hpc =>
    simp only [nextIdx, hpc] at hcursor ⊢
    apply h.frame hcursor hle rfl rfl
  | unlock g value hpc =>
    simp only [nextIdx, hpc] at hcursor ⊢
    apply h.frame hcursor hle rfl rfl

end Counted

theorem start_le_last {start : Int} {labels : List (Label G)} {s : Goroutines G}
    (hstart : 1 ≤ start) (hrange : start < 2 ^ 63)
    (hrun : Run step (fun s label => s.AcksOnce label ∧ s.CounterFits label) (new start) labels
      s)
    : start - 1 ≤ s.a.last ∧ s.a.last + 1 < 2 ^ 63 := by
  have hinv : Values start s ∧ Mutex s ∧ ∃ idx, Counted start s idx := by
    apply hrun.invariant (I := fun s => Values start s ∧ Mutex s ∧ ∃ idx, Counted start s idx)
    . exact ⟨Values.new hrange, Mutex.new start, start, Counted.new hstart hrange⟩
    . intro s label t h hallowed hstep
      rcases h with ⟨hvalues, hmutex, idx, hcounted⟩
      have htakes := takes_of_step hstep
      exact ⟨hvalues.step hstart hallowed.1 hallowed.2 htakes, hmutex.step htakes, _,
        (hcounted.step hstart hvalues hmutex htakes).1⟩
  rcases hinv with ⟨hvalues, hmutex, idx, hcounted⟩
  have hlt := hcounted.cursor.lt_idx
  have hcount := hcounted.count
  have hlength := hvalues.length_marked_le
  have hfits := hvalues.fits
  refine ⟨hcounted.start_le, ?_⟩
  unfold AcknowledgedCounter.last
  omega

end Goroutines
