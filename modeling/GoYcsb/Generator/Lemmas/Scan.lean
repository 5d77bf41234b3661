import GoYcsb.Generator.Lemmas.Cursor

/-!
This module contains the invariant that relates the limit, the scan index of the goroutine that
holds the lock, the slots it has cleared but not published yet and the setters that are still in
flight, for every interleaving in which no value is issued beyond the window.
-/

open RingBuffer

namespace Goroutines

variable {G : Type u} [DecidableEq G]

structure Scans (start : Int) (s : Goroutines G) (idx : Int) : Prop where
  cursor : Cursor s idx
  start_le : start - 1 ≤ s.a.limit
  issued_le : s.a.c.counter ≤ s.a.limit + windowSize + 1
  tracks : Tracks s.a.window s.a.limit idx (· ∈ s.marked)
  covered : ∀ v, start ≤ v → v < idx → v ∈ s.marked
  calm : ∀ g v, s.pc g ≠ .panicked v

namespace Scans

section

variable {start idx : Int} {s t : Goroutines G} {g : G} {value : Int}

omit [DecidableEq G]

theorem new (hstart : 1 ≤ start) (hfits : start < 2 ^ 63)
    : Scans start (Goroutines.new start : Goroutines G) start := by
  have hlimit : (Goroutines.new start : Goroutines G).a.limit = start - 1 := by
    apply I64.sub_eq
    constructor <;> omega
  have hcounter : (Goroutines.new start : Goroutines G).a.c.counter = start := rfl
  refine
    {
      cursor := Cursor.new hlimit
      start_le := by omega
      issued_le := by omega
      tracks := ?_
      covered := by intros; omega
      calm := by intros; simp [Goroutines.new]
    }
  refine ⟨by omega, by omega, by intros; omega, ?_⟩
  simp [Goroutines.new, AcknowledgedCounter.new]

theorem idx_le_counter (h : Scans start s idx) (hvalues : Values start s)
    : idx ≤ s.a.c.counter := by
  have hle := hvalues.start_le
  by_cases hidx : idx ≤ start
  . omega
  . have hmarked := h.covered (idx - 1) (by omega) (by omega)
    have := hvalues.issued_of_marked hmarked
    omega

theorem pending_bounds (h : Scans start s idx) (hvalues : Values start s)
    (hpending : (s.pc g).Pending value)
    : idx ≤ value ∧ value ≤ s.a.limit + windowSize := by
  rcases hvalues.pending g value hpending with ⟨hcalled, hmarked⟩
  have hissued := (hvalues.issued value).mp (hvalues.called value hcalled)
  have hle := h.issued_le
  constructor
  . by_contra hlt
    apply hmarked
    apply h.covered <;> omega
  . omega

theorem marked_le (h : Scans start s idx) (hvalues : Values start s)
    : ∀ v, v ∈ s.marked → v ≤ s.a.limit + windowSize := by
  intro v hv
  have hissued := hvalues.issued_of_marked hv
  have hle := h.issued_le
  omega

theorem slot_free (h : Scans start s idx) (hvalues : Values start s)
    (hpending : (s.pc g).Pending value)
    : s.a.window (slotOf value) = false := by
  rcases h.pending_bounds hvalues hpending with ⟨hge, hle⟩
  rw [slotOf_eq_slot]
  apply h.tracks.flag_eq_false hge hle
  apply (hvalues.pending g value hpending).2

-- The number behind a window that is consumed as a whole has not been issued yet.
theorem marked_of_set (h : Scans start s idx) (hset : s.a.window (slotOf idx) = true)
    : idx ≤ s.a.limit + windowSize ∧ idx ∈ s.marked := by
  rw [slotOf_eq_slot] at hset
  have hin : idx ≤ s.a.limit + windowSize := by
    by_contra hout
    have hend : idx = s.a.limit + windowSize + 1 := by
      have := h.tracks.idx_le
      omega
    have htracks := h.tracks
    rw [hend] at htracks hset
    rw [htracks.flag_end_eq_false] at hset
    contradiction
  constructor
  . assumption
  . apply (h.tracks.iff idx (by omega) hin).mp hset

theorem not_marked_of_free (h : Scans start s idx) (hvalues : Values start s)
    (hfree : s.a.window (slotOf idx) = false)
    : idx ∉ s.marked := by
  intro hmarked
  have hset := (h.tracks.iff idx (by omega) (h.marked_le hvalues _ hmarked)).mpr hmarked
  rw [← slotOf_eq_slot, hfree] at hset
  contradiction

theorem frame (h : Scans start s idx) (hcursor : Cursor t idx) (hc : t.a.c = s.a.c)
    (hlimit : t.a.limit = s.a.limit) (hwindow : t.a.window = s.a.window)
    (hmarked : t.marked = s.marked) (hcalm : ∀ g v, t.pc g ≠ .panicked v)
    : Scans start t idx where
  cursor := hcursor
  start_le := by rw [hlimit]; apply h.start_le
  issued_le := by rw [hc, hlimit]; apply h.issued_le
  tracks := by rw [hwindow, hlimit, hmarked]; apply h.tracks
  covered := by rw [hmarked]; apply h.covered
  calm := hcalm

end

variable {start idx : Int} {s t : Goroutines G} {label : Label G}

theorem calm_goto {g : G} {pc : PC} (h : Scans start s idx) (hpc : ∀ v, pc ≠ .panicked v)
    : ∀ g' v, Function.update s.pc g pc g' ≠ .panicked v := by
  intro g' v
  by_cases heq : g' = g
  . subst heq
    rw [Function.update_self]
    apply hpc
  . rw [Function.update_of_ne heq]
    apply h.calm

omit [DecidableEq G] in
theorem next (h : Scans start s idx) (hstart : 1 ≤ start) (hvalues : Values start s) {g : G}
    {issued : List Int} (hwindow : s.InWindow (.next g)) (hfits : s.CounterFits (.next g))
    (hcursor : Cursor { s with a := s.a.next.2, issued } idx)
    : Scans start { s with a := s.a.next.2, issued } idx := by
  have hle := hvalues.start_le
  have hnext : s.a.c.next = (s.a.c.counter, ⟨s.a.c.counter + 1⟩) :=
    Counter.next_eq hfits (by omega)
  simp only [InWindow, AcknowledgedCounter.next, hnext, AcknowledgedCounter.last] at hwindow
  simp only [AcknowledgedCounter.next, hnext] at hcursor ⊢
  refine ⟨hcursor, h.start_le, ?_, h.tracks, h.covered, h.calm⟩
  simp only
  omega

section

variable {g : G} {value before index : Int}

theorem setSlot (h : Scans start s idx) (hvalues : Values start s) (hpc : s.pc g = .setSlot value)
    (ht : t = { s with
                a := { s.a with window := Function.update s.a.window (slotOf value) true },
                marked := value :: s.marked }.goto g (.tryLock value))
    (hcursor : Cursor t idx)
    : Scans start t idx := by
  subst ht
  rcases h.pending_bounds hvalues (.inr hpc) with ⟨hge, hle⟩
  refine ⟨hcursor, h.start_le, h.issued_le, ?_, ?_, ?_⟩
  . simp only [goto, List.mem_cons, slotOf_eq_slot]
    apply h.tracks.set hge hle
  . intro v hv1 hv2
    apply List.mem_cons_of_mem
    apply h.covered v hv1 hv2
  . apply h.calm_goto
    simp

theorem scanClear (h : Scans start s idx) (hset : s.a.window (slotOf idx) = true)
    (ht : t = { s with
                a := { s.a with window := Function.update s.a.window (slotOf idx) false }
              }.goto g (.scan value before (I64.add idx 1)))
    (hcursor : Cursor t (idx + 1))
    : Scans start t (idx + 1) := by
  subst ht
  rcases h.marked_of_set hset with ⟨hin, hmarked⟩
  refine ⟨hcursor, h.start_le, h.issued_le, ?_, ?_, ?_⟩
  . simp only [goto, slotOf_eq_slot]
    apply h.tracks.clear hin
  . intro v hv1 hv2
    by_cases heq : v = idx
    . rw [heq]
      assumption
    . apply h.covered v hv1
      omega
  . apply h.calm_goto
    simp

theorem storeLimit (h : Scans start s idx) (hvalues : Values start s)
    (ht : t = { s with a := { s.a with limit := I64.sub index 1 } }.goto g (.unlock value))
    (hcursor : Cursor t idx)
    : Scans start t idx := by
  subst ht
  have hindex := hcursor.cursor g
  simp only [goto, Function.update_self, PC.CursorAt] at hindex
  have heq : I64.sub index 1 = idx - 1 := by omega
  have hlt := h.cursor.lt_idx
  have hstart := h.start_le
  have hissued := h.issued_le
  refine ⟨hcursor, ?_, ?_, ?_, h.covered, ?_⟩
  . simp only [goto]
    omega
  . simp only [goto]
    omega
  . simp only [goto]
    rw [heq]
    apply h.tracks.advance (h.marked_le hvalues)
  . apply h.calm_goto
    simp

end

theorem step (hstart : 1 ≤ start) (h : Scans start s idx) (hvalues : Values start s)
    (hmutex : Mutex s) (hwindow : s.InWindow label) (hfits : s.CounterFits label)
    (htakes : Takes s label t)
    : Scans start t (s.nextIdx label idx) ∧ s.a.limit ≤ t.a.limit := by
  have hlimit := h.start_le
  have hlt := h.cursor.lt_idx
  have hcounter := hvalues.fits
  have hidx := h.idx_le_counter hvalues
  have hclear : s.a.window (slotOf idx) = true → idx + 1 < 2 ^ 63 := by
    intro hset
    have := hvalues.issued_of_marked (h.marked_of_set hset).2
    omega
  have hcursor := h.cursor.step hmutex (by omega) (by omega) hclear htakes
  have hlimit' := h.cursor.limit_step hmutex (by omega) (by omega) htakes
  refine ⟨?_, by omega⟩
  cases htakes with
  | next g hpc => apply h.next hstart hvalues hwindow hfits hcursor
  | acknowledge g value hpc =>
    apply h.frame hcursor rfl rfl rfl rfl
    apply h.calm_goto
    simp
  | testSlotPanic g value hpc hset =>
    rw [h.slot_free hvalues (.inl hpc)] at hset
    contradiction
  | testSlot g value hpc _ | tryLockFail g value hpc _ | tryLock g value hpc _
  | loadLimit g value hpc | unlock g value hpc =>
    simp only [nextIdx, hpc] at hcursor ⊢
    apply h.frame hcursor rfl rfl rfl rfl
    apply h.calm_goto
    simp
  | setSlot g value hpc =>
    simp only [nextIdx, hpc] at hcursor ⊢
    apply h.setSlot hvalues hpc rfl hcursor
  | scanClear g value before index hpc hguard hset =>
    have hindex := h.cursor.cursor g
    simp only [hpc, PC.CursorAt] at hindex
    rw [hindex.1] at hset hguard
    simp only [nextIdx, hpc, hindex.1] at hcursor ⊢
    rw [if_pos ⟨hguard, hset⟩] at hcursor ⊢
    apply h.scanClear hset rfl hcursor
  | scanStop g value before index hpc hstop =>
    rw [nextIdx_scanStop hpc hstop] at hcursor ⊢
    apply h.frame hcursor rfl rfl rfl rfl
    apply h.calm_goto
    simp
  | storeLimit g value index hpc =>
    simp only [nextIdx, hpc] at hcursor ⊢
    apply h.storeLimit hvalues rfl hcursor

end Scans

structure Inv (start : Int) (s : Goroutines G) : Prop where
  values : Values start s
  mutex : Mutex s
  scans : ∃ idx, Scans start s idx

namespace Inv

variable {start : Int} {s t : Goroutines G} {label : Label G}

omit [DecidableEq G] in
theorem new (hstart : 1 ≤ start) (hfits : start < 2 ^ 63)
    : Inv start (Goroutines.new start : Goroutines G) where
  values := Values.new hfits
  mutex := Mutex.new start
  scans := ⟨start, Scans.new hstart hfits⟩

theorem step (hstart : 1 ≤ start) (h : Inv start s) (honce : s.AcksOnce label)
    (hwindow : s.InWindow label) (hfits : s.CounterFits label) (htakes : Takes s label t)
    : Inv start t where
  values := h.values.step hstart honce hfits htakes
  mutex := h.mutex.step htakes
  scans := by
    rcases h.scans with ⟨idx, hscans⟩
    exact ⟨_, (hscans.step hstart h.values h.mutex hwindow hfits htakes).1⟩

theorem of_run {labels : List (Label G)} (hstart : 1 ≤ start) (hrange : start < 2 ^ 63)
    (hrun : Run Goroutines.step
      (fun s label => s.AcksOnce label ∧ s.InWindow label ∧ s.CounterFits label)
      (Goroutines.new start) labels s)
    : Inv start s := by
  apply hrun.invariant (new hstart hrange)
  intro s label t h hallowed hstep
  exact h.step hstart hallowed.1 hallowed.2.1 hallowed.2.2 (takes_of_step hstep)

end Inv

theorem interleaving_safe {start : Int} {labels : List (Label G)} {s : Goroutines G}
    (hstart : 1 ≤ start) (hrange : start < 2 ^ 63)
    (hrun : Run step (fun s label => s.AcksOnce label ∧ s.InWindow label ∧ s.CounterFits label)
      (new start) labels s)
    : (∀ label t, s.AcksOnce label → s.InWindow label → s.CounterFits label →
        s.step label = some t → s.a.last ≤ t.a.last)
        ∧
      (∀ v, start ≤ v → v ≤ s.a.last → v ∈ s.marked)
        ∧
      (∀ g v, s.pc g ≠ .panicked v)
        ∧
      (∀ g g', (s.pc g).InScan → (s.pc g').InScan → g = g') := by
  have hinv := Inv.of_run hstart hrange hrun
  rcases hinv.scans with ⟨idx, hscans⟩
  refine ⟨?_, ?_, hscans.calm, hinv.mutex.unique⟩
  . intro label t honce hwindow hfits hstep
    have htakes := takes_of_step hstep
    apply (hscans.step hstart hinv.values hinv.mutex hwindow hfits htakes).2
  . intro v hv1 hv2
    have hlt := hscans.cursor.lt_idx
    unfold AcknowledgedCounter.last at hv2
    exact hscans.covered v hv1 (by omega)

theorem interleaving_safe_two_goroutines
    : ∃ s : Goroutines Bool,
        Run step (fun s label => s.AcksOnce label ∧ s.InWindow label ∧ s.CounterFits label)
          (new 1)
          [.next true, .next false, .acknowledge true 1, .acknowledge false 2, .step false,
            .step false, .step true, .step false, .step true, .step false, .step true, .step false]
          s
          ∧
        (s.pc false).InScan
          ∧
        ∀ g g', (s.pc g).InScan → (s.pc g').InScan → g = g' := by
  have hexec : (Run.exec step
      (fun s label => s.AcksOnce label ∧ s.InWindow label ∧ s.CounterFits label)
      (new 1)
      [.next true, .next false, .acknowledge true 1, .acknowledge false 2, .step false,
        .step false, .step true, .step false, .step true, .step false, .step true, .step false]).any
      (fun s => (s.pc false).InScan) := by
    decide +kernel
  rcases Run.exists_of_exec _ hexec with ⟨s, hrun, hscan⟩
  have h := interleaving_safe (by decide) (by decide) hrun
  exact ⟨s, hrun, by simpa using hscan, h.2.2.2⟩

-- When the counter runs over `2 ^ 63 - 1`, the next value it issues is negative and `Last` follows.
theorem last_decreases_on_overflow
    : ¬ ∀ (start : Int) (labels : List (Label Unit)) (s : Goroutines Unit),
        1 ≤ start → start < 2 ^ 63 →
        Run step (fun s label => s.AcksOnce label ∧ s.InWindow label) (new start) labels s →
        ∀ label t, s.AcksOnce label → s.InWindow label → s.step label = some t →
          s.a.last ≤ t.a.last := by
  intro hmonotone
  have hexec : (Run.exec step (fun s label => s.AcksOnce label ∧ s.InWindow label)
      (new (2 ^ 63 - 1))
      ([Label.next (), Label.acknowledge () (2 ^ 63 - 1)] ++ List.replicate 8 (Label.step ()) ++
        [Label.next (), Label.acknowledge () (-2 ^ 63)] ++ List.replicate 6 (Label.step ()))).any
      (fun s => s.a.last = 2 ^ 63 - 1 ∧ (s.step (.step ())).any (fun t => t.a.last = -2 ^ 63)) := by
    decide +kernel
  rcases Run.exists_of_exec _ hexec with ⟨s, hrun, hs⟩
  simp only [Option.any_eq_true, decide_eq_true_eq] at hs
  rcases hs with ⟨hlast, t, hstep, ht⟩
  have := hmonotone _ _ s (by decide) (by decide) hrun (.step ()) t trivial trivial hstep
  omega

end Goroutines
