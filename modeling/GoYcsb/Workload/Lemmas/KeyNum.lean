import GoYcsb.Generator.Lemmas.Cursor
import GoYcsb.Generator.Lemmas.Generator
import GoYcsb.Workload.Impl.KeyNum
import GoYcsb.Workload.Lemmas.Create

/-!
This module contains the verification of the choosing of key numbers from
`GoYcsb.Workload.Impl.KeyNum`: when a transaction only addresses records that were loaded or
acknowledged as inserted.
-/

def Generator.Serves (lo hi : Int) (g : Generator) : Prop :=
  match g with
  | .uniform u => u = .new lo hi
  | .sequential s => s.start = lo ∧ s.interval = (Sequential.new lo hi).interval
  | .scrambledZipfian s => ∃ max, s = .new lo max
  | .skewedLatest s => s.zipfian.base = 0
  | .hotspot h => ∃ P hotset hotOpn, h = .new P lo hi hotset hotOpn
  | .exponential _ => True
  | .constant _ | .zipfian _ | .histogram _ => False

theorem createKeyChooser_serves {P : Platform} {p : Properties} {a : AcknowledgedCounter}
    {g : Generator} (h : createKeyChooser P p a = .ret g)
    : g.Serves p.getInsertStart (I64.sub (I64.add p.getInsertStart p.getInsertCount) 1) := by
  unfold createKeyChooser at h
  dsimp only at h
  split at h
  . cases h
    rfl
  . cases h
    exact ⟨rfl, rfl⟩
  . cases h
    exact ⟨_, rfl⟩
  . cases h
    rfl
  . cases h
    exact ⟨_, _, _, rfl⟩
  . cases h
    trivial
  . simp at h

theorem exponential_contained {P : Platform} {p : Properties} {a : AcknowledgedCounter} {g : Generator}
    {percentile : Rat} (h : createKeyChooser P p a = .ret g)
    (hdistrib : p.requestDistribution = some "exponential") (hcount : 0 ≤ p.getRecordCount)
    (hpercentile : p.exponentialPercentile.getD (.fin 95) = .fin percentile) (h0 : 0 ≤ percentile)
    (h100 : percentile ≤ 100)
    (hfrac : (p.exponentialFrac.getD (.ofRat P (8571428571 / 10000000000))).NonNeg) (last : Int)
    : g.Contained last := by
  unfold createKeyChooser at h
  simp only [hdistrib, Option.getD_some, hpercentile, Outcome.ret.injEq] at h
  subst h
  apply Generator.Exponential.new_nonNeg h0 h100
  apply F64.NonNeg.mul _ hfrac
  apply F64.nonNeg_ofInt hcount

section NextKeyNum

variable {P : Platform} {lo hi last k : Int} {g g' : Generator} {draws : List Draw}

theorem nextKeyNum_cases (h : nextKeyNum P last g draws = .ret (k, g'))
    : (∃ e, g = .exponential e ∧ g' = g ∧ exponentialKeyNum P last e draws = .ret k)
        ∨
      ((∀ e, g ≠ .exponential e) ∧ ∃ d ∈ draws, g.next P last d = .ret (k, g')) := by
  unfold nextKeyNum at h
  split at h
  . next e =>
    left
    rcases Outcome.bind_eq_ret h with ⟨n, hloop, hn⟩
    cases hn
    exact ⟨e, rfl, rfl, hloop⟩
  all_goals
    right
    cases draws with
    | nil => simp at h
    | cons d draws => exact ⟨by simp, d, by simp, h⟩

theorem Generator.next_serves {d : Draw} (hg : g.Serves lo hi) (h : g.next P last d = .ret (k, g'))
    : g'.Serves lo hi := by
  cases g with
  | sequential s =>
    rcases Outcome.bind_eq_ret h with ⟨⟨n, t⟩, ht, hn⟩
    have hframe := Sequential.next_frame ht
    cases hn
    exact ⟨hframe.1.trans hg.1, hframe.2.trans hg.2⟩
  | constant c => contradiction
  | zipfian z => contradiction
  | histogram h => contradiction
  | uniform u | scrambledZipfian s | hotspot s =>
    rcases Outcome.bind_eq_ret h with ⟨n, _, hn⟩
    cases hn
    assumption
  | skewedLatest s | exponential e =>
    cases h
    assumption

theorem nextKeyNum_serves (hg : g.Serves lo hi) (h : nextKeyNum P last g draws = .ret (k, g'))
    : g'.Serves lo hi := by
  rcases nextKeyNum_cases h with ⟨e, he, heq, _⟩ | ⟨_, d, _, hnext⟩
  . rwa [heq]
  . apply Generator.next_serves hg hnext

theorem exponentialKeyNum_mem {e : Generator.Exponential} (hgamma : e.gamma.NonNeg)
    (h0 : 0 ≤ last) (hlast : last < 2 ^ 63) (h : exponentialKeyNum P last e draws = .ret k)
    : 0 ≤ k ∧ k ≤ last := by
  induction draws with
  | nil => simp [exponentialKeyNum] at h
  | cons d draws ih =>
    unfold exponentialKeyNum at h
    dsimp only at h
    split at h
    . apply ih h
    . next hnonneg =>
      simp only [Outcome.ret.injEq] at h
      have hcases := Generator.Exponential.next_cases (P := P) (d := d) hgamma
      generalize e.next P d = v at *
      cases hcases with
      | inl hmin =>
        -- the difference wraps around to a negative number, which the loop turns down
        simp only [hmin, I64.sub, I64.wrap, Int.bmod_def] at hnonneg
        omega
      | inr hv =>
        rw [I64.sub_eq (by constructor <;> omega)] at h hnonneg
        omega

theorem nextKeyNum_mem (hlo : 0 ≤ lo) (hle : lo ≤ hi) (hhi : hi ≤ last) (hlast : last + 1 < 2 ^ 63)
    (hg : g.Serves lo hi) (hin : g.Contained last)
    (hdraws : ∀ d ∈ draws, g.DrawInRange last d) (h : nextKeyNum P last g draws = .ret (k, g'))
    : 0 ≤ k ∧ k ≤ last := by
  rcases nextKeyNum_cases h with ⟨e, he, _, hloop⟩ | ⟨hnot, d, hd, hnext⟩
  . subst he
    apply exponentialKeyNum_mem hin (by omega) (by omega) hloop
  . have hrange := hdraws d hd
    cases g with
    | constant c => contradiction
    | zipfian z => contradiction
    | histogram h => contradiction
    | exponential e => exact absurd rfl (hnot e)
    | uniform u =>
      rcases Outcome.bind_eq_ret hnext with ⟨n, hn, hk⟩
      cases hk
      subst hg
      have hmem := Generator.Uniform.next_mem hlo hle (by omega) hn
      omega
    | sequential s =>
      rcases Outcome.bind_eq_ret hnext with ⟨⟨n, t⟩, hn, hk⟩
      cases hk
      have hmem := Generator.Sequential.next_mem hlo hle (by omega) hg.1 hg.2 hin.1 hin.2 hn
      omega
    | scrambledZipfian s =>
      rcases Outcome.bind_eq_ret hnext with ⟨n, hn, hk⟩
      cases hk
      rcases hg with ⟨max, rfl⟩
      have hmin : lo ≤ max := hin.1
      have hmax : max ≤ last := hin.2
      have hlo : I64.InRange lo := by constructor <;> omega
      have hmax' : I64.InRange max := by constructor <;> omega
      have hsize : I64.InRange (max - lo + 1) := by constructor <;> omega
      rcases Generator.ScrambledZipfian.next_mem hlo hmax' hmin hsize d with ⟨n', hn', hmem⟩
      rw [hn'] at hn
      cases hn
      omega
    | skewedLatest s =>
      cases hnext
      apply Generator.SkewedLatest.next_mem (by omega) hg hrange
    | hotspot s =>
      rcases Outcome.bind_eq_ret hnext with ⟨n, hn, hk⟩
      cases hk
      rcases hg with ⟨Q, hotset, hotOpn, rfl⟩
      have hnew : ¬ lo > hi := by omega
      simp only [Generator.Contained, Generator.Hotspot.new, hnew, if_false] at hin
      have hmem := Generator.Hotspot.next_mem hlo hle (by omega) hin hn
      omega

end NextKeyNum

namespace Choosing

variable {G : Type u} [DecidableEq G] {P : Platform}

theorem run_sequence {c : Core} {labels : List (Label G)} {s : Choosing G}
    (hrun : Run (step P) Allowed (new c) labels s)
    : ∃ actions, Run Goroutines.step (fun s action => s.AcksOnce action ∧ s.CounterFits action)
        (new c : Choosing G).sequence actions s.sequence := by
  apply hrun.invariant
    (I := fun s => ∃ actions, Run Goroutines.step _ (new c : Choosing G).sequence actions s.sequence)
  . exact ⟨[], .nil⟩
  . intro s label t h hallowed hstep
    rcases h with ⟨actions, h⟩
    cases label with
    | sequence action =>
      simp only [step, Option.map_eq_some_iff] at hstep
      rcases hstep with ⟨sequence, htake, rfl⟩
      exact ⟨_, .snoc h hallowed htake⟩
    | nextKeyNum draws =>
      simp only [step, Option.map_eq_some_iff] at hstep
      rcases hstep with ⟨res, _, rfl⟩
      exact ⟨actions, h⟩

theorem run_serves {c : Core} {lo hi : Int} {labels : List (Label G)} {s : Choosing G}
    (hserves : c.keyChooser.Serves lo hi) (hrun : Run (step P) Allowed (new c) labels s)
    : s.keyChooser.Serves lo hi := by
  apply hrun.invariant (I := fun s => s.keyChooser.Serves lo hi) hserves
  intro s label t h _ hstep
  cases label with
  | sequence action =>
    simp only [step, Option.map_eq_some_iff] at hstep
    rcases hstep with ⟨sequence, _, rfl⟩
    assumption
  | nextKeyNum draws =>
    simp only [step, Option.map_eq_some_iff, Outcome.toOption_eq_some] at hstep
    rcases hstep with ⟨⟨k, g'⟩, hnext, rfl⟩
    apply nextKeyNum_serves h hnext

theorem keyNum_loaded_or_acknowledged {readHistogram : String → Outcome Generator.Histogram}
    {p : Properties} {c : Core} (hcreate : create P readHistogram p = .ret c)
    (hstart : 0 ≤ p.getInsertStart) (hcount : 1 ≤ p.getInsertCount)
    (hsum : p.getInsertStart + p.getInsertCount ≤ p.getRecordCount)
    {labels : List (Label G)} {s : Choosing G} (hrun : Run (step P) Allowed (new c) labels s)
    (hin : s.keyChooser.Contained s.last) {draws : List Draw}
    (hdraws : ∀ d ∈ draws, s.keyChooser.DrawInRange s.last d) {k : Int} {g : Generator}
    (hnext : nextKeyNum P s.last s.keyChooser draws = .ret (k, g))
    : 0 ≤ k ∧ k ≤ s.last := by
  have hcreated := created_of_create hcreate
  have hrecords := p.getRecordCount_lt
  have hhi : I64.sub (I64.add p.getInsertStart p.getInsertCount) 1
      = p.getInsertStart + p.getInsertCount - 1 := by
    rw [I64.add_eq (by constructor <;> omega)]
    rw [I64.sub_eq (by constructor <;> omega)]
  have hserves := run_serves (createKeyChooser_serves hcreated.keyChooser) hrun
  rw [hhi] at hserves
  rcases run_sequence hrun with ⟨actions, hactions⟩
  have hnew : (new c : Choosing G).sequence = Goroutines.new p.getRecordCount := by
    unfold new
    rw [hcreated.sequence]
    rfl
  rw [hnew] at hactions
  have hlast := Goroutines.start_le_last (by omega) hrecords hactions
  apply nextKeyNum_mem hstart (by omega) _ hlast.2 hserves hin hdraws hnext
  have hge : p.getRecordCount - 1 ≤ s.last := hlast.1
  omega

def zipfianProperties (recordCount insertCount : I64.Value) : Properties where
  recordCount := some recordCount
  insertCount := some insertCount
  requestDistribution := some "zipfian"

theorem keyNum_loaded_or_acknowledged_five_of_ten
    : ∃ (c : Core) (s : Choosing Unit),
        create .exactAmd64 (fun _ => .running) (zipfianProperties ⟨10, by decide⟩ ⟨5, by decide⟩)
          = .ret c
          ∧
        Run (step .exactAmd64) Allowed (new c)
          (.sequence (.next ()) :: .sequence (.acknowledge () 10)
            :: List.replicate 8 (.sequence (.step ()))) s
          ∧
        s.last = 10
          ∧
        nextKeyNum .exactAmd64 s.last s.keyChooser [⟨0, 0, 0⟩] = .ret (3, s.keyChooser)
          ∧
        0 ≤ (3 : Int) ∧ 3 ≤ s.last := by
  have hcreate : (create .exactAmd64 (fun _ => .running)
      (zipfianProperties ⟨10, by decide⟩ ⟨5, by decide⟩)).toOption.any (fun c =>
        (Run.exec (step .exactAmd64) Allowed (new c : Choosing Unit)
          (.sequence (.next ()) :: .sequence (.acknowledge () 10)
            :: List.replicate 8 (.sequence (.step ())))).any (fun s =>
              s.last = 10
                && s.keyChooser.Contained s.last
                && s.keyChooser.DrawInRange s.last ⟨0, 0, 0⟩
                && nextKeyNum .exactAmd64 s.last s.keyChooser [⟨0, 0, 0⟩]
                  = .ret (3, s.keyChooser))) := by
    decide +kernel
  rcases Outcome.exists_of_any _ hcreate with ⟨c, hc, hexec⟩
  rcases Run.exists_of_exec _ hexec with ⟨s, hrun, hp⟩
  simp only [Bool.and_eq_true, decide_eq_true_eq] at hp
  rcases hp with ⟨⟨⟨hlast, hin⟩, hrange⟩, hnext⟩
  refine ⟨c, s, hc, hrun, hlast, hnext, ?_⟩
  apply keyNum_loaded_or_acknowledged hc (by decide) (by decide) (by decide) hrun hin _ hnext
  intro d hd
  rw [List.mem_singleton] at hd
  subst hd
  assumption

theorem keyNum_neither_loaded_nor_acknowledged
    : 0 ≤ (zipfianProperties ⟨1, by decide⟩ ⟨1, by decide⟩).getInsertStart
        ∧
      1 ≤ (zipfianProperties ⟨1, by decide⟩ ⟨1, by decide⟩).getInsertCount
        ∧
      (zipfianProperties ⟨1, by decide⟩ ⟨1, by decide⟩).getInsertStart
          + (zipfianProperties ⟨1, by decide⟩ ⟨1, by decide⟩).getInsertCount
        ≤ (zipfianProperties ⟨1, by decide⟩ ⟨1, by decide⟩).getRecordCount
        ∧
      ∃ (c : Core) (s : Choosing Unit),
        create .exactAmd64 (fun _ => .running) (zipfianProperties ⟨1, by decide⟩ ⟨1, by decide⟩)
          = .ret c
          ∧
        Run (step .exactAmd64) Allowed (new c) [] s
          ∧
        s.keyChooser.DrawInRange s.last ⟨0, 0, 0⟩
          ∧
        nextKeyNum .exactAmd64 s.last s.keyChooser [⟨0, 0, 0⟩] = .ret (1, s.keyChooser)
          ∧
        s.last < 1 := by
  have hcreate : (create .exactAmd64 (fun _ => .running)
      (zipfianProperties ⟨1, by decide⟩ ⟨1, by decide⟩)).toOption.any (fun c =>
        c.keyChooser.DrawInRange c.transactionInsertKeySequence.last ⟨0, 0, 0⟩
          && nextKeyNum .exactAmd64 c.transactionInsertKeySequence.last c.keyChooser [⟨0, 0, 0⟩]
            = .ret (1, c.keyChooser)
          && c.transactionInsertKeySequence.last < 1) := by
    decide +kernel
  rcases Outcome.exists_of_any _ hcreate with ⟨c, hc, hp⟩
  simp only [Bool.and_eq_true, decide_eq_true_eq] at hp
  exact ⟨by decide, by decide, by decide, c, new c, hc, .nil, hp.1.1, hp.1.2, hp.2⟩

end Choosing
