import GoYcsb.Client.Lemmas.Client
import GoYcsb.Workload.Lemmas.Load

/-!
This module contains what a whole load keeps, in every interleaving of the workers, and the runs that tell its
configurations apart.
-/

namespace Client

section

variable {W : Type} [Fintype W] {size : Nat} {worker : W → Worker} {start : Int} {extra : Nat}
  {s : Client W}

theorem accounts_new (p : Properties) {c : Core} (hstart : I64.InRange start)
    (hkeys : c.keySequence = Counter.new start) (hworker : ∀ w, (worker w).Loads size)
    : Accounts size worker start 0 (new p c) where
  active := rfl
  alive := rfl
  progress := fun w => ⟨Int.le_refl 0, Int.dvd_zero _, fun _ => Int.le_of_lt (hworker w).pos⟩
  rounds := fun _ => trivial
  sizes := by simp [new]
  keys := by
    refine ⟨0, ?_, .init _, ?_⟩
    . unfold new
      rw [hkeys, Int.natCast_zero, I64.add_eq (by rwa [Int.add_zero]), Int.add_zero]
      rfl
    . simp [new, Worker.PC.inFlight]

theorem Accounts.flight_le (h : Accounts size worker start extra s) {w : W}
    (hdvd : (size : Int) ∣ (worker w).opCount)
    : s.opsDone w + (s.pc w).inFlight size ≤ (worker w).opCount := by
  have hround := h.rounds w
  have hle := (h.progress w).le hdvd
  have hnext : s.opsDone w < (worker w).opCount → s.opsDone w + size ≤ (worker w).opCount :=
    fun hlt => ((h.progress w).count hlt).le hdvd
  cases hpc : s.pc w with
  | next left keyNums =>
    rw [hpc] at hround
    have := hnext hround.2
    have := hround.1
    dsimp only [Worker.PC.inFlight]
    omega
  | insert keyNums numOfRetries =>
    rw [hpc] at hround
    have := hnext hround.2.2
    have := hround.1
    dsimp only [Worker.PC.inFlight]
    omega
  | count =>
    rw [hpc] at hround
    exact hnext hround
  | test => exact (Int.add_zero _).trans_le hle
  | transaction => exact (Int.add_zero _).trans_le hle
  | select => exact (Int.add_zero _).trans_le hle
  | returned => exact (Int.add_zero _).trans_le hle

theorem Accounts.subperm (h : Accounts size worker start extra s)
    (hdvd : ∀ w, (size : Int) ∣ (worker w).opCount) {total : Nat} (htotal : ∑ w, (worker w).opCount = total)
    : s.calls.flatten.Subperm ((List.range (total + extra)).map (fun i : Nat => I64.add start i)) := by
  rcases h.keys with ⟨n, _, hdispensed, hsum⟩
  have hle : ∑ w, (s.opsDone w + ((s.pc w).inFlight size : Int)) ≤ ∑ w, (worker w).opCount :=
    Finset.sum_le_sum (fun w _ => h.flight_le (hdvd w))
  have hn : n ≤ total + extra := by omega
  exact hdispensed.subperm.trans ((List.range_sublist.mpr hn).map _).subperm

theorem Accounts.perm (h : Accounts size worker start extra s)
    (hdvd : ∀ w, (size : Int) ∣ (worker w).opCount) {total : Nat} (htotal : ∑ w, (worker w).opCount = total)
    (hended : s.Ended)
    : s.calls.flatten.Perm ((List.range (total + extra)).map (fun i : Nat => I64.add start i)) := by
  rcases h.keys with ⟨n, _, hdispensed, hsum⟩
  have hdone : ∀ w, s.opsDone w + ((s.pc w).inFlight size : Int) = (worker w).opCount := by
    intro w
    have hround := h.rounds w
    have hle := (h.progress w).le (hdvd w)
    rw [hended w] at hround ⊢
    dsimp only [Worker.Round, Worker.PC.inFlight] at hround ⊢
    omega
  have hn : n = total + extra := by
    rw [Finset.sum_congr rfl (fun w _ => hdone w), htotal] at hsum
    omega
  rw [← hn]
  apply hdispensed.perm
  intro w
  rw [hended w]
  rfl

theorem Accounts.next_mem (h : Accounts size worker start extra s)
    (hdvd : ∀ w, (size : Int) ∣ (worker w).opCount) {total : Nat} (htotal : ∑ w, (worker w).opCount = total) {w : W}
    {left : Nat} {keyNums : List Int} (hpc : s.pc w = .next (left + 1) keyNums)
    : s.keySequence.next.1 ∈ (List.range (total + extra)).map (fun i : Nat => I64.add start i) := by
  rcases h.keys with ⟨n, hcounter, _, hsum⟩
  have hround := h.rounds w
  rw [hpc] at hround
  have hcount := ((h.progress w).count hround.2).le (hdvd w)
  have hlt : ∑ w, (s.opsDone w + ((s.pc w).inFlight size : Int)) < ∑ w, (worker w).opCount := by
    refine Finset.sum_lt_sum (fun w _ => h.flight_le (hdvd w)) ⟨w, Finset.mem_univ w, ?_⟩
    rw [hpc]
    dsimp only [Worker.PC.inFlight]
    have := hround.1
    omega
  rw [Counter.next_eq_add hcounter]
  exact List.mem_map.mpr ⟨n, List.mem_range.mpr (by omega), rfl⟩

theorem Accounts.perm_last (h : Accounts size worker start extra s)
    (hlast : ∀ w, s.pc w = .count ∧ (worker w).opCount ≤ s.opsDone w + size)
    : ∃ n : Nat,
        s.calls.flatten.Perm ((List.range n).map (fun i : Nat => I64.add start i))
          ∧
        ∑ w, (worker w).opCount + extra ≤ n := by
  rcases h.keys with ⟨n, _, hdispensed, hsum⟩
  have hflight : ∀ w, (s.pc w).inFlight size = size := by
    intro w
    rw [(hlast w).1]
    rfl
  refine ⟨n, hdispensed.perm ?_, ?_⟩
  . intro w
    rw [(hlast w).1]
    rfl
  . have hle : ∑ w, (worker w).opCount ≤ ∑ w, (s.opsDone w + ((s.pc w).inFlight size : Int)) := by
      apply Finset.sum_le_sum
      intro w _
      rw [hflight w]
      exact (hlast w).2
    omega

theorem Accounts.lt_length (h : Accounts size worker start extra s)
    (hlast : ∀ w, s.pc w = .count ∧ (worker w).opCount ≤ s.opsDone w + size) {w : W}
    (hw : ¬ (size : Int) ∣ (worker w).opCount)
    : ∑ w, (worker w).opCount < s.calls.flatten.length := by
  rcases h.keys with ⟨n, _, hdispensed, hsum⟩
  have hflight : ∀ w, ((s.pc w).inFlight size : Int) = size := by
    intro w
    rw [(hlast w).1]
    rfl
  have hlt : ∑ w, (worker w).opCount < ∑ w, (s.opsDone w + (size : Int)) := by
    apply Finset.sum_lt_sum
    . intro w _
      exact (hlast w).2
    . refine ⟨w, Finset.mem_univ w, lt_of_le_of_ne (hlast w).2 ?_⟩
      intro heq
      apply hw
      rw [heq]
      exact Int.dvd_add (h.progress w).dvd (Int.dvd_refl _)
  have hlength : s.calls.flatten.length = n := by
    apply hdispensed.length
    intro w
    rw [(hlast w).1]
    rfl
  rw [Finset.sum_congr rfl (fun w _ => by rw [hflight w])] at hsum
  omega

theorem Accounts.length_calls (h : Accounts 1 worker start extra s)
    : s.calls.length = s.calls.flatten.length := by
  rw [List.length_flatten, List.map_congr_left h.sizes, List.map_const', List.sum_replicate]
  simp

end

section

variable {W : Type} [Fintype W] [DecidableEq W] {size : Nat} {worker : W → Worker} {start : Int}
  {extra : Nat} {P : Platform} {env : Build → Prop} {c : Core} {s t : Client W} {label : Label W}

def Unblocked (P : Platform) (env : Build → Prop) (c : Core) (worker : W → Worker) (s₀ : Client W) : Prop :=
  ∀ labels s, Run (step P c worker) (Allowed env) s₀ labels s →
    ∀ w answer, (∀ i, env (answer.builds i)) → s.pc w ≠ .returned →
      (s.step P c worker (.step w answer)).isSome = true

/--
The load comes to an end in every interleaving, no worker is ever blocked, and what has been passed to the
database are some of `keys`, in the end all of them, each once.
-/
def LoadsExactly (P : Platform) (env : Build → Prop) (c : Core) (worker : W → Worker) (s₀ : Client W)
    (keys : List Int) : Prop :=
  (∃ bound, ∀ labels s, Run (step P c worker) (Allowed env) s₀ labels s → labels.length ≤ bound)
    ∧
  Unblocked P env c worker s₀
    ∧
  ∀ labels s, Run (step P c worker) (Allowed env) s₀ labels s →
    s.calls.flatten.Subperm keys
      ∧
    (s.Ended → s.calls.flatten.Perm keys)

omit [Fintype W] in
theorem Unblocked.run (h : Unblocked P env c worker s) {labels : List (Label W)}
    (hrun : Run (step P c worker) (Allowed env) s labels t)
    : Unblocked P env c worker t :=
  fun _ u hrun' => h _ u (hrun.trans hrun')

omit [Fintype W] in
theorem Unblocked.step (h : Unblocked P env c worker s) (hallowed : s.Allowed env label)
    (htake : s.step P c worker label = some t)
    : Unblocked P env c worker t :=
  h.run (Run.nil.snoc hallowed htake)

omit [Fintype W] in
theorem Unblocked.isSome_step (h : Unblocked P env c worker s) {w : W} (hpc : s.pc w ≠ .returned) (answer : Answer)
    (henv : ∀ i, env (answer.builds i))
    : (s.step P c worker (.step w answer)).isSome = true :=
  h [] s .nil w answer henv hpc

omit [Fintype W] in
theorem Unblocked.alive_step (h : Unblocked P env c worker s) (hallowed : s.Allowed env label)
    (htake : s.step P c worker label = some t) (halive : s.crashed = false)
    : t.crashed = false := by
  have ht := h.step hallowed htake
  cases takes_of_step htake with
  | crash w answer left keyNums hpc _ =>
    have hsome := ht.isSome_step (w := w) (by simp [hpc]) answer hallowed
    contradiction
  | _ => exact halive

theorem Accounts.alive_step (h : Accounts size worker start extra s) (hdvd : ∀ w, (size : Int) ∣ (worker w).opCount)
    {total : Nat} (htotal : ∑ w, (worker w).opCount = total)
    (hbuilds : ∀ keyNum ∈ (List.range (total + extra)).map (fun i : Nat => I64.add start i),
      Load.BuildsKey P env c keyNum)
    (htakes : Takes P c worker s label t) (hallowed : s.Allowed env label)
    : t.crashed = false := by
  cases htakes with
  | crash w answer left keyNums hpc hbuilt =>
    rcases hbuilds _ (h.next_mem hdvd htotal hpc) answer.builds hallowed with ⟨values, hvalues⟩
    exact absurd hvalues (hbuilt values)
  | _ => exact h.alive

theorem step_counted (hsize : 0 < size) (hworker : ∀ w, (worker w).Loads size)
    (hdvd : ∀ w, (size : Int) ∣ (worker w).opCount) (hretry : c.insertionRetryLimit = 0)
    (h : Accounts size worker start extra s) (hwarm : s.warmUp = false) (hallowed : s.Allowed env label)
    (htake : s.step P c worker label = some t) (halive : t.crashed = false)
    : (Accounts size worker start extra t ∧ t.warmUp = false) ∧ measure size worker t < measure size worker s := by
  have htakes := takes_of_step htake
  have hcount : ∀ w answer, label = .step w answer → s.pc w = .count →
      s.warmUp = false ∧ s.opsDone w + size < 2 ^ 63 := by
    intro w answer _ hpc
    have hle := h.flight_le (hdvd w)
    have hfits := (hworker w).fits
    rw [hpc] at hle
    dsimp only [Worker.PC.inFlight] at hle
    exact ⟨hwarm, by omega⟩
  refine ⟨⟨h.step hworker hretry htakes hallowed halive hcount, warmUp_of_takes htakes hwarm⟩, ?_⟩
  exact h.measure_lt hsize hworker hretry htakes hallowed halive hcount

section Builds

variable (hsize : 0 < size) (hworker : ∀ w, (worker w).Loads size) (hdvd : ∀ w, (size : Int) ∣ (worker w).opCount)
  (hretry : c.insertionRetryLimit = 0) {total : Nat} (htotal : ∑ w, (worker w).opCount = total)
  (hbuilds : ∀ keyNum ∈ (List.range (total + extra)).map (fun i : Nat => I64.add start i),
    Load.BuildsKey P env c keyNum)

include hsize hworker hdvd hretry htotal hbuilds

theorem step_built
    : ∀ s label t, Accounts size worker start extra s ∧ s.warmUp = false →
        s.Allowed env label → s.step P c worker label = some t →
        (Accounts size worker start extra t ∧ t.warmUp = false)
          ∧
        measure size worker t < measure size worker s := by
  intro s label t h hallowed htake
  have halive := h.1.alive_step hdvd htotal hbuilds (takes_of_step htake) hallowed
  exact step_counted hsize hworker hdvd hretry h.1 h.2 hallowed htake halive

theorem Accounts.run (h : Accounts size worker start extra s) (hwarm : s.warmUp = false)
    {labels : List (Label W)} (hrun : Run (Client.step P c worker) (Allowed env) s labels t)
    : Accounts size worker start extra t ∧ t.warmUp = false := by
  apply hrun.invariant ⟨h, hwarm⟩
  intro s label t hs hallowed htake
  exact (step_built hsize hworker hdvd hretry htotal hbuilds s label t hs hallowed htake).1

theorem Accounts.unblocked (h : Accounts size worker start extra s) (hwarm : s.warmUp = false)
    : Unblocked P env c worker s := by
  intro labels t hrun w answer henv hpc
  have ht := (h.run hsize hworker hdvd hretry htotal hbuilds hwarm hrun).1
  apply isSome_step P c worker ht.alive hpc
  intro left keyNums hnext
  exact hbuilds _ (ht.next_mem hdvd htotal hnext) answer.builds henv

theorem Accounts.loadsExactly (h : Accounts size worker start extra s) (hwarm : s.warmUp = false)
    : LoadsExactly P env c worker s ((List.range (total + extra)).map (fun i : Nat => I64.add start i)) := by
  refine ⟨⟨measure size worker s, fun labels t hrun => ?_⟩, ?_, ?_⟩
  . exact hrun.length_le ⟨h, hwarm⟩ (step_built hsize hworker hdvd hretry htotal hbuilds)
  . exact h.unblocked hsize hworker hdvd hretry htotal hbuilds hwarm
  . intro labels t hrun
    have ht := (h.run hsize hworker hdvd hretry htotal hbuilds hwarm hrun).1
    exact ⟨ht.subperm hdvd htotal, ht.perm hdvd htotal⟩

end Builds

def Seen (s : Client W) (keyNum : Int) : Prop := keyNum ∈ s.calls.flatten ∨ ∃ w, keyNum ∈ (s.pc w).held

omit [Fintype W] in
theorem seen_goto {w : W} {pc : Worker.PC} {keyNum : Int} (h : (s.goto w pc).Seen keyNum)
    : s.Seen keyNum ∨ keyNum ∈ pc.held := by
  cases h with
  | inl h => exact Or.inl (Or.inl h)
  | inr h =>
    rcases h with ⟨w', hw'⟩
    by_cases heq : w' = w
    . rw [heq, pc_goto_self] at hw'
      exact Or.inr hw'
    . rw [pc_goto_of_ne s pc heq] at hw'
      exact Or.inl (Or.inr ⟨w', hw'⟩)

omit [Fintype W] in
theorem seen_call {w : W} {pc : Worker.PC} {keyNums : List Int} {keyNum : Int} (hpc : (s.pc w).held = keyNums)
    (hheld : pc.held ⊆ keyNums) (h : ({ s with calls := s.calls ++ [keyNums] }.goto w pc).Seen keyNum)
    : s.Seen keyNum := by
  have hmem : keyNum ∈ keyNums → s.Seen keyNum := fun hmem => Or.inr ⟨w, by rwa [hpc]⟩
  rcases seen_goto h with (hcalls | hother) | hpc'
  . rw [List.flatten_append, List.flatten_singleton, List.mem_append] at hcalls
    cases hcalls with
    | inl hcalls => exact Or.inl hcalls
    | inr hcalls => exact hmem hcalls
  . exact Or.inr hother
  . exact hmem (hheld hpc')

omit [Fintype W] in
theorem Takes.seen (h : Takes P c worker s label t) {keyNum : Int} (hseen : t.Seen keyNum)
    : s.Seen keyNum
        ∨
      ∃ w answer values,
        label = .step w answer
          ∧
        keyNum = s.keySequence.next.1
          ∧
        Load.buildRecord P c answer.builds keyNum = .ret values := by
  have hgoto : ∀ {w pc}, pc.held ⊆ (s.pc w).held → (s.goto w pc).Seen keyNum → s.Seen keyNum := by
    intro w pc hheld hgoto
    exact (seen_goto hgoto).elim id (fun hmem => Or.inr ⟨w, hheld hmem⟩)
  cases h with
  | test w answer hpc hlt =>
    refine Or.inl (hgoto ?_ hseen)
    have hnil : (worker w).operation.held = [] := by
      unfold Worker.operation
      split
      . rfl
      . split <;> rfl
    rw [hnil]
    exact List.nil_subset _
  | next w answer left keyNums values hpc hbuilt =>
    have hheld : (s.pc w).held = keyNums := by
      rw [hpc]
      rfl
    cases seen_goto hseen with
    | inl hold => exact Or.inl hold
    | inr hnew =>
      cases List.mem_append.mp hnew with
      | inl hmem => exact Or.inl (Or.inr ⟨w, by rwa [hheld]⟩)
      | inr hmem =>
        rw [List.mem_singleton] at hmem
        exact Or.inr ⟨w, answer, values, rfl, hmem, by rwa [hmem]⟩
  | crash w answer left keyNums hpc hbuilt => exact Or.inl hseen
  | taken w answer keyNums hpc =>
    refine Or.inl (hgoto ?_ hseen)
    rw [hpc]
    exact List.Subset.refl _
  | retry w answer keyNums numOfRetries numOfRetries' hpc hcall =>
    exact Or.inl (seen_call (by rw [hpc]; rfl) (List.Subset.refl _) hseen)
  | inserted w answer keyNums numOfRetries res hpc hcall =>
    exact Or.inl (seen_call (by rw [hpc]; rfl) (List.nil_subset _) hseen)
  | counted w answer hpc hwarm =>
    cases seen_goto hseen with
    | inl hold => exact Or.inl hold
    | inr hnil => contradiction
  | finishWarmUp hwarm => exact Or.inl hseen
  | cancel err hctx => exact Or.inl hseen
  | _ => exact Or.inl (hgoto (List.nil_subset _) hseen)

-- A worker counts its operation only if there is more to do.
theorem step_busy (hsize : 0 < size) (hworker : ∀ w, (worker w).Loads size) (hretry : c.insertionRetryLimit = 0)
    (h : Accounts size worker start extra s) (hbusy : s.Busy worker) (hunblocked : Unblocked P env c worker s)
    (hallowed : s.Allowed env label) (htake : s.step P c worker label = some t)
    (hcount : ∀ w answer, label = .step w answer → s.pc w = .count →
      s.warmUp = false ∧ s.opsDone w + size < (worker w).opCount)
    : (Accounts size worker start extra t ∧ t.Busy worker ∧ Unblocked P env c worker t)
        ∧
      measure size worker t < measure size worker s := by
  have htakes := takes_of_step htake
  have halive := hunblocked.alive_step hallowed htake h.alive
  have hfits : ∀ w answer, label = .step w answer → s.pc w = .count →
      s.warmUp = false ∧ s.opsDone w + size < 2 ^ 63 := by
    intro w answer hlabel hpc
    have hlt := hcount w answer hlabel hpc
    exact ⟨hlt.1, lt_trans hlt.2 (hworker w).fits⟩
  refine ⟨⟨?_, ?_, hunblocked.step hallowed htake⟩, ?_⟩
  . exact h.step hworker hretry htakes hallowed halive hfits
  . apply hbusy.step h.active htakes
    intro w answer hlabel hpc _
    rw [(h.progress w).add_opsCount (hworker w).opsCount (hfits w answer hlabel hpc).2]
    exact (hcount w answer hlabel hpc).2
  . exact h.measure_lt hsize hworker hretry htakes hallowed halive hfits

theorem exists_last_operations (h : Accounts size worker start extra s) (hbusy : s.Busy worker)
    (hwarm : s.warmUp = false) (hsize : 0 < size) (hworker : ∀ w, (worker w).Loads size)
    (hretry : c.insertionRetryLimit = 0) (hunblocked : Unblocked P env c worker s) {answer : Int → Answer}
    (henv : ∀ keyNum i, env ((answer keyNum).builds i)) {built : Int → Prop}
    (hbuilt : ∀ keyNum values, Load.buildRecord P c (answer keyNum).builds keyNum = .ret values → built keyNum)
    (hseen : ∀ keyNum, s.Seen keyNum → built keyNum)
    : ∃ labels t,
        Run (step P c worker) (Allowed env) s labels t
          ∧
        Accounts size worker start extra t
          ∧
        (∀ w, t.pc w = .count ∧ (worker w).opCount ≤ t.opsDone w + size)
          ∧
        ∀ keyNum, t.Seen keyNum → built keyNum := by
  let Answered (s : Client W) (label : Label W) : Prop :=
    (∃ w, label = .step w (answer s.keySequence.next.1))
      ∧
    ∀ w answer, label = .step w answer → s.pc w = .count → s.opsDone w + size < (worker w).opCount
  let I (s : Client W) : Prop :=
    Accounts size worker start extra s
      ∧
    s.Busy worker
      ∧
    s.warmUp = false
      ∧
    Unblocked P env c worker s
      ∧
    ∀ keyNum, s.Seen keyNum → built keyNum
  have hallowed : ∀ s label, Answered s label → s.Allowed env label := by
    rintro s label ⟨⟨w, rfl⟩, _⟩
    exact henv _
  have hstep : ∀ s label t, I s → Answered s label → s.step P c worker label = some t →
      I t ∧ measure size worker t < measure size worker s := by
    rintro s label t ⟨h, hbusy, hwarm, hunblocked, hseen⟩ hanswered htake
    have htakes := takes_of_step htake
    have hcount := fun w answer hlabel hpc => And.intro hwarm (hanswered.2 w answer hlabel hpc)
    rcases step_busy hsize hworker hretry h hbusy hunblocked (hallowed s label hanswered) htake hcount
      with ⟨⟨ht, htbusy, htunblocked⟩, hlt⟩
    refine ⟨⟨ht, htbusy, warmUp_of_takes htakes hwarm, htunblocked, ?_⟩, hlt⟩
    intro keyNum hkeyNum
    rcases htakes.seen hkeyNum with hold | ⟨w, answer', values, hlabel, hkey, hvalues⟩
    . exact hseen keyNum hold
    . rcases hanswered.1 with ⟨w', hw'⟩
      rw [hw'] at hlabel
      cases hlabel
      rw [← hkey] at hvalues
      exact hbuilt keyNum values hvalues
  have hprogress : ∀ s, I s → ¬ (∀ w, s.pc w = .count ∧ (worker w).opCount ≤ s.opsDone w + size) →
      ∃ label t, Answered s label ∧ s.step P c worker label = some t := by
    rintro s ⟨_, hbusy, _, hunblocked, _⟩ hnot
    rw [not_forall] at hnot
    rcases hnot with ⟨w, hw⟩
    have hsome := hunblocked.isSome_step (hbusy w).2 _ (henv s.keySequence.next.1)
    rcases Option.isSome_iff_exists.mp hsome with ⟨t, ht⟩
    refine ⟨.step w _, t, ⟨⟨w, rfl⟩, ?_⟩, ht⟩
    intro w' answer hlabel hpc
    cases hlabel
    rw [not_and, Int.not_le] at hw
    exact hw hpc
  rcases Run.exists_done (I := I) ⟨h, hbusy, hwarm, hunblocked, hseen⟩ hstep hprogress
    with ⟨labels, t, hrun, ht, hdone⟩
  exact ⟨labels, t, hrun.mono hallowed, ht.1, hdone, ht.2.2.2.2⟩

omit [Fintype W] [DecidableEq W] in
theorem exists_answer (P : Platform) (c : Core) (henv : ∃ build, env build)
    : ∃ answer : Int → Answer,
        (∀ keyNum i, env ((answer keyNum).builds i))
          ∧
        ∀ keyNum values, Load.buildRecord P c (answer keyNum).builds keyNum = .ret values →
          Load.BuildsKey P env c keyNum := by
  have hworst : ∀ keyNum, ∃ answer : Answer,
      (∀ i, env (answer.builds i))
        ∧
      ∀ values, Load.buildRecord P c answer.builds keyNum = .ret values → Load.BuildsKey P env c keyNum := by
    intro keyNum
    by_cases hbuilds : Load.BuildsKey P env c keyNum
    . rcases henv with ⟨build, hbuild⟩
      exact ⟨⟨none, fun _ => build⟩, fun _ => hbuild, fun _ _ => hbuilds⟩
    . simp only [Load.BuildsKey, not_forall, not_exists] at hbuilds
      rcases hbuilds with ⟨builds, henv, hnot⟩
      exact ⟨⟨none, builds⟩, henv, fun values hvalues => absurd hvalues (hnot values)⟩
  choose answer hanswer using hworst
  exact ⟨answer, fun keyNum => (hanswer keyNum).1, fun keyNum => (hanswer keyNum).2⟩

theorem exists_ended (h : Accounts size worker start extra s) (hwarm : s.warmUp = false)
    (hsize : 0 < size) (hworker : ∀ w, (worker w).Loads size)
    (hdvd : ∀ w, (size : Int) ∣ (worker w).opCount) (hretry : c.insertionRetryLimit = 0)
    (hunblocked : Unblocked P env c worker s) (henv : ∃ build, env build)
    : ∃ labels t,
        Run (step P c worker) (Allowed env) s labels t ∧ Accounts size worker start extra t ∧ t.Ended := by
  rcases henv with ⟨build, hbuild⟩
  let I (s : Client W) : Prop :=
    Accounts size worker start extra s ∧ s.warmUp = false ∧ Unblocked P env c worker s
  have hstep : ∀ s label t, I s → s.Allowed env label → s.step P c worker label = some t →
      I t ∧ measure size worker t < measure size worker s := by
    rintro s label t ⟨h, hwarm, hunblocked⟩ hallowed htake
    have halive := hunblocked.alive_step hallowed htake h.alive
    have hcounted := step_counted hsize hworker hdvd hretry h hwarm hallowed htake halive
    exact ⟨⟨hcounted.1.1, hcounted.1.2, hunblocked.step hallowed htake⟩, hcounted.2⟩
  have hprogress : ∀ s, I s → ¬ s.Ended → ∃ label t, s.Allowed env label ∧ s.step P c worker label = some t := by
    rintro s ⟨_, _, hunblocked⟩ hnot
    unfold Ended at hnot
    rw [not_forall] at hnot
    rcases hnot with ⟨w, hw⟩
    have hsome := hunblocked.isSome_step hw ⟨none, fun _ => build⟩ (fun _ => hbuild)
    rcases Option.isSome_iff_exists.mp hsome with ⟨t, ht⟩
    exact ⟨.step w ⟨none, fun _ => build⟩, t, fun _ => hbuild, ht⟩
  rcases Run.exists_done (I := I) ⟨h, hwarm, hunblocked⟩ hstep hprogress with ⟨labels, t, hrun, ht, hended⟩
  exact ⟨labels, t, hrun, ht.1, hended⟩

theorem exists_uncounted (h : Accounts size worker start 0 s) (hbusy : s.Busy worker)
    (hwarm : s.warmUp = true) (hwarming : s.warmingUp = true) (hsize : 0 < size)
    (hworker : ∀ w, (worker w).Loads size) (hretry : c.insertionRetryLimit = 0)
    (hunblocked : Unblocked P env c worker s) (henv : ∃ build, env build) (w : W)
    : ∃ labels t,
        Run (step P c worker) (Allowed env) s labels t
          ∧
        Accounts size worker start size t
          ∧
        t.warmUp = false := by
  rcases henv with ⟨build, hbuild⟩
  let answer : Answer := ⟨none, fun _ => build⟩
  let Alone (s : Client W) (label : Label W) : Prop := label = .step w answer ∧ s.pc w ≠ .count
  let I (s : Client W) : Prop :=
    Accounts size worker start 0 s
      ∧
    s.Busy worker
      ∧
    (s.warmUp = true ∧ s.warmingUp = true)
      ∧
    Unblocked P env c worker s
  have hallowed : ∀ s label, Alone s label → s.Allowed env label := by
    rintro s label ⟨rfl, _⟩
    exact fun _ => hbuild
  have hstep : ∀ s label t, I s → Alone s label → s.step P c worker label = some t →
      I t ∧ measure size worker t < measure size worker s := by
    rintro s label t ⟨h, hbusy, hwarm, hunblocked⟩ halone htake
    have htakes := takes_of_step htake
    have hcount : ∀ w' answer', label = .step w' answer' → s.pc w' = .count →
        s.warmUp = false ∧ s.opsDone w' + size < (worker w').opCount := by
      intro w' answer' hlabel hcount
      rw [halone.1] at hlabel
      cases hlabel
      exact absurd hcount halone.2
    rcases step_busy hsize hworker hretry h hbusy hunblocked (hallowed s label halone) htake hcount
      with ⟨⟨ht, htbusy, htunblocked⟩, hlt⟩
    refine ⟨⟨ht, htbusy, ?_, htunblocked⟩, hlt⟩
    rw [halone.1] at htakes
    cases htakes with
    | _ => exact hwarm
  have hprogress : ∀ s, I s → ¬ s.pc w = .count →
      ∃ label t, Alone s label ∧ s.step P c worker label = some t := by
    rintro s ⟨_, hbusy, _, hunblocked⟩ hnot
    have hsome := hunblocked.isSome_step (hbusy w).2 answer (fun _ => hbuild)
    rcases Option.isSome_iff_exists.mp hsome with ⟨t, ht⟩
    exact ⟨.step w answer, t, ⟨rfl, hnot⟩, ht⟩
  have hdone := Run.exists_done (I := I) ⟨h, hbusy, ⟨hwarm, hwarming⟩, hunblocked⟩ hstep hprogress
  rcases hdone with ⟨labels, t, hrun, ⟨haccounts, _, ⟨hwarm, hwarming⟩, _⟩, hpc⟩
  have hcount : t.step P c worker (.step w answer) = some (t.goto w .select) := by
    simp [step, workerStep, hpc, hwarm, haccounts.alive]
  have hfinish : (t.goto w .select).step P c worker .finishWarmUp
      = some { t.goto w .select with warmUp := false, warmingUp := false } := by
    simp [step, Client.goto, hwarming, haccounts.alive]
  have huncounted := haccounts.uncounted hpc
  rw [Nat.zero_add] at huncounted
  have hstepped : t.Allowed env (.step w answer) := fun _ => hbuild
  have hfinished : (t.goto w .select).Allowed env .finishWarmUp := trivial
  refine ⟨_, _, ((hrun.mono hallowed).snoc hstepped hcount).snoc hfinished hfinish, ?_, rfl⟩
  exact ⟨huncounted.active, huncounted.alive, huncounted.progress, huncounted.rounds, huncounted.sizes,
    huncounted.keys⟩

end

end Client
