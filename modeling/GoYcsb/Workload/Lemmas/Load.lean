import GoYcsb.Workload.Impl.Load
import GoYcsb.Workload.Lemmas.Bench
import GoYcsb.Workload.Lemmas.Create

/-!
This module contains the verification of the retries of `DoInsert` and `DoBatchInsert` from
`GoYcsb.Workload.Impl.Load`: how often the database is called and what is returned, for all outcomes of
the calls. The steps that `GoYcsb.Workload.Impl.Bench` takes for the two are the same ones.
-/

namespace Load

/--
What a retry limit is for. The calls whose outcomes are `call 0`, `call 1` and so on are made until the
first success, and there are at most `limit + 1` of them.
-/
structure Retried (limit : Int) (call : Nat → Option String) (calls : Nat) (err : Option String)
    : Prop where
  pos : 0 < calls
  le : calls ≤ limit + 1
  once : ∀ i, i + 1 < calls → call i ≠ none
  exhausted : call (calls - 1) = none ∨ calls = limit + 1
  success : err = none ↔ ∃ i, i < calls ∧ call i = none
  last : err ≠ none → err = call (calls - 1)

def RetriesUntilSuccess (limit : Int) (call : Nat → Option String) (insert : Nat → Outcome Insertion)
    : Prop :=
  ∃ fuel insertion, insert fuel = .ret insertion ∧ Retried limit call insertion.calls insertion.err

section

variable {limit : Int} {ctxErr : Nat → Option CtxErr} {call : Nat → Option String}

theorem lt_of_retryLoop {fuel i calls : Nat} {numOfRetries : Int} {err : Option String}
    (h : retryLoop limit ctxErr call fuel i numOfRetries = .ret (calls, err))
    : i < calls := by
  induction fuel generalizing i numOfRetries with
  | zero => simp [retryLoop] at h
  | succ fuel ih =>
    unfold retryLoop at h
    split at h
    . simp at h
      omega
    . have hlt := ih h
      omega

theorem retryLoop_of_failure {fuel : Nat} {err : String} {numOfRetries : Int} (hcall : call 0 = some err)
    : retryLoop limit ctxErr call (fuel + 1) 0 numOfRetries = .ret (1, some err) := by
  simp [retryLoop, hcall, afterCall]

theorem afterCall_success (hlimit : 0 ≤ limit)
    : afterCall limit 0 none none = if limit = 0 then .ret none else .again 1 := by
  have hone : I64.add 0 1 = 1 := I64.add_eq (by decide)
  simp only [afterCall, hone]
  split
  . next hlt => rw [if_pos (by omega)]
  . next hle => rw [if_neg (by omega)]

theorem Retried.of_zero {err : Option String} (hcall : call 0 = err) : Retried 0 call 1 err := by
  constructor
  . omega
  . omega
  . omega
  . simp
  . simp [hcall]
  . simp [hcall]

theorem retried_iff (hlimit : 0 ≤ limit)
    : (∃ fuel calls err,
        retryLoop limit (fun _ => none) call fuel 0 0 = .ret (calls, err)
          ∧
        Retried limit call calls err)
        ↔
      limit = 0 := by
  constructor
  . rintro ⟨fuel, calls, err, hloop, hretried⟩
    cases fuel with
    | zero => simp [retryLoop] at hloop
    | succ fuel =>
      cases hcall : call 0 with
      | some e =>
        rw [retryLoop_of_failure hcall] at hloop
        cases hloop
        have hexhausted := hretried.exhausted
        simp [hcall] at hexhausted
        omega
      | none =>
        simp only [retryLoop, hcall, afterCall_success hlimit] at hloop
        split at hloop
        . next hret =>
          split at hret
          . assumption
          . simp at hret
        . have hlt := lt_of_retryLoop hloop
          have honce := hretried.once 0 hlt
          contradiction
  . intro hzero
    subst hzero
    refine ⟨1, 1, call 0, ?_, .of_zero rfl⟩
    simp only [retryLoop]
    cases hcall : call 0 with
    | some e => simp [afterCall]
    | none => simp [afterCall_success]

end

section

variable {P : Platform} {c : Core} {ctxErr : Nat → Option CtxErr} {call : Nat → Option String}

/-- The values come first, and whether they can be built does not depend on the calls. -/
theorem retriesUntilSuccess_iff {limit : Int} {insert : Nat → Outcome Insertion} {built : Outcome α}
    (insertion : α → Nat → Option String → Insertion) (hcalls : ∀ a calls err, (insertion a calls err).calls = calls)
    (herr : ∀ a calls err, (insertion a calls err).err = err)
    (hinsert : ∀ fuel,
      insert fuel = built >>= fun a =>
        retryLoop limit (fun _ => none) call fuel 0 0 >>= fun res => .ret (insertion a res.1 res.2))
    (hlimit : 0 ≤ limit)
    : RetriesUntilSuccess limit call insert ↔ limit = 0 ∧ ∃ a, built = .ret a := by
  rw [← retried_iff hlimit]
  constructor
  . rintro ⟨fuel, res, hret, hretried⟩
    rw [hinsert] at hret
    rcases Outcome.bind_eq_ret hret with ⟨a, hbuilt, hrest⟩
    rcases Outcome.bind_eq_ret hrest with ⟨⟨calls, err⟩, hloop, hres⟩
    cases hres
    rw [hcalls, herr] at hretried
    exact ⟨⟨fuel, calls, err, hloop, hretried⟩, a, hbuilt⟩
  . rintro ⟨⟨fuel, calls, err, hloop, hretried⟩, a, hbuilt⟩
    refine ⟨fuel, insertion a calls err, ?_, ?_⟩
    . simp [hinsert, hbuilt, hloop]
    . simp [hcalls, herr, hretried]

theorem doInsert_retriesUntilSuccess_iff (builds : Nat → Build) (hlimit : 0 ≤ c.insertionRetryLimit)
    : RetriesUntilSuccess c.insertionRetryLimit call (fun fuel => doInsert P c (fun _ => none) call fuel builds)
        ↔
      c.insertionRetryLimit = 0 ∧ ∃ values, buildRecord P c builds c.keySequence.next.1 = .ret values := by
  apply retriesUntilSuccess_iff (fun values calls err =>
    { keySequence := c.keySequence.next.2, keyNums := [c.keySequence.next.1], values := [values], calls, err })
  . simp
  . simp
  . simp [doInsert]
  . exact hlimit

theorem doBatchInsert_retriesUntilSuccess_iff {batchSize : Int} (builds : Nat → Nat → Build)
    (hlimit : 0 ≤ c.insertionRetryLimit)
    : RetriesUntilSuccess c.insertionRetryLimit call
        (fun fuel => doBatchInsert P c (fun _ => none) call fuel builds none batchSize)
        ↔
      c.insertionRetryLimit = 0
        ∧
      ∃ records, takeRecords P c builds batchSize.toNat 0 c.keySequence = .ret records := by
  apply retriesUntilSuccess_iff (fun records calls err =>
    {
      keySequence := records.2
      keyNums := records.1.map Prod.fst
      values := records.1.map Prod.snd
      calls
      err
    })
  . simp
  . simp
  . simp [doBatchInsert]
  . exact hlimit

theorem insert_retries_iff (P : Platform) (c : Core) (builds : Nat → Build) (batchBuilds : Nat → Nat → Build)
    (call : Nat → Option String) (batchSize : Int) (hlimit : 0 ≤ c.insertionRetryLimit)
    : RetriesUntilSuccess c.insertionRetryLimit call (fun fuel => doInsert P c (fun _ => none) call fuel builds)
        ∧
      RetriesUntilSuccess c.insertionRetryLimit call
        (fun fuel => doBatchInsert P c (fun _ => none) call fuel batchBuilds none batchSize)
        ↔
      c.insertionRetryLimit = 0
        ∧
      (∃ values, buildRecord P c builds c.keySequence.next.1 = .ret values)
        ∧
      ∃ records, takeRecords P c batchBuilds batchSize.toNat 0 c.keySequence = .ret records := by
  rw [doInsert_retriesUntilSuccess_iff builds hlimit, doBatchInsert_retriesUntilSuccess_iff batchBuilds hlimit]
  constructor
  . rintro ⟨⟨hzero, hbuilt⟩, _, hrecords⟩
    exact ⟨hzero, hbuilt, hrecords⟩
  . rintro ⟨hzero, hbuilt, hrecords⟩
    exact ⟨⟨hzero, hbuilt⟩, hzero, hrecords⟩

end

section Build

variable {P : Platform} {c : Core}

theorem buildValues_of_forall {builds : Nat → Build} {key : Bytes} {fieldNames : List Bytes} {i : Nat}
    (h : ∀ j, ∀ fieldKey ∈ fieldNames, ∃ b, buildValue P c (builds j) key fieldKey = .ret b)
    : ∃ values, buildValues P c builds i key fieldNames = .ret values := by
  induction fieldNames generalizing i with
  | nil => exact ⟨[], rfl⟩
  | cons fieldKey fieldNames ih =>
    rcases h i fieldKey List.mem_cons_self with ⟨b, hb⟩
    rcases ih (i := i + 1) (fun j fieldKey hmem => h j fieldKey (List.mem_cons_of_mem _ hmem)) with ⟨values, hvalues⟩
    refine ⟨(fieldKey, b.bytes) :: values, ?_⟩
    unfold buildValues
    rw [hb, Outcome.ret_bind, hvalues, Outcome.ret_bind]
    rfl

def BuildsKey (P : Platform) (env : Build → Prop) (c : Core) (keyNum : Int) : Prop :=
  ∀ builds : Nat → Build, (∀ i, env (builds i)) → ∃ values, buildRecord P c builds keyNum = .ret values

def emptyPool (limit : Nat) : Build where
  memory := ⟨limit, []⟩
  pooled := none
  slack := fun _ => 0
  draw := ⟨0, 0, 0⟩
  random := fun _ => 0

theorem valid_emptyPool (limit : Nat) : (emptyPool limit).Valid limit where
  limit := rfl
  pooled := nofun

/-- With records of constant fields that are not to be checked it is the length of the fields that counts. -/
theorem buildsKey_iff {readHistogram : String → Outcome Generator.Histogram} {p : Properties} {limit : Nat}
    (hcreate : create P readHistogram p = .ret c) (hname : p.getFieldLengthDistribution = "constant")
    (hintegrity : p.getDataIntegrity = false) (hcount : 0 < p.getFieldCount) (keyNum : Int)
    : BuildsKey P (Build.Valid limit) c keyNum ↔ 0 ≤ p.getFieldLength ∧ p.getFieldLength ≤ limit := by
  have hcreated := created_of_create hcreate
  have hconstant := hcreated.constant_of_distribution hname
  constructor
  . intro h
    by_contra hnot
    rcases h (fun _ => emptyPool limit) (fun _ => valid_emptyPool limit) with ⟨values, hvalues⟩
    have hnames : c.fieldNames ≠ [] := by
      have hmake := hcreated.fieldNames
      unfold makeFieldNames at hmake
      rw [if_neg (by omega), Outcome.ret.injEq] at hmake
      rw [← hmake]
      simp
      omega
    rcases List.exists_cons_of_ne_nil hnames with ⟨fieldKey, fieldNames, heq⟩
    rw [buildRecord, heq, buildValues] at hvalues
    rcases Outcome.bind_eq_ret hvalues with ⟨b, hb, _⟩
    have hbad : c.fieldLength < 0 ∨ (limit : Int) < c.fieldLength := by
      rw [hcreated.fieldLength]
      omega
    have hpooled : (emptyPool limit).pooled = none := rfl
    rcases buildValue_panics P hpooled hconstant hbad (buildKeyName c keyNum) fieldKey with ⟨msg, hpanic⟩
    rw [hpanic] at hb
    contradiction
  . intro hsize builds hbuilds
    apply buildValues_of_forall
    intro j fieldKey _
    apply buildValue_of_constant P (hbuilds j) hconstant hcreated.fieldLength hsize.1 hsize.2
    intro htrue
    rw [hcreated.dataIntegrity, hintegrity] at htrue
    contradiction

end Build

def retrying (limit : I64.Value) : Properties := { insertionRetryLimit := some limit }

theorem insert_retries_default
    : ∃ c,
        create .exactAmd64 (fun _ => .running) (retrying ⟨0, by decide⟩) = .ret c
          ∧
        RetriesUntilSuccess c.insertionRetryLimit (fun _ => some "timeout")
          (fun fuel =>
            doInsert .exactAmd64 c (fun _ => none) (fun _ => some "timeout") fuel (fun _ => emptyPool 100))
          ∧
        RetriesUntilSuccess c.insertionRetryLimit (fun _ => some "timeout")
          (fun fuel =>
            doBatchInsert .exactAmd64 c (fun _ => none) (fun _ => some "timeout") fuel (fun _ _ => emptyPool 100) none
              3) := by
  have hcreate : (create .exactAmd64 (fun _ => .running) (retrying ⟨0, by decide⟩)).toOption.any (fun c =>
      (buildRecord .exactAmd64 c (fun _ => emptyPool 100) c.keySequence.next.1).toOption.isSome
        && (takeRecords .exactAmd64 c (fun _ _ => emptyPool 100) 3 0 c.keySequence).toOption.isSome) := by
    decide +kernel
  rcases Outcome.exists_of_any _ hcreate with ⟨c, hc, hbuilt⟩
  rw [Bool.and_eq_true, Option.isSome_iff_exists, Option.isSome_iff_exists] at hbuilt
  simp only [Outcome.toOption_eq_some] at hbuilt
  have hlimit : c.insertionRetryLimit = 0 := (copied_of_create hc).insertionRetryLimit
  have hretries := (insert_retries_iff .exactAmd64 c (fun _ => emptyPool 100) (fun _ _ => emptyPool 100)
    (fun _ => some "timeout") 3 (Int.le_of_eq hlimit.symm)).mpr ⟨hlimit, hbuilt⟩
  exact ⟨c, hc, hretries⟩

theorem insert_gives_up
    : ∃ c,
        create .exactAmd64 (fun _ => .running) (retrying ⟨1, by decide⟩) = .ret c
          ∧
        c.insertionRetryLimit = 1
          ∧
        (doInsert .exactAmd64 c (fun _ => none) (fun i => if i = 0 then some "timeout" else none) 2
            (fun _ => emptyPool 100)).toOption.map (fun insertion => (insertion.calls, insertion.err))
          =
        some (1, some "timeout")
          ∧
        ¬ RetriesUntilSuccess c.insertionRetryLimit (fun i => if i = 0 then some "timeout" else none)
            (fun fuel =>
              doInsert .exactAmd64 c (fun _ => none) (fun i => if i = 0 then some "timeout" else none) fuel
                (fun _ => emptyPool 100))
          ∧
        ¬ RetriesUntilSuccess c.insertionRetryLimit (fun i => if i = 0 then some "timeout" else none)
            (fun fuel =>
              doBatchInsert .exactAmd64 c (fun _ => none) (fun i => if i = 0 then some "timeout" else none) fuel
                (fun _ _ => emptyPool 100) none 3) := by
  have hcreate : (create .exactAmd64 (fun _ => .running) (retrying ⟨1, by decide⟩)).toOption.any (fun c =>
      (doInsert .exactAmd64 c (fun _ => none) (fun i => if i = 0 then some "timeout" else none) 2
        (fun _ => emptyPool 100)).toOption.map (fun insertion => (insertion.calls, insertion.err))
        = some (1, some "timeout")) := by
    decide +kernel
  rcases Outcome.exists_of_any _ hcreate with ⟨c, hc, hgives⟩
  have hlimit : c.insertionRetryLimit = 1 := (copied_of_create hc).insertionRetryLimit
  have hnonneg : 0 ≤ c.insertionRetryLimit := by
    rw [hlimit]
    decide
  refine ⟨c, hc, hlimit, of_decide_eq_true hgives, ?_, ?_⟩
  . rw [doInsert_retriesUntilSuccess_iff _ hnonneg, hlimit]
    simp
  . rw [doBatchInsert_retriesUntilSuccess_iff _ hnonneg, hlimit]
    simp

end Load

namespace Bench

open Load

variable {W : Type} [DecidableEq W] {P : Platform} {c : Core} {s : Bench W} {w : W}

def build (s : Bench W) (answer : Answer) : Build where
  memory := s.memory
  pooled := s.pool[answer.pooled]?
  slack := answer.slack
  draw := answer.draw
  random := answer.random

omit [DecidableEq W] in
theorem getBuffer_eq (c : Core) (s : Bench W) (answer : Answer)
    : s.getBuffer c answer.pooled
        =
      (s.build answer).getBuffer c >>= fun b =>
        .ret ({ s with memory := b.memory, pool := s.pool.eraseIdx answer.pooled }, b.slice) := by
  unfold getBuffer build Build.getBuffer
  cases hpooled : s.pool[answer.pooled]? with
  | some buf => rfl
  | none =>
    rw [List.eraseIdx_of_length_le (List.getElem?_eq_none_iff.mp hpooled)]
    rfl

theorem runStep_build {fieldKey : Bytes} {todo : List Instr} (htodo : (s.thread w).todo = .build fieldKey :: todo)
    (answer : Answer)
    : s.runStep P c w answer
        =
      (buildValue P c (s.build answer) (((s.thread w).records.getLast?.map Record.key).getD []) fieldKey >>= fun b =>
        .ret ({ s with memory := b.memory, pool := s.pool.eraseIdx answer.pooled }.setThread w
          ({ s.thread w with todo }.addValue fieldKey b.slice))) := by
  unfold runStep buildValue
  dsimp only
  rw [htodo]
  dsimp only
  unfold buildDeterministic buildRandom
  rw [getBuffer_eq]
  cases c.dataIntegrity <;> simp only [Outcome.bind_assoc, Outcome.ret_bind, Outcome.pure_eq] <;> rfl

def Inserts (w : W) (s : Bench W) (_ : Label W) : Prop := ∃ i todo, (s.thread w).todo = .insert i :: todo

theorem exists_step_insert {i : Nat} {todo : List Instr} (htodo : (s.thread w).todo = .insert i :: todo)
    (answer : Answer)
    : ∃ t, s.step P c (.step w answer) = some t ∧ (t.thread w).todo = returnAfter answer.stop todo := by
  refine ⟨s.writeRecord w answer i todo, ?_, ?_⟩
  . simp only [step, runStep, htodo, Outcome.toOption_ret]
  . have hthread : (s.writeRecord w answer i todo).thread w
        = { s.thread w with todo := returnAfter answer.stop todo } := by
      unfold writeRecord setThread
      dsimp only
      split <;> exact Function.update_self w _ _
    rw [hthread]

theorem run_call {r k : Nat} {rest : List Instr} {answer : Nat → Answer} {stop : Bool}
    (hstop : ∀ j, (answer j).stop = (decide (j = r + k) && stop))
    (htodo : (s.thread w).todo = (List.range' r (k + 1)).map .insert ++ rest)
    : ∃ t,
        Run (step P c) (Inserts w) s ((List.range' r (k + 1)).map (fun j => .step w (answer j))) t
          ∧
        (t.thread w).todo = returnAfter stop rest := by
  induction k generalizing r s with
  | zero =>
    rcases exists_step_insert (P := P) (c := c) htodo (answer r) with ⟨t, hstep, ht⟩
    refine ⟨t, Run.nil.cons ⟨r, rest, htodo⟩ hstep, ?_⟩
    rw [ht, hstop]
    simp
  | succ k ih =>
    rw [List.range'_succ, List.map_cons] at htodo
    rcases exists_step_insert (P := P) (c := c) htodo (answer r) with ⟨t, hstep, ht⟩
    have hgoes : (answer r).stop = false := by
      rw [hstop]
      simp
    rw [hgoes] at ht
    rcases ih (s := t) (r := r + 1) (fun j => by rw [hstop, Nat.add_right_comm, Nat.add_assoc]) ht with ⟨u, hrun, hu⟩
    refine ⟨u, ?_, hu⟩
    rw [List.range'_succ, List.map_cons]
    exact hrun.cons ⟨r, _, htodo⟩ hstep

def stopped (ctxErr : Option CtxErr) (err : Option String) : Bool := err.isSome || ctxErr == some .canceled

theorem afterCall_of_stopped {limit numOfRetries : Int} {ctxErr : Option CtxErr} {err : Option String}
    (h : stopped ctxErr err = true)
    : afterCall limit numOfRetries ctxErr err = .ret err := by
  cases err with
  | some err => rfl
  | none =>
    have hctx : ctxErr = some .canceled := by simpa [stopped] using h
    rw [hctx]
    rfl

theorem afterCall_of_not_stopped {limit numOfRetries : Int} {ctxErr : Option CtxErr} {err : Option String}
    (h : stopped ctxErr err = false)
    : afterCall limit numOfRetries ctxErr err
        =
      if limit < I64.add numOfRetries 1 then .ret none else .again (I64.add numOfRetries 1) := by
  cases err with
  | some err => contradiction
  | none =>
    cases ctxErr with
    | none => rfl
    | some ctxErr =>
      cases ctxErr with
      | canceled => contradiction
      | deadlineExceeded => rfl

theorem run_of_retryLoop {k : Nat} {ctxErr : Nat → Option CtxErr} {call : Nat → Option String} {fuel i calls : Nat}
    {limit numOfRetries : Int} {err : Option String} {answer : Nat → Nat → Answer} (hlt : limit + 1 < 2 ^ 63)
    (hstop : ∀ i j, (answer i j).stop = (decide (j = k) && stopped (ctxErr i) (call i)))
    (hretries : 0 ≤ numOfRetries) (hle : numOfRetries ≤ limit)
    (htodo : (s.thread w).todo
      = (List.replicate ((limit - numOfRetries).toNat + 1) ((List.range (k + 1)).map Instr.insert)).flatten)
    (hloop : retryLoop limit ctxErr call fuel i numOfRetries = .ret (calls, err))
    : ∃ t,
        Run (step P c) (Inserts w) s
          ((List.range' i (calls - i)).flatMap (fun i => (List.range (k + 1)).map (fun j => .step w (answer i j)))) t
          ∧
        (t.thread w).todo = [] := by
  induction fuel generalizing s i numOfRetries with
  | zero => contradiction
  | succ fuel ih =>
    have hadd : I64.add numOfRetries 1 = numOfRetries + 1 := I64.add_eq (by unfold I64.InRange; omega)
    have hstop' : ∀ j, (answer i j).stop = (decide (j = 0 + k) && stopped (ctxErr i) (call i)) := by
      intro j
      rw [hstop, Nat.zero_add]
    rw [List.replicate_succ, List.flatten_cons, List.range_eq_range'] at htodo
    rcases run_call (P := P) (c := c) hstop' htodo with ⟨t, hrun, ht⟩
    rw [← List.range_eq_range'] at hrun ht
    have hlast : calls = i + 1 → (t.thread w).todo = [] →
        ∃ t,
          Run (step P c) (Inserts w) s
            ((List.range' i (calls - i)).flatMap (fun i => (List.range (k + 1)).map (fun j => .step w (answer i j)))) t
            ∧
          (t.thread w).todo = [] := by
      intro hcalls hnil
      refine ⟨t, ?_, hnil⟩
      rw [hcalls, Nat.add_sub_cancel_left, List.range'_one, List.flatMap_singleton]
      exact hrun
    unfold retryLoop at hloop
    cases hstopped : stopped (ctxErr i) (call i) with
    | true =>
      rw [afterCall_of_stopped hstopped] at hloop
      cases hloop
      rw [hstopped] at ht
      exact hlast rfl ht
    | false =>
      rw [afterCall_of_not_stopped hstopped, hadd] at hloop
      rw [hstopped] at ht
      by_cases hend : limit < numOfRetries + 1
      . have hzero : (limit - numOfRetries).toNat = 0 := by omega
        rw [if_pos hend] at hloop
        cases hloop
        rw [hzero] at ht
        exact hlast rfl ht
      . have hsucc : (limit - numOfRetries).toNat = (limit - (numOfRetries + 1)).toNat + 1 := by omega
        rw [if_neg hend] at hloop
        rw [hsucc] at ht
        rcases ih (by omega) (by omega) ht hloop with ⟨u, hrun', hu⟩
        have hgt := lt_of_retryLoop hloop
        have hrange : List.range' i (calls - i) = i :: List.range' (i + 1) (calls - (i + 1)) := by
          rw [← List.range'_succ]
          congr 1
          omega
        refine ⟨u, ?_, hu⟩
        rw [hrange, List.flatMap_cons]
        exact hrun.trans hrun'

/-- `DoInsert` calls the database as often in both models. -/
theorem run_doInsert {ctxErr : Nat → Option CtxErr} {call : Nat → Option String} {fuel : Nat} {builds : Nat → Build}
    {insertion : Insertion} {answer : Nat → Nat → Answer} (hlimit : 0 ≤ c.insertionRetryLimit)
    (hlt : c.insertionRetryLimit + 1 < 2 ^ 63)
    (hstop : ∀ i j, (answer i j).stop = (decide (j = 0) && stopped (ctxErr i) (call i)))
    (htodo : (s.thread w).todo = List.replicate (attempts c) (.insert 0))
    (hinsert : Load.doInsert P c ctxErr call fuel builds = .ret insertion)
    : ∃ t,
        Run (step P c) (Inserts w) s ((List.range insertion.calls).map (fun i => .step w (answer i 0))) t
          ∧
        (t.thread w).todo = [] := by
  rcases Outcome.bind_eq_ret hinsert with ⟨values, _, hrest⟩
  rcases Outcome.bind_eq_ret hrest with ⟨⟨calls, err⟩, hloop, hres⟩
  cases hres
  have hprogram : (s.thread w).todo
      = (List.replicate ((c.insertionRetryLimit - 0).toNat + 1) ((List.range (0 + 1)).map Instr.insert)).flatten := by
    rw [htodo, Int.sub_zero]
    simp [attempts]
  have hrun := run_of_retryLoop (P := P) (c := c) hlt hstop (Int.le_refl 0) hlimit hprogram hloop
  rw [Nat.sub_zero, ← List.range_eq_range'] at hrun
  rw [List.map_eq_flatMap]
  exact hrun

theorem length_takeRecords {builds : Nat → Nat → Build} {n i : Nat} {keySequence : Counter}
    {res : List (Int × Values) × Counter} (h : takeRecords P c builds n i keySequence = .ret res)
    : res.1.length = n := by
  induction n generalizing i keySequence res with
  | zero =>
    cases h
    rfl
  | succ n ih =>
    rcases Outcome.bind_eq_ret h with ⟨values, _, hrest⟩
    rcases Outcome.bind_eq_ret hrest with ⟨res', hrecords, hres⟩
    cases hres
    rw [List.length_cons, ih hrecords]

/-- And so does `DoBatchInsert`, for a batch that is not empty. -/
theorem run_doBatchInsert {ctxErr : Nat → Option CtxErr} {call : Nat → Option String} {fuel k : Nat}
    {builds : Nat → Nat → Build} {insertion : Insertion} {answer : Nat → Nat → Answer}
    (hlimit : 0 ≤ c.insertionRetryLimit) (hlt : c.insertionRetryLimit + 1 < 2 ^ 63)
    (hstop : ∀ i j, (answer i j).stop = (decide (j = k) && stopped (ctxErr i) (call i)))
    (hinsert : Load.doBatchInsert P c ctxErr call fuel builds none (k + 1 : Nat) = .ret insertion)
    (htodo : (s.thread w).todo
      = (List.replicate (attempts c) ((List.range insertion.keyNums.length).map Instr.insert)).flatten)
    : ∃ t,
        Run (step P c) (Inserts w) s
          ((List.range insertion.calls).flatMap (fun i =>
            (List.range insertion.keyNums.length).map (fun j => .step w (answer i j)))) t
          ∧
        (t.thread w).todo = [] := by
  rcases Outcome.bind_eq_ret hinsert with ⟨records, hrecords, hrest⟩
  rcases Outcome.bind_eq_ret hrest with ⟨⟨calls, err⟩, hloop, hres⟩
  cases hres
  have hlength : (records.1.map Prod.fst).length = k + 1 := by
    rw [List.length_map, length_takeRecords hrecords, Int.toNat_natCast]
  dsimp only at htodo ⊢
  rw [hlength] at htodo ⊢
  have hprogram : (s.thread w).todo
      = (List.replicate ((c.insertionRetryLimit - 0).toNat + 1) ((List.range (k + 1)).map Instr.insert)).flatten := by
    rw [htodo, Int.sub_zero]
    rfl
  have hrun := run_of_retryLoop (P := P) (c := c) hlt hstop (Int.le_refl 0) hlimit hprogram hloop
  rw [Nat.sub_zero, ← List.range_eq_range'] at hrun
  exact hrun

end Bench
