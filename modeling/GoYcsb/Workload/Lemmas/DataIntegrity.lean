import GoYcsb.Workload.Lemmas.Bench
import GoYcsb.Workload.Lemmas.Create
import GoYcsb.Workload.Lemmas.Transaction

/-!
This module contains the verification of the data integrity check of the core workload over the runs of
`GoYcsb.Workload.Impl.Bench`.
-/

namespace Store

def RowIntact (limit : Nat) (size : Int) (key : Bytes) (row : Row) : Prop :=
  ∀ field v, row field = some v → IsValue limit size key field v

def Intact (limit : Nat) (size : Int) (store : Store) : Prop :=
  ∀ key row, store key = some row → RowIntact limit size key row

variable {limit : Nat} {size : Int} {key : Bytes}

theorem RowIntact.overlay {row : Row} {values : List (Bytes × Bytes)} (h : RowIntact limit size key row)
    (hvalues : ∀ value ∈ values, IsValue limit size key value.1 value.2)
    : RowIntact limit size key (Store.overlay row values) := by
  induction values generalizing row with
  | nil => assumption
  | cons value values ih =>
    rw [List.forall_mem_cons] at hvalues
    apply ih _ hvalues.2
    intro field v hv
    dsimp only at hv
    by_cases hfield : field = value.1
    . subst hfield
      rw [Function.update_self, Option.some.injEq] at hv
      rw [← hv]
      apply hvalues.1
    . rw [Function.update_of_ne hfield] at hv
      apply h field v hv

theorem Intact.update {store : Store} {row : Row} (h : Intact limit size store) (hrow : RowIntact limit size key row)
    : Intact limit size (Function.update store key (some row)) := by
  intro key' row' hrow'
  by_cases hkey : key' = key
  . subst hkey
    rw [Function.update_self, Option.some.injEq] at hrow'
    rwa [← hrow']
  . rw [Function.update_of_ne hkey] at hrow'
    apply h key' row' hrow'

theorem Intact.write {store : Store} {values : List (Bytes × Bytes)} (h : Intact limit size store)
    (mode : WriteMode) (hvalues : ∀ value ∈ values, IsValue limit size key value.1 value.2)
    : Intact limit size (store.write mode key values) := by
  have hempty : RowIntact limit size key (fun _ => none) := by
    intro field v hv
    contradiction
  cases mode with
  | overlay =>
    apply h.update
    apply RowIntact.overlay _ hvalues
    cases hrow : store key with
    | none => assumption
    | some row => apply h key row hrow
  | replace =>
    apply h.update
    apply hempty.overlay hvalues
  | leave => assumption

theorem Intact.read {store : Store} {fields : List Bytes} {names : List (Bytes × Bytes)}
    {value : Bytes × Bytes} (h : Intact limit size store) (hvalue : value ∈ store.read key fields names)
    : IsValue limit size key value.1 value.2 := by
  rcases List.mem_filterMap.mp hvalue with ⟨name, _, hname⟩
  split at hname
  . next hcond =>
    split at hname
    . next row hrow =>
      rcases Option.map_eq_some_iff.mp hname with ⟨v, hv, heq⟩
      subst heq
      apply IsValue.toLower _ hcond.2
      apply h key row hrow name.1 v hv
    . contradiction
  . contradiction

end Store

-- Every value that was built is the one of its key and field, and so is every value that was read,
-- since the steps to come verify it against the key it was read with.
structure Thread.Intact (limit : Nat) (size : Int) (m : Memory) (t : Thread) : Prop where
  built : ∀ record ∈ t.records, ∀ value ∈ record.values, IsValue limit size record.key value.1 (m.content value.2)
  read : ∃ key, RowKey key t.todo ∧ ∀ value ∈ t.readValues, IsValue limit size key value.1 value.2

theorem Thread.Intact.frame {limit : Nat} {size : Int} {m m' : Memory} {t : Thread} (h : t.Intact limit size m)
    (hframe : ∀ b ∈ t.slices, m'.content b = m.content b)
    : t.Intact limit size m' where
  built := by
    intro record hrecord value hvalue
    rw [hframe value.2 (mem_slices hrecord hvalue)]
    apply h.built record hrecord value hvalue
  read := h.read

theorem Thread.Intact.subset {limit : Nat} {size : Int} {m : Memory} {t : Thread} {todo : List Instr}
    (h : t.Intact limit size m) (hsub : todo ⊆ t.todo)
    : Thread.Intact limit size m { t with todo } where
  built := h.built
  read := by
    rcases h.read with ⟨key, hkey, hvalues⟩
    exact ⟨key, hkey.subset hsub, hvalues⟩

theorem Thread.intact_idle (limit : Nat) (size : Int) (m : Memory) : Thread.idle.Intact limit size m where
  built := by simp [Thread.idle]
  read := ⟨[], by simp [Thread.idle], by simp [Thread.idle]⟩

namespace Bench

variable {W : Type}

structure Intact (limit : Nat) (size : Int) (s : Bench W) : Prop where
  bounded : s.memory.limit = limit
  separate : s.memory.Separate s.own
  store : s.store.Intact limit size
  thread : ∀ w, (s.thread w).Intact limit size s.memory

theorem intact_new (limit : Nat) (size : Int) : (new limit : Bench W).Intact limit size where
  bounded := rfl
  separate :=
    {
      valid := by
        intro o b hb
        cases o <;> simp [own, new, Thread.slices, Thread.idle] at hb
      nodup := by
        intro o
        cases o <;> simp [own, new, Thread.slices, Thread.idle]
      disjoint := by
        intro o o' b hb
        cases o <;> simp [own, new, Thread.slices, Thread.idle] at hb
    }
  store := by
    intro key row hrow
    contradiction
  thread := by
    intro w
    apply Thread.intact_idle

theorem Takes.intact {limit : Nat} {size : Int} {s s' : Bench W} {a : Nat} (h : Takes s s' a) (hs : s.Intact limit size)
    : s'.Intact limit size where
  bounded := h.limit.trans hs.bounded
  separate := h.separate
  store := by
    rw [h.store]
    apply hs.store
  thread := by
    intro w
    rw [h.thread]
    apply (hs.thread w).frame (h.frame w)

variable [DecidableEq W] {limit : Nat} {size : Int} {s : Bench W} {w : W} {t : Thread}

theorem Intact.setThread (h : s.Intact limit size) (hsep : s.memory.Separate (Function.update s.own (some w) t.slices))
    (ht : t.Intact limit size s.memory)
    : (s.setThread w t).Intact limit size where
  bounded := h.bounded
  separate := by
    rwa [own_setThread]
  store := h.store
  thread := by
    intro w'
    by_cases hw : w' = w
    . subst hw
      simpa [Bench.setThread] using ht
    . simpa [Bench.setThread, hw] using h.thread w'

theorem Intact.setThread_of_slices (h : s.Intact limit size) (hslices : t.slices = (s.thread w).slices)
    (ht : t.Intact limit size s.memory)
    : (s.setThread w t).Intact limit size := by
  apply h.setThread _ ht
  have hsame : Function.update s.own (some w) t.slices = s.own := by
    rw [hslices]
    apply Function.update_eq_self (some w) s.own
  rw [hsame]
  apply h.separate

theorem Intact.setTodo {todo : List Instr} (h : s.Intact limit size) (hsub : todo ⊆ (s.thread w).todo)
    : (s.setThread w { s.thread w with todo }).Intact limit size := by
  apply h.setThread_of_slices
  . rfl
  . apply (h.thread w).subset hsub

theorem Intact.putValues (h : s.Intact limit size)
    : ({ s with pool := (s.thread w).slices ++ s.pool }.setThread w .idle).Intact limit size where
  bounded := h.bounded
  separate := by
    rw [own_setThread, own_pool]
    apply h.separate.move (Option.some_ne_none w)
  store := h.store
  thread := by
    intro w'
    by_cases hw : w' = w
    . subst hw
      simpa [Bench.setThread] using Thread.intact_idle limit size s.memory
    . simpa [Bench.setThread, hw] using h.thread w'

theorem Intact.record {key : Bytes} {todo : List Instr} (h : s.Intact limit size)
    (hsub : todo ⊆ (s.thread w).todo)
    : (s.setThread w { s.thread w with todo, records := (s.thread w).records ++ [⟨key, []⟩] }).Intact limit size := by
  have ht := (h.thread w).subset hsub
  apply h.setThread_of_slices
  . simp [Thread.slices]
  . refine
      {
        built := ?_
        read := ht.read
      }
    intro record hrecord value hvalue
    dsimp only at hrecord
    rw [List.mem_append, List.mem_singleton] at hrecord
    cases hrecord with
    | inl hrecord => apply ht.built record hrecord value hvalue
    | inr hrecord =>
      subst hrecord
      simp at hvalue

theorem Intact.addValue {fieldKey : Bytes} {buf : Slice} (h : s.Intact limit size) (hvalid : s.memory.Valid buf)
    (hunowned : Memory.Unowned s.own buf.array)
    (ht : t.Intact limit size s.memory) (hslices : t.slices = (s.thread w).slices)
    (hvalue : IsValue limit size ((t.records.getLast?.map Record.key).getD []) fieldKey (s.memory.content buf))
    : (s.setThread w (t.addValue fieldKey buf)).Intact limit size := by
  cases hlast : t.records.getLast? with
  | none =>
    unfold Thread.addValue
    rw [hlast]
    apply h.setThread_of_slices hslices ht
  | some record =>
    rw [hlast] at hvalue
    apply h.setThread
    . rw [Thread.slices_addValue hlast, hslices]
      apply h.separate.give hvalid hunowned
    . unfold Thread.addValue
      rw [hlast]
      refine
        {
          built := ?_
          read := ht.read
        }
      have hmem := List.mem_of_getLast? hlast
      intro record' hrecord' value hin
      dsimp only at hrecord'
      rw [List.mem_append, List.mem_singleton] at hrecord'
      cases hrecord' with
      | inl hold => apply ht.built record' (List.mem_of_mem_dropLast hold) value hin
      | inr hnew =>
        subst hnew
        rw [List.mem_append, List.mem_singleton] at hin
        cases hin with
        | inl hin => apply ht.built record hmem value hin
        | inr hin =>
          subst hin
          assumption

theorem returnAfter_subset (stop : Bool) (todo : List Instr) : returnAfter stop todo ⊆ todo := by
  unfold returnAfter
  split
  . apply List.nil_subset
  . apply List.Subset.refl

theorem Intact.read {answer : Answer} {key : Bytes} {fields : List Bytes} {todo : List Instr}
    (h : s.Intact limit size) (htodo : (s.thread w).todo = .read key fields :: todo)
    : (s.setThread w { s.thread w with todo := returnAfter answer.stop todo,
                                       readValues := s.store.read key fields answer.names }).Intact limit size := by
  apply h.setThread_of_slices
  . rfl
  . rcases (h.thread w).read with ⟨key', hkey', _⟩
    rw [htodo, rowKey_cons] at hkey'
    refine
      {
        built := (h.thread w).built
        read := ⟨key', hkey'.2.subset (returnAfter_subset _ _), ?_⟩
      }
    rw [← hkey'.1 key rfl]
    intro value hvalue
    apply h.store.read hvalue

theorem Intact.writeRecord {answer : Answer} {i : Nat} {todo : List Instr} (h : s.Intact limit size)
    (hsub : todo ⊆ (s.thread w).todo)
    : (s.writeRecord w answer i todo).Intact limit size := by
  have hset : (s.setThread w { s.thread w with todo := returnAfter answer.stop todo }).Intact limit size := by
    apply h.setTodo
    apply List.Subset.trans (returnAfter_subset _ _) hsub
  unfold Bench.writeRecord
  dsimp only
  split
  . next record hrecord =>
    refine
      {
        bounded := hset.bounded
        separate := hset.separate
        store := ?_
        thread := hset.thread
      }
    apply hset.store.write
    intro value hvalue
    rcases List.mem_map.mp hvalue with ⟨value', hvalue', heq⟩
    subst heq
    apply (h.thread w).built record (List.mem_of_getElem? hrecord) value' hvalue'
  . assumption

section

variable (P : Platform) {c : Core} (hconstant : c.fieldLengthGenerator = .constant ⟨size⟩) (hsize : 0 ≤ size)
  (hlt : size < 2 ^ 63)

include hconstant hsize hlt

theorem Intact.build_cases {key : Bytes} {todo : List Instr} (h : s.Intact limit size) (answer : Answer)
    (fieldKey : Bytes) (hsub : todo ⊆ (s.thread w).todo)
    (hkey : key = ((s.thread w).records.getLast?.map Record.key).getD [])
    : (s.buildDeterministic P c answer key fieldKey).Panics
        ∨
      ∃ s' buf,
        s.buildDeterministic P c answer key fieldKey = .ret (s', buf)
          ∧
        (s'.setThread w ({ s.thread w with todo }.addValue fieldKey buf)).Intact limit size := by
  rcases buildDeterministic_cases P answer key fieldKey hconstant hsize hlt h.separate with
    hpanics | ⟨s', buf, hbuild, htakes, hvalid, hvalue⟩
  . left
    assumption
  . right
    have hs' := htakes.intact h
    rw [h.bounded] at hvalue
    refine ⟨s', buf, hbuild, ?_⟩
    apply hs'.addValue hvalid htakes.unowned
    . rw [← htakes.thread]
      apply (hs'.thread w).subset
      rwa [htakes.thread]
    . rw [htakes.thread]
      rfl
    . rwa [← hkey]

theorem Intact.verify_cases {key fieldKey value : Bytes} {todo : List Instr}
    {readValues : List (Bytes × Bytes)} (h : s.Intact limit size) (answer : Answer)
    (htodo : (s.thread w).todo = .verify key :: todo)
    (hread : (s.thread w).readValues = (fieldKey, value) :: readValues)
    : (s.buildDeterministic P c answer key fieldKey).Panics
        ∨
      ∃ s' buf,
        s.buildDeterministic P c answer key fieldKey = .ret (s', buf)
          ∧
        s'.memory.content buf = value
          ∧
        (s'.setThread w { s.thread w with readValues }).Intact limit size := by
  rcases (h.thread w).read with ⟨key', hkey', hvalues⟩
  have hkey : key = key' := by
    rw [htodo, rowKey_cons] at hkey'
    apply hkey'.1 key rfl
  subst hkey
  rw [hread, List.forall_mem_cons] at hvalues
  rcases buildDeterministic_cases P answer key fieldKey hconstant hsize hlt h.separate with
    hpanics | ⟨s', buf, hbuild, htakes, hvalid, hvalue⟩
  . left
    assumption
  . right
    have hs' := htakes.intact h
    rw [h.bounded] at hvalue
    refine ⟨s', buf, hbuild, hvalue.value.trans hvalues.1.value.symm, ?_⟩
    apply hs'.setThread_of_slices
    . rw [htakes.thread]
      rfl
    . have hbuilt := (hs'.thread w).built
      rw [htakes.thread] at hbuilt
      exact { built := hbuilt, read := ⟨key, hkey', hvalues.2⟩ }

theorem Intact.runStep_cases (hintegrity : c.dataIntegrity = true) (h : s.Intact limit size) (w : W)
    (answer : Answer)
    : (s.runStep P c w answer).Panics ∨ ∃ t, s.runStep P c w answer = .ret t ∧ t.Intact limit size := by
  have htail {instr : Instr} {todo : List Instr} (htodo : (s.thread w).todo = instr :: todo)
      : todo ⊆ (s.thread w).todo := by
    rw [htodo]
    apply List.subset_cons_self
  have hreturn {instr : Instr} {todo : List Instr} (htodo : (s.thread w).todo = instr :: todo)
      : returnAfter answer.stop todo ⊆ (s.thread w).todo :=
    List.Subset.trans (returnAfter_subset _ _) (htail htodo)
  unfold runStep
  dsimp only
  split
  . right
    exact ⟨_, rfl, h.putValues⟩
  . next key todo htodo =>
    right
    exact ⟨_, rfl, h.record (htail htodo)⟩
  . next fieldKey todo htodo =>
    rw [if_pos hintegrity]
    rcases h.build_cases P hconstant hsize hlt answer fieldKey (htail htodo) rfl with
      hpanics | ⟨s', buf, hbuild, hintact⟩
    . left
      apply hpanics.bind
    . right
      rw [hbuild]
      exact ⟨_, rfl, hintact⟩
  . next key fields todo htodo =>
    right
    exact ⟨_, rfl, h.read htodo⟩
  . next todo htodo =>
    right
    exact ⟨_, rfl, h.setTodo (hreturn htodo)⟩
  . next todo htodo =>
    right
    exact ⟨_, rfl, h.setTodo (hreturn htodo)⟩
  . next i todo htodo =>
    right
    exact ⟨_, rfl, h.writeRecord (htail htodo)⟩
  . next i todo htodo =>
    right
    exact ⟨_, rfl, h.writeRecord (htail htodo)⟩
  . next key todo htodo =>
    split
    . right
      exact ⟨_, rfl, h.setTodo (htail htodo)⟩
    . next fieldKey value readValues hread =>
      rcases h.verify_cases P hconstant hsize hlt answer htodo hread with
        hpanics | ⟨s', buf, hbuild, hvalue, hintact⟩
      . left
        apply hpanics.bind
      . right
        rw [hbuild, Outcome.ret_bind]
        dsimp only
        rw [if_neg (by simpa using hvalue)]
        exact ⟨_, rfl, hintact⟩

theorem Intact.step {s' : Bench W} {label : Label W} (hintegrity : c.dataIntegrity = true)
    (h : s.Intact limit size) (hstep : s.step P c label = some s')
    : s'.Intact limit size := by
  cases label with
  | call w call =>
    simp only [Bench.step] at hstep
    split at hstep
    . next hidle =>
      rcases Option.map_eq_some_iff.mp hstep with ⟨todo, htodo, heq⟩
      subst heq
      rcases exists_rowKey_callProgram (Outcome.toOption_eq_some.mp htodo) with ⟨key, hkey⟩
      apply h.setThread_of_slices
      . rw [hidle]
        rfl
      . exact { built := by simp [Thread.idle], read := ⟨key, hkey, by simp [Thread.idle]⟩ }
    . contradiction
  | step w answer =>
    simp only [Bench.step, Outcome.toOption_eq_some] at hstep
    rcases h.runStep_cases P hconstant hsize hlt hintegrity w answer with ⟨msg, hmsg⟩ | ⟨t, ht, hintact⟩
    . rw [hmsg] at hstep
      contradiction
    . rw [ht, Outcome.ret.injEq] at hstep
      rwa [← hstep]

end

theorem stored_values_intact_and_verifyRow_never_exits {P : Platform}
    {readHistogram : String → Outcome Generator.Histogram} {p : Properties} {c : Core}
    (hcreate : create P readHistogram p = .ret c) (hintegrity : p.getDataIntegrity = true)
    (hlength : 0 ≤ p.getFieldLength) {limit : Nat} {labels : List (Label W)} {s : Bench W}
    (hrun : Run (Bench.step P c) (fun _ _ => True) (Bench.new limit) labels s)
    : (∀ key row field v, s.store key = some row → row field = some v →
        v = deterministicValue p.getFieldLength.toNat key field
          ∧
        ∀ slack m buf, Memory.Valid m buf → m.limit = limit →
          Buffer.Grows limit slack (p.getFieldLength + 21).toNat (textLength key field.toLower) →
            ∃ b, buildDeterministicValue slack m buf p.getFieldLength key field = .ret b ∧ b.bytes = v)
        ∧
      ∀ w answer msg, s.runStep P c w answer ≠ .exit msg := by
  have hcreated := created_of_create hcreate
  have hintegrity' : c.dataIntegrity = true := hcreated.dataIntegrity.trans hintegrity
  have hconstant := hcreated.constant hintegrity
  have hlt := p.getFieldLength_lt
  have hintact : s.Intact limit p.getFieldLength := by
    apply hrun.invariant (intact_new limit p.getFieldLength)
    intro s label t hs _ hstep
    apply hs.step P hconstant hlength hlt hintegrity' hstep
  constructor
  . intro key row field v hrow hv
    have hvalue := hintact.store key row hrow field v hv
    refine ⟨hvalue.value, ?_⟩
    intro slack m buf hvalid hlimit hgrows
    subst hlimit
    rw [hvalue.value]
    exact buildDeterministicValueWith_of_grows Bytes.toLower slack key field hvalid hlength hvalue.range hvalue.limit
      hgrows
  . intro w answer msg hexit
    rcases hintact.runStep_cases P hconstant hlength hlt hintegrity' w answer with ⟨_, h⟩ | ⟨_, h, _⟩
    . rw [h] at hexit
      contradiction
    . rw [h] at hexit
      contradiction

def integrityProperties : Properties where
  fieldCount := some ⟨1, by decide⟩
  fieldLength := some ⟨20, by decide⟩
  dataIntegrity := some true
  insertOrder := some "ordered"

def overlayAnswer : Answer where
  pooled := 0
  slack := fun _ => 0
  draw := ⟨0, 0, 0⟩
  random := fun _ => 0
  mode := .overlay
  names := [(Bytes.ofAscii "field0", Bytes.ofAscii "FIELD0")]
  stop := false

-- One worker inserts a record, the other one reads it in upper case and verifies it in the buffer of
-- the first one.
def insertThenRead : List (Label Bool) :=
  .call false (.doInsert 7) :: List.replicate 4 (.step false overlayAnswer)
    ++ .call true (.doTransaction .read ⟨7, ⟨0, 0, 0⟩, ⟨0, 0, 0⟩⟩)
    :: List.replicate 2 (.step true overlayAnswer)

theorem stored_values_intact_and_verifyRow_never_exits_insertThenRead
    : ∃ (c : Core) (s : Bench Bool),
        create .exactAmd64 (fun _ => .running) integrityProperties = .ret c
          ∧
        Run (Bench.step .exactAmd64 c) (fun _ _ => True) (Bench.new 41) insertThenRead s
          ∧
        (s.thread true).todo = [.verify (Bytes.ofAscii "user7")]
          ∧
        (s.store (Bytes.ofAscii "user7")).bind (fun row => row (Bytes.ofAscii "field0"))
          = some (Bytes.ofAscii "user7:field0:9498907")
          ∧
        (∀ slack m buf, Memory.Valid m buf → m.limit = 41 →
          ∃ b,
            buildDeterministicValue slack m buf 20 (Bytes.ofAscii "user7") (Bytes.ofAscii "field0") = .ret b
              ∧
            b.bytes = Bytes.ofAscii "user7:field0:9498907")
          ∧
        ∀ w answer msg, s.runStep .exactAmd64 c w answer ≠ .exit msg := by
  have hcreate : (create .exactAmd64 (fun _ => .running) integrityProperties).toOption.any (fun c =>
      (Run.exec (Bench.step .exactAmd64 c) (fun _ _ => True) (Bench.new 41) insertThenRead).any (fun s =>
        (s.thread true).todo = [.verify (Bytes.ofAscii "user7")]
          && (s.store (Bytes.ofAscii "user7")).bind (fun row => row (Bytes.ofAscii "field0"))
            = some (Bytes.ofAscii "user7:field0:9498907"))) := by
    decide +kernel
  rcases Outcome.exists_of_any _ hcreate with ⟨c, hc, hexec⟩
  rcases Run.exists_of_exec _ hexec with ⟨s, hrun, hp⟩
  simp only [Bool.and_eq_true, decide_eq_true_eq] at hp
  have hintact := stored_values_intact_and_verifyRow_never_exits hc (by decide) (by decide) hrun
  refine ⟨c, s, hc, hrun, hp.1, hp.2, ?_, hintact.2⟩
  rcases Option.bind_eq_some_iff.mp hp.2 with ⟨row, hrow, hv⟩
  intro slack m buf hvalid hlimit
  apply (hintact.1 _ row _ _ hrow hv).2 slack m buf hvalid hlimit
  intro len hgt hle
  have htext : textLength (Bytes.ofAscii "user7") (Bytes.ofAscii "field0").toLower = 12 := by decide
  have hlength : (integrityProperties.getFieldLength + 21).toNat = 41 := by decide
  omega

end Bench
