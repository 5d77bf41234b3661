import GoYcsb.Util.Lemmas.RowCodec
import GoYcsb.Workload.Impl.Bench
import GoYcsb.Workload.Lemmas.Create

/-!
This module contains the fields of the records that the operations of `GoYcsb.Workload.Impl.Transaction`
insert. A record is the list of the names of its fields here, the values are left out.
-/

def Instr.addFields (records : List (List Bytes)) (instr : Instr) : List (List Bytes) :=
  match instr with
  | .record _ => records ++ [[]]
  | .build fieldKey =>
    match records.getLast? with
    | some fields => records.dropLast ++ [fields ++ [fieldKey]]
    | none => records
  | _ => records

def HasFields (fieldCount : Int) (fields : List Bytes) : Prop := ∀ i : Nat, i < fieldCount → fieldName i ∈ fields

def InsertsComplete (fieldCount : Int) (records : List (List Bytes)) (todo : List Instr) : Prop :=
  match todo with
  | [] => True
  | instr :: todo =>
    (∀ i, instr = .insert i → ∃ fields, records[i]? = some fields ∧ HasFields fieldCount fields)
      ∧
    InsertsComplete fieldCount (instr.addFields records) todo

def CallInsertsComplete (P : Platform) (c : Core) (fieldCount : Int) (call : WorkloadCall) : Prop :=
  ∃ todo, callProgram P c call = .ret todo ∧ InsertsComplete fieldCount [] todo

section

variable {fieldCount : Int} {records : List (List Bytes)} {todo : List Instr}

@[simp]
theorem insertsComplete_nil : InsertsComplete fieldCount records [] := by
  simp [InsertsComplete]

theorem insertsComplete_build (fields fieldKeys : List Bytes)
    : InsertsComplete fieldCount (records ++ [fields]) (fieldKeys.map .build ++ todo)
        ↔
      InsertsComplete fieldCount (records ++ [fields ++ fieldKeys]) todo := by
  induction fieldKeys generalizing fields with
  | nil => simp
  | cons fieldKey fieldKeys ih =>
    simp only [List.map_cons, List.cons_append, InsertsComplete, Instr.addFields]
    simp [ih]

theorem insertsComplete_record (key : Bytes) (fieldKeys : List Bytes)
    : InsertsComplete fieldCount records (.record key :: (fieldKeys.map .build ++ todo))
        ↔
      InsertsComplete fieldCount (records ++ [fieldKeys]) todo := by
  simp [InsertsComplete, Instr.addFields, insertsComplete_build]

theorem insertsComplete_insert (is : List Nat)
    : InsertsComplete fieldCount records (is.map .insert)
        ↔
      ∀ i ∈ is, ∃ fields, records[i]? = some fields ∧ HasFields fieldCount fields := by
  induction is with
  | nil => simp
  | cons i is ih => simp [InsertsComplete, Instr.addFields, ih]

theorem insertsComplete_all
    : InsertsComplete fieldCount records ((List.range records.length).map .insert)
        ↔
      ∀ fields ∈ records, HasFields fieldCount fields := by
  rw [insertsComplete_insert]
  constructor
  . intro h fields hmem
    rcases List.getElem_of_mem hmem with ⟨i, hi, hfields⟩
    rcases h i (by simpa using hi) with ⟨fields', hfields', hhas⟩
    simp_all
  . intro h i hi
    rw [List.mem_range] at hi
    apply Exists.intro records[i]
    simp [hi, h]

end

section

variable {P : Platform} {readHistogram : String → Outcome Generator.Histogram} {p : Properties} {c : Core}

theorem fieldNames_of_create (h : create P readHistogram p = .ret c)
    : 0 ≤ p.getFieldCount ∧ c.fieldNames = (List.range p.getFieldCount.toNat).map fieldName := by
  have hnames := (created_of_create h).fieldNames
  unfold makeFieldNames at hnames
  split at hnames
  . simp at hnames
  . next hnonneg =>
    rw [Outcome.ret.injEq] at hnames
    simp [← hnames]
    omega

theorem hasFields_fieldNames (h : create P readHistogram p = .ret c)
    : HasFields p.getFieldCount c.fieldNames := by
  rcases fieldNames_of_create h with ⟨hnonneg, hnames⟩
  intro i hi
  rw [hnames]
  apply List.mem_map_of_mem
  rw [List.mem_range]
  omega

theorem fieldChooser_next (h : create P readHistogram p = .ret c) (d : Draw)
    : c.fieldChooser.next P 0 d
        =
      if p.getFieldCount = 0 then
        .panic "invalid argument to Int63n"
      else
        .ret (d.int63 % p.getFieldCount, c.fieldChooser) := by
  rcases fieldNames_of_create h with ⟨hnonneg, _⟩
  have hlt := p.getFieldCount_lt
  have hinterval : (Generator.Uniform.new 0 (I64.sub p.getFieldCount 1)).interval = p.getFieldCount := by
    have hsub : I64.sub p.getFieldCount 1 = p.getFieldCount - 1 := I64.sub_eq (by grind [I64.InRange])
    simp only [Generator.Uniform.new, hsub]
    rw [I64.sub_eq, I64.add_eq]
    all_goals grind [I64.InRange]
  simp only [(copied_of_create h).fieldChooser, Generator.next, Generator.Uniform.next, hinterval, Draw.int63n]
  split
  . rw [if_pos (by omega)]
    simp
  . have hmod : (d.int63 : Int) % p.getFieldCount < p.getFieldCount := Int.emod_lt_of_pos _ (by omega)
    have hpos : 0 ≤ (d.int63 : Int) % p.getFieldCount := Int.emod_nonneg _ (by omega)
    have hadd : I64.add ((d.int63 : Int) % p.getFieldCount) 0 = d.int63 % p.getFieldCount := by
      rw [I64.add_eq]
      . simp
      . grind [I64.InRange]
    rw [if_neg (by omega)]
    simp [hadd, Generator.Uniform.new]

theorem chooseField_eq (h : create P readHistogram p = .ret c) (d : Draw)
    : chooseField P c d
        =
      if p.getFieldCount = 0 then
        .panic "invalid argument to Int63n"
      else
        .ret (fieldName (d.int63 % p.getFieldCount).toNat) := by
  rcases fieldNames_of_create h with ⟨hnonneg, hnames⟩
  unfold chooseField
  rw [fieldChooser_next h]
  split
  . simp
  . have hmod : (d.int63 : Int) % p.getFieldCount < p.getFieldCount := Int.emod_lt_of_pos _ (by omega)
    have hpos : 0 ≤ (d.int63 : Int) % p.getFieldCount := Int.emod_nonneg _ (by omega)
    simp only [Outcome.ret_bind]
    rw [if_neg (by omega), hnames, List.getElem?_map, List.getElem?_range (by omega)]
    simp

def WritesFields (P : Platform) (c : Core) (pick : Pick) (fields : List Bytes) : Prop :=
  if c.writeAllFields then
    fields = c.fieldNames
  else
    ∃ fieldKey, chooseField P c pick.writeField = .ret fieldKey ∧ fields = [fieldKey]

theorem valuesToWrite_eq_ret {pick : Pick} {values : List Instr}
    : valuesToWrite P c pick.writeField = .ret values
        ↔
      ∃ fields, values = fields.map .build ∧ WritesFields P c pick fields := by
  unfold valuesToWrite WritesFields
  split
  . simp [buildValues, eq_comm]
  . unfold buildSingleValue
    cases chooseField P c pick.writeField with
    | ret fieldKey => simp [eq_comm]
    | panic msg => simp
    | exit msg => simp
    | running => simp

theorem exists_buildRecords {fieldCount : Int} {records : List (List Bytes)} {picks : List Pick}
    {todo : List Instr}
    : (∃ built,
        buildRecords P c picks = .ret built ∧ InsertsComplete fieldCount records (built ++ todo))
        ↔
      ∃ added,
        List.Forall₂ (WritesFields P c) picks added ∧ InsertsComplete fieldCount (records ++ added) todo := by
  induction picks generalizing records with
  | nil => simp [buildRecords]
  | cons pick picks ih =>
    constructor
    . rintro ⟨built, hbuilt, hcomplete⟩
      rcases Outcome.bind_eq_ret hbuilt with ⟨values, hvalues, hbuilt⟩
      rcases Outcome.bind_eq_ret hbuilt with ⟨rest, hrest, hbuilt⟩
      rcases valuesToWrite_eq_ret.mp hvalues with ⟨fields, hfields, hwrites⟩
      cases hbuilt
      simp only [hfields, List.cons_append, List.append_assoc, insertsComplete_record] at hcomplete
      rcases ih.mp ⟨rest, hrest, hcomplete⟩ with ⟨added, hadded, hcomplete⟩
      refine ⟨fields :: added, .cons hwrites hadded, ?_⟩
      simpa using hcomplete
    . rintro ⟨added, hadded, hcomplete⟩
      cases hadded with
      | @cons _ fields _ added hwrites hadded =>
        rw [← List.singleton_append, ← List.append_assoc] at hcomplete
        rcases ih.mpr ⟨added, hadded, hcomplete⟩ with ⟨rest, hrest, hcomplete⟩
        have hvalues := valuesToWrite_eq_ret.mpr ⟨fields, rfl, hwrites⟩
        refine ⟨.record (buildKeyName c pick.keyNum) :: fields.map .build ++ rest, ?_, ?_⟩
        . simp [buildRecords, hvalues, hrest]
        . simpa [insertsComplete_record] using hcomplete

theorem doTransactionInsert_complete (h : create P readHistogram p = .ret c) (pick : Pick)
    : CallInsertsComplete P c p.getFieldCount (.doTransaction .insert pick) := by
  refine ⟨doTransactionInsert c pick, by simp [callProgram, doTransaction], ?_⟩
  simp only [doTransactionInsert, buildValues, List.cons_append, insertsComplete_record]
  simp [InsertsComplete, hasFields_fieldNames h]

theorem doBatchTransactionInsert_complete_iff {readField : Draw} {picks : List Pick}
    : CallInsertsComplete P c fieldCount (.doBatchTransaction .insert readField picks)
        ↔
      ∃ added,
        List.Forall₂ (WritesFields P c) picks added ∧ ∀ fields ∈ added, HasFields fieldCount fields := by
  have hadded {added : List (List Bytes)} (hwrites : List.Forall₂ (WritesFields P c) picks added)
      : InsertsComplete fieldCount ([] ++ added) ((List.range picks.length).map .insert)
          ↔
        ∀ fields ∈ added, HasFields fieldCount fields := by
    rw [hwrites.length_eq]
    apply insertsComplete_all
  rw [← exists_congr fun added => and_congr_right hadded, ← exists_buildRecords]
  simp only [CallInsertsComplete, callProgram, doBatchTransaction, doBatchTransactionInsert]
  cases buildRecords P c picks with
  | ret built => simp
  | panic msg => simp
  | exit msg => simp
  | running => simp

theorem hasFields_singleton {fieldCount : Int} (i : Nat) (hpos : 0 < fieldCount) (hi : i < fieldCount)
    : HasFields fieldCount [fieldName i] ↔ fieldCount = 1 := by
  constructor
  . intro h
    apply Classical.byContradiction
    intro hne
    have hzero := List.mem_singleton.mp (h 0 (by omega))
    have hone := List.mem_singleton.mp (h 1 (by omega))
    have heq := fieldName_injective (hzero.trans hone.symm)
    contradiction
  . intro h j hj
    have heq : j = i := by omega
    simp [heq]

theorem WritesFields.hasFields_iff {pick : Pick} {fields : List Bytes}
    (hcreate : create P readHistogram p = .ret c) (hwrites : WritesFields P c pick fields)
    : HasFields p.getFieldCount fields ↔ c.writeAllFields = true ∨ p.getFieldCount = 1 := by
  unfold WritesFields at hwrites
  split at hwrites
  . next hall =>
    rw [hwrites]
    simp [hall, hasFields_fieldNames hcreate]
  . next hall =>
    rcases hwrites with ⟨fieldKey, hchoose, hfields⟩
    rcases fieldNames_of_create hcreate with ⟨hnonneg, _⟩
    rw [chooseField_eq hcreate] at hchoose
    split at hchoose
    . simp at hchoose
    . next hne =>
      have hpos : 0 ≤ (pick.writeField.int63 : Int) % p.getFieldCount := Int.emod_nonneg _ hne
      have hmod := Int.emod_lt_of_pos (pick.writeField.int63 : Int) (b := p.getFieldCount) (by omega)
      rw [Outcome.ret.injEq] at hchoose
      rw [hfields, ← hchoose, hasFields_singleton]
      . simp [hall]
      . omega
      . omega

theorem exists_writesFields_iff (hcreate : create P readHistogram p = .ret c) (pick : Pick)
    : (∃ fields, WritesFields P c pick fields) ↔ c.writeAllFields = true ∨ p.getFieldCount ≠ 0 := by
  unfold WritesFields
  split
  . next hall => simp [hall]
  . next hall =>
    rw [chooseField_eq hcreate]
    split
    . next hzero => simp [hall, hzero]
    . next hne => simp [hne]

theorem exists_complete (hcreate : create P readHistogram p = .ret c)
    (h : c.writeAllFields = true ∨ p.getFieldCount = 1) (picks : List Pick)
    : ∃ added,
        List.Forall₂ (WritesFields P c) picks added ∧ ∀ fields ∈ added, HasFields p.getFieldCount fields := by
  have hwrites (pick : Pick) : ∃ fields, WritesFields P c pick fields := by
    rw [exists_writesFields_iff hcreate]
    cases h with
    | inl hall => simp [hall]
    | inr hone => simp [hone]
  choose fields hfields using hwrites
  refine ⟨picks.map fields, ?_, ?_⟩
  . simp [List.forall₂_map_right_iff, List.forall₂_same, hfields]
  . simp [(hfields _).hasFields_iff hcreate, h]

theorem batchInsert_complete_iff (hcreate : create P readHistogram p = .ret c) (readField : Draw)
    (picks : List Pick)
    : CallInsertsComplete P c p.getFieldCount (.doBatchTransaction .insert readField picks)
        ↔
      p.writeAllFields.getD false = true ∨ p.getFieldCount = 1 ∨ picks = [] := by
  rw [doBatchTransactionInsert_complete_iff, ← (copied_of_create hcreate).writeAllFields, ← or_assoc]
  constructor
  . rintro ⟨added, hwrites, hhas⟩
    cases hwrites with
    | nil => simp
    | cons hfields _ =>
      left
      rw [← hfields.hasFields_iff hcreate]
      apply hhas
      simp
  . intro h
    cases h with
    | inl hall => apply exists_complete hcreate hall
    | inr hnil =>
      rw [hnil]
      apply Exists.intro []
      simp

theorem insert_fields_iff (hcreate : create P readHistogram p = .ret c) (pick : Pick) (readField : Draw)
    (picks : List Pick)
    : CallInsertsComplete P c p.getFieldCount (.doTransaction .insert pick)
        ∧
      CallInsertsComplete P c p.getFieldCount (.doBatchTransaction .insert readField picks)
        ↔
      p.writeAllFields.getD false = true ∨ p.getFieldCount = 1 ∨ picks = [] := by
  rw [batchInsert_complete_iff hcreate]
  simp [doTransactionInsert_complete hcreate]

end

theorem insert_fields_writeAllFields
    : ∃ c,
        create .exactAmd64 (fun _ => .running) { writeAllFields := some true } = .ret c
          ∧
        CallInsertsComplete .exactAmd64 c 10 (.doTransaction .insert ⟨7, ⟨0, 0, 0⟩, ⟨0, 0, 0⟩⟩)
          ∧
        CallInsertsComplete .exactAmd64 c 10
          (.doBatchTransaction .insert ⟨0, 0, 0⟩ [⟨7, ⟨0, 0, 0⟩, ⟨0, 0, 0⟩⟩, ⟨8, ⟨0, 0, 0⟩, ⟨3, 0, 0⟩⟩]) := by
  rcases exists_create .exactAmd64 (fun _ => .running) (p := { writeAllFields := some true }) (by decide) rfl
    (by decide) rfl rfl with ⟨c, hc⟩
  apply Exists.intro c
  refine ⟨hc, ?_⟩
  apply (insert_fields_iff hc _ _ _).mpr
  simp

theorem batch_insert_drops_fields
    : ∃ c,
        create .exactAmd64 (fun _ => .running) {} = .ret c
          ∧
        c.fieldNames.length = 10
          ∧
        doBatchTransactionInsert .exactAmd64 c [⟨7, ⟨0, 0, 0⟩, ⟨3, 0, 0⟩⟩]
          =
        .ret [.record (buildKeyName c 7), .build (fieldName 3), .insert 0]
          ∧
        ¬ CallInsertsComplete .exactAmd64 c 10
            (.doBatchTransaction .insert ⟨0, 0, 0⟩ [⟨7, ⟨0, 0, 0⟩, ⟨3, 0, 0⟩⟩]) := by
  rcases exists_create .exactAmd64 (fun _ => .running) (p := {}) (by decide) rfl (by decide) rfl rfl with ⟨c, hc⟩
  refine ⟨c, hc, ?_, ?_, ?_⟩
  . simp [(fieldNames_of_create hc).2, Properties.getFieldCount, getInt64]
  . simp [doBatchTransactionInsert, buildRecords, valuesToWrite, buildSingleValue, chooseField_eq hc,
      (copied_of_create hc).writeAllFields, Properties.getFieldCount, getInt64]
  . intro hcomplete
    have hiff := (batchInsert_complete_iff hc _ _).mp hcomplete
    simp [Properties.getFieldCount, getInt64] at hiff

namespace Thread

def fields (t : Thread) : List (List Bytes) := t.records.map (fun record => record.values.map Prod.fst)

def Complete (fieldCount : Int) (t : Thread) : Prop := InsertsComplete fieldCount t.fields t.todo

theorem fields_addValue (t : Thread) (fieldKey : Bytes) (buf : Slice)
    : (t.addValue fieldKey buf).fields = (Instr.build fieldKey).addFields t.fields := by
  unfold addValue fields
  simp only [Instr.addFields, List.getLast?_map]
  cases t.records.getLast? with
  | none => simp
  | some record => simp [List.map_dropLast]

theorem addValue_todo (t : Thread) (fieldKey : Bytes) (buf : Slice)
    : (t.addValue fieldKey buf).todo = t.todo := by
  unfold addValue
  split <;> simp

theorem Complete.advance {fieldCount : Int} {t t' : Thread} {instr : Instr} {todo : List Instr}
    (h : t.Complete fieldCount) (htodo : t.todo = instr :: todo) (htodo' : t'.todo = todo)
    (hfields : t'.fields = instr.addFields t.fields)
    : t'.Complete fieldCount := by
  unfold Complete at h
  rw [htodo] at h
  unfold Complete
  rw [htodo', hfields]
  apply h.2

end Thread

namespace Bench

section

variable {W : Type} {P : Platform} {c : Core} {s t : Bench W}

theorem thread_of_getBuffer {pooled : Nat} {buf : Slice} (h : s.getBuffer c pooled = .ret (t, buf))
    : t.thread = s.thread := by
  unfold getBuffer at h
  split at h
  . cases h
    rfl
  . rcases Outcome.bind_eq_ret h with ⟨b, _, h⟩
    cases h
    rfl

theorem thread_of_buildDeterministic {answer : Answer} {key fieldKey : Bytes} {buf : Slice}
    (h : s.buildDeterministic P c answer key fieldKey = .ret (t, buf))
    : t.thread = s.thread := by
  rcases Outcome.bind_eq_ret h with ⟨_, _, h⟩
  rcases Outcome.bind_eq_ret h with ⟨_, hbuffer, h⟩
  rcases Outcome.bind_eq_ret h with ⟨_, _, h⟩
  cases h
  apply thread_of_getBuffer hbuffer

theorem thread_of_buildRandom {answer : Answer} {buf : Slice} (h : s.buildRandom P c answer = .ret (t, buf))
    : t.thread = s.thread := by
  rcases Outcome.bind_eq_ret h with ⟨_, _, h⟩
  rcases Outcome.bind_eq_ret h with ⟨_, hbuffer, h⟩
  rcases Outcome.bind_eq_ret h with ⟨_, _, h⟩
  cases h
  apply thread_of_getBuffer hbuffer

end

section

variable {W : Type} [DecidableEq W] {P : Platform} {c : Core} {fieldCount : Int} {s t : Bench W}

def Complete (fieldCount : Int) (s : Bench W) : Prop := ∀ w, (s.thread w).Complete fieldCount

theorem Complete.setThread (h : s.Complete fieldCount) (hthread : t.thread = s.thread) {w : W} {thread : Thread}
    (hcomplete : thread.Complete fieldCount)
    : (t.setThread w thread).Complete fieldCount := by
  intro w'
  simp only [Bench.setThread, hthread, Function.update_apply]
  split
  . assumption
  . apply h

theorem Complete.addValue (h : s.Complete fieldCount) {w : W} {fieldKey : Bytes} {buf : Slice}
    {todo : List Instr} (htodo : (s.thread w).todo = .build fieldKey :: todo) (hthread : t.thread = s.thread)
    : (t.setThread w ({ s.thread w with todo }.addValue fieldKey buf)).Complete fieldCount := by
  apply h.setThread hthread
  apply (h w).advance htodo
  . rw [Thread.addValue_todo]
  . rw [Thread.fields_addValue]
    rfl

theorem Complete.writeRecord (h : s.Complete fieldCount) {w : W} {answer : Answer} {i : Nat} {todo : List Instr}
    (hcomplete : Thread.Complete fieldCount { s.thread w with todo := returnAfter answer.stop todo })
    : (s.writeRecord w answer i todo).Complete fieldCount := by
  unfold Bench.writeRecord
  dsimp only
  split
  . apply h.setThread rfl hcomplete
  . apply h.setThread rfl hcomplete

theorem complete_returnAfter {t : Thread} {stop : Bool} {instr : Instr} {todo : List Instr}
    (h : t.Complete fieldCount) (htodo : t.todo = instr :: todo) (hinstr : ∀ records, instr.addFields records = records)
    : Thread.Complete fieldCount { t with todo := returnAfter stop todo } := by
  cases stop with
  | false => apply h.advance htodo <;> simp [returnAfter, hinstr, Thread.fields]
  | true => simp [Thread.Complete, returnAfter]

theorem Complete.runStep (h : s.Complete fieldCount) {w : W} {answer : Answer}
    (hstep : s.runStep P c w answer = .ret t)
    : t.Complete fieldCount := by
  have hw := h w
  unfold Bench.runStep at hstep
  dsimp only at hstep
  split at hstep
  . cases hstep
    apply h.setThread rfl
    simp [Thread.Complete, Thread.idle]
  . next htodo =>
    cases hstep
    apply h.setThread rfl
    apply hw.advance htodo rfl
    simp [Thread.fields, Instr.addFields]
  . next fieldKey todo htodo =>
    split at hstep
    . rcases Outcome.bind_eq_ret hstep with ⟨⟨s', buf⟩, hbuild, hstep⟩
      cases hstep
      apply h.addValue htodo (thread_of_buildDeterministic hbuild)
    . rcases Outcome.bind_eq_ret hstep with ⟨⟨s', buf⟩, hbuild, hstep⟩
      cases hstep
      apply h.addValue htodo (thread_of_buildRandom hbuild)
  . next htodo =>
    cases hstep
    apply h.setThread rfl
    apply complete_returnAfter hw htodo (by simp [Instr.addFields])
  . next htodo =>
    cases hstep
    apply h.setThread rfl
    apply complete_returnAfter hw htodo (by simp [Instr.addFields])
  . next htodo =>
    cases hstep
    apply h.setThread rfl
    apply complete_returnAfter hw htodo (by simp [Instr.addFields])
  . next htodo =>
    cases hstep
    apply h.writeRecord
    apply complete_returnAfter hw htodo (by simp [Instr.addFields])
  . next htodo =>
    cases hstep
    apply h.writeRecord
    apply complete_returnAfter hw htodo (by simp [Instr.addFields])
  . next htodo =>
    split at hstep
    . cases hstep
      apply h.setThread rfl
      apply hw.advance htodo rfl
      simp [Thread.fields, Instr.addFields]
    . rcases Outcome.bind_eq_ret hstep with ⟨_, hbuild, hstep⟩
      split at hstep
      . simp at hstep
      . cases hstep
        apply h.setThread (thread_of_buildDeterministic hbuild)
        apply hw

/-- The calls may be any for which every record is complete by the time it is inserted. -/
theorem inserts_complete {limit : Nat} {labels : List (Label W)}
    (hrun : Run (step P c)
      (fun _ label => ∀ w call, label = .call w call → CallInsertsComplete P c fieldCount call) (new limit)
      labels s)
    (w : W) {i : Nat} {todo : List Instr} (htodo : (s.thread w).todo = .insert i :: todo)
    : ∃ record, (s.thread w).records[i]? = some record ∧ HasFields fieldCount (record.values.map Prod.fst) := by
  have hcomplete : s.Complete fieldCount := by
    apply hrun.invariant
    . intro w
      simp [Thread.Complete, new, Thread.idle]
    . intro s label t hs hallowed hstep
      cases label with
      | call w call =>
        rcases hallowed w call rfl with ⟨todo, hprogram, hcomplete⟩
        simp only [step, hprogram] at hstep
        split at hstep
        . cases hstep
          apply hs.setThread rfl
          assumption
        . simp at hstep
      | step w answer =>
        simp only [step, Outcome.toOption_eq_some] at hstep
        apply hs.runStep hstep
  have hw := hcomplete w
  unfold Thread.Complete at hw
  rw [htodo] at hw
  rcases hw.1 i rfl with ⟨fields, hfields, hhas⟩
  rw [Thread.fields, List.getElem?_map, Option.map_eq_some_iff] at hfields
  rcases hfields with ⟨record, hrecord, heq⟩
  refine ⟨record, hrecord, ?_⟩
  rwa [heq]

end

end Bench
