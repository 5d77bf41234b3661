import GoYcsb.Workload.Impl.Transaction

/-!
This module contains what the operations of `GoYcsb.Workload.Impl.Transaction` verify: a row that was
read is verified against the key it was read with.
-/

@[simp]
def Instr.rowKey (instr : Instr) : Option Bytes :=
  match instr with
  | .read key _ => some key
  | .verify key => some key
  | _ => none

def RowKey (key : Bytes) (todo : List Instr) : Prop :=
  ∀ instr ∈ todo, ∀ key', instr.rowKey = some key' → key' = key

theorem RowKey.subset {key : Bytes} {todo todo' : List Instr} (h : RowKey key todo) (hsub : todo' ⊆ todo)
    : RowKey key todo' := by
  intro instr hmem
  apply h instr (hsub hmem)

@[simp]
theorem rowKey_nil (key : Bytes) : RowKey key [] := by
  simp [RowKey]

@[simp]
theorem rowKey_cons {key : Bytes} {instr : Instr} {todo : List Instr}
    : RowKey key (instr :: todo) ↔ (∀ key', instr.rowKey = some key' → key' = key) ∧ RowKey key todo := by
  simp [RowKey]

@[simp]
theorem rowKey_append {key : Bytes} {todo todo' : List Instr}
    : RowKey key (todo ++ todo') ↔ RowKey key todo ∧ RowKey key todo' := by
  unfold RowKey
  rw [List.forall_mem_append]

theorem rowKey_of_none {key : Bytes} {todo : List Instr} (h : ∀ instr ∈ todo, instr.rowKey = none)
    : RowKey key todo := by
  intro instr hmem key' hkey
  rw [h instr hmem] at hkey
  contradiction

section

variable {P : Platform} {c : Core} {key : Bytes}

@[simp]
theorem rowKey_buildValues : RowKey key (buildValues c) := by
  apply rowKey_of_none
  simp [buildValues]

@[simp]
theorem rowKey_verifyRow : RowKey key (verifyRow c key) := by
  unfold verifyRow
  split <;> simp

theorem rowKey_valuesToWrite {d : Draw} {values : List Instr} (h : valuesToWrite P c d = .ret values)
    : RowKey key values := by
  unfold valuesToWrite at h
  split at h
  . simp only [Outcome.ret.injEq] at h
    subst h
    apply rowKey_buildValues
  . rcases Outcome.bind_eq_ret h with ⟨fieldKey, _, h⟩
    simp only [Outcome.pure_eq, Outcome.ret.injEq] at h
    subst h
    simp

theorem rowKey_buildRecords {picks : List Pick} {records : List Instr}
    (h : buildRecords P c picks = .ret records)
    : RowKey key records := by
  induction picks generalizing records with
  | nil =>
    simp only [buildRecords, Outcome.ret.injEq] at h
    subst h
    apply rowKey_nil
  | cons pick picks ih =>
    rcases Outcome.bind_eq_ret h with ⟨values, hvalues, h⟩
    rcases Outcome.bind_eq_ret h with ⟨rest, hrest, h⟩
    simp only [Outcome.pure_eq, Outcome.ret.injEq] at h
    subst h
    simp [rowKey_valuesToWrite hvalues, ih hrest]

theorem rowKey_doInsert {keyNum : Int} : RowKey key (doInsert c keyNum) := by
  unfold doInsert
  simp only [rowKey_cons, rowKey_append, rowKey_buildValues, and_true]
  refine ⟨by simp, ?_⟩
  apply rowKey_of_none
  simp

theorem rowKey_doBatchInsert {keyNums : List Int} : RowKey key (doBatchInsert c keyNums) := by
  unfold doBatchInsert
  rw [rowKey_append]
  constructor
  . apply rowKey_of_none
    intro instr hmem
    rcases List.mem_flatMap.mp hmem with ⟨keyNum, _, hmem⟩
    simp only [buildValues, List.mem_cons, List.mem_map] at hmem
    rcases hmem with rfl | ⟨fieldKey, _, rfl⟩ <;> rfl
  . apply rowKey_of_none
    intro instr hmem
    rcases List.mem_flatten.mp hmem with ⟨inserts, hinserts, hmem⟩
    rw [List.eq_of_mem_replicate hinserts] at hmem
    rcases List.mem_map.mp hmem with ⟨i, _, rfl⟩
    rfl

end

theorem exists_rowKey_doTransaction {P : Platform} {c : Core} {operation : OperationType} {pick : Pick}
    {todo : List Instr} (h : doTransaction P c operation pick = .ret todo)
    : ∃ key, RowKey key todo := by
  refine ⟨buildKeyName c pick.keyNum, ?_⟩
  cases operation with
  | read =>
    rcases Outcome.bind_eq_ret h with ⟨fields, _, h⟩
    simp only [Outcome.pure_eq, Outcome.ret.injEq] at h
    subst h
    simp
  | update =>
    rcases Outcome.bind_eq_ret h with ⟨values, hvalues, h⟩
    simp only [Outcome.pure_eq, Outcome.ret.injEq] at h
    subst h
    simp [rowKey_valuesToWrite hvalues]
  | insert =>
    simp only [doTransaction, Outcome.ret.injEq] at h
    subst h
    simp [doTransactionInsert]
  | scan =>
    rcases Outcome.bind_eq_ret h with ⟨fields, _, h⟩
    simp only [Outcome.pure_eq, Outcome.ret.injEq] at h
    subst h
    simp
  | readModifyWrite =>
    rcases Outcome.bind_eq_ret h with ⟨fields, _, h⟩
    rcases Outcome.bind_eq_ret h with ⟨values, hvalues, h⟩
    simp only [Outcome.pure_eq, Outcome.ret.injEq] at h
    subst h
    simp [rowKey_valuesToWrite hvalues]

theorem rowKey_doBatchTransaction {P : Platform} {c : Core} {operation : OperationType} {readField : Draw}
    {picks : List Pick} {todo : List Instr} {key : Bytes}
    (h : doBatchTransaction P c operation readField picks = .ret todo)
    : RowKey key todo := by
  cases operation with
  | read =>
    rcases Outcome.bind_eq_ret h with ⟨fields, _, h⟩
    simp only [Outcome.pure_eq, Outcome.ret.injEq] at h
    subst h
    simp
  | update =>
    rcases Outcome.bind_eq_ret h with ⟨records, hrecords, h⟩
    simp only [Outcome.pure_eq, Outcome.ret.injEq] at h
    subst h
    rw [rowKey_append]
    refine ⟨rowKey_buildRecords hrecords, ?_⟩
    apply rowKey_of_none
    simp
  | insert =>
    rcases Outcome.bind_eq_ret h with ⟨records, hrecords, h⟩
    simp only [Outcome.pure_eq, Outcome.ret.injEq] at h
    subst h
    rw [rowKey_append]
    refine ⟨rowKey_buildRecords hrecords, ?_⟩
    apply rowKey_of_none
    simp
  | scan => simp [doBatchTransaction] at h
  | readModifyWrite =>
    simp only [doBatchTransaction, Outcome.ret.injEq] at h
    subst h
    apply rowKey_nil

theorem exists_rowKey_callProgram {P : Platform} {c : Core} {call : WorkloadCall} {todo : List Instr}
    (h : callProgram P c call = .ret todo)
    : ∃ key, RowKey key todo := by
  cases call with
  | doInsert keyNum =>
    simp only [callProgram, Outcome.ret.injEq] at h
    subst h
    exact ⟨[], rowKey_doInsert⟩
  | doBatchInsert keyNums =>
    simp only [callProgram, Outcome.ret.injEq] at h
    subst h
    exact ⟨[], rowKey_doBatchInsert⟩
  | doTransaction operation pick => apply exists_rowKey_doTransaction h
  | doBatchTransaction operation readField picks => exact ⟨[], rowKey_doBatchTransaction h⟩
