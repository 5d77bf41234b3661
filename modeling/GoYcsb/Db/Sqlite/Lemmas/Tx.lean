import GoYcsb.Db.Sqlite.Impl.Tx
import GoYcsb.Util.Lemmas.FieldPairs

/-!
This module contains for which operations from `GoYcsb.Db.Sqlite.Impl.Tx` it makes no difference how often
`optimisticTx` has to run the closure.
-/

namespace Sqlite

section

variable {β σ : Type} {handle : (req : Request) → σ → Answer req × σ} {f : Orders → β → Tx (Option Error × β)}
  {attempt : Attempt σ} {output output' : β} {after : σ}

theorem optimisticTx_of_busy {err : Error} (hbegin : attempt.beginTx = none)
    (hrun : (f attempt.orders output).exec handle attempt.snapshot = (.ret (none, output'), after))
    (hcommit : attempt.commit = some err) (hbusy : err.isBusy) (attempts : List (Attempt σ))
    : optimisticTx true handle f output (attempt :: attempts) = optimisticTx true handle f output' attempts := by
  rw [optimisticTx, hbegin]
  simp [hrun, hcommit, hbusy]

theorem optimisticTx_of_commit {optimistic : Bool} (hbegin : attempt.beginTx = none)
    (hrun : (f attempt.orders output).exec handle attempt.snapshot = (.ret (none, output'), after))
    (hcommit : attempt.commit = none) (attempts : List (Attempt σ))
    : optimisticTx optimistic handle f output (attempt :: attempts) = .ret ⟨output', none, some after⟩ := by
  rw [optimisticTx, hbegin]
  simp [hrun, hcommit]

end

theorem doUpdate_eq (order order' : GoMap.Order Bytes Bytes) (table key : Bytes) (values : FieldMap)
    : doUpdate order table key values = doUpdate order' table key values := by
  rw [doUpdate, Util.newFieldPairs_eq order order']
  rfl

theorem doInsert_eq (order order' : GoMap.Order Bytes Bytes) (table key : Bytes) (values : FieldMap)
    : doInsert order table key values = doInsert order' table key values := by
  rw [doInsert, Util.newFieldPairs_eq order order']
  rfl

theorem eachValue_eq {write : GoMap.Order Bytes Bytes → Bytes → FieldMap → Tx (Option Error)}
    (h : ∀ order order' key values, write order key values = write order' key values) (orders orders' : Orders)
    (i : Nat) (keys : List Bytes) (values : List FieldMap)
    : eachValue write orders i keys values = eachValue write orders' i keys values := by
  induction keys generalizing i values with
  | nil => rfl
  | cons key keys ih =>
    cases values with
    | nil => rfl
    | cons value values => rw [eachValue, eachValue, h (orders i) (orders' i), ih]

namespace Op

-- The closure does not read the variable it captures.
theorem body_eq {op : Op} (h : ∀ table keys fields, op ≠ .batchRead table keys fields) (orders orders' : Orders)
    (output output' : op.Output)
    : op.body orders output = op.body orders' output' := by
  cases op with
  | read table key fields => rfl
  | scan table startKey count fields => rfl
  | delete table key => rfl
  | batchDelete table keys => rfl
  | batchRead table keys fields => exact absurd rfl (h table keys fields)
  | update table key values =>
    simp only [body, uncaptured]
    rw [doUpdate_eq (orders 0) (orders' 0)]
  | insert table key values =>
    simp only [body, uncaptured]
    rw [doInsert_eq (orders 0) (orders' 0)]
  | batchInsert table keys values =>
    simp only [body, uncaptured]
    rw [eachValue_eq (fun order order' => doInsert_eq order order' table) orders orders']
  | batchUpdate table keys values =>
    simp only [body, uncaptured]
    rw [eachValue_eq (fun order order' => doUpdate_eq order order' table) orders orders']

end Op

theorem exec_eachRead {σ : Type} {handle : (req : Request) → σ → Answer req × σ} {table : Bytes}
    {fields keys : List Bytes} {output res : List (Option FieldMap)} {s after : σ}
    (h : (eachRead table fields keys output).exec handle s = (.ret (none, res), after))
    : ∃ rows : List (Option FieldMap),
        rows.length = keys.length
          ∧
        ∀ output', (eachRead table fields keys output').exec handle s = (.ret (none, output' ++ rows), after) := by
  induction keys generalizing s output with
  | nil =>
    cases h
    refine ⟨[], rfl, ?_⟩
    intro output'
    rw [List.append_nil]
    rfl
  | cons key keys ih =>
    rcases Rpc.exec_bind_eq_ret h with ⟨row, t, hread, hrest⟩
    rcases row with ⟨row, err⟩
    cases err with
    | some err => cases hrest
    | none =>
      rcases ih hrest with ⟨rows, hlen, hexec⟩
      refine ⟨row :: rows, by rw [List.length_cons, List.length_cons, hlen], ?_⟩
      intro output'
      rw [eachRead, Rpc.exec_bind_ret hread]
      have happend := hexec (output' ++ [row])
      rw [List.append_assoc, List.singleton_append] at happend
      exact happend

namespace Op

variable {σ : Type}

def Reaches (handle : (req : Request) → σ → Answer req × σ) (op : Op) (attempt : Attempt σ) : Prop :=
  attempt.beginTx = none
    ∧
  ∃ output after, (op.body attempt.orders op.zero).exec handle attempt.snapshot = (.ret (none, output), after)

def once (handle : (req : Request) → σ → Answer req × σ) (op : Op) (attempt : Attempt σ)
    : Outcome (Returned op.Output σ) := do
  let run := (op.body attempt.orders op.zero).exec handle attempt.snapshot
  let res ← run.1
  return ⟨res.2, res.1, some run.2⟩

def OnePerKey (op : Op) (output : op.Output) : Prop :=
  match op with
  | .batchRead _ keys _ => List.length (α := Option FieldMap) output = keys.length
  | .read _ _ _ | .scan _ _ _ _ | .update _ _ _ | .insert _ _ _ | .delete _ _ | .batchInsert _ _ _
  | .batchUpdate _ _ _ | .batchDelete _ _ => True

def Transparent (handle : (req : Request) → σ → Answer req × σ) (op : Op) (busy : List (Attempt σ))
    (last : Attempt σ) : Prop :=
  ∃ returned,
    op.serve true handle (busy ++ [last]) = .ret returned
      ∧
    op.once handle last = .ret returned
      ∧
    op.OnePerKey returned.output

def ReadsBatch (op : Op) : Prop :=
  match op with
  | .batchRead _ keys _ => keys ≠ []
  | .read _ _ _ | .scan _ _ _ _ | .update _ _ _ | .insert _ _ _ | .delete _ _ | .batchInsert _ _ _
  | .batchUpdate _ _ _ | .batchDelete _ _ => False

variable {handle : (req : Request) → σ → Answer req × σ} {busy : List (Attempt σ)} {last : Attempt σ}

theorem once_eq {op : Op} {output : op.Output} {after : σ}
    (h : (op.body last.orders op.zero).exec handle last.snapshot = (.ret (none, output), after))
    : op.once handle last = .ret ⟨output, none, some after⟩ := by
  rw [once, h]
  rfl

theorem transparent_of_ne {op : Op} (h : ∀ table keys fields, op ≠ .batchRead table keys fields)
    (hbusy : ∀ attempt ∈ busy, op.Reaches handle attempt ∧ ∃ err, attempt.commit = some err ∧ err.isBusy)
    (hlast : op.Reaches handle last) (hcommit : last.commit = none)
    : op.Transparent handle busy last := by
  rcases hlast with ⟨hbegin, output, after, hrun⟩
  have hserve (start : op.Output)
      : optimisticTx true handle op.body start (busy ++ [last]) = .ret ⟨output, none, some after⟩ := by
    induction busy generalizing start with
    | nil =>
      rw [body_eq h last.orders last.orders op.zero start] at hrun
      exact optimisticTx_of_commit hbegin hrun hcommit []
    | cons attempt busy ih =>
      rw [List.forall_mem_cons] at hbusy
      rcases hbusy with ⟨⟨⟨hbegin', output', after', hrun'⟩, err, hcommit', hbusy'⟩, hbusy⟩
      rw [body_eq h attempt.orders attempt.orders op.zero start] at hrun'
      rw [List.cons_append, optimisticTx_of_busy hbegin' hrun' hcommit' hbusy', ih hbusy]
  refine ⟨_, hserve op.zero, once_eq hrun, ?_⟩
  cases op with
  | batchRead table keys fields => exact absurd rfl (h table keys fields)
  | _ => trivial

section

variable {table : Bytes} {keys fields : List Bytes}

theorem optimisticTx_batchRead
    (hbusy : ∀ attempt ∈ busy,
      (batchRead table keys fields).Reaches handle attempt ∧ ∃ err, attempt.commit = some err ∧ err.isBusy)
    (hlast : (batchRead table keys fields).Reaches handle last) (hcommit : last.commit = none)
    (start : List (Option FieldMap))
    : ∃ added rows : List (Option FieldMap), ∃ after,
        added.length = busy.length * keys.length
          ∧
        rows.length = keys.length
          ∧
        optimisticTx true handle (batchRead table keys fields).body start (busy ++ [last])
          = .ret ⟨start ++ added ++ rows, none, some after⟩
          ∧
        (batchRead table keys fields).once handle last = .ret ⟨rows, none, some after⟩ := by
  induction busy generalizing start with
  | nil =>
    rcases hlast with ⟨hbegin, output, after, hrun⟩
    rcases exec_eachRead hrun with ⟨rows, hlen, hexec⟩
    refine ⟨[], rows, after, by simp, hlen, ?_, ?_⟩
    . rw [List.append_nil]
      exact optimisticTx_of_commit hbegin (hexec start) hcommit []
    . exact once_eq (hexec [])
  | cons attempt busy ih =>
    rw [List.forall_mem_cons] at hbusy
    rcases hbusy with ⟨⟨⟨hbegin', output', after', hrun'⟩, err, hcommit', hbusy'⟩, hbusy⟩
    rcases exec_eachRead hrun' with ⟨rows', hlen', hexec'⟩
    rcases ih hbusy (start ++ rows') with ⟨added, rows, after, hadded, hlen, htx, honce⟩
    refine ⟨rows' ++ added, rows, after, ?_, hlen, ?_, honce⟩
    . rw [List.length_append, hadded, hlen', List.length_cons, Nat.succ_mul, Nat.add_comm]
    . rw [List.cons_append, optimisticTx_of_busy hbegin' (hexec' start) hcommit' hbusy', htx,
        List.append_assoc start rows' added]

theorem transparent_batchRead_iff
    (hbusy : ∀ attempt ∈ busy,
      (batchRead table keys fields).Reaches handle attempt ∧ ∃ err, attempt.commit = some err ∧ err.isBusy)
    (hlast : (batchRead table keys fields).Reaches handle last) (hcommit : last.commit = none)
    : (batchRead table keys fields).Transparent handle busy last ↔ keys ≠ [] → busy = [] := by
  rcases optimisticTx_batchRead hbusy hlast hcommit [] with ⟨added, rows, after, hadded, hlen, htx, honce⟩
  rw [List.nil_append] at htx
  constructor
  . rintro ⟨returned, hserve, _, hkeys⟩ hne
    have heq := hserve.symm.trans htx
    cases heq
    have hsum : (added ++ rows).length = keys.length := hkeys
    rw [List.length_append, hadded, hlen] at hsum
    have hzero : busy.length * keys.length = 0 := by omega
    rcases Nat.mul_eq_zero.mp hzero with hzero | hzero
    . exact List.length_eq_zero_iff.mp hzero
    . exact absurd (List.length_eq_zero_iff.mp hzero) hne
  . intro h
    have hnil : added = [] := by
      apply List.length_eq_zero_iff.mp
      rw [hadded]
      by_cases hne : keys = []
      . rw [hne, List.length_nil, Nat.mul_zero]
      . rw [h hne, List.length_nil, Nat.zero_mul]
    rw [hnil, List.nil_append] at htx
    exact ⟨_, htx, honce, hlen⟩

end

theorem serve_transparent_iff (handle : (req : Request) → σ → Answer req × σ) (op : Op) (busy : List (Attempt σ))
    (last : Attempt σ)
    (hbusy : ∀ attempt ∈ busy, op.Reaches handle attempt ∧ ∃ err, attempt.commit = some err ∧ err.isBusy)
    (hlast : op.Reaches handle last) (hcommit : last.commit = none)
    : op.Transparent handle busy last ↔ (op.ReadsBatch → busy = []) := by
  cases op with
  | batchRead table keys fields => exact transparent_batchRead_iff hbusy hlast hcommit
  | _ => exact iff_of_true (transparent_of_ne nofun hbusy hlast hcommit) nofun

def oneRow (req : Request) (s : Unit) : Answer req × Unit :=
  match req with
  | .query _ _ => (.ok ⟨.ok [Bytes.ofAscii "FIELD0"], [.ok [Bytes.ofAscii "a"]], none⟩, s)
  | .exec _ _ => (none, s)

def attemptWith (commit : Option Error) : Attempt Unit := ⟨none, (), fun _ => .id, commit⟩

theorem serve_transparent_insert
    : (insert (Bytes.ofAscii "usertable") (Bytes.ofAscii "user0") ∅).Transparent oneRow
        [attemptWith (some (.sqlite3 5 5)), attemptWith (some (.sqlite3 10 2058))] (attemptWith none) := by
  have hreaches (commit : Option Error)
      : (insert (Bytes.ofAscii "usertable") (Bytes.ofAscii "user0") ∅).Reaches oneRow (attemptWith commit) :=
    ⟨rfl, (), (), rfl⟩
  rw [serve_transparent_iff oneRow _ _ _ ?_ (hreaches none) rfl]
  . exact False.elim
  . rw [List.forall_mem_cons, List.forall_mem_singleton]
    exact ⟨⟨hreaches _, _, rfl, rfl⟩, hreaches _, _, rfl, rfl⟩

-- After one busy `Commit` there are two rows for one key.
theorem batchRead_repeats_rows
    : ((batchRead (Bytes.ofAscii "usertable") [Bytes.ofAscii "user0"] []).Reaches oneRow (attemptWith none)
        ∧
      (batchRead (Bytes.ofAscii "usertable") [Bytes.ofAscii "user0"] []).Reaches oneRow
        (attemptWith (some (.sqlite3 5 5))))
        ∧
      (∃ returned,
        (batchRead (Bytes.ofAscii "usertable") [Bytes.ofAscii "user0"] []).serve true oneRow
          [attemptWith (some (.sqlite3 5 5)), attemptWith none] = .ret returned
          ∧
        List.length (α := Option FieldMap) returned.output = 2)
        ∧
      ¬(batchRead (Bytes.ofAscii "usertable") [Bytes.ofAscii "user0"] []).Transparent oneRow
        [attemptWith (some (.sqlite3 5 5))] (attemptWith none) := by
  refine ⟨⟨⟨rfl, _, (), rfl⟩, rfl, _, (), rfl⟩, ⟨_, rfl, rfl⟩, ?_⟩
  rintro ⟨returned, hserve, _, hkeys⟩
  cases hserve
  cases hkeys

end Op

end Sqlite
