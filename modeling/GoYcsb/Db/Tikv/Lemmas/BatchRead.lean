import GoYcsb.Db.Tikv.Impl.BatchRead
import GoYcsb.Util.Lemmas.Row

/-!
This module contains the comparison of `BatchRead` with `Read` of its keys one by one, for both drivers and whatever
becomes of the gets.
-/

namespace Tikv

open Util

/--
`BatchRead` fails if one of the reads does, and otherwise returns what they return.
-/
def BatchReads (reads : List (Outcome (Except String (Option FieldMap))))
    (batch : Outcome (Except String (List (Option FieldMap)))) : Prop :=
  ((∃ read ∈ reads, ∃ err, read = .ret (.error err)) → ∃ err, batch = .ret (.error err))
    ∧
  (∀ rows, reads = rows.map (fun row => .ret (.ok row)) → batch = .ret (.ok rows))

abbrev Got := Except String (Option Bytes)

def Gets.rows (gets : Gets) (table : Bytes) (keys : List Bytes) : List Got :=
  keys.map (fun key => gets (getRowKey table key))

namespace Got

def Fails (got : Got) : Prop := ∃ err, got = .error err

def Broken (got : Got) : Prop := ∃ row data err, got = .ok (some row) ∧ decodeRow row = .ret (data, some err)

def Panics (got : Got) : Prop := ∃ row, got = .ok (some row) ∧ PanicsOn row

def read (r : RowCodec) (fields : List Bytes) (got : Got) : Outcome (Except String (Option FieldMap)) :=
  match got with
  | .error err => .ret (.error err)
  | .ok none => .ret (.ok none)
  | .ok (some row) => do
    match ← r.decode row fields with
    | .error err => return .error err
    | .ok values => return .ok (some values)

inductive Cases (r : RowCodec) (fields : List Bytes) (got : Got) : Prop where
  | fails {err : String} (hgot : got = .error err)
  | missing (hgot : got = .ok none)
  | broken {row : Bytes} {data : GoMap Int Bytes} {err : String} (hgot : got = .ok (some row))
      (hrow : decodeRow row = .ret (data, some err)) (hdecode : r.decode row fields = .ret (.error err))
  | panics {row : Bytes} {msg : String} (hgot : got = .ok (some row)) (hrow : PanicsOn row)
      (hdecode : r.decode row fields = .panic msg)
  | decodes {row : Bytes} {data : GoMap Int Bytes} {values : FieldMap} (hgot : got = .ok (some row))
      (hrow : decodeRow row = .ret (data, none)) (hdecode : r.decode row fields = .ret (.ok values))

theorem cases (r : RowCodec) (fields : List Bytes) (got : Got) : Cases r fields got := by
  cases got with
  | error err => exact .fails rfl
  | ok value =>
    cases value with
    | none => exact .missing rfl
    | some row =>
      cases decodeRow_total row with
      | inl hrow =>
        rcases hrow with ⟨⟨data, err⟩, hrow⟩
        cases err with
        | some err =>
          refine .broken rfl hrow ?_
          unfold RowCodec.decode
          rw [hrow]
          rfl
        | none =>
          have hdecode : r.decode row fields
              = .ret (.ok (r.selectFields data (if fields.length = 0 then r.fields else fields))) := by
            unfold RowCodec.decode
            rw [hrow]
            rfl
          exact .decodes rfl hrow hdecode
      | inr hpanics =>
        rcases decodeRow_panics hpanics with ⟨msg, hrow⟩
        have hdecode : r.decode row fields = .panic msg := by
          unfold RowCodec.decode
          rw [hrow]
          rfl
        exact .panics rfl hpanics hdecode

section

variable {r : RowCodec} {fields : List Bytes} {got : Got}

theorem not_panics_of_ret {row : Bytes} {res : GoMap Int Bytes × Option String} (h : decodeRow row = .ret res)
    : ¬ PanicsOn row := by
  intro hpanics
  rcases decodeRow_panics hpanics with ⟨msg, hrow⟩
  rw [h] at hrow
  cases hrow

theorem read_eq_error_iff
    : (∃ err, got.read r fields = .ret (.error err)) ↔ got.Fails ∨ got.Broken := by
  cases got.cases r fields with
  | fails hgot => simp [hgot, read, Fails]
  | missing hgot => simp [hgot, read, Fails, Broken]
  | broken hgot hrow hdecode => simp [hgot, read, Fails, Broken, hrow, hdecode]
  | panics hgot hpanics hdecode =>
    rcases decodeRow_panics hpanics with ⟨msg, hrow⟩
    simp [hgot, read, Fails, Broken, hrow, hdecode]
  | decodes hgot hrow hdecode => simp [hgot, read, Fails, Broken, hrow, hdecode]

variable (r fields) in
theorem read_eq_ok_iff
    : (∃ row, got.read r fields = .ret (.ok row)) ↔ ¬ got.Fails ∧ ¬ got.Broken ∧ ¬ got.Panics := by
  cases got.cases r fields with
  | fails hgot => simp [hgot, read, Fails]
  | missing hgot => simp [hgot, read, Fails, Broken, Panics]
  | broken hgot hrow hdecode => simp [hgot, read, Fails, Broken, hrow, hdecode]
  | panics hgot hpanics hdecode => simp [hgot, read, Panics, hpanics, hdecode]
  | decodes hgot hrow hdecode =>
    simp [hgot, read, Fails, Broken, Panics, hrow, hdecode, not_panics_of_ret hrow]

end

end Got

section

variable {r : RowCodec} {fields : List Bytes} {gots : List Got}

theorem exists_read_error_iff
    : (∃ read ∈ gots.map (Got.read r fields), ∃ err, read = .ret (.error err))
        ↔
      ∃ got ∈ gots, got.Fails ∨ got.Broken := by
  simp only [List.mem_map, exists_exists_and_eq_and, Got.read_eq_error_iff]

variable (r fields) in
theorem exists_rows_iff
    : (∃ rows : List (Option FieldMap), gots.map (Got.read r fields) = rows.map (fun row => .ret (.ok row)))
        ↔
      ∀ got ∈ gots, ¬ got.Fails ∧ ¬ got.Broken ∧ ¬ got.Panics := by
  simp only [← Got.read_eq_ok_iff r fields]
  induction gots with
  | nil => simp
  | cons got gots ih =>
    rw [List.forall_mem_cons, ← ih]
    constructor
    . rintro ⟨rows, hrows⟩
      cases rows with
      | nil => cases hrows
      | cons row rows =>
        rw [List.map_cons, List.map_cons, List.cons.injEq] at hrows
        exact ⟨⟨row, hrows.1⟩, rows, hrows.2⟩
    . rintro ⟨⟨row, hrow⟩, rows, hrows⟩
      refine ⟨row :: rows, ?_⟩
      rw [List.map_cons, List.map_cons, hrow, hrows]

end

variable {gets : Gets} {store : KV} {table : Bytes} {fields : List Bytes}

namespace Gets

theorem rows_eq (gets : Gets) (table : Bytes) (keys : List Bytes)
    : gets.rows table keys = (keys.map (getRowKey table)).map gets := by
  rw [rows, List.map_map]
  rfl

theorem batchGet_of_fails {keys : List Bytes} (h : ∃ key ∈ keys, Got.Fails (gets key))
    : ∃ err, gets.batchGet keys = .error err := by
  induction keys with
  | nil => simp at h
  | cons key keys ih =>
    unfold batchGet
    cases hgot : gets key with
    | error err => exact ⟨err, rfl⟩
    | ok value =>
      have hkeys : ∃ key ∈ keys, Got.Fails (gets key) := by
        rcases h with ⟨key', hmem, err, herr⟩
        cases hmem with
        | head =>
          rw [hgot] at herr
          cases herr
        | tail _ hmem => exact ⟨key', hmem, err, herr⟩
      rcases ih hkeys with ⟨err, herr⟩
      exact ⟨err, by simp [herr]⟩

theorem batchGet_of_not_fails {keys : List Bytes} (h : ∀ key ∈ keys, ¬ Got.Fails (gets key))
    : ∃ values, gets.batchGet keys = .ok values ∧ keys.map gets = values.map Except.ok := by
  induction keys with
  | nil => exact ⟨[], rfl, rfl⟩
  | cons key keys ih =>
    rw [List.forall_mem_cons] at h
    rcases ih h.2 with ⟨values, hvalues, hmap⟩
    unfold batchGet
    cases hgot : gets key with
    | error err => exact absurd ⟨err, hgot⟩ h.1
    | ok value => exact ⟨value :: values, by simp [hvalues], by simp [hgot, hmap]⟩

end Gets

namespace RawDB

variable {db : RawDB}

variable (db gets) in
theorem fst_exec_read_gets (ctx : Option RawDBState) (table key : Bytes) (fields : List Bytes) (store : KV)
    : Prod.fst <$> ((db.read ctx table key fields).exec gets.handleRaw store).1
        =
      Got.read db.r fields (gets (getRowKey table key)) := by
  unfold RawDB.read Rawkv.get
  rw [Rpc.send_bind, Rpc.exec_call]
  dsimp only [Gets.handleRaw]
  cases gets (getRowKey table key) with
  | error err => rfl
  | ok value =>
    cases value with
    | none => rfl
    | some row =>
      dsimp only [Got.read]
      cases db.r.decode row fields with
      | ret res => cases res <;> rfl
      | panic msg => rfl
      | exit msg => rfl
      | running => rfl

theorem exec_batchRead_of_error {keys : List Bytes} {err : String}
    (h : gets.batchGet (keys.map (getRowKey table)) = .error err)
    : ((db.batchRead table keys fields).exec gets.handleRaw store).1 = .ret (.error err) := by
  unfold RawDB.batchRead Rawkv.batchGet
  dsimp only
  rw [Rpc.send_bind, Rpc.exec_call]
  dsimp only [Gets.handleRaw]
  rw [h]
  rfl

theorem exec_batchRead_of_ok {keys : List Bytes} {values : List (Option Bytes)}
    (h : gets.batchGet (keys.map (getRowKey table)) = .ok values)
    : ((db.batchRead table keys fields).exec gets.handleRaw store).1 = Except.ok <$> db.decodeValues values fields := by
  unfold RawDB.batchRead Rawkv.batchGet
  dsimp only
  rw [Rpc.send_bind, Rpc.exec_call]
  dsimp only [Gets.handleRaw]
  rw [h]
  dsimp only
  cases db.decodeValues values fields with
  | ret rows => rfl
  | panic msg => rfl
  | exit msg => rfl
  | running => rfl

-- An empty row is taken for none, and that is the only difference where `Read` succeeds.
theorem decodeValue_of_read {value : Option Bytes} {row : Option FieldMap}
    (h : Got.read db.r fields (.ok value) = .ret (.ok row))
    : ∃ row', db.decodeValue value fields = .ret row' ∧ (row' = row ↔ value ≠ some []) := by
  cases value with
  | none =>
    cases h
    exact ⟨none, rfl, by simp⟩
  | some data =>
    rcases Outcome.bind_eq_ret h with ⟨res, hdecode, hres⟩
    cases res with
    | error err => cases hres
    | ok values =>
      cases hres
      cases data with
      | nil => exact ⟨none, rfl, by simp⟩
      | cons c data =>
        refine ⟨some values, ?_, by simp⟩
        simp [decodeValue, hdecode]

theorem decodeValues_eq_iff {values : List (Option Bytes)} {rows : List (Option FieldMap)}
    (h : values.map (fun value => Got.read db.r fields (.ok value)) = rows.map (fun row => .ret (.ok row)))
    : db.decodeValues values fields = .ret rows ↔ ∀ value ∈ values, value ≠ some [] := by
  induction values generalizing rows with
  | nil =>
    cases rows with
    | nil => simp [decodeValues]
    | cons row rows => cases h
  | cons value values ih =>
    cases rows with
    | nil => cases h
    | cons row rows =>
      rw [List.map_cons, List.map_cons, List.cons.injEq] at h
      rcases decodeValue_of_read h.1 with ⟨row', hvalue, hrow'⟩
      rw [List.forall_mem_cons, ← hrow', ← ih h.2, decodeValues, hvalue, Outcome.ret_bind]
      constructor
      . intro heq
        rcases Outcome.bind_eq_ret heq with ⟨rows', hrows', heq⟩
        cases heq
        exact ⟨rfl, hrows'⟩
      . rintro ⟨rfl, hrows⟩
        rw [hrows]
        rfl

/--
What the gets have to come to for `BatchRead` of the raw mode driver. It drops the errors of `Decode`, so there must be
none unless `BatchGet` fails.
-/
def Readable (gots : List Got) : Prop :=
  (∃ got ∈ gots, got.Fails)
    ∨
  ((∀ got ∈ gots, ¬ got.Broken) ∧ ((∃ got ∈ gots, got.Panics) ∨ ∀ got ∈ gots, got ≠ .ok (some [])))

theorem batchReads_of_fails {r : RowCodec} {gots : List Got} (h : ∃ got ∈ gots, got.Fails) (err : String)
    : BatchReads (gots.map (Got.read r fields)) (.ret (.error err)) := by
  rcases h with ⟨got, hgot, hfails⟩
  refine ⟨fun _ => ⟨err, rfl⟩, ?_⟩
  intro rows hrows
  exact absurd hfails ((exists_rows_iff r fields).mp ⟨rows, hrows⟩ got hgot).1

theorem batchReads_decodeValues_iff (db : RawDB) (fields : List Bytes) (values : List (Option Bytes))
    : BatchReads ((values.map Except.ok).map (Got.read db.r fields)) (Except.ok <$> db.decodeValues values fields)
        ↔
      (∀ got ∈ values.map Except.ok, ¬ Got.Broken got)
        ∧
      ((∃ got ∈ values.map Except.ok, Got.Panics got) ∨ ∀ got ∈ values.map Except.ok, got ≠ (.ok (some []) : Got)) := by
  have hsucceeds : ∀ got ∈ values.map Except.ok, ¬ Got.Fails got := by
    intro got hgot
    rcases List.mem_map.mp hgot with ⟨value, _, rfl⟩
    simp [Got.Fails]
  have hdecode : ∀ rows : List (Option FieldMap),
      (values.map Except.ok).map (Got.read db.r fields) = rows.map (fun row => .ret (.ok row)) →
      ((Except.ok <$> db.decodeValues values fields : Outcome (Except String _)) = .ret (.ok rows)
        ↔ ∀ got ∈ values.map Except.ok, got ≠ (.ok (some []) : Got)) := by
    intro rows hrows
    rw [List.map_map] at hrows
    rw [Outcome.map_ok_eq_iff, decodeValues_eq_iff hrows]
    simp
  unfold BatchReads
  rw [exists_read_error_iff]
  constructor
  . rintro ⟨herror, hok⟩
    have hbroken : ∀ got ∈ values.map Except.ok, ¬ Got.Broken got := by
      intro got hgot hbroken
      rcases herror ⟨got, hgot, .inr hbroken⟩ with ⟨err, herr⟩
      exact Outcome.map_ok_ne_error herr
    refine ⟨hbroken, ?_⟩
    by_cases hpanics : ∃ got ∈ values.map Except.ok, Got.Panics got
    . exact .inl hpanics
    . right
      have hreadable : ∀ got ∈ values.map Except.ok, ¬ Got.Fails got ∧ ¬ Got.Broken got ∧ ¬ Got.Panics got := by
        intro got hgot
        exact ⟨hsucceeds got hgot, hbroken got hgot, fun h => hpanics ⟨got, hgot, h⟩⟩
      rcases (exists_rows_iff db.r fields).mpr hreadable with ⟨rows, hrows⟩
      exact (hdecode rows hrows).mp (hok rows hrows)
  . rintro ⟨hbroken, hrest⟩
    constructor
    . rintro ⟨got, hgot, hfails | hbad⟩
      . exact absurd hfails (hsucceeds got hgot)
      . exact absurd hbad (hbroken got hgot)
    . intro rows hrows
      apply (hdecode rows hrows).mpr
      cases hrest with
      | inl hpanics =>
        rcases hpanics with ⟨got, hgot, hpanics⟩
        exact absurd hpanics ((exists_rows_iff db.r fields).mp ⟨rows, hrows⟩ got hgot).2.2
      | inr hnonempty => exact hnonempty

theorem batchReads_iff (db : RawDB) (gets : Gets) (ctx : Option RawDBState) (table : Bytes) (keys fields : List Bytes)
    (store : KV)
    : BatchReads
        (keys.map (fun key => Prod.fst <$> ((db.read ctx table key fields).exec gets.handleRaw store).1))
        ((db.batchRead table keys fields).exec gets.handleRaw store).1
        ↔
      Readable (gets.rows table keys) := by
  have hreads : keys.map (fun key => Prod.fst <$> ((db.read ctx table key fields).exec gets.handleRaw store).1)
      = (gets.rows table keys).map (Got.read db.r fields) := by
    rw [Gets.rows, List.map_map]
    apply List.map_congr_left
    intro key _
    exact db.fst_exec_read_gets gets ctx table key fields store
  rw [hreads, Gets.rows_eq]
  unfold Readable
  by_cases hfails : ∃ got ∈ (keys.map (getRowKey table)).map gets, Got.Fails got
  . have hkeys : ∃ key ∈ keys.map (getRowKey table), Got.Fails (gets key) := by
      rcases hfails with ⟨got, hgot, hfail⟩
      rcases List.mem_map.mp hgot with ⟨key, hkey, rfl⟩
      exact ⟨key, hkey, hfail⟩
    rcases Gets.batchGet_of_fails hkeys with ⟨err, herr⟩
    rw [exec_batchRead_of_error herr]
    exact iff_of_true (batchReads_of_fails hfails err) (.inl hfails)
  . have hkeys : ∀ key ∈ keys.map (getRowKey table), ¬ Got.Fails (gets key) := by
      intro key hkey hfail
      exact hfails ⟨gets key, List.mem_map_of_mem hkey, hfail⟩
    rcases Gets.batchGet_of_not_fails hkeys with ⟨values, hvalues, hmap⟩
    rw [exec_batchRead_of_ok hvalues, or_iff_right hfails, hmap]
    exact batchReads_decodeValues_iff db fields values

end RawDB

namespace TxnDB

variable {db : TxnDB}

def seen (got : Got) : Got :=
  match got with
  | .error err => .error err
  | .ok none => .ok none
  | .ok (some value) => if value.length = 0 then .ok none else .ok (some value)

def answer (got : Got) : Except TxnError Bytes :=
  match got with
  | .error err => .error (.other err)
  | .ok none => .error .notFound
  | .ok (some value) => .ok value

theorem exec_get (gets : Gets) (snapshot : KV) (key : Bytes) (store : KV)
    : ((Txn.mk snapshot ∅).get key).exec gets.handleTxn store = (.ret (answer (seen (gets key))), store) := by
  dsimp only [Txn.get, AList.lookup_empty]
  rw [Rpc.send_bind, Rpc.exec_call]
  dsimp only [Gets.handleTxn]
  rcases gets key with err | _ | value
  . rfl
  . rfl
  . dsimp only [seen, present]
    split
    . rfl
    . rfl

theorem fst_exec_read_gets (db : TxnDB) (gets : Gets) (table key : Bytes) (fields : List Bytes) (store : KV)
    : ((db.read table key fields).exec gets.handleTxn store).1
        =
      Got.read db.r fields (seen (gets (getRowKey table key))) := by
  have hbegin : beginTxn.exec gets.handleTxn store = (.ret (.ok (Txn.mk store ∅)), store) := rfl
  unfold TxnDB.read
  rw [Rpc.exec_bind_ret hbegin]
  dsimp only
  rw [Rpc.exec_bind_ret (exec_get gets store _ store)]
  cases seen (gets (getRowKey table key)) with
  | error err => rfl
  | ok value =>
    cases value with
    | none => rfl
    | some row =>
      dsimp only [Got.read, Txn.commit, answer]
      rw [Rpc.send_bind, Rpc.exec_call]
      dsimp only [Gets.handleTxn]
      cases db.r.decode row fields with
      | ret res => cases res <;> rfl
      | panic msg => rfl
      | exit msg => rfl
      | running => rfl

def decodeGots (r : RowCodec) (fields : List Bytes) (gots : List Got)
    : Outcome (Except String (List (Option FieldMap))) :=
  match gots with
  | [] => .ret (.ok [])
  | .ok (some value) :: gots => do
    match ← r.decode value fields with
    | .error err => return .error err
    | .ok row =>
      match ← decodeGots r fields gots with
      | .error err => return .error err
      | .ok rowValues => return .ok (some row :: rowValues)
  | .ok none :: gots | .error _ :: gots => do
    match ← decodeGots r fields gots with
    | .error err => return .error err
    | .ok rowValues => return .ok (none :: rowValues)

theorem exec_readRows (keys : List Bytes) (snapshot : KV)
    : (db.readRows ⟨snapshot, ∅⟩ table keys fields).exec gets.handleTxn store
        =
      (decodeGots db.r fields ((gets.rows table keys).map seen), store) := by
  induction keys with
  | nil => rfl
  | cons key keys ih =>
    have hrows : (gets.rows table (key :: keys)).map seen
        = seen (gets (getRowKey table key)) :: (gets.rows table keys).map seen := rfl
    rw [hrows]
    unfold readRows
    rw [Rpc.exec_bind_ret (exec_get gets snapshot _ store)]
    cases seen (gets (getRowKey table key)) with
    | error err =>
      apply Rpc.exec_bind_lift ih
      intro res
      cases res <;> rfl
    | ok value =>
      cases value with
      | none =>
        apply Rpc.exec_bind_lift ih
        intro res
        cases res <;> rfl
      | some value =>
        apply Rpc.exec_bind_lift rfl
        intro res
        cases res with
        | error err => rfl
        | ok row =>
          apply Rpc.exec_bind_lift ih
          intro res
          cases res <;> rfl

theorem decodeGots_of_rows {r : RowCodec} {gots : List Got} {rows : List (Option FieldMap)}
    (h : gots.map (Got.read r fields) = rows.map (fun row => .ret (.ok row)))
    : decodeGots r fields gots = .ret (.ok rows) := by
  induction gots generalizing rows with
  | nil =>
    cases rows with
    | nil => rfl
    | cons row rows => cases h
  | cons got gots ih =>
    cases rows with
    | nil => cases h
    | cons row rows =>
      rw [List.map_cons, List.map_cons, List.cons.injEq] at h
      cases got.cases r fields with
      | fails hgot => simp [hgot, Got.read] at h
      | missing hgot =>
        have hrow : none = row := by simpa [hgot, Got.read] using h.1
        simp [hgot, decodeGots, ih h.2, hrow]
      | broken hgot _ hdecode => simp [hgot, Got.read, hdecode] at h
      | panics hgot _ hdecode => simp [hgot, Got.read, hdecode] at h
      | decodes hgot _ hdecode =>
        have hrow := h.1
        simp only [hgot, Got.read, hdecode, Outcome.ret_bind, Outcome.pure_eq, Outcome.ret.injEq,
          Except.ok.injEq] at hrow
        simp [hgot, decodeGots, hdecode, ih h.2, hrow]

/--
`BatchRead` reports the first row that does not decode, unless it has come across one that makes it panic.
-/
def ReportsBroken (gots : List Got) : Prop :=
  ∃ pre got post, gots = pre ++ got :: post ∧ got.Broken ∧ ∀ got' ∈ pre, ¬ got'.Panics

theorem reportsBroken_cons {got : Got} {gots : List Got}
    : ReportsBroken (got :: gots) ↔ got.Broken ∨ (¬ got.Panics ∧ ReportsBroken gots) := by
  constructor
  . rintro ⟨pre, got', post, heq, hbroken, hpre⟩
    cases pre with
    | nil =>
      cases heq
      exact .inl hbroken
    | cons first pre =>
      cases heq
      rw [List.forall_mem_cons] at hpre
      exact .inr ⟨hpre.1, pre, got', post, rfl, hbroken, hpre.2⟩
  . rintro (hbroken | ⟨hpanics, pre, got', post, rfl, hbroken, hpre⟩)
    . exact ⟨[], got, gots, rfl, hbroken, by simp⟩
    . refine ⟨got :: pre, got', post, rfl, hbroken, ?_⟩
      rw [List.forall_mem_cons]
      exact ⟨hpanics, hpre⟩

theorem decodeGots_eq_error_iff {r : RowCodec} {gots : List Got}
    : (∃ err, decodeGots r fields gots = .ret (.error err)) ↔ ReportsBroken gots := by
  induction gots with
  | nil => simp [decodeGots, ReportsBroken]
  | cons got gots ih =>
    rw [reportsBroken_cons, ← ih]
    cases got.cases r fields with
    | fails hgot =>
      rw [hgot, decodeGots]
      rcases decodeGots r fields gots with (_ | _) | _ | _ | _ <;> simp [Got.Broken, Got.Panics]
    | missing hgot =>
      rw [hgot, decodeGots]
      rcases decodeGots r fields gots with (_ | _) | _ | _ | _ <;> simp [Got.Broken, Got.Panics]
    | broken hgot hrow hdecode => simp [hgot, decodeGots, hdecode, Got.Broken, hrow]
    | panics hgot hpanics hdecode =>
      rcases decodeRow_panics hpanics with ⟨msg, hrow⟩
      simp [hgot, decodeGots, hdecode, Got.Broken, Got.Panics, hrow, hpanics]
    | decodes hgot hrow hdecode =>
      have hsafe := Got.not_panics_of_ret hrow
      rw [hgot, decodeGots, hdecode]
      rcases decodeGots r fields gots with (_ | _) | _ | _ | _ <;> simp [Got.Broken, Got.Panics, hrow, hsafe]

/--
What the gets have to come to for `BatchRead` of the transaction mode driver. It takes a get that fails for one that
finds nothing.
-/
def Readable (gots : List Got) : Prop :=
  (∀ got ∈ gots, ¬ got.Fails ∧ ¬ got.Broken) ∨ ReportsBroken gots

theorem fails_seen (got : Got) : (seen got).Fails ↔ got.Fails := by
  rcases got with err | _ | value
  . rfl
  . rfl
  . dsimp only [seen]
    split
    . simp [Got.Fails]
    . rfl

theorem broken_seen (got : Got) : (seen got).Broken ↔ got.Broken := by
  rcases got with err | _ | value
  . rfl
  . rfl
  . dsimp only [seen]
    split
    . next hempty =>
      rw [List.length_eq_zero_iff] at hempty
      simp [Got.Broken, decodeRow, hempty]
    . rfl

theorem panics_seen (got : Got) : (seen got).Panics ↔ got.Panics := by
  rcases got with err | _ | value
  . rfl
  . rfl
  . dsimp only [seen]
    split
    . next hempty =>
      rw [List.length_eq_zero_iff] at hempty
      have hsafe : ¬ PanicsOn [] := Got.not_panics_of_ret rfl
      simp [Got.Panics, hempty, hsafe]
    . rfl

theorem readable_map_seen (gots : List Got) : Readable (gots.map seen) ↔ Readable gots := by
  have hreports : ReportsBroken (gots.map seen) ↔ ReportsBroken gots := by
    induction gots with
    | nil => rfl
    | cons got gots ih =>
      rw [List.map_cons, reportsBroken_cons, reportsBroken_cons, ih, broken_seen, panics_seen]
  unfold Readable
  rw [hreports]
  simp [fails_seen, broken_seen]

theorem batchReads_iff (db : TxnDB) (gets : Gets) (table : Bytes) (keys fields : List Bytes) (store : KV)
    : BatchReads
        (keys.map (fun key => ((db.read table key fields).exec gets.handleTxn store).1))
        ((db.batchRead table keys fields).exec gets.handleTxn store).1
        ↔
      Readable (gets.rows table keys) := by
  have hreads : keys.map (fun key => ((db.read table key fields).exec gets.handleTxn store).1)
      = ((gets.rows table keys).map seen).map (Got.read db.r fields) := by
    rw [Gets.rows, List.map_map, List.map_map]
    apply List.map_congr_left
    intro key _
    exact db.fst_exec_read_gets gets table key fields store
  have hbatch : (db.batchRead table keys fields).exec gets.handleTxn store
      = (decodeGots db.r fields ((gets.rows table keys).map seen), store) := exec_readRows keys store
  rw [hreads, hbatch, ← readable_map_seen]
  unfold BatchReads Readable
  rw [exists_read_error_iff, decodeGots_eq_error_iff, and_iff_left (fun rows => decodeGots_of_rows)]
  by_cases hreports : ReportsBroken ((gets.rows table keys).map seen)
  . simp [hreports]
  . simp [hreports, not_or]

end TxnDB

theorem batchRead_agrees_iff (raw : RawDB) (txn : TxnDB) (gets : Gets) (ctx : Option RawDBState) (table : Bytes)
    (keys fields : List Bytes) (store : KV)
    : (BatchReads
        (keys.map (fun key => Prod.fst <$> ((raw.read ctx table key fields).exec gets.handleRaw store).1))
        ((raw.batchRead table keys fields).exec gets.handleRaw store).1
        ↔
       RawDB.Readable (gets.rows table keys))
        ∧
      (BatchReads
        (keys.map (fun key => ((txn.read table key fields).exec gets.handleTxn store).1))
        ((txn.batchRead table keys fields).exec gets.handleTxn store).1
        ↔
       TxnDB.Readable (gets.rows table keys)) :=
  ⟨raw.batchReads_iff gets ctx table keys fields store, txn.batchReads_iff gets table keys fields store⟩

theorem not_batchReads_of_ok {read : Outcome (Except String (Option FieldMap))} (err : String)
    {rows : List (Option FieldMap)} (h : read = .ret (.error err))
    : ¬ BatchReads [read] (.ret (.ok rows)) := by
  rintro ⟨herror, _⟩
  rcases herror ⟨read, List.mem_singleton_self read, err, h⟩ with ⟨err', herr'⟩
  cases herr'

-- A row that is cut off in the raw mode, a get that fails in the transaction mode: there is no record, and no error.
theorem batchRead_drops_errors
    : ((((RawDB.mk ⟨∅, []⟩ false).batchRead [116] [[107]] []).exec (Gets.handleRaw (fun _ => .ok (some [1]))) ∅).1
        = .ret (.ok [none])
        ∧
       ¬ BatchReads
          [Prod.fst <$> (((RawDB.mk ⟨∅, []⟩ false).read none [116] [107] []).exec
            (Gets.handleRaw (fun _ => .ok (some [1]))) ∅).1]
          (((RawDB.mk ⟨∅, []⟩ false).batchRead [116] [[107]] []).exec (Gets.handleRaw (fun _ => .ok (some [1]))) ∅).1)
        ∧
      ((((TxnDB.mk ⟨∅, []⟩).batchRead [116] [[107]] []).exec (Gets.handleTxn (fun _ => .error "timeout")) ∅).1
        = .ret (.ok [none])
        ∧
       ¬ BatchReads
          [(((TxnDB.mk ⟨∅, []⟩).read [116] [107] []).exec (Gets.handleTxn (fun _ => .error "timeout")) ∅).1]
          (((TxnDB.mk ⟨∅, []⟩).batchRead [116] [[107]] []).exec (Gets.handleTxn (fun _ => .error "timeout")) ∅).1) := by
  refine ⟨⟨rfl, ?_⟩, rfl, ?_⟩
  . exact not_batchReads_of_ok "insufficient bytes to decode value" rfl
  . exact not_batchReads_of_ok "timeout" rfl

end Tikv
