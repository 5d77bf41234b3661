import GoYcsb.Db.Tikv.Impl.Raw
import GoYcsb.Util.Lemmas.Columns

/-!
This module contains the verification of the raw mode driver from `GoYcsb.Db.Tikv.Impl.Raw`: in both
update modes it implements a map from row keys to columns.
-/

namespace Tikv

open Util

abbrev Rows := Bytes → Option Columns

namespace Rows

def merge (rows : Rows) (r : RowCodec) (rowKey : Bytes) (values : FieldMap) : Rows :=
  Function.update rows rowKey (some (r.overlay ((rows rowKey).getD (fun _ => none)) values))

def put (rows : Rows) (r : RowCodec) (rowKey : Bytes) (values : FieldMap) : Rows :=
  Function.update rows rowKey (some (r.columnsOf values))

def erase (rows : Rows) (rowKey : Bytes) : Rows := Function.update rows rowKey none

def putAll (rows : Rows) (r : RowCodec) (table : Bytes) (entries : List (Bytes × FieldMap)) : Rows :=
  entries.foldl (fun rows entry => rows.put r (getRowKey table entry.1) entry.2) rows

def eraseAll (rows : Rows) (table : Bytes) (keys : List Bytes) : Rows :=
  keys.foldl (fun rows key => rows.erase (getRowKey table key)) rows

def apply (rows : Rows) (r : RowCodec) (call : RawDB.Call) : Rows :=
  match call with
  | .read _ _ _ | .batchRead _ _ _ => rows
  | .update table key values => rows.merge r (getRowKey table key) values
  | .insert table key values => rows.put r (getRowKey table key) values
  | .batchUpdate table keys values | .batchInsert table keys values =>
    rows.putAll r table (keys.zip values)
  | .delete table key => rows.erase (getRowKey table key)
  | .batchDelete table keys => rows.eraseAll table keys

end Rows

def Represents (r : RowCodec) (store : KV) (rows : Rows) : Prop :=
  ∀ key, Option.Rel r.Stores (store.lookup key) (rows key)

namespace Represents

variable {r : RowCodec} {store : KV} {rows : Rows}

theorem elim (h : Represents r store rows) (key : Bytes)
    : (∃ row columns, store.lookup key = some row ∧ rows key = some columns ∧ r.Stores row columns)
        ∨
      (store.lookup key = none ∧ rows key = none) := by
  have hkey := h key
  generalize store.lookup key = row at hkey ⊢
  generalize rows key = columns at hkey ⊢
  cases hkey with
  | some hrow => exact .inl ⟨_, _, rfl, rfl, hrow⟩
  | none => exact .inr ⟨rfl, rfl⟩

theorem insert (h : Represents r store rows) (key : Bytes) {row : Bytes} {columns : Columns}
    (hrow : r.Stores row columns)
    : Represents r (store.insert key row) (Function.update rows key (some columns)) := by
  intro key'
  rw [GoMap.lookup_insert]
  split
  . next heq =>
    subst heq
    rw [Function.update_self]
    exact .some hrow
  . next hne =>
    rw [Function.update_of_ne hne]
    apply h

theorem erase (h : Represents r store rows) (key : Bytes)
    : Represents r (store.erase key) (rows.erase key) := by
  intro key'
  unfold Rows.erase
  by_cases heq : key' = key
  . subst heq
    rw [Function.update_self, AList.lookup_erase]
    exact .none
  . rw [Function.update_of_ne heq, AList.lookup_erase_ne heq]
    apply h

theorem insertAll (h : Represents r store rows) (table : Bytes) {keys : List Bytes}
    {values : List FieldMap} {rawValues : List Bytes}
    (hrows : List.Forall₂ (fun row values => r.Stores row (r.columnsOf values)) rawValues
      (values.take keys.length))
    : Represents r (store.insertAll ((keys.map (getRowKey table)).zip rawValues))
        (rows.putAll r table (keys.zip values)) := by
  induction keys generalizing store rows values rawValues with
  | nil => exact h
  | cons key keys ih =>
    cases values with
    | nil =>
      cases hrows
      exact h
    | cons value values =>
      rw [List.length_cons, List.take_succ_cons] at hrows
      cases hrows with
      | cons hrow hrows => exact ih (h.insert (getRowKey table key) hrow) hrows

theorem eraseAll (h : Represents r store rows) (table : Bytes) (keys : List Bytes)
    : Represents r ((keys.map (getRowKey table)).foldl (fun store key => store.erase key) store)
        (rows.eraseAll table keys) := by
  induction keys generalizing store rows with
  | nil => exact h
  | cons key keys ih => exact ih (h.erase (getRowKey table key))

end Represents

-- The thread has cached a row that was stored at some time, whatever has become of it since.
def CtxValid (r : RowCodec) (ctx : Option RawDBState) : Prop :=
  ∀ state row, ctx = some state → state.row = some row → ∃ columns, r.Stores row columns

theorem ctxValid_cache {r : RowCodec} {row : Bytes} {columns : Columns} (hrow : r.Stores row columns)
    (ctx : Option RawDBState) (rowKey : Bytes)
    : CtxValid r (ctx.map (fun _ => ⟨rowKey, some row⟩)) := by
  intro state row' hstate hrow'
  rcases Option.map_eq_some_iff.mp hstate with ⟨_, _, rfl⟩
  cases hrow'
  exact ⟨columns, hrow⟩

namespace RawDB

namespace Call

def Accepted (r : RowCodec) (call : Call) : Prop :=
  match call with
  | .read _ _ _ | .batchRead _ _ _ | .delete _ _ | .batchDelete _ _ => True
  | .update _ _ values | .insert _ _ values => r.Accepts values
  | .batchUpdate _ _ values | .batchInsert _ _ values => ∀ value ∈ values, r.Accepts value

def Indexed (call : Call) : Prop :=
  match call with
  | .batchUpdate _ keys values | .batchInsert _ keys values => keys.length ≤ values.length
  | .read _ _ _ | .batchRead _ _ _ | .update _ _ _ | .insert _ _ _ | .delete _ _
  | .batchDelete _ _ => True

def indexError (call : Call) : String :=
  match call with
  | .batchUpdate _ _ values | .batchInsert _ _ values =>
    let len := values.length
    s!"runtime error: index out of range [{len}] with length {len}"
  | .read _ _ _ | .batchRead _ _ _ | .update _ _ _ | .insert _ _ _ | .delete _ _
  | .batchDelete _ _ => ""

end Call

def Selects (r : RowCodec) (fields : List Bytes) (row : Option FieldMap) (columns : Option Columns)
    : Prop :=
  Option.Rel (fun values columns => ∀ field,
    values.lookup field = if field ∈ r.requested fields then columns (r.fieldIndex field) else none)
    row columns

def Answers (r : RowCodec) (rows : Rows) (call : Call) (res : Result) : Prop :=
  match call with
  | .read table key fields =>
    ∃ row, res = .row (.ok row) ∧ Selects r fields row (rows (getRowKey table key))
  | .batchRead table keys fields =>
    ∃ found,
      res = .rows (.ok found)
        ∧
      List.Forall₂ (Selects r fields) found (keys.map (fun key => rows (getRowKey table key)))
  | .update _ _ _ | .batchUpdate _ _ _ | .insert _ _ _ | .batchInsert _ _ _ | .delete _ _
  | .batchDelete _ _ => res = .unit (.ok ())

section

variable {p : Properties} {db : RawDB} {store : KV} {rows : Rows} {ctx : Option RawDBState}
  {values : FieldMap}

theorem exec_get_bind {α : Type} (key : Bytes) (f : Except String (Option Bytes) → Raw α) (store : KV)
    : (Rawkv.get key >>= f).exec RawRequest.handle store
        =
      (f (.ok (store.lookup key))).exec RawRequest.handle store := rfl

theorem exec_batchGet_bind {α : Type} (keys : List Bytes)
    (f : Except String (List (Option Bytes)) → Raw α) (store : KV)
    : (Rawkv.batchGet keys >>= f).exec RawRequest.handle store
        =
      (f (.ok (keys.map (fun key => store.lookup key)))).exec RawRequest.handle store := rfl

theorem exec_insert (hr : db.r.Configured p) (h : Represents db.r store rows)
    (hvalues : db.r.Accepts values) (order : GoMap.Order Bytes Bytes) (table key : Bytes)
    : ∃ store',
        (db.insert order table key values).exec RawRequest.handle store = (.ret (.ok ()), store')
          ∧
        Represents db.r store' (rows.put db.r (getRowKey table key) values) := by
  rcases hvalues.encode hr order with ⟨row, hencode, hrow⟩
  refine ⟨store.insert (getRowKey table key) row, ?_, h.insert _ hrow⟩
  unfold RawDB.insert
  rw [hencode]
  rfl

theorem exec_getAndPut (hr : db.r.Configured p) {table key : Bytes} {columns : Columns}
    (hrow : Holds ((store.lookup (getRowKey table key)).getD []) columns)
    (hlen : ∀ entry ∈ values.entries, entry.2.length < 2 ^ 63) (order : GoMap.Order Bytes Bytes)
    : ∃ data row,
        db.r.Decoded columns data
          ∧
        db.r.encode [] (order.visit (data.merge values)) = .ok row
          ∧
        (db.getAndPut order table key values).exec RawRequest.handle store
          = (.ret (.ok ()), store.insert (getRowKey table key) row) := by
  rcases hrow.decode_nil db.r with ⟨data, hdecode, hdata⟩
  rcases RowCodec.encode_merge_holds hr hdata hrow.length hlen order with ⟨row, hencode, _⟩
  refine ⟨data, row, hdata, hencode, ?_⟩
  unfold getAndPut
  rw [exec_get_bind]
  dsimp only
  rw [hdecode, Rpc.lift_ret_bind]
  dsimp only
  unfold RawDB.insert
  rw [hencode]
  rfl

theorem of_cachedRow {rowKey row : Bytes} (h : db.cachedRow ctx rowKey = some row)
    : ∃ state, ctx = some state ∧ state.row = some row := by
  unfold cachedRow at h
  split at h
  . cases ctx with
    | none => contradiction
    | some state =>
      dsimp only at h
      split at h
      . exact ⟨state, rfl, h⟩
      . contradiction
  . contradiction

theorem handle_compareAndSwap (key previousValue newValue : Bytes) (store : KV)
    : RawRequest.handle (.compareAndSwap key previousValue newValue) store
        =
      if store.lookup key = some previousValue then
        (.ok (store.lookup key, true), store.insert key newValue)
      else
        (.ok (store.lookup key, false), store) := by
  simp only [RawRequest.handle, RawRequest.apply]
  split <;> rfl

theorem exec_compareAndSwap_bind {α : Type} (key previousValue newValue : Bytes)
    (f : Except String (Option Bytes × Bool) → Raw α) (store : KV)
    : (Rawkv.compareAndSwap key previousValue newValue >>= f).exec RawRequest.handle store
        =
      if store.lookup key = some previousValue then
        (f (.ok (store.lookup key, true))).exec RawRequest.handle (store.insert key newValue)
      else
        (f (.ok (store.lookup key, false))).exec RawRequest.handle store := by
  unfold Rawkv.compareAndSwap
  rw [Rpc.send_bind, Rpc.exec_call, handle_compareAndSwap]
  split <;> rfl

theorem exec_update_eq (hr : db.r.Configured p) {table key : Bytes} {columns : Columns}
    (hrow : Holds ((store.lookup (getRowKey table key)).getD []) columns)
    (hctx : ∀ state row, ctx = some state → state.row = some row → ∃ columns, Holds row columns)
    (hlen : ∀ entry ∈ values.entries, entry.2.length < 2 ^ 63) (orders : Orders)
    : ∃ i data row ctx',
        db.r.Decoded columns data
          ∧
        db.r.encode [] ((orders i).visit (data.merge values)) = .ok row
          ∧
        (db.update orders ctx table key values).exec RawRequest.handle store
          = (.ret (.ok (), ctx'), store.insert (getRowKey table key) row)
          ∧
        ∀ state row, ctx' = some state → state.row = some row → ctx = some state := by
  rcases exec_getAndPut hr hrow hlen (orders 0) with ⟨data, row, hdata, hencode, hexec⟩
  have hclear : ∀ state row, ctx.map (fun _ => ⟨[], none⟩) = some state → state.row = some row →
      ctx = some state := by
    intro state row hstate hrow
    rcases Option.map_eq_some_iff.mp hstate with ⟨old, _, rfl⟩
    contradiction
  unfold RawDB.update
  dsimp only
  cases hcached : db.cachedRow ctx (getRowKey table key) with
  | none =>
    refine ⟨0, data, row, ctx, hdata, hencode, ?_, fun _ _ hstate _ => hstate⟩
    dsimp only
    rw [Rpc.exec_bind_ret hexec]
    rfl
  | some prevRow =>
    rcases of_cachedRow hcached with ⟨state, hstate, hprev⟩
    rcases hctx state prevRow hstate hprev with ⟨prevColumns, hholds⟩
    rcases hholds.decode_nil db.r with ⟨prevData, hdecode, hprevData⟩
    rcases RowCodec.encode_merge_holds hr hprevData hholds.length hlen (orders 1) with ⟨buf, hbuf, _⟩
    dsimp only
    rw [hdecode, Rpc.lift_ret_bind]
    dsimp only
    rw [hbuf]
    dsimp only
    rw [exec_compareAndSwap_bind]
    split
    . next hlookup =>
      rw [hlookup, Option.getD_some] at hrow
      rw [hholds.unique hrow] at hprevData
      exact ⟨1, prevData, buf, _, hprevData, hbuf, rfl, hclear⟩
    . refine ⟨0, data, row, _, hdata, hencode, ?_, hclear⟩
      dsimp only
      rw [Rpc.exec_bind_ret hexec]
      rfl

theorem exec_update (hr : db.r.Configured p) (h : Represents db.r store rows)
    (hctx : CtxValid db.r ctx) (hvalues : db.r.Accepts values) (orders : Orders) (table key : Bytes)
    : ∃ ctx' store',
        (db.update orders ctx table key values).exec RawRequest.handle store
          = (.ret (.ok (), ctx'), store')
          ∧
        CtxValid db.r ctx'
          ∧
        Represents db.r store' (rows.merge db.r (getRowKey table key) values) := by
  have hstored : ∃ columns,
      Holds ((store.lookup (getRowKey table key)).getD []) columns
        ∧
      (∀ c v, columns c = some v → ∃ field ∈ db.r.fields, db.r.fieldIndex field = c)
        ∧
      (rows (getRowKey table key)).getD (fun _ => none) = columns := by
    rcases h.elim (getRowKey table key) with ⟨row, columns, hlookup, hrows, hrow⟩ | ⟨hlookup, hrows⟩
    . rw [hlookup, hrows]
      exact ⟨columns, hrow.toHolds, hrow.configured, rfl⟩
    . rw [hlookup, hrows]
      exact ⟨_, holds_nil, by simp, rfl⟩
  have hholds : ∀ state row, ctx = some state → state.row = some row → ∃ columns, Holds row columns := by
    intro state row hstate hrow
    rcases hctx state row hstate hrow with ⟨columns, hrow⟩
    exact ⟨columns, hrow.toHolds⟩
  rcases hstored with ⟨columns, hrow, hconfigured, hcolumns⟩
  rcases exec_update_eq hr hrow hholds hvalues.length orders
    with ⟨i, data, row, ctx', hdata, hencode, hexec, hctx'⟩
  rcases RowCodec.encode_merge hr hdata hrow.length hconfigured hvalues (orders i)
    with ⟨row', hencode', hrow'⟩
  rw [hencode] at hencode'
  cases hencode'
  refine ⟨ctx', _, hexec, ?_, ?_⟩
  . intro state row hstate hrow
    apply hctx state row (hctx' state row hstate hrow) hrow
  . unfold Rows.merge
    rw [hcolumns]
    apply h.insert _ hrow'

theorem exec_read (h : Represents db.r store rows) (hctx : CtxValid db.r ctx) (table key : Bytes)
    (fields : List Bytes)
    : ∃ row ctx',
        (db.read ctx table key fields).exec RawRequest.handle store = (.ret (.ok row, ctx'), store)
          ∧
        Selects db.r fields row (rows (getRowKey table key))
          ∧
        CtxValid db.r ctx' := by
  unfold RawDB.read
  dsimp only
  rw [exec_get_bind]
  rcases h.elim (getRowKey table key) with ⟨row, columns, hlookup, hrows, hrow⟩ | ⟨hlookup, hrows⟩
  . rcases hrow.decode db.r fields with ⟨found, hdecode, hfound⟩
    rw [hlookup, hrows]
    dsimp only
    rw [hdecode, Rpc.lift_ret_bind]
    refine ⟨_, _, rfl, .some hfound, ?_⟩
    split
    . apply ctxValid_cache hrow
    . exact hctx
  . rw [hlookup, hrows]
    exact ⟨_, _, rfl, .none, hctx⟩

theorem decodeValues_lookup (h : Represents db.r store rows) (rowKeys fields : List Bytes)
    : ∃ found,
        db.decodeValues (rowKeys.map (fun key => store.lookup key)) fields = .ret found
          ∧
        List.Forall₂ (Selects db.r fields) found (rowKeys.map rows) := by
  induction rowKeys with
  | nil => exact ⟨[], rfl, .nil⟩
  | cons rowKey rowKeys ih =>
    rcases ih with ⟨found, hfound, hselects⟩
    have hvalue : ∃ row,
        db.decodeValue (store.lookup rowKey) fields = .ret row ∧ Selects db.r fields row (rows rowKey) := by
      unfold decodeValue
      rcases h.elim rowKey with ⟨row, columns, hlookup, hrows, hrow⟩ | ⟨hlookup, hrows⟩
      . rcases hrow.decode db.r fields with ⟨res, hdecode, hres⟩
        have hlength : 0 < row.length := List.length_pos_iff.mpr hrow.nonempty
        rw [hlookup, hrows]
        dsimp only [Option.getD_some]
        rw [if_pos hlength, hdecode]
        exact ⟨_, rfl, .some hres⟩
      . rw [hlookup, hrows]
        exact ⟨_, rfl, .none⟩
    rcases hvalue with ⟨row, hrow, hselect⟩
    refine ⟨row :: found, ?_, .cons hselect hselects⟩
    rw [List.map_cons, decodeValues, hrow, hfound]
    rfl

theorem encodeRows_cases (db : RawDB) {R : GoMap.Order Bytes Bytes → Bytes → FieldMap → Prop}
    {values : List FieldMap}
    (hencode : ∀ value ∈ values, ∀ order,
      ∃ row, db.r.encode [] (order.visit value) = .ok row ∧ R order row value)
    (orders : Orders) (i : Nat) (keys : List Bytes)
    : (keys.length ≤ values.length
        ∧
       ∃ rawValues,
        db.encodeRows orders i keys values = .ret (.ok rawValues)
          ∧
        List.Forall₂ (fun row value => ∃ j, R (orders j) row value) rawValues (values.take keys.length))
        ∨
      (values.length < keys.length
        ∧
       let len := i + values.length
       db.encodeRows orders i keys values
        = .panic s!"runtime error: index out of range [{len}] with length {len}") := by
  induction keys generalizing i values with
  | nil =>
    left
    exact ⟨Nat.zero_le _, [], rfl, .nil⟩
  | cons key keys ih =>
    cases values with
    | nil =>
      right
      exact ⟨Nat.zero_lt_succ _, rfl⟩
    | cons value values =>
      rw [List.forall_mem_cons] at hencode
      rcases hencode.1 (orders i) with ⟨row, hrow, hR⟩
      rcases ih hencode.2 (i + 1) with ⟨hle, rawValues, hrest, hrows⟩ | ⟨hlt, hrest⟩
      . left
        refine ⟨Nat.succ_le_succ hle, row :: rawValues, ?_, .cons ⟨i, hR⟩ hrows⟩
        rw [encodeRows, hrow]
        dsimp only
        rw [hrest]
        rfl
      . right
        refine ⟨Nat.succ_lt_succ hlt, ?_⟩
        rw [encodeRows, hrow]
        dsimp only at hrest ⊢
        rw [hrest]
        rw [List.length_cons, Nat.add_right_comm, Nat.add_assoc]
        rfl

theorem exec_putRows (hr : db.r.Configured p) (h : Represents db.r store rows)
    {values : List FieldMap} (hvalues : ∀ value ∈ values, db.r.Accepts value) (orders : Orders)
    (table : Bytes) (keys : List Bytes)
    : (keys.length ≤ values.length
        ∧
       ∃ store',
        (db.putRows orders table keys values).exec RawRequest.handle store = (.ret (.ok ()), store')
          ∧
        Represents db.r store' (rows.putAll db.r table (keys.zip values)))
        ∨
      (values.length < keys.length
        ∧
       let len := values.length
       (db.putRows orders table keys values).exec RawRequest.handle store
        = (.panic s!"runtime error: index out of range [{len}] with length {len}", store)) := by
  unfold putRows
  rcases encodeRows_cases db (fun value hvalue => (hvalues value hvalue).encode hr) orders 0 keys
    with ⟨hle, rawValues, hencode, hrows⟩ | ⟨hlt, hencode⟩
  . left
    refine ⟨hle, _, ?_, h.insertAll table (hrows.imp (fun _ _ hrow => hrow.choose_spec))⟩
    rw [hencode]
    rfl
  . right
    refine ⟨hlt, ?_⟩
    rw [hencode]
    rw [Nat.zero_add]
    rfl

theorem serve_putRows (hr : db.r.Configured p) (h : Represents db.r store rows)
    (hctx : CtxValid db.r ctx) {values : List FieldMap} (hvalues : ∀ value ∈ values, db.r.Accepts value)
    (orders : Orders) (table : Bytes) (keys : List Bytes)
    : (keys.length ≤ values.length
        ∧
       ∃ res ctx' store',
        (db.putRows orders table keys values >>= fun res => pure (Result.unit res, ctx)).exec
          RawRequest.handle store
          = (.ret (res, ctx'), store')
          ∧
        res = .unit (.ok ())
          ∧
        CtxValid db.r ctx'
          ∧
        Represents db.r store' (rows.putAll db.r table (keys.zip values)))
        ∨
      (¬ keys.length ≤ values.length
        ∧
       let len := values.length
       (db.putRows orders table keys values >>= fun res => pure (Result.unit res, ctx)).exec
         RawRequest.handle store
         = (.panic s!"runtime error: index out of range [{len}] with length {len}", store)) := by
  rcases exec_putRows hr h hvalues orders table keys with ⟨hle, store', hexec, h'⟩ | ⟨hlt, hexec⟩
  . left
    refine ⟨hle, _, ctx, store', ?_, rfl, hctx, h'⟩
    rw [Rpc.exec_bind_ret hexec]
    rfl
  . right
    refine ⟨Nat.not_le.mpr hlt, ?_⟩
    apply Rpc.exec_bind_panic hexec

theorem serve_refines (db : RawDB) (hr : db.r.Configured p) (h : Represents db.r store rows)
    (hctx : CtxValid db.r ctx) {call : Call} (hcall : call.Accepted db.r) (orders : Orders)
    : (call.Indexed
        ∧
       ∃ res ctx' store',
        (db.serve orders ctx call).exec RawRequest.handle store = (.ret (res, ctx'), store')
          ∧
        Answers db.r rows call res
          ∧
        CtxValid db.r ctx'
          ∧
        Represents db.r store' (rows.apply db.r call))
        ∨
      (¬ call.Indexed
        ∧
       (db.serve orders ctx call).exec RawRequest.handle store = (.panic call.indexError, store)) := by
  cases call with
  | read table key fields =>
    left
    rcases exec_read h hctx table key fields with ⟨row, ctx', hexec, hrow, hctx'⟩
    refine ⟨trivial, _, ctx', store, ?_, ⟨row, rfl, hrow⟩, hctx', h⟩
    rw [serve, Rpc.exec_bind_ret hexec]
    rfl
  | batchRead table keys fields =>
    left
    rcases decodeValues_lookup h (keys.map (getRowKey table)) fields with ⟨found, hdecode, hfound⟩
    rw [List.map_map] at hfound
    refine ⟨trivial, _, ctx, store, ?_, ⟨found, rfl, hfound⟩, hctx, h⟩
    have hexec : (db.batchRead table keys fields).exec RawRequest.handle store
        = (.ret (.ok found), store) := by
      unfold batchRead
      rw [exec_batchGet_bind]
      dsimp only
      rw [hdecode]
      rfl
    rw [serve, Rpc.exec_bind_ret hexec]
    rfl
  | update table key values =>
    left
    rcases exec_update hr h hctx hcall orders table key with ⟨ctx', store', hexec, hctx', h'⟩
    refine ⟨trivial, _, ctx', store', ?_, rfl, hctx', h'⟩
    rw [serve, Rpc.exec_bind_ret hexec]
    rfl
  | insert table key values =>
    left
    rcases exec_insert hr h hcall (orders 0) table key with ⟨store', hexec, h'⟩
    refine ⟨trivial, _, ctx, store', ?_, rfl, hctx, h'⟩
    rw [serve, Rpc.exec_bind_ret hexec]
    rfl
  | batchUpdate table keys values => apply serve_putRows hr h hctx hcall orders table keys
  | batchInsert table keys values => apply serve_putRows hr h hctx hcall orders table keys
  | delete table key =>
    left
    exact ⟨trivial, _, ctx, _, rfl, rfl, hctx, h.erase _⟩
  | batchDelete table keys =>
    left
    exact ⟨trivial, _, ctx, _, rfl, rfl, hctx, h.eraseAll table keys⟩

end

end RawDB

def SameFields (values values' : FieldMap) : Prop := ∀ field, values.lookup field = values'.lookup field

inductive RawDB.Result.Same : RawDB.Result → RawDB.Result → Prop where
  | row {found found' : Option FieldMap} : Option.Rel SameFields found found' →
      Same (.row (.ok found)) (.row (.ok found'))
  | rows {found found' : List (Option FieldMap)} : List.Forall₂ (Option.Rel SameFields) found found' →
      Same (.rows (.ok found)) (.rows (.ok found'))
  | unit (res : Except String Unit) : Same (.unit res) (.unit res)

def SameRows (r : RowCodec) (store store' : KV) : Prop :=
  ∀ key,
    Option.Rel (fun row row' => ∃ data data',
      r.decode row [] = .ret (.ok data) ∧ r.decode row' [] = .ret (.ok data') ∧ SameFields data data')
      (store.lookup key) (store'.lookup key)

theorem Represents.sameRows {r : RowCodec} {store store' : KV} {rows : Rows}
    (h : Represents r store rows) (h' : Represents r store' rows)
    : SameRows r store store' := by
  intro key
  rcases h.elim key with ⟨row, columns, hlookup, hrows, hrow⟩ | ⟨hlookup, hrows⟩
  . rcases h'.elim key with ⟨row', columns', hlookup', hrows', hrow'⟩ | ⟨_, hrows'⟩
    . rw [hrows] at hrows'
      cases hrows'
      rcases hrow.decode_nil r with ⟨data, hdecode, hdata⟩
      rcases hrow'.decode_nil r with ⟨data', hdecode', hdata'⟩
      rw [hlookup, hlookup']
      refine .some ⟨data, data', hdecode, hdecode', fun field => ?_⟩
      rw [hdata.lookup, hdata'.lookup]
    . rw [hrows] at hrows'
      contradiction
  . rcases h'.elim key with ⟨_, columns', _, hrows', _⟩ | ⟨hlookup', _⟩
    . rw [hrows] at hrows'
      contradiction
    . rw [hlookup, hlookup']
      exact .none

def fieldOf (r : RowCodec) (store : KV) (rowKey field : Bytes) : Option Bytes :=
  (store.lookup rowKey).bind (fun row =>
    match r.decode row [] with
    | .ret (.ok data) => data.lookup field
    | _ => none)

theorem SameRows.fieldOf_eq {r : RowCodec} {store store' : KV} (h : SameRows r store store') (rowKey field : Bytes)
    : fieldOf r store rowKey field = fieldOf r store' rowKey field := by
  have hkey := h rowKey
  unfold fieldOf
  generalize store.lookup rowKey = row at hkey
  generalize store'.lookup rowKey = row' at hkey
  cases hkey with
  | none => rfl
  | some hsame =>
    rcases hsame with ⟨data, data', hdata, hdata', hfields⟩
    rw [Option.bind_some, Option.bind_some, hdata, hdata']
    apply hfields

def rowsOf (store : KV) : Rows :=
  fun key => (store.lookup key).map (fun row =>
    match decodeRow row with
    | .ret (data, none) => fun c => data.lookup c
    | _ => fun _ => none)

theorem represents_rowsOf {r : RowCodec} {store : KV}
    (h : ∀ key row, store.lookup key = some row → ∃ columns, r.Stores row columns)
    : Represents r store (rowsOf store) := by
  intro key
  unfold rowsOf
  cases hlookup : store.lookup key with
  | none => exact .none
  | some row =>
    rcases h key row hlookup with ⟨columns, hrow⟩
    rcases hrow.data with ⟨data, hdata, hcolumns⟩
    have hsame : columns = fun c => data.lookup c := by
      funext c
      rw [hcolumns]
    rw [Option.map_some, hdata]
    apply Option.Rel.some
    rw [hsame] at hrow
    exact hrow

def twoFields : Properties where
  fieldCount := some ⟨2, I64.inRange_two⟩

def pairRow : FieldMap := GoMap.insertAll ∅ [(fieldName 0, [97]), (fieldName 1, [98])]

def pairStore : KV :=
  match newRowCodec twoFields >>= fun r => .ret (r.encode [] pairRow) with
  | .ret (.ok row) => AList.insert [116, 58, 107] row ∅
  | _ => ∅

theorem pairStore_stores {r : RowCodec} (hr : newRowCodec twoFields = .ret r)
    : ∀ key row, pairStore.lookup key = some row → ∃ columns, r.Stores row columns := by
  have hvalues : r.Accepts pairRow := by
    cases hr
    exact ⟨by decide, by decide⟩
  rcases hvalues.encode (configured_of_newRowCodec hr) .id with ⟨buf, hencode, hbuf⟩
  have hstore : pairStore = AList.insert [116, 58, 107] buf ∅ := by
    unfold pairStore
    rw [hr, Outcome.ret_bind]
    dsimp only [GoMap.Order.id] at hencode
    rw [hencode]
  intro key row hlookup
  rw [hstore, GoMap.lookup_insert] at hlookup
  split at hlookup
  . cases hlookup
    exact ⟨_, hbuf⟩
  . contradiction

namespace RawDB

theorem Selects.same {r : RowCodec} {fields : List Bytes} {found found' : Option FieldMap}
    {columns : Option Columns} (h : Selects r fields found columns) (h' : Selects r fields found' columns)
    : Option.Rel SameFields found found' := by
  cases h with
  | none =>
    cases h'
    exact .none
  | some h =>
    cases h' with
    | some h' =>
      apply Option.Rel.some
      intro field
      rw [h, h']

theorem Answers.same {r : RowCodec} {rows : Rows} {call : Call} {res res' : Result}
    (h : Answers r rows call res) (h' : Answers r rows call res')
    : res.Same res' := by
  cases call with
  | read table key fields =>
    rcases h with ⟨row, rfl, hrow⟩
    rcases h' with ⟨row', rfl, hrow'⟩
    exact .row (hrow.same hrow')
  | batchRead table keys fields =>
    rcases h with ⟨found, rfl, hfound⟩
    rcases h' with ⟨found', rfl, hfound'⟩
    apply Result.Same.rows
    generalize keys.map (fun key => rows (getRowKey table key)) = columns at hfound hfound'
    induction hfound generalizing found' with
    | nil =>
      cases hfound'
      exact .nil
    | cons hrow _ ih =>
      cases hfound' with
      | cons hrow' hrest' => exact .cons (hrow.same hrow') (ih _ hrest')
  | update table key values =>
    cases h
    cases h'
    exact .unit _
  | batchUpdate table keys values =>
    cases h
    cases h'
    exact .unit _
  | insert table key values =>
    cases h
    cases h'
    exact .unit _
  | batchInsert table keys values =>
    cases h
    cases h'
    exact .unit _
  | delete table key =>
    cases h
    cases h'
    exact .unit _
  | batchDelete table keys =>
    cases h
    cases h'
    exact .unit _

section

variable {W : Type} [DecidableEq W] {p : Properties} {r : RowCodec}

theorem ctxValid_update {ctx : W → Option RawDBState} (h : ∀ w, CtxValid r (ctx w)) (w : W)
    {ctx' : Option RawDBState} (hctx' : CtxValid r ctx')
    : ∀ w', CtxValid r (Function.update ctx w ctx' w') := by
  intro w'
  by_cases heq : w' = w
  . subst heq
    rw [Function.update_self]
    exact hctx'
  . rw [Function.update_of_ne heq]
    apply h

-- Two runs on stores that mean the same rows stay together, whatever the threads have cached.
theorem serveAll_rel (hr : r.Configured p) (casMode casMode' : Bool) (orders orders' : Nat → Orders)
    {calls : List (W × Call)} (hcalls : ∀ call ∈ calls, call.2.Accepted r) {s s' : State W} {rows : Rows}
    (h : Represents r s.store rows) (h' : Represents r s'.store rows)
    (hctx : ∀ w, CtxValid r (s.ctx w)) (hctx' : ∀ w, CtxValid r (s'.ctx w))
    : Outcome.Rel
        (fun res res' => List.Forall₂ Result.Same res.1 res'.1 ∧ SameRows r res.2.store res'.2.store)
        (serveAll ⟨r, casMode⟩ orders s calls) (serveAll ⟨r, casMode'⟩ orders' s' calls) := by
  induction calls generalizing s s' rows with
  | nil => exact .ret ⟨.nil, h.sameRows h'⟩
  | cons call calls ih =>
    rw [List.forall_mem_cons] at hcalls
    rcases serve_refines ⟨r, casMode⟩ hr h (hctx call.1) hcalls.1 (orders calls.length)
      with ⟨hindexed, res, ctx, store, hexec, hres, hvalid, hstore⟩ | ⟨hindexed, hexec⟩
    . rcases serve_refines ⟨r, casMode'⟩ hr h' (hctx' call.1) hcalls.1 (orders' calls.length)
        with ⟨_, res', ctx', store', hexec', hres', hvalid', hstore'⟩ | ⟨hnot, _⟩
      . simp only [serveAll, hexec, hexec', Outcome.ret_bind]
        apply Outcome.Rel.bind
        . apply ih hcalls.2 hstore hstore'
          . apply ctxValid_update hctx _ hvalid
          . apply ctxValid_update hctx' _ hvalid'
        . intro x y hxy
          exact .ret ⟨.cons (hres.same hres') hxy.1, hxy.2⟩
      . contradiction
    . rcases serve_refines ⟨r, casMode'⟩ hr h' (hctx' call.1) hcalls.1 (orders' calls.length)
        with ⟨hindexed', _⟩ | ⟨_, hexec'⟩
      . contradiction
      . simp only [serveAll, hexec, hexec']
        exact .panic _

theorem serveAll_ret (hr : r.Configured p) (casMode : Bool) (orders : Nat → Orders)
    {calls : List (W × Call)} (hcalls : ∀ call ∈ calls, call.2.Accepted r)
    (hindexed : ∀ call ∈ calls, call.2.Indexed) {s : State W} {rows : Rows}
    (h : Represents r s.store rows) (hctx : ∀ w, CtxValid r (s.ctx w))
    : ∃ res, serveAll ⟨r, casMode⟩ orders s calls = .ret res := by
  induction calls generalizing s rows with
  | nil => exact ⟨_, rfl⟩
  | cons call calls ih =>
    rw [List.forall_mem_cons] at hcalls hindexed
    rcases serve_refines ⟨r, casMode⟩ hr h (hctx call.1) hcalls.1 (orders calls.length)
      with ⟨_, res, ctx, store, hexec, _, hvalid, hstore⟩ | ⟨hnot, _⟩
    . have hrest : ∃ res,
          serveAll ⟨r, casMode⟩ orders { store, ctx := Function.update s.ctx call.1 ctx } calls
            = .ret res := by
        apply ih hcalls.2 hindexed.2 hstore
        apply ctxValid_update hctx _ hvalid
      rcases hrest with ⟨rest, hrest⟩
      simp only [serveAll, hexec, Outcome.ret_bind]
      rw [hrest]
      exact ⟨_, rfl⟩
    . exact absurd hindexed.1 hnot

end

theorem of_createRawDB {p : Properties} {db : RawDB} (h : createRawDB p = .ret db)
    : newRowCodec p = .ret db.r := by
  rcases Outcome.bind_eq_ret h with ⟨r, hr, h⟩
  cases h
  exact hr

theorem newRowCodec_updateMode (p : Properties) (mode : Option String)
    : newRowCodec { p with tikvUpdateMode := mode } = newRowCodec p := rfl

theorem cas_eq_getput {W : Type} [DecidableEq W] {p : Properties} {cas getput : RawDB}
    (hcas : createRawDB { p with tikvUpdateMode := some "cas" } = .ret cas)
    (hgetput : createRawDB { p with tikvUpdateMode := some "getput" } = .ret getput)
    {s : State W}
    (hstore : ∀ key row, s.store.lookup key = some row → ∃ columns, cas.r.Stores row columns)
    (hctx : ∀ w, CtxValid cas.r (s.ctx w)) {calls : List (W × Call)}
    (hcalls : ∀ call ∈ calls, call.2.Accepted cas.r) (orders orders' : Nat → Orders)
    : Outcome.Rel
        (fun res res' =>
          List.Forall₂ Result.Same res.1 res'.1 ∧ SameRows cas.r res.2.store res'.2.store)
        (cas.serveAll orders s calls) (getput.serveAll orders' s calls)
        ∧
      ((∀ call ∈ calls, call.2.Indexed) → ∃ res, cas.serveAll orders s calls = .ret res) := by
  have hconf := configured_of_newRowCodec (of_createRawDB hcas)
  have hrows := represents_rowsOf hstore
  rcases cas with ⟨r, casMode⟩
  rcases getput with ⟨r', casMode'⟩
  have hr := of_createRawDB hcas
  have hr' := of_createRawDB hgetput
  rw [newRowCodec_updateMode] at hr hr'
  rw [hr] at hr'
  cases hr'
  constructor
  . apply serveAll_rel hconf casMode casMode' orders orders' hcalls hrows hrows hctx hctx
  . intro hindexed
    apply serveAll_ret hconf casMode orders hcalls hindexed hrows hctx

def staleCalls : List (Bool × Call) :=
  [(false, .insert [116] [107] (GoMap.insertAll ∅ [(fieldName 0, [97]), (fieldName 1, [98])])),
   (false, .read [116] [107] []),
   (true, .update [116] [107] (GoMap.insertAll ∅ [(fieldName 0, [99])])),
   (false, .update [116] [107] (GoMap.insertAll ∅ [(fieldName 1, [100])])),
   (true, .batchRead [116] [[107], [108]] [fieldName 0])]

theorem cas_eq_getput_stale
    : ∃ cas getput,
        createRawDB { fieldCount := some ⟨2, by decide⟩, tikvUpdateMode := some "cas" } = .ret cas
          ∧
        createRawDB { fieldCount := some ⟨2, by decide⟩, tikvUpdateMode := some "getput" } = .ret getput
          ∧
        ∀ orders orders' : Nat → Orders,
          Outcome.Rel
            (fun res res' =>
              List.Forall₂ Result.Same res.1 res'.1 ∧ SameRows cas.r res.2.store res'.2.store)
            (cas.serveAll orders ⟨∅, fun _ => some initThread⟩ staleCalls)
            (getput.serveAll orders' ⟨∅, fun _ => some initThread⟩ staleCalls)
            ∧
          ∃ res, cas.serveAll orders ⟨∅, fun _ => some initThread⟩ staleCalls = .ret res := by
  refine ⟨_, _, rfl, rfl, fun orders orders' => ?_⟩
  have h := cas_eq_getput (W := Bool) (p := { fieldCount := some ⟨2, by decide⟩ }) rfl rfl
    (s := ⟨∅, fun _ => some initThread⟩) ?_ ?_ (?_ : ∀ call ∈ staleCalls, _) orders orders'
  . refine ⟨h.1, h.2 ?_⟩
    intro call hcall
    simp only [staleCalls, List.mem_cons, List.not_mem_nil, or_false] at hcall
    rcases hcall with rfl | rfl | rfl | rfl | rfl <;> trivial
  . simp
  . intro w state row hstate hrow
    cases hstate
    contradiction
  . intro call hcall
    simp only [staleCalls, List.mem_cons, List.not_mem_nil, or_false] at hcall
    rcases hcall with rfl | rfl | rfl | rfl | rfl
    . exact ⟨by decide, by decide⟩
    . trivial
    . exact ⟨by decide, by decide⟩
    . exact ⟨by decide, by decide⟩
    . trivial

end RawDB

end Tikv
