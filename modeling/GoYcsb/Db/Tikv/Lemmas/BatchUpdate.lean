import GoYcsb.Db.Tikv.Impl.Txn
import GoYcsb.Db.Tikv.Lemmas.Raw
import GoYcsb.Util.Lemmas.Merge

/-!
This module contains the comparison of `BatchUpdate` with the calls of `Update` that it stands for, in
the raw and in the transaction mode driver.
-/

namespace Tikv

open Util

abbrev Entries := List (Bytes × FieldMap)

def touching (table rowKey : Bytes) (entries : Entries) : List FieldMap :=
  (entries.filter (fun entry => getRowKey table entry.1 = rowKey)).map Prod.snd

-- Rows that the codec may have written. It writes no empty ones.
def Decodable (store : KV) : Prop :=
  ∀ key row, store.lookup key = some row → row ≠ [] ∧ ∃ columns, Holds row columns

inductive Merged (r : RowCodec) (P : GoMap.Order Bytes Bytes → Prop) (table : Bytes)
    : KV → Entries → KV → Prop where
  | nil {store : KV} : Merged r P table store [] store
  | cons {store store' : KV} {key row row' : Bytes} {columns : Columns} {data values : FieldMap}
      {entries : Entries} {order : GoMap.Order Bytes Bytes} :
      store.lookup (getRowKey table key) = some row → Holds row columns → r.Decoded columns data →
      P order → Holds row' (r.columnsOf (order.visit (data.merge values))) →
      Merged r P table (store.insert (getRowKey table key) row') entries store' →
      Merged r P table store ((key, values) :: entries) store'

def Replaced (r : RowCodec) (P : GoMap.Order Bytes Bytes → Prop) (table : Bytes) (store : KV)
    (entries : Entries) (store' : KV) : Prop :=
  ∀ rowKey,
    match (touching table rowKey entries).getLast? with
    | none => store'.lookup rowKey = store.lookup rowKey
    | some values =>
      ∃ order row,
        P order ∧ store'.lookup rowKey = some row ∧ Holds row (r.columnsOf (order.visit values))

section

variable {p : Properties} {r : RowCodec} {P : GoMap.Order Bytes Bytes → Prop} {table rowKey : Bytes}
  {store store' : KV} {entries : Entries}

theorem touching_cons (key : Bytes) (values : FieldMap)
    : touching table rowKey ((key, values) :: entries)
        =
      if getRowKey table key = rowKey then
        values :: touching table rowKey entries
      else
        touching table rowKey entries := by
  unfold touching
  rw [List.filter_cons]
  by_cases h : getRowKey table key = rowKey
  . simp [h]
  . simp [h]

theorem Decodable.insert (h : Decodable store) (key : Bytes) {row : Bytes} {columns : Columns}
    (hne : row ≠ []) (hrow : Holds row columns)
    : Decodable (store.insert key row) := by
  intro key' row' hlookup
  rw [GoMap.lookup_insert] at hlookup
  split at hlookup
  . cases hlookup
    exact ⟨hne, columns, hrow⟩
  . apply h key' row' hlookup

theorem isSome_insert {key row : Bytes}
    (h : ∀ entry ∈ entries, (store.lookup (getRowKey table entry.1)).isSome)
    : ∀ entry ∈ entries, ((store.insert key row).lookup (getRowKey table entry.1)).isSome := by
  intro entry hentry
  rw [GoMap.lookup_insert]
  split
  . rfl
  . apply h entry hentry

theorem Merged.lookup_none (h : Merged r P table store entries store')
    (hlookup : store.lookup rowKey = none)
    : store'.lookup rowKey = none := by
  induction h with
  | nil => exact hlookup
  | cons hkey _ _ _ _ _ ih =>
    apply ih
    rw [GoMap.lookup_insert]
    split
    . next heq =>
      rw [← heq, hlookup] at hkey
      contradiction
    . exact hlookup

theorem Merged.lookup_some (h : Merged r P table store entries store') {row : Bytes} {columns : Columns}
    (hlookup : store.lookup rowKey = some row) (hrow : Holds row columns)
    : ∃ row' columns',
        store'.lookup rowKey = some row'
          ∧
        Holds row' columns'
          ∧
        r.Merges P columns (touching table rowKey entries) columns' := by
  induction h generalizing row columns with
  | nil => exact ⟨row, columns, hlookup, hrow, .nil⟩
  | @cons store store' key old new _ _ values entries order hkey hold hdata horder hnew _ ih =>
    rw [touching_cons]
    split
    . next heq =>
      subst heq
      rw [hlookup] at hkey
      cases hkey
      rcases ih (by rw [GoMap.lookup_insert, if_pos rfl]) hnew with ⟨row', columns', hlookup', hrow', hmerges⟩
      rw [hold.unique hrow] at hdata
      exact ⟨row', columns', hlookup', hrow', .cons horder hdata hmerges⟩
    . next hne =>
      apply ih _ hrow
      rw [GoMap.lookup_insert, if_neg (Ne.symm hne)]
      exact hlookup

def FieldSettled (r : RowCodec) (store : KV) (table : Bytes) (entries : Entries) (rowKey field : Bytes)
    : Prop :=
  let c := r.fieldIndex field
  let old := (rowsOf store rowKey).bind (fun columns => columns c)
  let updates := touching table rowKey entries
  let left := r.leftBy field old.toList updates
  (∀ x ∈ left, ∀ y ∈ left, x = y)
    ∧
  (left ≠ [] → r.stored (updates.getLast?.getD ∅) c ≠ [])

instance (r : RowCodec) (store : KV) (table : Bytes) (entries : Entries) (rowKey field : Bytes)
    : Decidable (FieldSettled r store table entries rowKey field) :=
  inferInstanceAs (Decidable (_ ∧ _))

theorem rowsOf_eq {row : Bytes} {columns : Columns} (hlookup : store.lookup rowKey = some row)
    (hrow : Holds row columns)
    : rowsOf store rowKey = some columns := by
  rcases hrow.data with ⟨data, hdata, hcolumns⟩
  unfold rowsOf
  rw [hlookup, Option.map_some, hdata]
  congr
  funext c
  apply hcolumns

theorem SameRows.columns_eq (h : SameRows r store store') {row row' : Bytes} {columns columns' : Columns}
    (hlookup : store.lookup rowKey = some row) (hlookup' : store'.lookup rowKey = some row')
    (hrow : Holds row columns) (hrow' : Holds row' columns') {field : Bytes} (hfield : field ∈ r.fields)
    : columns (r.fieldIndex field) = columns' (r.fieldIndex field) := by
  rcases hrow.decode_nil r with ⟨data, hdecode, hdata⟩
  rcases hrow'.decode_nil r with ⟨data', hdecode', hdata'⟩
  have hfields := h.fieldOf_eq rowKey field
  unfold fieldOf at hfields
  rw [hlookup, hlookup', Option.bind_some, Option.bind_some, hdecode, hdecode'] at hfields
  dsimp only at hfields
  rw [hdata.lookup, hdata'.lookup, if_pos hfield, if_pos hfield] at hfields
  exact hfields

theorem decode_same {row row' : Bytes} {columns columns' : Columns} (hrow : Holds row columns)
    (hrow' : Holds row' columns')
    (h : ∀ field ∈ r.fields, columns (r.fieldIndex field) = columns' (r.fieldIndex field))
    : ∃ data data',
        r.decode row [] = .ret (.ok data) ∧ r.decode row' [] = .ret (.ok data') ∧ SameFields data data' := by
  rcases hrow.decode_nil r with ⟨data, hdecode, hdata⟩
  rcases hrow'.decode_nil r with ⟨data', hdecode', hdata'⟩
  refine ⟨data, data', hdecode, hdecode', fun field => ?_⟩
  rw [hdata.lookup, hdata'.lookup]
  split
  . next hfield => apply h field hfield
  . rfl

theorem getLast?_touching (table : Bytes) {entry : Bytes × FieldMap} (h : entry ∈ entries)
    : ∃ values, (touching table (getRowKey table entry.1) entries).getLast? = some values := by
  have hmem : entry.2 ∈ touching table (getRowKey table entry.1) entries := by
    unfold touching
    apply List.mem_map_of_mem
    rw [List.mem_filter]
    exact ⟨h, by simp⟩
  rw [← Option.isSome_iff_exists, List.getLast?_isSome]
  exact List.ne_nil_of_mem hmem

theorem exists_of_getLast?_touching {values : FieldMap}
    (h : (touching table rowKey entries).getLast? = some values)
    : ∃ entry ∈ entries, getRowKey table entry.1 = rowKey := by
  rcases List.mem_map.mp (List.mem_of_getLast? h) with ⟨entry, hentry, _⟩
  rw [List.mem_filter, decide_eq_true_eq] at hentry
  exact ⟨entry, hentry.1, hentry.2⟩

theorem mem_leftBy_of_stored {field x : Bytes} (old : List Bytes) {updates : List FieldMap}
    {values : FieldMap} (hlast : updates.getLast? = some values)
    (hx : x ∈ r.stored values (r.fieldIndex field))
    : x ∈ r.leftBy field old updates := by
  rcases List.getLast?_eq_some_iff.mp hlast with ⟨init, rfl⟩
  unfold RowCodec.leftBy
  rw [List.foldl_concat]
  exact List.mem_append_left _ hx

theorem FieldSettled.columns_eq (hr : r.Configured p) {row : Bytes} {columns columns' : Columns}
    {values : FieldMap} {field : Bytes} (hfield : field ∈ r.fields)
    (h : FieldSettled r store table entries rowKey field)
    (hlookup : store.lookup rowKey = some row) (hrow : Holds row columns)
    (hmerges : r.Merges P columns (touching table rowKey entries) columns')
    (hlast : (touching table rowKey entries).getLast? = some values) (order : GoMap.Order Bytes Bytes)
    : r.columnsOf (order.visit values) (r.fieldIndex field) = columns' (r.fieldIndex field) := by
  unfold FieldSettled at h
  dsimp only at h
  rw [rowsOf_eq hlookup hrow, hlast] at h
  rcases h with ⟨hunique, hstored⟩
  have hbatch : ∀ x, r.columnsOf (order.visit values) (r.fieldIndex field) = some x →
      x ∈ r.stored values (r.fieldIndex field) := by
    intro x hx
    rw [← RowCodec.mem_stored_visit order]
    apply RowCodec.mem_stored_of_columnsOf hx
  cases hcolumns' : columns' (r.fieldIndex field) with
  | none =>
    rw [Option.eq_none_iff_forall_ne_some]
    intro x hx
    have hleft := mem_leftBy_of_stored (columns (r.fieldIndex field)).toList hlast (hbatch x hx)
    exact hmerges.ne_none hr hfield (List.ne_nil_of_mem hleft) hcolumns'
  | some x =>
    have hx := hmerges.mem_leftBy hr hfield hcolumns'
    rcases List.exists_mem_of_ne_nil _ (hstored (List.ne_nil_of_mem hx)) with ⟨y, hy⟩
    rw [Option.getD_some, ← RowCodec.mem_stored_visit order] at hy
    rcases Option.ne_none_iff_exists'.mp (RowCodec.columnsOf_ne_none hy) with ⟨z, hz⟩
    rw [hz, hunique z (mem_leftBy_of_stored _ hlast (hbatch z hz)) x hx]

theorem FieldSettled.of_columns_eq (hr : r.Configured p) {row : Bytes} {columns : Columns}
    {values : FieldMap} {field : Bytes} (hfield : field ∈ r.fields)
    (hlookup : store.lookup rowKey = some row) (hrow : Holds row columns)
    (hlast : (touching table rowKey entries).getLast? = some values) (order : GoMap.Order Bytes Bytes)
    (h : ∀ x, ∃ columns',
      r.Merges (fun order => order = r.favour (r.fieldIndex field) x) columns
        (touching table rowKey entries) columns'
        ∧
      r.columnsOf (order.visit values) (r.fieldIndex field) = columns' (r.fieldIndex field))
    : FieldSettled r store table entries rowKey field := by
  unfold FieldSettled
  dsimp only
  rw [rowsOf_eq hlookup hrow, hlast]
  have hleft : ∀ x ∈ r.leftBy field (columns (r.fieldIndex field)).toList (touching table rowKey entries),
      r.columnsOf (order.visit values) (r.fieldIndex field) = some x := by
    intro x hx
    rcases h x with ⟨columns', hmerges, heq⟩
    rw [heq]
    apply hmerges.favoured hr hfield hx
  constructor
  . intro x hx y hy
    have hxy := hleft x hx
    rw [hleft y hy] at hxy
    cases hxy
    rfl
  . intro hne
    rcases List.exists_mem_of_ne_nil _ hne with ⟨x, hx⟩
    have hstored := RowCodec.mem_stored_of_columnsOf (hleft x hx)
    rw [RowCodec.mem_stored_visit] at hstored
    exact List.ne_nil_of_mem hstored

theorem sameRows_iff (hr : r.Configured p) (hstore : Decodable store)
    (hexists : ∀ entry ∈ entries, (store.lookup (getRowKey table entry.1)).isSome)
    {batch : Orders → KV} {single : (Nat → Orders) → KV}
    (hbatch : ∀ orders, Replaced r (fun order => ∃ i, orders i = order) table store entries (batch orders))
    (hsingle : ∀ orders,
      Merged r (fun order => ∃ i j, orders i j = order) table store entries (single orders))
    : (∀ orders orders', SameRows r (batch orders) (single orders'))
        ↔
      ∀ entry ∈ entries, ∀ field ∈ r.fields,
        FieldSettled r store table entries (getRowKey table entry.1) field := by
  constructor
  . intro h entry hentry field hfield
    rcases Option.isSome_iff_exists.mp (hexists entry hentry) with ⟨row, hlookup⟩
    rcases hstore _ row hlookup with ⟨hrowNe, columns, hrow⟩
    rcases getLast?_touching table hentry with ⟨values, hlast⟩
    have hreplaced := hbatch (fun _ => .id) (getRowKey table entry.1)
    rw [hlast] at hreplaced
    rcases hreplaced with ⟨order, newRow, _, hnew, hholds⟩
    apply FieldSettled.of_columns_eq hr hfield hlookup hrow hlast order
    intro x
    rcases (hsingle (fun _ _ => r.favour (r.fieldIndex field) x)).lookup_some hlookup hrow
      with ⟨row', columns', hlookup', hrow', hmerges⟩
    refine ⟨columns', ?_, ?_⟩
    . apply hmerges.mono
      rintro order ⟨_, _, rfl⟩
      rfl
    . exact (h _ _).columns_eq hnew hlookup' hholds hrow' hfield
  . intro h orders orders' rowKey
    have hreplaced := hbatch orders rowKey
    cases hlast : (touching table rowKey entries).getLast? with
    | none =>
      rw [hlast] at hreplaced
      rw [List.getLast?_eq_none_iff] at hlast
      cases hlookup : store.lookup rowKey with
      | none =>
        rw [hreplaced, hlookup, (hsingle orders').lookup_none hlookup]
        exact .none
      | some row =>
        rcases hstore _ row hlookup with ⟨hrowNe, columns, hrow⟩
        rcases (hsingle orders').lookup_some hlookup hrow with ⟨row', columns', hlookup', hrow', hmerges⟩
        rw [hlast] at hmerges
        cases hmerges
        rw [hreplaced, hlookup, hlookup']
        exact .some (decode_same hrow hrow' (fun _ _ => rfl))
    | some values =>
      rw [hlast] at hreplaced
      rcases exists_of_getLast?_touching hlast with ⟨entry, hentry, rfl⟩
      rcases Option.isSome_iff_exists.mp (hexists entry hentry) with ⟨row, hlookup⟩
      rcases hstore _ row hlookup with ⟨hrowNe, columns, hrow⟩
      rcases (hsingle orders').lookup_some hlookup hrow with ⟨row', columns', hlookup', hrow', hmerges⟩
      rcases hreplaced with ⟨order, newRow, _, hnew, hholds⟩
      rw [hnew, hlookup']
      apply Option.Rel.some
      apply decode_same hholds hrow'
      intro field hfield
      apply (h entry hentry field hfield).columns_eq hr hfield hlookup hrow hmerges hlast

theorem replaced_of_lookup {orders : Orders} {keys : List Bytes} {values : List FieldMap}
    {rows : List Bytes} (hlength : keys.length = values.length)
    (hrows : List.Forall₂ (fun row value => ∃ j, Holds row (r.columnsOf ((orders j).visit value))) rows values)
    (hlookup : ∀ rowKey,
      store'.lookup rowKey
        =
      (store.insertAll ((keys.map (getRowKey table)).zip rows)).lookup rowKey)
    : Replaced r (fun order => ∃ i, orders i = order) table store (keys.zip values) store' := by
  intro rowKey
  rw [hlookup rowKey]
  clear hlookup
  induction hrows generalizing keys store with
  | nil =>
    rw [List.zip_nil_right, List.zip_nil_right]
    rfl
  | @cons row value rows values hrow _ ih =>
    cases keys with
    | nil => contradiction
    | cons key keys =>
      rw [List.length_cons, List.length_cons, Nat.add_right_cancel_iff] at hlength
      rcases hrow with ⟨j, hrow⟩
      have hrest := @ih (store.insert (getRowKey table key) row) keys hlength
      rw [List.map_cons, List.zip_cons_cons, List.zip_cons_cons, GoMap.insertAll_cons, touching_cons]
      by_cases heq : getRowKey table key = rowKey
      . rw [if_pos heq, List.getLast?_cons]
        cases hlast : (touching table rowKey (keys.zip values)).getLast? with
        | some last =>
          rw [hlast] at hrest
          exact hrest
        | none =>
          rw [hlast] at hrest
          dsimp only at hrest
          rw [hrest, GoMap.lookup_insert, if_pos heq.symm]
          exact ⟨orders j, row, ⟨j, rfl⟩, rfl, hrow⟩
      . rw [GoMap.lookup_insert, if_neg (Ne.symm heq)] at hrest
        rw [if_neg heq]
        exact hrest

theorem encode_visit_holds (hr : r.Configured p) {values : List FieldMap}
    (hlen : ∀ value ∈ values, ∀ entry ∈ value.entries, entry.2.length < 2 ^ 63)
    : ∀ value ∈ values, ∀ order : GoMap.Order Bytes Bytes,
        ∃ row,
          r.encode [] (order.visit value) = .ok row
            ∧
          row ≠ []
            ∧
          Holds row (r.columnsOf (order.visit value)) := by
  intro value hvalue order
  apply RowCodec.encode_holds hr
  intro entry hentry
  rw [order.mem_entries_visit] at hentry
  apply hlen value hvalue entry hentry

end

namespace RawDB

def updateEach (db : RawDB) (orders : Nat → Orders) (ctx : Option RawDBState) (table : Bytes)
    (entries : Entries) : Raw (Option RawDBState) :=
  match entries with
  | [] => return ctx
  | (key, values) :: entries => do
    let (_, ctx) ← db.update (orders entries.length) ctx table key values
    updateEach db orders ctx table entries

section

variable {p : Properties} {db : RawDB} {store : KV} {ctx : Option RawDBState} {table : Bytes}
  {entries : Entries}

theorem exec_updateEach (hr : db.r.Configured p) (hstore : Decodable store)
    (hctx : ∀ state row, ctx = some state → state.row = some row → ∃ columns, Holds row columns)
    (hexists : ∀ entry ∈ entries, (store.lookup (getRowKey table entry.1)).isSome)
    (hlen : ∀ entry ∈ entries, ∀ value ∈ entry.2.entries, value.2.length < 2 ^ 63)
    (orders : Nat → Orders)
    : ∃ ctx' store',
        (db.updateEach orders ctx table entries).exec RawRequest.handle store = (.ret ctx', store')
          ∧
        Merged db.r (fun order => ∃ i j, orders i j = order) table store entries store' := by
  induction entries generalizing store ctx with
  | nil => exact ⟨ctx, store, rfl, .nil⟩
  | cons entry entries ih =>
    rcases entry with ⟨key, values⟩
    rw [List.forall_mem_cons] at hexists hlen
    rcases Option.isSome_iff_exists.mp hexists.1 with ⟨row, hlookup⟩
    rcases hstore _ row hlookup with ⟨hrowNe, columns, hrow⟩
    have hrow' : Holds ((store.lookup (getRowKey table key)).getD []) columns := by
      rw [hlookup]
      exact hrow
    rcases exec_update_eq hr hrow' hctx hlen.1 (orders entries.length)
      with ⟨i, data, row', ctx', hdata, hencode, hexec, hctx'⟩
    rcases RowCodec.encode_merge_holds hr hdata hrow.length hlen.1 (orders entries.length i)
      with ⟨new, hnew, hne, hholds⟩
    rw [hencode] at hnew
    cases hnew
    have hrest : ∃ ctx₂ store₂,
        (db.updateEach orders ctx' table entries).exec RawRequest.handle
          (store.insert (getRowKey table key) row') = (.ret ctx₂, store₂)
          ∧
        Merged db.r (fun order => ∃ i j, orders i j = order) table
          (store.insert (getRowKey table key) row') entries store₂ := by
      apply ih (hstore.insert _ hne hholds)
      . intro state row hstate hrow
        apply hctx state row (hctx' state row hstate hrow) hrow
      . apply isSome_insert hexists.2
      . exact hlen.2
    rcases hrest with ⟨ctx₂, store₂, hexec₂, hmerged⟩
    refine ⟨ctx₂, store₂, ?_, .cons hlookup hrow hdata ⟨_, i, rfl⟩ hholds hmerged⟩
    rw [updateEach, Rpc.exec_bind_ret hexec]
    exact hexec₂

theorem exec_batchUpdate (hr : db.r.Configured p) {keys : List Bytes} {values : List FieldMap}
    (hlength : keys.length = values.length)
    (hlen : ∀ value ∈ values, ∀ entry ∈ value.entries, entry.2.length < 2 ^ 63) (orders : Orders)
    : ∃ store',
        (db.batchUpdate orders table keys values).exec RawRequest.handle store = (.ret (.ok ()), store')
          ∧
        Replaced db.r (fun order => ∃ i, orders i = order) table store (keys.zip values) store' := by
  rcases encodeRows_cases db (encode_visit_holds hr hlen) orders 0 keys
    with ⟨_, rows, hencode, hrows⟩ | ⟨hlt, _⟩
  . rw [hlength, List.take_length] at hrows
    have hholds := hrows.imp (fun _ _ hrow => hrow.imp (fun _ hrow => hrow.2))
    refine ⟨_, ?_, replaced_of_lookup hlength hholds (fun _ => rfl)⟩
    unfold batchUpdate putRows
    rw [hencode]
    rfl
  . omega

end

end RawDB

theorem present_of_ne_nil {row : Bytes} (h : row ≠ []) : present row = .ok row :=
  if_neg (fun hlength => h (List.length_eq_zero_iff.mp hlength))

theorem exec_beginTxn (store : KV)
    : beginTxn.exec TxnRequest.handle store = (.ret (.ok (Txn.mk store ∅)), store) := rfl

theorem Txn.exec_get (snapshot : KV) (key : Bytes) (store : KV)
    : ((Txn.mk snapshot ∅).get key).exec TxnRequest.handle store
        =
      (.ret ((snapshot.lookup key).elim (.error .notFound) present), store) := by
  unfold Txn.get
  rw [AList.lookup_empty]
  dsimp only
  rw [Rpc.send_bind, Rpc.exec_call]
  dsimp only [TxnRequest.handle]
  cases snapshot.lookup key <;> rfl

namespace TxnDB

def updateEach (db : TxnDB) (orders : Nat → Orders) (table : Bytes) (entries : Entries) : TxnProg Unit :=
  match entries with
  | [] => return ()
  | (key, values) :: entries => do
    let _ ← db.update (orders entries.length 0) table key values
    updateEach db orders table entries

section

variable {p : Properties} {db : TxnDB} {store : KV} {table : Bytes}

theorem set_of_ne_nil {value : Bytes} (h : value ≠ []) (tx : Txn) (key : Bytes)
    : tx.set key value = .ok { tx with buffer := tx.buffer.insert key value } := by
  unfold Txn.set
  rw [if_neg]
  intro hlength
  exact h (List.length_eq_zero_iff.mp hlength)

theorem exec_update {key row : Bytes} {columns : Columns} {values : FieldMap} (hr : db.r.Configured p)
    (hlookup : store.lookup (getRowKey table key) = some row) (hrowNe : row ≠ []) (hrow : Holds row columns)
    (hlen : ∀ entry ∈ values.entries, entry.2.length < 2 ^ 63) (order : GoMap.Order Bytes Bytes)
    : ∃ data row',
        db.r.Decoded columns data
          ∧
        row' ≠ []
          ∧
        Holds row' (db.r.columnsOf (order.visit (data.merge values)))
          ∧
        (db.update order table key values).exec TxnRequest.handle store
          = (.ret (.ok ()), store.insert (getRowKey table key) row') := by
  rcases hrow.decode_nil db.r with ⟨data, hdecode, hdata⟩
  rcases RowCodec.encode_merge_holds hr hdata hrow.length hlen order with ⟨row', hencode, hne, hholds⟩
  refine ⟨data, row', hdata, hne, hholds, ?_⟩
  unfold update
  dsimp only
  rw [Rpc.exec_bind_ret (exec_beginTxn store)]
  dsimp only
  rw [Rpc.exec_bind_ret (Txn.exec_get store _ store), hlookup, Option.elim_some, present_of_ne_nil hrowNe]
  dsimp only
  rw [hdecode, Rpc.lift_ret_bind]
  dsimp only
  rw [hencode]
  dsimp only
  rw [set_of_ne_nil hne]
  rfl

theorem exec_updateEach {entries : Entries} (hr : db.r.Configured p) (hstore : Decodable store)
    (hexists : ∀ entry ∈ entries, (store.lookup (getRowKey table entry.1)).isSome)
    (hlen : ∀ entry ∈ entries, ∀ value ∈ entry.2.entries, value.2.length < 2 ^ 63)
    (orders : Nat → Orders)
    : ∃ store',
        (db.updateEach orders table entries).exec TxnRequest.handle store = (.ret (), store')
          ∧
        Merged db.r (fun order => ∃ i j, orders i j = order) table store entries store' := by
  induction entries generalizing store with
  | nil => exact ⟨store, rfl, .nil⟩
  | cons entry entries ih =>
    rcases entry with ⟨key, values⟩
    rw [List.forall_mem_cons] at hexists hlen
    rcases Option.isSome_iff_exists.mp hexists.1 with ⟨row, hlookup⟩
    rcases hstore _ row hlookup with ⟨hrowNe, columns, hrow⟩
    rcases exec_update hr hlookup hrowNe hrow hlen.1 (orders entries.length 0)
      with ⟨data, row', hdata, hne, hholds, hexec⟩
    rcases ih (hstore.insert (getRowKey table key) hne hholds) (isSome_insert hexists.2) hlen.2
      with ⟨store', hrest, hmerged⟩
    refine ⟨store', ?_, .cons hlookup hrow hdata ⟨_, 0, rfl⟩ hholds hmerged⟩
    rw [updateEach, Rpc.exec_bind_ret hexec]
    exact hrest

theorem setRows_eq {orders : Orders} {i : Nat} {keys : List Bytes} {values : List FieldMap}
    {rows : List Bytes} (h : RawDB.encodeRows ⟨db.r, false⟩ orders i keys values = .ret (.ok rows))
    (hne : ∀ row ∈ rows, row ≠ []) (tx : Txn)
    : db.setRows orders tx table i keys values
        =
      .ret (.ok { tx with buffer := tx.buffer.insertAll ((keys.map (getRowKey table)).zip rows) }) := by
  induction keys generalizing i values rows tx with
  | nil =>
    cases h
    rfl
  | cons key keys ih =>
    cases values with
    | nil => contradiction
    | cons value values =>
      rw [RawDB.encodeRows] at h
      rw [setRows]
      split at h
      . cases h
      . next row hrow =>
        rcases Outcome.bind_eq_ret h with ⟨res, hrest, h⟩
        cases res with
        | error err => cases h
        | ok rest =>
          cases h
          rw [List.forall_mem_cons] at hne
          rw [hrow]
          dsimp only
          rw [set_of_ne_nil hne.1]
          dsimp only
          rw [ih hrest hne.2]
          rfl

theorem exec_batchUpdate (hr : db.r.Configured p) {keys : List Bytes} {values : List FieldMap}
    (hlength : keys.length = values.length)
    (hlen : ∀ value ∈ values, ∀ entry ∈ value.entries, entry.2.length < 2 ^ 63) (orders : Orders)
    : ∃ store',
        (db.batchUpdate orders table keys values).exec TxnRequest.handle store = (.ret (.ok ()), store')
          ∧
        Replaced db.r (fun order => ∃ i, orders i = order) table store (keys.zip values) store' := by
  rcases RawDB.encodeRows_cases ⟨db.r, false⟩ (encode_visit_holds hr hlen) orders 0 keys
    with ⟨_, rows, hencode, hrows⟩ | ⟨hlt, _⟩
  . rw [hlength, List.take_length] at hrows
    have hrows' : List.Forall₂
        (fun row value => row ≠ [] ∧ ∃ j, Holds row (db.r.columnsOf ((orders j).visit value))) rows values := by
      apply hrows.imp
      rintro row value ⟨j, hne, hrow⟩
      exact ⟨hne, j, hrow⟩
    rw [List.forall₂_and_left] at hrows'
    rcases hrows' with ⟨hne, hholds⟩
    let buffer : KV := GoMap.insertAll ∅ ((keys.map (getRowKey table)).zip rows)
    refine ⟨store.merge buffer, ?_, replaced_of_lookup hlength hholds ?_⟩
    . unfold batchUpdate putRows
      rw [Rpc.exec_bind_ret (exec_beginTxn store)]
      dsimp only
      rw [setRows_eq hencode hne]
      rfl
    . intro rowKey
      rw [GoMap.lookup_merge, GoMap.lookup_insertAll_eq store]
  . omega

end

end TxnDB

theorem of_createTxnDB {p : Properties} {db : TxnDB} (h : createTxnDB p = .ret db)
    : newRowCodec p = .ret db.r := by
  rcases Outcome.bind_eq_ret h with ⟨r, hr, h⟩
  cases h
  exact hr

theorem batchUpdate_eq_updateEach_iff {p : Properties} {raw : RawDB} {txn : TxnDB}
    (hraw : createRawDB p = .ret raw) (htxn : createTxnDB p = .ret txn) {store : KV}
    (hstore : Decodable store) {ctx : Option RawDBState}
    (hctx : ∀ state row, ctx = some state → state.row = some row → ∃ columns, Holds row columns)
    {table : Bytes} {keys : List Bytes} {values : List FieldMap}
    (hkeys : ∀ key ∈ keys, (store.lookup (getRowKey table key)).isSome)
    (hlength : keys.length = values.length)
    (hlen : ∀ value ∈ values, ∀ entry ∈ value.entries, entry.2.length < 2 ^ 63)
    : ((∀ orders orders',
          SameRows raw.r
            ((raw.batchUpdate orders table keys values).exec RawRequest.handle store).2
            ((raw.updateEach orders' ctx table (keys.zip values)).exec RawRequest.handle store).2)
        ∧
       (∀ orders orders',
          SameRows txn.r
            ((txn.batchUpdate orders table keys values).exec TxnRequest.handle store).2
            ((txn.updateEach orders' table (keys.zip values)).exec TxnRequest.handle store).2))
        ↔
      ∀ key ∈ keys, ∀ field ∈ raw.r.fields,
        FieldSettled raw.r store table (keys.zip values) (getRowKey table key) field := by
  have hr := configured_of_newRowCodec (RawDB.of_createRawDB hraw)
  have hsame : txn.r = raw.r := by
    have h := of_createTxnDB htxn
    rw [RawDB.of_createRawDB hraw, Outcome.ret.injEq] at h
    exact h.symm
  have hr' := hr
  rw [← hsame] at hr'
  have hexists : ∀ entry ∈ keys.zip values, (store.lookup (getRowKey table entry.1)).isSome := by
    intro entry hentry
    apply hkeys
    exact (List.of_mem_zip hentry).1
  have hlen' : ∀ entry ∈ keys.zip values, ∀ value ∈ entry.2.entries, value.2.length < 2 ^ 63 := by
    intro entry hentry
    apply hlen
    exact (List.of_mem_zip hentry).2
  have hentries : ∀ Q : Bytes → Prop, (∀ entry ∈ keys.zip values, Q entry.1) ↔ ∀ key ∈ keys, Q key := by
    intro Q
    rw [← List.forall_mem_map (f := Prod.fst) (P := Q), List.map_fst_zip (Nat.le_of_eq hlength)]
  rw [sameRows_iff hr hstore hexists, sameRows_iff hr' hstore hexists, hsame]
  . rw [and_self]
    exact hentries (fun key => ∀ field ∈ raw.r.fields,
      FieldSettled raw.r store table (keys.zip values) (getRowKey table key) field)
  . intro orders
    rcases TxnDB.exec_batchUpdate hr' hlength hlen orders with ⟨store', hexec, hreplaced⟩
    rw [hexec]
    exact hreplaced
  . intro orders
    rcases TxnDB.exec_updateEach hr' hstore hexists hlen' orders with ⟨store', hexec, hmerged⟩
    rw [hexec]
    exact hmerged
  . intro orders
    rcases RawDB.exec_batchUpdate hr hlength hlen orders with ⟨store', hexec, hreplaced⟩
    rw [hexec]
    exact hreplaced
  . intro orders
    rcases RawDB.exec_updateEach hr hstore hctx hexists hlen' orders with ⟨ctx', store', hexec, hmerged⟩
    rw [hexec]
    exact hmerged

theorem decodable_pairStore : Decodable pairStore := by
  intro key row hlookup
  rcases pairStore_stores rfl key row hlookup with ⟨columns, hrow⟩
  exact ⟨hrow.nonempty, columns, hrow.toHolds⟩

theorem batchUpdate_eq_updateEach_all_fields
    : ∃ raw txn,
        createRawDB twoFields = .ret raw
          ∧
        createTxnDB twoFields = .ret txn
          ∧
        (∀ orders orders',
          SameRows raw.r
            ((raw.batchUpdate orders [116] [[107]] [pairRow]).exec RawRequest.handle pairStore).2
            ((raw.updateEach orders' none [116] [([107], pairRow)]).exec RawRequest.handle pairStore).2)
          ∧
        (∀ orders orders',
          SameRows txn.r
            ((txn.batchUpdate orders [116] [[107]] [pairRow]).exec TxnRequest.handle pairStore).2
            ((txn.updateEach orders' [116] [([107], pairRow)]).exec TxnRequest.handle pairStore).2) := by
  refine ⟨_, _, rfl, rfl, ?_⟩
  apply (batchUpdate_eq_updateEach_iff (p := twoFields) rfl rfl decodable_pairStore (by simp)
    (by decide +kernel) rfl (by decide)).mpr
  decide +kernel

theorem batchUpdate_drops_field
    : ∃ raw txn,
        createRawDB twoFields = .ret raw
          ∧
        createTxnDB twoFields = .ret txn
          ∧
        ¬ SameRows raw.r
            ((raw.batchUpdate (fun _ => .id) [116] [[107]]
              [GoMap.insertAll ∅ [(fieldName 0, [99])]]).exec RawRequest.handle pairStore).2
            ((raw.updateEach (fun _ _ => .id) none [116]
              [([107], GoMap.insertAll ∅ [(fieldName 0, [99])])]).exec RawRequest.handle pairStore).2
          ∧
        ¬ SameRows txn.r
            ((txn.batchUpdate (fun _ => .id) [116] [[107]]
              [GoMap.insertAll ∅ [(fieldName 0, [99])]]).exec TxnRequest.handle pairStore).2
            ((txn.updateEach (fun _ _ => .id) [116]
              [([107], GoMap.insertAll ∅ [(fieldName 0, [99])])]).exec TxnRequest.handle pairStore).2 := by
  refine ⟨_, _, rfl, rfl, ?_, ?_⟩
  . intro h
    have hfield := h.fieldOf_eq [116, 58, 107] (fieldName 1)
    revert hfield
    decide +kernel
  . intro h
    have hfield := h.fieldOf_eq [116, 58, 107] (fieldName 1)
    revert hfield
    decide +kernel

end Tikv
