import GoYcsb.Db.Tikv.Impl.TxnThreads
import GoYcsb.Db.Tikv.Lemmas.BatchUpdate

/-!
This module contains the verification of the transaction mode driver under concurrent use: its calls are linearizable,
on the level of the columns of each row.
-/

namespace Tikv

open Util AtomicObject

namespace TxnThreads

open Snapshot RawDB

variable {p : Properties} {r : RowCodec} {db : TxnDB} {contents contents' : Contents Bytes Bytes}

structure AcceptedCall (r : RowCodec) where
  call : Call
  orders : Orders
  accepted : call.Accepted r

def prog (db : TxnDB) (call : AcceptedCall db.r) : SnapshotProg (Result × Gotten) := serve db call.orders call.call

def rowsIn (contents : Contents Bytes Bytes) : Rows :=
  fun key => (contents key).map (fun row =>
    match decodeRow row with
    | .ret (data, none) => fun c => data.lookup c
    | _ => fun _ => none)

def Stored (r : RowCodec) (contents : Contents Bytes Bytes) : Prop :=
  ∀ key row, contents key = some row → ∃ columns, r.Stores row columns

-- What a call makes of the rows. An update of a row that is not there is none.
def change (r : RowCodec) (rows : Rows) (call : Call) : Rows :=
  match call with
  | .update table key values =>
    if (rows (getRowKey table key)).isSome then rows.merge r (getRowKey table key) values else rows
  | .read _ _ _ | .batchRead _ _ _ | .insert _ _ _ | .batchUpdate _ _ _ | .batchInsert _ _ _ | .delete _ _
  | .batchDelete _ _ => rows.apply r call

def failed (res : Result) : Bool :=
  match res with
  | .row (.error _) | .rows (.error _) | .unit (.error _) => true
  | .row (.ok _) | .rows (.ok _) | .unit (.ok _) => false

-- A row whose `Get` has failed is `nil` in the answer of `BatchRead`, and no other row that is there.
def Fetched (r : RowCodec) (rows : Rows) (fields : List Bytes) (found : Option FieldMap) (got : Bytes × Bool) : Prop :=
  if got.2 then found = none else Selects r fields found (rows got.1)

def Answers (r : RowCodec) (rows : Rows) (call : Call) (res : Result × Gotten) : Prop :=
  match call with
  | .batchRead table keys fields =>
    ∃ found,
      res.1 = .rows (.ok found)
        ∧
      res.2.map Prod.fst = keys.map (getRowKey table)
        ∧
      List.Forall₂ (Fetched r rows fields) found res.2
  | .read _ _ _ | .update _ _ _ | .insert _ _ _ | .batchUpdate _ _ _ | .batchInsert _ _ _ | .delete _ _
  | .batchDelete _ _ => RawDB.Answers r rows call res.1

/--
A call that returns no error has done what it is for. One that returns an error has done that or nothing.
-/
def rowSpec (r : RowCodec) : Spec (AcceptedCall r) (Result × Gotten) Rows := fun rows call res rows' =>
  if failed res.1 then
    rows' = rows ∨ rows' = change r rows call.call
  else
    Answers r rows call.call res ∧ rows' = change r rows call.call

section

variable {α β : Type} {gotten : Gotten} {reads : List Bytes}

theorem onCluster_map (prog : TxnProg α) (f : α → β) (gotten : Gotten)
    : onCluster (prog >>= fun a => pure (f a)) gotten
        =
      (onCluster prog gotten >>= fun res => pure (f res.1, res.2)) := by
  induction prog generalizing gotten with
  | done out => cases out <;> rfl
  | call req cont ih =>
    cases req with
    | begin =>
      apply congrArg (Rpc.call _)
      funext answer
      exact ih _ _
    | get snapshot key =>
      apply congrArg (Rpc.call _)
      funext answer
      exact ih _ _
    | commit buffer =>
      apply congrArg (Rpc.call _)
      funext answer
      exact ih _ _

theorem transaction_lift {out : Outcome α} {f : α → TxnProg β} {stage : Stage Bytes}
    (h : ∀ a, Transaction stage (onCluster (f a) gotten))
    : Transaction stage (onCluster (.lift out >>= f) gotten) := by
  cases out with
  | ret a => exact h a
  | panic msg => exact trivial
  | exit msg => exact trivial
  | running => exact trivial

theorem transaction_beginTxn {f : Except String Txn → TxnProg α}
    (hok : Transaction (.inside []) (onCluster (f (.ok ⟨∅, ∅⟩)) gotten))
    (hfail : ∀ err, ∃ out, onCluster (f (.error err)) gotten = .done out)
    : Transaction .outside (onCluster (beginTxn >>= f) gotten) :=
  ⟨rfl, hok, hfail⟩

theorem transaction_get {f : Except TxnError Bytes → TxnProg α} {snapshot : KV} {key : Bytes}
    (hgotten : ∀ res, Transaction (.inside (key :: reads)) (onCluster (f res) (gotten ++ [(key, false)])))
    (hfail : ∀ err, Transaction (.inside reads) (onCluster (f (.error (.other err))) (gotten ++ [(key, true)])))
    : Transaction (.inside reads) (onCluster ((Txn.mk snapshot ∅).get key >>= f) gotten) := by
  refine ⟨reads, rfl, ?_, hfail⟩
  intro value
  cases value with
  | none => exact hgotten _
  | some value => exact hgotten _

theorem transaction_commitTxn {tx : Txn} (h : ∀ key ∈ reads, key ∈ tx.buffer)
    : Transaction (.inside reads) (onCluster tx.commit gotten) := by
  refine ⟨reads, rfl, .inr ⟨?_, fun answer => ⟨_, rfl⟩⟩⟩
  intro key hkey
  unfold puts
  rw [List.map_map]
  exact h key hkey

theorem alone_beginTxn {f : Except String Txn → TxnProg α} {res : α × Gotten}
    (halone : Alone (onCluster (beginTxn >>= f) gotten) contents res contents')
    : Alone (onCluster (f (.ok ⟨∅, ∅⟩)) gotten) contents res contents'
        ∨
      ∃ err, Alone (onCluster (f (.error err)) gotten) contents res contents' :=
  alone_begin_bind.mp halone

theorem alone_get {f : Except TxnError Bytes → TxnProg α} {snapshot : KV} {key : Bytes} (h : Stored r contents)
    {res : α × Gotten}
    (halone : Alone (onCluster ((Txn.mk snapshot ∅).get key >>= f) gotten) contents res contents')
    : (∃ err, Alone (onCluster (f (.error (.other err))) (gotten ++ [(key, true)])) contents res contents')
        ∨
      (contents key = none
        ∧ Alone (onCluster (f (.error .notFound)) (gotten ++ [(key, false)])) contents res contents')
        ∨
      (∃ row columns, contents key = some row ∧ r.Stores row columns
        ∧ Alone (onCluster (f (.ok row)) (gotten ++ [(key, false)])) contents res contents') := by
  rcases alone_get_bind.mp halone with halone | ⟨err, halone⟩
  . cases hkey : contents key with
    | none =>
      rw [hkey] at halone
      exact .inr (.inl ⟨rfl, halone⟩)
    | some row =>
      rcases h key row hkey with ⟨columns, hrow⟩
      rw [hkey] at halone
      change Alone (onCluster (f (present row)) (gotten ++ [(key, false)])) contents res contents' at halone
      rw [present_of_ne_nil hrow.nonempty] at halone
      exact .inr (.inr ⟨row, columns, rfl, hrow, halone⟩)
  . exact .inl ⟨err, halone⟩

theorem alone_commitTxn {tx : Txn} {res : Except String Unit × Gotten}
    (halone : Alone (onCluster tx.commit gotten) contents res contents')
    : Alone (Snapshot.commit (puts tx.buffer)) contents res.1 contents' := by
  have hmap : Alone (Snapshot.commit (puts tx.buffer) >>= fun answer => pure (answer, gotten)) contents res contents' :=
    halone
  rcases hmap.of_map with ⟨answer, rfl, hcommit⟩
  exact hcommit

end

theorem read_transaction (db : TxnDB) (table key : Bytes) (fields : List Bytes)
    : Transaction .outside (onCluster (db.read table key fields) []) := by
  apply transaction_beginTxn
  . apply transaction_get
    . intro res
      cases res with
      | error err => cases err <;> exact trivial
      | ok row =>
        refine ⟨_, rfl, .inl ⟨rfl, ?_⟩⟩
        intro answer
        cases answer with
        | error err => exact ⟨_, rfl⟩
        | ok done =>
          dsimp only
          cases db.r.decode row fields with
          | ret values => cases values <;> exact ⟨_, rfl⟩
          | panic msg => exact ⟨_, rfl⟩
          | exit msg => exact ⟨_, rfl⟩
          | running => exact ⟨_, rfl⟩
    . exact fun err => trivial
  . exact fun err => ⟨_, rfl⟩

theorem readRows_cons (db : TxnDB) (tx : Txn) (table key : Bytes) (keys fields : List Bytes)
    : db.readRows tx table (key :: keys) fields
        =
      (tx.get (getRowKey table key) >>= fun got =>
        match got with
        | .error _ => db.readRows tx table keys fields >>= fun res => pure (res.map (fun rows => none :: rows))
        | .ok value =>
          .lift (db.r.decode value fields) >>= fun decoded =>
            match decoded with
            | .error err => pure (.error err)
            | .ok row => db.readRows tx table keys fields >>= fun res => pure (res.map (fun rows => some row :: rows)))
    := by
  rw [TxnDB.readRows]
  congr 1
  funext got
  cases got with
  | error err =>
    dsimp only
    congr 1
    funext res
    cases res <;> rfl
  | ok value =>
    dsimp only
    congr 1
    funext decoded
    cases decoded with
    | error err => rfl
    | ok row =>
      dsimp only
      congr 1
      funext res
      cases res <;> rfl

theorem readRows_transaction (db : TxnDB) (snapshot : KV) (table : Bytes) (keys fields reads : List Bytes)
    (gotten : Gotten)
    : Transaction (.inside reads) (onCluster (db.readRows ⟨snapshot, ∅⟩ table keys fields) gotten) := by
  induction keys generalizing reads gotten with
  | nil => exact trivial
  | cons key keys ih =>
    rw [readRows_cons]
    apply transaction_get
    . intro res
      cases res with
      | error err =>
        dsimp only
        rw [onCluster_map]
        exact (ih _ _).map _
      | ok value =>
        apply transaction_lift
        intro row
        cases row with
        | error err => exact trivial
        | ok row =>
          dsimp only
          rw [onCluster_map]
          exact (ih _ _).map _
    . intro err
      dsimp only
      rw [onCluster_map]
      exact (ih _ _).map _

theorem update_transaction (db : TxnDB) (order : GoMap.Order Bytes Bytes) (table key : Bytes) (values : FieldMap)
    : Transaction .outside (onCluster (db.update order table key values) []) := by
  apply transaction_beginTxn
  . apply transaction_get
    . intro res
      cases res with
      | error err => cases err <;> exact trivial
      | ok row =>
        apply transaction_lift
        intro data
        cases data with
        | error err => exact trivial
        | ok data =>
          dsimp only
          cases db.r.encode [] (order.visit (data.merge values)) with
          | error err => exact trivial
          | ok buf =>
            dsimp only [Txn.set]
            split
            . next heq => exact trivial
            . next tx heq =>
              split at heq
              . contradiction
              . cases heq
                apply transaction_commitTxn
                intro key' hkey
                exact (AList.mem_insert _).mpr (.inl (List.mem_singleton.mp hkey))
    . exact fun err => trivial
  . exact fun err => ⟨_, rfl⟩

theorem insert_transaction (db : TxnDB) (order : GoMap.Order Bytes Bytes) (table key : Bytes) (values : FieldMap)
    : Transaction .outside (onCluster (db.insert order table key values) []) := by
  unfold TxnDB.insert
  cases db.r.encode [] (order.visit values) with
  | error err => exact trivial
  | ok buf =>
    apply transaction_beginTxn
    . dsimp only
      cases Txn.set ⟨∅, ∅⟩ (getRowKey table key) buf with
      | error err => exact trivial
      | ok tx => exact transaction_commitTxn (by simp)
    . exact fun err => ⟨_, rfl⟩

theorem putRows_transaction (db : TxnDB) (orders : Orders) (table : Bytes) (keys : List Bytes) (values : List FieldMap)
    : Transaction .outside (onCluster (db.putRows orders table keys values) []) := by
  apply transaction_beginTxn
  . apply transaction_lift
    intro res
    cases res with
    | error err => exact trivial
    | ok tx => exact transaction_commitTxn (by simp)
  . exact fun err => ⟨_, rfl⟩

theorem deleteKeys_transaction (keys : List Bytes) : Transaction .outside (deleteKeys keys) :=
  transaction_begin_bind (transaction_commit (by simp)) (fun _ => ⟨_, rfl⟩)

theorem serve_transaction (db : TxnDB) (orders : Orders) (call : Call)
    : Transaction .outside (serve db orders call) := by
  cases call with
  | read table key fields => exact (read_transaction db table key fields).map _
  | batchRead table keys fields =>
    have hread : Transaction .outside (onCluster (db.batchRead table keys fields) []) :=
      transaction_beginTxn (readRows_transaction db ∅ table keys fields [] []) (fun err => ⟨_, rfl⟩)
    exact hread.map _
  | update table key values => exact (update_transaction db (orders 0) table key values).map _
  | batchUpdate table keys values => exact (putRows_transaction db orders table keys values).map _
  | insert table key values => exact (insert_transaction db (orders 0) table key values).map _
  | batchInsert table keys values => exact (putRows_transaction db orders table keys values).map _
  | delete table key => exact (deleteKeys_transaction _).map _
  | batchDelete table keys => exact (deleteKeys_transaction _).map _

section

variable {key row : Bytes} {columns : Columns} {table : Bytes}

theorem Stored.write_some (h : Stored r contents) (hrow : r.Stores row columns)
    : Stored r (Function.update contents key (some row)) := by
  intro key' row' hkey'
  by_cases heq : key' = key
  . rw [heq, Function.update_self] at hkey'
    cases hkey'
    exact ⟨columns, hrow⟩
  . rw [Function.update_of_ne heq] at hkey'
    exact h key' row' hkey'

theorem Stored.write_none (h : Stored r contents) : Stored r (Function.update contents key none) := by
  intro key' row' hkey'
  by_cases heq : key' = key
  . rw [heq, Function.update_self] at hkey'
    contradiction
  . rw [Function.update_of_ne heq] at hkey'
    exact h key' row' hkey'

theorem rowsIn_eq (hkey : contents key = some row) (hrow : r.Stores row columns)
    : rowsIn contents key = some columns := by
  rcases hrow.data with ⟨data, hdata, hcolumns⟩
  unfold rowsIn
  rw [hkey, Option.map_some, hdata]
  congr
  funext c
  exact hcolumns c

theorem rowsIn_eq_none (hkey : contents key = none) : rowsIn contents key = none := by
  unfold rowsIn
  rw [hkey]
  rfl

theorem rowsIn_write_some (hrow : r.Stores row columns)
    : rowsIn (Function.update contents key (some row)) = Function.update (rowsIn contents) key (some columns) := by
  funext key'
  by_cases heq : key' = key
  . subst heq
    rw [Function.update_self]
    exact rowsIn_eq (Function.update_self ..) hrow
  . unfold rowsIn
    rw [Function.update_of_ne heq, Function.update_of_ne heq]

theorem rowsIn_write_none : rowsIn (Function.update contents key none) = (rowsIn contents).erase key := by
  funext key'
  unfold Rows.erase
  by_cases heq : key' = key
  . subst heq
    rw [Function.update_self]
    exact rowsIn_eq_none (Function.update_self ..)
  . unfold rowsIn
    rw [Function.update_of_ne heq, Function.update_of_ne heq]

def Writes (r : RowCodec) (buffer : List (Bytes × Option Bytes)) (f : Rows → Rows) : Prop :=
  ∀ contents, Stored r contents →
    Stored r (write contents buffer) ∧ rowsIn (write contents buffer) = f (rowsIn contents)

theorem writes_nil : Writes r [] id := fun _ h => ⟨h, rfl⟩

theorem Writes.concat_none {buffer : List (Bytes × Option Bytes)} {f : Rows → Rows} (h : Writes r buffer f)
    : Writes r (buffer ++ [(key, none)]) (fun rows => (f rows).erase key) := by
  intro contents hstored
  rcases h contents hstored with ⟨hstored', hrows⟩
  unfold write at hstored' hrows ⊢
  rw [List.foldl_concat]
  dsimp only
  rw [← hrows]
  exact ⟨hstored'.write_none, rowsIn_write_none⟩

-- The keys of a buffer differ, so that the order of its entries does not matter.
theorem write_puts (contents : Contents Bytes Bytes) (buffer : KV) (key : Bytes)
    : write contents (puts buffer) key = (buffer.lookup key).or (contents key) := by
  rcases buffer with ⟨entries, hnodup⟩
  unfold puts write AList.lookup
  dsimp only
  induction entries generalizing contents with
  | nil => rfl
  | cons entry entries ih =>
    rw [List.nodupKeys_cons] at hnodup
    rw [List.map_cons, List.foldl_cons, ih _ hnodup.2]
    by_cases hkey : key = entry.1
    . subst hkey
      rw [List.dlookup_eq_none.mpr hnodup.1, List.dlookup_cons_eq, Function.update_self]
      rfl
    . rw [List.dlookup_cons_ne _ _ hkey, Function.update_of_ne hkey]

theorem write_puts_insert (contents : Contents Bytes Bytes) (buffer : KV) (key row : Bytes)
    : write contents (puts (buffer.insert key row))
        =
      Function.update (write contents (puts buffer)) key (some row) := by
  funext key'
  rw [write_puts]
  by_cases hkey : key' = key
  . subst hkey
    rw [AList.lookup_insert, Function.update_self]
    rfl
  . rw [AList.lookup_insert_ne hkey, Function.update_of_ne hkey, write_puts]

theorem Writes.insert {buffer : KV} {f : Rows → Rows} (h : Writes r (puts buffer) f) (hrow : r.Stores row columns)
    : Writes r (puts (buffer.insert key row)) (fun rows => Function.update (f rows) key (some columns)) := by
  intro contents hstored
  rcases h contents hstored with ⟨hstored', hrows⟩
  dsimp only
  rw [write_puts_insert, ← hrows]
  exact ⟨hstored'.write_some hrow, rowsIn_write_some hrow⟩

theorem set_eq (tx : Txn) (hrow : r.Stores row columns)
    : tx.set key row = .ok { tx with buffer := tx.buffer.insert key row } := by
  apply if_neg
  rw [List.length_eq_zero_iff]
  exact hrow.nonempty

theorem setRows_writes (hr : db.r.Configured p) {orders : Orders} {tx tx' : Txn} {i : Nat} {keys : List Bytes}
    {values : List FieldMap} {f : Rows → Rows} (hvalues : ∀ value ∈ values, db.r.Accepts value)
    (htx : Writes db.r (puts tx.buffer) f) (h : db.setRows orders tx table i keys values = .ret (.ok tx'))
    : Writes db.r (puts tx'.buffer) (fun rows => (f rows).putAll db.r table (keys.zip values)) := by
  induction keys generalizing tx i values f with
  | nil =>
    cases h
    exact htx
  | cons key keys ih =>
    cases values with
    | nil => cases h
    | cons value values =>
      rw [List.forall_mem_cons] at hvalues
      rcases hvalues.1.encode hr (orders i) with ⟨row, hencode, hrow⟩
      unfold TxnDB.setRows at h
      rw [hencode] at h
      dsimp only at h
      rw [set_eq tx hrow] at h
      exact ih hvalues.2 (htx.insert hrow) h

theorem deletes_writes (table : Bytes) (keys : List Bytes)
    : Writes r ((keys.map (getRowKey table)).map (fun key => (key, none))) (fun rows => rows.eraseAll table keys) := by
  induction keys using List.reverseRecOn with
  | nil => exact writes_nil
  | append_singleton keys key ih =>
    rw [List.map_append, List.map_append]
    unfold Rows.eraseAll at ih ⊢
    simp only [List.foldl_append]
    exact ih.concat_none

end

def Settles (r : RowCodec) (contents : Contents Bytes Bytes) (call : AcceptedCall r) (res : Result × Gotten)
    (contents' : Contents Bytes Bytes) : Prop :=
  Stored r contents' ∧ rowSpec r (rowsIn contents) call res (rowsIn contents')

section

variable {call : AcceptedCall r} {res : Result × Gotten} {gotten : Gotten}

theorem settles_of_failed (h : Stored r contents) (hfailed : failed res.1 = true)
    : Settles r contents call res contents := by
  refine ⟨h, ?_⟩
  unfold rowSpec
  rw [if_pos hfailed]
  exact .inl rfl

theorem settles_of_answers (hfailed : failed res.1 = false)
    (hanswers : Answers r (rowsIn contents) call.call res)
    (hchange : rowsIn contents' = change r (rowsIn contents) call.call) (h' : Stored r contents')
    : Settles r contents call res contents' := by
  refine ⟨h', ?_⟩
  unfold rowSpec
  rw [hfailed]
  exact ⟨hanswers, hchange⟩

theorem settles_of_commit {buffer : List (Bytes × Option Bytes)} {f : Rows → Rows} {answer : Except String Unit}
    (h : Stored r contents) (hbuffer : Writes r buffer f)
    (hanswers : Answers r (rowsIn contents) call.call (.unit (.ok ()), gotten))
    (hchange : f (rowsIn contents) = change r (rowsIn contents) call.call)
    (halone : Alone (Snapshot.commit buffer) contents answer contents')
    : Settles r contents call (.unit answer, gotten) contents' := by
  rcases hbuffer contents h with ⟨h', hrows⟩
  rw [hchange] at hrows
  rcases alone_commit.mp halone with ⟨rfl, rfl⟩ | ⟨err, rfl, rfl | rfl⟩
  . exact settles_of_answers rfl hanswers hrows h'
  . exact settles_of_failed h rfl
  . exact ⟨h', .inr hrows⟩

end

section

variable {orders : Orders} {table key : Bytes} {keys fields : List Bytes} {values : FieldMap} {gotten gotten' : Gotten}

theorem read_settles {hcall : (Call.read table key fields).Accepted db.r} (h : Stored db.r contents)
    {answer : Except String (Option FieldMap)}
    (halone : Alone (onCluster (db.read table key fields) []) contents (answer, gotten) contents')
    : Settles db.r contents ⟨_, orders, hcall⟩ (.row answer, gotten) contents' := by
  unfold TxnDB.read at halone
  rcases alone_beginTxn halone with halone | ⟨err, halone⟩
  . rcases alone_get h halone with ⟨err, halone⟩ | ⟨hkey, halone⟩ | ⟨row, columns, hkey, hrow, halone⟩
    . rcases alone_done.mp halone with ⟨⟨⟩, rfl⟩
      exact settles_of_failed h rfl
    . rcases alone_done.mp halone with ⟨⟨⟩, rfl⟩
      refine settles_of_answers rfl ⟨none, rfl, ?_⟩ rfl h
      rw [rowsIn_eq_none hkey]
      exact .none
    . rcases hrow.decode db.r fields with ⟨found, hdecode, hfound⟩
      dsimp only at halone
      rw [hdecode] at halone
      rcases alone_commit_bind.mp halone with halone | ⟨err, halone | halone⟩
      . rcases alone_done.mp halone with ⟨⟨⟩, rfl⟩
        refine settles_of_answers rfl ⟨some found, rfl, ?_⟩ rfl h
        rw [rowsIn_eq hkey hrow]
        exact .some hfound
      . rcases alone_done.mp halone with ⟨⟨⟩, rfl⟩
        exact settles_of_failed h rfl
      . rcases alone_done.mp halone with ⟨⟨⟩, rfl⟩
        exact settles_of_failed h rfl
  . rcases alone_done.mp halone with ⟨⟨⟩, rfl⟩
    exact settles_of_failed h rfl

structure ReadsRows (db : TxnDB) (rows : Rows) (table : Bytes) (keys fields : List Bytes) (gotten : Gotten)
    (found : List (Option FieldMap)) (gotten' : Gotten) : Prop where
  exists_gets : ∃ gets,
    gotten' = gotten ++ gets
      ∧
    gets.map Prod.fst = keys.map (getRowKey table)
      ∧
    List.Forall₂ (Fetched db.r rows fields) found gets

theorem ReadsRows.cons {rows : Rows} {found : List (Option FieldMap)} {row : Option FieldMap} {fails : Bool}
    (hrow : Fetched db.r rows fields row (getRowKey table key, fails))
    (h : ReadsRows db rows table keys fields (gotten ++ [(getRowKey table key, fails)]) found gotten')
    : ReadsRows db rows table (key :: keys) fields gotten (row :: found) gotten' := by
  rcases h with ⟨gets, rfl, hkeys, hfound⟩
  refine ⟨(getRowKey table key, fails) :: gets, ?_, ?_, .cons hrow hfound⟩
  . rw [List.append_assoc]
    rfl
  . rw [List.map_cons, List.map_cons, hkeys]

theorem readRows_reads (h : Stored db.r contents) {snapshot : KV} {answer : Except String (List (Option FieldMap))}
    (halone
      : Alone (onCluster (db.readRows ⟨snapshot, ∅⟩ table keys fields) gotten) contents (answer, gotten') contents')
    : contents' = contents
        ∧
      ((∃ err, answer = .error err)
        ∨
      ∃ found, answer = .ok found ∧ ReadsRows db (rowsIn contents) table keys fields gotten found gotten') := by
  induction keys generalizing gotten answer gotten' with
  | nil =>
    rcases alone_done.mp halone with ⟨⟨⟩, rfl⟩
    exact ⟨rfl, .inr ⟨[], rfl, [], (List.append_nil _).symm, rfl, .nil⟩⟩
  | cons key keys ih =>
    have hnext : ∀ row fails, Fetched db.r (rowsIn contents) fields row (getRowKey table key, fails) →
        Alone (onCluster (db.readRows ⟨snapshot, ∅⟩ table keys fields >>= fun res =>
          pure (res.map (fun rows => row :: rows))) (gotten ++ [(getRowKey table key, fails)])) contents
            (answer, gotten') contents' →
        contents' = contents
          ∧
        ((∃ err, answer = .error err)
          ∨
        ∃ found, answer = .ok found
          ∧ ReadsRows db (rowsIn contents) table (key :: keys) fields gotten found gotten') := by
      intro row fails hrow hmap
      rw [onCluster_map] at hmap
      rcases hmap.of_map with ⟨⟨res, gets⟩, hres, hrest⟩
      cases hres
      rcases ih hrest with ⟨rfl, ⟨err, rfl⟩ | ⟨found, rfl, hfound⟩⟩
      . exact ⟨rfl, .inl ⟨err, rfl⟩⟩
      . exact ⟨rfl, .inr ⟨row :: found, rfl, hfound.cons hrow⟩⟩
    rw [readRows_cons] at halone
    rcases alone_get h halone with ⟨err, halone⟩ | ⟨hkey, halone⟩ | ⟨row, columns, hkey, hrow, halone⟩
    . exact hnext none true rfl halone
    . apply hnext none false _ halone
      change Selects db.r fields none (rowsIn contents (getRowKey table key))
      rw [rowsIn_eq_none hkey]
      exact .none
    . rcases hrow.decode db.r fields with ⟨found, hdecode, hfound⟩
      dsimp only at halone
      rw [hdecode, Rpc.lift_ret_bind] at halone
      apply hnext (some found) false _ halone
      change Selects db.r fields (some found) (rowsIn contents (getRowKey table key))
      rw [rowsIn_eq hkey hrow]
      exact .some hfound

theorem batchRead_settles {hcall : (Call.batchRead table keys fields).Accepted db.r} (h : Stored db.r contents)
    {answer : Except String (List (Option FieldMap))}
    (halone : Alone (onCluster (db.batchRead table keys fields) []) contents (answer, gotten) contents')
    : Settles db.r contents ⟨_, orders, hcall⟩ (.rows answer, gotten) contents' := by
  unfold TxnDB.batchRead at halone
  rcases alone_beginTxn halone with halone | ⟨err, halone⟩
  . rcases readRows_reads h halone with ⟨rfl, ⟨err, rfl⟩ | ⟨found, rfl, gets, hgets, hkeys, hfound⟩⟩
    . exact settles_of_failed h rfl
    . rw [List.nil_append] at hgets
      subst hgets
      exact settles_of_answers rfl ⟨found, rfl, hkeys, hfound⟩ rfl h
  . rcases alone_done.mp halone with ⟨⟨⟩, rfl⟩
    exact settles_of_failed h rfl

theorem update_settles (hr : db.r.Configured p) {hcall : (Call.update table key values).Accepted db.r}
    (h : Stored db.r contents) {answer : Except String Unit}
    (halone : Alone (onCluster (db.update (orders 0) table key values) []) contents (answer, gotten) contents')
    : Settles db.r contents ⟨_, orders, hcall⟩ (.unit answer, gotten) contents' := by
  unfold TxnDB.update at halone
  rcases alone_beginTxn halone with halone | ⟨err, halone⟩
  . rcases alone_get h halone with ⟨err, halone⟩ | ⟨hkey, halone⟩ | ⟨row, columns, hkey, hrow, halone⟩
    . rcases alone_done.mp halone with ⟨⟨⟩, rfl⟩
      exact settles_of_failed h rfl
    . rcases alone_done.mp halone with ⟨⟨⟩, rfl⟩
      refine settles_of_answers rfl rfl ?_ h
      unfold change
      dsimp only
      rw [rowsIn_eq_none hkey]
      rfl
    . rcases hrow.decode_nil db.r with ⟨data, hdecode, hdata⟩
      rcases RowCodec.encode_merge hr hdata hrow.length hrow.configured hcall (orders 0) with ⟨buf, hencode, hbuf⟩
      dsimp only at halone
      rw [hdecode, Rpc.lift_ret_bind] at halone
      dsimp only at halone
      rw [hencode] at halone
      dsimp only at halone
      rw [set_eq _ hbuf] at halone
      have hwrites : Writes db.r (puts ∅) id := writes_nil
      refine settles_of_commit h (hwrites.insert hbuf) ?_ ?_ (alone_commitTxn halone)
      . rfl
      . unfold change Rows.merge
        dsimp only
        rw [rowsIn_eq hkey hrow]
        rfl
  . rcases alone_done.mp halone with ⟨⟨⟩, rfl⟩
    exact settles_of_failed h rfl

theorem insert_settles (hr : db.r.Configured p) {hcall : (Call.insert table key values).Accepted db.r}
    (h : Stored db.r contents) {answer : Except String Unit}
    (halone : Alone (onCluster (db.insert (orders 0) table key values) []) contents (answer, gotten) contents')
    : Settles db.r contents ⟨_, orders, hcall⟩ (.unit answer, gotten) contents' := by
  rcases RowCodec.Accepts.encode hr hcall (orders 0) with ⟨buf, hencode, hbuf⟩
  unfold TxnDB.insert at halone
  rw [hencode] at halone
  rcases alone_beginTxn halone with halone | ⟨err, halone⟩
  . dsimp only at halone
    rw [set_eq _ hbuf] at halone
    have hwrites : Writes db.r (puts ∅) id := writes_nil
    exact settles_of_commit h (hwrites.insert hbuf) rfl rfl (alone_commitTxn halone)
  . rcases alone_done.mp halone with ⟨⟨⟩, rfl⟩
    exact settles_of_failed h rfl

theorem putRows_settles (hr : db.r.Configured p) {maps : List FieldMap} {call : AcceptedCall db.r}
    (hcall : ∀ value ∈ maps, db.r.Accepts value)
    (hanswers : Answers db.r (rowsIn contents) call.call (.unit (.ok ()), gotten))
    (hchange : (rowsIn contents).putAll db.r table (keys.zip maps) = change db.r (rowsIn contents) call.call)
    (h : Stored db.r contents) {answer : Except String Unit}
    (halone : Alone (onCluster (db.putRows orders table keys maps) []) contents (answer, gotten) contents')
    : Settles db.r contents call (.unit answer, gotten) contents' := by
  unfold TxnDB.putRows at halone
  rcases alone_beginTxn halone with halone | ⟨err, halone⟩
  . dsimp only at halone
    cases hset : db.setRows orders ⟨∅, ∅⟩ table 0 keys maps with
    | ret res =>
      rw [hset, Rpc.lift_ret_bind] at halone
      cases res with
      | error err =>
        rcases alone_done.mp halone with ⟨⟨⟩, rfl⟩
        exact settles_of_failed h rfl
      | ok tx =>
        have hwrites := setRows_writes hr hcall writes_nil hset
        exact settles_of_commit h hwrites hanswers hchange (alone_commitTxn halone)
    | panic msg =>
      rw [hset] at halone
      cases halone
    | exit msg =>
      rw [hset] at halone
      cases halone
    | running =>
      rw [hset] at halone
      cases halone
  . rcases alone_done.mp halone with ⟨⟨⟩, rfl⟩
    exact settles_of_failed h rfl

theorem deleteKeys_settles {call : AcceptedCall db.r}
    (hanswers : Answers db.r (rowsIn contents) call.call (.unit (.ok ()), gotten))
    (hchange : (rowsIn contents).eraseAll table keys = change db.r (rowsIn contents) call.call)
    (h : Stored db.r contents) {answer : Except String Unit}
    (halone : Alone (deleteKeys (keys.map (getRowKey table))) contents answer contents')
    : Settles db.r contents call (.unit answer, gotten) contents' := by
  unfold deleteKeys at halone
  rcases alone_begin_bind.mp halone with halone | ⟨err, halone⟩
  . exact settles_of_commit h (deletes_writes table keys) hanswers hchange halone
  . rcases alone_done.mp halone with ⟨⟨⟩, rfl⟩
    exact settles_of_failed h rfl

theorem prog_settles (hr : db.r.Configured p) (h : Stored db.r contents) {call : AcceptedCall db.r}
    {res : Result × Gotten} (halone : Alone (prog db call) contents res contents')
    : Settles db.r contents call res contents' := by
  rcases call with ⟨call, orders, hcall⟩
  unfold prog at halone
  cases call with
  | read table key fields =>
    rcases halone.of_map with ⟨⟨answer, gotten⟩, rfl, hanswer⟩
    exact read_settles h hanswer
  | batchRead table keys fields =>
    rcases halone.of_map with ⟨⟨answer, gotten⟩, rfl, hanswer⟩
    exact batchRead_settles h hanswer
  | update table key values =>
    rcases halone.of_map with ⟨⟨answer, gotten⟩, rfl, hanswer⟩
    exact update_settles hr h hanswer
  | batchUpdate table keys values =>
    rcases halone.of_map with ⟨⟨answer, gotten⟩, rfl, hanswer⟩
    refine putRows_settles hr hcall ?_ ?_ h hanswer
    . rfl
    . rfl
  | insert table key values =>
    rcases halone.of_map with ⟨⟨answer, gotten⟩, rfl, hanswer⟩
    exact insert_settles hr h hanswer
  | batchInsert table keys values =>
    rcases halone.of_map with ⟨⟨answer, gotten⟩, rfl, hanswer⟩
    refine putRows_settles hr hcall ?_ ?_ h hanswer
    . rfl
    . rfl
  | delete table key =>
    rcases halone.of_map with ⟨answer, rfl, hanswer⟩
    have hanswer : Alone (deleteKeys ([key].map (getRowKey table))) contents answer contents' := hanswer
    refine deleteKeys_settles ?_ ?_ h hanswer
    . rfl
    . rfl
  | batchDelete table keys =>
    rcases halone.of_map with ⟨answer, rfl, hanswer⟩
    refine deleteKeys_settles ?_ ?_ h hanswer
    . rfl
    . rfl

end

variable {W : Type} [DecidableEq W]

/--
Whatever the threads do at the same time and whatever requests fail, each call takes place at one moment.
-/
theorem txn_linearizable (hcreate : createTxnDB p = .ret db) {base : Contents Bytes Bytes} (hbase : Stored db.r base)
    {conflict : String} {labels : List (Threads.Label W (AcceptedCall db.r) (Choice String))}
    {s : State W Bytes Bytes String (AcceptedCall db.r) (Result × Gotten)}
    (hrun : Run (system conflict (prog db)).step (fun _ _ => True) (Threads.init (.new base)) labels s)
    : Linearizable (rowSpec db.r) (rowsIn base) s.history := by
  have hr : db.r.Configured p := by
    rcases Outcome.bind_eq_ret hcreate with ⟨r, hr, hdb⟩
    cases hdb
    exact configured_of_newRowCodec hr
  have htransaction : ∀ call : AcceptedCall db.r, Transaction .outside (prog db call) :=
    fun call => serve_transaction db call.orders call.call
  have hbytes := linearizable htransaction hrun
  exact hbytes.map rowsIn hbase (fun contents call res contents' hstored halone => prog_settles hr hstored halone)

def pairDB : TxnDB where
  r :=
    {
      fieldIndices := createFieldIndices twoFields
      fields := [fieldName 0, fieldName 1]
    }

def setFirst : AcceptedCall pairDB.r where
  call := .update [116] [107] (AList.insert (fieldName 0) [120] ∅)
  orders := fun _ => .id
  accepted := ⟨by decide, by decide⟩

def setSecond : AcceptedCall pairDB.r where
  call := .update [116] [107] (AList.insert (fieldName 1) [121] ∅)
  orders := fun _ => .id
  accepted := ⟨by decide, by decide⟩

def readTwice : AcceptedCall pairDB.r where
  call := .batchRead [116] [[107], [107]] []
  orders := fun _ => .id
  accepted := trivial

-- Two updates of one row that both begin before the other one commits, and a read of it whose first `Get` fails.
def updatesAndRead : List (Threads.Label Bool (AcceptedCall pairDB.r) (Choice String)) :=
  [
    .invoke false setFirst, .invoke true setSecond, .request false .succeed, .request true .succeed,
    .request false .succeed, .request true .succeed, .request false .succeed, .request true .succeed,
    .respond false, .respond true, .invoke false readTwice, .request false .succeed,
    .request false (.fail "server is busy" false), .request false .succeed, .respond false
  ]

def responses (history : List (Event Bool (AcceptedCall pairDB.r) (Result × Gotten)))
    : List (Bool × Bool × List Bool) :=
  history.flatMap (fun event =>
    match event with
    | .invoke _ _ => []
    | .respond w _ res => [(w, failed res.1, res.2.map Prod.snd)])

theorem txn_linearizable_updatesAndRead
    : ∃ s : State Bool Bytes Bytes String (AcceptedCall pairDB.r) (Result × Gotten),
        responses s.history = [(false, false, [false]), (true, true, [false]), (false, false, [true, false])]
          ∧
        Linearizable (rowSpec pairDB.r) (rowsIn (fun key => pairStore.lookup key)) s.history := by
  have hcreate : createTxnDB twoFields = .ret pairDB := rfl
  have hbase : Stored pairDB.r (fun key => pairStore.lookup key) := pairStore_stores rfl
  have hexec : (Run.exec (system "write conflict" (prog pairDB)).step (fun _ _ => True)
      (Threads.init (.new (fun key => pairStore.lookup key))) updatesAndRead).any
        (fun s => responses s.history
          == [(false, false, [false]), (true, true, [false]), (false, false, [true, false])])
          = true := by
    decide +kernel
  rcases Run.exists_of_exec _ hexec with ⟨s, hrun, hresponses⟩
  exact ⟨s, eq_of_beq hresponses, txn_linearizable hcreate hbase hrun⟩

end TxnThreads

end Tikv
