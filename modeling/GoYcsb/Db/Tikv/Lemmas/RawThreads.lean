import GoYcsb.Db.Tikv.Impl.RawThreads
import GoYcsb.Db.Tikv.Lemmas.Raw

/-!
This module contains the verification of the raw mode driver under concurrent use: as long as every
`Put` finds the row that its `Get` has returned, every `Update` is an atomic merge into the row.
-/

namespace Tikv

open Util

namespace RawThreads

variable {W : Type} [DecidableEq W]

def OnRow (r : RowCodec) (table key : Bytes) (label : Label W) : Prop :=
  match label with
  | .call _ (.read table' key' _) _ => table' = table ∧ key' = key
  | .call _ (.update table' key' values) _ => table' = table ∧ key' = key ∧ r.Accepts values
  | .call _ _ _ => False
  | .rpc _ | .fail _ _ _ | .ret _ => True

def putFinds (store : KV) (thread : RawThread) : Bool :=
  match thread with
  | .busy _ seen (.call (.put key _) _) => seen == store.lookup key
  | _ => true

def PutsFresh (s : RawThreads W) (label : Label W) : Prop :=
  match label with
  | .rpc w => putFinds s.store (s.thread w) = true
  | .call _ _ _ | .fail _ _ _ | .ret _ => True

def merged (r : RowCodec) (columns : Columns) (served : List (RawDB.Call × RawDB.Result)) : Columns :=
  served.foldl (fun columns entry =>
    match entry.1 with
    | .update _ _ values => r.overlay columns values
    | _ => columns) columns

def written (call : RawDB.Call) (field : Bytes) : Option Bytes :=
  match call with
  | .update _ _ values => values.lookup field
  | _ => none

def Updating (r : RowCodec) (rowKey : Bytes) (values : FieldMap) (seen : Option Bytes)
    (prog : Raw (RawDB.Result × Option RawDBState)) : Prop :=
  match prog with
  | .call (.get key) cont =>
    key = rowKey
      ∧
    (∀ row columns, r.Stores row columns → Updating r rowKey values (some row) (cont (.ok (some row))))
      ∧
    ∀ err, ∃ ctx, cont (.error err) = .done (.ret (.unit (.error err), ctx))
  | .call (.put key buf) cont =>
    key = rowKey
      ∧
    (∀ row columns, seen = some row → r.Stores row columns → r.Stores buf (r.overlay columns values))
      ∧
    (∃ ctx, cont (.ok ()) = .done (.ret (.unit (.ok ()), ctx)) ∧ CtxValid r ctx)
      ∧
    ∀ err, ∃ ctx, cont (.error err) = .done (.ret (.unit (.error err), ctx))
  | .call (.compareAndSwap key previousValue buf) cont =>
    key = rowKey
      ∧
    (∀ columns, r.Stores previousValue columns → r.Stores buf (r.overlay columns values))
      ∧
    (∀ row, ∃ ctx, cont (.ok (row, true)) = .done (.ret (.unit (.ok ()), ctx)) ∧ CtxValid r ctx)
      ∧
    (∀ row, Updating r rowKey values seen (cont (.ok (row, false))))
      ∧
    ∀ err, ∃ ctx, cont (.error err) = .done (.ret (.unit (.error err), ctx))
  | .call _ _ | .done _ => False

def Reading (r : RowCodec) (rowKey : Bytes) (prog : Raw (RawDB.Result × Option RawDBState)) : Prop :=
  ∃ cont,
    prog = .call (.get rowKey) cont
      ∧
    (∀ row columns, r.Stores row columns →
      ∃ res ctx, cont (.ok (some row)) = .done (.ret (res, ctx)) ∧ CtxValid r ctx)
      ∧
    ∀ err, ∃ res ctx, cont (.error err) = .done (.ret (res, ctx)) ∧ CtxValid r ctx

def ThreadOk (r : RowCodec) (rowKey : Bytes) (thread : RawThread) : Prop :=
  match thread with
  | .idle ctx => CtxValid r ctx
  | .busy (.read _ _ _) _ prog => Reading r rowKey prog
  | .busy (.update _ _ values) seen prog => r.Accepts values ∧ Updating r rowKey values seen prog
  | .returning _ _ ctx => CtxValid r ctx
  | .busy _ _ _ | .stopped => False

-- The row is what the calls `served` have made of `columns`, in this order.
structure RowOk (r : RowCodec) (rowKey : Bytes) (columns : Columns) (store : KV)
    (served : List (RawDB.Call × RawDB.Result)) : Prop where
  row : ∃ row, store.lookup rowKey = some row ∧ r.Stores row (merged r columns served)
  accepted : ∀ entry ∈ served, entry.1.Accepted r

def Finished (s : RawThreads W) (entry : RawDB.Call × RawDB.Result) : Prop :=
  entry ∈ s.returned ∨ ∃ w, (s.thread w).result = some entry

structure Inv (r : RowCodec) (rowKey : Bytes) (columns : Columns) (s : RawThreads W) : Prop where
  row : ∃ served, RowOk r rowKey columns s.store served ∧ ∀ entry, entry ∈ served ↔ s.Finished entry
  threads : ∀ w, ThreadOk r rowKey (s.thread w)

def updateFailed (entry : RawDB.Call × RawDB.Result) : Bool :=
  match entry with
  | (.update _ _ _, .unit (.error _)) => true
  | _ => false

def Failed (s : RawThreads W) : Prop := ∃ entry ∈ s.returned, updateFailed entry = true

def Failing (s : RawThreads W) : Prop := ∃ entry, s.Finished entry ∧ updateFailed entry = true

section

variable {p : Properties} {db : RawDB} {ctx : Option RawDBState} {table key : Bytes} {values : FieldMap}

theorem updating_getAndPut (hr : db.r.Configured p) (hctx : CtxValid db.r ctx)
    (hvalues : db.r.Accepts values) (order : GoMap.Order Bytes Bytes) (seen : Option Bytes)
    : Updating db.r (getRowKey table key) values seen
        (db.getAndPut order table key values >>= (fun res => pure (res, ctx))
          >>= fun res => pure (.unit res.1, res.2)) := by
  refine ⟨rfl, ?_, fun err => ⟨ctx, rfl⟩⟩
  intro row columns hrow
  rcases hrow.decode_nil db.r with ⟨data, hdecode, hdata⟩
  rcases RowCodec.encode_merge hr hdata hrow.length hrow.configured hvalues order
    with ⟨buf, hencode, hbuf⟩
  dsimp only [Rpc.bind, Option.getD_some]
  rw [hdecode, Rpc.lift_ret_bind]
  dsimp only
  unfold RawDB.insert
  rw [hencode]
  refine ⟨rfl, ?_, ⟨ctx, rfl, hctx⟩, fun err => ⟨ctx, rfl⟩⟩
  intro row' columns' hseen hrow'
  cases hseen
  rw [hrow'.toHolds.unique hrow.toHolds]
  exact hbuf

theorem ctxValid_clear (r : RowCodec) (ctx : Option RawDBState)
    : CtxValid r (ctx.map (fun _ => ⟨[], none⟩)) := by
  intro state row hstate hrow
  rcases Option.map_eq_some_iff.mp hstate with ⟨_, _, rfl⟩
  contradiction

theorem updating_serve (hr : db.r.Configured p) (hctx : CtxValid db.r ctx)
    (hvalues : db.r.Accepts values) (orders : Orders)
    : Updating db.r (getRowKey table key) values none
        (db.serve orders ctx (.update table key values)) := by
  unfold RawDB.serve RawDB.update
  dsimp only
  cases hcached : db.cachedRow ctx (getRowKey table key) with
  | none =>
    exact updating_getAndPut hr hctx hvalues (orders 0) none
  | some prevRow =>
    rcases RawDB.of_cachedRow hcached with ⟨state, hstate, hprev⟩
    rcases hctx state prevRow hstate hprev with ⟨columns, hrow⟩
    rcases hrow.decode_nil db.r with ⟨data, hdecode, hdata⟩
    rcases RowCodec.encode_merge hr hdata hrow.length hrow.configured hvalues (orders 1)
      with ⟨buf, hencode, hbuf⟩
    have hclear := ctxValid_clear db.r ctx
    dsimp only
    rw [hdecode, Rpc.lift_ret_bind]
    dsimp only
    rw [hencode]
    refine ⟨rfl, ?_, fun row => ⟨_, rfl, hclear⟩, fun row => ?_, fun err => ⟨_, rfl⟩⟩
    . intro columns' hrow'
      rw [hrow'.toHolds.unique hrow.toHolds]
      exact hbuf
    . exact updating_getAndPut hr hclear hvalues (orders 0) none

theorem reading_serve (hctx : CtxValid db.r ctx) (orders : Orders) (fields : List Bytes)
    : Reading db.r (getRowKey table key) (db.serve orders ctx (.read table key fields)) := by
  refine ⟨_, rfl, ?_, fun err => ⟨_, ctx, rfl, hctx⟩⟩
  intro row columns hrow
  rcases hrow.decode db.r fields with ⟨found, hdecode, _⟩
  dsimp only [Rpc.bind]
  rw [hdecode]
  refine ⟨_, _, rfl, ?_⟩
  split
  . apply ctxValid_cache hrow
  . exact hctx

end

inductive Takes (db : RawDB) (s : RawThreads W) : Label W → RawThreads W → Prop where
  | call (w : W) (call : RawDB.Call) (orders : Orders) (ctx : Option RawDBState) :
      s.thread w = .idle ctx →
      Takes db s (.call w call orders) (s.resume w call none (db.serve orders ctx call))
  | rpc (w : W) (call : RawDB.Call) (seen : Option Bytes) (req : RawRequest)
      (cont : req.Answer → Raw (RawDB.Result × Option RawDBState)) :
      s.thread w = .busy call seen (.call req cont) →
      Takes db s (.rpc w)
        ({ s with store := (req.handle s.store).2 }.resume w call (req.seen s.store seen)
          (cont (req.handle s.store).1))
  | fail (w : W) (err : String) (reached : Bool) (call : RawDB.Call) (seen : Option Bytes)
      (req : RawRequest) (cont : req.Answer → Raw (RawDB.Result × Option RawDBState)) :
      s.thread w = .busy call seen (.call req cont) →
      Takes db s (.fail w err reached)
        ({ s with store := if reached then (req.handle s.store).2 else s.store }.resume w call seen
          (cont (.error err)))
  | ret (w : W) (call : RawDB.Call) (res : RawDB.Result) (ctx : Option RawDBState) :
      s.thread w = .returning call res ctx →
      Takes db s (.ret w) ({ s with returned := s.returned ++ [(call, res)] }.goto w (.idle ctx))

theorem takes_of_step {db : RawDB} {s t : RawThreads W} {label : Label W}
    (h : s.step db label = some t)
    : Takes db s label t := by
  cases label with
  | call w call orders =>
    simp only [step] at h
    split at h
    . next ctx hthread =>
      cases h
      exact .call w call orders ctx hthread
    all_goals contradiction
  | rpc w =>
    simp only [step] at h
    split at h
    . next call seen req cont hthread =>
      cases h
      exact .rpc w call seen req cont hthread
    all_goals contradiction
  | fail w err reached =>
    simp only [step] at h
    split at h
    . next call seen req cont hthread =>
      cases h
      exact .fail w err reached call seen req cont hthread
    all_goals contradiction
  | ret w =>
    simp only [step] at h
    split at h
    . next call res ctx hthread =>
      cases h
      exact .ret w call res ctx hthread
    all_goals contradiction

section Finished

variable {s : RawThreads W} {w : W}

@[simp]
theorem goto_thread (s : RawThreads W) (w w' : W) (thread : RawThread)
    : (s.goto w thread).thread w' = if w' = w then thread else s.thread w' := by
  simp [goto, Function.update_apply]

theorem finished_goto (store : KV) {thread : RawThread} (hbefore : (s.thread w).result = none)
    (entry : RawDB.Call × RawDB.Result)
    : ({ s with store }.goto w thread).Finished entry ↔ s.Finished entry ∨ thread.result = some entry := by
  unfold Finished
  rw [or_assoc]
  apply or_congr Iff.rfl
  constructor
  . intro h
    rcases h with ⟨w', hw'⟩
    rw [goto_thread] at hw'
    split at hw'
    . exact Or.inr hw'
    . exact Or.inl ⟨w', hw'⟩
  . intro h
    cases h with
    | inl h =>
      rcases h with ⟨w', hw'⟩
      have hne : w' ≠ w := by
        intro heq
        rw [heq, hbefore] at hw'
        contradiction
      refine ⟨w', ?_⟩
      rw [goto_thread, if_neg hne]
      exact hw'
    | inr h =>
      refine ⟨w, ?_⟩
      rw [goto_thread, if_pos rfl]
      exact h

theorem finished_ret {call : RawDB.Call} {res : RawDB.Result} {ctx : Option RawDBState}
    (hthread : s.thread w = .returning call res ctx) (entry : RawDB.Call × RawDB.Result)
    : ({ s with returned := s.returned ++ [(call, res)] }.goto w (.idle ctx)).Finished entry
        ↔
      s.Finished entry := by
  have hresult : (s.thread w).result = some (call, res) := by
    rw [hthread]
    rfl
  unfold Finished
  constructor
  . intro h
    cases h with
    | inl h =>
      cases List.mem_append.mp h with
      | inl h => exact Or.inl h
      | inr h =>
        rw [List.mem_singleton] at h
        exact Or.inr ⟨w, h ▸ hresult⟩
    | inr h =>
      rcases h with ⟨w', hw'⟩
      rw [goto_thread] at hw'
      split at hw'
      . contradiction
      . exact Or.inr ⟨w', hw'⟩
  . intro h
    cases h with
    | inl h => exact Or.inl (List.mem_append_left _ h)
    | inr h =>
      rcases h with ⟨w', hw'⟩
      by_cases heq : w' = w
      . rw [heq, hresult] at hw'
        cases hw'
        exact Or.inl (List.mem_append_right _ List.mem_cons_self)
      . refine Or.inr ⟨w', ?_⟩
        rw [goto_thread, if_neg heq]
        exact hw'

theorem finished_resume {store : KV} {call : RawDB.Call} {seen : Option Bytes}
    {prog : Raw (RawDB.Result × Option RawDBState)} (hbefore : (s.thread w).result = none)
    {entry : RawDB.Call × RawDB.Result} (h : s.Finished entry)
    : ({ s with store }.resume w call seen prog).Finished entry := by
  unfold resume
  split <;> exact (finished_goto _ hbefore entry).mpr (Or.inl h)

omit [DecidableEq W] in
theorem Quiescent.returned_of_finished (hidle : s.Quiescent) {entry : RawDB.Call × RawDB.Result}
    (h : s.Finished entry)
    : entry ∈ s.returned := by
  cases h with
  | inl h => exact h
  | inr h =>
    rcases h with ⟨w, hw⟩
    have hw' := hidle w
    unfold RawThread.isIdle at hw'
    split at hw'
    . next heq =>
      rw [heq] at hw
      contradiction
    all_goals contradiction

end Finished

theorem Takes.finished {db : RawDB} {s t : RawThreads W} {label : Label W} (htakes : Takes db s label t)
    {entry : RawDB.Call × RawDB.Result} (h : s.Finished entry)
    : t.Finished entry := by
  cases htakes with
  | call w call orders ctx hthread => exact finished_resume (by rw [hthread]; rfl) h
  | rpc w call seen req cont hthread => exact finished_resume (by rw [hthread]; rfl) h
  | fail w err reached call seen req cont hthread => exact finished_resume (by rw [hthread]; rfl) h
  | ret w call res ctx hthread => exact (finished_ret hthread entry).mpr h

theorem Failing.step {db : RawDB} {s t : RawThreads W} {label : Label W} (h : Failing s)
    (htakes : Takes db s label t)
    : Failing t := by
  rcases h with ⟨entry, hfinished, hfailed⟩
  exact ⟨entry, htakes.finished hfinished, hfailed⟩

section

variable {p : Properties} {db : RawDB} {r : RowCodec} {rowKey table key : Bytes} {values : FieldMap}
  {columns : Columns} {s : RawThreads W}

theorem RowOk.read {store : KV} {served : List (RawDB.Call × RawDB.Result)}
    (h : RowOk r rowKey columns store served) (fields : List Bytes) (res : RawDB.Result)
    : RowOk r rowKey columns store (served ++ [(.read table key fields, res)]) where
  row := by
    unfold merged
    rw [List.foldl_concat]
    exact h.row
  accepted := by
    rw [List.forall_mem_append, List.forall_mem_singleton]
    exact ⟨h.accepted, trivial⟩

theorem RowOk.update {store : KV} {served : List (RawDB.Call × RawDB.Result)} {buf : Bytes}
    (h : RowOk r rowKey columns store served) (hvalues : r.Accepts values)
    (hbuf : r.Stores buf (r.overlay (merged r columns served) values)) (res : RawDB.Result)
    : RowOk r rowKey columns (store.insert rowKey buf)
        (served ++ [(.update table key values, res)]) where
  row := by
    refine ⟨buf, ?_, ?_⟩
    . rw [GoMap.lookup_insert, if_pos rfl]
    . unfold merged
      rw [List.foldl_concat]
      exact hbuf
  accepted := by
    rw [List.forall_mem_append, List.forall_mem_singleton]
    exact ⟨h.accepted, hvalues⟩

theorem Inv.threads_goto (h : Inv r rowKey columns s) (w : W) {store : KV}
    {returned : List (RawDB.Call × RawDB.Result)} {thread : RawThread} (hthread : ThreadOk r rowKey thread)
    : ∀ w', ThreadOk r rowKey (({ s with store, returned }.goto w thread).thread w') := by
  intro w'
  rw [goto_thread]
  split
  . exact hthread
  . apply h.threads

theorem Inv.goto_call (h : Inv r rowKey columns s) {w : W} {thread : RawThread}
    (hbefore : (s.thread w).result = none) (hafter : thread.result = none) (hthread : ThreadOk r rowKey thread)
    : Inv r rowKey columns (s.goto w thread) where
  row := by
    rcases h.row with ⟨served, hrow, hserved⟩
    refine ⟨served, hrow, fun entry => ?_⟩
    rw [hserved, finished_goto s.store hbefore, hafter, or_iff_left nofun]
  threads := h.threads_goto w hthread

theorem Inv.goto_returning (h : Inv r rowKey columns s) {w : W} {store : KV} {call : RawDB.Call}
    {res : RawDB.Result} {ctx : Option RawDBState} (hbefore : (s.thread w).result = none)
    (hrow : ∀ served, RowOk r rowKey columns s.store served → RowOk r rowKey columns store (served ++ [(call, res)]))
    (hctx : CtxValid r ctx)
    : Inv r rowKey columns ({ s with store }.goto w (.returning call res ctx)) where
  row := by
    rcases h.row with ⟨served, hserved, hmem⟩
    refine ⟨served ++ [(call, res)], hrow served hserved, fun entry => ?_⟩
    rw [finished_goto store hbefore, List.mem_append, hmem, List.mem_singleton]
    apply or_congr Iff.rfl
    exact ⟨fun heq => congrArg some heq.symm, fun heq => (Option.some.inj heq).symm⟩
  threads := h.threads_goto w hctx

theorem Inv.resume_updating (h : Inv r rowKey columns s) {w : W} {seen : Option Bytes}
    {prog : Raw (RawDB.Result × Option RawDBState)} (hbefore : (s.thread w).result = none)
    (hvalues : r.Accepts values) (hprog : Updating r rowKey values seen prog)
    : Inv r rowKey columns (s.resume w (.update table key values) seen prog) := by
  cases prog with
  | done out => exact hprog.elim
  | call req cont => exact h.goto_call hbefore rfl ⟨hvalues, hprog⟩

theorem Inv.rpc_update (h : Inv r rowKey columns s) {w : W} {seen : Option Bytes} {req : RawRequest}
    {cont : req.Answer → Raw (RawDB.Result × Option RawDBState)}
    (hthread : s.thread w = .busy (.update table key values) seen (.call req cont))
    (hfresh : s.PutsFresh (.rpc w))
    : Inv r rowKey columns
        ({ s with store := (req.handle s.store).2 }.resume w (.update table key values)
          (req.seen s.store seen) (cont (req.handle s.store).1)) := by
  have hprog : ThreadOk r rowKey (s.thread w) := h.threads w
  have hbefore : (s.thread w).result = none := by
    rw [hthread]
    rfl
  rw [hthread] at hprog
  rcases hprog with ⟨hvalues, hprog⟩
  cases req with
  | get k =>
    rcases h.row with ⟨served, ⟨⟨row, hlookup, hrow⟩, _⟩, _⟩
    rcases hprog with ⟨rfl, hcont, _⟩
    have hnext := hcont row _ hrow
    rw [← hlookup] at hnext
    exact h.resume_updating hbefore hvalues hnext
  | put k buf =>
    rcases hprog with ⟨rfl, hbuf, ⟨ctx, hcont, hctx⟩, _⟩
    rw [RawRequest.handle]
    dsimp only [RawRequest.apply]
    rw [hcont]
    apply h.goto_returning hbefore _ hctx
    intro served hserved
    rcases hserved.row with ⟨row, hlookup, hrow⟩
    have hseen : seen = some row := by
      have hfinds : putFinds s.store (s.thread w) = true := hfresh
      rw [hthread] at hfinds
      rw [← hlookup]
      exact eq_of_beq hfinds
    exact hserved.update hvalues (hbuf row _ hseen hrow) _
  | compareAndSwap k previousValue buf =>
    rcases hprog with ⟨rfl, hbuf, hswapped, hcont, _⟩
    rw [RawDB.handle_compareAndSwap]
    split
    . next hprev =>
      rcases hswapped (s.store.lookup k) with ⟨ctx, hdone, hctx⟩
      dsimp only
      rw [hdone]
      apply h.goto_returning hbefore _ hctx
      intro served hserved
      rcases hserved.row with ⟨row, hlookup, hrow⟩
      rw [hlookup] at hprev
      cases hprev
      exact hserved.update hvalues (hbuf _ hrow) _
    . exact h.resume_updating hbefore hvalues (hcont _)
  | batchGet ks => exact hprog.elim
  | batchPut ks bufs => exact hprog.elim
  | delete k => exact hprog.elim
  | batchDelete ks => exact hprog.elim

theorem Inv.rpc_read (h : Inv r rowKey columns s) {w : W} {fields : List Bytes} {seen : Option Bytes}
    {req : RawRequest} {cont : req.Answer → Raw (RawDB.Result × Option RawDBState)}
    (hthread : s.thread w = .busy (.read table key fields) seen (.call req cont))
    : Inv r rowKey columns
        ({ s with store := (req.handle s.store).2 }.resume w (.read table key fields)
          (req.seen s.store seen) (cont (req.handle s.store).1)) := by
  have hprog : ThreadOk r rowKey (s.thread w) := h.threads w
  have hbefore : (s.thread w).result = none := by
    rw [hthread]
    rfl
  rw [hthread] at hprog
  rcases h.row with ⟨served, ⟨⟨row, hlookup, hrow⟩, _⟩, _⟩
  rcases hprog with ⟨cont', hcall, hfound, _⟩
  cases hcall
  rcases hfound row _ hrow with ⟨res, ctx, hdone, hctx⟩
  rw [← hlookup] at hdone
  rw [RawRequest.handle]
  dsimp only [RawRequest.apply]
  rw [hdone]
  apply h.goto_returning hbefore _ hctx
  intro served hserved
  exact hserved.read fields res

theorem Inv.fail_read (h : Inv r rowKey columns s) {w : W} {fields : List Bytes} {seen : Option Bytes}
    {req : RawRequest} {cont : req.Answer → Raw (RawDB.Result × Option RawDBState)}
    (hthread : s.thread w = .busy (.read table key fields) seen (.call req cont)) (err : String)
    (reached : Bool)
    : Inv r rowKey columns
        ({ s with store := if reached then (req.handle s.store).2 else s.store }.resume w
          (.read table key fields) seen (cont (.error err))) := by
  have hprog : ThreadOk r rowKey (s.thread w) := h.threads w
  have hbefore : (s.thread w).result = none := by
    rw [hthread]
    rfl
  rw [hthread] at hprog
  rcases hprog with ⟨cont', hcall, _, herror⟩
  cases hcall
  rcases herror err with ⟨res, ctx, hdone, hctx⟩
  rw [hdone]
  apply h.goto_returning hbefore _ hctx
  intro served hserved
  split <;> exact hserved.read fields res

-- Whether the request has reached the store or not, the call returns the error.
theorem failing_of_updating {w : W} {seen seen' : Option Bytes} {req : RawRequest}
    {cont : req.Answer → Raw (RawDB.Result × Option RawDBState)}
    (hprog : Updating r rowKey values seen (.call req cont)) (err : String)
    : Failing (s.resume w (.update table key values) seen' (cont (.error err))) := by
  have hdone : ∃ ctx, cont (.error err) = .done (.ret (.unit (.error err), ctx)) := by
    cases req with
    | get k => exact hprog.2.2 err
    | put k buf => exact hprog.2.2.2 err
    | compareAndSwap k previousValue buf => exact hprog.2.2.2.2 err
    | batchGet ks => exact hprog.elim
    | batchPut ks bufs => exact hprog.elim
    | delete k => exact hprog.elim
    | batchDelete ks => exact hprog.elim
  rcases hdone with ⟨ctx, hdone⟩
  refine ⟨(.update table key values, .unit (.error err)), Or.inr ⟨w, ?_⟩, rfl⟩
  rw [hdone]
  dsimp only [resume]
  rw [goto_thread, if_pos rfl]
  rfl

theorem Inv.ret (h : Inv r rowKey columns s) {w : W} {call : RawDB.Call} {res : RawDB.Result}
    {ctx : Option RawDBState} (hthread : s.thread w = .returning call res ctx)
    : Inv r rowKey columns ({ s with returned := s.returned ++ [(call, res)] }.goto w (.idle ctx)) where
  row := by
    rcases h.row with ⟨served, hrow, hserved⟩
    refine ⟨served, hrow, fun entry => ?_⟩
    rw [hserved, finished_ret hthread]
  threads := by
    have hctx : ThreadOk r rowKey (s.thread w) := h.threads w
    rw [hthread] at hctx
    exact h.threads_goto w hctx

theorem Inv.step (hr : db.r.Configured p) {t : RawThreads W} {label : Label W}
    (h : Inv db.r (getRowKey table key) columns s) (hrow : OnRow db.r table key label)
    (hfresh : s.PutsFresh label) (htakes : Takes db s label t)
    : Failing t ∨ Inv db.r (getRowKey table key) columns t := by
  cases htakes with
  | call w call orders ctx hthread =>
    right
    have hbefore : (s.thread w).result = none := by
      rw [hthread]
      rfl
    have hctx : ThreadOk db.r (getRowKey table key) (s.thread w) := h.threads w
    rw [hthread] at hctx
    cases call with
    | read table' key' fields =>
      rcases hrow with ⟨rfl, rfl⟩
      exact h.goto_call hbefore rfl (reading_serve hctx orders fields)
    | update table' key' values =>
      rcases hrow with ⟨rfl, rfl, hvalues⟩
      exact h.resume_updating hbefore hvalues (updating_serve hr hctx hvalues orders)
    | batchRead => exact hrow.elim
    | batchUpdate => exact hrow.elim
    | insert => exact hrow.elim
    | batchInsert => exact hrow.elim
    | delete => exact hrow.elim
    | batchDelete => exact hrow.elim
  | rpc w call seen req cont hthread =>
    right
    have hprog : ThreadOk db.r (getRowKey table key) (s.thread w) := h.threads w
    cases call with
    | read table' key' fields => exact h.rpc_read hthread
    | update table' key' values => exact h.rpc_update hthread hfresh
    | _ =>
      rw [hthread] at hprog
      exact hprog.elim
  | fail w err reached call seen req cont hthread =>
    have hprog : ThreadOk db.r (getRowKey table key) (s.thread w) := h.threads w
    cases call with
    | read table' key' fields =>
      right
      exact h.fail_read hthread err reached
    | update table' key' values =>
      left
      rw [hthread] at hprog
      exact failing_of_updating hprog.2 err
    | _ =>
      rw [hthread] at hprog
      exact hprog.elim
  | ret w call res ctx hthread =>
    right
    exact h.ret hthread

theorem merged_append (pre post : List (RawDB.Call × RawDB.Result))
    : merged r columns (pre ++ post) = merged r (merged r columns pre) post := by
  unfold merged
  rw [List.foldl_append]

theorem merged_single (hr : r.Configured p) {call : RawDB.Call} (hcall : call.Accepted r)
    (res : RawDB.Result) {field : Bytes} (hfield : field ∈ r.fields)
    : merged r columns [(call, res)] (r.fieldIndex field)
        =
      (written call field).or (columns (r.fieldIndex field)) := by
  cases call with
  | update table key values =>
    have hcolumns : r.columnsOf values (r.fieldIndex field) = values.lookup field :=
      RowCodec.lookup_rowOf hr hcall.names hfield
    unfold written
    dsimp only
    rw [← hcolumns]
    rfl
  | _ => rfl

theorem merged_agreed (hr : r.Configured p) {entries : List (RawDB.Call × RawDB.Result)}
    (haccepted : ∀ entry ∈ entries, entry.1.Accepted r) {field v : Bytes} (hfield : field ∈ r.fields)
    (hagreed : ∀ entry ∈ entries, ∀ w, written entry.1 field = some w → w = v)
    (hwritten : columns (r.fieldIndex field) = some v ∨ ∃ entry ∈ entries, written entry.1 field = some v)
    : merged r columns entries (r.fieldIndex field) = some v := by
  induction entries generalizing columns with
  | nil =>
    apply hwritten.resolve_right
    simp
  | cons entry entries ih =>
    rw [List.forall_mem_cons] at haccepted hagreed
    rw [← List.singleton_append, merged_append]
    apply ih haccepted.2 hagreed.2
    rw [merged_single hr haccepted.1 _ hfield]
    cases hentry : written entry.1 field with
    | some w =>
      rw [hagreed.1 w hentry]
      exact Or.inl rfl
    | none =>
      simpa [hentry] using hwritten

end

theorem update_survives {p : Properties} {db : RawDB} (hdb : createRawDB p = .ret db) {store : KV}
    {ctx : W → Option RawDBState} (hctx : ∀ w, CtxValid db.r (ctx w)) {table key row : Bytes}
    {columns : Columns} (hlookup : store.lookup (getRowKey table key) = some row)
    (hrow : db.r.Stores row columns) {labels : List (Label W)} {s : RawThreads W}
    (hrun : Run (step db) (fun s label => OnRow db.r table key label ∧ s.PutsFresh label)
      (init store ctx) labels s)
    (hidle : s.Quiescent) (hok : ¬ Failed s) {field v : Bytes} (hfield : field ∈ db.r.fields)
    (hwritten : s.returned.filterMap (fun entry => written entry.1 field) = [v])
    : fieldOf db.r s.store (getRowKey table key) field = some v := by
  have hr := configured_of_newRowCodec (RawDB.of_createRawDB hdb)
  have hinv : Failing s ∨ Inv db.r (getRowKey table key) columns s := by
    apply hrun.invariant
    . right
      refine ⟨⟨[], ⟨⟨row, hlookup, hrow⟩, by simp⟩, fun entry => ?_⟩, hctx⟩
      simp [Finished, init, RawThread.result]
    . intro s label t h hallowed htake
      cases h with
      | inl h =>
        left
        exact h.step (takes_of_step htake)
      | inr h => exact h.step hr hallowed.1 hallowed.2 (takes_of_step htake)
  have hnot : ¬ Failing s := by
    intro h
    rcases h with ⟨entry, hfinished, hfailed⟩
    exact hok ⟨entry, hidle.returned_of_finished hfinished, hfailed⟩
  rcases hinv.resolve_left hnot with ⟨⟨served, ⟨⟨row', hlookup', hrow'⟩, haccepted⟩, hserved⟩, _⟩
  have hv : ∀ w, w ∈ s.returned.filterMap (fun entry => written entry.1 field) ↔ w = v := by
    intro w
    rw [hwritten, List.mem_singleton]
  have hcolumn : merged db.r columns served (db.r.fieldIndex field) = some v := by
    apply merged_agreed hr haccepted hfield
    . intro entry hentry w hw
      apply (hv w).mp
      have hmem := hidle.returned_of_finished ((hserved entry).mp hentry)
      exact List.mem_filterMap.mpr ⟨entry, hmem, hw⟩
    . right
      rcases List.mem_filterMap.mp ((hv v).mpr rfl) with ⟨entry, hmem, hentry⟩
      exact ⟨entry, (hserved entry).mpr (Or.inl hmem), hentry⟩
  rcases hrow'.decode_nil db.r with ⟨data, hdecode, hdata⟩
  unfold fieldOf
  rw [hlookup', Option.bind_some, hdecode]
  dsimp only
  rw [hdata.lookup, if_pos hfield, hcolumn]

instance (r : RowCodec) (values : FieldMap) : Decidable (r.Accepts values) :=
  decidable_of_iff
    ((∀ key ∈ values.keys, key ∈ r.fields) ∧ ∀ entry ∈ values.entries, entry.2.length < 2 ^ 63)
    ⟨fun h => ⟨h.1, h.2⟩, fun h => ⟨h.names, h.length⟩⟩

instance (r : RowCodec) (table key : Bytes) (label : Label W) : Decidable (OnRow r table key label) :=
  match label with
  | .call _ (.read _ _ _) _ => inferInstanceAs (Decidable (_ ∧ _))
  | .call _ (.update _ _ _) _ => inferInstanceAs (Decidable (_ ∧ _ ∧ _))
  | .call _ (.batchRead _ _ _) _ | .call _ (.batchUpdate _ _ _) _ | .call _ (.insert _ _ _) _
  | .call _ (.batchInsert _ _ _) _ | .call _ (.delete _ _) _ | .call _ (.batchDelete _ _) _ =>
    .isFalse not_false
  | .rpc _ | .fail _ _ _ | .ret _ => .isTrue trivial

instance (s : RawThreads Bool) : Decidable s.Quiescent :=
  inferInstanceAs (Decidable (∀ _, _))

instance (s : RawThreads W) : Decidable (Failed s) :=
  inferInstanceAs (Decidable (∃ _ ∈ _, _))

instance (s : RawThreads W) (label : Label W) : Decidable (s.PutsFresh label) :=
  match label with
  | .rpc _ => inferInstanceAs (Decidable (_ = true))
  | .call _ _ _ | .fail _ _ _ | .ret _ => .isTrue trivial

def casFields : Properties := { twoFields with tikvUpdateMode := some "cas" }

def callRead (w : Bool) : Label Bool := .call w (.read [116] [107] []) (fun _ => .id)

def callUpdate (w : Bool) (i : Nat) (value : Bytes) : Label Bool :=
  .call w (.update [116] [107] (GoMap.insertAll ∅ [(fieldName i, value)])) (fun _ => .id)

def conflict : List (Label Bool) :=
  [callRead false, .rpc false, .ret false, callRead true, .rpc true, .ret true, callUpdate false 1 [120], .rpc false,
   .ret false, callUpdate true 1 [121], .rpc true]

-- Thread `true` falls back to `Get` and `Put` before thread `false` goes on, and returns after it.
theorem update_survives_conflict
    : ∃ db,
        createRawDB casFields = .ret db
          ∧
        ∃ s : RawThreads Bool,
          Run (step db) (fun s label => OnRow db.r [116] [107] label ∧ s.PutsFresh label)
            (init pairStore (fun _ => some RawDB.initThread))
            (conflict
              ++ [.rpc true, .rpc true, callUpdate false 0 [122], .rpc false, .rpc false, .ret false, .ret true])
            s
            ∧
          s.Quiescent
            ∧
          ¬ Failed s
            ∧
          fieldOf db.r s.store [116, 58, 107] (fieldName 0) = some [122] := by
  have hcreate : (createRawDB casFields).toOption.any (fun db =>
      (Run.exec (step db) (fun s label => OnRow db.r [116] [107] label ∧ s.PutsFresh label)
        (init pairStore (fun _ => some RawDB.initThread))
        (conflict ++
          [.rpc true, .rpc true, callUpdate false 0 [122], .rpc false, .rpc false, .ret false, .ret true])).any
        (fun s => decide (s.Quiescent
          ∧
        ¬ Failed s
          ∧
        fieldName 0 ∈ db.r.fields
          ∧
        s.returned.filterMap (fun entry => written entry.1 (fieldName 0)) = [[122]]))) := by
    decide +kernel
  rcases Outcome.exists_of_any _ hcreate with ⟨db, hdb, hexec⟩
  rcases Run.exists_of_exec _ hexec with ⟨s, hrun, hs⟩
  rw [decide_eq_true_eq] at hs
  rcases hs with ⟨hidle, hok, hfield, hwritten⟩
  have hlookup : (pairStore.lookup (getRowKey [116] [107])).isSome = true := by decide +kernel
  rcases Option.isSome_iff_exists.mp hlookup with ⟨row, hlookup⟩
  have hr : newRowCodec casFields = .ret db.r := RawDB.of_createRawDB hdb
  rcases pairStore_stores hr _ row hlookup with ⟨columns, hrow⟩
  refine ⟨db, hdb, s, hrun, hidle, hok, ?_⟩
  refine update_survives hdb ?_ hlookup hrow hrun hidle hok hfield hwritten
  intro w state row hstate hrow
  cases hstate
  contradiction

-- Thread `true` falls back to `Get` and `Put`, and thread `false` updates `field0` in between.
theorem fallback_reverts_update
    : ∃ db,
        createRawDB casFields = .ret db
          ∧
        ∃ s : RawThreads Bool,
          Run (step db) (fun _ label => OnRow db.r [116] [107] label)
            (init pairStore (fun _ => some RawDB.initThread))
            (conflict
              ++ [.rpc true, callUpdate false 0 [122], .rpc false, .rpc false, .ret false, .rpc true, .ret true])
            s
            ∧
          s.Quiescent
            ∧
          ¬ Failed s
            ∧
          s.returned.filterMap (fun entry => written entry.1 (fieldName 0)) = [[122]]
            ∧
          fieldOf db.r s.store [116, 58, 107] (fieldName 0) = some [97] := by
  have hcreate : (createRawDB casFields).toOption.any (fun db =>
      (Run.exec (step db) (fun _ label => OnRow db.r [116] [107] label)
        (init pairStore (fun _ => some RawDB.initThread))
        (conflict ++
          [.rpc true, callUpdate false 0 [122], .rpc false, .rpc false, .ret false, .rpc true, .ret true])).any
        (fun s => decide (s.Quiescent
          ∧
        ¬ Failed s
          ∧
        s.returned.filterMap (fun entry => written entry.1 (fieldName 0)) = [[122]]
          ∧
        fieldOf db.r s.store [116, 58, 107] (fieldName 0) = some [97]))) := by
    decide +kernel
  rcases Outcome.exists_of_any _ hcreate with ⟨db, hdb, hexec⟩
  rcases Run.exists_of_exec _ hexec with ⟨s, hrun, hs⟩
  rw [decide_eq_true_eq] at hs
  exact ⟨db, hdb, s, hrun, hs⟩

end RawThreads

end Tikv
