import GoYcsb.Db.Aerospike.Impl.Update

/-!
This module contains when the clients from `GoYcsb.Db.Aerospike.Impl.Update` lose no update of a record.
-/

namespace Aerospike

def afterGet (order : GoMap.Order Bytes Bytes) (key : Key) (values : BinMap) (record : Record)
    : Prog (Option String) :=
  put none key (record.bins.merge (order.visit values))

namespace Clients

variable {W : Type} [DecidableEq W] {key : Key} {s t : Clients W}

def Fresh (key : Key) (s : Clients W) (label : Label W) : Prop :=
  match label with
  | .update _ _ _ => True
  | .fail _ _ => True
  | .rpc w =>
    ∀ values seen req cont, s.client w = .busy values seen (.call req cont) → isStale key seen req s.store = false

def StaleFails (s : Clients W) : Prop := ∀ r ∈ s.returned, r.changed = true → r.err ≠ none

def writes (bin : Bytes) (r : Returned) : Bool := r.err = none ∧ bin ∈ r.values

-- The bins that exactly one successful update has written have the value of this update.
def SoleWriterWins (key : Key) (s : Clients W) : Prop :=
  ∀ bin r, s.returned.filter (writes bin) = [r] →
    ∃ record, s.store.lookup key = some record ∧ record.bins.lookup bin = r.values.lookup bin

def written (bin : Bytes) (initial : Option Bytes) (returned : List Returned) : Option Bytes :=
  returned.foldl (fun value r => if r.err = none then (r.values.lookup bin).or value else value) initial

theorem written_append (bin : Bytes) (initial : Option Bytes) (xs ys : List Returned)
    : written bin initial (xs ++ ys) = written bin (written bin initial xs) ys := by
  unfold written
  rw [List.foldl_append]

theorem written_cons (bin : Bytes) (initial : Option Bytes) (r : Returned) (returned : List Returned)
    : written bin initial (r :: returned)
        =
      written bin (if r.err = none then (r.values.lookup bin).or initial else initial) returned := rfl

theorem written_concat (bin : Bytes) (initial : Option Bytes) (returned : List Returned) (r : Returned)
    : written bin initial (returned ++ [r])
        =
      if r.err = none then
        (r.values.lookup bin).or (written bin initial returned)
      else
        written bin initial returned :=
  written_append bin initial returned [r]

theorem written_of_filter_eq_nil {bin : Bytes} {initial : Option Bytes} {returned : List Returned}
    (h : returned.filter (writes bin) = [])
    : written bin initial returned = initial := by
  induction returned generalizing initial with
  | nil => rfl
  | cons r returned ih =>
    rw [List.filter_eq_nil_iff, List.forall_mem_cons, ← List.filter_eq_nil_iff] at h
    rw [written_cons, ih h.2]
    split
    . next herr =>
      have hmem : bin ∉ r.values := by
        intro hmem
        exact h.1 (by simp [writes, herr, hmem])
      rw [AList.lookup_eq_none.mpr hmem, Option.none_or]
    . rfl

theorem written_of_filter_eq_singleton {bin : Bytes} {initial : Option Bytes} {returned : List Returned} {r : Returned}
    (h : returned.filter (writes bin) = [r])
    : written bin initial returned = r.values.lookup bin := by
  rcases List.filter_eq_cons_iff.mp h with ⟨xs, ys, rfl, hxs, hr, hys⟩
  have hpre : xs.filter (writes bin) = [] := by
    rw [List.filter_eq_nil_iff]
    exact hxs
  simp only [writes, decide_eq_true_eq] at hr
  rw [written_append, written_of_filter_eq_nil hpre, written_cons, if_pos hr.1, written_of_filter_eq_nil hys]
  have hsome : (r.values.lookup bin).isSome := AList.lookup_isSome.mpr hr.2
  rw [Option.or_of_isSome hsome]

-- Where a call of `Update` can be while the server has `record`.
inductive InCall (key : Key) (record : Record) (values : BinMap) : Option Record → Prog (Option String) → Prop where
  | start (order : GoMap.Order Bytes Bytes) (seen : Option Record)
    : InCall key record values seen (update order key values)
  | got (order : GoMap.Order Bytes Bytes) {seen : Record} (hle : seen.generation ≤ record.generation)
      (heq : seen.generation = record.generation → seen = record)
      : InCall key record values (some seen) (afterGet order key values seen)

structure Inv (key : Key) (s : Clients W) (record : Record) : Prop where
  store : s.store.lookup key = some record
  client : ∀ w values seen prog, s.client w = .busy values seen prog → InCall key record values seen prog

theorem client_goto_self (s : Clients W) (w : W) (client : Client) : (s.goto w client).client w = client := by
  simp [goto]

theorem client_goto_of_ne (s : Clients W) (client : Client) {w w' : W} (h : w' ≠ w)
    : (s.goto w client).client w' = s.client w' := by
  simp [goto, h]

theorem Inv.goto {record : Record} (h : Inv key s record) (w : W) {client : Client}
    (hclient : ∀ values seen prog, client = .busy values seen prog → InCall key record values seen prog)
    : Inv key (s.goto w client) record where
  store := h.store
  client := by
    intro w' values seen prog hbusy
    by_cases heq : w' = w
    . subst heq
      rw [client_goto_self] at hbusy
      exact hclient values seen prog hbusy
    . rw [client_goto_of_ne s client heq] at hbusy
      exact h.client w' values seen prog hbusy

theorem InCall.later {record record' : Record} {values : BinMap} {seen : Option Record} {prog : Prog (Option String)}
    (h : InCall key record values seen prog) (hlt : record.generation < record'.generation)
    : InCall key record' values seen prog := by
  cases h with
  | start order => exact .start order seen
  | got order hle _ =>
    refine .got order (by omega) ?_
    intro heq
    omega

/--
A step leaves the record and the returned calls alone, or a call returns an error, or it is a write.
-/
inductive Moved (key : Key) (s : Clients W) (record : Record) (label : Label W) : Clients W → Prop where
  | silent (w : W) (client : Client)
      (hclient : ∀ values seen prog, client = .busy values seen prog → InCall key record values seen prog)
      (hfresh : Fresh key s label)
      : Moved key s record label (s.goto w client)
  | failed (w : W) (values : BinMap) (err : String) (changed : Bool) (hfresh : Fresh key s label)
      : Moved key s record label (goto ⟨s.store, s.client, s.returned ++ [⟨values, some err, changed⟩]⟩ w .idle)
  | wrote (w : W) (values : BinMap) (order : GoMap.Order Bytes Bytes) (seen : Record)
      (heq : seen.generation = record.generation → seen = record)
      (hfresh : Fresh key s label ↔ seen.generation = record.generation)
      : Moved key s record label
          (goto ⟨s.store.insert key ⟨record.bins.merge (seen.bins.merge (order.visit values)), record.generation + 1⟩,
            s.client, s.returned ++ [⟨values, none, decide (seen.generation ≠ record.generation)⟩]⟩ w .idle)

section

variable {w : W} {values : BinMap} {seen : Option Record} {req : Request}
  {cont : req.Answer → Prog (Option String)}

theorem step_rpc (hbusy : s.client w = .busy values seen (.call req cont))
    : step key s (.rpc w)
        =
      some ({ s with store := (req.handle s.store).2 }.resume w values (req.seen s.store seen)
        (isStale key seen req s.store) (cont (req.handle s.store).1)) := by
  rw [step, hbusy]

theorem step_fail (hbusy : s.client w = .busy values seen (.call req cont)) (err : String)
    : step key s (.fail w err)
        =
      some (s.resume w values seen (isStale key seen req s.store) (cont (req.failed err))) := by
  rw [step, hbusy]

omit [DecidableEq W] in
theorem fresh_rpc_iff (hbusy : s.client w = .busy values seen (.call req cont))
    : Fresh key s (.rpc w) ↔ isStale key seen req s.store = false := by
  constructor
  . intro h
    exact h values seen req cont hbusy
  . intro h values' seen' req' cont' hbusy'
    rw [hbusy] at hbusy'
    cases hbusy'
    exact h

end

theorem Inv.moved_rpc {record : Record} (h : Inv key s record) {w : W} (htake : step key s (.rpc w) = some t)
    : Moved key s record (.rpc w) t := by
  cases hclient : s.client w with
  | idle => simp [step, hclient] at htake
  | stopped => simp [step, hclient] at htake
  | busy values seen prog =>
    cases h.client w values seen prog hclient with
    | start order =>
      have hstep : step key s (.rpc w)
          = some (s.goto w (.busy values (some record) (afterGet order key values record))) := by
        rw [step_rpc hclient]
        simp only [Request.handle, Request.seen, h.store]
        rfl
      rw [hstep] at htake
      cases htake
      refine .silent w _ ?_ ((fresh_rpc_iff hclient).mpr rfl)
      intro values' seen' prog' hbusy
      cases hbusy
      exact .got order (Nat.le_refl _) (fun _ => rfl)
    | @got order seen hle heq =>
      have hstale (bins : BinMap) : isStale key (some seen) (.put none key bins) s.store
          = decide (seen.generation ≠ record.generation) := by
        simp [isStale, Request.generation, h.store]
      rw [step_rpc hclient] at htake
      simp only [Request.handle, Request.write, h.store, hstale] at htake
      cases htake
      refine .wrote w values order seen heq ?_
      rw [fresh_rpc_iff hclient, hstale]
      simp

theorem Inv.moved_fail {record : Record} (h : Inv key s record) {w : W} {err : String}
    (htake : step key s (.fail w err) = some t)
    : Moved key s record (.fail w err) t := by
  cases hclient : s.client w with
  | idle => simp [step, hclient] at htake
  | stopped => simp [step, hclient] at htake
  | busy values seen prog =>
    cases h.client w values seen prog hclient with
    | start order =>
      rw [step_fail hclient] at htake
      cases htake
      exact .failed w values err _ trivial
    | got order hle heq =>
      rw [step_fail hclient] at htake
      cases htake
      exact .failed w values err _ trivial

theorem Inv.moved {record : Record} (h : Inv key s record) {label : Label W} (htake : step key s label = some t)
    : Moved key s record label t := by
  cases label with
  | update w values order =>
    rw [step] at htake
    split at htake
    . cases htake
      refine .silent w _ ?_ trivial
      intro values' seen prog hbusy
      cases hbusy
      exact .start order none
    . cases htake
    . cases htake
  | rpc w => exact h.moved_rpc htake
  | fail w err => exact h.moved_fail htake

theorem lookup_write (record : Record) (order : GoMap.Order Bytes Bytes) (values : BinMap) (bin : Bytes)
    : (record.bins.merge (record.bins.merge (order.visit values))).lookup bin
        =
      (values.lookup bin).or (record.bins.lookup bin) := by
  rw [GoMap.lookup_merge, GoMap.lookup_merge, GoMap.Order.lookup_visit]
  cases values.lookup bin with
  | some value => rfl
  | none => simp

omit [DecidableEq W] in
theorem Inv.withReturned {record : Record} (h : Inv key s record) (returned : List Returned)
    : Inv key { s with returned } record := ⟨h.store, h.client⟩

omit [DecidableEq W] in
theorem Inv.write {record : Record} (h : Inv key s record) (bins : BinMap) (returned : List Returned)
    : Inv key ⟨s.store.insert key ⟨bins, record.generation + 1⟩, s.client, returned⟩ ⟨bins, record.generation + 1⟩ where
  store := AList.lookup_insert _
  client := by
    intro w values seen prog hbusy
    exact (h.client w values seen prog hbusy).later (Nat.lt_succ_self _)

theorem staleFails_append {w : W} {store : Store} {client : W → Client} {r : Returned}
    : (goto ⟨store, client, s.returned ++ [r]⟩ w .idle).StaleFails
        ↔
      s.StaleFails ∧ (r.changed = true → r.err ≠ none) := by
  unfold StaleFails goto
  rw [List.forall_mem_append, List.forall_mem_singleton]

theorem exists_inv {store : Store} {initial : Record} (hinit : store.lookup key = some initial)
    {labels : List (Label W)} (hrun : Run (step key) (fun _ _ => True) (init store) labels s)
    : ∃ record,
        Inv key s record
          ∧
        (s.StaleFails ↔ Run (step key) (Fresh key) (init store) labels s)
          ∧
        (Run (step key) (Fresh key) (init store) labels s
          → ∀ bin, record.bins.lookup bin = written bin (initial.bins.lookup bin) s.returned) := by
  induction hrun with
  | nil =>
    refine ⟨initial, ⟨hinit, nofun⟩, iff_of_true nofun .nil, ?_⟩
    intro _ bin
    rfl
  | @snoc labels s t label hrun _ htake ih =>
    rcases ih with ⟨record, hinv, hstale, hbins⟩
    rw [hrun.snoc_iff htake]
    cases hinv.moved htake with
    | silent w client hclient hfresh =>
      refine ⟨record, hinv.goto w hclient, ?_, ?_⟩
      . rw [← hstale, and_iff_left hfresh]
        rfl
      . intro hrun'
        exact hbins hrun'.1
    | failed w values err changed hfresh =>
      refine ⟨record, (hinv.withReturned _).goto w nofun, ?_, ?_⟩
      . rw [staleFails_append, and_iff_left (fun _ => nofun), hstale, and_iff_left hfresh]
      . intro hrun' bin
        show _ = written bin _ (s.returned ++ [⟨values, some err, changed⟩])
        rw [written_concat, if_neg (by simp), hbins hrun'.1]
    | wrote w values order seen heq hfresh =>
      refine ⟨_, (hinv.write _ _).goto w nofun, ?_, ?_⟩
      . rw [staleFails_append, hstale, hfresh]
        simp
      . rintro ⟨hrun', hcurrent⟩ bin
        have hseen := heq (hfresh.mp hcurrent)
        subst hseen
        show _ = written bin _ (s.returned ++ [⟨values, none, _⟩])
        rw [written_concat, if_pos rfl, lookup_write, hbins hrun']

theorem no_lost_update_iff {store : Store} {initial : Record} (hinit : store.lookup key = some initial)
    {labels : List (Label W)} {s : Clients W} (hrun : Run (step key) (fun _ _ => True) (init store) labels s)
    : s.StaleFails ∧ s.SoleWriterWins key ↔ Run (step key) (Fresh key) (init store) labels s := by
  rcases exists_inv hinit hrun with ⟨record, hinv, hstale, hbins⟩
  rw [hstale]
  constructor
  . rintro ⟨hfresh, _⟩
    exact hfresh
  . intro hfresh
    refine ⟨hfresh, ?_⟩
    intro bin r hsole
    refine ⟨record, hinv.store, ?_⟩
    rw [hbins hfresh]
    exact written_of_filter_eq_singleton hsole

instance (key : Key) (s : Clients W) (label : Label W) : Decidable (Fresh key s label) :=
  match label with
  | .update _ _ _ => isTrue trivial
  | .fail _ _ => isTrue trivial
  | .rpc w =>
    match hclient : s.client w with
    | .busy _ seen (.call req _) => decidable_of_iff (isStale key seen req s.store = false) (fresh_rpc_iff hclient).symm
    | .busy _ _ (.done _) => isTrue (fun _ _ _ _ hbusy => nomatch hclient.symm.trans hbusy)
    | .idle => isTrue (fun _ _ _ _ hbusy => nomatch hclient.symm.trans hbusy)
    | .stopped => isTrue (fun _ _ _ _ hbusy => nomatch hclient.symm.trans hbusy)

def userKey : Key := ⟨Bytes.ofAscii "test", Bytes.ofAscii "usertable", Bytes.ofAscii "user0"⟩

def userRecord : Record := ⟨GoMap.insertAll ∅ [(Bytes.ofAscii "a", [0]), (Bytes.ofAscii "b", [0])], 1⟩

def userStore : Store := AList.singleton userKey userRecord

theorem no_lost_update_one_after_the_other
    : ∃ s : Clients Bool,
        Run (step userKey) (fun _ _ => True) (init userStore)
          [.update true (AList.singleton (Bytes.ofAscii "a") [1]) .id, .rpc true, .rpc true,
            .update false (AList.singleton (Bytes.ofAscii "b") [2]) .id, .rpc false, .rpc false] s
          ∧
        s.returned.length = 2
          ∧
        s.StaleFails
          ∧
        s.SoleWriterWins userKey := by
  have hexec : (Run.exec (step userKey) (Fresh userKey) (init userStore)
      [Label.update true (AList.singleton (Bytes.ofAscii "a") [1]) .id, .rpc true, .rpc true,
        .update false (AList.singleton (Bytes.ofAscii "b") [2]) .id, .rpc false, .rpc false]).any
      (fun s => s.returned.length = 2) := by
    decide +kernel
  rcases Run.exists_of_exec _ hexec with ⟨s, hfresh, hs⟩
  simp only [decide_eq_true_eq] at hs
  have hrun : Run (step userKey) (fun _ _ => True) (init userStore) _ s := hfresh.mono (fun _ _ _ => trivial)
  have hstore : userStore.lookup userKey = some userRecord := AList.lookup_insert ∅
  exact ⟨s, hrun, hs, (no_lost_update_iff hstore hrun).mpr hfresh⟩

-- The second `Put` writes the old value of `a` back, and both updates report success.
theorem stale_put_loses_update
    : ∃ s : Clients Bool,
        Run (step userKey) (fun _ _ => True) (init userStore)
          [.update true (AList.singleton (Bytes.ofAscii "a") [1]) .id,
            .update false (AList.singleton (Bytes.ofAscii "b") [2]) .id, .rpc true, .rpc false, .rpc true, .rpc false] s
          ∧
        s.returned.map Returned.err = [none, none]
          ∧
        (s.store.lookup userKey).map (fun record => record.bins.lookup (Bytes.ofAscii "a")) = some (some [0])
          ∧
        ¬s.StaleFails
          ∧
        ¬s.SoleWriterWins userKey := by
  have hexec : (Run.exec (step userKey) (fun _ _ => True) (init userStore)
      [Label.update true (AList.singleton (Bytes.ofAscii "a") [1]) .id,
        .update false (AList.singleton (Bytes.ofAscii "b") [2]) .id, .rpc true, .rpc false, .rpc true, .rpc false]).any
      (fun s => s.returned.map Returned.err = [none, none]
        ∧ (s.store.lookup userKey).map (fun record => record.bins.lookup (Bytes.ofAscii "a")) = some (some [0])
        ∧ s.returned.map (fun r => (r.err, r.changed)) = [(none, false), (none, true)]
        ∧ (s.returned.filter (writes (Bytes.ofAscii "a"))).map (fun r => r.values.lookup (Bytes.ofAscii "a"))
          = [some [1]]) := by
    decide +kernel
  rcases Run.exists_of_exec _ hexec with ⟨s, hrun, hs⟩
  simp only [decide_eq_true_eq] at hs
  rcases hs with ⟨herrs, ha, hchanged, hwriter⟩
  refine ⟨s, hrun, herrs, ha, ?_, ?_⟩
  . intro hstale
    have hmem : (none, true) ∈ s.returned.map (fun r => (r.err, r.changed)) := by
      rw [hchanged]
      decide
    rcases List.mem_map.mp hmem with ⟨r, hr, heq⟩
    rw [Prod.mk.injEq] at heq
    exact hstale r hr heq.2 heq.1
  . intro hsole
    rcases List.map_eq_singleton_iff.mp hwriter with ⟨r, hr, hvalue⟩
    rcases hsole (Bytes.ofAscii "a") r hr with ⟨record, hrecord, hbin⟩
    rw [hrecord, Option.map_some, hbin, hvalue] at ha
    revert ha
    decide

end Clients

end Aerospike
