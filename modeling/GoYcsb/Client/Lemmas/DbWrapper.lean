import GoYcsb.Client.Impl.DbWrapper

/-!
This module contains when the batch operations from `GoYcsb.Client.Impl.DbWrapper` do the same as calls of the single
operations, for databases that are no `BatchDB`.
-/

namespace DbWrapper

open Measurement

variable {σ : Type}

def errOf (req : Request) (answer : Answer req) : Option String :=
  match req, answer with
  | .read _ _ _, answer => answer.2
  | .batchRead _ _ _, answer => answer.2
  | .update _ _ _, answer => answer
  | .insert _ _ _, answer => answer
  | .delete _ _, answer => answer
  | .batchUpdate _ _ _, answer => answer
  | .batchInsert _ _ _, answer => answer
  | .batchDelete _ _, answer => answer

-- The warm-up is not finished after any of the calls, which are made up to the first error.
def Silent (env : Env σ) (reqs : List Request) (db : σ) : Prop :=
  match reqs with
  | [] => True
  | req :: reqs =>
    env.isWarmUpFinished (env.handle req db).2 = false
      ∧
    (errOf req (env.handle req db).1 = none → Silent env reqs (env.handle req db).2)

def Fails (env : Env σ) (reqs : List Request) (db : σ) : Prop :=
  match reqs with
  | [] => False
  | req :: reqs => errOf req (env.handle req db).1 = none → Fails env reqs (env.handle req db).2

def readEach (env : Env σ) (table : Bytes) (fields keys : List Bytes) (s : State σ)
    : (List (Option FieldMap) × Option String) × State σ :=
  match keys with
  | [] => (([], none), s)
  | key :: keys =>
    let r := read env table key fields s
    match r.1.2 with
    | some err => (([], some err), r.2)
    | none =>
      let rest := readEach env table fields keys r.2
      match rest.1.2 with
      | some err => (([], some err), rest.2)
      | none => ((r.1.1 :: rest.1.1, none), rest.2)

namespace State

def withRecorded (s : State σ) (recorded : List Operation) : State σ := { s with recorded }

theorem eq_withRecorded_iff {s : State σ} {added : List Operation}
    : s = s.withRecorded (s.recorded ++ added) ↔ added = [] := by
  constructor
  . intro h
    have hrecorded : s.recorded = s.recorded ++ added := congrArg State.recorded h
    exact List.self_eq_append_right.mp hrecorded
  . rintro rfl
    rw [List.append_nil]
    rfl

end State

def marks (env : Env σ) (op : Call) (err : Option String) (db : σ) : List Operation :=
  if env.isWarmUpFinished db then
    match err with
    | some _ => [.error op]
    | none => [.done op, .total]
  else
    []

theorem measure_eq (env : Env σ) (op : Call) (err : Option String) (s : State σ)
    : measure env op err s = s.withRecorded (s.recorded ++ marks env op err s.db) := by
  cases err with
  | some err =>
    simp only [measure, record, marks]
    split
    . rfl
    . rw [List.append_nil]
      rfl
  | none =>
    simp only [measure, record, marks]
    split
    . simp [State.withRecorded]
    . simp [State.withRecorded]

def raw (env : Env σ) (req : Request) (s : State σ) : Option String × State σ :=
  let r := call env req s
  (errOf req r.1, r.2)

def measured (env : Env σ) (op : Call) (req : Request) (s : State σ) : Option String × State σ :=
  let r := raw env req s
  (r.1, measure env op r.1 r.2)

def each (one : Request → State σ → Option String × State σ) (reqs : List Request) (s : State σ)
    : Option String × State σ :=
  match reqs with
  | [] => (none, s)
  | req :: reqs =>
    let r := one req s
    match r.1 with
    | some err => (some err, r.2)
    | none => each one reqs r.2

def measurements (env : Env σ) (op : Call) (reqs : List Request) (db : σ) : List Operation :=
  match reqs with
  | [] => []
  | req :: reqs =>
    let r := env.handle req db
    marks env op (errOf req r.1) r.2
      ++ match errOf req r.1 with
        | some _ => []
        | none => measurements env op reqs r.2

section

variable {env : Env σ}

theorem marks_eq_nil_iff {op : Call} {err : Option String} {db : σ}
    : marks env op err db = [] ↔ env.isWarmUpFinished db = false := by
  unfold marks
  split
  . next h =>
    cases err with
    | some err => simp [h]
    | none => simp [h]
  . next h => simpa using h

theorem measurements_eq_nil_iff {op : Call} {reqs : List Request} {db : σ}
    : measurements env op reqs db = [] ↔ Silent env reqs db := by
  induction reqs generalizing db with
  | nil => exact iff_of_true rfl trivial
  | cons req reqs ih =>
    unfold measurements Silent
    dsimp only
    rw [List.append_eq_nil_iff, marks_eq_nil_iff]
    cases herr : errOf req (env.handle req db).1 with
    | some err => simp
    | none => simp [ih]

theorem raw_withRecorded (req : Request) (s : State σ) (recorded : List Operation)
    : raw env req (s.withRecorded recorded) = ((raw env req s).1, (raw env req s).2.withRecorded recorded) := rfl

theorem measured_eq (op : Call) (req : Request) (s : State σ)
    : measured env op req s
        =
      ((raw env req s).1,
        (raw env req s).2.withRecorded (s.recorded ++ marks env op (raw env req s).1 (raw env req s).2.db)) := by
  exact congrArg (Prod.mk (raw env req s).1) (measure_eq env op (raw env req s).1 (raw env req s).2)

theorem each_withRecorded (reqs : List Request) (s : State σ) (recorded : List Operation)
    : each (raw env) reqs (s.withRecorded recorded)
        =
      ((each (raw env) reqs s).1, (each (raw env) reqs s).2.withRecorded recorded) := by
  induction reqs generalizing s with
  | nil => rfl
  | cons req reqs ih =>
    rw [each, each, raw_withRecorded]
    dsimp only
    cases (raw env req s).1 with
    | some err => rfl
    | none => exact ih (raw env req s).2

theorem each_measured (op : Call) (reqs : List Request) (s : State σ)
    : each (measured env op) reqs s
        =
      ((each (raw env) reqs s).1,
        (each (raw env) reqs s).2.withRecorded (s.recorded ++ measurements env op reqs s.db)) := by
  induction reqs generalizing s with
  | nil =>
    rw [measurements, List.append_nil]
    rfl
  | cons req reqs ih =>
    rw [each, each, measured_eq, measurements]
    dsimp only
    have hdb : (raw env req s).2.db = (env.handle req s.db).2 := rfl
    have herr : (raw env req s).1 = errOf req (env.handle req s.db).1 := rfl
    rw [← hdb, ← herr]
    cases (raw env req s).1 with
    | some err => rw [List.append_nil]
    | none =>
      dsimp only
      rw [ih, each_withRecorded, ← List.append_assoc]
      rfl

theorem recorded_each (reqs : List Request) (s : State σ) : (each (raw env) reqs s).2.recorded = s.recorded := by
  induction reqs generalizing s with
  | nil => rfl
  | cons req reqs ih =>
    rw [each]
    cases (raw env req s).1 with
    | some err => rfl
    | none => exact ih (raw env req s).2

theorem each_eq_iff (op : Call) (reqs : List Request) (s : State σ)
    : (each (raw env) reqs s).2 = (each (measured env op) reqs s).2 ↔ Silent env reqs s.db := by
  rw [each_measured, ← recorded_each reqs s, State.eq_withRecorded_iff, measurements_eq_nil_iff]

theorem each_ne_none_iff (reqs : List Request) (s : State σ)
    : (each (raw env) reqs s).1 ≠ none ↔ Fails env reqs s.db := by
  induction reqs generalizing s with
  | nil => simp [each, Fails]
  | cons req reqs ih =>
    rw [each, Fails]
    have herr : (raw env req s).1 = errOf req (env.handle req s.db).1 := rfl
    rw [← herr]
    cases (raw env req s).1 with
    | some err => simp
    | none =>
      rw [eq_self, true_imp_iff]
      exact ih (raw env req s).2

end

section

variable {one : Request → State σ → Option String × State σ}

theorem eachKey_eq_each (mk : Bytes → Request) (keys : List Bytes) (s : State σ)
    : eachKey (fun key => one (mk key)) keys s = each one (keys.map mk) s := by
  induction keys generalizing s with
  | nil => rfl
  | cons key keys ih =>
    rw [eachKey, List.map_cons, each]
    cases (one (mk key) s).1 with
    | some err => rfl
    | none => exact ih (one (mk key) s).2

def ended (i : Nat) (keys : List Bytes) (values : List FieldMap) (err : Option String) : Outcome (Option String) :=
  match err with
  | some err => .ret (some err)
  | none =>
    if keys.length ≤ values.length then
      .ret none
    else
      .panic s!"runtime error: index out of range [{i + values.length}] with length {i + values.length}"

theorem ended_cons (i : Nat) (key : Bytes) (keys : List Bytes) (value : FieldMap) (values : List FieldMap)
    (err : Option String)
    : ended i (key :: keys) (value :: values) err = ended (i + 1) keys values err := by
  have hlen : i + (values.length + 1) = i + 1 + values.length := by omega
  simp only [ended, List.length_cons, Nat.add_le_add_iff_right, hlen]

theorem eachValue_eq_each (mk : Bytes → FieldMap → Request) (i : Nat) (keys : List Bytes) (values : List FieldMap)
    (s : State σ)
    : eachValue (fun key value => one (mk key value)) i keys values s
        =
      (ended i keys values (each one (List.zipWith mk keys values) s).1,
        (each one (List.zipWith mk keys values) s).2) := by
  induction keys generalizing i values s with
  | nil => simp [eachValue, each, ended]
  | cons key keys ih =>
    cases values with
    | nil => simp [eachValue, each, ended]
    | cons value values =>
      rw [eachValue, List.zipWith_cons_cons, each]
      cases (one (mk key value) s).1 with
      | some err => rfl
      | none =>
        dsimp only
        rw [ih, ended_cons]

end

section

variable {env : Env σ}

theorem eachKey_eq_iff (op : Call) (mk : Bytes → Request) (keys : List Bytes) (s : State σ)
    : eachKey (fun key => raw env (mk key)) keys s = eachKey (fun key => measured env op (mk key)) keys s
        ↔
      Silent env (keys.map mk) s.db := by
  rw [eachKey_eq_each, eachKey_eq_each, ← each_eq_iff op, Prod.ext_iff, each_measured, eq_self, true_and]

theorem eachValue_eq_iff (op : Call) (mk : Bytes → FieldMap → Request) (keys : List Bytes) (values : List FieldMap)
    (s : State σ)
    : eachValue (fun key value => raw env (mk key value)) 0 keys values s
        =
      eachValue (fun key value => measured env op (mk key value)) 0 keys values s
        ↔
      Silent env (List.zipWith mk keys values) s.db := by
  rw [eachValue_eq_each, eachValue_eq_each, ← each_eq_iff op, Prod.ext_iff, each_measured, eq_self, true_and]

theorem readEach_eq (table : Bytes) (fields keys : List Bytes) (s : State σ)
    : ∃ rows,
        readEach env table fields keys s
          =
        ((rows, (each (measured env .read) (keys.map (fun key => .read table key fields)) s).1),
          (each (measured env .read) (keys.map (fun key => .read table key fields)) s).2)
          ∧
        (rows = []
          ↔
        keys = [] ∨ (each (measured env .read) (keys.map (fun key => .read table key fields)) s).1 ≠ none) := by
  induction keys generalizing s with
  | nil => exact ⟨[], rfl, by simp⟩
  | cons key keys ih =>
    rw [readEach, List.map_cons, each]
    have herr : (read env table key fields s).1.2 = (measured env .read (.read table key fields) s).1 := rfl
    have hstate : (read env table key fields s).2 = (measured env .read (.read table key fields) s).2 := rfl
    rw [herr, hstate]
    cases (measured env .read (.read table key fields) s).1 with
    | some err => exact ⟨[], rfl, by simp⟩
    | none =>
      rcases ih (measured env .read (.read table key fields) s).2 with ⟨rows, heq, hrows⟩
      dsimp only
      rw [heq]
      cases (each (measured env .read) (keys.map (fun key => .read table key fields))
        (measured env .read (.read table key fields) s).2).1 with
      | some err => exact ⟨[], rfl, by simp⟩
      | none => exact ⟨_ :: rows, rfl, by simp⟩

theorem batchRead_eq_iff (h : env.isBatchDB = false) (table : Bytes) (keys fields : List Bytes) (s : State σ)
    : batchRead env table keys fields s = readEach env table fields keys s
        ↔
      keys = []
        ∨
      (Silent env (keys.map (fun key => .read table key fields)) s.db
        ∧ Fails env (keys.map (fun key => .read table key fields)) s.db) := by
  have hbatch : batchRead env table keys fields s
      = (([], (each (raw env) (keys.map (fun key => .read table key fields)) s).1),
          (each (raw env) (keys.map (fun key => .read table key fields)) s).2) := by
    rw [← eachKey_eq_each (fun key => .read table key fields)]
    simp only [batchRead, h]
    rfl
  rcases readEach_eq table fields keys s with ⟨rows, heq, hrows⟩
  rw [hbatch, heq, Prod.ext_iff, Prod.ext_iff, each_eq_iff, eq_comm, hrows, each_measured]
  dsimp only
  rw [each_ne_none_iff, eq_self, and_true]
  constructor
  . rintro ⟨hnil | hfails, hsilent⟩
    . exact .inl hnil
    . exact .inr ⟨hsilent, hfails⟩
  . rintro (rfl | ⟨hsilent, hfails⟩)
    . exact ⟨.inl rfl, trivial⟩
    . exact ⟨.inr hfails, hsilent⟩

end

theorem batch_eq_singles_iff (env : Env σ) (h : env.isBatchDB = false) (s : State σ) (table : Bytes)
    (keys fields : List Bytes) (values : List FieldMap)
    : (batchRead env table keys fields s = readEach env table fields keys s
        ↔
      keys = []
        ∨
      (Silent env (keys.map (fun key => .read table key fields)) s.db
        ∧ Fails env (keys.map (fun key => .read table key fields)) s.db))
        ∧
      (batchInsert env table keys values s = eachValue (insert env table) 0 keys values s
        ↔
      Silent env (List.zipWith (.insert table) keys values) s.db)
        ∧
      (batchUpdate env table keys values s = eachValue (update env table) 0 keys values s
        ↔
      Silent env (List.zipWith (.update table) keys values) s.db)
        ∧
      (batchDelete env table keys s = eachKey (delete env table) keys s
        ↔
      Silent env (keys.map (.delete table)) s.db) := by
  refine ⟨batchRead_eq_iff h table keys fields s, ?_, ?_, ?_⟩
  . simp only [batchInsert, h]
    exact eachValue_eq_iff .insert (.insert table) keys values s
  . simp only [batchUpdate, h]
    exact eachValue_eq_iff .update (.update table) keys values s
  . simp only [batchDelete, h]
    exact eachKey_eq_iff .delete (.delete table) keys s

def calm (finished : Bool) : Env Unit where
  handle req db :=
    match req with
    | .read _ _ _ => ((some ∅, none), db)
    | .batchRead _ _ _ => (([], none), db)
    | .update _ _ _ | .insert _ _ _ | .delete _ _ | .batchUpdate _ _ _ | .batchInsert _ _ _ | .batchDelete _ _ =>
      (none, db)
  isBatchDB := false
  isWarmUpFinished _ := finished

theorem batchDelete_eq_singles_in_warm_up
    : batchDelete (calm false) [] [Bytes.ofAscii "user0", Bytes.ofAscii "user1"] ⟨(), [], []⟩
        =
      eachKey (delete (calm false) []) [Bytes.ofAscii "user0", Bytes.ofAscii "user1"] ⟨(), [], []⟩ := by
  have hiff := (batch_eq_singles_iff (calm false) rfl ⟨(), [], []⟩ []
    [Bytes.ofAscii "user0", Bytes.ofAscii "user1"] [] []).2.2.2
  rw [hiff]
  exact ⟨rfl, fun _ => ⟨rfl, fun _ => trivial⟩⟩

theorem batch_drops_rows_and_measurements
    : ((batchRead (calm true) [] [Bytes.ofAscii "user0"] [] ⟨(), [], []⟩).1 = ([], none)
        ∧
      (readEach (calm true) [] [] [Bytes.ofAscii "user0"] ⟨(), [], []⟩).1 = ([some ∅], none))
        ∧
      ((batchDelete (calm true) [] [Bytes.ofAscii "user0"] ⟨(), [], []⟩).2.recorded = []
        ∧
      (eachKey (delete (calm true) []) [Bytes.ofAscii "user0"] ⟨(), [], []⟩).2.recorded = [.done .delete, .total])
        ∧
      batchRead (calm true) [] [Bytes.ofAscii "user0"] [] ⟨(), [], []⟩
        ≠
      readEach (calm true) [] [] [Bytes.ofAscii "user0"] ⟨(), [], []⟩
        ∧
      batchInsert (calm true) [] [Bytes.ofAscii "user0"] [∅] ⟨(), [], []⟩
        ≠
      eachValue (insert (calm true) []) 0 [Bytes.ofAscii "user0"] [∅] ⟨(), [], []⟩
        ∧
      batchUpdate (calm true) [] [Bytes.ofAscii "user0"] [∅] ⟨(), [], []⟩
        ≠
      eachValue (update (calm true) []) 0 [Bytes.ofAscii "user0"] [∅] ⟨(), [], []⟩
        ∧
      batchDelete (calm true) [] [Bytes.ofAscii "user0"] ⟨(), [], []⟩
        ≠
      eachKey (delete (calm true) []) [Bytes.ofAscii "user0"] ⟨(), [], []⟩ := by
  refine ⟨⟨rfl, rfl⟩, ⟨rfl, rfl⟩, ?_, ?_, ?_, ?_⟩
  . intro h
    cases congrArg (fun r => r.2.recorded) h
  . intro h
    cases congrArg (fun r => r.2.recorded) h
  . intro h
    cases congrArg (fun r => r.2.recorded) h
  . intro h
    cases congrArg (fun r => r.2.recorded) h

end DbWrapper
