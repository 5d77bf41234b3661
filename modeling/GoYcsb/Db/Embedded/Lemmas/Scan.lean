import GoYcsb.Db.Badger.Impl.Db
import GoYcsb.Db.Boltdb.Impl.Db

/-!
This module contains when `Scan` of the drivers from `GoYcsb.Db.Boltdb.Impl.Db` and `GoYcsb.Db.Badger.Impl.Db` returns
as many entries as it has found records.
-/

namespace Embedded

section

variable (r : Util.RowCodec) (fields : List Bytes)

def decodeAll (rows : List Bytes) : Outcome (Except Bytes (List FieldMap)) :=
  match rows with
  | [] => .ret (.ok [])
  | row :: rows => do
    match ← decode r row fields with
    | .error err => return .error err
    | .ok m =>
      match ← decodeAll rows with
      | .error err => return .error err
      | .ok ms => return .ok (m :: ms)

def found (count : Nat) (cursor : List (Bytes × Bytes)) : Outcome (Except Bytes (List FieldMap)) :=
  decodeAll r fields ((cursor.take count).map Prod.snd)

end

def Answers (expected : Except Bytes (List FieldMap)) (answer : List (Option FieldMap) × Option Bytes) : Prop :=
  match expected with
  | .ok rows => answer = (rows.map some, none)
  | .error err => answer.2 = some err

def Returns (expected : Outcome (Except Bytes (List FieldMap))) (out : Outcome (List (Option FieldMap) × Option Bytes))
    : Prop :=
  ∃ rows answer, expected = .ret rows ∧ out = .ret answer ∧ Answers rows answer

def Fills (count : Nat) (filled : List FieldMap) (expected : Except Bytes (List FieldMap))
    (answer : List (Option FieldMap) × Option Bytes) : Prop :=
  match expected with
  | .ok rows =>
    answer = ((filled ++ rows).map some ++ List.replicate (count - (filled.length + rows.length)) none, none)
  | .error err => answer.2 = some err

section

variable {r : Util.RowCodec} {fields : List Bytes}

theorem set_filled {count : Nat} (filled : List FieldMap) (hlt : filled.length < count) (m : FieldMap)
    : (filled.map some ++ List.replicate (count - filled.length) none).set filled.length (some m)
        =
      (filled ++ [m]).map some ++ List.replicate (count - (filled ++ [m]).length) none := by
  have hsucc : count - filled.length = (count - (filled.length + 1)) + 1 := by omega
  rw [hsucc, List.replicate_succ, List.set_append_right _ _ (by simp)]
  simp

theorem fillRows_rel (cursor : List (Bytes × Bytes)) {count : Nat} (filled : List FieldMap)
    (hle : filled.length ≤ count)
    : Outcome.Rel (Fills count filled) (found r fields (count - filled.length) cursor)
        (fillRows r fields count filled.length cursor
          (filled.map some ++ List.replicate (count - filled.length) none)) := by
  induction cursor generalizing filled with
  | nil =>
    unfold fillRows found
    rw [List.take_nil]
    exact .ret (by simp [Fills])
  | cons entry cursor ih =>
    unfold fillRows
    split
    . next hlt =>
      have hsucc : count - filled.length = (count - (filled.length + 1)) + 1 := by omega
      have hfound : found r fields (count - filled.length) (entry :: cursor)
          = decodeAll r fields (entry.2 :: (cursor.take (count - (filled.length + 1))).map Prod.snd) := by
        rw [found, hsucc]
        rfl
      rw [hfound, decodeAll]
      cases decode r entry.2 fields with
      | panic msg => exact .panic msg
      | exit msg => exact .exit msg
      | running => exact .running
      | ret res =>
        cases res with
        | error err => exact .ret rfl
        | ok m =>
          have hrest := ih (filled ++ [m]) (by simp; omega)
          rw [← set_filled filled hlt, List.length_append, List.length_singleton] at hrest
          apply hrest.bind_left
          intro expected answer hfills
          cases expected with
          | error err => exact .ret hfills
          | ok rows =>
            apply Outcome.Rel.ret
            apply hfills.trans
            simp [Nat.add_assoc, Nat.add_comm 1]
    . next hge =>
      have hzero : count - filled.length = 0 := by omega
      rw [hzero]
      exact .ret (by simp [Fills]; omega)

theorem fillRows_replicate (count : Nat) (cursor : List (Bytes × Bytes))
    : Outcome.Rel (Fills count []) (found r fields count cursor)
        (fillRows r fields count 0 cursor (List.replicate count none)) :=
  fillRows_rel cursor [] (Nat.zero_le count)

theorem length_of_decodeAll {rows : List Bytes} {ms : List FieldMap} (h : decodeAll r fields rows = .ret (.ok ms))
    : ms.length = rows.length := by
  induction rows generalizing ms with
  | nil =>
    cases h
    rfl
  | cons row rows ih =>
    rcases Outcome.bind_eq_ret h with ⟨res, _, hrest⟩
    cases res with
    | error err => cases hrest
    | ok m =>
      rcases Outcome.bind_eq_ret hrest with ⟨res', hrows, hms⟩
      cases res' with
      | error err => cases hms
      | ok ms' =>
        cases hms
        rw [List.length_cons, List.length_cons, ih hrows]

theorem answers_iff_of_fills {count : Nat} {expected : Except Bytes (List FieldMap)}
    {answer : List (Option FieldMap) × Option Bytes} (h : Fills count [] expected answer)
    : Answers expected answer ↔ ∀ rows, expected = .ok rows → count ≤ rows.length := by
  cases expected with
  | error err => exact iff_of_true h nofun
  | ok rows =>
    rw [Fills, List.nil_append, List.length_nil, Nat.zero_add] at h
    constructor
    . intro hanswers rows' heq
      cases heq
      have hlength := congrArg (fun answer => List.length (Prod.fst answer)) (h.symm.trans hanswers)
      simp only [List.length_append, List.length_map, List.length_replicate] at hlength
      omega
    . intro hle
      have hzero : count - rows.length = 0 := Nat.sub_eq_zero_of_le (hle rows rfl)
      rw [hzero, List.replicate_zero, List.append_nil] at h
      exact h

theorem returns_iff_of_fills {count : Nat} {expected : Outcome (Except Bytes (List FieldMap))}
    {out : Outcome (List (Option FieldMap) × Option Bytes)} (h : Outcome.Rel (Fills count []) expected out)
    : Returns expected out
        ↔
      ∃ rows, expected = .ret rows ∧ ∀ ms, rows = .ok ms → count ≤ ms.length := by
  cases h with
  | panic msg => simp [Returns]
  | exit msg => simp [Returns]
  | running => simp [Returns]
  | ret hfills => simp [Returns, answers_iff_of_fills hfills]

end

-- No record makes `Decode` panic, and the cursor yields enough of them unless one does not decode.
def HasRecords (r : Util.RowCodec) (fields : List Bytes) (count : Nat) (cursor : List (Bytes × Bytes)) : Prop :=
  ∃ expected,
    found r fields count cursor = .ret expected
      ∧
    ((∃ err, expected = .error err) ∨ count ≤ cursor.length)

theorem returns_fillRows_iff (r : Util.RowCodec) (fields : List Bytes) (count : Nat) (cursor : List (Bytes × Bytes))
    : Returns (found r fields count cursor) (fillRows r fields count 0 cursor (List.replicate count none))
        ↔
      HasRecords r fields count cursor := by
  rw [returns_iff_of_fills (fillRows_replicate count cursor), HasRecords]
  apply exists_congr
  intro expected
  apply and_congr_right
  intro hfound
  cases expected with
  | error err => simp
  | ok ms =>
    have hlength := length_of_decodeAll hfound
    rw [List.length_map, List.length_take] at hlength
    have hle : count ≤ ms.length ↔ count ≤ cursor.length := by omega
    simpa using hle

end Embedded

namespace Boltdb

open Embedded

def ScansRecords (r : Util.RowCodec) (store : Store) (table startKey : Bytes) (count : Nat) (fields : List Bytes)
    : Prop :=
  match store.lookup table with
  | none => ∃ res, scan r store table startKey count fields = .ret (res, some (tableNotFound table))
  | some bucket =>
    Returns (found r fields count (KeyRange.entriesFrom bucket startKey))
      (scan r store table startKey count fields)

theorem scansRecords_iff (r : Util.RowCodec) (store : Store) (table startKey : Bytes) (count : Nat)
    (fields : List Bytes)
    : ScansRecords r store table startKey count fields
        ↔
      ∀ bucket, store.lookup table = some bucket →
        HasRecords r fields count (KeyRange.entriesFrom bucket startKey) := by
  unfold ScansRecords scan
  cases store.lookup table with
  | none => simp
  | some bucket => simp [returns_fillRows_iff]

end Boltdb

namespace Badger

open Embedded

def ScansRecords (r : Util.RowCodec) (store : Store) (table startKey : Bytes) (count : Nat) (fields : List Bytes)
    : Prop :=
  Returns (found r fields count (KeyRange.entriesFrom store (getRowKey table startKey)))
    (scan r store table startKey count fields)

theorem scansRecords_iff (r : Util.RowCodec) (store : Store) (table startKey : Bytes) (count : Nat)
    (fields : List Bytes)
    : ScansRecords r store table startKey count fields
        ↔
      HasRecords r fields count (KeyRange.entriesFrom store (getRowKey table startKey)) :=
  returns_fillRows_iff r fields count _

end Badger

namespace Embedded

theorem scansRecords_iff_hasRecords (r : Util.RowCodec) (bolt : Boltdb.Store) (badger : Badger.Store)
    (table startKey : Bytes) (count : Nat) (fields : List Bytes)
    : (Boltdb.ScansRecords r bolt table startKey count fields
          ↔
        ∀ bucket, bolt.lookup table = some bucket →
          HasRecords r fields count (KeyRange.entriesFrom bucket startKey))
        ∧
      (Badger.ScansRecords r badger table startKey count fields
          ↔
        HasRecords r fields count (KeyRange.entriesFrom badger (Badger.getRowKey table startKey))) := by
  constructor
  . apply Boltdb.scansRecords_iff
  . apply Badger.scansRecords_iff

def oneRow : GoMap Bytes Bytes := GoMap.insertAll ∅ [(Bytes.ofAscii "k", [8, 0, 2, 2, 49])]

theorem scan_returns_missing_records
    : ∃ r,
        Util.newRowCodec {} = .ret r
          ∧
        ¬ Boltdb.ScansRecords r (GoMap.insertAll ∅ [(Bytes.ofAscii "t", oneRow)]) (Bytes.ofAscii "t") [] 2 []
          ∧
        ¬ Badger.ScansRecords r (GoMap.insertAll ∅ [(Bytes.ofAscii "t:k", [8, 0, 2, 2, 49])]) (Bytes.ofAscii "t") [] 2
            [] := by
  have hanswers : ∀ m : FieldMap, ¬ Returns (.ret (.ok [m])) (.ret ([some m, none], none)) := by
    intro m h
    rcases h with ⟨_, _, ⟨⟩, ⟨⟩, hanswers⟩
    simp [Answers] at hanswers
  refine ⟨_, rfl, ?_, ?_⟩
  . exact hanswers (GoMap.insertAll ∅ [(fieldName 0, [49])])
  . exact hanswers (GoMap.insertAll ∅ [(fieldName 0, [49])])

end Embedded
