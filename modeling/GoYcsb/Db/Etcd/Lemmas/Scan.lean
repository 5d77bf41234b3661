import GoYcsb.Db.Etcd.Impl.Scan

/-!
This module contains when `Scan` from `GoYcsb.Db.Etcd.Impl.Scan` returns the records it was asked for.
-/

namespace Etcd

open Contract

-- What `Scan` is for, if at least `count` keys lie at or after the start key.
def ScansFirst (json : Json) (store : Kv.Store Bytes) (table startKey : Bytes) (count : Nat) (fields : List Bytes)
    : Prop :=
  ∃ rows : List FieldMap,
    (Rpc.exec RangeRequest.handle (scan json table startKey count fields) store).1 = .ret (.ok (rows.map some))
      ∧
    rows.length = count
      ∧
    List.Forall₂ (fun row entry => json.unmarshal entry.2 (.pointer ∅) = (none, row)) rows
      ((KeyRange.entriesFrom store (getRowKey table startKey)).take count)

section

variable {json : Json} {kvs : List (Bytes × Bytes)}

theorem length_appendRows {res rows : List (Option FieldMap)} (h : appendRows json kvs res = .ok rows)
    : rows.length = res.length + kvs.length := by
  induction kvs generalizing res with
  | nil =>
    cases h
    rfl
  | cons entry kvs ih =>
    unfold appendRows at h
    split at h
    . contradiction
    . rw [ih h]
      simp only [List.length_append, List.length_cons, List.length_nil]
      omega

end

theorem exec_scan (json : Json) (store : Kv.Store Bytes) (table startKey : Bytes) (count : Nat) (fields : List Bytes)
    : (Rpc.exec RangeRequest.handle (scan json table startKey count fields) store).1
        =
      if (KeyRange.entriesFrom store (getRowKey table startKey)).length = count then
        .ret (appendRows json (KeyRange.entriesFrom store (getRowKey table startKey)) (List.replicate count none))
      else
        .ret (.error (unexpectedNumber (getRowKey table startKey) count
          (KeyRange.entriesFrom store (getRowKey table startKey)).length)) := by
  unfold scan
  rw [Rpc.send_bind, Rpc.exec_call]
  dsimp only [RangeRequest.handle]
  by_cases hcount : (KeyRange.entriesFrom store (getRowKey table startKey)).length = count
  . have htake : (KeyRange.entriesFrom store (getRowKey table startKey)).take count
        = KeyRange.entriesFrom store (getRowKey table startKey) := List.take_of_length_le (by omega)
    simp [hcount, htake]
  . simp [hcount]

theorem scansFirst_iff (json : Json) {store : Kv.Store Bytes} {table startKey : Bytes} {count : Nat}
    (hcount : count ≤ (KeyRange.entriesFrom store (getRowKey table startKey)).length) (fields : List Bytes)
    : ScansFirst json store table startKey count fields
        ↔
      count = 0 ∧ KeyRange.entriesFrom store (getRowKey table startKey) = [] := by
  unfold ScansFirst
  rw [exec_scan]
  constructor
  . rintro ⟨rows, hscan, hlength, _⟩
    split at hscan
    . next htotal =>
      rw [Outcome.ret.injEq] at hscan
      have happend := length_appendRows hscan
      rw [List.length_map, List.length_replicate] at happend
      rw [← List.length_eq_zero_iff]
      omega
    . cases hscan
  . rintro ⟨rfl, hnil⟩
    refine ⟨[], ?_, rfl, .nil⟩
    rw [hnil]
    rfl

def oneKeyStore : Kv.Store Bytes := GoMap.insertAll ∅ [(Bytes.ofAscii "t:k", Json.quoteMap ∅)]

theorem not_scansFirst_oneKeyStore
    : 1 ≤ (KeyRange.entriesFrom oneKeyStore (getRowKey (Bytes.ofAscii "t") [])).length
        ∧
      ¬ ScansFirst Json.quoted oneKeyStore (Bytes.ofAscii "t") [] 1 [] := by
  have hcount : 1 ≤ (KeyRange.entriesFrom oneKeyStore (getRowKey (Bytes.ofAscii "t") [])).length := by decide
  refine ⟨hcount, ?_⟩
  rw [scansFirst_iff Json.quoted hcount []]
  decide

theorem scan_never_returns_records
    : ¬ ScansFirst Json.quoted oneKeyStore (Bytes.ofAscii "t") [] 1 []
        ∧
      ¬ ScansFirst Json.quoted
          (GoMap.insertAll ∅ [(Bytes.ofAscii "t:k", Json.quoteMap ∅), (Bytes.ofAscii "t:l", Json.quoteMap ∅)])
          (Bytes.ofAscii "t") [] 1 [] := by
  constructor
  . rintro ⟨rows, hscan, hlength, _⟩
    have htwo : Outcome.ret (.ok [none, some ∅]) = Outcome.ret (Except.ok (ε := Bytes) (rows.map some)) := hscan
    simp only [Outcome.ret.injEq, Except.ok.injEq] at htwo
    have hlen := congrArg List.length htwo
    simp [hlength] at hlen
  . rintro ⟨rows, hscan, _⟩
    cases hscan

end Etcd
