import GoYcsb.Db.Mysql.Impl.Insert
import GoYcsb.Db.Sql.Lemmas.Statement

/-!
This module contains what `Insert` from `GoYcsb.Db.Mysql.Impl.Insert` adds to the table.
-/

namespace Mysql

open Sql Statement

section

variable (buf : Bytes) (pairs : List Util.FieldPair)

theorem foldl_columns
    : pairs.foldl (fun buf p => buf ++ Bytes.ofAscii " ," ++ p.field) buf
        =
      buf ++ columnsText (pairs.map Util.FieldPair.field) := by
  induction pairs generalizing buf with
  | nil => simp [columnsText]
  | cons p pairs ih =>
    rw [List.foldl_cons, ih, List.map_cons, columnsText, columnsText, List.flatMap_cons]
    simp only [List.append_assoc]

theorem foldl_placeholders (n : Nat)
    : pairs.foldl (fun buf _ => buf ++ Bytes.ofAscii " ,?") buf
        =
      buf ++ moreParams .questionMarks n pairs.length := by
  induction pairs generalizing buf n with
  | nil => simp [moreParams]
  | cons p pairs ih =>
    have hmark : Bytes.ofAscii " ,?" = Bytes.ofAscii " ," ++ placeholderText .questionMarks n := rfl
    rw [List.foldl_cons, ih _ (n + 1), List.length_cons, moreParams, hmark]
    simp only [List.append_assoc]

end

theorem insert_eq (order : GoMap.Order Bytes Bytes) (table key : Bytes) (values : FieldMap)
    : insert order table key values
        =
      execQuery (insertText .questionMarks table (fieldsOf values) 0) (key :: valuesOf values) := by
  have hvalues : Bytes.ofAscii ") VALUES (?"
      = Bytes.ofAscii ") VALUES " ++ 40 :: placeholderText .questionMarks 1 := by
    decide
  unfold insert
  dsimp only
  rw [foldl_columns, foldl_placeholders _ _ 2, hvalues, Util.newFieldPairs_eq order .id, ← fieldsOf, ← valuesOf]
  rw [insertText, rowText, length_fieldsOf, ← Util.length_newFieldPairs .id values]
  simp [openingText, closingText, moreRows]

-- All rows have the same text, as a question mark has no number.
theorem moreRows_eq (n n' k m : Nat)
    : moreRows .questionMarks n k m
        =
      (List.replicate m (44 :: rowText .questionMarks n' k)).flatten := by
  have hparams : ∀ n n', moreParams .questionMarks n k = moreParams .questionMarks n' k := by
    induction k with
    | zero => exact fun _ _ => rfl
    | succ k ih =>
      intro n n'
      rw [moreParams, moreParams, ih (n + 1) (n' + 1)]
      rfl
  have hrow : ∀ n, rowText .questionMarks n k = rowText .questionMarks n' k := by
    intro n
    rw [rowText, rowText, hparams (n + 1) (n' + 1)]
    rfl
  induction m generalizing n with
  | zero => rfl
  | succ m ih => rw [moreRows, ih, hrow, List.replicate_succ, List.flatten_cons, List.cons_append]

theorem intercalate_replicate (text : Bytes) (m : Nat)
    : (Bytes.ofAscii ",").intercalate (List.replicate (m + 1) text)
        =
      text ++ (List.replicate m (44 :: text)).flatten := by
  have hcomma : Bytes.ofAscii "," = [44] := by decide
  rw [hcomma]
  induction m with
  | zero => simp
  | succ m ih =>
    rw [List.replicate_succ, List.replicate_succ, List.intercalate_cons_cons, ← List.replicate_succ, ih,
      List.replicate_succ, List.flatten_cons]
    simp only [List.append_assoc, List.cons_append, List.nil_append]

theorem batchInsert_eq (order : GoMap.Order Bytes Bytes) (orders : Orders) (table : Bytes) {keys : List Bytes}
    {first : FieldMap} {rest : List FieldMap} (hlen : keys.length = (first :: rest).length)
    : batchInsert order orders table keys (first :: rest)
        =
      (do
        let args ← .lift (batchArgs orders 0 keys (first :: rest))
        execQuery (insertText .questionMarks table (fieldsOf first) rest.length) args) := by
  have hopen : Bytes.ofAscii "(?" = 40 :: placeholderText .questionMarks 1 := by decide
  unfold batchInsert
  dsimp only
  rw [foldl_columns, foldl_placeholders _ _ 2, List.map_const', hlen, List.length_cons, intercalate_replicate, hopen,
    Util.newFieldPairs_eq order .id, ← fieldsOf, Util.length_newFieldPairs, ← length_fieldsOf]
  rw [insertText, moreRows_eq _ 1]
  simp [openingText, closingText, rowText]

section

variable {t : UserTable} {server : Server .questionMarks t.table}

theorem exec_execQuery {query : Bytes} {args : List Bytes} {s s' : server.State} {answer : Except String Unit}
    (h : server.handle ⟨query, args⟩ s = (answer, s'))
    : (execQuery query args).exec server.handle s = (.ret answer, s') := by
  unfold execQuery Rpc.send
  rw [Rpc.exec_call, Rpc.exec_done, h]

theorem exec_insert {key : Bytes} {values : FieldMap} (h : t.Over values) (hholds : Holds server [(key, values)])
    (order : GoMap.Order Bytes Bytes) (s : server.State)
    : ∃ s',
        (insert order t.name key values).exec server.handle s = (.ret (.ok ()), s')
          ∧
        server.view s' = (server.view s).add key (fun column => values.lookup column) := by
  rcases hholds.insert_record h s with ⟨s', hhandle, hview⟩
  refine ⟨s', ?_, hview⟩
  rw [insert_eq, exec_execQuery hhandle]

def insertEach (orders : Orders) (table : Bytes) (i : Nat) (records : List (Bytes × FieldMap))
    : Prog (Except String Unit) :=
  match records with
  | [] => return .ok ()
  | (key, values) :: records => do
    match ← insert (orders i) table key values with
    | .error err => return .error err
    | .ok () => insertEach orders table (i + 1) records

def viewOf (records : List (Bytes × FieldMap)) : List (Bytes × (Bytes → Option Bytes)) :=
  records.map (fun rec => (rec.1, fun column => rec.2.lookup column))

theorem exec_insertEach {records : List (Bytes × FieldMap)} (h : ∀ rec ∈ records, t.Over rec.2)
    (hholds : ∀ rec ∈ records, Holds server [rec]) (orders : Orders) (i : Nat) (s : server.State)
    : ∃ s',
        (insertEach orders t.name i records).exec server.handle s = (.ret (.ok ()), s')
          ∧
        server.view s' = (server.view s).addAll (viewOf records) := by
  induction records generalizing s i with
  | nil => exact ⟨s, rfl, rfl⟩
  | cons rec records ih =>
    rw [List.forall_mem_cons] at h hholds
    rcases exec_insert h.1 hholds.1 (orders i) s with ⟨s₁, hexec, hview⟩
    rcases ih h.2 hholds.2 (i + 1) s₁ with ⟨s', hexec', hview'⟩
    refine ⟨s', ?_, ?_⟩
    . rw [insertEach, Rpc.exec_bind_ret hexec]
      exact hexec'
    . rw [hview', hview]
      rfl

end

end Mysql
