import GoYcsb.Lib.GoMap
import GoYcsb.Lib.Sql

/-!
This module contains tables with a primary key and what is assumed of a server that runs statements on such a table,
together with an executor of which all of it holds.
-/

namespace Sql

structure Table where
  name : Bytes
  primaryKey : Bytes
  columns : List Bytes
  deriving DecidableEq, Repr

-- What there is in a table: the columns of each row that are not `NULL`.
abbrev View := Bytes → Option (Bytes → Option Bytes)

namespace View

def add (v : View) (key : Bytes) (columns : Bytes → Option Bytes) : View :=
  if (v key).isSome then v else Function.update v key (some columns)

def addAll (v : View) (records : List (Bytes × (Bytes → Option Bytes))) : View :=
  records.foldl (fun v rec => v.add rec.1 rec.2) v

def set (v : View) (key : Bytes) (columns : Bytes → Option Bytes) : View :=
  Function.update v key ((v key).map (fun old column => (columns column).or (old column)))

theorem addAll_apply (v : View) (records : List (Bytes × (Bytes → Option Bytes))) (key : Bytes)
    : v.addAll records key = (v key).or ((records.find? (fun rec => rec.1 = key)).map Prod.snd) := by
  induction records generalizing v with
  | nil => simp [addAll]
  | cons rec records ih =>
    have hcons : v.addAll (rec :: records) = (v.add rec.1 rec.2).addAll records := rfl
    rw [hcons, ih, add, List.find?_cons]
    by_cases heq : rec.1 = key
    . subst heq
      cases hv : v rec.1 with
      | none => simp
      | some columns => simp [hv]
    . split
      . simp [heq]
      . rw [Function.update_of_ne (Ne.symm heq)]
        simp [heq]

theorem set_of_none {v : View} {key : Bytes} (h : v key = none) (columns : Bytes → Option Bytes)
    : v.set key columns = v := by
  unfold set
  rw [h, Option.map_none, ← h, Function.update_eq_self]

end View

def columnsOf (fields values : List Bytes) : Bytes → Option Bytes :=
  fun column => (GoMap.insertAll ∅ (fields.zip values)).lookup column

def Table.record (table : Table) (columns values : List Bytes) : Bytes × (Bytes → Option Bytes) :=
  (
    (columnsOf columns values table.primaryKey).getD [],
    fun column => if column = table.primaryKey then none else columnsOf columns values column
  )

def Bound (params : List Nat) (args : List Bytes) : Prop := 0 ∉ params ∧ args.length = params.foldl max 0

instance (params : List Nat) (args : List Bytes) : Decidable (Bound params args) :=
  inferInstanceAs (Decidable (_ ∧ _))

namespace Insert

structure Legal (stmt : Insert) (table : Table) : Prop where
  name : stmt.table = table.name
  known : ∀ column ∈ stmt.columns, column ∈ table.primaryKey :: table.columns
  nodup : stmt.columns.Nodup
  key : table.primaryKey ∈ stmt.columns
  length : ∀ row ∈ stmt.rows, row.length = stmt.columns.length

def values (stmt : Insert) (args : List Bytes) : List (List Bytes) :=
  stmt.rows.map (fun row => row.map (argument args))

end Insert

namespace Update

structure Legal (stmt : Update) (table : Table) : Prop where
  name : stmt.table = table.name
  known : ∀ set ∈ stmt.sets, set.1 ∈ table.columns
  nodup : (stmt.sets.map Prod.fst).Nodup
  column : stmt.column = table.primaryKey

def params (stmt : Update) : List Nat := stmt.sets.map Prod.snd ++ [stmt.param]

def values (stmt : Update) (args : List Bytes) : List Bytes := stmt.sets.map (fun set => argument args set.2)

end Update

structure Request where
  query : Bytes
  args : List Bytes

abbrev Answer (_ : Request) : Type := Except String Unit

/--
A server with one table. How it stores the rows is left to it, as is what becomes of arguments that a column does not
hold as they are, of statements with too many placeholders and of all statements that are not mentioned. It knows the
table and its columns by their names, and it takes keys that fit for the same only if they are.
-/
structure Server (dialect : Dialect) (table : Table) where
  State : Type
  handle : (req : Request) → State → Answer req × State
  view : State → View
  -- the texts that a column holds as they are
  Fits : (column value : Bytes) → Prop
  maxParams : Nat
  insert : ∀ {query : Bytes} {args : List Bytes} {stmt : Insert} (s : State), readInsert dialect query = some stmt →
    stmt.Legal table → Bound stmt.rows.flatten args → args.length ≤ maxParams →
    (∀ values ∈ stmt.values args, ∀ entry ∈ stmt.columns.zip values, Fits entry.1 entry.2) →
    ∃ s', handle ⟨query, args⟩ s = (.ok (), s')
      ∧ view s' = (view s).addAll ((stmt.values args).map (table.record stmt.columns))
  update : ∀ {query : Bytes} {args : List Bytes} {stmt : Update} (s : State), readUpdate dialect query = some stmt →
    stmt.Legal table → Bound stmt.params args → args.length ≤ maxParams →
    (∀ set ∈ stmt.sets, Fits set.1 (argument args set.2)) → Fits table.primaryKey (argument args stmt.param) →
    ∃ s', handle ⟨query, args⟩ s = (.ok (), s')
      ∧ view s' = (view s).set (argument args stmt.param) (columnsOf (stmt.sets.map Prod.fst) (stmt.values args))
  unbound : ∀ {query : Bytes} {args : List Bytes} {stmt : Insert} (s : State), readInsert dialect query = some stmt →
    ¬ Bound stmt.rows.flatten args → ∃ err, handle ⟨query, args⟩ s = (.error err, s)

abbrev Row := GoMap Bytes Bytes

abbrev Rows := GoMap Bytes Row

def view (rows : Rows) : View := fun key => (rows.lookup key).map (fun row column => row.lookup column)

namespace Table

variable (table : Table)

def insertRow (columns : List Bytes) (rows : Rows) (values : List Bytes) : Rows :=
  let row : Row := GoMap.insertAll ∅ (columns.zip values)
  let key := row.get table.primaryKey []
  if key ∈ rows then rows else rows.insert key (row.erase table.primaryKey)

def execInsert (stmt : Insert) (args : List Bytes) (rows : Rows) : Except String Rows :=
  if stmt.table ≠ table.name then
    .error "Table doesn't exist"
  else if ∃ column ∈ stmt.columns, column ∉ table.primaryKey :: table.columns then
    .error "Unknown column in 'field list'"
  else if ¬ stmt.columns.Nodup then
    .error "Column specified twice"
  else if table.primaryKey ∉ stmt.columns then
    .error "Field doesn't have a default value"
  else if ∃ row ∈ stmt.rows, row.length ≠ stmt.columns.length then
    .error "Column count doesn't match value count"
  else
    .ok ((stmt.values args).foldl (table.insertRow stmt.columns) rows)

def execUpdate (stmt : Update) (args : List Bytes) (rows : Rows) : Except String Rows :=
  if stmt.table ≠ table.name then
    .error "Table doesn't exist"
  else if ∃ set ∈ stmt.sets, set.1 ∉ table.columns then
    .error "Unknown column in 'field list'"
  else if ¬ (stmt.sets.map Prod.fst).Nodup then
    .error "multiple assignments to same column"
  else if stmt.column ≠ table.primaryKey then
    .error "Unknown column in 'where clause'"
  else
    let key := argument args stmt.param
    match rows.lookup key with
    | none => .ok rows
    | some row => .ok (rows.insert key (row.insertAll ((stmt.sets.map Prod.fst).zip (stmt.values args))))

-- `database/sql` compares the numbers of placeholders and arguments before it executes a statement.
def run (dialect : Dialect) (req : Request) (rows : Rows) : Except String Rows :=
  match readInsert dialect req.query, readUpdate dialect req.query with
  | some stmt, _ =>
    if Bound stmt.rows.flatten req.args then
      table.execInsert stmt req.args rows
    else
      .error "sql: wrong number of arguments"
  | none, some stmt =>
    if Bound stmt.params req.args then table.execUpdate stmt req.args rows else .error "sql: wrong number of arguments"
  | none, none => .error "You have an error in your SQL syntax"

def handle (dialect : Dialect) (req : Request) (rows : Rows) : Answer req × Rows :=
  match table.run dialect req rows with
  | .error err => (.error err, rows)
  | .ok rows => (.ok (), rows)

end Table

section

variable {table : Table} {rows rows' : Rows}

theorem isSome_view (key : Bytes) : (view rows key).isSome ↔ key ∈ rows := by
  rw [← AList.lookup_isSome, view, Option.isSome_map]

theorem view_insertRow (table : Table) (columns : List Bytes) (rows : Rows) (values : List Bytes)
    : view (table.insertRow columns rows values)
        =
      (view rows).add (table.record columns values).1 (table.record columns values).2 := by
  have herase : (fun column => ((GoMap.insertAll ∅ (columns.zip values)).erase table.primaryKey).lookup column)
      = (table.record columns values).2 := by
    funext column
    unfold Table.record columnsOf
    dsimp only
    by_cases heq : column = table.primaryKey
    . rw [if_pos heq, heq, AList.lookup_erase]
    . rw [if_neg heq, AList.lookup_erase_ne heq]
  have hkey : (GoMap.insertAll ∅ (columns.zip values)).get table.primaryKey [] = (table.record columns values).1 := rfl
  unfold Table.insertRow View.add
  dsimp only
  rw [hkey]
  by_cases hmem : (table.record columns values).1 ∈ rows
  . rw [if_pos hmem, if_pos ((isSome_view _).mpr hmem)]
  . rw [if_neg hmem, if_neg (mt (isSome_view _).mp hmem), ← herase]
    funext key
    by_cases heq : key = (table.record columns values).1
    . rw [heq, Function.update_self, view, AList.lookup_insert, Option.map_some]
    . rw [Function.update_of_ne heq, view, view, AList.lookup_insert_ne heq]

theorem view_foldl_insertRow (table : Table) (columns : List Bytes) (rows : Rows) (groups : List (List Bytes))
    : view (groups.foldl (table.insertRow columns) rows) = (view rows).addAll (groups.map (table.record columns)) := by
  induction groups generalizing rows with
  | nil => rfl
  | cons values groups ih =>
    rw [List.foldl_cons, ih, view_insertRow]
    rfl

theorem execInsert_eq {stmt : Insert} (h : stmt.Legal table) (args : List Bytes) (rows : Rows)
    : table.execInsert stmt args rows = .ok ((stmt.values args).foldl (table.insertRow stmt.columns) rows) := by
  have hknown : ¬ ∃ column ∈ stmt.columns, column ∉ table.primaryKey :: table.columns := by
    rintro ⟨column, hcolumn, hnot⟩
    exact hnot (h.known column hcolumn)
  have hlength : ¬ ∃ row ∈ stmt.rows, row.length ≠ stmt.columns.length := by
    rintro ⟨row, hrow, hne⟩
    exact hne (h.length row hrow)
  unfold Table.execInsert
  rw [if_neg (not_not.mpr h.name), if_neg hknown, if_neg (not_not.mpr h.nodup), if_neg (not_not.mpr h.key),
    if_neg hlength]

theorem view_execUpdate {stmt : Update} (h : stmt.Legal table) (args : List Bytes) (rows : Rows)
    : ∃ rows',
        table.execUpdate stmt args rows = .ok rows'
          ∧
        view rows' = (view rows).set (argument args stmt.param) (columnsOf (stmt.sets.map Prod.fst) (stmt.values args))
      := by
  have hknown : ¬ ∃ set ∈ stmt.sets, set.1 ∉ table.columns := by
    rintro ⟨set, hset, hnot⟩
    exact hnot (h.known set hset)
  unfold Table.execUpdate
  rw [if_neg (not_not.mpr h.name), if_neg hknown, if_neg (not_not.mpr h.nodup), if_neg (not_not.mpr h.column)]
  dsimp only
  cases hrow : rows.lookup (argument args stmt.param) with
  | none =>
    have hview : view rows (argument args stmt.param) = none := by simp [view, hrow]
    exact ⟨rows, rfl, (View.set_of_none hview _).symm⟩
  | some row =>
    refine ⟨_, rfl, ?_⟩
    unfold View.set
    funext key
    by_cases heq : key = argument args stmt.param
    . rw [heq, Function.update_self, view, AList.lookup_insert, view, hrow, Option.map_some, Option.map_some,
        Option.map_some]
      congr 1
      funext column
      rw [GoMap.lookup_insertAll_eq]
      rfl
    . rw [Function.update_of_ne heq, view, view, AList.lookup_insert_ne heq]

end

section

variable {dialect : Dialect} {query : Bytes}

theorem skipWords_eq_some {words : List Bytes} {items rest : List Item} (h : skipWords words items = some rest)
    : items = words.map Item.word ++ rest := by
  induction words generalizing items with
  | nil =>
    cases h
    rfl
  | cons w words ih =>
    unfold skipWords at h
    split at h
    . contradiction
    . next heq =>
      cases heq
      split at h
      . next hw =>
        rw [ih h, hw]
        rfl
      . cases h
    . cases h

theorem head_of_parseInsert {items : List Item} {stmt : Insert} (h : parseInsert dialect items = some stmt)
    : ∃ rest, items = .word (Bytes.ofAscii "INSERT") :: rest := by
  unfold parseInsert at h
  rcases Option.bind_eq_some_iff.mp h with ⟨rest, hskip, _⟩
  rw [skipWords_eq_some hskip]
  cases dialect <;> exact ⟨_, rfl⟩

theorem head_of_parseUpdate {items : List Item} {stmt : Update} (h : parseUpdate items = some stmt)
    : ∃ rest, items = .word (Bytes.ofAscii "UPDATE") :: rest := by
  unfold parseUpdate at h
  split at h
  . split at h
    . next hwords =>
      rw [hwords.1]
      exact ⟨_, rfl⟩
    . cases h
  . cases h

theorem readInsert_eq_none {stmt : Update} (h : readUpdate dialect query = some stmt)
    : readInsert dialect query = none := by
  rcases head_of_parseUpdate h with ⟨rest, hupdate⟩
  rw [Option.eq_none_iff_forall_ne_some]
  intro stmt' hstmt'
  rcases head_of_parseInsert hstmt' with ⟨rest', hinsert⟩
  rw [hupdate, List.cons.injEq, Item.word.injEq] at hinsert
  exact absurd hinsert.1 (by decide)

end

namespace Table

variable {dialect : Dialect} {table : Table} {query : Bytes} {args : List Bytes}

theorem handle_insert {stmt : Insert} (rows : Rows) (hread : readInsert dialect query = some stmt)
    (hlegal : stmt.Legal table) (hbound : Bound stmt.rows.flatten args)
    : ∃ rows',
        table.handle dialect ⟨query, args⟩ rows = (.ok (), rows')
          ∧
        view rows' = (view rows).addAll ((stmt.values args).map (table.record stmt.columns)) := by
  refine ⟨_, ?_, view_foldl_insertRow table stmt.columns rows (stmt.values args)⟩
  unfold handle run
  rw [hread]
  dsimp only
  rw [if_pos hbound, execInsert_eq hlegal]

theorem handle_update {stmt : Update} (rows : Rows) (hread : readUpdate dialect query = some stmt)
    (hlegal : stmt.Legal table) (hbound : Bound stmt.params args)
    : ∃ rows',
        table.handle dialect ⟨query, args⟩ rows = (.ok (), rows')
          ∧
        view rows' = (view rows).set (argument args stmt.param)
          (columnsOf (stmt.sets.map Prod.fst) (stmt.values args)) := by
  rcases view_execUpdate hlegal args rows with ⟨rows', hexec, hview⟩
  refine ⟨rows', ?_, hview⟩
  unfold handle run
  rw [readInsert_eq_none hread, hread]
  dsimp only
  rw [if_pos hbound, hexec]

theorem handle_unbound {stmt : Insert} (rows : Rows) (hread : readInsert dialect query = some stmt)
    (hbound : ¬ Bound stmt.rows.flatten args)
    : ∃ err, table.handle dialect ⟨query, args⟩ rows = (.error err, rows) := by
  unfold handle run
  rw [hread]
  dsimp only
  rw [if_neg hbound]
  exact ⟨_, rfl⟩

def executor (dialect : Dialect) (table : Table) : Server dialect table where
  State := Rows
  handle := table.handle dialect
  view := view
  Fits _ _ := True
  maxParams := 65535
  insert rows hread hlegal hbound _ _ := handle_insert rows hread hlegal hbound
  update rows hread hlegal hbound _ _ _ := handle_update rows hread hlegal hbound
  unbound rows hread hbound := handle_unbound rows hread hbound

end Table

end Sql
