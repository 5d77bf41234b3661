import GoYcsb.Db.Mysql.Impl.Update
import GoYcsb.Db.Mysql.Lemmas.BatchInsert
import GoYcsb.Db.Pg.Impl.Db

/-!
This module contains what `Update` and `Insert` of the drivers for MySQL and PostgreSQL do to the table.
-/

open Sql Mysql Statement

namespace Statement

/--
The statement has a placeholder for each of its arguments, in their order.
-/
def Balanced (dialect : Dialect) (prog : Prog (Except String Unit)) : Prop :=
  ∃ query args, prog = .send ⟨query, args⟩ ∧ params dialect query = List.range' 1 args.length

def Achieves {dialect : Dialect} {t : UserTable} (server : Server dialect t.table) (prog : Prog (Except String Unit))
    (s : server.State) (v : View) : Prop :=
  ∃ s', prog.exec server.handle s = (.ret (.ok ()), s') ∧ server.view s' = v

end Statement

namespace Mysql

theorem foldl_add (buf : Bytes) (n : Nat) (pairs : List Util.FieldPair)
    : (pairs.foldl SetClause.add ⟨buf, false⟩).buf
        =
      buf ++ moreSets .questionMarks (Bytes.ofAscii "= ") n (pairs.map Util.FieldPair.field) := by
  induction pairs generalizing buf n with
  | nil => simp [moreSets]
  | cons p pairs ih =>
    have hmark : Bytes.ofAscii "= ?" = Bytes.ofAscii "= " ++ placeholderText .questionMarks n := rfl
    rw [List.foldl_cons, SetClause.add, ih _ (n + 1), List.map_cons, moreSets, hmark]
    simp

theorem update_eq {order : GoMap.Order Bytes Bytes} {values : FieldMap} {p : Util.FieldPair}
    {pairs : List Util.FieldPair} (h : Util.newFieldPairs order values = p :: pairs) (table key : Bytes)
    : update order table key values
        =
      execQuery (updateText .questionMarks (Bytes.ofAscii "= ") table p.field (pairs.map Util.FieldPair.field))
        ((p :: pairs).map Util.FieldPair.value ++ [key]) := by
  have hmark : Bytes.ofAscii "= ?" = Bytes.ofAscii "= " ++ placeholderText .questionMarks 1 := rfl
  have hwhere (n : Nat) : Bytes.ofAscii " WHERE YCSB_KEY = ?"
      = Bytes.ofAscii " WHERE YCSB_KEY = " ++ placeholderText .questionMarks n :=
    rfl
  unfold update
  dsimp only
  rw [h, List.foldl_cons, SetClause.add]
  dsimp only
  rw [if_pos rfl, foldl_add _ 2, hmark, hwhere ((pairs.map Util.FieldPair.field).length + 2), updateText]
  simp only [List.append_assoc]

end Mysql

namespace Pg

theorem foldl_add (buf : Bytes) (n : Nat) (pairs : List Util.FieldPair)
    : pairs.foldl SetClause.add ⟨buf, false, n⟩
        =
      {
        buf := buf ++ moreSets .numbered (Bytes.ofAscii " = ") n (pairs.map Util.FieldPair.field),
        firstField := false,
        placeHolderIndex := n + pairs.length
      } := by
  induction pairs generalizing buf n with
  | nil => simp [moreSets]
  | cons p pairs ih =>
    have hadd : SetClause.add ⟨buf, false, n⟩ p
        = ⟨buf ++ Bytes.ofAscii ", " ++ (p.field ++ (Bytes.ofAscii " = " ++ placeholderText .numbered n)), false,
          n + 1⟩ := by
      unfold SetClause.add
      dsimp only
      rw [List.append_assoc p.field]
      rfl
    rw [List.foldl_cons, hadd, ih, List.map_cons, moreSets, List.length_cons, Nat.add_assoc n, Nat.add_comm 1]
    simp only [List.append_assoc]

theorem update_eq {order : GoMap.Order Bytes Bytes} {values : FieldMap} {p : Util.FieldPair}
    {pairs : List Util.FieldPair} (h : Util.newFieldPairs order values = p :: pairs) (table key : Bytes)
    : update order table key values
        =
      execQuery (updateText .numbered (Bytes.ofAscii " = ") table p.field (pairs.map Util.FieldPair.field))
        ((p :: pairs).map Util.FieldPair.value ++ [key]) := by
  have hwhere : Bytes.ofAscii " WHERE YCSB_KEY = $" ++ Bytes.decimal (2 + pairs.length)
      = Bytes.ofAscii " WHERE YCSB_KEY = "
        ++ placeholderText .numbered ((pairs.map Util.FieldPair.field).length + 2) := by
    rw [List.length_map, Nat.add_comm]
    rfl
  have hadd (buf : Bytes) : SetClause.add ⟨buf, true, 1⟩ p
      = ⟨buf ++ (p.field ++ (Bytes.ofAscii " = " ++ placeholderText .numbered 1)), false, 2⟩ := by
    unfold SetClause.add
    dsimp only
    rw [List.append_assoc p.field]
    rfl
  unfold update
  dsimp only
  rw [h, List.foldl_cons, hadd, foldl_add]
  dsimp only
  rw [hwhere, updateText]
  simp only [List.append_assoc]

theorem foldl_placeholders (buf : Bytes) (n k : Nat)
    : (List.range k).foldl (fun buf i => buf ++ (Bytes.ofAscii " ,$" ++ Bytes.decimal (i + n))) buf
        =
      buf ++ moreParams .numbered n k := by
  induction k generalizing buf n with
  | zero => simp [moreParams]
  | succ k ih =>
    have hdollar : Bytes.ofAscii " ,$" ++ Bytes.decimal (0 + n)
        = Bytes.ofAscii " ," ++ placeholderText .numbered n := by
      rw [Nat.zero_add]
      rfl
    have hrest := ih (buf ++ (Bytes.ofAscii " ," ++ placeholderText .numbered n)) (n + 1)
    rw [List.range_succ_eq_map, List.foldl_cons, List.foldl_map, hdollar, moreParams]
    simp only [Nat.succ_eq_add_one, Nat.add_assoc, Nat.add_comm 1 n]
    rw [hrest]
    simp only [List.append_assoc]

theorem insert_eq (order : GoMap.Order Bytes Bytes) (table key : Bytes) (values : FieldMap)
    : insert order table key values
        =
      execQuery (insertText .numbered table (fieldsOf values) 0) (key :: valuesOf values) := by
  have hvalues : Bytes.ofAscii ") VALUES ($1" = Bytes.ofAscii ") VALUES " ++ 40 :: placeholderText .numbered 1 := by
    decide
  have hconflict : Bytes.ofAscii ") ON CONFLICT DO NOTHING" = 41 :: closingText .numbered := by decide
  unfold insert
  dsimp only
  rw [foldl_columns, foldl_placeholders, hvalues, hconflict, Util.newFieldPairs_eq order .id, ← fieldsOf, ← valuesOf,
    Util.length_newFieldPairs, ← length_fieldsOf]
  simp [insertText, rowText, openingText, moreRows]

end Pg

section

variable {dialect : Dialect} {t : UserTable} {server : Server dialect t.table} {key : Bytes} {values : FieldMap}

theorem achieves_send {query : Bytes} {args : List Bytes} {s : server.State} {v : View}
    (h : ∃ s', server.handle ⟨query, args⟩ s = (.ok (), s') ∧ server.view s' = v)
    : Achieves server (.send ⟨query, args⟩) s v := by
  rcases h with ⟨s', hhandle, hview⟩
  refine ⟨s', ?_, hview⟩
  unfold Rpc.send
  rw [Rpc.exec_call, Rpc.exec_done, hhandle]

-- Of a driver, it is only used how it makes the text.
theorem insertText_correct {prog : Prog (Except String Unit)}
    (hprog : prog = .send ⟨insertText dialect t.name (fieldsOf values) 0, key :: valuesOf values⟩) (h : t.Over values)
    (hholds : Holds server [(key, values)])
    : (∀ s, Achieves server prog s ((server.view s).add key (fun column => values.lookup column)))
        ∧
      Balanced dialect prog := by
  constructor
  . intro s
    rw [hprog]
    exact achieves_send (hholds.insert_record h s)
  . refine ⟨_, _, hprog, ?_⟩
    rw [params_insertText dialect t.word_name h.names.word, List.length_cons, length_valuesOf, length_fieldsOf]

theorem updateText_correct (order : GoMap.Order Bytes Bytes) {equals : Bytes} (hequals : IsEquals equals)
    {prog : Prog (Except String Unit)}
    (hprog : ∀ p pairs, Util.newFieldPairs order values = p :: pairs →
      prog = .send ⟨updateText dialect equals t.name p.field (pairs.map Util.FieldPair.field),
        (p :: pairs).map Util.FieldPair.value ++ [key]⟩)
    (hne : values.keys ≠ []) (h : t.Over values) (hholds : Holds server [(key, values)])
    : (∀ s, Achieves server prog s ((server.view s).set key (fun column => values.lookup column)))
        ∧
      Balanced dialect prog := by
  rcases exists_fieldsOf hne with ⟨p, pairs, hpairs, hfields, hvalues⟩
  have hsend := hprog p pairs (hpairs order)
  rw [List.map_cons, hvalues] at hsend
  have hnames := h.names
  rw [← hfields] at hnames
  constructor
  . intro s
    rw [hsend]
    exact achieves_send (hholds.update_record h hequals hfields hvalues s)
  . refine ⟨_, _, hsend, ?_⟩
    rw [params_updateText dialect hequals t.word_name hnames.word, List.length_append, ← hvalues]
    simp

end

def usertablePg : Server .numbered usertable.table := Table.executor .numbered usertable.table

def oldRows : Rows := AList.insert (Bytes.ofAscii "user0") (record "FIELD1" "b") ∅
