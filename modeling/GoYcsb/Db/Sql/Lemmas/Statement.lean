import GoYcsb.Lib.SqlTable
import GoYcsb.Util.Lemmas.FieldPairs
import Mathlib.Algebra.Order.BigOperators.Group.List

/-!
This module contains what the statements of the SQL drivers do: their texts are taken apart into the columns they were
made of, with the number of its value at each of them. The drivers differ in how they write the placeholders and in
where they put spaces.
-/

namespace Statement

open Sql

-- The key column has its own place, so it is not among the columns.
structure UserTable where
  name : Bytes
  columns : List Bytes
  word_name : IsWord name
  word_columns : ∀ column ∈ columns, IsWord column
  keyless : Bytes.ofAscii "YCSB_KEY" ∉ columns

def UserTable.table (t : UserTable) : Sql.Table where
  name := t.name
  primaryKey := Bytes.ofAscii "YCSB_KEY"
  columns := t.columns

structure UserTable.Names (t : UserTable) (fields : List Bytes) : Prop where
  mem : ∀ field ∈ fields, field ∈ t.columns
  nodup : fields.Nodup

def placeholderText (dialect : Dialect) (n : Nat) : Bytes :=
  match dialect with
  | .questionMarks => [63]
  | .numbered => 36 :: Bytes.decimal n

structure IsEquals (equals : Bytes) : Prop where
  lex_eq : lex equals = [.other 61]
  head : ∀ c ∈ equals.head?, isWordChar c = false
  last : equals.getLast?.any isWordChar = false
  ne_nil : equals ≠ []

theorem isEquals_mysql : IsEquals (Bytes.ofAscii "= ") :=
  ⟨by decide, head_not_word (by decide) [32], by decide, by decide⟩

theorem isEquals_pg : IsEquals (Bytes.ofAscii " = ") :=
  ⟨by decide, head_not_word (by decide) [61, 32], by decide, by decide⟩

def moreSets (dialect : Dialect) (equals : Bytes) (n : Nat) (fields : List Bytes) : Bytes :=
  match fields with
  | [] => []
  | field :: fields =>
    Bytes.ofAscii ", " ++ (field ++ (equals ++ (placeholderText dialect n ++ moreSets dialect equals (n + 1) fields)))

def updateText (dialect : Dialect) (equals table field : Bytes) (fields : List Bytes) : Bytes :=
  Bytes.ofAscii "UPDATE " ++ (table ++ (Bytes.ofAscii " SET " ++ (field ++ (equals ++ (placeholderText dialect 1
    ++ (moreSets dialect equals 2 fields ++ (Bytes.ofAscii " WHERE YCSB_KEY = "
    ++ placeholderText dialect (fields.length + 2))))))))

def columnsText (fields : List Bytes) : Bytes := fields.flatMap (fun field => Bytes.ofAscii " ," ++ field)

def moreParams (dialect : Dialect) (n k : Nat) : Bytes :=
  match k with
  | 0 => []
  | k + 1 => Bytes.ofAscii " ," ++ (placeholderText dialect n ++ moreParams dialect (n + 1) k)

def rowText (dialect : Dialect) (n k : Nat) : Bytes :=
  40 :: (placeholderText dialect n ++ (moreParams dialect (n + 1) k ++ [41]))

def moreRows (dialect : Dialect) (n k m : Nat) : Bytes :=
  match m with
  | 0 => []
  | m + 1 => 44 :: (rowText dialect n k ++ moreRows dialect (n + k + 1) k m)

def openingText (dialect : Dialect) : Bytes :=
  match dialect with
  | .questionMarks => Bytes.ofAscii "INSERT IGNORE INTO "
  | .numbered => Bytes.ofAscii "INSERT INTO "

def closingText (dialect : Dialect) : Bytes :=
  match dialect with
  | .questionMarks => []
  | .numbered => Bytes.ofAscii " ON CONFLICT DO NOTHING"

def insertText (dialect : Dialect) (table : Bytes) (fields : List Bytes) (m : Nat) : Bytes :=
  openingText dialect ++ (table ++ (Bytes.ofAscii " (YCSB_KEY" ++ (columnsText fields ++ (Bytes.ofAscii ") VALUES "
    ++ (rowText dialect 1 fields.length ++ (moreRows dialect (fields.length + 2) fields.length m
    ++ closingText dialect))))))

section

variable (dialect : Dialect)

theorem isWord_decimal (n : Nat) : IsWord (Bytes.decimal n) where
  ne_nil := Bytes.decimal_ne_nil n
  chars := by
    intro c hc
    have hdigit := Bytes.digit_of_mem_decimal hc
    simp [isWordChar, hdigit]

theorem lex_placeholderText (n : Nat) : lex (placeholderText dialect n) = paramTokens dialect n := by
  cases dialect with
  | questionMarks =>
    have hmark : lex [63] = [.placeholder] := by decide
    exact hmark
  | numbered =>
    have hdollar : isWordChar 36 = false := by decide
    rw [placeholderText, lex_cons hdollar, (isWord_decimal n).lex_eq]
    rfl

variable {equals : Bytes} (hequals : IsEquals equals)

include hequals

theorem lex_assignment {field rest : Bytes} (hfield : IsWord field) (n : Nat)
    (hrest : ∀ c ∈ rest.head?, isWordChar c = false)
    : lex (field ++ (equals ++ (placeholderText dialect n ++ rest)))
        =
      .word field :: .other 61 :: (paramTokens dialect n ++ lex rest) := by
  have hhead : ∀ c ∈ (equals ++ (placeholderText dialect n ++ rest)).head?, isWordChar c = false := by
    rw [List.head?_append_of_ne_nil _ hequals.ne_nil]
    exact hequals.head
  rw [lex_append_of_head hhead, lex_append_of_last hequals.last, lex_append_of_head hrest, hfield.lex_eq,
    hequals.lex_eq, lex_placeholderText]
  rfl

omit hequals in
theorem head?_moreSets (n : Nat) (fields : List Bytes) {rest : Bytes}
    (hrest : ∀ c ∈ rest.head?, isWordChar c = false)
    : ∀ c ∈ (moreSets dialect equals n fields ++ rest).head?, isWordChar c = false := by
  cases fields with
  | nil => exact hrest
  | cons field fields => exact head_not_word (by decide) _

theorem lex_moreSets {fields : List Bytes} (hfields : ∀ field ∈ fields, IsWord field) (n : Nat) {rest : Bytes}
    (hrest : ∀ c ∈ rest.head?, isWordChar c = false)
    : lex (moreSets dialect equals n fields ++ rest) = moreSetTokens dialect n fields ++ lex rest := by
  induction fields generalizing n with
  | nil => rfl
  | cons field fields ih =>
    rw [List.forall_mem_cons] at hfields
    have hcomma : lex (Bytes.ofAscii ", ") = [.comma] := by decide
    rw [moreSets]
    simp only [List.append_assoc]
    rw [lex_append_of_last (by decide), lex_assignment dialect hequals hfields.1 n
      (head?_moreSets dialect (n + 1) fields hrest), ih hfields.2, hcomma, moreSetTokens]
    simp

theorem lex_updateText {table field : Bytes} {fields : List Bytes} (htable : IsWord table)
    (hfields : ∀ w ∈ field :: fields, IsWord w)
    : lex (updateText dialect equals table field fields)
        =
      .word (Bytes.ofAscii "UPDATE") :: .word table :: .word (Bytes.ofAscii "SET") :: .word field :: .other 61
        :: (paramTokens dialect 1 ++ (moreSetTokens dialect 2 fields ++ .word (Bytes.ofAscii "WHERE")
        :: .word (Bytes.ofAscii "YCSB_KEY") :: .other 61 :: paramTokens dialect (fields.length + 2))) := by
  have hupdate : lex (Bytes.ofAscii "UPDATE ") = [.word (Bytes.ofAscii "UPDATE")] := by decide
  have hset : lex (Bytes.ofAscii " SET ") = [.word (Bytes.ofAscii "SET")] := by decide
  have hwhere : lex (Bytes.ofAscii " WHERE YCSB_KEY = ")
      = [.word (Bytes.ofAscii "WHERE"), .word (Bytes.ofAscii "YCSB_KEY"), .other 61] := by
    decide
  have hsetHead (rest : Bytes) : ∀ c ∈ (Bytes.ofAscii " SET " ++ rest).head?, isWordChar c = false :=
    head_not_word (by decide) _
  have hwhereHead (rest : Bytes) : ∀ c ∈ (Bytes.ofAscii " WHERE YCSB_KEY = " ++ rest).head?, isWordChar c = false :=
    head_not_word (by decide) _
  rw [List.forall_mem_cons] at hfields
  unfold updateText
  rw [lex_append_of_last (by decide), lex_append_of_head (hsetHead _), lex_append_of_last (by decide),
    lex_assignment dialect hequals hfields.1 1 (head?_moreSets dialect 2 fields (hwhereHead _)),
    lex_moreSets dialect hequals hfields.2 2 (hwhereHead _), lex_append_of_last (by decide)]
  rw [hupdate, htable.lex_eq, hset, hwhere, lex_placeholderText]
  simp

theorem items_updateText {table field : Bytes} {fields : List Bytes} (htable : IsWord table)
    (hfields : ∀ w ∈ field :: fields, IsWord w)
    : items dialect 1 (lex (updateText dialect equals table field fields))
        =
      .word (Bytes.ofAscii "UPDATE") :: .word table :: .word (Bytes.ofAscii "SET") :: .word field
        :: .symbol (.other 61) :: .param 1 :: (moreSetItems 2 fields ++ [.word (Bytes.ofAscii "WHERE"),
          .word (Bytes.ofAscii "YCSB_KEY"), .symbol (.other 61), .param (fields.length + 2)]) := by
  have hlast : items dialect (2 + fields.length) (.other 61 :: paramTokens dialect (fields.length + 2))
      = [.symbol (.other 61), .param (fields.length + 2)] := by
    rw [Nat.add_comm 2, ← List.append_nil (paramTokens _ _), items_equals, items_paramTokens, items_nil]
  rw [lex_updateText dialect hequals htable hfields]
  simp only [items_word, items_equals, items_paramTokens, items_moreSetTokens, hlast]

theorem read_updateText {table field : Bytes} {fields : List Bytes} (htable : IsWord table)
    (hfields : ∀ w ∈ field :: fields, IsWord w)
    : readUpdate dialect (updateText dialect equals table field fields)
        =
      some {
        table,
        sets := numberFrom 1 (field :: fields),
        column := Bytes.ofAscii "YCSB_KEY",
        param := fields.length + 2
      } := by
  unfold readUpdate
  rw [items_updateText dialect hequals htable hfields, parseUpdate, if_pos ⟨rfl, rfl⟩, parseSets_eq]
  exact if_pos rfl

end

section

theorem head?_columnsText (fields : List Bytes) : ∀ c ∈ (columnsText fields).head?, isWordChar c = false := by
  cases fields with
  | nil => simp [columnsText]
  | cons field fields => exact head_not_word (by decide) _

theorem lex_columnsText {fields : List Bytes} (h : ∀ field ∈ fields, IsWord field)
    : lex (columnsText fields) = fields.flatMap (fun field => [.comma, .word field]) := by
  induction fields with
  | nil => rfl
  | cons field fields ih =>
    rw [List.forall_mem_cons] at h
    have hcons : columnsText (field :: fields) = Bytes.ofAscii " ," ++ (field ++ columnsText fields) := by
      simp [columnsText]
    have hcomma : lex (Bytes.ofAscii " ,") = [.comma] := by decide
    rw [hcons, lex_append_of_last (by decide), lex_append_of_head (head?_columnsText fields), hcomma, h.1.lex_eq,
      ih h.2]
    rfl

end

section

variable (dialect : Dialect)

theorem head?_moreParams (n k : Nat) {rest : Bytes} (hrest : ∀ c ∈ rest.head?, isWordChar c = false)
    : ∀ c ∈ (moreParams dialect n k ++ rest).head?, isWordChar c = false := by
  cases k with
  | zero => exact hrest
  | succ k => exact head_not_word (by decide) _

theorem lex_moreParams (n k : Nat) {rest : Bytes} (hrest : ∀ c ∈ rest.head?, isWordChar c = false)
    : lex (moreParams dialect n k ++ rest) = moreParamTokens dialect n k ++ lex rest := by
  induction k generalizing n with
  | zero => rfl
  | succ k ih =>
    have hcomma : lex (Bytes.ofAscii " ,") = [.comma] := by decide
    rw [moreParams]
    simp only [List.append_assoc]
    rw [lex_append_of_last (by decide), lex_append_of_head (head?_moreParams dialect (n + 1) k hrest), ih,
      lex_placeholderText, hcomma, moreParamTokens]
    simp

theorem lex_rowText (n k : Nat) (rest : Bytes)
    : lex (rowText dialect n k ++ rest) = rowTokens dialect n k ++ lex rest := by
  have hlparen : isWordChar 40 = false := by decide
  have hrparen : isWordChar 41 = false := by decide
  have hhead : ∀ c ∈ (41 :: rest).head?, isWordChar c = false := head_not_word hrparen rest
  have hsymbols : symbol 40 = [.lparen] ∧ symbol 41 = [.rparen] := by decide
  unfold rowText rowTokens
  simp only [List.cons_append, List.append_assoc, List.nil_append]
  rw [lex_cons hlparen, lex_append_of_head (head?_moreParams dialect (n + 1) k hhead), lex_placeholderText,
    lex_moreParams dialect (n + 1) k hhead, lex_cons hrparen, hsymbols.1, hsymbols.2]
  rfl

theorem lex_moreRows (n k m : Nat) (rest : Bytes)
    : lex (moreRows dialect n k m ++ rest) = moreRowTokens dialect n k m ++ lex rest := by
  have hcomma : isWordChar 44 = false := by decide
  have hsymbol : symbol 44 = [.comma] := by decide
  induction m generalizing n with
  | zero => rfl
  | succ m ih =>
    unfold moreRows moreRowTokens
    simp only [List.cons_append, List.append_assoc]
    rw [lex_cons hcomma, lex_rowText, ih, hsymbol]
    rfl

theorem lex_openingText (rest : Bytes)
    : lex (openingText dialect ++ rest) = dialect.opening.map Token.word ++ lex rest := by
  have hlast : (openingText dialect).getLast?.any isWordChar = false := by
    cases dialect <;> decide
  have hwords : lex (openingText dialect) = dialect.opening.map Token.word := by
    cases dialect <;> decide
  rw [lex_append_of_last hlast, hwords]

theorem lex_closingText : lex (closingText dialect) = dialect.closing.map Token.word := by
  cases dialect <;> decide

variable {table : Bytes} {fields : List Bytes} (htable : IsWord table) (hfields : ∀ field ∈ fields, IsWord field)
  (m : Nat)

include htable hfields

theorem lex_insertText
    : lex (insertText dialect table fields m)
        =
      dialect.opening.map Token.word ++ .word table :: .lparen :: .word (Bytes.ofAscii "YCSB_KEY")
        :: (fields.flatMap (fun field => [.comma, .word field]) ++ .rparen :: .word (Bytes.ofAscii "VALUES")
        :: (rowTokens dialect 1 fields.length ++ (moreRowTokens dialect (fields.length + 2) fields.length m
        ++ dialect.closing.map Token.word))) := by
  have hkey : lex (Bytes.ofAscii " (YCSB_KEY") = [.lparen, .word (Bytes.ofAscii "YCSB_KEY")] := by decide
  have hvalues : lex (Bytes.ofAscii ") VALUES ") = [.rparen, .word (Bytes.ofAscii "VALUES")] := by decide
  have hkeyHead (rest : Bytes) : ∀ c ∈ (Bytes.ofAscii " (YCSB_KEY" ++ rest).head?, isWordChar c = false :=
    head_not_word (by decide) _
  have hvaluesHead (rest : Bytes) : ∀ c ∈ (Bytes.ofAscii ") VALUES " ++ rest).head?, isWordChar c = false :=
    head_not_word (by decide) _
  have hcolumnsHead (rest : Bytes)
      : ∀ c ∈ (columnsText fields ++ (Bytes.ofAscii ") VALUES " ++ rest)).head?, isWordChar c = false := by
    cases fields with
    | nil => exact hvaluesHead rest
    | cons field fields => exact head?_columnsText (field :: fields)
  unfold insertText
  rw [lex_openingText, lex_append_of_head (hkeyHead _), lex_append_of_head (hcolumnsHead _),
    lex_append_of_head (hvaluesHead _), lex_append_of_last (by decide), lex_rowText, lex_moreRows, lex_closingText]
  rw [htable.lex_eq, hkey, lex_columnsText hfields, hvalues]
  simp

theorem items_insertText
    : items dialect 1 (lex (insertText dialect table fields m))
        =
      dialect.opening.map Item.word ++ .word table :: .symbol .lparen :: .word (Bytes.ofAscii "YCSB_KEY")
        :: (moreItems Item.word fields ++ .symbol .rparen :: .word (Bytes.ofAscii "VALUES")
        :: (rowItems 1 fields.length ++ (moreRowItems (1 + fields.length + 1) fields.length m
        ++ dialect.closing.map Item.word))) := by
  have hstart : fields.length + 2 = 1 + fields.length + 1 := by omega
  rw [lex_insertText dialect htable hfields m, hstart, items_words]
  simp only [items_word, items_lparen, items_names, items_rparen, items_rowTokens, items_moreRowTokens]
  rw [← List.append_nil (dialect.closing.map Token.word), items_words, items_nil, List.append_nil]

theorem read_insertText
    : readInsert dialect (insertText dialect table fields m)
        =
      some {
        table,
        columns := Bytes.ofAscii "YCSB_KEY" :: fields,
        rows := rowNumbers 1 fields.length (m + 1)
      } := by
  have hword : ∀ w, Item.word? (.word w) = some w := fun _ => rfl
  have hclosing : ∀ items, dialect.closing.map Item.word ≠ .symbol .comma :: items := by
    intro items
    cases dialect <;> exact nofun
  have hvalues (rest : List Item)
      : skipWords [Bytes.ofAscii "VALUES"] (.word (Bytes.ofAscii "VALUES") :: rest) = some rest :=
    skipWords_words [Bytes.ofAscii "VALUES"] rest
  unfold readInsert parseInsert
  rw [items_insertText dialect htable hfields m, skipWords_words]
  dsimp only [Option.bind_eq_bind, Option.bind_some]
  rw [parseList_eq hword]
  dsimp only [Option.bind_some]
  rw [hvalues]
  dsimp only [Option.bind_some]
  rw [parseRows_eq (lt_length_rows 1 fields.length m _) 1 fields.length hclosing]
  exact if_pos rfl

end

section

variable {t : UserTable} {fields : List Bytes}

theorem UserTable.Names.known (h : t.Names fields)
    : ∀ column ∈ Bytes.ofAscii "YCSB_KEY" :: fields, column ∈ t.table.primaryKey :: t.table.columns := by
  intro column hcolumn
  rw [List.mem_cons] at hcolumn ⊢
  exact hcolumn.imp_right (h.mem column)

theorem UserTable.Names.keyless (h : t.Names fields) : Bytes.ofAscii "YCSB_KEY" ∉ fields := by
  intro hmem
  exact t.keyless (h.mem _ hmem)

theorem UserTable.Names.nodup_cons (h : t.Names fields) : (Bytes.ofAscii "YCSB_KEY" :: fields).Nodup :=
  List.nodup_cons.mpr ⟨h.keyless, h.nodup⟩

theorem UserTable.Names.word (h : t.Names fields) : ∀ field ∈ fields, IsWord field :=
  fun field hfield => t.word_columns field (h.mem field hfield)

theorem columnsOf_eq_none {column : Bytes} (h : column ∉ fields) (values : List Bytes)
    : columnsOf fields values column = none := by
  unfold columnsOf
  rw [GoMap.lookup_insertAll_of_not_mem]
  . rfl
  . intro value hmem
    exact h (List.of_mem_zip hmem).1

theorem UserTable.Names.record_eq (h : t.Names fields) (key : Bytes) (values : List Bytes)
    : t.table.record (Bytes.ofAscii "YCSB_KEY" :: fields) (key :: values) = (key, columnsOf fields values) := by
  have hlookup (column : Bytes)
      : columnsOf (Bytes.ofAscii "YCSB_KEY" :: fields) (key :: values) column
        = if column = Bytes.ofAscii "YCSB_KEY" then some key else columnsOf fields values column := by
    unfold columnsOf
    rw [List.zip_cons_cons, GoMap.insertAll_cons, GoMap.lookup_insertAll_eq, GoMap.lookup_insert]
    split
    . next heq =>
      have hnone := columnsOf_eq_none h.keyless values
      unfold columnsOf at hnone
      rw [heq, hnone]
      rfl
    . simp
  unfold Table.record
  congr 1
  . rw [hlookup]
    rfl
  . funext column
    split
    . next heq =>
      rw [heq]
      exact (columnsOf_eq_none h.keyless values).symm
    . next heq =>
      rw [hlookup]
      exact if_neg heq

end

def bindRows (sizes : List Nat) (args : List Bytes) : List (List Bytes) :=
  match sizes with
  | [] => []
  | n :: sizes => args.take n :: bindRows sizes (args.drop n)

theorem map_rowNumbers (before : List Bytes) {k m : Nat} {args : List Bytes} (hlen : args.length = m * (k + 1))
    : (rowNumbers (before.length + 1) k m).map (fun row => row.map (argument (before ++ args)))
        =
      bindRows (List.replicate m (k + 1)) args := by
  induction m generalizing before args with
  | zero => rfl
  | succ m ih =>
    rw [Nat.succ_mul] at hlen
    have htake : (args.take (k + 1)).length = k + 1 := by
      rw [List.length_take]
      omega
    have hdrop : (args.drop (k + 1)).length = m * (k + 1) := by
      rw [List.length_drop]
      omega
    have hsplit : before ++ args = before ++ (args.take (k + 1) ++ args.drop (k + 1)) := by
      rw [List.take_append_drop]
    have hfirst := map_argument_range' hsplit
    have hrest := ih (before ++ args.take (k + 1)) hdrop
    rw [List.append_assoc, List.take_append_drop, List.length_append, htake, ← Nat.add_assoc] at hrest
    rw [htake] at hfirst
    have hstart : before.length + 1 + k + 1 = before.length + k + 1 + 1 := by omega
    rw [rowNumbers, List.map_cons, hfirst, hstart, hrest, List.replicate_succ, bindRows]

theorem length_of_mem_rowNumbers {n k m : Nat} {row : List Nat} (h : row ∈ rowNumbers n k m) : row.length = k + 1 := by
  induction m generalizing n with
  | zero => cases h
  | succ m ih =>
    rcases List.mem_cons.mp h with rfl | h
    . exact List.length_range'
    . exact ih h

theorem bound_range' {args : List Bytes} {n : Nat} : Bound (List.range' 1 n) args ↔ args.length = n := by
  have hzero : 0 ∉ List.range' 1 n := by
    intro hmem
    have hle := (List.mem_range'_1.mp hmem).1
    omega
  have hmax := foldl_max_range' 0 n
  rw [Nat.zero_add] at hmax
  unfold Bound
  rw [hmax, Nat.zero_add]
  exact and_iff_right hzero

section

variable {dialect : Dialect} {t : UserTable} (server : Server dialect t.table) {fields : List Bytes}

theorem handle_insertText (h : t.Names fields) {m : Nat} {args : List Bytes}
    (hlen : args.length = (m + 1) * (fields.length + 1)) (hmax : args.length ≤ server.maxParams)
    (hfits : ∀ group ∈ bindRows (List.replicate (m + 1) (fields.length + 1)) args,
      ∀ entry ∈ (Bytes.ofAscii "YCSB_KEY" :: fields).zip group, server.Fits entry.1 entry.2) (s : server.State)
    : ∃ s',
        server.handle ⟨insertText dialect t.name fields m, args⟩ s = (.ok (), s')
          ∧
        server.view s'
          =
        (server.view s).addAll ((bindRows (List.replicate (m + 1) (fields.length + 1)) args).map
          (t.table.record (Bytes.ofAscii "YCSB_KEY" :: fields))) := by
  have hread := read_insertText dialect t.word_name h.word m
  have hbind := map_rowNumbers [] hlen
  rw [List.nil_append, List.length_nil, Nat.zero_add] at hbind
  rw [← hbind] at hfits ⊢
  refine server.insert s hread ⟨rfl, h.known, h.nodup_cons, List.mem_cons_self, ?_⟩ ?_ hmax hfits
  . intro row hrow
    rw [length_of_mem_rowNumbers hrow, List.length_cons]
  . dsimp only
    rw [flatten_rowNumbers, bound_range']
    exact hlen

theorem handle_insertText_error (h : t.Names fields) {m : Nat} {args : List Bytes}
    (hlen : args.length ≠ (m + 1) * (fields.length + 1)) (s : server.State)
    : ∃ err, server.handle ⟨insertText dialect t.name fields m, args⟩ s = (.error err, s) := by
  apply server.unbound s (read_insertText dialect t.word_name h.word m)
  dsimp only
  rw [flatten_rowNumbers, bound_range']
  exact hlen

theorem argument_concat {values : List Bytes} {n : Nat} (h : values.length = n) (key : Bytes)
    : argument (values ++ [key]) (n + 1) = key := by
  simp [argument, ← h]

theorem handle_updateText {equals : Bytes} (hequals : IsEquals equals) {field : Bytes}
    (h : t.Names (field :: fields)) {values : List Bytes} (hlength : values.length = fields.length + 1) {key : Bytes}
    (hmax : fields.length + 2 ≤ server.maxParams) (hkey : server.Fits (Bytes.ofAscii "YCSB_KEY") key)
    (hfits : ∀ entry ∈ (field :: fields).zip values, server.Fits entry.1 entry.2) (s : server.State)
    : ∃ s',
        server.handle ⟨updateText dialect equals t.name field fields, values ++ [key]⟩ s = (.ok (), s')
          ∧
        server.view s' = (server.view s).set key (columnsOf (field :: fields) values) := by
  have hread := read_updateText dialect hequals t.word_name h.word
  have hargument : argument (values ++ [key]) (fields.length + 2) = key := argument_concat hlength key
  have hrange := map_argument_range' (show values ++ [key] = [] ++ (values ++ [key]) from rfl)
  rw [List.length_nil, hlength] at hrange
  have hsets : (numberFrom 1 (field :: fields)).map (fun set => (set.1, argument (values ++ [key]) set.2))
      = (field :: fields).zip values := by
    rw [map_numberFrom, List.length_cons, hrange]
  have hvalues : (numberFrom 1 (field :: fields)).map (fun set => argument (values ++ [key]) set.2) = values := by
    have hsnd := congrArg (List.map Prod.snd) hsets
    rw [List.map_map, List.map_snd_zip (by rw [hlength, List.length_cons])] at hsnd
    exact hsnd
  have hconcat : List.range' 1 (fields.length + 2)
      = List.range' 1 (fields.length + 1) ++ [1 + 1 * (fields.length + 1)] :=
    List.range'_concat
  rw [Nat.one_mul, Nat.add_comm 1] at hconcat
  let stmt : Update := ⟨t.name, numberFrom 1 (field :: fields), Bytes.ofAscii "YCSB_KEY", fields.length + 2⟩
  have hlegal : stmt.Legal t.table := by
    refine ⟨rfl, ?_, ?_, rfl⟩
    . intro set hset
      apply h.mem
      rw [← map_fst_numberFrom 1 (field :: fields)]
      exact List.mem_map_of_mem hset
    . rw [map_fst_numberFrom]
      exact h.nodup
  have hlen : (values ++ [key]).length = fields.length + 2 := by
    rw [List.length_append, hlength, List.length_singleton]
  have hbound : Bound stmt.params (values ++ [key]) := by
    unfold Update.params
    rw [map_snd_numberFrom, List.length_cons, ← hconcat, bound_range']
    exact hlen
  have hsetFits : ∀ set ∈ stmt.sets, server.Fits set.1 (argument (values ++ [key]) set.2) := by
    intro set hset
    apply hfits (set.1, argument (values ++ [key]) set.2)
    rw [← hsets]
    exact List.mem_map_of_mem hset
  rw [← hargument] at hkey
  rw [← hlen] at hmax
  rcases server.update s hread hlegal hbound hmax hsetFits hkey with ⟨s', hhandle, hview⟩
  refine ⟨s', hhandle, ?_⟩
  unfold Update.values at hview
  rw [hvalues, map_fst_numberFrom, hargument] at hview
  exact hview

end

def fieldsOf (values : GoMap Bytes Bytes) : List Bytes := (Util.newFieldPairs .id values).map Util.FieldPair.field

def valuesOf (values : GoMap Bytes Bytes) : List Bytes := (Util.newFieldPairs .id values).map Util.FieldPair.value

def UserTable.Over (t : UserTable) (values : GoMap Bytes Bytes) : Prop := ∀ field ∈ values, field ∈ t.columns

/--
The columns hold the keys and the values as they are, and one statement may have all of them as its arguments.
-/
structure Holds {dialect : Dialect} {t : UserTable} (server : Server dialect t.table)
    (records : List (Bytes × GoMap Bytes Bytes)) : Prop where
  key : ∀ rec ∈ records, server.Fits (Bytes.ofAscii "YCSB_KEY") rec.1
  value : ∀ rec ∈ records, ∀ field value, rec.2.lookup field = some value → server.Fits field value
  params : (records.map (fun rec => rec.2.keys.length + 1)).sum ≤ server.maxParams

section

variable {values : GoMap Bytes Bytes}

theorem columnsOf_self (values : GoMap Bytes Bytes)
    : columnsOf (fieldsOf values) (valuesOf values) = fun column => values.lookup column := by
  funext column
  exact Util.lookup_insertAll_newFieldPairs .id values column

theorem mem_fieldsOf {field : Bytes} : field ∈ fieldsOf values ↔ field ∈ values := Util.mem_fields

theorem length_fieldsOf (values : GoMap Bytes Bytes) : (fieldsOf values).length = values.keys.length := by
  rw [fieldsOf, List.length_map, Util.length_newFieldPairs]

theorem length_valuesOf (values : GoMap Bytes Bytes) : (valuesOf values).length = values.keys.length := by
  rw [valuesOf, List.length_map, Util.length_newFieldPairs]

theorem lookup_of_mem_zip {entry : Bytes × Bytes} (h : entry ∈ (fieldsOf values).zip (valuesOf values))
    : values.lookup entry.1 = some entry.2 := by
  unfold fieldsOf valuesOf at h
  rw [List.zip_map', List.mem_map] at h
  rcases h with ⟨pair, hpair, rfl⟩
  exact Util.mem_newFieldPairs.mp hpair

theorem UserTable.Over.names {t : UserTable} (h : t.Over values) : t.Names (fieldsOf values) where
  mem := by
    intro field hfield
    exact h field (mem_fieldsOf.mp hfield)
  nodup := Util.nodup_fields .id values

theorem exists_fieldsOf (hne : values.keys ≠ [])
    : ∃ p pairs,
        (∀ order, Util.newFieldPairs order values = p :: pairs)
          ∧
        p.field :: pairs.map Util.FieldPair.field = fieldsOf values
          ∧
        p.value :: pairs.map Util.FieldPair.value = valuesOf values := by
  have hcons : ∃ p pairs, Util.newFieldPairs .id values = p :: pairs := by
    apply List.exists_cons_of_ne_nil
    intro hnil
    have hlength := Util.length_newFieldPairs .id values
    rw [hnil, List.length_nil] at hlength
    exact hne (List.length_eq_zero_iff.mp hlength.symm)
  rcases hcons with ⟨p, pairs, hpairs⟩
  refine ⟨p, pairs, ?_, ?_, ?_⟩
  . intro order
    rw [Util.newFieldPairs_eq order .id, hpairs]
  . rw [fieldsOf, hpairs, List.map_cons]
  . rw [valuesOf, hpairs, List.map_cons]

end

section

variable {dialect : Dialect} {t : UserTable} {server : Server dialect t.table} {key : Bytes}
  {values : GoMap Bytes Bytes}

theorem Holds.single {records : List (Bytes × GoMap Bytes Bytes)} (h : Holds server records)
    {rec : Bytes × GoMap Bytes Bytes} (hrec : rec ∈ records)
    : Holds server [rec] where
  key := by
    rw [List.forall_mem_singleton]
    exact h.key rec hrec
  value := by
    rw [List.forall_mem_singleton]
    exact h.value rec hrec
  params := by
    have hle : rec.2.keys.length + 1 ≤ (records.map (fun rec => rec.2.keys.length + 1)).sum :=
      List.le_sum_of_mem (List.mem_map_of_mem hrec)
    rw [List.map_singleton, List.sum_singleton]
    exact hle.trans h.params

theorem Holds.insert_record (h : t.Over values) (hholds : Holds server [(key, values)]) (s : server.State)
    : ∃ s',
        server.handle ⟨insertText dialect t.name (fieldsOf values) 0, key :: valuesOf values⟩ s = (.ok (), s')
          ∧
        server.view s' = (server.view s).add key (fun column => values.lookup column) := by
  have hlen : (key :: valuesOf values).length = (0 + 1) * ((fieldsOf values).length + 1) := by
    rw [List.length_cons, length_valuesOf, length_fieldsOf, Nat.zero_add, Nat.one_mul]
  have hbind : bindRows (List.replicate (0 + 1) ((fieldsOf values).length + 1)) (key :: valuesOf values)
      = [key :: valuesOf values] := by
    rw [List.replicate_one, bindRows, List.take_of_length_le (by rw [hlen, Nat.zero_add, Nat.one_mul])]
    rfl
  have hmax : (key :: valuesOf values).length ≤ server.maxParams := by
    have hparams := hholds.params
    rw [List.map_singleton, List.sum_singleton] at hparams
    rw [List.length_cons, length_valuesOf]
    exact hparams
  have hinsert := handle_insertText server h.names hlen hmax
  rw [hbind, List.map_singleton, h.names.record_eq, columnsOf_self] at hinsert
  apply hinsert
  rw [List.forall_mem_singleton, List.zip_cons_cons, List.forall_mem_cons]
  refine ⟨hholds.key _ List.mem_cons_self, ?_⟩
  intro entry hentry
  exact hholds.value _ List.mem_cons_self _ _ (lookup_of_mem_zip hentry)

theorem Holds.update_record (h : t.Over values) (hholds : Holds server [(key, values)]) {equals : Bytes}
    (hequals : IsEquals equals) {p : Util.FieldPair} {pairs : List Util.FieldPair}
    (hfields : p.field :: pairs.map Util.FieldPair.field = fieldsOf values)
    (hvalues : p.value :: pairs.map Util.FieldPair.value = valuesOf values) (s : server.State)
    : ∃ s',
        server.handle ⟨updateText dialect equals t.name p.field (pairs.map Util.FieldPair.field),
          valuesOf values ++ [key]⟩ s = (.ok (), s')
          ∧
        server.view s' = (server.view s).set key (fun column => values.lookup column) := by
  have hlength : (valuesOf values).length = (pairs.map Util.FieldPair.field).length + 1 := by
    rw [← hvalues, List.length_cons, List.length_map, List.length_map]
  have hnames := h.names
  rw [← hfields] at hnames
  rw [← columnsOf_self, ← hfields]
  apply handle_updateText server hequals hnames hlength
  . have hparams := hholds.params
    rw [List.map_singleton, List.sum_singleton, ← length_valuesOf] at hparams
    dsimp only at hparams
    omega
  . exact hholds.key _ List.mem_cons_self
  . intro entry hentry
    rw [hfields] at hentry
    exact hholds.value _ List.mem_cons_self _ _ (lookup_of_mem_zip hentry)

end

section

variable (dialect : Dialect)

theorem filterMap_moreSetItems (n : Nat) (fields : List Bytes)
    : (moreSetItems n fields).filterMap Item.param? = List.range' n fields.length := by
  induction fields generalizing n with
  | nil => rfl
  | cons field fields ih =>
    rw [List.length_cons, List.range'_succ, ← ih]
    rfl

theorem params_updateText {equals : Bytes} (hequals : IsEquals equals) {table field : Bytes} {fields : List Bytes}
    (htable : IsWord table) (hfields : ∀ w ∈ field :: fields, IsWord w)
    : params dialect (updateText dialect equals table field fields) = List.range' 1 (fields.length + 2) := by
  unfold params
  rw [items_updateText dialect hequals htable hfields]
  have hrest : (moreSetItems 2 fields ++ [Item.word (Bytes.ofAscii "WHERE"), Item.word (Bytes.ofAscii "YCSB_KEY"),
      Item.symbol (.other 61), Item.param (fields.length + 2)]).filterMap Item.param?
        = List.range' 2 fields.length ++ [fields.length + 2] := by
    rw [List.filterMap_append, filterMap_moreSetItems]
    rfl
  have hrange : 1 :: (List.range' 2 fields.length ++ [fields.length + 2]) = List.range' 1 (fields.length + 2) := by
    rw [List.range'_succ, List.range'_concat, Nat.one_mul, Nat.add_comm fields.length]
  exact (congrArg (List.cons 1) hrest).trans hrange

theorem filterMap_words (words : List Bytes) : (words.map Item.word).filterMap Item.param? = [] := by
  rw [List.filterMap_map]
  exact List.filterMap_none _

theorem filterMap_moreWords (words : List Bytes) : (moreItems Item.word words).filterMap Item.param? = [] := by
  induction words with
  | nil => rfl
  | cons w words ih => exact ih

theorem filterMap_moreParams (numbers : List Nat) : (moreItems Item.param numbers).filterMap Item.param? = numbers := by
  induction numbers with
  | nil => rfl
  | cons n numbers ih => exact congrArg (List.cons n) ih

theorem params_insertText {table : Bytes} {fields : List Bytes} (htable : IsWord table)
    (hfields : ∀ field ∈ fields, IsWord field)
    : params dialect (insertText dialect table fields 0) = List.range' 1 (fields.length + 1) := by
  unfold params
  rw [items_insertText dialect htable hfields 0]
  simp only [rowItems, moreRowItems, List.filterMap_append, List.filterMap_cons, filterMap_words, filterMap_moreWords,
    filterMap_moreParams, Item.param?, List.nil_append, List.append_nil, List.filterMap_nil, List.cons_append]
  rw [← List.range'_succ]

end

end Statement
