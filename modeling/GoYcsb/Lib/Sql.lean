import GoYcsb.Lib.Decimal

/-!
This module contains the statements that insert rows into a table and update a row of it: how the text of a statement is
taken apart, and how its placeholders are numbered. A `?` has the number of its place, a `$n` the number it says.
-/

namespace Sql

inductive Token where
  | word (w : Bytes)
  | lparen
  | rparen
  | comma
  | placeholder
  | other (c : UInt8)
  deriving DecidableEq, Repr

def isWordChar (c : UInt8) : Bool := 48 ≤ c && c ≤ 57 || 65 ≤ c && c ≤ 90 || 97 ≤ c && c ≤ 122 || c = 95

def flush (word : Bytes) : List Token := if word = [] then [] else [.word word]

def symbol (c : UInt8) : List Token :=
  if c = 32 then
    []
  else if c = 40 then
    [.lparen]
  else if c = 41 then
    [.rparen]
  else if c = 44 then
    [.comma]
  else if c = 63 then
    [.placeholder]
  else
    [.other c]

def lexFrom (word text : Bytes) : List Token :=
  match text with
  | [] => flush word
  | c :: text =>
    if isWordChar c then
      lexFrom (word ++ [c]) text
    else
      flush word ++ symbol c ++ lexFrom [] text

def lex (text : Bytes) : List Token := lexFrom [] text

inductive Dialect where
  | questionMarks
  | numbered
  deriving DecidableEq, Repr

inductive Item where
  | word (w : Bytes)
  | param (n : Nat)
  | symbol (token : Token)
  deriving DecidableEq, Repr

def isNumber (w : Bytes) : Bool := w.all (fun c => 48 ≤ c && c ≤ 57)

def items (dialect : Dialect) (next : Nat) (tokens : List Token) : List Item :=
  match tokens with
  | [] => []
  | .placeholder :: rest =>
    if dialect = .questionMarks then
      .param next :: items dialect (next + 1) rest
    else
      .symbol .placeholder :: items dialect next rest
  | .other c :: .word w :: rest =>
    if dialect = .numbered ∧ c = 36 ∧ isNumber w then
      .param (Bytes.value w) :: items dialect (next + 1) rest
    else
      .symbol (.other c) :: .word w :: items dialect next rest
  | .word w :: rest => .word w :: items dialect next rest
  | token :: rest => .symbol token :: items dialect next rest

def Item.param? (item : Item) : Option Nat :=
  match item with
  | .param n => some n
  | .word _ => none
  | .symbol _ => none

def params (dialect : Dialect) (query : Bytes) : List Nat := (items dialect 1 (lex query)).filterMap Item.param?

structure Update where
  table : Bytes
  sets : List (Bytes × Nat)
  column : Bytes
  param : Nat
  deriving DecidableEq, Repr

def parseSets (items : List Item) : Option (List (Bytes × Nat) × List Item) :=
  match items with
  | .word w :: .symbol (.other 61) :: .param n :: .symbol .comma :: rest =>
    (parseSets rest).map (fun parsed => ((w, n) :: parsed.1, parsed.2))
  | .word w :: .symbol (.other 61) :: .param n :: rest => some ([(w, n)], rest)
  | _ => none

def parseUpdate (items : List Item) : Option Update :=
  match items with
  | .word update :: .word table :: .word set :: rest =>
    if update = Bytes.ofAscii "UPDATE" ∧ set = Bytes.ofAscii "SET" then
      match parseSets rest with
      | some (sets, [.word clause, .word column, .symbol (.other 61), .param param]) =>
        if clause = Bytes.ofAscii "WHERE" then some { table, sets, column, param } else none
      | _ => none
    else
      none
  | _ => none

structure Insert where
  table : Bytes
  columns : List Bytes
  -- the numbers of the placeholders in each row
  rows : List (List Nat)
  deriving DecidableEq, Repr

def Item.word? (item : Item) : Option Bytes :=
  match item with
  | .word w => some w
  | .param _ => none
  | .symbol _ => none

def parseList {α : Type} (entry : Item → Option α) (items : List Item) : Option (List α × List Item) :=
  match items with
  | item :: .symbol .comma :: rest => do
    let a ← entry item
    let (as, rest) ← parseList entry rest
    return (a :: as, rest)
  | item :: .symbol .rparen :: rest => do
    let a ← entry item
    return ([a], rest)
  | _ => none

def parseRows (fuel : Nat) (items : List Item) : Option (List (List Nat) × List Item) :=
  match fuel, items with
  | fuel + 1, .symbol .lparen :: rest => do
    let (row, rest) ← parseList Item.param? rest
    match rest with
    | .symbol .comma :: rest => do
      let (rows, rest) ← parseRows fuel rest
      return (row :: rows, rest)
    | rest => return ([row], rest)
  | _, _ => none

def skipWords (words : List Bytes) (items : List Item) : Option (List Item) :=
  match words, items with
  | [], items => some items
  | w :: words, .word w' :: items => if w' = w then skipWords words items else none
  | _ :: _, _ => none

def Dialect.opening (dialect : Dialect) : List Bytes :=
  match dialect with
  | .questionMarks => [Bytes.ofAscii "INSERT", Bytes.ofAscii "IGNORE", Bytes.ofAscii "INTO"]
  | .numbered => [Bytes.ofAscii "INSERT", Bytes.ofAscii "INTO"]

def Dialect.closing (dialect : Dialect) : List Bytes :=
  match dialect with
  | .questionMarks => []
  | .numbered => [Bytes.ofAscii "ON", Bytes.ofAscii "CONFLICT", Bytes.ofAscii "DO", Bytes.ofAscii "NOTHING"]

def parseInsert (dialect : Dialect) (items : List Item) : Option Insert := do
  match ← skipWords dialect.opening items with
  | .word table :: .symbol .lparen :: rest =>
    let (columns, rest) ← parseList Item.word? rest
    let rest ← skipWords [Bytes.ofAscii "VALUES"] rest
    let (rows, rest) ← parseRows rest.length rest
    if rest = dialect.closing.map Item.word then some { table, columns, rows } else none
  | _ => none

def readUpdate (dialect : Dialect) (query : Bytes) : Option Update := parseUpdate (items dialect 1 (lex query))

def readInsert (dialect : Dialect) (query : Bytes) : Option Insert := parseInsert dialect (items dialect 1 (lex query))

def argument (args : List Bytes) (n : Nat) : Bytes := args.getD (n - 1) []

structure IsWord (w : Bytes) : Prop where
  ne_nil : w ≠ []
  chars : ∀ c ∈ w, isWordChar c

section

variable {c : UInt8} {x y : Bytes}

theorem lex_cons (hc : isWordChar c = false) (y : Bytes) : lex (c :: y) = symbol c ++ lex y := by
  simp [lex, lexFrom, flush, hc]

theorem lexFrom_append (word : Bytes) (hc : isWordChar c = false) (x y : Bytes)
    : lexFrom word (x ++ c :: y) = lexFrom word x ++ lex (c :: y) := by
  induction x generalizing word with
  | nil =>
    simp [lexFrom, lex, flush, hc]
  | cons d x ih =>
    rw [List.cons_append, lexFrom, lexFrom]
    split
    . apply ih
    . rw [ih, ← List.append_assoc]

theorem lex_nil : lex [] = [] := rfl

theorem head_not_word (h : isWordChar c = false) (rest : Bytes)
    : ∀ d ∈ (c :: rest).head?, isWordChar d = false := by
  rintro d hd
  cases hd
  exact h

-- A text can be cut in front of a character that does not belong to a word.
theorem lex_append_of_head (hy : ∀ c ∈ y.head?, isWordChar c = false) : lex (x ++ y) = lex x ++ lex y := by
  cases y with
  | nil => rw [lex_nil, List.append_nil, List.append_nil]
  | cons c y => exact lexFrom_append [] (hy c rfl) x y

theorem lex_append_of_last (hx : x.getLast?.any isWordChar = false) : lex (x ++ y) = lex x ++ lex y := by
  cases hlast : x.getLast? with
  | none =>
    rw [List.getLast?_eq_none_iff.mp hlast]
    rfl
  | some c =>
    rcases List.getLast?_eq_some_iff.mp hlast with ⟨x, rfl⟩
    have hc : isWordChar c = false := by
      rw [hlast, Option.any_some] at hx
      exact hx
    have hcut (z : Bytes) : lex (x ++ c :: z) = lex x ++ (symbol c ++ lex z) := by
      rw [← lex_cons hc]
      exact lexFrom_append [] hc x z
    rw [List.append_assoc, List.singleton_append, hcut, hcut, lex_nil, List.append_nil, List.append_assoc]

theorem lexFrom_of_chars {w : Bytes} (word : Bytes) (hw : ∀ c ∈ w, isWordChar c)
    : lexFrom word w = flush (word ++ w) := by
  induction w generalizing word with
  | nil => rw [lexFrom, List.append_nil]
  | cons c w ih =>
    rw [List.forall_mem_cons] at hw
    rw [lexFrom, if_pos hw.1, ih (word ++ [c]) hw.2, List.append_assoc, List.singleton_append]

theorem IsWord.lex_eq {w : Bytes} (h : IsWord w) : lex w = [.word w] := by
  unfold lex
  rw [lexFrom_of_chars [] h.chars, List.nil_append, flush, if_neg h.ne_nil]

end

def paramTokens (dialect : Dialect) (n : Nat) : List Token :=
  match dialect with
  | .questionMarks => [.placeholder]
  | .numbered => [.other 36, .word (Bytes.decimal n)]

section

variable (dialect : Dialect) (next : Nat) (rest : List Token)

attribute [local simp] items

@[simp]
theorem items_nil : items dialect next [] = [] := by
  rw [items]

@[simp]
theorem items_word (w : Bytes) : items dialect next (.word w :: rest) = .word w :: items dialect next rest := by
  rw [items]

@[simp]
theorem items_comma : items dialect next (.comma :: rest) = .symbol .comma :: items dialect next rest := by
  simp

@[simp]
theorem items_lparen : items dialect next (.lparen :: rest) = .symbol .lparen :: items dialect next rest := by
  simp

@[simp]
theorem items_rparen : items dialect next (.rparen :: rest) = .symbol .rparen :: items dialect next rest := by
  simp

@[simp]
theorem items_equals (n : Nat)
    : items dialect next (.other 61 :: (paramTokens dialect n ++ rest))
        =
      .symbol (.other 61) :: items dialect next (paramTokens dialect n ++ rest) := by
  cases dialect with
  | questionMarks => simp [paramTokens]
  | numbered => simp [paramTokens]

theorem isNumber_decimal (n : Nat) : isNumber (Bytes.decimal n) := by
  unfold isNumber
  rw [List.all_eq_true]
  intro c hc
  have hdigit := Bytes.digit_of_mem_decimal hc
  simp [hdigit]

@[simp]
theorem items_paramTokens
    : items dialect next (paramTokens dialect next ++ rest) = .param next :: items dialect (next + 1) rest := by
  cases dialect with
  | questionMarks => simp [paramTokens]
  | numbered => simp [paramTokens, isNumber_decimal, Bytes.value_decimal]

end

def numberFrom (n : Nat) (fields : List Bytes) : List (Bytes × Nat) :=
  match fields with
  | [] => []
  | field :: fields => (field, n) :: numberFrom (n + 1) fields

theorem map_fst_numberFrom (n : Nat) (fields : List Bytes) : (numberFrom n fields).map Prod.fst = fields := by
  induction fields generalizing n with
  | nil => rfl
  | cons field fields ih => rw [numberFrom, List.map_cons, ih]

theorem map_snd_numberFrom (n : Nat) (fields : List Bytes)
    : (numberFrom n fields).map Prod.snd = List.range' n fields.length := by
  induction fields generalizing n with
  | nil => rfl
  | cons field fields ih => rw [numberFrom, List.map_cons, ih, List.length_cons, List.range'_succ]

theorem map_argument_range' {args before values after : List Bytes} (h : args = before ++ (values ++ after))
    : (List.range' (before.length + 1) values.length).map (argument args) = values := by
  subst h
  induction values generalizing before with
  | nil => rfl
  | cons value values ih =>
    have hrest := @ih (before ++ [value])
    rw [List.length_append, List.length_singleton, List.append_assoc] at hrest
    rw [List.length_cons, List.range'_succ, List.map_cons, List.cons_append]
    rw [List.singleton_append] at hrest
    rw [hrest]
    simp [argument]

theorem map_numberFrom (f : Nat → Bytes) (n : Nat) (fields : List Bytes)
    : (numberFrom n fields).map (fun set => (set.1, f set.2)) = fields.zip ((List.range' n fields.length).map f) := by
  induction fields generalizing n with
  | nil => rfl
  | cons field fields ih =>
    rw [numberFrom, List.map_cons, ih, List.length_cons, List.range'_succ, List.map_cons, List.zip_cons_cons]

theorem foldl_max_range' (n k : Nat) : (List.range' (n + 1) k).foldl max n = n + k := by
  induction k generalizing n with
  | zero => rfl
  | succ k ih =>
    rw [List.range'_succ, List.foldl_cons, Nat.max_eq_right (by omega), ih]
    omega

section

variable (dialect : Dialect)

def moreSetTokens (n : Nat) (fields : List Bytes) : List Token :=
  match fields with
  | [] => []
  | field :: fields => .comma :: .word field :: .other 61 :: (paramTokens dialect n ++ moreSetTokens (n + 1) fields)

def moreSetItems (n : Nat) (fields : List Bytes) : List Item :=
  match fields with
  | [] => []
  | field :: fields =>
    .symbol .comma :: .word field :: .symbol (.other 61) :: .param n :: moreSetItems (n + 1) fields

theorem items_moreSetTokens (n : Nat) (fields : List Bytes) (rest : List Token)
    : items dialect n (moreSetTokens dialect n fields ++ rest)
        =
      moreSetItems n fields ++ items dialect (n + fields.length) rest := by
  induction fields generalizing n with
  | nil => rfl
  | cons field fields ih =>
    simp only [moreSetTokens, moreSetItems, List.cons_append, List.append_assoc, items_comma, items_word,
      items_equals, items_paramTokens, ih, List.length_cons]
    rw [Nat.add_right_comm, Nat.add_assoc]

theorem parseSets_eq (field : Bytes) (n : Nat) (fields : List Bytes) (w : Bytes) (rest : List Item)
    : parseSets (.word field :: .symbol (.other 61) :: .param n :: (moreSetItems (n + 1) fields ++ .word w :: rest))
        =
      some (numberFrom n (field :: fields), .word w :: rest) := by
  induction fields generalizing field n with
  | nil => simp [moreSetItems, parseSets, numberFrom]
  | cons field' fields ih =>
    rw [moreSetItems]
    simp only [List.cons_append]
    rw [parseSets, ih]
    rfl

def moreParamTokens (n k : Nat) : List Token :=
  match k with
  | 0 => []
  | k + 1 => .comma :: (paramTokens dialect n ++ moreParamTokens (n + 1) k)

def rowTokens (n k : Nat) : List Token :=
  .lparen :: (paramTokens dialect n ++ (moreParamTokens dialect (n + 1) k ++ [.rparen]))

def moreRowTokens (n k m : Nat) : List Token :=
  match m with
  | 0 => []
  | m + 1 => .comma :: (rowTokens dialect n k ++ moreRowTokens (n + k + 1) k m)

def moreItems {α : Type} (item : α → Item) (as : List α) : List Item := as.flatMap (fun a => [.symbol .comma, item a])

def rowItems (n k : Nat) : List Item :=
  .symbol .lparen :: .param n :: (moreItems Item.param (List.range' (n + 1) k) ++ [.symbol .rparen])

def moreRowItems (n k m : Nat) : List Item :=
  match m with
  | 0 => []
  | m + 1 => .symbol .comma :: (rowItems n k ++ moreRowItems (n + k + 1) k m)

def rowNumbers (n k m : Nat) : List (List Nat) :=
  match m with
  | 0 => []
  | m + 1 => List.range' n (k + 1) :: rowNumbers (n + k + 1) k m

theorem items_names (n : Nat) (fields : List Bytes) (rest : List Token)
    : items dialect n (fields.flatMap (fun field => [.comma, .word field]) ++ rest)
        =
      moreItems Item.word fields ++ items dialect n rest := by
  induction fields with
  | nil => rfl
  | cons field fields ih =>
    simp only [moreItems, List.flatMap_cons, List.cons_append, List.nil_append, items_comma, items_word] at ih ⊢
    rw [ih]

theorem items_moreParamTokens (n k : Nat) (rest : List Token)
    : items dialect n (moreParamTokens dialect n k ++ rest)
        =
      moreItems Item.param (List.range' n k) ++ items dialect (n + k) rest := by
  induction k generalizing n with
  | zero => rfl
  | succ k ih =>
    simp only [moreParamTokens, moreItems, List.range'_succ, List.flatMap_cons, List.cons_append, List.nil_append,
      List.append_assoc, items_comma, items_paramTokens] at ih ⊢
    rw [ih, Nat.add_right_comm, Nat.add_assoc]

theorem items_rowTokens (n k : Nat) (rest : List Token)
    : items dialect n (rowTokens dialect n k ++ rest) = rowItems n k ++ items dialect (n + k + 1) rest := by
  simp only [rowTokens, rowItems, List.cons_append, List.append_assoc, List.nil_append, items_lparen,
    items_paramTokens, items_moreParamTokens, items_rparen]
  rw [Nat.add_right_comm]

theorem items_moreRowTokens (n k m : Nat) (rest : List Token)
    : items dialect n (moreRowTokens dialect n k m ++ rest)
        =
      moreRowItems n k m ++ items dialect (n + m * (k + 1)) rest := by
  induction m generalizing n with
  | zero =>
    rw [Nat.zero_mul]
    rfl
  | succ m ih =>
    simp only [moreRowTokens, moreRowItems, List.cons_append, List.append_assoc, items_comma, items_rowTokens, ih]
    rw [Nat.succ_mul, Nat.add_assoc n k, Nat.add_assoc n, Nat.add_comm (k + 1)]

end

theorem items_words (dialect : Dialect) (n : Nat) (words : List Bytes) (rest : List Token)
    : items dialect n (words.map Token.word ++ rest) = words.map Item.word ++ items dialect n rest := by
  induction words with
  | nil => rfl
  | cons w words ih => rw [List.map_cons, List.cons_append, items_word, ih, List.map_cons, List.cons_append]

theorem skipWords_words (words : List Bytes) (rest : List Item)
    : skipWords words (words.map Item.word ++ rest) = some rest := by
  induction words with
  | nil => rfl
  | cons w words ih =>
    rw [List.map_cons, List.cons_append, skipWords, if_pos rfl]
    exact ih

theorem parseList_eq {α : Type} {entry : Item → Option α} {item : α → Item} (h : ∀ a, entry (item a) = some a) (a : α)
    (as : List α) (rest : List Item)
    : parseList entry (item a :: (moreItems item as ++ .symbol .rparen :: rest)) = some (a :: as, rest) := by
  induction as generalizing a with
  | nil => simp [moreItems, parseList, h]
  | cons a' as ih =>
    have hcons : moreItems item (a' :: as) = .symbol .comma :: item a' :: moreItems item as := rfl
    rw [hcons]
    simp only [List.cons_append]
    rw [parseList, h, ih]
    rfl

theorem parseRow_eq (n k : Nat) (rest : List Item)
    : parseList Item.param? (.param n :: (moreItems Item.param (List.range' (n + 1) k) ++ .symbol .rparen :: rest))
        =
      some (List.range' n (k + 1), rest) := by
  have hparam : ∀ n, Item.param? (.param n) = some n := fun _ => rfl
  rw [parseList_eq hparam, ← List.range'_succ]

theorem parseRows_eq {fuel m : Nat} (hfuel : m < fuel) (n k : Nat) {rest : List Item}
    (hrest : ∀ items, rest ≠ .symbol .comma :: items)
    : parseRows fuel (rowItems n k ++ (moreRowItems (n + k + 1) k m ++ rest))
        =
      some (rowNumbers n k (m + 1), rest) := by
  induction m generalizing fuel n with
  | zero =>
    cases fuel with
    | zero => omega
    | succ fuel =>
      simp only [rowItems, moreRowItems, List.cons_append, List.append_assoc, List.nil_append]
      rw [parseRows, parseRow_eq]
      dsimp only [Option.bind_eq_bind, Option.bind_some]
      split
      . next items => exact absurd rfl (hrest items)
      . rfl
  | succ m ih =>
    cases fuel with
    | zero => omega
    | succ fuel =>
      have hrows := ih (show m < fuel by omega) (n + k + 1)
      simp only [rowItems, moreRowItems, List.cons_append, List.append_assoc, List.nil_append] at hrows ⊢
      rw [parseRows, parseRow_eq]
      dsimp only [Option.bind_eq_bind, Option.bind_some]
      rw [hrows]
      rfl

theorem lt_length_rows (n k m : Nat) (rest : List Item)
    : m < (rowItems n k ++ (moreRowItems (n + k + 1) k m ++ rest)).length := by
  have hmore : ∀ n, m ≤ (moreRowItems n k m).length := by
    induction m with
    | zero => exact fun _ => Nat.zero_le _
    | succ m ih =>
      intro n
      have hle := ih (n + k + 1)
      rw [moreRowItems, List.length_cons, List.length_append]
      omega
  have hle := hmore (n + k + 1)
  rw [List.length_append, List.length_append, rowItems, List.length_cons]
  omega

theorem flatten_rowNumbers (n k m : Nat) : (rowNumbers n k m).flatten = List.range' n (m * (k + 1)) := by
  induction m generalizing n with
  | zero => simp [rowNumbers]
  | succ m ih =>
    have happend := List.range'_append_1 (s := n) (m := k + 1) (n := m * (k + 1))
    rw [rowNumbers, List.flatten_cons, ih, Nat.succ_mul, Nat.add_comm (m * (k + 1)), ← happend]
    rfl

end Sql
