import GoYcsb.Tool.Impl.Report
import Mathlib.Data.List.Sort

/-!
This module contains the verification of `reportDBStats`: what the file of a workload holds afterwards, and when that
is a table.
-/

namespace Report

variable {F : Type}

section Text

def headerField (field : Bytes) : Bytes :=
  Bytes.ofAscii "," ++ field ++ Bytes.ofAscii " OPS," ++ field ++ Bytes.ofAscii " P99(us)"

def headerText (fields : List Bytes) : Bytes := Bytes.ofAscii "DB" ++ fields.flatMap headerField

def fieldText (S : Strconv F) (stat : DBStat F) (field : Bytes) : Bytes :=
  match stat.summary.lookup field with
  | none => Bytes.ofAscii ",0.0"
  | some s => Bytes.ofAscii "," ++ S.formatFloat s.OPS ++ Bytes.ofAscii "," ++ S.formatFloat s.P99

def statText (S : Strconv F) (fields : List Bytes) (stat : DBStat F) : Bytes :=
  stat.db ++ fields.flatMap (fieldText S stat)

def summaryText (S : Strconv F) (fields : List Bytes) (stats : List (DBStat F)) : Bytes :=
  Bufio.unlines (headerText fields :: stats.map (statText S fields))

variable {before written : Bytes} {file : File}

theorem overwritten_header (fields : List Bytes)
    : File.Overwritten before (headerText fields ++ [10]) (writeHeader fields ⟨before, 0⟩) := by
  have hstart := (File.overwritten_nil before).write (Bytes.ofAscii "DB")
  have hfields := hstart.foldl headerField
    (fun file field => file.write
      (Bytes.ofAscii "," ++ field ++ Bytes.ofAscii " OPS," ++ field ++ Bytes.ofAscii " P99(us)"))
    fields (fun written file field h => h.write _)
  exact hfields.write [10]

theorem overwritten_field (S : Strconv F) (stat : DBStat F) (field : Bytes)
    (h : File.Overwritten before written file)
    : File.Overwritten before (written ++ fieldText S stat field) (writeField S stat file field) := by
  unfold fieldText writeField
  cases stat.summary.lookup field with
  | none => exact h.write _
  | some s => exact h.write _

theorem overwritten_stat (S : Strconv F) (fields : List Bytes) (stat : DBStat F)
    (h : File.Overwritten before written file)
    : File.Overwritten before (written ++ (statText S fields stat ++ [10])) (writeStat S fields file stat) := by
  have hfields := (h.write stat.db).foldl (fieldText S stat) (writeField S stat) fields
    (fun written file field h => overwritten_field S stat field h)
  have hstat := hfields.write [10]
  rw [List.append_assoc written, List.append_assoc written] at hstat
  exact hstat

theorem reportDBStats_eq (S : Strconv F) (sorting : Sorting F) (workload : Bytes) (stats : List (DBStat F))
    (before : Bytes)
    : reportDBStats S sorting workload stats (.ok before)
        =
      .ok (summaryText S (fields workload) (sorting.sort stats)
        ++ before.drop (summaryText S (fields workload) (sorting.sort stats)).length) := by
  have hstats := (@overwritten_header before (fields workload)).foldl
    (fun stat => statText S (fields workload) stat ++ [10]) (writeStat S (fields workload)) (sorting.sort stats)
    (fun written file stat h => overwritten_stat S (fields workload) stat h)
  have htext : summaryText S (fields workload) (sorting.sort stats)
      = headerText (fields workload) ++ [10]
        ++ (sorting.sort stats).flatMap (fun stat => statText S (fields workload) stat ++ [10]) := by
    unfold summaryText Bufio.unlines
    rw [List.flatMap_cons, List.flatMap_map]
  rw [← htext] at hstats
  exact congrArg Except.ok hstats.content

end Text

section Count

theorem fields_subset (workload : Bytes) : ∀ field ∈ fields workload, field ∈ operations := by
  unfold fields
  repeat' split
  all_goals decide

theorem operations_plain : ∀ op ∈ operations, 44 ∉ op ∧ 10 ∉ op := by decide

theorem count_comma_field {workload field : Bytes} (h : field ∈ fields workload) : field.count 44 = 0 :=
  List.count_eq_zero_of_not_mem (operations_plain field (fields_subset workload field h)).1

theorem count_newline_field {workload field : Bytes} (h : field ∈ fields workload) : field.count 10 = 0 :=
  List.count_eq_zero_of_not_mem (operations_plain field (fields_subset workload field h)).2

theorem count_formatFloat (S : Strconv F) (x : F) {c : UInt8} (hc : ¬ Strconv.OfNumber c)
    : (S.formatFloat x).count c = 0 := by
  apply List.count_eq_zero_of_not_mem
  intro hmem
  exact hc (S.mem_formatFloat x c hmem)

theorem count_flatMap_const {text : Bytes → Bytes} {l : List Bytes} {c : UInt8} {n : Nat}
    (h : ∀ field ∈ l, (text field).count c = n)
    : (l.flatMap text).count c = l.length * n := by
  have hsum : l.map (List.count c ∘ text) = l.map (fun _ => n) := List.map_congr_left h
  rw [List.count_flatMap, hsum, List.map_const', List.sum_replicate_nat]

theorem count_comma_header (workload : Bytes)
    : (headerText (fields workload)).count 44 = 2 * (fields workload).length := by
  have hfield : ∀ field ∈ fields workload, (headerField field).count 44 = 2 := by
    intro field hfield
    unfold headerField
    simp only [List.count_append, count_comma_field hfield]
    rfl
  unfold headerText
  rw [List.count_append, count_flatMap_const hfield, Nat.mul_comm]
  exact Nat.zero_add _

theorem count_newline_header (workload : Bytes) : (headerText (fields workload)).count 10 = 0 := by
  have hfield : ∀ field ∈ fields workload, (headerField field).count 10 = 0 := by
    intro field hfield
    unfold headerField
    simp only [List.count_append, count_newline_field hfield]
    rfl
  unfold headerText
  rw [List.count_append, count_flatMap_const hfield]
  rfl

def missing (fields : List Bytes) (stat : DBStat F) : Nat :=
  fields.countP (fun field => (stat.summary.lookup field).isNone)

theorem count_comma_stat (S : Strconv F) (fields : List Bytes) (stat : DBStat F)
    : (statText S fields stat).count 44 + missing fields stat = stat.db.count 44 + 2 * fields.length := by
  have hnumber : ¬ Strconv.OfNumber 44 := by decide
  unfold statText missing
  rw [List.count_append]
  induction fields with
  | nil => rfl
  | cons field fields ih =>
    have hcount : (fieldText S stat field).count 44 + (if (stat.summary.lookup field).isNone then 1 else 0) = 2 := by
      unfold fieldText
      cases stat.summary.lookup field with
      | none => rfl
      | some s =>
        simp only [List.count_append, count_formatFloat S _ hnumber]
        rfl
    rw [List.flatMap_cons, List.count_append, List.countP_cons, List.length_cons]
    omega

theorem count_newline_stat (S : Strconv F) (fields : List Bytes) (stat : DBStat F)
    : (statText S fields stat).count 10 = stat.db.count 10 := by
  have hnumber : ¬ Strconv.OfNumber 10 := by decide
  have hfield : ∀ field ∈ fields, (fieldText S stat field).count 10 = 0 := by
    intro field _
    unfold fieldText
    cases stat.summary.lookup field with
    | none => rfl
    | some s =>
      simp only [List.count_append, count_formatFloat S _ hnumber]
      rfl
  unfold statText
  rw [List.count_append, count_flatMap_const hfield]
  rfl

def cellSize (S : Strconv F) (stat : DBStat F) (field : Bytes) : Nat :=
  match stat.summary.lookup field with
  | none => 4
  | some s => 2 + (S.formatFloat s.OPS).length + (S.formatFloat s.P99).length

def rowSize (S : Strconv F) (fields : List Bytes) (stat : DBStat F) : Nat :=
  stat.db.length + (fields.map (cellSize S stat)).sum + 1

def headerSize (fields : List Bytes) : Nat := 3 + (fields.map (fun field => 2 * field.length + 14)).sum

def summarySize (S : Strconv F) (fields : List Bytes) (stats : List (DBStat F)) : Nat :=
  headerSize fields + (stats.map (rowSize S fields)).sum

theorem length_headerText (fields : List Bytes) : (headerText fields).length + 1 = headerSize fields := by
  have hfield : ∀ field, (headerField field).length = 2 * field.length + 14 := by
    intro field
    unfold headerField
    simp only [List.length_append]
    have hcomma : (Bytes.ofAscii ",").length = 1 := rfl
    have hops : (Bytes.ofAscii " OPS,").length = 5 := rfl
    have hp99 : (Bytes.ofAscii " P99(us)").length = 8 := rfl
    omega
  unfold headerText headerSize
  rw [List.length_append, List.length_flatMap, List.map_congr_left (fun field _ => hfield field)]
  have hdb : (Bytes.ofAscii "DB").length = 2 := rfl
  omega

theorem length_statText (S : Strconv F) (fields : List Bytes) (stat : DBStat F)
    : (statText S fields stat).length + 1 = rowSize S fields stat := by
  have hfield : ∀ field, (fieldText S stat field).length = cellSize S stat field := by
    intro field
    unfold fieldText cellSize
    cases stat.summary.lookup field with
    | none => rfl
    | some s =>
      simp only [List.length_append]
      have hcomma : (Bytes.ofAscii ",").length = 1 := rfl
      omega
  unfold statText rowSize
  rw [List.length_append, List.length_flatMap, List.map_congr_left (fun field _ => hfield field)]

theorem length_summaryText (S : Strconv F) (fields : List Bytes) (stats : List (DBStat F))
    : (summaryText S fields stats).length = summarySize S fields stats := by
  have hrows : (stats.map (fun stat => (statText S fields stat ++ [10]).length)).sum
      = (stats.map (rowSize S fields)).sum := by
    congr 1
    apply List.map_congr_left
    intro stat _
    rw [List.length_append]
    exact length_statText S fields stat
  unfold summaryText summarySize Bufio.unlines
  rw [List.flatMap_cons, List.flatMap_map, List.length_append, List.length_append, List.length_flatMap, hrows]
  rw [← length_headerText]
  rfl

theorem summarySize_perm (S : Strconv F) (fields : List Bytes) {stats stats' : List (DBStat F)}
    (h : stats.Perm stats')
    : summarySize S fields stats = summarySize S fields stats' := by
  unfold summarySize
  rw [(h.map _).sum_nat]

end Count

section Table

def columns (line : Bytes) : Nat := (Strings.split 44 line).length

def IsRowOf (db row : Bytes) : Prop := row = db ∨ (db ++ [44]) <+: row

/--
The file is the header and one line for each database in the order of the names, with the columns of the header.
-/
def IsTable (workload : Bytes) (stats : List (DBStat F)) (content : Bytes) : Prop :=
  ∃ (order : List (DBStat F)) (rows : List Bytes),
    order.Perm stats
      ∧
    order.Pairwise (fun x y => ¬ y.db < x.db)
      ∧
    content = Bufio.unlines (headerText (fields workload) :: rows)
      ∧
    (∀ row ∈ rows, 10 ∉ row)
      ∧
    List.Forall₂ (fun stat row => IsRowOf stat.db row) order rows
      ∧
    ∀ row ∈ rows, columns row = columns (headerText (fields workload))

/--
The names fit in a line, commas in a name make up for the columns that are missing, and what was in the file is not
longer than what is written.
-/
structure Fits (S : Strconv F) (workload : Bytes) (stats : List (DBStat F)) (before : Bytes) : Prop where
  newline : ∀ stat ∈ stats, 10 ∉ stat.db
  comma : ∀ stat ∈ stats, stat.db.count 44 = missing (fields workload) stat
  length : before.length ≤ summarySize S (fields workload) stats

theorem columns_statText_iff (S : Strconv F) (workload : Bytes) (stat : DBStat F)
    : columns (statText S (fields workload) stat) = columns (headerText (fields workload))
        ↔
      stat.db.count 44 = missing (fields workload) stat := by
  have hrow := count_comma_stat S (fields workload) stat
  unfold columns
  rw [Strings.length_split, Strings.length_split, count_comma_header]
  omega

theorem isRowOf_statText (S : Strconv F) (fields : List Bytes) (stat : DBStat F)
    : IsRowOf stat.db (statText S fields stat) := by
  unfold statText
  cases fields with
  | nil =>
    left
    exact List.append_nil stat.db
  | cons field fields =>
    right
    have hcomma : ∃ rest, fieldText S stat field = 44 :: rest := by
      unfold fieldText
      cases stat.summary.lookup field with
      | none => exact ⟨_, rfl⟩
      | some s => exact ⟨_, rfl⟩
    rcases hcomma with ⟨rest, hrest⟩
    rw [List.flatMap_cons, hrest]
    refine ⟨rest ++ fields.flatMap (fieldText S stat), ?_⟩
    simp

variable {S : Strconv F} {workload : Bytes} {stats : List (DBStat F)} {before : Bytes}

theorem newline_not_mem_header (workload : Bytes) : 10 ∉ headerText (fields workload) :=
  List.count_eq_zero.mp (count_newline_header workload)

theorem newline_not_mem_statText {stat : DBStat F} (h : 10 ∉ stat.db) (fields : List Bytes)
    : 10 ∉ statText S fields stat := by
  rw [← List.count_eq_zero, count_newline_stat, List.count_eq_zero]
  exact h

theorem Fits.isTable (h : Fits S workload stats before) (sorting : Sorting F)
    : IsTable workload stats
        (summaryText S (fields workload) (sorting.sort stats)
          ++ before.drop (summaryText S (fields workload) (sorting.sort stats)).length) := by
  have hlength : before.length ≤ (summaryText S (fields workload) (sorting.sort stats)).length := by
    rw [length_summaryText, summarySize_perm S (fields workload) (sorting.perm stats)]
    exact h.length
  have hmem : ∀ row ∈ (sorting.sort stats).map (statText S (fields workload)),
      ∃ stat ∈ stats, statText S (fields workload) stat = row := by
    intro row hrow
    rcases List.mem_map.mp hrow with ⟨stat, hstat, hrow⟩
    exact ⟨stat, (sorting.perm stats).mem_iff.mp hstat, hrow⟩
  rw [List.drop_eq_nil_of_le hlength, List.append_nil]
  refine ⟨sorting.sort stats, _, sorting.perm stats, sorting.sorted stats, rfl, ?_, ?_, ?_⟩
  . intro row hrow
    rcases hmem row hrow with ⟨stat, hstat, rfl⟩
    exact newline_not_mem_statText (h.newline stat hstat) _
  . rw [List.forall₂_map_right_iff, List.forall₂_same]
    intro stat _
    exact isRowOf_statText S _ stat
  . intro row hrow
    rcases hmem row hrow with ⟨stat, hstat, rfl⟩
    exact (columns_statText_iff S workload stat).mpr (h.comma stat hstat)

-- A table has a newline for each line and ends with one, so that there is none in a name and nothing after the rows.
theorem IsTable.count_newline {content : Bytes} (h : IsTable workload stats content)
    : content.count 10 = stats.length + 1 := by
  rcases h with ⟨order, rows, hperm, _, hcontent, hrows, hforall, _⟩
  have hzero : (rows.map (fun row => row.count 10)).sum = 0 := by
    apply List.sum_eq_zero
    intro n hn
    rcases List.mem_map.mp hn with ⟨row, hrow, rfl⟩
    exact List.count_eq_zero.mpr (hrows row hrow)
  rw [hcontent, Bufio.count_unlines, List.map_cons, List.sum_cons, hzero, count_newline_header, List.length_cons]
  rw [← hforall.length_eq, hperm.length_eq]
  omega

theorem IsTable.getLast? {content : Bytes} (h : IsTable workload stats content) : content.getLast? = some 10 := by
  rcases h with ⟨order, rows, _, _, hcontent, _⟩
  rw [hcontent]
  apply Bufio.getLast?_unlines
  exact List.cons_ne_nil _ _

theorem count_newline_summaryText (S : Strconv F) (workload : Bytes) (stats : List (DBStat F))
    : (summaryText S (fields workload) stats).count 10
        =
      (stats.map (fun stat => stat.db.count 10)).sum + (stats.length + 1) := by
  have hrows : (stats.map (statText S (fields workload))).map (fun row => row.count 10)
      = stats.map (fun stat => stat.db.count 10) := by
    rw [List.map_map]
    apply List.map_congr_left
    intro stat _
    exact count_newline_stat S (fields workload) stat
  unfold summaryText
  rw [Bufio.count_unlines, List.map_cons, List.sum_cons, hrows, count_newline_header, List.length_cons]
  rw [List.length_map]
  omega

theorem IsTable.rest_nil {text rest : Bytes} (h : IsTable workload stats (text ++ rest)) (hrest : rest.count 10 = 0)
    : rest = [] := by
  by_contra hne
  have hlast := h.getLast?
  rw [List.getLast?_append_of_ne_nil text hne] at hlast
  exact List.count_eq_zero.mp hrest (List.mem_of_getLast? hlast)

theorem IsTable.fits {sorting : Sorting F}
    (h : IsTable workload stats
      (summaryText S (fields workload) (sorting.sort stats)
        ++ before.drop (summaryText S (fields workload) (sorting.sort stats)).length))
    : Fits S workload stats before := by
  have hcount := h.count_newline
  rw [List.count_append, count_newline_summaryText, (sorting.perm stats).length_eq] at hcount
  have hnames : ((sorting.sort stats).map (fun stat => stat.db.count 10)).sum = 0 := by omega
  have hrest := h.rest_nil (by omega)
  have hnewline : ∀ stat ∈ sorting.sort stats, 10 ∉ stat.db := by
    intro stat hstat
    rw [← List.count_eq_zero]
    exact List.sum_eq_zero_iff_forall_eq_nat.mp hnames _ (List.mem_map.mpr ⟨stat, hstat, rfl⟩)
  rw [hrest, List.append_nil] at h
  constructor
  . intro stat hstat
    exact hnewline stat ((sorting.perm stats).mem_iff.mpr hstat)
  . rcases h with ⟨order, rows, _, _, hcontent, hrows, _, hcolumns⟩
    -- the lines of a text without other newlines are the ones that were written
    have hlines := Bufio.unlines_inj ?_ ?_ hcontent
    . rw [List.cons.injEq] at hlines
      intro stat hstat
      rw [← columns_statText_iff S]
      apply hcolumns
      rw [← hlines.2]
      exact List.mem_map_of_mem ((sorting.perm stats).mem_iff.mpr hstat)
    . rw [List.forall_mem_cons]
      refine ⟨newline_not_mem_header workload, ?_⟩
      intro row hrow
      rcases List.mem_map.mp hrow with ⟨stat, hstat, rfl⟩
      exact newline_not_mem_statText (hnewline stat hstat) _
    . rw [List.forall_mem_cons]
      exact ⟨newline_not_mem_header workload, hrows⟩
  . rw [List.drop_eq_nil_iff, length_summaryText, summarySize_perm S (fields workload) (sorting.perm stats)] at hrest
    exact hrest

end Table

theorem report_is_table_iff (S : Strconv F) (sorting : Sorting F) (workload : Bytes) (stats : List (DBStat F))
    (before : Bytes)
    : (∃ content, reportDBStats S sorting workload stats (.ok before) = .ok content ∧ IsTable workload stats content)
        ↔
      Fits S workload stats before := by
  rw [reportDBStats_eq]
  constructor
  . rintro ⟨content, hcontent, htable⟩
    cases hcontent
    exact htable.fits
  . intro hfits
    exact ⟨_, rfl, hfits.isTable sorting⟩

def Sorting.insertion : Sorting F where
  sort stats := stats.insertionSort (fun x y => x.db ≤ y.db)
  perm stats := List.perm_insertionSort _ stats
  sorted stats := by
    have hle : (stats.insertionSort (fun x y => x.db ≤ y.db)).Pairwise (fun x y => x.db ≤ y.db) :=
      List.pairwise_insertionSort _ _
    exact hle

def tikv (summary : GoMap Bytes (Stat F64)) : DBStat F64 := ⟨Bytes.ofAscii "tikv", Bytes.ofAscii "workloada", summary⟩

def reads : GoMap Bytes (Stat F64) := (∅ : GoMap Bytes (Stat F64)).insert (Bytes.ofAscii "READ") ⟨.fin 2, .fin 420⟩

def readsAndUpdates : GoMap Bytes (Stat F64) := reads.insert (Bytes.ofAscii "UPDATE") ⟨.fin 1, .fin 98⟩

-- A run without updates has one column less than the header, and a file that was longer keeps its end.
theorem missing_update_breaks_table
    : (∃ content,
        reportDBStats Strconv.exact Sorting.insertion (Bytes.ofAscii "workloada") [tikv reads] (.ok []) = .ok content
          ∧
        content = Bytes.ofAscii "DB,READ OPS,READ P99(us),UPDATE OPS,UPDATE P99(us)\ntikv,2,420,0.0\n"
          ∧
        ¬ IsTable (Bytes.ofAscii "workloada") [tikv reads] content)
        ∧
      ∃ content,
        reportDBStats Strconv.exact Sorting.insertion (Bytes.ofAscii "workloada") [tikv readsAndUpdates]
          (.ok (Bytes.ofAscii "DB,READ OPS,READ P99(us),UPDATE OPS,UPDATE P99(us)\ntikv,12345,420,1,98\n"))
          =
        .ok content
          ∧
        content = Bytes.ofAscii "DB,READ OPS,READ P99(us),UPDATE OPS,UPDATE P99(us)\ntikv,2,420,1,98\n,98\n"
          ∧
        ¬ IsTable (Bytes.ofAscii "workloada") [tikv readsAndUpdates] content := by
  refine ⟨⟨_, reportDBStats_eq _ _ _ _ _, by decide +kernel, ?_⟩, _, reportDBStats_eq _ _ _ _ _, by decide +kernel, ?_⟩
  . intro htable
    have hcomma := htable.fits.comma _ (List.mem_singleton_self _)
    revert hcomma
    decide
  . intro htable
    have hlength := htable.fits.length
    revert hlength
    decide +kernel

end Report
