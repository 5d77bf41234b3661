import GoYcsb.Tool.Lemmas.Line
import GoYcsb.Tool.Lemmas.Summary

/-!
This module contains the verification of the reading of a log: the report tool gets back what the histograms had counted
at the end of the run, and the rows of a workload whose operations were all used are a table.
-/

namespace Report

section Lines

variable {F : Type} {S : Strconv F}

theorem handleLines_append {s s' : Scan F} {lines : List Bytes} (h : handleLines S s lines = .ret (.ok s'))
    (rest : List Bytes)
    : handleLines S s (lines ++ rest) = handleLines S s' rest := by
  induction lines generalizing s with
  | nil =>
    cases h
    rfl
  | cons line lines ih =>
    rw [handleLines] at h
    rcases Outcome.bind_eq_ret h with ⟨res, hline, hres⟩
    rw [List.cons_append, handleLines, hline, Outcome.ret_bind]
    cases res with
    | error err => cases hres
    | ok s'' => exact ih hres

theorem handleLines_of_forall {s : Scan F} {lines : List Bytes} (h : ∀ line ∈ lines, handleLine S s line = .ret (.ok s))
    : handleLines S s lines = .ret (.ok s) := by
  induction lines with
  | nil => rfl
  | cons line lines ih =>
    rw [List.forall_mem_cons] at h
    rw [handleLines, h.1, Outcome.ret_bind]
    exact ih h.2

theorem handleLines_map {α : Type} {step : Scan F → α → Scan F} {text : α → Bytes} {l : List α}
    (h : ∀ a ∈ l, ∀ s, handleLine S s (text a) = .ret (.ok (step s a))) (s : Scan F)
    : handleLines S s (l.map text) = .ret (.ok (l.foldl step s)) := by
  induction l generalizing s with
  | nil => rfl
  | cons a l ih =>
    rw [List.forall_mem_cons] at h
    rw [List.map_cons, handleLines, h.1, Outcome.ret_bind]
    exact ih h.2 _

theorem handleLine_finished {line : Bytes} (h : Strings.hasPrefix (Bytes.ofAscii "Run finished") line = true)
    (s : Scan F)
    : handleLine S s line = .ret (.ok { s with handleSummary := true }) := by
  unfold handleLine
  rw [if_pos h]

structure Note (line : Bytes) : Prop where
  running : Strings.hasPrefix (Bytes.ofAscii "Run finished") line = false
  unknown : Strings.trimSpace (line.takeWhile (· != 45)) ∉ operations

theorem handleLine_note {line : Bytes} (h : Note line) (s : Scan F) : handleLine S s line = .ret (.ok s) := by
  have hunknown := h.unknown
  unfold handleLine
  simp only [h.running, Strings.headD_split, hunknown, not_false_eq_true, if_true, if_false, Bool.false_eq_true]

-- An operation that the report has no column for.
structure Silent (op : Bytes) : Prop where
  name : Name op
  unknown : op ∉ operations
  running : Strings.hasPrefix (Bytes.ofAscii "Run finished") op = false

theorem handleLine_silent {op : Bytes} (hop : Silent op) {args : List (Bytes × Bytes)}
    (hargs : ∀ arg ∈ args, PlainArg arg) (s : Scan F)
    : handleLine S s (printed op args) = .ret (.ok s) := by
  have hhead := trimSpace_printed hop.name hargs
  rw [Strings.headD_split] at hhead
  apply handleLine_note
  constructor
  . exact not_hasPrefix_printed hop.running args
  . rw [hhead]
    exact hop.unknown

end Lines

section Rows

variable {P : Platform} {S : Strconv F64}

-- Numerals in the range of the floating point numbers, at least where they are read.
structure Readable (row : Bytes × Measurement.Summary) : Prop where
  cells : ∀ cell ∈ row.2.cells, IsNumeral cell
  name : row.1 ∈ operations ∨ Silent row.1
  limit : row.1 ∈ operations → ∀ cell ∈ row.2.cells, Numeral.value cell < Strconv.limit

def numbers (P : Platform) (row : Measurement.Summary) : Stat F64 := ⟨number P row.qps, number P row.per99th⟩

def readRow (P : Platform) (s : Scan F64) (row : Bytes × Measurement.Summary) : Scan F64 :=
  if row.1 ∈ operations then s.record row.1 (numbers P row.2) else s

theorem Readable.isName {row : Bytes × Measurement.Summary} (h : Readable row) : Name row.1 := by
  cases h.name with
  | inl hop => exact name_of_mem hop
  | inr hop => exact hop.name

theorem Readable.handleLine (hS : S.Rounds P) {row : Bytes × Measurement.Summary} (h : Readable row) (s : Scan F64)
    : handleLine S s (printed row.1 (rowArgs row.2)) = .ret (.ok (readRow P s row)) := by
  unfold readRow
  split
  . next hop => exact handleLine_row hS hop h.cells (h.limit hop) s
  . next hop =>
    cases h.name with
    | inl hop' => contradiction
    | inr hsilent => exact handleLine_silent hsilent (plainArg_row h.cells) s

def entriesOf (P : Platform) (rows : List (Bytes × Measurement.Summary)) : List (Bytes × Stat F64) :=
  (rows.filter (fun row => row.1 ∈ operations)).map (fun row => (row.1, numbers P row.2))

theorem foldl_readRow (rows : List (Bytes × Measurement.Summary)) (stat : DBStat F64)
    : rows.foldl (readRow P) ⟨true, stat⟩
        =
      ⟨true, { stat with summary := stat.summary.insertAll (entriesOf P rows) }⟩ := by
  induction rows generalizing stat with
  | nil => rfl
  | cons row rows ih =>
    rw [List.foldl_cons]
    unfold entriesOf
    by_cases hop : row.1 ∈ operations
    . rw [List.filter_cons_of_pos (by simpa using hop), readRow, if_pos hop]
      exact ih _
    . rw [List.filter_cons_of_neg (by simpa using hop), readRow, if_neg hop]
      exact ih stat

theorem mem_entriesOf {rows : List (Bytes × Measurement.Summary)} {op : Bytes} {stat : Stat F64}
    : (op, stat) ∈ entriesOf P rows ↔ op ∈ operations ∧ ∃ row, (op, row) ∈ rows ∧ numbers P row = stat := by
  unfold entriesOf
  rw [List.mem_map]
  constructor
  . rintro ⟨row, hrow, heq⟩
    rw [List.mem_filter, decide_eq_true_eq] at hrow
    cases heq
    exact ⟨hrow.2, row.2, hrow.1, rfl⟩
  . rintro ⟨hop, row, hrow, rfl⟩
    refine ⟨(op, row), ?_, rfl⟩
    rw [List.mem_filter, decide_eq_true_eq]
    exact ⟨hrow, hop⟩

theorem nodup_entriesOf {rows : List (Bytes × Measurement.Summary)} (h : (rows.map Prod.fst).Nodup)
    : ((entriesOf P rows).map Prod.fst).Nodup := by
  unfold entriesOf
  rw [List.map_map]
  exact h.sublist (List.filter_sublist.map Prod.fst)

end Rows

section Output

variable {P : Platform} {S : Strconv F64} {summaries : GoMap Bytes Measurement.Summary}

def rowsOf (summaries : GoMap Bytes Measurement.Summary) : List (Bytes × Measurement.Summary) :=
  (summaries.entries.insertionSort (fun x y => x.1 ≤ y.1)).map (fun entry => (entry.1, entry.2))

theorem perm_rowsOf (summaries : GoMap Bytes Measurement.Summary)
    : (rowsOf summaries).Perm (summaries.entries.map (fun entry => (entry.1, entry.2))) :=
  (List.perm_insertionSort _ _).map _

theorem mem_rowsOf {op : Bytes} {row : Measurement.Summary}
    : (op, row) ∈ rowsOf summaries ↔ summaries.lookup op = some row := by
  rw [(perm_rowsOf summaries).mem_iff, GoMap.mem_map_entries]

theorem nodup_rowsOf (summaries : GoMap Bytes Measurement.Summary) : ((rowsOf summaries).map Prod.fst).Nodup := by
  rw [((perm_rowsOf summaries).map Prod.fst).nodup_iff, List.map_map]
  exact summaries.keys_nodup

def linesOf (summaries : GoMap Bytes Measurement.Summary) : List Bytes :=
  (rowsOf summaries).map (fun row => printed row.1 (rowArgs row.2))

theorem output_eq (summaries : GoMap Bytes Measurement.Summary)
    : Measurement.output summaries = .ret (Bufio.unlines (linesOf summaries)) := by
  have hrows := renderString_rows (rowsOf summaries)
  unfold rowsOf at hrows
  rw [List.map_map] at hrows
  exact hrows

theorem lookup_entriesOf (summaries : GoMap Bytes Measurement.Summary) (op : Bytes)
    : (GoMap.insertAll ∅ (entriesOf P (rowsOf summaries))).lookup op
        =
      if op ∈ operations then (summaries.lookup op).map (numbers P) else none := by
  split
  . next hop =>
    cases hlookup : summaries.lookup op with
    | none =>
      rw [GoMap.lookup_insertAll_of_not_mem]
      . rfl
      . intro stat hmem
        rcases (mem_entriesOf.mp hmem).2 with ⟨row, hrow, _⟩
        rw [mem_rowsOf, hlookup] at hrow
        cases hrow
    | some row =>
      apply GoMap.lookup_insertAll_of_mem (nodup_entriesOf (nodup_rowsOf summaries))
      exact mem_entriesOf.mpr ⟨hop, row, mem_rowsOf.mpr hlookup, rfl⟩
  . next hop =>
    rw [GoMap.lookup_insertAll_of_not_mem]
    . rfl
    . intro stat hmem
      exact hop (mem_entriesOf.mp hmem).1

end Output

section Log

-- A log file: what is printed before the run is over, the line that says so, and the output of the histograms.
structure Log where
  db : Bytes
  workload : Bytes
  progress : List Bytes
  finished : Bytes
  summaries : GoMap Bytes Measurement.Summary

def Log.fileName (log : Log) : Bytes := log.db ++ 95 :: (log.workload ++ Bytes.ofAscii ".log")

def Log.lines (log : Log) : List Bytes := log.progress ++ log.finished :: linesOf log.summaries

-- What is printed during the run: notes, and the output of the histograms of the time until then.
inductive Progress (line : Bytes) : Prop where
  | note (h : Note line)
  | summary (row : Bytes × Measurement.Summary) (hrow : Readable row) (hline : line = printed row.1 (rowArgs row.2))

structure Log.Valid (log : Log) : Prop where
  db : 95 ∉ log.db
  workload : log.workload ∈ workloads
  newline : ∀ line ∈ log.progress ++ [log.finished], 10 ∉ line
  cr : ∀ line ∈ log.progress ++ [log.finished], Bufio.dropCR line = line
  fits : ∀ line ∈ log.lines, Bufio.fits line
  progress : ∀ line ∈ log.progress, Progress line
  finished : Strings.hasPrefix (Bytes.ofAscii "Run finished") log.finished = true
  readable : ∀ op row, log.summaries.lookup op = some row → Readable (op, row)

variable {P : Platform} {S : Strconv F64} {log : Log}

theorem Progress.handleLine (hS : S.Rounds P) {line : Bytes} (h : Progress line) (stat : DBStat F64)
    : handleLine S ⟨false, stat⟩ line = .ret (.ok ⟨false, stat⟩) := by
  cases h with
  | note h => exact handleLine_note h ⟨false, stat⟩
  | summary row hrow hline =>
    rw [hline, hrow.handleLine hS]
    unfold readRow
    split
    . rfl
    . rfl

theorem Log.Valid.readable_rows (h : log.Valid) : ∀ row ∈ rowsOf log.summaries, Readable row := by
  intro row hrow
  exact h.readable row.1 row.2 (mem_rowsOf.mp hrow)

theorem Log.Valid.scan (h : log.Valid) : Bufio.scan (Bufio.unlines log.lines) = (log.lines, none) := by
  have hlines : log.lines = log.progress ++ [log.finished] ++ linesOf log.summaries := by
    unfold Log.lines
    rw [List.append_assoc]
    rfl
  have hprinted : ∀ line ∈ linesOf log.summaries, 10 ∉ line ∧ Bufio.dropCR line = line := by
    intro line hline
    rcases List.mem_map.mp hline with ⟨row, hrow, rfl⟩
    have hreadable := h.readable_rows row hrow
    exact ⟨newline_not_mem_printed hreadable.isName (plainArg_row hreadable.cells), dropCR_row row.1 hreadable.cells⟩
  apply Bufio.scan_unlines
  . rw [hlines, List.forall_mem_append]
    exact ⟨h.newline, fun line hline => (hprinted line hline).1⟩
  . exact h.fits
  . rw [hlines, List.forall_mem_append]
    exact ⟨h.cr, fun line hline => (hprinted line hline).2⟩

theorem Log.Valid.handleLines (hS : S.Rounds P) (h : log.Valid) (stat : DBStat F64)
    : handleLines S ⟨false, stat⟩ log.lines
        =
      .ret (.ok ⟨true, { stat with summary := stat.summary.insertAll (entriesOf P (rowsOf log.summaries)) }⟩) := by
  have hprogress := handleLines_of_forall (fun line hline => (h.progress line hline).handleLine hS stat)
  have hrows := handleLines_map (fun row hrow s => (h.readable_rows row hrow).handleLine hS s) ⟨true, stat⟩
  unfold Log.lines
  rw [handleLines_append hprogress, Report.handleLines, handleLine_finished h.finished, Outcome.ret_bind]
  rw [foldl_readRow] at hrows
  exact hrows

def Log.stat (P : Platform) (log : Log) : DBStat F64 :=
  ⟨log.db, log.workload, GoMap.insertAll ∅ (entriesOf P (rowsOf log.summaries))⟩

theorem split_fileName (h : log.Valid)
    : Strings.split 95 log.fileName = [log.db, log.workload ++ Bytes.ofAscii ".log"] := by
  have hworkload : ∀ workload ∈ workloads, 95 ∉ workload ++ Bytes.ofAscii ".log" := by decide
  unfold Log.fileName
  rw [Strings.split_append_cons h.db, Strings.split_of_not_mem (hworkload log.workload h.workload)]

theorem trimSuffix_workload
    : ∀ workload ∈ workloads,
        Strings.trimSuffix (Bytes.ofAscii ".log") (workload ++ Bytes.ofAscii ".log") = workload := by
  decide

theorem parseDBStat_lines (hS : S.Rounds P) (h : log.Valid)
    : parseDBStat S log.fileName (.ok (Bufio.unlines log.lines))
        =
      .ret (.ok (some (log.stat P))) := by
  have htrim := trimSuffix_workload log.workload h.workload
  unfold parseDBStat
  rw [split_fileName h]
  dsimp only
  simp only [htrim, h.workload, not_true, if_false, h.scan]
  rw [h.handleLines hS, Outcome.ret_bind]
  rfl

/--
For each of its operations the tool has the numbers that the histograms had at the end of the run.
-/
theorem parseDBStat_output (hS : S.Rounds P) (h : log.Valid)
    : ∃ out stat,
        Measurement.output log.summaries = .ret out
          ∧
        parseDBStat S log.fileName (.ok (Bufio.unlines (log.progress ++ [log.finished]) ++ out))
          =
        .ret (.ok (some stat))
          ∧
        stat.db = log.db
          ∧
        stat.workload = log.workload
          ∧
        ∀ op, stat.summary.lookup op = if op ∈ operations then (log.summaries.lookup op).map (numbers P) else none := by
  refine ⟨_, log.stat P, output_eq log.summaries, ?_, rfl, rfl, fun op => lookup_entriesOf log.summaries op⟩
  rw [← Bufio.unlines_append, List.append_assoc]
  exact parseDBStat_lines hS h

def Log.Complete (log : Log) : Prop := ∀ field ∈ fields log.workload, (log.summaries.lookup field).isSome

theorem missing_eq_zero (hcomplete : log.Complete) : missing (fields log.workload) (log.stat P) = 0 := by
  unfold missing
  rw [List.countP_eq_zero]
  intro field hfield
  unfold Log.stat
  rw [lookup_entriesOf, if_pos (fields_subset _ field hfield), Option.isNone_map, Bool.not_eq_true,
    Option.isNone_eq_false_iff]
  exact hcomplete field hfield

theorem table_of_logs (sorting : Sorting F64) {workload : Bytes} {logs : List Log}
    (hlogs : ∀ log ∈ logs, log.workload = workload ∧ log.Complete ∧ 44 ∉ log.db ∧ 10 ∉ log.db)
    : ∃ content,
        reportDBStats S sorting workload (logs.map (Log.stat P)) (.ok []) = .ok content
          ∧
        IsTable workload (logs.map (Log.stat P)) content := by
  have hfits : Fits S workload (logs.map (Log.stat P)) [] := by
    constructor
    . rw [List.forall_mem_map]
      intro log hlog
      exact (hlogs log hlog).2.2.2
    . rw [List.forall_mem_map]
      intro log hlog
      rw [← (hlogs log hlog).1, missing_eq_zero (hlogs log hlog).2.1]
      exact List.count_eq_zero.mpr (hlogs log hlog).2.2.1
    . exact Nat.zero_le _
  exact ⟨_, reportDBStats_eq S sorting workload _ [], hfits.isTable sorting⟩

theorem collect_logs (hS : S.Rounds P) {logs : List Log} (hvalid : ∀ log ∈ logs, log.Valid)
    (stats : GoMap Bytes (List (DBStat F64)))
    : collect S stats (logs.map (fun log => (log.fileName, .ok (Bufio.unlines log.lines))))
        =
      .ret (logs.foldl (fun stats log => addStat stats (log.stat P)) stats) := by
  induction logs generalizing stats with
  | nil => rfl
  | cons log logs ih =>
    rw [List.forall_mem_cons] at hvalid
    rw [List.map_cons, collect, parseDBStat_lines hS hvalid.1, Outcome.ret_bind]
    exact ih hvalid.2 _

theorem get_addStat {F : Type} (stats : GoMap Bytes (List (DBStat F))) (s : DBStat F) (workload : Bytes)
    : (addStat stats s).get workload []
        =
      stats.get workload [] ++ if workload = s.workload then [s] else [] := by
  unfold addStat GoMap.get
  rw [GoMap.lookup_insert]
  split
  . next heq =>
    rw [heq]
    rfl
  . rw [List.append_nil]

theorem get_foldl_addStat (logs : List Log) (stats : GoMap Bytes (List (DBStat F64))) (workload : Bytes)
    : (logs.foldl (fun stats log => addStat stats (log.stat P)) stats).get workload []
        =
      stats.get workload [] ++ (logs.filter (fun log => log.workload = workload)).map (Log.stat P) := by
  induction logs generalizing stats with
  | nil => simp
  | cons log logs ih =>
    have hworkload : (log.stat P).workload = log.workload := rfl
    rw [List.foldl_cons, ih, get_addStat, hworkload, List.append_assoc]
    congr 1
    by_cases heq : workload = log.workload
    . rw [if_pos heq, List.filter_cons_of_pos (by simp [heq]), List.map_cons]
      rfl
    . rw [if_neg heq, List.filter_cons_of_neg (by simpa using Ne.symm heq)]
      rfl

theorem mem_foldl_addStat {logs : List Log} {log : Log} (hlog : log ∈ logs)
    : ∃ stats, ⟨log.workload, stats⟩ ∈ (logs.foldl (fun stats log => addStat stats (log.stat P)) ∅).entries := by
  have hget := get_foldl_addStat (P := P) logs ∅ log.workload
  cases hlookup : (logs.foldl (fun stats log => addStat stats (log.stat P)) ∅).lookup log.workload with
  | some stats => exact ⟨stats, AList.mem_lookup_iff.mp hlookup⟩
  | none =>
    unfold GoMap.get at hget
    rw [hlookup] at hget
    have hnil : (logs.filter (fun log' => log'.workload = log.workload)).map (Log.stat P) = [] := hget.symm
    rw [List.map_eq_nil_iff, List.filter_eq_nil_iff] at hnil
    exact absurd (decide_eq_true rfl) (hnil log hlog)

/--
The tool makes a table for each workload out of the complete logs of its runs, if it has made no report before.
-/
theorem main_tables (hS : S.Rounds P) (sorting : Sorting F64) {logs : List Log} (hvalid : ∀ log ∈ logs, log.Valid)
    (hlogs : ∀ log ∈ logs, log.Complete ∧ 44 ∉ log.db ∧ 10 ∉ log.db)
    : ∃ reports,
        main S sorting (logs.map (fun log => (log.fileName, .ok (Bufio.unlines log.lines)))) (fun _ => .ok [])
          =
        .ret reports
          ∧
        (∀ log ∈ logs, ∃ report ∈ reports, report.1 = log.workload)
          ∧
        ∀ report ∈ reports, ∃ content,
          report.2 = .ok content
            ∧
          IsTable report.1 ((logs.filter (fun log => log.workload = report.1)).map (Log.stat P)) content := by
  unfold main
  rw [collect_logs hS hvalid, Outcome.ret_bind]
  refine ⟨_, rfl, ?_, ?_⟩
  . intro log hlog
    rcases mem_foldl_addStat (P := P) hlog with ⟨stats, hmem⟩
    exact ⟨_, List.mem_map_of_mem hmem, rfl⟩
  . rw [List.forall_mem_map]
    intro entry hentry
    have hstats := get_foldl_addStat (P := P) logs ∅ entry.1
    have hlookup := AList.mem_lookup_iff.mpr hentry
    unfold GoMap.get at hstats
    rw [Option.mem_def.mp hlookup] at hstats
    have hentry : entry.2 = (logs.filter (fun log => log.workload = entry.1)).map (Log.stat P) := hstats
    dsimp only
    rw [hentry]
    apply table_of_logs
    intro log hlog
    rw [List.mem_filter, decide_eq_true_eq] at hlog
    exact ⟨hlog.2, hlogs log hlog.1⟩

def opening : List Bytes :=
  [Bytes.ofAscii "***************** properties *****************", Bytes.ofAscii "\"threadcount\"=\"2\"",
    printed (Bytes.ofAscii "READ") (rowArgs shortRow), printed (Bytes.ofAscii "TOTAL") (rowArgs shortRow)]

def logOf (db workload : Bytes) (ops : List Bytes) : Log where
  db := db
  workload := workload
  progress := opening
  finished := Bytes.ofAscii "Run finished, takes 2s"
  summaries := GoMap.insertAll ∅ (ops.map (fun op => (op, shortRow)))

def readsAndUpdatesOf (db : Bytes) : Log :=
  logOf db (Bytes.ofAscii "workloada") [Bytes.ofAscii "READ", Bytes.ofAscii "UPDATE", Bytes.ofAscii "TOTAL"]

def tikvLogs : List Log :=
  [readsAndUpdatesOf (Bytes.ofAscii "tikv-raw"), readsAndUpdatesOf (Bytes.ofAscii "tikv"),
    logOf (Bytes.ofAscii "tikv") (Bytes.ofAscii "workloadc") [Bytes.ofAscii "READ", Bytes.ofAscii "TOTAL"]]

theorem readable_shortRow {op : Bytes} (hop : op ∈ operations ∨ Silent op) : Readable (op, shortRow) := by
  have hcells : ∀ cell ∈ shortRow.cells, IsNumeral cell := by decide
  have hlimit : ∀ cell ∈ shortRow.cells, Numeral.value cell < Strconv.limit := by decide +kernel
  exact ⟨hcells, hop, fun _ => hlimit⟩

theorem silent_total : Silent (Bytes.ofAscii "TOTAL") := ⟨⟨by decide, by decide, by decide⟩, by decide, by decide⟩

theorem opening_progress : ∀ line ∈ opening, Progress line := by
  have hread : Bytes.ofAscii "READ" ∈ operations := by decide
  unfold opening
  simp only [List.forall_mem_cons, List.not_mem_nil, false_imp_iff, implies_true, and_true]
  refine ⟨.note ⟨by decide, by decide⟩, .note ⟨by decide, by decide⟩, ?_, ?_⟩
  . exact .summary _ (readable_shortRow (.inl hread)) rfl
  . exact .summary _ (readable_shortRow (.inr silent_total)) rfl

theorem logOf_valid {db workload : Bytes} {ops : List Bytes} (hdb : 95 ∉ db) (hworkload : workload ∈ workloads)
    (hops : ∀ op ∈ ops, op ∈ operations ∨ op = Bytes.ofAscii "TOTAL")
    (hfits : ∀ line ∈ (logOf db workload ops).lines, Bufio.fits line)
    : (logOf db workload ops).Valid := by
  have hnewline : ∀ line ∈ opening ++ [Bytes.ofAscii "Run finished, takes 2s"], 10 ∉ line := by decide
  have hcr : ∀ line ∈ opening ++ [Bytes.ofAscii "Run finished, takes 2s"], Bufio.dropCR line = line := by
    decide +kernel
  refine ⟨hdb, hworkload, hnewline, hcr, hfits, opening_progress, rfl, ?_⟩
  intro op row hlookup
  have hentry := (GoMap.mem_of_lookup_insertAll hlookup).resolve_right (by simp)
  rcases List.mem_map.mp hentry with ⟨op', hop, heq⟩
  cases heq
  apply readable_shortRow
  cases hops op hop with
  | inl hop => exact .inl hop
  | inr hop => exact .inr (hop ▸ silent_total)

theorem tikvLogs_valid : ∀ log ∈ tikvLogs, log.Valid := by
  have hfits : ∀ log ∈ tikvLogs, ∀ line ∈ log.lines, Bufio.fits line := by decide +kernel
  unfold tikvLogs readsAndUpdatesOf at hfits ⊢
  simp only [List.forall_mem_cons, List.not_mem_nil, false_imp_iff, implies_true, and_true] at hfits ⊢
  refine ⟨?_, ?_, ?_⟩
  . exact logOf_valid (by decide) (by decide) (by decide) hfits.1
  . exact logOf_valid (by decide) (by decide) (by decide) hfits.2.1
  . exact logOf_valid (by decide) (by decide) (by decide) hfits.2.2

theorem parseDBStat_output_tikvRaw
    : ∃ out stat,
        Measurement.output (readsAndUpdatesOf (Bytes.ofAscii "tikv-raw")).summaries = .ret out
          ∧
        parseDBStat Strconv.exact (Bytes.ofAscii "tikv-raw_workloada.log")
            (.ok (Bufio.unlines (opening ++ [Bytes.ofAscii "Run finished, takes 2s"]) ++ out))
          =
        .ret (.ok (some stat))
          ∧
        stat.db = Bytes.ofAscii "tikv-raw"
          ∧
        stat.workload = Bytes.ofAscii "workloada"
          ∧
        stat.summary.lookup (Bytes.ofAscii "UPDATE") = some ⟨.fin 2, .fin 420⟩
          ∧
        stat.summary.lookup (Bytes.ofAscii "INSERT") = none
          ∧
        stat.summary.lookup (Bytes.ofAscii "TOTAL") = none := by
  have hvalid := tikvLogs_valid _ List.mem_cons_self
  rcases parseDBStat_output Strconv.rounds_exact hvalid with ⟨out, stat, hout, hparse, hdb, hworkload, hsummary⟩
  refine ⟨out, stat, hout, hparse, hdb, hworkload, ?_, ?_, ?_⟩
  . rw [hsummary]
    decide +kernel
  . rw [hsummary]
    decide
  . rw [hsummary]
    decide

def tikvReports : List (Bytes × Except String Bytes) :=
  [(Bytes.ofAscii "workloadc", .ok (Bytes.ofAscii "DB,READ OPS,READ P99(us)\ntikv,2,420\n")),
    (Bytes.ofAscii "workloada", .ok (Bytes.ofAscii
      "DB,READ OPS,READ P99(us),UPDATE OPS,UPDATE P99(us)\ntikv,2,420,2,420\ntikv-raw,2,420,2,420\n"))]

theorem main_tables_tikvLogs
    : main Strconv.exact Sorting.insertion
          (tikvLogs.map (fun log => (log.fileName, .ok (Bufio.unlines log.lines)))) (fun _ => .ok [])
        =
      .ret tikvReports
        ∧
      (∀ log ∈ tikvLogs, ∃ report ∈ tikvReports, report.1 = log.workload)
        ∧
      ∀ report ∈ tikvReports, ∃ content,
        report.2 = .ok content
          ∧
        IsTable report.1
          ((tikvLogs.filter (fun log => log.workload = report.1)).map (Log.stat Platform.exactAmd64)) content := by
  have hlogs : ∀ log ∈ tikvLogs, log.Complete ∧ 44 ∉ log.db ∧ 10 ∉ log.db := by
    unfold Log.Complete
    decide
  have hmain : main Strconv.exact Sorting.insertion
      (tikvLogs.map (fun log => (log.fileName, .ok (Bufio.unlines log.lines)))) (fun _ => .ok [])
        = .ret tikvReports := by
    decide +kernel
  rcases main_tables Strconv.rounds_exact Sorting.insertion tikvLogs_valid hlogs with ⟨reports, hreports, htables⟩
  rw [hmain] at hreports
  cases hreports
  exact ⟨hmain, htables⟩

end Log

end Report
