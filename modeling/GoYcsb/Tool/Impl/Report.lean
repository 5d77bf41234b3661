import GoYcsb.Lib.File
import GoYcsb.Lib.GoMap
import GoYcsb.Lib.Outcome
import GoYcsb.Lib.Strconv

/-!
This module contains the report tool of `tool/report.go`: the logs of benchmark runs are read and the last lines of
each become a row of a table for the workload.
-/

namespace Report

variable {F : Type}

def operations : List Bytes :=
  [Bytes.ofAscii "INSERT", Bytes.ofAscii "READ", Bytes.ofAscii "UPDATE", Bytes.ofAscii "SCAN",
    Bytes.ofAscii "READ_MODIFY_WRITE", Bytes.ofAscii "DELETE"]

def workloads : List Bytes :=
  [Bytes.ofAscii "load", Bytes.ofAscii "workloada", Bytes.ofAscii "workloadb", Bytes.ofAscii "workloadc",
    Bytes.ofAscii "workloadd", Bytes.ofAscii "workloade", Bytes.ofAscii "workloadf"]

structure Stat (F : Type) where
  OPS : F
  P99 : F
  deriving DecidableEq

def Stat.set (s : Stat F) (key : Bytes) (v : F) : Stat F :=
  if key = Bytes.ofAscii "OPS" then
    { s with OPS := v }
  else if key = Bytes.ofAscii "99th(us)" then
    { s with P99 := v }
  else
    s

def statFieldFunc (c : UInt8) : Bool := c == 58 || c == 44

-- The loop takes two fields a turn and finds out that there is only one by reading the other.
def newStatLoop (S : Strconv F) (kvs : List Bytes) (s : Stat F) : Outcome (Except String (Stat F)) :=
  match kvs with
  | [] => .ret (.ok s)
  | [_] => .panic "index out of range"
  | key :: value :: kvs =>
    match S.parseFloat (Strings.trimSpace value) with
    | .error err => .ret (.error err)
    | .ok v => newStatLoop S kvs (s.set (Strings.trimSpace key) v)

def newStat (S : Strconv F) (line : Bytes) : Outcome (Except String (Stat F)) :=
  newStatLoop S (Strings.fieldsFunc statFieldFunc line) ⟨S.zero, S.zero⟩

structure DBStat (F : Type) where
  db : Bytes
  workload : Bytes
  summary : GoMap Bytes (Stat F)

structure Scan (F : Type) where
  handleSummary : Bool
  stat : DBStat F

def handleLine (S : Strconv F) (s : Scan F) (line : Bytes) : Outcome (Except String (Scan F)) :=
  if Strings.hasPrefix (Bytes.ofAscii "Run finished") line then
    .ret (.ok { s with handleSummary := true })
  else
    let seps := Strings.split 45 line
    let op := Strings.trimSpace (seps.headD [])
    if op ∉ operations then
      .ret (.ok s)
    else
      match seps.tail with
      | [] => .panic "index out of range"
      | sep :: _ => do
        match ← newStat S (Strings.trimSpace sep) with
        | .error err => .ret (.error err)
        | .ok stat =>
          if s.handleSummary then
            .ret (.ok { s with stat := { s.stat with summary := s.stat.summary.insert op stat } })
          else
            .ret (.ok s)

def handleLines (S : Strconv F) (s : Scan F) (lines : List Bytes) : Outcome (Except String (Scan F)) :=
  match lines with
  | [] => .ret (.ok s)
  | line :: lines => do
    match ← handleLine S s line with
    | .error err => .ret (.error err)
    | .ok s => handleLines S s lines

/--
`file` is what opening the file gives. Files with other names than `db_workload.log` are left out.
-/
def parseDBStat (S : Strconv F) (fileName : Bytes) (file : Except String Bytes)
    : Outcome (Except String (Option (DBStat F))) :=
  match Strings.split 95 fileName with
  | [db, rest] =>
    let workload := Strings.trimSuffix (Bytes.ofAscii ".log") rest
    if workload ∉ workloads then
      .ret (.ok none)
    else
      match file with
      | .error err => .ret (.error err)
      | .ok content => do
        let scanned := Bufio.scan content
        match ← handleLines S ⟨false, ⟨db, workload, ∅⟩⟩ scanned.1 with
        | .error err => .ret (.error err)
        | .ok s =>
          match scanned.2 with
          | some err => .ret (.error err)
          | none => .ret (.ok (some s.stat))
  | _ => .ret (.ok none)

-- `sort.Sort`, which may leave what has the same name in any order.
structure Sorting (F : Type) where
  sort : List (DBStat F) → List (DBStat F)
  perm : ∀ stats, (sort stats).Perm stats
  sorted : ∀ stats, (sort stats).Pairwise (fun x y => ¬ y.db < x.db)

def fields (workload : Bytes) : List Bytes :=
  if workload = Bytes.ofAscii "load" then
    [Bytes.ofAscii "INSERT"]
  else if workload = Bytes.ofAscii "workloada" then
    [Bytes.ofAscii "READ", Bytes.ofAscii "UPDATE"]
  else if workload = Bytes.ofAscii "workloadb" then
    [Bytes.ofAscii "READ", Bytes.ofAscii "UPDATE"]
  else if workload = Bytes.ofAscii "workloadc" then
    [Bytes.ofAscii "READ"]
  else if workload = Bytes.ofAscii "workloadd" then
    [Bytes.ofAscii "READ", Bytes.ofAscii "INSERT"]
  else if workload = Bytes.ofAscii "workloade" then
    [Bytes.ofAscii "SCAN", Bytes.ofAscii "INSERT"]
  else if workload = Bytes.ofAscii "workloadf" then
    [Bytes.ofAscii "READ_MODIFY_WRITE"]
  else
    []

def writeHeader (fields : List Bytes) (file : File) : File :=
  let file := file.write (Bytes.ofAscii "DB")
  let file := fields.foldl
    (fun file field => file.write
      (Bytes.ofAscii "," ++ field ++ Bytes.ofAscii " OPS," ++ field ++ Bytes.ofAscii " P99(us)"))
    file
  file.write (Bytes.ofAscii "\n")

def writeField (S : Strconv F) (stat : DBStat F) (file : File) (field : Bytes) : File :=
  match stat.summary.lookup field with
  | none => file.write (Bytes.ofAscii ",0.0")
  | some s =>
    file.write (Bytes.ofAscii "," ++ S.formatFloat s.OPS ++ Bytes.ofAscii "," ++ S.formatFloat s.P99)

def writeStat (S : Strconv F) (fields : List Bytes) (file : File) (stat : DBStat F) : File :=
  let file := file.write stat.db
  let file := fields.foldl (writeField S stat) file
  file.write (Bytes.ofAscii "\n")

/--
`file` is what opening the file gives: its content, which is kept, or nothing if there was none. The result is its
content afterwards.
-/
def reportDBStats (S : Strconv F) (sorting : Sorting F) (workload : Bytes) (stats : List (DBStat F))
    (file : Except String Bytes) : Except String Bytes :=
  let stats := sorting.sort stats
  match file with
  | .error err => .error err
  | .ok content =>
    let file := writeHeader (fields workload) ⟨content, 0⟩
    let file := stats.foldl (writeStat S (fields workload)) file
    .ok file.content

def addStat (stats : GoMap Bytes (List (DBStat F))) (s : DBStat F) : GoMap Bytes (List (DBStat F)) :=
  stats.insert s.workload (stats.get s.workload [] ++ [s])

def collect (S : Strconv F) (stats : GoMap Bytes (List (DBStat F))) (files : List (Bytes × Except String Bytes))
    : Outcome (GoMap Bytes (List (DBStat F))) :=
  match files with
  | [] => .ret stats
  | file :: files => do
    match ← parseDBStat S file.1 file.2 with
    | .error _ => collect S stats files
    | .ok none => collect S stats files
    | .ok (some s) => collect S (addStat stats s) files

/--
`files` are the names in the directory and what opening them gives, `before` is what is in the file of a workload. The
result is what is in it afterwards, for the workloads that there are logs of.
-/
def main (S : Strconv F) (sorting : Sorting F) (files : List (Bytes × Except String Bytes))
    (before : Bytes → Except String Bytes) : Outcome (List (Bytes × Except String Bytes)) := do
  let stats ← collect S ∅ files
  .ret (stats.entries.map (fun entry => (entry.1, reportDBStats S sorting entry.1 entry.2 (before entry.1))))

end Report
