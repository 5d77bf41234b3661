import GoYcsb.Lib.Bytes
import GoYcsb.Lib.ForkJoin
import GoYcsb.Lib.Int64
import GoYcsb.Lib.KeyRange
import GoYcsb.Prop.Properties

/-!
This module contains `runScanBasedCount` of `cmd/go-ycsb/count.go`, which counts the records of a table by scans from
several threads.
-/

namespace Count

-- The flags of the command. The division by the number of threads panics if it is zero.
structure Flags where
  countThreads : Int := 10
  countBatch : Int := 1000
  deriving DecidableEq, Repr

-- `%d`
def sprintfDecimal (n : Int) : Bytes := (if n < 0 then Bytes.ofAscii "-" else []) ++ Bytes.decimal n.natAbs

def getRecordCount (p : Properties) : Int := getInt64 p.recordCount 0

def getKeyPrefix (p : Properties) : Bytes := p.keyPrefix.getD (Bytes.ofAscii "user")

def keysPerThread (recordCount : Int) (flags : Flags) : Int :=
  let keysPerThread := recordCount.tdiv flags.countThreads
  if keysPerThread = 0 then 1 else keysPerThread

def startIdx (recordCount : Int) (flags : Flags) (threadID : Int) : Int :=
  I64.mul threadID (keysPerThread recordCount flags)

def endIdx (recordCount : Int) (flags : Flags) (threadID : Int) : Int :=
  if threadID = I64.sub flags.countThreads 1 then
    recordCount
  else
    I64.add (startIdx recordCount flags threadID) (keysPerThread recordCount flags)

structure Thread where
  idx : Int
  localCount : Int
  deriving DecidableEq, Repr

abbrev Scan := Bytes → Int → Except String (List Bytes)

def turn (scan : Scan) (keyPrefix : Bytes) (countBatch endIdx : Int) (thread : Thread) : Thread ⊕ Int :=
  if thread.idx < endIdx then
    let batchSize :=
      if endIdx < I64.add thread.idx countBatch then I64.sub endIdx thread.idx else countBatch
    let key := keyPrefix ++ sprintfDecimal thread.idx
    let localCount :=
      match scan key batchSize with
      | .error _ => thread.localCount
      | .ok rows => I64.add thread.localCount rows.length
    .inl { idx := I64.add thread.idx countBatch, localCount }
  else
    .inr thread.localCount

abbrev ThreadID (flags : Flags) := Fin flags.countThreads.toNat

abbrev State (flags : Flags) := ForkJoin.State (ThreadID flags) Thread Int

def runScanBasedCount (scan : Scan) (p : Properties) (flags : Flags)
    : ForkJoin.Machine (ThreadID flags) Thread Int where
  turn threadID := turn scan (getKeyPrefix p) flags.countBatch (endIdx (getRecordCount p) flags threadID.val)
  add := I64.add

def start (p : Properties) (flags : Flags) : State flags :=
  ForkJoin.fork 0 (fun threadID => { idx := startIdx (getRecordCount p) flags threadID.val, localCount := 0 })

/--
The `Scan` of a backend that keeps its keys in the order of their bytes.
-/
def orderedScan (keys : List Bytes) : Scan := fun key count =>
  .ok ((KeyRange.keysWhere (fun k => key ≤ k) keys).take count.toNat)

end Count
