import GoYcsb.Lib.Memory
import GoYcsb.Workload.Impl.Create

/-!
This module contains the building of keys and of values in buffers from the pool. A function that takes
a buffer from the pool gets it as the argument `buf`.
-/

-- `%0*d`
def sprintfPadded (width n : Int) : Bytes :=
  let sign := if n < 0 then Bytes.ofAscii "-" else []
  let digits := Bytes.decimal n.natAbs
  if width < -1000000 ∨ 1000000 < width then
    Bytes.ofAscii "%!(BADWIDTH)" ++ sign ++ digits
  else
    let pad := width.natAbs - sign.length - digits.length
    if width < 0 then
      sign ++ digits ++ List.replicate pad 32
    else
      sign ++ List.replicate pad 48 ++ digits

def buildKeyName (c : Core) (keyNum : Int) : Bytes :=
  let keyNum := if !c.orderedInserts then Util.hash64 keyNum else keyNum
  c.keyPrefix ++ sprintfPadded c.zeroPadding keyNum

def makeBuffer (m : Memory) (size : Int) : Outcome Buffer :=
  if size < 0 ∨ m.limit < size then
    .panic "runtime error: makeslice: len out of range"
  else
    let (slice, memory) := m.alloc (List.replicate size.toNat 0) size.toNat
    .ret { memory, slice }

def getValueBuffer (m : Memory) (buf : Slice) (size : Int) : Outcome Buffer :=
  let capacity := m.cap buf
  if size ≤ capacity then
    if size < 0 then
      .panic s!"runtime error: slice bounds out of range [:{size}]"
    else
      .ret { memory := m, slice := { buf with len := size.toNat } }
  else
    makeBuffer m size

def truncate (b : Buffer) (n : Int) : Outcome Buffer :=
  if n < 0 ∨ b.slice.len < n then
    .panic "bytes.Buffer: truncation out of range"
  else
    .ret { b with slice := { b.slice with len := n.toNat } }

def writeText (slack : Nat → Nat) (b : Buffer) (key lowered : Bytes) : Outcome Buffer := do
  let b ← b.write slack key
  let b ← b.write slack [58]
  b.write slack lowered

-- Every turn of the loop writes two bytes or more.
def writeHashes (slack : Nat → Nat) (size : Int) (fuel : Nat) (b : Buffer) : Outcome Buffer :=
  if b.slice.len < size then
    match fuel with
    | 0 => .running
    | fuel + 1 => do
      let b ← b.write slack [58]
      let n := Util.bytesHash64 b.bytes
      let b ← b.write slack (Bytes.decimal (n % 2 ^ 64).toNat)
      writeHashes slack size fuel b
  else
    .ret b

-- `strings.ToLower`, which is not only about ASCII, is any function.
def buildDeterministicValueWith (toLower : Bytes → Bytes) (slack : Nat → Nat) (m : Memory) (buf : Slice) (size : Int)
    (key fieldKey : Bytes) : Outcome Buffer := do
  let b ← getValueBuffer m buf (I64.add size 21)
  let b := { b with slice := { b.slice with len := 0 } }
  let b ← writeText slack b key (toLower fieldKey)
  let b ← writeHashes slack size size.toNat b
  truncate b size

def buildDeterministicValue (slack : Nat → Nat) (m : Memory) (buf : Slice) (size : Int) (key fieldKey : Bytes)
    : Outcome Buffer :=
  buildDeterministicValueWith Bytes.toLower slack m buf size key fieldKey

def letters : Bytes := Bytes.ofAscii "abcdefghijklmnopqrstuvwxyzABCDEFGHIJKLMNOPQRSTUVWXYZ"

def randBytes (random : Nat → Nat) (n : Nat) : Bytes :=
  (List.range n).map (fun i => letters.getD (random i % letters.length) 0)

def buildRandomValue (random : Nat → Nat) (m : Memory) (buf : Slice) (size : Int) : Outcome Buffer := do
  let b ← getValueBuffer m buf size
  let b := { b with slice := { b.slice with len := 0 } }
  b.write (fun _ => 0) (randBytes random size.toNat)

structure Build where
  memory : Memory
  -- none if the pool is empty
  pooled : Option Slice
  slack : Nat → Nat
  draw : Draw
  random : Nat → Nat

def Build.getBuffer (c : Core) (build : Build) : Outcome Buffer :=
  match build.pooled with
  | some slice => .ret { memory := build.memory, slice }
  | none => makeBuffer build.memory c.fieldLength

def buildValue (P : Platform) (c : Core) (build : Build) (key fieldKey : Bytes) : Outcome Buffer := do
  let (size, _) ← c.fieldLengthGenerator.next P 0 build.draw
  let b ← build.getBuffer c
  if c.dataIntegrity then
    buildDeterministicValue build.slack b.memory b.slice size key fieldKey
  else
    buildRandomValue build.random b.memory b.slice size

-- The value that belongs to a key and a field: the key and the field, followed by hashes of all that
-- precedes them, up to the size.
def hashes (size fuel : Nat) (b : Bytes) : Bytes :=
  match fuel with
  | 0 => b
  | fuel + 1 =>
    if b.length < size then
      hashes size fuel (b ++ [58] ++ Bytes.decimal (Fnv.sum64a (b ++ [58])))
    else
      b

def loweredValue (size : Nat) (key lowered : Bytes) : Bytes := (hashes size size (key ++ [58] ++ lowered)).take size

def deterministicValue (size : Nat) (key fieldKey : Bytes) : Bytes := loweredValue size key fieldKey.toLower
