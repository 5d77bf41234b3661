import GoYcsb.Lib.Strings
import Mathlib.Data.List.TakeWhile

/-!
This module contains files as Go programs read them line by line and as they write them from an offset on.
-/

namespace Bufio

def maxScanTokenSize : Nat := 64 * 1024

-- There is no line after the newline at the end.
def rawLines (content : Bytes) : List Bytes :=
  let lines := Strings.split 10 content
  if lines.getLast? = some [] then lines.dropLast else lines

-- The buffer has to hold one byte more than the line, or it is full before the end of the line is seen.
def fits (line : Bytes) : Bool := line.length < maxScanTokenSize

def dropCR (line : Bytes) : Bytes := Strings.trimSuffix [13] line

/--
The texts that a `Scanner` gives, and its error after the last of them.
-/
def scan (content : Bytes) : List Bytes × Option String :=
  let lines := rawLines content
  ((lines.takeWhile fits).map dropCR, if lines.all fits then none else some "bufio.Scanner: token too long")

theorem dropCR_append (start : Bytes) {b : Bytes} (h : Strings.Trimmed b) : dropCR (start ++ b) = start ++ b := by
  unfold dropCR Strings.trimSuffix
  apply if_neg
  intro hend
  rcases List.isSuffixOf_iff_suffix.mp hend with ⟨rest, hrest⟩
  have hlast := h.last
  rw [← List.getLast?_append_of_ne_nil start h.ne_nil, ← hrest, List.getLast?_concat] at hlast
  revert hlast
  decide

def unlines (lines : List Bytes) : Bytes := lines.flatMap (fun line => line ++ [10])

theorem unlines_cons (line : Bytes) (lines : List Bytes) : unlines (line :: lines) = line ++ 10 :: unlines lines := by
  unfold unlines
  rw [List.flatMap_cons, List.append_assoc]
  rfl

theorem split_unlines {lines : List Bytes} (h : ∀ line ∈ lines, 10 ∉ line)
    : Strings.split 10 (unlines lines) = lines ++ [[]] := by
  induction lines with
  | nil => rfl
  | cons line lines ih =>
    rw [List.forall_mem_cons] at h
    rw [unlines_cons, Strings.split_append_cons h.1, ih h.2]
    rfl

theorem rawLines_unlines {lines : List Bytes} (h : ∀ line ∈ lines, 10 ∉ line) : rawLines (unlines lines) = lines := by
  unfold rawLines
  rw [split_unlines h]
  simp

theorem scan_unlines {lines : List Bytes} (h : ∀ line ∈ lines, 10 ∉ line) (hfits : ∀ line ∈ lines, fits line)
    (hdrop : ∀ line ∈ lines, dropCR line = line)
    : scan (unlines lines) = (lines, none) := by
  unfold scan
  rw [rawLines_unlines h]
  dsimp only
  rw [List.takeWhile_eq_self_iff.mpr hfits, List.map_congr_left hdrop, List.map_id', List.all_eq_true.mpr hfits]
  rfl

theorem unlines_append (lines lines' : List Bytes) : unlines (lines ++ lines') = unlines lines ++ unlines lines' :=
  List.flatMap_append

theorem unlines_inj {lines lines' : List Bytes} (h : ∀ line ∈ lines, 10 ∉ line) (h' : ∀ line ∈ lines', 10 ∉ line)
    (heq : unlines lines = unlines lines')
    : lines = lines' := by
  rw [← rawLines_unlines h, heq, rawLines_unlines h']

theorem getLast?_unlines {lines : List Bytes} (hne : lines ≠ []) : (unlines lines).getLast? = some 10 := by
  rcases List.eq_nil_or_concat lines with hnil | ⟨init, line, hlines⟩
  . contradiction
  . rw [hlines, List.concat_eq_append]
    unfold unlines
    rw [List.flatMap_append, List.flatMap_singleton, ← List.append_assoc, List.getLast?_concat]

theorem count_unlines {lines : List Bytes}
    : (unlines lines).count 10 = (lines.map (fun line => line.count 10)).sum + lines.length := by
  induction lines with
  | nil => rfl
  | cons line lines ih =>
    rw [unlines_cons, List.count_append, List.count_cons_self, ih, List.map_cons, List.sum_cons, List.length_cons]
    omega

end Bufio

structure File where
  content : Bytes
  offset : Nat

namespace File

def write (f : File) (b : Bytes) : File where
  content := f.content.take f.offset ++ b ++ f.content.drop (f.offset + b.length)
  offset := f.offset + b.length

structure Overwritten (before written : Bytes) (f : File) : Prop where
  content : f.content = written ++ before.drop written.length
  offset : f.offset = written.length

variable {before written : Bytes} {f : File}

theorem overwritten_nil (before : Bytes) : Overwritten before [] ⟨before, 0⟩ := ⟨rfl, rfl⟩

theorem Overwritten.write (h : Overwritten before written f) (b : Bytes)
    : Overwritten before (written ++ b) (f.write b) := by
  constructor
  . unfold File.write
    rw [h.content, h.offset]
    dsimp only
    rw [List.take_left, ← List.drop_drop, List.drop_left, List.drop_drop, List.length_append]
  . unfold File.write
    rw [h.offset]
    exact List.length_append.symm

theorem Overwritten.foldl {α : Type} (text : α → Bytes) (step : File → α → File) (l : List α)
    (hstep : ∀ written f a, Overwritten before written f → Overwritten before (written ++ text a) (step f a))
    (h : Overwritten before written f)
    : Overwritten before (written ++ l.flatMap text) (l.foldl step f) := by
  induction l generalizing written f with
  | nil =>
    rw [List.flatMap_nil, List.append_nil]
    exact h
  | cons a l ih =>
    rw [List.flatMap_cons, ← List.append_assoc]
    exact ih (hstep written f a h)

end File
