import GoYcsb.Lib.Bytes

/-!
This module contains the functions of Go's `strings` that cut, trim and join texts, and what the cuts give for a text
that was put together from its parts.
-/

namespace Strings

def split (sep : UInt8) (b : Bytes) : List Bytes := b.splitOn sep

def fieldsFunc (p : UInt8 → Bool) (b : Bytes) : List Bytes := (b.splitOnP p).filter (fun field => !field.isEmpty)

def join (sep : Bytes) (args : List Bytes) : Bytes := sep.intercalate args

def hasPrefix (start b : Bytes) : Bool := start.isPrefixOf b

def trimSuffix (last b : Bytes) : Bytes := if last.isSuffixOf b then b.take (b.length - last.length) else b

-- The characters with `unicode.IsSpace` as UTF-8 has them.
def spaces : List Bytes :=
  [[9], [10], [11], [12], [13], [32], [0xc2, 0x85], [0xc2, 0xa0], [0xe1, 0x9a, 0x80], [0xe2, 0x80, 0x80],
    [0xe2, 0x80, 0x81], [0xe2, 0x80, 0x82], [0xe2, 0x80, 0x83], [0xe2, 0x80, 0x84], [0xe2, 0x80, 0x85],
    [0xe2, 0x80, 0x86], [0xe2, 0x80, 0x87], [0xe2, 0x80, 0x88], [0xe2, 0x80, 0x89], [0xe2, 0x80, 0x8a],
    [0xe2, 0x80, 0xa8], [0xe2, 0x80, 0xa9], [0xe2, 0x80, 0xaf], [0xe2, 0x81, 0x9f], [0xe3, 0x80, 0x80]]

-- A turn takes one byte at least, so that there are no more of them than bytes.
def trimLeft (fuel : Nat) (b : Bytes) : Bytes :=
  match fuel with
  | 0 => b
  | fuel + 1 =>
    match spaces.find? (fun space => space.isPrefixOf b) with
    | some space => trimLeft fuel (b.drop space.length)
    | none => b

def trimRight (fuel : Nat) (b : Bytes) : Bytes :=
  match fuel with
  | 0 => b
  | fuel + 1 =>
    match spaces.find? (fun space => space.isSuffixOf b) with
    | some space => trimRight fuel (b.take (b.length - space.length))
    | none => b

def trimSpace (b : Bytes) : Bytes :=
  let b := trimLeft b.length b
  trimRight b.length b

-- The number of characters: a byte that goes on with one is none.
def runeCount (b : Bytes) : Nat := b.countP (fun c => !(0x80 ≤ c && c ≤ 0xbf))

-- `%-6s` for the width 6.
def padRight (width : Nat) (b : Bytes) : Bytes := b ++ List.replicate (width - runeCount b) 32

example : trimSpace (Bytes.ofAscii " \t a b \r\n" ++ [0xc2, 0xa0]) = Bytes.ofAscii "a b" := by decide

section Split

theorem split_of_not_mem {sep : UInt8} {b : Bytes} (h : sep ∉ b) : split sep b = [b] := by
  unfold split List.splitOn
  apply List.splitOnP_eq_singleton
  intro c hc
  rw [beq_eq_false_iff_ne]
  rintro rfl
  exact h hc

theorem split_append_cons {sep : UInt8} {b : Bytes} (h : sep ∉ b) (rest : Bytes)
    : split sep (b ++ sep :: rest) = b :: split sep rest := by
  unfold split List.splitOn
  apply List.splitOnP_append_cons_of_forall_mem
  . intro c hc
    rw [beq_eq_false_iff_ne]
    rintro rfl
    exact h hc
  . exact beq_self_eq_true sep

theorem length_split (sep : UInt8) (b : Bytes) : (split sep b).length = b.count sep + 1 := by
  unfold split List.splitOn
  induction b with
  | nil => rfl
  | cons c b ih =>
    rw [List.splitOnP_cons_eq_if_modifyHead, List.count_cons]
    split
    . rw [List.length_cons, ih]
    . rw [List.length_modifyHead, ih]

theorem headD_split (sep : UInt8) (b : Bytes) : (split sep b).headD [] = b.takeWhile (· != sep) := by
  unfold split List.splitOn
  induction b with
  | nil => rfl
  | cons c b ih =>
    rw [List.splitOnP_cons_eq_if_modifyHead, List.takeWhile_cons, bne]
    cases c == sep with
    | true => rfl
    | false =>
      rw [← ih]
      cases hsplit : b.splitOnP (· == sep) with
      | nil => exact absurd hsplit (List.splitOnP_ne_nil _ _)
      | cons part parts => rfl

variable {p : UInt8 → Bool} {b : Bytes}

theorem fieldsFunc_of_not_mem (h : ∀ c ∈ b, p c = false) (hne : b ≠ []) : fieldsFunc p b = [b] := by
  unfold fieldsFunc
  rw [List.splitOnP_eq_singleton h]
  simp [hne]

theorem fieldsFunc_append_cons (h : ∀ c ∈ b, p c = false) (hne : b ≠ []) {sep : UInt8} (hsep : p sep = true)
    (rest : Bytes)
    : fieldsFunc p (b ++ sep :: rest) = b :: fieldsFunc p rest := by
  unfold fieldsFunc
  rw [List.splitOnP_append_cons_of_forall_mem h sep hsep]
  simp [hne]

end Split

section Join

theorem join_singleton (sep b : Bytes) : join sep [b] = b := List.append_nil b

theorem join_cons_cons (sep b b' : Bytes) (args : List Bytes)
    : join sep (b :: b' :: args) = b ++ (sep ++ join sep (b' :: args)) := rfl

theorem mem_join {sep : Bytes} {args : List Bytes} {c : UInt8} (h : c ∈ join sep args)
    : c ∈ sep ∨ ∃ b ∈ args, c ∈ b := by
  induction args with
  | nil => cases h
  | cons b args ih =>
    cases args with
    | nil =>
      rw [join_singleton] at h
      exact .inr ⟨b, List.mem_cons_self, h⟩
    | cons b' args =>
      rw [join_cons_cons, List.mem_append, List.mem_append] at h
      rcases h with h | h | h
      . exact .inr ⟨b, List.mem_cons_self, h⟩
      . exact .inl h
      . cases ih h with
        | inl hsep => exact .inl hsep
        | inr hargs =>
          rcases hargs with ⟨b'', hmem, hc⟩
          exact .inr ⟨b'', List.mem_cons_of_mem b hmem, hc⟩

end Join

section Trim

def Graphic (c : UInt8) : Prop := 33 ≤ c ∧ c ≤ 126

instance (c : UInt8) : Decidable (Graphic c) := inferInstanceAs (Decidable (33 ≤ c ∧ c ≤ 126))

structure Trimmed (b : Bytes) : Prop where
  head : b.head?.any (fun c => decide (Graphic c)) = true
  last : b.getLast?.any (fun c => decide (Graphic c)) = true

theorem trimmed_iff {b : Bytes}
    : Trimmed b
        ↔
      b.head?.any (fun c => decide (Graphic c)) = true
        ∧
      b.getLast?.any (fun c => decide (Graphic c)) = true :=
  ⟨fun h => ⟨h.head, h.last⟩, fun h => ⟨h.1, h.2⟩⟩

instance (b : Bytes) : Decidable (Trimmed b) := decidable_of_iff _ trimmed_iff.symm

theorem spaces_not_graphic
    : ∀ space ∈ spaces,
        space ≠ []
          ∧
        space.head?.any (fun c => decide (Graphic c)) = false
          ∧
        space.getLast?.any (fun c => decide (Graphic c)) = false := by
  decide

theorem trimLeft_of_graphic {b : Bytes} (h : b.head?.any (fun c => decide (Graphic c)) = true) (fuel : Nat)
    : trimLeft fuel b = b := by
  have hfind : spaces.find? (fun space => space.isPrefixOf b) = none := by
    rw [List.find?_eq_none]
    intro space hspace hstart
    rcases spaces_not_graphic space hspace with ⟨hne, hhead, _⟩
    rcases List.isPrefixOf_iff_prefix.mp hstart with ⟨rest, rfl⟩
    rw [List.head?_append_of_ne_nil _ hne, hhead] at h
    contradiction
  cases fuel with
  | zero => rfl
  | succ fuel =>
    unfold trimLeft
    rw [hfind]

theorem trimRight_of_graphic {b : Bytes} (h : b.getLast?.any (fun c => decide (Graphic c)) = true) (fuel : Nat)
    : trimRight fuel b = b := by
  have hfind : spaces.find? (fun space => space.isSuffixOf b) = none := by
    rw [List.find?_eq_none]
    intro space hspace hend
    rcases spaces_not_graphic space hspace with ⟨hne, _, hlast⟩
    rcases List.isSuffixOf_iff_suffix.mp hend with ⟨rest, rfl⟩
    rw [List.getLast?_append_of_ne_nil _ hne, hlast] at h
    contradiction
  cases fuel with
  | zero => rfl
  | succ fuel =>
    unfold trimRight
    rw [hfind]

theorem trimRight_concat (fuel : Nat) (b : Bytes) : trimRight (fuel + 1) (b ++ [32]) = trimRight fuel b := by
  have hfind : spaces.find? (fun space => space.isSuffixOf (b ++ [32])) = some [32] := by
    unfold List.isSuffixOf
    rw [List.reverse_append]
    rfl
  rw [trimRight, hfind]
  simp

theorem trimRight_blanks {b : Bytes} (h : b.getLast?.any (fun c => decide (Graphic c)) = true) {fuel n : Nat}
    (hfuel : n ≤ fuel)
    : trimRight fuel (b ++ List.replicate n 32) = b := by
  induction n generalizing fuel with
  | zero =>
    rw [List.replicate_zero, List.append_nil]
    exact trimRight_of_graphic h fuel
  | succ n ih =>
    cases fuel with
    | zero => omega
    | succ fuel =>
      rw [List.replicate_succ', ← List.append_assoc, trimRight_concat]
      exact ih (by omega)

theorem Trimmed.ne_nil {b : Bytes} (h : Trimmed b) : b ≠ [] := by
  rintro rfl
  cases h.head

theorem Trimmed.trimSpace {b : Bytes} (h : Trimmed b) : trimSpace b = b := by
  unfold Strings.trimSpace
  rw [trimLeft_of_graphic h.head, trimRight_of_graphic h.last]

theorem Trimmed.trimSpace_cons {b : Bytes} (h : Trimmed b) : Strings.trimSpace (32 :: b) = b := by
  have hfind : spaces.find? (fun space => space.isPrefixOf (32 :: b)) = some [32] := rfl
  have hleft : Strings.trimLeft (b.length + 1) (32 :: b) = b := by
    unfold Strings.trimLeft
    rw [hfind]
    exact trimLeft_of_graphic h.head b.length
  unfold Strings.trimSpace
  rw [List.length_cons, hleft, trimRight_of_graphic h.last]

theorem Trimmed.trimSpace_blanks {b : Bytes} (h : Trimmed b) (n : Nat)
    : Strings.trimSpace (b ++ List.replicate n 32) = b := by
  have hhead : (b ++ List.replicate n 32).head?.any (fun c => decide (Graphic c)) = true := by
    rw [List.head?_append_of_ne_nil _ h.ne_nil]
    exact h.head
  unfold Strings.trimSpace
  rw [trimLeft_of_graphic hhead]
  apply trimRight_blanks h.last
  rw [List.length_append, List.length_replicate]
  omega

theorem padRight_concat (width : Nat) (b : Bytes)
    : padRight width b ++ [32] = b ++ List.replicate (width - runeCount b + 1) 32 := by
  unfold padRight
  rw [List.append_assoc, ← List.replicate_succ']

theorem Trimmed.of_graphic {b : Bytes} (hne : b ≠ []) (h : ∀ c ∈ b, Graphic c) : Trimmed b := by
  constructor
  . rw [List.head?_eq_some_head hne]
    exact decide_eq_true (h _ (List.head_mem hne))
  . rw [List.getLast?_eq_some_getLast hne]
    exact decide_eq_true (h _ (List.getLast_mem hne))

theorem Trimmed.append {x y : Bytes} (hx : Trimmed x) (hy : Trimmed y) (z : Bytes) : Trimmed (x ++ z ++ y) := by
  constructor
  . rw [List.append_assoc, List.head?_append_of_ne_nil _ hx.ne_nil]
    exact hx.head
  . rw [List.getLast?_append_of_ne_nil _ hy.ne_nil]
    exact hy.last

theorem Trimmed.join (sep : Bytes) {args : List Bytes} (hne : args ≠ []) (h : ∀ b ∈ args, Trimmed b)
    : Trimmed (join sep args) := by
  induction args with
  | nil => contradiction
  | cons b args ih =>
    rw [List.forall_mem_cons] at h
    cases args with
    | nil =>
      rw [join_singleton]
      exact h.1
    | cons b' args =>
      rw [join_cons_cons, ← List.append_assoc]
      exact h.1.append (ih (List.cons_ne_nil b' args) h.2) sep

end Trim

end Strings
