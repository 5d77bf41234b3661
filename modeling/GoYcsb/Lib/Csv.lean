import GoYcsb.Lib.Decimal
import GoYcsb.Lib.Strings

/-!
This module contains signed decimal numerals and texts of comma separated fields, with how they are read back.
-/

namespace Bytes

def ofInt (x : Int) : Bytes := if x < 0 then 45 :: decimal x.natAbs else decimal x.natAbs

def toInt (b : Bytes) : Int := if b.head? = some 45 then -(value b.tail : Int) else (value b : Int)

theorem mem_ofInt {x : Int} {c : UInt8} (h : c ∈ ofInt x) : c = 45 ∨ (48 ≤ c ∧ c ≤ 57) := by
  unfold ofInt at h
  split at h
  . rw [List.mem_cons] at h
    cases h with
    | inl heq => exact .inl heq
    | inr hmem => exact .inr (digit_of_mem_decimal hmem)
  . exact .inr (digit_of_mem_decimal h)

theorem head?_decimal (n : Nat) : (decimal n).head? ≠ some 45 := by
  intro h
  have hdigit := digit_of_mem_decimal (List.mem_of_mem_head? h)
  exact absurd hdigit.1 (by decide)

theorem toInt_ofInt (x : Int) : toInt (ofInt x) = x := by
  unfold ofInt toInt
  split
  . next hneg =>
    rw [List.head?_cons, if_pos rfl, List.tail_cons, value_decimal]
    omega
  . next hneg =>
    rw [if_neg (head?_decimal _), value_decimal]
    omega

end Bytes

namespace Csv

def line (fields : List Bytes) : Bytes := Strings.join [44] fields ++ [10]

def text (rows : List (List Bytes)) : Bytes := rows.flatMap line

def parse (b : Bytes) : List (List Bytes) := ((Strings.split 10 b).dropLast).map (Strings.split 44)

def Plain (field : Bytes) : Prop := (44 : UInt8) ∉ field ∧ (10 : UInt8) ∉ field

instance (field : Bytes) : Decidable (Plain field) := inferInstanceAs (Decidable (_ ∧ _))

theorem plain_ofInt (x : Int) : Plain (Bytes.ofInt x) := by
  constructor
  . intro h
    cases Bytes.mem_ofInt h with
    | inl heq => exact absurd heq (by decide)
    | inr hdigit => exact absurd hdigit.1 (by decide)
  . intro h
    cases Bytes.mem_ofInt h with
    | inl heq => exact absurd heq (by decide)
    | inr hdigit => exact absurd hdigit.1 (by decide)

theorem split_join {fields : List Bytes} (hne : fields ≠ []) (h : ∀ field ∈ fields, Plain field)
    : Strings.split 44 (Strings.join [44] fields) = fields := by
  induction fields with
  | nil => exact absurd rfl hne
  | cons field fields ih =>
    rw [List.forall_mem_cons] at h
    cases fields with
    | nil =>
      rw [Strings.join_singleton]
      exact Strings.split_of_not_mem h.1.1
    | cons field' fields =>
      rw [Strings.join_cons_cons, List.singleton_append, Strings.split_append_cons h.1.1,
        ih (List.cons_ne_nil _ _) h.2]

theorem not_mem_join {fields : List Bytes} (h : ∀ field ∈ fields, Plain field)
    : (10 : UInt8) ∉ Strings.join [44] fields := by
  intro hmem
  rcases Strings.mem_join hmem with hsep | ⟨field, hfield, hc⟩
  . exact absurd (List.mem_singleton.mp hsep) (by decide)
  . exact (h field hfield).2 hc

theorem split_text {rows : List (List Bytes)} (h : ∀ row ∈ rows, ∀ field ∈ row, Plain field)
    : Strings.split 10 (text rows) = rows.map (Strings.join [44]) ++ [[]] := by
  induction rows with
  | nil => exact Strings.split_of_not_mem (List.not_mem_nil)
  | cons row rows ih =>
    rw [List.forall_mem_cons] at h
    have hcons : text (row :: rows) = Strings.join [44] row ++ 10 :: text rows := by
      unfold text line
      rw [List.flatMap_cons, List.append_assoc]
      rfl
    rw [hcons, Strings.split_append_cons (not_mem_join h.1), ih h.2]
    rfl

theorem parse_text {rows : List (List Bytes)} (hne : ∀ row ∈ rows, row ≠ [])
    (h : ∀ row ∈ rows, ∀ field ∈ row, Plain field)
    : parse (text rows) = rows := by
  unfold parse
  rw [split_text h, List.dropLast_concat, List.map_map]
  have hrow : rows.map (Strings.split 44 ∘ Strings.join [44]) = rows.map id := by
    apply List.map_congr_left
    intro row hrow
    exact split_join (hne row hrow) (h row hrow)
  rw [hrow, List.map_id]

end Csv
