import GoYcsb.Lib.Bytes
import Mathlib.Data.List.Basic

/-!
This module contains decimal numerals that are padded with zeros to a width: how they are read back and how
they are ordered.
-/

namespace Bytes

def digit (n : Nat) : UInt8 := UInt8.ofNat (48 + n % 10)

theorem toNat_digit (n : Nat) : (digit n).toNat = 48 + n % 10 := by
  unfold digit
  rw [UInt8.toNat_ofNat']
  omega

theorem decimal_eq (n : Nat)
    : decimal n = if n < 10 then [digit n] else decimal (n / 10) ++ [digit n] := by
  have hdigit : UInt8.ofNat (Nat.digitChar (n % 10)).toNat = digit n := by
    rw [Nat.toNat_digitChar_of_lt_ten (Nat.mod_lt n (by decide))]
    rfl
  unfold decimal
  rw [Nat.toDigits_eq_if (by decide)]
  split
  . next hlt =>
    rw [Nat.mod_eq_of_lt hlt] at hdigit
    simp [hdigit]
  . simp [hdigit]

def value (b : Bytes) : Nat := b.foldl (fun n c => n * 10 + (c.toNat - 48)) 0

theorem value_concat (b : Bytes) (c : UInt8) : value (b ++ [c]) = value b * 10 + (c.toNat - 48) := by
  unfold value
  rw [List.foldl_concat]

def padded (width n : Nat) : Bytes := List.replicate (width - (decimal n).length) 48 ++ decimal n

theorem digit_of_mem_padded {width n : Nat} {b : UInt8} (h : b ∈ padded width n) : 48 ≤ b ∧ b ≤ 57 := by
  unfold padded at h
  rw [List.mem_append] at h
  cases h with
  | inl h =>
    rw [List.eq_of_mem_replicate h]
    decide
  | inr h => exact digit_of_mem_decimal h

theorem padded_concat {width n : Nat} (h : 0 < width ∨ 10 ≤ n)
    : padded (width + 1) n = padded width (n / 10) ++ [digit n] := by
  unfold padded
  rw [decimal_eq n]
  split
  . next hlt =>
    have hzero : decimal (n / 10) = [48] := by
      rw [Nat.div_eq_of_lt hlt]
      rfl
    have hpos : 0 < width := by omega
    rw [hzero]
    congr 1
    rw [← List.replicate_succ']
    congr 1
    simp
    omega
  . rw [← List.append_assoc, List.length_append]
    congr 3
    simp

theorem length_padded {width n : Nat} (h : n < 10 ^ width) (hpos : 0 < width)
    : (padded width n).length = width := by
  induction width generalizing n with
  | zero => omega
  | succ width ih =>
    cases Nat.eq_zero_or_pos width with
    | inl hzero =>
      subst hzero
      have hlt : n < 10 := by omega
      unfold padded
      rw [decimal_eq]
      simp [hlt]
    | inr hwidth =>
      have htenth : n / 10 < 10 ^ width := by
        rw [Nat.pow_succ] at h
        omega
      rw [padded_concat (.inl hwidth), List.length_append, ih htenth hwidth]
      rfl

theorem length_decimal_le {width n : Nat} (h : n < 10 ^ width) (hpos : 0 < width) : (decimal n).length ≤ width := by
  have hlength := length_padded h hpos
  unfold padded at hlength
  rw [List.length_append, List.length_replicate] at hlength
  omega

theorem value_decimal (n : Nat) : value (decimal n) = n := by
  induction n using Nat.strongRecOn with
  | _ n ih =>
    rw [decimal_eq]
    split
    . have hdigit := toNat_digit n
      simp [value]
      omega
    . rw [value_concat, ih (n / 10) (by omega), toNat_digit]
      omega

theorem value_padded (width n : Nat) : value (padded width n) = n := by
  have hzeros : ∀ k, (List.replicate k (48 : UInt8)).foldl (fun n c => n * 10 + (c.toNat - 48)) 0 = 0 := by
    intro k
    induction k with
    | zero => rfl
    | succ k ih => simpa [List.replicate_succ] using ih
  unfold padded value
  rw [List.foldl_append, hzeros]
  exact value_decimal n

theorem padded_injective {width m n : Nat} (h : padded width m = padded width n) : m = n := by
  rw [← value_padded width m, h, value_padded]

theorem append_lt_append {x x' : Bytes} (h : x < x') (hlength : x.length = x'.length) (y y' : Bytes)
    : x ++ y < x' ++ y' := by
  induction x generalizing x' with
  | nil =>
    cases x' with
    | nil => simp at h
    | cons c x' => simp at hlength
  | cons c x ih =>
    cases x' with
    | nil => simp at hlength
    | cons c' x' =>
      rw [List.cons_lt_cons_iff] at h
      rw [List.cons_append, List.cons_append, List.cons_lt_cons_iff]
      cases h with
      | inl hlt => exact .inl hlt
      | inr heq => exact .inr ⟨heq.1, ih heq.2 (by simpa using hlength)⟩

theorem padded_lt_padded {width m n : Nat} (h : m < n) (hn : n < 10 ^ width) : padded width m < padded width n := by
  induction width generalizing m n with
  | zero => omega
  | succ width ih =>
    have hlast : ∀ m n, m % 10 < n % 10 → [digit m] < [digit n] := by
      intro m n hlt
      rw [List.cons_lt_cons_iff]
      left
      rw [UInt8.lt_iff_toNat_lt, toNat_digit, toNat_digit]
      omega
    cases Nat.eq_zero_or_pos width with
    | inl hzero =>
      subst hzero
      have hm : m < 10 := by omega
      have hn : n < 10 := by omega
      unfold padded
      rw [decimal_eq m, decimal_eq n]
      simp only [hm, hn, if_true, List.length_singleton]
      exact List.append_left_lt (hlast m n (by omega))
    | inr hwidth =>
      rw [Nat.pow_succ] at hn
      rw [padded_concat (.inl hwidth), padded_concat (.inl hwidth)]
      by_cases htenth : m / 10 = n / 10
      . rw [htenth]
        exact List.append_left_lt (hlast m n (by omega))
      . apply append_lt_append (ih (by omega) (by omega))
        rw [length_padded (by omega) hwidth, length_padded (by omega) hwidth]

end Bytes
