import Mathlib.Data.List.Basic
import Mathlib.Data.Nat.Bitwise

/-!
This module contains byte strings, decimal numerals and the FNV-1a hash.
-/

abbrev Bytes := List UInt8

namespace Bytes

instance : LawfulBEq Bytes := inferInstanceAs (LawfulBEq (List UInt8))

def ofAscii (s : String) : Bytes := s.toList.map (fun c => UInt8.ofNat c.toNat)

def toLower (b : Bytes) : Bytes := b.map (fun c => if 65 ≤ c ∧ c ≤ 90 then c + 32 else c)

theorem append_cons_inj {c : UInt8} {x x' y y' : Bytes} (hx : c ∉ x) (hx' : c ∉ x')
    (h : x ++ c :: y = x' ++ c :: y')
    : x = x' ∧ y = y' := by
  induction x generalizing x' with
  | nil =>
    cases x' with
    | nil => simpa using h
    | cons d x' =>
      simp only [List.nil_append, List.cons_append, List.cons.injEq] at h
      simp [h.1] at hx'
  | cons d x ih =>
    cases x' with
    | nil =>
      simp only [List.nil_append, List.cons_append, List.cons.injEq] at h
      simp [h.1] at hx
    | cons d' x' =>
      simp only [List.cons_append, List.cons.injEq] at h
      rw [List.mem_cons, not_or] at hx hx'
      simp [h.1, ih hx.2 hx'.2 h.2]

def decimal (n : Nat) : Bytes := (Nat.toDigits 10 n).map (fun c => UInt8.ofNat c.toNat)

theorem map_decimal (n : Nat)
    : (decimal n).map (fun b => Char.ofNat b.toNat) = Nat.toDigits 10 n := by
  unfold decimal
  rw [List.map_map]
  calc (Nat.toDigits 10 n).map _
      = (Nat.toDigits 10 n).map id := by
        apply List.map_congr_left
        intro c hc
        have hdigit := Nat.isDigit_of_mem_toDigits (b := 10) (by decide) (by decide) hc
        simp only [Char.isDigit, Bool.and_eq_true, decide_eq_true_eq] at hdigit
        have hle : c.toNat ≤ 57 := hdigit.2
        have hbyte : (UInt8.ofNat c.toNat).toNat = c.toNat := by
          rw [UInt8.toNat_ofNat']
          omega
        simp [hbyte]
    _ = Nat.toDigits 10 n := List.map_id _

theorem decimal_injective {m n : Nat} (h : decimal m = decimal n) : m = n := by
  have hm := map_decimal m
  rw [h, map_decimal n] at hm
  calc m
      = Nat.ofDigitChars 10 (Nat.toDigits 10 m) 0 := Nat.ofDigitChars_ten_toDigits.symm
    _ = Nat.ofDigitChars 10 (Nat.toDigits 10 n) 0 := by rw [hm]
    _ = n := Nat.ofDigitChars_ten_toDigits

theorem decimal_ne_nil (n : Nat) : decimal n ≠ [] := by
  simp [decimal, Nat.toDigits_ne_nil]

theorem digit_of_mem_decimal {n : Nat} {b : UInt8} (h : b ∈ decimal n) : 48 ≤ b ∧ b ≤ 57 := by
  rcases List.mem_map.mp h with ⟨c, hc, hb⟩
  have hdigit := Nat.isDigit_of_mem_toDigits (b := 10) (by decide) (by decide) hc
  simp only [Char.isDigit, Bool.and_eq_true, decide_eq_true_eq] at hdigit
  have hge : 48 ≤ c.toNat := hdigit.1
  have hle : c.toNat ≤ 57 := hdigit.2
  simp [← hb, UInt8.le_iff_toNat_le]
  omega

end Bytes

namespace Fnv

def prime : Nat := 1099511628211

def offset : Nat := 14695981039346656037

def write (hash : Nat) (c : UInt8) : Nat := ((hash ^^^ c.toNat) * prime) % 2 ^ 64

def sum64a (b : Bytes) : Nat := b.foldl write offset

theorem sum64a_lt (b : Bytes) : sum64a b < 2 ^ 64 := by
  unfold sum64a
  cases List.eq_nil_or_concat b with
  | inl h =>
    subst h
    decide
  | inr h =>
    rcases h with ⟨init, c, rfl⟩
    rw [List.concat_eq_append, List.foldl_concat]
    apply Nat.mod_lt
    decide

end Fnv
