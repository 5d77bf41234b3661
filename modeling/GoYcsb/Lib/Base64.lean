import GoYcsb.Lib.Bytes

/-!
This module contains the base64 encoding of byte strings, with padding.
-/

namespace Base64

def digit (n : Nat) : UInt8 :=
  if n < 26 then
    UInt8.ofNat (65 + n)
  else if n < 52 then
    UInt8.ofNat (97 + (n - 26))
  else if n < 62 then
    UInt8.ofNat (48 + (n - 52))
  else if n = 62 then
    43
  else
    47

def value (c : UInt8) : Nat :=
  if 97 ≤ c then
    c.toNat - 97 + 26
  else if 65 ≤ c then
    c.toNat - 65
  else if 48 ≤ c then
    c.toNat - 48 + 52
  else if c = 43 then
    62
  else
    63

def encode (b : Bytes) : Bytes :=
  match b with
  | [] => []
  | [x] => [digit (x.toNat / 4), digit (x.toNat % 4 * 16), 61, 61]
  | [x, y] => [digit (x.toNat / 4), digit (x.toNat % 4 * 16 + y.toNat / 16), digit (y.toNat % 16 * 4), 61]
  | x :: y :: z :: b =>
    digit (x.toNat / 4)
      :: digit (x.toNat % 4 * 16 + y.toNat / 16)
      :: digit (y.toNat % 16 * 4 + z.toNat / 64)
      :: digit (z.toNat % 64)
      :: encode b

def first (p q : UInt8) : UInt8 := UInt8.ofNat (value p * 4 + value q / 16)

def second (q r : UInt8) : UInt8 := UInt8.ofNat (value q % 16 * 16 + value r / 4)

def third (r s : UInt8) : UInt8 := UInt8.ofNat (value r % 4 * 64 + value s)

def decode (text : Bytes) : Bytes :=
  match text with
  | p :: q :: r :: s :: text =>
    if r = 61 then
      [first p q]
    else if s = 61 then
      [first p q, second q r]
    else
      first p q :: second q r :: third r s :: decode text
  | _ => []

theorem value_digit {n : Nat} (h : n < 64) : value (digit n) = n := by
  have hall : ∀ n < 64, value (digit n) = n := by decide
  exact hall n h

theorem digit_ne_pad {n : Nat} (h : n < 64) : digit n ≠ 61 := by
  have hall : ∀ n < 64, digit n ≠ 61 := by decide
  exact hall n h

theorem first_digits (x : UInt8) {n : Nat} (hn : n < 16)
    : first (digit (x.toNat / 4)) (digit (x.toNat % 4 * 16 + n)) = x := by
  have hx := x.toNat_lt
  have heq : x.toNat / 4 * 4 + (x.toNat % 4 * 16 + n) / 16 = x.toNat := by omega
  rw [first, value_digit (by omega), value_digit (by omega), heq, UInt8.ofNat_toNat]

theorem second_digits (y : UInt8) {m n : Nat} (hm : m < 4) (hn : n < 4)
    : second (digit (m * 16 + y.toNat / 16)) (digit (y.toNat % 16 * 4 + n)) = y := by
  have hy := y.toNat_lt
  have heq : (m * 16 + y.toNat / 16) % 16 * 16 + (y.toNat % 16 * 4 + n) / 4 = y.toNat := by omega
  rw [second, value_digit (by omega), value_digit (by omega), heq, UInt8.ofNat_toNat]

theorem third_digits (z : UInt8) {m : Nat} (hm : m < 16)
    : third (digit (m * 4 + z.toNat / 64)) (digit (z.toNat % 64)) = z := by
  have hz := z.toNat_lt
  have heq : (m * 4 + z.toNat / 64) % 4 * 64 + z.toNat % 64 = z.toNat := by omega
  rw [third, value_digit (by omega), value_digit (by omega), heq, UInt8.ofNat_toNat]

theorem decode_of_encode (b : Bytes) : decode (encode b) = b := by
  induction b using encode.induct with
  | case1 => rfl
  | case2 x =>
    have hfirst := first_digits x (n := 0) (by decide)
    rw [Nat.add_zero] at hfirst
    rw [encode, decode, if_pos rfl, hfirst]
  | case3 x y =>
    have hy := y.toNat_lt
    have hsecond := second_digits y (m := x.toNat % 4) (n := 0) (by omega) (by decide)
    rw [Nat.add_zero] at hsecond
    rw [encode, decode, if_neg (digit_ne_pad (by omega)), if_pos rfl, first_digits x (by omega), hsecond]
  | case4 x y z b ih =>
    have hy := y.toNat_lt
    have hz := z.toNat_lt
    rw [encode, decode, if_neg (digit_ne_pad (by omega)), if_neg (digit_ne_pad (by omega)), ih]
    rw [first_digits x (by omega), second_digits y (by omega) (by omega), third_digits z (by omega)]

theorem length_le_encode (b : Bytes) : b.length ≤ (encode b).length := by
  induction b using encode.induct with
  | case1 => simp
  | case2 x => simp [encode]
  | case3 x y => simp [encode]
  | case4 x y z b ih =>
    simp only [encode, List.length_cons]
    omega

end Base64
