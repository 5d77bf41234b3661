import GoYcsb.Lib.Bytes
import GoYcsb.Lib.Congruence
import Mathlib.Algebra.BigOperators.Fin
import Mathlib.Tactic.LinearCombination

/-!
This module contains the proof that no eight bytes have the FNV-1a hash `2 ^ 63`.

A byte takes the place of the last byte of the state, whatever it is, so all that a state has to tell is the block of
bytes in front of its last one. Seven bytes would have to lead to the block `2 ^ 55`. The search goes through the first
two of them. For the other five the last block is a sum of six digits, weighted with the powers of the prime, and the
digits are solved for.
-/

namespace Fnv

open Congruence Matrix

-- The operations are written out, which makes them fast to evaluate for the kernel.
def next (block byte : Nat) : Nat :=
  Nat.div (Nat.mod (Nat.mul (Nat.add (Nat.mul block 256) byte) 1099511628211) 18446744073709551616) 256

def last (block byte : Nat) : Nat := Nat.mod (Nat.mul (Nat.add (Nat.mul block 256) byte) 1099511628211) 256

theorem next_eq (block byte : Nat) : next block byte = (block * 256 + byte) * prime % 2 ^ 64 / 256 := rfl

theorem xor_byte (hash : Nat) (c : UInt8) : ∃ byte, byte < 256 ∧ hash ^^^ c.toNat = hash / 256 * 256 + byte := by
  have hc : c.toNat / 2 ^ 8 = 0 := Nat.div_eq_of_lt c.toNat_lt
  have hblock : (hash ^^^ c.toNat) / 2 ^ 8 = hash / 2 ^ 8 := by
    rw [Nat.xor_div_two_pow, hc, Nat.xor_zero]
  refine ⟨(hash ^^^ c.toNat) % 256, by omega, ?_⟩
  omega

theorem exists_foldl_next (hash : Nat) (b : Bytes)
    : ∃ bytes : List Nat,
        bytes.length = b.length ∧ (∀ byte ∈ bytes, byte < 256)
          ∧ b.foldl write hash / 256 = bytes.foldl next (hash / 256) := by
  induction b generalizing hash with
  | nil => exact ⟨[], rfl, by simp, rfl⟩
  | cons c b ih =>
    rcases xor_byte hash c with ⟨byte, hbyte, hxor⟩
    rcases ih (write hash c) with ⟨bytes, hlength, hbytes, hfoldl⟩
    refine ⟨byte :: bytes, by rw [List.length_cons, List.length_cons, hlength], ?_, ?_⟩
    . rw [List.forall_mem_cons]
      exact ⟨hbyte, hbytes⟩
    . rw [List.foldl_cons, List.foldl_cons, hfoldl, next_eq, write, hxor]

-- The prime has an inverse, and the middle of the range is the same again when it is multiplied with it.
theorem eq_of_mul_prime {state : Nat} (hlt : state < 2 ^ 64) (h : state * prime % 2 ^ 64 = 2 ^ 63)
    : state = 2 ^ 63 := by
  have hinv : prime * 14886173955864302971 % 2 ^ 64 = 1 := by decide
  calc
    state = state * (prime * 14886173955864302971 % 2 ^ 64) % 2 ^ 64 := by
      rw [hinv, Nat.mul_one, Nat.mod_eq_of_lt hlt]
    _ = (state * prime % 2 ^ 64) * 14886173955864302971 % 2 ^ 64 := by
      rw [Nat.mul_mod_mod, ← Nat.mul_assoc, Nat.mod_mul_mod]
    _ = 2 ^ 63 * 14886173955864302971 % 2 ^ 64 := by rw [h]
    _ = 2 ^ 63 := by decide

theorem block_of_write {hash : Nat} {c : UInt8} (hlt : hash < 2 ^ 64) (h : write hash c = 2 ^ 63)
    : hash / 256 = 2 ^ 55 := by
  rcases xor_byte hash c with ⟨byte, hbyte, hxor⟩
  unfold write at h
  rw [hxor] at h
  have hstate := eq_of_mul_prime (by omega) h
  omega

/--
Small remainders of a multiple of the powers of the prime, from the zeroth to the fifth one, and what is left of the
sum of the digits with them: its remainder as a function of the block, counted from the least sum, and the difference
to the greatest one.
-/
structure Window where
  weights : Fin 6 → Int
  add : Nat
  mul : Nat
  width : Nat

def Window.remainder (w : Window) (block : Nat) : Nat :=
  Nat.mod (Nat.add w.add (Nat.mul w.mul block)) 18446744073709551616

def window0 : Window where
  weights := ![8107455562062582, 3509890893664258, 84464088609638, -2833942984976814, -1503490379027114,
    -10753435092956894]
  add := 6832133145330811500
  mul := 2752879383796964864
  width := 8854739173631656620

def window1 : Window where
  weights := ![4410605614494224, 5164142811992368, -559839306353520, 5452110822838448, -1535281643037936,
    6302646686563376]
  add := 4366104950672706480
  mul := 16833266521949327360
  width := 9214680374723046720

def window2 : Window where
  weights := ![5046382459189116, -4977183758088268, -1178876700584228, -1973864442898476, -5247281785750212,
    4482579670404340]
  add := 4698015232360126500
  mul := 17299203678086040576
  width := 9252260753580135120

def window3 : Window where
  weights := ![2434785518635867, -521531150890079, -7420022407511405, -2407835907481655, 6373219910648459,
    -1150927258463695]
  add := 14401994186030721608
  mul := 294637378166705920
  width := 9442887540191503290

def window4 : Window where
  weights := ![6236627015456738, -519009115876090, 14335786797857074, 1170023531474934, 42483182452482,
    186509903892582]
  add := 5687502058994916090
  mul := 18398997538313050624
  width := 9832224254540972400

def window5 : Window where
  weights := ![2518874921680656, -3431600937981904, -4253954618046064, 7704392091402160, 644476066068496,
    -10117495039556816]
  add := 7311052387057704480
  mul := 2590078730126544896
  width := 11399830433999853600

def windows : Fin 6 → Window := ![window0, window1, window2, window3, window4, window5]

def bounds : Fin 6 → Int := ![255, 510, 510, 510, 510, 255]

-- What the sum of the digits is modulo `2 ^ 64` if the last block is `2 ^ 55`.
def total (block : Nat) : Int :=
  2 ^ 63 + 255 * (1 + prime + prime ^ 2 + prime ^ 3 + prime ^ 4) - 256 * block * prime ^ 5

theorem remainder_eq (i : Fin 6) (block : Nat) {y : Fin 6 → Int} (hy : Digits bounds y)
    (hsum : 2 ^ 64 ∣ (fun k : Fin 6 => (prime : Int) ^ k.val) ⬝ᵥ y - total block)
    : ((windows i).weights ⬝ᵥ y = low (windows i).weights bounds + (windows i).remainder block)
        ∧
      (windows i).remainder block ≤ (windows i).width := by
  have hmultiple : ∀ i k, (2 : Int) ^ 64 ∣ (windows i).weights k - (windows i).weights 0 * prime ^ k.val := by
    decide +kernel
  have hwidth : ∀ i, high (windows i).weights bounds - low (windows i).weights bounds = (windows i).width
      ∧ ((windows i).width : Int) < 2 ^ 64 := by
    decide +kernel
  have hconst : ∀ i, (2 : Int) ^ 64 ∣ (windows i).weights 0 * (2 ^ 63 + 255 * (1 + prime + prime ^ 2 + prime ^ 3
      + prime ^ 4)) - low (windows i).weights bounds - (windows i).add := by
    decide +kernel
  have hmul : ∀ i, (2 : Int) ^ 64 ∣ - ((windows i).weights 0 * (256 * prime ^ 5)) - (windows i).mul := by
    decide +kernel
  have hemod := hy.emod_eq (hmultiple i) hsum (by rw [(hwidth i).1]; exact (hwidth i).2)
  have hremainder : ((windows i).remainder block : Int)
      = ((windows i).weights 0 * total block - low (windows i).weights bounds) % 2 ^ 64 := by
    have hcast : ((windows i).remainder block : Int) = ((windows i).add + (windows i).mul * block) % 2 ^ 64 := by
      rw [show (windows i).remainder block = ((windows i).add + (windows i).mul * block) % 2 ^ 64 from rfl]
      push_cast
      rfl
    rw [hcast]
    apply Int.emod_eq_emod_iff_emod_sub_eq_zero.mpr
    apply Int.emod_eq_zero_of_dvd
    have hdvd := Int.dvd_add (hconst i) (Dvd.dvd.mul_right (hmul i) block)
    rw [← Int.dvd_neg]
    refine hdvd.trans (dvd_of_eq ?_)
    unfold total
    ring
  have hle := hy.le_high (windows i).weights
  have hw := (hwidth i).1
  omega

def inverse : Matrix (Fin 6) (Fin 6) Int := of ![
  ![544, 697, 847, 976, 638, 132],
  ![943, 1115, -1225, -432, -527, -811],
  ![-133, -348, -387, -422, 970, -181],
  ![-713, 943, -356, -360, 191, 1232],
  ![-684, -106, -926, 1934, 939, 48],
  ![-715, 653, 459, 416, 135, -498]]

def lows : Fin 6 → Int := ![-4954216964346011250, -1068511684189642560, -6822375410533803840,
  -5571675078508643115, -264694649096805900, -6499594568661251760]

def digit1 (block : Nat) : Nat :=
  (943 * window0.remainder block + 1115 * window1.remainder block + 10311821661828195353190
    - (1225 * window2.remainder block + 432 * window3.remainder block + 527 * window4.remainder block
    + 811 * window5.remainder block)) / 2 ^ 64

def digit2 (block : Nat) : Nat :=
  (970 * window4.remainder block + 6941931896667029433300
    - (133 * window0.remainder block + 348 * window1.remainder block + 387 * window2.remainder block
    + 422 * window3.remainder block + 181 * window5.remainder block)) / 2 ^ 64

def digit3 (block : Nat) : Nat :=
  (943 * window1.remainder block + 191 * window4.remainder block + 1232 * window5.remainder block
    - (713 * window0.remainder block + 356 * window2.remainder block + 360 * window3.remainder block
    + 1098738334767133319610)) / 2 ^ 64

def digit4 (block : Nat) : Nat :=
  (1934 * window3.remainder block + 939 * window4.remainder block + 48 * window5.remainder block
    - (684 * window0.remainder block + 106 * window1.remainder block + 926 * window2.remainder block
    + 1516682144342280446790)) / 2 ^ 64

def digit5 (block : Nat) : Nat :=
  (653 * window1.remainder block + 459 * window2.remainder block + 416 * window3.remainder block
    + 135 * window4.remainder block + 596304171202184533650
    - (715 * window0.remainder block + 498 * window5.remainder block)) / 2 ^ 64

theorem eq_div_of_mul_eq {y : Int} {pos neg : Nat} (hy : 0 ≤ y) (h : 2 ^ 64 * y = (pos : Int) - (neg : Int))
    : y = ((pos - neg) / 2 ^ 64 : Nat) := by
  omega

section

variable {block : Nat} {y : Fin 6 → Int} (hy : Digits bounds y)
  (hsum : 2 ^ 64 ∣ (fun k : Fin 6 => (prime : Int) ^ k.val) ⬝ᵥ y - total block)

include hy hsum

theorem mul_digit_eq (k : Fin 6)
    : 2 ^ 64 * y k
        =
      inverse k 0 * (lows 0 + window0.remainder block) + inverse k 1 * (lows 1 + window1.remainder block)
        + inverse k 2 * (lows 2 + window2.remainder block) + inverse k 3 * (lows 3 + window3.remainder block)
        + inverse k 4 * (lows 4 + window4.remainder block) + inverse k 5 * (lows 5 + window5.remainder block) := by
  have hinverse : inverse * of (fun i => (windows i).weights) = (2 ^ 64 : Int) • (1 : Matrix (Fin 6) (Fin 6) Int) := by
    apply Matrix.ext
    decide +kernel
  have hlows : ∀ i, low (windows i).weights bounds = lows i := by
    decide +kernel
  have hweights : of (fun i => (windows i).weights) *ᵥ y = fun i => lows i + (windows i).remainder block := by
    funext i
    rw [← hlows i]
    exact (remainder_eq i block hy hsum).1
  have hsolve := congrFun (smul_eq_mulVec hinverse y) k
  rw [Pi.smul_apply, smul_eq_mul, hweights] at hsolve
  rw [hsolve]
  exact Fin.sum_univ_six (fun i => inverse k i * (lows i + (windows i).remainder block))

theorem digits_eq
    : y 5 = digit5 block ∧ y 4 = digit4 block ∧ y 3 = digit3 block ∧ y 2 = digit2 block ∧ y 1 = digit1 block := by
  have h1 : 2 ^ 64 * y 1 = 943 * (lows 0 + window0.remainder block) + 1115 * (lows 1 + window1.remainder block)
      + -1225 * (lows 2 + window2.remainder block) + -432 * (lows 3 + window3.remainder block)
      + -527 * (lows 4 + window4.remainder block) + -811 * (lows 5 + window5.remainder block) :=
    mul_digit_eq hy hsum 1
  have h2 : 2 ^ 64 * y 2 = -133 * (lows 0 + window0.remainder block) + -348 * (lows 1 + window1.remainder block)
      + -387 * (lows 2 + window2.remainder block) + -422 * (lows 3 + window3.remainder block)
      + 970 * (lows 4 + window4.remainder block) + -181 * (lows 5 + window5.remainder block) :=
    mul_digit_eq hy hsum 2
  have h3 : 2 ^ 64 * y 3 = -713 * (lows 0 + window0.remainder block) + 943 * (lows 1 + window1.remainder block)
      + -356 * (lows 2 + window2.remainder block) + -360 * (lows 3 + window3.remainder block)
      + 191 * (lows 4 + window4.remainder block) + 1232 * (lows 5 + window5.remainder block) :=
    mul_digit_eq hy hsum 3
  have h4 : 2 ^ 64 * y 4 = -684 * (lows 0 + window0.remainder block) + -106 * (lows 1 + window1.remainder block)
      + -926 * (lows 2 + window2.remainder block) + 1934 * (lows 3 + window3.remainder block)
      + 939 * (lows 4 + window4.remainder block) + 48 * (lows 5 + window5.remainder block) :=
    mul_digit_eq hy hsum 4
  have h5 : 2 ^ 64 * y 5 = -715 * (lows 0 + window0.remainder block) + 653 * (lows 1 + window1.remainder block)
      + 459 * (lows 2 + window2.remainder block) + 416 * (lows 3 + window3.remainder block)
      + 135 * (lows 4 + window4.remainder block) + -498 * (lows 5 + window5.remainder block) :=
    mul_digit_eq hy hsum 5
  have hl0 : lows 0 = -4954216964346011250 := rfl
  have hl1 : lows 1 = -1068511684189642560 := rfl
  have hl2 : lows 2 = -6822375410533803840 := rfl
  have hl3 : lows 3 = -5571675078508643115 := rfl
  have hl4 : lows 4 = -264694649096805900 := rfl
  have hl5 : lows 5 = -6499594568661251760 := rfl
  rw [hl0, hl1, hl2, hl3, hl4, hl5] at h1 h2 h3 h4 h5
  refine ⟨eq_div_of_mul_eq (hy.nonneg 5) ?_, eq_div_of_mul_eq (hy.nonneg 4) ?_, eq_div_of_mul_eq (hy.nonneg 3) ?_,
    eq_div_of_mul_eq (hy.nonneg 2) ?_, eq_div_of_mul_eq (hy.nonneg 1) ?_⟩
  . rw [h5]
    push_cast
    ring
  . rw [h4]
    push_cast
    ring
  . rw [h3]
    push_cast
    ring
  . rw [h2]
    push_cast
    ring
  . rw [h1]
    push_cast
    ring

end

-- The kernel evaluates `n` before `f`.
def eager (n : Nat) (f : Nat → Bool) : Bool :=
  match n with
  | 0 => f 0
  | n + 1 => f (Nat.succ n)

theorem eager_eq (n : Nat) (f : Nat → Bool) : eager n f = f n := by
  cases n with
  | zero => rfl
  | succ n => rfl

-- Whether the block and the byte, followed by the bytes for the digits, lead to the block `2 ^ 55`.
def follow (block byte : Nat) (digits : List Nat) : Bool :=
  Nat.ble byte 255 &&
    match digits with
    | [] => Nat.beq (next block byte) 36028797018963968
    | digit :: digits =>
      eager (digit + last block byte) (fun shifted =>
        Nat.ble 255 shifted && eager (next block byte) (fun block => follow block (shifted - 255) digits))

def digitsOf (block byte : Nat) (bytes : List Nat) : List Nat :=
  match bytes with
  | [] => []
  | byte' :: bytes => (byte' + 255 - last block byte) :: digitsOf (next block byte) byte' bytes

theorem last_lt (block byte : Nat) : last block byte < 256 := Nat.mod_lt _ (by decide)

theorem follow_digitsOf {block byte : Nat} {bytes : List Nat} (hbytes : ∀ b ∈ byte :: bytes, b < 256)
    (h : (byte :: bytes).foldl next block = 36028797018963968)
    : follow block byte (digitsOf block byte bytes) = true := by
  induction bytes generalizing block byte with
  | nil =>
    rw [List.forall_mem_cons] at hbytes
    rw [digitsOf, follow, Bool.and_eq_true]
    refine ⟨Nat.ble_eq.mpr (by omega), ?_⟩
    rw [Nat.beq_eq]
    rw [List.foldl_cons, List.foldl_nil] at h
    exact h
  | cons byte' bytes ih =>
    rw [List.forall_mem_cons] at hbytes
    rw [List.foldl_cons] at h
    have hlast := last_lt block byte
    have hshift : byte' + 255 - last block byte + last block byte = byte' + 255 := by omega
    rw [digitsOf, follow, Bool.and_eq_true]
    refine ⟨Nat.ble_eq.mpr (by omega), ?_⟩
    rw [eager_eq, hshift, Bool.and_eq_true, eager_eq, Nat.add_sub_cancel]
    exact ⟨Nat.ble_eq.mpr (by omega), ih hbytes.2 h⟩

def possible (block : Nat) : Bool :=
  cond (Nat.ble (window0.remainder block) window0.width)
    (cond (Nat.ble (window1.remainder block) window1.width)
      (cond (Nat.ble (window2.remainder block) window2.width)
        (cond (Nat.ble (window3.remainder block) window3.width)
          (cond (Nat.ble (window4.remainder block) window4.width)
            (cond (Nat.ble (window5.remainder block) window5.width)
              (follow block (digit5 block) [digit4 block, digit3 block, digit2 block, digit1 block])
              false)
            false)
          false)
        false)
      false)
    false

theorem mul_next (block byte : Nat)
    : ∃ k : Int,
        (256 : Int) * next block byte = (256 * block + byte) * prime - last block byte - 2 ^ 64 * k := by
  have hdef : ∀ x : Nat,
      ((256 * (x % 2 ^ 64 / 256) : Nat) : Int) = x - (x % 256 : Nat) - 2 ^ 64 * (x / 2 ^ 64 : Nat) := by
    intro x
    omega
  refine ⟨((block * 256 + byte) * prime / 2 ^ 64 : Nat), ?_⟩
  have hx := hdef ((block * 256 + byte) * prime)
  rw [← next_eq] at hx
  push_cast at hx ⊢
  rw [hx, show last block byte = (block * 256 + byte) * prime % 256 from rfl]
  push_cast
  ring

def digitVec (s3 s4 s5 s6 s7 l3 l4 l5 l6 l7 : Nat) : Fin 6 → Int :=
  ![255 - (s7 : Int), l7 + 255 - s6, l6 + 255 - s5, l5 + 255 - s4, l4 + 255 - s3, l3]

section

variable {block b3 b4 b5 b6 s3 s4 s5 s6 s7 l3 l4 l5 l6 l7 : Nat} {k3 k4 k5 k6 k7 : Int}

theorem digits_digitVec (hbytes : ∀ b ∈ [l3, l4, l5, l6, l7], b < 256) (hlast : ∀ s ∈ [s3, s4, s5, s6, s7], s < 256)
    : Digits bounds (digitVec s3 s4 s5 s6 s7 l3 l4 l5 l6 l7) := by
  simp only [List.forall_mem_cons] at hbytes hlast
  constructor
  . simp only [Fin.forall_fin_succ, digitVec]
    simp
    omega
  . simp only [Fin.forall_fin_succ, digitVec, bounds]
    simp
    omega

theorem toNat_digitVec
    : (digitVec s3 s4 s5 s6 s7 l3 l4 l5 l6 l7 5).toNat = l3
        ∧
      (digitVec s3 s4 s5 s6 s7 l3 l4 l5 l6 l7 4).toNat = l4 + 255 - s3
        ∧
      (digitVec s3 s4 s5 s6 s7 l3 l4 l5 l6 l7 3).toNat = l5 + 255 - s4
        ∧
      (digitVec s3 s4 s5 s6 s7 l3 l4 l5 l6 l7 2).toNat = l6 + 255 - s5
        ∧
      (digitVec s3 s4 s5 s6 s7 l3 l4 l5 l6 l7 1).toNat = l7 + 255 - s6 := by
  simp only [digitVec]
  simp
  omega

theorem dvd_digitVec (h3 : (256 : Int) * b3 = (256 * block + l3) * prime - s3 - 2 ^ 64 * k3)
    (h4 : (256 : Int) * b4 = (256 * b3 + l4) * prime - s4 - 2 ^ 64 * k4)
    (h5 : (256 : Int) * b5 = (256 * b4 + l5) * prime - s5 - 2 ^ 64 * k5)
    (h6 : (256 : Int) * b6 = (256 * b5 + l6) * prime - s6 - 2 ^ 64 * k6)
    (h7 : (2 ^ 63 : Int) = (256 * b6 + l7) * prime - s7 - 2 ^ 64 * k7)
    : (2 ^ 64 : Int) ∣
        (fun k : Fin 6 => (prime : Int) ^ k.val) ⬝ᵥ digitVec s3 s4 s5 s6 s7 l3 l4 l5 l6 l7 - total block := by
  rw [dotProduct, Fin.sum_univ_six]
  refine ⟨k3 * prime ^ 4 + k4 * prime ^ 3 + k5 * prime ^ 2 + k6 * prime + k7, ?_⟩
  simp only [total, digitVec]
  simp
  linear_combination (- prime ^ 4 : Int) * h3 - (prime ^ 3 : Int) * h4 - (prime ^ 2 : Int) * h5 - (prime : Int) * h6
    - h7

end

theorem possible_of_digits {block : Nat} {y : Fin 6 → Int} (hy : Digits bounds y)
    (hsum : 2 ^ 64 ∣ (fun k : Fin 6 => (prime : Int) ^ k.val) ⬝ᵥ y - total block)
    (hfollow : follow block (y 5).toNat [(y 4).toNat, (y 3).toNat, (y 2).toNat, (y 1).toNat] = true)
    : possible block = true := by
  have h0 := (remainder_eq 0 block hy hsum).2
  have h1 := (remainder_eq 1 block hy hsum).2
  have h2 := (remainder_eq 2 block hy hsum).2
  have h3 := (remainder_eq 3 block hy hsum).2
  have h4 := (remainder_eq 4 block hy hsum).2
  have h5 := (remainder_eq 5 block hy hsum).2
  rw [show windows 0 = window0 from rfl, ← Nat.ble_eq] at h0
  rw [show windows 1 = window1 from rfl, ← Nat.ble_eq] at h1
  rw [show windows 2 = window2 from rfl, ← Nat.ble_eq] at h2
  rw [show windows 3 = window3 from rfl, ← Nat.ble_eq] at h3
  rw [show windows 4 = window4 from rfl, ← Nat.ble_eq] at h4
  rw [show windows 5 = window5 from rfl, ← Nat.ble_eq] at h5
  rcases digits_eq hy hsum with ⟨hy5, hy4, hy3, hy2, hy1⟩
  rw [hy5, hy4, hy3, hy2, hy1, Int.toNat_natCast, Int.toNat_natCast, Int.toNat_natCast, Int.toNat_natCast,
    Int.toNat_natCast] at hfollow
  rw [possible, h0, h1, h2, h3, h4, h5, cond_true, cond_true, cond_true, cond_true, cond_true, cond_true, hfollow]

theorem possible_of_foldl {block l3 l4 l5 l6 l7 : Nat} (hbytes : ∀ b ∈ [l3, l4, l5, l6, l7], b < 256)
    (h : [l3, l4, l5, l6, l7].foldl next block = 36028797018963968)
    : possible block = true := by
  have hfollow := follow_digitsOf hbytes h
  rw [digitsOf, digitsOf, digitsOf, digitsOf, digitsOf] at hfollow
  rw [List.foldl_cons, List.foldl_cons, List.foldl_cons, List.foldl_cons, List.foldl_cons, List.foldl_nil] at h
  rcases mul_next block l3 with ⟨k3, h3⟩
  rcases mul_next (next block l3) l4 with ⟨k4, h4⟩
  rcases mul_next (next (next block l3) l4) l5 with ⟨k5, h5⟩
  rcases mul_next (next (next (next block l3) l4) l5) l6 with ⟨k6, h6⟩
  rcases mul_next (next (next (next (next block l3) l4) l5) l6) l7 with ⟨k7, h7⟩
  have hmiddle : (2 ^ 63 : Int) = 256 * (36028797018963968 : Nat) := by norm_num
  rw [h, ← hmiddle] at h7
  apply possible_of_digits (digits_digitVec hbytes _) (dvd_digitVec h3 h4 h5 h6 h7)
  . rw [toNat_digitVec.1, toNat_digitVec.2.1, toNat_digitVec.2.2.1, toNat_digitVec.2.2.2.1, toNat_digitVec.2.2.2.2]
    exact hfollow
  . simp only [List.forall_mem_cons]
    exact ⟨last_lt _ _, last_lt _ _, last_lt _ _, last_lt _ _, last_lt _ _, List.forall_mem_nil _⟩

def allBelow (n : Nat) (p : Nat → Bool) : Bool := n.rec true (fun n all => cond (p n) all false)

theorem of_allBelow {n k : Nat} {p : Nat → Bool} (h : allBelow n p = true) (hk : k < n) : p k = true := by
  induction n with
  | zero => omega
  | succ n ih =>
    have hsucc : allBelow (n + 1) p = cond (p n) (allBelow n p) false := rfl
    rw [hsucc, Bool.cond_false_right, Bool.and_eq_true] at h
    cases Nat.eq_or_lt_of_le (Nat.le_of_lt_succ hk) with
    | inl heq =>
      rw [heq]
      exact h.1
    | inr hlt => exact ih h.2 hlt

-- 57406175934947875 is the block of the offset.
def search (byte : Nat) : Bool :=
  eager (next 57406175934947875 byte) (fun block =>
    allBelow 256 (fun byte => eager (next block byte) (fun block => cond (possible block) false true)))

theorem search_all : allBelow 256 search = true := by decide +kernel

theorem possible_eq_false {l1 l2 : Nat} (h1 : l1 < 256) (h2 : l2 < 256)
    : possible (next (next 57406175934947875 l1) l2) = false := by
  have hsearch := of_allBelow search_all h1
  rw [search, eager_eq] at hsearch
  have hpossible := of_allBelow hsearch h2
  rw [eager_eq, Bool.cond_false_left, Bool.and_true, Bool.not_eq_true'] at hpossible
  exact hpossible

theorem foldl_next_ne {bytes : List Nat} (hlength : bytes.length = 7) (hbytes : ∀ b ∈ bytes, b < 256)
    : bytes.foldl next 57406175934947875 ≠ 36028797018963968 := by
  intro h
  rcases bytes with _ | ⟨l1, _ | ⟨l2, _ | ⟨l3, _ | ⟨l4, _ | ⟨l5, _ | ⟨l6, _ | ⟨l7, _ | ⟨l8, bytes⟩⟩⟩⟩⟩⟩⟩⟩
    <;> simp at hlength
  rw [List.forall_mem_cons, List.forall_mem_cons] at hbytes
  rw [List.foldl_cons, List.foldl_cons] at h
  have hpossible := possible_of_foldl hbytes.2.2 h
  rw [possible_eq_false hbytes.1 hbytes.2.1] at hpossible
  contradiction

theorem sum64a_ne {b : Bytes} (hlength : b.length = 8) : sum64a b ≠ 2 ^ 63 := by
  intro h
  have hne : b ≠ [] := by
    rintro rfl
    contradiction
  have hconcat := List.dropLast_append_getLast hne
  unfold sum64a at h
  rw [← hconcat, List.foldl_append, List.foldl_cons, List.foldl_nil] at h
  have hblock := block_of_write (sum64a_lt b.dropLast) h
  rcases exists_foldl_next offset b.dropLast with ⟨bytes, hlen, hbytes, hfoldl⟩
  rw [List.length_dropLast, hlength] at hlen
  rw [show List.foldl write offset b.dropLast = sum64a b.dropLast from rfl, hblock] at hfoldl
  exact foldl_next_ne hlen hbytes hfoldl.symm

end Fnv
