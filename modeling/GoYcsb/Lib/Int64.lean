import Mathlib.Data.Int.Basic
import Mathlib.Tactic.Linarith

/-!
This module contains the arithmetic of signed 64 bit machine integers, as an `Int` together with
the two's complement wrap around that every operation performs.
-/

namespace I64

def InRange (x : Int) : Prop := -2 ^ 63 ≤ x ∧ x < 2 ^ 63

instance (x : Int) : Decidable (InRange x) := inferInstanceAs (Decidable (_ ∧ _))

theorem inRange_one : InRange 1 := by decide

theorem inRange_two : InRange 2 := by decide

theorem inRange_four : InRange 4 := by decide

abbrev Value := { x : Int // InRange x }

def wrap (x : Int) : Int := x.bmod (2 ^ 64)

def add (x y : Int) : Int := wrap (x + y)

def sub (x y : Int) : Int := wrap (x - y)

def mul (x y : Int) : Int := wrap (x * y)

def land (x y : Int) : Int := (BitVec.ofInt 64 x &&& BitVec.ofInt 64 y).toInt

theorem wrap_eq_self {x : Int} (h : InRange x) : wrap x = x := by
  unfold InRange at h
  unfold wrap
  apply Int.bmod_eq_of_le
  . omega
  . omega

theorem inRange_wrap (x : Int) : InRange (wrap x) := by
  unfold InRange wrap
  have hle := Int.le_bmod (x := x) (m := 2 ^ 64) (by decide)
  have hlt := Int.bmod_lt (x := x) (m := 2 ^ 64) (by decide)
  omega

theorem wrap_le {x : Int} (h : 0 ≤ x) : wrap x ≤ x := by
  unfold wrap
  rw [Int.bmod_def]
  split
  . omega
  . omega

theorem add_eq {x y : Int} (h : InRange (x + y)) : add x y = x + y := by
  unfold add
  rw [wrap_eq_self h]

theorem sub_eq {x y : Int} (h : InRange (x - y)) : sub x y = x - y := by
  unfold sub
  rw [wrap_eq_self h]

theorem add_eq_of_overflow {x y : Int} (h : 2 ^ 63 ≤ x + y) (hlt : x + y < 2 ^ 64) : add x y = x + y - 2 ^ 64 := by
  unfold add wrap
  rw [Int.bmod_def]
  split
  . omega
  . omega

theorem add_add (x y z : Int) : add (add x y) z = add x (y + z) := by
  unfold add wrap
  rw [Int.bmod_add_bmod, Int.add_assoc]

theorem sub_add (x y z : Int) : sub (add x y) z = add x (y - z) := by
  unfold sub add wrap
  rw [Int.bmod_sub_bmod, Int.add_sub_assoc]

theorem add_left_cancel {x y z : Int} (h : add x y = add x z) (hlt : |y - z| < 2 ^ 64) : y = z := by
  unfold add wrap at h
  have hmod : (x + y) % (2 ^ 64 : Nat) = (x + z) % (2 ^ 64 : Nat) := by
    rw [← Int.bmod_emod, h, Int.bmod_emod]
  rw [abs_lt] at hlt
  omega

theorem toNat_ofInt_mask {k : Nat} (hk : k < 63)
    : (BitVec.ofInt 64 (2 ^ k - 1)).toNat = 2 ^ k - 1 := by
  have hpow : 2 ^ k < 2 ^ 63 := Nat.pow_lt_pow_right (by omega) hk
  have hpos : 0 < 2 ^ k := Nat.two_pow_pos k
  have hcast : (2 ^ k - 1 : Int) = ((2 ^ k - 1 : Nat) : Int) := by
    push_cast [Nat.cast_sub hpos]
    rfl
  rw [BitVec.toNat_ofInt, hcast]
  omega

theorem land_mask (x : Int) {k : Nat} (hk : k < 63)
    : land x (2 ^ k - 1) = x % 2 ^ k := by
  have hand : (BitVec.ofInt 64 x &&& BitVec.ofInt 64 (2 ^ k - 1)).toNat
      = (x % 2 ^ 64).toNat % 2 ^ k := by
    rw [BitVec.toNat_and]
    rw [toNat_ofInt_mask hk]
    rw [Nat.and_two_pow_sub_one_eq_mod]
    rw [BitVec.toNat_ofInt]
    rfl
  have hpow : 2 ^ k < 2 ^ 63 := Nat.pow_lt_pow_right (by omega) hk
  have hlt : (x % 2 ^ 64).toNat % 2 ^ k < 2 ^ k := Nat.mod_lt _ (Nat.two_pow_pos k)
  have hnonneg : 0 ≤ x % 2 ^ 64 := Int.emod_nonneg x (by decide)
  unfold land
  rw [BitVec.toInt_eq_toNat_of_lt (by omega)]
  rw [hand]
  rw [Int.natCast_mod]
  rw [Int.toNat_of_nonneg hnonneg]
  push_cast
  apply Int.emod_emod_of_dvd
  have hdvd : (2 : Int) ^ k ∣ 2 ^ 64 := pow_dvd_pow 2 (by omega)
  exact hdvd

end I64
