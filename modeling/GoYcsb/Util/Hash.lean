import GoYcsb.Lib.Fnv
import GoYcsb.Lib.Int64

/-!
This module contains the hash functions of `pkg/util/hash.go`.
-/

namespace Util

def putUint64 (v : Nat) : Bytes :=
  [56, 48, 40, 32, 24, 16, 8, 0].map (fun shift => UInt8.ofNat (v / 2 ^ shift))

def hash64 (n : Int) : Int :=
  let b := putUint64 (n % 2 ^ 64).toNat
  let result := I64.wrap (Fnv.sum64a b)
  if result < 0 then
    I64.wrap (-result)
  else
    result

def bytesHash64 (b : Bytes) : Int := I64.wrap (Fnv.sum64a b)

-- The smallest integer is its own negative.
theorem hash64_cases (n : Int)
    : Fnv.sum64a (putUint64 (n % 2 ^ 64).toNat) = 2 ^ 63 ∨ (0 ≤ hash64 n ∧ hash64 n < 2 ^ 63) := by
  unfold hash64
  dsimp only
  have hlt := Fnv.sum64a_lt (putUint64 (n % 2 ^ 64).toNat)
  generalize Fnv.sum64a (putUint64 (n % 2 ^ 64).toNat) = sum at hlt ⊢
  unfold I64.wrap
  simp only [Int.bmod_def]
  omega

theorem length_putUint64 (v : Nat) : (putUint64 v).length = 8 := rfl

theorem hash64_nonneg (n : Int) : 0 ≤ hash64 n ∧ hash64 n < 2 ^ 63 := by
  cases hash64_cases n with
  | inl heq => exact absurd heq (Fnv.sum64a_ne (length_putUint64 _))
  | inr hrange => exact hrange

example : hash64 0 = 6284781860667377211 := by decide

end Util
