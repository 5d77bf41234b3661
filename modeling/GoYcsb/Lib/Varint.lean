import GoYcsb.Lib.Bytes
import GoYcsb.Lib.Int64
import Mathlib.Tactic.Ring

/-!
This module contains the variable length integers of Go's `encoding/binary` and their verification:
what is written is read back, whatever follows it, and no proper beginning of it is taken for a
number.
-/

namespace Varint

-- Seven bits to a byte, the lowest first. An unsigned 64 bit integer takes ten bytes at most.
def putUvarintLoop (fuel x : Nat) : Bytes :=
  match fuel with
  | 0 => [UInt8.ofNat x]
  | fuel + 1 =>
    if x < 128 then
      [UInt8.ofNat x]
    else
      UInt8.ofNat (x % 128 + 128) :: putUvarintLoop fuel (x / 128)

def putUvarint (x : Nat) : Bytes := putUvarintLoop 9 x

-- The number of bytes read is 0 if the buffer is too small, and negative on overflow.
def uvarintLoop (i x : Nat) (buf : Bytes) : Nat × Int :=
  match buf with
  | [] => (0, 0)
  | b :: buf =>
    if i = 10 then
      (0, -(i + 1))
    else if b.toNat < 128 then
      if i = 9 ∧ 1 < b.toNat then
        (0, -(i + 1))
      else
        (x ||| b.toNat <<< (7 * i), i + 1)
    else
      uvarintLoop (i + 1) (x ||| (b.toNat % 128) <<< (7 * i)) buf

def uvarint (buf : Bytes) : Nat × Int := uvarintLoop 0 0 buf

def putVarint (x : Int) : Bytes :=
  let ux := (2 * x % 2 ^ 64).toNat
  if x < 0 then
    putUvarint (2 ^ 64 - 1 - ux)
  else
    putUvarint ux

def varint (buf : Bytes) : Int × Int :=
  let (ux, n) := uvarint buf
  let x : Int := (ux / 2 : Nat)
  if ux % 2 = 1 then
    (-x - 1, n)
  else
    (x, n)

theorem uvarintLoop_append {i acc x : Nat} {buf : Bytes} {n : Int} (hn : 0 < n)
    (h : uvarintLoop i acc buf = (x, n))
    : ∃ v rest,
        buf = v ++ rest
          ∧
        v ≠ []
          ∧
        n = i + v.length
          ∧
        ∀ rest', uvarintLoop i acc (v ++ rest') = (x, n) := by
  induction buf generalizing i acc with
  | nil =>
    simp only [uvarintLoop, Prod.mk.injEq] at h
    omega
  | cons b buf ih =>
    simp only [uvarintLoop] at h
    split at h
    . simp only [Prod.mk.injEq] at h
      omega
    . next hi =>
      split at h
      . next hlast =>
        split at h
        . simp only [Prod.mk.injEq] at h
          omega
        . next hbyte =>
          refine ⟨[b], buf, rfl, by simp, ?_, ?_⟩
          . simp only [Prod.mk.injEq] at h
            simp [h.2]
          . intro rest'
            simp [uvarintLoop, hi, hlast, hbyte, h]
      . next hmore =>
        rcases ih h with ⟨v, rest, hbuf, _, hlen, hany⟩
        refine ⟨b :: v, rest, by simp [hbuf], by simp, ?_, ?_⟩
        . simp only [List.length_cons]
          push_cast at hlen ⊢
          omega
        . intro rest'
          simp [uvarintLoop, hi, hmore, hany rest']

theorem uvarintLoop_part {i acc x : Nat} {v v' : Bytes} (hv : v ≠ [])
    (h : uvarintLoop i acc v = (x, (i + v.length : Int))) (hpre : v' <+: v) (hne : v' ≠ v)
    : uvarintLoop i acc v' = (0, 0) := by
  induction v' generalizing i acc v with
  | nil => rfl
  | cons b v' ih =>
    cases v with
    | nil => contradiction
    | cons c v =>
      rw [List.cons_prefix_cons] at hpre
      rcases hpre with ⟨rfl, hpre⟩
      have hne' : v' ≠ v := by
        intro heq
        rw [heq] at hne
        contradiction
      have hv' : v ≠ [] := by
        intro heq
        rw [heq, List.prefix_nil] at hpre
        rw [heq] at hne'
        contradiction
      have hpos : 0 < v.length := List.length_pos_iff.mpr hv'
      simp only [uvarintLoop] at h ⊢
      split at h
      . simp only [Prod.mk.injEq] at h
        omega
      . next hi =>
        split at h
        . -- the first byte would be the last one
          simp only [List.length_cons] at h
          split at h <;> (simp only [Prod.mk.injEq] at h; omega)
        . next hmore =>
          simp only [hi, hmore, if_false]
          apply ih hv' _ hpre hne'
          rw [h, List.length_cons]
          push_cast
          simp only [Prod.mk.injEq, true_and]
          omega

theorem or_shiftLeft {acc b k : Nat} (hacc : acc < 2 ^ k) : acc ||| b <<< k = acc + b * 2 ^ k := by
  rw [Nat.shiftLeft_eq, Nat.or_comm, Nat.mul_comm]
  rw [← Nat.two_pow_add_eq_or_of_lt hacc]
  omega

-- `fuel` more bytes are left after the `i` that have been read.
theorem uvarintLoop_putUvarintLoop {i acc x : Nat} (fuel : Nat) (rest : Bytes) (hi : i + fuel = 9)
    (hacc : acc < 2 ^ (7 * i)) (hx : x < 2 ^ (64 - 7 * i))
    : uvarintLoop i acc (putUvarintLoop fuel x ++ rest)
        =
      (acc + x * 2 ^ (7 * i), (i + (putUvarintLoop fuel x).length : Int)) := by
  induction fuel generalizing i acc x with
  | zero =>
    have hi' : i = 9 := by omega
    subst hi'
    have hx' : x < 2 := by simpa using hx
    have hbyte : (UInt8.ofNat x).toNat = x := by
      rw [UInt8.toNat_ofNat']
      omega
    have hlast : ¬ 1 < x := by omega
    have hsmall : x < 128 := by omega
    simp only [putUvarintLoop, List.cons_append, List.nil_append, uvarintLoop, hbyte, hlast, hsmall,
      and_false, if_true, if_false]
    rw [or_shiftLeft hacc]
    rfl
  | succ fuel ih =>
    have hi10 : i ≠ 10 := by omega
    have hi9 : i ≠ 9 := by omega
    unfold putUvarintLoop
    split
    . next hsmall =>
      have hbyte : (UInt8.ofNat x).toNat = x := by
        rw [UInt8.toNat_ofNat']
        omega
      simp only [List.cons_append, List.nil_append, uvarintLoop, hbyte, hsmall, hi10, hi9,
        false_and, if_true, if_false]
      rw [or_shiftLeft hacc]
      rfl
    . next hlarge =>
      have hbyte : (UInt8.ofNat (x % 128 + 128)).toNat = x % 128 + 128 := by
        rw [UInt8.toNat_ofNat']
        omega
      have hmore : ¬ x % 128 + 128 < 128 := by omega
      have hpow : 2 ^ (7 * (i + 1)) = 128 * 2 ^ (7 * i) := by
        rw [Nat.mul_add, Nat.pow_add]
        omega
      have hmod : x % 128 * 2 ^ (7 * i) ≤ 127 * 2 ^ (7 * i) := Nat.mul_le_mul_right _ (by omega)
      have hdiv : x / 128 < 2 ^ (64 - 7 * (i + 1)) := by
        apply Nat.div_lt_of_lt_mul
        have hsplit : 64 - 7 * i = 7 + (64 - 7 * (i + 1)) := by omega
        rw [hsplit, Nat.pow_add] at hx
        exact hx
      simp only [List.cons_append, uvarintLoop, hbyte, hi10, hmore, if_false, Nat.add_mod_right,
        Nat.mod_mod]
      rw [or_shiftLeft hacc]
      rw [ih (by omega) (by omega) hdiv]
      simp only [List.length_cons, Prod.mk.injEq]
      constructor
      . rw [hpow]
        have hx128 := Nat.div_add_mod x 128
        calc acc + x % 128 * 2 ^ (7 * i) + x / 128 * (128 * 2 ^ (7 * i))
            = acc + (128 * (x / 128) + x % 128) * 2 ^ (7 * i) := by ring
          _ = acc + x * 2 ^ (7 * i) := by rw [hx128]
      . push_cast
        omega

def IsVarint (v : Bytes) (x : Int) : Prop := v ≠ [] ∧ varint v = (x, (v.length : Int))

theorem varint_eq {buf : Bytes} {ux : Nat} {n : Int} (h : uvarint buf = (ux, n))
    : varint buf = (if ux % 2 = 1 then -((ux / 2 : Nat) : Int) - 1 else ((ux / 2 : Nat) : Int), n) := by
  unfold varint
  rw [h]
  dsimp only
  split <;> rfl

theorem varint_snd (buf : Bytes) : (varint buf).2 = (uvarint buf).2 := by
  unfold varint
  dsimp only
  split <;> rfl

theorem uvarint_of_varint {buf : Bytes} {x n : Int} (h : varint buf = (x, n))
    : uvarint buf = ((uvarint buf).1, n) := by
  have hsnd := varint_snd buf
  rw [h] at hsnd
  rw [Prod.ext_iff]
  exact ⟨rfl, hsnd.symm⟩

theorem uvarint_putUvarint {x : Nat} (rest : Bytes) (hx : x < 2 ^ 64)
    : uvarint (putUvarint x ++ rest) = (x, ((putUvarint x).length : Int)) := by
  have hacc : 0 < 2 ^ (7 * 0) := by decide
  have hloop := uvarintLoop_putUvarintLoop 9 rest rfl hacc hx
  simpa [uvarint, putUvarint] using hloop

theorem putUvarint_ne_nil (x : Nat) : putUvarint x ≠ [] := by
  unfold putUvarint putUvarintLoop
  split <;> simp

theorem isVarint_putVarint {x : Int} (hx : I64.InRange x) : IsVarint (putVarint x) x := by
  have hrange := hx
  unfold I64.InRange at hrange
  unfold putVarint
  dsimp only
  split
  . next hneg =>
    have hread := uvarint_putUvarint (x := 2 ^ 64 - 1 - (2 * x % 2 ^ 64).toNat) [] (by omega)
    rw [List.append_nil] at hread
    refine ⟨putUvarint_ne_nil _, ?_⟩
    rw [varint_eq hread]
    have hodd : (2 ^ 64 - 1 - (2 * x % 2 ^ 64).toNat) % 2 = 1 := by omega
    simp only [hodd, if_true, Prod.mk.injEq, and_true]
    omega
  . next hpos =>
    have hread := uvarint_putUvarint (x := (2 * x % 2 ^ 64).toNat) [] (by omega)
    rw [List.append_nil] at hread
    refine ⟨putUvarint_ne_nil _, ?_⟩
    rw [varint_eq hread]
    have heven : ¬ (2 * x % 2 ^ 64).toNat % 2 = 1 := by omega
    simp only [heven, if_false, Prod.mk.injEq, and_true]
    omega

theorem exists_isVarint {buf : Bytes} {x n : Int} (hn : 0 < n) (h : varint buf = (x, n))
    : ∃ v rest, buf = v ++ rest ∧ n = v.length ∧ IsVarint v x := by
  have hu := uvarint_of_varint h
  rcases uvarintLoop_append hn hu with ⟨v, rest, hbuf, hv, hlen, hany⟩
  refine ⟨v, rest, hbuf, by simpa using hlen, hv, ?_⟩
  have hself := hany []
  rw [List.append_nil] at hself
  rw [varint_eq hself]
  rw [varint_eq hu] at h
  simp only [Prod.mk.injEq] at h ⊢
  exact ⟨h.1, by simpa using hlen⟩

theorem IsVarint.append {v : Bytes} {x : Int} (h : IsVarint v x) (rest : Bytes)
    : varint (v ++ rest) = (x, (v.length : Int)) := by
  have hpos : (0 : Int) < v.length := by
    have := List.length_pos_iff.mpr h.1
    omega
  have hu := uvarint_of_varint h.2
  rcases uvarintLoop_append hpos hu with ⟨v', rest', hbuf, _, hlen, hany⟩
  have hrest : rest' = [] := by
    have hlength := congrArg List.length hbuf
    rw [List.length_append] at hlength
    apply List.length_eq_zero_iff.mp
    omega
  rw [hrest, List.append_nil] at hbuf
  rw [← hbuf] at hany
  rw [varint_eq (hany rest), ← varint_eq hu]
  exact h.2

theorem IsVarint.take {v v' : Bytes} {x : Int} (h : IsVarint v x) (hpre : v' <+: v) (hne : v' ≠ v)
    : varint v' = (0, 0) := by
  have hu := uvarint_of_varint h.2
  have hzero : uvarint v' = (0, 0) := by
    apply uvarintLoop_part h.1 _ hpre hne
    . exact (uvarint v).1
    . rw [Int.natCast_zero, Int.zero_add]
      exact hu
  rw [varint_eq hzero]
  rfl

end Varint
