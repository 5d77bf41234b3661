import GoYcsb.Lib.Int64
import Mathlib.Algebra.Order.Field.Rat
import Mathlib.Data.Rat.Floor

/-!
This module contains the 64 bit floating point numbers as far as sign, order and size are concerned:
a rational number, an infinity or NaN. There is one zero only and no overflow into an infinity.
What IEEE 754 and the processor leave open or make too fine for this view is a `Platform`: how
results are rounded, the logarithm, and what the conversion of a number that is no signed 64 bit
integer gives.
-/

inductive F64 where
  | nan
  | inf (neg : Bool)
  | fin (q : Rat)
  deriving DecidableEq, Repr

structure Platform where
  rnd : Rat → Rat
  rnd_mono : ∀ p q, p ≤ q → rnd p ≤ rnd q
  rnd_int : ∀ n : Int, -2 ^ 53 ≤ n → n ≤ 2 ^ 53 → rnd n = n
  log : F64 → F64
  log_zero : log (.fin 0) = .inf true
  log_le_one : ∀ q, 0 < q → q ≤ 1 → ∃ r, r ≤ 0 ∧ log (.fin q) = .fin r
  -- amd64 converts everything else to the smallest integer, arm64 to the nearest one and NaN to 0
  other : F64 → Int
  other_nan : other .nan = -2 ^ 63 ∨ other .nan = 0
  other_inf : other (.inf false) = -2 ^ 63 ∨ other (.inf false) = 2 ^ 63 - 1
  other_fin : ∀ q, 0 ≤ q → other (.fin q) = -2 ^ 63 ∨ other (.fin q) = 2 ^ 63 - 1

namespace F64

variable (P : Platform)

def ofInt (n : Int) : F64 := .fin (P.rnd n)

def ofRat (q : Rat) : F64 := .fin (P.rnd q)

def neg (x : F64) : F64 :=
  match x with
  | .nan => .nan
  | .inf neg => .inf (!neg)
  | .fin q => .fin (-q)

def add (x y : F64) : F64 :=
  match x, y with
  | .fin p, .fin q => .fin (P.rnd (p + q))
  | .inf neg, .fin _ => .inf neg
  | .fin _, .inf neg => .inf neg
  | .inf neg, .inf neg' => if neg = neg' then .inf neg else .nan
  | .nan, _ => .nan
  | _, .nan => .nan

def sub (x y : F64) : F64 :=
  match x, y with
  | .fin p, .fin q => .fin (P.rnd (p - q))
  | .inf neg, .fin _ => .inf neg
  | .fin _, .inf neg => .inf (!neg)
  | .inf neg, .inf neg' => if neg = neg' then .nan else .inf neg
  | .nan, _ => .nan
  | _, .nan => .nan

def mul (x y : F64) : F64 :=
  match x, y with
  | .fin p, .fin q => .fin (P.rnd (p * q))
  | .inf neg, .fin q => if q = 0 then .nan else .inf (neg ^^ decide (q < 0))
  | .fin p, .inf neg => if p = 0 then .nan else .inf (neg ^^ decide (p < 0))
  | .inf neg, .inf neg' => .inf (neg ^^ neg')
  | .nan, _ => .nan
  | _, .nan => .nan

def div (x y : F64) : F64 :=
  match x, y with
  | .fin p, .fin q =>
    if q = 0 then
      if p = 0 then .nan else .inf (decide (p < 0))
    else
      .fin (P.rnd (p / q))
  | .inf neg, .fin q => .inf (neg ^^ decide (q < 0))
  | .fin _, .inf _ => .fin 0
  | .inf _, .inf _ => .nan
  | .nan, _ => .nan
  | _, .nan => .nan

def lt (x y : F64) : Bool :=
  match x, y with
  | .fin p, .fin q => decide (p < q)
  | .inf neg, .fin _ => neg
  | .fin _, .inf neg => !neg
  | .inf neg, .inf neg' => neg && !neg'
  | .nan, _ => false
  | _, .nan => false

def trunc (q : Rat) : Int := q.num.tdiv q.den

def toInt64 (x : F64) : Int :=
  match x with
  | .fin q => if I64.InRange (trunc q) then trunc q else P.other x
  | .inf _ => P.other x
  | .nan => P.other x

def NonNeg (x : F64) : Prop :=
  match x with
  | .nan => True
  | .inf neg => neg = false
  | .fin q => 0 ≤ q

instance (x : F64) : Decidable x.NonNeg := by
  unfold NonNeg; cases x <;> infer_instance

theorem trunc_eq_floor {q : Rat} (h : 0 ≤ q) : trunc q = ⌊q⌋ := by
  unfold trunc
  rw [Int.tdiv_eq_ediv_of_nonneg (Rat.num_nonneg.mpr h)]
  rw [Rat.floor_def']

theorem trunc_nonneg {q : Rat} (h : 0 ≤ q) : 0 ≤ trunc q := by
  rw [trunc_eq_floor h]
  apply Int.floor_nonneg.mpr h

theorem trunc_le {q : Rat} {n : Int} (h0 : 0 ≤ q) (h : q ≤ n) : trunc q ≤ n := by
  rw [trunc_eq_floor h0]
  have hfloor := Int.floor_le q
  have hcast : (⌊q⌋ : Rat) ≤ n := le_trans hfloor h
  exact_mod_cast hcast

variable {P}

theorem rnd_nonneg {q : Rat} (h : 0 ≤ q) : 0 ≤ P.rnd q := by
  have hzero := P.rnd_int 0 (by omega) (by omega)
  have hmono := P.rnd_mono 0 q h
  simp only [Int.cast_zero] at hzero
  rwa [hzero] at hmono

theorem rnd_le_int {q : Rat} {n : Int} (h1 : -2 ^ 53 ≤ n) (h2 : n ≤ 2 ^ 53) (h : q ≤ n)
    : P.rnd q ≤ n := by
  have hmono := P.rnd_mono q n h
  rwa [P.rnd_int n h1 h2] at hmono

theorem nonNeg_ofInt {n : Int} (h : 0 ≤ n) : (F64.ofInt P n).NonNeg := by
  apply rnd_nonneg
  exact_mod_cast h

theorem NonNeg.mul {x y : F64} (hx : x.NonNeg) (hy : y.NonNeg) : (x.mul P y).NonNeg := by
  cases x with
  | nan => trivial
  | inf neg =>
    cases y with
    | nan => trivial
    | inf neg' =>
      simp only [NonNeg] at hx hy
      simp [F64.mul, NonNeg, hx, hy]
    | fin q =>
      simp only [NonNeg] at hx hy
      simp only [F64.mul]
      split
      . trivial
      . simp [NonNeg, hx, hy]
  | fin p =>
    cases y with
    | nan => trivial
    | inf neg' =>
      simp only [NonNeg] at hx hy
      simp only [F64.mul]
      split
      . trivial
      . simp [NonNeg, hx, hy]
    | fin q =>
      simp only [NonNeg] at hx hy
      apply rnd_nonneg
      apply mul_nonneg hx hy

theorem NonNeg.div {x y : F64} (hx : x.NonNeg) (hy : y.NonNeg) : (x.div P y).NonNeg := by
  cases x with
  | nan => trivial
  | inf neg =>
    cases y with
    | nan => trivial
    | inf neg' => trivial
    | fin q =>
      simp only [NonNeg] at hx hy
      simp [F64.div, NonNeg, hx, hy]
  | fin p =>
    cases y with
    | nan => trivial
    | inf neg' => simp [F64.div, NonNeg]
    | fin q =>
      simp only [NonNeg] at hx hy
      simp only [F64.div]
      split
      . split
        . trivial
        . simpa [NonNeg] using hx
      . apply rnd_nonneg
        apply div_nonneg hx hy

theorem NonNeg.neg_log {q : Rat} (h0 : 0 ≤ q) (h1 : q ≤ 1) : (P.log (.fin q)).neg.NonNeg := by
  cases eq_or_lt_of_le h0 with
  | inl heq =>
    rw [← heq, P.log_zero]
    rfl
  | inr hlt =>
    rcases P.log_le_one q hlt h1 with ⟨r, hr, hlog⟩
    rw [hlog]
    simpa [F64.neg, NonNeg] using hr

theorem NonNeg.toInt64 {x : F64} (hx : x.NonNeg)
    : x.toInt64 P = -2 ^ 63 ∨ (0 ≤ x.toInt64 P ∧ x.toInt64 P < 2 ^ 63) := by
  cases x with
  | nan =>
    cases P.other_nan with
    | inl h => left; assumption
    | inr h => right; simp [F64.toInt64, h]
  | inf neg =>
    simp only [NonNeg] at hx
    subst hx
    cases P.other_inf with
    | inl h => left; assumption
    | inr h => right; simp [F64.toInt64, h]
  | fin q =>
    simp only [NonNeg] at hx
    have htrunc := trunc_nonneg hx
    simp only [F64.toInt64]
    split
    . next hrange =>
      right
      exact ⟨htrunc, hrange.2⟩
    . cases P.other_fin q hx with
      | inl h => left; assumption
      | inr h => right; simp [h]

end F64

-- The 64 bit x86 processors, with exact arithmetic and a logarithm that is only right in its sign.
def Platform.exactAmd64 : Platform where
  rnd := id
  rnd_mono := by intros; assumption
  rnd_int := by intros; rfl
  log x :=
    match x with
    | .fin q => if q < 0 then .nan else if q = 0 then .inf true else .fin (q - 1)
    | .inf neg => if neg then .nan else .inf false
    | .nan => .nan
  log_zero := rfl
  log_le_one := by
    intro q hpos hle
    refine ⟨q - 1, by linarith, ?_⟩
    simp [not_lt_of_gt hpos, ne_of_gt hpos]
  other _ := -2 ^ 63
  other_nan := .inl rfl
  other_inf := .inl rfl
  other_fin := by intros; left; rfl
