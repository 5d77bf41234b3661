import GoYcsb.Generator.Impl.Generator

/-!
This module contains the verification of the generators from `GoYcsb.Generator.Impl.Generator`: the range
that the numbers they draw are taken from.
-/

namespace Draw

theorem int63n_eq_ret {d : Draw} {n v : Int} (h : d.int63n n = .ret v) : 0 ≤ v ∧ v < n := by
  unfold int63n at h
  split at h
  . simp at h
  . simp only [Outcome.ret.injEq] at h
    subst h
    constructor
    . apply Int.emod_nonneg
      omega
    . apply Int.emod_lt_of_pos
      omega

theorem float64_nonneg (d : Draw) : 0 ≤ d.float64 := d.fraction.nonneg

theorem float64_lt_one (d : Draw) : d.float64 < 1 := d.fraction.lt_one

end Draw

theorem I64.rem_eq_ret {x y v : Int} (hx : 0 ≤ x) (hy : 0 < y) (h : I64.rem x y = .ret v)
    : 0 ≤ v ∧ v < y := by
  unfold I64.rem at h
  split at h
  . simp at h
  . simp only [Outcome.ret.injEq] at h
    subst h
    constructor
    . apply Int.tmod_nonneg y hx
    . apply Int.tmod_lt_of_pos x hy

theorem I64.exists_rem {x y : Int} (hx : 0 ≤ x) (hy : 0 < y)
    : ∃ v, I64.rem x y = .ret v ∧ 0 ≤ v ∧ v < y := by
  have hret : I64.rem x y = .ret (x.tmod y) := if_neg (by omega)
  exact ⟨_, hret, I64.rem_eq_ret hx hy hret⟩

theorem I64.interval_eq {lo hi : Int} (hle : lo ≤ hi) (hsize : hi - lo + 1 < 2 ^ 63)
    : I64.add (I64.sub hi lo) 1 = hi - lo + 1 := by
  rw [I64.sub_eq (by constructor <;> omega)]
  rw [I64.add_eq (by constructor <;> omega)]

namespace Generator

variable {lo hi : Int} {d : Draw}

theorem Uniform.next_mem {n : Int} (hlo : 0 ≤ lo) (hle : lo ≤ hi) (hhi : hi + 1 < 2 ^ 63)
    (h : (Uniform.new lo hi).next d = .ret n)
    : lo ≤ n ∧ n ≤ hi := by
  rcases Outcome.bind_eq_ret h with ⟨v, hv, hn⟩
  have hmem := Draw.int63n_eq_ret hv
  simp only [Uniform.new, I64.interval_eq hle (show hi - lo + 1 < 2 ^ 63 by omega)] at hmem hn
  rw [I64.add_eq (by constructor <;> omega)] at hn
  simp only [Outcome.pure_eq, Outcome.ret.injEq] at hn
  omega

theorem Sequential.next_mem {s t : Sequential} {n : Int} (hlo : 0 ≤ lo) (hle : lo ≤ hi)
    (hhi : hi + 1 < 2 ^ 63) (hstart : s.start = lo)
    (hinterval : s.interval = (Sequential.new lo hi).interval) (hcounter : 0 ≤ s.counter)
    (hfits : s.counter + 1 < 2 ^ 63) (h : s.next = .ret (n, t))
    : lo ≤ n ∧ n ≤ hi := by
  rcases Outcome.bind_eq_ret h with ⟨v, hv, hn⟩
  simp only [Sequential.new, I64.interval_eq hle (show hi - lo + 1 < 2 ^ 63 by omega)] at hinterval
  rw [I64.add_eq (by constructor <;> omega), hinterval] at hv
  have hmem := I64.rem_eq_ret (by omega) (by omega) hv
  simp only [Outcome.pure_eq, Outcome.ret.injEq, Prod.mk.injEq, hstart] at hn
  rw [I64.add_eq (by constructor <;> omega)] at hn
  omega

theorem Sequential.next_frame {s t : Sequential} {n : Int} (h : s.next = .ret (n, t))
    : t.start = s.start ∧ t.interval = s.interval := by
  rcases Outcome.bind_eq_ret h with ⟨v, _, hn⟩
  simp only [Outcome.pure_eq, Outcome.ret.injEq, Prod.mk.injEq] at hn
  rw [← hn.2]
  exact ⟨rfl, rfl⟩

-- Whatever the inner generator draws: its hash is not negative.
theorem ScrambledZipfian.next_mem (hlo : I64.InRange lo) (hhi : I64.InRange hi) (hle : lo ≤ hi)
    (hsize : I64.InRange (hi - lo + 1)) (d : Draw)
    : ∃ n, (ScrambledZipfian.new lo hi).next d = .ret n ∧ lo ≤ n ∧ n ≤ hi := by
  have hcount : (ScrambledZipfian.new lo hi).itemCount = hi - lo + 1 := I64.interval_eq hle hsize.2
  have hhash := Util.hash64_nonneg ((ScrambledZipfian.new lo hi).gen.next d)
  rcases I64.exists_rem hhash.1 (show 0 < hi - lo + 1 by omega) with ⟨v, hv, hmem⟩
  have hadd : I64.add lo v = lo + v := I64.add_eq (by unfold I64.InRange at *; omega)
  refine ⟨lo + v, ?_, by omega, by omega⟩
  rw [ScrambledZipfian.next, hcount, hv, ← hadd]
  rfl

theorem SkewedLatest.next_mem {s : SkewedLatest} {last : Int} (hlast : last < 2 ^ 63)
    (hbase : s.zipfian.base = 0) (hd : 0 ≤ d.zipfian ∧ d.zipfian ≤ last)
    : 0 ≤ s.next last d ∧ s.next last d ≤ last := by
  simp only [SkewedLatest.next, Zipfian.next, hbase]
  rw [I64.add_eq (by constructor <;> omega)]
  rw [I64.sub_eq (by constructor <;> omega)]
  omega

theorem Hotspot.clamp_cases (fraction : F64)
    : clamp fraction = .nan ∨ ∃ q, 0 ≤ q ∧ q ≤ 1 ∧ clamp fraction = .fin q := by
  unfold clamp
  split
  . right
    exact ⟨0, by norm_num, by norm_num, rfl⟩
  . next hclamp =>
    cases fraction with
    | nan => left; rfl
    | inf neg => cases neg <;> simp [F64.lt] at hclamp
    | fin q =>
      right
      simp only [F64.lt, Bool.or_eq_true, decide_eq_true_eq, not_or, not_lt] at hclamp
      exact ⟨q, hclamp.1, hclamp.2, rfl⟩

-- The hot interval has at most as many elements as there are. Beyond `2 ^ 53` elements the rounding
-- may add some.
theorem Hotspot.hotInterval_cases (P : Platform) (fraction : F64) {interval : Int}
    (hpos : 0 ≤ interval) (hle : interval ≤ 2 ^ 53)
    : ((F64.ofInt P interval).mul P (clamp fraction)).toInt64 P = -2 ^ 63
        ∨
      (0 ≤ ((F64.ofInt P interval).mul P (clamp fraction)).toInt64 P
        ∧
       ((F64.ofInt P interval).mul P (clamp fraction)).toInt64 P ≤ interval) := by
  have hrnd : P.rnd interval = interval := P.rnd_int interval (by omega) hle
  have hcast : (0 : Rat) ≤ interval := by exact_mod_cast hpos
  rcases clamp_cases fraction with hnan | ⟨q, h0, h1, hq⟩
  . rw [hnan]
    simp only [F64.ofInt, F64.mul, F64.toInt64]
    cases P.other_nan with
    | inl h => left; assumption
    | inr h => right; omega
  . right
    have hmul0 : 0 ≤ P.rnd (interval * q) := F64.rnd_nonneg (mul_nonneg hcast h0)
    have hmul1 : P.rnd (interval * q) ≤ interval :=
      F64.rnd_le_int (by omega) hle (mul_le_of_le_one_right hcast h1)
    have htrunc0 := F64.trunc_nonneg hmul0
    have htrunc1 := F64.trunc_le hmul0 hmul1
    have hrange : I64.InRange (F64.trunc (P.rnd (interval * q))) := by constructor <;> omega
    rw [hq]
    simp only [F64.ofInt, F64.mul, F64.toInt64, hrnd, hrange, if_true]
    exact ⟨htrunc0, htrunc1⟩

theorem Hotspot.next_mem {P : Platform} {hotset hotOpn : F64} {n : Int} (hlo : 0 ≤ lo)
    (hle : lo ≤ hi) (hhi : hi + 1 < 2 ^ 63) (hsize : hi - lo + 1 ≤ 2 ^ 53)
    (h : (Hotspot.new P lo hi hotset hotOpn).next d = .ret n)
    : lo ≤ n ∧ n ≤ hi := by
  have hnew : ¬ lo > hi := by omega
  have hcases := Hotspot.hotInterval_cases P hotset (by omega) hsize
  simp only [Hotspot.new, hnew, if_false, I64.interval_eq hle (show hi - lo + 1 < 2 ^ 63 by omega), Hotspot.next] at h
  generalize ((F64.ofInt P (hi - lo + 1)).mul P (clamp hotset)).toInt64 P = hot at h hcases
  split at h
  . rcases Outcome.bind_eq_ret h with ⟨v, hv, hn⟩
    have hmem := Draw.int63n_eq_ret hv
    simp only [Outcome.pure_eq, Outcome.ret.injEq] at hn
    rw [I64.add_eq (by constructor <;> omega)] at hn
    omega
  . rcases Outcome.bind_eq_ret h with ⟨v, hv, hn⟩
    have hmem := Draw.int63n_eq_ret hv
    cases hcases with
    | inl hmin =>
      -- NaN on amd64: the cold interval wraps around and is empty, the draw panics
      have hwrap : I64.sub (hi - lo + 1) hot = hi - lo + 1 - 2 ^ 63 := by
        rw [hmin]
        simp only [I64.sub, I64.wrap, Int.bmod_def]
        omega
      omega
    | inr hmem' =>
      rw [I64.sub_eq (by constructor <;> omega)] at hmem
      simp only [Outcome.pure_eq, Outcome.ret.injEq] at hn
      rw [I64.add_eq (x := lo) (by constructor <;> omega)] at hn
      rw [I64.add_eq (by constructor <;> omega)] at hn
      omega

theorem Exponential.new_nonNeg {P : Platform} {percentile : Rat} {rng : F64} (h0 : 0 ≤ percentile)
    (h100 : percentile ≤ 100) (hrng : rng.NonNeg)
    : (Exponential.new P (.fin percentile) rng).gamma.NonNeg := by
  have hpart0 : 0 ≤ P.rnd (percentile / 100) := by
    apply F64.rnd_nonneg
    linarith
  have hpart1 : P.rnd (percentile / 100) ≤ (1 : Int) := by
    apply F64.rnd_le_int (by omega) (by omega)
    push_cast
    linarith
  push_cast at hpart1
  apply F64.NonNeg.div _ hrng
  apply F64.NonNeg.neg_log
  . apply F64.rnd_nonneg
    linarith
  . have hle : P.rnd (1 - P.rnd (percentile / 100)) ≤ (1 : Int) := by
      apply F64.rnd_le_int (by omega) (by omega)
      push_cast
      linarith
    exact_mod_cast hle

theorem Exponential.next_cases {P : Platform} {e : Exponential} (h : e.gamma.NonNeg)
    : e.next P d = -2 ^ 63 ∨ (0 ≤ e.next P d ∧ e.next P d < 2 ^ 63) := by
  apply F64.NonNeg.toInt64
  apply F64.NonNeg.div
  . apply F64.NonNeg.neg_log d.float64_nonneg (le_of_lt d.float64_lt_one)
  . assumption

end Generator
