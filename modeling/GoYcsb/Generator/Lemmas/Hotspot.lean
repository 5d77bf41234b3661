import GoYcsb.Generator.Lemmas.Generator

/-!
This module contains the verification of the generator `Hotspot` from `GoYcsb.Generator.Impl.Generator` with exact
arithmetic: for which fractions both intervals have something to draw from.
-/

theorem Draw.exists_int63n (d : Draw) {n : Int} (h : 0 < n) : ∃ v, d.int63n n = .ret v ∧ 0 ≤ v ∧ v < n := by
  have hdraw : d.int63n n = .ret (d.int63 % n) := by
    unfold int63n
    rw [if_neg (by omega)]
  exact ⟨d.int63 % n, hdraw, int63n_eq_ret hdraw⟩

namespace Generator
namespace Hotspot

def fraction (x : F64) : Rat :=
  match clamp x with
  | .fin q => q
  | .inf _ => 0
  | .nan => 0

theorem clamp_eq {x : F64} (h : x ≠ .nan) : clamp x = .fin (fraction x) := by
  rcases clamp_cases x with hnan | ⟨q, _, _, hq⟩
  . unfold clamp at hnan
    split at hnan
    . contradiction
    . contradiction
  . unfold fraction
    rw [hq]

theorem fraction_mem (x : F64) : 0 ≤ fraction x ∧ fraction x ≤ 1 := by
  unfold fraction
  rcases clamp_cases x with hnan | ⟨q, hq0, hq1, hq⟩
  . rw [hnan]
    norm_num
  . rw [hq]
    exact ⟨hq0, hq1⟩

def hotElements (lowerBound upperBound : Int) (hotsetFraction : F64) : Int :=
  ⌊((upperBound - lowerBound + 1 : Int) : Rat) * fraction hotsetFraction⌋

/--
`Next` returns an element of the range, a hot one exactly if the draw asks for it.
-/
def NextRight (P : Platform) (lowerBound upperBound : Int) (hotsetFraction hotOpnFraction : F64) (d : Draw) : Prop :=
  ∃ n,
    (new P lowerBound upperBound hotsetFraction hotOpnFraction).next d = .ret n
      ∧
    (lowerBound ≤ n ∧ n ≤ upperBound)
      ∧
    (n < lowerBound + hotElements lowerBound upperBound hotsetFraction
      ↔
     F64.lt (.fin d.float64) (clamp hotOpnFraction))

section

variable {lo hi : Int} (hlo : I64.InRange lo) (hhi : I64.InRange hi) (hle : lo ≤ hi)
  (hsize : I64.InRange (hi - lo + 1)) (hotset : F64)

include hle in
theorem hotElements_mem : 0 ≤ hotElements lo hi hotset ∧ hotElements lo hi hotset ≤ hi - lo + 1 := by
  rcases fraction_mem hotset with ⟨h0, h1⟩
  have hcast : (0 : Rat) ≤ ((hi - lo + 1 : Int) : Rat) := by
    exact_mod_cast (by omega : (0 : Int) ≤ hi - lo + 1)
  unfold hotElements
  constructor
  . exact Int.floor_nonneg.mpr (mul_nonneg hcast h0)
  . have hfloor := Int.floor_le_floor (mul_le_of_le_one_right hcast h1)
    rwa [Int.floor_intCast] at hfloor

theorem hotElements_pos_iff
    : 0 < hotElements lo hi hotset ↔ 1 ≤ ((hi - lo + 1 : Int) : Rat) * fraction hotset := by
  unfold hotElements
  rw [Int.floor_pos]

include hle in
theorem hotElements_lt_iff : hotElements lo hi hotset < hi - lo + 1 ↔ fraction hotset < 1 := by
  have hcast : (0 : Rat) < ((hi - lo + 1 : Int) : Rat) := by
    exact_mod_cast (by omega : (0 : Int) < hi - lo + 1)
  unfold hotElements
  rw [Int.floor_lt, mul_lt_iff_lt_one_right hcast]

variable {P : Platform} (hexact : ∀ q, P.rnd q = q) (hotOpn : F64) (hnan : hotset ≠ .nan)

include hle hsize hexact hnan

theorem new_eq
    : new P lo hi hotset hotOpn
        =
      {
        lowerBound := lo
        upperBound := hi
        hotInterval := hotElements lo hi hotset
        coldInterval := hi - lo + 1 - hotElements lo hi hotset
        hotsetFraction := clamp hotset
        hotOpnFraction := clamp hotOpn
      } := by
  have hnew : ¬ lo > hi := by omega
  rcases hotElements_mem hle hotset with ⟨h0, h1⟩
  have hpos : (0 : Rat) ≤ ((hi - lo + 1 : Int) : Rat) * fraction hotset := by
    apply mul_nonneg
    . exact_mod_cast (by omega : (0 : Int) ≤ hi - lo + 1)
    . exact (fraction_mem hotset).1
  have hhot : ((F64.ofInt P (hi - lo + 1)).mul P (clamp hotset)).toInt64 P = hotElements lo hi hotset := by
    have htrunc : F64.trunc (((hi - lo + 1 : Int) : Rat) * fraction hotset) = hotElements lo hi hotset :=
      F64.trunc_eq_floor hpos
    rw [clamp_eq hnan, F64.ofInt, F64.mul, hexact, hexact, F64.toInt64, htrunc,
      if_pos ⟨by omega, by have := hsize.2; omega⟩]
  have hcold : I64.sub (hi - lo + 1) (hotElements lo hi hotset) = hi - lo + 1 - hotElements lo hi hotset :=
    I64.sub_eq ⟨by omega, by have := hsize.2; omega⟩
  simp only [new, hnew, if_false, I64.interval_eq hle hsize.2, hhot, hcold]

include hlo hhi

theorem nextRight_iff (d : Draw)
    : NextRight P lo hi hotset hotOpn d
        ↔
      if F64.lt (.fin d.float64) (clamp hotOpn) then
        0 < hotElements lo hi hotset
      else
        hotElements lo hi hotset < hi - lo + 1 := by
  rcases hotElements_mem hle hotset with ⟨h0, h1⟩
  have hlo63 := hlo.1
  have hhi63 := hhi.2
  unfold NextRight
  rw [new_eq hle hsize hotset hexact hotOpn hnan]
  unfold next
  dsimp only
  split
  . next hlt =>
    constructor
    . rintro ⟨n, hnext, _⟩
      rcases Outcome.bind_eq_ret hnext with ⟨v, hv, _⟩
      have hmem := Draw.int63n_eq_ret hv
      omega
    . intro hpos
      rcases d.exists_int63n hpos with ⟨v, hv, hv0, hvlt⟩
      refine ⟨lo + v, ?_, ⟨by omega, by omega⟩, ?_⟩
      . rw [hv, Outcome.ret_bind, Outcome.pure_eq, I64.add_eq ⟨by omega, by omega⟩]
      . exact iff_of_true (by omega) hlt
  . next hlt =>
    constructor
    . rintro ⟨n, hnext, _⟩
      rcases Outcome.bind_eq_ret hnext with ⟨v, hv, _⟩
      have hmem := Draw.int63n_eq_ret hv
      omega
    . intro hcold
      have hpos : 0 < hi - lo + 1 - hotElements lo hi hotset := by omega
      rcases d.exists_int63n hpos with ⟨v, hv, hv0, hvlt⟩
      refine ⟨lo + hotElements lo hi hotset + v, ?_, ⟨by omega, by omega⟩, ?_⟩
      . rw [hv, Outcome.ret_bind, Outcome.pure_eq, I64.add_eq (x := lo) ⟨by omega, by omega⟩,
          I64.add_eq ⟨by omega, by omega⟩]
      . exact iff_of_false (by omega) hlt

end

theorem next_in_range_iff (P : Platform) (hexact : ∀ q, P.rnd q = q) (lowerBound upperBound : Int)
    (hlower : I64.InRange lowerBound) (hupper : I64.InRange upperBound) (hle : lowerBound ≤ upperBound)
    (hsize : I64.InRange (upperBound - lowerBound + 1)) (hotsetFraction hotOpnFraction : F64)
    (hnan : hotsetFraction ≠ .nan) (d : Draw)
    : NextRight P lowerBound upperBound hotsetFraction hotOpnFraction d
        ↔
      if F64.lt (.fin d.float64) (clamp hotOpnFraction) then
        1 ≤ ((upperBound - lowerBound + 1 : Int) : Rat) * fraction hotsetFraction
      else
        fraction hotsetFraction < 1 := by
  rw [nextRight_iff hlower hupper hle hsize hotsetFraction hexact hotOpnFraction hnan d, hotElements_pos_iff,
    hotElements_lt_iff hle]

theorem next_in_range_half_hot
    : (1 / 2 : Rat) * 10 = 5
        ∧
      NextRight .exactAmd64 0 9 (.fin (1 / 2)) (.fin (9 / 10)) { int63 := 7, fraction := 0, zipfian := 0 } := by
  refine ⟨by norm_num, ?_⟩
  rw [next_in_range_iff .exactAmd64 (fun _ => rfl) 0 9 (by decide) (by decide) (by decide) (by decide) _ _ (by simp)]
  decide +kernel

theorem next_panics_without_elements
    : (new .exactAmd64 0 4 (.fin (1 / 10)) (.fin 1)).next { int63 := 0, fraction := 0, zipfian := 0 }
          = .panic "invalid argument to Int63n"
        ∧
      (new .exactAmd64 0 4 (.fin 1) (.fin 0)).next { int63 := 0, fraction := 0, zipfian := 0 }
          = .panic "invalid argument to Int63n"
        ∧
      ¬ NextRight .exactAmd64 0 4 (.fin (1 / 10)) (.fin 1) { int63 := 0, fraction := 0, zipfian := 0 }
        ∧
      ¬ NextRight .exactAmd64 0 4 (.fin 1) (.fin 0) { int63 := 0, fraction := 0, zipfian := 0 } := by
  have hhot : (new .exactAmd64 0 4 (.fin (1 / 10)) (.fin 1)).next { int63 := 0, fraction := 0, zipfian := 0 }
      = .panic "invalid argument to Int63n" := by
    decide +kernel
  have hcold : (new .exactAmd64 0 4 (.fin 1) (.fin 0)).next { int63 := 0, fraction := 0, zipfian := 0 }
      = .panic "invalid argument to Int63n" := by
    decide +kernel
  refine ⟨hhot, hcold, ?_, ?_⟩
  . rintro ⟨n, hnext, _⟩
    rw [hhot] at hnext
    contradiction
  . rintro ⟨n, hnext, _⟩
    rw [hcold] at hnext
    contradiction

end Hotspot
end Generator
