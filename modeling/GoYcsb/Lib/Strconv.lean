import GoYcsb.Lib.Decimal
import GoYcsb.Lib.Float64
import GoYcsb.Lib.Strings

/-!
This module contains decimal numerals and what Go's `strconv` and `fmt` promise about reading and printing floating
point numbers.
-/

namespace Numeral

def unsigned (b : Bytes) : Bytes := if b.head? = some 43 then b.tail else b

def whole (b : Bytes) : Bytes := (unsigned b).takeWhile (fun c => c != 46)

def fraction (b : Bytes) : Bytes := ((unsigned b).dropWhile (fun c => c != 46)).tail

def value (b : Bytes) : Rat := (whole b).value + (fraction b).value / 10 ^ (fraction b).length

end Numeral

-- Digits, among which there may be a point, after a plus sign or none.
structure IsNumeral (b : Bytes) : Prop where
  ne_nil : Numeral.whole b ++ Numeral.fraction b ≠ []
  digits : ∀ c ∈ Numeral.whole b ++ Numeral.fraction b, 48 ≤ c ∧ c ≤ 57

theorem isNumeral_iff {b : Bytes}
    : IsNumeral b
        ↔
      Numeral.whole b ++ Numeral.fraction b ≠ []
        ∧
      (Numeral.whole b ++ Numeral.fraction b).all (fun c => decide (48 ≤ c ∧ c ≤ 57)) = true := by
  rw [List.all_eq_true]
  constructor
  . intro h
    exact ⟨h.ne_nil, fun c hc => decide_eq_true (h.digits c hc)⟩
  . intro h
    exact ⟨h.1, fun c hc => of_decide_eq_true (h.2 c hc)⟩

instance (b : Bytes) : Decidable (IsNumeral b) := decidable_of_iff _ isNumeral_iff.symm

namespace IsNumeral

theorem mem_cases {b : Bytes} (h : IsNumeral b) {c : UInt8} (hc : c ∈ b) : c = 43 ∨ c = 46 ∨ (48 ≤ c ∧ c ≤ 57) := by
  have hunsigned : c = 43 ∨ c ∈ Numeral.unsigned b := by
    unfold Numeral.unsigned
    split
    . next hplus =>
      rw [List.head?_eq_some_iff] at hplus
      rcases hplus with ⟨rest, rfl⟩
      exact List.mem_cons.mp hc
    . exact .inr hc
  cases hunsigned with
  | inl hplus => exact .inl hplus
  | inr hmem =>
    right
    rw [← @List.takeWhile_append_dropWhile _ (fun c => c != 46) (Numeral.unsigned b), List.mem_append] at hmem
    cases hmem with
    | inl hwhole => exact .inr (h.digits c (List.mem_append_left _ hwhole))
    | inr hrest =>
      cases hdrop : (Numeral.unsigned b).dropWhile (fun c => c != 46) with
      | nil => simp [hdrop] at hrest
      | cons point rest =>
        have hpoint := List.head?_dropWhile_not (fun c => c != 46) (Numeral.unsigned b)
        rw [hdrop] at hpoint hrest
        cases List.mem_cons.mp hrest with
        | inl heq =>
          left
          simpa [heq] using hpoint
        | inr hmem =>
          right
          apply h.digits
          apply List.mem_append_right
          unfold Numeral.fraction
          rw [hdrop]
          exact hmem

theorem not_mem {b : Bytes} (h : IsNumeral b) {c : UInt8} (hc : ¬ (c = 43 ∨ c = 46 ∨ (48 ≤ c ∧ c ≤ 57))) : c ∉ b := by
  intro hmem
  exact hc (h.mem_cases hmem)

theorem nonempty {b : Bytes} (h : IsNumeral b) : b ≠ [] := by
  rintro rfl
  exact h.ne_nil rfl

theorem trimmed {b : Bytes} (h : IsNumeral b) : Strings.Trimmed b := by
  apply Strings.Trimmed.of_graphic h.nonempty
  intro c hc
  rcases h.mem_cases hc with rfl | rfl | ⟨hle, hge⟩
  . decide
  . decide
  . constructor
    . exact UInt8.le_trans (by decide) hle
    . exact UInt8.le_trans hge (by decide)

end IsNumeral

def Strconv.OfNumber (c : UInt8) : Prop := c = 43 ∨ c = 45 ∨ (48 ≤ c ∧ c ≤ 57) ∨ c ∈ Bytes.ofAscii "InfNa"

instance (c : UInt8) : Decidable (Strconv.OfNumber c) :=
  inferInstanceAs (Decidable (c = 43 ∨ c = 45 ∨ (48 ≤ c ∧ c ≤ 57) ∨ c ∈ Bytes.ofAscii "InfNa"))

-- `strconv.ParseFloat`, and the text of a number with `%.f`.
structure Strconv (F : Type) where
  zero : F
  parseFloat : Bytes → Except String F
  formatFloat : F → Bytes
  mem_formatFloat : ∀ x, ∀ c ∈ formatFloat x, Strconv.OfNumber c

namespace Strconv

-- Halfway between the largest number and the next power of two.
def limit : Rat := 2 ^ 1024 - 2 ^ 970

structure Rounds (P : Platform) (S : Strconv F64) : Prop where
  parse : ∀ b, IsNumeral b → Numeral.value b < limit → S.parseFloat b = .ok (F64.ofRat P (Numeral.value b))
  range : ∀ b, IsNumeral b → limit ≤ Numeral.value b → ∃ err, S.parseFloat b = .error err

def roundHalfEven (q : Rat) : Nat :=
  let n := ⌊q⌋.toNat
  let rest := q - n
  if rest < 1 / 2 then
    n
  else if rest > 1 / 2 then
    n + 1
  else
    n + n % 2

def formatF64 (x : F64) : Bytes :=
  match x with
  | .nan => Bytes.ofAscii "NaN"
  | .inf neg => if neg then Bytes.ofAscii "-Inf" else Bytes.ofAscii "+Inf"
  | .fin q => (if q < 0 then [45] else []) ++ Bytes.decimal (roundHalfEven |q|)

example : formatF64 (.fin (-5 / 2)) = Bytes.ofAscii "-2" := by decide +kernel

theorem mem_formatF64 (x : F64) {c : UInt8} (hc : c ∈ formatF64 x) : OfNumber c := by
  have hletters : ∀ b ∈ [Bytes.ofAscii "NaN", Bytes.ofAscii "-Inf", Bytes.ofAscii "+Inf"],
      b.all (fun c => decide (OfNumber c)) = true := by
    decide
  have hof : ∀ b ∈ [Bytes.ofAscii "NaN", Bytes.ofAscii "-Inf", Bytes.ofAscii "+Inf"], c ∈ b → OfNumber c := by
    intro b hb hc
    exact of_decide_eq_true (List.all_eq_true.mp (hletters b hb) c hc)
  cases x with
  | nan => exact hof _ (by decide) hc
  | inf neg =>
    cases neg with
    | true => exact hof _ (by decide) hc
    | false => exact hof _ (by decide) hc
  | fin q =>
    cases List.mem_append.mp hc with
    | inl hsign =>
      split at hsign
      . rw [List.mem_singleton.mp hsign]
        decide
      . cases hsign
    | inr hdigit => exact .inr (.inr (.inl (Bytes.digit_of_mem_decimal hdigit)))

def exact : Strconv F64 where
  zero := .fin 0
  parseFloat b :=
    if IsNumeral b then
      if Numeral.value b < limit then .ok (.fin (Numeral.value b)) else .error "value out of range"
    else
      .error "invalid syntax"
  formatFloat := formatF64
  mem_formatFloat x _ hc := mem_formatF64 x hc

theorem rounds_exact : exact.Rounds Platform.exactAmd64 where
  parse := by
    intro b hnumeral hlt
    show (if _ then _ else _) = _
    rw [if_pos hnumeral, if_pos hlt]
    rfl
  range := by
    intro b hnumeral hle
    refine ⟨"value out of range", ?_⟩
    show (if _ then _ else _) = _
    rw [if_pos hnumeral, if_neg (not_lt.mpr hle)]

end Strconv
