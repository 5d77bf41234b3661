import GoYcsb.Generator.Impl.Generator
import Mathlib.Tactic.FieldSimp
import Mathlib.Tactic.Ring

/-!
This module contains the verification of the generator `Discrete` from `GoYcsb.Generator.Impl.Generator`, with exact
arithmetic: the values split the interval from 0 to 1 in parts whose lengths are in the ratio of their weights.
-/

namespace Generator
namespace Discrete

def choose (P : Platform) (d : Discrete α) (val : F64) : Outcome α :=
  search P (d.values.foldl (fun sum p => sum.add P p.1) (.fin 0)) val d.values

theorem next_eq_choose (P : Platform) (d : Discrete α) (draw : Draw)
    : d.next P draw = d.choose P (.fin draw.float64) :=
  rfl

section

variable {α : Type u} (q : α → Rat)

def ofPositive (l : List α) : Discrete α where
  values := (l.filter (fun a => 0 < q a)).map (fun a => (.fin (q a), a))

def total (l : List α) : Rat := (l.map (fun a => max 0 (q a))).sum

theorem total_cons (a : α) (l : List α) : total q (a :: l) = max 0 (q a) + total q l := by
  simp [total]

theorem total_append (l l' : List α) : total q (l ++ l') = total q l + total q l' := by
  simp [total]

theorem total_nonneg (l : List α) : 0 ≤ total q l := by
  unfold total
  apply List.sum_nonneg
  intro x hx
  rw [List.mem_map] at hx
  rcases hx with ⟨a, _, rfl⟩
  exact le_max_left _ _

theorem values_cons (a : α) (l : List α)
    : (ofPositive q (a :: l)).values
        =
      if 0 < q a then (.fin (q a), a) :: (ofPositive q l).values else (ofPositive q l).values := by
  unfold ofPositive
  by_cases hpos : 0 < q a <;> simp [hpos]

variable {q} {P : Platform} (hexact : ∀ x, P.rnd x = x)

include hexact

theorem foldl_add (x : Rat) (l : List α)
    : (ofPositive q l).values.foldl (fun sum p => sum.add P p.1) (F64.fin x) = F64.fin (x + total q l) := by
  induction l generalizing x with
  | nil => simp [ofPositive, total]
  | cons a l ih =>
    rw [values_cons, total_cons]
    split
    . next hpos =>
      have hadd : F64.add P (.fin x) (.fin (q a)) = .fin (x + q a) := by simp [F64.add, hexact]
      rw [List.foldl_cons, hadd, ih, max_eq_right (le_of_lt hpos), add_assoc]
    . next hpos => rw [ih, max_eq_left (not_lt.mp hpos), zero_add]

-- The values whose weights are not positive would not make a difference.
theorem search_cons {sum val : Rat} (hsum : 0 < sum) (hval : 0 ≤ val) (a : α) (l : List α)
    : search P (.fin sum) (.fin val) (ofPositive q (a :: l)).values
        =
      if val < max 0 (q a) / sum then
        .ret a
      else
        search P (.fin sum) (.fin (val - max 0 (q a) / sum)) (ofPositive q l).values := by
  rw [values_cons]
  split
  . next hpos => simp [search, F64.div, F64.lt, F64.sub, hexact, max_eq_right (le_of_lt hpos), ne_of_gt hsum]
  . next hpos => simp [max_eq_left (not_lt.mp hpos), not_lt.mpr hval]

-- By induction on the list: what precedes a value is taken off the draw.
theorem search_eq_ret {sum val : Rat} (hsum : 0 < sum) {front rest : List α} {a : α}
    (hle : total q front / sum ≤ val) (hlt : val < (total q front + max 0 (q a)) / sum)
    : search P (.fin sum) (.fin val) (ofPositive q (front ++ a :: rest)).values = .ret a := by
  induction front generalizing val with
  | nil =>
    simp only [total, List.map_nil, List.sum_nil, zero_div, zero_add] at hle hlt
    rw [List.nil_append, search_cons hexact hsum hle, if_pos hlt]
  | cons b front ih =>
    rw [total_cons] at hle hlt
    have hfront : 0 ≤ total q front / sum := div_nonneg (total_nonneg q front) (le_of_lt hsum)
    have hb : 0 ≤ max 0 (q b) / sum := div_nonneg (le_max_left _ _) (le_of_lt hsum)
    rw [add_div] at hle
    rw [add_assoc, add_div] at hlt
    rw [List.cons_append, search_cons hexact hsum (by linarith), if_neg (by linarith)]
    apply ih
    . linarith
    . linarith

end

section

variable {α : Type u} {q : α → Rat}

theorem exists_part {sum val : Rat} {l : List α} (hval : 0 ≤ val) (hlt : val < total q l / sum)
    : ∃ front a rest,
        l = front ++ a :: rest ∧ total q front / sum ≤ val ∧ val < (total q front + max 0 (q a)) / sum := by
  induction l generalizing val with
  | nil =>
    simp only [total, List.map_nil, List.sum_nil, zero_div] at hlt
    linarith
  | cons a l ih =>
    rw [total_cons, add_div] at hlt
    by_cases hfirst : val < max 0 (q a) / sum
    . refine ⟨[], a, l, rfl, ?_, ?_⟩
      . simpa [total] using hval
      . simpa [total] using hfirst
    . rcases @ih (val - max 0 (q a) / sum) (by linarith) (by linarith) with ⟨front, b, rest, rfl, hle, hlt⟩
      refine ⟨a :: front, b, rest, rfl, ?_, ?_⟩
      . rw [total_cons, add_div]
        linarith
      . rw [total_cons, add_assoc, add_div]
        linarith

variable {P : Platform} {l : List α}

theorem choose_part (hexact : ∀ x, P.rnd x = x) (hpos : 0 < total q l) {val : Rat} {front rest : List α} {a : α}
    (heq : l = front ++ a :: rest) (hle : total q front / total q l ≤ val)
    (hlt : val < (total q front + max 0 (q a)) / total q l)
    : (ofPositive q l).choose P (.fin val) = .ret a := by
  unfold choose
  rw [foldl_add hexact, zero_add]
  generalize total q l = sum at *
  rw [heq]
  exact search_eq_ret hexact hpos hle hlt

variable [DecidableEq α]

def before (q : α → Rat) (l : List α) (a : α) : Rat := total q (l.takeWhile (fun b => b ≠ a))

theorem before_append {front rest : List α} {a : α} (h : a ∉ front)
    : before q (front ++ a :: rest) a = total q front := by
  unfold before
  rw [List.takeWhile_append_of_pos]
  . simp
  . intro b hb
    simp only [ne_eq, decide_not, Bool.not_eq_eq_eq_not, Bool.not_true, decide_eq_false_iff_not]
    rintro rfl
    exact h hb

theorem before_eq (hnodup : l.Nodup) {front rest : List α} {a : α} (heq : l = front ++ a :: rest)
    : before q l a = total q front := by
  subst heq
  rw [List.nodup_middle, List.nodup_cons, List.mem_append, not_or] at hnodup
  exact before_append hnodup.1.1

theorem before_nonneg (l : List α) (a : α) : 0 ≤ before q l a := total_nonneg q _

theorem before_add_le (hnodup : l.Nodup) {a : α} (ha : a ∈ l) : before q l a + max 0 (q a) ≤ total q l := by
  rcases List.append_of_mem ha with ⟨front, rest, heq⟩
  have hrest := total_nonneg q rest
  rw [before_eq hnodup heq, heq, total_append, total_cons]
  linarith

theorem choose_mem (hexact : ∀ x, P.rnd x = x) (hnodup : l.Nodup) (hpos : 0 < total q l) {val : Rat} (hval : 0 ≤ val)
    (hlt : val < 1)
    : ∃ a ∈ l,
        (ofPositive q l).choose P (.fin val) = .ret a
          ∧
        before q l a / total q l ≤ val
          ∧
        val < (before q l a + max 0 (q a)) / total q l := by
  rw [← div_self (ne_of_gt hpos)] at hlt
  rcases exists_part hval hlt with ⟨front, a, rest, heq, hle, hlt⟩
  refine ⟨a, by simp [heq], choose_part hexact hpos heq hle hlt, ?_⟩
  rw [before_eq hnodup heq]
  exact ⟨hle, hlt⟩

theorem choose_eq_ret_iff (hexact : ∀ x, P.rnd x = x) (hnodup : l.Nodup) (hpos : 0 < total q l) {val : Rat}
    (hval : 0 ≤ val) (hlt : val < 1) {a : α} (ha : a ∈ l)
    : (ofPositive q l).choose P (.fin val) = .ret a
        ↔
      before q l a / total q l ≤ val ∧ val < (before q l a + max 0 (q a)) / total q l := by
  constructor
  . intro hret
    rcases choose_mem hexact hnodup hpos hval hlt with ⟨b, _, hb, hpart⟩
    rw [hret, Outcome.ret.injEq] at hb
    subst hb
    exact hpart
  . rintro ⟨hle, hlt⟩
    rcases List.append_of_mem ha with ⟨front, rest, heq⟩
    rw [before_eq hnodup heq] at hle hlt
    exact choose_part hexact hpos heq hle hlt

end

end Discrete
end Generator
