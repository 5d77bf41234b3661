import Mathlib.Data.List.Basic

/-!
This module contains regular expressions with submatches. Of the ways to match a text the one is taken
that a search with backtracking finds first, where a repetition tries more characters before fewer.
-/

inductive Regexp (α : Type u) where
  | empty
  -- `^` and `$`
  | textBegin
  | textEnd
  | char (p : α → Bool)
  | plus (p : α → Bool)
  | seq (r s : Regexp α)
  | group (r : Regexp α)

namespace Regexp

structure State (α : Type u) where
  before : List α
  rest : List α
  groups : List (List α)

def many (p : α → Bool) (k : List α → List α → Option β) (before rest : List α) : Option β :=
  match rest with
  | [] => none
  | c :: rest =>
    if p c then
      (many p k (before ++ [c]) rest).or (k (before ++ [c]) rest)
    else
      none

-- The submatches are in the order of their opening parentheses.
def run (r : Regexp α) (s : State α) (k : State α → Option β) : Option β :=
  match r with
  | .empty => k s
  | .textBegin => if s.before.isEmpty then k s else none
  | .textEnd => if s.rest.isEmpty then k s else none
  | .char p =>
    match s.rest with
    | [] => none
    | c :: rest => if p c then k { s with before := s.before ++ [c], rest } else none
  | .plus p => many p (fun before rest => k { s with before, rest }) s.before s.rest
  | .seq r r' => r.run s (fun s => r'.run s k)
  | .group r =>
    r.run s (fun t =>
      let group := t.before.drop s.before.length
      k { t with groups := s.groups ++ group :: t.groups.drop s.groups.length })

def literal [DecidableEq α] (text : List α) : Regexp α :=
  match text with
  | [] => .empty
  | c :: text => .seq (.char (· = c)) (literal text)

def findSubmatch (r : Regexp α) (before rest : List α) : Option (List (List α)) :=
  match r.run ⟨before, rest, []⟩ (fun s => some (s.before.drop before.length :: s.groups)) with
  | some submatches => some submatches
  | none =>
    match rest with
    | [] => none
    | c :: rest => r.findSubmatch (before ++ [c]) rest

def findStringSubmatch (r : Regexp α) (text : List α) : List (List α) := (r.findSubmatch [] text).getD []

section

variable {p : α → Bool} {k : List α → List α → Option β} {before rest : List α}

theorem many_eq_none
    : many p k before rest = none
        ↔
      ∀ text rest', rest = text ++ rest' → text ≠ [] → (∀ c ∈ text, p c) →
        k (before ++ text) rest' = none := by
  induction rest generalizing before with
  | nil => simp +contextual [many]
  | cons c rest ih =>
    unfold many
    split
    . next hc =>
      rw [Option.or_eq_none_iff, ih]
      constructor
      . rintro ⟨hmore, hone⟩ text rest' heq hne hall
        cases text with
        | nil => contradiction
        | cons c' text =>
          simp only [List.cons_append, List.cons.injEq] at heq
          cases text with
          | nil => simp_all
          | cons c'' text =>
            have hnone := hmore (c'' :: text) rest' heq.2 (by simp) (by simp_all)
            simpa [heq.1] using hnone
      . intro h
        constructor
        . intro text rest' heq hne hall
          have hnone := h (c :: text) rest' (by simp [heq]) (by simp) (by simpa [hc] using hall)
          simpa using hnone
        . apply h [c] rest (by simp) (by simp) (by simpa using hc)
    . next hc =>
      simp only [true_iff]
      intro text rest' heq hne hall
      cases text with
      | nil => contradiction
      | cons c' text => simp_all

theorem many_eq_some {b : β}
    : many p k before rest = some b
        ↔
      ∃ text rest', rest = text ++ rest' ∧ text ≠ [] ∧ (∀ c ∈ text, p c) ∧
        k (before ++ text) rest' = some b ∧ many p k (before ++ text) rest' = none := by
  induction rest generalizing before with
  | nil => simp +contextual [many]
  | cons c rest ih =>
    conv =>
      lhs
      unfold many
    split
    . next hc =>
      rw [Option.or_eq_some_iff]
      constructor
      . intro h
        cases h with
        | inl h =>
          rcases ih.mp h with ⟨text, rest', heq, hne, hall, hk, hnone⟩
          refine ⟨c :: text, rest', by simp [heq], by simp, by simpa [hc] using hall, ?_, ?_⟩
          . simpa using hk
          . simpa using hnone
        | inr h =>
          refine ⟨[c], rest, by simp, by simp, by simpa using hc, h.2, h.1⟩
      . rintro ⟨text, rest', heq, hne, hall, hk, hnone⟩
        cases text with
        | nil => contradiction
        | cons c' text =>
          simp only [List.cons_append, List.cons.injEq] at heq
          cases text with
          | nil =>
            right
            simp_all
          | cons c'' text =>
            left
            rw [ih]
            refine ⟨c'' :: text, rest', heq.2, by simp, by simp_all, ?_, ?_⟩
            . simpa [heq.1] using hk
            . simpa [heq.1] using hnone
    . next hc =>
      simp only [reduceCtorEq, false_iff]
      rintro ⟨text, rest', heq, hne, hall, _⟩
      cases text with
      | nil => contradiction
      | cons c' text => simp_all

end

section

variable [DecidableEq α] {s : State α} {k : State α → Option β} {b : β}

theorem run_literal {text : List α}
    : (literal text).run s k = some b
        ↔
      ∃ rest, s.rest = text ++ rest ∧ k { s with before := s.before ++ text, rest } = some b := by
  induction text generalizing s with
  | nil =>
    cases s
    simp [literal, run]
  | cons c text ih =>
    cases hrest : s.rest with
    | nil => simp [literal, run, hrest]
    | cons c' rest =>
      simp only [literal, run, hrest, decide_eq_true_eq]
      split
      . next heq => simp [ih, heq]
      . next hne => simp [hne]

end

theorem run_group_plus {p : α → Bool} {s : State α} {k : State α → Option β}
    : (group (plus p)).run s k
        =
      many p (fun before rest => k ⟨before, rest, s.groups ++ [before.drop s.before.length]⟩) s.before s.rest := by
  simp [run]

theorem findSubmatch_textBegin {r : Regexp α} {before rest : List α} (h : before ≠ [])
    : (seq textBegin r).findSubmatch before rest = none := by
  induction rest generalizing before with
  | nil => simp [findSubmatch, run, h]
  | cons c rest ih =>
    unfold findSubmatch
    simp [run, h, ih]

theorem findStringSubmatch_textBegin {r : Regexp α} {text : List α}
    : (seq textBegin r).findStringSubmatch text
        =
      (r.run ⟨[], text, []⟩ (fun s => some (s.before :: s.groups))).getD [] := by
  unfold findStringSubmatch findSubmatch
  cases text with
  | nil =>
    simp only [run, List.isEmpty_nil, if_true, List.length_nil, List.drop_zero]
    split <;> simp_all
  | cons c text =>
    simp only [run, List.isEmpty_nil, if_true, List.length_nil, List.drop_zero]
    rw [findSubmatch_textBegin (by simp)]
    split <;> simp_all

end Regexp
