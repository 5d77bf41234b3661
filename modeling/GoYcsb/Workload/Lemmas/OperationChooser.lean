import GoYcsb.Generator.Lemmas.Discrete
import GoYcsb.Generator.Lemmas.Generator
import GoYcsb.Workload.Impl.Create
import Mathlib.Order.Interval.Set.Defs

/-!
This module contains the verification of `createOperationGenerator`: with exact arithmetic, every draw chooses an
operation, each one with a probability in the ratio of its proportion.
-/

def operations : List OperationType := [.read, .update, .insert, .scan, .readModifyWrite]

def proportion (P : Platform) (p : Properties) (op : OperationType) : F64 :=
  match op with
  | .read => p.readProportion.getD (.ofRat P (95 / 100))
  | .update => p.updateProportion.getD (.ofRat P (5 / 100))
  | .insert => p.getInsertProportion
  | .scan => p.scanProportion.getD (.fin 0)
  | .readModifyWrite => p.readModifyWriteProportion.getD (.fin 0)

theorem mem_operations (op : OperationType) : op ∈ operations := by cases op <;> decide

theorem nodup_operations : operations.Nodup := by decide

section

variable {P : Platform} {p : Properties} {q : OperationType → Rat}

theorem foldl_addPositive (values : List (F64 × OperationType)) (l : List OperationType)
    : (l.map (fun op => (F64.fin (q op), op))).foldl
          (fun chooser op => if F64.lt (.fin 0) op.1 then chooser.add op.1 op.2 else chooser)
          (Generator.Discrete.mk values)
        =
      ⟨values ++ (Generator.Discrete.ofPositive q l).values⟩ := by
  induction l generalizing values with
  | nil => simp [Generator.Discrete.ofPositive]
  | cons op l ih =>
    rw [List.map_cons, List.foldl_cons, Generator.Discrete.values_cons]
    have hlt : F64.lt (.fin 0) (.fin (q op)) = decide (0 < q op) := rfl
    by_cases hpos : 0 < q op
    . have hadd : (Generator.Discrete.mk values).add (.fin (q op)) op = ⟨values ++ [(.fin (q op), op)]⟩ := rfl
      rw [hlt, decide_eq_true hpos, if_pos rfl, hadd, ih, if_pos hpos, List.append_assoc]
      rfl
    . rw [hlt, decide_eq_false hpos, if_neg Bool.false_ne_true, ih, if_neg hpos]

theorem createOperationGenerator_eq (hq : ∀ op, proportion P p op = .fin (q op))
    : createOperationGenerator P p = .ofPositive q operations := by
  have hvalues := foldl_addPositive [] operations (q := q)
  simp only [operations, List.map_cons, List.map_nil, ← hq] at hvalues
  exact hvalues

theorem total_operations_pos (h : ∃ op, 0 < q op) : 0 < Generator.Discrete.total q operations := by
  rcases h with ⟨op, hop⟩
  have hbefore := Generator.Discrete.before_nonneg (q := q) operations op
  have hle := Generator.Discrete.before_add_le (q := q) nodup_operations (mem_operations op)
  have hmax : q op ≤ max 0 (q op) := le_max_right _ _
  linarith

end

def probability (q : OperationType → Rat) (op : OperationType) : Rat :=
  max 0 (q op) / Generator.Discrete.total q operations

def cumulative (q : OperationType → Rat) (op : OperationType) : Rat :=
  Generator.Discrete.before q operations op / Generator.Discrete.total q operations

def draws (P : Platform) (p : Properties) (op : OperationType) : Set Rat :=
  {val | (0 ≤ val ∧ val < 1) ∧ (createOperationGenerator P p).choose P (.fin val) = .ret op}

section

variable {q : OperationType → Rat} (hpos : ∃ op, 0 < q op) (op : OperationType)

theorem cumulative_nonneg : 0 ≤ cumulative q op :=
  div_nonneg (Generator.Discrete.before_nonneg operations op) (Generator.Discrete.total_nonneg q operations)

theorem cumulative_add_probability
    : cumulative q op + probability q op
        =
      (Generator.Discrete.before q operations op + max 0 (q op)) / Generator.Discrete.total q operations :=
  (add_div _ _ _).symm

include hpos

theorem cumulative_add_probability_le : cumulative q op + probability q op ≤ 1 := by
  rw [cumulative_add_probability, div_le_one (total_operations_pos hpos)]
  exact Generator.Discrete.before_add_le nodup_operations (mem_operations op)

end

theorem operation_chosen_in_proportion (P : Platform) (hexact : ∀ x, P.rnd x = x) (p : Properties)
    (q : OperationType → Rat) (hq : ∀ op, proportion P p op = .fin (q op)) (hpos : ∃ op, 0 < q op)
    : (∀ val, 0 ≤ val → val < 1 → ∃ op, (createOperationGenerator P p).choose P (.fin val) = .ret op)
        ∧
      (∀ draw, ∃ op, (createOperationGenerator P p).next P draw = .ret op)
        ∧
      (∀ op, draws P p op = Set.Ico (cumulative q op) (cumulative q op + probability q op)) := by
  have htotal := total_operations_pos hpos
  have hall : ∀ val, 0 ≤ val → val < 1 → ∃ op, (createOperationGenerator P p).choose P (.fin val) = .ret op := by
    intro val h0 h1
    rw [createOperationGenerator_eq hq]
    rcases Generator.Discrete.choose_mem hexact nodup_operations htotal h0 h1 with ⟨op, _, hop, _⟩
    exact ⟨op, hop⟩
  refine ⟨hall, ?_, ?_⟩
  . intro draw
    rw [Generator.Discrete.next_eq_choose]
    exact hall draw.float64 draw.float64_nonneg draw.float64_lt_one
  . intro op
    ext val
    unfold draws
    rw [Set.mem_ofPred_eq, Set.mem_Ico, createOperationGenerator_eq hq, cumulative_add_probability, cumulative]
    have hstart := cumulative_nonneg (q := q) op
    have hstop := cumulative_add_probability_le hpos op
    rw [cumulative_add_probability] at hstop
    constructor
    . rintro ⟨⟨h0, h1⟩, hret⟩
      exact (Generator.Discrete.choose_eq_ret_iff hexact nodup_operations htotal h0 h1 (mem_operations op)).mp hret
    . intro hmem
      have hunit : 0 ≤ val ∧ val < 1 := ⟨le_trans hstart hmem.1, lt_of_lt_of_le hmem.2 hstop⟩
      refine ⟨hunit, ?_⟩
      exact (Generator.Discrete.choose_eq_ret_iff hexact nodup_operations htotal hunit.1 hunit.2
        (mem_operations op)).mpr hmem

-- Three of four draws read, the negative proportion of the updates is left out.
theorem operation_chosen_three_to_one
    : draws .exactAmd64 {
          readProportion := some (.fin 3), updateProportion := some (.fin (-1)), insertProportion := some (.fin 1)
        } .insert
        =
      Set.Ico (3 / 4) 1 := by
  have hdraws := (operation_chosen_in_proportion .exactAmd64 (fun _ => rfl) {
      readProportion := some (.fin 3), updateProportion := some (.fin (-1)), insertProportion := some (.fin 1)
    } (fun op => if op = .read then 3 else if op = .update then -1 else if op = .insert then 1 else 0)
    (by intro op; cases op <;> rfl) ⟨.read, by decide⟩).2.2 .insert
  have hstart : cumulative (fun op => if op = .read then 3 else if op = .update then -1 else
      if op = .insert then 1 else 0) .insert = 3 / 4 := by decide +kernel
  have hlength : probability (fun op => if op = .read then 3 else if op = .update then -1 else
      if op = .insert then 1 else 0) .insert = 1 / 4 := by decide +kernel
  rw [hdraws, hstart, hlength]
  norm_num
