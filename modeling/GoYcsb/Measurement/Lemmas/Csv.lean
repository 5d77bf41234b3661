import GoYcsb.Measurement.Impl.Csv
import GoYcsb.Measurement.Impl.Prometheus

/-!
This module contains the verification of the raw measurements: no measurement of any number of workers is lost, and what
is written reads back as what was measured up to some moment of the call.
-/

namespace Measurement

open Locks Threads AtomicObject

def headerFields : List Bytes := [Bytes.ofAscii "operation", Bytes.ofAscii "timestamp_us", Bytes.ofAscii "latency_us"]

def readRow (fields : List Bytes) : Option (Bytes × CsvEntry) :=
  match fields with
  | [op, startUs, latencyUs] => some (op, ⟨startUs.toInt, latencyUs.toInt⟩)
  | _ => none

def readRaw (text : Bytes) : Option (List (Bytes × CsvEntry)) :=
  match Csv.parse text with
  | header :: rows => if header = headerFields then rows.mapM readRow else none
  | [] => none

abbrev Entries := Bytes → List CsvEntry

def Shows (text : Bytes) (entries : Entries) : Prop :=
  ∃ rows, readRaw text = some rows ∧ ∀ op, (rows.filter (fun row => row.1 = op)).map Prod.snd = entries op

namespace Raw

def spec : Spec Call Result Entries := fun entries call res entries' =>
  match call with
  | .measure op start lan => res = .unit ∧ entries' = Function.update entries op (entries op ++ [csvEntry start lan])
  | .output _ => entries' = entries ∧ ∃ text, res = .text text ∧ Shows text entries

end Raw

namespace Csvs

def rows (c : Csvs) : List (Bytes × CsvEntry) :=
  c.entries.flatMap (fun entry => entry.2.map (fun e => (entry.1, e)))

def fields (row : Bytes × CsvEntry) : List Bytes := [row.1, Bytes.ofInt row.2.startUs, Bytes.ofInt row.2.latencyUs]

theorem output_eq_text (order : GoMap.Order Bytes (List CsvEntry)) (c : Csvs)
    : c.output order = Csv.text (headerFields :: (rows (order.visit c)).map fields) := by
  unfold output rows Csv.text
  rw [List.flatMap_cons, List.flatMap_map, List.flatMap_assoc]
  congr 1
  apply List.flatMap_congr
  intro entry _
  rw [List.flatMap_map]
  apply List.flatMap_congr
  intro e _
  unfold line Csv.line fields
  rw [Strings.join_cons_cons, Strings.join_cons_cons, Strings.join_singleton]
  simp only [List.append_assoc]

def Plain (c : Csvs) : Prop := ∀ op ∈ c, Csv.Plain op

theorem plain_fields {c : Csvs} (h : c.Plain) {row : Bytes × CsvEntry} (hrow : row ∈ c.rows)
    : ∀ field ∈ fields row, Csv.Plain field := by
  unfold rows at hrow
  rw [List.mem_flatMap] at hrow
  rcases hrow with ⟨entry, hentry, hrow⟩
  rcases List.mem_map.mp hrow with ⟨e, _, rfl⟩
  have hop : Csv.Plain entry.1 := h entry.1 (AList.mem_keys.mpr (List.mem_keys_of_mem hentry))
  unfold fields
  simp only [List.forall_mem_cons]
  exact ⟨hop, Csv.plain_ofInt _, Csv.plain_ofInt _, fun _ h => absurd h List.not_mem_nil⟩

theorem readRow_fields (row : Bytes × CsvEntry) : readRow (fields row) = some row := by
  unfold readRow fields
  dsimp only
  rw [Bytes.toInt_ofInt, Bytes.toInt_ofInt]

theorem mapM_readRow (rows : List (Bytes × CsvEntry)) : (rows.map fields).mapM readRow = some rows := by
  induction rows with
  | nil => rfl
  | cons row rows ih =>
    rw [List.map_cons, List.mapM_cons, readRow_fields, ih]
    rfl

theorem readRaw_output {c : Csvs} (h : c.Plain) (order : GoMap.Order Bytes (List CsvEntry))
    : readRaw (c.output order) = some (rows (order.visit c)) := by
  have hplain : Plain (order.visit c) := fun op hop => h op (order.mem_visit.mp hop)
  have hheader : ∀ field ∈ headerFields, Csv.Plain field := by
    unfold headerFields
    simp only [List.forall_mem_cons]
    exact ⟨by decide, by decide, by decide, fun _ h => absurd h List.not_mem_nil⟩
  unfold readRaw
  rw [output_eq_text, Csv.parse_text]
  . dsimp only
    rw [if_pos rfl, mapM_readRow]
  . intro row hrow
    rw [List.mem_cons, List.mem_map] at hrow
    rcases hrow with rfl | ⟨row', _, rfl⟩
    . exact List.cons_ne_nil _ _
    . exact List.cons_ne_nil _ _
  . intro row hrow
    rw [List.mem_cons, List.mem_map] at hrow
    rcases hrow with rfl | ⟨row', hrow', rfl⟩
    . exact hheader
    . exact plain_fields hplain hrow'

theorem filter_rows (c : Csvs) (op : Bytes)
    : (c.rows.filter (fun row => row.1 = op)).map Prod.snd = c.get op [] := by
  have hflat : (c.rows.filter (fun row => row.1 = op)).map Prod.snd
      = c.entries.flatMap (fun entry => if entry.1 = op then entry.2 else []) := by
    unfold rows
    rw [List.filter_flatMap, List.map_flatMap]
    apply List.flatMap_congr
    intro entry _
    split
    . next heq => simp [List.filter_map, Function.comp_def, heq]
    . next hne => simp [List.filter_map, Function.comp_def, hne]
  rw [hflat, GoMap.flatMap_entries c op (fun entries => entries)]
  unfold GoMap.get
  rw [Option.map_id']

theorem shows_output {c : Csvs} (h : c.Plain) (order : GoMap.Order Bytes (List CsvEntry))
    : Shows (c.output order) (fun op => c.get op []) := by
  refine ⟨_, readRaw_output h order, ?_⟩
  intro op
  rw [filter_rows]
  unfold GoMap.get
  rw [order.lookup_visit]

theorem get_measure (c : Csvs) (op : Bytes) (start lan : Int)
    : (fun op' => (c.measure op start lan).get op' [])
        =
      Function.update (fun op' => c.get op' []) op (c.get op [] ++ [csvEntry start lan]) := by
  funext op'
  unfold measure
  unfold GoMap.get
  rw [GoMap.lookup_insert]
  split
  . next heq =>
    subst heq
    rw [Function.update_self]
    rfl
  . next hne => rw [Function.update_of_ne hne]

end Csvs

theorem plain_name (op : Operation) : Csv.Plain op.name := by
  cases op with
  | done call => cases call <;> decide
  | error call => cases call <;> decide
  | total => decide
  | readModifyWrite => decide

namespace Raw

def Call.Plain (call : Call) : Prop :=
  match call with
  | .measure op _ _ => Csv.Plain op
  | .output _ => True

def cellSpec : Spec Call Result (Unit → Csvs) := fun cell call res cell' =>
  call.Plain ∧ runSection (serve call) cell = some (.done (.ret res), cell')

theorem spec_of_cellSpec {cell cell' : Unit → Csvs} {call : Call} {res : Result} (hplain : (cell ()).Plain)
    (h : cellSpec cell call res cell')
    : (cell' ()).Plain ∧ spec (fun op => (cell ()).get op []) call res (fun op => (cell' ()).get op []) := by
  rcases h with ⟨hcall, hsection⟩
  cases call with
  | measure op start lan =>
    cases hsection
    refine ⟨?_, rfl, Csvs.get_measure _ _ _ _⟩
    intro op' hop'
    rw [Function.update_self, Csvs.measure, AList.mem_insert] at hop'
    cases hop' with
    | inl heq =>
      rw [heq]
      exact hcall
    | inr hmem => exact hplain op' hmem
  | output order =>
    cases hsection
    exact ⟨hplain, rfl, _, rfl, Csvs.shows_output hplain order⟩

theorem disciplined_serve (call : Call) : Disciplined none (serve call) := by
  cases call with
  | measure op start lan => exact ⟨rfl, rfl, .inr rfl, fun _ => ⟨rfl, rfl, rfl⟩⟩
  | output order => exact ⟨rfl, .inl rfl, fun _ => ⟨rfl, rfl⟩⟩

variable {W : Type} [DecidableEq W]

theorem raw_linearizable {labels : List (Label W Call Unit)} {s : Locks.State W Unit Csvs Call Result}
    (hrun : Run (system serve).step (fun _ => Allows Call.Plain) (init (.new fun _ => ∅)) labels s)
    : Linearizable spec (fun _ => []) s.history := by
  have hsections : ∀ call : Call, call.Plain → ∀ cell, ∃ res cell',
      runSection (serve call) cell = some (.done (.ret res), cell') ∧ cellSpec cell call res cell' := by
    intro call hcall cell
    cases call with
    | measure op start lan => exact ⟨_, _, rfl, hcall, rfl⟩
    | output order => exact ⟨_, _, rfl, hcall, rfl⟩
  have hlinear := (explanation_of_sections hsections).linearizable disciplined_serve hrun
  apply hlinear.map (fun cell op => (cell ()).get op []) (I := fun cell => (cell ()).Plain)
  . intro op hop
    exact absurd hop (AList.notMem_empty op)
  . intro cell call res cell' hplain hspec
    exact spec_of_cellSpec hplain hspec

instance (call : Call) : Decidable call.Plain :=
  match call with
  | .measure op _ _ => inferInstanceAs (Decidable (Csv.Plain op))
  | .output _ => .isTrue trivial

-- One worker has loaded the map when another one wants to measure too.
def twoReads : List (Label (Fin 3) Call Unit) :=
  [.invoke 0 (.measure Operation.total.name 1500 2999), .invoke 1 (.measure Operation.total.name 2500 7000),
    .request 0 (), .request 0 (), .request 0 (), .invoke 2 (.output .id), .request 0 (), .request 0 (), .request 2 (),
    .respond 0, .request 1 (), .request 2 (), .request 2 (), .respond 2, .request 1 (), .request 1 (), .request 1 (),
    .request 1 (), .respond 1]

theorem raw_linearizable_twoReads
    : ∃ s, Run (system serve).step (fun _ => Allows Call.Plain) (init (.new fun _ => ∅)) twoReads s
        ∧
      s.history.length = 6
        ∧
      Linearizable spec (fun _ => []) s.history := by
  have hexec : (Run.exec (system (W := Fin 3) serve).step (fun _ => Allows Call.Plain) (init (.new fun _ => ∅))
      twoReads).any (fun s => s.history.length == 6) = true := by
    decide +kernel
  rcases Run.exists_of_exec _ hexec with ⟨s, hrun, hlength⟩
  exact ⟨s, hrun, of_decide_eq_true hlength, raw_linearizable hrun⟩

end Raw

end Measurement
