import GoYcsb.Util.Impl.ConcurrentMap
import Mathlib.Algebra.BigOperators.Group.Finset.Basic
import Mathlib.Algebra.Order.BigOperators.Group.Finset
import Mathlib.Data.Set.Card

/-!
This module contains the verification of the `ConcurrentMap`: however the accesses of any number of goroutines to the
shards interleave, the calls do what the calls of one map do one at a time.
-/

namespace Util.ConcurrentMap

open Locks Threads AtomicObject

-- The map as its callers think of it.
abbrev View := Int → Option Int

noncomputable def size (view : View) : Nat := {key | (view key).isSome = true}.ncard

def KeyCall.apply (key : Int) (call : KeyCall) (value : Option Int) : Result × Option Int :=
  match call with
  | .set v => (.unit, some v)
  | .upsert v cb => (.value (cb value.isSome (value.getD 0) v), some (cb value.isSome (value.getD 0) v))
  | .setIfAbsent v => (.bool value.isNone, some (value.getD v))
  | .get => (.found (value.getD 0) value.isSome, value)
  | .has => (.bool value.isSome, value)
  | .remove => (.unit, none)
  | .removeCb cb =>
    (.bool (cb key (value.getD 0) value.isSome), if cb key (value.getD 0) value.isSome then none else value)
  | .pop => (.found (value.getD 0) value.isSome, none)

noncomputable def Call.apply (call : Call) (view : View) : Result × View :=
  match call with
  | .at key call => ((call.apply key (view key)).1, Function.update view key (call.apply key (view key)).2)
  | .count => (.count (size view), view)
  | .isEmpty => (.bool (size view == 0), view)

def spec : Spec Call Result View := fun view call res view' => (res, view') = call.apply view

variable (m : ConcurrentMap)

def shardOf (key : Int) : Nat := ((mix key).tmod m.shardCount % 2 ^ 32).toNat % m.shardCount.toNat

def viewOf (cell : Nat → Shard) : View := fun key => (cell (m.shardOf key)).lookup key

def Placed (cell : Nat → Shard) : Prop := ∀ i, ∀ key ∈ cell i, i = m.shardOf key

variable {m} {cell : Nat → Shard}

theorem getShard_eq (h : 0 < m.shardCount) (key : Int) : m.getShard key = .ret (m.shardOf key) := by
  unfold getShard fnv32
  rw [if_neg (by omega)]
  rfl

theorem shardOf_lt (h : 0 < m.shardCount) (key : Int) : m.shardOf key < m.shardCount.toNat := by
  apply Nat.mod_lt
  omega

theorem lookup_erase_eq (items : Shard) (key k : Int)
    : (items.erase key).lookup k = if k = key then none else items.lookup k := by
  split
  . next heq =>
    subst heq
    exact AList.lookup_erase k items
  . next hne => exact AList.lookup_erase_ne hne

theorem lookup_eq_ite (items : Shard) (key k : Int)
    : items.lookup k = if k = key then items.lookup key else items.lookup k := by
  split
  . next heq => rw [heq]
  . rfl

theorem runSection_serveAt (h : 0 < m.shardCount) (key : Int) (call : KeyCall) (cell : Nat → Shard)
    : ∃ items : Shard,
        runSection (m.serveAt key call) cell
          = some (.done (.ret (call.apply key (m.viewOf cell key)).1), Function.update cell (m.shardOf key) items)
          ∧
        ∀ k, items.lookup k
          = if k = key then (call.apply key (m.viewOf cell key)).2 else (cell (m.shardOf key)).lookup k := by
  have hself : Function.update cell (m.shardOf key) (cell (m.shardOf key)) = cell := Function.update_eq_self _ _
  cases call with
  | set v =>
    refine ⟨(cell (m.shardOf key)).insert key v, ?_, fun k => GoMap.lookup_insert _ k key v⟩
    unfold serveAt set
    rw [getShard_eq h]
    rfl
  | upsert v cb =>
    refine ⟨(cell (m.shardOf key)).insert key _, ?_, fun k => GoMap.lookup_insert _ k key _⟩
    unfold serveAt upsert
    rw [getShard_eq h]
    rfl
  | setIfAbsent v =>
    have hsection : runSection (m.serveAt key (.setIfAbsent v)) cell
        = if ((cell (m.shardOf key)).lookup key).isSome then
            some (.done (.ret (.bool false)), cell)
          else
            some (.done (.ret (.bool true)),
              Function.update cell (m.shardOf key) ((cell (m.shardOf key)).insert key v)) := by
      unfold serveAt setIfAbsent
      rw [getShard_eq h]
      dsimp [runSection, lock, load, finish]
      cases (cell (m.shardOf key)).lookup key with
      | some old => rfl
      | none => rfl
    rw [hsection]
    unfold viewOf
    cases hold : (cell (m.shardOf key)).lookup key with
    | some old =>
      refine ⟨cell (m.shardOf key), ?_, ?_⟩
      . rw [hself]
        rfl
      . intro k
        dsimp only [KeyCall.apply, Option.getD]
        rw [← hold]
        exact lookup_eq_ite _ key k
    | none => exact ⟨(cell (m.shardOf key)).insert key v, rfl, fun k => GoMap.lookup_insert _ k key v⟩
  | get =>
    refine ⟨cell (m.shardOf key), ?_, fun k => lookup_eq_ite _ key k⟩
    rw [hself]
    unfold serveAt get
    rw [getShard_eq h]
    rfl
  | has =>
    refine ⟨cell (m.shardOf key), ?_, fun k => lookup_eq_ite _ key k⟩
    rw [hself]
    unfold serveAt has
    rw [getShard_eq h]
    rfl
  | remove =>
    refine ⟨(cell (m.shardOf key)).erase key, ?_, fun k => lookup_erase_eq _ key k⟩
    unfold serveAt remove
    rw [getShard_eq h]
    rfl
  | removeCb cb =>
    generalize hres : cb key ((m.viewOf cell key).getD 0) (m.viewOf cell key).isSome = res
    have hsection : runSection (m.serveAt key (.removeCb cb)) cell
        = if res && (m.viewOf cell key).isSome then
            some (.done (.ret (.bool res)), Function.update cell (m.shardOf key) ((cell (m.shardOf key)).erase key))
          else
            some (.done (.ret (.bool res)), cell) := by
      rw [← hres]
      unfold serveAt removeCb
      rw [getShard_eq h]
      dsimp [runSection, lock, load, finish]
      unfold viewOf GoMap.get
      split
      . rfl
      . rfl
    dsimp only [KeyCall.apply]
    rw [hsection, hres]
    by_cases hremove : (res && (m.viewOf cell key).isSome) = true
    . rw [if_pos hremove]
      rw [Bool.and_eq_true] at hremove
      rw [if_pos hremove.1]
      exact ⟨(cell (m.shardOf key)).erase key, rfl, fun k => lookup_erase_eq _ key k⟩
    . rw [if_neg hremove]
      have hvalue : (if res = true then none else m.viewOf cell key) = m.viewOf cell key := by
        cases res with
        | false => rfl
        | true =>
          rw [Bool.true_and, Bool.not_eq_true, Option.isSome_eq_false_iff, Option.isNone_iff_eq_none] at hremove
          rw [if_pos rfl, hremove]
      rw [hvalue]
      refine ⟨cell (m.shardOf key), ?_, fun k => lookup_eq_ite _ key k⟩
      rw [hself]
  | pop =>
    refine ⟨(cell (m.shardOf key)).erase key, ?_, fun k => lookup_erase_eq _ key k⟩
    unfold serveAt pop
    rw [getShard_eq h]
    rfl

theorem viewOf_update {key : Int} {value : Option Int} {items : Shard}
    (hitems : ∀ k, items.lookup k = if k = key then value else (cell (m.shardOf key)).lookup k)
    : m.viewOf (Function.update cell (m.shardOf key) items) = Function.update (m.viewOf cell) key value := by
  funext k
  unfold viewOf
  by_cases hshard : m.shardOf k = m.shardOf key
  . rw [hshard, Function.update_self, hitems, ← hshard]
    split
    . next heq => rw [heq, Function.update_self]
    . next hne => rw [Function.update_of_ne hne]
  . have hne : k ≠ key := by
      rintro rfl
      exact hshard rfl
    rw [Function.update_of_ne hshard, Function.update_of_ne hne]

theorem placed_update {key : Int} {value : Option Int} {items : Shard} (hplaced : m.Placed cell)
    (hitems : ∀ k, items.lookup k = if k = key then value else (cell (m.shardOf key)).lookup k)
    : m.Placed (Function.update cell (m.shardOf key) items) := by
  intro i k hk
  by_cases hi : i = m.shardOf key
  . subst hi
    rw [Function.update_self, ← AList.lookup_isSome, hitems] at hk
    split at hk
    . next heq => rw [heq]
    . exact hplaced _ k (AList.lookup_isSome.mp hk)
  . rw [Function.update_of_ne hi] at hk
    exact hplaced i k hk

section

variable (m)

def entriesBelow (n : Nat) (cell : Nat → Shard) : Nat := ∑ i ∈ Finset.range n, (cell i).keys.toFinset.card

def total (cell : Nat → Shard) : Nat := entriesBelow m.shardCount.toNat cell

end

theorem card_keys (items : Shard) : items.keys.toFinset.card = items.entries.length := by
  rw [List.toFinset_card_of_nodup items.keys_nodup]
  exact List.length_map _

theorem entriesBelow_succ (n : Nat) (cell : Nat → Shard)
    : entriesBelow (n + 1) cell = entriesBelow n cell + (cell n).entries.length := by
  unfold entriesBelow
  rw [Finset.sum_range_succ, card_keys]

theorem size_viewOf (h : 0 < m.shardCount) (hplaced : m.Placed cell) : size (m.viewOf cell) = m.total cell := by
  have hkeys : {key | (m.viewOf cell key).isSome = true}
      = ((Finset.range m.shardCount.toNat).biUnion (fun i => (cell i).keys.toFinset) : Finset Int) := by
    ext key
    rw [Set.mem_ofPred_eq, Finset.mem_coe, Finset.mem_biUnion]
    constructor
    . intro hkey
      refine ⟨m.shardOf key, Finset.mem_range.mpr (shardOf_lt h key), ?_⟩
      rw [List.mem_toFinset, ← AList.mem_keys]
      exact AList.lookup_isSome.mp hkey
    . rintro ⟨i, _, hkey⟩
      rw [List.mem_toFinset, ← AList.mem_keys] at hkey
      have hi := hplaced i key hkey
      rw [hi] at hkey
      exact AList.lookup_isSome.mpr hkey
  unfold size total entriesBelow
  rw [hkeys, Set.ncard_coe_finset, Finset.card_biUnion]
  intro i _ j _ hne
  dsimp only [Function.onFun]
  rw [Finset.disjoint_left]
  intro key hi hj
  rw [List.mem_toFinset, ← AList.mem_keys] at hi hj
  exact hne ((hplaced i key hi).trans (hplaced j key hj).symm)

theorem disciplined_serveAt (h : 0 < m.shardCount) (key : Int) (call : KeyCall)
    : Disciplined none (m.serveAt key call) := by
  cases call with
  | set v =>
    unfold serveAt set
    rw [getShard_eq h]
    exact ⟨rfl, rfl, rfl, rfl, rfl⟩
  | upsert v cb =>
    unfold serveAt upsert
    rw [getShard_eq h]
    exact ⟨rfl, rfl, .inr rfl, fun _ => ⟨rfl, rfl, rfl⟩⟩
  | setIfAbsent v =>
    unfold serveAt setIfAbsent
    rw [getShard_eq h]
    refine ⟨rfl, rfl, .inr rfl, fun items => ?_⟩
    dsimp only [Rpc.bind]
    cases AList.lookup key items with
    | some old => exact ⟨rfl, rfl⟩
    | none => exact ⟨rfl, rfl, rfl⟩
  | get =>
    unfold serveAt get
    rw [getShard_eq h]
    exact ⟨rfl, .inl rfl, fun _ => ⟨rfl, rfl⟩⟩
  | has =>
    unfold serveAt has
    rw [getShard_eq h]
    exact ⟨rfl, .inl rfl, fun _ => ⟨rfl, rfl⟩⟩
  | remove =>
    unfold serveAt remove
    rw [getShard_eq h]
    exact ⟨rfl, rfl, rfl, rfl, rfl⟩
  | removeCb cb =>
    unfold serveAt removeCb
    rw [getShard_eq h]
    refine ⟨rfl, rfl, .inr rfl, fun items => ?_⟩
    dsimp only [Rpc.bind]
    split
    . exact ⟨rfl, rfl, rfl⟩
    . exact ⟨rfl, rfl⟩
  | pop =>
    unfold serveAt pop
    rw [getShard_eq h]
    exact ⟨rfl, rfl, .inr rfl, fun _ => ⟨rfl, rfl, rfl⟩⟩

def Call.ofCount (call : Call) (n : Nat) : Result :=
  match call with
  | .count => .count n
  | .isEmpty => .bool (n == 0)
  | .at _ _ => .unit

def counting (call : Call) (left i n : Nat) : Prog Result :=
  countFrom left i n >>= fun n => .done (.ret (call.ofCount n))

theorem disciplined_counting (call : Call) (left i n : Nat) : Disciplined none (counting call left i n) := by
  induction left generalizing i n with
  | zero => rfl
  | succ left ih => exact ⟨rfl, .inl rfl, fun items => ⟨rfl, ih (i + 1) _⟩⟩

theorem runSection_counting (call : Call) (left i n : Nat) (cell : Nat → Shard)
    : runSection (counting call (left + 1) i n) cell
        =
      some (counting call left (i + 1) (n + (cell i).entries.length), cell) := rfl

theorem serve_count : m.serve .count = counting .count m.shardCount.toNat 0 0 := rfl

theorem serve_isEmpty : m.serve .isEmpty = counting .isEmpty m.shardCount.toNat 0 0 := by
  unfold serve isEmpty
  dsimp only
  rw [Rpc.bind_assoc]
  rfl

theorem disciplined_serve (h : 0 < m.shardCount) (call : Call) : Disciplined none (m.serve call) := by
  cases call with
  | «at» key call => exact disciplined_serveAt h key call
  | count =>
    rw [serve_count]
    exact disciplined_counting _ _ _ _
  | isEmpty =>
    rw [serve_isEmpty]
    exact disciplined_counting _ _ _ _

section

variable (m)

def shardSpec : Spec Call Result (Nat → Shard) := fun cell call res cell' =>
  match call with
  | .at key call => runSection (m.serveAt key call) cell = some (.done (.ret res), cell')
  | .count | .isEmpty => res = call.ofCount (m.total cell) ∧ cell' = cell

end

theorem spec_of_shardSpec (h : 0 < m.shardCount) {call : Call} {res : Result} {cell' : Nat → Shard}
    (hplaced : m.Placed cell) (hspec : m.shardSpec cell call res cell')
    : m.Placed cell' ∧ spec (m.viewOf cell) call res (m.viewOf cell') := by
  cases call with
  | «at» key call =>
    rcases runSection_serveAt h key call cell with ⟨items, hsection, hitems⟩
    have hspec : runSection (m.serveAt key call) cell = some (.done (.ret res), cell') := hspec
    rw [hsection] at hspec
    cases hspec
    refine ⟨placed_update hplaced hitems, ?_⟩
    unfold spec
    rw [viewOf_update hitems]
    rfl
  | count =>
    rcases hspec with ⟨rfl, rfl⟩
    refine ⟨hplaced, ?_⟩
    unfold spec Call.apply
    dsimp only
    rw [size_viewOf h hplaced]
    rfl
  | isEmpty =>
    rcases hspec with ⟨rfl, rfl⟩
    refine ⟨hplaced, ?_⟩
    unfold spec Call.apply
    dsimp only
    rw [size_viewOf h hplaced]
    rfl

def Call.IsAt (call : Call) : Prop :=
  match call with
  | .at _ _ => True
  | .count | .isEmpty => False

def Call.Keeps (call : Call) : Prop :=
  match call with
  | .at _ (.set _) | .at _ (.upsert _ _) | .at _ (.setIfAbsent _) | .at _ .get | .at _ .has | .count | .isEmpty => True
  | .at _ .remove | .at _ (.removeCb _) | .at _ .pop => False

instance (call : Call) : Decidable call.IsAt :=
  match call with
  | .at _ _ => .isTrue trivial
  | .count | .isEmpty => .isFalse not_false

instance (call : Call) : Decidable call.Keeps :=
  match call with
  | .at _ (.set _) | .at _ (.upsert _ _) | .at _ (.setIfAbsent _) | .at _ .get | .at _ .has | .count | .isEmpty =>
    .isTrue trivial
  | .at _ .remove | .at _ (.removeCb _) | .at _ .pop => .isFalse not_false

variable {W : Type} [DecidableEq W]

omit W [DecidableEq W] in
theorem new_eq {shardCount : Int} (hnew : newConcurrentMap shardCount = .ret (m, cell))
    : m.shardCount = shardCount ∧ cell = fun _ => ∅ := by
  unfold newConcurrentMap at hnew
  split at hnew
  . contradiction
  . cases hnew
    exact ⟨rfl, rfl⟩

theorem linearizable_of_shards (h : 0 < m.shardCount) {spec' : Spec Call Result (Nat → Shard)}
    {history : List (Event W Call Result)}
    (hspec : ∀ cell call res cell', spec' cell call res cell' → m.shardSpec cell call res cell')
    (hlinear : Linearizable spec' (fun _ => ∅) history)
    : Linearizable spec (fun _ => none) history := by
  apply hlinear.map m.viewOf (I := m.Placed)
  . intro i key hkey
    exact absurd hkey (AList.notMem_empty key)
  . intro cell call res cell' hplaced hshards
    exact spec_of_shardSpec h hplaced (hspec _ _ _ _ hshards)

theorem key_calls_linearizable {shardCount : Int} (hnew : newConcurrentMap shardCount = .ret (m, cell))
    (hpos : 0 < shardCount) {labels : List (Label W Call Unit)} {s : Locks.State W Nat Shard Call Result}
    (hrun : Run (system m.serve).step (fun _ => Allows Call.IsAt) (init (.new cell)) labels s)
    : Linearizable spec (fun _ => none) s.history := by
  rcases new_eq hnew with ⟨rfl, rfl⟩
  have hsections : ∀ call : Call, call.IsAt → ∀ cell, ∃ res cell',
      runSection (m.serve call) cell = some (.done (.ret res), cell') ∧ m.shardSpec cell call res cell' := by
    intro call hcall cell
    cases call with
    | «at» key call =>
      rcases runSection_serveAt hpos key call cell with ⟨items, hsection, _⟩
      exact ⟨_, _, hsection, hsection⟩
    | count => exact absurd hcall not_false
    | isEmpty => exact absurd hcall not_false
  have hlinear := (explanation_of_sections hsections).linearizable (disciplined_serve hpos) hrun
  exact linearizable_of_shards hpos (fun _ _ _ _ hspec => hspec) hlinear

def setAndPop : List (Label (Fin 2) Call Unit) :=
  [.invoke 0 (.at 7 .pop), .invoke 1 (.at 7 (.set 5)), .request 1 (), .request 1 (), .request 1 (), .request 1 (),
    .request 0 (), .respond 1, .request 0 (), .request 0 (), .request 0 (), .request 0 (), .respond 0]

theorem key_calls_linearizable_setAndPop
    : ∃ s, Run (system (serve ⟨2⟩)).step (fun _ => Allows Call.IsAt) (init (.new fun _ => ∅)) setAndPop s
        ∧
      s.history.length = 4
        ∧
      Linearizable spec (fun _ => none) s.history := by
  have hexec : (Run.exec (system (W := Fin 2) (serve ⟨2⟩)).step (fun _ => Allows Call.IsAt) (init (.new fun _ => ∅))
      setAndPop).any (fun s => s.history.length == 4) = true := by
    decide +kernel
  rcases Run.exists_of_exec _ hexec with ⟨s, hrun, hlength⟩
  have hnew : newConcurrentMap 2 = .ret (⟨2⟩, fun _ => ∅) := rfl
  exact ⟨s, hrun, of_decide_eq_true hlength, key_calls_linearizable hnew (by decide) hrun⟩

section

omit W [DecidableEq W]

def entries (items : Shard) : Nat := items.keys.toFinset.card

theorem KeyCall.keeps {key : Int} {call : KeyCall} (hcall : (Call.at key call).Keeps) {value : Option Int}
    (hvalue : value.isSome = true)
    : (call.apply key value).2.isSome = true := by
  cases call with
  | set v => rfl
  | upsert v cb => rfl
  | setIfAbsent v => rfl
  | get => exact hvalue
  | has => exact hvalue
  | remove => exact absurd hcall not_false
  | removeCb cb => exact absurd hcall not_false
  | pop => exact absurd hcall not_false

theorem entriesBelow_le {cell' : Nat → Shard} (h : ∀ i, entries (cell i) ≤ entries (cell' i)) (n : Nat)
    : entriesBelow n cell ≤ entriesBelow n cell' :=
  Finset.sum_le_sum (fun i _ => h i)

theorem entries_update {key : Int} {call : KeyCall} {items : Shard} (hcall : (Call.at key call).Keeps)
    (hitems : ∀ k, items.lookup k
      = if k = key then (call.apply key (m.viewOf cell key)).2 else (cell (m.shardOf key)).lookup k)
    : entries (cell (m.shardOf key)) ≤ entries items ∧ entries items ≤ entries (cell (m.shardOf key)) + 1 := by
  have hmem : ∀ k, k ∈ items.keys.toFinset ↔ (items.lookup k).isSome = true := by
    intro k
    rw [List.mem_toFinset, ← AList.mem_keys, AList.lookup_isSome]
  have hmem' : ∀ k, k ∈ (cell (m.shardOf key)).keys.toFinset ↔ ((cell (m.shardOf key)).lookup k).isSome = true := by
    intro k
    rw [List.mem_toFinset, ← AList.mem_keys, AList.lookup_isSome]
  constructor
  . apply Finset.card_le_card
    intro k hk
    rw [hmem'] at hk
    rw [hmem, hitems]
    split
    . next heq =>
      subst heq
      exact KeyCall.keeps hcall hk
    . exact hk
  . apply le_trans (Finset.card_le_card (t := insert key (cell (m.shardOf key)).keys.toFinset) _)
    . exact Finset.card_insert_le _ _
    . intro k hk
      rw [hmem, hitems] at hk
      rw [Finset.mem_insert, hmem']
      split at hk
      . next heq => exact .inl heq
      . exact .inr hk

theorem shardSpec_keeps (h : 0 < m.shardCount) {call : Call} {res : Result} {cell' : Nat → Shard} (hcall : call.Keeps)
    (hspec : m.shardSpec cell call res cell')
    : (∀ i, entries (cell i) ≤ entries (cell' i)) ∧ m.total cell' ≤ m.total cell + 1 := by
  cases call with
  | count =>
    rcases hspec with ⟨_, rfl⟩
    exact ⟨fun _ => le_rfl, Nat.le_succ _⟩
  | isEmpty =>
    rcases hspec with ⟨_, rfl⟩
    exact ⟨fun _ => le_rfl, Nat.le_succ _⟩
  | «at» key call =>
    rcases runSection_serveAt h key call cell with ⟨items, hsection, hitems⟩
    have hspec : runSection (m.serveAt key call) cell = some (.done (.ret res), cell') := hspec
    rw [hsection] at hspec
    cases hspec
    have hentries := entries_update hcall hitems
    constructor
    . intro i
      by_cases hi : i = m.shardOf key
      . subst hi
        rw [Function.update_self]
        exact hentries.1
      . rw [Function.update_of_ne hi]
    . have hone : ∀ i ∈ Finset.range m.shardCount.toNat,
          entries (Function.update cell (m.shardOf key) items i)
            ≤ entries (cell i) + if i = m.shardOf key then 1 else 0 := by
        intro i _
        by_cases hi : i = m.shardOf key
        . subst hi
          rw [Function.update_self, if_pos rfl]
          exact hentries.2
        . rw [Function.update_of_ne hi, if_neg hi]
          exact le_rfl
      apply le_trans (Finset.sum_le_sum hone)
      rw [Finset.sum_add_distrib, Finset.sum_ite_eq']
      split
      . exact le_rfl
      . exact Nat.le_succ _

end

section

variable (m)

def keepSpec : Spec Call Result (Nat → Shard) := fun cell call res cell' =>
  call.Keeps ∧ m.shardSpec cell call res cell'

/--
A call of `Count` or `IsEmpty` that has counted `n` entries in the first `i` shards. They are not more than there are
now, and not less than at some moment since the invocation; and the size of the map has been at every number in between.
-/
structure Counting (cfg : Observed.Config W Call Result (Nat → Shard)) (w : W) (call : Call) (left i n : Nat)
    (seen : (Nat → Shard) → Prop) : Prop where
  phase : cfg.phase w = .pending call seen
  shards : i + left = m.shardCount.toNat
  le : n ≤ entriesBelow i cfg.obj
  early : ∃ o, seen o ∧ entriesBelow i o ≤ n ∧ ∀ j, entries (o j) ≤ entries (cfg.obj j)
  between : ∀ k, (∃ o, seen o ∧ m.total o ≤ k) → k ≤ m.total cfg.obj → ∃ o, seen o ∧ m.total o = k

def explains (w : W) (call : Call) (rest : Prog Result) (cfg : Observed.Config W Call Result (Nat → Shard)) : Prop :=
  match call with
  | .at key call => (Call.at key call).Keeps ∧ rest = m.serveAt key call
  | .count | .isEmpty =>
    ∃ left i n seen, rest = counting call (left + 1) i n ∧ Counting m cfg w call (left + 1) i n seen

end

theorem Counting.other (h : 0 < m.shardCount) {cfg cfg' : Observed.Config W Call Result (Nat → Shard)} {w w' : W}
    {call : Call} {left i n : Nat} {seen : (Nat → Shard) → Prop} (hcounting : Counting m cfg w call left i n seen)
    (hne : w ≠ w') (hstep : Observed.Step m.keepSpec w' cfg cfg')
    : ∃ seen', Counting m cfg' w call left i n seen' := by
  rcases hstep.phase_of_ne hne with ⟨hphase, hobj⟩ | ⟨⟨call', res', hkeeps, hspec⟩, hphase⟩
  . refine ⟨seen, ?_⟩
    rcases hcounting with ⟨hpending, hshards, hle, hearly, hbetween⟩
    rw [← hphase] at hpending
    rw [← hobj] at hle hearly hbetween
    exact ⟨hpending, hshards, hle, hearly, hbetween⟩
  . rcases shardSpec_keeps h hkeeps hspec with ⟨hentries, htotal⟩
    refine ⟨fun o => seen o ∨ o = cfg'.obj, ?_, hcounting.shards, ?_, ?_, ?_⟩
    . rw [hphase, hcounting.phase]
      rfl
    . exact le_trans hcounting.le (entriesBelow_le hentries i)
    . rcases hcounting.early with ⟨o, hseen, hbelow, ho⟩
      exact ⟨o, .inl hseen, hbelow, fun j => le_trans (ho j) (hentries j)⟩
    . intro k hk hk'
      by_cases hnow : k = m.total cfg'.obj
      . exact ⟨cfg'.obj, .inr rfl, hnow.symm⟩
      . rcases hk with ⟨o, hseen | rfl, ho⟩
        . rcases hcounting.between k ⟨o, hseen, ho⟩ (by omega) with ⟨o', hseen', ho'⟩
          exact ⟨o', .inl hseen', ho'⟩
        . omega

theorem counting_invoke (call : Call) (h : 0 < m.shardCount) (cfg : Observed.Config W Call Result (Nat → Shard)) (w : W)
    : ∃ left seen, m.shardCount.toNat = left + 1 ∧ Counting m (cfg.invoke w call) w call (left + 1) 0 0 seen := by
  refine ⟨m.shardCount.toNat - 1, fun o => o = cfg.obj, by omega, ?_⟩
  refine
    {
      phase := ?_
      shards := by omega
      le := Nat.zero_le _
      early := ⟨cfg.obj, rfl, le_rfl, fun _ => le_rfl⟩
      between := ?_
    }
  . unfold Observed.Config.invoke
    dsimp only
    rw [Function.update_self]
  . rintro k ⟨o, rfl, hle⟩ hge
    exact ⟨cfg.obj, rfl, Nat.le_antisymm hle hge⟩

omit [DecidableEq W] in
theorem Counting.next {cfg : Observed.Config W Call Result (Nat → Shard)} {w : W} {call : Call} {left i n : Nat}
    {seen : (Nat → Shard) → Prop} (h : Counting m cfg w call (left + 1) i n seen)
    : Counting m cfg w call left (i + 1) (n + (cfg.obj i).entries.length) seen := by
  refine
    {
      phase := h.phase
      shards := by have := h.shards; omega
      le := ?_
      early := ?_
      between := h.between
    }
  . have hle := h.le
    rw [entriesBelow_succ]
    omega
  . rcases h.early with ⟨o, hseen, hbelow, ho⟩
    refine ⟨o, hseen, ?_, ho⟩
    have hi := ho i
    unfold entries at hi
    rw [card_keys, card_keys] at hi
    rw [entriesBelow_succ]
    omega

omit [DecidableEq W] in
theorem Counting.last {cfg : Observed.Config W Call Result (Nat → Shard)} {w : W} {call : Call} {i n : Nat}
    {seen : (Nat → Shard) → Prop} (h : Counting m cfg w call 0 i n seen)
    : ∃ o, seen o ∧ m.total o = n := by
  have hi : i = m.shardCount.toNat := h.shards
  rcases h.early with ⟨o, hseen, hbelow, _⟩
  apply h.between n
  . refine ⟨o, hseen, ?_⟩
    unfold total
    rw [← hi]
    exact hbelow
  . unfold total
    rw [← hi]
    exact h.le

omit [DecidableEq W] in
-- `Count` and `IsEmpty` are given the moment at which the map had the size they have come to.
theorem Counting.next_explained {cfg : Observed.Config W Call Result (Nat → Shard)} {w : W} {call : Call}
    {left i n : Nat} {seen seen' : (Nat → Shard) → Prop} {rest' : Prog Result} {cell' : Nat → Shard}
    (h : Counting m cfg w call (left + 1) i n seen') (hpending : cfg.phase w = .pending call seen)
    (hsection : runSection (counting call (left + 1) i n) cfg.obj = some (rest', cell'))
    : (∃ o, rest' = .done (.ret (call.ofCount (m.total o))) ∧ cell' = cfg.obj ∧ seen o)
        ∨
      (cell' = cfg.obj
        ∧ ∃ left i n seen, rest' = counting call (left + 1) i n ∧ Counting m cfg w call (left + 1) i n seen) := by
  rw [runSection_counting] at hsection
  cases hsection
  have hnext := h.next
  have hseen := h.phase
  rw [hpending] at hseen
  cases hseen
  cases left with
  | zero =>
    rcases hnext.last with ⟨o, hseen, htotal⟩
    refine .inl ⟨o, ?_, rfl, hseen⟩
    rw [htotal]
    rfl
  | succ left => exact .inr ⟨rfl, left, i + 1, _, _, rfl, hnext⟩

theorem explanation_keeps (h : 0 < m.shardCount) (obj : Nat → Shard)
    : Explanation (W := W) m.serve Call.Keeps m.keepSpec obj m.explains where
  invoke := by
    intro cfg w call _ _ hcall
    rcases counting_invoke call h cfg w with ⟨left, seen, hleft, hcounting⟩
    cases call with
    | «at» key call => exact ⟨hcall, rfl⟩
    | count =>
      refine ⟨left, 0, 0, seen, ?_, hcounting⟩
      rw [serve_count, hleft]
    | isEmpty =>
      refine ⟨left, 0, 0, seen, ?_, hcounting⟩
      rw [serve_isEmpty, hleft]
  other := by
    intro cfg cfg' w w' call rest _ hexplains hne hstep
    cases call with
    | «at» key call => exact hexplains
    | count =>
      rcases hexplains with ⟨left, i, n, seen, hrest, hcounting⟩
      rcases hcounting.other h hne hstep with ⟨seen', hcounting'⟩
      exact ⟨left, i, n, seen', hrest, hcounting'⟩
    | isEmpty =>
      rcases hexplains with ⟨left, i, n, seen, hrest, hcounting⟩
      rcases hcounting.other h hne hstep with ⟨seen', hcounting'⟩
      exact ⟨left, i, n, seen', hrest, hcounting'⟩
  running := by
    intro cfg w call out hexplains
    cases call with
    | «at» key call =>
      rcases runSection_serveAt h key call cfg.obj with ⟨items, hsection, _⟩
      rw [← hexplains.2] at hsection
      contradiction
    | count =>
      rcases hexplains with ⟨left, i, n, seen, hrest, _⟩
      contradiction
    | isEmpty =>
      rcases hexplains with ⟨left, i, n, seen, hrest, _⟩
      contradiction
  next := by
    intro cfg w call seen rest rest' cell' _ hpending hexplains hsection
    cases call with
    | «at» key call =>
      rcases hexplains with ⟨hcall, rfl⟩
      rcases runSection_serveAt h key call cfg.obj with ⟨items, hsection', _⟩
      rw [hsection] at hsection'
      cases hsection'
      exact .inl ⟨_, rfl, hcall, hsection⟩
    | count =>
      rcases hexplains with ⟨left, i, n, seen', rfl, hcounting⟩
      rcases hcounting.next_explained hpending hsection with ⟨o, hrest, hcell, hseen⟩ | hmore
      . exact .inr (.inl ⟨_, o, hrest, hcell, hseen, trivial, rfl, rfl⟩)
      . exact .inr (.inr hmore)
    | isEmpty =>
      rcases hexplains with ⟨left, i, n, seen', rfl, hcounting⟩
      rcases hcounting.next_explained hpending hsection with ⟨o, hrest, hcell, hseen⟩ | hmore
      . exact .inr (.inl ⟨_, o, hrest, hcell, hseen, trivial, rfl, rfl⟩)
      . exact .inr (.inr hmore)

/--
As long as nothing is removed, `Count` and `IsEmpty` too take place at one moment, although they lock one shard after
the other.
-/
theorem count_linearizable {shardCount : Int} (hnew : newConcurrentMap shardCount = .ret (m, cell))
    (hpos : 0 < shardCount) {labels : List (Label W Call Unit)} {s : Locks.State W Nat Shard Call Result}
    (hrun : Run (system m.serve).step (fun _ => Allows Call.Keeps) (init (.new cell)) labels s)
    : Linearizable spec (fun _ => none) s.history := by
  rcases new_eq hnew with ⟨rfl, rfl⟩
  have hlinear := (explanation_keeps hpos _).linearizable (disciplined_serve hpos) hrun
  exact linearizable_of_shards hpos (fun _ _ _ _ hspec => hspec.2) hlinear

def setAndCount : List (Label (Fin 2) Call Unit) :=
  [.invoke 0 .count, .request 0 (), .request 0 (), .request 0 (), .invoke 1 (.at 7 (.set 5)), .request 1 (),
    .request 1 (), .request 1 (), .request 0 (), .request 1 (), .request 0 (), .respond 1, .request 0 (), .respond 0]

theorem count_linearizable_setAndCount
    : ∃ s, Run (system (serve ⟨2⟩)).step (fun _ => Allows Call.Keeps) (init (.new fun _ => ∅)) setAndCount s
        ∧
      s.history.length = 4
        ∧
      Linearizable spec (fun _ => none) s.history := by
  have hexec : (Run.exec (system (W := Fin 2) (serve ⟨2⟩)).step (fun _ => Allows Call.Keeps) (init (.new fun _ => ∅))
      setAndCount).any (fun s => s.history.length == 4) = true := by
    decide +kernel
  rcases Run.exists_of_exec _ hexec with ⟨s, hrun, hlength⟩
  have hnew : newConcurrentMap 2 = .ret (⟨2⟩, fun _ => ∅) := rfl
  exact ⟨s, hrun, of_decide_eq_true hlength, count_linearizable hnew (by decide) hrun⟩

omit W [DecidableEq W] in
theorem returns_serveAt (h : 0 < m.shardCount) (key : Int) (call : KeyCall) : (m.serveAt key call).Returns := by
  cases call with
  | set v =>
    unfold serveAt set
    rw [getShard_eq h]
    exact fun _ _ _ _ => ⟨_, rfl⟩
  | upsert v cb =>
    unfold serveAt upsert
    rw [getShard_eq h]
    exact fun _ _ _ _ _ => ⟨_, rfl⟩
  | setIfAbsent v =>
    unfold serveAt setIfAbsent
    rw [getShard_eq h]
    intro _ _ items
    dsimp only [Rpc.bind]
    cases AList.lookup key items with
    | some old => exact fun _ => ⟨_, rfl⟩
    | none => exact fun _ _ => ⟨_, rfl⟩
  | get =>
    unfold serveAt get
    rw [getShard_eq h]
    exact fun _ _ _ => ⟨_, rfl⟩
  | has =>
    unfold serveAt has
    rw [getShard_eq h]
    exact fun _ _ _ => ⟨_, rfl⟩
  | remove =>
    unfold serveAt remove
    rw [getShard_eq h]
    exact fun _ _ _ _ => ⟨_, rfl⟩
  | removeCb cb =>
    unfold serveAt removeCb
    rw [getShard_eq h]
    intro _ _ items
    dsimp only [Rpc.bind]
    split
    . exact fun _ _ => ⟨_, rfl⟩
    . exact fun _ => ⟨_, rfl⟩
  | pop =>
    unfold serveAt pop
    rw [getShard_eq h]
    exact fun _ _ _ _ _ => ⟨_, rfl⟩

omit W [DecidableEq W] in
theorem returns_counting (call : Call) (left i n : Nat) : (counting call left i n).Returns := by
  induction left generalizing i n with
  | zero => exact ⟨_, rfl⟩
  | succ left ih => exact fun _ items _ => ih (i + 1) _

omit W [DecidableEq W] in
theorem returns_serve (h : 0 < m.shardCount) (call : Call) : (m.serve call).Returns := by
  cases call with
  | «at» key call => exact returns_serveAt h key call
  | count =>
    rw [serve_count]
    exact returns_counting _ _ _ _
  | isEmpty =>
    rw [serve_isEmpty]
    exact returns_counting _ _ _ _

/--
No call panics, and goroutines that wait for a lock wait for one that can go on.
-/
theorem never_deadlocks {shardCount : Int} (hnew : newConcurrentMap shardCount = .ret (m, cell)) (hpos : 0 < shardCount)
    {labels : List (Label W Call Unit)} {s : Locks.State W Nat Shard Call Result}
    (hrun : Run (system m.serve).step (fun _ _ => True) (init (.new cell)) labels s) {w : W}
    (hbusy : s.thread w ≠ .idle)
    : ∃ w' t, (system m.serve).step s (.request w' ()) = some t ∨ (system m.serve).step s (.respond w') = some t := by
  rcases new_eq hnew with ⟨rfl, rfl⟩
  rcases exists_inv (disciplined_serve hpos) hrun with ⟨held, hinv⟩
  have hreturns := System.returns_of_run (returns_serve hpos) hrun w
  cases hthread : s.thread w with
  | idle => exact absurd hthread hbusy
  | busy call rest =>
    cases rest with
    | call req cont =>
      rcases hinv.exists_step m.serve hthread with ⟨w', t, hstep⟩
      exact ⟨w', t, .inl hstep⟩
    | done out =>
      rw [hthread] at hreturns
      rcases hreturns with ⟨res, rfl⟩
      refine ⟨w, s.respond w call res, .inr ?_⟩
      dsimp only [System.step]
      rw [hthread]

def reader : Fin 3 := ⟨0, Nat.succ_pos 2⟩

def writer : Fin 3 := ⟨1, Nat.succ_lt_succ Nat.two_pos⟩

def lateReader : Fin 3 := ⟨2, Nat.lt_succ_self 2⟩

-- The writer waits for the reader, and keeps the other one out.
def readersAndWriter : List (Label (Fin 3) Call Unit) :=
  [.invoke reader (.at 7 .get), .request reader (), .invoke writer (.at 7 (.set 5)), .request writer (),
    .invoke lateReader (.at 7 .get)]

theorem never_deadlocks_readersAndWriter
    : ∃ s, Run (system (serve ⟨2⟩)).step (fun _ _ => True) (init (.new fun _ => ∅)) readersAndWriter s
        ∧
      (system (serve ⟨2⟩)).step s (.request writer ()) = none
        ∧
      (system (serve ⟨2⟩)).step s (.request lateReader ()) = none
        ∧
      ∃ w' t,
        (system (serve ⟨2⟩)).step s (.request w' ()) = some t
          ∨
        (system (serve ⟨2⟩)).step s (.respond w') = some t := by
  have hexec : (Run.exec (system (serve ⟨2⟩)).step (fun _ _ => True) (init (.new fun _ => ∅)) readersAndWriter).any
      (fun s => (s.thread lateReader).isBusy && (((system (serve ⟨2⟩)).step s (.request writer ())).isNone
        && ((system (serve ⟨2⟩)).step s (.request lateReader ())).isNone)) = true := by
    decide +kernel
  rcases Run.exists_of_exec _ hexec with ⟨s, hrun, hs⟩
  rw [Bool.and_eq_true, Bool.and_eq_true, Option.isNone_iff_eq_none, Option.isNone_iff_eq_none] at hs
  rcases hs with ⟨hbusy, hwriter, hreader⟩
  have hthread : s.thread lateReader ≠ .idle := by
    intro hidle
    rw [hidle] at hbusy
    exact Bool.false_ne_true hbusy
  have hnew : newConcurrentMap 2 = .ret (⟨2⟩, fun _ => ∅) := rfl
  exact ⟨s, hrun, hwriter, hreader, never_deadlocks hnew (by decide) hrun hthread⟩

end Util.ConcurrentMap
