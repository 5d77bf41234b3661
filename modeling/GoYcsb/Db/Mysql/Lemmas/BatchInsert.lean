import GoYcsb.Db.Mysql.Lemmas.Insert

/-!
This module contains when `BatchInsert` from `GoYcsb.Db.Mysql.Impl.Insert` leaves the table that single calls of
`Insert` would have left.
-/

namespace Mysql

open Sql Statement

def recordArgs (rec : Bytes × FieldMap) : List Bytes := rec.1 :: valuesOf rec.2

theorem batchArgs_eq (orders : Orders) (i : Nat) {keys : List Bytes} {values : List FieldMap}
    (h : keys.length = values.length)
    : batchArgs orders i keys values = .ret ((keys.zip values).flatMap recordArgs) := by
  induction keys generalizing i values with
  | nil => rfl
  | cons key keys ih =>
    cases values with
    | nil => contradiction
    | cons value values =>
      rw [List.length_cons, List.length_cons, Nat.add_right_cancel_iff] at h
      rw [batchArgs, ih (i + 1) h, Util.newFieldPairs_eq (orders i) .id]
      rfl

section

theorem exists_bindRows {m n : Nat} {args : List Bytes} (hlen : args.length = m * (n + 1))
    : ∃ groups : List (Bytes × List Bytes),
        bindRows (List.replicate m (n + 1)) args = groups.map (fun group => group.1 :: group.2)
          ∧
        ∀ group ∈ groups, group.2.length = n := by
  induction m generalizing args with
  | zero => exact ⟨[], rfl, by simp⟩
  | succ m ih =>
    rw [Nat.succ_mul] at hlen
    have hrest : (args.drop (n + 1)).length = m * (n + 1) := by
      rw [List.length_drop]
      omega
    rcases ih hrest with ⟨groups, hgroups, hlens⟩
    cases args with
    | nil => simp at hlen
    | cons arg args =>
      refine ⟨(arg, args.take n) :: groups, ?_, ?_⟩
      . rw [List.replicate_succ, bindRows, hgroups]
        rfl
      . rw [List.forall_mem_cons]
        refine ⟨?_, hlens⟩
        rw [List.length_take]
        rw [List.length_cons] at hlen
        omega

theorem bindRows_flatMap {n : Nat} {records : List (Bytes × FieldMap)}
    (h : ∀ rec ∈ records, (valuesOf rec.2).length = n)
    : bindRows (List.replicate records.length (n + 1)) (records.flatMap recordArgs) = records.map recordArgs := by
  induction records with
  | nil => rfl
  | cons rec records ih =>
    rw [List.forall_mem_cons] at h
    have hlen : (recordArgs rec).length = n + 1 := by
      rw [recordArgs, List.length_cons, h.1]
    rw [List.length_cons, List.replicate_succ, bindRows, List.flatMap_cons, List.take_left' hlen, List.drop_left' hlen,
      ih h.2]
    rfl

theorem le_countP_of_heads {m n : Nat} {v : Bytes} {args : List Bytes} (hlen : args.length = m * (n + 1))
    (hheads : ∀ group ∈ bindRows (List.replicate m (n + 1)) args, group.head? ≠ some v)
    : m ≤ args.countP (fun arg => arg ≠ v) := by
  induction m generalizing args with
  | zero => exact Nat.zero_le _
  | succ m ih =>
    rw [List.replicate_succ, bindRows, List.forall_mem_cons] at hheads
    rw [Nat.succ_mul] at hlen
    cases args with
    | nil => simp at hlen
    | cons arg args =>
      have hrest : ((arg :: args).drop (n + 1)).length = m * (n + 1) := by
        rw [List.length_drop]
        omega
      have hle := ih hrest hheads.2
      have hne : arg ≠ v := by
        intro heq
        exact hheads.1 (by simp [heq])
      have hdrop := (List.drop_sublist n args).countP_le (p := fun arg => arg ≠ v)
      rw [List.countP_cons_of_pos (by simpa using hne)]
      rw [List.drop_succ_cons] at hle
      omega

def blocks (v : Bytes) (records : List (Bytes × Nat)) : List Bytes :=
  records.flatMap (fun rec => rec.1 :: List.replicate rec.2 v)

theorem blocks_cons (v : Bytes) (rec : Bytes × Nat) (records : List (Bytes × Nat))
    : blocks v (rec :: records) = rec.1 :: (List.replicate rec.2 v ++ blocks v records) := by
  simp [blocks]

theorem countP_replicate_append (v : Bytes) (c : Nat) (args : List Bytes)
    : (List.replicate c v ++ args).countP (fun arg => arg ≠ v) = args.countP (fun arg => arg ≠ v) := by
  rw [List.countP_append, List.countP_replicate]
  simp

theorem countP_blocks_le (v : Bytes) (records : List (Bytes × Nat))
    : (blocks v records).countP (fun arg => arg ≠ v) ≤ records.length := by
  induction records with
  | nil => simp [blocks]
  | cons rec records ih =>
    rw [blocks_cons, List.countP_cons, countP_replicate_append, List.length_cons]
    split
    . omega
    . omega

theorem eq_of_heads {m n : Nat} {v : Bytes} {records : List (Bytes × Nat)} (hm : records.length ≤ m)
    (hlen : (blocks v records).length = m * (n + 1))
    (hheads : ∀ group ∈ bindRows (List.replicate m (n + 1)) (blocks v records), group.head? ≠ some v)
    : ∀ rec ∈ records, rec.2 = n := by
  induction records generalizing m with
  | nil => simp
  | cons rec records ih =>
    rcases rec with ⟨key, c⟩
    cases m with
    | zero => simp at hm
    | succ m =>
      rw [List.length_cons, Nat.add_le_add_iff_right] at hm
      rw [blocks_cons, List.length_cons, List.length_append, List.length_replicate, Nat.succ_mul] at hlen
      rw [blocks_cons, List.replicate_succ, bindRows, List.forall_mem_cons, List.drop_succ_cons] at hheads
      have hrest : ((List.replicate c v ++ blocks v records).drop n).length = m * (n + 1) := by
        rw [List.length_drop, List.length_append, List.length_replicate]
        omega
      rw [List.drop_append, List.drop_replicate, List.length_replicate] at hheads hrest
      rcases Nat.lt_trichotomy c n with hlt | rfl | hgt
      -- the row takes the key of the next record, and there is one key too few for the others
      . have hle := le_countP_of_heads hrest hheads.2
        rw [countP_replicate_append] at hle
        cases records with
        | nil =>
          simp [blocks] at hlen
          omega
        | cons rec' records =>
          have hpos : n - c = n - c - 1 + 1 := by omega
          have hdrop := (List.drop_sublist (n - c - 1) (List.replicate rec'.2 v ++ blocks v records)).countP_le
            (p := fun arg => arg ≠ v)
          have hblocks := countP_blocks_le v records
          rw [blocks_cons, hpos, List.drop_succ_cons] at hle
          rw [countP_replicate_append] at hdrop
          rw [List.length_cons] at hm
          omega
      . rw [Nat.sub_self, List.replicate_zero, List.nil_append, List.drop_zero] at hrest hheads
        rw [List.forall_mem_cons]
        exact ⟨rfl, ih hm hrest hheads.2⟩
      -- the next row begins with a value
      . have hpos : c - n = c - n - 1 + 1 := by omega
        cases m with
        | zero =>
          simp at hrest
          omega
        | succ m =>
          rw [List.replicate_succ, bindRows, List.forall_mem_cons, hpos, List.replicate_succ] at hheads
          exact absurd rfl hheads.2.1

end

section

variable {fields args : List Bytes}

theorem isSome_columnsOf (hlen : args.length = fields.length) {column : Bytes}
    : (columnsOf fields args column).isSome ↔ column ∈ fields := by
  unfold columnsOf
  rw [AList.lookup_isSome, GoMap.mem_insertAll, List.map_fst_zip (Nat.le_of_eq hlen.symm)]
  simp

theorem fieldsOf_eq_of_columnsOf {first values : FieldMap} (hlen : args.length = (fieldsOf first).length)
    (h : columnsOf (fieldsOf first) args = fun column => values.lookup column)
    : fieldsOf values = fieldsOf first := by
  apply Util.fields_eq
  intro field
  rw [← AList.lookup_isSome, ← mem_fieldsOf, ← isSome_columnsOf hlen, h]

end

def fill (v : Bytes) (values : FieldMap) : FieldMap := GoMap.insertAll ∅ (values.keys.map (fun field => (field, v)))

theorem mem_fill {v : Bytes} {values : FieldMap} {field : Bytes} : field ∈ fill v values ↔ field ∈ values := by
  rw [fill, GoMap.mem_insertAll, List.map_map]
  simp [AList.mem_keys, Function.comp_def]

theorem fieldsOf_fill (v : Bytes) (values : FieldMap) : fieldsOf (fill v values) = fieldsOf values := by
  apply Util.fields_eq
  intro field
  exact mem_fill

theorem valuesOf_fill (v : Bytes) (values : FieldMap)
    : valuesOf (fill v values) = List.replicate (fieldsOf values).length v := by
  rw [List.eq_replicate_iff]
  constructor
  . rw [length_valuesOf, ← length_fieldsOf, fieldsOf_fill]
  . intro value hvalue
    rcases List.mem_map.mp hvalue with ⟨pair, hpair, rfl⟩
    have hlookup := Util.mem_newFieldPairs.mp hpair
    have hmem := GoMap.mem_of_lookup_insertAll hlookup
    simp at hmem
    exact hmem.2.symm

theorem flatMap_fill (v : Bytes) (keys : List Bytes) (values : List FieldMap)
    : (keys.zip (values.map (fill v))).flatMap recordArgs
        =
      blocks v (keys.zip (values.map (fun m => (fieldsOf m).length))) := by
  rw [blocks, List.zip_map_right, List.zip_map_right, List.flatMap_map, List.flatMap_map]
  apply List.flatMap_congr
  intro rec _
  exact congrArg (rec.1 :: ·) (valuesOf_fill v rec.2)

theorem find?_map_records {α β : Type} (f : α → β) (records : List (Bytes × α)) (key : Bytes)
    : (records.map (fun rec => (rec.1, f rec.2))).find? (fun rec => rec.1 = key)
        =
      (records.find? (fun rec => rec.1 = key)).map (fun rec => (rec.1, f rec.2)) := by
  rw [List.find?_map]
  rfl

theorem find?_of_nodup {α : Type} {records : List (Bytes × α)} (hnodup : (records.map Prod.fst).Nodup)
    {rec : Bytes × α} (hrec : rec ∈ records)
    : records.find? (fun rec' => rec'.1 = rec.1) = some rec := by
  induction records with
  | nil => contradiction
  | cons head records ih =>
    rw [List.map_cons, List.nodup_cons] at hnodup
    rcases List.mem_cons.mp hrec with rfl | htail
    . simp
    . have hne : head.1 ≠ rec.1 := by
        intro heq
        exact hnodup.1 (heq ▸ List.mem_map_of_mem htail)
      rw [List.find?_cons_of_neg (by simpa using hne)]
      exact ih hnodup.2 htail

/--
After `BatchInsert` the table is the one that calls of `Insert` for the records in order leave, and it holds under each
key exactly the fields of the first record with the key.
-/
def BatchStores {t : UserTable} (server : Server .questionMarks t.table) (order : GoMap.Order Bytes Bytes)
    (orders insertOrders : Orders) (s : server.State) (keys : List Bytes) (values : List FieldMap) : Prop :=
  ∃ s' s'',
    (batchInsert order orders t.name keys values).exec server.handle s = (.ret (.ok ()), s')
      ∧
    (insertEach insertOrders t.name 0 (keys.zip values)).exec server.handle s = (.ret (.ok ()), s'')
      ∧
    server.view s' = server.view s''
      ∧
    ∀ key,
      server.view s' key
        =
      (((keys.zip values).find? (fun rec => rec.1 = key)).map (fun rec column => rec.2.lookup column)).or
        (server.view s key)

-- The columns of the fields are of one type, as `createTable` makes them.
def Uniform {t : UserTable} (server : Server .questionMarks t.table) : Prop :=
  ∀ column ∈ t.columns, ∀ column' ∈ t.columns, ∀ value, server.Fits column value → server.Fits column' value

def FitsAll {t : UserTable} (server : Server .questionMarks t.table) (texts : List Bytes) : Prop :=
  ∀ text ∈ texts, ∀ column ∈ Bytes.ofAscii "YCSB_KEY" :: t.columns, server.Fits column text

section

variable {t : UserTable} {server : Server .questionMarks t.table} {order : GoMap.Order Bytes Bytes}
  {orders insertOrders : Orders} {s : server.State} {keys : List Bytes} {values : List FieldMap}

theorem addAll_viewOf {v : View} (hfresh : ∀ key ∈ keys, v key = none) (key : Bytes)
    : v.addAll (viewOf (keys.zip values)) key
        =
      (((keys.zip values).find? (fun rec => rec.1 = key)).map (fun rec column => rec.2.lookup column)).or (v key) := by
  rw [View.addAll_apply, viewOf, find?_map_records (fun values column => AList.lookup column values), Option.map_map]
  cases hfind : (keys.zip values).find? (fun rec => rec.1 = key) with
  | none => simp
  | some rec =>
    have heq : rec.1 = key := by simpa using List.find?_some hfind
    have hmem : key ∈ keys := by
      rw [← heq]
      exact (List.of_mem_zip (List.mem_of_find?_eq_some hfind)).1
    rw [hfresh key hmem]
    rfl

theorem batchStores_iff (hover : ∀ m ∈ values, t.Over m) (hholds : Holds server (keys.zip values))
    (hfresh : ∀ key ∈ keys, server.view s key = none)
    : BatchStores server order orders insertOrders s keys values
        ↔
      ∃ s',
        (batchInsert order orders t.name keys values).exec server.handle s = (.ret (.ok ()), s')
          ∧
        server.view s' = (server.view s).addAll (viewOf (keys.zip values)) := by
  have hrecords : ∀ rec ∈ keys.zip values, t.Over rec.2 := by
    intro rec hrec
    exact hover rec.2 (List.of_mem_zip hrec).2
  rcases exec_insertEach hrecords (fun rec hrec => hholds.single hrec) insertOrders 0 s with ⟨s'', hexec'', hview''⟩
  constructor
  . rintro ⟨s', _, hexec, _, _, hview⟩
    refine ⟨s', hexec, ?_⟩
    funext key
    rw [hview, addAll_viewOf hfresh]
  . rintro ⟨s', hexec, hview⟩
    refine ⟨s', s'', hexec, hexec'', hview.trans hview''.symm, ?_⟩
    intro key
    rw [hview, addAll_viewOf hfresh]

theorem length_flatMap_recordArgs (records : List (Bytes × FieldMap))
    : (records.flatMap recordArgs).length = (records.map (fun rec => rec.2.keys.length + 1)).sum := by
  rw [List.length_flatMap]
  congr 1
  apply List.map_congr_left
  intro rec _
  rw [recordArgs, List.length_cons, length_valuesOf]

theorem mem_of_mem_bindRows {sizes : List Nat} {args group : List Bytes} (h : group ∈ bindRows sizes args) {arg : Bytes}
    (harg : arg ∈ group)
    : arg ∈ args := by
  induction sizes generalizing args with
  | nil => cases h
  | cons n sizes ih =>
    rcases List.mem_cons.mp h with rfl | h
    . exact List.mem_of_mem_take harg
    . exact List.mem_of_mem_drop (ih h)

theorem FitsAll.groups {args : List Bytes} (h : FitsAll server args) {fields : List Bytes} (hnames : t.Names fields)
    (sizes : List Nat)
    : ∀ group ∈ bindRows sizes args, ∀ entry ∈ (Bytes.ofAscii "YCSB_KEY" :: fields).zip group,
        server.Fits entry.1 entry.2 := by
  intro group hgroup entry hentry
  have hmem := List.of_mem_zip hentry
  apply h entry.2 (mem_of_mem_bindRows hgroup hmem.2)
  exact hnames.known entry.1 hmem.1

variable {first : FieldMap} {rest : List FieldMap}

theorem exec_batchInsert (hlen : keys.length = (first :: rest).length)
    : (batchInsert order orders t.name keys (first :: rest)).exec server.handle s
        =
      (execQuery (insertText .questionMarks t.name (fieldsOf first) rest.length)
        ((keys.zip (first :: rest)).flatMap recordArgs)).exec server.handle s := by
  rw [batchInsert_eq order orders t.name hlen, batchArgs_eq orders 0 hlen]
  rfl

theorem length_of_batchStores (hlen : keys.length = (first :: rest).length) (hfirst : t.Over first)
    (h : BatchStores server order orders insertOrders s keys (first :: rest))
    : ((keys.zip (first :: rest)).flatMap recordArgs).length = keys.length * ((fieldsOf first).length + 1) := by
  rcases h with ⟨s', _, hexec, _⟩
  rw [exec_batchInsert hlen] at hexec
  rw [hlen, List.length_cons]
  by_contra hne
  rcases handle_insertText_error server hfirst.names hne s with ⟨err, herr⟩
  rw [exec_execQuery herr] at hexec
  cases hexec

theorem batchStores_groups (hlen : keys.length = (first :: rest).length) (hover : ∀ m ∈ first :: rest, t.Over m)
    (hholds : Holds server (keys.zip (first :: rest))) (hfresh : ∀ key ∈ keys, server.view s key = none)
    (hargs : ((keys.zip (first :: rest)).flatMap recordArgs).length = keys.length * ((fieldsOf first).length + 1))
    (hfits : ∀ group ∈ bindRows (List.replicate keys.length ((fieldsOf first).length + 1))
        ((keys.zip (first :: rest)).flatMap recordArgs),
      ∀ entry ∈ (Bytes.ofAscii "YCSB_KEY" :: fieldsOf first).zip group, server.Fits entry.1 entry.2)
    {groups : List (Bytes × List Bytes)}
    (hgroups : bindRows (List.replicate keys.length ((fieldsOf first).length + 1))
        ((keys.zip (first :: rest)).flatMap recordArgs) = groups.map (fun group => group.1 :: group.2))
    : BatchStores server order orders insertOrders s keys (first :: rest)
        ↔
      (server.view s).addAll (groups.map (fun group => (group.1, columnsOf (fieldsOf first) group.2)))
        =
      (server.view s).addAll (viewOf (keys.zip (first :: rest))) := by
  have hfirst : t.Over first := hover first List.mem_cons_self
  have hmax := hholds.params
  rw [← length_flatMap_recordArgs] at hmax
  rw [batchStores_iff hover hholds hfresh, exec_batchInsert hlen]
  rw [hlen, List.length_cons] at hargs hgroups hfits
  rcases handle_insertText server hfirst.names hargs hmax hfits s with ⟨s', hhandle, hview⟩
  rw [hgroups, List.map_map] at hview
  have hrecords : (t.table.record (Bytes.ofAscii "YCSB_KEY" :: fieldsOf first) ∘ fun group => group.1 :: group.2)
      = fun group : Bytes × List Bytes => (group.1, columnsOf (fieldsOf first) group.2) := by
    funext group
    exact hfirst.names.record_eq group.1 group.2
  rw [hrecords] at hview
  rw [exec_execQuery hhandle]
  constructor
  . rintro ⟨s₁, hexec, hview'⟩
    cases hexec
    rw [← hview, hview']
  . intro hview'
    exact ⟨s', rfl, hview.trans hview'⟩

/--
Every record names as many columns as the first one, and the record that counts for a key names the columns of the
first one.
-/
structure Aligned (keys : List Bytes) (columns : List Bytes) (records : List (List Bytes)) : Prop where
  length_eq : ∀ fields ∈ records, fields.length = columns.length
  eq : ∀ key rec, (keys.zip records).find? (fun rec => rec.1 = key) = some rec → rec.2 = columns

theorem find?_zip_fieldsOf (keys : List Bytes) (values : List FieldMap) (key : Bytes)
    : (keys.zip (values.map fieldsOf)).find? (fun rec => rec.1 = key)
        =
      ((keys.zip values).find? (fun rec => rec.1 = key)).map (fun rec => (rec.1, fieldsOf rec.2)) := by
  rw [List.zip_map_right]
  exact find?_map_records fieldsOf (keys.zip values) key

theorem groups_of_lengths (hlen : keys.length = values.length) {n : Nat}
    (hcount : ∀ m ∈ values, (fieldsOf m).length = n)
    : bindRows (List.replicate keys.length (n + 1)) ((keys.zip values).flatMap recordArgs)
        =
      ((keys.zip values).map (fun rec => (rec.1, valuesOf rec.2))).map (fun group => group.1 :: group.2) := by
  have hvalues : ∀ rec ∈ keys.zip values, (valuesOf rec.2).length = n := by
    intro rec hrec
    rw [length_valuesOf, ← length_fieldsOf]
    exact hcount rec.2 (List.of_mem_zip hrec).2
  have hbind := bindRows_flatMap hvalues
  rw [List.length_zip, ← hlen, Nat.min_self] at hbind
  rw [hbind, List.map_map]
  rfl

theorem length_of_lengths (hlen : keys.length = values.length) {n : Nat}
    (hcount : ∀ m ∈ values, (fieldsOf m).length = n)
    : ((keys.zip values).flatMap recordArgs).length = keys.length * (n + 1) := by
  have hmap : (keys.zip values).map (fun rec => (recordArgs rec).length) = (keys.zip values).map (fun _ => n + 1) := by
    apply List.map_congr_left
    intro rec hrec
    rw [recordArgs, List.length_cons, length_valuesOf, ← length_fieldsOf, hcount rec.2 (List.of_mem_zip hrec).2]
  rw [List.length_flatMap, hmap, List.map_const', List.sum_replicate_nat, List.length_zip, ← hlen, Nat.min_self]

theorem groups_fit (huniform : Uniform server) (hlen : keys.length = values.length)
    (hover : ∀ m ∈ values, t.Over m) (hholds : Holds server (keys.zip values)) {fields : List Bytes}
    (hnames : t.Names fields) (hcount : ∀ m ∈ values, (fieldsOf m).length = fields.length)
    : ∀ group ∈ bindRows (List.replicate keys.length (fields.length + 1)) ((keys.zip values).flatMap recordArgs),
        ∀ entry ∈ (Bytes.ofAscii "YCSB_KEY" :: fields).zip group, server.Fits entry.1 entry.2 := by
  intro group hgroup entry hentry
  rw [groups_of_lengths hlen hcount, List.map_map, List.mem_map] at hgroup
  rcases hgroup with ⟨rec, hrec, rfl⟩
  rcases List.mem_cons.mp hentry with rfl | hentry
  . exact hholds.key rec hrec
  . have hmem := List.of_mem_zip hentry
    rcases List.mem_map.mp hmem.2 with ⟨pair, hpair, hvalue⟩
    have hlookup := Util.mem_newFieldPairs.mp hpair
    have hfield : pair.field ∈ rec.2 := by
      rw [← AList.lookup_isSome, hlookup]
      rfl
    rw [← hvalue]
    apply huniform pair.field (hover rec.2 (List.of_mem_zip hrec).2 _ hfield) entry.1 (hnames.mem _ hmem.1)
    exact hholds.value rec hrec _ _ hlookup

theorem batchStores_of_aligned (huniform : Uniform server) (hlen : keys.length = (first :: rest).length)
    (hover : ∀ m ∈ first :: rest, t.Over m) (hholds : Holds server (keys.zip (first :: rest)))
    (hfresh : ∀ key ∈ keys, server.view s key = none)
    (h : Aligned keys (fieldsOf first) ((first :: rest).map fieldsOf))
    : BatchStores server order orders insertOrders s keys (first :: rest) := by
  have hcount : ∀ m ∈ first :: rest, (fieldsOf m).length = (fieldsOf first).length := by
    intro m hm
    exact h.length_eq (fieldsOf m) (List.mem_map_of_mem hm)
  have hfits := groups_fit huniform hlen hover hholds (hover first List.mem_cons_self).names hcount
  rw [batchStores_groups hlen hover hholds hfresh (length_of_lengths hlen hcount) hfits (groups_of_lengths hlen hcount)]
  funext key
  have hmap
      : ((keys.zip (first :: rest)).map (fun rec => (rec.1, valuesOf rec.2))).map
          (fun group => (group.1, columnsOf (fieldsOf first) group.2))
        = (keys.zip (first :: rest)).map (fun rec => (rec.1, columnsOf (fieldsOf first) (valuesOf rec.2))) := by
    rw [List.map_map]
    rfl
  rw [hmap, View.addAll_apply, View.addAll_apply, viewOf,
    find?_map_records (fun m => columnsOf (fieldsOf first) (valuesOf m)),
    find?_map_records (fun m column => AList.lookup column m)]
  cases hfind : (keys.zip (first :: rest)).find? (fun rec => rec.1 = key) with
  | none => rfl
  | some rec =>
    have heq : fieldsOf rec.2 = fieldsOf first := by
      apply h.eq key (rec.1, fieldsOf rec.2)
      rw [find?_zip_fieldsOf, hfind]
      rfl
    rw [Option.map_some, Option.map_some, Option.map_some, Option.map_some, ← heq, columnsOf_self]

theorem fieldsOf_eq_of_batchStores (hlen : keys.length = (first :: rest).length)
    (hover : ∀ m ∈ first :: rest, t.Over m) (hholds : Holds server (keys.zip (first :: rest)))
    (hfresh : ∀ key ∈ keys, server.view s key = none)
    (hall : FitsAll server ((keys.zip (first :: rest)).flatMap recordArgs))
    (h : BatchStores server order orders insertOrders s keys (first :: rest)) {groups : List (Bytes × List Bytes)}
    (hgroups : bindRows (List.replicate keys.length ((fieldsOf first).length + 1))
        ((keys.zip (first :: rest)).flatMap recordArgs) = groups.map (fun group => group.1 :: group.2))
    (hlens : ∀ group ∈ groups, group.2.length = (fieldsOf first).length) {key : Bytes} {group : Bytes × List Bytes}
    (hgroup : groups.find? (fun group => group.1 = key) = some group) {rec : Bytes × FieldMap}
    (hrec : (keys.zip (first :: rest)).find? (fun rec => rec.1 = key) = some rec)
    : fieldsOf rec.2 = fieldsOf first := by
  have hfirst := hover first List.mem_cons_self
  have hargs := length_of_batchStores hlen hfirst h
  have hstores := (batchStores_groups hlen hover hholds hfresh hargs (hall.groups hfirst.names _) hgroups).mp h
  have hview := congrFun hstores key
  have hkey : key ∈ keys := by
    have heq : rec.1 = key := by simpa using List.find?_some hrec
    rw [← heq]
    exact (List.of_mem_zip (List.mem_of_find?_eq_some hrec)).1
  rw [addAll_viewOf hfresh, View.addAll_apply, hrec, hfresh key hkey, find?_map_records, hgroup] at hview
  simp at hview
  exact fieldsOf_eq_of_columnsOf (hlens group (List.mem_of_find?_eq_some hgroup)) hview

theorem aligned_of_lengths (hlen : keys.length = (first :: rest).length)
    (hover : ∀ m ∈ first :: rest, t.Over m) (hholds : Holds server (keys.zip (first :: rest)))
    (hfresh : ∀ key ∈ keys, server.view s key = none)
    (hall : FitsAll server ((keys.zip (first :: rest)).flatMap recordArgs))
    (hcount : ∀ m ∈ first :: rest, (fieldsOf m).length = (fieldsOf first).length)
    (h : BatchStores server order orders insertOrders s keys (first :: rest))
    : Aligned keys (fieldsOf first) ((first :: rest).map fieldsOf) where
  length_eq := by
    intro fields hfields
    rcases List.mem_map.mp hfields with ⟨m, hm, rfl⟩
    exact hcount m hm
  eq := by
    intro key rec hrec
    rw [find?_zip_fieldsOf, Option.map_eq_some_iff] at hrec
    rcases hrec with ⟨rec, hrec, rfl⟩
    have hgroup := find?_map_records valuesOf (keys.zip (first :: rest)) key
    rw [hrec] at hgroup
    refine fieldsOf_eq_of_batchStores hlen hover hholds hfresh hall h (groups_of_lengths hlen hcount) ?_ hgroup hrec
    intro group hgroup
    rcases List.mem_map.mp hgroup with ⟨rec, hrec, rfl⟩
    rw [length_valuesOf, ← length_fieldsOf]
    exact hcount rec.2 (List.of_mem_zip hrec).2

theorem lengths_of_nodup {n : Nat} {records : List (Bytes × FieldMap)} {groups : List (Bytes × List Bytes)}
    (hnodup : (records.map Prod.fst).Nodup)
    (hgroups : bindRows (List.replicate records.length (n + 1)) (records.flatMap recordArgs)
        = groups.map (fun group => group.1 :: group.2))
    (h : ∀ rec ∈ records, ∀ group, groups.find? (fun group => group.1 = rec.1) = some group
        → (fieldsOf rec.2).length = n)
    : ∀ rec ∈ records, (fieldsOf rec.2).length = n := by
  induction records generalizing groups with
  | nil => simp
  | cons rec records ih =>
    rw [List.map_cons, List.nodup_cons] at hnodup
    rw [List.forall_mem_cons] at h ⊢
    rw [List.length_cons, List.replicate_succ, bindRows, List.flatMap_cons] at hgroups
    cases groups with
    | nil => contradiction
    | cons group groups =>
      rw [List.map_cons, List.cons_eq_cons] at hgroups
      have hhead : group.1 = rec.1 := by
        have htake := hgroups.1
        rw [recordArgs, List.cons_append, List.take_succ_cons, List.cons_eq_cons] at htake
        exact htake.1.symm
      have hcount : (fieldsOf rec.2).length = n := h.1 group (by simp [hhead])
      have hargs : (recordArgs rec).length = n + 1 := by
        rw [recordArgs, List.length_cons, length_valuesOf, ← length_fieldsOf, hcount]
      rw [List.drop_left' hargs] at hgroups
      refine ⟨hcount, ih hnodup.2 hgroups.2 ?_⟩
      intro rec' hrec' group' hgroup'
      refine h.2 rec' hrec' group' ?_
      have hne : group.1 ≠ rec'.1 := by
        rw [hhead]
        rintro heq
        exact hnodup.1 (heq ▸ List.mem_map_of_mem hrec')
      rw [List.find?_cons_of_neg (by simpa using hne)]
      exact hgroup'

theorem forall_mem_of_zip {l : List α} {l' : List β} {P : β → Prop} (hlen : l.length = l'.length)
    (h : ∀ pair ∈ l.zip l', P pair.2)
    : ∀ x ∈ l', P x := by
  intro x hx
  rw [← List.map_snd_zip (Nat.le_of_eq hlen.symm)] at hx
  rcases List.mem_map.mp hx with ⟨pair, hpair, rfl⟩
  exact h pair hpair

theorem FitsAll.fill {v : Bytes} (h : FitsAll server (v :: keys)) (values : List FieldMap)
    : FitsAll server ((keys.zip (values.map (fill v))).flatMap recordArgs) := by
  intro text htext
  rw [flatMap_fill, blocks, List.mem_flatMap] at htext
  rcases htext with ⟨rec, hrec, htext⟩
  apply h text
  rw [List.mem_cons] at htext ⊢
  rcases htext with rfl | htext
  . exact .inr (List.of_mem_zip hrec).1
  . exact .inl (List.eq_of_mem_replicate htext)

theorem holds_fill {v : Bytes} (hall : FitsAll server (v :: keys)) (hover : ∀ m ∈ values, t.Over m)
    (hholds : Holds server (keys.zip values))
    : Holds server (keys.zip (values.map (fill v))) where
  key := by
    intro rec hrec
    exact hall rec.1 (List.mem_cons_of_mem _ (List.of_mem_zip hrec).1) _ List.mem_cons_self
  value := by
    intro rec hrec field value hlookup
    have hmem : rec.2 ∈ values.map (fill v) := (List.of_mem_zip hrec).2
    rcases List.mem_map.mp hmem with ⟨m, hm, heq⟩
    rw [← heq] at hlookup
    have hvalue : value = v := by
      have hentry := GoMap.mem_of_lookup_insertAll hlookup
      simp at hentry
      exact hentry.2.symm
    have hfield : field ∈ m := by
      rw [← mem_fill (v := v), ← AList.lookup_isSome, hlookup]
      rfl
    rw [hvalue]
    exact hall v List.mem_cons_self field (List.mem_cons_of_mem _ (hover m hm field hfield))
  params := by
    have hsame : (keys.zip (values.map (fill v))).map (fun rec => rec.2.keys.length + 1)
        = (keys.zip values).map (fun rec => rec.2.keys.length + 1) := by
      rw [List.zip_map_right, List.map_map]
      apply List.map_congr_left
      intro rec _
      dsimp only [Function.comp_apply, Prod.map, id]
      rw [← length_fieldsOf, fieldsOf_fill, length_fieldsOf]
    rw [hsame]
    exact hholds.params

theorem over_of_fieldsOf {values' : List FieldMap} (hover : ∀ m ∈ values, t.Over m)
    (h : values'.map fieldsOf = values.map fieldsOf)
    : ∀ m ∈ values', t.Over m := by
  intro m hm field hfield
  have hmem : fieldsOf m ∈ values'.map fieldsOf := List.mem_map_of_mem hm
  rw [h] at hmem
  rcases List.mem_map.mp hmem with ⟨m', hm', heq⟩
  rw [← mem_fieldsOf, ← heq, mem_fieldsOf] at hfield
  exact hover m' hm' field hfield

theorem map_fieldsOf_fill (v : Bytes) (values : List FieldMap)
    : (values.map (fill v)).map fieldsOf = values.map fieldsOf := by
  rw [List.map_map]
  apply List.map_congr_left
  intro m _
  exact fieldsOf_fill v m

theorem lengths_of_fill (hlen : keys.length = (first :: rest).length)
    (hover : ∀ m ∈ first :: rest, t.Over m) (hholds : Holds server (keys.zip (first :: rest)))
    (hfresh : ∀ key ∈ keys, server.view s key = none) {v : Bytes} (hall : FitsAll server (v :: keys))
    (hkeys : v ∉ keys) (hnone : server.view s v = none)
    (h : BatchStores server order orders insertOrders s keys ((first :: rest).map (fill v)))
    : ∀ m ∈ first :: rest, (fieldsOf m).length = (fieldsOf first).length := by
  have hlen' : keys.length = (fill v first :: rest.map (fill v)).length := by
    rw [hlen, List.length_cons, List.length_cons, List.length_map]
  have hover' : ∀ m ∈ (first :: rest).map (fill v), t.Over m := over_of_fieldsOf hover (map_fieldsOf_fill v _)
  have hholds' := holds_fill hall hover hholds
  have hall' := hall.fill (first :: rest)
  rw [List.map_cons] at h hover' hholds' hall'
  have hfirst := hover' _ List.mem_cons_self
  have hargs := length_of_batchStores hlen' hfirst h
  rcases exists_bindRows hargs with ⟨groups, hgroups, hlens⟩
  have hstores := (batchStores_groups hlen' hover' hholds' hfresh hargs (hall'.groups hfirst.names _) hgroups).mp h
  have hview := congrFun hstores v
  rw [← List.map_cons, fieldsOf_fill, flatMap_fill] at hargs hgroups
  have hfind : (keys.zip (fill v first :: rest.map (fill v))).find? (fun rec => rec.1 = v) = none := by
    rw [List.find?_eq_none]
    intro rec hrec heq
    have hkey := (List.of_mem_zip hrec).1
    rw [of_decide_eq_true heq] at hkey
    exact hkeys hkey
  rw [addAll_viewOf hfresh, View.addAll_apply, hfind, hnone, find?_map_records] at hview
  simp at hview
  have hheads : ∀ rec ∈ keys.zip ((first :: rest).map (fun m => (fieldsOf m).length)),
      rec.2 = (fieldsOf first).length := by
    refine eq_of_heads ?_ hargs ?_
    . rw [List.length_zip]
      exact Nat.min_le_left _ _
    . rw [hgroups]
      intro args hmem
      rcases List.mem_map.mp hmem with ⟨group, hgroup, rfl⟩
      rw [List.head?_cons]
      intro heq
      exact hview group.1 group.2 hgroup (Option.some.inj heq)
  have hlengths : ∀ n ∈ (first :: rest).map (fun m => (fieldsOf m).length), n = (fieldsOf first).length := by
    apply forall_mem_of_zip (P := fun n => n = (fieldsOf first).length) _ hheads
    rw [List.length_map, hlen]
  intro m hm
  exact hlengths _ (List.mem_map_of_mem hm)

theorem aligned_of_forall (hlen : keys.length = (first :: rest).length)
    (hover : ∀ m ∈ first :: rest, t.Over m) (hholds : Holds server (keys.zip (first :: rest)))
    (hfresh : ∀ key ∈ keys, server.view s key = none) {v : Bytes} (hall : FitsAll server (v :: keys))
    (hkeys : v ∉ keys) (hnone : server.view s v = none)
    (h : ∀ values' : List FieldMap, values'.map fieldsOf = (first :: rest).map fieldsOf →
      Holds server (keys.zip values') → BatchStores server order orders insertOrders s keys values')
    : Aligned keys (fieldsOf first) ((first :: rest).map fieldsOf) := by
  have hholds' := holds_fill hall hover hholds
  have hstores := h _ (map_fieldsOf_fill v _) hholds'
  have hcount := lengths_of_fill hlen hover hholds hfresh hall hkeys hnone hstores
  have hlen' : keys.length = (fill v first :: rest.map (fill v)).length := by
    rw [hlen, List.length_cons, List.length_cons, List.length_map]
  have hover' : ∀ m ∈ (first :: rest).map (fill v), t.Over m := over_of_fieldsOf hover (map_fieldsOf_fill v _)
  have hcount' : ∀ m ∈ (first :: rest).map (fill v), (fieldsOf m).length = (fieldsOf (fill v first)).length := by
    rw [List.forall_mem_map]
    intro m hm
    rw [fieldsOf_fill, fieldsOf_fill, hcount m hm]
  have haligned := aligned_of_lengths hlen' hover' hholds' hfresh (hall.fill (first :: rest)) hcount' hstores
  rw [fieldsOf_fill, ← List.map_cons, map_fieldsOf_fill] at haligned
  exact haligned

theorem aligned_of_nodup (hlen : keys.length = (first :: rest).length)
    (hover : ∀ m ∈ first :: rest, t.Over m) (hholds : Holds server (keys.zip (first :: rest)))
    (hfresh : ∀ key ∈ keys, server.view s key = none) (hnodup : keys.Nodup)
    (hall : FitsAll server ((keys.zip (first :: rest)).flatMap recordArgs))
    (h : BatchStores server order orders insertOrders s keys (first :: rest))
    : Aligned keys (fieldsOf first) ((first :: rest).map fieldsOf) := by
  have hargs := length_of_batchStores hlen (hover first List.mem_cons_self) h
  rcases exists_bindRows hargs with ⟨groups, hgroups, hlens⟩
  have hfst : (keys.zip (first :: rest)).map Prod.fst = keys := List.map_fst_zip (Nat.le_of_eq hlen)
  have hzip : (keys.zip (first :: rest)).length = keys.length := by
    rw [List.length_zip, ← hlen, Nat.min_self]
  rw [← hfst] at hnodup
  have hcount : ∀ rec ∈ keys.zip (first :: rest), (fieldsOf rec.2).length = (fieldsOf first).length := by
    refine lengths_of_nodup hnodup (hzip.symm ▸ hgroups) ?_
    intro rec hrec group hgroup
    have hfind : (keys.zip (first :: rest)).find? (fun rec' => rec'.1 = rec.1) = some rec :=
      find?_of_nodup hnodup hrec
    rw [fieldsOf_eq_of_batchStores hlen hover hholds hfresh hall h hgroups hlens hgroup hfind]
  refine aligned_of_lengths hlen hover hholds hfresh hall ?_ h
  intro m hm
  have hsnd : (keys.zip (first :: rest)).map Prod.snd = first :: rest := List.map_snd_zip (Nat.le_of_eq hlen.symm)
  rw [← hsnd] at hm
  rcases List.mem_map.mp hm with ⟨rec, hrec, rfl⟩
  exact hcount rec hrec

theorem not_batchStores_nil : ¬BatchStores server order orders insertOrders s keys [] := by
  rintro ⟨s', _, hexec, _⟩
  cases hexec

end

/--
A batch of aligned records is stored. If the batch is stored whatever values the records have in these columns, then
they are aligned. For different keys this is so for each list of maps by itself; with a repeated key the values may
happen to hide that the records are not aligned.
-/
theorem batchInsert_eq_inserts_iff (t : UserTable) (server : Server .questionMarks t.table)
    (huniform : Uniform server) (order : GoMap.Order Bytes Bytes) (orders insertOrders : Orders) (s : server.State)
    (keys : List Bytes) (values : List FieldMap) (hlen : keys.length = values.length)
    (hover : ∀ m ∈ values, t.Over m) (hholds : Holds server (keys.zip values))
    (hfresh : ∀ key ∈ keys, server.view s key = none)
    : ((∃ columns ∈ (values.map fieldsOf).head?, Aligned keys columns (values.map fieldsOf))
          → BatchStores server order orders insertOrders s keys values)
        ∧
      (∀ v, FitsAll server (v :: keys) → v ∉ keys → server.view s v = none →
        ((∀ values' : List FieldMap, values'.map fieldsOf = values.map fieldsOf → Holds server (keys.zip values')
            → BatchStores server order orders insertOrders s keys values')
          ↔
        ∃ columns ∈ (values.map fieldsOf).head?, Aligned keys columns (values.map fieldsOf)))
        ∧
      (keys.Nodup → FitsAll server ((keys.zip values).flatMap recordArgs) →
        (BatchStores server order orders insertOrders s keys values
          ↔
        ∃ columns ∈ (values.map fieldsOf).head?, Aligned keys columns (values.map fieldsOf))) := by
  cases values with
  | nil =>
    have hcond : ¬∃ columns ∈ (([] : List FieldMap).map fieldsOf).head?, Aligned keys columns [] := by
      rintro ⟨columns, hcolumns, _⟩
      cases hcolumns
    refine ⟨fun h => absurd h hcond, ?_, ?_⟩
    . intro _ _ _ _
      exact iff_of_false (fun h => not_batchStores_nil (h [] rfl hholds)) hcond
    . intro _ _
      exact iff_of_false not_batchStores_nil hcond
  | cons first rest =>
    have hcond
        : (∃ columns ∈ ((first :: rest).map fieldsOf).head?, Aligned keys columns ((first :: rest).map fieldsOf))
          ↔ Aligned keys (fieldsOf first) ((first :: rest).map fieldsOf) := by
      simp
    rw [hcond]
    refine ⟨batchStores_of_aligned huniform hlen hover hholds hfresh, ?_, ?_⟩
    . intro v hall hkeys hnone
      refine ⟨aligned_of_forall hlen hover hholds hfresh hall hkeys hnone, ?_⟩
      intro h values' heq hholds'
      cases values' with
      | nil => contradiction
      | cons first' rest' =>
        have hlen' : keys.length = (first' :: rest').length := by
          have hmap := congrArg List.length heq
          rw [List.length_map, List.length_map] at hmap
          rw [hlen, hmap]
        have hover' := over_of_fieldsOf hover heq
        rw [← heq, ← (List.cons_eq_cons.mp heq).1] at h
        exact batchStores_of_aligned huniform hlen' hover' hholds' hfresh h
    . intro hnodup hall
      exact ⟨aligned_of_nodup hlen hover hholds hfresh hnodup hall,
        batchStores_of_aligned huniform hlen hover hholds hfresh⟩

def usertable : UserTable where
  name := Bytes.ofAscii "usertable"
  columns := [Bytes.ofAscii "FIELD0", Bytes.ofAscii "FIELD1"]
  word_name := ⟨by decide, List.all_eq_true.mp (by decide)⟩
  word_columns := by
    intro column hcolumn
    simp only [List.mem_cons, List.not_mem_nil, or_false] at hcolumn
    rcases hcolumn with rfl | rfl
    . exact ⟨by decide, List.all_eq_true.mp (by decide)⟩
    . exact ⟨by decide, List.all_eq_true.mp (by decide)⟩
  keyless := by decide

def record (field value : String) : FieldMap := AList.singleton (Bytes.ofAscii field) (Bytes.ofAscii value)

theorem over_record {t : UserTable} {field : String} (h : Bytes.ofAscii field ∈ t.columns) (value : String)
    : t.Over (record field value) := by
  intro column hcolumn
  rw [AList.mem_keys, record, AList.keys_singleton, List.mem_singleton] at hcolumn
  rw [hcolumn]
  exact h

def usertableServer : Server .questionMarks usertable.table := Table.executor .questionMarks usertable.table

theorem batchInsert_eq_inserts_same_column
    : BatchStores usertableServer .id (fun _ => .id) (fun _ => .id) (∅ : Rows)
        [Bytes.ofAscii "user0", Bytes.ofAscii "user1"] [record "FIELD0" "a", record "FIELD0" "b"] := by
  have hover : ∀ m ∈ [record "FIELD0" "a", record "FIELD0" "b"], usertable.Over m := by
    rw [List.forall_mem_cons, List.forall_mem_singleton]
    exact ⟨over_record (by decide) "a", over_record (by decide) "b"⟩
  have hholds : Holds usertableServer ([Bytes.ofAscii "user0", Bytes.ofAscii "user1"].zip
      [record "FIELD0" "a", record "FIELD0" "b"]) :=
    ⟨fun _ _ => trivial, fun _ _ _ _ _ => trivial, show 4 ≤ 65535 by decide⟩
  have hstores := (batchInsert_eq_inserts_iff usertable usertableServer (fun _ _ _ _ _ h => h) .id (fun _ => .id)
    (fun _ => .id) (∅ : Rows) [Bytes.ofAscii "user0", Bytes.ofAscii "user1"]
    [record "FIELD0" "a", record "FIELD0" "b"] rfl hover hholds (fun _ _ => rfl)).1
  have hfields : [record "FIELD0" "a", record "FIELD0" "b"].map fieldsOf
      = [[Bytes.ofAscii "FIELD0"], [Bytes.ofAscii "FIELD0"]] := by
    decide +kernel
  rw [hfields] at hstores
  apply hstores
  refine ⟨[Bytes.ofAscii "FIELD0"], rfl, by decide, ?_⟩
  intro key rec hrec
  have hmem := (List.of_mem_zip (List.mem_of_find?_eq_some hrec)).2
  simpa using hmem

theorem batchInsert_moves_value
    : (∀ m ∈ [record "FIELD0" "a", record "FIELD1" "b"], usertable.Over m)
        ∧
      (((batchInsert .id (fun _ => .id) usertable.name [Bytes.ofAscii "user0", Bytes.ofAscii "user1"]
        [record "FIELD0" "a", record "FIELD1" "b"]).exec (usertable.table.handle .questionMarks) ∅).2.lookup
          (Bytes.ofAscii "user1")).map
            (fun row => (row.lookup (Bytes.ofAscii "FIELD0"), row.lookup (Bytes.ofAscii "FIELD1")))
        = some (some (Bytes.ofAscii "b"), none)
        ∧
      ¬BatchStores usertableServer .id (fun _ => .id) (fun _ => .id) (∅ : Rows)
          [Bytes.ofAscii "user0", Bytes.ofAscii "user1"] [record "FIELD0" "a", record "FIELD1" "b"] := by
  have hlookup
      : (((batchInsert .id (fun _ => .id) usertable.name [Bytes.ofAscii "user0", Bytes.ofAscii "user1"]
          [record "FIELD0" "a", record "FIELD1" "b"]).exec (usertable.table.handle .questionMarks) ∅).2.lookup
            (Bytes.ofAscii "user1")).map
              (fun row => (row.lookup (Bytes.ofAscii "FIELD0"), row.lookup (Bytes.ofAscii "FIELD1")))
        = some (some (Bytes.ofAscii "b"), none) := by
    decide +kernel
  refine ⟨?_, hlookup, ?_⟩
  . rw [List.forall_mem_cons, List.forall_mem_singleton]
    exact ⟨over_record (by decide) "a", over_record (by decide) "b"⟩
  . rintro ⟨rows', _, hexec, _, _, hview⟩
    change (batchInsert .id (fun _ => .id) usertable.name [Bytes.ofAscii "user0", Bytes.ofAscii "user1"]
        [record "FIELD0" "a", record "FIELD1" "b"]).exec (usertable.table.handle .questionMarks) ∅ = _ at hexec
    rw [hexec, Option.map_eq_some_iff] at hlookup
    rcases hlookup with ⟨row, hrow, hcolumns⟩
    have huser1 := hview (Bytes.ofAscii "user1")
    change (AList.lookup (Bytes.ofAscii "user1") rows').map (fun row column => AList.lookup column row) = _ at huser1
    rw [hrow] at huser1
    have hfield : row.lookup (Bytes.ofAscii "FIELD0") = (record "FIELD1" "b").lookup (Bytes.ofAscii "FIELD0") :=
      congrFun (Option.some.inj huser1) (Bytes.ofAscii "FIELD0")
    rw [Prod.mk.injEq] at hcolumns
    rw [hcolumns.1] at hfield
    revert hfield
    decide +kernel

end Mysql
