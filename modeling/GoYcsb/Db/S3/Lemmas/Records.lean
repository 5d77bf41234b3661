import GoYcsb.Db.S3.Lemmas.Scan

/-!
This module contains which records `Scan` returns, with and without `s3.scan_keys_only`.
-/

namespace S3

open KeyRange (keysWhere)

namespace DB

variable {db : DB} {service : Service} {bucket : GoMap Bytes Bytes} {table : Bytes} {fields : List Bytes}

/--
The objects under the prefix of the table were put there by `Insert`, with a key that is not empty and a map that is not
`nil`.
-/
def WrittenByInsert (db : DB) (bucket : GoMap Bytes Bytes) (table : Bytes) : Prop :=
  ∀ objectKey payload, bucket.lookup objectKey = some payload → tablePre table <+: objectKey →
    ∃ key values, key ≠ [] ∧ db.insert table key (some values) = putObject objectKey payload

def isReadable (db : DB) (service : Service) (bucket : GoMap Bytes Bytes) (table : Bytes) (fields : List Bytes)
    (key : Bytes) : Bool :=
  (db.recordAt service bucket table key fields).isOk

def readableFrom (db : DB) (service : Service) (bucket : GoMap Bytes Bytes) (table startKey : Bytes)
    (fields : List Bytes) : List Bytes :=
  keysWhere (fun key => decide (startKey ≤ key) && db.isReadable service bucket table fields key)
    (tableKeys bucket table)

theorem isReadable_iff {key : Bytes}
    : db.isReadable service bucket table fields key
        ↔
      ∃ record, db.recordAt service bucket table key fields = .ok record := by
  unfold isReadable
  cases db.recordAt service bucket table key fields with
  | error err => simp [Except.isOk, Except.toBool]
  | ok record => simp [Except.isOk, Except.toBool]

theorem exists_object_of_recordAt {key : Bytes} {record : Option FieldMap}
    (h : db.recordAt service bucket table key fields = .ok record)
    : ∃ payload,
        bucket.lookup (composeObjectKey table key) = some payload ∧ db.decodeBody payload fields = .ok record := by
  unfold recordAt Service.objectAt at h
  cases hfails : service.getFails (composeObjectKey table key) with
  | some err => simp [hfails] at h
  | none =>
    cases hlookup : bucket.lookup (composeObjectKey table key) with
    | none => simp [hfails, hlookup] at h
    | some payload => exact ⟨payload, rfl, by simpa [hfails, hlookup] using h⟩

theorem mem_tableKeys_of_recordAt {key : Bytes} {record : Option FieldMap}
    (h : db.recordAt service bucket table key fields = .ok record)
    : key ∈ tableKeys bucket table := by
  rcases exists_object_of_recordAt h with ⟨payload, hlookup, _⟩
  rw [mem_tableKeys, ← AList.lookup_isSome, hlookup]
  rfl

theorem insert_eq (db : DB) (table key : Bytes) (values : FieldMap)
    : ∃ payload record,
        db.insert table key (some values) = putObject (composeObjectKey table key) payload
          ∧
        db.msgpack.decode payload = .ok (some record)
          ∧
        ∀ field, record.lookup field = values.lookup field := by
  rcases db.msgpack.encode_decode values with ⟨payload, record, hencode, hdecode, hlookup⟩
  refine ⟨payload, record, ?_, hdecode, hlookup⟩
  unfold insert
  rw [hencode]

theorem WrittenByInsert.exists_values (h : db.WrittenByInsert bucket table) {key payload : Bytes}
    (hlookup : bucket.lookup (composeObjectKey table key) = some payload)
    : key ≠ [] ∧ ∃ record, db.msgpack.decode payload = .ok (some record) := by
  have hpre : tablePre table <+: composeObjectKey table key := by
    rw [composeObjectKey_eq]
    exact List.prefix_append _ _
  rcases h _ payload hlookup hpre with ⟨key', values, hne, hinsert⟩
  rcases db.insert_eq table key' values with ⟨payload', record, hput, hdecode, _⟩
  have hsame := hput.symm.trans hinsert
  unfold putObject Rpc.send at hsame
  injection hsame with hreq
  injection hreq with hkey hpayload
  rw [composeObjectKey_eq, composeObjectKey_eq] at hkey
  rw [← List.append_cancel_left hkey, ← hpayload]
  exact ⟨hne, record, hdecode⟩

theorem WrittenByInsert.record_eq_some (h : db.WrittenByInsert bucket table) {key : Bytes} {record : Option FieldMap}
    (hrecord : db.recordAt service bucket table key fields = .ok record)
    : ∃ values, record = some values := by
  rcases exists_object_of_recordAt hrecord with ⟨payload, hlookup, hbody⟩
  rcases (h.exists_values hlookup).2 with ⟨values, hdecode⟩
  unfold decodeBody at hbody
  rw [hdecode] at hbody
  dsimp only at hbody
  split at hbody
  . cases hbody
    exact ⟨_, rfl⟩
  . cases hbody
    exact ⟨_, rfl⟩

theorem keys_filter_readable (startKey : Bytes)
    : (startKey :: keysAfter bucket table startKey).filter (db.isReadable service bucket table fields)
        =
      db.readableFrom service bucket table startKey fields := by
  symm
  apply KeyRange.keysWhere_eq (nodup_tableKeys bucket table)
  . apply List.Pairwise.filter
    rw [List.pairwise_cons]
    refine ⟨?_, KeyRange.pairwise_keysWhere _ _⟩
    intro key hkey
    exact Std.le_of_lt (mem_keysAfter.mp hkey).2
  . apply List.Nodup.filter
    rw [List.nodup_cons]
    refine ⟨?_, KeyRange.nodup_keysWhere (nodup_tableKeys bucket table) _⟩
    intro hstart
    exact Std.lt_irrefl (mem_keysAfter.mp hstart).2
  . intro key
    rw [List.mem_filter, List.mem_cons, mem_keysAfter, Bool.and_eq_true, decide_eq_true_eq]
    constructor
    . rintro ⟨rfl | hafter, hreadable⟩
      . rcases isReadable_iff.mp hreadable with ⟨record, hrecord⟩
        exact ⟨mem_tableKeys_of_recordAt hrecord, Std.le_refl key, hreadable⟩
      . exact ⟨hafter.1, Std.le_of_lt hafter.2, hreadable⟩
    . rintro ⟨hmem, hle, hreadable⟩
      refine ⟨?_, hreadable⟩
      by_cases heq : key = startKey
      . exact .inl heq
      . exact .inr ⟨hmem, Std.lt_of_le_of_ne hle (Ne.symm heq)⟩

section

variable (hmode : db.scanKeysOnly = false)

include hmode

theorem keys_entriesAfter (keys : List Bytes)
    : (keys.filterMap (db.entryAt service bucket table fields)).map Entry.key
        =
      keys.filter (db.isReadable service bucket table fields) := by
  induction keys with
  | nil => rfl
  | cons key keys ih =>
    cases hrecord : db.recordAt service bucket table key fields with
    | error err =>
      have hentry : db.entryAt service bucket table fields key = none := by
        simp [entryAt, hmode, hrecord, Except.toOption]
      have hreadable : ¬ db.isReadable service bucket table fields key := by
        simp [isReadable_iff, hrecord]
      rw [List.filterMap_cons_none hentry, List.filter_cons_of_neg hreadable, ih]
    | ok record =>
      have hentry : db.entryAt service bucket table fields key = some ⟨key, record⟩ := by
        simp [entryAt, hmode, hrecord, Except.toOption]
      have hreadable : db.isReadable service bucket table fields key := by
        simp [isReadable_iff, hrecord]
      rw [List.filterMap_cons_some hentry, List.filter_cons_of_pos hreadable, List.map_cons, ih]

theorem record_of_entryAt {key : Bytes} {entry : Entry} (h : db.entryAt service bucket table fields key = some entry)
    : db.recordAt service bucket table entry.key fields = .ok entry.record := by
  cases hrecord : db.recordAt service bucket table key fields with
  | error err => simp [entryAt, hmode, hrecord, Except.toOption] at h
  | ok record =>
    simp only [entryAt, hmode, hrecord, Except.toOption, Bool.false_eq_true, if_false, Option.map_some,
      Option.some.injEq] at h
    rw [← h]
    exact hrecord

theorem WrittenByInsert.startEntries_eq (hwritten : db.WrittenByInsert bucket table) (startKey : Bytes)
    : db.startEntries service bucket table startKey fields
        =
      [startKey].filterMap (db.entryAt service bucket table fields) := by
  cases hrecord : db.recordAt service bucket table startKey fields with
  | error err => simp [startEntries, entryAt, hmode, hrecord, Except.toOption]
  | ok record =>
    rcases exists_object_of_recordAt hrecord with ⟨payload, hlookup, _⟩
    rcases hwritten.record_eq_some hrecord with ⟨values, rfl⟩
    simp [startEntries, entryAt, hmode, hrecord, Except.toOption, (hwritten.exists_values hlookup).1]

end

theorem forall₂_read {entries : List Entry} {s : State}
    (h : ∀ entry ∈ entries, db.recordAt service s.bucket table entry.key fields = .ok entry.record)
    : List.Forall₂ (fun row key => ((db.read table key fields).exec service.handle s).1 = .ret (.ok row))
        (entries.map Entry.record) (entries.map Entry.key) := by
  rw [List.forall₂_map_left_iff, List.forall₂_map_right_iff, List.forall₂_same]
  intro entry hentry
  rw [exec_read, h entry hentry]

def oneRecordDB : DB := { msgpack := Msgpack.quoted, updateOverwrite := false, scanKeysOnly := false }

def oneRecordService : Service := { getFails := fun _ => none, putFails := fun _ => none, pageSize := fun _ => 1 }

def letterRecord (letter : UInt8) : FieldMap := GoMap.insertAll ∅ [([102], [letter])]

def letterObject (letter : UInt8) : Bytes × Bytes :=
  (composeObjectKey [116] [letter], Json.quoteMap (letterRecord letter))

def lettersState : State where
  bucket := GoMap.insertAll ∅ ([97, 98, 99, 100, 101].map letterObject ++ [(composeObjectKey [117] [99], [])])
  listings := 0

def lettersService : Service where
  getFails key := if key = composeObjectKey [116] [99] then some (Bytes.ofAscii "timeout") else none
  putFails _ := none
  pageSize _ := 1

theorem writtenByInsert_letters : oneRecordDB.WrittenByInsert lettersState.bucket [116] := by
  have hother : ¬ tablePre [116] <+: composeObjectKey [117] [99] := by decide
  intro objectKey payload hlookup hpre
  have hmem := (GoMap.mem_of_lookup_insertAll hlookup).resolve_right (by simp)
  rw [List.mem_append, List.mem_map, List.mem_singleton] at hmem
  cases hmem with
  | inl hletter =>
    rcases hletter with ⟨letter, _, heq⟩
    cases heq
    exact ⟨[letter], letterRecord letter, List.cons_ne_nil _ _, rfl⟩
  | inr heq =>
    cases heq
    contradiction

def oneRecord : FieldMap := GoMap.insertAll ∅ [([102], [7])]

def oneRecordState : State where
  bucket := GoMap.insertAll ∅ [(composeObjectKey [116] [107], Json.quoteMap oneRecord)]
  listings := 0

theorem lookup_oneRecordState {objectKey payload : Bytes} (h : oneRecordState.bucket.lookup objectKey = some payload)
    : objectKey = composeObjectKey [116] [107] ∧ payload = Json.quoteMap oneRecord := by
  by_cases heq : objectKey = composeObjectKey [116] [107]
  . rw [heq] at h
    cases h
    exact ⟨heq, rfl⟩
  . have hnone : oneRecordState.bucket.lookup objectKey = none := AList.lookup_insert_ne heq
    rw [hnone] at h
    cases h

def EveryReadable (db : DB) (service : Service) (bucket : GoMap Bytes Bytes) : Prop :=
  ∀ objectKey payload, bucket.lookup objectKey = some payload →
    service.getFails objectKey = none ∧ ∃ values, db.msgpack.decode payload = .ok values

def withRecords (db : DB) : DB := { db with scanKeysOnly := false }

def keysOnly (db : DB) : DB := { db with scanKeysOnly := true }

def HasRecord (db : DB) (bucket : GoMap Bytes Bytes) (table key : Bytes) (fields : List Bytes) : Prop :=
  ∃ payload values,
    bucket.lookup (composeObjectKey table key) = some payload
      ∧
    db.msgpack.decode payload = .ok values
      ∧
    (fields = [] → values ≠ none)

/--
With `s3.scan_keys_only` the scan returns the keys of the records that the scan without it returns. The pages of the two
scans may differ.
-/
def ListsKeysOfRecords (db : DB) (service : Service) (pageSize : Nat → Nat) (s : State) (fuel : Nat)
    (table startKey : Bytes) (count : Int) (fields : List Bytes) : Prop :=
  ∃ entries rows t t',
    (db.withRecords.scanEntries fuel table startKey count fields).exec service.handle s = (.ret (.ok entries), t)
      ∧
    (db.keysOnly.scan fuel table startKey count fields).exec { service with pageSize }.handle s = (.ret (.ok rows), t')
      ∧
    rows = entries.map (fun entry => some (keyRecord entry.key))

theorem recordAt_withRecords (key : Bytes)
    : db.withRecords.recordAt service bucket table key fields = db.recordAt service bucket table key fields := rfl

theorem keyRecord_injective : Function.Injective keyRecord := by
  intro x y heq
  have hkeys : (keyRecord x).keys = (keyRecord y).keys := by rw [heq]
  simpa [keyRecord, GoMap.insertAll] using hkeys

theorem EveryReadable.recordAt_eq (h : db.EveryReadable service bucket) {key payload : Bytes}
    (hlookup : bucket.lookup (composeObjectKey table key) = some payload)
    : db.recordAt service bucket table key fields = db.decodeBody payload fields := by
  unfold recordAt Service.objectAt
  rw [(h _ payload hlookup).1, hlookup]

theorem EveryReadable.hasRecord_iff (h : db.EveryReadable service bucket) (key : Bytes)
    : db.HasRecord bucket table key fields
        ↔
      ∃ record, db.recordAt service bucket table key fields = .ok (some record) := by
  constructor
  . rintro ⟨payload, values, hlookup, hdecode, hnil⟩
    rw [h.recordAt_eq hlookup]
    unfold decodeBody
    rw [hdecode]
    dsimp only
    split
    . exact ⟨_, rfl⟩
    . next hfields =>
      rcases Option.ne_none_iff_exists'.mp (hnil (List.length_eq_zero_iff.mp (by omega))) with ⟨record, rfl⟩
      exact ⟨record, rfl⟩
  . rintro ⟨record, hrecord⟩
    rcases exists_object_of_recordAt hrecord with ⟨payload, hlookup, hbody⟩
    rcases (h _ payload hlookup).2 with ⟨values, hdecode⟩
    refine ⟨payload, values, hlookup, hdecode, ?_⟩
    rintro rfl rfl
    simp [decodeBody, hdecode] at hbody

theorem EveryReadable.isReadable (h : db.EveryReadable service bucket) {key : Bytes}
    (hkey : key ∈ tableKeys bucket table)
    : db.isReadable service bucket table fields key := by
  rw [mem_tableKeys, ← AList.lookup_isSome, Option.isSome_iff_exists] at hkey
  rcases hkey with ⟨payload, hlookup⟩
  rcases (h _ payload hlookup).2 with ⟨values, hdecode⟩
  rw [isReadable_iff, h.recordAt_eq hlookup]
  unfold decodeBody
  rw [hdecode]
  dsimp only
  split
  . exact ⟨_, rfl⟩
  . exact ⟨_, rfl⟩

theorem keys_withRecords (h : db.EveryReadable service bucket) (startKey : Bytes)
    : (db.withRecords.startEntries service bucket table startKey fields
          ++ (keysAfter bucket table startKey).filterMap (db.withRecords.entryAt service bucket table fields)).map
            Entry.key
        =
      (db.withRecords.startEntries service bucket table startKey fields).map Entry.key
        ++ keysAfter bucket table startKey := by
  rw [List.map_append, keys_entriesAfter rfl, List.filter_eq_self.mpr]
  intro key hkey
  exact h.isReadable (mem_keysAfter.mp hkey).1

theorem records_keysOnly (startKey : Bytes)
    : (db.keysOnly.startEntries service bucket table startKey fields
          ++ (keysAfter bucket table startKey).filterMap (db.keysOnly.entryAt service bucket table fields)).map
            Entry.record
        =
      ((if startKey ≠ [] then [startKey] else []) ++ keysAfter bucket table startKey).map
        (fun key => some (keyRecord key)) := by
  have hentry : db.keysOnly.entryAt service bucket table fields = fun key => some ⟨key, some (keyRecord key)⟩ := rfl
  rw [List.map_append, List.map_append, hentry, List.filterMap_eq_map', List.map_map]
  congr 1
  unfold startEntries
  split
  . rfl
  . rfl

theorem keys_startEntries (h : db.EveryReadable service bucket) (table : Bytes) {startKey : Bytes} (hne : startKey ≠ [])
    (fields : List Bytes)
    : (db.HasRecord bucket table startKey fields
          ∧
        (db.withRecords.startEntries service bucket table startKey fields).map Entry.key = [startKey])
      ∨
      (¬ db.HasRecord bucket table startKey fields
          ∧
        db.withRecords.startEntries service bucket table startKey fields = []) := by
  rw [h.hasRecord_iff]
  unfold startEntries
  rw [if_pos hne, recordAt_withRecords]
  cases db.recordAt service bucket table startKey fields with
  | error err => exact .inr ⟨by simp, rfl⟩
  | ok record =>
    cases record with
    | none => exact .inr ⟨by simp, rfl⟩
    | some record => exact .inl ⟨⟨record, rfl⟩, rfl⟩

theorem take_startKey_ne {startKey : Bytes} {n : Nat} (hn : 1 ≤ n)
    : (startKey :: keysAfter bucket table startKey).take n ≠ (keysAfter bucket table startKey).take n := by
  intro heq
  cases n with
  | zero => omega
  | succ n =>
    have hmem : startKey ∈ (keysAfter bucket table startKey).take (n + 1) := by
      rw [← heq]
      simp
    exact Std.lt_irrefl (mem_keysAfter.mp (List.mem_of_mem_take hmem)).2

-- Both scans end, so it is only a matter of the keys that they have in front.
theorem listsKeysOfRecords_iff_keys {s : State} (hreadable : db.EveryReadable service s.bucket) (pageSize : Nat → Nat)
    (table startKey : Bytes) {count : Int} (hcount : 1 ≤ count) (hlt : count < 2 ^ 31) (fields : List Bytes)
    {fuel : Nat} (hfuel : s.bucket.keys.length < fuel)
    : db.ListsKeysOfRecords service pageSize s fuel table startKey count fields
        ↔
      ((if startKey ≠ [] then [startKey] else []) ++ keysAfter s.bucket table startKey).take count.toNat
        =
      ((db.withRecords.startEntries service s.bucket table startKey fields).map Entry.key
        ++ keysAfter s.bucket table startKey).take count.toNat := by
  have hkeys : (keysAfter s.bucket table startKey).length < fuel :=
    Nat.lt_of_le_of_lt (length_keysAfter_le s.bucket table startKey) hfuel
  rcases db.withRecords.exec_scanEntries service fields hcount hlt hkeys with ⟨t, hentries⟩
  rcases db.keysOnly.exec_scanEntries { service with pageSize } fields hcount hlt hkeys with ⟨t', hrows⟩
  have hrows := exec_scan hrows
  rw [List.map_take, records_keysOnly, ← List.map_take] at hrows
  have hinjective : Function.Injective (fun key => some (keyRecord key)) :=
    (Option.some_injective _).comp keyRecord_injective
  rw [← keys_withRecords hreadable, ← hinjective.list_map.eq_iff, ← List.map_take, List.map_map]
  unfold ListsKeysOfRecords
  rw [hentries, hrows]
  constructor
  . rintro ⟨entries, rows, _, _, hentries, hrows, heq⟩
    cases hentries
    cases hrows
    exact heq
  . intro heq
    exact ⟨_, _, t, t', rfl, rfl, heq⟩

theorem listsKeysOfRecords_iff {s : State} (hreadable : db.EveryReadable service s.bucket) (pageSize : Nat → Nat)
    (table startKey : Bytes) {count : Int} (hcount : 1 ≤ count) (hlt : count < 2 ^ 31) (fields : List Bytes)
    {fuel : Nat} (hfuel : s.bucket.keys.length < fuel)
    : db.ListsKeysOfRecords service pageSize s fuel table startKey count fields
        ↔
      startKey = [] ∨ db.HasRecord s.bucket table startKey fields := by
  rw [listsKeysOfRecords_iff_keys hreadable pageSize table startKey hcount hlt fields hfuel]
  by_cases hnil : startKey = []
  . simp [hnil, startEntries]
  . rw [if_pos hnil]
    rcases keys_startEntries hreadable table hnil fields with ⟨hrecord, hstart⟩ | ⟨hrecord, hstart⟩
    . simp [hstart, hrecord]
    . rw [hstart]
      simpa [hnil, hrecord] using take_startKey_ne (by omega)

theorem listsKeysOfRecords_one_record
    : oneRecordDB.HasRecord oneRecordState.bucket [116] [107] []
        ∧
      oneRecordDB.ListsKeysOfRecords oneRecordService (fun _ => 1) oneRecordState 2 [116] [107] 5 [] := by
  have hreadable : oneRecordDB.EveryReadable oneRecordService oneRecordState.bucket := by
    intro objectKey payload hlookup
    rcases lookup_oneRecordState hlookup with ⟨rfl, rfl⟩
    exact ⟨rfl, _, rfl⟩
  have hrecord : oneRecordDB.HasRecord oneRecordState.bucket [116] [107] [] :=
    ⟨_, _, rfl, rfl, fun _ => nofun⟩
  exact ⟨hrecord,
    (listsKeysOfRecords_iff hreadable _ [116] [107] (by decide) (by decide) [] (by decide)).mpr (.inr hrecord)⟩

theorem keysOnly_lists_missing_key
    : oneRecordDB.EveryReadable oneRecordService ∅
        ∧
      ¬ oneRecordDB.ListsKeysOfRecords oneRecordService (fun _ => 1) ⟨∅, 0⟩ 1 [116] [107] 5 []
        ∧
      ((oneRecordDB.keysOnly.scan 1 [116] [107] 5 []).exec oneRecordService.handle ⟨∅, 0⟩).1
        = .ret (.ok [some (keyRecord [107])]) := by
  refine ⟨by simp [EveryReadable], ?_, rfl⟩
  rintro ⟨entries, rows, t, t', hentries, hrows, heq⟩
  have hnil : entries = [] := by
    cases hentries
    rfl
  have hone : rows = [some (keyRecord [107])] := by
    cases hrows
    rfl
  rw [hnil, hone] at heq
  exact absurd heq (by simp)

end DB

end S3
