import GoYcsb.Db.S3.Lemmas.Records

/-!
This module contains the verification of the read and write of `Update` from `GoYcsb.Db.S3.Impl.Db`.
-/

namespace S3

namespace DB

variable {db : DB} {service : Service} {bucket : GoMap Bytes Bytes} {table key : Bytes}

def Overlaid (db : DB) (before after : Option Bytes) (values : FieldMap) : Prop :=
  ∃ payload record,
    after = some payload
      ∧
    db.msgpack.decode payload = .ok (some record)
      ∧
    match before with
    | none => ∀ field, record.lookup field = values.lookup field
    | some payload =>
      ∃ old,
        db.msgpack.decode payload = .ok old
          ∧
        ∀ field, record.lookup field = ((old.getD ∅).merge values).lookup field

/--
`Update` overlays the record if it succeeds, and leaves it as it is if it fails.
-/
def UpdateOverlays (db : DB) (service : Service) (s : State) (table key : Bytes) (values : Option FieldMap) : Prop :=
  ∃ result t,
    (db.update table key values).exec service.handle s = (.ret result, t)
      ∧
    (result = .ok () →
      db.Overlaid (s.bucket.lookup (composeObjectKey table key)) (t.bucket.lookup (composeObjectKey table key))
        (values.getD ∅))
      ∧
    (∀ err, result = .error err →
      t.bucket.lookup (composeObjectKey table key) = s.bucket.lookup (composeObjectKey table key))

def existing (db : DB) (service : Service) (bucket : GoMap Bytes Bytes) (table key : Bytes) : FieldMap :=
  (db.recordAt service bucket table key []).toOption.join.getD ∅

theorem existing_of_object {payload : Bytes} {old : Option FieldMap}
    (hlookup : bucket.lookup (composeObjectKey table key) = some payload)
    (hdecode : db.msgpack.decode payload = .ok old)
    (hfails : service.getFails (composeObjectKey table key) = none)
    : db.existing service bucket table key = old.getD ∅ := by
  simp [existing, recordAt, Service.objectAt, decodeBody, hlookup, hdecode, hfails, Except.toOption]

theorem existing_of_fails {err : Bytes} (hfails : service.getFails (composeObjectKey table key) = some err)
    : db.existing service bucket table key = ∅ := by
  simp [existing, recordAt, Service.objectAt, hfails, Except.toOption]

theorem existing_of_missing (hlookup : bucket.lookup (composeObjectKey table key) = none)
    : db.existing service bucket table key = ∅ := by
  unfold existing recordAt Service.objectAt
  cases service.getFails (composeObjectKey table key) with
  | some err => rfl
  | none =>
    rw [hlookup]
    rfl

theorem exec_update (hmode : db.updateOverwrite = false) (values : Option FieldMap) (s : State)
    : (db.update table key values).exec service.handle s
        =
      (db.insert table key (some ((db.existing service s.bucket table key).merge (values.getD ∅)))).exec
        service.handle s := by
  unfold update
  rw [if_pos (by simp [hmode]), Rpc.exec_bind_ret (db.exec_read service table key [] s)]
  rfl

theorem exec_update_of_putFails (hmode : db.updateOverwrite = false) {s : State} {err : Bytes}
    (hfails : service.putFails (composeObjectKey table key) = some err) (values : Option FieldMap)
    : (db.update table key values).exec service.handle s = (.ret (.error err), s) := by
  rw [exec_update hmode]
  rcases db.insert_eq table key ((db.existing service s.bucket table key).merge (values.getD ∅))
    with ⟨payload, record, hput, _, _⟩
  rw [hput, putObject, Rpc.send, Rpc.exec_call, Rpc.exec_done]
  simp [Service.handle, hfails]

theorem exec_update_stores (hmode : db.updateOverwrite = false) {s : State}
    (hfails : service.putFails (composeObjectKey table key) = none) (values : Option FieldMap)
    : ∃ payload record,
        (db.update table key values).exec service.handle s
            = (.ret (.ok ()), { s with bucket := s.bucket.insert (composeObjectKey table key) payload })
          ∧
        db.msgpack.decode payload = .ok (some record)
          ∧
        ∀ field, record.lookup field
          = ((db.existing service s.bucket table key).merge (values.getD ∅)).lookup field := by
  rw [exec_update hmode]
  rcases db.insert_eq table key ((db.existing service s.bucket table key).merge (values.getD ∅))
    with ⟨payload, record, hput, hdecode, hlookup⟩
  refine ⟨payload, record, ?_, hdecode, hlookup⟩
  rw [hput, putObject, Rpc.send, Rpc.exec_call, Rpc.exec_done]
  simp [Service.handle, hfails]

theorem overlays_object_iff {payload : Bytes} {old : Option FieldMap} {values : FieldMap}
    (hlookup : bucket.lookup (composeObjectKey table key) = some payload)
    (hdecode : db.msgpack.decode payload = .ok old)
    : (∀ field, ((db.existing service bucket table key).merge values).lookup field
          = ((old.getD ∅).merge values).lookup field)
        ↔
      service.getFails (composeObjectKey table key) = none ∨ ∀ field ∈ old.getD ∅, field ∈ values := by
  cases hfails : service.getFails (composeObjectKey table key) with
  | none => simp [existing_of_object hlookup hdecode hfails]
  | some err =>
    rw [existing_of_fails hfails, ← GoMap.lookup_eq_merge_iff]
    simp [GoMap.lookup_merge]

theorem updateOverlays_iff (hmode : db.updateOverwrite = false) (service : Service) (s : State) (table key : Bytes)
    (values : Option FieldMap)
    : db.UpdateOverlays service s table key values
        ↔
      ∀ payload,
        s.bucket.lookup (composeObjectKey table key) = some payload →
        service.putFails (composeObjectKey table key) = none →
        ∃ old,
          db.msgpack.decode payload = .ok old
            ∧
          (service.getFails (composeObjectKey table key) = none ∨ ∀ field ∈ old.getD ∅, field ∈ values.getD ∅) := by
  cases hput : service.putFails (composeObjectKey table key) with
  | some err => simp [UpdateOverlays, exec_update_of_putFails hmode hput]
  | none =>
    rcases exec_update_stores hmode hput values (s := s) with ⟨payload, record, hexec, hdecode, hrecord⟩
    have hoverlaid : db.UpdateOverlays service s table key values
        ↔ db.Overlaid (s.bucket.lookup (composeObjectKey table key)) (some payload) (values.getD ∅) := by
      simp [UpdateOverlays, hexec]
    rw [hoverlaid]
    cases hlookup : s.bucket.lookup (composeObjectKey table key) with
    | none =>
      rw [existing_of_missing hlookup] at hrecord
      simp [Overlaid, hdecode, hrecord, GoMap.lookup_merge]
    | some before =>
      simp only [Option.some.injEq, forall_eq', forall_const]
      have hobject : db.Overlaid (some before) (some payload) (values.getD ∅)
          ↔ ∃ old, db.msgpack.decode before = .ok old
            ∧ ∀ field, ((db.existing service s.bucket table key).merge (values.getD ∅)).lookup field
              = ((old.getD ∅).merge (values.getD ∅)).lookup field := by
        simp [Overlaid, hdecode, hrecord]
      rw [hobject]
      apply exists_congr
      intro old
      apply and_congr_right
      intro hold
      exact overlays_object_iff hlookup hold

theorem updateOverlays_one_record
    : oneRecordDB.UpdateOverlays oneRecordService oneRecordState [116] [107]
        (some (GoMap.insertAll ∅ [([103], [8])])) := by
  apply (updateOverlays_iff rfl oneRecordService oneRecordState [116] [107] _).mpr
  intro payload hlookup _
  rcases lookup_oneRecordState hlookup with ⟨_, rfl⟩
  exact ⟨_, rfl, .inl rfl⟩

def getFailingService : Service := { oneRecordService with getFails := fun _ => some (Bytes.ofAscii "timeout") }

theorem update_loses_record
    : ¬ oneRecordDB.UpdateOverlays getFailingService oneRecordState [116] [107]
          (some (GoMap.insertAll ∅ [([103], [8])]))
        ∧
      ((oneRecordDB.update [116] [107] (some (GoMap.insertAll ∅ [([103], [8])]))).exec getFailingService.handle
        oneRecordState).1 = .ret (.ok ())
        ∧
      ((oneRecordDB.read [116] [107] []).exec oneRecordService.handle
        ((oneRecordDB.update [116] [107] (some (GoMap.insertAll ∅ [([103], [8])]))).exec getFailingService.handle
          oneRecordState).2).1 = .ret (.ok (some (GoMap.insertAll ∅ [([103], [8])]))) := by
  refine ⟨?_, rfl, rfl⟩
  rintro ⟨result, t, hexec, hok, _⟩
  cases hexec
  rcases hok rfl with ⟨payload, record, hafter, hdecode, old, hold, hrecord⟩
  cases hafter
  cases hdecode
  cases hold
  exact absurd (hrecord [102]) (by decide)

end DB

end S3
