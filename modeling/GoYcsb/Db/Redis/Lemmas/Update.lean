import GoYcsb.Db.Redis.Impl.Db

/-!
This module contains the verification of `Update` from `GoYcsb.Db.Redis.Impl.Db` for records that are strings.
-/

namespace Redis

namespace DB

variable {r : DB} {server : Server r.json} {s : State} {table key text : Bytes} {record : Option FieldMap}

def UpdateOverlays (r : DB) (server : Server r.json) (order : GoMap.Order Bytes Bytes) (s : State) (table key : Bytes)
    (record values : Option FieldMap) : Prop :=
  ∃ t text record',
    (r.update order table key values).exec server.handle s = (.ret (.ok ()), t)
      ∧
    t.lookup (getKeyName table key) = some (.string text)
      ∧
    r.json.decode text = .ok record'
      ∧
    ∀ field, (record'.getD ∅).lookup field = ((record.getD ∅).merge (values.getD ∅)).lookup field

theorem updateOverlays_iff_of_stores {order : GoMap.Order Bytes Bytes} {values stored : Option FieldMap}
    (h : (r.update order table key values).exec server.handle s
      = (setRecord table key (r.json.encode stored)).exec server.handle s)
    : r.UpdateOverlays server order s table key record values
        ↔
      ∀ field, (stored.getD ∅).lookup field = ((record.getD ∅).merge (values.getD ∅)).lookup field := by
  rcases r.json.exists_decode_encode stored with ⟨data, stored', hencode, hdecode, hlookup⟩
  have hexec : (r.update order table key values).exec server.handle s
      = (.ret (.ok ()), s.insert (getKeyName table key) (.string data)) := by
    rw [h, hencode]
    rfl
  unfold UpdateOverlays
  rw [hexec]
  constructor
  . rintro ⟨t, text, record', heq, htext, hrecord', hfields⟩ field
    cases heq
    rw [AList.lookup_insert] at htext
    cases htext
    rw [hdecode] at hrecord'
    cases hrecord'
    rw [← hlookup, hfields]
  . intro hfields
    refine ⟨_, data, stored', rfl, AList.lookup_insert _, hdecode, ?_⟩
    intro field
    rw [hlookup, hfields]

section

variable (hmode : r.datatype = .string)

include hmode

theorem exec_update_full {values : Option FieldMap} (hfull : ((values.getD ∅).keys.length : Int) = r.fieldcount)
    (order : GoMap.Order Bytes Bytes)
    : (r.update order table key values).exec server.handle s
        =
      (setRecord table key (r.json.encode values)).exec server.handle s := by
  simp [update, hmode, hfull]

theorem exec_update_part (server : Server r.json)
    (hrecord : s.lookup (getKeyName table key) = some (.string text)) {values : Option FieldMap}
    (hpart : ((values.getD ∅).keys.length : Int) ≠ r.fieldcount) (order : GoMap.Order Bytes Bytes)
    : (r.update order table key values).exec server.handle s
        =
      (do
        let encodedJson ← .lift (mergeEncodedJsonWithMap r.json text (order.visit (values.getD ∅)))
        setRecord table key encodedJson : Prog (Except Bytes Unit)).exec server.handle s := by
  unfold update
  rw [hmode]
  dsimp only
  rw [if_neg hpart, get, Rpc.send_bind, Rpc.exec_call]
  simp only [Server.handle, hrecord]

theorem updateOverlays_iff_covers (server : Server r.json) (order : GoMap.Order Bytes Bytes)
    (hrecord : s.lookup (getKeyName table key) = some (.string text)) (hdecode : r.json.decode text = .ok record)
    (values : Option FieldMap)
    : r.UpdateOverlays server order s table key record values
        ↔
      (((values.getD ∅).keys.length : Int) = r.fieldcount → ∀ field ∈ record.getD ∅, field ∈ values.getD ∅)
        ∧
      (((values.getD ∅).keys.length : Int) ≠ r.fieldcount → record = none → (values.getD ∅).keys = []) := by
  by_cases hfull : ((values.getD ∅).keys.length : Int) = r.fieldcount
  . rw [updateOverlays_iff_of_stores (exec_update_full hmode hfull order), GoMap.lookup_eq_merge_iff]
    simp [hfull]
  . have hexec := exec_update_part hmode server hrecord hfull order
    cases record with
    | some m =>
      have hmerge : mergeEncodedJsonWithMap r.json text (order.visit (values.getD ∅))
          = .ret (r.json.encode (some ((GoMap.merge ∅ m).merge (order.visit (values.getD ∅))))) := by
        simp [mergeEncodedJsonWithMap, unmarshal, hdecode]
      rw [hmerge, Rpc.lift_ret_bind] at hexec
      rw [updateOverlays_iff_of_stores hexec]
      simp [hfull, GoMap.lookup_merge, order.lookup_visit]
    | none =>
      have hmerge : mergeEncodedJsonWithMap r.json text (order.visit (values.getD ∅))
          = if (values.getD ∅).keys = [] then
              .ret (r.json.encode none)
            else
              .panic "assignment to entry in nil map" := by
        simp [mergeEncodedJsonWithMap, unmarshal, hdecode, order.keys_visit_eq_nil]
      rw [hmerge] at hexec
      by_cases hnil : (values.getD ∅).keys = []
      . rw [if_pos hnil, Rpc.lift_ret_bind] at hexec
        have hnone : ∀ field, (values.getD ∅).lookup field = none := by
          intro field
          rw [AList.lookup_eq_none, AList.mem_keys, hnil]
          exact List.not_mem_nil
        rw [updateOverlays_iff_of_stores hexec]
        simp [hnil, GoMap.lookup_merge, hnone]
      . rw [if_neg hnil, Rpc.lift_panic_bind, Rpc.exec_done] at hexec
        simp [UpdateOverlays, hexec, hfull, hnil]

end

def twoFieldsDB : DB := { json := MapJson.base64, datatype := .string, fieldcount := 2 }

def oneFieldDB : DB := { twoFieldsDB with fieldcount := 1 }

def recordF : FieldMap := GoMap.insertAll ∅ [([102], [7])]

def valuesG : FieldMap := GoMap.insertAll ∅ [([103], [8])]

def textF : Bytes := Json.quoteMap (recordF.mapValues Base64.encode)

def stateF : State := AList.insert (getKeyName [116] [107]) (.string textF) ∅

theorem decode_textF : MapJson.base64.decode textF = .ok (some recordF) := rfl

theorem updateOverlays_other_field
    : twoFieldsDB.UpdateOverlays Server.plain .id stateF [116] [107] (some recordF) (some valuesG) :=
  (updateOverlays_iff_covers (r := twoFieldsDB) rfl Server.plain .id rfl decode_textF (some valuesG)).mpr
    ⟨by decide, by decide⟩

theorem full_update_loses_field
    : ¬ oneFieldDB.UpdateOverlays Server.plain .id stateF [116] [107] (some recordF) (some valuesG)
        ∧
      ((oneFieldDB.read [116] [107] []).exec Server.plain.handle
        ((oneFieldDB.update .id [116] [107] (some valuesG)).exec Server.plain.handle stateF).2).1
        = .ret (.ok (some valuesG)) := by
  refine ⟨?_, rfl⟩
  rintro ⟨t, text, record', hexec, htext, hdecode, hfields⟩
  cases hexec
  cases htext
  cases hdecode
  exact absurd (hfields [102]) (by decide)

end DB

end Redis
