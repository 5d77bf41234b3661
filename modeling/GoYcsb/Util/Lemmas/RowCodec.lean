import GoYcsb.Util.Impl.RowCodec
import GoYcsb.Util.Lemmas.Row
import Mathlib.Data.List.Induction

/-!
This module contains the verification of the `RowCodec` from `GoYcsb.Util.Impl.RowCodec`: which maps it
carries through a row.
-/

theorem fieldName_injective {m n : Nat} (h : fieldName m = fieldName n) : m = n := by
  apply Bytes.decimal_injective
  apply List.append_cancel_left h

theorem Properties.getFieldCount_lt (p : Properties) : p.getFieldCount < 2 ^ 63 := by
  unfold getFieldCount getInt64
  cases p.fieldCount with
  | none => decide
  | some v => exact v.property.2

namespace Util

namespace RowCodec

def fieldIndex (r : RowCodec) (field : Bytes) : Int := r.fieldIndices.get field 0

structure Configured (p : Properties) (r : RowCodec) : Prop where
  fields : r.fields = (List.range p.getFieldCount.toNat).map fieldName
  fieldIndex : ∀ i, i < p.getFieldCount.toNat → r.fieldIndex (fieldName i) = i
  fieldIndex_eq_zero : ∀ field, field ∉ r.fields → r.fieldIndex field = 0

end RowCodec

theorem createFieldIndices_eq (p : Properties)
    : createFieldIndices p
        =
      GoMap.insertAll ∅ ((List.range p.getFieldCount.toNat).map (fun i => (fieldName i, (i : Int)))) := by
  unfold createFieldIndices GoMap.insertAll
  rw [List.foldl_map]

theorem configured_of_newRowCodec {p : Properties} {r : RowCodec} (h : newRowCodec p = .ret r)
    : r.Configured p := by
  rcases Outcome.bind_eq_ret h with ⟨fields, hfields, hr⟩
  simp only [Outcome.pure_eq, Outcome.ret.injEq] at hr
  subst hr
  unfold allFields at hfields
  split at hfields
  . contradiction
  . simp only [Outcome.ret.injEq] at hfields
    refine
      {
        fields := hfields.symm
        fieldIndex := ?_
        fieldIndex_eq_zero := ?_
      }
    . intro i hi
      simp only [RowCodec.fieldIndex, GoMap.get, createFieldIndices_eq]
      rw [GoMap.lookup_insertAll_of_mem (v := (i : Int))]
      . rfl
      . rw [List.map_map]
        apply List.Nodup.map _ List.nodup_range
        intro m n hmn
        apply fieldName_injective hmn
      . exact List.mem_map.mpr ⟨i, List.mem_range.mpr hi, rfl⟩
    . intro field hfield
      simp only [RowCodec.fieldIndex, GoMap.get, createFieldIndices_eq]
      rw [GoMap.lookup_insertAll_of_not_mem]
      . rfl
      . intro v hv
        rcases List.mem_map.mp hv with ⟨i, hi, heq⟩
        apply hfield
        rw [← hfields]
        simp only [Prod.mk.injEq] at heq
        exact List.mem_map.mpr ⟨i, hi, heq.1⟩

namespace RowCodec

section

variable {p : Properties} {r : RowCodec}

theorem Configured.mem_fields (h : r.Configured p) {field : Bytes}
    : field ∈ r.fields ↔ ∃ i, i < p.getFieldCount.toNat ∧ field = fieldName i := by
  rw [h.fields, List.mem_map]
  constructor
  . rintro ⟨i, hi, rfl⟩
    exact ⟨i, List.mem_range.mp hi, rfl⟩
  . rintro ⟨i, hi, rfl⟩
    exact ⟨i, List.mem_range.mpr hi, rfl⟩

theorem Configured.fieldIndex_inRange (h : r.Configured p) (field : Bytes)
    : I64.InRange (r.fieldIndex field) := by
  have hcount := p.getFieldCount_lt
  by_cases hfield : field ∈ r.fields
  . rcases h.mem_fields.mp hfield with ⟨i, hi, rfl⟩
    rw [h.fieldIndex i hi]
    constructor <;> omega
  . rw [h.fieldIndex_eq_zero field hfield]
    decide

theorem Configured.fieldIndex_injective (h : r.Configured p) {field field' : Bytes}
    (hfield : field ∈ r.fields) (hfield' : field' ∈ r.fields)
    (heq : r.fieldIndex field = r.fieldIndex field')
    : field = field' := by
  rcases h.mem_fields.mp hfield with ⟨i, hi, rfl⟩
  rcases h.mem_fields.mp hfield' with ⟨j, hj, rfl⟩
  rw [h.fieldIndex i hi, h.fieldIndex j hj] at heq
  rw [Int.natCast_inj.mp heq]

theorem lookup_selectFields (r : RowCodec) (data : GoMap Int Bytes) (fields : List Bytes)
    (field : Bytes)
    : (r.selectFields data fields).lookup field
        =
      if field ∈ fields then data.lookup (r.fieldIndex field) else none := by
  -- from the last field on, so that the map built so far is the one of the lemma
  induction fields using List.reverseRecOn with
  | nil => simp [selectFields]
  | append_singleton fields last ih =>
    unfold selectFields at ih ⊢
    rw [List.foldl_concat]
    dsimp only
    have hindex : r.fieldIndices.get last 0 = r.fieldIndex last := rfl
    rw [hindex]
    cases hdata : data.lookup (r.fieldIndex last) with
    | some v =>
      dsimp only
      rw [GoMap.lookup_insert]
      split
      . next heq =>
        subst heq
        simp [hdata]
      . next hne => simp [ih, hne]
    | none =>
      dsimp only
      rw [ih]
      by_cases heq : field = last
      . subst heq
        simp [hdata]
      . simp [heq]

def rowOf (r : RowCodec) (values : GoMap Bytes Bytes) : GoMap Int Bytes :=
  GoMap.insertAll ∅ (values.entries.map (fun entry => (r.fieldIndex entry.1, entry.2)))

theorem decodeRow_encode (hr : r.Configured p) (buf : Bytes) {values : GoMap Bytes Bytes}
    (hlen : ∀ entry ∈ values.entries, entry.2.length < 2 ^ 63)
    : ∃ row, r.encode buf values = .ok row ∧ decodeRow row = .ret (r.rowOf values, none) := by
  have hcols : ∀ col ∈ values.entries.map (fun entry => entry.2), col.length < 2 ^ 63 := by
    intro col hcol
    rcases List.mem_map.mp hcol with ⟨entry, hentry, rfl⟩
    apply hlen entry hentry
  have hids : ∀ id ∈ values.entries.map (fun entry => r.fieldIndex entry.1), I64.InRange id := by
    intro id hid
    rcases List.mem_map.mp hid with ⟨entry, _, rfl⟩
    apply hr.fieldIndex_inRange
  rcases decodeRow_encodeRow buf (by simp) hcols hids with ⟨row, hencode, hdecode⟩
  rw [List.zip_map'] at hdecode
  exact ⟨row, hencode, hdecode⟩

theorem decode_encode_eq (hr : r.Configured p) (buf : Bytes) {values : GoMap Bytes Bytes}
    (hlen : ∀ entry ∈ values.entries, entry.2.length < 2 ^ 63)
    : ∃ row,
        r.encode buf values = .ok row
          ∧
        r.decode row [] = .ret (.ok (r.selectFields (r.rowOf values) r.fields))
          ∧
        ∀ fields, fields ≠ [] →
          r.decode row fields = .ret (.ok (r.selectFields (r.rowOf values) fields)) := by
  rcases decodeRow_encode hr buf hlen with ⟨row, hencode, hdecode⟩
  refine ⟨row, hencode, ?_, ?_⟩
  . unfold decode
    rw [hdecode]
    rfl
  . intro fields hfields
    have hlength : ¬ fields.length = 0 := by
      rwa [List.length_eq_zero_iff]
    unfold decode
    rw [hdecode, if_neg hlength]
    rfl

theorem lookup_rowOf_eq_none {values : GoMap Bytes Bytes} {id : Int}
    (h : ∀ key ∈ values, r.fieldIndex key ≠ id)
    : (r.rowOf values).lookup id = none := by
  unfold rowOf
  rw [GoMap.lookup_insertAll_of_not_mem]
  . rfl
  . intro v hv
    rcases List.mem_map.mp hv with ⟨⟨key, v'⟩, hentry, heq⟩
    simp only [Prod.mk.injEq] at heq
    have hkey : key ∈ values := AList.mem_keys.mpr (List.mem_keys_of_mem hentry)
    exact h key hkey heq.1

theorem lookup_rowOf (hr : r.Configured p) {values : GoMap Bytes Bytes} {field : Bytes}
    (hkeys : ∀ key ∈ values, key ∈ r.fields) (hfield : field ∈ r.fields)
    : (r.rowOf values).lookup (r.fieldIndex field) = values.lookup field := by
  cases hvalue : values.lookup field with
  | some v =>
    unfold rowOf
    apply GoMap.lookup_insertAll_of_mem
    . rw [List.map_map]
      have hnodup : (values.keys.map r.fieldIndex).Nodup := by
        apply List.Nodup.map_on _ values.keys_nodup
        intro key hkey key' hkey' heq
        apply hr.fieldIndex_injective (hkeys key hkey) (hkeys key' hkey') heq
      rwa [AList.keys, List.keys, List.map_map] at hnodup
    . apply List.mem_map.mpr
      exact ⟨⟨field, v⟩, AList.mem_lookup_iff.mp hvalue, rfl⟩
  | none =>
    apply lookup_rowOf_eq_none
    intro key hkey heq
    have hsame := hr.fieldIndex_injective (hkeys key hkey) hfield heq
    rw [AList.lookup_eq_none] at hvalue
    rw [← hsame] at hvalue
    contradiction

theorem lookup_rowOf_zero (hr : r.Configured p) {values : GoMap Bytes Bytes}
    (hkeys : ∀ key ∈ values, key ∈ r.fields) (hzero : fieldName 0 ∉ values)
    : (r.rowOf values).lookup 0 = none := by
  apply lookup_rowOf_eq_none
  intro key hkey heq
  rcases hr.mem_fields.mp (hkeys key hkey) with ⟨i, hi, rfl⟩
  rw [hr.fieldIndex i hi] at heq
  have hi0 : i = 0 := by omega
  rw [hi0] at hkey
  contradiction

theorem lookup_select_rowOf (hr : r.Configured p) {values : GoMap Bytes Bytes}
    (hkeys : ∀ key ∈ values, key ∈ r.fields) {fields : List Bytes}
    (hfields : ∀ field ∈ fields, field ∈ r.fields) (field : Bytes)
    : (r.selectFields (r.rowOf values) fields).lookup field
        =
      if field ∈ fields then values.lookup field else none := by
  rw [lookup_selectFields]
  split
  . next hmem => apply lookup_rowOf hr hkeys (hfields field hmem)
  . rfl

theorem lookup_select_all (hr : r.Configured p) {values : GoMap Bytes Bytes}
    (hkeys : ∀ key ∈ values, key ∈ r.fields) (field : Bytes)
    : (r.selectFields (r.rowOf values) r.fields).lookup field = values.lookup field := by
  rw [lookup_select_rowOf hr hkeys (fun _ h => h)]
  split
  . rfl
  . next hmem =>
    symm
    rw [AList.lookup_eq_none]
    exact mt (hkeys field) hmem

end

theorem decode_encode {p : Properties} (hcount : 0 ≤ p.getFieldCount) {values : GoMap Bytes Bytes}
    (hkeys : ∀ key ∈ values, key ∈ (List.range p.getFieldCount.toNat).map fieldName)
    (hlen : ∀ entry ∈ values.entries, entry.2.length < 2 ^ 63) (buf : Bytes) {fields : List Bytes}
    (hfields : ∀ field ∈ fields, field ∈ (List.range p.getFieldCount.toNat).map fieldName)
    : (∃ r row res,
        newRowCodec p = .ret r
          ∧
        r.encode buf values = .ok row
          ∧
        r.decode row fields = .ret (.ok res)
          ∧
        ∀ field,
          res.lookup field = if fields = [] ∨ field ∈ fields then values.lookup field else none)
        ∧
      ∀ cols colIDs,
        cols.length = colIDs.length → (∀ col ∈ cols, col.length < 2 ^ 63) →
        (∀ id ∈ colIDs, I64.InRange id) →
          ∃ row,
            encodeRow cols colIDs buf = .ok row
              ∧
            decodeRow row = .ret (GoMap.insertAll ∅ (colIDs.zip cols), none) := by
  constructor
  . have hnew : ∃ r, newRowCodec p = .ret r := by
      unfold newRowCodec allFields
      rw [if_neg (by omega)]
      exact ⟨_, rfl⟩
    rcases hnew with ⟨r, hr⟩
    have hconf := configured_of_newRowCodec hr
    rw [← hconf.fields] at hkeys hfields
    rcases decode_encode_eq hconf buf hlen with ⟨row, hencode, hall, hdecode⟩
    by_cases hnil : fields = []
    . subst hnil
      refine ⟨r, row, _, hr, hencode, hall, fun field => ?_⟩
      rw [lookup_select_all hconf hkeys]
      simp
    . refine ⟨r, row, _, hr, hencode, hdecode fields hnil, fun field => ?_⟩
      rw [lookup_select_rowOf hconf hkeys hfields]
      simp [hnil]
  . intro cols colIDs hlength hcols hids
    apply decodeRow_encodeRow buf hlength hcols hids

theorem decode_encode_two_of_three
    : ∃ r row res,
        newRowCodec { fieldCount := some ⟨3, by decide⟩ } = .ret r
          ∧
        r.encode [1, 2, 3] (GoMap.insertAll ∅ [(fieldName 0, [97]), (fieldName 2, [])]) = .ok row
          ∧
        r.decode row [fieldName 2, fieldName 1] = .ret (.ok res)
          ∧
        ∀ field,
          res.lookup field
            =
          if [fieldName 2, fieldName 1] = [] ∨ field ∈ [fieldName 2, fieldName 1] then
            (GoMap.insertAll ∅ [(fieldName 0, [97]), (fieldName 2, [])]).lookup field
          else
            none :=
  (decode_encode (p := { fieldCount := some ⟨3, by decide⟩ }) (by decide) (by decide) (by decide)
    [1, 2, 3] (by decide)).1

def Recovers (r : RowCodec) (buf : Bytes) (values : GoMap Bytes Bytes) (fields : List Bytes) : Prop :=
  (∀ row, r.encode buf values = .ok row →
    ∃ res, r.decode row [] = .ret (.ok res) ∧ ∀ field, res.lookup field = values.lookup field)
    ∧
  (∀ row res, r.encode buf values = .ok row → r.decode row fields = .ret (.ok res) →
    ∀ field ∈ fields, field ∉ r.fields →
      ∀ v, res.lookup field = some v → values.lookup field = some v)

theorem recovers_iff {p : Properties} {r : RowCodec} (hr : newRowCodec p = .ret r) (buf : Bytes)
    {values : GoMap Bytes Bytes} (hlen : ∀ entry ∈ values.entries, entry.2.length < 2 ^ 63)
    (fields : List Bytes)
    : r.Recovers buf values fields
        ↔
      (∀ key ∈ values, key ∈ r.fields)
        ∧
      ((∀ field ∈ fields, field ∈ r.fields) ∨ fieldName 0 ∉ values) := by
  have hconf := configured_of_newRowCodec hr
  rcases decode_encode_eq hconf buf hlen with ⟨row, hencode, hall, hdecode⟩
  constructor
  . intro h
    have hkeys : ∀ key ∈ values, key ∈ r.fields := by
      intro key hkey
      rcases h.1 row hencode with ⟨res, hres, hlookup⟩
      rw [hall] at hres
      cases hres
      have hvalue := hlookup key
      rw [lookup_selectFields] at hvalue
      by_contra hnot
      rw [if_neg hnot] at hvalue
      exact AList.lookup_eq_none.mp hvalue.symm hkey
    refine ⟨hkeys, ?_⟩
    by_contra hcon
    simp only [not_or, not_forall, not_not] at hcon
    rcases hcon with ⟨⟨field, hfield, hnot⟩, hzero⟩
    -- the field that is not configured gets the value of `field0`
    rcases Option.isSome_iff_exists.mp (AList.lookup_isSome.mpr hzero) with ⟨v, hv⟩
    have hindex : r.fieldIndex field = r.fieldIndex (fieldName 0) := by
      rw [hconf.fieldIndex_eq_zero field hnot]
      rcases hconf.mem_fields.mp (hkeys _ hzero) with ⟨i, hi, hname⟩
      rw [hname, hconf.fieldIndex i hi, ← fieldName_injective hname]
      rfl
    have hlookup : (r.selectFields (r.rowOf values) fields).lookup field = some v := by
      rw [lookup_selectFields, if_pos hfield, hindex, lookup_rowOf hconf hkeys (hkeys _ hzero), hv]
    have hother := h.2 row _ hencode (hdecode fields (List.ne_nil_of_mem hfield)) field hfield hnot v
      hlookup
    apply hnot
    apply hkeys
    apply AList.lookup_isSome.mp
    rw [hother]
    rfl
  . intro h
    constructor
    . intro row' hrow'
      rw [hencode] at hrow'
      cases hrow'
      exact ⟨_, hall, lookup_select_all hconf h.1⟩
    . intro row' res hrow' hres field hfield hnot v hv
      rw [hencode] at hrow'
      cases hrow'
      rw [hdecode fields (List.ne_nil_of_mem hfield)] at hres
      cases hres
      cases h.2 with
      | inl hfields => exact absurd (hfields field hfield) hnot
      | inr hzero =>
        rw [lookup_selectFields, if_pos hfield, hconf.fieldIndex_eq_zero field hnot] at hv
        rw [lookup_rowOf_zero hconf h.1 hzero] at hv
        contradiction

theorem recovers_iff_without_field0
    : ∃ r,
        newRowCodec { fieldCount := some ⟨2, by decide⟩ } = .ret r
          ∧
        r.Recovers [] (GoMap.insertAll ∅ [(fieldName 1, [97])]) [fieldName 0, fieldName 7] := by
  refine ⟨_, rfl, ?_⟩
  apply (recovers_iff (p := { fieldCount := some ⟨2, by decide⟩ }) rfl [] (by decide) _).mpr
  exact ⟨by decide, .inr (by decide)⟩

theorem unconfigured_taken_for_field0
    : ∃ r row row',
        newRowCodec { fieldCount := some ⟨2, by decide⟩ } = .ret r
          ∧
        r.encode [] (GoMap.insertAll ∅ [(Bytes.ofAscii "x", [97])]) = .ok row
          ∧
        r.decode row [] = .ret (.ok (GoMap.insertAll ∅ [(fieldName 0, [97])]))
          ∧
        r.encode [] (GoMap.insertAll ∅ [(fieldName 0, [97])]) = .ok row'
          ∧
        r.decode row' [Bytes.ofAscii "x"]
          = .ret (.ok (GoMap.insertAll ∅ [(Bytes.ofAscii "x", [97])])) :=
  ⟨_, _, _, rfl, rfl, rfl, rfl, rfl⟩

end RowCodec

end Util
