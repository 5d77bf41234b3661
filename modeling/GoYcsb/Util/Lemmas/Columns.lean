import GoYcsb.Util.Lemmas.RowCodec

/-!
This module contains the meaning of a stored row, which is the value of each of its columns, and what
decoding and encoding do to it.
-/

namespace Util

abbrev Columns := Int → Option Bytes

structure Holds (row : Bytes) (columns : Columns) : Prop where
  data : ∃ data, decodeRow row = .ret (data, none) ∧ ∀ c, data.lookup c = columns c
  length : ∀ c v, columns c = some v → v.length < 2 ^ 63

theorem holds_nil : Holds [] (fun _ => none) where
  data := ⟨∅, rfl, fun _ => rfl⟩
  length := by simp

theorem Holds.unique {row : Bytes} {columns columns' : Columns} (h : Holds row columns)
    (h' : Holds row columns')
    : columns = columns' := by
  rcases h.data with ⟨data, hdata, hcolumns⟩
  rcases h'.data with ⟨data', hdata', hcolumns'⟩
  rw [hdata] at hdata'
  cases hdata'
  funext c
  rw [← hcolumns, hcolumns']

namespace RowCodec

def requested (r : RowCodec) (fields : List Bytes) : List Bytes :=
  if fields.length = 0 then r.fields else fields

def columnsOf (r : RowCodec) (values : GoMap Bytes Bytes) : Columns :=
  fun c => (r.rowOf values).lookup c

def overlay (r : RowCodec) (columns : Columns) (values : GoMap Bytes Bytes) : Columns :=
  fun c => (r.columnsOf values c).or (columns c)

structure Accepts (r : RowCodec) (values : GoMap Bytes Bytes) : Prop where
  names : ∀ key ∈ values, key ∈ r.fields
  length : ∀ entry ∈ values.entries, entry.2.length < 2 ^ 63

structure Stores (r : RowCodec) (row : Bytes) (columns : Columns) : Prop extends Holds row columns where
  nonempty : row ≠ []
  configured : ∀ c v, columns c = some v → ∃ field ∈ r.fields, r.fieldIndex field = c

structure Decoded (r : RowCodec) (columns : Columns) (data : GoMap Bytes Bytes) : Prop where
  lookup : ∀ field, data.lookup field = if field ∈ r.fields then columns (r.fieldIndex field) else none

end RowCodec

theorem Holds.decode {row : Bytes} {columns : Columns} (h : Holds row columns) (r : RowCodec)
    (fields : List Bytes)
    : ∃ values,
        r.decode row fields = .ret (.ok values)
          ∧
        ∀ field,
          values.lookup field
            =
          if field ∈ r.requested fields then columns (r.fieldIndex field) else none := by
  rcases h.data with ⟨data, hdata, hcolumns⟩
  refine ⟨r.selectFields data (r.requested fields), ?_, ?_⟩
  . unfold RowCodec.decode
    rw [hdata]
    rfl
  . intro field
    rw [RowCodec.lookup_selectFields, hcolumns]

theorem Holds.decode_nil {row : Bytes} {columns : Columns} (h : Holds row columns) (r : RowCodec)
    : ∃ data, r.decode row [] = .ret (.ok data) ∧ r.Decoded columns data := by
  rcases h.decode r [] with ⟨data, hdecode, hlookup⟩
  exact ⟨data, hdecode, ⟨hlookup⟩⟩

namespace RowCodec

section

variable {p : Properties} {r : RowCodec} {columns : Columns} {data values : GoMap Bytes Bytes}

theorem exists_of_columnsOf {c : Int} {v : Bytes} (h : r.columnsOf values c = some v)
    : ∃ field, ⟨field, v⟩ ∈ values.entries ∧ r.fieldIndex field = c := by
  cases GoMap.mem_of_lookup_insertAll h with
  | inl hmem =>
    rcases List.mem_map.mp hmem with ⟨⟨field, v'⟩, hentry, heq⟩
    simp only [Prod.mk.injEq] at heq
    rw [heq.2] at hentry
    exact ⟨field, hentry, heq.1⟩
  | inr hempty => simp at hempty

theorem encode_holds (hr : r.Configured p) (buf : Bytes)
    (hlen : ∀ entry ∈ values.entries, entry.2.length < 2 ^ 63)
    : ∃ row, r.encode buf values = .ok row ∧ row ≠ [] ∧ Holds row (r.columnsOf values) := by
  rcases decodeRow_encode hr buf hlen with ⟨row, hencode, hdecode⟩
  refine ⟨row, hencode, encodeRow_ne_nil hencode, ⟨_, hdecode, fun _ => rfl⟩, ?_⟩
  intro c v hv
  rcases exists_of_columnsOf hv with ⟨field, hentry, _⟩
  apply hlen _ hentry

theorem columnsOf_eq_some_iff (hr : r.Configured p) (hnames : ∀ key ∈ values, key ∈ r.fields)
    {c : Int} {v : Bytes}
    : r.columnsOf values c = some v
        ↔
      ∃ field ∈ r.fields, r.fieldIndex field = c ∧ values.lookup field = some v := by
  constructor
  . intro h
    rcases exists_of_columnsOf h with ⟨field, hentry, hindex⟩
    have hkey : field ∈ values := AList.mem_keys.mpr (List.mem_keys_of_mem hentry)
    exact ⟨field, hnames field hkey, hindex, AList.mem_lookup_iff.mpr hentry⟩
  . rintro ⟨field, hfield, rfl, hlookup⟩
    unfold columnsOf
    rw [lookup_rowOf hr hnames hfield, hlookup]

theorem configured_of_columnsOf (hr : r.Configured p) (hnames : ∀ key ∈ values, key ∈ r.fields)
    {c : Int} {v : Bytes} (h : r.columnsOf values c = some v)
    : ∃ field ∈ r.fields, r.fieldIndex field = c := by
  rcases (columnsOf_eq_some_iff hr hnames).mp h with ⟨field, hfield, hindex, _⟩
  exact ⟨field, hfield, hindex⟩

theorem columnsOf_visit (hr : r.Configured p) (hnames : ∀ key ∈ values, key ∈ r.fields)
    (order : GoMap.Order Bytes Bytes)
    : r.columnsOf (order.visit values) = r.columnsOf values := by
  have hvisit : ∀ key ∈ order.visit values, key ∈ r.fields := by
    intro key hkey
    rw [order.mem_visit] at hkey
    apply hnames key hkey
  funext c
  apply Option.ext
  intro v
  rw [columnsOf_eq_some_iff hr hnames, columnsOf_eq_some_iff hr hvisit]
  simp only [order.lookup_visit]

namespace Decoded

theorem mem_fields (h : r.Decoded columns data) {key : Bytes} (hkey : key ∈ data) : key ∈ r.fields := by
  by_contra hnot
  have hlookup := h.lookup key
  rw [if_neg hnot, AList.lookup_eq_none] at hlookup
  contradiction

theorem length (h : r.Decoded columns data) (hlen : ∀ c v, columns c = some v → v.length < 2 ^ 63)
    : ∀ entry ∈ data.entries, entry.2.length < 2 ^ 63 := by
  rintro ⟨field, v⟩ hentry
  have hlookup := h.lookup field
  rw [AList.mem_lookup_iff.mpr hentry] at hlookup
  split at hlookup
  . apply hlen _ _ hlookup.symm
  . contradiction

end Decoded

theorem names_merge (hdata : r.Decoded columns data) (hnames : ∀ key ∈ values, key ∈ r.fields)
    : ∀ key ∈ data.merge values, key ∈ r.fields := by
  intro key hkey
  cases GoMap.mem_merge.mp hkey with
  | inl hkey => apply hdata.mem_fields hkey
  | inr hkey => apply hnames key hkey

theorem length_merge (hdata : ∀ entry ∈ data.entries, entry.2.length < 2 ^ 63)
    (hvalues : ∀ entry ∈ values.entries, entry.2.length < 2 ^ 63)
    : ∀ entry ∈ (data.merge values).entries, entry.2.length < 2 ^ 63 := by
  rintro ⟨field, v⟩ hentry
  have hlookup : (data.merge values).lookup field = some v := AList.mem_lookup_iff.mpr hentry
  rw [GoMap.lookup_merge, Option.or_eq_some_iff] at hlookup
  cases hlookup with
  | inl hlookup => exact hvalues _ (AList.mem_lookup_iff.mp hlookup)
  | inr hlookup => exact hdata _ (AList.mem_lookup_iff.mp hlookup.2)

theorem columnsOf_merge (hr : r.Configured p) (hdata : r.Decoded columns data)
    (hcolumns : ∀ c v, columns c = some v → ∃ field ∈ r.fields, r.fieldIndex field = c)
    (hnames : ∀ key ∈ values, key ∈ r.fields)
    : r.columnsOf (data.merge values) = r.overlay columns values := by
  have hmerged := names_merge hdata hnames
  funext c
  by_cases hc : ∃ field ∈ r.fields, r.fieldIndex field = c
  . rcases hc with ⟨field, hfield, rfl⟩
    unfold overlay columnsOf
    rw [lookup_rowOf hr hmerged hfield, lookup_rowOf hr hnames hfield]
    rw [GoMap.lookup_merge, hdata.lookup, if_pos hfield]
  . have hnone : ∀ columns : Columns,
        (∀ v, columns c = some v → ∃ field ∈ r.fields, r.fieldIndex field = c) → columns c = none := by
      intro columns hsome
      rw [Option.eq_none_iff_forall_ne_some]
      intro v hv
      apply hc
      apply hsome v hv
    unfold overlay
    rw [hnone columns (hcolumns c)]
    rw [hnone (r.columnsOf values) (fun v => configured_of_columnsOf hr hnames)]
    rw [hnone (r.columnsOf (data.merge values)) (fun v => configured_of_columnsOf hr hmerged)]
    rfl

theorem Accepts.encode (hr : r.Configured p) (hvalues : r.Accepts values)
    (order : GoMap.Order Bytes Bytes)
    : ∃ row, r.encode [] (order.visit values) = .ok row ∧ r.Stores row (r.columnsOf values) := by
  have hlen : ∀ entry ∈ (order.visit values).entries, entry.2.length < 2 ^ 63 := by
    intro entry hentry
    rw [order.mem_entries_visit] at hentry
    apply hvalues.length entry hentry
  rcases encode_holds hr [] hlen with ⟨row, hencode, hnonempty, hholds⟩
  rw [columnsOf_visit hr hvalues.names] at hholds
  exact ⟨row, hencode, hholds, hnonempty, fun c v => configured_of_columnsOf hr hvalues.names⟩

theorem Accepts.merge (hdata : r.Decoded columns data)
    (hlen : ∀ c v, columns c = some v → v.length < 2 ^ 63) (hvalues : r.Accepts values)
    : r.Accepts (data.merge values) where
  names := names_merge hdata hvalues.names
  length := length_merge (hdata.length hlen) hvalues.length

theorem encode_merge_holds (hr : r.Configured p) (hdata : r.Decoded columns data)
    (hcolumns : ∀ c v, columns c = some v → v.length < 2 ^ 63)
    (hvalues : ∀ entry ∈ values.entries, entry.2.length < 2 ^ 63) (order : GoMap.Order Bytes Bytes)
    : ∃ row,
        r.encode [] (order.visit (data.merge values)) = .ok row
          ∧
        row ≠ []
          ∧
        Holds row (r.columnsOf (order.visit (data.merge values))) := by
  apply encode_holds hr
  intro entry hentry
  rw [order.mem_entries_visit] at hentry
  apply length_merge (hdata.length hcolumns) hvalues entry hentry

theorem encode_merge (hr : r.Configured p) (hdata : r.Decoded columns data)
    (hlen : ∀ c v, columns c = some v → v.length < 2 ^ 63)
    (hcolumns : ∀ c v, columns c = some v → ∃ field ∈ r.fields, r.fieldIndex field = c)
    (hvalues : r.Accepts values) (order : GoMap.Order Bytes Bytes)
    : ∃ row,
        r.encode [] (order.visit (data.merge values)) = .ok row
          ∧
        r.Stores row (r.overlay columns values) := by
  rw [← columnsOf_merge hr hdata hcolumns hvalues.names]
  apply (hvalues.merge hdata hlen).encode hr

end

end RowCodec

end Util
