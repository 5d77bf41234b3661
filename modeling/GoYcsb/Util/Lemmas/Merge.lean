import GoYcsb.Util.Lemmas.Columns

/-!
This module contains what a field can hold after a row was decoded, merged with new values and encoded
again, any number of times. Field names that are not configured share the column of the first field,
and which one of them gets it depends on the order in which the loop goes through the map.
-/

namespace Util

namespace RowCodec

def stored (r : RowCodec) (values : GoMap Bytes Bytes) (c : Int) : List Bytes :=
  (values.entries.filter (fun entry => r.fieldIndex entry.1 = c)).map (fun entry => entry.2)

-- The values that `field` can be left with, where `old` are those it can have before.
def leftBy (r : RowCodec) (field : Bytes) (old : List Bytes) (updates : List (GoMap Bytes Bytes))
    : List Bytes :=
  updates.foldl (fun old values =>
    r.stored values (r.fieldIndex field) ++ if field ∈ values then [] else old) old

inductive Merges (r : RowCodec) (P : GoMap.Order Bytes Bytes → Prop)
    : Columns → List (GoMap Bytes Bytes) → Columns → Prop where
  | nil {columns : Columns} : Merges r P columns [] columns
  | cons {columns columns' : Columns} {data values : GoMap Bytes Bytes}
      {updates : List (GoMap Bytes Bytes)} {order : GoMap.Order Bytes Bytes} :
      P order → r.Decoded columns data →
      Merges r P (r.columnsOf (order.visit (data.merge values))) updates columns' →
      Merges r P columns (values :: updates) columns'

section

variable {p : Properties} {r : RowCodec} {P : GoMap.Order Bytes Bytes → Prop} {columns columns' : Columns}
  {data values : GoMap Bytes Bytes} {updates : List (GoMap Bytes Bytes)} {field x : Bytes}
  {old : List Bytes} {c : Int}

theorem mem_stored : x ∈ r.stored values c ↔ ∃ key, values.lookup key = some x ∧ r.fieldIndex key = c := by
  unfold stored
  rw [List.mem_map]
  constructor
  . rintro ⟨⟨key, v⟩, hentry, rfl⟩
    rw [List.mem_filter, decide_eq_true_eq] at hentry
    exact ⟨key, AList.mem_lookup_iff.mpr hentry.1, hentry.2⟩
  . rintro ⟨key, hlookup, hindex⟩
    refine ⟨⟨key, x⟩, ?_, rfl⟩
    rw [List.mem_filter, decide_eq_true_eq]
    exact ⟨AList.mem_lookup_iff.mp hlookup, hindex⟩

theorem mem_stored_visit (order : GoMap.Order Bytes Bytes)
    : x ∈ r.stored (order.visit values) c ↔ x ∈ r.stored values c := by
  simp only [mem_stored, order.lookup_visit]

theorem mem_stored_of_columnsOf (h : r.columnsOf values c = some x) : x ∈ r.stored values c := by
  rcases exists_of_columnsOf h with ⟨key, hentry, hindex⟩
  exact mem_stored.mpr ⟨key, AList.mem_lookup_iff.mpr hentry, hindex⟩

theorem columnsOf_ne_none (h : x ∈ r.stored values c) : r.columnsOf values c ≠ none := by
  rcases mem_stored.mp h with ⟨key, hlookup, hindex⟩
  unfold columnsOf rowOf
  rw [ne_eq, AList.lookup_eq_none, not_not, GoMap.mem_insertAll, List.map_map]
  right
  exact List.mem_map.mpr ⟨⟨key, x⟩, AList.mem_lookup_iff.mp hlookup, hindex⟩

theorem mem_stored_merge (hr : r.Configured p) (hdata : r.Decoded columns data) (hfield : field ∈ r.fields)
    : x ∈ r.stored (data.merge values) (r.fieldIndex field)
        ↔
      x ∈ r.stored values (r.fieldIndex field)
        ∨
      (field ∉ values ∧ columns (r.fieldIndex field) = some x) := by
  simp only [mem_stored, GoMap.lookup_merge, Option.or_eq_some_iff]
  constructor
  . rintro ⟨key, hlookup | ⟨hnone, hlookup⟩, hindex⟩
    . left
      exact ⟨key, hlookup, hindex⟩
    . right
      have hkey : key ∈ r.fields := by
        apply hdata.mem_fields
        rw [← AList.lookup_isSome, hlookup]
        rfl
      have hsame := hr.fieldIndex_injective hkey hfield hindex
      subst hsame
      rw [hdata.lookup, if_pos hkey] at hlookup
      exact ⟨AList.lookup_eq_none.mp hnone, hlookup⟩
  . rintro (⟨key, hlookup, hindex⟩ | ⟨hnot, hcolumns⟩)
    . exact ⟨key, .inl hlookup, hindex⟩
    . refine ⟨field, .inr ⟨AList.lookup_eq_none.mpr hnot, ?_⟩, rfl⟩
      rw [hdata.lookup, if_pos hfield, hcolumns]

theorem leftBy_cons
    : r.leftBy field old (values :: updates)
        =
      r.leftBy field (r.stored values (r.fieldIndex field) ++ if field ∈ values then [] else old)
        updates := rfl

theorem mem_leftBy
    : x ∈ r.leftBy field old updates
        ↔
      x ∈ r.leftBy field [] updates ∨ (x ∈ old ∧ ∀ values ∈ updates, field ∉ values) := by
  induction updates generalizing old with
  | nil => simp [leftBy]
  | cons values updates ih =>
    rw [leftBy_cons, leftBy_cons, ih, List.forall_mem_cons]
    rw [@ih (r.stored values (r.fieldIndex field) ++ if field ∈ values then [] else [])]
    by_cases hfield : field ∈ values
    . simp [hfield]
    . simp only [hfield, if_false, List.mem_append, List.not_mem_nil, or_false, not_false_eq_true,
        true_and]
      tauto

theorem mem_step (hr : r.Configured p) (hdata : r.Decoded columns data) (hfield : field ∈ r.fields)
    (order : GoMap.Order Bytes Bytes)
    : x ∈ r.stored (order.visit (data.merge values)) (r.fieldIndex field)
        ↔
      x ∈ r.stored values (r.fieldIndex field)
        ++ if field ∈ values then [] else (columns (r.fieldIndex field)).toList := by
  rw [mem_stored_visit, mem_stored_merge hr hdata hfield, List.mem_append]
  by_cases hmem : field ∈ values
  . simp [hmem]
  . simp [hmem]

theorem Merges.mono {Q : GoMap.Order Bytes Bytes → Prop} (h : r.Merges P columns updates columns')
    (hPQ : ∀ order, P order → Q order)
    : r.Merges Q columns updates columns' := by
  induction h with
  | nil => exact .nil
  | cons horder hdata _ ih => exact .cons (hPQ _ horder) hdata ih

theorem Merges.mem_leftBy (hr : r.Configured p) (h : r.Merges P columns updates columns')
    (hfield : field ∈ r.fields) (hx : columns' (r.fieldIndex field) = some x)
    : x ∈ r.leftBy field (columns (r.fieldIndex field)).toList updates := by
  induction h with
  | nil => simp [leftBy, hx]
  | cons _ hdata _ ih =>
    rw [leftBy_cons, RowCodec.mem_leftBy]
    cases RowCodec.mem_leftBy.mp (ih hx) with
    | inl hmem => exact .inl hmem
    | inr hmem =>
      right
      refine ⟨?_, hmem.2⟩
      rw [← mem_step hr hdata hfield]
      apply mem_stored_of_columnsOf
      simpa using hmem.1

theorem Merges.ne_none (hr : r.Configured p) (h : r.Merges P columns updates columns')
    (hfield : field ∈ r.fields)
    (hleft : r.leftBy field (columns (r.fieldIndex field)).toList updates ≠ [])
    : columns' (r.fieldIndex field) ≠ none := by
  induction h with
  | nil =>
    rw [leftBy, List.foldl_nil, ne_eq, Option.toList_eq_nil_iff] at hleft
    exact hleft
  | @cons _ _ _ _ _ order _ hdata _ ih =>
    apply ih
    rcases List.exists_mem_of_ne_nil _ hleft with ⟨x, hx⟩
    rw [leftBy_cons, RowCodec.mem_leftBy] at hx
    cases hx with
    | inl hmem =>
      apply List.ne_nil_of_mem (a := x)
      exact RowCodec.mem_leftBy.mpr (.inl hmem)
    | inr hmem =>
      rw [← mem_step hr hdata hfield order] at hmem
      rcases Option.ne_none_iff_exists'.mp (columnsOf_ne_none hmem.1) with ⟨y, hy⟩
      apply List.ne_nil_of_mem (a := y)
      exact RowCodec.mem_leftBy.mpr (.inr ⟨by simp [hy], hmem.2⟩)

def favour (r : RowCodec) (c : Int) (x : Bytes) : GoMap.Order Bytes Bytes :=
  .last (fun entry => r.fieldIndex entry.1 = c ∧ entry.2 = x)

theorem columnsOf_favour (h : x ∈ r.stored values c)
    : r.columnsOf ((r.favour c x).visit values) c = some x := by
  rcases mem_stored.mp h with ⟨key, hlookup, hindex⟩
  have hexists : ∃ entry ∈ values.entries,
      decide (r.fieldIndex entry.1 = c ∧ entry.2 = x) = true :=
    ⟨⟨key, x⟩, AList.mem_lookup_iff.mp hlookup, decide_eq_true ⟨hindex, rfl⟩⟩
  rcases GoMap.Order.visit_last hexists with ⟨init, entry, hentries, hentry⟩
  rw [decide_eq_true_eq] at hentry
  unfold columnsOf rowOf favour
  rw [hentries, List.map_append, List.map_singleton, GoMap.insertAll_concat, hentry.1, hentry.2]
  apply AList.lookup_insert

theorem Merges.favoured (hr : r.Configured p) (hfield : field ∈ r.fields)
    (h : r.Merges (fun order => order = r.favour (r.fieldIndex field) x) columns updates columns')
    (hx : x ∈ r.leftBy field (columns (r.fieldIndex field)).toList updates)
    : columns' (r.fieldIndex field) = some x := by
  induction h with
  | nil => simpa [leftBy] using hx
  | cons horder hdata _ ih =>
    subst horder
    apply ih
    rw [leftBy_cons, RowCodec.mem_leftBy] at hx
    rw [RowCodec.mem_leftBy]
    cases hx with
    | inl hmem => exact .inl hmem
    | inr hmem =>
      right
      rw [← mem_step hr hdata hfield (r.favour (r.fieldIndex field) x), mem_stored_visit] at hmem
      refine ⟨?_, hmem.2⟩
      rw [columnsOf_favour hmem.1]
      simp

end

end RowCodec

end Util
