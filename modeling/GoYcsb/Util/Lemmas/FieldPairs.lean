import GoYcsb.Util.Impl.RowCodec

/-!
This module contains the verification of `NewFieldPairs`: the pairs are those of the map in the order of their
fields, however the loop goes through the map.
-/

namespace Util

variable {order order' : GoMap.Order Bytes Bytes} {values values' : GoMap Bytes Bytes}

theorem perm_newFieldPairs (order : GoMap.Order Bytes Bytes) (values : GoMap Bytes Bytes)
    : (newFieldPairs order values).Perm (values.entries.map (fun entry => ⟨entry.1, entry.2⟩)) := by
  unfold newFieldPairs
  apply (List.perm_insertionSort _ _).trans
  exact (order.perm values).map _

theorem pairwise_newFieldPairs (order : GoMap.Order Bytes Bytes) (values : GoMap Bytes Bytes)
    : (newFieldPairs order values).Pairwise (fun x y => x.field ≤ y.field) := by
  unfold newFieldPairs
  apply List.pairwise_insertionSort

theorem nodup_fields (order : GoMap.Order Bytes Bytes) (values : GoMap Bytes Bytes)
    : ((newFieldPairs order values).map FieldPair.field).Nodup := by
  rw [((perm_newFieldPairs order values).map _).nodup_iff, List.map_map]
  exact values.keys_nodup

theorem mem_newFieldPairs {p : FieldPair}
    : p ∈ newFieldPairs order values ↔ values.lookup p.field = some p.value := by
  rw [(perm_newFieldPairs order values).mem_iff, ← GoMap.mem_map_entries, List.mem_map, List.mem_map]
  constructor
  . rintro ⟨entry, hentry, rfl⟩
    exact ⟨entry, hentry, rfl⟩
  . rintro ⟨entry, hentry, heq⟩
    refine ⟨entry, hentry, ?_⟩
    cases p
    cases heq
    rfl

theorem newFieldPairs_eq (order order' : GoMap.Order Bytes Bytes) (values : GoMap Bytes Bytes)
    : newFieldPairs order values = newFieldPairs order' values := by
  refine List.Perm.eq_of_pairwise ?_ (pairwise_newFieldPairs order values) (pairwise_newFieldPairs order' values)
    ((perm_newFieldPairs order values).trans (perm_newFieldPairs order' values).symm)
  intro p p' hp hp' hle hge
  have hfield : p.field = p'.field := Std.le_antisymm hle hge
  rw [mem_newFieldPairs] at hp hp'
  rw [hfield, hp'] at hp
  cases p
  cases p'
  simp_all

theorem length_newFieldPairs (order : GoMap.Order Bytes Bytes) (values : GoMap Bytes Bytes)
    : (newFieldPairs order values).length = values.keys.length := by
  rw [(perm_newFieldPairs order values).length_eq, List.length_map, AList.keys, List.keys, List.length_map]

theorem mem_fields {field : Bytes}
    : field ∈ (newFieldPairs order values).map FieldPair.field ↔ field ∈ values := by
  rw [((perm_newFieldPairs order values).map _).mem_iff, List.map_map, AList.mem_keys]
  rfl

theorem fields_eq (order order' : GoMap.Order Bytes Bytes) (h : ∀ field, field ∈ values ↔ field ∈ values')
    : (newFieldPairs order values).map FieldPair.field = (newFieldPairs order' values').map FieldPair.field := by
  refine List.Perm.eq_of_pairwise (fun x y _ _ hle hge => Std.le_antisymm hle hge)
    (List.pairwise_map.mpr (pairwise_newFieldPairs order values))
    (List.pairwise_map.mpr (pairwise_newFieldPairs order' values')) ?_
  rw [List.perm_ext_iff_of_nodup (nodup_fields order values) (nodup_fields order' values')]
  intro field
  rw [mem_fields, mem_fields, h]

theorem lookup_insertAll_newFieldPairs (order : GoMap.Order Bytes Bytes) (values : GoMap Bytes Bytes) (field : Bytes)
    : (GoMap.insertAll ∅
        (((newFieldPairs order values).map FieldPair.field).zip
          ((newFieldPairs order values).map FieldPair.value))).lookup field
        =
      values.lookup field := by
  rw [List.zip_map']
  cases hvalue : values.lookup field with
  | some value =>
    apply GoMap.lookup_insertAll_of_mem
    . rw [List.map_map]
      exact nodup_fields order values
    . rw [List.mem_map]
      exact ⟨⟨field, value⟩, mem_newFieldPairs.mpr hvalue, rfl⟩
  | none =>
    rw [GoMap.lookup_insertAll_of_not_mem]
    . rfl
    . intro value hmem
      rcases List.mem_map.mp hmem with ⟨p, hp, heq⟩
      cases heq
      rw [mem_newFieldPairs, hvalue] at hp
      contradiction

end Util
