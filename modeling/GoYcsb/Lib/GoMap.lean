import Mathlib.Data.List.AList
import Mathlib.Data.List.Induction

/-!
This module contains Go's maps: association lists without duplicate keys, the order of the entries
being the one in which Go happens to iterate over them.
-/

abbrev GoMap (K : Type u) (V : Type v) := AList (fun _ : K => V)

namespace GoMap

variable {K : Type u} {V : Type v} [DecidableEq K]

-- `m[k]`, which is the zero value of the type for a key that is not there.
def get (m : GoMap K V) (k : K) (zero : V) : V := (m.lookup k).getD zero

def insertAll (m : GoMap K V) (entries : List (K × V)) : GoMap K V :=
  entries.foldl (fun m entry => m.insert entry.1 entry.2) m

theorem insertAll_cons (m : GoMap K V) (entry : K × V) (entries : List (K × V))
    : insertAll m (entry :: entries) = insertAll (m.insert entry.1 entry.2) entries := rfl

theorem lookup_insert (m : GoMap K V) (k k' : K) (v : V)
    : (m.insert k' v).lookup k = if k = k' then some v else m.lookup k := by
  split
  . next heq =>
    subst heq
    apply AList.lookup_insert
  . next hne => apply AList.lookup_insert_ne hne

theorem lookup_insertAll_of_not_mem {m : GoMap K V} {entries : List (K × V)} {k : K}
    (h : ∀ v, (k, v) ∉ entries)
    : (m.insertAll entries).lookup k = m.lookup k := by
  induction entries generalizing m with
  | nil => rfl
  | cons entry entries ih =>
    have hne : k ≠ entry.1 := by
      intro heq
      apply h entry.2
      simp [heq]
    have hrest : ∀ v, (k, v) ∉ entries := by
      intro v hv
      apply h v
      simp [hv]
    rw [insertAll_cons, ih hrest, lookup_insert, if_neg hne]

theorem lookup_insertAll_of_mem {m : GoMap K V} {entries : List (K × V)} {k : K} {v : V}
    (hnodup : (entries.map Prod.fst).Nodup) (h : (k, v) ∈ entries)
    : (m.insertAll entries).lookup k = some v := by
  induction entries generalizing m with
  | nil => simp at h
  | cons entry entries ih =>
    rw [List.map_cons, List.nodup_cons] at hnodup
    rw [insertAll_cons]
    cases List.mem_cons.mp h with
    | inl heq =>
      subst heq
      rw [lookup_insertAll_of_not_mem, lookup_insert, if_pos rfl]
      intro v' hv'
      apply hnodup.1
      exact List.mem_map.mpr ⟨_, hv', rfl⟩
    | inr hmem => apply ih hnodup.2 hmem

theorem insertAll_concat (m : GoMap K V) (entries : List (K × V)) (k : K) (v : V)
    : m.insertAll (entries ++ [(k, v)]) = (m.insertAll entries).insert k v := by
  unfold insertAll
  rw [List.foldl_concat]

theorem mem_insertAll {m : GoMap K V} {entries : List (K × V)} {k : K}
    : k ∈ m.insertAll entries ↔ k ∈ m ∨ k ∈ entries.map Prod.fst := by
  induction entries generalizing m with
  | nil => simp [insertAll]
  | cons entry entries ih =>
    rw [insertAll_cons, ih, AList.mem_insert, List.map_cons, List.mem_cons]
    tauto

theorem mem_of_lookup_insertAll {m : GoMap K V} {entries : List (K × V)} {k : K} {v : V}
    (h : (m.insertAll entries).lookup k = some v)
    : (k, v) ∈ entries ∨ m.lookup k = some v := by
  induction entries generalizing m with
  | nil =>
    right
    exact h
  | cons entry entries ih =>
    rw [insertAll_cons] at h
    cases ih h with
    | inl hmem =>
      left
      exact List.mem_cons_of_mem _ hmem
    | inr hlookup =>
      rw [lookup_insert] at hlookup
      split at hlookup
      . next heq =>
        left
        simp only [Option.some.injEq] at hlookup
        rw [heq, ← hlookup]
        exact List.mem_cons_self
      . right
        exact hlookup

theorem lookup_insertAll_eq (m : GoMap K V) (entries : List (K × V)) (k : K)
    : (m.insertAll entries).lookup k = ((insertAll ∅ entries).lookup k).or (m.lookup k) := by
  induction entries using List.reverseRecOn with
  | nil => simp [insertAll]
  | append_singleton entries entry ih =>
    rw [insertAll_concat, insertAll_concat, lookup_insert, lookup_insert, ih]
    split
    . rfl
    . rfl

theorem lookup_insertAll (m : GoMap K V) (entries : List (K × V)) (k : K)
    : (m.insertAll entries).lookup k
        =
      ((entries.reverse.find? (fun entry => entry.1 = k)).map Prod.snd).or (m.lookup k) := by
  induction entries using List.reverseRecOn with
  | nil => simp [insertAll]
  | append_singleton entries entry ih =>
    rw [insertAll_concat, lookup_insert, ih, List.reverse_concat, List.find?_cons]
    by_cases heq : k = entry.1
    . simp [heq]
    . simp [heq, Ne.symm heq]

theorem lookup_insertAll_map_filter {l : List α} {f : α → K × V} {q : α → Bool} {k : K} (m : GoMap K V)
    (h : ∀ a ∈ l, (f a).1 = k → q a)
    : (m.insertAll ((l.filter q).map f)).lookup k = (m.insertAll (l.map f)).lookup k := by
  induction l using List.reverseRecOn with
  | nil => rfl
  | append_singleton l a ih =>
    have hrest := ih (fun b hb => h b (List.mem_append_left _ hb))
    rw [List.filter_append, List.map_append, List.map_append, List.map_singleton, insertAll_concat, lookup_insert]
    cases hq : q a with
    | true => rw [List.filter_singleton, hq, cond_true, List.map_singleton, insertAll_concat, lookup_insert, hrest]
    | false =>
      have hne : k ≠ (f a).1 := by
        intro heq
        have hkeep := h a (List.mem_append_right _ (List.mem_singleton_self a)) heq.symm
        rw [hq] at hkeep
        contradiction
      rw [List.filter_singleton, hq, cond_false, List.map_nil, List.append_nil, hrest, if_neg hne]

theorem insertAll_eq_empty_iff {entries : List (K × V)}
    : (insertAll ∅ entries).keys.length = 0 ↔ entries = [] := by
  rw [List.length_eq_zero_iff]
  constructor
  . intro hnil
    cases entries with
    | nil => rfl
    | cons entry entries =>
      have hmem : entry.1 ∈ insertAll ∅ (entry :: entries) := by
        rw [mem_insertAll]
        simp
      rw [AList.mem_keys, hnil] at hmem
      contradiction
  . rintro rfl
    rfl

theorem mem_map_entries {m : GoMap K V} {k : K} {v : V}
    : (k, v) ∈ m.entries.map (fun entry => (entry.1, entry.2)) ↔ m.lookup k = some v := by
  rw [← Option.mem_def, AList.mem_lookup_iff, List.mem_map]
  constructor
  . rintro ⟨⟨k', v'⟩, hentry, heq⟩
    cases heq
    exact hentry
  . intro hentry
    exact ⟨⟨k, v⟩, hentry, rfl⟩

theorem length_keys_insertAll_le (m : GoMap K V) (entries : List (K × V))
    : (m.insertAll entries).keys.length ≤ m.keys.length + entries.length := by
  induction entries generalizing m with
  | nil => simp [insertAll]
  | cons entry entries ih =>
    have hrest := ih (m.insert entry.1 entry.2)
    have herase := List.length_erase_le (a := entry.1) (l := m.keys)
    rw [AList.keys_insert, List.length_cons] at hrest
    rw [insertAll_cons, List.length_cons]
    omega

theorem entries_insertAll_perm {m : GoMap K V} {entries : List (K × V)}
    (hnodup : (entries.map Prod.fst).Nodup) (hnew : ∀ entry ∈ entries, entry.1 ∉ m)
    : ((m.insertAll entries).entries.map (fun entry => (entry.1, entry.2))).Perm
        (entries ++ m.entries.map (fun entry => (entry.1, entry.2))) := by
  induction entries generalizing m with
  | nil => simp [insertAll]
  | cons entry entries ih =>
    rw [List.map_cons, List.nodup_cons] at hnodup
    rw [List.forall_mem_cons] at hnew
    have hnew' : ∀ entry' ∈ entries, entry'.1 ∉ m.insert entry.1 entry.2 := by
      intro entry' hmem
      rw [AList.mem_insert, not_or]
      constructor
      . intro heq
        apply hnodup.1
        rw [← heq]
        apply List.mem_map_of_mem hmem
      . apply hnew.2 entry' hmem
    rw [insertAll_cons]
    apply (ih hnodup.2 hnew').trans
    rw [AList.entries_insert_of_notMem hnew.1, List.map_cons]
    apply List.perm_middle

theorem flatMap_dlookup {entries : List (Sigma (fun _ : K => V))} (hnodup : entries.NodupKeys) (k : K)
    (f : V → List β)
    : entries.flatMap (fun entry => if entry.1 = k then f entry.2 else [])
        =
      ((List.dlookup k entries).map f).getD [] := by
  induction entries with
  | nil => simp
  | cons entry entries ih =>
    rw [List.nodupKeys_cons] at hnodup
    rw [List.flatMap_cons, ih hnodup.2]
    split
    . next heq =>
      subst heq
      have hnone : List.dlookup entry.1 entries = none := List.dlookup_eq_none.mpr hnodup.1
      have hsome : List.dlookup entry.1 (entry :: entries) = some entry.2 := List.dlookup_cons_eq _ _ _
      simp [hnone, hsome]
    . next hne =>
      rw [List.dlookup_cons_ne]
      . simp
      . intro heq
        apply hne heq.symm

theorem flatMap_entries (m : GoMap K V) (k : K) (f : V → List β)
    : m.entries.flatMap (fun entry => if entry.1 = k then f entry.2 else [])
        =
      ((m.lookup k).map f).getD [] :=
  flatMap_dlookup m.nodupKeys k f

def merge (m values : GoMap K V) : GoMap K V :=
  m.insertAll (values.entries.map (fun entry => (entry.1, entry.2)))

theorem lookup_merge (m values : GoMap K V) (k : K)
    : (m.merge values).lookup k = (values.lookup k).or (m.lookup k) := by
  unfold merge
  cases hvalue : values.lookup k with
  | some v =>
    rw [lookup_insertAll_of_mem (v := v)]
    . rfl
    . rw [List.map_map]
      exact values.keys_nodup
    . exact List.mem_map.mpr ⟨⟨k, v⟩, AList.mem_lookup_iff.mp hvalue, rfl⟩
  | none =>
    rw [lookup_insertAll_of_not_mem]
    . rfl
    . intro v hv
      rcases List.mem_map.mp hv with ⟨⟨k', v'⟩, hentry, heq⟩
      simp only [Prod.mk.injEq] at heq
      rw [AList.lookup_eq_none] at hvalue
      apply hvalue
      rw [← heq.1]
      exact AList.mem_keys.mpr (List.mem_keys_of_mem hentry)

def mapValues (f : V → V) (m : GoMap K V) : GoMap K V where
  entries := m.entries.map (Sigma.map id (fun _ => f))
  nodupKeys := List.NodupKeys.map₂ (fun _ => f) m.entries m.nodupKeys

theorem lookup_mapValues (f : V → V) (m : GoMap K V) (k : K)
    : (m.mapValues f).lookup k = (m.lookup k).map f := by
  exact List.dlookup_map₂ (f := fun _ => f) k

def eraseAll (m : GoMap K V) (keys : List K) : GoMap K V := keys.foldl (fun m k => m.erase k) m

theorem lookup_eraseAll (m : GoMap K V) (keys : List K) (k : K)
    : (m.eraseAll keys).lookup k = if k ∈ keys then none else m.lookup k := by
  induction keys generalizing m with
  | nil => simp [eraseAll]
  | cons key keys ih =>
    have hcons : m.eraseAll (key :: keys) = eraseAll (m.erase key) keys := rfl
    rw [hcons, ih]
    by_cases heq : k = key
    . subst heq
      simp
    . simp [heq, AList.lookup_erase_ne]

theorem mem_keys_eraseAll {m : GoMap K V} {keys : List K} {k : K}
    : k ∈ (m.eraseAll keys).keys ↔ k ∈ m.keys ∧ k ∉ keys := by
  rw [← AList.mem_keys, ← AList.mem_keys, ← AList.lookup_isSome, ← AList.lookup_isSome, lookup_eraseAll]
  split <;> simp [*]

theorem eraseAll_append (m : GoMap K V) (xs ys : List K)
    : m.eraseAll (xs ++ ys) = eraseAll (m.eraseAll xs) ys :=
  List.foldl_append

theorem mem_merge {m values : GoMap K V} {k : K} : k ∈ m.merge values ↔ k ∈ m ∨ k ∈ values := by
  rw [← AList.lookup_isSome, ← AList.lookup_isSome, ← AList.lookup_isSome, lookup_merge]
  rw [Option.isSome_or, Bool.or_eq_true, or_comm]

theorem lookup_eq_merge_iff {m values : GoMap K V}
    : (∀ k, values.lookup k = (m.merge values).lookup k) ↔ ∀ k ∈ m, k ∈ values := by
  apply forall_congr'
  intro k
  rw [lookup_merge, ← AList.lookup_isSome, ← AList.lookup_isSome]
  cases values.lookup k with
  | some v => simp
  | none => cases m.lookup k <;> simp

end GoMap

/--
The order in which a loop happens to go through the entries of a map.
-/
structure GoMap.Order (K : Type u) (V : Type v) where
  visit : GoMap K V → GoMap K V
  perm : ∀ m, (visit m).entries.Perm m.entries

namespace GoMap.Order

variable {K : Type u} {V : Type v}

def id : Order K V where
  visit m := m
  perm _ := .rfl

@[simp]
theorem lookup_visit [DecidableEq K] (order : Order K V) (m : GoMap K V) (k : K)
    : (order.visit m).lookup k = m.lookup k :=
  AList.perm_lookup (order.perm m)

theorem mem_entries_visit (order : Order K V) {m : GoMap K V} {entry : Sigma (fun _ : K => V)}
    : entry ∈ (order.visit m).entries ↔ entry ∈ m.entries :=
  (order.perm m).mem_iff

theorem mem_visit (order : Order K V) {m : GoMap K V} {k : K}
    : k ∈ order.visit m ↔ k ∈ m := by
  simp only [AList.mem_keys, AList.keys, List.keys, List.mem_map, order.mem_entries_visit]

theorem keys_visit_eq_nil (order : Order K V) {m : GoMap K V} : (order.visit m).keys = [] ↔ m.keys = [] := by
  simp only [List.eq_nil_iff_forall_not_mem, ← AList.mem_keys, order.mem_visit]

def last [DecidableEq K] [DecidableEq V] (p : (Sigma fun _ : K => V) → Bool) : Order K V where
  visit m :=
    match hfind : m.entries.find? p with
    | some entry =>
      {
        entries := m.entries.erase entry ++ [entry]
        nodupKeys := by
          have hperm := List.perm_append_singleton entry (m.entries.erase entry)
          have hcons := List.perm_cons_erase (List.mem_of_find?_eq_some hfind)
          rw [List.perm_nodupKeys (hperm.trans hcons.symm)]
          exact m.nodupKeys
      }
    | none => m
  perm m := by
    split
    . next entry hfind =>
      have hperm := List.perm_append_singleton entry (m.entries.erase entry)
      exact hperm.trans (List.perm_cons_erase (List.mem_of_find?_eq_some hfind)).symm
    . exact .rfl

theorem visit_last [DecidableEq K] [DecidableEq V] {p : (Sigma fun _ : K => V) → Bool}
    {m : GoMap K V} (h : ∃ entry ∈ m.entries, p entry = true)
    : ∃ init entry, ((last p).visit m).entries = init ++ [entry] ∧ p entry = true := by
  unfold last
  dsimp only
  split
  . next entry hfind => exact ⟨_, entry, rfl, List.find?_some hfind⟩
  . next hfind =>
    rcases h with ⟨entry, hentry, hp⟩
    rw [List.find?_eq_none] at hfind
    exact absurd hp (hfind entry hentry)

end GoMap.Order
