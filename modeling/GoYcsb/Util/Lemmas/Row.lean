import GoYcsb.Util.Impl.Row

/-!
This module contains the verification of the row format from `GoYcsb.Util.Impl.Row`: encoded rows are
decoded, and the byte strings on which the decoder panics.
-/

namespace Util

open Varint

structure Column where
  idFlag : UInt8
  idBytes : Bytes
  id : Int
  dataFlag : UInt8
  lengthBytes : Bytes
  data : Bytes
  isVarint_id : IsVarint idBytes id
  isVarint_length : IsVarint lengthBytes data.length

namespace Column

def bytes (c : Column) : Bytes :=
  c.idFlag :: (c.idBytes ++ c.dataFlag :: (c.lengthBytes ++ c.data))

def entry (c : Column) : Int × Bytes := (c.id, c.data)

theorem length_bytes (c : Column) : 4 ≤ c.bytes.length := by
  have hid := List.length_pos_iff.mpr c.isVarint_id.1
  have hlength := List.length_pos_iff.mpr c.isVarint_length.1
  simp only [bytes, List.length_cons, List.length_append]
  omega

end Column

@[simp]
theorem sliceFrom_one (b : UInt8) (bs : Bytes) : sliceFrom (b :: bs) 1 = .ret bs := by
  simp [sliceFrom]

theorem sliceFrom_nil : sliceFrom [] 1 = .panic "runtime error: slice bounds out of range [1:0]" := by
  decide

theorem sliceFrom_neg {b : Bytes} {n : Int} (h : n < 0)
    : sliceFrom b n = .panic s!"runtime error: slice bounds out of range [{n}:]" := by
  simp [sliceFrom, h]

theorem sliceFrom_append (v rest : Bytes) : sliceFrom (v ++ rest) v.length = .ret rest := by
  have hneg : ¬ (v.length : Int) < 0 := by omega
  simp [sliceFrom, hneg]

theorem sliceTo_append (v rest : Bytes) : sliceTo (v ++ rest) v.length = .ret v := by
  have hneg : ¬ (v.length : Int) < 0 := by omega
  simp [sliceTo, hneg]

theorem decodeVarint_append {v : Bytes} {x : Int} (h : IsVarint v x) (rest : Bytes)
    : decodeVarint (v ++ rest) = .ret (.ok (rest, x)) := by
  have hpos : (0 : Int) < v.length := by
    have := List.length_pos_iff.mpr h.1
    omega
  unfold decodeVarint
  rw [h.append rest]
  simp only [hpos, if_true]
  rw [sliceFrom_append]
  rfl

theorem decodeVarint_cases (b : Bytes)
    : (∃ v rest x, b = v ++ rest ∧ IsVarint v x ∧ decodeVarint b = .ret (.ok (rest, x)))
        ∨
      (∃ err, decodeVarint b = .ret (.error err)) := by
  by_cases hpos : 0 < (varint b).2
  . left
    rcases exists_isVarint hpos rfl with ⟨v, rest, hb, _, hv⟩
    refine ⟨v, rest, _, hb, hv, ?_⟩
    rw [hb]
    apply decodeVarint_append
    rwa [hb] at hv
  . right
    unfold decodeVarint
    simp only [hpos, if_false]
    split
    . exact ⟨_, rfl⟩
    . exact ⟨_, rfl⟩

theorem decodeBytes_append {v data : Bytes} (flag : UInt8) (h : IsVarint v data.length) (rest : Bytes)
    : decodeBytes (flag :: (v ++ (data ++ rest))) = .ret (.ok (rest, data)) := by
  simp [decodeBytes, decodeVarint_append h, sliceFrom_append, sliceTo_append]

section Columns

variable {fuel : Nat} {row : GoMap Int Bytes} {b : Bytes}

theorem decodeColumns_nil (fuel : Nat) (row : GoMap Int Bytes)
    : decodeColumns fuel row [] = .ret (row, none) := by
  unfold decodeColumns
  simp

theorem decodeColumns_column (fuel : Nat) (row : GoMap Int Bytes) (c : Column) (rest : Bytes)
    : decodeColumns (fuel + 1) row (c.bytes ++ rest)
        =
      decodeColumns fuel (row.insert c.id c.data) rest := by
  have hid := decodeVarint_append c.isVarint_id (c.dataFlag :: (c.lengthBytes ++ (c.data ++ rest)))
  have hdata := decodeBytes_append c.dataFlag c.isVarint_length rest
  rw [decodeColumns]
  simp [Column.bytes, decodeInt64, hid, hdata]

theorem decodeColumns_append {columns : List Column} (row : GoMap Int Bytes) (tail : Bytes)
    (hfuel : columns.length ≤ fuel)
    : decodeColumns fuel row ((columns.map Column.bytes).flatten ++ tail)
        =
      decodeColumns (fuel - columns.length) (row.insertAll (columns.map Column.entry)) tail := by
  induction columns generalizing fuel row with
  | nil => simp [GoMap.insertAll]
  | cons c columns ih =>
    rw [List.length_cons] at hfuel
    have hfuel' : fuel = fuel - 1 + 1 := by omega
    rw [hfuel']
    simp only [List.map_cons, List.flatten_cons, List.append_assoc, List.length_cons]
    rw [decodeColumns_column, ih _ (by omega), GoMap.insertAll_cons]
    congr 1
    omega

-- A column id with nothing after it, or a column whose length is negative.
def Crashes (b : Bytes) : Prop :=
  (∃ flag v x, IsVarint v x ∧ b = flag :: v)
    ∨
  (∃ flag v x flag' v' n rest,
    IsVarint v x ∧ IsVarint v' n ∧ n < 0 ∧ b = flag :: (v ++ flag' :: (v' ++ rest)))

def PanicsOn (b : Bytes) : Prop :=
  ∃ (columns : List Column) (tail : Bytes),
    b = (columns.map Column.bytes).flatten ++ tail ∧ Crashes tail

theorem decodeColumns_crashes (h : Crashes b)
    : ∃ msg, ∀ fuel row, decodeColumns (fuel + 1) row b = .panic msg := by
  rcases h with ⟨flag, v, x, hv, rfl⟩ | ⟨flag, v, x, flag', v', n, rest, hv, hv', hn, rfl⟩
  . have hid := decodeVarint_append hv []
    rw [List.append_nil] at hid
    refine ⟨"runtime error: slice bounds out of range [1:0]", fun fuel row => ?_⟩
    rw [decodeColumns]
    simp [decodeInt64, hid, decodeBytes, sliceFrom_nil]
  . have hid := decodeVarint_append hv (flag' :: (v' ++ rest))
    have hlength := decodeVarint_append hv' rest
    have hle : ¬ (rest.length : Int) < n := by omega
    refine ⟨s!"runtime error: slice bounds out of range [{n}:]", fun fuel row => ?_⟩
    rw [decodeColumns]
    simp [decodeInt64, hid, decodeBytes, hlength, hle, sliceFrom_neg hn]

theorem decodeColumns_cases (hb : b ≠ [])
    : (∃ (c : Column) (rest : Bytes), b = c.bytes ++ rest)
        ∨
      (∃ err, ∀ fuel row, decodeColumns (fuel + 1) row b = .ret (row, some err))
        ∨
      Crashes b := by
  cases b with
  | nil => contradiction
  | cons flag b =>
    rcases decodeVarint_cases b with ⟨v, remain, x, rfl, hv, hid⟩ | ⟨err, hid⟩
    . cases remain with
      | nil =>
        right; right; left
        exact ⟨flag, v, x, hv, by simp⟩
      | cons flag' remain =>
        rcases decodeVarint_cases remain with ⟨v', rest, n, rfl, hv', hlength⟩ | ⟨err, hlength⟩
        . by_cases hneg : n < 0
          . right; right; right
            exact ⟨flag, v, x, flag', v', n, rest, hv, hv', hneg, by simp⟩
          . by_cases hshort : (rest.length : Int) < n
            . right; left
              refine ⟨s!"insufficient bytes to decode value, expected length: {n}",
                fun fuel row => ?_⟩
              rw [decodeColumns]
              simp [decodeInt64, hid, decodeBytes, hlength, hshort]
            . left
              have htake : ((rest.take n.toNat).length : Int) = n := by
                rw [List.length_take]
                omega
              refine ⟨⟨flag, v, x, flag', v', rest.take n.toNat, hv, ?_⟩, rest.drop n.toNat, ?_⟩
              . rwa [htake]
              . simp [Column.bytes]
        . right; left
          refine ⟨err, fun fuel row => ?_⟩
          rw [decodeColumns]
          simp [decodeInt64, hid, decodeBytes, hlength]
    . right; left
      refine ⟨err, fun fuel row => ?_⟩
      rw [decodeColumns]
      simp [decodeInt64, hid]

theorem length_le_flatten (columns : List Column)
    : columns.length ≤ (columns.map Column.bytes).flatten.length := by
  induction columns with
  | nil => simp
  | cons c columns ih =>
    have hlength := c.length_bytes
    simp only [List.length_cons, List.map_cons, List.flatten_cons, List.length_append]
    omega

theorem decodeColumns_total (row : GoMap Int Bytes) (hfuel : b.length ≤ fuel)
    : (∃ res, decodeColumns fuel row b = .ret res) ∨ PanicsOn b := by
  induction fuel generalizing row b with
  | zero =>
    left
    rw [List.length_eq_zero_iff.mp (Nat.le_zero.mp hfuel)]
    exact ⟨_, decodeColumns_nil 0 row⟩
  | succ fuel ih =>
    by_cases hb : b = []
    . left
      rw [hb]
      exact ⟨_, decodeColumns_nil (fuel + 1) row⟩
    . rcases decodeColumns_cases hb with ⟨c, rest, rfl⟩ | ⟨err, herr⟩ | hcrash
      . have hlength := c.length_bytes
        rw [List.length_append] at hfuel
        rw [decodeColumns_column]
        rcases ih (b := rest) (row.insert c.id c.data) (by omega)
          with hret | ⟨columns, tail, rfl, htail⟩
        . left; assumption
        . right
          exact ⟨c :: columns, tail, by simp, htail⟩
      . left
        exact ⟨_, herr fuel row⟩
      . right
        exact ⟨[], b, by simp, hcrash⟩

end Columns

theorem Crashes.length {b : Bytes} (h : Crashes b) : 2 ≤ b.length := by
  rcases h with ⟨flag, v, x, hv, rfl⟩ | ⟨flag, v, x, flag', v', n, rest, hv, hv', hn, rfl⟩
  . have hpos := List.length_pos_iff.mpr hv.1
    rw [List.length_cons]
    omega
  . simp only [List.length_cons, List.length_append]
    omega

theorem decodeRow_eq {b : Bytes} (hnil : b ≠ []) (hzero : b ≠ [0])
    : decodeRow b = decodeColumns b.length ∅ b := by
  rw [← List.length_pos_iff] at hnil
  unfold decodeRow
  rw [if_neg (by omega), if_neg hzero]

theorem decodeRow_eq_of_length {b : Bytes} (h : 2 ≤ b.length)
    : decodeRow b = decodeColumns b.length ∅ b := by
  apply decodeRow_eq
  . intro heq
    rw [heq] at h
    contradiction
  . intro heq
    rw [heq] at h
    contradiction

theorem decodeRow_total (b : Bytes) : (∃ res, decodeRow b = .ret res) ∨ PanicsOn b := by
  unfold decodeRow
  split
  . left; exact ⟨_, rfl⟩
  . split
    . left; exact ⟨_, rfl⟩
    . apply decodeColumns_total ∅ (Nat.le_refl _)

theorem decodeRow_panics {b : Bytes} (h : PanicsOn b) : ∃ msg, decodeRow b = .panic msg := by
  rcases h with ⟨columns, tail, rfl, hcrash⟩
  have htail := hcrash.length
  have hcolumns := length_le_flatten columns
  rcases decodeColumns_crashes hcrash with ⟨msg, hmsg⟩
  refine ⟨msg, ?_⟩
  rw [decodeRow_eq_of_length, decodeColumns_append]
  . rw [List.length_append]
    have hfuel : (columns.map Column.bytes).flatten.length + tail.length - columns.length
        = (columns.map Column.bytes).flatten.length + tail.length - columns.length - 1 + 1 := by
      omega
    rw [hfuel]
    apply hmsg
  . rw [List.length_append]
    omega
  . rw [List.length_append]
    omega

theorem decodeRow_columns (columns : List Column)
    : decodeRow (columns.map Column.bytes).flatten
        =
      .ret (GoMap.insertAll ∅ (columns.map Column.entry), none) := by
  cases columns with
  | nil => rfl
  | cons c columns =>
    have hlength := c.length_bytes
    have hle := length_le_flatten (c :: columns)
    have happend := decodeColumns_append ∅ [] hle
    rw [List.append_nil] at happend
    rw [decodeRow_eq_of_length, happend, decodeColumns_nil]
    simp only [List.map_cons, List.flatten_cons, List.length_append]
    omega

section Encode

variable {cols : List Bytes} {colIDs : List Int}

theorem encodeColumns_eq (valBuf : Bytes) (hlength : cols.length = colIDs.length)
    (hcols : ∀ col ∈ cols, col.length < 2 ^ 63) (hids : ∀ id ∈ colIDs, I64.InRange id)
    : ∃ columns : List Column,
        encodeColumns valBuf cols colIDs = valBuf ++ (columns.map Column.bytes).flatten
          ∧
        columns.map Column.entry = colIDs.zip cols := by
  induction cols generalizing colIDs valBuf with
  | nil =>
    refine ⟨[], ?_, ?_⟩
    . simp [encodeColumns]
    . simp
  | cons col cols ih =>
    cases colIDs with
    | nil => simp at hlength
    | cons id colIDs =>
      simp only [List.length_cons, Nat.add_right_cancel_iff] at hlength
      simp only [List.mem_cons, forall_eq_or_imp] at hcols hids
      rcases ih (encodeBytes (encodeInt64 valBuf id) col) hlength hcols.2 hids.2
        with ⟨columns, hencode, hentries⟩
      have hvarint : IsVarint (putVarint col.length) col.length := by
        apply isVarint_putVarint
        constructor <;> omega
      refine ⟨⟨varintFlag, _, id, compactBytesFlag, _, col, isVarint_putVarint hids.1, hvarint⟩
        :: columns, ?_, ?_⟩
      . rw [encodeColumns, hencode]
        simp [encodeInt64, encodeBytes, Column.bytes]
      . simp [Column.entry, hentries]

theorem encodeRow_eq (valBuf : Bytes) (hlength : cols.length = colIDs.length)
    (hcols : ∀ col ∈ cols, col.length < 2 ^ 63) (hids : ∀ id ∈ colIDs, I64.InRange id)
    : (cols = [] ∧ encodeRow cols colIDs valBuf = .ok [0])
        ∨
      ∃ columns : List Column,
        encodeRow cols colIDs valBuf = .ok (columns.map Column.bytes).flatten
          ∧
        columns.map Column.entry = colIDs.zip cols := by
  unfold encodeRow
  simp only [hlength, ne_eq, not_true_eq_false, if_false, List.take_zero]
  cases cols with
  | nil =>
    left
    rw [← hlength]
    simp
  | cons col cols =>
    right
    rcases encodeColumns_eq [] hlength hcols hids with ⟨columns, hencode, hentries⟩
    refine ⟨columns, ?_, hentries⟩
    rw [← hlength, hencode]
    simp

theorem length_encodeColumns (valBuf : Bytes) (cols : List Bytes) (colIDs : List Int)
    : valBuf.length ≤ (encodeColumns valBuf cols colIDs).length := by
  induction cols generalizing colIDs valBuf with
  | nil => simp [encodeColumns]
  | cons col cols ih =>
    cases colIDs with
    | nil => simp [encodeColumns]
    | cons id colIDs =>
      apply Nat.le_trans _ (ih _ colIDs)
      simp [encodeInt64, encodeBytes]

theorem encodeRow_ne_nil {valBuf row : Bytes} (h : encodeRow cols colIDs valBuf = .ok row) : row ≠ [] := by
  unfold encodeRow at h
  dsimp only at h
  split at h
  . contradiction
  . split at h
    . cases h
      simp
    . next hcount hcols =>
      cases h
      cases cols with
      | nil => simp at hcols
      | cons col cols =>
        cases colIDs with
        | nil => simp at hcount
        | cons id colIDs =>
          have hle := length_encodeColumns (encodeBytes (encodeInt64 [] id) col) cols colIDs
          rw [List.take_zero]
          intro hnil
          rw [encodeColumns, List.eq_nil_iff_length_eq_zero] at hnil
          simp only [encodeInt64, encodeBytes, List.length_append, List.length_cons] at hle hnil
          omega

theorem decodeRow_encodeRow (valBuf : Bytes) (hlength : cols.length = colIDs.length)
    (hcols : ∀ col ∈ cols, col.length < 2 ^ 63) (hids : ∀ id ∈ colIDs, I64.InRange id)
    : ∃ row,
        encodeRow cols colIDs valBuf = .ok row
          ∧
        decodeRow row = .ret (GoMap.insertAll ∅ (colIDs.zip cols), none) := by
  rcases encodeRow_eq valBuf hlength hcols hids with ⟨rfl, hencode⟩ | ⟨columns, hencode, hentries⟩
  . refine ⟨_, hencode, ?_⟩
    rw [List.zip_nil_right]
    rfl
  . refine ⟨_, hencode, ?_⟩
    rw [decodeRow_columns, hentries]

end Encode

section Prefix

variable {columns : List Column} {b : Bytes}

theorem Column.eq_nil_of_append {c c' : Column} {rest : Bytes} (h : c'.bytes ++ rest = c.bytes)
    : rest = [] := by
  have hc := decodeColumns_column 0 ∅ c []
  have hc' := decodeColumns_column 0 ∅ c' rest
  rw [List.append_nil] at hc
  rw [h, hc, decodeColumns_nil] at hc'
  by_contra hne
  have hlength : ¬ rest.length = 0 := by
    rwa [List.length_eq_zero_iff]
  rw [decodeColumns, if_neg hlength] at hc'
  simp at hc'

theorem exists_of_prefix_flatten (hpre : b <+: (columns.map Column.bytes).flatten)
    (hne : b ≠ (columns.map Column.bytes).flatten)
    : ∃ (m : Nat) (tail : Bytes) (c : Column),
        b = ((columns.take m).map Column.bytes).flatten ++ tail
          ∧
        tail <+: c.bytes
          ∧
        tail ≠ c.bytes := by
  induction columns generalizing b with
  | nil =>
    rw [List.map_nil, List.flatten_nil, List.prefix_nil] at hpre
    contradiction
  | cons c columns ih =>
    rw [List.map_cons, List.flatten_cons] at hpre hne
    by_cases hc : c.bytes <+: b
    . rcases hc with ⟨b', rfl⟩
      rw [List.prefix_append_right_inj] at hpre
      have hne' : b' ≠ (columns.map Column.bytes).flatten := by
        intro heq
        rw [heq] at hne
        contradiction
      rcases ih hpre hne' with ⟨m, tail, c', rfl, htail, htail'⟩
      exact ⟨m + 1, tail, c', by simp, htail, htail'⟩
    . have hinside : b <+: c.bytes := by
        cases List.prefix_or_prefix_of_prefix hpre (List.prefix_append c.bytes _) with
        | inl h => assumption
        | inr h => contradiction
      refine ⟨0, b, c, by simp, hinside, ?_⟩
      intro heq
      rw [heq] at hc
      exact hc (List.prefix_refl _)

theorem decodeColumns_part {tail : Bytes} {c : Column} (hpre : tail <+: c.bytes)
    (hne : tail ≠ c.bytes) (htail : tail ≠ [])
    : (∃ err, ∀ fuel row, decodeColumns (fuel + 1) row tail = .ret (row, some err))
        ∨
      Crashes tail := by
  rcases decodeColumns_cases htail with ⟨c', rest, rfl⟩ | hother
  . rcases hpre with ⟨more, hmore⟩
    rw [List.append_assoc] at hmore
    have hnil := Column.eq_nil_of_append hmore
    rw [hnil, List.append_nil] at hmore
    rw [List.append_eq_nil_iff] at hnil
    rw [hnil.1, List.append_nil] at hne
    contradiction
  . assumption

theorem decodeRow_part (hpre : b <+: (columns.map Column.bytes).flatten)
    (hne : b ≠ (columns.map Column.bytes).flatten) (hsafe : ¬ PanicsOn b)
    : (∃ row err, decodeRow b = .ret (row, some err))
        ∨
      ∃ m, decodeRow b = .ret (GoMap.insertAll ∅ ((columns.map Column.entry).take m), none) := by
  rcases exists_of_prefix_flatten hpre hne with ⟨m, tail, c, rfl, htail, htail'⟩
  by_cases hnil : tail = []
  . right
    refine ⟨m, ?_⟩
    rw [hnil, List.append_nil, decodeRow_columns, List.map_take]
  . by_cases hzero : ((columns.take m).map Column.bytes).flatten ++ tail = [0]
    . -- the mark of an empty row
      right
      refine ⟨0, ?_⟩
      rw [hzero]
      rfl
    . left
      cases decodeColumns_part htail htail' hnil with
      | inr hcrash => exact absurd ⟨_, _, rfl, hcrash⟩ hsafe
      | inl herr =>
        rcases herr with ⟨err, herr⟩
        have hle := length_le_flatten (columns.take m)
        have hpos := List.length_pos_iff.mpr hnil
        have hfuel : (((columns.take m).map Column.bytes).flatten ++ tail).length
            - (columns.take m).length
            = (((columns.take m).map Column.bytes).flatten ++ tail).length
              - (columns.take m).length - 1 + 1 := by
          rw [List.length_append]
          omega
        refine ⟨GoMap.insertAll ∅ ((columns.take m).map Column.entry), err, ?_⟩
        rw [decodeRow_eq (by simp [hnil]) hzero, decodeColumns_append, hfuel, herr]
        rw [List.length_append]
        omega

end Prefix

theorem decodeRow_safe_iff (b : Bytes)
    : ((∃ row err, decodeRow b = .ret (row, err))
        ∧
       ∀ cols colIDs valBuf row,
        cols.length = colIDs.length → (∀ col ∈ cols, col.length < 2 ^ 63) →
        (∀ id ∈ colIDs, I64.InRange id) → encodeRow cols colIDs valBuf = .ok row →
        b <+: row → b ≠ row →
          (∃ data err, decodeRow b = .ret (data, some err))
            ∨
          ∃ m, decodeRow b = .ret (GoMap.insertAll ∅ ((colIDs.zip cols).take m), none))
        ↔
      ¬ PanicsOn b := by
  constructor
  . intro hsafe hpanics
    rcases hsafe.1 with ⟨row, err, hret⟩
    rcases decodeRow_panics hpanics with ⟨msg, hpanic⟩
    rw [hret] at hpanic
    contradiction
  . intro hsafe
    constructor
    . cases decodeRow_total b with
      | inl hret =>
        rcases hret with ⟨⟨row, err⟩, hret⟩
        exact ⟨row, err, hret⟩
      | inr hpanics => contradiction
    . intro cols colIDs valBuf row hlength hcols hids hrow hpre hne
      rcases encodeRow_eq valBuf hlength hcols hids with ⟨rfl, hencode⟩ | ⟨columns, hencode, hentries⟩
      . right
        rw [hencode] at hrow
        cases hrow
        have hnil : b = [] := by
          rw [List.prefix_cons_iff] at hpre
          rcases hpre with hnil | ⟨t, ht, htnil⟩
          . assumption
          . rw [List.prefix_nil] at htnil
            rw [htnil] at ht
            contradiction
        refine ⟨0, ?_⟩
        rw [hnil]
        rfl
      . rw [hencode] at hrow
        cases hrow
        rw [← hentries]
        apply decodeRow_part hpre hne hsafe

theorem decodeRow_slice_bounds
    : encodeRow [[]] [1] [] = .ok [8, 2, 2, 0]
        ∧
      decodeRow [8, 2] = .panic "runtime error: slice bounds out of range [1:0]"
        ∧
      decodeRow [8, 2, 2, 1] = .panic "runtime error: slice bounds out of range [-1:]" := by
  refine ⟨?_, ?_, ?_⟩
  . rfl
  . rfl
  . rfl

end Util
