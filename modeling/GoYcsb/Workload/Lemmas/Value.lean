import GoYcsb.Lib.Decimal
import GoYcsb.Workload.Impl.Value

/-!
This module contains the verification of `buildDeterministicValue` from `GoYcsb.Workload.Impl.Value`: the
value depends on the key, the lower case field and the size only, and nobody else's buffer is touched.
-/

theorem getValueBuffer_spec {m : Memory} {buf : Slice} {size : Int} (hvalid : m.Valid buf)
    (hsize : 0 ≤ size) (hlimit : size ≤ m.limit)
    : ∃ b, getValueBuffer m buf size = .ret b ∧ Buffer.Owns m buf.array b ∧ size ≤ b.memory.cap b.slice := by
  unfold getValueBuffer
  dsimp only
  split
  . next hle =>
    rw [if_neg (by omega)]
    refine ⟨_, rfl, ?_, hle⟩
    apply Buffer.Owns.reslice (b := { memory := m, slice := buf }) (Buffer.Owns.refl hvalid)
    dsimp only
    omega
  . unfold makeBuffer
    rw [if_neg (by omega)]
    refine ⟨_, rfl, ?_, ?_⟩
    . apply Buffer.Owns.alloc (Buffer.Owns.refl hvalid)
      . simp
      . simp
        omega
    . unfold Memory.cap
      dsimp only
      rw [Memory.array_append_length, List.length_replicate]
      omega

theorem getValueBuffer_panics {m : Memory} {buf : Slice} {size : Int} (hvalid : m.Valid buf)
    (h : size < 0 ∨ m.limit < size)
    : (getValueBuffer m buf size).Panics := by
  have hcap := hvalid.cap_le
  unfold getValueBuffer
  dsimp only
  split
  . rw [if_pos (by omega)]
    exact ⟨_, rfl⟩
  . unfold makeBuffer
    rw [if_pos h]
    exact ⟨_, rfl⟩

theorem makeBuffer_cases (m : Memory) (size : Int)
    : (makeBuffer m size).Panics
        ∨
      ∃ b, makeBuffer m size = .ret b ∧ Buffer.Owns m m.arrays.length b := by
  unfold makeBuffer
  split
  . left
    exact ⟨_, rfl⟩
  . next hsize =>
    right
    refine ⟨_, rfl, ?_⟩
    apply Buffer.Owns.fresh
    . simp
    . simp
      omega

theorem Util.bytesHash64_emod (b : Bytes) : (Util.bytesHash64 b % 2 ^ 64).toNat = Fnv.sum64a b := by
  have hlt := Fnv.sum64a_lt b
  unfold Util.bytesHash64 I64.wrap
  rw [Int.bmod_def]
  omega

-- The margin of 21 bytes is for the last turn, so that the loop writes in place.
theorem writeHashes_spec {m : Memory} {a : Nat} {b : Buffer} (slack : Nat → Nat) (size : Int)
    (fuel : Nat) (h : Buffer.Owns m a b) (hfuel : size ≤ b.slice.len + fuel)
    (hcap : size + 21 ≤ b.memory.cap b.slice)
    : ∃ b',
        writeHashes slack size fuel b = .ret b'
          ∧
        Buffer.Owns m a b'
          ∧
        b'.bytes = hashes size.toNat fuel b.bytes
          ∧
        size ≤ b'.slice.len := by
  induction fuel generalizing b with
  | zero =>
    unfold writeHashes
    rw [if_neg (by omega)]
    exact ⟨b, rfl, h, rfl, by omega⟩
  | succ fuel ih =>
    have hlength := h.length_bytes
    unfold writeHashes hashes
    by_cases hlt : (b.slice.len : Int) < size
    . have hroom : Buffer.HasRoom slack b [58] := .inl (by rw [List.length_singleton]; omega)
      rcases h.write_of_hasRoom hroom with ⟨b₁, hmark, h₁⟩
      have hlen₁ := h₁.len h
      have hcap₁ := h₁.cap
      rw [if_pos hlt, if_pos (by omega)]
      dsimp only
      rw [hmark, Outcome.ret_bind, Util.bytesHash64_emod, h₁.bytes]
      have hdigits := Bytes.length_decimal_le (Nat.lt_trans (Fnv.sum64a_lt (b.bytes ++ [58])) (by decide : _ < 10 ^ 20))
        (by decide)
      generalize Bytes.decimal (Fnv.sum64a (b.bytes ++ [58])) = digits at *
      have hroom₁ : Buffer.HasRoom slack b₁ digits := .inl (by rw [hlen₁, List.length_singleton]; omega)
      rcases h₁.owns.write_of_hasRoom hroom₁ with ⟨b₂, hhash, h₂⟩
      have hlen₂ := h₂.len h₁.owns
      have hcap₂ := h₂.cap
      rw [hhash, Outcome.ret_bind, ← h₁.bytes, ← h₂.bytes]
      rw [List.length_singleton] at hlen₁
      apply ih h₂.owns <;> omega
    . rw [if_neg hlt, if_neg (by omega)]
      exact ⟨b, rfl, h, rfl, by omega⟩

def textLength (key lowered : Bytes) : Nat := key.length + 1 + lowered.length

theorem writeText_cases {m : Memory} {a : Nat} {b : Buffer} (slack : Nat → Nat) (key lowered : Bytes)
    (h : Buffer.Owns m a b) (hempty : b.slice.len = 0) {capacity : Nat} (hcap : capacity ≤ b.memory.cap b.slice)
    : ((writeText slack b key lowered).Panics ∧ ¬ Buffer.Grows m.limit slack capacity (textLength key lowered))
        ∨
      ∃ b', writeText slack b key lowered = .ret b' ∧ Buffer.Appends m a b (key ++ [58] ++ lowered) b' := by
  unfold writeText textLength
  rcases h.write_cases slack key with ⟨hpanics, hroom⟩ | ⟨b₁, hret₁, h₁⟩
  . left
    refine ⟨hpanics.bind _, fun hgrows => hroom ?_⟩
    rw [← h.limit] at hgrows
    exact hgrows.hasRoom hcap (by omega)
  have hlen₁ := h₁.len h
  have hcap₁ := h₁.cap
  rw [hret₁, Outcome.ret_bind]
  rcases h₁.owns.write_cases slack [58] with ⟨hpanics, hroom⟩ | ⟨b₂, hret₂, h₂⟩
  . left
    refine ⟨hpanics.bind _, fun hgrows => hroom ?_⟩
    rw [← h₁.owns.limit] at hgrows
    exact hgrows.hasRoom (by omega) (by rw [List.length_singleton]; omega)
  have hlen₂ := h₂.len h₁.owns
  have hcap₂ := h₂.cap
  rw [List.length_singleton] at hlen₂
  rw [hret₂, Outcome.ret_bind]
  rcases h₂.owns.write_cases slack lowered with ⟨hpanics, hroom⟩ | ⟨b₃, hret₃, h₃⟩
  . left
    refine ⟨hpanics, fun hgrows => hroom ?_⟩
    rw [← h₂.owns.limit] at hgrows
    exact hgrows.hasRoom (by omega) (by omega)
  . right
    refine ⟨b₃, hret₃, h₃.owns, ?_, ?_⟩
    . rw [h₃.bytes, h₂.bytes, h₁.bytes]
      simp only [List.append_assoc]
    . exact Nat.le_trans hcap₁ (Nat.le_trans hcap₂ h₃.cap)

section

variable (toLower : Bytes → Bytes) (slack : Nat → Nat) {m : Memory} {buf : Slice} {size : Int} (key fieldKey : Bytes)

theorem buildDeterministicValueWith_cases (hvalid : m.Valid buf) (hsize : 0 ≤ size) (hrange : size + 21 < 2 ^ 63)
    (hlimit : size + 21 ≤ m.limit)
    : ((buildDeterministicValueWith toLower slack m buf size key fieldKey).Panics
          ∧
        ¬ Buffer.Grows m.limit slack (size + 21).toNat (textLength key (toLower fieldKey)))
        ∨
      (textLength key (toLower fieldKey) ≤ m.limit
          ∧
        ∃ b,
          buildDeterministicValueWith toLower slack m buf size key fieldKey = .ret b
            ∧
          Buffer.Owns m buf.array b
            ∧
          b.bytes = loweredValue size.toNat key (toLower fieldKey)) := by
  have hadd : I64.add size 21 = size + 21 := I64.add_eq (by constructor <;> omega)
  rcases getValueBuffer_spec hvalid (by omega : 0 ≤ I64.add size 21) (by omega) with ⟨b, hget, hb, hcap⟩
  have hempty := hb.reslice (Nat.zero_le _)
  unfold buildDeterministicValueWith
  rw [hget, Outcome.ret_bind]
  dsimp only
  rw [hadd] at hcap
  have hroom : (size + 21).toNat ≤ b.memory.cap { b.slice with len := 0 } := Int.toNat_le.mpr hcap
  rcases writeText_cases slack key (toLower fieldKey) hempty rfl hroom with ⟨hpanics, hgrows⟩ | ⟨b₁, hret₁, h₁⟩
  . left
    exact ⟨hpanics.bind _, hgrows⟩
  right
  have hlen₁ := h₁.len hempty
  have hcap₁ : (size + 21).toNat ≤ b₁.memory.cap b₁.slice := Nat.le_trans hroom h₁.cap
  simp only [List.length_append, List.length_singleton] at hlen₁
  rcases writeHashes_spec slack size size.toNat h₁.owns (by omega) (by omega) with ⟨b₂, hret₂, h₂, hbytes, hle⟩
  have htrunc : ¬ (size < 0 ∨ (b₂.slice.len : Int) < size) := by omega
  constructor
  . have hfull := h₁.owns.valid.len_le
    have hlimit₁ := h₁.owns.valid.cap_le
    rw [h₁.owns.limit] at hlimit₁
    unfold textLength
    omega
  . refine ⟨{ b₂ with slice := { b₂.slice with len := size.toNat } }, ?_, ?_, ?_⟩
    . rw [hret₁, Outcome.ret_bind, hret₂, Outcome.ret_bind]
      unfold truncate
      rw [if_neg htrunc]
    . apply h₂.reslice
      have hfull := h₂.valid.len_le
      omega
    . rw [Buffer.bytes_reslice (by omega), hbytes, h₁.bytes]
      rfl

theorem buildDeterministicValueWith_of_grows (hvalid : m.Valid buf) (hsize : 0 ≤ size) (hrange : size + 21 < 2 ^ 63)
    (hlimit : size + 21 ≤ m.limit)
    (hgrows : Buffer.Grows m.limit slack (size + 21).toNat (textLength key (toLower fieldKey)))
    : ∃ b,
        buildDeterministicValueWith toLower slack m buf size key fieldKey = .ret b
          ∧
        b.bytes = loweredValue size.toNat key (toLower fieldKey) := by
  rcases buildDeterministicValueWith_cases toLower slack key fieldKey hvalid hsize hrange hlimit
    with ⟨_, hnot⟩ | ⟨_, b, hret, _, hbytes⟩
  . exact absurd hgrows hnot
  . exact ⟨b, hret, hbytes⟩

theorem buildDeterministicValueWith_panics (hvalid : m.Valid buf) (hsize : 0 ≤ size) (hlt : size < 2 ^ 63)
    (hfits : 2 ^ 63 ≤ size + 21 ∨ m.limit < size + 21 ∨ m.limit < textLength key (toLower fieldKey))
    : (buildDeterministicValueWith toLower slack m buf size key fieldKey).Panics := by
  by_cases hrange : size + 21 < 2 ^ 63
  . by_cases hlimit : size + 21 ≤ m.limit
    . rcases buildDeterministicValueWith_cases toLower slack key fieldKey hvalid hsize hrange hlimit
        with ⟨hpanics, _⟩ | ⟨hle, _⟩
      . exact hpanics
      . omega
    . have hadd : I64.add size 21 = size + 21 := I64.add_eq (by constructor <;> omega)
      unfold buildDeterministicValueWith
      apply Outcome.Panics.bind
      apply getValueBuffer_panics hvalid
      omega
  . have hneg : I64.add size 21 < 0 := by
      rw [I64.add_eq_of_overflow (by omega) (by omega)]
      omega
    unfold buildDeterministicValueWith
    apply Outcome.Panics.bind
    apply getValueBuffer_panics hvalid
    exact Or.inl hneg

end

structure IsValue (limit : Nat) (size : Int) (key fieldKey v : Bytes) : Prop where
  value : v = deterministicValue size.toNat key fieldKey
  range : size + 21 < 2 ^ 63
  limit : size + 21 ≤ limit

theorem IsValue.toLower {limit : Nat} {size : Int} {key fieldKey fieldKey' v : Bytes}
    (h : IsValue limit size key fieldKey v) (hlower : fieldKey'.toLower = fieldKey.toLower)
    : IsValue limit size key fieldKey' v where
  value := by
    unfold deterministicValue
    rw [hlower]
    exact h.value
  range := h.range
  limit := h.limit

theorem buildDeterministicValue_cases (slack : Nat → Nat) {m : Memory} {buf : Slice} {size : Int}
    (key fieldKey : Bytes) (hvalid : m.Valid buf) (hsize : 0 ≤ size) (hlt : size < 2 ^ 63)
    : (buildDeterministicValue slack m buf size key fieldKey).Panics
        ∨
      ∃ b,
        buildDeterministicValue slack m buf size key fieldKey = .ret b
          ∧
        Buffer.Owns m buf.array b
          ∧
        IsValue m.limit size key fieldKey b.bytes := by
  by_cases hfits : size + 21 < 2 ^ 63 ∧ size + 21 ≤ m.limit
  . rcases buildDeterministicValueWith_cases Bytes.toLower slack key fieldKey hvalid hsize hfits.1 hfits.2
      with ⟨hpanics, _⟩ | ⟨_, b, hret, hown, hbytes⟩
    . left
      exact hpanics
    . right
      exact ⟨b, hret, hown, hbytes, hfits.1, hfits.2⟩
  . left
    exact buildDeterministicValueWith_panics Bytes.toLower slack key fieldKey hvalid hsize hlt (by omega)

section Build

variable {limit : Nat} {c : Core} {build : Build} {size : Int}

structure Build.Valid (limit : Nat) (build : Build) : Prop where
  limit : build.memory.limit = limit
  pooled : ∀ slice, build.pooled = some slice → build.memory.Valid slice

theorem Build.Valid.getBuffer (h : build.Valid limit) (hlength : 0 ≤ c.fieldLength) (hlimit : c.fieldLength ≤ limit)
    : ∃ b, build.getBuffer c = .ret b ∧ b.memory.Valid b.slice ∧ b.memory.limit = limit := by
  unfold Build.getBuffer
  split
  . next slice hpooled => exact ⟨_, rfl, h.pooled slice hpooled, h.limit⟩
  . rcases makeBuffer_cases build.memory c.fieldLength with ⟨msg, hpanic⟩ | ⟨b, hret, hown⟩
    . unfold makeBuffer at hpanic
      rw [if_neg (by rw [h.limit]; omega)] at hpanic
      contradiction
    . exact ⟨b, hret, hown.valid, hown.limit.trans h.limit⟩

theorem buildRandomValue_spec (random : Nat → Nat) {m : Memory} {buf : Slice} (hvalid : m.Valid buf)
    (hsize : 0 ≤ size) (hlimit : size ≤ m.limit)
    : ∃ b, buildRandomValue random m buf size = .ret b := by
  rcases getValueBuffer_spec hvalid hsize hlimit with ⟨b, hget, hown, hcap⟩
  have hempty := hown.reslice (Nat.zero_le _)
  have hlength : (randBytes random size.toNat).length = size.toNat := by
    unfold randBytes
    rw [List.length_map, List.length_range]
  have hroom : Buffer.HasRoom (fun _ => 0) { b with slice := { b.slice with len := 0 } }
      (randBytes random size.toNat) := by
    left
    rw [hlength, Nat.zero_add]
    exact Int.toNat_le.mpr hcap
  rcases hempty.write_of_hasRoom hroom with ⟨b', hwrite, _⟩
  refine ⟨b', ?_⟩
  unfold buildRandomValue
  rw [hget, Outcome.ret_bind]
  exact hwrite

theorem buildValue_of_constant (P : Platform) (hbuild : build.Valid limit)
    (hconstant : c.fieldLengthGenerator = .constant ⟨size⟩) (hlength : c.fieldLength = size) (hsize : 0 ≤ size)
    (hlimit : size ≤ limit) (key fieldKey : Bytes)
    (hintegrity : c.dataIntegrity = true → size + 21 < 2 ^ 63 ∧ size + 21 ≤ limit
      ∧ Buffer.Grows limit build.slack (size + 21).toNat (textLength key fieldKey.toLower))
    : ∃ b, buildValue P c build key fieldKey = .ret b := by
  rcases hbuild.getBuffer (hlength ▸ hsize) (hlength ▸ hlimit) with ⟨b, hget, hvalid, hmemory⟩
  have hnext : c.fieldLengthGenerator.next P 0 build.draw = .ret (size, c.fieldLengthGenerator) := by
    rw [hconstant]
    rfl
  unfold buildValue
  rw [hnext, Outcome.ret_bind, hget]
  simp only [Outcome.ret_bind]
  subst hmemory
  split
  . next hdata =>
    rcases hintegrity hdata with ⟨hrange, hmargin, hgrows⟩
    rcases buildDeterministicValueWith_of_grows Bytes.toLower build.slack key fieldKey hvalid hsize hrange hmargin
        hgrows
      with ⟨b', hret, _⟩
    exact ⟨b', hret⟩
  . exact buildRandomValue_spec build.random hvalid hsize hlimit

theorem buildValue_panics (P : Platform) (hpooled : build.pooled = none)
    (hconstant : c.fieldLengthGenerator = .constant ⟨size⟩)
    (hlength : c.fieldLength < 0 ∨ build.memory.limit < c.fieldLength) (key fieldKey : Bytes)
    : (buildValue P c build key fieldKey).Panics := by
  have hnext : c.fieldLengthGenerator.next P 0 build.draw = .ret (size, c.fieldLengthGenerator) := by
    rw [hconstant]
    rfl
  unfold buildValue Build.getBuffer
  rw [hnext, Outcome.ret_bind, hpooled]
  apply Outcome.Panics.bind
  unfold makeBuffer
  rw [if_pos hlength]
  exact ⟨_, rfl⟩

end Build

section Stability

theorem isPrefix_hashes (size fuel : Nat) (b : Bytes) : b <+: hashes size fuel b := by
  induction fuel generalizing b with
  | zero => exact List.prefix_rfl
  | succ fuel ih =>
    unfold hashes
    split
    . apply List.IsPrefix.trans _ (ih _)
      rw [List.append_assoc]
      apply List.prefix_append
    . exact List.prefix_rfl

theorem le_length_hashes {size fuel : Nat} {b : Bytes} (hfuel : size ≤ b.length + fuel)
    : size ≤ (hashes size fuel b).length := by
  induction fuel generalizing b with
  | zero => exact hfuel
  | succ fuel ih =>
    unfold hashes
    split
    . apply ih
      simp only [List.length_append, List.length_singleton]
      omega
    . omega

theorem hashes_isPrefix_hashes {m n fuel fuel' : Nat} {b : Bytes} (hle : m ≤ n) (hfuel : n ≤ b.length + fuel')
    : hashes m fuel b <+: hashes n fuel' b := by
  induction fuel generalizing b fuel' with
  | zero => apply isPrefix_hashes
  | succ fuel ih =>
    rw [hashes]
    split
    . next hlt =>
      cases fuel' with
      | zero => omega
      | succ fuel' =>
        rw [hashes, if_pos (by omega)]
        apply ih
        simp only [List.length_append, List.length_singleton]
        omega
    . apply isPrefix_hashes

theorem length_loweredValue (size : Nat) (key lowered : Bytes) : (loweredValue size key lowered).length = size := by
  have hle : size ≤ (hashes size size (key ++ [58] ++ lowered)).length := le_length_hashes (by omega)
  unfold loweredValue
  rw [List.length_take]
  omega

theorem take_loweredValue {m n : Nat} (hle : m ≤ n) (key lowered : Bytes)
    : (loweredValue n key lowered).take m = loweredValue m key lowered := by
  have hgrows : hashes m m (key ++ [58] ++ lowered) <+: hashes n n (key ++ [58] ++ lowered) :=
    hashes_isPrefix_hashes hle (by omega)
  have hlength : m ≤ (hashes m m (key ++ [58] ++ lowered)).length := le_length_hashes (by omega)
  rcases hgrows with ⟨rest, hrest⟩
  unfold loweredValue
  rw [List.take_take, Nat.min_eq_left hle, ← hrest, List.take_append_of_le_length hlength]

end Stability

/--
What is built is a function of key, lower case field and size, has that size and grows with it at its end. There is no
value if the size with its margin of 21 bytes, or the text of key and field, is beyond the limit of the allocator or
of a signed 64 bit integer.
-/
theorem deterministic_value_stable (toLower : Bytes → Bytes)
    : ∃ value : Bytes → Bytes → Nat → Bytes,
        (∀ slack m buf (size : Int) key fieldKey, Memory.Valid m buf → 0 ≤ size → size + 21 < 2 ^ 63 →
          size + 21 ≤ m.limit →
          Buffer.Grows m.limit slack (size + 21).toNat (textLength key (toLower fieldKey)) →
          ∃ b,
            buildDeterministicValueWith toLower slack m buf size key fieldKey = .ret b
              ∧
            b.bytes = value key (toLower fieldKey) size.toNat)
          ∧
        (∀ key lowered size, (value key lowered size).length = size)
          ∧
        (∀ key lowered m n, m ≤ n → value key lowered m = (value key lowered n).take m)
          ∧
        (∀ slack m buf (size : Int) key fieldKey, Memory.Valid m buf → 0 ≤ size → size < 2 ^ 63 →
          2 ^ 63 ≤ size + 21 ∨ m.limit < size + 21 ∨ m.limit < textLength key (toLower fieldKey) →
          (buildDeterministicValueWith toLower slack m buf size key fieldKey).Panics) := by
  refine ⟨fun key lowered size => loweredValue size key lowered, ?_, ?_, ?_, ?_⟩
  . intro slack m buf size key fieldKey hvalid hsize hrange hlimit hgrows
    exact buildDeterministicValueWith_of_grows toLower slack key fieldKey hvalid hsize hrange hlimit hgrows
  . intro key lowered size
    apply length_loweredValue
  . intro key lowered m n hle
    rw [take_loweredValue hle]
  . intro slack m buf size key fieldKey hvalid hsize hlt hfits
    exact buildDeterministicValueWith_panics toLower slack key fieldKey hvalid hsize hlt hfits

theorem deterministic_value_stable_small
    : ∃ value : Nat → Bytes,
        (∃ b,
          buildDeterministicValue (fun _ => 0) ⟨29, [[7, 7, 7]]⟩ ⟨0, 2⟩ 8 (Bytes.ofAscii "user1") (Bytes.ofAscii "F0")
            =
          .ret b
            ∧
          b.bytes = value 8)
          ∧
        (value 8).length = 8
          ∧
        value 7 = (value 8).take 7
          ∧
        (buildDeterministicValue (fun _ => 0) ⟨29, [[7, 7, 7]]⟩ ⟨0, 2⟩ 9 (Bytes.ofAscii "user1")
          (Bytes.ofAscii "F0")).Panics := by
  have hvalid : Memory.Valid ⟨29, [[7, 7, 7]]⟩ ⟨0, 2⟩ := ⟨by decide, by decide, by decide⟩
  rcases deterministic_value_stable Bytes.toLower with ⟨value, hbuilt, hlength, htake, hpanics⟩
  refine ⟨value (Bytes.ofAscii "user1") (Bytes.ofAscii "F0").toLower, ?_, ?_, ?_, ?_⟩
  . apply hbuilt _ _ _ 8 _ _ hvalid (by decide) (by decide) (by decide)
    intro len hgt hle
    have htext : textLength (Bytes.ofAscii "user1") (Bytes.ofAscii "F0").toLower = 8 := by decide
    omega
  . apply hlength
  . apply htake
    decide
  . exact hpanics _ _ _ _ _ _ hvalid (by decide) (by decide) (.inr (.inl (by decide)))

theorem largest_size_panics
    : (buildDeterministicValue (fun _ => 0) ⟨2 ^ 48, [[]]⟩ ⟨0, 0⟩ (2 ^ 63 - 1) (Bytes.ofAscii "user1")
        (Bytes.ofAscii "field0")).Panics :=
  ⟨_, rfl⟩
