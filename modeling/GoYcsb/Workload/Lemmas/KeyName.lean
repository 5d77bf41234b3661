import GoYcsb.Generator.Lemmas.Generator
import GoYcsb.Lib.Decimal
import GoYcsb.Lib.KeyRange
import GoYcsb.Workload.Impl.Value
import GoYcsb.Workload.Lemmas.Create

/-!
This module contains the verification of `buildKeyName`: which key names are the prefix and a numeral, that
ordered keys are named differently and that padding puts their names in the order of the key numbers.
-/

section Sprintf

variable {width n : Int}

theorem sprintfPadded_eq_padded (hn : 0 ≤ n) (hwidth : 0 ≤ width) (hmax : width ≤ 1000000)
    : sprintfPadded width n = Bytes.padded width.toNat n.toNat := by
  have hbad : ¬ (width < -1000000 ∨ 1000000 < width) := by omega
  have hleft : ¬ width < 0 := by omega
  have hsign : ¬ n < 0 := by omega
  have hdigits : n.natAbs = n.toNat := by omega
  have hpad : width.natAbs = width.toNat := by omega
  simp [sprintfPadded, Bytes.padded, hbad, hleft, hsign, hdigits, hpad]

theorem sprintfPadded_eq_spaces (hn : 0 ≤ n) (hwidth : width < 0) (hmin : -1000000 ≤ width)
    : sprintfPadded width n
        =
      Bytes.decimal n.natAbs ++ List.replicate (width.natAbs - (Bytes.decimal n.natAbs).length) 32 := by
  have hbad : ¬ (width < -1000000 ∨ 1000000 < width) := by omega
  have hsign : ¬ n < 0 := by omega
  simp [sprintfPadded, hbad, hwidth, hsign]

theorem sprintfPadded_eq_badWidth (hn : 0 ≤ n) (hbad : width < -1000000 ∨ 1000000 < width)
    : sprintfPadded width n = Bytes.ofAscii "%!(BADWIDTH)" ++ Bytes.decimal n.natAbs := by
  have hsign : ¬ n < 0 := by omega
  simp [sprintfPadded, hbad, hsign]

def Numeral (b : Bytes) : Prop := b ≠ [] ∧ ∀ c ∈ b, 48 ≤ c ∧ c ≤ 57

instance (b : Bytes) : Decidable (Numeral b) := inferInstanceAs (Decidable (_ ∧ _))

-- A negative width asks for spaces on the right, which are there unless the digits fill it.
theorem numeral_sprintfPadded_iff (hn : 0 ≤ n) (hmax : n < 2 ^ 63)
    : Numeral (sprintfPadded width n)
        ↔
      -((Bytes.decimal n.natAbs).length : Int) ≤ width ∧ width ≤ 1000000 := by
  have hlength : (Bytes.decimal n.natAbs).length ≤ 19 := Bytes.length_decimal_le (by omega) (by decide)
  have hne := Bytes.decimal_ne_nil n.natAbs
  by_cases hbad : width < -1000000 ∨ 1000000 < width
  . rw [sprintfPadded_eq_badWidth hn hbad]
    constructor
    . intro hnumeral
      have hpercent := hnumeral.2 37 (by simp [Bytes.ofAscii])
      exact absurd hpercent (by decide)
    . intro hwidth
      omega
  . by_cases hleft : width < 0
    . rw [sprintfPadded_eq_spaces hn hleft (by omega)]
      constructor
      . intro hnumeral
        by_contra hshort
        have hspace := hnumeral.2 32 (by
          rw [List.mem_append, List.mem_replicate]
          right
          constructor
          . omega
          . rfl)
        exact absurd hspace (by decide)
      . intro hwidth
        have hpad : width.natAbs - (Bytes.decimal n.natAbs).length = 0 := by omega
        rw [hpad, List.replicate_zero, List.append_nil]
        exact ⟨hne, fun c => Bytes.digit_of_mem_decimal⟩
    . rw [sprintfPadded_eq_padded hn (by omega) (by omega)]
      constructor
      . intro _
        omega
      . intro _
        constructor
        . simp [Bytes.padded, Bytes.decimal_ne_nil]
        . intro c
          exact Bytes.digit_of_mem_padded

end Sprintf

section Hashed

variable {c : Core} {P : Platform} {readHistogram : String → Outcome Generator.Histogram} {p : Properties}

theorem buildKeyName_hashed (h : c.orderedInserts = false) (keyNum : Int)
    : buildKeyName c keyNum = c.keyPrefix ++ sprintfPadded c.zeroPadding (Util.hash64 keyNum) := by
  simp [buildKeyName, h]

theorem buildKeyName_hashed_iff (hcreate : create P readHistogram p = .ret c)
    (hhashed : p.insertOrder.getD "hashed" = "hashed") (keyNum : Int)
    : (∃ digits, Numeral digits ∧ buildKeyName c keyNum = p.keyPrefix.getD (Bytes.ofAscii "user") ++ digits)
        ↔
      -((Bytes.decimal (Util.hash64 keyNum).natAbs).length : Int) ≤ getInt64 p.zeroPadding 1
        ∧
      getInt64 p.zeroPadding 1 ≤ 1000000 := by
  have hkeys := keysCopied_of_create hcreate
  have hhash := Util.hash64_nonneg keyNum
  have hordered : c.orderedInserts = false := by
    rw [hkeys.orderedInserts, hhashed]
    rfl
  rw [← numeral_sprintfPadded_iff hhash.1 hhash.2, buildKeyName_hashed hordered, hkeys.keyPrefix, hkeys.zeroPadding]
  constructor
  . rintro ⟨digits, hdigits, heq⟩
    rw [List.append_cancel_left heq]
    exact hdigits
  . intro hnumeral
    exact ⟨_, hnumeral, rfl⟩

theorem hash64_nonneg_scrambled_named
    : (∀ n, 0 ≤ Util.hash64 n)
        ∧
      (∀ min max, I64.InRange min → I64.InRange max → min ≤ max → I64.InRange (max - min + 1) → ∀ d,
        ∃ n, (Generator.ScrambledZipfian.new min max).next d = .ret n ∧ min ≤ n ∧ n ≤ max)
        ∧
      (∀ P readHistogram p c, create P readHistogram p = .ret c → p.insertOrder.getD "hashed" = "hashed" → ∀ keyNum,
        ((∃ digits, Numeral digits ∧ buildKeyName c keyNum = p.keyPrefix.getD (Bytes.ofAscii "user") ++ digits)
          ↔
        -((Bytes.decimal (Util.hash64 keyNum).natAbs).length : Int) ≤ getInt64 p.zeroPadding 1
          ∧
        getInt64 p.zeroPadding 1 ≤ 1000000)) := by
  refine ⟨?_, ?_, ?_⟩
  . intro n
    exact (Util.hash64_nonneg n).1
  . intro min max hmin hmax hle hsize d
    exact Generator.ScrambledZipfian.next_mem hmin hmax hle hsize d
  . intro P readHistogram p c hcreate hhashed keyNum
    exact buildKeyName_hashed_iff hcreate hhashed keyNum

theorem hash64_nonneg_scrambled_named_default
    : 0 ≤ Util.hash64 (-1)
        ∧
      (∃ n, (Generator.ScrambledZipfian.new (-3) 3).next ⟨0, 0, 5⟩ = .ret n ∧ -3 ≤ n ∧ n ≤ 3)
        ∧
      (∃ c digits,
        create .exactAmd64 (fun _ => .running) {} = .ret c
          ∧
        Numeral digits
          ∧
        buildKeyName c 0 = Bytes.ofAscii "user" ++ digits) := by
  rcases exists_create .exactAmd64 (fun _ => .running) (p := {}) (by decide) rfl (by decide) rfl rfl with ⟨c, hc⟩
  have hall := hash64_nonneg_scrambled_named
  rcases (hall.2.2 _ _ _ c hc rfl 0).mpr (by decide) with ⟨digits, hdigits, hname⟩
  refine ⟨hall.1 (-1), ?_, c, digits, hc, hdigits, hname⟩
  exact hall.2.1 (-3) 3 (by decide) (by decide) (by decide) (by decide) ⟨0, 0, 5⟩

theorem hashed_key_name_has_space
    : ∃ c,
        create .exactAmd64 (fun _ => .running) { zeroPadding := some ⟨-20, by decide⟩ } = .ret c
          ∧
        buildKeyName c 0 = Bytes.ofAscii "user6284781860667377211 "
          ∧
        ¬ ∃ digits, Numeral digits ∧ buildKeyName c 0 = Bytes.ofAscii "user" ++ digits := by
  rcases exists_create .exactAmd64 (fun _ => .running) (p := { zeroPadding := some ⟨-20, by decide⟩ }) (by decide) rfl
    (by decide) rfl rfl with ⟨c, hc⟩
  have hkeys := keysCopied_of_create hc
  have hname : buildKeyName c 0 = Bytes.ofAscii "user6284781860667377211 " := by
    rw [buildKeyName_hashed hkeys.orderedInserts, hkeys.keyPrefix, hkeys.zeroPadding]
    decide
  refine ⟨c, hc, hname, ?_⟩
  rintro ⟨digits, hdigits, heq⟩
  have hspace : (32 : UInt8) ∈ digits := by
    have hdrop : digits = (Bytes.ofAscii "user6284781860667377211 ").drop 4 := by
      rw [← hname, heq]
      rfl
    rw [hdrop]
    decide
  exact absurd (hdigits.2 32 hspace) (by decide)

end Hashed

section Ordered

variable {c : Core}

theorem buildKeyName_padded (hordered : c.orderedInserts = true) (hwidth : 0 ≤ c.zeroPadding)
    (hmax : c.zeroPadding ≤ 1000000) {keyNum : Int} (hkeyNum : 0 ≤ keyNum)
    : buildKeyName c keyNum = c.keyPrefix ++ Bytes.padded c.zeroPadding.toNat keyNum.toNat := by
  simp [buildKeyName, hordered, sprintfPadded_eq_padded hkeyNum hwidth hmax]

theorem buildKeyName_injective (hordered : c.orderedInserts = true) (hwidth : 0 ≤ c.zeroPadding)
    (hmax : c.zeroPadding ≤ 1000000) {a b : Int} (ha : 0 ≤ a) (hb : 0 ≤ b)
    (h : buildKeyName c a = buildKeyName c b)
    : a = b := by
  rw [buildKeyName_padded hordered hwidth hmax ha, buildKeyName_padded hordered hwidth hmax hb] at h
  have hnat := Bytes.padded_injective (List.append_cancel_left h)
  omega

theorem buildKeyName_lt (hordered : c.orderedInserts = true) (hwidth : 0 ≤ c.zeroPadding)
    (hmax : c.zeroPadding ≤ 1000000) {a b : Int} (ha : 0 ≤ a) (hlt : a < b) (hb : b < 10 ^ c.zeroPadding.toNat)
    : buildKeyName c a < buildKeyName c b := by
  rw [buildKeyName_padded hordered hwidth hmax ha, buildKeyName_padded hordered hwidth hmax (by omega)]
  apply List.append_left_lt
  apply Bytes.padded_lt_padded
  . omega
  . zify
    rw [Int.toNat_of_nonneg (by omega)]
    exact hb

-- The order of the names is only used between numbers of the table, which fit the width.
theorem scan_padded (hordered : c.orderedInserts = true) (hwidth : 0 ≤ c.zeroPadding)
    (hmax : c.zeroPadding ≤ 1000000) {keyNums : List Int} (hnodup : keyNums.Nodup)
    (hfit : ∀ keyNum ∈ keyNums, 0 ≤ keyNum ∧ keyNum < 10 ^ c.zeroPadding.toNat) (wanted : Bytes → Bool)
    : KeyRange.keysWhere wanted (keyNums.map (buildKeyName c))
        =
      (KeyRange.keysWhere (fun keyNum => wanted (buildKeyName c keyNum)) keyNums).map (buildKeyName c) := by
  have hinj : ∀ a ∈ keyNums, ∀ b ∈ keyNums, buildKeyName c a = buildKeyName c b → a = b := by
    intro a ha b hb heq
    exact buildKeyName_injective hordered hwidth hmax (hfit a ha).1 (hfit b hb).1 heq
  have hscanned := KeyRange.nodup_keysWhere hnodup (fun keyNum => wanted (buildKeyName c keyNum))
  apply KeyRange.keysWhere_eq
  . exact List.Nodup.map_on hinj hnodup
  . rw [List.pairwise_map]
    apply (KeyRange.pairwise_keysWhere _ _).imp_of_mem
    intro a b ha hb hle
    rw [KeyRange.mem_keysWhere] at ha hb
    cases Int.lt_or_eq_of_le hle with
    | inl hlt =>
      apply List.le_of_lt
      exact buildKeyName_lt hordered hwidth hmax (hfit a ha.1).1 hlt (hfit b hb.1).2
    | inr heq =>
      rw [heq]
      exact List.le_refl _
  . apply List.Nodup.map_on _ hscanned
    intro a ha b hb
    rw [KeyRange.mem_keysWhere] at ha hb
    exact hinj a ha.1 b hb.1
  . intro key
    simp only [List.mem_map, KeyRange.mem_keysWhere]
    constructor
    . rintro ⟨keyNum, ⟨hmem, hwanted⟩, rfl⟩
      exact ⟨⟨keyNum, hmem, rfl⟩, hwanted⟩
    . rintro ⟨⟨keyNum, hmem, rfl⟩, hwanted⟩
      exact ⟨keyNum, ⟨hmem, hwanted⟩, rfl⟩

variable {P : Platform} {readHistogram : String → Outcome Generator.Histogram} {p : Properties}

theorem ordered_key_names (hcreate : create P readHistogram p = .ret c) (hordered : p.insertOrder = some "ordered")
    (hwidth : 0 ≤ getInt64 p.zeroPadding 1) (hmax : getInt64 p.zeroPadding 1 ≤ 1000000)
    : (∀ a b, 0 ≤ a → 0 ≤ b → (buildKeyName c a = buildKeyName c b ↔ a = b))
        ∧
      (∀ a b, 0 ≤ a → a < b → b < 10 ^ (getInt64 p.zeroPadding 1).toNat → buildKeyName c a < buildKeyName c b)
        ∧
      (∀ keyNums : List Int, keyNums.Nodup
        → (∀ keyNum ∈ keyNums, 0 ≤ keyNum ∧ keyNum < 10 ^ (getInt64 p.zeroPadding 1).toNat)
        → ∀ wanted : Bytes → Bool,
          KeyRange.keysWhere wanted (keyNums.map (buildKeyName c))
            =
          (KeyRange.keysWhere (fun keyNum => wanted (buildKeyName c keyNum)) keyNums).map (buildKeyName c)) := by
  have hkeys := keysCopied_of_create hcreate
  have hinserts : c.orderedInserts = true := by
    rw [hkeys.orderedInserts, hordered]
    rfl
  rw [← hkeys.zeroPadding] at hwidth hmax ⊢
  refine ⟨?_, ?_, ?_⟩
  . intro a b ha hb
    constructor
    . intro heq
      exact buildKeyName_injective hinserts hwidth hmax ha hb heq
    . intro heq
      rw [heq]
  . intro a b ha hlt hb
    exact buildKeyName_lt hinserts hwidth hmax ha hlt hb
  . intro keyNums hnodup hfit wanted
    exact scan_padded hinserts hwidth hmax hnodup hfit wanted

theorem ordered_key_names_two_digits
    : ∃ c,
        create .exactAmd64 (fun _ => .running)
          { insertOrder := some "ordered", zeroPadding := some ⟨2, by decide⟩ } = .ret c
          ∧
        (buildKeyName c 7 = buildKeyName c 12 ↔ (7 : Int) = 12)
          ∧
        buildKeyName c 7 < buildKeyName c 12
          ∧
        KeyRange.keysWhere (fun _ => true) ([12, 7].map (buildKeyName c)) = [7, 12].map (buildKeyName c) := by
  rcases exists_create .exactAmd64 (fun _ => .running)
    (p := { insertOrder := some "ordered", zeroPadding := some ⟨2, by decide⟩ }) (by decide) rfl (by decide) rfl rfl
    with ⟨c, hc⟩
  have hnames := ordered_key_names hc rfl (by decide) (by decide)
  refine ⟨c, hc, ?_, ?_, ?_⟩
  . exact hnames.1 7 12 (by decide) (by decide)
  . exact hnames.2.1 7 12 (by decide) (by decide) (by decide)
  . rw [hnames.2.2 [12, 7] (by decide) (by decide)]
    rfl

end Ordered
