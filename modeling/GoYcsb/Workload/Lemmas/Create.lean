import GoYcsb.Workload.Impl.Create

/-!
This module contains what holds of every workload that `GoYcsb.Workload.Impl.Create` has accepted.
-/

structure Created (P : Platform) (readHistogram : String → Outcome Generator.Histogram)
    (p : Properties) (c : Core) : Prop where
  fieldNames : makeFieldNames p.getFieldCount = .ret c.fieldNames
  fieldLengthGenerator : getFieldLengthGenerator readHistogram p = .ret c.fieldLengthGenerator
  insertRange : checkInsertRange p = .ret ()
  constantLength : checkDataIntegrity p = .ret ()
  dataIntegrity : c.dataIntegrity = p.getDataIntegrity
  fieldLength : c.fieldLength = p.getFieldLength
  sequence : c.transactionInsertKeySequence = AcknowledgedCounter.new p.getRecordCount
  keyChooser : createKeyChooser P p (AcknowledgedCounter.new p.getRecordCount) = .ret c.keyChooser

structure Copied (p : Properties) (c : Core) : Prop where
  keySequence : c.keySequence = Counter.new p.getInsertStart
  insertionRetryLimit : c.insertionRetryLimit = getInt64 p.insertionRetryLimit 0
  writeAllFields : c.writeAllFields = p.writeAllFields.getD false
  fieldChooser : c.fieldChooser = .uniform (.new 0 (I64.sub p.getFieldCount 1))

structure KeysCopied (p : Properties) (c : Core) : Prop where
  orderedInserts : c.orderedInserts = (p.insertOrder.getD "hashed" != "hashed")
  zeroPadding : c.zeroPadding = getInt64 p.zeroPadding 1
  keyPrefix : c.keyPrefix = p.keyPrefix.getD (Bytes.ofAscii "user")

section

variable {P : Platform} {readHistogram : String → Outcome Generator.Histogram} {p : Properties} {c : Core}

theorem parts_of_create (h : create P readHistogram p = .ret c)
    : Created P readHistogram p c ∧ Copied p c ∧ KeysCopied p c := by
  rcases Outcome.bind_eq_ret h with ⟨fieldNames, hnames, h⟩
  rcases Outcome.bind_eq_ret h with ⟨fieldLengthGenerator, hlength, h⟩
  rcases Outcome.bind_eq_ret h with ⟨_, hrange, h⟩
  rcases Outcome.bind_eq_ret h with ⟨_, hconstant, h⟩
  rcases Outcome.bind_eq_ret h with ⟨keyChooser, hchooser, h⟩
  rcases Outcome.bind_eq_ret h with ⟨scanLength, _, h⟩
  simp only [Outcome.pure_eq, Outcome.ret.injEq] at h
  subst h
  exact ⟨⟨hnames, hlength, hrange, hconstant, rfl, rfl, rfl, hchooser⟩, ⟨rfl, rfl, rfl, rfl⟩, ⟨rfl, rfl, rfl⟩⟩

theorem created_of_create (h : create P readHistogram p = .ret c) : Created P readHistogram p c :=
  (parts_of_create h).1

theorem copied_of_create (h : create P readHistogram p = .ret c) : Copied p c := (parts_of_create h).2.1

theorem keysCopied_of_create (h : create P readHistogram p = .ret c) : KeysCopied p c := (parts_of_create h).2.2

end

theorem Properties.getFieldLength_lt (p : Properties) : p.getFieldLength < 2 ^ 63 := by
  unfold getFieldLength getInt64
  cases p.fieldLength with
  | none => decide
  | some v => exact v.property.2

theorem Properties.getRecordCount_lt (p : Properties) : p.getRecordCount < 2 ^ 63 := by
  unfold getRecordCount getInt64
  cases p.recordCount with
  | none => decide
  | some v =>
    have hv := v.property.2
    dsimp only
    split <;> omega

section

variable {P : Platform} {readHistogram : String → Outcome Generator.Histogram} {p : Properties} {c : Core}

theorem getFieldLengthGenerator_constant (readHistogram : String → Outcome Generator.Histogram)
    (hname : p.getFieldLengthDistribution = "constant")
    : getFieldLengthGenerator readHistogram p = .ret (.constant ⟨p.getFieldLength⟩) := by
  have hlower : p.getFieldLengthDistribution.toLower = "constant" := by
    rw [hname]
    decide +kernel
  unfold getFieldLengthGenerator
  simp only [hlower]

theorem Created.constant_of_distribution (h : Created P readHistogram p c)
    (hname : p.getFieldLengthDistribution = "constant")
    : c.fieldLengthGenerator = .constant ⟨p.getFieldLength⟩ := by
  have hlength := h.fieldLengthGenerator
  rw [getFieldLengthGenerator_constant readHistogram hname, Outcome.ret.injEq] at hlength
  apply hlength.symm

-- The workload can be created with the distributions that are the defaults.
theorem exists_create (P : Platform) (readHistogram : String → Outcome Generator.Histogram)
    (hcount : 0 ≤ p.getFieldCount) (hname : p.getFieldLengthDistribution = "constant")
    (hrange : I64.add p.getInsertStart p.getInsertCount ≤ p.getRecordCount)
    (hrequest : p.requestDistribution = none) (hscan : p.scanLengthDistribution = none)
    : ∃ c, create P readHistogram p = .ret c := by
  have hnames : makeFieldNames p.getFieldCount = .ret ((List.range p.getFieldCount.toNat).map fieldName) :=
    if_neg (not_lt_of_ge hcount)
  have hinsert : checkInsertRange p = .ret () := if_neg (not_lt_of_ge hrange)
  have hintegrity : checkDataIntegrity p = .ret () := by
    unfold checkDataIntegrity
    rw [hname]
    simp
  have hlength := getFieldLengthGenerator_constant readHistogram hname
  unfold create createKeyChooser createScanLength
  simp only [hnames, hlength, hinsert, hintegrity, hrequest, hscan, Outcome.ret_bind]
  exact ⟨_, rfl⟩

-- The check of the data integrity compares the name as it is, the generator is chosen by its lower case.
theorem Created.constant (h : Created P readHistogram p c) (hintegrity : p.getDataIntegrity = true)
    : c.fieldLengthGenerator = .constant ⟨p.getFieldLength⟩ := by
  have hconstant := h.constantLength
  unfold checkDataIntegrity at hconstant
  split at hconstant
  . contradiction
  . next hname =>
    simp only [hintegrity, Bool.true_and, bne_iff_ne, ne_eq, not_not] at hname
    exact h.constant_of_distribution hname

end
