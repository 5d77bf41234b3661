import GoYcsb.Generator.Impl.Generator
import GoYcsb.Prop.Properties

/-!
This module contains the core workload as `coreCreator.Create` makes it from the properties. The table
name and the print out of the key range are left out.
-/

inductive OperationType where
  | read
  | update
  | insert
  | scan
  | readModifyWrite
  deriving DecidableEq, Repr

structure Core where
  fieldCount : Int
  fieldNames : List Bytes
  fieldLengthGenerator : Generator
  readAllFields : Bool
  writeAllFields : Bool
  dataIntegrity : Bool
  keySequence : Counter
  operationChooser : Generator.Discrete OperationType
  keyChooser : Generator
  fieldChooser : Generator
  transactionInsertKeySequence : AcknowledgedCounter
  scanLength : Generator
  orderedInserts : Bool
  recordCount : Int
  zeroPadding : Int
  keyPrefix : Bytes
  insertionRetryLimit : Int
  insertionRetryInterval : Int
  -- the length of the buffers that the pool allocates
  fieldLength : Int

def makeFieldNames (fieldCount : Int) : Outcome (List Bytes) :=
  if fieldCount < 0 then
    .panic "runtime error: makeslice: len out of range"
  else
    .ret ((List.range fieldCount.toNat).map fieldName)

-- `readHistogram` is `NewHistogramFromFile`, on the files there are.
def getFieldLengthGenerator (readHistogram : String → Outcome Generator.Histogram) (p : Properties)
    : Outcome Generator :=
  let fieldLengthDistribution := p.getFieldLengthDistribution
  let fieldLength := p.getFieldLength
  let fieldLengthHistogram := p.fieldLengthHistogramFile.getD "hist.txt"
  match fieldLengthDistribution.toLower with
  | "constant" => .ret (.constant ⟨fieldLength⟩)
  | "uniform" => .ret (.uniform (.new 1 fieldLength))
  | "zipfian" => .ret (.zipfian (.newWithRange 1 fieldLength))
  | "histogram" => do
    let h ← readHistogram fieldLengthHistogram
    return .histogram h
  | _ => .exit s!"unknown field length distribution {fieldLengthDistribution}"

def createOperationGenerator (P : Platform) (p : Properties) : Generator.Discrete OperationType :=
  let readProportion := p.readProportion.getD (.ofRat P (95 / 100))
  let updateProportion := p.updateProportion.getD (.ofRat P (5 / 100))
  let insertProportion := p.getInsertProportion
  let scanProportion := p.scanProportion.getD (.fin 0)
  let readModifyWriteProportion := p.readModifyWriteProportion.getD (.fin 0)
  let addPositive (chooser : Generator.Discrete OperationType) (op : F64 × OperationType) :=
    if F64.lt (.fin 0) op.1 then chooser.add op.1 op.2 else chooser
  [(readProportion, .read), (updateProportion, .update), (insertProportion, .insert),
    (scanProportion, .scan), (readModifyWriteProportion, .readModifyWrite)].foldl addPositive ⟨[]⟩

def checkInsertRange (p : Properties) : Outcome Unit :=
  let recordCount := p.getRecordCount
  let insertStart := p.getInsertStart
  let insertCount := p.getInsertCount
  if recordCount < I64.add insertStart insertCount then
    .exit s!"record count {recordCount} must be bigger than insert start {insertStart} + count {insertCount}"
  else
    .ret ()

def checkDataIntegrity (p : Properties) : Outcome Unit :=
  if p.getDataIntegrity && p.getFieldLengthDistribution != "constant" then
    .exit "must have constant field size to check data integrity"
  else
    .ret ()

def createKeyChooser (P : Platform) (p : Properties)
    (transactionInsertKeySequence : AcknowledgedCounter) : Outcome Generator :=
  let recordCount := p.getRecordCount
  let insertStart := p.getInsertStart
  let insertCount := p.getInsertCount
  let keyrangeLowerBound := insertStart
  let keyrangeUpperBound := I64.sub (I64.add insertStart insertCount) 1
  let requestDistrib := p.requestDistribution.getD "uniform"
  match requestDistrib with
  | "uniform" => .ret (.uniform (.new keyrangeLowerBound keyrangeUpperBound))
  | "sequential" => .ret (.sequential (.new keyrangeLowerBound keyrangeUpperBound))
  | "zipfian" =>
    let insertProportion := p.getInsertProportion
    let opCount := getInt64 p.operationCount 0
    let expectedNewKeys :=
      (((F64.ofInt P opCount).mul P insertProportion).mul P (.fin 2)).toInt64 P
    let keyrangeUpperBound := I64.add (I64.add insertStart insertCount) expectedNewKeys
    .ret (.scrambledZipfian (.new keyrangeLowerBound keyrangeUpperBound))
  | "latest" => .ret (.skewedLatest (.new transactionInsertKeySequence.last))
  | "hotspot" =>
    let hotsetFraction := p.hotspotDataFraction.getD (.ofRat P (2 / 10))
    let hotopnFraction := p.hotspotOpnFraction.getD (.ofRat P (8 / 10))
    .ret (.hotspot (.new P keyrangeLowerBound keyrangeUpperBound hotsetFraction hotopnFraction))
  | "exponential" =>
    let percentile := p.exponentialPercentile.getD (.fin 95)
    let frac := p.exponentialFrac.getD (.ofRat P (8571428571 / 10000000000))
    .ret (.exponential (.new P percentile ((F64.ofInt P recordCount).mul P frac)))
  | _ => .exit s!"unknown request distribution {requestDistrib}"

def createScanLength (p : Properties) : Outcome Generator :=
  let minScanLength := getInt64 p.minScanLength 1
  let maxScanLength := getInt64 p.maxScanLength 1000
  let scanLengthDistrib := p.scanLengthDistribution.getD "uniform"
  match scanLengthDistrib with
  | "uniform" => .ret (.uniform (.new minScanLength maxScanLength))
  | "zipfian" => .ret (.zipfian (.newWithRange minScanLength maxScanLength))
  | _ => .exit s!"distribution {scanLengthDistrib} not allowed for scan length"

def create (P : Platform) (readHistogram : String → Outcome Generator.Histogram) (p : Properties)
    : Outcome Core := do
  let fieldCount := p.getFieldCount
  let fieldNames ← makeFieldNames fieldCount
  let fieldLengthGenerator ← getFieldLengthGenerator readHistogram p
  let recordCount := p.getRecordCount
  checkInsertRange p
  checkDataIntegrity p
  let transactionInsertKeySequence := AcknowledgedCounter.new recordCount
  let keyChooser ← createKeyChooser P p transactionInsertKeySequence
  let scanLength ← createScanLength p
  return {
    fieldCount,
    fieldNames,
    fieldLengthGenerator,
    readAllFields := p.readAllFields.getD true,
    writeAllFields := p.writeAllFields.getD false,
    dataIntegrity := p.getDataIntegrity,
    keySequence := Counter.new p.getInsertStart,
    operationChooser := createOperationGenerator P p,
    keyChooser,
    fieldChooser := .uniform (.new 0 (I64.sub fieldCount 1)),
    transactionInsertKeySequence,
    scanLength,
    orderedInserts := p.insertOrder.getD "hashed" != "hashed",
    recordCount,
    zeroPadding := getInt64 p.zeroPadding 1,
    keyPrefix := p.keyPrefix.getD (Bytes.ofAscii "user"),
    insertionRetryLimit := getInt64 p.insertionRetryLimit 0,
    insertionRetryInterval := getInt64 p.insertionRetryInterval 3,
    fieldLength := p.getFieldLength
  }
