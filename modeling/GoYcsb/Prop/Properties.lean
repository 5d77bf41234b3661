import GoYcsb.Lib.Bytes
import GoYcsb.Lib.Float64

/-!
This module contains the properties a benchmark is configured with. A property that is not set has the
value `none` here, its default stands where the property is read.
-/

structure Properties where
  fieldCount : Option I64.Value := none
  fieldLengthDistribution : Option String := none
  fieldLength : Option I64.Value := none
  fieldLengthHistogramFile : Option String := none
  recordCount : Option I64.Value := none
  requestDistribution : Option String := none
  minScanLength : Option I64.Value := none
  maxScanLength : Option I64.Value := none
  scanLengthDistribution : Option String := none
  insertStart : Option I64.Value := none
  insertCount : Option I64.Value := none
  zeroPadding : Option I64.Value := none
  keyPrefix : Option Bytes := none
  readAllFields : Option Bool := none
  writeAllFields : Option Bool := none
  dataIntegrity : Option Bool := none
  insertOrder : Option String := none
  readProportion : Option F64 := none
  updateProportion : Option F64 := none
  insertProportion : Option F64 := none
  scanProportion : Option F64 := none
  readModifyWriteProportion : Option F64 := none
  operationCount : Option I64.Value := none
  hotspotDataFraction : Option F64 := none
  hotspotOpnFraction : Option F64 := none
  exponentialPercentile : Option F64 := none
  exponentialFrac : Option F64 := none
  insertionRetryLimit : Option I64.Value := none
  insertionRetryInterval : Option I64.Value := none
  threadCount : Option I64.Value := none
  batchSize : Option I64.Value := none
  doTransactions : Option Bool := none
  warmUpTime : Option I64.Value := none
  tikvUpdateMode : Option String := none

def getInt64 (x : Option I64.Value) (default : Int) : Int :=
  match x with
  | some v => v.val
  | none => default

namespace Properties

def getFieldCount (p : Properties) : Int := getInt64 p.fieldCount 10

def getFieldLength (p : Properties) : Int := getInt64 p.fieldLength 100

def getRecordCount (p : Properties) : Int :=
  let recordCount := getInt64 p.recordCount 0
  if recordCount = 0 then
    2147483647
  else
    recordCount

def getInsertStart (p : Properties) : Int := getInt64 p.insertStart 0

def getInsertCount (p : Properties) : Int :=
  getInt64 p.insertCount (I64.sub p.getRecordCount p.getInsertStart)

def getFieldLengthDistribution (p : Properties) : String :=
  p.fieldLengthDistribution.getD "constant"

def getDataIntegrity (p : Properties) : Bool := p.dataIntegrity.getD false

def getInsertProportion (p : Properties) : F64 := p.insertProportion.getD (.fin 0)

end Properties

def fieldName (i : Nat) : Bytes := Bytes.ofAscii "field" ++ Bytes.decimal i
