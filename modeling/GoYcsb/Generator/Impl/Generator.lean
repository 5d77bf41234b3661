import GoYcsb.Generator.Impl.AcknowledgedCounter
import GoYcsb.Lib.Float64
import GoYcsb.Lib.Outcome
import GoYcsb.Util.Hash

/-!
This module contains the generators of `pkg/generator` that draw numbers at random or in turn. What a
generator gets from the random source is a `Draw`. The value the generator remembers in its `Number`
is left out, nobody asks these generators for it.
-/

structure Fraction where
  val : Rat
  nonneg : 0 ≤ val
  lt_one : val < 1
  deriving DecidableEq, Repr

instance : Zero Fraction := ⟨⟨0, le_refl 0, one_pos⟩⟩

-- The floating point part of `Zipfian.next` is not modelled, `zipfian` is the offset it comes to.
structure Draw where
  int63 : Nat
  fraction : Fraction
  zipfian : Int
  deriving DecidableEq, Repr

namespace Draw

def int63n (d : Draw) (n : Int) : Outcome Int :=
  if n ≤ 0 then
    .panic "invalid argument to Int63n"
  else
    .ret (d.int63 % n)

def float64 (d : Draw) : Rat := d.fraction.val

end Draw

def I64.rem (x y : Int) : Outcome Int :=
  if y = 0 then
    .panic "runtime error: integer divide by zero"
  else
    .ret (x.tmod y)

namespace Generator

structure Constant where
  value : Int
  deriving DecidableEq, Repr

structure Uniform where
  lb : Int
  ub : Int
  interval : Int
  deriving DecidableEq, Repr

def Uniform.new (lb ub : Int) : Uniform where
  lb
  ub
  interval := I64.add (I64.sub ub lb) 1

def Uniform.next (u : Uniform) (d : Draw) : Outcome Int := do
  let n ← d.int63n u.interval
  return I64.add n u.lb

structure Sequential where
  counter : Int
  interval : Int
  start : Int
  deriving DecidableEq, Repr

def Sequential.new (countStart countEnd : Int) : Sequential where
  counter := 0
  start := countStart
  interval := I64.add (I64.sub countEnd countStart) 1

def Sequential.next (s : Sequential) : Outcome (Int × Sequential) := do
  let counter := I64.add s.counter 1
  let n ← I64.rem counter s.interval
  return (I64.add s.start n, { s with counter })

structure Zipfian where
  items : Int
  base : Int
  deriving DecidableEq, Repr

def Zipfian.newWithRange (min max : Int) : Zipfian where
  items := I64.add (I64.sub max min) 1
  base := min

def Zipfian.newWithItems (items : Int) : Zipfian := Zipfian.newWithRange 0 (I64.sub items 1)

def Zipfian.next (z : Zipfian) (d : Draw) : Int := I64.add z.base d.zipfian

structure ScrambledZipfian where
  gen : Zipfian
  min : Int
  max : Int
  itemCount : Int
  deriving DecidableEq, Repr

def ScrambledZipfian.new (min max : Int) : ScrambledZipfian where
  gen := Zipfian.newWithRange 0 10000000000
  min
  max
  itemCount := I64.add (I64.sub max min) 1

def ScrambledZipfian.next (s : ScrambledZipfian) (d : Draw) : Outcome Int := do
  let n := s.gen.next d
  let n ← I64.rem (Util.hash64 n) s.itemCount
  return I64.add s.min n

structure SkewedLatest where
  zipfian : Zipfian
  deriving DecidableEq, Repr

def SkewedLatest.new (last : Int) : SkewedLatest where
  zipfian := Zipfian.newWithItems last

def SkewedLatest.next (s : SkewedLatest) (last : Int) (d : Draw) : Int :=
  let max := last
  I64.sub max (s.zipfian.next d)

structure Hotspot where
  lowerBound : Int
  upperBound : Int
  hotInterval : Int
  coldInterval : Int
  hotsetFraction : F64
  hotOpnFraction : F64
  deriving DecidableEq, Repr

def Hotspot.clamp (fraction : F64) : F64 :=
  if fraction.lt (.fin 0) || F64.lt (.fin 1) fraction then .fin 0 else fraction

def Hotspot.new (P : Platform) (lowerBound upperBound : Int) (hotsetFraction hotOpnFraction : F64)
    : Hotspot :=
  let hotsetFraction := clamp hotsetFraction
  let hotOpnFraction := clamp hotOpnFraction
  let (lowerBound, upperBound) :=
    if lowerBound > upperBound then (upperBound, lowerBound) else (lowerBound, upperBound)
  let interval := I64.add (I64.sub upperBound lowerBound) 1
  let hotInterval := ((F64.ofInt P interval).mul P hotsetFraction).toInt64 P
  {
    lowerBound,
    upperBound,
    hotsetFraction,
    hotOpnFraction,
    hotInterval,
    coldInterval := I64.sub interval hotInterval
  }

def Hotspot.next (h : Hotspot) (d : Draw) : Outcome Int := do
  if F64.lt (.fin d.float64) h.hotOpnFraction then
    let n ← d.int63n h.hotInterval
    return I64.add h.lowerBound n
  else
    let n ← d.int63n h.coldInterval
    return I64.add (I64.add h.lowerBound h.hotInterval) n

structure Exponential where
  gamma : F64
  deriving DecidableEq, Repr

def Exponential.new (P : Platform) (percentile rng : F64) : Exponential where
  gamma := (P.log (F64.sub P (.fin 1) (percentile.div P (.fin 100)))).neg.div P rng

def Exponential.next (P : Platform) (e : Exponential) (d : Draw) : Int :=
  ((P.log (.fin d.float64)).neg.div P e.gamma).toInt64 P

structure Histogram where
  blockSize : Int
  buckets : List Int
  area : Int
  deriving DecidableEq, Repr

def Histogram.new (buckets : List Int) (blockSize : Int) : Histogram where
  blockSize
  buckets
  area := buckets.foldl I64.add 0

def Histogram.search (blockSize i n : Int) (buckets : List Int) : Int :=
  match buckets with
  | [] => I64.mul i blockSize
  | [_] => I64.mul i blockSize
  | b :: buckets =>
    let n := I64.sub n b
    if n ≤ 0 then
      I64.mul (i + 1) blockSize
    else
      search blockSize (i + 1) n buckets

def Histogram.next (h : Histogram) (d : Draw) : Outcome Int := do
  let n ← d.int63n h.area
  return search h.blockSize 0 n h.buckets

structure Discrete (α : Type u) where
  values : List (F64 × α)
  deriving DecidableEq, Repr

def Discrete.add (d : Discrete α) (weight : F64) (value : α) : Discrete α where
  values := d.values ++ [(weight, value)]

def Discrete.search (P : Platform) (sum val : F64) (values : List (F64 × α)) : Outcome α :=
  match values with
  | [] => .panic "oops, should not get here."
  | (weight, value) :: values =>
    let pw := weight.div P sum
    if val.lt pw then
      .ret value
    else
      search P sum (val.sub P pw) values

def Discrete.next (P : Platform) (d : Discrete α) (draw : Draw) : Outcome α :=
  let sum := d.values.foldl (fun sum p => sum.add P p.1) (.fin 0)
  search P sum (.fin draw.float64) d.values

end Generator

inductive Generator where
  | constant (c : Generator.Constant)
  | uniform (u : Generator.Uniform)
  | sequential (s : Generator.Sequential)
  | zipfian (z : Generator.Zipfian)
  | scrambledZipfian (s : Generator.ScrambledZipfian)
  | skewedLatest (s : Generator.SkewedLatest)
  | hotspot (h : Generator.Hotspot)
  | exponential (e : Generator.Exponential)
  | histogram (h : Generator.Histogram)
  deriving DecidableEq, Repr

namespace Generator

def next (P : Platform) (last : Int) (d : Draw) (g : Generator) : Outcome (Int × Generator) :=
  match g with
  | .constant c => .ret (c.value, g)
  | .uniform u => do
    let n ← u.next d
    return (n, g)
  | .sequential s => do
    let (n, s) ← s.next
    return (n, .sequential s)
  | .zipfian z => .ret (z.next d, g)
  | .scrambledZipfian s => do
    let n ← s.next d
    return (n, g)
  | .skewedLatest s => .ret (s.next last d, g)
  | .hotspot h => do
    let n ← h.next d
    return (n, g)
  | .exponential e => .ret (e.next P d, g)
  | .histogram h => do
    let n ← h.next d
    return (n, g)

def DrawInRange (last : Int) (d : Draw) (g : Generator) : Prop :=
  match g with
  | .zipfian z => 0 ≤ d.zipfian ∧ d.zipfian ≤ z.items
  | .scrambledZipfian s => 0 ≤ d.zipfian ∧ d.zipfian ≤ s.gen.items
  | .skewedLatest _ => 0 ≤ d.zipfian ∧ d.zipfian ≤ last
  | .constant _ | .uniform _ | .sequential _ | .hotspot _ | .exponential _ | .histogram _ => True

instance (last : Int) (d : Draw) (g : Generator) : Decidable (g.DrawInRange last d) := by
  unfold DrawInRange; cases g <;> infer_instance

end Generator
