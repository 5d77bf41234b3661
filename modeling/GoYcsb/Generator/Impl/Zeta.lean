import GoYcsb.Generator.Impl.Generator

/-!
This module contains the generator `Zipfian` of `pkg/generator` with the sums it keeps, and the calls that
goroutines make to it. The floating point operations are parameters, nothing is assumed about them.
-/

namespace Zeta

structure Floats (F : Type u) where
  -- `float64(n)`, also the constants that are integers
  ofInt : Int → F
  half : F
  add : F → F → F
  sub : F → F → F
  mul : F → F → F
  div : F → F → F
  pow : F → F → F
  lt : F → F → Bool
  toInt64 : F → Int
  -- `1 / math.Pow(float64(i+1), theta)`
  term : Int → F → F

structure Zipfian (F : Type u) where
  items : Int
  base : Int
  zipfianConstant : F
  alpha : F
  zetan : F
  theta : F
  eta : F
  zeta2Theta : F
  countForZeta : Int
  allowItemCountDecrease : Bool
  deriving DecidableEq, Repr

section

variable {F : Type u} (ops : Floats F)

def zetaStatic (st n : Int) (theta initialSum : F) : F :=
  (List.range (n - st).toNat).foldl (fun sum (k : Nat) => ops.add sum (ops.term (st + k) theta)) initialSum

namespace Zipfian

def zeta (z : Zipfian F) (st n : Int) (thetaVal initialSum : F) : F × Zipfian F :=
  (zetaStatic ops st n thetaVal initialSum, { z with countForZeta := n })

def computeEta (z : Zipfian F) : F :=
  ops.div
    (ops.sub (ops.ofInt 1) (ops.pow (ops.div (ops.ofInt 2) (ops.ofInt z.items)) (ops.sub (ops.ofInt 1) z.theta)))
    (ops.sub (ops.ofInt 1) (ops.div z.zeta2Theta z.zetan))

def extend (z : Zipfian F) (itemCount : Int) : Zipfian F :=
  if itemCount > z.countForZeta then
    let sum := z.zeta ops z.countForZeta itemCount z.theta z.zetan
    let z := { sum.2 with zetan := sum.1 }
    { z with eta := z.computeEta ops }
  else if itemCount < z.countForZeta && z.allowItemCountDecrease then
    let sum := z.zeta ops 0 itemCount z.theta (ops.ofInt 0)
    let z := { sum.2 with zetan := sum.1 }
    { z with eta := z.computeEta ops }
  else
    z

def draw (z : Zipfian F) (u : F) (itemCount : Int) : Int :=
  let uz := ops.mul u z.zetan
  if ops.lt uz (ops.ofInt 1) then
    z.base
  else if ops.lt uz (ops.add (ops.ofInt 1) (ops.pow ops.half z.theta)) then
    I64.add z.base 1
  else
    let x := ops.add (ops.sub (ops.mul z.eta u) z.eta) (ops.ofInt 1)
    I64.add z.base (ops.toInt64 (ops.mul (ops.ofInt itemCount) (ops.pow x z.alpha)))

def next (z : Zipfian F) (u : F) (itemCount : Int) : Int × Zipfian F :=
  let z := if itemCount ≠ z.countForZeta then z.extend ops itemCount else z
  (z.draw ops u itemCount, z)

end Zipfian

def newZipfian (min max : Int) (zipfianConstant zetan u : F) : Zipfian F :=
  let items := I64.add (I64.sub max min) 1
  let theta := zipfianConstant
  let zero := ops.ofInt 0
  let z : Zipfian F := {
    items,
    base := min,
    zipfianConstant,
    theta,
    alpha := zero,
    zetan := zero,
    eta := zero,
    zeta2Theta := zero,
    countForZeta := 0,
    allowItemCountDecrease := false
  }
  let sum := z.zeta ops 0 2 theta zero
  let z := { sum.2 with zeta2Theta := sum.1 }
  let z := {
    z with
    alpha := ops.div (ops.ofInt 1) (ops.sub (ops.ofInt 1) theta),
    zetan,
    countForZeta := items
  }
  let z := { z with eta := z.computeEta ops }
  (z.next ops u z.items).2

def newZipfianWithRange (min max : Int) (zipfianConstant u : F) : Zipfian F :=
  newZipfian ops min max zipfianConstant
    (zetaStatic ops 0 (I64.add (I64.sub max min) 1) zipfianConstant (ops.ofInt 0)) u

end

/--
The generator together with the calls of `next` that are under way: `waiting` are the item counts of those that have
found another count than their own and are going to take the lock, `seen` of those that are past that point.
-/
structure Calls (F : Type u) where
  zipfian : Zipfian F
  waiting : List Int
  seen : List Int
  deriving DecidableEq, Repr

inductive Action where
  -- the comparison outside of the lock
  | compare (itemCount : Int)
  -- the section between `Lock` and `Unlock`
  | locked (itemCount : Int)
  deriving DecidableEq, Repr

namespace Calls

variable {F : Type u} (ops : Floats F)

def step (s : Calls F) (action : Action) : Option (Calls F) :=
  match action with
  | .compare itemCount =>
    if itemCount ≠ s.zipfian.countForZeta then
      some { s with waiting := itemCount :: s.waiting }
    else
      some { s with seen := itemCount :: s.seen }
  | .locked itemCount =>
    if itemCount ∈ s.waiting then
      some {
        zipfian := s.zipfian.extend ops itemCount,
        waiting := s.waiting.erase itemCount,
        seen := itemCount :: s.seen
      }
    else
      none

def new (z : Zipfian F) : Calls F where
  zipfian := z
  waiting := []
  seen := []

end Calls

def Action.call (action : Action) : Option Int :=
  match action with
  | .compare itemCount => some itemCount
  | .locked _ => none

end Zeta
