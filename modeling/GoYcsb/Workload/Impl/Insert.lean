import GoYcsb.Generator.Impl.Session

/-!
This module contains any number of workers that run `doTransactionInsert` and
`doBatchTransactionInsert`, as far as the order of the steps `Next`, start of the database call,
return of the database call and `Acknowledge` is concerned.
-/

-- The step that a worker has arrived at. `keys` are the key numbers that the batch has taken so far,
-- `left` is the number of those it still has to take.
inductive InsertPC where
  | idle
  | insert (keyNum : Int)
  | inserting (keyNum : Int)
  | acknowledge (keyNum : Int)
  | batchNext (left : Nat) (keys : List Int)
  | batchAcknowledge (left : Nat) (keyNum : Int) (keys : List Int)
  | batchInsert (keys : List Int)
  | batchInserting (keys : List Int)
  deriving DecidableEq, Repr

namespace InsertPC

def fresh (pc : InsertPC) : List Int :=
  match pc with
  | .insert keyNum | .inserting keyNum | .batchAcknowledge _ keyNum _ => [keyNum]
  | .idle | .acknowledge _ | .batchNext _ _ | .batchInsert _ | .batchInserting _ => []

def late (pc : InsertPC) : List Int :=
  match pc with
  | .acknowledge keyNum => [keyNum]
  | .idle | .insert _ | .inserting _ | .batchNext _ _ | .batchAcknowledge _ _ _ | .batchInsert _
  | .batchInserting _ => []

-- Key numbers that are acknowledged although the call that writes them has not returned.
def early (pc : InsertPC) : List Int :=
  match pc with
  | .batchNext _ keys | .batchAcknowledge _ _ keys | .batchInsert keys | .batchInserting keys => keys
  | .idle | .insert _ | .inserting _ | .acknowledge _ => []

end InsertPC

-- The sequence of the key numbers and the workers, together with the key numbers whose `Insert` or
-- `BatchInsert` has returned.
structure Inserting (W : Type u) where
  session : Session
  pc : W → InsertPC
  returned : List Int

namespace Inserting

inductive Label (W : Type u) where
  | doTransactionInsert (w : W)
  | doBatchTransactionInsert (w : W) (batchSize : Nat)
  | step (w : W)
  deriving DecidableEq, Repr

def Label.BatchIn {W : Type u} (sizes : Nat → Prop) (label : Label W) : Prop :=
  match label with
  | .doBatchTransactionInsert _ batchSize => sizes batchSize
  | .doTransactionInsert _ | .step _ => True

variable {W : Type u} [DecidableEq W]

def new (recordCount : Int) : Inserting W where
  session := Session.new recordCount
  pc := fun _ => .idle
  returned := []

def last (s : Inserting W) : Int := s.session.a.last

def goto (s : Inserting W) (w : W) (pc : InsertPC) : Inserting W :=
  { s with pc := Function.update s.pc w pc }

def takeNext (s : Inserting W) (w : W) (pc : Int → InsertPC) : Inserting W :=
  { s with session := s.session.next }.goto w (pc s.session.a.next.1)

def takeAcknowledge (fuel : Nat) (s : Inserting W) (w : W) (keyNum : Int) (pc : InsertPC)
    : Option (Inserting W) :=
  match s.session.acknowledge fuel keyNum with
  | .ret session => some ({ s with session }.goto w pc)
  | .panic _ | .exit _ | .running => none

def takeReturn (s : Inserting W) (w : W) (keys : List Int) (pc : InsertPC) : Inserting W :=
  { s with returned := keys ++ s.returned }.goto w pc

def step (fuel : Nat) (s : Inserting W) (label : Label W) : Option (Inserting W) :=
  match label with
  | .doTransactionInsert w =>
    if s.pc w = .idle then
      some (s.takeNext w .insert)
    else
      none
  | .doBatchTransactionInsert w batchSize =>
    if s.pc w = .idle then
      some (s.goto w (.batchNext batchSize []))
    else
      none
  | .step w =>
    match s.pc w with
    | .idle => none
    | .insert keyNum => some (s.goto w (.inserting keyNum))
    | .inserting keyNum => some (s.takeReturn w [keyNum] (.acknowledge keyNum))
    -- deferred, so the last step
    | .acknowledge keyNum => s.takeAcknowledge fuel w keyNum .idle
    | .batchNext (left + 1) keys => some (s.takeNext w (.batchAcknowledge left · keys))
    | .batchAcknowledge left keyNum keys =>
      s.takeAcknowledge fuel w keyNum (.batchNext left (keys ++ [keyNum]))
    | .batchNext 0 keys => some (s.goto w (.batchInsert keys))
    | .batchInsert keys => some (s.goto w (.batchInserting keys))
    | .batchInserting keys => some (s.takeReturn w keys .idle)

def IsNext (s : Inserting W) (label : Label W) : Prop :=
  match label with
  | .doTransactionInsert _ => True
  | .doBatchTransactionInsert _ _ => False
  | .step w =>
    match s.pc w with
    | .batchNext (_ + 1) _ => True
    | _ => False

def Allowed (s : Inserting W) (label : Label W) : Prop :=
  s.IsNext label → s.session.InWindow .next ∧ s.session.CounterFits .next

instance (s : Inserting W) (label : Label W) : Decidable (s.IsNext label) := by
  unfold IsNext; split <;> try infer_instance
  split <;> infer_instance

instance (s : Inserting W) (label : Label W) : Decidable (s.Allowed label) := by
  unfold Allowed; infer_instance

instance (sizes : Nat → Prop) [DecidablePred sizes] (label : Label W) : Decidable (label.BatchIn sizes) := by
  unfold Label.BatchIn; cases label <;> infer_instance

end Inserting
