import VeronaFs.Foundation.AgedQueue
import VeronaFs.Runtime.Epoch

/-!
# Re-entered epochs

A `LocalEpoch` and the calls in progress on it, on a stack.  `flush_old_epoch` calls
`immutable::release` for every delayed decrement, and this may run any code: it opens an `Epoch`, adds
delayed operations, and closes it.  Opening and closing may take a slow path, which flushes again, unless
the lock is held already.  `Epoch::flush` flushes without the lock.

Other threads change the global epoch and eject a record that is not locked.
-/

namespace VeronaRt.LocalEpoch

open Foundation Epoch

variable {ω : Type*}

/-! ## State -/

/-- The fields of a record.  `round` counts the rotations of `index`. -/
structure Record (ω : Type*) where
  /-- `index`. -/
  index : Fin 4
  /-- `delete_list` with `unusable`. -/
  deleteList : AgedQueue ω
  /-- `dec_list` with `to_dec`. -/
  decList : AgedQueue ω
  /-- `pressure`. -/
  pressure : Fin 4 → ℕ
  /-- `epoch`. -/
  epoch : Word
  /-- The internal count of `lock`. -/
  internal : ℕ
  /-- `sensible_threshold`. -/
  sensibleThreshold : ℕ
  /-- How often `index` was changed. -/
  round : ℕ

/-- A call in progress, or what a call is still to do. -/
inductive Task
  /-- Code that uses the record: the program, or what a release runs.  It has opened Epochs. -/
  | client (opened : ℕ)
  /-- `flush_old_epoch` is called. -/
  | flush
  /-- The loop of `flush_old_epoch` over `dec_list`: its `cell` and how many steps are left. -/
  | decLoop (cell : Fin 4) (left : ℕ)
  /-- `refresh` is to store the epoch. -/
  | storeEpoch (newEpoch : ℕ)
  /-- `release_epoch_rare` is to try to advance the global epoch. -/
  | tryAdvance
  /-- `release_epoch` is to release the lock. -/
  | release
  /-- `Epoch::flush` is to eject the record. -/
  | eject
deriving DecidableEq, Repr

/-- A record with the global epoch and the calls in progress, the innermost first. -/
structure State (ω : Type*) where
  /-- The record. -/
  record : Record ω
  /-- The global epoch. -/
  globalEpoch : ℕ
  /-- The calls in progress. -/
  stack : List Task

/-- What can happen. -/
inductive Action (ω : Type*)
  /-- An `Epoch` is opened. -/
  | use
  /-- An `Epoch` is closed.  Systematic testing tosses a coin whether to advance. -/
  | release (coin : Option Bool)
  /-- `add_to_delete_list`. -/
  | addToDeleteList (p : ω)
  /-- `add_to_dec_list`. -/
  | addToDecList (p : ω)
  /-- `flush_old_epoch` is called by the program. -/
  | flushOldEpoch
  /-- `Epoch::flush` is called by the program and comes to this record. -/
  | flush
  /-- A release returns. -/
  | releaseReturns
  /-- The innermost call takes a step.  The scan of the other records may succeed. -/
  | step (allInEpoch : Bool)
  /-- Another thread sets the global epoch. -/
  | setGlobal (epoch : ℕ)
  /-- Another thread ejects the record. -/
  | ejectOther
deriving DecidableEq

/-! ## Code -/

/-- A new record. -/
def Record.new : Record ω where
  index := 0
  deleteList := .empty
  decList := .empty
  pressure := fun _ => 0
  epoch := ⟨true, 0⟩
  internal := 0
  sensibleThreshold := 0
  round := 0

/-- `--` of a `size_t`. -/
def decSize (n : ℕ) : ℕ := if n = 0 then 2 ^ 64 - 1 else n - 1

namespace Record

/-- `add_to_delete_list`. -/
def addToDeleteList (r : Record ω) (p : ω) : Record ω :=
  { r with
    deleteList := r.deleteList.add r.index r.round p
    pressure := Function.update r.pressure (r.index + 2) (r.pressure (r.index + 2) + 1) }

/-- `add_to_dec_list`. -/
def addToDecList (r : Record ω) (p : ω) : Record ω :=
  { r with
    decList := r.decList.add r.index r.round p
    pressure := Function.update r.pressure (r.index + 2) (r.pressure (r.index + 2) + 1) }

/-- The first loop of `flush_old_epoch`: the delayed deallocations.  An empty list fails an assertion. -/
def deleteLoop (r : Record ω) : Option (Record ω) :=
  (r.deleteList.dequeueAll (r.deleteList.count r.index)).map fun deleteList =>
    { r with
      deleteList := deleteList.setCount r.index 0
      pressure := Function.update r.pressure r.index 0 }

/-- A step of the second loop of `flush_old_epoch`, before the release. -/
def decStep (r : Record ω) (cell : Fin 4) : Option (Record ω) :=
  r.decList.dequeue.map fun decList =>
    { r with decList := decList.setCount cell (decSize (decList.count cell)) }

/-- The end of `flush_old_epoch`. -/
def rotate (r : Record ω) : Record ω :=
  { r with index := r.index + 1, sensibleThreshold := 0, round := r.round + 1 }

/-- `advance_is_sensible`, and the record after it. -/
def advanceIsSensible (r : Record ω) (coin : Option Bool) : Bool × Record ω :=
  match coin with
  | some b => (b, r)
  | none =>
    if r.sensibleThreshold < r.pressure (r.index + 2) then
      (true, { r with sensibleThreshold := r.sensibleThreshold + 128 })
    else (false, r)

/-- What `refresh` does next. -/
def refresh (r : Record ω) (globalEpoch : ℕ) : List Task :=
  if r.epoch = ⟨false, globalEpoch⟩ then [] else [.flush, .storeEpoch globalEpoch]

/-- How often the loop of `rejoin_epoch` flushes. -/
def rejoinSteps (oldEpoch newEpoch : ℕ) : ℕ → ℕ
  | 0 => 0
  | maxSteps + 1 =>
    if incEpochBy oldEpoch 1 = newEpoch then 1
    else rejoinSteps (incEpochBy oldEpoch 1) newEpoch maxSteps + 1

end Record

namespace State

/-- A record that nobody has used yet. -/
def initial : State ω := ⟨.new, 0, [.client 0]⟩

/-- The innermost call calls others. -/
def call (s : State ω) (tasks : List Task) : State ω := { s with stack := tasks ++ s.stack }

/-- `use_epoch_rare`: `refresh`, or `rejoin_epoch` with the last global epoch that it reads. -/
def useEpochRare (s : State ω) : State ω :=
  if s.record.epoch.ejected then
    { s with record := { s.record with epoch := ⟨false, s.globalEpoch⟩ } }.call
      (List.replicate (Record.rejoinSteps s.record.epoch.number s.globalEpoch 4) .flush)
  else s.call (s.record.refresh s.globalEpoch)

/-- `use_epoch`. -/
def useEpoch (s : State ω) : State ω :=
  let s' := { s with record := { s.record with internal := s.record.internal + 1 } }
  if s.record.internal = 0 ∧ s.record.epoch ≠ ⟨false, s.globalEpoch⟩ then s'.useEpochRare else s'

/-- `release_epoch`. -/
def releaseEpoch (s : State ω) (coin : Option Bool) : State ω :=
  if s.record.internal = 1 then
    let answer := s.record.advanceIsSensible coin
    let s' : State ω := { s with record := answer.2 }
    if answer.1 then s'.call (answer.2.refresh s.globalEpoch ++ [.tryAdvance, .release])
    else s'.call [.release]
  else s.call [.release]

/-- A step of the innermost call. -/
def taskStep (s : State ω) (allInEpoch : Bool) (task : Task) (rest : List Task) : Option (State ω) :=
  match task with
  | .client _ => none
  | .flush => s.record.deleteLoop.map fun record =>
    { s with
      record := record
      stack := .decLoop record.index (record.decList.count record.index) :: rest }
  | .decLoop _ 0 => some { s with record := s.record.rotate, stack := rest }
  | .decLoop cell (left + 1) => (s.record.decStep cell).map fun record =>
    { s with record := record, stack := .client 0 :: .decLoop cell left :: rest }
  | .storeEpoch newEpoch =>
    some { s with record := { s.record with epoch := ⟨false, newEpoch⟩ }, stack := rest }
  | .tryAdvance =>
    if allInEpoch then
      let globalEpoch := incEpochBy s.record.epoch.number 1
      some { s with
        globalEpoch := globalEpoch
        stack := s.record.refresh globalEpoch ++ rest }
    else some { s with stack := rest }
  | .release =>
    some { s with record := { s.record with internal := s.record.internal - 1 }, stack := rest }
  | .eject =>
    some { s with record := { s.record with epoch := ⟨true, s.record.epoch.number⟩ }, stack := rest }

/-- One step. -/
def step (s : State ω) : Action ω → Option (State ω)
  | .use =>
    match s.stack with
    | .client opened :: rest => some (useEpoch { s with stack := .client (opened + 1) :: rest })
    | _ => none
  | .release coin =>
    match s.stack with
    | .client (opened + 1) :: rest =>
      some (releaseEpoch { s with stack := .client opened :: rest } coin)
    | _ => none
  | .addToDeleteList p =>
    match s.stack with
    | .client _ :: _ => some { s with record := s.record.addToDeleteList p }
    | _ => none
  | .addToDecList p =>
    match s.stack with
    | .client _ :: _ => some { s with record := s.record.addToDecList p }
    | _ => none
  | .flushOldEpoch =>
    match s.stack with
    | [.client _] => some (s.call [.flush])
    | _ => none
  | .flush =>
    match s.stack with
    | [.client _] => some (s.call [.flush, .flush, .flush, .flush, .eject])
    | _ => none
  | .releaseReturns =>
    match s.stack with
    | .client 0 :: task :: rest => some { s with stack := task :: rest }
    | _ => none
  | .step allInEpoch =>
    match s.stack with
    | task :: rest => s.taskStep allInEpoch task rest
    | [] => none
  | .setGlobal epoch => some { s with globalEpoch := epoch }
  | .ejectOther =>
    if s.record.internal = 0 then
      some { s with record := { s.record with epoch := ⟨true, s.record.epoch.number⟩ } }
    else none

/-- The states of a record in the runs whose steps meet a condition. -/
inductive Reached (P : State ω → Action ω → Prop) : State ω → Prop
  /-- A new record. -/
  | initial : Reached P initial
  /-- A step. -/
  | step {s s' : State ω} {a : Action ω} (hs : Reached P s) (ha : P s a) (h : s.step a = some s') :
    Reached P s'

end State

/-! ## Properties -/

/-- A flush is in its loop over `dec_list`. -/
def Task.flushing : Task → Bool
  | .decLoop _ _ => true
  | _ => false

namespace State

/-- The flushes that are running. -/
def running (s : State ω) : List Task := s.stack.filter Task.flushing

/-- The next step dequeues from an empty list. -/
def Faults (s : State ω) : Prop :=
  (s.stack.head? = some .flush ∧ s.record.deleteLoop = none) ∨
    ∃ cell left, s.stack.head? = some (.decLoop cell (left + 1)) ∧ s.record.decStep cell = none

/-- What is to hold of the lists, however the calls are nested. -/
structure Good (s : State ω) : Prop where
  /-- No dequeue is done on an empty list. -/
  not_faults : ¬ s.Faults
  /-- Outside of a running flush the counters describe the lists in the order of age. -/
  ordered : s.running = [] → s.record.deleteList.Ordered s.record.index s.record.round ∧
    s.record.decList.Ordered s.record.index s.record.round
  /-- Outside of a running flush the counters add up to the lengths. -/
  sum_eq : s.running = [] →
    ∑ i, s.record.deleteList.count i = s.record.deleteList.list.length ∧
      ∑ i, s.record.decList.count i = s.record.decList.list.length
  /-- Every delayed operation is in its list or was performed, once. -/
  kept : s.record.deleteList.Kept ∧ s.record.decList.Kept

/-- The step does not begin a flush while another one is running. -/
def NotNested (s : State ω) (_ : Action ω) : Prop := s.stack.head? = some .flush → s.running = []

/-- The step does not call a flush without the lock. -/
def Locked (_ : State ω) (a : Action ω) : Prop := a ≠ .flushOldEpoch ∧ a ≠ .flush

end State

end VeronaRt.LocalEpoch
