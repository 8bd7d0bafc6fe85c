import VeronaFs.Foundation.AgedQueue
import Mathlib

/-!
# Epochs

`LocalEpoch` in atomic steps: the asymmetric lock, entering and leaving an `Epoch`, delayed deallocation
with its rotating counters, refreshing and rejoining, advancing the global epoch with a scan over the
pool, ejection of other threads, and thread exit with the reuse of a record by a later thread.

Each record is used by one thread at a time, so the program counter of the thread is part of the record.
There are any number of records.  Atomic accesses are sequentially consistent.  The heuristics
`advance_is_sensible` and `advance_is_urgent` may answer either way, as they do in systematic testing;
delayed decrements are left out.
-/

set_option linter.unusedSectionVars false

namespace VeronaRt.Epoch

/-! ## Words and program counters -/

/-- The number of epochs: 63 bits. -/
def epochs : ℕ := 2 ^ 63

/-- `inc_epoch_by`. -/
def incEpochBy (epoch i : ℕ) : ℕ := (epoch + i) % epochs

/-- The value of `epoch`: `EJECTED_BIT` and the bits below it. -/
structure Word where
  /-- `EJECTED_BIT` is set. -/
  ejected : Bool
  /-- The epoch. -/
  number : ℕ
deriving DecidableEq, Repr

/-- What follows a call of `refresh`. -/
inductive After
  /-- The end of `use_epoch`. -/
  | inside
  /-- `try_advance_global_epoch` in `release_epoch_rare`. -/
  | tryAdvance
  /-- The `internal_release` of `release_epoch`. -/
  | leave
deriving DecidableEq, Repr

/-- The caller of `flush_old_epoch`. -/
inductive Flush
  /-- `refresh`, with the epoch that it stores next. -/
  | refresh (k : After) (newEpoch : ℕ)
  /-- The loop of `rejoin_epoch`, with `max_steps`. -/
  | rejoin (oldEpoch newEpoch maxSteps : ℕ)
deriving DecidableEq, Repr

/-- Where a call of `in_epoch_try_eject` is after its first `in_epoch`. -/
inductive EjectPc
  /-- `try_external_acquire`: the first load of the internal lock. -/
  | tryLoad
  /-- `try_external_acquire`: the exchange of the external lock. -/
  | tryExchange
  /-- `try_external_acquire`: the second load of the internal lock. -/
  | tryRecheck
  /-- `try_external_acquire`: the release after the second load. -/
  | giveUp
  /-- The second `in_epoch`. -/
  | check
  /-- `eject`: the load. -/
  | load
  /-- `eject`: the store. -/
  | store (x : Word)
  /-- `external_release`. -/
  | release
deriving DecidableEq, Repr

/-- Where the thread of a record is. -/
inductive Pc (ι : Type*)
  /-- The record is in the pool, or was never allocated. -/
  | free
  /-- The thread is in no `Epoch`. -/
  | outside
  /-- `internal_acquire`: the load of the external lock. -/
  | externalCheck
  /-- `internal_acquire_rare`: `internal_release`. -/
  | rareRelease
  /-- `internal_acquire_rare`: the exchange of the external lock. -/
  | rareExchange
  /-- `internal_acquire_rare`: the store of the internal lock. -/
  | rareStore
  /-- `internal_acquire_rare`: `external_release`. -/
  | rareFree
  /-- `use_epoch`: the load of the global epoch. -/
  | useLoad
  /-- `use_epoch`: the load of the local epoch and the choice between `refresh` and `rejoin_epoch`. -/
  | useCompare (newEpoch : ℕ)
  /-- `refresh`: the load of the global epoch. -/
  | refreshLoad (k : After)
  /-- `refresh`: the load of the local epoch. -/
  | refreshCompare (k : After) (newEpoch : ℕ)
  /-- `refresh`: the store of the local epoch. -/
  | refreshStore (k : After) (newEpoch : ℕ)
  /-- `rejoin_epoch`: the loads of the local and of the global epoch. -/
  | rejoinLoad
  /-- `rejoin_epoch`: the store before the loop. -/
  | rejoinPublish (oldEpoch newEpoch : ℕ)
  /-- `rejoin_epoch`: the load in the loop. -/
  | rejoinReload (oldEpoch guessedEpoch : ℕ)
  /-- `rejoin_epoch`: the store in the loop and the test at its end. -/
  | rejoinStore (oldEpoch guessedEpoch newEpoch : ℕ)
  /-- `flush_old_epoch` is called. -/
  | flush (f : Flush)
  /-- The loop of `flush_old_epoch`, with the number of objects to go. -/
  | dequeue (usable : ℕ) (f : Flush)
  /-- The thread is inside an `Epoch`. -/
  | inside
  /-- `try_advance_global_epoch`: the load of the local epoch. -/
  | tryAdvance
  /-- `forall` with `in_epoch` or, if `tryEject`, with `in_epoch_try_eject`: the next record. -/
  | scan (e : ℕ) (tryEject : Bool) (todo : List ι)
  /-- `in_epoch_try_eject` on the record `o`. -/
  | eject (p : EjectPc) (e : ℕ) (o : ι) (rest : List ι)
  /-- `release_epoch`: `internal_release` after `release_epoch_rare`. -/
  | leave
  /-- Thread exit: the load of `eject`. -/
  | exitLoad
  /-- Thread exit: the store of `eject` and the release of the record. -/
  | exitStore (x : Word)
deriving DecidableEq, Repr

/-- Where `refresh` returns to. -/
def After.pc {ι : Type*} : After → Pc ι
  | .inside => .inside
  | .tryAdvance => .tryAdvance
  | .leave => .leave

/-- Where `flush_old_epoch` returns to. -/
def Flush.next {ι : Type*} : Flush → Pc ι
  | .refresh k newEpoch => .refreshStore k newEpoch
  | .rejoin oldEpoch newEpoch maxSteps =>
    if incEpochBy oldEpoch 1 ≠ newEpoch ∧ 0 < maxSteps - 1 then
      .flush (.rejoin (incEpochBy oldEpoch 1) newEpoch (maxSteps - 1))
    else .inside

/-! ## Records and the shared state -/

/-- A `LocalEpoch` with the program counter of its thread. -/
structure Record (ι ω : Type*) where
  /-- `epoch`. -/
  epoch : Word
  /-- `lock.internal_lock`. -/
  internal : ℕ
  /-- `lock.external_lock`. -/
  external : Bool
  /-- `index`. -/
  index : Fin 4
  /-- `unusable`: how many objects of each epoch are in `delete_list`. -/
  unusable : Fin 4 → ℕ
  /-- `delete_list`. -/
  deleteList : List ω
  /-- The objects that were passed to `delete_in_epoch`, in order.  No step reads it. -/
  deleted : List ω
  /-- The objects that were deallocated, in order.  No step reads it. -/
  freed : List ω
  /-- Where its thread is. -/
  pc : Pc ι

/-- The global epoch and the pool of records. -/
structure State (ι ω : Type*) where
  /-- `GlobalEpoch::global_epoch`. -/
  global : ℕ
  /-- The records that the pool has allocated, newest first. -/
  pool : List ι
  /-- The records. -/
  record : ι → Record ι ω

variable {ι ω : Type*} [DecidableEq ι]

/-- `in_epoch`. -/
def Record.InEpoch (r : Record ι ω) (e : ℕ) : Prop := r.epoch = ⟨false, e⟩ ∨ r.epoch.ejected = true

instance (r : Record ι ω) (e : ℕ) : Decidable (r.InEpoch e) :=
  inferInstanceAs (Decidable (_ ∨ _))

namespace State

/-- The record `i` changes. -/
def modify (s : State ι ω) (i : ι) (f : Record ι ω → Record ι ω) : State ι ω :=
  { s with record := Function.update s.record i (f (s.record i)) }

/-- The thread of `i` goes on at `pc`. -/
def goto (s : State ι ω) (i : ι) (pc : Pc ι) : State ι ω := s.modify i fun r => { r with pc := pc }

/-- `external_lock` of `o` is stored. -/
def setExternal (s : State ι ω) (o : ι) (b : Bool) : State ι ω :=
  s.modify o fun r => { r with external := b }

/-- `epoch` of `o` is stored. -/
def setEpoch (s : State ι ω) (o : ι) (w : Word) : State ι ω :=
  s.modify o fun r => { r with epoch := w }

/-- `internal_lock` of `i` is stored. -/
def setInternal (s : State ι ω) (i : ι) (n : ℕ) : State ι ω :=
  s.modify i fun r => { r with internal := n }

/-- `add_to_delete_list`. -/
def addToDeleteList (s : State ι ω) (i : ι) (o : ω) : State ι ω :=
  s.modify i fun r =>
    { r with
      deleteList := r.deleteList ++ [o]
      unusable := Function.update r.unusable (r.index + 2) (r.unusable (r.index + 2) + 1)
      deleted := r.deleted ++ [o] }

/-- The object `d` in front of `rest` is deallocated. -/
def dealloc (s : State ι ω) (i : ι) (d : ω) (rest : List ω) : State ι ω :=
  s.modify i fun r => { r with deleteList := rest, freed := r.freed ++ [d] }

/-- The end of `flush_old_epoch`. -/
def rotate (s : State ι ω) (i : ι) : State ι ω :=
  s.modify i fun r =>
    { r with
      unusable := Function.update r.unusable r.index 0
      index := r.index + 1 }

section Fields

variable (s : State ι ω) (i j : ι) (f : Record ι ω → Record ι ω) (pc : Pc ι) (b : Bool) (w : Word)
  (n : ℕ) (o d : ω) (rest : List ω)

theorem record_modify :
    (s.modify i f).record j = if j = i then f (s.record i) else s.record j :=
  Function.update_apply ..

/-- A record of another thread stays. -/
theorem record_modify_of_ne (h : j ≠ i) : (s.modify i f).record j = s.record j :=
  Function.update_of_ne h ..

/-- A field that the change leaves. -/
theorem field_modify {γ : Type*} (g : Record ι ω → γ) (hg : ∀ r, g (f r) = g r) :
    g ((s.modify i f).record j) = g (s.record j) := by
  rw [record_modify]
  split
  · next hj => rw [hg, hj]
  · rfl

/-- A field that the change sets. -/
theorem field_modify_set {γ : Type*} (g : Record ι ω → γ) (v : γ) (hg : ∀ r, g (f r) = v) :
    g ((s.modify i f).record j) = if j = i then v else g (s.record j) := by
  rw [record_modify]
  split
  · exact hg _
  · rfl

@[simp, grind =] theorem pc_goto :
    ((s.goto i pc).record j).pc = if j = i then pc else (s.record j).pc :=
  field_modify_set s i j _ Record.pc _ fun _ => rfl

@[simp, grind =] theorem internal_goto :
    ((s.goto i pc).record j).internal = (s.record j).internal :=
  field_modify s i j _ Record.internal fun _ => rfl

@[simp, grind =] theorem external_goto :
    ((s.goto i pc).record j).external = (s.record j).external :=
  field_modify s i j _ Record.external fun _ => rfl

@[simp, grind =] theorem epoch_goto : ((s.goto i pc).record j).epoch = (s.record j).epoch :=
  field_modify s i j _ Record.epoch fun _ => rfl

@[simp, grind =] theorem global_goto : (s.goto i pc).global = s.global := rfl

@[simp, grind =] theorem pool_goto : (s.goto i pc).pool = s.pool := rfl

@[simp, grind =] theorem pc_setExternal : ((s.setExternal i b).record j).pc = (s.record j).pc :=
  field_modify s i j _ Record.pc fun _ => rfl

@[simp, grind =] theorem internal_setExternal :
    ((s.setExternal i b).record j).internal = (s.record j).internal :=
  field_modify s i j _ Record.internal fun _ => rfl

@[simp, grind =] theorem external_setExternal :
    ((s.setExternal i b).record j).external = if j = i then b else (s.record j).external :=
  field_modify_set s i j _ Record.external _ fun _ => rfl

@[simp, grind =] theorem epoch_setExternal :
    ((s.setExternal i b).record j).epoch = (s.record j).epoch :=
  field_modify s i j _ Record.epoch fun _ => rfl

@[simp, grind =] theorem global_setExternal : (s.setExternal i b).global = s.global := rfl

@[simp, grind =] theorem pool_setExternal : (s.setExternal i b).pool = s.pool := rfl

@[simp, grind =] theorem pc_setEpoch : ((s.setEpoch i w).record j).pc = (s.record j).pc :=
  field_modify s i j _ Record.pc fun _ => rfl

@[simp, grind =] theorem internal_setEpoch :
    ((s.setEpoch i w).record j).internal = (s.record j).internal :=
  field_modify s i j _ Record.internal fun _ => rfl

@[simp, grind =] theorem external_setEpoch :
    ((s.setEpoch i w).record j).external = (s.record j).external :=
  field_modify s i j _ Record.external fun _ => rfl

@[simp, grind =] theorem epoch_setEpoch :
    ((s.setEpoch i w).record j).epoch = if j = i then w else (s.record j).epoch :=
  field_modify_set s i j _ Record.epoch _ fun _ => rfl

@[simp, grind =] theorem global_setEpoch : (s.setEpoch i w).global = s.global := rfl

@[simp, grind =] theorem pool_setEpoch : (s.setEpoch i w).pool = s.pool := rfl

@[simp, grind =] theorem pc_setInternal : ((s.setInternal i n).record j).pc = (s.record j).pc :=
  field_modify s i j _ Record.pc fun _ => rfl

@[simp, grind =] theorem internal_setInternal :
    ((s.setInternal i n).record j).internal = if j = i then n else (s.record j).internal :=
  field_modify_set s i j _ Record.internal _ fun _ => rfl

@[simp, grind =] theorem external_setInternal :
    ((s.setInternal i n).record j).external = (s.record j).external :=
  field_modify s i j _ Record.external fun _ => rfl

@[simp, grind =] theorem epoch_setInternal :
    ((s.setInternal i n).record j).epoch = (s.record j).epoch :=
  field_modify s i j _ Record.epoch fun _ => rfl

@[simp, grind =] theorem global_setInternal : (s.setInternal i n).global = s.global := rfl

@[simp, grind =] theorem pool_setInternal : (s.setInternal i n).pool = s.pool := rfl

@[simp, grind =] theorem pc_addToDeleteList :
    ((s.addToDeleteList i o).record j).pc = (s.record j).pc :=
  field_modify s i j _ Record.pc fun _ => rfl

@[simp, grind =] theorem internal_addToDeleteList :
    ((s.addToDeleteList i o).record j).internal = (s.record j).internal :=
  field_modify s i j _ Record.internal fun _ => rfl

@[simp, grind =] theorem external_addToDeleteList :
    ((s.addToDeleteList i o).record j).external = (s.record j).external :=
  field_modify s i j _ Record.external fun _ => rfl

@[simp, grind =] theorem epoch_addToDeleteList :
    ((s.addToDeleteList i o).record j).epoch = (s.record j).epoch :=
  field_modify s i j _ Record.epoch fun _ => rfl

@[simp, grind =] theorem global_addToDeleteList : (s.addToDeleteList i o).global = s.global := rfl

@[simp, grind =] theorem pool_addToDeleteList : (s.addToDeleteList i o).pool = s.pool := rfl

@[simp, grind =] theorem pc_rotate : ((s.rotate i).record j).pc = (s.record j).pc :=
  field_modify s i j _ Record.pc fun _ => rfl

@[simp, grind =] theorem internal_rotate :
    ((s.rotate i).record j).internal = (s.record j).internal :=
  field_modify s i j _ Record.internal fun _ => rfl

@[simp, grind =] theorem external_rotate :
    ((s.rotate i).record j).external = (s.record j).external :=
  field_modify s i j _ Record.external fun _ => rfl

@[simp, grind =] theorem epoch_rotate : ((s.rotate i).record j).epoch = (s.record j).epoch :=
  field_modify s i j _ Record.epoch fun _ => rfl

@[simp, grind =] theorem global_rotate : (s.rotate i).global = s.global := rfl

@[simp, grind =] theorem pool_rotate : (s.rotate i).pool = s.pool := rfl

@[simp, grind =] theorem pc_dealloc : ((s.dealloc i d rest).record j).pc = (s.record j).pc :=
  field_modify s i j _ Record.pc fun _ => rfl

@[simp, grind =] theorem internal_dealloc :
    ((s.dealloc i d rest).record j).internal = (s.record j).internal :=
  field_modify s i j _ Record.internal fun _ => rfl

@[simp, grind =] theorem external_dealloc :
    ((s.dealloc i d rest).record j).external = (s.record j).external :=
  field_modify s i j _ Record.external fun _ => rfl

@[simp, grind =] theorem epoch_dealloc :
    ((s.dealloc i d rest).record j).epoch = (s.record j).epoch :=
  field_modify s i j _ Record.epoch fun _ => rfl

@[simp, grind =] theorem global_dealloc : (s.dealloc i d rest).global = s.global := rfl

@[simp, grind =] theorem pool_dealloc : (s.dealloc i d rest).pool = s.pool := rfl

end Fields

/-- One atomic step of `in_epoch_try_eject` on `o` by the thread of `i`. -/
def ejectStep (s : State ι ω) (i : ι) (e : ℕ) (o : ι) (rest : List ι) : EjectPc → State ι ω
  | .tryLoad =>
    if (s.record o).internal ≠ 0 then s.goto i .leave else s.goto i (.eject .tryExchange e o rest)
  | .tryExchange =>
    if (s.record o).external then s.goto i .leave
    else (s.setExternal o true).goto i (.eject .tryRecheck e o rest)
  | .tryRecheck =>
    if (s.record o).internal = 0 then s.goto i (.eject .check e o rest)
    else s.goto i (.eject .giveUp e o rest)
  | .giveUp => (s.setExternal o false).goto i .leave
  | .check =>
    if (s.record o).InEpoch e then s.goto i (.eject .release e o rest)
    else s.goto i (.eject .load e o rest)
  | .load => s.goto i (.eject (.store (s.record o).epoch) e o rest)
  | .store x => (s.setEpoch o ⟨true, x.number⟩).goto i (.eject .release e o rest)
  | .release => (s.setExternal o false).goto i (.scan e true rest)

/-- One atomic step of the thread of `i` where it has no choice. -/
def threadStep (s : State ι ω) (i : ι) : State ι ω :=
  match (s.record i).pc with
  | .free | .outside | .inside | .tryAdvance => s
  | .externalCheck =>
    if (s.record i).external then s.goto i .rareRelease else s.goto i .useLoad
  | .rareRelease => (s.setInternal i ((s.record i).internal - 1)).goto i .rareExchange
  | .rareExchange =>
    if (s.record i).external then s else (s.setExternal i true).goto i .rareStore
  | .rareStore => (s.setInternal i 1).goto i .rareFree
  | .rareFree => (s.setExternal i false).goto i .useLoad
  | .useLoad => s.goto i (.useCompare s.global)
  | .useCompare newEpoch =>
    if (s.record i).epoch = ⟨false, newEpoch⟩ then s.goto i .inside
    else if (s.record i).epoch.ejected then s.goto i .rejoinLoad
    else s.goto i (.refreshLoad .inside)
  | .refreshLoad k => s.goto i (.refreshCompare k s.global)
  | .refreshCompare k newEpoch =>
    if (s.record i).epoch = ⟨false, newEpoch⟩ then s.goto i k.pc
    else s.goto i (.flush (.refresh k newEpoch))
  | .refreshStore k newEpoch => (s.setEpoch i ⟨false, newEpoch⟩).goto i k.pc
  | .rejoinLoad => s.goto i (.rejoinPublish (s.record i).epoch.number s.global)
  | .rejoinPublish oldEpoch newEpoch =>
    (s.setEpoch i ⟨false, newEpoch⟩).goto i (.rejoinReload oldEpoch newEpoch)
  | .rejoinReload oldEpoch guessedEpoch =>
    s.goto i (.rejoinStore oldEpoch guessedEpoch s.global)
  | .rejoinStore oldEpoch guessedEpoch newEpoch =>
    if guessedEpoch = incEpochBy newEpoch 1 then
      (s.setEpoch i ⟨false, newEpoch⟩).goto i (.rejoinReload oldEpoch newEpoch)
    else (s.setEpoch i ⟨false, newEpoch⟩).goto i (.flush (.rejoin oldEpoch newEpoch 4))
  | .flush f => s.goto i (.dequeue ((s.record i).unusable (s.record i).index) f)
  | .dequeue 0 f => (s.rotate i).goto i f.next
  | .dequeue (usable + 1) f =>
    match (s.record i).deleteList with
    -- The assertion of `dequeue` fails.
    | [] => s
    | d :: rest => (s.dealloc i d rest).goto i (.dequeue usable f)
  | .scan e _ [] => { s.goto i (.refreshLoad .leave) with global := incEpochBy e 1 }
  | .scan e tryEject (o :: rest) =>
    if (s.record o).InEpoch e then s.goto i (.scan e tryEject rest)
    else if tryEject then s.goto i (.eject .tryLoad e o rest)
    else s.goto i .leave
  | .eject p e o rest => s.ejectStep i e o rest p
  | .leave => (s.setInternal i ((s.record i).internal - 1)).goto i .outside
  | .exitLoad => s.goto i (.exitStore (s.record i).epoch)
  | .exitStore x => (s.setEpoch i ⟨true, x.number⟩).goto i .free

end State

/-! ## Steps -/

/-- The atomic steps of the thread of `i`. -/
inductive StepOf (i : ι) (s : State ι ω) : State ι ω → Prop
  /-- A thread acquires its record, a released one or a new one. -/
  | acquire (h : (s.record i).pc = .free) :
      StepOf i s { s.goto i .outside with pool := if i ∈ s.pool then s.pool else i :: s.pool }
  /-- `use_epoch`: `internal_acquire`, also of an `Epoch` inside another one. -/
  | use (h : (s.record i).pc = .outside ∨ (s.record i).pc = .inside) :
      StepOf i s ((s.setInternal i ((s.record i).internal + 1)).goto i
        (if (s.record i).internal = 0 then .externalCheck else .inside))
  /-- `delete_in_epoch`. -/
  | delete (h : (s.record i).pc = .inside) (o : ω) : StepOf i s (s.addToDeleteList i o)
  /-- `release_epoch` with `release_epoch_rare`. -/
  | releaseRare (h : (s.record i).pc = .inside) (hcount : (s.record i).internal = 1) :
      StepOf i s (s.goto i (.refreshLoad .tryAdvance))
  /-- `release_epoch` without it. -/
  | release (h : (s.record i).pc = .inside) :
      StepOf i s ((s.setInternal i ((s.record i).internal - 1)).goto i
        (if (s.record i).internal = 1 then .outside else .inside))
  /-- `try_advance_global_epoch`: the load of the local epoch and the start of `forall`. -/
  | tryAdvance (h : (s.record i).pc = .tryAdvance) (tryEject : Bool) :
      StepOf i s (s.goto i (.scan (s.record i).epoch.number tryEject s.pool))
  /-- The thread exits. -/
  | exit (h : (s.record i).pc = .outside) : StepOf i s (s.goto i .exitLoad)
  /-- The thread goes on. -/
  | thread : StepOf i s (s.threadStep i)

/-- The atomic steps of any thread. -/
def Step (s s' : State ι ω) : Prop := ∃ i, StepOf i s s'

/-- The global epoch is 0 and no record was allocated. -/
def init : State ι ω where
  global := 0
  pool := []
  record := fun _ =>
    { epoch := ⟨true, 0⟩, internal := 0, external := false, index := 0, unusable := fun _ => 0,
      deleteList := [], deleted := [], freed := [], pc := .free }

/-- The states that the steps reach. -/
def Reachable (s : State ι ω) : Prop := Relation.ReflTransGen Step init s

/-! ## Executing a run -/

/-- The choices of a run. -/
inductive Action (ι ω : Type*)
  /-- `StepOf.acquire`. -/
  | acquire (i : ι)
  /-- `StepOf.use`. -/
  | use (i : ι)
  /-- `StepOf.delete`. -/
  | delete (i : ι) (o : ω)
  /-- `StepOf.releaseRare`. -/
  | releaseRare (i : ι)
  /-- `StepOf.release`. -/
  | release (i : ι)
  /-- `StepOf.tryAdvance`. -/
  | tryAdvance (i : ι) (tryEject : Bool)
  /-- `StepOf.exit`. -/
  | exit (i : ι)
  /-- `StepOf.thread`, a number of times. -/
  | thread (i : ι) (n : ℕ)

/-- The state after an action; an action that is not possible changes nothing. -/
def State.act (s : State ι ω) : Action ι ω → State ι ω
  | .acquire i =>
    if (s.record i).pc = .free then
      { s.goto i .outside with pool := if i ∈ s.pool then s.pool else i :: s.pool }
    else s
  | .use i =>
    if (s.record i).pc = .outside ∨ (s.record i).pc = .inside then
      (s.setInternal i ((s.record i).internal + 1)).goto i
        (if (s.record i).internal = 0 then .externalCheck else .inside)
    else s
  | .delete i o => if (s.record i).pc = .inside then s.addToDeleteList i o else s
  | .releaseRare i =>
    if (s.record i).pc = .inside ∧ (s.record i).internal = 1 then s.goto i (.refreshLoad .tryAdvance)
    else s
  | .release i =>
    if (s.record i).pc = .inside then
      (s.setInternal i ((s.record i).internal - 1)).goto i
        (if (s.record i).internal = 1 then .outside else .inside)
    else s
  | .tryAdvance i tryEject =>
    if (s.record i).pc = .tryAdvance then
      s.goto i (.scan (s.record i).epoch.number tryEject s.pool)
    else s
  | .exit i => if (s.record i).pc = .outside then s.goto i .exitLoad else s
  | .thread i n => (fun t => t.threadStep i)^[n] s

/-- The state after the actions in order. -/
def State.run (s : State ι ω) (actions : List (Action ι ω)) : State ι ω := actions.foldl State.act s

/-- The record whose thread acts. -/
def Action.actor : Action ι ω → ι
  | .acquire i | .use i | .delete i _ | .releaseRare i | .release i | .tryAdvance i _ => i
  | .exit i | .thread i _ => i

/-- An action is made of steps of its thread. -/
theorem State.steps_act (s : State ι ω) (a : Action ι ω) :
    Relation.ReflTransGen (StepOf a.actor) s (s.act a) := by
  cases a with
  | acquire i =>
    simp only [State.act]
    split
    · next h => exact .single (.acquire h)
    · rfl
  | use i =>
    simp only [State.act]
    split
    · next h => exact .single (.use h)
    · rfl
  | delete i o =>
    simp only [State.act]
    split
    · next h => exact .single (.delete h o)
    · rfl
  | releaseRare i =>
    simp only [State.act]
    split
    · next h => exact .single (.releaseRare h.1 h.2)
    · rfl
  | release i =>
    simp only [State.act]
    split
    · next h => exact .single (.release h)
    · rfl
  | tryAdvance i tryEject =>
    simp only [State.act]
    split
    · next h => exact .single (.tryAdvance h tryEject)
    · rfl
  | exit i =>
    simp only [State.act]
    split
    · next h => exact .single (.exit h)
    · rfl
  | thread i n =>
    simp only [State.act]
    induction n generalizing s with
    | zero => rfl
    | succ n ih => exact .head .thread (ih (s.threadStep i))

/-- A run is made of steps. -/
theorem State.steps_run (s : State ι ω) (actions : List (Action ι ω)) :
    Relation.ReflTransGen Step s (s.run actions) := by
  induction actions generalizing s with
  | nil => rfl
  | cons a rest ih =>
    have hact : Relation.ReflTransGen Step s (s.act a) :=
      (s.steps_act a).lift id fun _ _ h => ⟨a.actor, h⟩
    exact hact.trans (ih (s.act a))

end VeronaRt.Epoch
