import Mathlib.Logic.Function.Basic
import VeronaFs.Foundation.StoreBuffer

/-!
# The asymmetric lock

`AsymmetricLock`: one thread takes the lock from inside, without a fence in the usual case, and any number
of others from outside.  The stores of the internal thread stay in its store buffer until they drain,
until an exchange of its own, or until a barrier of another thread (`Barrier::memory`) flushes them.
-/

namespace VeronaRt

open Foundation

/-! ## Code -/

/-- The two fields of the lock. -/
structure AsymmetricLock where
  /-- How often the internal thread has the lock. -/
  internalLock : ℕ
  /-- Whether an external thread has it, or the internal thread while it waits for it. -/
  externalLock : Bool
deriving DecidableEq, Repr

namespace AsymmetricLock

/-- A store to a field. -/
inductive Store
  /-- A store to `internal_lock`. -/
  | internalLock (count : ℕ)
  /-- A store to `external_lock`. -/
  | externalLock (held : Bool)
deriving DecidableEq, Repr

/-- What a store does. -/
def write (l : AsymmetricLock) : Store → AsymmetricLock
  | .internalLock count => { l with internalLock := count }
  | .externalLock held => { l with externalLock := held }

/-- Where the internal thread is. -/
inductive Internal
  /-- Outside of a call. -/
  | idle
  /-- `internal_acquire` is to load the count. -/
  | acquireLoad
  /-- `internal_acquire` is to store the count and one. -/
  | acquireStore (count : ℕ)
  /-- `internal_acquire` is to return if the count was positive, and to load `external_lock`. -/
  | acquireTest (count : ℕ)
  /-- `internal_release`, called by `internal_acquire_rare`, is to load the count. -/
  | rareLoad
  /-- It is to store the count less one. -/
  | rareStore (count : ℕ)
  /-- `internal_acquire_rare` is to exchange `external_lock`. -/
  | rareExchange
  /-- `internal_acquire_rare` is to store the count. -/
  | rareSet
  /-- `internal_acquire_rare` is to clear `external_lock`. -/
  | rareRelease
  /-- `internal_release` is to load the count. -/
  | releaseLoad
  /-- `internal_release` is to store the count less one. -/
  | releaseStore (count : ℕ)
deriving DecidableEq, Repr

/-- Where an external thread is. -/
inductive External
  /-- Without the lock and outside of a call. -/
  | idle
  /-- `try_external_acquire` is to load the count. -/
  | tryLoad
  /-- `try_external_acquire` is to exchange `external_lock`. -/
  | tryExchange
  /-- `try_external_acquire` is to call the barrier. -/
  | tryBarrier
  /-- `try_external_acquire` is to load the count again. -/
  | tryTest
  /-- `try_external_acquire` is to clear `external_lock`, and to return without the lock. -/
  | tryRelease
  /-- `external_acquire` is to exchange `external_lock`. -/
  | spinExchange
  /-- `external_acquire` is to call the barrier. -/
  | spinBarrier
  /-- `external_acquire` is to load the count. -/
  | spinTest
  /-- It has the lock. -/
  | holding
deriving DecidableEq, Repr

/-- The lock with the threads. -/
structure State (T : Type*) where
  /-- The lock, with the stores of the internal thread. -/
  lock : StoreBuffer AsymmetricLock Store
  /-- Where the internal thread is. -/
  internal : Internal
  /-- How many of its calls of `internal_acquire` have returned and are not yet released. -/
  depth : ℕ
  /-- What the last of them returned: whether the lock was freshly acquired. -/
  fresh : Bool
  /-- Where each external thread is. -/
  external : T → External

/-- A lock that nobody has. -/
def State.initial (T : Type*) : State T where
  lock := ⟨⟨0, false⟩, []⟩
  internal := .idle
  depth := 0
  fresh := false
  external := fun _ => .idle

/-- What can happen. -/
inductive Action (T : Type*)
  /-- The internal thread calls `internal_acquire`. -/
  | internalAcquire
  /-- The internal thread calls `internal_release`. -/
  | internalRelease
  /-- The internal thread takes a step of its call. -/
  | internal
  /-- The oldest store of the internal thread reaches the memory. -/
  | drain
  /-- An external thread calls `try_external_acquire`. -/
  | tryExternalAcquire (t : T)
  /-- An external thread calls `external_acquire`. -/
  | externalAcquire (t : T)
  /-- An external thread calls `external_release`. -/
  | externalRelease (t : T)
  /-- An external thread takes a step of its call. -/
  | external (t : T)
deriving DecidableEq, Repr

namespace State

variable {T : Type*}

/-- What the internal thread reads. -/
def read (s : State T) : AsymmetricLock := s.lock.view write

/-- The internal thread makes a store and goes on. -/
def store (s : State T) (a : Store) (pc : Internal) : State T :=
  { s with lock := s.lock.store a, internal := pc }

/-- `internal_acquire` returns. -/
def acquired (s : State T) (fresh : Bool) : State T :=
  { s with internal := .idle, depth := s.depth + 1, fresh := fresh }

/-- A step of a call of the internal thread. -/
def internalStep (s : State T) : Option (State T) :=
  match s.internal with
  | .idle => none
  | .acquireLoad => some { s with internal := .acquireStore s.read.internalLock }
  | .acquireStore count => some (s.store (.internalLock (count + 1)) (.acquireTest count))
  | .acquireTest count =>
    if 0 < count then some (s.acquired false)
    else if s.read.externalLock then some { s with internal := .rareLoad }
    else some (s.acquired true)
  | .rareLoad => some { s with internal := .rareStore s.read.internalLock }
  | .rareStore count => some (s.store (.internalLock (count - 1)) .rareExchange)
  | .rareExchange => some
    { s with
      lock := (s.lock.flush write).put write (.externalLock true)
      internal := if s.read.externalLock then .rareExchange else .rareSet }
  | .rareSet => some (s.store (.internalLock 1) .rareRelease)
  | .rareRelease => some ((s.store (.externalLock false) .idle).acquired true)
  | .releaseLoad => some { s with internal := .releaseStore s.read.internalLock }
  | .releaseStore count => some
    { s.store (.internalLock (count - 1)) .idle with depth := s.depth - 1 }

variable [DecidableEq T]

/-- An external thread goes on. -/
def goto (s : State T) (t : T) (pc : External) : State T :=
  { s with external := Function.update s.external t pc }

/-- An external thread exchanges `external_lock` with `true`, and goes on. -/
def exchange (s : State T) (t : T) (held free : External) : State T :=
  { s with
    lock := s.lock.put write (.externalLock true)
    external := Function.update s.external t (if s.lock.memory.externalLock then held else free) }

/-- An external thread calls the barrier, and goes on. -/
def barrier (s : State T) (t : T) (pc : External) : State T :=
  { s with lock := s.lock.flush write, external := Function.update s.external t pc }

/-- `external_release`. -/
def release (s : State T) (t : T) : State T :=
  { s with
    lock := s.lock.put write (.externalLock false)
    external := Function.update s.external t .idle }

/-- A step of a call of an external thread. -/
def externalStep (s : State T) (t : T) : Option (State T) :=
  match s.external t with
  | .idle => none
  | .tryLoad => some (s.goto t (if s.lock.memory.internalLock = 0 then .tryExchange else .idle))
  | .tryExchange => some (s.exchange t .idle .tryBarrier)
  | .tryBarrier => some (s.barrier t .tryTest)
  | .tryTest => some (s.goto t (if s.lock.memory.internalLock = 0 then .holding else .tryRelease))
  | .tryRelease => some (s.release t)
  | .spinExchange => some (s.exchange t .spinExchange .spinBarrier)
  | .spinBarrier => some (s.barrier t .spinTest)
  | .spinTest => some (s.goto t (if s.lock.memory.internalLock = 0 then .holding else .spinTest))
  | .holding => none

/-- One step.  The internal thread releases only what it acquired, and an external thread only the lock
that it has. -/
def step (s : State T) : Action T → Option (State T)
  | .internalAcquire => if s.internal = .idle then some { s with internal := .acquireLoad } else none
  | .internalRelease =>
    if s.internal = .idle ∧ 0 < s.depth then some { s with internal := .releaseLoad } else none
  | .internal => s.internalStep
  | .drain => (s.lock.drain write).map fun lock => { s with lock := lock }
  | .tryExternalAcquire t => if s.external t = .idle then some (s.goto t .tryLoad) else none
  | .externalAcquire t => if s.external t = .idle then some (s.goto t .spinExchange) else none
  | .externalRelease t => if s.external t = .holding then some (s.release t) else none
  | .external t => s.externalStep t

/-- The states of a lock. -/
inductive Reached : State T → Prop
  /-- A new lock. -/
  | initial : Reached (State.initial T)
  /-- A step. -/
  | step {s s' : State T} {a : Action T} (hs : Reached s) (h : s.step a = some s') : Reached s'

end State

end AsymmetricLock

end VeronaRt
