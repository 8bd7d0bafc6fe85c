import VeronaFs.Foundation.Links

/-!
# Pausing threads

`ThreadSync`, its `SchedulerLock` and the `SleepHandle` of each thread.  A thread that holds the lock may
add itself to the list of waiters, release the lock and sleep on its semaphore.  An unpause request does not
wait for the lock: it marks the lock, and the thread that holds it takes the list and wakes the waiters
after it has released the lock.

The list is linked through the threads' `LocalSync` records, and a thread that was woken may pause again
while others of the list are still to be woken.  A failed attempt of the spin lock changes nothing and is
left out.
-/

set_option linter.unusedSectionVars false

namespace VeronaRt

open Foundation

namespace ThreadSync

/-! ## Code -/

/-- The state of a `SchedulerLock`. -/
inductive LockState
  /-- No thread has the lock. -/
  | unlocked
  /-- A thread has it. -/
  | locked
  /-- A thread has it and is to wake the waiters. -/
  | lockedUnpauseNeeded
deriving DecidableEq, Repr

/-- Where `ThreadSync::unlock` returns to. -/
inductive Return
  /-- To the end of a handle or of `unpause_all`. -/
  | exit
  /-- To `pause`, which sleeps then. -/
  | pause (wakeOnExit : Bool)
deriving DecidableEq, Repr

/-- Where a thread is. -/
inductive Pc (T : Type*)
  /-- Outside. -/
  | idle
  /-- In `lock`, for a handle. -/
  | lock (wakeOnExit : Bool)
  /-- It has a handle. -/
  | handle (wakeOnExit : Bool)
  /-- `unlock` is to exchange `Locked` for `Unlocked`. -/
  | unlock (k : Return)
  /-- It has failed, and the list of waiters is to be taken. -/
  | take (k : Return)
  /-- `unlock_unpause` is to release the lock. -/
  | unlockUnpause (k : Return) (curr : Option T)
  /-- The loop over the waiters, at its test. -/
  | wake (k : Return) (curr : Option T)
  /-- A waiter is to be woken, and `next` was read. -/
  | wakeOne (k : Return) (curr : T) (next : Option T)
  /-- It sleeps on its semaphore. -/
  | sleep (wakeOnExit : Bool)
deriving DecidableEq, Repr

/-- Behind a call of `unlock`. -/
def Return.pc {T : Type*} : Return → Pc T
  | .exit => .idle
  | .pause wakeOnExit => .sleep wakeOnExit

/-- What threads do to each other. -/
inductive Event (T : Type*)
  /-- A thread adds itself to the waiters. -/
  | pause (t : T)
  /-- All waiters are to be woken. -/
  | request
  /-- The semaphore of a thread is released. -/
  | wake (t : T)
deriving DecidableEq, Repr

/-- The lock, the list of waiters, their `LocalSync` records and the threads. -/
structure State (T : Type*) where
  /-- The lock. -/
  lock : LockState
  /-- The head of the list of waiters. -/
  waiters : Option T
  /-- Its links. -/
  next : T → Option T
  /-- The permits of their semaphores. -/
  sem : T → ℕ
  /-- The threads. -/
  pc : T → Pc T

variable {T : Type*} [DecidableEq T]

/-- At the start. -/
def State.initial : State T := ⟨.unlocked, none, fun _ => none, fun _ => 0, fun _ => .idle⟩

/-- A thread goes on. -/
def State.goto (s : State T) (t : T) (p : Pc T) : State T := { s with pc := Function.update s.pc t p }

/-- A step of the thread `t`. -/
inductive Step (s : State T) (t : T) : List (Event T) → State T → Prop
  /-- A handle is made. -/
  | construct (h : s.pc t = .idle) : Step s t [] (s.goto t (.lock false))
  /-- `unpause_all` gets the lock. -/
  | unpauseLock (h : s.pc t = .idle) (hl : s.lock = .unlocked) :
      Step s t [.request] ({ s with lock := .lockedUnpauseNeeded }.goto t (.unlock .exit))
  /-- It leaves the request to the thread that has it. -/
  | unpauseLeave (h : s.pc t = .idle) (hl : s.lock ≠ .unlocked) :
      Step s t [.request] ({ s with lock := .lockedUnpauseNeeded }.goto t .idle)
  /-- `lock` gets the lock. -/
  | acquire {w : Bool} (h : s.pc t = .lock w) (hl : s.lock = .unlocked) :
      Step s t [] ({ s with lock := .locked }.goto t (.handle w))
  /-- `unpause_all` of the handle. -/
  | unpauseAll {w : Bool} (h : s.pc t = .handle w) : Step s t [] (s.goto t (.handle true))
  /-- `pause` adds the thread to the waiters. -/
  | pause {w : Bool} (h : s.pc t = .handle w) :
      Step s t [.pause t] ({ s with
        next := Function.update s.next t s.waiters
        waiters := some t }.goto t (.unlock (.pause w)))
  /-- The handle is dropped. -/
  | drop (h : s.pc t = .handle false) : Step s t [] (s.goto t (.unlock .exit))
  /-- It is dropped with a request. -/
  | dropWake (h : s.pc t = .handle true) :
      Step s t [.request] ({ s with lock := .lockedUnpauseNeeded }.goto t (.unlock .exit))
  /-- `unlock` releases the lock. -/
  | unlock {k : Return} (h : s.pc t = .unlock k) (hl : s.lock = .locked) :
      Step s t [] ({ s with lock := .unlocked }.goto t k.pc)
  /-- It finds a request. -/
  | unlockFail {k : Return} (h : s.pc t = .unlock k) (hl : s.lock = .lockedUnpauseNeeded) :
      Step s t [] (s.goto t (.take k))
  /-- The list is taken. -/
  | take {k : Return} (h : s.pc t = .take k) :
      Step s t [] ({ s with waiters := none }.goto t (.unlockUnpause k s.waiters))
  /-- The lock is released. -/
  | unlockUnpause {k : Return} {curr : Option T} (h : s.pc t = .unlockUnpause k curr) :
      Step s t [] ({ s with lock := .unlocked }.goto t (.wake k curr))
  /-- The end of the loop. -/
  | wakeEnd {k : Return} (h : s.pc t = .wake k none) : Step s t [] (s.goto t k.pc)
  /-- The link of a waiter is read. -/
  | wakeNext {k : Return} {u : T} (h : s.pc t = .wake k (some u)) :
      Step s t [] (s.goto t (.wakeOne k u (s.next u)))
  /-- It is woken. -/
  | wakeOne {k : Return} {u : T} {next : Option T} (h : s.pc t = .wakeOne k u next) :
      Step s t [.wake u]
        ({ s with sem := Function.update s.sem u (s.sem u + 1) }.goto t (.wake k next))
  /-- The thread wakes up. -/
  | sleep {w : Bool} (h : s.pc t = .sleep w) (hs : 0 < s.sem t) :
      Step s t [] ({ s with sem := Function.update s.sem t (s.sem t - 1) }.goto t (.lock w))

/-- Steps of any threads. -/
inductive Run : State T → List (Event T) → State T → Prop
  /-- No step. -/
  | nil (s : State T) : Run s [] s
  /-- A step more. -/
  | snoc {s s' s'' : State T} {t : T} {events new : List (Event T)} (hr : Run s events s')
      (hs : Step s' t new s'') : Run s (events ++ new) s''

/-- A state that is reached. -/
def Reached (s : State T) : Prop := ∃ events, Run State.initial events s

/-- The assertions at the place of a thread: the lock is held, there is a request, and the one of
`SleepHandle::wake`, that the last permit of the semaphore was taken. -/
def Asserts (s : State T) : Pc T → Prop
  | .unlock _ => s.lock ≠ .unlocked
  | .unlockUnpause _ _ => s.lock = .lockedUnpauseNeeded
  | .wakeOne _ u _ => s.sem u = 0
  | _ => True

/-! ## Places -/

/-- The thread has the lock. -/
def Pc.owns : Pc T → Bool
  | .handle _ => true
  | .unlock _ => true
  | .take _ => true
  | .unlockUnpause _ _ => true
  | _ => false

/-- It has found a request. -/
def Pc.unpausing : Pc T → Bool
  | .take _ => true
  | .unlockUnpause _ _ => true
  | _ => false

/-- It wakes others. -/
def Pc.waking : Pc T → Bool
  | .wake _ _ => true
  | .wakeOne _ _ _ => true
  | _ => false

/-- The call is one of `pause`. -/
def Return.isPause : Return → Bool
  | .exit => false
  | .pause _ => true

/-- It is in `pause`, behind the write to the list. -/
def Pc.paused : Pc T → Bool
  | .unlock k => k.isPause
  | .take k => k.isPause
  | .unlockUnpause k _ => k.isPause
  | .wake k _ => k.isPause
  | .wakeOne k _ _ => k.isPause
  | .sleep _ => true
  | _ => false

/-- A call that returns is in `pause` as before. -/
@[simp] theorem Return.paused_pc (k : Return) : (k.pc : Pc T).paused = k.isPause := by cases k <;> rfl

/-- A call that returns does not have the lock. -/
@[simp] theorem Return.owns_pc (k : Return) : (k.pc : Pc T).owns = false := by cases k <;> rfl

/-- It has no request to serve. -/
@[simp] theorem Return.unpausing_pc (k : Return) : (k.pc : Pc T).unpausing = false := by cases k <;> rfl

/-- A thread with a request has the lock. -/
theorem Pc.owns_of_unpausing {p : Pc T} (h : p.unpausing = true) : p.owns = true := by
  cases p <;> first | rfl | cases h

/-- A thread waits if it has paused and was not woken. -/
def State.Waits (s : State T) (t : T) : Prop := (s.pc t).paused = true ∧ s.sem t = 0

/-- It is decided. -/
instance (s : State T) (t : T) : Decidable (s.Waits t) := inferInstanceAs (Decidable (_ ∧ _))

section

variable {s s' : State T} {t u : T} {p : Pc T} {l : LockState} {W : List T} {D : T → List T}
  {events new : List (Event T)}

/-- The place of a thread that went on. -/
@[simp] theorem State.goto_pc_self (s : State T) (t : T) (p : Pc T) : (s.goto t p).pc t = p :=
  Function.update_self ..

/-- Other threads stay where they are. -/
theorem State.goto_pc_of_ne (h : u ≠ t) : (s.goto t p).pc u = s.pc u := Function.update_of_ne h ..

/-- A thread that goes on in `pause`, or outside of it, pauses as before. -/
theorem Pc.paused_update {pc : T → Pc T} (hp : p.paused = (pc t).paused) (x : T) :
    (Function.update pc t p x).paused = (pc x).paused := by
  by_cases hxt : x = t
  · rw [hxt, Function.update_self, hp]
  · rw [Function.update_of_ne hxt]

/-! ## The lock -/

/-- The lock is held by one thread if it is not free. -/
structure LockOk (l : LockState) (pc : T → Pc T) : Prop where
  /-- If it is free no thread has it. -/
  free : l = .unlocked → ∀ u, (pc u).owns = false
  /-- If not one has. -/
  held : l ≠ .unlocked → ∃ u, (pc u).owns = true
  /-- There are not two of them. -/
  unique : ∀ u v, (pc u).owns = true → (pc v).owns = true → u = v
  /-- A request stays. -/
  needed : ∀ u, (pc u).unpausing = true → l = .lockedUnpauseNeeded

namespace LockOk

variable {pc : T → Pc T} {l' : LockState}

/-- A step that leaves the lock with the thread that has it. -/
theorem stay (h : LockOk l pc) (howns : p.owns = (pc t).owns) (hl : l' = .unlocked ↔ l = .unlocked)
    (hkeep : l = .lockedUnpauseNeeded → l' = .lockedUnpauseNeeded)
    (hneeded : p.unpausing = true → l' = .lockedUnpauseNeeded) : LockOk l' (Function.update pc t p) := by
  have hpc : ∀ u, (Function.update pc t p u).owns = (pc u).owns := by
    intro u
    by_cases hut : u = t
    · rw [hut, Function.update_self, howns]
    · rw [Function.update_of_ne hut]
  refine ⟨fun hfree u => ?_, fun hheld => ?_, fun u v hu hv => ?_, fun u hu => ?_⟩
  · rw [hpc]
    exact h.free (hl.mp hfree) u
  · obtain ⟨u, hu⟩ := h.held fun hfree => hheld (hl.mpr hfree)
    exact ⟨u, (hpc u).trans hu⟩
  · rw [hpc] at hu hv
    exact h.unique u v hu hv
  · by_cases hut : u = t
    · rw [hut, Function.update_self] at hu
      exact hneeded hu
    · rw [Function.update_of_ne hut] at hu
      exact hkeep (h.needed u hu)

/-- The lock is taken. -/
theorem take (h : LockOk l pc) (hl : l = .unlocked) (howns : p.owns = true)
    (hneeded : p.unpausing = false) (hl' : l' ≠ .unlocked) : LockOk l' (Function.update pc t p) := by
  have hother : ∀ u, u ≠ t → (Function.update pc t p u).owns = false := by
    intro u hut
    rw [Function.update_of_ne hut]
    exact h.free hl u
  have heq : ∀ u, (Function.update pc t p u).owns = true → u = t := by
    intro u hu
    by_contra hut
    rw [hother u hut] at hu
    cases hu
  refine ⟨fun hfree => absurd hfree hl', fun _ => ⟨t, by rw [Function.update_self, howns]⟩,
    fun u v hu hv => (heq u hu).trans (heq v hv).symm, fun u hu => ?_⟩
  rw [heq u (Pc.owns_of_unpausing hu), Function.update_self, hneeded] at hu
  cases hu

/-- It is released. -/
theorem release (h : LockOk l pc) (ht : (pc t).owns = true) (howns : p.owns = false) :
    LockOk .unlocked (Function.update pc t p) := by
  have hall : ∀ u, (Function.update pc t p u).owns = false := by
    intro u
    by_cases hut : u = t
    · rw [hut, Function.update_self, howns]
    · rw [Function.update_of_ne hut]
      by_contra hu
      exact hut (h.unique u t (by simpa using hu) ht)
  refine ⟨fun _ => hall, fun hheld => absurd rfl hheld, fun u v hu _ => ?_, fun u hu => ?_⟩
  · rw [hall u] at hu
    cases hu
  · have hu' := Pc.owns_of_unpausing hu
    rw [hall u] at hu'
    cases hu'

/-- Every step keeps it. -/
theorem step (h : LockOk s.lock s.pc) (hs : Step s t new s') : LockOk s'.lock s'.pc := by
  cases hs with
  | construct hpc => exact h.stay (by rw [hpc]; rfl) Iff.rfl id fun h => by cases h
  | unpauseLock hpc hl => exact h.take hl rfl rfl fun h => by cases h
  | unpauseLeave hpc hl =>
    exact h.stay (by rw [hpc]) ⟨fun h => (by cases h), fun h => absurd h hl⟩ (fun _ => rfl) fun _ => rfl
  | acquire hpc hl => exact h.take hl rfl rfl fun h => by cases h
  | unpauseAll hpc => exact h.stay (by rw [hpc]; rfl) Iff.rfl id fun h => by cases h
  | pause hpc => exact h.stay (by rw [hpc]; rfl) Iff.rfl id fun h => by cases h
  | drop hpc => exact h.stay (by rw [hpc]; rfl) Iff.rfl id fun h => by cases h
  | dropWake hpc =>
    refine h.stay (by rw [hpc]; rfl) ⟨fun h => (by cases h), fun hfree => ?_⟩ (fun _ => rfl) fun _ => rfl
    have hnone := h.free hfree t
    rw [hpc] at hnone
    cases hnone
  | unlock hpc hl => exact h.release (by rw [hpc]; rfl) (Return.owns_pc _)
  | unlockFail hpc hl => exact h.stay (by rw [hpc]; rfl) Iff.rfl id fun _ => hl
  | take hpc =>
    exact h.stay (by rw [hpc]; rfl) Iff.rfl id fun _ => h.needed t (by rw [hpc]; rfl)
  | unlockUnpause hpc => exact h.release (by rw [hpc]; rfl) rfl
  | wakeEnd hpc =>
    exact h.stay (by rw [hpc, Return.owns_pc]; rfl) Iff.rfl id fun h => by simp at h
  | wakeNext hpc => exact h.stay (by rw [hpc]; rfl) Iff.rfl id fun h => by cases h
  | wakeOne hpc => exact h.stay (by rw [hpc]; rfl) Iff.rfl id fun h => by cases h
  | sleep hpc _ => exact h.stay (by rw [hpc]; rfl) Iff.rfl id fun h => by cases h

end LockOk

end

end ThreadSync

end VeronaRt
