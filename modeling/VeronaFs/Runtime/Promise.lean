import VeronaFs.Runtime.Progress

/-!
# Promises

A promise is a cown whose chain starts with a slot of its own, which is ready from the beginning and
which the write end releases.  So the slot is that of a behaviour whose body runs as long as the
promise has its write end: the `writer` of the promise.  `then` schedules a behaviour on the cown with
the callback as its body.

The write ends are held in variables.  The counts of references are not part of the state.
-/

namespace VeronaRt

/-! ## Code -/

/-- What takes part in the chains of the promises. -/
inductive Promise.Job (π χ : Type*)
  /-- The slot of a promise, held by its write end. -/
  | writer (promise : π)
  /-- The behaviour of a callback. -/
  | callback (fn : χ)
deriving DecidableEq, Repr

/-- What the code depends on of the type of the values. -/
structure Promise.Payload (τ : Type*) where
  /-- `std::is_trivially_copy_constructible`. -/
  triviallyCopyable : Bool
  /-- What is left behind when a value is moved. -/
  moved : τ → τ
  /-- The value of a new promise. -/
  fresh : τ

/-- All promises, callbacks and write ends. -/
structure Promise (π χ ε τ : Type*) where
  /-- The chains. -/
  core : State (Promise.Job π χ) π
  /-- `fulfilled`. -/
  fulfilled : π → Bool
  /-- `val`. -/
  val : π → τ
  /-- The promise of the write end that a variable holds. -/
  ends : ε → Option π
  /-- The callbacks that ran, with the value that each received, or none if it received an error. -/
  log : List (χ × Option τ)

namespace Promise

variable {π χ ε τ : Type*} [LinearOrder π] [DecidableEq χ] [DecidableEq ε]

/-- The behaviours: each has one slot, for its promise. -/
def behaviours (promise : χ → π) : Behaviours (Job π χ) π where
  cowns
    | .writer p => [p]
    | .callback fn => [promise fn]
  nodup j := by cases j <;> exact List.nodup_singleton _

/-- `Promise()`: the last slot of the cown is the own slot, which is set ready. -/
def created (s : State (Job π χ) π) (p : π) : State (Job π χ) π where
  lastSlot := Function.update s.lastSlot p (some (.writer p))
  status := Function.update s.status (.writer p) (Function.update (s.status (.writer p)) p .ready)
  execCountDown := s.execCountDown
  handed := Function.update s.handed (.writer p) 1
  resolved := Function.update s.resolved (.writer p) 2
  sched := Function.update s.sched (.writer p) .returned
  invoke := Function.update s.invoke (.writer p) .body

/-- The steps. -/
inductive Op (π χ ε τ : Type*)
  /-- `create_promise`, with the variable for the write end. -/
  | create (p : π) (e : ε)
  /-- `then` is called. -/
  | call (fn : χ)
  /-- A step of the `schedule` of a callback. -/
  | schedule (fn : χ)
  /-- The scheduler starts a callback. -/
  | start (fn : χ)
  /-- A callback runs. -/
  | run (fn : χ)
  /-- A step of `release_all` for a callback, or of the release of the slot of a promise. -/
  | invoke (j : Job π χ)
  /-- `fulfill`. -/
  | fulfill (e : ε) (v : τ)
  /-- `~PromiseW`. -/
  | destroy (e : ε)
  /-- `PromiseW(PromiseW&&)` into a new variable. -/
  | moveConstruct (e old : ε)
  /-- `operator=(PromiseW&&)`. -/
  | moveAssign (e old : ε)

/-- The body of the behaviour of a callback. -/
def runFn (promise : χ → π) (T : Payload τ) (s : Promise π χ ε τ) (fn : χ) : Promise π χ ε τ :=
  let p := promise fn
  if s.fulfilled p then
    if T.triviallyCopyable then { s with log := s.log ++ [(fn, some (s.val p))] }
    else { s with
      log := s.log ++ [(fn, some (s.val p))]
      val := Function.update s.val p (T.moved (s.val p)) }
  else { s with log := s.log ++ [(fn, none)] }

/-- The variable is left empty. -/
def clear (s : Promise π χ ε τ) (e : ε) : Promise π χ ε τ :=
  { s with ends := Function.update s.ends e none }

/-- The release of the slot of a promise begins. -/
def release (promise : χ → π) (s : Promise π χ ε τ) (p : π) : Promise π χ ε τ :=
  { s with core := (behaviours promise).invokeStep s.core (.writer p) }

/-- The write end of `old` is moved to `e`. -/
def move (s : Promise π χ ε τ) (e old : ε) : Promise π χ ε τ :=
  { s with ends := Function.update (Function.update s.ends e (s.ends old)) old none }

/-- A step, or none if it is not possible. -/
def exec (promise : χ → π) (T : Payload τ) (s : Promise π χ ε τ) :
    Op π χ ε τ → Option (Promise π χ ε τ)
  | .create p e =>
    if s.core.sched (.writer p) = .notCalled ∧ s.ends e = none then
      some { s with
        core := created s.core p
        fulfilled := Function.update s.fulfilled p false
        val := Function.update s.val p T.fresh
        ends := Function.update s.ends e (some p) }
    else none
  | .call fn =>
    if s.core.sched (.callback fn) = .notCalled ∧ s.core.sched (.writer (promise fn)) ≠ .notCalled then
      let order := (behaviours promise).order (.callback fn)
      some { s with core := s.core.setSched (.callback fn) (.exchange order 1) }
    else none
  | .schedule fn =>
    some { s with core := (behaviours promise).scheduleStep s.core (.callback fn) }
  | .start fn =>
    if s.core.invoke (.callback fn) = .notStarted ∧ 0 < s.core.handed (.callback fn) then
      some { s with core := s.core.setInvoke (.callback fn) .body }
    else none
  | .run fn =>
    if s.core.invoke (.callback fn) = .body then
      some { runFn promise T s fn with
        core := (behaviours promise).invokeStep s.core (.callback fn) }
    else none
  | .invoke j =>
    if s.core.invoke j = .body then none
    else some { s with core := (behaviours promise).invokeStep s.core j }
  | .fulfill e v =>
    (s.ends e).map fun p => release promise { s.clear e with
      val := Function.update s.val p v
      fulfilled := Function.update s.fulfilled p true } p
  | .destroy e =>
    match s.ends e with
    | none => some s
    | some p => some (if s.fulfilled p then s.clear e else release promise (s.clear e) p)
  | .moveConstruct e old => if s.ends e = none then some (s.move e old) else none
  | .moveAssign e old => some (s.move e old)

/-- Nothing was created. -/
def init (promise : χ → π) (T : Payload τ) : Promise π χ ε τ where
  core := (behaviours promise).init
  fulfilled _ := false
  val _ := T.fresh
  ends _ := none
  log := []

/-- A run of the steps in a list, each of which meets the condition. -/
inductive Runs (promise : χ → π) (T : Payload τ) (C : Promise π χ ε τ → Op π χ ε τ → Prop) :
    Promise π χ ε τ → Promise π χ ε τ → Prop
  /-- No step. -/
  | refl (s : Promise π χ ε τ) : Runs promise T C s s
  /-- One more step. -/
  | tail {s s' s'' : Promise π χ ε τ} {op : Op π χ ε τ} (h : Runs promise T C s s') (hc : C s' op)
      (hstep : s'.exec promise T op = some s'') : Runs promise T C s s''

end Promise

end VeronaRt
