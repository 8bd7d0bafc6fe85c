import Mathlib.Data.List.Sort
import Mathlib.Logic.Relation

/-!
# Scheduling behaviours

The protocol of `BehaviourCore` in atomic steps.  A call of `schedule` acquires the cowns of its
behaviour in a global order: it exchanges the last slot of each cown, waits until the behaviour in
front is no longer in this phase and links itself behind it.  In a second phase it marks its slots
ready and resolves its part of the countdown.  The countdown is resolved further by the behaviours in
front, when they have run and release their slots; at its end the behaviour is handed over to the
scheduler.

The calls are the unit of interleaving: each `schedule` of a behaviour and each run of a handed over
behaviour with its `release_all` has its own program counter, and any of them may take the next step.
Threads, which run one call at a time, allow some of these orders.
-/

set_option linter.unusedSectionVars false

namespace VeronaRt

/-! ## Program counters -/

/-- `Slot::status`: 0, 1 or the next behaviour. -/
inductive Status (β : Type*)
  /-- The behaviour of the slot is in its acquire phase. -/
  | wait
  /-- The acquire phase is over. -/
  | ready
  /-- The behaviour `b` follows in the chain of the cown. -/
  | behaviour (b : β)
deriving DecidableEq, Repr

/-- Where a call of `schedule` is.  `ec` is the execution count that it resolves at its end. -/
inductive SchedulePc (β κ : Type*)
  /-- The behaviour is not scheduled yet. -/
  | notCalled
  /-- Acquire phase: the exchange on the first of the cowns `rest`, or the end of the phase. -/
  | exchange (rest : List κ) (ec : ℕ)
  /-- Acquire phase: `while (prev->is_wait())` for the slot of `prev` on the cown `c`. -/
  | isWait (c : κ) (rest : List κ) (ec : ℕ) (prev : β)
  /-- Acquire phase: `prev->set_behaviour(body)`. -/
  | setBehaviour (c : κ) (rest : List κ) (ec : ℕ) (prev : β)
  /-- Release phase: `set_ready` on the first of the cowns `rest`, or the end of the phase. -/
  | setReady (rest : List κ) (ec : ℕ)
  /-- `resolve(ec)`: the load of the countdown. -/
  | load (ec : ℕ)
  /-- `resolve(ec)`: the subtraction from the countdown. -/
  | fetchSub (ec : ℕ)
  /-- The call is over. -/
  | returned
deriving DecidableEq, Repr

/-- Where the run of a behaviour is: `Behaviour::invoke`. -/
inductive InvokePc (β κ : Type*)
  /-- The scheduler has not started the behaviour. -/
  | notStarted
  /-- The body runs. -/
  | body
  /-- `release_all`: the first status check of the slot of the first of the cowns `rest`. -/
  | release (rest : List κ)
  /-- `Slot::release`: the compare-exchange of the last slot of `c`. -/
  | compareExchange (c : κ) (rest : List κ)
  /-- `Slot::release`: `while (is_ready())`. -/
  | isReady (c : κ) (rest : List κ)
  /-- `Slot::release`: `get_behaviour()`. -/
  | getBehaviour (c : κ) (rest : List κ)
  /-- `resolve()` of the behaviour `b` that follows on `c`: the load of the countdown. -/
  | load (c : κ) (rest : List κ) (b : β)
  /-- `resolve()` of the behaviour `b` that follows on `c`: the subtraction. -/
  | fetchSub (c : κ) (rest : List κ) (b : β)
  /-- All slots are released and the behaviour is deallocated. -/
  | done
  /-- An assertion failed. -/
  | failed
deriving DecidableEq, Repr

/-! ## Behaviours and the shared state -/

/-- Behaviours `b` with the cowns of their slots, which are pairwise distinct. -/
structure Behaviours (β κ : Type*) where
  /-- The cowns of the slots, in the order of the slots. -/
  cowns : β → List κ
  /-- The cowns of a behaviour are pairwise distinct. -/
  nodup : ∀ b, (cowns b).Nodup

/-- The state shared by all calls, with their program counters.  As the cowns of a behaviour are
distinct, a slot is named by its behaviour and its cown. -/
structure State (β κ : Type*) where
  /-- `Cown::last_slot`: the behaviour of the slot. -/
  lastSlot : κ → Option β
  /-- `Slot::status`. -/
  status : β → κ → Status β
  /-- `exec_count_down`. -/
  execCountDown : β → ℤ
  /-- How often the behaviour was given to `Scheduler::schedule`. -/
  handed : β → ℕ
  /-- The sum of the counts of the finished calls of `resolve`.  No step reads it. -/
  resolved : β → ℕ
  /-- The call of `schedule`. -/
  sched : β → SchedulePc β κ
  /-- The run. -/
  invoke : β → InvokePc β κ

namespace State

variable {β κ : Type*} [DecidableEq β]

/-- The call of `schedule` goes on at `pc`. -/
def setSched (s : State β κ) (b : β) (pc : SchedulePc β κ) : State β κ :=
  { s with sched := Function.update s.sched b pc }

/-- The run goes on at `pc`. -/
def setInvoke (s : State β κ) (b : β) (pc : InvokePc β κ) : State β κ :=
  { s with invoke := Function.update s.invoke b pc }

/-- A store to `last_slot`. -/
def setLast [DecidableEq κ] (s : State β κ) (c : κ) (last : Option β) : State β κ :=
  { s with lastSlot := Function.update s.lastSlot c last }

/-- A store to `status`. -/
def setStatus [DecidableEq κ] (s : State β κ) (b : β) (c : κ) (st : Status β) : State β κ :=
  { s with status := Function.update s.status b (Function.update (s.status b) c st) }

/-- `resolve(n)` whose load found `n`: the behaviour is handed over without a subtraction. -/
def resolveLoad (s : State β κ) (b : β) (n : ℕ) : State β κ :=
  { s with
    handed := Function.update s.handed b (s.handed b + 1)
    resolved := Function.update s.resolved b (s.resolved b + n) }

/-- `resolve(n)`: the subtraction hands the behaviour over if it found `n`. -/
def resolveSub (s : State β κ) (b : β) (n : ℕ) : State β κ :=
  { s with
    execCountDown := Function.update s.execCountDown b (s.execCountDown b - n)
    handed := Function.update s.handed b
      (if s.execCountDown b = n then s.handed b + 1 else s.handed b)
    resolved := Function.update s.resolved b (s.resolved b + n) }

section Fields

variable (s : State β κ) (b b' : β) (c c' : κ) (pc : SchedulePc β κ) (ic : InvokePc β κ) (n : ℕ)

@[simp, grind =] theorem sched_setSched :
    (s.setSched b pc).sched b' = if b' = b then pc else s.sched b' :=
  Function.update_apply ..

@[simp, grind =] theorem invoke_setSched : (s.setSched b pc).invoke = s.invoke := rfl

@[simp, grind =] theorem status_setSched : (s.setSched b pc).status = s.status := rfl

@[simp, grind =] theorem lastSlot_setSched : (s.setSched b pc).lastSlot = s.lastSlot := rfl

@[simp, grind =] theorem handed_setSched : (s.setSched b pc).handed = s.handed := rfl

@[simp, grind =] theorem sched_setInvoke : (s.setInvoke b ic).sched = s.sched := rfl

@[simp, grind =] theorem invoke_setInvoke :
    (s.setInvoke b ic).invoke b' = if b' = b then ic else s.invoke b' :=
  Function.update_apply ..

@[simp, grind =] theorem status_setInvoke : (s.setInvoke b ic).status = s.status := rfl

@[simp, grind =] theorem lastSlot_setInvoke : (s.setInvoke b ic).lastSlot = s.lastSlot := rfl

@[simp, grind =] theorem handed_setInvoke : (s.setInvoke b ic).handed = s.handed := rfl

@[simp, grind =] theorem sched_setLast [DecidableEq κ] (last : Option β) :
    (s.setLast c last).sched = s.sched := rfl

@[simp, grind =] theorem invoke_setLast [DecidableEq κ] (last : Option β) :
    (s.setLast c last).invoke = s.invoke := rfl

@[simp, grind =] theorem status_setLast [DecidableEq κ] (last : Option β) :
    (s.setLast c last).status = s.status := rfl

@[simp, grind =] theorem lastSlot_setLast [DecidableEq κ] (last : Option β) :
    (s.setLast c last).lastSlot c' = if c' = c then last else s.lastSlot c' :=
  Function.update_apply ..

@[simp, grind =] theorem handed_setLast [DecidableEq κ] (last : Option β) :
    (s.setLast c last).handed = s.handed := rfl

@[simp, grind =] theorem sched_setStatus [DecidableEq κ] (st : Status β) :
    (s.setStatus b c st).sched = s.sched := rfl

@[simp, grind =] theorem invoke_setStatus [DecidableEq κ] (st : Status β) :
    (s.setStatus b c st).invoke = s.invoke := rfl

@[simp, grind =] theorem status_setStatus [DecidableEq κ] (st : Status β) :
    (s.setStatus b c st).status b' c' = if b' = b ∧ c' = c then st else s.status b' c' := by
  change Function.update s.status b _ b' c' = _
  by_cases hb : b' = b
  · subst hb
    simp [Function.update_apply]
  · simp [hb]

@[simp, grind =] theorem lastSlot_setStatus [DecidableEq κ] (st : Status β) :
    (s.setStatus b c st).lastSlot = s.lastSlot := rfl

@[simp, grind =] theorem handed_setStatus [DecidableEq κ] (st : Status β) :
    (s.setStatus b c st).handed = s.handed := rfl

@[simp, grind =] theorem sched_resolveLoad : (s.resolveLoad b n).sched = s.sched := rfl

@[simp, grind =] theorem invoke_resolveLoad : (s.resolveLoad b n).invoke = s.invoke := rfl

@[simp, grind =] theorem status_resolveLoad : (s.resolveLoad b n).status = s.status := rfl

@[simp, grind =] theorem lastSlot_resolveLoad : (s.resolveLoad b n).lastSlot = s.lastSlot := rfl

/-- A `resolve` takes no behaviour back. -/
theorem handed_le_resolveLoad : s.handed b' ≤ (s.resolveLoad b n).handed b' := by
  simp only [resolveLoad, Function.update_apply]
  split
  · next hb => rw [hb]; exact Nat.le_succ _
  · exact le_rfl

@[simp, grind =] theorem sched_resolveSub : (s.resolveSub b n).sched = s.sched := rfl

@[simp, grind =] theorem invoke_resolveSub : (s.resolveSub b n).invoke = s.invoke := rfl

@[simp, grind =] theorem status_resolveSub : (s.resolveSub b n).status = s.status := rfl

@[simp, grind =] theorem lastSlot_resolveSub : (s.resolveSub b n).lastSlot = s.lastSlot := rfl

/-- A `resolve` takes no behaviour back. -/
theorem handed_le_resolveSub : s.handed b' ≤ (s.resolveSub b n).handed b' := by
  simp only [resolveSub, Function.update_apply]
  split
  · next hb =>
    subst hb
    split
    · exact Nat.le_succ _
    · exact le_rfl
  · exact le_rfl

end Fields

end State

/-! ## The global order -/

namespace Behaviours

variable {β κ : Type*} [LinearOrder κ] (P : Behaviours β κ)

/-- The cowns in the order of their acquisition: sorted by descending address. -/
def order (b : β) : List κ := (P.cowns b).insertionSort (· ≥ ·)

/-- The order has the cowns of the behaviour. -/
theorem mem_order {b : β} {c : κ} : c ∈ P.order b ↔ c ∈ P.cowns b :=
  List.mem_insertionSort _

/-- Each cown is acquired once. -/
theorem nodup_order (b : β) : (P.order b).Nodup :=
  (List.perm_insertionSort _ _).nodup_iff.mpr (P.nodup b)

/-- The cowns are acquired in descending order. -/
theorem pairwise_order (b : β) : (P.order b).Pairwise (· ≥ ·) :=
  List.pairwise_insertionSort _ _

end Behaviours

/-! ## Steps -/

namespace Behaviours

variable {β κ : Type*} [DecidableEq β] [LinearOrder κ] (P : Behaviours β κ)

/-- Nothing is scheduled.  The countdown of a behaviour is one more than its number of slots. -/
def init : State β κ where
  lastSlot := fun _ => none
  status := fun _ _ => .wait
  execCountDown := fun b => (P.cowns b).length + 1
  handed := fun _ => 0
  resolved := fun _ => 0
  sched := fun _ => .notCalled
  invoke := fun _ => .notStarted

/-- One atomic step of `schedule(b)`. -/
def scheduleStep (s : State β κ) (b : β) : State β κ :=
  match s.sched b with
  | .notCalled => s
  | .exchange [] ec => s.setSched b (.setReady (P.cowns b) ec)
  | .exchange (c :: rest) ec =>
    match s.lastSlot c with
    | none => (s.setLast c (some b)).setSched b (.exchange rest (ec + 1))
    | some prev => (s.setLast c (some b)).setSched b (.isWait c rest ec prev)
  | .isWait c rest ec prev =>
    if s.status prev c = .wait then s else s.setSched b (.setBehaviour c rest ec prev)
  | .setBehaviour c rest ec prev =>
    (s.setStatus prev c (.behaviour b)).setSched b (.exchange rest ec)
  | .setReady [] ec => s.setSched b (.load ec)
  | .setReady (c :: rest) ec => (s.setStatus b c .ready).setSched b (.setReady rest ec)
  | .load ec =>
    if s.execCountDown b = ec then (s.resolveLoad b ec).setSched b .returned
    else s.setSched b (.fetchSub ec)
  | .fetchSub ec => (s.resolveSub b ec).setSched b .returned
  | .returned => s

/-- One atomic step of the run of `b`: the end of its body or a step of `release_all`. -/
def invokeStep (s : State β κ) (b : β) : State β κ :=
  match s.invoke b with
  | .notStarted => s
  | .body => s.setInvoke b (.release (P.cowns b))
  | .release [] => s.setInvoke b .done
  | .release (c :: rest) =>
    match s.status b c with
    | .wait => s.setInvoke b .failed
    | .ready => s.setInvoke b (.compareExchange c rest)
    | .behaviour _ => s.setInvoke b (.getBehaviour c rest)
  | .compareExchange c rest =>
    if s.lastSlot c = some b then (s.setLast c none).setInvoke b (.release rest)
    else s.setInvoke b (.isReady c rest)
  | .isReady c rest =>
    if s.status b c = .ready then s else s.setInvoke b (.getBehaviour c rest)
  | .getBehaviour c rest =>
    match s.status b c with
    | .behaviour b' => s.setInvoke b (.load c rest b')
    | _ => s.setInvoke b .failed
  | .load c rest b' =>
    if s.execCountDown b' = 1 then (s.resolveLoad b' 1).setInvoke b (.release rest)
    else s.setInvoke b (.fetchSub c rest b')
  | .fetchSub _ rest b' => (s.resolveSub b' 1).setInvoke b (.release rest)
  | .done => s
  | .failed => s

/-- The atomic steps. -/
inductive Step : State β κ → State β κ → Prop
  /-- `schedule(b)` is called. -/
  | call {s : State β κ} {b : β} (h : s.sched b = .notCalled) :
      Step s (s.setSched b (.exchange (P.order b) 1))
  /-- A call of `schedule` goes on. -/
  | schedule (s : State β κ) (b : β) : Step s (P.scheduleStep s b)
  /-- The scheduler starts a behaviour that it was given. -/
  | start {s : State β κ} {b : β} (h : s.invoke b = .notStarted) (hhanded : 0 < s.handed b) :
      Step s (s.setInvoke b .body)
  /-- A run goes on. -/
  | invoke (s : State β κ) (b : β) : Step s (P.invokeStep s b)

/-- Any number of steps of any calls. -/
def Runs : State β κ → State β κ → Prop := Relation.ReflTransGen P.Step

/-- The states that the steps reach. -/
def Reachable (s : State β κ) : Prop := P.Runs P.init s

end Behaviours

/-! ## What a step leaves alone -/

section Core

variable {β κ : Type*} [DecidableEq β] [LinearOrder κ] {P : Behaviours β κ} {s : State β κ} {b b' : β}

/-- A step of `schedule` starts nothing. -/
theorem Behaviours.invoke_scheduleStep : (P.scheduleStep s b).invoke = s.invoke := by
  unfold scheduleStep
  split <;> try split
  all_goals rfl

/-- A step of `schedule` moves no other call. -/
theorem Behaviours.sched_scheduleStep_ne (hne : b' ≠ b) :
    (P.scheduleStep s b).sched b' = s.sched b' := by
  unfold scheduleStep
  split <;> try split
  all_goals first
    | rfl
    | simp [hne]

/-- A call of `schedule` that was made stays made. -/
theorem Behaviours.sched_scheduleStep_ne_notCalled (h : s.sched b ≠ .notCalled) :
    (P.scheduleStep s b).sched b ≠ .notCalled := by
  unfold scheduleStep
  split <;> try split
  all_goals first
    | assumption
    | (rw [State.sched_setSched, if_pos rfl]; simp)

/-- A call of `schedule` that was not made takes no step. -/
theorem Behaviours.scheduleStep_notCalled (h : s.sched b = .notCalled) : P.scheduleStep s b = s := by
  unfold scheduleStep
  rw [h]

/-- A step of a run schedules nothing. -/
theorem Behaviours.sched_invokeStep : (P.invokeStep s b).sched = s.sched := by
  unfold invokeStep
  split <;> try split
  all_goals rfl

/-- A step of a run moves no other one. -/
theorem Behaviours.invoke_invokeStep_ne (hne : b' ≠ b) :
    (P.invokeStep s b).invoke b' = s.invoke b' := by
  unfold invokeStep
  split <;> try split
  all_goals first
    | rfl
    | simp [hne]

/-- A run that has started is behind its body after a step. -/
theorem Behaviours.invoke_invokeStep (h : s.invoke b ≠ .notStarted) :
    (P.invokeStep s b).invoke b ≠ .notStarted ∧ (P.invokeStep s b).invoke b ≠ .body := by
  unfold invokeStep
  split <;> try split
  all_goals first
    | exact absurd ‹_› h
    | (rw [State.invoke_setInvoke, if_pos rfl]; simp)
    | simp_all

/-- A run that has not started takes no step. -/
theorem Behaviours.invokeStep_notStarted (h : s.invoke b = .notStarted) : P.invokeStep s b = s := by
  unfold invokeStep
  rw [h]

end Core

end VeronaRt
