import VeronaFs.Foundation.Calls

/-!
# Notifications

`Notification` in atomic steps.  A call of `notify` exchanges the status and schedules the behaviour
when nobody else has to.  `invoke` runs the behaviour: it sets the status, runs the body, releases and
resets the behaviour, and schedules it again when there was a notification in the meantime.

A behaviour that was passed to `BehaviourCore::schedule` is invoked once; when, is up to the scheduler.
The strong count of the notification is the number of its references, and the last one to go runs the
destructor.
-/

namespace VeronaRt.Notification

open Foundation

/-! ## Code -/

/-- `Status`. -/
inductive Status
  /-- A notification was requested since the body last started. -/
  | requested
  /-- The body runs, and nothing was requested since it started. -/
  | running
  /-- The notification is not running and not requested. -/
  | waiting
deriving DecidableEq, Repr

/-- A notification, with the references that nobody uses at the moment. -/
structure Object where
  /-- `status`. -/
  status : Status
  /-- How often the behaviour is scheduled and not yet invoked. -/
  scheduled : ℕ
  /-- The strong count. -/
  refs : ℕ
  /-- The references that are owned. -/
  owned : ℕ
deriving DecidableEq, Repr

/-- Where a call is. -/
inductive Pc
  /-- `notify`: the exchange. -/
  | exchange
  /-- `notify`: `Shared::acquire`. -/
  | acquire
  /-- `notify`: the assertion of `schedule`. -/
  | notifyAssert
  /-- `notify`: the behaviour is passed to `BehaviourCore::schedule`. -/
  | notifySchedule
  /-- `set_running`: the assertion. -/
  | assertRequested
  /-- `set_running`: the store. -/
  | setRunning
  /-- `invoke`: the body. -/
  | body
  /-- `invoke`: `release_all`. -/
  | releaseAll
  /-- `invoke`: `reset`. -/
  | reset
  /-- `finished_running`: the assertion. -/
  | assertNotWaiting
  /-- `finished_running`: the compare-exchange. -/
  | finish
  /-- `finished_running`: the assertion of `schedule`. -/
  | againAssert
  /-- `finished_running`: the behaviour is passed to `BehaviourCore::schedule`. -/
  | againSchedule
  /-- `finished_running`: `Shared::release`. -/
  | release
  /-- A reference is copied. -/
  | copy
  /-- A reference is dropped. -/
  | drop
  /-- `destruct`. -/
  | destruct
deriving DecidableEq, Repr

/-- What is observed. -/
inductive Event
  /-- The exchange of a `notify`. -/
  | notify
  /-- The reference for scheduling is taken. -/
  | acquire
  /-- The behaviour is passed to `BehaviourCore::schedule`. -/
  | schedule
  /-- The body starts. -/
  | start
  /-- The behaviour is reset. -/
  | reset
  /-- The status returns to `Waiting`. -/
  | waiting
  /-- The reference for scheduling is released. -/
  | release
  /-- The notification is destructed. -/
  | destruct
deriving DecidableEq, Repr

/-- The effect of a step. -/
abbrev Effect := Calls.Effect Object Pc Event

/-- The exchange of `notify`. -/
def exchange (o : Object) : Effect :=
  if o.status = .waiting then ⟨{ o with status := .requested }, some .acquire, [.notify]⟩
  else ⟨{ o with status := .requested, owned := o.owned + 1 }, none, [.notify]⟩

/-- A step that only goes on when the assertion `p` holds. -/
def assertThen (p : Prop) [Decidable p] (o : Object) (next : Pc) : Option Effect :=
  if p then some ⟨o, some next, []⟩ else none

/-- The compare-exchange of `finished_running`. -/
def finish (o : Object) : Effect :=
  if o.status = .running then ⟨{ o with status := .waiting }, some .release, [.waiting]⟩
  else ⟨o, some .againAssert, []⟩

/-- A reference less: the last one runs the destructor. -/
def decref (o : Object) (events : List Event) : Option Effect :=
  match o.refs with
  | 0 => none
  | 1 => some ⟨{ o with refs := 0 }, some .destruct, events⟩
  | n + 2 => some ⟨{ o with refs := n + 1 }, none, events⟩

/-- The next step of a call. -/
def code : Pc → Object → Option Effect
  | .exchange, o => some (exchange o)
  | .acquire, o => some ⟨{ o with refs := o.refs + 1 }, some .notifyAssert, [.acquire]⟩
  | .notifyAssert, o => assertThen (o.status = .requested) o .notifySchedule
  | .notifySchedule, o =>
    some ⟨{ o with scheduled := o.scheduled + 1, owned := o.owned + 1 }, none, [.schedule]⟩
  | .assertRequested, o => assertThen (o.status = .requested) o .setRunning
  | .setRunning, o => some ⟨{ o with status := .running }, some .body, []⟩
  | .body, o => some ⟨o, some .releaseAll, [.start]⟩
  | .releaseAll, o => some ⟨o, some .reset, []⟩
  | .reset, o => some ⟨o, some .assertNotWaiting, [.reset]⟩
  | .assertNotWaiting, o => assertThen (o.status ≠ .waiting) o .finish
  | .finish, o => some (finish o)
  | .againAssert, o => assertThen (o.status = .requested) o .againSchedule
  | .againSchedule, o => some ⟨{ o with scheduled := o.scheduled + 1 }, none, [.schedule]⟩
  | .release, o => decref o [.release]
  | .copy, o => some ⟨{ o with refs := o.refs + 1, owned := o.owned + 2 }, none, []⟩
  | .drop, o => decref o []
  | .destruct, o => if o.status = .waiting then some ⟨o, none, [.destruct]⟩ else none

/-- The calls that start: those of the owners of a reference, and the invocation of a behaviour that
was scheduled. -/
inductive Starts (o : Object) : Pc → Object → Prop
  /-- `notify`. -/
  | notify {n : ℕ} (h : o.owned = n + 1) : Starts o .exchange { o with owned := n }
  /-- A reference is copied. -/
  | copy {n : ℕ} (h : o.owned = n + 1) : Starts o .copy { o with owned := n }
  /-- A reference is dropped. -/
  | drop {n : ℕ} (h : o.owned = n + 1) : Starts o .drop { o with owned := n }
  /-- `invoke`. -/
  | invoke {n : ℕ} (h : o.scheduled = n + 1) : Starts o .assertRequested { o with scheduled := n }

/-- All calls on one notification. -/
def system : Calls Object Pc Event where
  starts := Starts
  code := code

/-- A new notification with its reference. -/
def new : Calls.Config Object Pc := ⟨⟨.waiting, 0, 1, 1⟩, 0⟩

/-! ## Calls that count -/

/-- The references that a call uses: that of a caller of `notify`, and the one that was taken for
scheduling. -/
@[simp, grind =] def Pc.refs : Pc → ℕ
  | .exchange | .acquire => 1
  | .notifyAssert | .notifySchedule => 2
  | .assertRequested | .setRunning | .body | .releaseAll | .reset | .assertNotWaiting | .finish
  | .againAssert | .againSchedule | .release => 1
  | .copy | .drop => 1
  | .destruct => 0

/-- The calls that schedule or run the behaviour. -/
@[simp, grind =] def Pc.busy : Pc → ℕ
  | .acquire | .notifyAssert | .notifySchedule => 1
  | .assertRequested | .setRunning | .body | .releaseAll | .reset | .assertNotWaiting | .finish
  | .againAssert | .againSchedule => 1
  | .exchange | .release | .copy | .drop | .destruct => 0

/-- The calls that run the behaviour and have not reset it. -/
@[simp, grind =] def Pc.active : Pc → ℕ
  | .assertRequested | .setRunning | .body | .releaseAll | .reset => 1
  | .exchange | .acquire | .notifyAssert | .notifySchedule | .assertNotWaiting | .finish
  | .againAssert | .againSchedule | .release | .copy | .drop | .destruct => 0

/-- The calls that need the status `Requested`. -/
@[simp, grind =] def Pc.needsRequest : Pc → ℕ
  | .acquire | .notifyAssert | .notifySchedule | .assertRequested | .setRunning | .againAssert
  | .againSchedule => 1
  | .exchange | .body | .releaseAll | .reset | .assertNotWaiting | .finish | .release | .copy | .drop
  | .destruct => 0

/-- A call at the program counter `q`, as a number. -/
@[simp, grind =] def Pc.at (q p : Pc) : ℕ := if p = q then 1 else 0

/-- The status is not `Waiting`, as a number. -/
@[simp, grind =] def Status.busy (x : Status) : ℕ := if x = .waiting then 0 else 1

/-- A call that runs the behaviour is responsible for it. -/
theorem Pc.active_le (p : Pc) : p.active ≤ p.busy := by
  cases p <;> simp

/-- A call that needs the status `Requested` is responsible for the behaviour. -/
theorem Pc.needsRequest_le (p : Pc) : p.needsRequest ≤ p.busy := by
  cases p <;> simp

/-- A call that is responsible for the behaviour has a reference. -/
theorem Pc.busy_le (p : Pc) : p.busy ≤ p.refs := by
  cases p <;> simp

/-- A call that starts the body is responsible for the behaviour. -/
theorem Pc.at_body_le (p : Pc) : Pc.at .body p ≤ p.busy := by
  cases p <;> simp

/-! ## Notifications without a start -/

/-- Some `notify` has no later start of the body. -/
def Unserved (tr : List Event) : Prop := ∃ tr₁ tr₂, tr = tr₁ ++ .notify :: tr₂ ∧ .start ∉ tr₂

/-- An event that is not a `notify` leaves no more of them without a start. -/
theorem Unserved.of_append {tr : List Event} {x : Event} (h : Unserved (tr ++ [x]))
    (hx : x ≠ .notify) : Unserved tr ∧ x ≠ .start := by
  obtain ⟨tr₁, tr₂, htr, hstart⟩ := h
  rcases List.eq_nil_or_concat tr₂ with rfl | ⟨tr₂, y, rfl⟩
  · obtain ⟨-, hxn⟩ := List.append_inj' htr rfl
    exact absurd (List.cons.inj hxn).1 hx
  · have hlast : tr ++ [x] = (tr₁ ++ .notify :: tr₂) ++ [y] := by
      rw [htr]
      simp
    obtain ⟨rfl, hxy⟩ := List.append_inj' hlast rfl
    obtain rfl := (List.cons.inj hxy).1
    simp only [List.concat_eq_append, List.mem_append, List.mem_singleton, not_or] at hstart
    exact ⟨⟨tr₁, tr₂, rfl, hstart.1⟩, fun h => hstart.2 h.symm⟩

/-- After a start none is without one. -/
theorem not_unserved_start (tr : List Event) : ¬ Unserved (tr ++ [.start]) := by
  intro h
  exact (h.of_append (by simp)).2 rfl

/-! ## The invariant -/

/-- What holds after a run with the events `tr`. -/
structure Coherent (tr : List Event) (c : Calls.Config Object Pc) : Prop where
  /-- One call or the scheduler is responsible for the behaviour unless the notification waits. -/
  busy : c.state.scheduled + Calls.total Pc.busy c.calls = c.state.status.busy
  /-- The scheduler and the calls that need it have the status `Requested`. -/
  requested : 0 < c.state.scheduled + Calls.total Pc.needsRequest c.calls →
    c.state.status = .requested
  /-- The strong count is the number of references. -/
  refs : c.state.refs = c.state.owned + c.state.scheduled + Calls.total Pc.refs c.calls
  /-- What was scheduled was reset, or will be. -/
  reset : tr.count .schedule = tr.count .reset + c.state.scheduled + Calls.total Pc.active c.calls
  /-- One reference is taken for scheduling until the status returns to `Waiting`. -/
  acquired : tr.count .acquire + Calls.total (Pc.at .acquire) c.calls =
    tr.count .waiting + c.state.status.busy
  /-- It is released by the call that set this status. -/
  released : tr.count .release + Calls.total (Pc.at .release) c.calls = tr.count .waiting
  /-- The notification is destructed when its last reference is gone. -/
  destructed : tr.count .destruct + Calls.total (Pc.at .destruct) c.calls =
    if c.state.refs = 0 then 1 else 0
  /-- A `notify` without a later start is still requested, or the body is about to start. -/
  served : Unserved tr → c.state.status = .requested ∨ 0 < Calls.total (Pc.at .body) c.calls

/-- A new notification is coherent. -/
theorem coherent_new : Coherent [] new := by
  refine ⟨rfl, ?_, rfl, rfl, rfl, rfl, rfl, ?_⟩
  · intro h
    exact absurd h (by decide)
  · rintro ⟨tr₁, tr₂, htr, -⟩
    simp at htr

/-- A call that starts keeps the invariant. -/
theorem Coherent.startStep {tr : List Event} {o o' : Object} {p : Pc} {rest : Multiset Pc}
    (h : Coherent tr ⟨o, rest⟩) (hstart : Starts o p o') : Coherent tr ⟨o', p ::ₘ rest⟩ := by
  obtain ⟨hbusy, hrequested, hrefs, hreset, hacquired, hreleased, hdestructed, hserved⟩ := h
  simp only at hbusy hrequested hrefs hreset hacquired hreleased hdestructed hserved
  cases hstart <;>
  exact ⟨by grind, by grind, by grind, by grind, by grind, by grind, by grind, by grind⟩

/-- A step of a call keeps the invariant. -/
theorem Coherent.codeStep {tr : List Event} {o : Object} {p : Pc} {e : Effect} {rest : Multiset Pc}
    (h : Coherent tr ⟨o, p ::ₘ rest⟩) (hcode : code p o = some e) :
    Coherent (tr ++ e.events) ⟨e.state, Calls.resume e.next rest⟩ := by
  have hneeds := Calls.total_le_total Pc.needsRequest_le rest
  have hbody := Calls.total_le_total Pc.at_body_le rest
  obtain ⟨hbusy, hrequested, hrefs, hreset, hacquired, hreleased, hdestructed, hserved⟩ := h
  obtain ⟨status, scheduled, refs, owned⟩ := o
  simp only [Calls.total_cons] at hbusy hrequested hrefs hreset hacquired hreleased hdestructed hserved
  cases p with
  | exchange =>
    obtain rfl := Option.some.inj hcode
    unfold exchange
    split
    · exact ⟨by grind, by grind, by grind, by grind, by grind, by grind, by grind, by grind⟩
    · exact ⟨by grind, by grind, by grind, by grind, by grind, by grind, by grind, by grind⟩
  | acquire =>
    obtain rfl := Option.some.inj hcode
    exact ⟨by grind, by grind, by grind, by grind, by grind, by grind, by grind,
      by grind [Unserved.of_append]⟩
  | notifyAssert =>
    simp only [code, assertThen] at hcode
    split at hcode
    · obtain rfl := Option.some.inj hcode
      exact ⟨by grind, by grind, by grind, by grind, by grind, by grind, by grind, by grind⟩
    · cases hcode
  | notifySchedule =>
    obtain rfl := Option.some.inj hcode
    exact ⟨by grind, by grind, by grind, by grind, by grind, by grind, by grind,
      by grind [Unserved.of_append]⟩
  | assertRequested =>
    simp only [code, assertThen] at hcode
    split at hcode
    · obtain rfl := Option.some.inj hcode
      exact ⟨by grind, by grind, by grind, by grind, by grind, by grind, by grind, by grind⟩
    · cases hcode
  | setRunning =>
    obtain rfl := Option.some.inj hcode
    exact ⟨by grind, by grind, by grind, by grind, by grind, by grind, by grind, by grind⟩
  | body =>
    obtain rfl := Option.some.inj hcode
    exact ⟨by grind, by grind, by grind, by grind, by grind, by grind, by grind,
      fun h => absurd h (not_unserved_start tr)⟩
  | releaseAll =>
    obtain rfl := Option.some.inj hcode
    exact ⟨by grind, by grind, by grind, by grind, by grind, by grind, by grind, by grind⟩
  | reset =>
    obtain rfl := Option.some.inj hcode
    exact ⟨by grind, by grind, by grind, by grind, by grind, by grind, by grind,
      by grind [Unserved.of_append]⟩
  | assertNotWaiting =>
    simp only [code, assertThen] at hcode
    split at hcode
    · obtain rfl := Option.some.inj hcode
      exact ⟨by grind, by grind, by grind, by grind, by grind, by grind, by grind, by grind⟩
    · cases hcode
  | finish =>
    obtain rfl := Option.some.inj hcode
    unfold finish
    split
    · exact ⟨by grind, by grind, by grind, by grind, by grind, by grind, by grind,
        by grind [Unserved.of_append]⟩
    · cases status <;>
      exact ⟨by grind, by grind, by grind, by grind, by grind, by grind, by grind, by grind⟩
  | againAssert =>
    simp only [code, assertThen] at hcode
    split at hcode
    · obtain rfl := Option.some.inj hcode
      exact ⟨by grind, by grind, by grind, by grind, by grind, by grind, by grind, by grind⟩
    · cases hcode
  | againSchedule =>
    obtain rfl := Option.some.inj hcode
    exact ⟨by grind, by grind, by grind, by grind, by grind, by grind, by grind,
      by grind [Unserved.of_append]⟩
  | release =>
    simp only [code, decref] at hcode
    split at hcode
    · cases hcode
    · obtain rfl := Option.some.inj hcode
      exact ⟨by grind, by grind, by grind, by grind, by grind, by grind, by grind,
        by grind [Unserved.of_append]⟩
    · obtain rfl := Option.some.inj hcode
      exact ⟨by grind, by grind, by grind, by grind, by grind, by grind, by grind,
        by grind [Unserved.of_append]⟩
  | copy =>
    obtain rfl := Option.some.inj hcode
    exact ⟨by grind, by grind, by grind, by grind, by grind, by grind, by grind, by grind⟩
  | drop =>
    simp only [code, decref] at hcode
    split at hcode
    · cases hcode
    · obtain rfl := Option.some.inj hcode
      exact ⟨by grind, by grind, by grind, by grind, by grind, by grind, by grind, by grind⟩
    · obtain rfl := Option.some.inj hcode
      exact ⟨by grind, by grind, by grind, by grind, by grind, by grind, by grind, by grind⟩
  | destruct =>
    simp only [code] at hcode
    split at hcode
    · obtain rfl := Option.some.inj hcode
      exact ⟨by grind, by grind, by grind, by grind, by grind, by grind, by grind,
        by grind [Unserved.of_append]⟩
    · cases hcode

/-- Every run keeps the invariant. -/
theorem coherent {tr : List Event} {c : Calls.Config Object Pc} (h : system.Run new tr c) :
    Coherent tr c := by
  refine h.invariant (P := Coherent) coherent_new ?_
  intro tr c es c' hcoh hstep
  cases hstep with
  | start hstart =>
    rw [List.append_nil]
    exact hcoh.startStep hstart
  | code hcode => exact hcoh.codeStep hcode

/-! ## Progress -/

/-- An assertion that holds does not fail. -/
theorem isSome_assertThen {p : Prop} [Decidable p] (hp : p) (o : Object) (next : Pc) :
    (assertThen p o next).isSome := by
  rw [assertThen, if_pos hp]
  rfl

/-- A reference that is there can be given back. -/
theorem isSome_decref {o : Object} (h : 0 < o.refs) (events : List Event) :
    (decref o events).isSome := by
  obtain ⟨n, hn⟩ := Nat.exists_eq_succ_of_ne_zero h.ne'
  cases n <;> simp [decref, hn]

/-- No assertion fails. -/
theorem Coherent.isSome_code {tr : List Event} {c : Calls.Config Object Pc} (h : Coherent tr c)
    {p : Pc} (hp : p ∈ c.calls) : (code p c.state).isSome := by
  have hbusy := h.busy
  have hrefs := h.refs
  have hlebusy := Calls.le_total (w := Pc.busy) hp
  have hlerefs := Calls.le_total (w := Pc.refs) hp
  have hle := Calls.le_total (w := Pc.needsRequest) hp
  cases p with
  | notifyAssert => exact isSome_assertThen (h.requested (by grind)) _ _
  | assertRequested => exact isSome_assertThen (h.requested (by grind)) _ _
  | againAssert => exact isSome_assertThen (h.requested (by grind)) _ _
  | assertNotWaiting => exact isSome_assertThen (by grind) _ _
  | release => exact isSome_decref (by grind) _
  | drop => exact isSome_decref (by grind) _
  | destruct =>
    have hdestructed := h.destructed
    have hat := Calls.le_total (w := Pc.at .destruct) hp
    have hle := Calls.total_le_total Pc.busy_le c.calls
    have hwaiting : c.state.status = .waiting := by grind
    simp [code, hwaiting]
  | _ => rfl

/-- A call in progress takes a step, or the scheduler invokes the behaviour. -/
def Settling (c c' : Calls.Config Object Pc) : Prop :=
  system.CodeStep c c' ∨
    ∃ n, c.state.scheduled = n + 1 ∧
      c' = ⟨{ c.state with scheduled := n }, .assertRequested ::ₘ c.calls⟩

/-- A bound on the steps of a call.  A run of the behaviour lowers the status before it starts the
body, which pays for the steps until it is scheduled again. -/
def Pc.rank : Pc → ℕ
  | .exchange => 17
  | .acquire => 6
  | .notifyAssert => 5
  | .notifySchedule => 4
  | .assertRequested => 2
  | .setRunning => 1
  | .body => 10
  | .releaseAll => 9
  | .reset => 8
  | .assertNotWaiting => 7
  | .finish => 6
  | .againAssert => 5
  | .againSchedule => 4
  | .release => 1
  | .copy => 0
  | .drop => 1
  | .destruct => 0

/-- A bound on the steps until nothing is in progress. -/
def bound (c : Calls.Config Object Pc) : ℕ :=
  Calls.total (fun p => p.rank + 1) c.calls + 4 * c.state.scheduled +
    if c.state.status = .requested then 10 else 0

/-- Every step lowers the bound. -/
theorem Coherent.bound_lt {tr : List Event} {c c' : Calls.Config Object Pc} (h : Coherent tr c)
    (hstep : Settling c c') : bound c' < bound c := by
  have hrequested := h.requested
  obtain ⟨⟨status, scheduled, refs, owned⟩, calls⟩ := c
  rcases hstep with ⟨p, e, rest, hcalls, hcode, rfl⟩ | ⟨n, hn, rfl⟩
  · simp only at hcalls
    subst hcalls
    simp only [Calls.total_cons] at hrequested
    simp only [bound, Calls.total_cons]
    cases p with
    | exchange =>
      obtain rfl := Option.some.inj hcode
      unfold exchange
      split <;> grind [Pc.rank]
    | notifyAssert | assertRequested | assertNotWaiting | againAssert =>
      simp only [system, code, assertThen] at hcode
      split at hcode
      · obtain rfl := Option.some.inj hcode
        grind [Pc.rank]
      · cases hcode
    | finish =>
      obtain rfl := Option.some.inj hcode
      unfold finish
      split <;> grind [Pc.rank]
    | release | drop =>
      simp only [system, code, decref] at hcode
      split at hcode
      · cases hcode
      · obtain rfl := Option.some.inj hcode
        grind [Pc.rank]
      · obtain rfl := Option.some.inj hcode
        grind [Pc.rank]
    | destruct =>
      simp only [system, code] at hcode
      split at hcode
      · obtain rfl := Option.some.inj hcode
        grind [Pc.rank]
      · cases hcode
    | _ =>
      obtain rfl := Option.some.inj hcode
      grind [Pc.rank]
  · simp only at hn
    simp only [bound, Calls.total_cons, Pc.rank, hn]
    omega

/-- Without new calls every execution comes to an end. -/
theorem wellFounded_settling :
    WellFounded fun c' c => (∃ tr, system.Run new tr c) ∧ Settling c c' := by
  refine Subrelation.wf (r := InvImage (· < ·) bound) ?_ (InvImage.wf bound Nat.lt_wfRel.wf)
  rintro c' c ⟨⟨tr, hrun⟩, hstep⟩
  exact (coherent hrun).bound_lt hstep

/-- A `notify` is served when no call and not the scheduler is responsible for the behaviour. -/
theorem Coherent.not_unserved {tr : List Event} {c : Calls.Config Object Pc} (h : Coherent tr c)
    (hscheduled : c.state.scheduled = 0) (hquiet : ∀ p ∈ c.calls, p.busy = 0) :
    ¬ Unserved tr := by
  have hbusy := h.busy
  rw [hscheduled, Calls.total_eq_zero.mpr hquiet] at hbusy
  have hwaiting : c.state.status = .waiting := by grind
  intro hunserved
  rcases h.served hunserved with hrequested | hpos
  · rw [hwaiting] at hrequested
    cases hrequested
  · have hle := Calls.total_le_total Pc.at_body_le c.calls
    rw [Calls.total_eq_zero.mpr hquiet] at hle
    omega

/-! ## Order -/

/-- No step has more than one event. -/
theorem length_events_le {p : Pc} {o : Object} {e : Effect} (h : code p o = some e) :
    e.events.length ≤ 1 := by
  cases p <;> simp only [code, exchange, assertThen, finish, decref] at h
  all_goals
    try split at h
  all_goals first
    | cases h; done
    | obtain rfl := Option.some.inj h
      simp

/-- When the behaviour is passed to `schedule`, all that was scheduled before was reset. -/
theorem schedule_after_reset {tr₁ tr₂ : List Event} {c : Calls.Config Object Pc}
    (h : system.Run new (tr₁ ++ .schedule :: tr₂) c) :
    tr₁.count .schedule = tr₁.count .reset := by
  obtain ⟨c₁, c₂, hrun, hstep, -⟩ := Calls.Run.split (fun _ _ _ hcode => length_events_le hcode) h
  obtain ⟨p, e, hp, hcode, hevents⟩ := hstep.exists_code (List.cons_ne_nil _ _)
  have hcoh := coherent hrun
  have hreset := hcoh.reset
  have hbusy := hcoh.busy
  obtain ⟨rest, hcalls⟩ := Multiset.exists_cons_of_mem hp
  have hactive := Calls.total_le_total Pc.active_le rest
  simp only [hcalls, Calls.total_cons] at hreset hbusy
  have hone : c₁.state.status.busy ≤ 1 := by grind
  have hpc : p.busy = 1 ∧ p.active = 0 := by
    cases p <;> simp only [system, code, exchange, assertThen, finish, decref] at hcode
    all_goals
      try split at hcode
    all_goals first
      | cases hcode; done
      | exact ⟨rfl, rfl⟩
      | obtain rfl := Option.some.inj hcode
        cases hevents
  omega

/-- For every interleaving of `notify` with the runs of the behaviour: the behaviour is scheduled only
when it was reset after all earlier scheduling; every `notify` has a later start of the body once
nothing of the notification is scheduled or running, which is where every execution without new calls
ends; no assertion fails; and one reference is taken for scheduling and released for each return to
`Waiting`. -/
theorem notified {tr : List Event} {c : Calls.Config Object Pc} (h : system.Run new tr c) :
    (∀ tr₁ tr₂, tr = tr₁ ++ .schedule :: tr₂ → tr₁.count .schedule = tr₁.count .reset) ∧
    (c.state.scheduled = 0 → (∀ p ∈ c.calls, p.busy = 0) →
      ∀ tr₁ tr₂, tr = tr₁ ++ .notify :: tr₂ → .start ∈ tr₂) ∧
    (WellFounded fun c' c => (∃ tr, system.Run new tr c) ∧ Settling c c') ∧
    (∀ p ∈ c.calls, (code p c.state).isSome) ∧
    tr.count .release + Calls.total (Pc.at .release) c.calls = tr.count .waiting ∧
    tr.count .acquire + Calls.total (Pc.at .acquire) c.calls =
      tr.count .waiting + c.state.status.busy := by
  have hcoh := coherent h
  refine ⟨?_, ?_, wellFounded_settling, fun p hp => hcoh.isSome_code hp, hcoh.released,
    hcoh.acquired⟩
  · rintro tr₁ tr₂ rfl
    exact schedule_after_reset h
  · intro hscheduled hquiet tr₁ tr₂ htr
    by_contra hstart
    exact hcoh.not_unserved hscheduled hquiet ⟨tr₁, tr₂, htr, hstart⟩

/-! ## A run -/

/-- A second `notify` comes while the body runs, and the behaviour is scheduled again. -/
theorem run_again : system.Run new [.notify, .acquire, .schedule, .start, .notify, .reset, .schedule]
    ⟨⟨.requested, 1, 2, 1⟩, 0⟩ := by
  have h₁ : system.Run new [] ⟨⟨.waiting, 0, 1, 0⟩, {.exchange}⟩ := Calls.Run.nil.start (.notify rfl)
  have h₂ : system.Run new [.notify, .acquire] ⟨⟨.requested, 0, 2, 0⟩, {.notifySchedule}⟩ :=
    ((h₁.next rfl).next rfl).next rfl
  have h₃ : system.Run new [.notify, .acquire, .schedule] ⟨⟨.requested, 1, 2, 1⟩, 0⟩ := h₂.return rfl
  have h₄ : system.Run new [.notify, .acquire, .schedule] ⟨⟨.requested, 0, 2, 1⟩, {.assertRequested}⟩ :=
    h₃.start (.invoke rfl)
  have h₅ : system.Run new [.notify, .acquire, .schedule, .start]
      ⟨⟨.running, 0, 2, 1⟩, {.releaseAll}⟩ := ((h₄.next rfl).next rfl).next rfl
  have h₆ : system.Run new [.notify, .acquire, .schedule, .start]
      ⟨⟨.running, 0, 2, 0⟩, .exchange ::ₘ {.releaseAll}⟩ := h₅.start (.notify rfl)
  have h₇ : system.Run new [.notify, .acquire, .schedule, .start, .notify]
      ⟨⟨.requested, 0, 2, 1⟩, {.releaseAll}⟩ := h₆.return rfl
  have h₈ : system.Run new [.notify, .acquire, .schedule, .start, .notify, .reset]
      ⟨⟨.requested, 0, 2, 1⟩, {.againSchedule}⟩ :=
    ((((h₇.next rfl).next rfl).next rfl).next rfl).next rfl
  exact h₈.return rfl

/-- In this run the behaviour is scheduled again after its reset. -/
theorem notified_again : ∃ tr c, system.Run new tr c ∧ tr.count .schedule = 2 ∧
    tr.count .acquire = tr.count .waiting + 1 := by
  obtain ⟨-, -, -, -, -, hacquired⟩ := notified run_again
  exact ⟨_, _, run_again, by decide, hacquired⟩

end VeronaRt.Notification
