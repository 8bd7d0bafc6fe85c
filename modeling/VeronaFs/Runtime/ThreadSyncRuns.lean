import VeronaFs.Runtime.ThreadSyncWaiters

/-!
# Runs of a `ThreadSync`

What holds whatever threads do, in any order: one thread has the lock, the assertions hold, a thread is
woken once for each pause, and each thread that waits when an unpause is requested is woken before the
lock is free and no thread wakes others.
-/

set_option linter.unusedSectionVars false

namespace VeronaRt

open Foundation

namespace ThreadSync

variable {T : Type*} [DecidableEq T]

/-- What a step does to the lists. -/
structure Passed (s s' : State T) (D : T → List T) (new : List (Event T)) (W' : List T)
    (D' : T → List T) : Prop where
  /-- There are lists again. -/
  queued : Queued s' W' D'
  /-- A thread that is to be woken is woken, or still is to be. -/
  kept : ∀ x u, x ∈ D u → Event.wake x ∉ new → ∃ v, x ∈ D' v
  /-- The waiters are there until a request is served. -/
  request : s.lock = .lockedUnpauseNeeded → s'.lock = .lockedUnpauseNeeded ∨ W' = []

/-- What holds of the lock and the lists. -/
def Ok (s : State T) : Prop := LockOk s.lock s.pc ∧ ∃ W D, Queued s W D

/-- A waiter for whom a request was made. -/
def Pending (s : State T) (x : T) : Prop :=
  s.Waits x ∧ (s.lock = .lockedUnpauseNeeded ∨ ∃ W D u, Queued s W D ∧ x ∈ D u)

/-- The thread has the lock and a request to serve, or it wakes the waiters. -/
def Serves (s : State T) (t : T) : Prop :=
  s.lock = .lockedUnpauseNeeded ∧ (s.pc t).owns = true ∨ (s.pc t).waking = true

section

variable {s s' s'' : State T} {t u x : T} {p : Pc T} {l : LockState} {W W' : List T} {D D' : T → List T}
  {events new : List (Event T)}

/-! ## A step -/

/-- A null pointer leads to no element. -/
theorem eq_nil_of_path {next : T → Option T} (hp : Path next W none none) : W = [] := by
  cases W with
  | nil => rfl
  | cons a W => cases hp.1

/-- Another leads to the first. -/
theorem exists_cons_of_path {next : T → Option T} (hp : Path next W (some u) none) :
    ∃ l, W = u :: l ∧ Path next l (next u) none := by
  cases W with
  | nil => cases hp
  | cons a W =>
    obtain ⟨ha, hp⟩ := hp
    cases ha
    exact ⟨W, rfl, hp⟩

/-- A step that leaves those alone that are to be woken. -/
theorem Passed.same (hq : Queued s' W D)
    (hr : s.lock = .lockedUnpauseNeeded → s'.lock = .lockedUnpauseNeeded ∨ W = []) :
    Passed s s' D new W D :=
  ⟨hq, fun _ u hx _ => ⟨u, hx⟩, hr⟩

/-- A call that returns is not about to release the lock. -/
theorem Return.pc_ne {k k' : Return} {c : Option T} : (k.pc : Pc T) ≠ .unlockUnpause k' c := by
  cases k <;> exact fun h => by cases h

namespace Queued

/-- Every step keeps the lists. -/
theorem step (hq : Queued s W D) (hl : LockOk s.lock s.pc) (hs : Step s t new s') :
    ∃ W' D', Passed s s' D new W' D' := by
  have hd := hq.detached t
  cases hs with
  | construct hpc =>
    rw [hpc] at hd
    exact ⟨W, D, .same (hq.goto s.lock hd (by rw [hpc]; rfl) fun k c h => by cases h) .inl⟩
  | unpauseLock hpc hfree =>
    rw [hpc] at hd
    exact ⟨W, D, .same (hq.goto .lockedUnpauseNeeded hd (by rw [hpc]; rfl) fun k c h => by cases h)
      fun _ => .inl rfl⟩
  | unpauseLeave hpc hheld =>
    rw [hpc] at hd
    exact ⟨W, D, .same (hq.goto .lockedUnpauseNeeded hd (by rw [hpc]) fun k c h => by cases h)
      fun _ => .inl rfl⟩
  | acquire hpc hfree =>
    rw [hpc] at hd
    refine ⟨W, D, .same (hq.goto .locked hd (by rw [hpc]; rfl) fun k c h => by cases h) fun hn => ?_⟩
    rw [hfree] at hn
    cases hn
  | unpauseAll hpc =>
    rw [hpc] at hd
    exact ⟨W, D, .same (hq.goto s.lock hd (by rw [hpc]; rfl) fun k c h => by cases h) .inl⟩
  | pause hpc => exact ⟨t :: W, D, .same (hq.pause hl hpc) .inl⟩
  | drop hpc =>
    rw [hpc] at hd
    exact ⟨W, D, .same (hq.goto s.lock hd (by rw [hpc]; rfl) fun k c h => by cases h) .inl⟩
  | dropWake hpc =>
    rw [hpc] at hd
    exact ⟨W, D, .same (hq.goto .lockedUnpauseNeeded hd (by rw [hpc]; rfl) fun k c h => by cases h)
      fun _ => .inl rfl⟩
  | unlock hpc hlocked =>
    rw [hpc] at hd
    refine ⟨W, D, .same (hq.goto .unlocked (detached_pc.mpr hd) (by rw [hpc, Return.paused_pc]; rfl)
      fun k c h => absurd h Return.pc_ne) fun hn => ?_⟩
    rw [hlocked] at hn
    cases hn
  | unlockFail hpc hneeded =>
    rw [hpc] at hd
    exact ⟨W, D, .same (hq.goto s.lock hd (by rw [hpc]; rfl) fun k c h => by cases h) .inl⟩
  | take hpc =>
    rw [hpc] at hd
    refine ⟨[], Function.update D t W, hq.take hpc, fun x u hx _ => ⟨u, ?_⟩, .inl⟩
    rw [Function.update_of_ne]
    · exact hx
    · rintro rfl
      rw [show D u = [] from hd] at hx
      cases hx
  | @unlockUnpause k c hpc =>
    rw [hpc] at hd
    exact ⟨W, D, .same (hq.goto .unlocked hd (by rw [hpc]; rfl) fun k c h => by cases h)
      fun _ => .inr (hq.empty t k c hpc)⟩
  | wakeEnd hpc =>
    rw [hpc] at hd
    have hnil : D t = [] := eq_nil_of_path hd
    exact ⟨W, D, .same (hq.goto s.lock (detached_pc.mpr hnil) (by rw [hpc, Return.paused_pc]; rfl)
      fun k c h => absurd h Return.pc_ne) .inl⟩
  | wakeNext hpc =>
    rw [hpc] at hd
    exact ⟨W, D, .same (hq.goto s.lock (exists_cons_of_path hd) (by rw [hpc]; rfl) fun k c h => by cases h)
      .inl⟩
  | @wakeOne k u n hpc =>
    obtain ⟨-, l, hl, hpath⟩ := hq.waits_of_wakeOne hpc
    refine ⟨W, Function.update D t l, hq.wakeOne hpc hl hpath, fun x v hx hnew => ⟨v, ?_⟩, .inl⟩
    by_cases hvt : v = t
    · subst hvt
      rw [hl] at hx
      rw [Function.update_self]
      refine (List.mem_cons.mp hx).resolve_left ?_
      rintro rfl
      exact hnew (List.mem_singleton.mpr rfl)
    · rw [Function.update_of_ne hvt]
      exact hx
  | sleep hpc hsem => exact ⟨W, D, .same (hq.sleep hpc hsem) .inl⟩

/-- A step that wakes no one, in which no one pauses. -/
theorem waits_of_same {w : Option T} (hp : p.paused = (s.pc t).paused) (hnew : new = [] ∨ new = [.request])
    (x : T) : (if s.Waits x then 1 else 0) + new.count (.pause x) =
      new.count (.wake x) + if ({ s with lock := l, waiters := w }.goto t p).Waits x then 1 else 0 := by
  have hiff : ({ s with lock := l, waiters := w }.goto t p).Waits x ↔ s.Waits x := by
    rw [State.Waits, State.Waits]
    show (Function.update s.pc t p x).paused = true ∧ _ ↔ _
    rw [Pc.paused_update hp]
    rfl
  rcases hnew with rfl | rfl
  · simp [hiff]
  · simp [hiff]

/-- A step changes who waits by what it reports. -/
theorem waits_step (hq : Queued s W D) (hs : Step s t new s') (x : T) :
    (if s.Waits x then 1 else 0) + new.count (.pause x) =
      new.count (.wake x) + if s'.Waits x then 1 else 0 := by
  cases hs with
  | construct hpc => exact waits_of_same (by rw [hpc]; rfl) (.inl rfl) x
  | unpauseLock hpc hfree => exact waits_of_same (by rw [hpc]; rfl) (.inr rfl) x
  | unpauseLeave hpc hheld => exact waits_of_same (by rw [hpc]) (.inr rfl) x
  | acquire hpc hfree => exact waits_of_same (by rw [hpc]; rfl) (.inl rfl) x
  | unpauseAll hpc => exact waits_of_same (by rw [hpc]; rfl) (.inl rfl) x
  | @pause w hpc =>
    have hnot : ¬ s.Waits t := not_waits (by rw [hpc]; rfl)
    by_cases hxt : x = t
    · subst hxt
      have hwaits : ({ s with
          next := Function.update s.next x s.waiters
          waiters := some x }.goto x (.unlock (.pause w)) : State T).Waits x :=
        ⟨by rw [State.goto_pc_self]; rfl, hq.sem_eq_zero (by rw [hpc]; rfl)⟩
      simp [hnot, hwaits]
    · have hiff : ({ s with
          next := Function.update s.next t s.waiters
          waiters := some t }.goto t (.unlock (.pause w)) : State T).Waits x ↔ s.Waits x := by
        rw [State.Waits, State.Waits, State.goto_pc_of_ne hxt]
        rfl
      simp [hiff, Ne.symm hxt]
  | drop hpc => exact waits_of_same (by rw [hpc]; rfl) (.inl rfl) x
  | dropWake hpc => exact waits_of_same (by rw [hpc]; rfl) (.inr rfl) x
  | unlock hpc hlocked =>
    exact waits_of_same (by rw [hpc, Return.paused_pc]; rfl) (.inl rfl) x
  | unlockFail hpc hneeded => exact waits_of_same (by rw [hpc]; rfl) (.inl rfl) x
  | take hpc => exact waits_of_same (by rw [hpc]; rfl) (.inl rfl) x
  | unlockUnpause hpc => exact waits_of_same (by rw [hpc]; rfl) (.inl rfl) x
  | wakeEnd hpc =>
    exact waits_of_same (by rw [hpc, Return.paused_pc]; rfl) (.inl rfl) x
  | wakeNext hpc => exact waits_of_same (by rw [hpc]; rfl) (.inl rfl) x
  | @wakeOne k u n hpc =>
    obtain ⟨hwaits, -⟩ := hq.waits_of_wakeOne hpc
    have hp : ∀ x, (Function.update s.pc t (.wake k n) x).paused = (s.pc x).paused :=
      Pc.paused_update (by rw [hpc]; rfl)
    have hiff : ({ s with sem := Function.update s.sem u (s.sem u + 1) }.goto t (.wake k n) :
        State T).Waits x ↔ s.Waits x ∧ x ≠ u := by
      rw [State.Waits, State.Waits]
      show (Function.update s.pc t (.wake k n) x).paused = true ∧
        Function.update s.sem u (s.sem u + 1) x = 0 ↔ _
      rw [hp]
      by_cases hxu : x = u
      · subst hxu
        simp
      · simp [hxu]
    by_cases hxu : x = u
    · subst hxu
      simp [hiff, hwaits]
    · simp [hiff, hxu, Ne.symm hxu]
  | @sleep w hpc hsem =>
    have hiff : ({ s with sem := Function.update s.sem t (s.sem t - 1) }.goto t (.lock w) :
        State T).Waits x ↔ s.Waits x := by
      by_cases hxt : x = t
      · subst hxt
        rw [State.Waits, State.Waits, State.goto_pc_self]
        constructor
        · rintro ⟨hp, -⟩
          cases hp
        · rintro ⟨-, hzero⟩
          omega
      · rw [State.Waits, State.Waits, State.goto_pc_of_ne hxt]
        show _ ∧ Function.update s.sem t (s.sem t - 1) x = 0 ↔ _
        rw [Function.update_of_ne hxt]
    simp [hiff]

/-- A thread that is not woken still waits. -/
theorem waits_of_not_wake (hq : Queued s W D) (hs : Step s t new s') (hx : s.Waits x)
    (hnew : Event.wake x ∉ new) : s'.Waits x := by
  have hstep := hq.waits_step hs x
  rw [if_pos hx, List.count_eq_zero.mpr hnew] at hstep
  by_contra hnot
  rw [if_neg hnot] at hstep
  omega

/-- Who has others to wake is about to release the lock, or wakes them. -/
theorem waking_of_mem (hq : Queued s W D) (hl : LockOk s.lock s.pc) (hx : x ∈ D u) :
    s.lock = .lockedUnpauseNeeded ∨ (s.pc u).waking = true := by
  have hd := hq.detached u
  have hne : D u ≠ [] := List.ne_nil_of_mem hx
  cases hpc : s.pc u with
  | unlockUnpause k c => exact .inl (hl.needed u (by rw [hpc]; rfl))
  | wake k c => exact .inr rfl
  | wakeOne k v n => exact .inr rfl
  | _ =>
    rw [hpc] at hd
    exact absurd hd hne

end Queued

namespace Ok

/-- At the start no one has the lock, and no one waits. -/
theorem initial : Ok (State.initial : State T) := by
  have hlock : LockOk (State.initial : State T).lock (State.initial : State T).pc := by
    refine ⟨fun _ _ => rfl, fun h => absurd rfl h, fun u v hu _ => ?_, fun u hu => ?_⟩
    · cases hu
    · cases hu
  refine ⟨hlock, [], fun _ => [], ?_⟩
  constructor
  case path => rfl
  case detached => exact fun _ => rfl
  case waits =>
    intro x
    constructor
    · rintro (hx | ⟨u, hx⟩)
      · cases hx
      · cases hx
    · rintro ⟨hp, -⟩
      cases hp
  case nodup => exact List.nodup_nil
  case nodup_detached => exact fun _ => List.nodup_nil
  case apart => exact fun x hx => absurd hx List.not_mem_nil
  case apart_detached => exact fun u v x hx => absurd hx List.not_mem_nil
  case sem_le => exact fun _ => Nat.zero_le 1
  case sem_paused => exact fun x hx => absurd rfl hx
  case empty => exact fun _ _ _ _ => rfl

/-- Every step keeps the lock and the lists. -/
theorem step (h : Ok s) (hs : Step s t new s') : Ok s' := by
  obtain ⟨hl, W, D, hq⟩ := h
  obtain ⟨W', D', hpass⟩ := hq.step hl hs
  exact ⟨hl.step hs, W', D', hpass.queued⟩

/-- So does every run. -/
theorem run (hr : Run s events s') (h : Ok s) : Ok s' := by
  induction hr with
  | nil => exact h
  | snoc _ hs ih => exact ih.step hs

/-- The assertions hold. -/
theorem asserts (h : Ok s) (u : T) : Asserts s (s.pc u) := by
  obtain ⟨hl, W, D, hq⟩ := h
  cases hpc : s.pc u with
  | unlock k =>
    intro hfree
    have hnone := hl.free hfree u
    rw [hpc] at hnone
    cases hnone
  | unlockUnpause k c => exact hl.needed u (by rw [hpc]; rfl)
  | wakeOne k v n => exact (hq.waits_of_wakeOne hpc).1.2
  | _ => trivial

end Ok

namespace Pending

/-- A waiter stays one until it is woken. -/
theorem step (hx : Pending s x) (h : Ok s) (hs : Step s t new s') (hnew : Event.wake x ∉ new) :
    Pending s' x := by
  obtain ⟨hl, W, D, hq⟩ := h
  obtain ⟨hwaits, hp⟩ := hx
  have hwaits' := hq.waits_of_not_wake hs hwaits hnew
  refine ⟨hwaits', ?_⟩
  rcases hp with hneeded | ⟨W, D, u, hq, hxu⟩
  · obtain ⟨W', D', hpass⟩ := hq.step hl hs
    rcases hpass.request hneeded with hneeded' | hnil
    · exact .inl hneeded'
    · rcases (hpass.queued.waits x).mpr hwaits' with hW | ⟨u, hu⟩
      · rw [hnil] at hW
        cases hW
      · exact .inr ⟨W', D', u, hpass.queued, hu⟩
  · obtain ⟨W', D', hpass⟩ := hq.step hl hs
    obtain ⟨v, hv⟩ := hpass.kept x u hxu hnew
    exact .inr ⟨W', D', v, hpass.queued, hv⟩

/-- In a run as well. -/
theorem run (hr : Run s events s') (hx : Pending s x) (h : Ok s) (hevents : Event.wake x ∉ events) :
    Pending s' x := by
  induction hr with
  | nil => exact hx
  | snoc hr hs ih =>
    rw [List.mem_append, not_or] at hevents
    exact (ih hevents.1).step (h.run hr) hs hevents.2

/-- A thread has the lock and the request, or wakes others. -/
theorem exists_serving (hx : Pending s x) (h : Ok s) : ∃ u, Serves s u := by
  have hheld : s.lock = .lockedUnpauseNeeded → ∃ u, Serves s u := by
    intro hneeded
    obtain ⟨u, hu⟩ := h.1.held fun hfree => by
      rw [hneeded] at hfree
      cases hfree
    exact ⟨u, .inl ⟨hneeded, hu⟩⟩
  rcases hx.2 with hneeded | ⟨W, D, u, hq, hxu⟩
  · exact hheld hneeded
  · rcases hq.waking_of_mem h.1 hxu with hneeded | hu
    · exact hheld hneeded
    · exact ⟨u, .inr hu⟩

end Pending

/-- A request marks the lock. -/
theorem Step.request (hs : Step s t new s') (hnew : Event.request ∈ new) :
    new = [.request] ∧ s'.lock = .lockedUnpauseNeeded := by
  cases hs with
  | unpauseLock => exact ⟨rfl, rfl⟩
  | unpauseLeave => exact ⟨rfl, rfl⟩
  | dropWake => exact ⟨rfl, rfl⟩
  | _ => simp at hnew

/-- A thread can go on, or it is in `lock` or sleeps. -/
theorem Ok.progress (h : Ok s) (t : T) :
    (∃ new s', Step s t new s') ∨ ((∃ w, s.pc t = .lock w) ∧ ∃ u, (s.pc u).owns = true) ∨
      (∃ w, s.pc t = .sleep w) ∧ s.Waits t := by
  obtain ⟨hl, W, D, hq⟩ := h
  cases hpc : s.pc t with
  | idle => exact .inl ⟨_, _, .construct hpc⟩
  | lock w =>
    by_cases hfree : s.lock = .unlocked
    · exact .inl ⟨_, _, .acquire hpc hfree⟩
    · exact .inr (.inl ⟨⟨w, rfl⟩, hl.held hfree⟩)
  | handle w => exact .inl ⟨_, _, .pause hpc⟩
  | unlock k =>
    cases hlock : s.lock with
    | unlocked =>
      have hnone := hl.free hlock t
      rw [hpc] at hnone
      cases hnone
    | locked => exact .inl ⟨_, _, .unlock hpc hlock⟩
    | lockedUnpauseNeeded => exact .inl ⟨_, _, .unlockFail hpc hlock⟩
  | take k => exact .inl ⟨_, _, .take hpc⟩
  | unlockUnpause k c => exact .inl ⟨_, _, .unlockUnpause hpc⟩
  | wake k c =>
    cases c with
    | none => exact .inl ⟨_, _, .wakeEnd hpc⟩
    | some u => exact .inl ⟨_, _, .wakeNext hpc⟩
  | wakeOne k u n => exact .inl ⟨_, _, .wakeOne hpc⟩
  | sleep w =>
    by_cases hsem : s.sem t = 0
    · exact .inr (.inr ⟨⟨w, rfl⟩, by rw [hpc]; rfl, hsem⟩)
    · exact .inl ⟨_, _, .sleep hpc (Nat.pos_of_ne_zero hsem)⟩

/-- A thread that serves a request can go on. -/
theorem Serves.exists_step (hu : Serves s u) (h : Ok s) : ∃ new s', Step s u new s' := by
  rcases h.progress u with hstep | ⟨⟨w, hpc⟩, -⟩ | ⟨⟨w, hpc⟩, -⟩
  · exact hstep
  · rw [Serves, hpc] at hu
    rcases hu with ⟨-, hu⟩ | hu
    · cases hu
    · cases hu
  · rw [Serves, hpc] at hu
    rcases hu with ⟨-, hu⟩ | hu
    · cases hu
    · cases hu

/-! ## Two threads -/

/-- A thread is in `lock`. -/
def entered : State Bool := State.initial.goto true (.lock false)

/-- It has a handle. -/
def handled : State Bool := { entered with lock := .locked }.goto true (.handle false)

/-- It is in the list of waiters. -/
def listed : State Bool :=
  { handled with
    next := Function.update handled.next true handled.waiters
    waiters := some true }.goto true (.unlock (.pause false))

/-- It sleeps. -/
def asleep : State Bool := { listed with lock := .unlocked }.goto true (.sleep false)

/-- The other thread calls `unpause_all`. -/
def requested : State Bool := { asleep with lock := .lockedUnpauseNeeded }.goto false (.unlock .exit)

/-- The first thread pauses. -/
theorem asleep_run : Run State.initial [.pause true] asleep := by
  have hentered : Run State.initial [] entered := (Run.nil _).snoc (.construct rfl)
  have hhandled : Run State.initial [] handled := hentered.snoc (.acquire rfl rfl)
  have hlisted : Run State.initial [.pause true] listed := hhandled.snoc (.pause rfl)
  have hasleep : Step listed true [] asleep := Step.unlock (k := .pause false) rfl rfl
  exact hlisted.snoc hasleep

/-- The second one requests an unpause. -/
theorem requested_step : Step asleep false [.request] requested := .unpauseLock rfl rfl

/-- It waits. -/
theorem asleep_waits : asleep.Waits true := ⟨rfl, rfl⟩

/-! ## Results -/

/-- Whatever threads do, one of them has the lock, and the assertions hold. -/
theorem reached_asserts (hr : Reached s) :
    (∀ u v, (s.pc u).owns = true → (s.pc v).owns = true → u = v) ∧ ∀ u, Asserts s (s.pc u) := by
  obtain ⟨events, hr⟩ := hr
  have hok : Ok s := Ok.initial.run hr
  exact ⟨hok.1.unique, hok.asserts⟩

/-- They hold where the second thread is to release the lock. -/
theorem reached_asserts_two : Asserts requested (requested.pc false) :=
  (reached_asserts ⟨_, asleep_run.snoc requested_step⟩).2 false

/-- Every thread can go on, unless it is in `lock` and another one has the lock, or it sleeps and waits. -/
theorem reached_progress (hr : Reached s) (t : T) :
    (∃ new s', Step s t new s') ∨ ((∃ w, s.pc t = .lock w) ∧ ∃ u, (s.pc u).owns = true) ∨
      (∃ w, s.pc t = .sleep w) ∧ s.Waits t := by
  obtain ⟨events, hr⟩ := hr
  exact (Ok.initial.run hr).progress t

/-- The second of two threads can go on when the first sleeps. -/
theorem reached_progress_two : ∃ new s', Step asleep false new s' := by
  rcases reached_progress ⟨_, asleep_run⟩ false with hstep | ⟨⟨w, hpc⟩, -⟩ | ⟨⟨w, hpc⟩, -⟩
  · exact hstep
  · cases hpc
  · cases hpc

/-- A thread is woken once for each time it paused, unless it waits. -/
theorem count_pause (hr : Run State.initial events s) (x : T) :
    events.count (.pause x) = events.count (.wake x) + if s.Waits x then 1 else 0 := by
  generalize hinit : (State.initial : State T) = s₀ at hr
  induction hr with
  | nil =>
    subst hinit
    rfl
  | snoc hr hs ih =>
    obtain ⟨-, W, D, hq⟩ := Ok.initial.run (hinit ▸ hr)
    have hstep := hq.waits_step hs x
    rw [List.count_append, List.count_append]
    omega

/-- A thread that paused waits. -/
theorem count_pause_two : [Event.pause true].count (.pause true) =
    [Event.pause true].count (.wake true) + if asleep.Waits true then 1 else 0 :=
  count_pause asleep_run true

/-- Who waits when an unpause is requested is woken, and until then a thread that serves requests can go
on. -/
theorem wake_of_request (hr : Reached s) (hx : s.Waits x) (hs : Step s t new s')
    (hnew : Event.request ∈ new) (hrun : Run s' events s'') :
    Event.wake x ∈ events ∨ ∃ u, Serves s'' u ∧ ∃ new s₃, Step s'' u new s₃ := by
  obtain ⟨before, hr⟩ := hr
  have hok : Ok s := Ok.initial.run hr
  have hok' : Ok s' := hok.step hs
  obtain ⟨rfl, hneeded⟩ := hs.request hnew
  obtain ⟨hl, W, D, hq⟩ := hok
  have hx' : s'.Waits x := hq.waits_of_not_wake hs hx (by simp)
  have hpending : Pending s' x := ⟨hx', .inl hneeded⟩
  by_contra hnot
  rw [not_or] at hnot
  have hok'' : Ok s'' := hok'.run hrun
  obtain ⟨u, hu⟩ := (hpending.run hrun hok' hnot.1).exists_serving hok''
  exact hnot.2 ⟨u, hu, hu.exists_step hok''⟩

/-- The thread that sleeps will be woken by the other one. -/
theorem wake_of_request_two : ∃ u, Serves requested u ∧ ∃ new s, Step requested u new s :=
  (wake_of_request ⟨_, asleep_run⟩ asleep_waits requested_step (List.mem_singleton.mpr rfl)
    (.nil requested)).resolve_left List.not_mem_nil

end

end ThreadSync

end VeronaRt
