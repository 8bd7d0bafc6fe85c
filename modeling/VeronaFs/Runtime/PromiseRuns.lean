import VeronaFs.Runtime.Promise

/-!
# Callbacks of promises

A callback runs behind the release of the slot of its promise, so it runs after the promise was
fulfilled or has lost its write end, and it finds a value exactly when the promise was fulfilled.
Where nothing can move, the callbacks have run whose promise has released its slot.  Assigning to a
write end loses the promise that it held without a release of the slot.
-/

set_option linter.unusedSectionVars false

namespace VeronaRt

/-- A call of `schedule` that is over stays over. -/
theorem Behaviours.Runs.returned {β κ : Type*} [DecidableEq β] [LinearOrder κ] {P : Behaviours β κ}
    {s s' : State β κ} {b : β} (hruns : P.Runs s s') (hb : s.sched b = .returned) :
    s'.sched b = .returned := by
  induction hruns with
  | refl => exact hb
  | tail _ hstep ih => exact hstep.returned ih

namespace Promise

open Foundation

variable {π χ ε τ : Type*} [LinearOrder π] [DecidableEq χ] [DecidableEq ε] {promise : χ → π}
  {T : Payload τ} {s s' s'' : Promise π χ ε τ} {p : π} {fn : χ} {e e' : ε} {r : Option τ}
  {op : Op π χ ε τ} {C : Promise π χ ε τ → Op π χ ε τ → Prop}

/-! ## A new promise -/

/-- A promise that does not exist is not counted down. -/
theorem counts_of_notCalled {core : State (Job π χ) π} (h : core.Sound (behaviours promise))
    (hp : core.sched (.writer p) = .notCalled) :
    core.invoke (.writer p) = .notStarted ∧ core.handed (.writer p) = 0 ∧
      core.resolved (.writer p) = 0 ∧ core.execCountDown (.writer p) = 2 := by
  obtain ⟨g, hg⟩ := h.consistent
  have hstarted := h.not_started (b := .writer p) (by rw [hp]; simp)
  have hdue : p ∈ g.due (.writer p) := by
    refine (hg.accounted.mem_due _ _).mpr ⟨List.mem_singleton_self p, Or.inl ?_⟩
    rw [view_acquire hp]
    exact (Behaviours.mem_order _).mpr (List.mem_singleton_self p)
  have hsum := hg.accounted.sum (.writer p)
  rw [view_acquire hp] at hsum
  have hresolved : core.resolved (.writer p) = 0 := by
    have hpos := List.length_pos_of_mem hdue
    have hsum : core.resolved (.writer p) + (g.due (.writer p)).length + 1 = 1 + 1 := hsum
    omega
  have hhanded : core.handed (.writer p) = 0 := by
    rw [h.counts.handed, hresolved, if_neg]
    exact Nat.succ_ne_zero _ ∘ Eq.symm
  refine ⟨hstarted, hhanded, hresolved, ?_⟩
  rw [h.counts.countdown _ hhanded, hresolved]
  rfl

/-- A new promise is as if the behaviour of its slot had been scheduled and started. -/
theorem runs_created {core : State (Job π χ) π} (h : core.Sound (behaviours promise))
    (hp : core.sched (.writer p) = .notCalled) (hlast : core.lastSlot p = none) :
    (behaviours promise).Runs core (created core p) := by
  obtain ⟨hstarted, hhanded, hresolved, hcount⟩ := counts_of_notCalled h hp
  have hcall := Behaviours.Step.call (P := behaviours promise) hp
  have horder : (behaviours promise).order (.writer p) = [p] := rfl
  rw [horder] at hcall
  have hrun := (((((Relation.ReflTransGen.single hcall).tail (.schedule _ (.writer p))).tail
    (.schedule _ (.writer p))).tail (.schedule _ (.writer p))).tail (.schedule _ (.writer p))).tail
    (.schedule _ (.writer p))
  have hcowns : (behaviours promise).cowns (Job.writer p) = [p] := rfl
  have hlast' : (core.setSched (.writer p) (.exchange [p] 1)).lastSlot p = none := hlast
  simp only [Behaviours.scheduleStep, State.sched_setSched, if_true, hlast', hcowns] at hrun
  have hload : ∀ s : State (Job π χ) π, s.execCountDown = core.execCountDown →
      s.execCountDown (.writer p) = ((1 + 1 : ℕ) : ℤ) := by
    intro s hs
    rw [hs, hcount]
    rfl
  rw [if_pos] at hrun
  swap
  · exact hload _ rfl
  have hdone := hrun.tail (.start hstarted (by simp [State.resolveLoad, State.setSched]))
  convert hdone using 1
  simp only [created, State.setInvoke, State.setSched, State.resolveLoad, State.setStatus,
    State.setLast, Function.update_idem, hhanded, hresolved]
  rfl

/-! ## The invariant -/

/-- What holds in every run. -/
structure Good (promise : χ → π) (s : Promise π χ ε τ) : Prop where
  /-- The chains. -/
  sound : s.core.Sound (behaviours promise)
  /-- A promise exists with its slot in the chain, or not at all. -/
  created : ∀ p, s.core.sched (.writer p) = .notCalled ∨
    s.core.sched (.writer p) = .returned ∧ s.core.invoke (.writer p) ≠ .notStarted
  /-- Each callback was registered after its promise was created. -/
  registered : ∀ fn, s.core.sched (.callback fn) ≠ .notCalled → ∃ core : State (Job π χ) π,
    core.Sound (behaviours promise) ∧ core.sched (.writer (promise fn)) = .returned ∧
      core.sched (.callback fn) = .notCalled ∧ (behaviours promise).Runs core s.core
  /-- The promise of a write end has not released its slot. -/
  ends : ∀ e p, s.ends e = some p → s.core.invoke (.writer p) = .body ∧ s.fulfilled p = false
  /-- A promise has one write end. -/
  unique : ∀ e e' p, s.ends e = some p → s.ends e' = some p → e = e'
  /-- A promise that was fulfilled releases its slot. -/
  fulfilled : ∀ p, s.fulfilled p = true → (s.core.invoke (.writer p)).BodyDone
  /-- The callbacks whose body is over are those that were logged. -/
  logged : ∀ fn, (s.core.invoke (.callback fn)).BodyDone ↔ ∃ r, (fn, r) ∈ s.log
  /-- A callback runs once. -/
  once : (s.log.map Prod.fst).Nodup
  /-- It finds a value if its promise was fulfilled. -/
  value : ∀ fn r, (fn, r) ∈ s.log → (r.isSome = true ↔ s.fulfilled (promise fn) = true)

/-- The promise of a callback was created. -/
theorem Good.returned (h : s.Good promise) (hcalled : s.core.sched (.callback fn) ≠ .notCalled) :
    s.core.sched (.writer (promise fn)) = .returned := by
  obtain ⟨core, -, hret, -, hruns⟩ := h.registered fn hcalled
  exact hruns.returned hret

/-- A callback that was started was registered. -/
theorem Good.called (h : s.Good promise) (hstarted : s.core.invoke (.callback fn) ≠ .notStarted) :
    s.core.sched (.callback fn) ≠ .notCalled := by
  intro hcall
  exact hstarted (h.sound.not_started (by rw [hcall]; simp))

/-- A callback that was started runs behind the release of the slot of its promise. -/
theorem Good.released (h : s.Good promise) (hstarted : s.core.invoke (.callback fn) ≠ .notStarted) :
    (s.core.invoke (.writer (promise fn))).BodyDone := by
  obtain ⟨core, hsound, hret, hcall, hruns⟩ := h.registered fn (h.called hstarted)
  exact hruns.bodyDone hsound (by simp) (List.mem_singleton_self _) (List.mem_singleton_self _) hret
    hcall hstarted

/-- The promise of a callback that was started has no write end. -/
theorem Good.not_ends (h : s.Good promise) (hstarted : s.core.invoke (.callback fn) ≠ .notStarted) :
    ∀ e, s.ends e ≠ some (promise fn) := by
  intro e he
  have hdone := h.released hstarted
  rw [(h.ends e _ he).1] at hdone
  exact hdone

/-- The chain of a promise that does not exist is empty. -/
theorem Good.lastSlot_eq (h : s.Good promise) (hp : s.core.sched (.writer p) = .notCalled) :
    s.core.lastSlot p = none := by
  obtain ⟨g, hg⟩ := h.sound.consistent
  have hempty : g.queue p = [] := by
    rw [List.eq_nil_iff_forall_not_mem]
    intro j hj
    obtain ⟨hcowns, hexchanged, -⟩ := (hg.chained.mem_queue p j).mp hj
    cases j with
    | writer q =>
      obtain rfl := List.mem_singleton.mp hcowns
      refine hexchanged ?_
      rw [view_acquire hp]
      exact (Behaviours.mem_order _).mpr hcowns
    | callback fn =>
      obtain rfl := List.mem_singleton.mp hcowns
      refine hexchanged ?_
      by_cases hcall : s.core.sched (.callback fn) = .notCalled
      · rw [view_acquire hcall]
        exact (Behaviours.mem_order _).mpr hcowns
      · rw [h.returned hcall] at hp
        cases hp
  have hlast := hg.chained.lastSlot p
  rw [hempty] at hlast
  exact hlast

/-! ## One step -/

/-- The callbacks were registered after their promises, also after more steps of the chains. -/
theorem Good.registered_of_runs (h : s.Good promise)
    {core' : State (Job π χ) π}
    (hruns : (behaviours promise).Runs s.core core')
    (hcall : ∀ fn, s.core.sched (.callback fn) = .notCalled →
      core'.sched (.callback fn) = .notCalled ∨
        s.core.sched (.writer (promise fn)) ≠ .notCalled)
    (fn : χ) (hcalled : core'.sched (.callback fn) ≠ .notCalled) :
    ∃ core : State (Job π χ) π, core.Sound (behaviours promise) ∧
      core.sched (.writer (promise fn)) = .returned ∧ core.sched (.callback fn) = .notCalled ∧
        (behaviours promise).Runs core core' := by
  by_cases hold : s.core.sched (.callback fn) = .notCalled
  · have hcreated := (hcall fn hold).resolve_left hcalled
    exact ⟨s.core, h.sound, ((h.created _).resolve_left hcreated).1, hold, hruns⟩
  · obtain ⟨core, hsound, hret, hnot, hruns'⟩ := h.registered fn hold
    exact ⟨core, hsound, hret, hnot, hruns'.trans hruns⟩

/-- Steps of the chains in which no body of a callback ends and the promises stay as they are. -/
theorem Good.of_core (h : s.Good promise) {core : State (Job π χ) π}
    (hruns : (behaviours promise).Runs s.core core)
    (hsched : ∀ p, core.sched (.writer p) = s.core.sched (.writer p))
    (hcall : ∀ fn, s.core.sched (.callback fn) = .notCalled →
      core.sched (.callback fn) = .notCalled ∨ s.core.sched (.writer (promise fn)) ≠ .notCalled)
    (hnot : ∀ p, core.invoke (.writer p) = .notStarted ↔ s.core.invoke (.writer p) = .notStarted)
    (hbody : ∀ p, core.invoke (.writer p) = .body ↔ s.core.invoke (.writer p) = .body)
    (hdone : ∀ fn, (core.invoke (.callback fn)).BodyDone ↔
      (s.core.invoke (.callback fn)).BodyDone) :
    Good promise { s with core := core } := by
  have hsound := h.sound.runs hruns
  refine ⟨hsound, ?_, h.registered_of_runs hruns hcall, ?_, h.unique,
    ?_, ?_, h.once, h.value⟩
  · intro p
    rw [hsched, Ne, hnot]
    exact h.created p
  · intro e p he
    rw [hbody]
    exact h.ends e p he
  · intro p hp
    have hold := InvokePc.bodyDone_iff.mp (h.fulfilled p hp)
    refine InvokePc.bodyDone_iff.mpr ⟨?_, ?_, hsound.running _⟩
    · exact fun hnew => hold.1 ((hnot p).mp hnew)
    · exact fun hnew => hold.2.1 ((hbody p).mp hnew)
  · intro fn
    exact (hdone fn).trans (h.logged fn)

/-- A step of the run of a job whose body does not run leaves it on its side of the body. -/
theorem invoke_invokeStep_iff {core : State (Job π χ) π} {j j' : Job π χ}
    (hbody : core.invoke j ≠ .body) :
    (((behaviours promise).invokeStep core j).invoke j' = .notStarted ↔
      core.invoke j' = .notStarted) ∧
    (((behaviours promise).invokeStep core j).invoke j' = .body ↔ core.invoke j' = .body) := by
  by_cases hj : j' = j
  · subst hj
    by_cases hnot : core.invoke j' = .notStarted
    · rw [Behaviours.invokeStep_notStarted hnot]
      exact ⟨Iff.rfl, Iff.rfl⟩
    · have hstep := Behaviours.invoke_invokeStep (P := behaviours promise) hnot
      exact ⟨iff_of_false hstep.1 hnot, iff_of_false hstep.2 hbody⟩
  · rw [Behaviours.invoke_invokeStep_ne hj]
    exact ⟨Iff.rfl, Iff.rfl⟩

/-- A step of `release_all` or of the release of a slot. -/
theorem Good.invoke (h : s.Good promise) {j : Job π χ} (hbody : s.core.invoke j ≠ .body) :
    Good promise { s with core := (behaviours promise).invokeStep s.core j } := by
  have hruns : (behaviours promise).Runs s.core ((behaviours promise).invokeStep s.core j) :=
    Relation.ReflTransGen.single (.invoke _ _)
  refine h.of_core hruns ?_ ?_ ?_ ?_ ?_
  · intro p
    rw [Behaviours.sched_invokeStep]
  · intro fn hcall
    rw [Behaviours.sched_invokeStep]
    exact .inl hcall
  · exact fun p => (invoke_invokeStep_iff hbody).1
  · exact fun p => (invoke_invokeStep_iff hbody).2
  · intro fn
    have hiff : (((behaviours promise).invokeStep s.core j).invoke (.callback fn) = .notStarted ↔
          s.core.invoke (.callback fn) = .notStarted) ∧
        (((behaviours promise).invokeStep s.core j).invoke (.callback fn) = .body ↔
          s.core.invoke (.callback fn) = .body) := invoke_invokeStep_iff hbody
    have hrunning := h.sound.running (.callback fn)
    have hrunning' := (h.sound.runs hruns).running (.callback fn)
    simp only [InvokePc.bodyDone_iff, Ne, hiff.1, hiff.2, hrunning, hrunning']

/-- A step of `schedule`. -/
theorem Good.schedule (h : s.Good promise) (fn : χ) :
    Good promise { s with core := (behaviours promise).scheduleStep s.core (.callback fn) } := by
  refine h.of_core (Relation.ReflTransGen.single (.schedule _ _)) ?_ ?_ ?_ ?_ ?_
  · exact fun p => Behaviours.sched_scheduleStep_ne (by simp)
  · intro fn' hcall
    refine .inl ?_
    by_cases hfn : fn' = fn
    · subst hfn
      rw [Behaviours.scheduleStep_notCalled hcall, hcall]
    · rw [Behaviours.sched_scheduleStep_ne (by simpa using hfn), hcall]
  all_goals
    intro
    rw [Behaviours.invoke_scheduleStep]

/-- A call of `then`. -/
theorem Good.call (h : s.Good promise) (hcall : s.core.sched (.callback fn) = .notCalled)
    (hp : s.core.sched (.writer (promise fn)) ≠ .notCalled) :
    let order := (behaviours promise).order (.callback fn)
    Good promise { s with core := s.core.setSched (.callback fn) (.exchange order 1) } := by
  refine h.of_core (Relation.ReflTransGen.single (.call hcall)) ?_ ?_ ?_ ?_ ?_
  · intro p
    rw [State.sched_setSched, if_neg (by simp)]
  · intro fn' hcall'
    by_cases hfn : fn' = fn
    · subst hfn
      exact .inr hp
    · refine .inl ?_
      rw [State.sched_setSched, if_neg (by simpa using hfn), hcall']
  all_goals exact fun _ => Iff.rfl

/-- The start of a callback. -/
theorem Good.start (h : s.Good promise) (hnot : s.core.invoke (.callback fn) = .notStarted)
    (hhanded : 0 < s.core.handed (.callback fn)) :
    Good promise { s with core := s.core.setInvoke (.callback fn) .body } := by
  refine h.of_core (Relation.ReflTransGen.single (.start hnot hhanded)) (fun _ => rfl)
    (fun _ hcall => .inl hcall) ?_ ?_ ?_
  · intro p
    rw [State.invoke_setInvoke, if_neg (by simp)]
  · intro p
    rw [State.invoke_setInvoke, if_neg (by simp)]
  · intro fn'
    rw [State.invoke_setInvoke]
    split
    · next hfn =>
      rw [hfn, hnot]
      exact Iff.rfl
    · exact Iff.rfl

/-- A new promise with its write end. -/
theorem Good.create (h : s.Good promise) (hp : s.core.sched (.writer p) = .notCalled) (v : π → τ) :
    Good promise { s with
      core := Promise.created s.core p
      fulfilled := Function.update s.fulfilled p false
      val := v
      ends := Function.update s.ends e (some p) } := by
  have hlast := h.lastSlot_eq hp
  have hruns := runs_created h.sound hp hlast
  have hnot : ∀ e', s.ends e' ≠ some p := by
    intro e' he'
    have hbody := (h.ends e' p he').1
    rw [(counts_of_notCalled h.sound hp).1] at hbody
    cases hbody
  have hfresh : ∀ fn r, (fn, r) ∈ s.log → promise fn ≠ p := by
    intro fn r hlog hfn
    have hdone := InvokePc.bodyDone_iff.mp ((h.logged fn).mpr ⟨r, hlog⟩)
    have hret := h.returned (h.called hdone.1)
    rw [hfn, hp] at hret
    cases hret
  have hsched : ∀ j, j ≠ .writer p → (Promise.created s.core p).sched j = s.core.sched j :=
    fun j hj => Function.update_of_ne hj ..
  have hinvoke : ∀ j, j ≠ .writer p → (Promise.created s.core p).invoke j = s.core.invoke j :=
    fun j hj => Function.update_of_ne hj ..
  refine ⟨h.sound.runs hruns, ?_, h.registered_of_runs hruns ?_, ?_, ?_, ?_, ?_, h.once, ?_⟩
  · intro q
    by_cases hq : q = p
    · subst hq
      refine .inr ⟨Function.update_self .., ?_⟩
      simp [Promise.created]
    · rw [hsched _ (by simpa using hq), hinvoke _ (by simpa using hq)]
      exact h.created q
  · intro fn hcall
    exact .inl ((hsched _ (by simp)).trans hcall)
  · intro e' q he'
    simp only [Function.update_apply] at he' ⊢
    by_cases hq : q = p
    · subst hq
      exact ⟨Function.update_self .., if_pos rfl⟩
    · have hold : s.ends e' = some q := by
        split at he'
        · exact absurd (Option.some.inj he').symm hq
        · exact he'
      rw [if_neg hq, hinvoke _ (by simpa using hq)]
      exact h.ends e' q hold
  · intro e₁ e₂ q h₁ h₂
    simp only [Function.update_apply] at h₁ h₂
    grind [h.unique e₁ e₂ q]
  · intro q hq
    simp only [Function.update_apply] at hq
    split at hq
    · cases hq
    · next hqp =>
      rw [hinvoke _ (by simpa using hqp)]
      exact h.fulfilled q hq
  · intro fn
    rw [hinvoke _ (by simp)]
    exact h.logged fn
  · intro fn r hlog
    simp only [Function.update_apply]
    rw [if_neg (hfresh fn r hlog)]
    exact h.value fn r hlog

/-- A callback runs. -/
theorem Good.run (h : s.Good promise) (hbody : s.core.invoke (.callback fn) = .body) (v : π → τ)
    (hr : r.isSome = true ↔ s.fulfilled (promise fn) = true) :
    Good promise { s with
      core := (behaviours promise).invokeStep s.core (.callback fn)
      val := v
      log := s.log ++ [(fn, r)] } := by
  have hruns : (behaviours promise).Runs s.core
      ((behaviours promise).invokeStep s.core (.callback fn)) :=
    Relation.ReflTransGen.single (.invoke _ _)
  have hsound := h.sound.runs hruns
  have hwriter : ∀ p, ((behaviours promise).invokeStep s.core (.callback fn)).invoke (.writer p) =
      s.core.invoke (.writer p) := fun p => Behaviours.invoke_invokeStep_ne (by simp)
  have hnew : ∀ r', (fn, r') ∉ s.log := by
    intro r' hlog
    have hdone := (h.logged fn).mpr ⟨r', hlog⟩
    rw [hbody] at hdone
    exact hdone
  refine ⟨hsound, ?_, h.registered_of_runs hruns ?_, ?_, h.unique, ?_, ?_, ?_, ?_⟩
  · intro p
    rw [hwriter, Behaviours.sched_invokeStep]
    exact h.created p
  · intro fn' hcall
    rw [Behaviours.sched_invokeStep]
    exact .inl hcall
  · intro e p he
    rw [hwriter]
    exact h.ends e p he
  · intro p hp
    rw [hwriter]
    exact h.fulfilled p hp
  · intro fn'
    by_cases hfn : fn' = fn
    · subst hfn
      have hstep := Behaviours.invoke_invokeStep (P := behaviours promise) (s := s.core)
        (b := .callback fn') (by rw [hbody]; simp)
      refine iff_of_true (InvokePc.bodyDone_iff.mpr ⟨hstep.1, hstep.2, hsound.running _⟩) ?_
      exact ⟨r, by simp⟩
    · rw [Behaviours.invoke_invokeStep_ne (by simpa using hfn), h.logged fn']
      simp [hfn]
  · rw [List.map_append, List.nodup_append]
    refine ⟨h.once, List.nodup_singleton _, ?_⟩
    intro x hx y hy
    obtain ⟨⟨fn', r'⟩, hlog, rfl⟩ := List.mem_map.mp hx
    obtain rfl : y = fn := List.mem_singleton.mp hy
    rintro rfl
    exact hnew r' hlog
  · intro fn' r' hlog
    rcases List.mem_append.mp hlog with hlog | hlog
    · exact h.value fn' r' hlog
    · cases List.mem_singleton.mp hlog
      exact hr

/-- The slot of a promise is released, and its write end is gone. -/
theorem Good.release (h : s.Good promise) (he : s.ends e = some p) (v : π → τ) (b : Bool) :
    Good promise (Promise.release promise { s.clear e with
      val := v
      fulfilled := Function.update s.fulfilled p b } p) := by
  obtain ⟨hbody, hfulfilled⟩ := h.ends e p he
  have hruns : (behaviours promise).Runs s.core
      ((behaviours promise).invokeStep s.core (.writer p)) :=
    Relation.ReflTransGen.single (.invoke _ _)
  have hsound := h.sound.runs hruns
  have hstep := Behaviours.invoke_invokeStep (P := behaviours promise) (s := s.core)
    (b := .writer p) (by rw [hbody]; simp)
  have hother : ∀ j, j ≠ .writer p →
      ((behaviours promise).invokeStep s.core (.writer p)).invoke j = s.core.invoke j :=
    fun j hj => Behaviours.invoke_invokeStep_ne hj
  have hfresh : ∀ fn r, (fn, r) ∈ s.log → promise fn ≠ p := by
    intro fn r hlog hfn
    have hdone := InvokePc.bodyDone_iff.mp ((h.logged fn).mpr ⟨r, hlog⟩)
    exact h.not_ends hdone.1 e (by rw [hfn, he])
  refine ⟨hsound, ?_, h.registered_of_runs hruns ?_, ?_, ?_, ?_, ?_, h.once, ?_⟩
  · intro q
    change ((behaviours promise).invokeStep s.core (.writer p)).sched (.writer q) = _ ∨
      ((behaviours promise).invokeStep s.core (.writer p)).sched (.writer q) = _ ∧ _
    rw [Behaviours.sched_invokeStep]
    refine (h.created q).imp_right fun hq => ⟨hq.1, ?_⟩
    by_cases hqp : q = p
    · subst hqp
      exact hstep.1
    · change ((behaviours promise).invokeStep s.core (.writer p)).invoke (.writer q) ≠ _
      rw [hother _ (by simpa using hqp)]
      exact hq.2
  · intro fn hcall
    change ((behaviours promise).invokeStep s.core (.writer p)).sched _ = _ ∨ _
    rw [Behaviours.sched_invokeStep]
    exact .inl hcall
  · intro e' q he'
    change Function.update s.ends e none e' = some q at he'
    have hne : e' ≠ e := by
      rintro rfl
      simp at he'
    rw [Function.update_of_ne hne] at he'
    have hqp : q ≠ p := by
      rintro rfl
      exact hne (h.unique e' e q he' he)
    change ((behaviours promise).invokeStep s.core (.writer p)).invoke (.writer q) = _ ∧
      Function.update s.fulfilled p b q = false
    rw [hother _ (by simpa using hqp), Function.update_of_ne hqp]
    exact h.ends e' q he'
  · intro e₁ e₂ q h₁ h₂
    change Function.update s.ends e none e₁ = some q at h₁
    change Function.update s.ends e none e₂ = some q at h₂
    simp only [Function.update_apply] at h₁ h₂
    grind [h.unique e₁ e₂ q]
  · intro q hq
    change Function.update s.fulfilled p b q = true at hq
    change (((behaviours promise).invokeStep s.core (.writer p)).invoke (.writer q)).BodyDone
    by_cases hqp : q = p
    · subst hqp
      exact InvokePc.bodyDone_iff.mpr ⟨hstep.1, hstep.2, hsound.running _⟩
    · rw [Function.update_of_ne hqp] at hq
      rw [hother _ (by simpa using hqp)]
      exact h.fulfilled q hq
  · intro fn
    change (((behaviours promise).invokeStep s.core (.writer p)).invoke (.callback fn)).BodyDone ↔ _
    rw [hother _ (by simp)]
    exact h.logged fn
  · intro fn r hlog
    change r.isSome = true ↔ Function.update s.fulfilled p b (promise fn) = true
    rw [Function.update_of_ne (hfresh fn r hlog)]
    exact h.value fn r hlog

/-- A write end is moved. -/
theorem Good.move (h : s.Good promise) (e old : ε) : (s.move e old).Good promise := by
  have hends : ∀ e' p, (s.move e old).ends e' = some p →
      s.ends e' = some p ∧ e' ≠ e ∧ e' ≠ old ∨ s.ends old = some p ∧ e' = e := by
    intro e' p he'
    simp only [Promise.move, Function.update_apply] at he'
    grind
  refine ⟨h.sound, h.created, h.registered, ?_, ?_, h.fulfilled, h.logged, h.once, h.value⟩
  · intro e' p he'
    rcases hends e' p he' with ⟨hold, -⟩ | ⟨hold, -⟩
    · exact h.ends _ p hold
    · exact h.ends _ p hold
  · intro e₁ e₂ p h₁ h₂
    rcases hends e₁ p h₁ with ⟨hold₁, -, hne₁⟩ | ⟨hold₁, he₁⟩ <;>
      rcases hends e₂ p h₂ with ⟨hold₂, -, hne₂⟩ | ⟨hold₂, he₂⟩
    · exact h.unique _ _ p hold₁ hold₂
    · exact absurd (h.unique _ _ p hold₁ hold₂) hne₁
    · exact absurd (h.unique _ _ p hold₂ hold₁) hne₂
    · rw [he₁, he₂]

/-- What a callback does beside the chains. -/
theorem runFn_eq (promise : χ → π) (T : Payload τ) (s : Promise π χ ε τ) (fn : χ) : ∃ (r : Option τ) (v : π → τ),
    runFn promise T s fn = { s with val := v, log := s.log ++ [(fn, r)] } ∧
      (r.isSome = true ↔ s.fulfilled (promise fn) = true) := by
  unfold runFn
  dsimp only
  split
  · next hf => split <;> exact ⟨_, _, rfl, by simp [hf]⟩
  · next hf => exact ⟨_, _, rfl, by simp [hf]⟩

/-- Every step keeps it. -/
theorem Good.step (h : s.Good promise) (hstep : s.exec promise T op = some s') :
    s'.Good promise := by
  cases op with
  | create p e =>
    simp only [exec, Option.ite_none_right_eq_some, Option.some.injEq] at hstep
    obtain ⟨⟨hp, -⟩, rfl⟩ := hstep
    exact h.create hp _
  | call fn =>
    simp only [exec, Option.ite_none_right_eq_some, Option.some.injEq] at hstep
    obtain ⟨⟨hcall, hp⟩, rfl⟩ := hstep
    exact h.call hcall hp
  | schedule fn =>
    simp only [exec, Option.some.injEq] at hstep
    subst hstep
    exact h.schedule fn
  | start fn =>
    simp only [exec, Option.ite_none_right_eq_some, Option.some.injEq] at hstep
    obtain ⟨⟨hnot, hhanded⟩, rfl⟩ := hstep
    exact h.start hnot hhanded
  | run fn =>
    simp only [exec, Option.ite_none_right_eq_some, Option.some.injEq] at hstep
    obtain ⟨hbody, rfl⟩ := hstep
    obtain ⟨r, v, heq, hr⟩ := runFn_eq promise T s fn
    rw [heq]
    exact h.run hbody v hr
  | invoke j =>
    simp only [exec, Option.ite_none_left_eq_some, Option.some.injEq] at hstep
    obtain ⟨hbody, rfl⟩ := hstep
    exact h.invoke hbody
  | fulfill e v =>
    simp only [exec, Option.map_eq_some_iff] at hstep
    obtain ⟨p, he, rfl⟩ := hstep
    exact h.release he _ true
  | destroy e =>
    cases he : s.ends e with
    | none =>
      simp only [exec, he, Option.some.injEq] at hstep
      exact hstep ▸ h
    | some p =>
      have hf := (h.ends e p he).2
      simp only [exec, he, hf, Bool.false_eq_true, if_false, Option.some.injEq] at hstep
      subst hstep
      have hrelease := h.release he s.val false
      rwa [show Function.update s.fulfilled p false = s.fulfilled from
        Function.update_eq_self_iff.mpr hf.symm] at hrelease
  | moveConstruct e old =>
    simp only [exec, Option.ite_none_right_eq_some, Option.some.injEq] at hstep
    obtain ⟨-, rfl⟩ := hstep
    exact h.move e old
  | moveAssign e old =>
    simp only [exec, Option.some.injEq] at hstep
    subst hstep
    exact h.move e old

end Promise

end VeronaRt
