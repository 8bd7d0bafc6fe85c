import VeronaFs.Runtime.PromiseRuns

/-!
# What the callbacks receive

When the runtime has nothing left to do, the callbacks have run whose promise was fulfilled or has no
write end left, unless a write end was assigned over another one that still had its promise.  A value
that is not trivially copyable is moved to the first callback, and the next ones receive what is left
of it.
-/

set_option linter.unusedSectionVars false

namespace VeronaRt.Promise

variable {π χ ε τ : Type*} [LinearOrder π] [DecidableEq χ] [DecidableEq ε] {promise : χ → π}
  {T : Payload τ} {s s' s₀ s₁ : Promise π χ ε τ} {p : π} {fn : χ} {e : ε} {v : τ}
  {op : Op π χ ε τ} {C : Promise π χ ε τ → Op π χ ε τ → Prop}

/-! ## Runs -/

/-- Nothing was created. -/
theorem Good.init : (Promise.init promise T : Promise π χ ε τ).Good promise where
  sound := .init
  created _ := .inl rfl
  registered _ h := absurd rfl h
  ends e p h := by cases h
  unique e e' p h := by cases h
  fulfilled p h := by cases h
  logged fn := ⟨fun h => h.elim, fun ⟨r, h⟩ => by cases h⟩
  once := List.nodup_nil
  value fn r h := by cases h

/-- Every run keeps it. -/
theorem Good.runs (h : s.Good promise) (hruns : Runs promise T C s s') : s'.Good promise := by
  induction hruns with
  | refl => exact h
  | tail _ _ hstep ih => exact ih.step hstep

/-- The state after the steps of a list. -/
def after (promise : χ → π) (T : Payload τ) (s : Promise π χ ε τ) (ops : List (Op π χ ε τ)) :
    Promise π χ ε τ :=
  (ops.foldlM (exec promise T) s).getD s

/-- The steps of a list are a run. -/
theorem Runs.of_foldlM {ops : List (Op π χ ε τ)} (hC : ∀ op ∈ ops, ∀ s, C s op)
    (h : (ops.foldlM (exec promise T) s).isSome) :
    Runs promise T C s (after promise T s ops) := by
  obtain ⟨s', hs'⟩ := Option.isSome_iff_exists.mp h
  rw [after, hs', Option.getD_some]
  clear h
  induction ops using List.reverseRecOn generalizing s' with
  | nil =>
    obtain rfl : s = s' := by simpa using hs'
    exact .refl s
  | append_singleton ops op ih =>
    rw [List.foldlM_append, Option.bind_eq_bind, Option.bind_eq_some_iff] at hs'
    obtain ⟨s'', hs'', hstep⟩ := hs'
    refine (ih (fun op' hop' => hC op' (List.mem_append_left _ hop')) s'' hs'').tail
      (hC op (by simp) s'') ?_
    simpa using hstep

/-! ## Every callback runs -/

/-- A step that the runtime takes by itself. -/
def Op.Internal : Op π χ ε τ → Prop
  | .schedule _ => True
  | .start _ => True
  | .run _ => True
  | .invoke _ => True
  | _ => False

/-- The runtime has nothing left to do. -/
def Quiescent (promise : χ → π) (T : Payload τ) (s : Promise π χ ε τ) : Prop :=
  ∀ op : Op π χ ε τ, op.Internal → ∀ s', s.exec promise T op = some s' → s' = s

/-- The promise was fulfilled or has no write end left. -/
def Settled (s : Promise π χ ε τ) (p : π) : Prop :=
  s.fulfilled p = true ∨ ∀ e, s.ends e ≠ some p

/-- The callbacks run when they should. -/
structure Delivered (promise : χ → π) (T : Payload τ) (s : Promise π χ ε τ) : Prop where
  /-- A callback runs at most once. -/
  once : (s.log.map Prod.fst).Nodup
  /-- It does not run before its promise is settled. -/
  settled : ∀ fn r, (fn, r) ∈ s.log → s.Settled (promise fn)
  /-- It receives a value if its promise was fulfilled. -/
  value : ∀ fn r, (fn, r) ∈ s.log → (r.isSome = true ↔ s.fulfilled (promise fn) = true)
  /-- At the end the callbacks of the settled promises have run. -/
  complete : s.Quiescent promise T → ∀ fn, s.core.sched (.callback fn) ≠ .notCalled →
    s.Settled (promise fn) → ∃ r, (fn, r) ∈ s.log

/-- The step assigns over no write end that still has its promise. -/
def KeepsEnds (s : Promise π χ ε τ) : Op π χ ε τ → Prop
  | .moveAssign e _ => s.ends e = none
  | _ => True

/-- A promise that holds its slot has a write end. -/
def Held (s : Promise π χ ε τ) : Prop :=
  ∀ p, s.core.invoke (.writer p) = .body → ∃ e, s.ends e = some p

/-- The other promises keep their write ends when the slot of one is released. -/
theorem Held.release (h : s.Held) (hbody : s.core.invoke (.writer p) = .body)
    (he : s.ends e = some p) (v : π → τ) (f : π → Bool) :
    (Promise.release promise { s.clear e with val := v, fulfilled := f } p).Held := by
  intro q hq
  change ((behaviours promise).invokeStep s.core (.writer p)).invoke (.writer q) = .body at hq
  have hstep := Behaviours.invoke_invokeStep (P := behaviours promise) (s := s.core)
    (b := .writer p) (by rw [hbody]; simp)
  have hqp : q ≠ p := by
    rintro rfl
    exact hstep.2 hq
  rw [Behaviours.invoke_invokeStep_ne (by simpa using hqp)] at hq
  obtain ⟨e', he'⟩ := h q hq
  refine ⟨e', ?_⟩
  change Function.update s.ends e none e' = some q
  rw [Function.update_of_ne, he']
  rintro rfl
  exact hqp (Option.some.inj (he'.symm.trans he))

/-- The promises keep their write ends when one is moved into an empty variable. -/
theorem Held.move (h : s.Held) {old : ε} (he : s.ends e = none) : (s.move e old).Held := by
  intro q hq
  obtain ⟨e', he'⟩ := h q hq
  have hne : e' ≠ e := by
    rintro rfl
    rw [he] at he'
    cases he'
  by_cases hold : e' = old
  · subst hold
    refine ⟨e, ?_⟩
    simp only [Promise.move]
    rw [Function.update_of_ne hne.symm, Function.update_self, he']
  · refine ⟨e', ?_⟩
    simp only [Promise.move]
    rw [Function.update_of_ne hold, Function.update_of_ne hne, he']

/-- A step keeps it that assigns over no write end with a promise. -/
theorem Held.step (h : s.Held) (hgood : s.Good promise) (hop : s.KeepsEnds op)
    (hstep : s.exec promise T op = some s') : s'.Held := by
  cases op with
  | create p e =>
    simp only [exec, Option.ite_none_right_eq_some, Option.some.injEq] at hstep
    obtain ⟨⟨-, he⟩, rfl⟩ := hstep
    intro q hq
    by_cases hqp : q = p
    · subst hqp
      exact ⟨e, Function.update_self ..⟩
    · change (Promise.created s.core p).invoke (.writer q) = .body at hq
      have hinvoke : (Promise.created s.core p).invoke (.writer q) = s.core.invoke (.writer q) :=
        Function.update_of_ne (by simpa using hqp) ..
      rw [hinvoke] at hq
      obtain ⟨e', he'⟩ := h q hq
      refine ⟨e', ?_⟩
      change Function.update s.ends e (some p) e' = some q
      rw [Function.update_of_ne, he']
      rintro rfl
      rw [he] at he'
      cases he'
  | call fn =>
    simp only [exec, Option.ite_none_right_eq_some, Option.some.injEq] at hstep
    obtain ⟨-, rfl⟩ := hstep
    exact h
  | schedule fn =>
    simp only [exec, Option.some.injEq] at hstep
    subst hstep
    intro q hq
    rw [Behaviours.invoke_scheduleStep] at hq
    exact h q hq
  | start fn =>
    simp only [exec, Option.ite_none_right_eq_some, Option.some.injEq] at hstep
    obtain ⟨-, rfl⟩ := hstep
    intro q hq
    rw [State.invoke_setInvoke, if_neg (by simp)] at hq
    exact h q hq
  | run fn =>
    simp only [exec, Option.ite_none_right_eq_some, Option.some.injEq] at hstep
    obtain ⟨-, rfl⟩ := hstep
    obtain ⟨r, v, heq, -⟩ := runFn_eq promise T s fn
    rw [heq]
    intro q hq
    rw [Behaviours.invoke_invokeStep_ne (by simp)] at hq
    exact h q hq
  | invoke j =>
    simp only [exec, Option.ite_none_left_eq_some, Option.some.injEq] at hstep
    obtain ⟨hbody, rfl⟩ := hstep
    intro q hq
    exact h q ((invoke_invokeStep_iff hbody).2.mp hq)
  | fulfill e v =>
    simp only [exec, Option.map_eq_some_iff] at hstep
    obtain ⟨p, he, rfl⟩ := hstep
    exact h.release (hgood.ends e p he).1 he _ _
  | destroy e =>
    cases he : s.ends e with
    | none =>
      simp only [exec, he, Option.some.injEq] at hstep
      exact hstep ▸ h
    | some p =>
      obtain ⟨hbody, hf⟩ := hgood.ends e p he
      simp only [exec, he, hf, Bool.false_eq_true, if_false, Option.some.injEq] at hstep
      subst hstep
      exact h.release hbody he _ _
  | moveConstruct e old =>
    simp only [exec, Option.ite_none_right_eq_some, Option.some.injEq] at hstep
    obtain ⟨he, rfl⟩ := hstep
    exact h.move he
  | moveAssign e old =>
    simp only [exec, Option.some.injEq] at hstep
    subst hstep
    exact h.move hop

/-- In a quiescent state no call of `schedule` moves. -/
theorem Good.sched_of_quiescent (h : s.Good promise) (hquiet : s.Quiescent promise T)
    (j : Job π χ) : (behaviours promise).scheduleStep s.core j = s.core := by
  cases j with
  | writer p =>
    rcases h.created p with hp | ⟨hp, -⟩
    · exact Behaviours.scheduleStep_notCalled hp
    · unfold Behaviours.scheduleStep
      rw [hp]
  | callback fn => exact congrArg Promise.core (hquiet (.schedule fn) trivial _ rfl)

/-- In a quiescent state the runs are not started, in their body or done, and only a write end holds a
slot. -/
theorem Good.invoke_of_quiescent (h : s.Good promise) (hquiet : s.Quiescent promise T)
    (j : Job π χ) : s.core.invoke j = .notStarted ∨
      s.core.invoke j = .body ∧ (∃ p, j = .writer p) ∨ s.core.invoke j = .done := by
  have hsched := h.sched_of_quiescent hquiet
  by_cases hbody : s.core.invoke j = .body
  · refine .inr (.inl ⟨hbody, ?_⟩)
    cases j with
    | writer p => exact ⟨p, rfl⟩
    | callback fn =>
      have hrun := hquiet (.run fn) trivial _ (if_pos hbody)
      have hcore := congrArg (fun s => s.core.invoke (.callback fn)) hrun
      have hstep := Behaviours.invoke_invokeStep (P := behaviours promise) (s := s.core)
        (b := .callback fn) (by rw [hbody]; simp)
      exact absurd (hcore.trans hbody) hstep.2
  · have hrun := hquiet (.invoke j) trivial _ (if_neg hbody)
    have hstuck := congrArg Promise.core hrun
    rcases h.sound.invoke_of_stuck hsched hstuck with hj | hj
    · exact .inl hj
    · exact .inr (.inr hj)

/-- In a quiescent state a callback has run whose promise has released its slot: otherwise one of the
callbacks of the promise would be handed over. -/
theorem Good.logged_of_quiescent (h : s.Good promise) (hquiet : s.Quiescent promise T)
    (hcalled : s.core.sched (.callback fn) ≠ .notCalled)
    (hbody : s.core.invoke (.writer (promise fn)) ≠ .body) : ∃ r, (fn, r) ∈ s.log := by
  have hsched := h.sound.sched_of_stuck (h.sched_of_quiescent hquiet)
  obtain ⟨g, hg⟩ := h.sound.consistent
  rw [← h.logged]
  by_contra hdone
  -- the callback is in the chain, which thus has a head, and this has run or is handed over
  have hmem : Job.callback fn ∈ g.queue (promise fn) := by
    refine (hg.chained.mem_queue _ _).mpr ⟨List.mem_singleton_self _, ?_, ?_⟩
    · rw [view_acquire ((hsched _).resolve_left hcalled)]
      exact List.not_mem_nil
    · rcases h.invoke_of_quiescent hquiet (.callback fn) with hpc | ⟨-, q, hq⟩ | hpc
      · rw [view_release hpc]
        exact List.mem_singleton_self _
      · cases hq
      · rw [hpc] at hdone
        exact absurd trivial hdone
  obtain ⟨x, hhead⟩ : ∃ x, (g.queue (promise fn)).head? = some x := by
    cases hq : g.queue (promise fn) with
    | nil => simp [hq] at hmem
    | cons x t => exact ⟨x, rfl⟩
  obtain ⟨hcowns, hexchanged, hrel⟩ :=
    (hg.chained.mem_queue _ _).mp (List.mem_of_mem_head? hhead)
  cases x with
  | writer q =>
    obtain rfl : promise fn = q := List.mem_singleton.mp hcowns
    have hret := h.returned hcalled
    rcases h.invoke_of_quiescent hquiet (.writer (promise fn)) with hpc | ⟨hpc, -⟩ | hpc
    · refine ((h.created (promise fn)).resolve_left ?_).2 hpc
      rw [hret]
      simp
    · exact hbody hpc
    · rw [view_release hpc] at hrel
      cases hrel
  | callback fn' =>
    obtain hfn : promise fn = promise fn' := List.mem_singleton.mp hcowns
    have hcalled' : s.core.sched (.callback fn') ≠ .notCalled := by
      intro hcall
      refine hexchanged ?_
      rw [view_acquire hcall]
      exact (Behaviours.mem_order _).mpr hcowns
    have hret' := (hsched _).resolve_left hcalled'
    have hnot : s.core.invoke (.callback fn') = .notStarted := by
      rcases h.invoke_of_quiescent hquiet (.callback fn') with hpc | ⟨-, q, hq⟩ | hpc
      · exact hpc
      · cases hq
      · rw [view_release hpc] at hrel
        cases hrel
    have hdue : g.due (.callback fn') = [] := by
      rw [List.eq_nil_iff_forall_not_mem]
      intro c hc
      obtain ⟨hmemc, hcases⟩ := (hg.accounted.mem_due _ c).mp hc
      obtain rfl : c = promise fn' := List.mem_singleton.mp hmemc
      rcases hcases with hex | ⟨y, hadj⟩ | ⟨y, hres⟩
      · rw [view_acquire hret'] at hex
        cases hex
      · rw [← hfn] at hadj
        exact hadj.ne_head (hg.chained.nodup _) hhead
      · rcases h.invoke_of_quiescent hquiet y with hpc | ⟨hpc, -⟩ | hpc <;>
        · rw [view_release hpc] at hres
          cases hres
    have hsum := hg.accounted.sum (.callback fn')
    rw [hdue, view_acquire hret'] at hsum
    have hhanded : s.core.handed (.callback fn') = 1 := by
      rw [h.sound.counts.handed, if_pos]
      exact hsum
    have hstart := hquiet (.start fn') trivial _ (if_pos ⟨hnot, hhanded ▸ Nat.one_pos⟩)
    have hcore := congrArg (fun s => s.core.invoke (.callback fn')) hstart
    simp [hnot] at hcore

/-- What holds when every promise that holds its slot has a write end. -/
theorem Good.delivered (h : s.Good promise) (hheld : s.Held) : s.Delivered promise T where
  once := h.once
  settled fn r hlog := by
    have hdone := InvokePc.bodyDone_iff.mp ((h.logged fn).mpr ⟨r, hlog⟩)
    exact .inr (h.not_ends hdone.1)
  value := h.value
  complete hquiet fn hcalled hsettled := by
    refine h.logged_of_quiescent hquiet hcalled ?_
    intro hbody
    obtain ⟨e, he⟩ := hheld _ hbody
    rcases hsettled with hf | hnone
    · rw [(h.ends e _ he).2] at hf
      cases hf
    · exact hnone e he

/-- As long as no write end is assigned over one that still has its promise, in every state reached: a
callback runs at most once and only after its promise was fulfilled or has lost its write end, it
receives a value exactly when the promise was fulfilled, and when the runtime has nothing left to do
every callback has run whose promise was fulfilled or has no write end left. -/
theorem callbacks_delivered (hruns : Runs promise T KeepsEnds (Promise.init promise T) s) :
    s.Delivered promise T := by
  suffices hboth : s.Good promise ∧ s.Held from hboth.1.delivered hboth.2
  induction hruns with
  | refl =>
    refine ⟨.init, fun p hp => ?_⟩
    cases hp
  | tail _ hc hstep ih => exact ⟨ih.1.step hstep, ih.2.step ih.1 hc hstep⟩

/-- Values that are copied. -/
def copied : Payload ℕ where
  triviallyCopyable := true
  moved v := v
  fresh := 0

/-- The callback is registered, in nine steps, after the first promise was created. -/
def registering : List (Op Bool Unit Bool ℕ) :=
  [.create false false, .call ()] ++ List.replicate 8 (.schedule ())

/-- A registered callback. -/
def registered : Promise Bool Unit Bool ℕ :=
  after (fun _ => false) copied (.init (fun _ => false) copied) registering

/-- The write end of a second promise is assigned over the one of the first. -/
def lost : Promise Bool Unit Bool ℕ :=
  after (fun _ => false) copied (.init (fun _ => false) copied)
    (registering ++ [.create true true, .moveAssign false true])

/-- A registered callback and a promise with its write end. -/
theorem callbacks_delivered_registered : registered.core.sched (.callback ()) = .returned ∧
    registered.ends false = some false ∧ registered.Delivered (fun _ => false) copied :=
  ⟨rfl, rfl, callbacks_delivered (Runs.of_foldlM (by simp [registering, KeepsEnds]) rfl)⟩

/-- After an assignment over its write end a promise has no write end left, but its callback does not
run. -/
theorem callback_lost : ∃ s, Runs (fun _ => false) copied (fun _ _ => True)
    (.init (fun _ => false) copied : Promise Bool Unit Bool ℕ) s ∧
      ¬ s.Delivered (fun _ => false) copied := by
  refine ⟨lost, Runs.of_foldlM (fun _ _ _ => trivial) rfl, fun hdelivered => ?_⟩
  have hquiet : lost.Quiescent (fun _ => false) copied := by
    intro op hop s' hstep
    cases op with
    | schedule fn =>
      cases hstep
      rfl
    | start fn => cases hstep
    | run fn => cases hstep
    | invoke j =>
      rcases j with (_ | _) | _
      · cases hstep
      · cases hstep
      · cases hstep
        rfl
    | _ => exact hop.elim
  obtain ⟨r, hlog⟩ := hdelivered.complete hquiet () (by decide) (.inr (by decide))
  cases hlog

/-! ## What a callback receives -/

/-- What the callbacks of a promise received. -/
def received (promise : χ → π) (s : Promise π χ ε τ) (p : π) : List (Option τ) :=
  (s.log.filter fun x => promise x.1 = p).map Prod.snd

/-- What a callback leaves behind of the value that it received. -/
def Payload.left (T : Payload τ) (v : τ) : τ := if T.triviallyCopyable then v else T.moved v

/-- The promise was fulfilled with `v`, and each of its callbacks received what the one before it had
left. -/
structure Served (promise : χ → π) (T : Payload τ) (p : π) (v : τ) (s : Promise π χ ε τ) : Prop where
  /-- It was fulfilled. -/
  fulfilled : s.fulfilled p = true
  /-- The callbacks. -/
  received : s.received promise p =
    (List.range (s.received promise p).length).map fun k => some (T.left^[k] v)
  /-- What is left for the next one. -/
  val : s.val p = T.left^[(s.received promise p).length] v

/-- A step that leaves the promise and its callbacks alone. -/
theorem Served.congr (h : s.Served promise T p v) (hf : s'.fulfilled p = s.fulfilled p)
    (hlog : s'.received promise p = s.received promise p) (hval : s'.val p = s.val p) :
    s'.Served promise T p v := by
  refine ⟨hf.trans h.fulfilled, ?_, ?_⟩
  · rw [hlog]
    exact h.received
  · rw [hlog, hval]
    exact h.val

/-- A callback of the promise takes the value. -/
theorem Served.runFn (h : s.Served promise T p v) (fn : χ) :
    (Promise.runFn promise T s fn).Served promise T p v := by
  by_cases hfn : promise fn = p
  · subst hfn
    have hlog : (Promise.runFn promise T s fn).received promise (promise fn) =
        s.received promise (promise fn) ++ [some (s.val (promise fn))] := by
      unfold Promise.runFn
      simp only [h.fulfilled, if_true]
      split <;> simp [Promise.received, List.filter_append]
    have hval : (Promise.runFn promise T s fn).val (promise fn) = T.left (s.val (promise fn)) := by
      unfold Promise.runFn Payload.left
      simp only [h.fulfilled, if_true]
      split
      · rfl
      · exact Function.update_self ..
    refine ⟨?_, ?_, ?_⟩
    · unfold Promise.runFn
      simp only [h.fulfilled, if_true]
      split <;> exact h.fulfilled
    · rw [hlog, List.length_append, List.length_singleton, List.range_succ, List.map_append,
        ← h.received, h.val]
      rfl
    · rw [hlog, hval, h.val, List.length_append, List.length_singleton,
        Function.iterate_succ_apply']
  · refine h.congr ?_ ?_ ?_
    all_goals
      unfold Promise.runFn
      dsimp only
      split <;> try split
      all_goals simp [Promise.received, List.filter_append, hfn, Function.update_of_ne (Ne.symm hfn)]

/-- A step after the promise was fulfilled. -/
theorem Served.step (h : s.Served promise T p v) (hgood : s.Good promise)
    (hstep : s.exec promise T op = some s') : s'.Served promise T p v := by
  have hend : ∀ e q, s.ends e = some q → p ≠ q := by
    rintro e q he rfl
    have hf := (hgood.ends e p he).2
    rw [h.fulfilled] at hf
    cases hf
  cases op with
  | create q e =>
    simp only [exec, Option.ite_none_right_eq_some, Option.some.injEq] at hstep
    obtain ⟨⟨hq, -⟩, rfl⟩ := hstep
    have hne : p ≠ q := by
      rintro rfl
      have hdone := InvokePc.bodyDone_iff.mp (hgood.fulfilled p h.fulfilled)
      exact hdone.1 (counts_of_notCalled hgood.sound hq).1
    exact h.congr (Function.update_of_ne hne ..) rfl (Function.update_of_ne hne ..)
  | run fn =>
    simp only [exec, Option.ite_none_right_eq_some, Option.some.injEq] at hstep
    obtain ⟨-, rfl⟩ := hstep
    exact (h.runFn fn).congr rfl rfl rfl
  | fulfill e v' =>
    simp only [exec, Option.map_eq_some_iff] at hstep
    obtain ⟨q, he, rfl⟩ := hstep
    have hne := hend e q he
    exact h.congr (Function.update_of_ne hne ..) rfl (Function.update_of_ne hne ..)
  | destroy e =>
    cases he : s.ends e with
    | none =>
      simp only [exec, he, Option.some.injEq] at hstep
      exact hstep ▸ h
    | some q =>
      simp only [exec, he, Option.some.injEq] at hstep
      subst hstep
      split <;> exact h.congr rfl rfl rfl
  | call fn =>
    simp only [exec, Option.ite_none_right_eq_some, Option.some.injEq] at hstep
    obtain ⟨-, rfl⟩ := hstep
    exact h.congr rfl rfl rfl
  | start fn =>
    simp only [exec, Option.ite_none_right_eq_some, Option.some.injEq] at hstep
    obtain ⟨-, rfl⟩ := hstep
    exact h.congr rfl rfl rfl
  | invoke j =>
    simp only [exec, Option.ite_none_left_eq_some, Option.some.injEq] at hstep
    obtain ⟨-, rfl⟩ := hstep
    exact h.congr rfl rfl rfl
  | moveConstruct e old =>
    simp only [exec, Option.ite_none_right_eq_some, Option.some.injEq] at hstep
    obtain ⟨-, rfl⟩ := hstep
    exact h.congr rfl rfl rfl
  | schedule fn =>
    simp only [exec, Option.some.injEq] at hstep
    subst hstep
    exact h.congr rfl rfl rfl
  | moveAssign e old =>
    simp only [exec, Option.some.injEq] at hstep
    subst hstep
    exact h.congr rfl rfl rfl

/-- A run after the promise was fulfilled. -/
theorem Served.runs (h : s.Served promise T p v) (hgood : s.Good promise)
    (hruns : Runs promise T C s s') : s'.Served promise T p v := by
  induction hruns with
  | refl => exact h
  | tail hruns _ hstep ih => exact ih.step (hgood.runs hruns) hstep

/-- The promise is fulfilled before its first callback runs. -/
theorem Good.served (h : s.Good promise) (he : s.ends e = some p)
    (hstep : s.exec promise T (.fulfill e v) = some s') : s'.Served promise T p v := by
  simp only [exec, he, Option.map_some, Option.some.injEq] at hstep
  subst hstep
  have hempty : s.received promise p = [] := by
    rw [received, List.map_eq_nil_iff, List.filter_eq_nil_iff]
    rintro ⟨fn, r⟩ hlog hfn
    have hdone := InvokePc.bodyDone_iff.mp ((h.logged fn).mpr ⟨r, hlog⟩)
    exact h.not_ends hdone.1 e (by rw [he, of_decide_eq_true hfn])
  have hempty' : received promise (Promise.release promise { s.clear e with
      val := Function.update s.val p v
      fulfilled := Function.update s.fulfilled p true } p) p = [] := hempty
  refine ⟨Function.update_self .., ?_, ?_⟩
  · rw [hempty']
    rfl
  · rw [hempty']
    exact Function.update_self ..

/-- A pointer that is null after it was moved. -/
def pointer : Payload (Option ℕ) where
  triviallyCopyable := false
  moved _ := none
  fresh := none

end VeronaRt.Promise
