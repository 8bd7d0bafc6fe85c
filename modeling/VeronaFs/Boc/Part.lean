import VeronaFs.Boc.System

/-!
# Parts of a system

A system is a part of a larger one when its behaviours and cowns are embedded into those of the
larger system and its state is a field of the larger state.  The larger system then runs the
behaviours of the part as the part does: `Part.project_run` projects such a step to the part, and
`Part.settles_iff` says that an execution in which only behaviours of the part are pending is an
execution of the part.
-/

namespace Boc

variable {κ σ β ι ρ φ κ' σ' β' ι' : Type*}

/-- The system `S` as a part of the system `S'`. -/
structure Part (S : System κ σ β ι ρ φ) (S' : System κ' σ' β' ι' ρ φ) where
  /-- A behaviour of the part, in the system. -/
  task : β → β'
  /-- A cown of the part, in the system. -/
  cown : κ → κ'
  /-- The behaviours of the system that are those of the part. -/
  task? : β' → Option β
  /-- The state of the part. -/
  get : σ' → Option σ
  /-- The state of the system after a change of the state of the part. -/
  set : σ' → σ → σ'
  /-- `task?` recognises the behaviours of the part. -/
  task?_eq_some : ∀ b b', task? b' = some b ↔ b' = task b
  /-- Different cowns stay different. -/
  cown_inj : ∀ k k', cown k = cown k' → k = k'
  /-- The behaviours of the part are on the cowns of the part. -/
  cowns_task : ∀ b, S'.cowns (task b) = (S.cowns b).map cown
  /-- The behaviours of the part do what they do in the part. -/
  body_task : ∀ b s' s, get s' = some s → S'.body (task b) s' =
    (S.body b s).map fun e => ⟨set s' e.state, e.spawned.map task, e.replies⟩
  /-- The state of the part is what was set. -/
  get_set : ∀ s' s t, get s' = some s → get (set s' t) = some t
  /-- A later change replaces an earlier one. -/
  set_set : ∀ s' s t, set (set s' s) t = set s' t
  /-- Setting the state that is there changes nothing. -/
  set_get : ∀ s' s, get s' = some s → set s' s = s'

namespace Part

variable {S : System κ σ β ι ρ φ} {S' : System κ' σ' β' ι' ρ φ} (P : Part S S')

/-- The effect of a body of the part, in the system. -/
def lift (s' : σ') (e : Effect σ β ρ) : Effect σ' β' ρ :=
  ⟨P.set s' e.state, e.spawned.map P.task, e.replies⟩

/-- Behaviours of the part are recognised. -/
@[simp] theorem task?_task (b : β) : P.task? (P.task b) = some b := (P.task?_eq_some _ _).mpr rfl

/-- Different behaviours stay different. -/
theorem task_inj {b₁ b₂ : β} (h : P.task b₁ = P.task b₂) : b₁ = b₂ :=
  Option.some.inj (by rw [← P.task?_task b₁, h, P.task?_task])

/-- The behaviours of the part in a list of its behaviours are all of them. -/
@[simp] theorem filterMap_map_task (l : List β) : (l.map P.task).filterMap P.task? = l := by
  induction l with
  | nil => rfl
  | cons b l ih => simp [ih]

/-- Distinct cowns stay distinct. -/
theorem nodup_cowns (b : β) : (S'.cowns (P.task b)).Nodup ↔ (S.cowns b).Nodup := by
  rw [P.cowns_task]
  exact List.nodup_map_iff fun k k' h => P.cown_inj k k' h

/-- Sharing no cown is the same in the part and in the system. -/
theorem disjoint_cowns (b t : β) : (S'.cowns (P.task b)).Disjoint (S'.cowns (P.task t)) ↔
    (S.cowns b).Disjoint (S.cowns t) := by
  rw [P.cowns_task, P.cowns_task]
  constructor
  · intro h k h₁ h₂
    exact h (List.mem_map_of_mem h₁) (List.mem_map_of_mem h₂)
  · intro h k' h₁ h₂
    obtain ⟨k₁, hk₁, rfl⟩ := List.mem_map.mp h₁
    obtain ⟨k₂, hk₂, heq⟩ := List.mem_map.mp h₂
    obtain rfl := P.cown_inj _ _ heq
    exact h hk₁ hk₂

/-- A behaviour of the part runs to its end in the system when it does in the part. -/
theorem runs_iff {b : β} {s' : σ'} {s : σ} (hs : P.get s' = some s) {e' : Effect σ' β' ρ} :
    S'.Runs (P.task b) s' e' ↔ ∃ e, S.Runs b s e ∧ e' = P.lift s' e := by
  constructor
  · rintro ⟨hbody, hnodup⟩
    rw [P.body_task b s' s hs] at hbody
    cases hb : S.body b s with
    | error => rw [hb] at hbody; cases hbody
    | ok e =>
      rw [hb] at hbody
      obtain rfl : P.lift s' e = e' := Except.ok.inj hbody
      refine ⟨e, ⟨hb, fun t ht => ?_⟩, rfl⟩
      exact (P.nodup_cowns t).mp (hnodup _ (List.mem_map_of_mem ht))
  · rintro ⟨e, ⟨hbody, hnodup⟩, rfl⟩
    refine ⟨?_, fun t' ht' => ?_⟩
    · rw [P.body_task b s' s hs, hbody]
      rfl
    · obtain ⟨t, ht, rfl⟩ := List.mem_map.mp ht'
      exact (P.nodup_cowns t).mpr (hnodup t ht)

/-- When no earlier pending behaviour shares a cown, no earlier one of the part does. -/
theorem freeOf_project {pre : List β'} {b : β} (h : S'.FreeOf pre (P.task b)) :
    S.FreeOf (pre.filterMap P.task?) b := by
  intro t ht
  obtain ⟨t', ht', heq⟩ := List.mem_filterMap.mp ht
  obtain rfl := (P.task?_eq_some _ _).mp heq
  exact (P.disjoint_cowns t b).mp (h _ ht')

/-- The step of a behaviour of the part, seen in the part. -/
theorem project_run {s' t' : σ'} {pending pending' : List β'} {rs rs' : List ρ} {b : β} {s : σ}
    (hs : P.get s' = some s) (hstep : S'.Step ⟨s', pending, rs⟩ (.run (P.task b)) ⟨t', pending', rs'⟩)
    (rs₀ : List ρ) :
    ∃ e : Effect σ β ρ, rs' = rs ++ e.replies ∧ t' = P.set s' e.state ∧
      S.Step ⟨s, pending.filterMap P.task?, rs₀⟩ (.run b)
        ⟨e.state, pending'.filterMap P.task?, rs₀ ++ e.replies⟩ := by
  generalize hl : (Label.run (P.task b) : Label ι' β') = l at hstep
  generalize hc : (⟨s', pending, rs⟩ : Config σ' β' ρ) = c at hstep
  generalize hc' : (⟨t', pending', rs'⟩ : Config σ' β' ρ) = c' at hstep
  cases hstep with
  | request => cases hl
  | @run s₁ pre post rs₁ b' e' hfree hrun =>
    cases hl
    cases hc
    obtain ⟨e, he, rfl⟩ := (P.runs_iff hs).mp hrun
    cases hc'
    refine ⟨e, rfl, rfl, ?_⟩
    simp only [List.filterMap_append, List.filterMap_cons, task?_task, lift, filterMap_map_task]
    exact .run (P.freeOf_project hfree) he

/-- The configuration of the system in which the behaviours of the part are pending. -/
def liftConfig (s' : σ') (c : Config σ β ρ) : Config σ' β' ρ :=
  ⟨P.set s' c.state, c.pending.map P.task, c.replies⟩

/-- The behaviours of the part run in the system as in the part. -/
theorem runStep_lift {s' : σ'} {s₀ : σ} (hs : P.get s' = some s₀) {c : Config σ β ρ}
    {d' : Config σ' β' ρ} :
    S'.RunStep (P.liftConfig s' c) d' ↔ ∃ d, S.RunStep c d ∧ d' = P.liftConfig s' d := by
  have hget : P.get (P.set s' c.state) = some c.state := P.get_set s' s₀ _ hs
  constructor
  · rintro ⟨b', hstep⟩
    generalize hl : (Label.run b' : Label ι' β') = l at hstep
    generalize hc : P.liftConfig s' c = c₁ at hstep
    cases hstep with
    | request => cases hl
    | @run s₁ pre' post' rs₁ b'' e' hfree hrun =>
      cases hl
      obtain ⟨s, pending, rs⟩ := c
      obtain ⟨rfl, hpending, rfl⟩ := Config.mk.inj hc
      obtain ⟨pre, rest, rfl, rfl, hrest⟩ := List.map_eq_append_iff.mp hpending
      obtain ⟨b, post, rfl, rfl, rfl⟩ := List.map_eq_cons_iff.mp hrest
      obtain ⟨e, he, rfl⟩ := (P.runs_iff hget).mp hrun
      refine ⟨⟨e.state, pre ++ post ++ e.spawned, rs ++ e.replies⟩, ⟨b, .run ?_ he⟩, ?_⟩
      · intro t ht
        exact (P.disjoint_cowns t b).mp (hfree _ (List.mem_map_of_mem ht))
      · simp [liftConfig, lift, P.set_set]
  · rintro ⟨d, ⟨b, hstep⟩, rfl⟩
    generalize hl : (Label.run b : Label ι β) = l at hstep
    cases hstep with
    | request => cases hl
    | @run s pre post rs b'' e hfree hrun =>
      cases hl
      have hrun' : S'.Runs (P.task b) (P.set s' s) (P.lift (P.set s' s) e) :=
        (P.runs_iff hget).mpr ⟨e, hrun, rfl⟩
      have hfree' : S'.FreeOf (pre.map P.task) (P.task b) := by
        intro t' ht'
        obtain ⟨t, ht, rfl⟩ := List.mem_map.mp ht'
        exact (P.disjoint_cowns t b).mpr (hfree t ht)
      have hstep : S'.Step ⟨P.set s' s, pre.map P.task ++ P.task b :: post.map P.task, rs⟩
          (.run (P.task b)) _ := .run hfree' hrun'
      refine ⟨P.task b, ?_⟩
      simpa [liftConfig, lift, P.set_set] using hstep

/-- When only behaviours of the part are pending, the executions in the system are those in the
part. -/
theorem settles_lift {s' : σ'} {s₀ : σ} (hs : P.get s' = some s₀) {c : Config σ β ρ}
    {d' : Config σ' β' ρ} :
    S'.Settles (P.liftConfig s' c) d' ↔ ∃ d, S.Settles c d ∧ d' = P.liftConfig s' d := by
  constructor
  · rintro ⟨hrun, hfinal⟩
    suffices h : ∃ d, Relation.ReflTransGen S.RunStep c d ∧ d' = P.liftConfig s' d by
      obtain ⟨d, hd, rfl⟩ := h
      exact ⟨d, ⟨hd, fun d₁ hd₁ => hfinal _ ((P.runStep_lift hs).mpr ⟨d₁, hd₁, rfl⟩)⟩, rfl⟩
    clear hfinal
    induction hrun with
    | refl => exact ⟨c, .refl, rfl⟩
    | tail _ hstep ih =>
      obtain ⟨d, hd, rfl⟩ := ih
      obtain ⟨d₁, hd₁, rfl⟩ := (P.runStep_lift hs).mp hstep
      exact ⟨d₁, hd.tail hd₁, rfl⟩
  · rintro ⟨d, ⟨hrun, hfinal⟩, rfl⟩
    refine ⟨?_, fun d' hd' => ?_⟩
    · clear hfinal
      induction hrun with
      | refl => exact .refl
      | tail _ hstep ih => exact ih.tail ((P.runStep_lift hs).mpr ⟨_, hstep, rfl⟩)
    · obtain ⟨d₁, hd₁, rfl⟩ := (P.runStep_lift hs).mp hd'
      exact hfinal d₁ hd₁

/-- The configuration in which the behaviours of the part are pending, from the present state. -/
theorem settles_iff {s' : σ'} {s : σ} (hs : P.get s' = some s) {pending : List β} {rs : List ρ}
    {d' : Config σ' β' ρ} :
    S'.Settles ⟨s', pending.map P.task, rs⟩ d' ↔
      ∃ d, S.Settles ⟨s, pending, rs⟩ d ∧ d' = P.liftConfig s' d := by
  rw [← P.settles_lift hs, liftConfig, P.set_get s' s hs]

end Part

end Boc
