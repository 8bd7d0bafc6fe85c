import VeronaFs.Runtime.Refinement

/-!
# Bodies exclude each other and follow the order of the calls

A behaviour whose body runs is at the head of all its chains.  So two behaviours with a common cown
never run their bodies together; and since a behaviour that is scheduled later enters the chains behind
an earlier one, its body starts after the earlier one has left them.
-/

namespace VeronaRt

open Foundation

variable {β κ : Type*} [DecidableEq β] [LinearOrder κ] {P : Behaviours β κ} {s : State β κ}
  {b : β} {c : κ}

/-- The body is over. -/
def InvokePc.BodyDone {β κ : Type*} : InvokePc β κ → Prop
  | .notStarted => False
  | .body => False
  | .failed => False
  | _ => True

/-- The body is over when the run is behind it and did not fail. -/
theorem InvokePc.bodyDone_iff {β κ : Type*} {pc : InvokePc β κ} :
    pc.BodyDone ↔ pc ≠ .notStarted ∧ pc ≠ .body ∧ pc ≠ .failed := by
  cases pc <;> simp [BodyDone]

/-! ## The head of a chain -/

/-- A behaviour that was started and has not released its slot is at the head of the chain. -/
theorem State.Sound.head_of_started {g : Ledger β κ} (h : s.Sound P)
    (hg : (P.view s).Consistent P g) (hb : s.invoke b ≠ .notStarted)
    (hc : c ∈ ((s.invoke b).progress (P.cowns b)).toRelease) : (g.queue c).head? = some b :=
  hg.head_of_started (h.view_started hb) hc

/-- At most one body of the behaviours on a cown runs. -/
theorem State.Sound.body_unique (h : s.Sound P) {b₁ b₂ : β} (h₁ : c ∈ P.cowns b₁)
    (h₂ : c ∈ P.cowns b₂) (hb₁ : s.invoke b₁ = .body) (hb₂ : s.invoke b₂ = .body) : b₁ = b₂ := by
  obtain ⟨g, hg⟩ := h.consistent
  have hhead : ∀ x, c ∈ P.cowns x → s.invoke x = .body → (g.queue c).head? = some x := by
    intro x hx hbody
    exact h.head_of_started hg (by rw [hbody]; simp) (by rw [hbody]; exact hx)
  exact Option.some.inj ((hhead b₁ h₁ hb₁).symm.trans (hhead b₂ h₂ hb₂))

/-! ## The order of two behaviours -/

/-- A call of `schedule` that is over stays over. -/
theorem Behaviours.Step.returned {s' : State β κ} (hstep : P.Step s s')
    (hb : s.sched b = .returned) : s'.sched b = .returned := by
  cases hstep with
  | @call x hx =>
    rw [State.sched_setSched, if_neg]
    · exact hb
    · rintro rfl
      rw [hb] at hx
      cases hx
  | schedule x =>
    by_cases hxb : b = x
    · subst hxb
      unfold scheduleStep
      rw [hb]
      exact hb
    · unfold scheduleStep
      split <;> try split
      all_goals first
        | exact hb
        | (rw [State.sched_setSched, if_neg hxb]; exact hb)
  | start hx hhanded => exact hb
  | invoke x =>
    unfold invokeStep
    split <;> try split
    all_goals exact hb

/-- While `b₁` is in the chain of `c`, `b₂` is not in front of it. -/
def Protocol.Behind (a : Protocol β κ) (g : Ledger β κ) (c : κ) (b₁ b₂ : β) : Prop :=
  b₁ ∈ g.queue c → ¬ Before (g.queue c) b₂ b₁ ∧ c ∈ (a.release b₂).toRelease

/-- A step does not bring `b₂` in front of `b₁`, which has entered the chain. -/
theorem Protocol.Behind.evolves {a a' : Protocol β κ} {g g' : Ledger β κ} {b₁ b₂ : β}
    (h : a.Behind g c b₁ b₂) (hg : a.Consistent P g) (hg' : a'.Consistent P g')
    (hev : Protocol.Evolves a g a' g') (hne : b₁ ≠ b₂) (hcowns : c ∈ P.cowns b₁)
    (hentered : c ∉ (a.acquire b₁).toExchange) : a'.Behind g' c b₁ b₂ := by
  intro hmem'
  cases hev with
  | enter hqueue hrelease =>
    have hmem : b₁ ∈ g.queue c := by
      refine (hg.chained.mem_queue c b₁).mpr ⟨hcowns, hentered, ?_⟩
      rw [← hrelease]
      exact ((hg'.chained.mem_queue c b₁).mp hmem').2.2
    obtain ⟨hbefore, hrel⟩ := h hmem
    refine ⟨?_, ?_⟩
    · rcases hqueue c with hq | ⟨x, hq⟩
      · rwa [hq]
      · rw [hq, before_concat]
        rintro (hb | ⟨-, rfl⟩)
        · exact hbefore hb
        · have hnodup := hg'.chained.nodup c
          rw [hq, List.nodup_append] at hnodup
          exact hnodup.2.2 x hmem x (List.mem_singleton_self x) rfl
    · rwa [hrelease]
  | @leave x c' hhead hqueue hleaver hrelease =>
    subst hqueue
    by_cases hc : c' = c
    · subst hc
      rw [Ledger.queue_leave, if_pos rfl] at hmem'
      have hmem := List.mem_of_mem_tail hmem'
      obtain ⟨hbefore, hrel⟩ := h hmem
      have hxb : x ≠ b₂ := by
        rintro rfl
        refine hbefore ?_
        cases hq : g.queue c' with
        | nil => simp [hq] at hmem
        | cons y t =>
          rw [hq] at hhead hmem'
          obtain rfl : y = x := by simpa using hhead
          exact before_cons.mpr (.inl ⟨rfl, hmem'⟩)
      exact ⟨fun hb => hbefore (Ledger.before_leave hb), by rwa [hrelease b₂ hxb.symm]⟩
    · rw [Ledger.queue_leave, if_neg (fun hcc => hc hcc.symm)] at hmem'
      obtain ⟨hbefore, hrel⟩ := h hmem'
      refine ⟨fun hb => hbefore (Ledger.before_leave hb), ?_⟩
      by_cases hxb : b₂ = x
      · subst hxb
        rw [hleaver] at hrel
        exact (List.mem_cons.mp hrel).resolve_left (fun hcc => hc hcc.symm)
      · rwa [hrelease b₂ hxb]

/-- When the call for `b₁` was over before the one for `b₂` was made, `b₂` stays behind. -/
theorem Behaviours.Runs.behind {s' : State β κ} {b₁ b₂ : β} (h : s.Sound P) (hne : b₁ ≠ b₂)
    (h₁ : c ∈ P.cowns b₁) (h₂ : c ∈ P.cowns b₂) (hret : s.sched b₁ = .returned)
    (hcall : s.sched b₂ = .notCalled) (hruns : P.Runs s s') :
    s'.Sound P ∧ s'.sched b₁ = .returned ∧
      ∃ g, (P.view s').Consistent P g ∧ (P.view s').Behind g c b₁ b₂ := by
  induction hruns with
  | refl =>
    obtain ⟨g, hg⟩ := h.consistent
    refine ⟨h, hret, g, hg, fun hmem => ⟨fun hbefore => ?_, ?_⟩⟩
    · refine ((hg.chained.mem_queue c b₂).mp hbefore.left_mem).2.1 ?_
      rw [view_acquire hcall]
      exact P.mem_order.mpr h₂
    · rw [view_release (h.not_started (by rw [hcall]; simp))]
      exact h₂
  | tail hruns hstep ih =>
    obtain ⟨hsound, hret', g, hg, hbehind⟩ := ih
    obtain ⟨hview, hsound'⟩ := hsound.step hstep
    have hret'' := hstep.returned hret'
    refine ⟨hsound', hret'', ?_⟩
    rcases hview with hview | hview
    · exact ⟨g, hview ▸ hg, hview ▸ hbehind⟩
    · obtain ⟨g', hg', hev⟩ := hg.step hview
      refine ⟨g', hg', hbehind.evolves hg hg' hev hne h₁ ?_⟩
      rw [view_acquire hret']
      exact List.not_mem_nil

/-- When the call for `b₁` was over before the one for `b₂` was made, the body of `b₂` starts after the
body of `b₁` has ended. -/
theorem Behaviours.Runs.bodyDone {s' : State β κ} {b₁ b₂ : β} (h : s.Sound P) (hne : b₁ ≠ b₂)
    (h₁ : c ∈ P.cowns b₁) (h₂ : c ∈ P.cowns b₂) (hret : s.sched b₁ = .returned)
    (hcall : s.sched b₂ = .notCalled) (hruns : P.Runs s s') (hstarted : s'.invoke b₂ ≠ .notStarted) :
    (s'.invoke b₁).BodyDone := by
  obtain ⟨hsound', hret', g, hg, hbehind⟩ := hruns.behind h hne h₁ h₂ hret hcall
  have hnot : b₁ ∉ g.queue c := by
    intro hmem
    obtain ⟨hbefore, hrel⟩ := hbehind hmem
    have hhead := hsound'.head_of_started hg hstarted hrel
    refine hbefore ?_
    cases hq : g.queue c with
    | nil => simp [hq] at hmem
    | cons x t =>
      rw [hq] at hhead hmem
      obtain rfl : x = b₂ := by simpa using hhead
      exact before_cons.mpr (.inl ⟨rfl, (List.mem_cons.mp hmem).resolve_left hne⟩)
  have hrel : c ∉ ((s'.invoke b₁).progress (P.cowns b₁)).toRelease := by
    intro hrel
    refine hnot ((hg.chained.mem_queue c b₁).mpr ⟨h₁, ?_, hrel⟩)
    rw [view_acquire hret']
    exact List.not_mem_nil
  cases hpc : s'.invoke b₁ with
  | notStarted => exact absurd h₁ (by rwa [hpc] at hrel)
  | body => exact absurd h₁ (by rwa [hpc] at hrel)
  | failed => exact absurd hpc (hsound'.running b₁)
  | _ => trivial

/-- In every reachable state, of two behaviours with a common cown at most one runs its body; and if the
call of `schedule` for the first was over before the one for the second was made, then in every
run from there the body of the second starts after the body of the first has ended. -/
theorem bodies_exclusive_ordered (hs : P.Reachable s) {b₁ b₂ : β} (hne : b₁ ≠ b₂)
    (h₁ : c ∈ P.cowns b₁) (h₂ : c ∈ P.cowns b₂) :
    ¬ (s.invoke b₁ = .body ∧ s.invoke b₂ = .body) ∧
      (s.sched b₁ = .returned → s.sched b₂ = .notCalled → ∀ s', P.Runs s s' →
        s'.invoke b₂ ≠ .notStarted → (s'.invoke b₁).BodyDone) := by
  have hsound := hs.sound
  refine ⟨fun ⟨hb₁, hb₂⟩ => hne (hsound.body_unique h₁ h₂ hb₁ hb₂), ?_⟩
  intro hret hcall s' hruns hstarted
  exact hruns.bodyDone hsound hne h₁ h₂ hret hcall hstarted

/-! ## Two behaviours on one cown -/

/-- Two behaviours, both on the cown 0. -/
def twoOnOne : Behaviours Bool ℕ where
  cowns := fun _ => [0]
  nodup := fun _ => List.nodup_singleton 0

/-- The first behaviour is scheduled: its call takes six steps. -/
theorem twoOnOne_scheduled : ∃ s, twoOnOne.Reachable s ∧ s.sched true = .returned ∧
    s.sched false = .notCalled ∧ s.handed true = 1 := by
  have hcall := Relation.ReflTransGen.single
    (Behaviours.Step.call (P := twoOnOne) (s := twoOnOne.init) (b := true) rfl)
  have hsteps := (((((hcall.tail (.schedule _ true)).tail (.schedule _ true)).tail
    (.schedule _ true)).tail (.schedule _ true)).tail (.schedule _ true))
  exact ⟨_, hsteps, rfl, rfl, rfl⟩

/-- The second behaviour on the cown waits for the first. -/
theorem bodies_exclusive_ordered_twoOnOne : ∃ s, twoOnOne.Reachable s ∧
    s.sched true = .returned ∧ s.sched false = .notCalled ∧
      (¬ (s.invoke true = .body ∧ s.invoke false = .body)) ∧
      ∀ s', twoOnOne.Runs s s' → s'.invoke false ≠ .notStarted → (s'.invoke true).BodyDone := by
  obtain ⟨s, hs, hret, hcall, -⟩ := twoOnOne_scheduled
  obtain ⟨hexcl, hord⟩ := bodies_exclusive_ordered (c := 0) hs (show true ≠ false by decide)
    (List.mem_singleton_self 0) (List.mem_singleton_self 0)
  exact ⟨s, hs, hret, hcall, hexcl, hord hret hcall⟩

end VeronaRt
