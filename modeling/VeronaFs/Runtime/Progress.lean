import Mathlib.Data.Prod.Lex
import Mathlib.Data.Set.Finite.Lemmas
import Mathlib.Order.WithBot
import VeronaFs.Runtime.Exclusion

/-!
# Every behaviour is handed over once

The behaviours that wait for each other are ranked: a started behaviour waits for nobody, a finished
one only for those that finished before it, and one in its acquire phase for those or, on the cown that
it acquires now, for others that are further in the order of the cowns or before it in the chain.  So
nobody waits for itself, and where no call is in progress the lowest of the behaviours that have not
run is handed over.
-/

namespace VeronaRt

open Foundation

variable {β κ : Type*} [DecidableEq β] [LinearOrder κ] {P : Behaviours β κ} {s : State β κ}
  {g : Ledger β κ} {b p : β} {c : κ}

/-! ## Waiting -/

/-- `b` waits for `p`: it has to link itself behind a slot of `p`, or it is linked behind a slot that
`p` has not released, or `p` is about to resolve it. -/
inductive State.WaitsFor (P : Behaviours β κ) (s : State β κ) (b p : β) : Prop
  /-- `while (prev->is_wait())` for a slot of `p`. -/
  | isWait {c : κ} {rest : List κ} {ec : ℕ} (h : s.sched b = .isWait c rest ec p)
  /-- Before `prev->set_behaviour(body)`. -/
  | setBehaviour {c : κ} {rest : List κ} {ec : ℕ} (h : s.sched b = .setBehaviour c rest ec p)
  /-- The slot of `p` for `c` says that `b` follows. -/
  | linked {c : κ} (h : s.status p c = .behaviour b)
      (hc : c ∈ ((s.invoke p).progress (P.cowns p)).toRelease)
  /-- `p` has left the chain of `c` to `b` and resolves it. -/
  | resolves {c : κ} (h : ((s.invoke p).progress (P.cowns p)).resolves = some (c, b))

/-- A behaviour waits for its neighbour in a chain or is being resolved. -/
theorem State.WaitsFor.cases (hg : (P.view s).Consistent P g) (h : s.WaitsFor P b p) :
    (∃ c, Adjacent (g.queue c) p b) ∨ ∃ c, ((P.view s).release p).resolves = some (c, b) := by
  cases h with
  | @isWait c rest ec h =>
    refine .inl ⟨c, hg.chained.follows b c p ?_⟩
    rw [view_acquire h]
    rfl
  | @setBehaviour c rest ec h =>
    refine .inl ⟨c, hg.chained.follows b c p ?_⟩
    rw [view_acquire h]
    rfl
  | @linked c h hc =>
    have hcowns : c ∈ P.cowns p := (hg.shaped.release p).subset hc
    have hfinished : p ∈ g.finished := by
      refine hg.finished_of_status hcowns ?_
      change s.status p c ≠ .wait
      rw [h]
      simp
    have hexchanged := ((hg.shaped.acquire p).acquired ((hg.ordered.mem_finished p).mp hfinished)).1
    have hmem : p ∈ g.queue c := by
      refine (hg.chained.mem_queue c p).mpr ⟨hcowns, ?_, hc⟩
      rw [hexchanged]
      exact List.not_mem_nil
    exact .inl ⟨c, (hg.chained.behaviour c p b hmem h).1⟩
  | @resolves c h => exact .inr ⟨c, h⟩

/-- A behaviour that waits is not resolved. -/
theorem State.WaitsFor.not_started (hg : (P.view s).Consistent P g) (h : s.WaitsFor P b p) :
    ¬ (P.view s).Started P b := by
  rcases h.cases hg with ⟨c, hadj⟩ | ⟨c, hres⟩
  · refine hg.not_started_of_due ((hg.accounted.mem_due b c).mpr ⟨?_, .inr (.inl ⟨p, hadj⟩)⟩)
    exact ((hg.chained.mem_queue c b).mp hadj.right_mem).1
  · exact hg.not_started_of_due (hg.due_of_resolves hres)

/-! ## The rank -/

/-- The rank of a behaviour among those that wait. -/
def Protocol.rank (P : Behaviours β κ) (a : Protocol β κ) (g : Ledger β κ) (b : β) :
    ℕ ×ₗ WithBot κ ×ₗ ℕ :=
  if a.resolved b = (P.cowns b).length + 1 then toLex (0, toLex (⊥, 0))
  else if (a.acquire b).acquired then toLex (1, toLex (⊥, g.finished.idxOf b))
  else match (a.acquire b).follows with
    | none => toLex (2, toLex (⊥, 0))
    | some (c, _) => toLex (3, toLex (↑c, (g.queue c).idxOf b))

/-- A smaller first component makes a smaller rank. -/
theorem lex_lt_of_lt {m n : ℕ} (h : m < n) (x y : WithBot κ ×ₗ ℕ) :
    (toLex (m, x) : ℕ ×ₗ WithBot κ ×ₗ ℕ) < toLex (n, y) :=
  Prod.Lex.toLex_lt_toLex.mpr (.inl h)

/-- The rank of a finished behaviour is at most one. -/
theorem Protocol.rank_finished {a : Protocol β κ} (h : (a.acquire b).acquired = true)
    {n : ℕ} (hn : 1 < n) (y : WithBot κ ×ₗ ℕ) : a.rank P g b < toLex (n, y) := by
  unfold Protocol.rank
  split
  · exact lex_lt_of_lt (by omega) _ _
  · exact lex_lt_of_lt hn _ _

omit [DecidableEq β] in
/-- The cown that a behaviour acquires now is not before one that it has acquired. -/
theorem Protocol.Consistent.follows_le {a : Protocol β κ} (h : a.Consistent P g) {c' : κ} {x : β}
    (hmem : b ∈ g.queue c) (hfollows : (a.acquire b).follows = some (c', x)) : c' ≤ c := by
  obtain ⟨pre, hpre⟩ := (h.shaped.acquire b).follows c' x hfollows
  obtain ⟨hcowns, hexchanged, -⟩ := (h.chained.mem_queue c b).mp hmem
  have horder : c ∈ P.order b := P.mem_order.mpr hcowns
  have hsorted := P.pairwise_order b
  rw [← hpre] at horder hsorted
  rcases List.mem_append.mp horder with hc | hc
  · exact (List.pairwise_append.mp hsorted).2.2 c hc c' (List.mem_cons_self ..)
  · rcases List.mem_cons.mp hc with rfl | hc
    · exact le_rfl
    · exact absurd hc hexchanged

/-- Whoever is waited for has a smaller rank. -/
theorem State.WaitsFor.rank_lt (hg : (P.view s).Consistent P g) (h : s.WaitsFor P b p) :
    (P.view s).rank P g p < (P.view s).rank P g b := by
  have hb := h.not_started hg
  rw [Protocol.Started] at hb
  by_cases hp : (P.view s).Started P p
  · have hzero : (P.view s).rank P g p = toLex (0, toLex (⊥, 0)) := if_pos hp
    rw [hzero]
    unfold Protocol.rank
    rw [if_neg hb]
    split
    · exact lex_lt_of_lt (by omega) _ _
    · split <;> exact lex_lt_of_lt (by omega) _ _
  obtain ⟨c, hadj⟩ : ∃ c, Adjacent (g.queue c) p b := by
    rcases h.cases hg with hadj | ⟨c, hres⟩
    · exact hadj
    · rw [(hg.shaped.started p hp).2] at hres
      cases hres
  have hbefore := hadj.before
  have hp' : (P.view s).resolved p ≠ (P.cowns p).length + 1 := hp
  by_cases hacq : ((P.view s).acquire b).acquired = true
  · have hfinished := hg.ordered.finished c p b hbefore ((hg.ordered.mem_finished b).mpr hacq)
    have hacq' := (hg.ordered.mem_finished p).mp hfinished.left_mem
    unfold Protocol.rank
    rw [if_neg hp', if_neg hb, if_pos hacq, if_pos hacq']
    refine Prod.Lex.toLex_lt_toLex.mpr (.inr ⟨rfl, ?_⟩)
    exact Prod.Lex.toLex_lt_toLex.mpr (.inr ⟨rfl, hfinished.idxOf_lt hg.ordered.nodup⟩)
  cases hfollows : ((P.view s).acquire b).follows with
  | none =>
    have hfinished := hg.ordered.linked c p b hbefore (by rw [hfollows]; simp)
    have hrank : (P.view s).rank P g b = toLex (2, toLex (⊥, 0)) := by
      unfold Protocol.rank
      rw [if_neg hb, if_neg hacq, hfollows]
    rw [hrank]
    exact Protocol.rank_finished ((hg.ordered.mem_finished p).mp hfinished) (by omega) _
  | some cx =>
    obtain ⟨c', x⟩ := cx
    have hrank : (P.view s).rank P g b = toLex (3, toLex (↑c', (g.queue c').idxOf b)) := by
      unfold Protocol.rank
      rw [if_neg hb, if_neg hacq, hfollows]
    rw [hrank]
    by_cases hacq' : ((P.view s).acquire p).acquired = true
    · exact Protocol.rank_finished hacq' (by omega) _
    have hc : c' = c := by
      by_contra hc
      refine hacq' ((hg.ordered.mem_finished p).mp (hg.ordered.linked c p b hbefore ?_))
      rw [hfollows]
      rintro p' hq
      cases hq
      exact hc rfl
    subst hc
    unfold Protocol.rank
    rw [if_neg hp', if_neg hacq']
    cases hfollows' : ((P.view s).acquire p).follows with
    | none => exact lex_lt_of_lt (by omega) _ _
    | some cy =>
      obtain ⟨d, y⟩ := cy
      refine Prod.Lex.toLex_lt_toLex.mpr (.inr ⟨rfl, ?_⟩)
      rcases lt_or_eq_of_le (hg.follows_le hadj.left_mem hfollows') with hlt | heq
      · exact Prod.Lex.toLex_lt_toLex.mpr (.inl (WithBot.coe_lt_coe.mpr hlt))
      · subst heq
        refine Prod.Lex.toLex_lt_toLex.mpr (.inr ⟨rfl, ?_⟩)
        exact hbefore.idxOf_lt (hg.chained.nodup d)

/-- Nobody waits for itself. -/
theorem State.Sound.acyclic (h : s.Sound P) (b : β) :
    ¬ Relation.TransGen (s.WaitsFor P) b b := by
  obtain ⟨g, hg⟩ := h.consistent
  have hlt : ∀ x y, Relation.TransGen (s.WaitsFor P) x y →
      (P.view s).rank P g y < (P.view s).rank P g x := by
    intro x y hxy
    induction hxy with
    | single hw => exact hw.rank_lt hg
    | tail _ hw ih => exact (hw.rank_lt hg).trans ih
  intro hb
  exact lt_irrefl _ (hlt b b hb)

/-! ## Progress -/

/-- The behaviour was scheduled and its body is not over. -/
def State.Unexecuted (s : State β κ) (b : β) : Prop :=
  s.sched b = .returned ∧ (s.invoke b = .notStarted ∨ s.invoke b = .body)

/-- No call of `schedule` or `release_all` is in progress. -/
structure State.Quiet (s : State β κ) : Prop where
  /-- No call of `schedule`. -/
  sched : ∀ b, s.sched b = .notCalled ∨ s.sched b = .returned
  /-- No call of `release_all`. -/
  invoke : ∀ b, s.invoke b = .notStarted ∨ s.invoke b = .body ∨ s.invoke b = .done

/-- The lowest behaviour that waits is handed over: with no call in progress one of the behaviours
that have not run was given to the scheduler. -/
theorem State.Sound.exists_handed (h : s.Sound P) (hquiet : s.Quiet) (hb : s.Unexecuted b) :
    ∃ b', s.Unexecuted b' ∧ s.handed b' = 1 := by
  obtain ⟨g, hg⟩ := h.consistent
  have hfin : {x | s.Unexecuted x}.Finite := by
    refine h.finite.subset ?_
    intro x hx
    change s.sched x ≠ .notCalled
    rw [hx.1]
    simp
  obtain ⟨x, hx, hmin⟩ := Set.exists_min_image _ ((P.view s).rank P g) hfin ⟨b, hb⟩
  refine ⟨x, hx, ?_⟩
  have hdue : g.due x = [] := by
    rw [List.eq_nil_iff_forall_not_mem]
    intro c hc
    rcases ((hg.accounted.mem_due x c).mp hc).2 with hex | ⟨p, hadj⟩ | ⟨p, hres⟩
    · rw [view_acquire hx.1] at hex
      cases hex
    · -- the neighbour in front has not run either, and its rank is smaller
      obtain ⟨hcowns, hexchanged, hrel⟩ := (hg.chained.mem_queue c p).mp hadj.left_mem
      have hret : s.sched p = .returned := by
        refine (hquiet.sched p).resolve_left fun hcall => hexchanged ?_
        rw [view_acquire hcall]
        exact P.mem_order.mpr hcowns
      have hrun : s.invoke p = .notStarted ∨ s.invoke p = .body := by
        rcases hquiet.invoke p with hpc | hpc | hpc
        · exact .inl hpc
        · exact .inr hpc
        · rw [view_release hpc] at hrel
          cases hrel
      have hlinked : s.status p c = .behaviour x := by
        refine (hg.chained.linked c p x hadj).resolve_left ?_
        rw [view_acquire hx.1]
        simp [SchedulePc.progress]
      have hwaits : s.WaitsFor P x p := .linked hlinked hrel
      exact absurd (hmin p ⟨hret, hrun⟩) (not_le_of_gt (hwaits.rank_lt hg))
    · rcases hquiet.invoke p with hpc | hpc | hpc <;>
      · rw [view_release hpc] at hres
        cases hres
  have hsum := hg.accounted.sum x
  rw [hdue, view_acquire hx.1] at hsum
  rw [h.counts.handed, if_pos]
  exact hsum

/-- No call can take a step that changes anything, and nothing waits to be started. -/
structure Behaviours.Stuck (P : Behaviours β κ) (s : State β κ) : Prop where
  /-- No step of a call of `schedule`. -/
  schedule : ∀ b, P.scheduleStep s b = s
  /-- No step of a run. -/
  invoke : ∀ b, P.invokeStep s b = s
  /-- No start of a run. -/
  start : ∀ b, s.invoke b = .notStarted → s.handed b = 0

/-- A step of `schedule` that changes nothing waits for a slot or is not in a call. -/
theorem Behaviours.scheduleStep_eq_self (h : P.scheduleStep s b = s) :
    s.sched b = .notCalled ∨ s.sched b = .returned ∨
      ∃ c rest ec prev, s.sched b = .isWait c rest ec prev ∧ s.status prev c = .wait := by
  have hpc' := congrArg (fun s => s.sched b) h
  unfold scheduleStep at hpc'
  cases hpc : s.sched b with
  | notCalled => exact .inl rfl
  | returned => exact .inr (.inl rfl)
  | exchange rest ec =>
    rw [hpc] at hpc'
    cases rest with
    | nil => simp at hpc'
    | cons c rest =>
      cases hlast : s.lastSlot c with
      | none => simp [hlast] at hpc'
      | some prev => simp [hlast] at hpc'
  | isWait c rest ec prev =>
    rw [hpc] at hpc'
    by_cases hwait : s.status prev c = .wait
    · exact .inr (.inr ⟨c, rest, ec, prev, rfl, hwait⟩)
    · simp [hwait] at hpc'
  | setBehaviour c rest ec prev => simp [hpc] at hpc'
  | setReady rest ec =>
    rw [hpc] at hpc'
    cases rest with
    | nil => simp at hpc'
    | cons c rest => simp at hpc'
  | load ec =>
    rw [hpc] at hpc'
    by_cases hcount : s.execCountDown b = ec
    · simp [hcount] at hpc'
    · simp [hcount] at hpc'
  | fetchSub ec => simp [hpc] at hpc'

/-- A step of a run that changes nothing waits for the behaviour that follows or is not in a run. -/
theorem Behaviours.invokeStep_eq_self (hs : s.Sound P) (h : P.invokeStep s b = s) :
    s.invoke b = .notStarted ∨ s.invoke b = .done ∨
      ∃ c rest, s.invoke b = .isReady c rest ∧ s.status b c = .ready := by
  have hpc' := congrArg (fun s => s.invoke b) h
  unfold invokeStep at hpc'
  cases hpc : s.invoke b with
  | notStarted => exact .inl rfl
  | done => exact .inr (.inl rfl)
  | failed => exact absurd hpc (hs.running b)
  | body => simp [hpc] at hpc'
  | release rest =>
    rw [hpc] at hpc'
    cases rest with
    | nil => simp at hpc'
    | cons c rest => cases hstatus : s.status b c <;> simp [hstatus] at hpc'
  | compareExchange c rest =>
    rw [hpc] at hpc'
    by_cases hlast : s.lastSlot c = some b <;> simp [hlast] at hpc'
  | isReady c rest =>
    rw [hpc] at hpc'
    by_cases hready : s.status b c = .ready
    · exact .inr (.inr ⟨c, rest, rfl, hready⟩)
    · simp [hready] at hpc'
  | getBehaviour c rest =>
    obtain ⟨b', hstatus⟩ := hs.linked b c rest hpc
    rw [hpc] at hpc'
    simp [hstatus] at hpc'
  | load c rest b' =>
    rw [hpc] at hpc'
    by_cases hcount : s.execCountDown b' = 1 <;> simp [hcount] at hpc'
  | fetchSub c rest b' => simp [hpc] at hpc'

/-- Where nothing can move no call of `schedule` is in progress: the one of lowest rank would not
wait. -/
theorem State.Sound.sched_of_stuck (h : s.Sound P) (hstuck : ∀ b, P.scheduleStep s b = s) (b : β) :
    s.sched b = .notCalled ∨ s.sched b = .returned := by
  obtain ⟨g, hg⟩ := h.consistent
  by_contra hb
  have hfin : {x | ¬ (s.sched x = .notCalled ∨ s.sched x = .returned)}.Finite :=
    h.finite.subset fun x hx hcall => hx (.inl hcall)
  obtain ⟨x, hx, hmin⟩ := Set.exists_min_image _ ((P.view s).rank P g) hfin ⟨b, hb⟩
  rcases P.scheduleStep_eq_self (hstuck x) with
    hpc | hpc | ⟨c, rest, ec, prev, hpc, hwait⟩
  · exact hx (.inl hpc)
  · exact hx (.inr hpc)
  have hwaits : s.WaitsFor P x prev := .isWait hpc
  refine absurd (hmin prev ?_) (not_le_of_gt (hwaits.rank_lt hg))
  have hadj : Adjacent (g.queue c) prev x := by
    refine hg.chained.follows x c prev ?_
    rw [view_acquire hpc]
    rfl
  obtain ⟨hcowns, hexchanged, -⟩ := (hg.chained.mem_queue c prev).mp hadj.left_mem
  rintro (hcall | hret)
  · refine hexchanged ?_
    rw [view_acquire hcall]
    exact P.mem_order.mpr hcowns
  · have hready := (hg.chained.wait prev c hcowns).mp hwait
    rw [view_acquire hret] at hready
    cases hready

/-- Where nothing can move no run is in progress. -/
theorem State.Sound.invoke_of_stuck (h : s.Sound P) (hstuck : ∀ b, P.scheduleStep s b = s)
    (hb : P.invokeStep s b = s) : s.invoke b = .notStarted ∨ s.invoke b = .done := by
  obtain ⟨g, hg⟩ := h.consistent
  rcases P.invokeStep_eq_self h hb with hpc | hpc | ⟨c, rest, hpc, hready⟩
  · exact .inl hpc
  · exact .inr hpc
  have hrun : s.invoke b ≠ .notStarted := by
    rw [hpc]
    simp
  have hhead := h.head_of_started hg (c := c) hrun (by rw [hpc]; exact List.mem_cons_self ..)
  rcases last_or_adjacent (List.mem_of_mem_head? hhead) with hlast | ⟨x, hadj⟩
  · refine absurd ?_ (h.followed b c rest hpc)
    rw [← hlast]
    exact hg.chained.lastSlot c
  · rcases hg.chained.linked c b x hadj with hfollows | hstatus
    · rcases h.sched_of_stuck hstuck x with hx | hx
      · rw [view_acquire hx] at hfollows
        cases hfollows
      · rw [view_acquire hx] at hfollows
        cases hfollows
    · rw [show s.status b c = .behaviour x from hstatus] at hready
      cases hready

/-- Where nothing can move every behaviour that was scheduled has run, handed over once. -/
theorem State.Sound.done_of_stuck (h : s.Sound P) (hstuck : P.Stuck s)
    (hb : s.sched b ≠ .notCalled) : s.handed b = 1 ∧ s.invoke b = .done := by
  have hquiet : s.Quiet := by
    refine ⟨h.sched_of_stuck hstuck.schedule, fun x => ?_⟩
    rcases h.invoke_of_stuck hstuck.schedule (hstuck.invoke x) with hx | hx
    · exact .inl hx
    · exact .inr (.inr hx)
  have hret := (h.sched_of_stuck hstuck.schedule b).resolve_left hb
  have hdone : s.invoke b = .done := by
    refine (h.invoke_of_stuck hstuck.schedule (hstuck.invoke b)).resolve_left fun hnot => ?_
    obtain ⟨x, hx, hhanded⟩ := h.exists_handed hquiet ⟨hret, .inl hnot⟩
    rcases h.invoke_of_stuck hstuck.schedule (hstuck.invoke x) with hpc | hpc
    · rw [hstuck.start x hpc] at hhanded
      cases hhanded
    · rcases hx.2 with hpc' | hpc'
      · rw [hpc] at hpc'
        cases hpc'
      · rw [hpc] at hpc'
        cases hpc'
  refine ⟨?_, hdone⟩
  have hstarted := h.started b (by rw [hdone]; simp)
  rw [h.counts.handed] at hstarted ⊢
  split at hstarted
  · next hres => rw [if_pos hres]
  · exact absurd rfl hstarted

/-- In every reachable state: a behaviour is handed over exactly once when the counts of its `resolve`
calls sum up to one more than its slots, which they never exceed, and not before; nobody waits for
itself; if no call of `schedule` or `release_all` is in progress and some behaviours have not run, one of
them was handed over; and where nothing can move every scheduled behaviour was handed over once and has
run. -/
theorem handed_once_acyclic (hs : P.Reachable s) :
    (∀ b, s.resolved b ≤ (P.cowns b).length + 1 ∧
      s.handed b = if s.resolved b = (P.cowns b).length + 1 then 1 else 0) ∧
    (∀ b, ¬ Relation.TransGen (s.WaitsFor P) b b) ∧
    (s.Quiet → (∃ b, s.Unexecuted b) → ∃ b, s.Unexecuted b ∧ s.handed b = 1) ∧
    (P.Stuck s → ∀ b, s.sched b ≠ .notCalled → s.handed b = 1 ∧ s.invoke b = .done) := by
  have hsound := hs.sound
  refine ⟨fun b => ⟨?_, hsound.counts.handed b⟩, hsound.acyclic, ?_, ?_⟩
  · obtain ⟨g, hg⟩ := hsound.consistent
    have hsum := hg.accounted.sum b
    change s.resolved b + _ + _ = _ at hsum
    omega
  · rintro hquiet ⟨b, hb⟩
    exact hsound.exists_handed hquiet hb
  · intro hstuck b hb
    exact hsound.done_of_stuck hstuck hb

/-- The first of two behaviours on one cown is handed over. -/
theorem handed_once_acyclic_twoOnOne : ∃ s, twoOnOne.Reachable s ∧ s.handed true = 1 ∧
    ((∀ b, s.resolved b ≤ (twoOnOne.cowns b).length + 1 ∧
      s.handed b = if s.resolved b = (twoOnOne.cowns b).length + 1 then 1 else 0) ∧
    (∀ b, ¬ Relation.TransGen (s.WaitsFor twoOnOne) b b) ∧
    (s.Quiet → (∃ b, s.Unexecuted b) → ∃ b, s.Unexecuted b ∧ s.handed b = 1) ∧
    (twoOnOne.Stuck s → ∀ b, s.sched b ≠ .notCalled → s.handed b = 1 ∧ s.invoke b = .done)) := by
  obtain ⟨s, hs, -, -, hhanded⟩ := twoOnOne_scheduled
  exact ⟨s, hs, hhanded, handed_once_acyclic hs⟩

end VeronaRt
