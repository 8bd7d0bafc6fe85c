import Mathlib.Data.Set.Finite.Basic
import VeronaFs.Runtime.Consistency

/-!
# The calls follow the protocol

`view` forgets the program counters.  Every atomic step of a call of `schedule` or of a run leaves the
view alone or is a step of the protocol; `Sound` collects what the program counters know besides the
chains, and holds in all reachable states.
-/

set_option linter.unusedSectionVars false

namespace VeronaRt

open Foundation

/-! ## The view -/

/-- The progress in `schedule` of a behaviour with these cowns. -/
def SchedulePc.progress {β κ : Type*} (order cowns : List κ) : SchedulePc β κ → Acquire β κ
  | .notCalled => ⟨order, none, false, cowns, 1⟩
  | .exchange rest ec => ⟨rest, none, false, cowns, ec⟩
  | .isWait c rest ec prev => ⟨rest, some (c, prev), false, cowns, ec⟩
  | .setBehaviour c rest ec prev => ⟨rest, some (c, prev), false, cowns, ec⟩
  | .setReady rest ec => ⟨[], none, true, rest, ec⟩
  | .load ec => ⟨[], none, true, [], ec⟩
  | .fetchSub ec => ⟨[], none, true, [], ec⟩
  | .returned => ⟨[], none, true, [], 0⟩

/-- The progress in `release_all` of a behaviour with these cowns. -/
def InvokePc.progress {β κ : Type*} (cowns : List κ) : InvokePc β κ → Release β κ
  | .notStarted => ⟨cowns, none⟩
  | .body => ⟨cowns, none⟩
  | .release rest => ⟨rest, none⟩
  | .compareExchange c rest => ⟨c :: rest, none⟩
  | .isReady c rest => ⟨c :: rest, none⟩
  | .getBehaviour c rest => ⟨c :: rest, none⟩
  | .load c rest b => ⟨rest, some (c, b)⟩
  | .fetchSub c rest b => ⟨rest, some (c, b)⟩
  | .done => ⟨[], none⟩
  | .failed => ⟨cowns, none⟩

variable {β κ : Type*} [DecidableEq β] [LinearOrder κ] {P : Behaviours β κ}

/-- The state without the program counters. -/
def Behaviours.view (P : Behaviours β κ) (s : State β κ) : Protocol β κ where
  lastSlot := s.lastSlot
  status := s.status
  resolved := s.resolved
  acquire := fun b => (s.sched b).progress (P.order b) (P.cowns b)
  release := fun b => (s.invoke b).progress (P.cowns b)

/-- The step from `s` to `s'` leaves the view alone or is one of the protocol. -/
def Behaviours.Follows (P : Behaviours β κ) (s s' : State β κ) : Prop :=
  P.view s' = P.view s ∨ Protocol.Step P (P.view s) (P.view s')

section View

variable (s : State β κ) (b : β)

variable {s b} in
/-- The progress in `schedule`. -/
theorem view_acquire {pc : SchedulePc β κ} (h : s.sched b = pc) :
    (P.view s).acquire b = pc.progress (P.order b) (P.cowns b) :=
  congrArg (SchedulePc.progress (P.order b) (P.cowns b)) h

variable {s b} in
/-- The progress in `release_all`. -/
theorem view_release {pc : InvokePc β κ} (h : s.invoke b = pc) :
    (P.view s).release b = pc.progress (P.cowns b) :=
  congrArg (InvokePc.progress (P.cowns b)) h

/-- The view after a step in `schedule`. -/
theorem view_setSched (pc : SchedulePc β κ) :
    P.view (s.setSched b pc) = (P.view s).setAcquire b (pc.progress (P.order b) (P.cowns b)) := by
  unfold Behaviours.view State.setSched Protocol.setAcquire
  congr 1
  funext b'
  simp only [Function.update_apply]
  split
  · next hb => rw [hb]
  · rfl

/-- The view after a step in a run. -/
theorem view_setInvoke (pc : InvokePc β κ) :
    P.view (s.setInvoke b pc) = (P.view s).setRelease b (pc.progress (P.cowns b)) := by
  unfold Behaviours.view State.setInvoke Protocol.setRelease
  congr 1
  funext b'
  simp only [Function.update_apply]
  split
  · next hb => rw [hb]
  · rfl

/-- A step in `schedule` that the view does not see. -/
theorem view_setSched_eq {pc : SchedulePc β κ}
    (h : pc.progress (P.order b) (P.cowns b) = (s.sched b).progress (P.order b) (P.cowns b)) :
    P.view (s.setSched b pc) = P.view s := by
  rw [view_setSched, h]
  unfold Protocol.setAcquire
  rw [show (s.sched b).progress (P.order b) (P.cowns b) = (P.view s).acquire b from rfl,
    Function.update_eq_self]

/-- A step in a run that the view does not see. -/
theorem view_setInvoke_eq {pc : InvokePc β κ}
    (h : pc.progress (P.cowns b) = (s.invoke b).progress (P.cowns b)) :
    P.view (s.setInvoke b pc) = P.view s := by
  rw [view_setInvoke, h]
  unfold Protocol.setRelease
  rw [show (s.invoke b).progress (P.cowns b) = (P.view s).release b from rfl,
    Function.update_eq_self]

/-- The view after a store to a last slot. -/
theorem view_setLast (c : κ) (last : Option β) :
    P.view (s.setLast c last) = (P.view s).setLast c last := rfl

/-- The view after a store to a status. -/
theorem view_setStatus (c : κ) (st : Status β) :
    P.view (s.setStatus b c st) = (P.view s).setStatus b c st := rfl

/-- The view after a `resolve` without a subtraction. -/
theorem view_resolveLoad (n : ℕ) : P.view (s.resolveLoad b n) = (P.view s).resolve b n := rfl

/-- The view after a `resolve` with a subtraction. -/
theorem view_resolveSub (n : ℕ) : P.view (s.resolveSub b n) = (P.view s).resolve b n := rfl

end View

/-! ## The countdown -/

/-- A behaviour is handed over when all its counts are resolved, and until then its countdown is what
is not resolved. -/
structure State.Counts (P : Behaviours β κ) (s : State β κ) : Prop where
  /-- Handed over once, when everything is resolved. -/
  handed : ∀ b, s.handed b = if s.resolved b = (P.cowns b).length + 1 then 1 else 0
  /-- The countdown until then. -/
  countdown : ∀ b, s.handed b = 0 → s.execCountDown b = (P.cowns b).length + 1 - s.resolved b

namespace State.Counts

variable {s : State β κ} {b : β} {n : ℕ}

/-- A behaviour that is handed over is resolved. -/
theorem resolved_of_handed (h : s.Counts P) (hb : s.handed b ≠ 0) :
    s.resolved b = (P.cowns b).length + 1 := by
  by_contra hne
  rw [h.handed, if_neg hne] at hb
  exact hb rfl

/-- Before everything is resolved the behaviour is not handed over. -/
theorem not_handed (h : s.Counts P) (hb : s.resolved b ≠ (P.cowns b).length + 1) :
    s.handed b = 0 := by
  rw [h.handed, if_neg hb]

/-- The `resolve` whose load finds its count is the last one. -/
theorem resolveLoad (h : s.Counts P) (hb : s.resolved b ≠ (P.cowns b).length + 1)
    (hn : s.execCountDown b = n) : (s.resolveLoad b n).Counts P := by
  have hzero := h.not_handed hb
  have hcount := h.countdown b hzero
  constructor
  · intro b'
    have hold := h.handed b'
    simp only [State.resolveLoad, Function.update_apply]
    split
    · next hb' => rw [hb', hzero, if_pos (by omega)]
    · exact hold
  · intro b' hb'
    have hold := h.countdown b'
    simp only [State.resolveLoad, Function.update_apply] at hb' ⊢
    split at hb'
    · omega
    · next hne => rw [if_neg hne]; exact hold hb'

/-- The `resolve` whose subtraction finds its count is the last one. -/
theorem resolveSub (h : s.Counts P) (hb : s.resolved b ≠ (P.cowns b).length + 1) :
    (s.resolveSub b n).Counts P := by
  have hzero := h.not_handed hb
  have hcount := h.countdown b hzero
  constructor
  · intro b'
    have hold := h.handed b'
    simp only [State.resolveSub, Function.update_apply]
    split
    · next hb' =>
      subst hb'
      by_cases hn : s.execCountDown b' = n
      · rw [if_pos hn, hzero, if_pos (by omega)]
      · rw [if_neg hn, hzero, if_neg (by omega)]
    · exact hold
  · intro b' hb'
    have hold := h.countdown b'
    simp only [State.resolveSub, Function.update_apply] at hb' ⊢
    split at hb'
    · next heq =>
      subst heq
      rw [if_pos rfl, if_pos rfl]
      push_cast
      omega
    · next hne =>
      rw [if_neg hne, if_neg hne]
      exact hold hb'

end State.Counts

/-! ## The invariant -/

/-- What holds in all reachable states. -/
structure State.Sound (P : Behaviours β κ) (s : State β κ) : Prop where
  /-- The chains are consistent with a ledger. -/
  consistent : ∃ g, (P.view s).Consistent P g
  /-- The countdowns are right. -/
  counts : s.Counts P
  /-- A call owes its count until it returns. -/
  owes : ∀ b, s.sched b ≠ .returned →
    ((s.sched b).progress (P.order b) (P.cowns b)).owes ≠ 0
  /-- Only what was handed over runs. -/
  started : ∀ b, s.invoke b ≠ .notStarted → s.handed b ≠ 0
  /-- The wait for the behaviour in front is over before the link is set. -/
  linking : ∀ b c rest ec prev, s.sched b = .setBehaviour c rest ec prev →
    s.status prev c ≠ .wait
  /-- After a failed compare-exchange somebody follows. -/
  followed : ∀ b c rest, s.invoke b = .isReady c rest → s.lastSlot c ≠ some b
  /-- The behaviour that follows is known before it is resolved. -/
  linked : ∀ b c rest, s.invoke b = .getBehaviour c rest → ∃ b', s.status b c = .behaviour b'
  /-- No assertion fails. -/
  running : ∀ b, s.invoke b ≠ .failed
  /-- Finitely many behaviours were scheduled. -/
  finite : {b | s.sched b ≠ .notCalled}.Finite


namespace State.Sound

variable {s : State β κ} {b : β} {c : κ} {n : ℕ}

/-- A step that follows the protocol keeps the chains consistent. -/
theorem consistent_of_follows (h : s.Sound P) {s' : State β κ} (hview : P.Follows s s') :
    ∃ g, (P.view s').Consistent P g := by
  obtain ⟨g, hg⟩ := h.consistent
  rcases hview with hview | hview
  · exact ⟨g, hview ▸ hg⟩
  · obtain ⟨g', hg', -⟩ := hg.step hview
    exact ⟨g', hg'⟩

/-- A behaviour that runs has all its counts resolved. -/
theorem view_started (h : s.Sound P) (hb : s.invoke b ≠ .notStarted) : (P.view s).Started P b :=
  h.counts.resolved_of_handed (h.started b hb)

/-- A behaviour whose call of `schedule` is not over is not resolved. -/
theorem not_resolved (h : s.Sound P) (hb : s.sched b ≠ .returned) :
    s.resolved b ≠ (P.cowns b).length + 1 := by
  obtain ⟨g, hg⟩ := h.consistent
  exact hg.not_started (h.owes b hb)

/-- A behaviour whose call of `schedule` is not over is not started. -/
theorem not_started (h : s.Sound P) (hb : s.sched b ≠ .returned) : s.invoke b = .notStarted := by
  by_contra hne
  exact h.not_resolved hb (h.counts.resolved_of_handed (h.started b hne))

/-- A behaviour that is being resolved is not resolved yet. -/
theorem not_resolved_of_resolves (h : s.Sound P) {p : β}
    (hp : ((P.view s).release p).resolves = some (c, b)) :
    s.resolved b ≠ (P.cowns b).length + 1 := by
  obtain ⟨g, hg⟩ := h.consistent
  exact hg.not_started_of_due (hg.due_of_resolves hp)

/-- What a step of `schedule` must show: it changes only its own program counter, takes no status
back and starts nothing. -/
theorem of_schedule (s' : State β κ) (pc : SchedulePc β κ) (h : s.Sound P)
    (_hb : s.sched b ≠ .returned) (hview : P.Follows s (s'.setSched b pc))
    (hcounts : s'.Counts P) (_hcalled : s.sched b ≠ .notCalled)
    (hsched : s'.sched = s.sched) (hinvoke : s'.invoke = s.invoke)
    (hstatus : ∀ x c, s.status x c ≠ .wait → s'.status x c ≠ .wait)
    (hlinked : ∀ x c y, s.status x c = .behaviour y → s.invoke x ≠ .notStarted →
      s'.status x c = .behaviour y)
    (hlast : ∀ x c, s'.lastSlot c = some x → s.lastSlot c = some x ∨ s.invoke x = .notStarted)
    (hhanded : ∀ x, s.handed x ≤ s'.handed x)
    (howes : pc ≠ .returned → (pc.progress (P.order b) (P.cowns b)).owes ≠ 0)
    (hlinking : ∀ c rest ec prev, pc = .setBehaviour c rest ec prev → s'.status prev c ≠ .wait) :
    P.Follows s (s'.setSched b pc) ∧ (s'.setSched b pc).Sound P := by
  refine ⟨hview, ?_⟩
  exact {
    consistent := h.consistent_of_follows hview
    counts := ⟨hcounts.handed, hcounts.countdown⟩
    owes := by
      intro x hx
      have hold := h.owes x
      rw [sched_setSched] at hx ⊢
      grind
    started := by
      intro x hx
      have hold := h.started x
      have hle := hhanded x
      rw [invoke_setSched, hinvoke] at hx
      rw [handed_setSched]
      exact Nat.ne_zero_of_lt (lt_of_lt_of_le (Nat.pos_of_ne_zero (hold hx)) hle)
    linking := by
      intro x c rest ec prev hx
      rw [sched_setSched] at hx
      rw [status_setSched]
      split at hx
      · exact hlinking c rest ec prev hx
      · rw [hsched] at hx
        exact hstatus prev c (h.linking x c rest ec prev hx)
    followed := by
      intro x c rest hx hlast'
      rw [invoke_setSched, hinvoke] at hx
      rw [lastSlot_setSched] at hlast'
      rcases hlast x c hlast' with hold | hnot
      · exact h.followed x c rest hx hold
      · rw [hnot] at hx
        cases hx
    linked := by
      intro x c rest hx
      rw [invoke_setSched, hinvoke] at hx
      obtain ⟨y, hy⟩ := h.linked x c rest hx
      exact ⟨y, hlinked x c y hy (by rw [hx]; simp)⟩
    running := by
      intro x
      rw [invoke_setSched, hinvoke]
      exact h.running x
    finite := by
      refine (h.finite.insert b).subset ?_
      intro x hx
      have hx : (s'.setSched b pc).sched x ≠ .notCalled := hx
      rw [sched_setSched, hsched] at hx
      by_cases hxb : x = b
      · exact .inl hxb
      · rw [if_neg hxb] at hx
        exact .inr hx }

/-- A step of a call of `schedule` keeps the invariant. -/
theorem schedule (h : s.Sound P) (b : β) :
    P.Follows s (P.scheduleStep s b) ∧ (P.scheduleStep s b).Sound P := by
  unfold Behaviours.scheduleStep
  cases hpc : s.sched b with
  | notCalled => exact ⟨.inl rfl, h⟩
  | returned => exact ⟨.inl rfl, h⟩
  | exchange rest ec =>
    have hret : s.sched b ≠ .returned := by rw [hpc]; simp
    have hcall : s.sched b ≠ .notCalled := by rw [hpc]; simp
    have howes := h.owes b hret
    have hnot := h.not_started hret
    rw [hpc] at howes
    cases rest with
    | nil =>
      refine h.of_schedule s (.setReady (P.cowns b) ec) hret ?_ h.counts hcall rfl rfl
        (fun _ _ hst => hst) (fun _ _ _ hst _ => hst) (fun _ _ hlast => .inl hlast)
        (fun _ => le_rfl) (fun _ => howes) (by simp)
      refine .inr ?_
      rw [view_setSched]
      exact .finish (view_acquire hpc)
    | cons c rest =>
      cases hlast : s.lastSlot c with
      | none =>
        simp only [hlast]
        refine h.of_schedule (s.setLast c (some b)) (.exchange rest (ec + 1)) hret ?_
          ⟨h.counts.handed, h.counts.countdown⟩ hcall rfl rfl (fun _ _ hst => hst)
          (fun _ _ _ hst _ => hst) ?_ (fun _ => le_rfl) (fun _ => Nat.succ_ne_zero ec) (by simp)
        · refine .inr ?_
          rw [view_setSched, view_setLast]
          exact .enterFree (view_acquire hpc) hlast
        · intro x c' hx
          rw [lastSlot_setLast] at hx
          grind
      | some prev =>
        simp only [hlast]
        refine h.of_schedule (s.setLast c (some b)) (.isWait c rest ec prev) hret ?_
          ⟨h.counts.handed, h.counts.countdown⟩ hcall rfl rfl (fun _ _ hst => hst)
          (fun _ _ _ hst _ => hst) ?_ (fun _ => le_rfl) (fun _ => howes) (by simp)
        · refine .inr ?_
          rw [view_setSched, view_setLast]
          exact .enterBehind (view_acquire hpc) hlast
        · intro x c' hx
          rw [lastSlot_setLast] at hx
          grind
  | isWait c rest ec prev =>
    have hret : s.sched b ≠ .returned := by rw [hpc]; simp
    have hcall : s.sched b ≠ .notCalled := by rw [hpc]; simp
    have howes := h.owes b hret
    rw [hpc] at howes
    by_cases hwait : s.status prev c = .wait
    · simp only [hwait, if_true]
      exact ⟨.inl rfl, h⟩
    · simp only [hwait, if_false]
      refine h.of_schedule s (.setBehaviour c rest ec prev) hret ?_ h.counts hcall rfl rfl
        (fun _ _ hst => hst) (fun _ _ _ hst _ => hst) (fun _ _ hlast => .inl hlast)
        (fun _ => le_rfl) (fun _ => howes) ?_
      · exact .inl (view_setSched_eq s b (by rw [hpc]; rfl))
      · rintro c' rest' ec' prev' hq
        cases hq
        exact hwait
  | setBehaviour c rest ec prev =>
    have hret : s.sched b ≠ .returned := by rw [hpc]; simp
    have hcall : s.sched b ≠ .notCalled := by rw [hpc]; simp
    have howes := h.owes b hret
    rw [hpc] at howes
    have hlink : Protocol.Step P (P.view s) _ :=
      .link (view_acquire hpc) (h.linking b c rest ec prev hpc)
    refine h.of_schedule (s.setStatus prev c (.behaviour b)) (.exchange rest ec) hret ?_
      ⟨h.counts.handed, h.counts.countdown⟩ hcall rfl rfl ?_ ?_ (fun _ _ hlast => .inl hlast)
      (fun _ => le_rfl) (fun _ => howes) (by simp)
    · refine .inr ?_
      rw [view_setSched, view_setStatus]
      exact hlink
    · intro x c' hst
      rw [status_setStatus]
      grind
    · intro x c' y hst hx
      rw [status_setStatus, if_neg]
      · exact hst
      · rintro ⟨rfl, rfl⟩
        obtain ⟨g, hg⟩ := h.consistent
        have hfollows : ((P.view s).acquire b).follows = some (c', x) := by
          rw [view_acquire hpc]
          rfl
        have hadj := hg.chained.follows b c' x hfollows
        exact (hg.chained.behaviour c' x y hadj.left_mem hst).2 x
          (hg.chained.behaviour c' x y hadj.left_mem hst |>.1.right_unique (hg.chained.nodup c')
            hadj ▸ hfollows)
  | setReady rest ec =>
    have hret : s.sched b ≠ .returned := by rw [hpc]; simp
    have hcall : s.sched b ≠ .notCalled := by rw [hpc]; simp
    have howes := h.owes b hret
    have hnot := h.not_started hret
    rw [hpc] at howes
    cases rest with
    | nil =>
      refine h.of_schedule s (.load ec) hret ?_ h.counts hcall rfl rfl
        (fun _ _ hst => hst) (fun _ _ _ hst _ => hst) (fun _ _ hlast => .inl hlast)
        (fun _ => le_rfl) (fun _ => howes) (by simp)
      exact .inl (view_setSched_eq s b (by rw [hpc]; rfl))
    | cons c rest =>
      refine h.of_schedule (s.setStatus b c .ready) (.setReady rest ec) hret ?_
        ⟨h.counts.handed, h.counts.countdown⟩ hcall rfl rfl ?_ ?_ (fun _ _ hlast => .inl hlast)
        (fun _ => le_rfl) (fun _ => howes) (by simp)
      · refine .inr ?_
        rw [view_setSched, view_setStatus]
        exact .ready (view_acquire hpc) howes
      · intro x c' hst
        rw [status_setStatus]
        grind
      · intro x c' y hst hx
        rw [status_setStatus, if_neg]
        · exact hst
        · rintro ⟨rfl, -⟩
          exact hx hnot
  | load ec =>
    have hret : s.sched b ≠ .returned := by rw [hpc]; simp
    have hcall : s.sched b ≠ .notCalled := by rw [hpc]; simp
    have howes := h.owes b hret
    rw [hpc] at howes
    by_cases hcount : s.execCountDown b = ec
    · simp only [hcount, if_true]
      refine h.of_schedule (s.resolveLoad b ec) .returned hret ?_
        (h.counts.resolveLoad (h.not_resolved hret) hcount) hcall rfl rfl (fun _ _ hst => hst)
        (fun _ _ _ hst _ => hst) (fun _ _ hlast => .inl hlast)
        (fun _ => handed_le_resolveLoad ..) (by simp) (by simp)
      refine .inr ?_
      rw [view_setSched, view_resolveLoad]
      exact .resolveOwn (view_acquire hpc) howes
    · simp only [hcount, if_false]
      refine h.of_schedule s (.fetchSub ec) hret ?_ h.counts hcall rfl rfl
        (fun _ _ hst => hst) (fun _ _ _ hst _ => hst) (fun _ _ hlast => .inl hlast)
        (fun _ => le_rfl) (fun _ => howes) (by simp)
      exact .inl (view_setSched_eq s b (by rw [hpc]; rfl))
  | fetchSub ec =>
    have hret : s.sched b ≠ .returned := by rw [hpc]; simp
    have hcall : s.sched b ≠ .notCalled := by rw [hpc]; simp
    have howes := h.owes b hret
    rw [hpc] at howes
    refine h.of_schedule (s.resolveSub b ec) .returned hret ?_
      (h.counts.resolveSub (h.not_resolved hret)) hcall rfl rfl (fun _ _ hst => hst)
      (fun _ _ _ hst _ => hst) (fun _ _ hlast => .inl hlast)
      (fun _ => handed_le_resolveSub ..) (by simp) (by simp)
    refine .inr ?_
    rw [view_setSched, view_resolveSub]
    exact .resolveOwn (view_acquire hpc) howes

/-- What a step of a run must show: it changes only its own program counter, stores no status and
takes no last slot. -/
theorem of_invoke (s' : State β κ) (pc : InvokePc β κ) (h : s.Sound P)
    (hb : s.invoke b ≠ .notStarted) (hview : P.Follows s (s'.setInvoke b pc))
    (hcounts : s'.Counts P) (hsched : s'.sched = s.sched) (hinvoke : s'.invoke = s.invoke)
    (hstatus : s'.status = s.status)
    (hlast : ∀ x c, s'.lastSlot c = some x → s.lastSlot c = some x)
    (hhanded : ∀ x, s.handed x ≤ s'.handed x)
    (hfollowed : ∀ c rest, pc = .isReady c rest → s.lastSlot c ≠ some b)
    (hlinked : ∀ c rest, pc = .getBehaviour c rest → ∃ b', s.status b c = .behaviour b')
    (hrunning : pc ≠ .failed) :
    P.Follows s (s'.setInvoke b pc) ∧ (s'.setInvoke b pc).Sound P := by
  refine ⟨hview, ?_⟩
  exact {
    consistent := h.consistent_of_follows hview
    counts := ⟨hcounts.handed, hcounts.countdown⟩
    owes := by
      intro x hx
      rw [sched_setInvoke, hsched] at hx ⊢
      exact h.owes x hx
    started := by
      intro x hx
      have hold : s.handed x ≠ 0 := by
        rw [invoke_setInvoke, hinvoke] at hx
        refine h.started x ?_
        split at hx
        · next hxb => rw [hxb]; exact hb
        · exact hx
      exact Nat.ne_zero_of_lt (lt_of_lt_of_le (Nat.pos_of_ne_zero hold) (hhanded x))
    linking := by
      intro x c rest ec prev hx
      rw [sched_setInvoke, hsched] at hx
      rw [status_setInvoke, hstatus]
      exact h.linking x c rest ec prev hx
    followed := by
      intro x c rest hx hlast'
      rw [invoke_setInvoke, hinvoke] at hx
      have hold := hlast x c hlast'
      split at hx
      · next hxb =>
        rw [hxb] at hold
        exact hfollowed c rest hx hold
      · exact h.followed x c rest hx hold
    linked := by
      intro x c rest hx
      rw [invoke_setInvoke, hinvoke] at hx
      rw [status_setInvoke, hstatus]
      split at hx
      · next hxb =>
        rw [hxb]
        exact hlinked c rest hx
      · exact h.linked x c rest hx
    running := by
      intro x
      rw [invoke_setInvoke, hinvoke]
      split
      · exact hrunning
      · exact h.running x
    finite := by
      refine h.finite.subset ?_
      intro x hx
      have hx : (s'.setInvoke b pc).sched x ≠ .notCalled := hx
      rwa [sched_setInvoke, hsched] at hx }

/-- The slots of a behaviour that runs are not waiting. -/
theorem status_ne_wait (h : s.Sound P) (hb : s.invoke b ≠ .notStarted) (hc : c ∈ P.cowns b) :
    s.status b c ≠ .wait := by
  obtain ⟨g, hg⟩ := h.consistent
  have hret : s.sched b = .returned := by
    by_contra hret
    exact hb (h.not_started hret)
  intro hwait
  have hmem := (hg.chained.wait b c hc).mp hwait
  rw [view_acquire hret] at hmem
  cases hmem

/-- The cown whose slot is released is one of the behaviour. -/
theorem mem_cowns (h : s.Sound P) {rest : List κ}
    (hb : ((P.view s).release b).toRelease = c :: rest) : c ∈ P.cowns b := by
  obtain ⟨g, hg⟩ := h.consistent
  have hsuffix := hg.shaped.release b
  rw [hb] at hsuffix
  exact hsuffix.subset (List.mem_cons_self ..)

/-- A step of a run keeps the invariant. -/
theorem invoke (h : s.Sound P) (b : β) :
    P.Follows s (P.invokeStep s b) ∧ (P.invokeStep s b).Sound P := by
  unfold Behaviours.invokeStep
  cases hpc : s.invoke b with
  | notStarted => exact ⟨.inl rfl, h⟩
  | done => exact ⟨.inl rfl, h⟩
  | failed => exact ⟨.inl rfl, h⟩
  | body =>
    have hrun : s.invoke b ≠ .notStarted := by rw [hpc]; simp
    refine h.of_invoke s (.release (P.cowns b)) hrun ?_ h.counts rfl rfl rfl (fun _ _ hlast => hlast)
      (fun _ => le_rfl) (by simp) (by simp) (by simp)
    exact .inl (view_setInvoke_eq s b (by rw [hpc]; rfl))
  | release rest =>
    have hrun : s.invoke b ≠ .notStarted := by rw [hpc]; simp
    cases rest with
    | nil =>
      refine h.of_invoke s .done hrun ?_ h.counts rfl rfl rfl (fun _ _ hlast => hlast)
        (fun _ => le_rfl) (by simp) (by simp) (by simp)
      exact .inl (view_setInvoke_eq s b (by rw [hpc]; rfl))
    | cons c rest =>
      have hc := h.mem_cowns (congrArg Release.toRelease (view_release hpc))
      cases hstatus : s.status b c with
      | wait => exact absurd hstatus (h.status_ne_wait hrun hc)
      | ready =>
        simp only [hstatus]
        refine h.of_invoke s (.compareExchange c rest) hrun ?_ h.counts rfl rfl rfl
          (fun _ _ hlast => hlast) (fun _ => le_rfl) (by simp) (by simp) (by simp)
        exact .inl (view_setInvoke_eq s b (by rw [hpc]; rfl))
      | behaviour b' =>
        simp only [hstatus]
        refine h.of_invoke s (.getBehaviour c rest) hrun ?_ h.counts rfl rfl rfl
          (fun _ _ hlast => hlast) (fun _ => le_rfl) (by simp) ?_ (by simp)
        · exact .inl (view_setInvoke_eq s b (by rw [hpc]; rfl))
        · intro c' rest' hq
          cases hq
          exact ⟨b', hstatus⟩
  | compareExchange c rest =>
    have hrun : s.invoke b ≠ .notStarted := by rw [hpc]; simp
    by_cases hlast : s.lastSlot c = some b
    · simp only [hlast, if_true]
      refine h.of_invoke (s.setLast c none) (.release rest) hrun ?_
        ⟨h.counts.handed, h.counts.countdown⟩ rfl rfl rfl ?_ (fun _ => le_rfl) (by simp) (by simp)
        (by simp)
      · refine .inr ?_
        rw [view_setInvoke, view_setLast]
        exact .leave (view_release hpc) (h.view_started hrun) hlast
      · intro x c' hx
        rw [lastSlot_setLast] at hx
        grind
    · simp only [hlast, if_false]
      refine h.of_invoke s (.isReady c rest) hrun ?_ h.counts rfl rfl rfl
        (fun _ _ hlast => hlast) (fun _ => le_rfl) ?_ (by simp) (by simp)
      · exact .inl (view_setInvoke_eq s b (by rw [hpc]; rfl))
      · intro c' rest' hq
        cases hq
        exact hlast
  | isReady c rest =>
    have hrun : s.invoke b ≠ .notStarted := by rw [hpc]; simp
    have hc := h.mem_cowns (congrArg Release.toRelease (view_release hpc))
    by_cases hready : s.status b c = .ready
    · simp only [hready, if_true]
      exact ⟨.inl rfl, h⟩
    · simp only [hready, if_false]
      refine h.of_invoke s (.getBehaviour c rest) hrun ?_ h.counts rfl rfl rfl
        (fun _ _ hlast => hlast) (fun _ => le_rfl) (by simp) ?_ (by simp)
      · exact .inl (view_setInvoke_eq s b (by rw [hpc]; rfl))
      · intro c' rest' hq
        cases hq
        cases hstatus : s.status b c with
        | wait => exact absurd hstatus (h.status_ne_wait hrun hc)
        | ready => exact absurd hstatus hready
        | behaviour b' => exact ⟨b', rfl⟩
  | getBehaviour c rest =>
    have hrun : s.invoke b ≠ .notStarted := by rw [hpc]; simp
    obtain ⟨b', hstatus⟩ := h.linked b c rest hpc
    simp only [hstatus]
    refine h.of_invoke s (.load c rest b') hrun ?_ h.counts rfl rfl rfl
      (fun _ _ hlast => hlast) (fun _ => le_rfl) (by simp) (by simp) (by simp)
    refine .inr ?_
    rw [view_setInvoke]
    exact .pass (view_release hpc) (h.view_started hrun) hstatus
  | load c rest b' =>
    have hrun : s.invoke b ≠ .notStarted := by rw [hpc]; simp
    have hnot := h.not_resolved_of_resolves (congrArg Release.resolves (view_release hpc))
    by_cases hcount : s.execCountDown b' = 1
    · simp only [hcount, if_true]
      refine h.of_invoke (s.resolveLoad b' 1) (.release rest) hrun ?_
        (h.counts.resolveLoad hnot hcount) rfl rfl rfl (fun _ _ hlast => hlast)
        (fun _ => handed_le_resolveLoad ..) (by simp) (by simp) (by simp)
      refine .inr ?_
      rw [view_setInvoke, view_resolveLoad]
      exact .resolveNext (view_release hpc)
    · simp only [hcount, if_false]
      refine h.of_invoke s (.fetchSub c rest b') hrun ?_ h.counts rfl rfl rfl
        (fun _ _ hlast => hlast) (fun _ => le_rfl) (by simp) (by simp) (by simp)
      exact .inl (view_setInvoke_eq s b (by rw [hpc]; rfl))
  | fetchSub c rest b' =>
    have hrun : s.invoke b ≠ .notStarted := by rw [hpc]; simp
    have hnot := h.not_resolved_of_resolves (congrArg Release.resolves (view_release hpc))
    refine h.of_invoke (s.resolveSub b' 1) (.release rest) hrun ?_
      (h.counts.resolveSub hnot) rfl rfl rfl (fun _ _ hlast => hlast)
      (fun _ => handed_le_resolveSub ..) (by simp) (by simp) (by simp)
    refine .inr ?_
    rw [view_setInvoke, view_resolveSub]
    exact .resolveNext (view_release hpc)

/-- The first state. -/
theorem init : (P.init).Sound P where
  consistent := by
    refine ⟨⟨fun _ => [], P.cowns, []⟩, ?_, ?_, ?_, ?_⟩
    · refine ⟨fun b => ⟨List.suffix_rfl, ?_, ?_, fun _ => rfl, List.suffix_rfl, ?_⟩,
        fun b => List.suffix_rfl, fun b _ => ⟨rfl, rfl⟩⟩
      · intro c p hq
        cases hq
      · intro hq
        cases hq
      · intro hq
        cases hq
    · refine ⟨fun _ => rfl, fun _ => List.nodup_nil, ?_, ?_, ?_, ?_, ?_⟩
      · intro c b
        refine iff_of_false (List.not_mem_nil) ?_
        rintro ⟨hc, hnot, -⟩
        exact hnot (P.mem_order.mpr hc)
      · intro b c hc
        exact iff_of_true rfl hc
      · intro b c p hq
        cases hq
      · intro c p b hp
        cases hp
      · intro c p b hadj
        exact absurd hadj not_adjacent_nil
    · refine ⟨P.nodup, ?_, ?_, ?_, ?_⟩
      · intro b c
        refine ⟨fun hc => ⟨hc, .inl (P.mem_order.mpr hc)⟩, fun hc => hc.1⟩
      · intro p c b hq
        cases hq
      · intro p p' c b hq
        cases hq
      · intro b
        change 0 + (P.cowns b).length + 1 = _
        omega
    · refine ⟨List.nodup_nil, ?_, ?_, ?_⟩
      · intro b
        exact iff_of_false (List.not_mem_nil) (by simp [Behaviours.view, Behaviours.init,
          SchedulePc.progress])
      · intro c p b hbefore
        exact absurd hbefore.left_mem List.not_mem_nil
      · intro c p b hbefore
        exact absurd hbefore.left_mem List.not_mem_nil
  counts := by
    refine ⟨fun b => ?_, fun b _ => ?_⟩
    · change 0 = if 0 = (P.cowns b).length + 1 then 1 else 0
      rw [if_neg (by omega)]
    · change ((P.cowns b).length : ℤ) + 1 = (P.cowns b).length + 1 - (0 : ℕ)
      simp
  owes := fun b _ => Nat.one_ne_zero
  started := fun b hb => absurd rfl hb
  linking := fun b c rest ec prev hb => by cases hb
  followed := fun b c rest hb => by cases hb
  linked := fun b c rest hb => by cases hb
  running := fun b hb => by cases hb
  finite := by
    refine Set.finite_empty.subset ?_
    intro b hb
    exact absurd rfl hb

/-- Every step follows the protocol and keeps the invariant. -/
theorem step {s' : State β κ} (h : s.Sound P) (hstep : P.Step s s') :
    P.Follows s s' ∧ s'.Sound P := by
  cases hstep with
  | schedule b => exact h.schedule b
  | invoke b => exact h.invoke b
  | @call b hb =>
    have hview : P.view (s.setSched b (.exchange (P.order b) 1)) = P.view s :=
      view_setSched_eq s b (by rw [hb]; rfl)
    refine ⟨.inl hview, hview ▸ h.consistent, ⟨h.counts.handed, h.counts.countdown⟩, ?_, h.started,
      ?_, h.followed, h.linked, h.running, ?_⟩
    · intro x hx
      have hold := h.owes x
      rw [sched_setSched] at hx ⊢
      split
      · exact Nat.one_ne_zero
      · next hxb =>
        rw [if_neg hxb] at hx
        exact hold hx
    · intro x c rest ec prev hx
      rw [sched_setSched] at hx
      split at hx
      · cases hx
      · exact h.linking x c rest ec prev hx
    · refine (h.finite.insert b).subset ?_
      intro x hx
      have hx : (s.setSched b (.exchange (P.order b) 1)).sched x ≠ .notCalled := hx
      rw [sched_setSched] at hx
      split at hx
      · next hxb => exact .inl hxb
      · exact .inr hx
  | @start b hb hhanded =>
    have hview : P.view (s.setInvoke b .body) = P.view s :=
      view_setInvoke_eq s b (by rw [hb]; rfl)
    refine ⟨.inl hview, hview ▸ h.consistent, ⟨h.counts.handed, h.counts.countdown⟩, h.owes, ?_,
      h.linking, ?_, ?_, ?_, h.finite⟩
    · intro x hx
      rw [invoke_setInvoke] at hx
      split at hx
      · next hxb =>
        rw [hxb]
        exact Nat.ne_zero_of_lt hhanded
      · exact h.started x hx
    · intro x c rest hx
      rw [invoke_setInvoke] at hx
      split at hx
      · cases hx
      · exact h.followed x c rest hx
    · intro x c rest hx
      rw [invoke_setInvoke] at hx
      split at hx
      · cases hx
      · exact h.linked x c rest hx
    · intro x
      rw [invoke_setInvoke]
      split
      · simp
      · exact h.running x

/-- All runs keep the invariant. -/
theorem runs {s' : State β κ} (h : s.Sound P) (hruns : P.Runs s s') : s'.Sound P := by
  induction hruns with
  | refl => exact h
  | tail _ hstep ih => exact (ih.step hstep).2

end State.Sound

/-- The invariant holds in all reachable states. -/
theorem Behaviours.Reachable.sound {s : State β κ} (h : P.Reachable s) : s.Sound P :=
  State.Sound.init.runs h

end VeronaRt
