import Mathlib.Algebra.BigOperators.Finprod
import VeronaFs.Runtime.Exclusion
import VeronaFs.Runtime.Object

/-!
# The references to cowns

As long as a cown is part of a chain the scheduler has one reference to it.  The behaviour that finds
the chain empty acquires this reference, or keeps the one that its caller transferred; the behaviour
that leaves the chain empty releases it.

The calls of the chains are those of `BehaviourCore`.  A call that changes a count does so in a step
of its own, behind the step after which the source does it.
-/

set_option linter.unusedSectionVars false

namespace VeronaRt

/-! ## Code -/

/-- The chains with the counts of the cowns. -/
structure Counted (β κ : Type*) where
  /-- The chains. -/
  core : State β κ
  /-- The strong count of a cown. -/
  strong : κ → ℕ
  /-- The references outside the scheduler.  No step of the scheduler reads it. -/
  outside : κ → ℕ
  /-- The cown that a call of `schedule` acquires next. -/
  acquiring : β → Option κ
  /-- The cown whose transferred reference a call of `schedule` releases next. -/
  returning : β → Option κ
  /-- The cown that a call of `Slot::release` releases next. -/
  releasing : β → Option κ

namespace Counted

variable {β κ : Type*} [DecidableEq β] [LinearOrder κ] (P : Behaviours β κ)
  (transfer : β → TransferOwnership)

/-- `Cown::acquire`. -/
def acquire (s : Counted β κ) (c : κ) : Counted β κ :=
  { s with strong := Function.update s.strong c (s.strong c + 1) }

/-- `Cown::release`. -/
def release (s : Counted β κ) (c : κ) : Counted β κ :=
  { s with strong := Function.update s.strong c (s.strong c - 1) }

/-- The exchange found an empty chain, and the caller keeps its reference. -/
def toAcquire (s : Counted β κ) (b : β) : Option κ :=
  match s.core.sched b with
  | .exchange (c :: _) _ =>
    if s.core.lastSlot c = none ∧ transfer b = .noTransfer then some c else none
  | _ => none

/-- The wait is over, and the chain has its reference already. -/
def toReturn (s : Counted β κ) (b : β) : Option κ :=
  match s.core.sched b with
  | .isWait c _ _ prev =>
    if s.core.status prev c ≠ .wait ∧ transfer b = .yesTransfer then some c else none
  | _ => none

/-- The compare-exchange succeeds. -/
def toRelease (s : Counted β κ) (b : β) : Option κ :=
  match s.core.invoke b with
  | .compareExchange c _ => if s.core.lastSlot c = some b then some c else none
  | _ => none

/-- One step of `schedule(b)`. -/
def scheduleStep (s : Counted β κ) (b : β) : Counted β κ :=
  match s.acquiring b, s.returning b with
  | some c, _ => { s.acquire c with acquiring := Function.update s.acquiring b none }
  | none, some c => { s.release c with returning := Function.update s.returning b none }
  | none, none =>
    { s with
      core := P.scheduleStep s.core b
      acquiring := Function.update s.acquiring b (s.toAcquire transfer b)
      returning := Function.update s.returning b (s.toReturn transfer b) }

/-- One step of the run of `b`. -/
def invokeStep (s : Counted β κ) (b : β) : Counted β κ :=
  match s.releasing b with
  | some c => { s.release c with releasing := Function.update s.releasing b none }
  | none =>
    { s with
      core := P.invokeStep s.core b
      releasing := Function.update s.releasing b (s.toRelease b) }

/-- Nothing exists. -/
def init : Counted β κ where
  core := P.init
  strong _ := 0
  outside _ := 0
  acquiring _ := none
  returning _ := none
  releasing _ := none

/-- The references of the caller become those of the call. -/
def give (s : Counted β κ) (b : β) : κ → ℕ := fun c =>
  match transfer b with
  | .noTransfer => s.outside c
  | .yesTransfer => if c ∈ P.cowns b then s.outside c - 1 else s.outside c

/-- The steps of the scheduler and of the holders of references. -/
inductive Move : Counted β κ → Counted β κ → Prop
  /-- A new cown with its first reference. -/
  | create {s : Counted β κ} {c : κ} (hstrong : s.strong c = 0) (hout : s.outside c = 0)
      (hlast : s.core.lastSlot c = none) :
      Move s { s with
        strong := Function.update s.strong c 1
        outside := Function.update s.outside c 1 }
  /-- One more reference to a live cown. -/
  | acquire {s : Counted β κ} {c : κ} (hstrong : 0 < s.strong c) :
      Move s { s.acquire c with outside := Function.update s.outside c (s.outside c + 1) }
  /-- A reference is dropped. -/
  | release {s : Counted β κ} {c : κ} (hout : 0 < s.outside c) :
      Move s { s.release c with outside := Function.update s.outside c (s.outside c - 1) }
  /-- `schedule(b)` is called.  A reference that is given away has to be there. -/
  | call {s : Counted β κ} {b : β} (h : s.core.sched b = .notCalled)
      (hgive : transfer b = .yesTransfer → ∀ c ∈ P.cowns b, 0 < s.outside c) :
      Move s { s with
        core := s.core.setSched b (.exchange (P.order b) 1)
        outside := s.give P transfer b }
  /-- A call of `schedule` goes on. -/
  | schedule (s : Counted β κ) (b : β) : Move s (s.scheduleStep P transfer b)
  /-- The scheduler starts a behaviour that it was given. -/
  | start {s : Counted β κ} {b : β} (h : s.core.invoke b = .notStarted)
      (hhanded : 0 < s.core.handed b) :
      Move s { s with core := s.core.setInvoke b .body }
  /-- A run goes on. -/
  | invoke (s : Counted β κ) (b : β) : Move s (s.invokeStep P b)

/-- Somebody outside has a reference, or the body of a behaviour on the cown runs. -/
def Usable (s : Counted β κ) (c : κ) : Prop :=
  0 < s.outside c ∨ ∃ b, c ∈ P.cowns b ∧ s.core.invoke b = .body

/-- A call of `schedule` is in progress. -/
def Calling (s : Counted β κ) (b : β) : Prop :=
  s.core.sched b ≠ .notCalled ∧ s.core.sched b ≠ .returned

/-- A caller that keeps its references keeps them until the call is over. -/
def Lent (s : Counted β κ) : Prop :=
  ∀ b, transfer b = .noTransfer → s.Calling b → ∀ c ∈ P.cowns b, s.Usable P c

/-- The steps, with callers that keep what they lend. -/
def Step (s s' : Counted β κ) : Prop := Move P transfer s s' ∧ s'.Lent P transfer

/-- The states that the steps reach. -/
def Reachable (s : Counted β κ) : Prop := Relation.ReflTransGen (Step P transfer) (init P) s

end Counted

/-! ## Accesses to behaviours -/

/-- The behaviours whose memory the next step of the call of `schedule` for `b` reads or writes. -/
def SchedulePc.accesses {β κ : Type*} (b : β) : SchedulePc β κ → List β
  | .notCalled => []
  | .exchange _ _ => [b]
  | .isWait _ _ _ prev => [prev]
  | .setBehaviour _ _ _ prev => [prev]
  | .setReady _ _ => [b]
  | .load _ => [b]
  | .fetchSub _ => [b]
  | .returned => []

/-- The behaviours whose memory the next step of the run of `b` reads or writes. -/
def InvokePc.accesses {β κ : Type*} (b : β) : InvokePc β κ → List β
  | .notStarted => [b]
  | .load _ _ b' => [b, b']
  | .fetchSub _ _ b' => [b, b']
  | .done => []
  | _ => [b]

/-- The calls access no behaviour that is deallocated. -/
theorem State.Sound.accesses {β κ : Type*} [DecidableEq β] [LinearOrder κ] {P : Behaviours β κ}
    {s : State β κ} (h : s.Sound P) (b x : β)
    (hx : x ∈ (s.sched b).accesses b ∨ x ∈ (s.invoke b).accesses b) : s.invoke x ≠ .done := by
  obtain ⟨g, hg⟩ := h.consistent
  have hcall : s.sched b ≠ .returned → s.invoke b ≠ .done := by
    intro hne
    rw [h.not_started hne]
    simp
  -- a predecessor stands in a chain and has not left it
  have hprev : ∀ c, ((P.view s).acquire b).follows = some (c, x) → s.invoke x ≠ .done := by
    intro c hfollows hdone
    have hadj := hg.chained.follows b c x hfollows
    have hrel := ((hg.chained.mem_queue c x).mp hadj.left_mem).2.2
    rw [view_release hdone] at hrel
    cases hrel
  -- a successor that is resolved has not run
  have hnext : ∀ c, ((P.view s).release b).resolves = some (c, x) → s.invoke x ≠ .done := by
    intro c hres hdone
    refine hg.not_started_of_due (hg.due_of_resolves hres) (h.view_started ?_)
    rw [hdone]
    simp
  rcases hx with hx | hx
  · cases hpc : s.sched b with
    | notCalled => simp [hpc, SchedulePc.accesses] at hx
    | returned => simp [hpc, SchedulePc.accesses] at hx
    | isWait c rest ec prev =>
      obtain rfl : x = prev := by simpa [hpc, SchedulePc.accesses] using hx
      exact hprev c (by rw [view_acquire hpc]; rfl)
    | setBehaviour c rest ec prev =>
      obtain rfl : x = prev := by simpa [hpc, SchedulePc.accesses] using hx
      exact hprev c (by rw [view_acquire hpc]; rfl)
    | _ =>
      obtain rfl : x = b := by simpa [hpc, SchedulePc.accesses] using hx
      exact hcall (by rw [hpc]; simp)
  · cases hpc : s.invoke b with
    | done => simp [hpc, InvokePc.accesses] at hx
    | load c rest b' =>
      rcases List.mem_cons.mp (hpc ▸ hx) with rfl | hx'
      · rw [hpc]
        simp
      · obtain rfl := List.mem_singleton.mp hx'
        exact hnext c (by rw [view_release hpc]; rfl)
    | fetchSub c rest b' =>
      rcases List.mem_cons.mp (hpc ▸ hx) with rfl | hx'
      · rw [hpc]
        simp
      · obtain rfl := List.mem_singleton.mp hx'
        exact hnext c (by rw [view_release hpc]; rfl)
    | _ =>
      obtain rfl : x = b := by simpa [hpc, InvokePc.accesses] using hx
      rw [hpc]
      simp

end VeronaRt
