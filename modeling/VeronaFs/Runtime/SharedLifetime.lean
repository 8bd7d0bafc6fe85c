import Mathlib.Tactic.IntervalCases
import VeronaFs.Runtime.Shared

/-!
# The lifetime of a shared object

The strong count is the number of strong references, and the weak count the number of weak references
together with those that calls in progress hold or owe.  Whoever takes the strong count to zero has a
weak count in hand: it is spent on the collection when the object is finished, and given to the
revived reference otherwise.
-/

namespace VeronaRt.Shared

open Foundation

/-! ## The invariant -/

/-- The balance of the references and of the duties, after a run with the events `tr`. -/
structure Balanced (tr : List Event) (c : Calls.Config Object Pc) : Prop where
  /-- The strong count is the number of strong references. -/
  strong : c.state.rc.count = c.state.strongRefs + Calls.total Pc.strong c.calls
  /-- The weak count is what its holders will release. -/
  weak : c.state.weakCount =
    c.state.rc.weakCounts + c.state.weakRefs + Calls.total Pc.weakCounts c.calls
  /-- While the strong count is zero somebody tries to finish it. -/
  finishing : c.state.rc = .live 0 → 0 < Calls.total (Pc.at .finish) c.calls
  /-- The object is queued by the call that finished it. -/
  queued : tr.count .queueCollect + Calls.total (Pc.at .queueCollect) c.calls = c.state.rc.ended
  /-- It is collected by this call. -/
  collected : tr.count .collect + Calls.total (Pc.at .queueCollect) c.calls +
    Calls.total (Pc.at .collect) c.calls = c.state.rc.ended
  /-- It is deallocated by the call that took the weak count to zero. -/
  dealloced : tr.count .dealloc + Calls.total (Pc.at .dealloc) c.calls =
    if c.state.weakCount = 0 then 1 else 0
  /-- A promotion fails on a finished object only. -/
  failed : .promoted false ∈ tr → c.state.rc.ended = 1
  /-- So does the store that follows it. -/
  restoring : 0 < Calls.total (Pc.at .restore) c.calls → c.state.rc.ended = 1

/-- A new object is balanced. -/
theorem balanced_new : Balanced [] new := by
  refine ⟨rfl, rfl, ?_, rfl, rfl, rfl, by simp, by simp [new]⟩
  intro h
  cases h

/-- A call that starts keeps the balance. -/
theorem Balanced.startStep {tr : List Event} {o o' : Object} {p : Pc} {rest : Multiset Pc}
    (h : Balanced tr ⟨o, rest⟩) (hstart : Starts o p o') : Balanced tr ⟨o', p ::ₘ rest⟩ := by
  obtain ⟨hstrong, hweak, hfin, hqueued, hcollected, hdealloced, hfailed, hrestoring⟩ := h
  cases hstart <;>
  · refine ⟨?_, ?_, ?_, ?_, ?_, ?_, hfailed, ?_⟩ <;>
    simp only [Calls.total_cons, Pc.strong, Pc.weakCounts, Pc.at, reduceCtorEq, if_false] at * <;>
    grind

/-- A weak count that a holder will release is positive. -/
theorem Balanced.weakCount_pos {tr : List Event} {c : Calls.Config Object Pc} (h : Balanced tr c)
    {p : Pc} (hp : p ∈ c.calls) (hholds : 0 < p.weakCounts ∨ 0 < p.strong) :
    0 < c.state.weakCount := by
  have hweak := h.weak
  rcases hholds with hpos | hpos
  · have hle := Calls.le_total (w := Pc.weakCounts) hp
    omega
  · have hle := Calls.le_total (w := Pc.strong) hp
    have hstrong := h.strong
    cases hrc : c.state.rc with
    | live n =>
      rw [hrc] at hweak hstrong
      simp only [Rc.count, Rc.weakCounts] at hstrong hweak
      split at hweak <;> omega
    | finished k =>
      rw [hrc] at hstrong
      simp only [Rc.count] at hstrong
      omega

/-- A step of a call keeps the balance. -/
theorem Balanced.codeStep {tr : List Event} {o : Object} {p : Pc} {e : Effect} {rest : Multiset Pc}
    (h : Balanced tr ⟨o, p ::ₘ rest⟩) (hcode : code p o = some e) :
    Balanced (tr ++ e.events) ⟨e.state, Calls.resume e.next rest⟩ := by
  have hpos := h.weakCount_pos (Multiset.mem_cons_self p rest)
  obtain ⟨hstrong, hweak, hfin, hqueued, hcollected, hdealloced, hfailed, hrestoring⟩ := h
  obtain ⟨rc, weakCount, strongRefs, weakRefs⟩ := o
  simp only [Calls.total_cons] at hpos hstrong hweak hfin hqueued hcollected hdealloced hrestoring
  cases p with
  | acquire =>
    cases rc <;>
    · obtain rfl := Option.some.inj hcode
      exact ⟨by grind, by grind, by grind, by grind, by grind, by grind, by grind, by grind⟩
  | decrefAssert =>
    simp only [Shared.code, decrefAssert] at hcode
    split at hcode
    · obtain rfl := Option.some.inj hcode
      exact ⟨by grind, by grind, by grind, by grind, by grind, by grind, by grind, by grind⟩
    · cases hcode
  | decref =>
    simp only [Shared.code, decref] at hcode
    split at hcode
    · obtain rfl := Option.some.inj hcode
      exact ⟨by grind, by grind, by grind, by grind, by grind, by grind, by grind, by grind⟩
    · obtain rfl := Option.some.inj hcode
      exact ⟨by grind, by grind, by grind, by grind, by grind, by grind, by grind, by grind⟩
    · cases hcode
  | finish =>
    simp only [Shared.code, finish] at hcode
    split at hcode
    · obtain rfl := Option.some.inj hcode
      exact ⟨by grind, by grind, by grind, by grind, by grind, by grind, by grind, by grind⟩
    · obtain rfl := Option.some.inj hcode
      exact ⟨by grind, by grind, by grind, by grind, by grind, by grind, by grind, by grind⟩
  | queueCollect =>
    obtain rfl := Option.some.inj hcode
    exact ⟨by grind, by grind, by grind, by grind, by grind, by grind, by grind, by grind⟩
  | collect =>
    obtain rfl := Option.some.inj hcode
    exact ⟨by grind, by grind, by grind, by grind, by grind, by grind, by grind, by grind⟩
  | weakRelease =>
    simp only [Shared.code, weakRelease] at hcode
    split at hcode
    · cases hcode
    · obtain rfl := Option.some.inj hcode
      exact ⟨by grind, by grind, by grind, by grind, by grind, by grind, by grind, by grind⟩
    · obtain rfl := Option.some.inj hcode
      exact ⟨by grind, by grind, by grind, by grind, by grind, by grind, by grind, by grind⟩
  | dealloc =>
    obtain rfl := Option.some.inj hcode
    exact ⟨by grind, by grind, by grind, by grind, by grind, by grind, by grind, by grind⟩
  | weakAssert h =>
    simp only [Shared.code, weakAssert] at hcode
    split at hcode
    · obtain rfl := Option.some.inj hcode
      exact ⟨by grind, by grind, by grind, by grind, by grind, by grind, by grind, by grind⟩
    · cases hcode
  | weakAcquire h =>
    obtain rfl := Option.some.inj hcode
    cases h <;>
    · exact ⟨by grind, by grind, by grind, by grind, by grind, by grind, by grind, by grind⟩
  | promote =>
    simp only [Shared.code, promote] at hcode
    split at hcode
    · obtain rfl := Option.some.inj hcode
      exact ⟨by grind, by grind, by grind, by grind, by grind, by grind, by grind, by grind⟩
    · obtain rfl := Option.some.inj hcode
      exact ⟨by grind, by grind, by grind, by grind, by grind, by grind, by grind, by grind⟩
    · obtain rfl := Option.some.inj hcode
      exact ⟨by grind, by grind, by grind, by grind, by grind, by grind, by grind, by grind⟩
  | restore =>
    obtain rfl := Option.some.inj hcode
    cases rc with
    | live n =>
      have hended := hrestoring (by grind)
      cases hended
    | finished k =>
      exact ⟨by grind, by grind, by grind, by grind, by grind, by grind, by grind, by grind⟩

/-- Every run keeps the balance. -/
theorem balanced {tr : List Event} {c : Calls.Config Object Pc} (h : system.Run new tr c) :
    Balanced tr c := by
  refine h.invariant (P := Balanced) balanced_new ?_
  intro tr c es c' hbal hstep
  cases hstep with
  | start hstart =>
    rw [List.append_nil]
    exact hbal.startStep hstart
  | code hcode => exact hbal.codeStep hcode

/-! ## What the balance says -/

/-- No strong reference is owned or in use. -/
def NoStrong (c : Calls.Config Object Pc) : Prop :=
  c.state.strongRefs = 0 ∧ ∀ p ∈ c.calls, p.strong = 0

/-- No weak reference is owned or in use. -/
def NoWeak (c : Calls.Config Object Pc) : Prop :=
  c.state.weakRefs = 0 ∧ ∀ p ∈ c.calls, p.weak = 0

namespace Balanced

variable {tr : List Event} {c : Calls.Config Object Pc}

/-- A call at a program counter counts. -/
theorem at_pos {q : Pc} (h : q ∈ c.calls) : 0 < Calls.total (Pc.at q) c.calls := by
  have hle := Calls.le_total (w := Pc.at q) h
  simp only [Pc.at, if_true] at hle
  exact hle

/-- Nobody has a strong reference to an object whose strong count is zero. -/
theorem noStrong (h : Balanced tr c) (hzero : c.state.rc.count = 0) : NoStrong c := by
  have hstrong := h.strong
  have htotal : Calls.total Pc.strong c.calls = 0 := by omega
  exact ⟨by omega, Calls.total_eq_zero.mp htotal⟩

/-- A finished object has no strong count. -/
theorem count_eq_zero {rc : Rc} (h : rc.ended = 1) : rc.count = 0 := by
  cases rc with
  | live n => cases h
  | finished k => rfl

/-- An object without a weak count is finished, and nobody has a reference to it. -/
theorem of_weakCount_eq_zero (h : Balanced tr c) (hzero : c.state.weakCount = 0) :
    c.state.rc.ended = 1 ∧ NoStrong c ∧ NoWeak c ∧ tr.count .collect = 1 := by
  have hweak := h.weak
  have htotal : Calls.total Pc.weakCounts c.calls = 0 := by omega
  have hcalls : ∀ p ∈ c.calls, p.weakCounts = 0 := Calls.total_eq_zero.mp htotal
  have hended : c.state.rc.ended = 1 := by
    cases hrc : c.state.rc with
    | live n =>
      rw [hrc] at hweak
      have hn : n = 0 := by
        by_contra hn
        simp only [Rc.weakCounts, if_neg hn] at hweak
        omega
      obtain ⟨p, hp, hpos⟩ := Calls.exists_of_total_pos (h.finishing (by rw [hrc, hn]))
      have hpf : p = .finish := by
        by_contra hne
        simp [Pc.at, hne] at hpos
      have hone := hcalls p hp
      rw [hpf] at hone
      cases hone
    | finished k => rfl
  have hstrong : NoStrong c := h.noStrong (count_eq_zero hended)
  refine ⟨hended, hstrong, ⟨by omega, fun p hp => ?_⟩, ?_⟩
  · have hs := hstrong.2 p hp
    have hw := hcalls p hp
    cases p with
    | weakAssert k => cases k <;> grind
    | weakAcquire k => cases k <;> grind
    | _ => grind
  · have hcollected := h.collected
    have hnone : ∀ q : Pc, q.weakCounts = 1 → Calls.total (Pc.at q) c.calls = 0 := by
      intro q hq
      refine Calls.total_eq_zero.mpr fun p hp => ?_
      have hw := hcalls p hp
      grind
    rw [hnone .queueCollect rfl, hnone .collect rfl, hended] at hcollected
    exact hcollected

/-- A step of a call never fails. -/
theorem isSome_code (h : Balanced tr c) {p : Pc} (hp : p ∈ c.calls) :
    (code p c.state).isSome := by
  have hpos := h.weakCount_pos hp
  have hstrong := h.strong
  have hle := Calls.le_total (w := Pc.strong) hp
  have hrc : 0 < p.strong → ∃ n, c.state.rc = .live (n + 1) := by
    intro hp
    cases hrc : c.state.rc with
    | live n =>
      rw [hrc] at hstrong
      simp only [Rc.count] at hstrong
      exact ⟨n - 1, by rw [Nat.sub_add_cancel (by omega)]⟩
    | finished k =>
      rw [hrc] at hstrong
      simp only [Rc.count] at hstrong
      omega
  cases p with
  | acquire =>
    obtain ⟨n, hn⟩ := hrc Nat.one_pos
    simp [Shared.code, acquire, hn]
  | decrefAssert =>
    obtain ⟨n, hn⟩ := hrc Nat.one_pos
    simp [Shared.code, decrefAssert, hn]
  | decref =>
    obtain ⟨n, hn⟩ := hrc Nat.one_pos
    cases n <;> simp [Shared.code, decref, hn]
  | finish =>
    simp only [Shared.code, finish]
    split <;> rfl
  | weakRelease =>
    have hw := hpos (.inl Nat.one_pos)
    obtain ⟨n, hn⟩ := Nat.exists_eq_succ_of_ne_zero hw.ne'
    cases n <;> simp [Shared.code, weakRelease, hn]
  | weakAssert k =>
    have hw : 0 < c.state.weakCount := hpos (by cases k <;> simp)
    simp [Shared.code, weakAssert, hw]
  | promote =>
    simp only [Shared.code, promote]
    split <;> rfl
  | _ => rfl

end Balanced

/-! ## Calls return -/

/-- How many steps a call takes at most. -/
def Pc.rank : Pc → ℕ
  | .acquire => 0
  | .decrefAssert => 6
  | .decref => 5
  | .finish => 4
  | .queueCollect => 3
  | .collect => 2
  | .weakRelease => 1
  | .dealloc => 0
  | .weakAssert _ => 1
  | .weakAcquire _ => 0
  | .promote => 2
  | .restore => 0

/-- Every step of a call lowers its rank, and has one event at most. -/
theorem code_rank {p : Pc} {o : Object} {e : Effect} (h : code p o = some e) :
    (∀ q, e.next = some q → q.rank < p.rank) ∧ e.events.length ≤ 1 := by
  cases p <;> simp only [code, acquire, decrefAssert, decref, finish, weakRelease, weakAssert,
    weakAcquire, promote] at h
  all_goals
    try split at h
  all_goals first
    | cases h; done
    | obtain rfl := Option.some.inj h
      simp [Pc.rank]

/-- The calls in progress return, in every order of their steps. -/
theorem calls_return : WellFounded fun c' c => system.CodeStep c c' :=
  Calls.wellFounded_codeStep Pc.rank fun _ _ _ h => (code_rank h).1

/-! ## Order -/

/-- The run up to an event, with the call that causes it. -/
theorem run_split {tr₁ tr₂ : List Event} {x : Event} {c : Calls.Config Object Pc}
    (h : system.Run new (tr₁ ++ x :: tr₂) c) :
    ∃ c₁ p e, Balanced tr₁ c₁ ∧ p ∈ c₁.calls ∧ code p c₁.state = some e ∧ e.events = [x] := by
  obtain ⟨c₁, c₂, hrun, hstep, -⟩ :=
    Calls.Run.split (fun _ _ _ hcode => (code_rank hcode).2) h
  obtain ⟨p, e, hp, hcode, hevents⟩ := hstep.exists_code (List.cons_ne_nil x [])
  exact ⟨c₁, p, e, balanced hrun, hp, hcode, hevents⟩

/-- The object is collected before it is deallocated. -/
theorem collected_before {tr₁ tr₂ : List Event} {c : Calls.Config Object Pc}
    (h : system.Run new (tr₁ ++ .dealloc :: tr₂) c) : .collect ∈ tr₁ := by
  obtain ⟨c₁, p, e, hbal, hp, hcode, hevents⟩ := run_split h
  have hpd : p = .dealloc := by
    cases p <;> simp only [code, acquire, decrefAssert, decref, finish, weakRelease, weakAssert,
      weakAcquire, promote] at hcode
    all_goals
      try split at hcode
    all_goals first
      | rfl
      | cases hcode; done
      | obtain rfl := Option.some.inj hcode
        cases hevents
  subst hpd
  have hdealloced := hbal.dealloced
  have hpos := Balanced.at_pos hp
  split at hdealloced
  · next hzero =>
    obtain ⟨-, -, -, hcollect⟩ := hbal.of_weakCount_eq_zero hzero
    exact List.count_pos_iff.mp (by omega)
  · omega

/-- A promotion that succeeds was made before all that fail. -/
theorem promoted_before {tr₁ tr₂ : List Event} {c : Calls.Config Object Pc}
    (h : system.Run new (tr₁ ++ .promoted true :: tr₂) c) : .promoted false ∉ tr₁ := by
  obtain ⟨c₁, p, e, hbal, hp, hcode, hevents⟩ := run_split h
  intro hfailed
  have hended := hbal.failed hfailed
  cases hrc : c₁.state.rc with
  | live n =>
    rw [hrc] at hended
    cases hended
  | finished k =>
    cases p <;> simp only [code, acquire, decrefAssert, decref, finish, weakRelease, weakAssert,
      weakAcquire, promote, hrc] at hcode
    all_goals
      try split at hcode
    all_goals first
      | cases hcode; done
      | obtain rfl := Option.some.inj hcode
        cases hevents

/-- Every shared object is collected once when its strong references are gone, and deallocated once
when it was collected and its weak references are gone too.  A promotion fails after a failed one.  No
assertion fails, and all calls return. -/
theorem shared_lifetime {tr : List Event} {c : Calls.Config Object Pc} (h : system.Run new tr c) :
    (tr.count .queueCollect ≤ 1 ∧ tr.count .collect ≤ tr.count .queueCollect ∧
      (.queueCollect ∈ tr → NoStrong c) ∧
      (c.calls = 0 → c.state.strongRefs = 0 → tr.count .queueCollect = 1)) ∧
    (tr.count .dealloc ≤ 1 ∧ (.dealloc ∈ tr → NoStrong c ∧ NoWeak c) ∧
      (∀ tr₁ tr₂, tr = tr₁ ++ .dealloc :: tr₂ → .collect ∈ tr₁) ∧
      (c.calls = 0 → c.state.strongRefs = 0 → c.state.weakRefs = 0 → tr.count .dealloc = 1)) ∧
    (∀ tr₁ tr₂, tr = tr₁ ++ .promoted false :: tr₂ → .promoted true ∉ tr₂) ∧
    (∀ p ∈ c.calls, (code p c.state).isSome) ∧
    WellFounded fun c' c => system.CodeStep c c' := by
  have hbal := balanced h
  have hended : c.state.rc.ended ≤ 1 := by cases c.state.rc <;> simp
  have hqueued := hbal.queued
  have hcollected := hbal.collected
  have hdealloced := hbal.dealloced
  have hquiet : c.calls = 0 → c.state.strongRefs = 0 → c.state.rc.ended = 1 := by
    intro hcalls hstrong
    have hcount := hbal.strong
    have hfin := hbal.finishing
    rw [hcalls] at hcount hfin
    cases hrc : c.state.rc with
    | live n =>
      rw [hrc, hstrong] at hcount
      simp only [Rc.count, Calls.total_zero] at hcount
      have hpos := hfin (by rw [hrc, hcount])
      simp at hpos
    | finished k => rfl
  refine ⟨⟨by omega, by omega, fun hmem => ?_, fun hcalls hstrong => ?_⟩,
    ⟨?_, fun hmem => ?_, ?_, fun hcalls hstrong hweak => ?_⟩, ?_, ?_, calls_return⟩
  · have hpos := List.count_pos_iff.mpr hmem
    exact hbal.noStrong (Balanced.count_eq_zero (by omega))
  · have hone := hquiet hcalls hstrong
    rw [hcalls, Calls.total_zero] at hqueued
    omega
  · split at hdealloced <;> omega
  · have hpos := List.count_pos_iff.mpr hmem
    split at hdealloced
    · next hzero =>
      obtain ⟨-, hs, hw, -⟩ := hbal.of_weakCount_eq_zero hzero
      exact ⟨hs, hw⟩
    · omega
  · rintro tr₁ tr₂ rfl
    exact collected_before h
  · have hone := hquiet hcalls hstrong
    have hcount := hbal.weak
    have hzero : c.state.weakCount = 0 := by
      rw [hcalls, Calls.total_zero, hweak] at hcount
      cases hrc : c.state.rc with
      | live n =>
        rw [hrc] at hone
        cases hone
      | finished k => rw [hcount, hrc, Rc.weakCounts]
    rw [hcalls, Calls.total_zero, if_pos hzero] at hdealloced
    exact hdealloced
  · rintro tr₁ tr₂ rfl hmem
    obtain ⟨a, b, rfl⟩ := List.append_of_mem hmem
    have hsplit : tr₁ ++ .promoted false :: (a ++ .promoted true :: b) =
        (tr₁ ++ .promoted false :: a) ++ .promoted true :: b := by simp
    rw [hsplit] at h
    exact promoted_before h (by simp)
  · intro p hp
    exact hbal.isSome_code hp

/-! ## A run -/

/-- The weak reference that an object is left with: its only strong reference was released. -/
theorem run_release :
    system.Run new [.queueCollect, .collect] ⟨⟨.finished 0, 1, 0, 1⟩, 0⟩ := by
  have h₁ : system.Run new [] ⟨⟨.live 1, 1, 0, 0⟩, {.weakAssert .strong}⟩ :=
    Calls.Run.nil.start (.weakAcquireStrong rfl)
  have h₂ : system.Run new [] ⟨⟨.live 1, 2, 1, 1⟩, 0⟩ := (h₁.next rfl).return rfl
  have h₃ : system.Run new [] ⟨⟨.live 1, 2, 0, 1⟩, {.decrefAssert}⟩ := h₂.start (.release rfl)
  have h₄ : system.Run new [] ⟨⟨.finished 0, 2, 0, 1⟩, {.queueCollect}⟩ :=
    ((h₃.next rfl).next rfl).next rfl
  exact ((h₄.next rfl).next rfl).return rfl

/-- Then a promotion fails, and the weak reference is released. -/
theorem run_dealloc :
    system.Run new [.queueCollect, .collect, .promoted false, .dealloc]
      ⟨⟨.finished 0, 0, 0, 0⟩, 0⟩ := by
  have h₁ : system.Run new [.queueCollect, .collect] ⟨⟨.finished 0, 1, 0, 0⟩, {.promote}⟩ :=
    run_release.start (.promote rfl)
  have h₂ : system.Run new [.queueCollect, .collect, .promoted false]
      ⟨⟨.finished 0, 1, 0, 1⟩, 0⟩ := (h₁.next rfl).return rfl
  have h₃ : system.Run new [.queueCollect, .collect, .promoted false]
      ⟨⟨.finished 0, 1, 0, 0⟩, {.weakRelease}⟩ := h₂.start (.weakRelease rfl)
  exact (h₃.next rfl).return rfl

/-- The lifetime of the object of this run. -/
theorem shared_lifetime_dealloc :
    ∃ tr c, system.Run new tr c ∧ .promoted false ∈ tr ∧ tr.count .queueCollect = 1 ∧
      tr.count .dealloc = 1 := by
  obtain ⟨⟨-, -, -, hcollect⟩, ⟨-, -, -, hdealloc⟩, -⟩ := shared_lifetime run_dealloc
  exact ⟨_, _, run_dealloc, by simp, hcollect rfl rfl, hdealloc rfl rfl rfl⟩

end VeronaRt.Shared
