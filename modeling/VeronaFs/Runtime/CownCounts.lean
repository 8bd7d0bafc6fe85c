import VeronaFs.Runtime.Cown

/-!
# The strong counts of cowns

The strong count of a cown is the number of the references outside the scheduler, and one more while
the cown is part of a chain, up to the references that a call is about to take or to give back.  A
behaviour that has found a chain empty stays at its head until it has acquired the cown, so no two calls
owe a reference to one cown, and the count is positive as long as a behaviour uses the cown.
-/

set_option linter.unusedSectionVars false

namespace VeronaRt

open Foundation

/-- Two sums that differ in one term. -/
theorem finsum_add_eq {α : Type*} {f f' : α → ℕ} (a : α) (hf : f.support.Finite)
    (hne : ∀ x, x ≠ a → f' x = f x) : ∑ᶠ x, f' x + f a = ∑ᶠ x, f x + f' a := by
  have hf' : f'.support.Finite := by
    refine (hf.insert a).subset ?_
    intro x hx
    by_cases hxa : x = a
    · exact .inl hxa
    · refine .inr ?_
      rwa [Function.mem_support, hne x hxa] at hx
  have hrest : ∑ᶠ (x) (_ : x ≠ a), f' x = ∑ᶠ (x) (_ : x ≠ a), f x := by
    refine finsum_congr fun x => ?_
    refine finsum_congr fun hx => hne x hx
  have hsum := add_finsum_cond_ne a hf
  have hsum' := add_finsum_cond_ne a hf'
  omega

/-- A behaviour that was not started is started at most. -/
theorem Behaviours.Step.not_started {β κ : Type*} [DecidableEq β] [LinearOrder κ]
    {P : Behaviours β κ} {core core' : State β κ} {b : β} (hstep : P.Step core core')
    (hb : core.invoke b = .notStarted) :
    core'.invoke b = .notStarted ∨ core'.invoke b = .body := by
  cases hstep with
  | call h => exact .inl hb
  | schedule x =>
    rw [Behaviours.invoke_scheduleStep]
    exact .inl hb
  | @start x h hhanded =>
    rw [State.invoke_setInvoke]
    split
    · exact .inr rfl
    · exact .inl hb
  | invoke x =>
    refine .inl ?_
    by_cases hx : b = x
    · subst hx
      rw [Behaviours.invokeStep_notStarted hb, hb]
    · rw [Behaviours.invoke_invokeStep_ne hx, hb]

/-- The references that were transferred to a call of `schedule` and that it still has. -/
def SchedulePc.unused {β κ : Type*} : SchedulePc β κ → List κ
  | .exchange rest _ => rest
  | .isWait c rest _ _ => c :: rest
  | .setBehaviour _ rest _ _ => rest
  | _ => []

namespace Counted

variable {β κ : Type*} [DecidableEq β] [LinearOrder κ] {P : Behaviours β κ}
  {transfer : β → TransferOwnership} {s s' : Counted β κ} {b : β} {c : κ}

/-! ## The transfers in progress -/

/-- The references to `c` that a call for `b` is about to acquire. -/
def takes (s : Counted β κ) (c : κ) (b : β) : ℕ := (s.acquiring b).toList.count c

/-- The references to `c` that the calls for `b` have or are about to release. -/
def gives (transfer : β → TransferOwnership) (s : Counted β κ) (c : κ) (b : β) : ℕ :=
  (if transfer b = .yesTransfer then (s.core.sched b).unused.count c else 0) +
    (s.returning b).toList.count c + (s.releasing b).toList.count c

/-- The reference of the scheduler: one while the last slot is not null. -/
def chain (s : Counted β κ) (c : κ) : ℕ := (s.core.lastSlot c).toList.length

/-! ## The invariant -/

/-- What holds in all reachable states. -/
structure Sound (P : Behaviours β κ) (transfer : β → TransferOwnership) (s : Counted β κ) :
    Prop where
  /-- The chains. -/
  core : s.core.Sound P
  /-- A call that is about to acquire a cown is at the head of the chain. -/
  heads : ∃ g, (P.view s.core).Consistent P g ∧
    ∀ b c, s.acquiring b = some c → (g.queue c).head? = some b
  /-- A call that is about to acquire a cown is one of a caller that keeps its references. -/
  acquiring : ∀ b c, s.acquiring b = some c → transfer b = .noTransfer ∧ s.Calling b
  /-- A call that is about to release a cown is in progress. -/
  returning : ∀ b c, s.returning b = some c → s.Calling b
  /-- A run that is about to release a cown has started. -/
  releasing : ∀ b c, s.releasing b = some c → s.core.invoke b ≠ .notStarted
  /-- Callers keep what they lend. -/
  lent : s.Lent P transfer
  /-- The counts. -/
  balance : ∀ c, s.strong c + ∑ᶠ b, s.takes c b =
    s.outside c + s.chain c + ∑ᶠ b, s.gives transfer c b

namespace Sound

/-- Only calls that were made take references. -/
theorem takes_support (h : s.Sound P transfer) (c : κ) : (s.takes c).support.Finite := by
  refine h.core.finite.subset ?_
  intro b hb
  rw [Function.mem_support, takes, Ne, List.count_eq_zero, not_not, Option.mem_toList] at hb
  exact (h.acquiring b c hb).2.1

/-- No call is about to release a cown for a behaviour that is not in a call. -/
theorem returning_eq (h : s.Sound P transfer) (hcall : ¬ s.Calling b) : s.returning b = none := by
  rw [Option.eq_none_iff_forall_ne_some]
  exact fun c hc => hcall (h.returning b c hc)

/-- No run is about to release a cown for a behaviour that was not started. -/
theorem releasing_eq (h : s.Sound P transfer) (hb : s.core.invoke b = .notStarted) :
    s.releasing b = none := by
  rw [Option.eq_none_iff_forall_ne_some]
  exact fun c hc => h.releasing b c hc hb

/-- Only calls that were made give references. -/
theorem gives_support (h : s.Sound P transfer) (c : κ) :
    (s.gives transfer c).support.Finite := by
  refine h.core.finite.subset ?_
  intro b hb
  by_contra hcall
  have hcall : s.core.sched b = .notCalled := by simpa using hcall
  refine hb ?_
  have hret := h.returning_eq (b := b) fun hcalling => hcalling.1 hcall
  have hrel := h.releasing_eq (h.core.not_started (b := b) (by rw [hcall]; simp))
  simp [gives, hret, hrel, hcall, SchedulePc.unused]

/-- The counts stay right when one call changes what it takes and gives. -/
theorem balance_of (h : s.Sound P transfer) (b : β)
    (htakes : ∀ x, x ≠ b → s'.takes c x = s.takes c x)
    (hgives : ∀ x, x ≠ b → s'.gives transfer c x = s.gives transfer c x)
    (heq : s'.strong c + s'.takes c b + s.outside c + s.chain c + s.gives transfer c b =
      s.strong c + s.takes c b + s'.outside c + s'.chain c + s'.gives transfer c b) :
    s'.strong c + ∑ᶠ b, s'.takes c b = s'.outside c + s'.chain c + ∑ᶠ b, s'.gives transfer c b := by
  have hold := h.balance c
  have hsum := finsum_add_eq b (h.takes_support c) htakes
  have hsum' := finsum_add_eq b (h.gives_support c) hgives
  omega

/-! ## What the counts say -/

/-- A call takes one reference, and only for a cown in a chain. -/
theorem takes_le (h : s.Sound P transfer) (c : κ) : ∑ᶠ b, s.takes c b ≤ s.chain c := by
  obtain ⟨g, hg, hheads⟩ := h.heads
  by_cases hnone : ∀ b, s.acquiring b ≠ some c
  · rw [finsum_eq_zero_of_forall_eq_zero]
    · exact Nat.zero_le _
    · exact fun b => List.count_eq_zero.mpr (by simpa using hnone b)
  push Not at hnone
  obtain ⟨b, hb⟩ := hnone
  have honly : ∀ x, x ≠ b → s.takes c x = 0 := by
    intro x hx
    refine List.count_eq_zero.mpr fun hxc => hx ?_
    rw [Option.mem_toList] at hxc
    exact Option.some.inj ((hheads x c hxc).symm.trans (hheads b c hb))
  rw [finsum_eq_single _ b honly]
  have hchain : 1 ≤ s.chain c := by
    unfold chain
    cases hlast : s.core.lastSlot c with
    | some x => exact le_rfl
    | none =>
      have hempty := hg.chained.lastSlot c
      rw [show (P.view s.core).lastSlot c = none from hlast] at hempty
      have hhead := hheads b c hb
      rw [List.getLast?_eq_none_iff.mp hempty.symm] at hhead
      cases hhead
  simpa [takes, hb] using hchain

/-- The count covers the references outside and those that calls have. -/
theorem le_strong (h : s.Sound P transfer) (c : κ) :
    s.outside c + ∑ᶠ b, s.gives transfer c b ≤ s.strong c := by
  have hbalance := h.balance c
  have htakes := h.takes_le c
  omega

/-- The references that one call has are counted. -/
theorem gives_le (h : s.Sound P transfer) (b : β) (c : κ) :
    s.gives transfer c b ≤ s.strong c :=
  (single_le_finsum b (h.gives_support c) fun _ => Nat.zero_le _).trans
    ((Nat.le_add_left ..).trans (h.le_strong c))

/-- A cown in a chain is alive. -/
theorem strong_pos_of_mem (h : s.Sound P transfer) {g : Ledger β κ}
    (hg : (P.view s.core).Consistent P g) (hb : b ∈ g.queue c) : 0 < s.strong c := by
  have hchain : s.chain c = 1 := by
    unfold chain
    cases hlast : s.core.lastSlot c with
    | some x => rfl
    | none =>
      have hempty := hg.chained.lastSlot c
      rw [show (P.view s.core).lastSlot c = none from hlast] at hempty
      rw [List.getLast?_eq_none_iff.mp hempty.symm] at hb
      cases hb
  have hbalance := h.balance c
  by_cases hzero : ∑ᶠ b, s.takes c b = 0
  · omega
  -- a caller that keeps its references is about to acquire the cown
  obtain ⟨x, hx⟩ : ∃ x, s.acquiring x = some c := by
    by_contra! hnone
    refine hzero (finsum_eq_zero_of_forall_eq_zero fun x => ?_)
    exact List.count_eq_zero.mpr (by simpa using hnone x)
  obtain ⟨hno, hcalling⟩ := h.acquiring x c hx
  obtain ⟨g', hg', hheads⟩ := h.heads
  have hhead := hheads x c hx
  have hcowns := ((hg'.chained.mem_queue c x).mp (List.mem_of_mem_head? hhead)).1
  rcases h.lent x hno hcalling c hcowns with hout | ⟨y, hy, hbody⟩
  · exact hout.trans_le ((Nat.le_add_right ..).trans (h.le_strong c))
  · have hhead' := h.core.head_of_started hg' (b := y) (c := c) (by rw [hbody]; simp)
      (by rw [hbody]; exact hy)
    obtain rfl : x = y := Option.some.inj (hhead.symm.trans hhead')
    rw [h.core.not_started hcalling.2] at hbody
    cases hbody

/-- A cown that is usable is alive. -/
theorem strong_pos_of_usable (h : s.Sound P transfer) (hc : s.Usable P c) : 0 < s.strong c := by
  rcases hc with hout | ⟨b, hb, hbody⟩
  · exact hout.trans_le ((Nat.le_add_right ..).trans (h.le_strong c))
  · obtain ⟨g, hg⟩ := h.core.consistent
    have hhead := h.core.head_of_started hg (b := b) (c := c) (by rw [hbody]; simp)
      (by rw [hbody]; exact hb)
    exact h.strong_pos_of_mem hg (List.mem_of_mem_head? hhead)

/-- A cown is alive as long as a behaviour was scheduled that has not released it. -/
theorem strong_pos (h : s.Sound P transfer) (hcowns : c ∈ P.cowns b)
    (hcalled : s.core.sched b ≠ .notCalled)
    (hrel : c ∈ ((s.core.invoke b).progress (P.cowns b)).toRelease) : 0 < s.strong c := by
  obtain ⟨g, hg⟩ := h.core.consistent
  by_cases hexchanged : c ∈ ((P.view s.core).acquire b).toExchange
  · have hcalling : s.Calling b := by
      refine ⟨hcalled, fun hret => ?_⟩
      rw [view_acquire hret] at hexchanged
      cases hexchanged
    cases htransfer : transfer b with
    | noTransfer => exact h.strong_pos_of_usable (h.lent b htransfer hcalling c hcowns)
    | yesTransfer =>
      have hunused : c ∈ (s.core.sched b).unused := by
        cases hpc : s.core.sched b with
        | notCalled => exact absurd hpc hcalled
        | isWait c' rest ec prev =>
          rw [view_acquire hpc] at hexchanged
          exact List.mem_cons_of_mem _ hexchanged
        | _ =>
          rw [view_acquire hpc] at hexchanged
          exact hexchanged
      have hgives : 0 < s.gives transfer c b := by
        rw [gives, if_pos htransfer]
        have hcount := List.count_pos_iff.mpr hunused
        omega
      exact hgives.trans_le (h.gives_le b c)
  · exact h.strong_pos_of_mem hg ((hg.chained.mem_queue c b).mpr ⟨hcowns, hexchanged, hrel⟩)

end Sound

/-! ## The heads of the chains -/

/-- The heads of chains stay there that are not started, and an empty chain gets one behaviour. -/
theorem heads_step {core core' : State β κ} {g : Ledger β κ} {heads : β → Option κ}
    (h : core.Sound P) (hg : (P.view core).Consistent P g)
    (hheads : ∀ b c, heads b = some c → (g.queue c).head? = some b)
    (hnot : ∀ b c, heads b = some c → core.sched b ≠ .returned) (hstep : P.Step core core') :
    ∃ g', (P.view core').Consistent P g' ∧
      (∀ b c, heads b = some c → (g'.queue c).head? = some b) ∧
      ∀ c, g.queue c = [] → g'.queue c = [] ∨ ∃ b, g'.queue c = [b] := by
  obtain ⟨hview | hview, -⟩ := h.step hstep
  · exact ⟨g, hview ▸ hg, hheads, fun c hc => .inl hc⟩
  obtain ⟨g', hg', hev⟩ := hg.step hview
  refine ⟨g', hg', ?_, ?_⟩
  · intro b c hb
    have hhead := hheads b c hb
    cases hev with
    | enter hqueue hrelease =>
      rcases hqueue c with hq | ⟨x, hq⟩
      · rwa [hq]
      · rw [hq, List.head?_append, hhead]
        rfl
    | @leave x c' hhead' hqueue hleaver hrelease =>
      subst hqueue
      rw [Ledger.queue_leave, if_neg]
      · exact hhead
      · rintro rfl
        -- the behaviour that leaves has run
        obtain rfl : b = x := Option.some.inj (hhead.symm.trans hhead')
        have hold := h.not_started (hnot b c hb)
        rw [view_release hold] at hleaver
        rcases hstep.not_started hold with hnew | hnew <;>
        · rw [view_release hnew] at hleaver
          exact absurd hleaver (List.cons_ne_self _ _).symm
  · intro c hc
    cases hev with
    | enter hqueue hrelease =>
      rcases hqueue c with hq | ⟨x, hq⟩
      · exact .inl (hq.trans hc)
      · exact .inr ⟨x, by rw [hq, hc]; rfl⟩
    | leave hhead' hqueue hleaver hrelease =>
      subst hqueue
      refine .inl ?_
      rw [Ledger.queue_leave]
      split
      · next hcc => rw [← hcc, hc]; rfl
      · exact hc

/-! ## One step -/

namespace Sound

/-- A step of `schedule(b)` that changes the chains. -/
theorem of_schedule (h : s.Sound P transfer) (hstep : P.Step s.core s'.core)
    (hsched : ∀ x, x ≠ b → s'.core.sched x = s.core.sched x)
    (hinvoke : s'.core.invoke = s.core.invoke)
    (hacquiring : ∀ x, x ≠ b → s'.acquiring x = s.acquiring x)
    (hreturning : ∀ x, x ≠ b → s'.returning x = s.returning x)
    (hreleasing : s'.releasing = s.releasing) (hstrong : s'.strong = s.strong)
    (hnone : s.acquiring b = none)
    (hacquire : ∀ c, s'.acquiring b = some c → transfer b = .noTransfer ∧ s'.Calling b ∧
      s.core.lastSlot c = none ∧ c ∈ P.cowns b ∧ c ∉ ((P.view s'.core).acquire b).toExchange)
    (hreturn : ∀ c, s'.returning b = some c → s'.Calling b) (hlent : s'.Lent P transfer)
    (heq : ∀ c, s'.takes c b + s.outside c + s.chain c + s.gives transfer c b =
      s.takes c b + s'.outside c + s'.chain c + s'.gives transfer c b) : s'.Sound P transfer := by
  have hcore := (h.core.step hstep).2
  have hcalling : ∀ x, x ≠ b → s.Calling x → s'.Calling x := by
    intro x hx hcalling
    unfold Calling
    rw [hsched x hx]
    exact hcalling
  refine ⟨hcore, ?_, ?_, ?_, ?_, hlent, ?_⟩
  · obtain ⟨g, hg, hheads⟩ := h.heads
    obtain ⟨g', hg', hheads', hempty⟩ :=
      heads_step h.core hg hheads (fun x c hx => (h.acquiring x c hx).2.2) hstep
    refine ⟨g', hg', fun x c hx => ?_⟩
    by_cases hxb : x = b
    · subst hxb
      obtain ⟨-, hcall, hlast, hcowns, hexchanged⟩ := hacquire c hx
      have hqueue : g.queue c = [] := by
        rw [← List.getLast?_eq_none_iff, ← hg.chained.lastSlot]
        exact hlast
      have hmem : x ∈ g'.queue c := by
        refine (hg'.chained.mem_queue c x).mpr ⟨hcowns, hexchanged, ?_⟩
        rw [view_release (hcore.not_started hcall.2)]
        exact hcowns
      rcases hempty c hqueue with hq | ⟨y, hq⟩
      · rw [hq] at hmem
        cases hmem
      · rw [hq] at hmem ⊢
        rw [List.mem_singleton.mp hmem]
        rfl
    · exact hheads' x c (hacquiring x hxb ▸ hx)
  · intro x c hx
    by_cases hxb : x = b
    · subst hxb
      exact ⟨(hacquire c hx).1, (hacquire c hx).2.1⟩
    · rw [hacquiring x hxb] at hx
      exact ⟨(h.acquiring x c hx).1, hcalling x hxb (h.acquiring x c hx).2⟩
  · intro x c hx
    by_cases hxb : x = b
    · subst hxb
      exact hreturn c hx
    · rw [hreturning x hxb] at hx
      exact hcalling x hxb (h.returning x c hx)
  · intro x c hx
    rw [hreleasing] at hx
    rw [hinvoke]
    exact h.releasing x c hx
  · intro c
    refine h.balance_of b ?_ ?_ ?_
    · intro x hx
      rw [takes, takes, hacquiring x hx]
    · intro x hx
      rw [gives, gives, hsched x hx, hreturning x hx, hreleasing]
    · rw [hstrong]
      have hc := heq c
      omega

variable (P transfer) in
/-- The reference of the chain comes from the caller or is acquired, and a transferred one that is not
needed is released. -/
theorem schedule_balance (s : Counted β κ) (b : β) (c : κ) :
    (s.toAcquire transfer b).toList.count c + s.chain c +
        (if transfer b = .yesTransfer then (s.core.sched b).unused.count c else 0) =
      ((P.scheduleStep s.core b).lastSlot c).toList.length +
        (if transfer b = .yesTransfer then
          ((P.scheduleStep s.core b).sched b).unused.count c else 0) +
        (s.toReturn transfer b).toList.count c := by
  unfold chain toAcquire toReturn
  cases hpc : s.core.sched b with
  | exchange rest ec =>
    cases rest with
    | nil => simp [Behaviours.scheduleStep, hpc, SchedulePc.unused]
    | cons c' rest =>
      cases hlast : s.core.lastSlot c' with
      | none =>
        have hstep : P.scheduleStep s.core b =
            (s.core.setLast c' (some b)).setSched b (.exchange rest (ec + 1)) := by
          simp only [Behaviours.scheduleStep, hpc, hlast]
        rw [hstep]
        simp only [State.lastSlot_setSched, State.lastSlot_setLast, State.sched_setSched, if_true,
          SchedulePc.unused, List.count_cons]
        by_cases hcc : c' = c
        · subst hcc
          cases transfer b <;> simp [hlast]
          omega
        · cases transfer b <;> simp [hcc, Ne.symm hcc, hlast]
      | some prev =>
        have hstep : P.scheduleStep s.core b =
            (s.core.setLast c' (some b)).setSched b (.isWait c' rest ec prev) := by
          simp only [Behaviours.scheduleStep, hpc, hlast]
        rw [hstep]
        simp only [State.lastSlot_setSched, State.lastSlot_setLast, State.sched_setSched, if_true,
          SchedulePc.unused]
        by_cases hcc : c = c'
        · subst hcc
          simp [hlast]
        · simp [hcc, hlast]
  | isWait c' rest ec prev =>
    by_cases hwait : s.core.status prev c' = .wait
    · simp [Behaviours.scheduleStep, hpc, hwait]
    · have hstep : P.scheduleStep s.core b =
          s.core.setSched b (.setBehaviour c' rest ec prev) := by
        simp only [Behaviours.scheduleStep, hpc, if_neg hwait]
      rw [hstep]
      simp only [State.lastSlot_setSched, State.sched_setSched, if_true, SchedulePc.unused,
        List.count_cons]
      cases transfer b <;> simp [hwait, List.count_singleton]
      omega
  | setReady rest ec => cases rest <;> simp [Behaviours.scheduleStep, hpc, SchedulePc.unused]
  | load ec =>
    by_cases hload : s.core.execCountDown b = ec
    · simp [Behaviours.scheduleStep, hpc, hload, SchedulePc.unused]
    · simp [Behaviours.scheduleStep, hpc, hload, SchedulePc.unused]
  | _ => simp [Behaviours.scheduleStep, hpc, SchedulePc.unused]

/-- A call that is about to acquire a cown goes on with its exchanges. -/
theorem calling_of_toAcquire (h : s.core.Sound P) (hc : s.toAcquire transfer b = some c) :
    transfer b = .noTransfer ∧ s.core.lastSlot c = none ∧ c ∈ P.cowns b ∧
      ∃ rest ec, c ∉ rest ∧ (P.scheduleStep s.core b).sched b = .exchange rest ec := by
  cases hpc : s.core.sched b with
  | exchange rest ec =>
    cases rest with
    | nil => simp [toAcquire, hpc] at hc
    | cons c' rest =>
      simp only [toAcquire, hpc, Option.ite_none_right_eq_some, Option.some.injEq] at hc
      obtain ⟨⟨hlast, htransfer⟩, rfl⟩ := hc
      obtain ⟨g, hg⟩ := h.consistent
      obtain ⟨hcowns, hrest, -⟩ := hg.entering (b := b) (view_acquire hpc)
      exact ⟨htransfer, hlast, hcowns, rest, ec + 1, hrest,
        by simp [Behaviours.scheduleStep, hpc, hlast]⟩
  | _ => simp [toAcquire, hpc] at hc

/-- A call that is about to release a cown goes on with the link. -/
theorem calling_of_toReturn (hc : s.toReturn transfer b = some c) :
    ∃ rest ec prev, (P.scheduleStep s.core b).sched b = .setBehaviour c rest ec prev := by
  cases hpc : s.core.sched b with
  | isWait c' rest ec prev =>
    simp only [toReturn, hpc, Option.ite_none_right_eq_some, Option.some.injEq] at hc
    obtain ⟨⟨hwait, -⟩, rfl⟩ := hc
    exact ⟨rest, ec, prev, by simp [Behaviours.scheduleStep, hpc, hwait]⟩
  | _ => simp [toReturn, hpc] at hc

/-- A step of `schedule` in the chains. -/
theorem schedule_core (h : s.Sound P transfer) (hacq : s.acquiring b = none)
    (hret : s.returning b = none) (hlent : (s.scheduleStep P transfer b).Lent P transfer) :
    (s.scheduleStep P transfer b).Sound P transfer := by
  have heqstep : s.scheduleStep P transfer b =
      { s with
        core := P.scheduleStep s.core b
        acquiring := Function.update s.acquiring b (s.toAcquire transfer b)
        returning := Function.update s.returning b (s.toReturn transfer b) } := by
    simp only [scheduleStep, hacq, hret]
  rw [heqstep] at hlent ⊢
  refine h.of_schedule (b := b) (.schedule _ b) ?_ Behaviours.invoke_scheduleStep ?_ ?_ rfl rfl hacq
    ?_ ?_ hlent ?_
  · exact fun x hx => Behaviours.sched_scheduleStep_ne hx
  · exact fun x hx => Function.update_of_ne hx ..
  · exact fun x hx => Function.update_of_ne hx ..
  · intro c hc
    dsimp only at hc
    rw [Function.update_self] at hc
    obtain ⟨htransfer, hlast, hcowns, rest, ec, hrest, hnew⟩ := calling_of_toAcquire h.core hc
    refine ⟨htransfer, ?_, hlast, hcowns, ?_⟩
    · unfold Calling
      rw [hnew]
      simp
    · rw [view_acquire hnew]
      exact hrest
  · intro c hc
    dsimp only at hc
    rw [Function.update_self] at hc
    obtain ⟨rest, ec, prev, hnew⟩ := calling_of_toReturn (P := P) hc
    unfold Calling
    rw [hnew]
    simp
  · intro c
    have hbalance := schedule_balance P transfer s b c
    unfold takes gives
    simp only [Function.update_self, hacq, hret]
    simp only [chain] at hbalance ⊢
    simp only [Option.toList_none, List.count_nil]
    omega

/-- A step that changes counts only. -/
theorem of_counts (h : s.Sound P transfer) (hcore : s'.core = s.core)
    (hacquiring : ∀ b c, s'.acquiring b = some c → s.acquiring b = some c)
    (hreturning : ∀ b c, s'.returning b = some c → s.returning b = some c)
    (hreleasing : ∀ b c, s'.releasing b = some c → s.releasing b = some c)
    (hlent : s'.Lent P transfer)
    (hbalance : ∀ c, s'.strong c + ∑ᶠ b, s'.takes c b =
      s'.outside c + s'.chain c + ∑ᶠ b, s'.gives transfer c b) : s'.Sound P transfer := by
  refine ⟨hcore ▸ h.core, ?_, ?_, ?_, ?_, hlent, hbalance⟩
  · obtain ⟨g, hg, hheads⟩ := h.heads
    exact ⟨g, hcore ▸ hg, fun b c hb => hheads b c (hacquiring b c hb)⟩
  · intro b c hb
    unfold Calling
    rw [hcore]
    exact h.acquiring b c (hacquiring b c hb)
  · intro b c hb
    unfold Calling
    rw [hcore]
    exact h.returning b c (hreturning b c hb)
  · intro b c hb
    rw [hcore]
    exact h.releasing b c (hreleasing b c hb)

/-- A step of the chains in which no call takes or returns a reference. -/
theorem of_step (h : s.Sound P transfer) (hstep : P.Step s.core s'.core)
    (hacquiring : s'.acquiring = s.acquiring) (hreturning : s'.returning = s.returning)
    (hcalling : ∀ b, s.Calling b → s'.Calling b)
    (hreleasing : ∀ b c, s'.releasing b = some c → s'.core.invoke b ≠ .notStarted)
    (hlent : s'.Lent P transfer)
    (hbalance : ∀ c, s'.strong c + ∑ᶠ b, s'.takes c b =
      s'.outside c + s'.chain c + ∑ᶠ b, s'.gives transfer c b) : s'.Sound P transfer := by
  refine ⟨(h.core.step hstep).2, ?_, ?_, ?_, hreleasing, hlent, hbalance⟩
  · obtain ⟨g, hg, hheads⟩ := h.heads
    obtain ⟨g', hg', hheads', -⟩ :=
      heads_step h.core hg hheads (fun x c hx => (h.acquiring x c hx).2.2) hstep
    exact ⟨g', hg', hacquiring ▸ hheads'⟩
  · intro b c hb
    rw [hacquiring] at hb
    exact ⟨(h.acquiring b c hb).1, hcalling b (h.acquiring b c hb).2⟩
  · intro b c hb
    rw [hreturning] at hb
    exact hcalling b (h.returning b c hb)

/-- A step of a call of `schedule`. -/
theorem schedule (h : s.Sound P transfer) (b : β)
    (hlent : (s.scheduleStep P transfer b).Lent P transfer) :
    (s.scheduleStep P transfer b).Sound P transfer := by
  cases hacq : s.acquiring b with
  | some c =>
    have heqstep : s.scheduleStep P transfer b =
        { s.acquire c with acquiring := Function.update s.acquiring b none } := by
      simp only [scheduleStep, hacq]
    rw [heqstep] at hlent ⊢
    refine h.of_counts rfl ?_ (fun _ _ hb => hb) (fun _ _ hb => hb) hlent ?_
    · intro x c' hx
      dsimp only at hx
      rw [Function.update_apply] at hx
      split at hx
      · cases hx
      · exact hx
    · intro c'
      refine h.balance_of b ?_ (fun _ _ => rfl) ?_
      · intro x hx
        simp only [takes, Function.update_of_ne hx]
      · simp only [takes, gives, chain, acquire, Function.update_self, hacq, Function.update_apply]
        by_cases hcc : c' = c
        · subst hcc
          simp
        · simp [hcc, Ne.symm hcc]
  | none =>
    cases hret : s.returning b with
    | none => exact h.schedule_core hacq hret hlent
    | some c =>
      have hpos : 0 < s.strong c := by
        refine lt_of_lt_of_le ?_ (h.gives_le b c)
        simp [gives, hret]
      have heqstep : s.scheduleStep P transfer b =
          { s.release c with returning := Function.update s.returning b none } := by
        simp only [scheduleStep, hacq, hret]
      rw [heqstep] at hlent ⊢
      refine h.of_counts rfl (fun _ _ hb => hb) ?_ (fun _ _ hb => hb) hlent ?_
      · intro x c' hx
        dsimp only at hx
        rw [Function.update_apply] at hx
        split at hx
        · cases hx
        · exact hx
      · intro c'
        refine h.balance_of b (fun _ _ => rfl) ?_ ?_
        · intro x hx
          simp only [gives, release, Function.update_of_ne hx]
        · simp only [takes, gives, chain, release, Function.update_self, hret,
            Function.update_apply]
          by_cases hcc : c' = c
          · subst hcc
            simp
            omega
          · simp [hcc, Ne.symm hcc]

/-- The run that leaves a chain empty gives the reference of the chain. -/
theorem invoke_balance (s : Counted β κ) (b : β) (c : κ) :
    s.chain c = ((P.invokeStep s.core b).lastSlot c).toList.length +
      (s.toRelease b).toList.count c := by
  unfold chain toRelease
  cases hpc : s.core.invoke b with
  | compareExchange c' rest =>
    by_cases hlast : s.core.lastSlot c' = some b
    · simp only [Behaviours.invokeStep, hpc, if_pos hlast, State.lastSlot_setInvoke,
        State.lastSlot_setLast]
      by_cases hcc : c = c'
      · subst hcc
        simp [hlast]
      · simp [hcc, Ne.symm hcc]
    · simp [Behaviours.invokeStep, hpc, hlast]
  | release rest =>
    cases rest with
    | nil => simp [Behaviours.invokeStep, hpc]
    | cons c' rest => cases hst : s.core.status b c' <;> simp [Behaviours.invokeStep, hpc, hst]
  | isReady c' rest =>
    by_cases hst : s.core.status b c' = .ready <;> simp [Behaviours.invokeStep, hpc, hst]
  | getBehaviour c' rest =>
    cases hst : s.core.status b c' <;> simp [Behaviours.invokeStep, hpc, hst]
  | load c' rest b' =>
    by_cases hst : s.core.execCountDown b' = 1 <;> simp [Behaviours.invokeStep, hpc, hst]
  | _ => simp [Behaviours.invokeStep, hpc]

/-- A step of a run. -/
theorem invoke (h : s.Sound P transfer) (b : β) (hlent : (s.invokeStep P b).Lent P transfer) :
    (s.invokeStep P b).Sound P transfer := by
  cases hrel : s.releasing b with
  | some c =>
    have hpos : 0 < s.strong c := by
      refine lt_of_lt_of_le ?_ (h.gives_le b c)
      simp [gives, hrel]
    have heqstep : s.invokeStep P b =
        { s.release c with releasing := Function.update s.releasing b none } := by
      simp only [invokeStep, hrel]
    rw [heqstep] at hlent ⊢
    refine h.of_counts rfl (fun _ _ hb => hb) (fun _ _ hb => hb) ?_ hlent ?_
    · intro x c' hx
      dsimp only at hx
      rw [Function.update_apply] at hx
      split at hx
      · cases hx
      · exact hx
    · intro c'
      refine h.balance_of b (fun _ _ => rfl) ?_ ?_
      · intro x hx
        simp only [gives, release, Function.update_of_ne hx]
      · simp only [takes, gives, chain, release, Function.update_self, hrel, Function.update_apply]
        by_cases hcc : c' = c
        · subst hcc
          simp
          omega
        · simp [hcc, Ne.symm hcc]
  | none =>
    have heqstep : s.invokeStep P b =
        { s with
          core := P.invokeStep s.core b
          releasing := Function.update s.releasing b (s.toRelease b) } := by
      simp only [invokeStep, hrel]
    rw [heqstep] at hlent ⊢
    refine h.of_step (.invoke _ b) rfl rfl ?_ ?_ hlent ?_
    · intro x hx
      unfold Calling
      rw [Behaviours.sched_invokeStep]
      exact hx
    · intro x c hx
      dsimp only at hx ⊢
      by_cases hxb : x = b
      · subst hxb
        rw [Function.update_self] at hx
        refine (Behaviours.invoke_invokeStep ?_).1
        intro hnot
        rw [toRelease, hnot] at hx
        cases hx
      · rw [Function.update_of_ne hxb] at hx
        rw [Behaviours.invoke_invokeStep_ne hxb]
        exact h.releasing x c hx
    · intro c
      refine h.balance_of b (fun _ _ => rfl) ?_ ?_
      · intro x hx
        simp only [gives, Function.update_of_ne hx, Behaviours.sched_invokeStep]
      · have hbalance := invoke_balance (P := P) s b c
        simp only [takes, gives, chain, Function.update_self, hrel, Behaviours.sched_invokeStep]
          at hbalance ⊢
        simp only [Option.toList_none, List.count_nil]
        omega

/-- `schedule` is called. -/
theorem call (h : s.Sound P transfer) (hcall : s.core.sched b = .notCalled)
    (hgive : transfer b = .yesTransfer → ∀ c ∈ P.cowns b, 0 < s.outside c)
    (hlent : Lent P transfer { s with
      core := s.core.setSched b (.exchange (P.order b) 1)
      outside := s.give P transfer b }) :
    Sound P transfer { s with
      core := s.core.setSched b (.exchange (P.order b) 1)
      outside := s.give P transfer b } := by
  refine h.of_step (.call hcall) rfl rfl ?_ h.releasing hlent ?_
  · intro x hx
    have hxb : x ≠ b := by
      rintro rfl
      exact hx.1 hcall
    unfold Calling
    rw [State.sched_setSched, if_neg hxb]
    exact hx
  · intro c
    refine h.balance_of b (fun _ _ => rfl) ?_ ?_
    · intro x hx
      simp only [gives, State.sched_setSched, if_neg hx]
    · have hcount : (P.order b).count c = if c ∈ P.cowns b then 1 else 0 := by
        rw [List.Nodup.count (P.nodup_order b)]
        simp only [P.mem_order]
      simp only [takes, gives, chain, give, State.sched_setSched, if_true, State.lastSlot_setSched,
        SchedulePc.unused, hcall, hcount]
      cases htransfer : transfer b with
      | noTransfer => simp
      | yesTransfer =>
        by_cases hc : c ∈ P.cowns b
        · have hpos := hgive htransfer c hc
          simp [hc]
          omega
        · simp [hc]

/-- Every step keeps the invariant. -/
theorem step (h : s.Sound P transfer) (hstep : Step P transfer s s') : s'.Sound P transfer := by
  obtain ⟨hmove, hlent⟩ := hstep
  cases hmove with
  | @create c hstrong hout hlast =>
    refine h.of_counts rfl (fun _ _ hb => hb) (fun _ _ hb => hb) (fun _ _ hb => hb) hlent ?_
    intro c'
    have hold := h.balance c'
    by_cases hcc : c' = c
    · subst hcc
      simp only [Function.update_self]
      simp only [takes, gives, chain] at hold ⊢
      omega
    · simp only [Function.update_of_ne hcc]
      exact hold
  | @acquire c hstrong =>
    refine h.of_counts rfl (fun _ _ hb => hb) (fun _ _ hb => hb) (fun _ _ hb => hb) hlent ?_
    intro c'
    have hold := h.balance c'
    by_cases hcc : c' = c
    · subst hcc
      simp only [Counted.acquire, Function.update_self]
      simp only [takes, gives, chain] at hold ⊢
      omega
    · simp only [Counted.acquire, Function.update_of_ne hcc]
      exact hold
  | @release c hout =>
    have hle := h.le_strong c
    refine h.of_counts rfl (fun _ _ hb => hb) (fun _ _ hb => hb) (fun _ _ hb => hb) hlent ?_
    intro c'
    have hold := h.balance c'
    by_cases hcc : c' = c
    · subst hcc
      simp only [Counted.release, Function.update_self]
      simp only [takes, gives, chain] at hold hle ⊢
      omega
    · simp only [Counted.release, Function.update_of_ne hcc]
      exact hold
  | call hcall hgive => exact h.call hcall hgive hlent
  | schedule b => exact h.schedule b hlent
  | start hb hhanded =>
    refine h.of_step (.start hb hhanded) rfl rfl (fun _ hx => hx) ?_ hlent h.balance
    intro x c hx
    dsimp only
    rw [State.invoke_setInvoke]
    split
    · simp
    · exact h.releasing x c hx
  | invoke b => exact h.invoke b hlent

/-- The invariant holds at the start. -/
theorem init : (Counted.init P).Sound P transfer where
  core := .init
  heads := by
    obtain ⟨g, hg⟩ := (State.Sound.init (P := P)).consistent
    exact ⟨g, hg, fun b c hb => by cases hb⟩
  acquiring b c hb := by cases hb
  returning b c hb := by cases hb
  releasing b c hb := by cases hb
  lent b _ hcalling := absurd rfl hcalling.1
  balance c := by
    have htakes : ∀ b, (Counted.init P).takes c b = 0 := fun _ => rfl
    have hgives : ∀ b, (Counted.init P).gives transfer c b = 0 := by
      intro b
      simp [gives, Counted.init, Behaviours.init, SchedulePc.unused]
    simp only [htakes, hgives]
    rfl

end Sound

/-- The invariant holds in all reachable states. -/
theorem Reachable.sound (h : Reachable P transfer s) : s.Sound P transfer := by
  induction h with
  | refl => exact .init
  | tail _ hstep ih => exact ih.step hstep

/-- The behaviour was given to `schedule` and has not released its slot for the cown. -/
def Uses (P : Behaviours β κ) (s : Counted β κ) (b : β) (c : κ) : Prop :=
  c ∈ P.cowns b ∧ s.core.sched b ≠ .notCalled ∧
    c ∈ ((s.core.invoke b).progress (P.cowns b)).toRelease

/-- In every reachable state: the next step of no call accesses a behaviour that is deallocated; the
strong count of a cown is the number of the references outside the scheduler, and one more while its
last slot is not null, up to the references that calls are about to take and those that they have; and a
cown is alive as long as a behaviour uses it. -/
theorem references_counted (hs : Reachable P transfer s) :
    (∀ b x, x ∈ (s.core.sched b).accesses b ∨ x ∈ (s.core.invoke b).accesses b →
      s.core.invoke x ≠ .done) ∧
    (∀ c, s.strong c + ∑ᶠ b, s.takes c b =
      s.outside c + (if s.core.lastSlot c = none then 0 else 1) + ∑ᶠ b, s.gives transfer c b) ∧
    ∀ b c, s.Uses P b c → 0 < s.strong c := by
  have hsound := hs.sound
  refine ⟨hsound.core.accesses, ?_, ?_⟩
  · intro c
    have hbalance := hsound.balance c
    unfold chain at hbalance
    cases hlast : s.core.lastSlot c <;> simpa [hlast] using hbalance
  · rintro b c ⟨hcowns, hcalled, hrel⟩
    exact hsound.strong_pos hcowns hcalled hrel

/-- A behaviour is given to `schedule` by somebody who has the only reference to its cown. -/
theorem references_counted_twoOnOne : ∃ s,
    Reachable twoOnOne (fun _ => .noTransfer) s ∧ s.Uses twoOnOne true 0 ∧
    (∀ b x, x ∈ (s.core.sched b).accesses b ∨ x ∈ (s.core.invoke b).accesses b →
      s.core.invoke x ≠ .done) ∧
    (∀ c, s.strong c + ∑ᶠ b, s.takes c b =
      s.outside c + (if s.core.lastSlot c = none then 0 else 1) +
        ∑ᶠ b, s.gives (fun _ => .noTransfer) c b) ∧
    ∀ b c, s.Uses twoOnOne b c → 0 < s.strong c := by
  have hcreate : Step twoOnOne (fun _ => .noTransfer) (init twoOnOne) _ :=
    ⟨.create (c := 0) rfl rfl rfl, fun b _ hcalling => absurd rfl hcalling.1⟩
  have hcall : Step twoOnOne (fun _ => .noTransfer) _ _ :=
    ⟨.call (b := true) (s := { init twoOnOne with
        strong := Function.update (init twoOnOne).strong 0 1
        outside := Function.update (init twoOnOne).outside 0 1 }) rfl (by simp), ?_⟩
  · have hs := (Relation.ReflTransGen.single hcreate).tail hcall
    refine ⟨_, hs, ⟨List.mem_singleton_self 0, ?_, List.mem_singleton_self 0⟩,
      references_counted hs⟩
    simp
  · intro b _ hcalling c hc
    obtain rfl : c = 0 := List.mem_singleton.mp hc
    exact .inl Nat.one_pos

end Counted

end VeronaRt
