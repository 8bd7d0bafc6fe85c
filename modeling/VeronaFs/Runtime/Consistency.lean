import VeronaFs.Runtime.Protocol

/-!
# The chains stay consistent

Every step of the protocol keeps the state and some ledger consistent.  The steps that change a chain
are entering, linking, leaving and passing on; for each of them it is said what it does to the four
parts of the invariant.
-/

set_option linter.unusedSectionVars false

namespace VeronaRt

open Foundation

variable {β κ : Type*} [DecidableEq β] [LinearOrder κ] {P : Behaviours β κ}

/-! ## Consequences of the invariant -/

namespace Protocol.Consistent

variable {a : Protocol β κ} {g : Ledger β κ} {b : β} {c : κ}

/-- A behaviour that owes a count has not run. -/
theorem not_started (h : a.Consistent P g) (howes : (a.acquire b).owes ≠ 0) :
    ¬ a.Started P b := by
  intro hstarted
  have hsum := h.accounted.sum b
  rw [Protocol.Started] at hstarted
  omega

/-- A behaviour for which a cown is due has not run. -/
theorem not_started_of_due (h : a.Consistent P g) (hdue : c ∈ g.due b) : ¬ a.Started P b := by
  intro hstarted
  have hsum := h.accounted.sum b
  have hpos := List.length_pos_of_mem hdue
  rw [Protocol.Started] at hstarted
  omega

/-- A behaviour that is being resolved has not run. -/
theorem due_of_resolves (h : a.Consistent P g) {p : β}
    (hp : (a.release p).resolves = some (c, b)) : c ∈ g.due b := by
  refine (h.accounted.mem_due b c).mpr ⟨?_, .inr (.inr ⟨p, hp⟩)⟩
  have hmem := List.mem_of_mem_head? (h.accounted.head p c b hp)
  exact ((h.chained.mem_queue c b).mp hmem).1

/-- A behaviour that runs is at the head of the chains that it has not left. -/
theorem head_of_started (h : a.Consistent P g) (hstarted : a.Started P b)
    (hc : c ∈ (a.release b).toRelease) : (g.queue c).head? = some b := by
  have hcowns : c ∈ P.cowns b := (h.shaped.release b).subset hc
  have hdue : c ∉ g.due b := fun hdue => h.not_started_of_due hdue hstarted
  have hnot := fun hor => hdue ((h.accounted.mem_due b c).mpr ⟨hcowns, hor⟩)
  have hmem : b ∈ g.queue c :=
    (h.chained.mem_queue c b).mpr ⟨hcowns, fun hex => hnot (.inl hex), hc⟩
  exact (head_or_adjacent hmem).resolve_right fun hadj => hnot (.inr (.inl hadj))

/-- The chains are as at the first exchange: what is known of a behaviour that enters a chain. -/
theorem entering (h : a.Consistent P g) {rest ready : List κ} {n : ℕ}
    (hb : a.acquire b = ⟨c :: rest, none, false, ready, n⟩) :
    c ∈ P.cowns b ∧ c ∉ rest ∧ b ∉ g.queue c ∧ ready = P.cowns b ∧ n ≠ 0 ∧
      (a.release b).toRelease = P.cowns b := by
  have hsuffix := (h.shaped.acquire b).exchange
  rw [hb] at hsuffix
  have hn : n ≠ 0 := by
    intro hn
    have howes := ((h.shaped.acquire b).owes (by rw [hb]; exact hn)).1
    rw [hb] at howes
    cases howes
  refine ⟨?_, ?_, ?_, ?_, hn, ?_⟩
  · exact P.mem_order.mp (hsuffix.subset (List.mem_cons_self ..))
  · exact (List.nodup_cons.mp (hsuffix.sublist.nodup (P.nodup_order b))).1
  · intro hmem
    refine ((h.chained.mem_queue c b).mp hmem).2.1 ?_
    rw [hb]
    exact List.mem_cons_self ..
  · have hready := (h.shaped.acquire b).acquiring (by rw [hb])
    rwa [hb] at hready
  · refine (h.shaped.started b (h.not_started ?_)).1
    rw [hb]
    exact hn

/-- The slot of a behaviour in its acquire phase is waiting. -/
theorem status_wait (h : a.Consistent P g) (hb : (a.acquire b).acquired = false)
    (hc : c ∈ P.cowns b) : a.status b c = .wait := by
  refine (h.chained.wait b c hc).mpr ?_
  rwa [(h.shaped.acquire b).acquiring hb]

/-- A behaviour whose slot is not waiting has finished its acquire phase. -/
theorem finished_of_status (h : a.Consistent P g) (hc : c ∈ P.cowns b)
    (hstatus : a.status b c ≠ .wait) : b ∈ g.finished := by
  refine (h.ordered.mem_finished b).mpr ?_
  by_contra hacq
  exact hstatus (h.status_wait (Bool.not_eq_true _ ▸ hacq) hc)

end Protocol.Consistent

/-! ## Steps that leave a part alone -/

namespace Protocol

variable {a a' : Protocol β κ} {g g' : Ledger β κ}

/-- The chains and slots are the same. -/
theorem Chained.congr (h : a.Chained P g) (hlast : ∀ c, a'.lastSlot c = a.lastSlot c)
    (hstatus : ∀ b c, a'.status b c = a.status b c) (hqueue : ∀ c, g'.queue c = g.queue c)
    (hexchange : ∀ b, (a'.acquire b).toExchange = (a.acquire b).toExchange)
    (hfollows : ∀ b, (a'.acquire b).follows = (a.acquire b).follows)
    (hready : ∀ b, (a'.acquire b).toReady = (a.acquire b).toReady)
    (hrelease : ∀ b, (a'.release b).toRelease = (a.release b).toRelease) : a'.Chained P g' := by
  constructor
  · intro c
    rw [hlast, hqueue, h.lastSlot]
  · intro c
    rw [hqueue]
    exact h.nodup c
  · intro c b
    rw [hqueue, hexchange, hrelease]
    exact h.mem_queue c b
  · intro b c hc
    rw [hstatus, hready]
    exact h.wait b c hc
  · intro b c p hb
    rw [hqueue]
    exact h.follows b c p (hfollows b ▸ hb)
  · intro c p b hp hb
    rw [hqueue] at hp ⊢
    rw [hfollows]
    exact h.behaviour c p b hp (hstatus p c ▸ hb)
  · intro c p b hadj
    rw [hqueue] at hadj
    rw [hfollows, hstatus]
    exact h.linked c p b hadj

/-- The chains, the dues and the sums of counts are the same. -/
theorem Accounted.congr (h : a.Accounted P g) (hqueue : ∀ c, g'.queue c = g.queue c)
    (hdue : ∀ b, g'.due b = g.due b)
    (hexchange : ∀ b, (a'.acquire b).toExchange = (a.acquire b).toExchange)
    (hresolves : ∀ b, (a'.release b).resolves = (a.release b).resolves)
    (hsum : ∀ b, a'.resolved b + (a'.acquire b).owes = a.resolved b + (a.acquire b).owes) :
    a'.Accounted P g' := by
  constructor
  · intro b
    rw [hdue]
    exact h.nodup b
  · intro b c
    simp only [hdue, hexchange, hqueue, hresolves]
    exact h.mem_due b c
  · intro p c b hres
    rw [hqueue]
    exact h.head p c b (hresolves p ▸ hres)
  · intro p p' c b hres hres'
    exact h.unique p p' c b (hresolves p ▸ hres) (hresolves p' ▸ hres')
  · intro b
    have hold := h.sum b
    have hsum' := hsum b
    rw [hdue]
    omega

/-- Nobody finishes or links itself, and nobody enters a chain. -/
theorem Ordered.of_before (h : a.Ordered g)
    (hqueue : ∀ c p b, Before (g'.queue c) p b → Before (g.queue c) p b)
    (hfinished : g'.finished = g.finished)
    (hacquired : ∀ b, (a'.acquire b).acquired = (a.acquire b).acquired)
    (hfollows : ∀ b, (a'.acquire b).follows = (a.acquire b).follows) : a'.Ordered g' := by
  constructor
  · rw [hfinished]
    exact h.nodup
  · intro b
    rw [hfinished, hacquired]
    exact h.mem_finished b
  · intro c p b hbefore hb
    rw [hfinished]
    exact h.linked c p b (hqueue c p b hbefore) (hfollows b ▸ hb)
  · intro c p b hbefore hb
    rw [hfinished] at hb ⊢
    exact h.finished c p b (hqueue c p b hbefore) hb

end Protocol

/-! ## Entering a chain -/

namespace Protocol

variable {a : Protocol β κ} {g : Ledger β κ} {b p : β} {c : κ} {rest ready : List κ} {n : ℕ}

/-- Progress in `schedule` keeps the shape. -/
theorem Shaped.setAcquire {q : Acquire β κ} (h : a.Shaped P) (hq : q.Shaped P b) :
    (a.setAcquire b q).Shaped P where
  acquire := by
    intro b'
    rw [acquire_setAcquire]
    split
    · next hb => exact hb ▸ hq
    · exact h.acquire b'
  release := h.release
  started := h.started

/-- The progress of a behaviour that exchanged the last slot of `c`. -/
theorem Consistent.shaped_entered (h : a.Consistent P g) {q : Option (κ × β)} {m : ℕ}
    (hb : a.acquire b = ⟨c :: rest, none, false, ready, n⟩)
    (hq : ∀ c' p, q = some (c', p) → c' = c) (hm : m ≠ 0) :
    (⟨rest, q, false, ready, m⟩ : Acquire β κ).Shaped P b := by
  have hold := h.shaped.acquire b
  rw [hb] at hold
  exact {
    exchange := (List.suffix_cons c rest).trans hold.exchange
    follows := fun c' p hfollows => hq c' p hfollows ▸ hold.exchange
    acquired := fun hacq => by cases hacq
    acquiring := hold.acquiring
    ready := hold.ready
    owes := fun howes => absurd howes hm }

/-- A behaviour enters the empty chain of a cown, which is then not due for it. -/
theorem Consistent.enterFree (h : a.Consistent P g)
    (hb : a.acquire b = ⟨c :: rest, none, false, ready, n⟩) (hlast : a.lastSlot c = none) :
    ((a.setLast c (some b)).setAcquire b ⟨rest, none, false, ready, n + 1⟩).Consistent P
      ((g.enter b c).settle b c) := by
  obtain ⟨hcowns, hrest, hmem, hready, hn, hrel⟩ := h.entering hb
  have hempty : g.queue c = [] := by
    rw [← List.getLast?_eq_none_iff, ← h.chained.lastSlot, hlast]
  have hnone : ∀ x y, ¬ Adjacent (g.queue c) x y := by
    intro x y
    rw [hempty]
    exact not_adjacent_nil
  have hsingle : ∀ x y, ¬ Adjacent (g.queue c ++ [b]) x y := by
    intro x y
    rw [hempty]
    exact not_adjacent_singleton
  have hwait := h.status_wait (b := b) (by rw [hb]) hcowns
  have hdue : c ∈ g.due b := by
    refine (h.accounted.mem_due b c).mpr ⟨hcowns, .inl ?_⟩
    rw [hb]
    exact List.mem_cons_self ..
  refine ⟨?_, ?_, ?_, ?_⟩
  · have hshape := h.shaped_entered hb (q := none) (m := n + 1) (by simp) (by omega)
    exact Shaped.setAcquire ⟨h.shaped.acquire, h.shaped.release, h.shaped.started⟩ hshape
  · have hold := h.chained
    constructor
    · grind [hold.lastSlot]
    · grind [hold.nodup]
    · intro c' b'
      have hmem' := hold.mem_queue c' b'
      grind
    · grind [hold.wait]
    · intro b' c' p hfollows
      have hadj := hold.follows b' c' p
      grind
    · intro c' p b' hp hstatus
      have hadj := hold.behaviour c' p b'
      grind
    · intro c' p b' hadj
      have hlinked := hold.linked c' p b'
      grind
  · have hold := h.accounted
    constructor
    · grind [hold.nodup, List.Nodup.erase]
    · intro b' c'
      have hmem' := hold.mem_due b' c'
      have hadj : ∀ x, Adjacent (((g.enter b c).settle b c).queue c') x b' ↔
          Adjacent (g.queue c') x b' := by grind
      have hres : ∀ x, (a.release x).resolves ≠ some (c, b) := by
        intro x hx
        have hhead := hold.head x c b hx
        rw [hempty] at hhead
        cases hhead
      simp only [hadj, release_setAcquire, release_setLast]
      have hnodup := hold.nodup b
      grind [List.Nodup.mem_erase_iff]
    · have hhead := hold.head
      grind
    · exact hold.unique
    · intro b'
      have hsum := hold.sum b'
      grind [List.length_erase_of_mem]
  · have hold := h.ordered
    constructor
    · exact hold.nodup
    · grind [hold.mem_finished]
    · intro c' p b' hbefore hfollows
      have hlinked := hold.linked c' p b'
      grind [before_concat]
    · intro c' p b' hbefore hfinished
      have hfin := hold.finished c' p b'
      grind [before_concat]

/-- A behaviour enters the chain of a cown behind the last one. -/
theorem Consistent.enterBehind (h : a.Consistent P g)
    (hb : a.acquire b = ⟨c :: rest, none, false, ready, n⟩) (hlast : a.lastSlot c = some p) :
    ((a.setLast c (some b)).setAcquire b ⟨rest, some (c, p), false, ready, n⟩).Consistent P
      (g.enter b c) := by
  obtain ⟨hcowns, hrest, hmem, hready, hn, hrel⟩ := h.entering hb
  have hp : (g.queue c).getLast? = some p := by rw [← h.chained.lastSlot, hlast]
  have hwait := h.status_wait (b := b) (by rw [hb]) hcowns
  have hright : ∀ x, ¬ Adjacent (g.queue c) x b := fun x hx => hmem hx.right_mem
  have hleft : ∀ x, ¬ Adjacent (g.queue c) b x := fun x hx => hmem hx.left_mem
  refine ⟨?_, ?_, ?_, ?_⟩
  · have hshape := h.shaped_entered hb (q := some (c, p)) (m := n)
      (fun c' p' hq => by cases hq; rfl) hn
    exact Shaped.setAcquire ⟨h.shaped.acquire, h.shaped.release, h.shaped.started⟩ hshape
  · have hold := h.chained
    constructor
    · grind [hold.lastSlot]
    · grind [hold.nodup]
    · intro c' b'
      have hmem' := hold.mem_queue c' b'
      grind
    · grind [hold.wait]
    · intro b' c' p' hfollows
      have hadj := hold.follows b' c' p'
      grind [adjacent_concat]
    · intro c' p' b' hp' hstatus
      have hadj := hold.behaviour c' p' b'
      grind [adjacent_concat]
    · intro c' p' b' hadj
      have hlinked := hold.linked c' p' b'
      grind [adjacent_concat]
  · have hold := h.accounted
    constructor
    · exact hold.nodup
    · intro b' c'
      have hmem' := hold.mem_due b' c'
      have hadj : (∃ x, Adjacent ((g.enter b c).queue c') x b') ↔
          (∃ x, Adjacent (g.queue c') x b') ∨ c' = c ∧ b' = b := by
        by_cases hc : c' = c
        · subst hc
          simp [adjacent_concat, exists_or, hp, eq_comm]
        · simp [hc]
      simp only [hadj, release_setAcquire, release_setLast]
      grind
    · intro x c' b' hres
      have hhead := hold.head x c' b'
      grind
    · exact hold.unique
    · intro b'
      have hsum := hold.sum b'
      grind
  · have hold := h.ordered
    constructor
    · exact hold.nodup
    · grind [hold.mem_finished]
    · intro c' p' b' hbefore hfollows
      have hlinked := hold.linked c' p' b'
      grind [before_concat]
    · intro c' p' b' hbefore hfinished
      have hfin := hold.finished c' p' b'
      have hacq := hold.mem_finished b
      grind [before_concat]

/-! ## Linking and the release phase -/

/-- A behaviour links itself behind its neighbour, which has finished its acquire phase. -/
theorem Consistent.link (h : a.Consistent P g)
    (hb : a.acquire b = ⟨rest, some (c, p), false, ready, n⟩) (hready : a.status p c ≠ .wait) :
    ((a.setStatus p c (.behaviour b)).setAcquire b ⟨rest, none, false, ready, n⟩).Consistent P
      g := by
  have hadj : Adjacent (g.queue c) p b := h.chained.follows b c p (by rw [hb])
  have hp := (h.chained.mem_queue c p).mp hadj.left_mem
  have hfinished : p ∈ g.finished := h.finished_of_status hp.1 hready
  refine ⟨?_, ?_, ?_, ?_⟩
  · have hold := h.shaped.acquire b
    rw [hb] at hold
    refine Shaped.setAcquire ⟨h.shaped.acquire, h.shaped.release, h.shaped.started⟩ ?_
    exact ⟨hold.exchange, fun _ _ hq => (by cases hq), fun hq => (by cases hq), hold.acquiring,
      hold.ready, hold.owes⟩
  · have hold := h.chained
    constructor
    · exact hold.lastSlot
    · exact hold.nodup
    · intro c' b'
      have hmem' := hold.mem_queue c' b'
      grind
    · intro b' c' hc'
      have hwait := hold.wait b' c' hc'
      grind
    · intro b' c' p' hfollows
      have hadj' := hold.follows b' c' p'
      grind
    · intro c' p' b' hp' hstatus
      have hadj' := hold.behaviour c' p' b'
      grind
    · intro c' p' b' hadj'
      have hlinked := hold.linked c' p' b' hadj'
      have hunique := fun hc : c' = c => fun hp : p' = p =>
        Adjacent.right_unique (hold.nodup c) hadj (hc ▸ hp ▸ hadj')
      grind
  · exact h.accounted.congr (fun _ => rfl) (fun _ => rfl) (by grind) (fun _ => rfl) (by grind)
  · have hold := h.ordered
    constructor
    · exact hold.nodup
    · grind [hold.mem_finished]
    · intro c' p' b' hbefore hfollows
      by_cases hc : b' = b ∧ c' = c
      · obtain ⟨rfl, rfl⟩ := hc
        rcases hbefore.adjacent (h.chained.nodup c') hadj with rfl | hbefore
        · exact hfinished
        · exact (hold.finished c' p' p hbefore hfinished).left_mem
      · refine hold.linked c' p' b' hbefore ?_
        grind
    · exact hold.finished

/-- A behaviour finishes its acquire phase as the last one so far. -/
theorem Consistent.finish (h : a.Consistent P g)
    (hb : a.acquire b = ⟨[], none, false, ready, n⟩) :
    (a.setAcquire b ⟨[], none, true, ready, n⟩).Consistent P (g.finish b) := by
  have hnew : b ∉ g.finished := by
    rw [h.ordered.mem_finished, hb]
    simp
  refine ⟨?_, ?_, ?_, ?_⟩
  · have hold := h.shaped.acquire b
    rw [hb] at hold
    refine Shaped.setAcquire h.shaped ?_
    refine ⟨hold.exchange, hold.follows, fun _ => ⟨rfl, rfl⟩, fun hq => (by cases hq), hold.ready,
      fun howes => ?_⟩
    exact absurd (hold.owes howes).1 (by simp)
  · exact h.chained.congr (fun _ => rfl) (fun _ _ => rfl) (fun _ => rfl) (by grind) (by grind)
      (by grind) (fun _ => rfl)
  · exact h.accounted.congr (fun _ => rfl) (fun _ => rfl) (by grind) (fun _ => rfl) (by grind)
  · have hold := h.ordered
    constructor
    · rw [Ledger.finished_finish, List.nodup_append]
      exact ⟨hold.nodup, List.nodup_singleton b, by grind⟩
    · intro b'
      have hmem' := hold.mem_finished b'
      grind
    · intro c' p' b' hbefore hfollows
      have hlinked := hold.linked c' p' b' hbefore
      grind
    · intro c' p' b' hbefore hfinished
      rw [Ledger.finished_finish, before_concat]
      rcases List.mem_append.mp hfinished with hmem | hmem
      · exact .inl (hold.finished c' p' b' hbefore hmem)
      · obtain rfl := List.mem_singleton.mp hmem
        refine .inr ⟨hold.linked c' p' b' hbefore ?_, rfl⟩
        rw [hb]
        simp

/-- A behaviour marks a slot ready. -/
theorem Consistent.setReady (h : a.Consistent P g)
    (hb : a.acquire b = ⟨[], none, true, c :: rest, n⟩) (hn : n ≠ 0) :
    ((a.setStatus b c .ready).setAcquire b ⟨[], none, true, rest, n⟩).Consistent P g := by
  have hshape := h.shaped.acquire b
  rw [hb] at hshape
  have hcowns : c ∈ P.cowns b := hshape.ready.subset (List.mem_cons_self ..)
  have hrest : c ∉ rest := (List.nodup_cons.mp (hshape.ready.sublist.nodup (P.nodup b))).1
  have hwait : a.status b c = .wait := by
    refine (h.chained.wait b c hcowns).mpr ?_
    rw [hb]
    exact List.mem_cons_self ..
  refine ⟨?_, ?_, ?_, ?_⟩
  · refine Shaped.setAcquire ⟨h.shaped.acquire, h.shaped.release, h.shaped.started⟩ ?_
    exact ⟨hshape.exchange, hshape.follows, fun _ => ⟨rfl, rfl⟩, fun hq => (by cases hq),
      (List.suffix_cons c rest).trans hshape.ready, fun howes => absurd howes hn⟩
  · have hold := h.chained
    constructor
    · exact hold.lastSlot
    · exact hold.nodup
    · intro c' b'
      have hmem' := hold.mem_queue c' b'
      grind
    · intro b' c' hc'
      have hwait' := hold.wait b' c' hc'
      grind
    · intro b' c' p' hfollows
      have hadj' := hold.follows b' c' p'
      grind
    · intro c' p' b' hp' hstatus
      have hadj' := hold.behaviour c' p' b'
      grind
    · intro c' p' b' hadj'
      have hlinked := hold.linked c' p' b' hadj'
      grind
  · exact h.accounted.congr (fun _ => rfl) (fun _ => rfl) (by grind) (fun _ => rfl) (by grind)
  · exact h.ordered.of_before (fun _ _ _ hbefore => hbefore) rfl (by grind) (by grind)

/-- A behaviour resolves its own count. -/
theorem Consistent.resolveOwn (h : a.Consistent P g)
    (hb : a.acquire b = ⟨[], none, true, [], n⟩) (hn : n ≠ 0) :
    ((a.resolve b n).setAcquire b ⟨[], none, true, [], 0⟩).Consistent P g := by
  have hshape := h.shaped.acquire b
  rw [hb] at hshape
  have hnot : ¬ a.Started P b := by
    refine h.not_started ?_
    rw [hb]
    exact hn
  refine ⟨?_, ?_, ?_, ?_⟩
  · refine Shaped.setAcquire ⟨h.shaped.acquire, h.shaped.release, ?_⟩ ?_
    · intro b' hb'
      have hstarted := h.shaped.started b'
      grind [Protocol.Started]
    · exact ⟨hshape.exchange, hshape.follows, hshape.acquired, hshape.acquiring, hshape.ready,
        fun _ => ⟨rfl, rfl⟩⟩
  · exact h.chained.congr (fun _ => rfl) (fun _ _ => rfl) (fun _ => rfl) (by grind) (by grind)
      (by grind) (fun _ => rfl)
  · exact h.accounted.congr (fun _ => rfl) (fun _ => rfl) (by grind) (fun _ => rfl) (by grind)
  · exact h.ordered.of_before (fun _ _ _ hbefore => hbefore) rfl (by grind) (by grind)

/-! ## Leaving a chain -/

/-- A behaviour that has run leaves a chain in which nobody follows. -/
theorem Consistent.leave (h : a.Consistent P g) (hb : a.release b = ⟨c :: rest, none⟩)
    (hstarted : a.Started P b) (hlast : a.lastSlot c = some b) :
    ((a.setLast c none).setRelease b ⟨rest, none⟩).Consistent P (g.leave c) := by
  have hsuffix := h.shaped.release b
  rw [hb] at hsuffix
  have hrest : c ∉ rest := (List.nodup_cons.mp (hsuffix.sublist.nodup (P.nodup b))).1
  have hhead : (g.queue c).head? = some b :=
    h.head_of_started hstarted (by rw [hb]; exact List.mem_cons_self ..)
  have hqueue : g.queue c = [b] := by
    have hlast' := h.chained.lastSlot c
    rw [hlast] at hlast'
    rcases last_or_adjacent (List.mem_of_mem_head? hhead) with - | ⟨x, hadj⟩
    · cases hq : g.queue c with
      | nil => simp [hq] at hhead
      | cons x t =>
        obtain rfl : x = b := by simpa [hq] using hhead
        cases t with
        | nil => rfl
        | cons y t =>
          have hnodup := h.chained.nodup c
          have hadj : Adjacent (g.queue c) x y := hq ▸ adjacent_head y t
          exact absurd hlast'.symm (hadj.ne_last hnodup)
    · exact absurd hlast'.symm (hadj.ne_last (h.chained.nodup c))
  have hnone : ∀ x y, ¬ Adjacent (g.queue c) x y := by
    intro x y
    rw [hqueue]
    exact not_adjacent_singleton
  have hnone' : ∀ x y, ¬ Adjacent (g.queue c).tail x y := by
    intro x y
    rw [hqueue]
    exact not_adjacent_nil
  have hres : ∀ x y, (a.release x).resolves ≠ some (c, y) := by
    intro x y hxy
    obtain rfl : b = y := Option.some.inj (hhead.symm.trans (h.accounted.head x c y hxy))
    exact h.not_started_of_due (h.due_of_resolves hxy) hstarted
  refine ⟨?_, ?_, ?_, ?_⟩
  · refine ⟨h.shaped.acquire, ?_, ?_⟩
    · intro b'
      have hold := h.shaped.release b'
      have hsub := (List.suffix_cons c rest).trans hsuffix
      grind
    · intro b' hb'
      have hold := h.shaped.started b'
      grind [Protocol.Started]
  · have hold := h.chained
    constructor
    · intro c'
      have hold := hold.lastSlot c'
      grind
    · intro c'
      have hold := hold.nodup c'
      grind
    · intro c' b'
      have hmem' := hold.mem_queue c' b'
      grind
    · exact hold.wait
    · intro b' c' p' hfollows
      have hadj' := hold.follows b' c' p'
      grind
    · intro c' p' b' hp' hstatus
      have hadj' := hold.behaviour c' p' b'
      grind
    · intro c' p' b' hadj'
      have hlinked := hold.linked c' p' b'
      grind
  · have hold := h.accounted
    constructor
    · exact hold.nodup
    · intro b' c'
      have hmem' := hold.mem_due b' c'
      have hadj : ∀ x, Adjacent ((g.leave c).queue c') x b' ↔ Adjacent (g.queue c') x b' := by
        grind
      have hres' : ∀ x, (((a.setLast c none).setRelease b ⟨rest, none⟩).release x).resolves =
          (a.release x).resolves := by
        grind
      simp only [hadj, hres']
      exact hmem'
    · intro x c' b' hx
      have hhead' := hold.head x c' b'
      grind
    · intro x x' c' b' hx hx'
      have hunique := hold.unique x x' c' b'
      grind
    · exact hold.sum
  · exact h.ordered.of_before (fun _ _ _ => Ledger.before_leave) rfl (fun _ => rfl) (fun _ => rfl)

/-- A behaviour that has run leaves a chain to the one that follows. -/
theorem Consistent.pass {b' : β} (h : a.Consistent P g) (hb : a.release b = ⟨c :: rest, none⟩)
    (hstarted : a.Started P b) (hstatus : a.status b c = .behaviour b') :
    (a.setRelease b ⟨rest, some (c, b')⟩).Consistent P (g.leave c) := by
  have hsuffix := h.shaped.release b
  rw [hb] at hsuffix
  have hrest : c ∉ rest := (List.nodup_cons.mp (hsuffix.sublist.nodup (P.nodup b))).1
  have hhead : (g.queue c).head? = some b :=
    h.head_of_started hstarted (by rw [hb]; exact List.mem_cons_self ..)
  have hnodup := h.chained.nodup c
  obtain ⟨hadj, hlinked⟩ := h.chained.behaviour c b b' (List.mem_of_mem_head? hhead) hstatus
  obtain ⟨t, hqueue⟩ : ∃ t, g.queue c = b :: b' :: t := by
    cases hq : g.queue c with
    | nil => simp [hq] at hhead
    | cons x t =>
      obtain rfl : x = b := by simpa [hq] using hhead
      cases t with
      | nil => exact absurd (hq ▸ hadj) not_adjacent_singleton
      | cons y t =>
        have hadj' : Adjacent (g.queue c) x y := hq ▸ adjacent_head y t
        obtain rfl := hadj.right_unique hnodup hadj'
        exact ⟨t, rfl⟩
  have htail : (g.queue c).tail = b' :: t := by rw [hqueue, List.tail_cons]
  have hadj_iff : ∀ x y, Adjacent (g.queue c) x y ↔
      x = b ∧ y = b' ∨ Adjacent (g.queue c).tail x y := by
    intro x y
    rw [htail, hqueue, adjacent_cons]
    simp [eq_comm]
  have hnot : b ∉ (g.queue c).tail := by
    rw [hqueue] at hnodup
    rw [htail]
    exact (List.nodup_cons.mp hnodup).1
  have hres : ∀ x y, (a.release x).resolves ≠ some (c, y) := by
    intro x y hxy
    obtain rfl : b = y := Option.some.inj (hhead.symm.trans (h.accounted.head x c y hxy))
    exact h.not_started_of_due (h.due_of_resolves hxy) hstarted
  refine ⟨?_, ?_, ?_, ?_⟩
  · refine ⟨h.shaped.acquire, ?_, ?_⟩
    · intro x
      have hold := h.shaped.release x
      have hsub := (List.suffix_cons c rest).trans hsuffix
      grind
    · intro x hx
      have hold := h.shaped.started x
      grind [Protocol.Started]
  · have hold := h.chained
    constructor
    · intro c'
      have hold := hold.lastSlot c'
      grind
    · intro c'
      have hold := hold.nodup c'
      grind
    · intro c' x
      have hmem' := hold.mem_queue c' x
      grind
    · exact hold.wait
    · intro x c' p' hfollows
      have hadj' := hold.follows x c' p'
      grind
    · intro c' p' x hp' hx
      have hadj' := hold.behaviour c' p' x
      grind
    · intro c' p' x hadj'
      have hlinked := hold.linked c' p' x
      grind
  · have hold := h.accounted
    constructor
    · exact hold.nodup
    · intro x c'
      have hmem' := hold.mem_due x c'
      have hres' : (∃ p', ((a.setRelease b ⟨rest, some (c, b')⟩).release p').resolves =
          some (c', x)) ↔ (∃ p', (a.release p').resolves = some (c', x)) ∨ c' = c ∧ x = b' := by
        constructor
        · rintro ⟨p', hp'⟩
          by_cases hpb : p' = b
          · grind
          · exact .inl ⟨p', by grind⟩
        · rintro (⟨p', hp'⟩ | ⟨rfl, rfl⟩)
          · exact ⟨p', by grind⟩
          · exact ⟨b, by simp⟩
      have hadj' : (∃ p', Adjacent (g.queue c') p' x) ↔
          (∃ p', Adjacent ((g.leave c).queue c') p' x) ∨ c' = c ∧ x = b' := by
        by_cases hc : c' = c
        · subst hc
          simp only [hadj_iff, exists_or, Ledger.queue_leave, if_true, true_and]
          simp [or_comm]
        · simp [hc]
      simp only [hres', acquire_setRelease, Ledger.due_leave]
      rw [hmem', hadj', or_assoc, or_comm (b := c' = c ∧ x = b')]
    · intro x c' y hx
      have hhead' := hold.head x c' y
      grind
    · intro x x' c' y hx hx'
      have hunique := hold.unique x x' c' y
      grind
    · exact hold.sum
  · exact h.ordered.of_before (fun _ _ _ => Ledger.before_leave) rfl (fun _ => rfl) (fun _ => rfl)

/-- A behaviour resolves the one that followed it, for which the cown is then not due. -/
theorem Consistent.resolveNext {b' : β} (h : a.Consistent P g)
    (hb : a.release b = ⟨rest, some (c, b')⟩) :
    ((a.resolve b' 1).setRelease b ⟨rest, none⟩).Consistent P (g.settle b' c) := by
  have hb' : (a.release b).resolves = some (c, b') := by rw [hb]
  have hdue := h.due_of_resolves hb'
  have hnot := h.not_started_of_due hdue
  have hhead := h.accounted.head b c b' hb'
  refine ⟨?_, ?_, ?_, ?_⟩
  · refine ⟨h.shaped.acquire, ?_, ?_⟩
    · intro x
      have hold := h.shaped.release x
      grind
    · intro x hx
      have hold := h.shaped.started x
      grind [Protocol.Started]
  · exact h.chained.congr (fun _ => rfl) (fun _ _ => rfl) (fun _ => rfl) (fun _ => rfl)
      (fun _ => rfl) (fun _ => rfl) (by grind)
  · have hold := h.accounted
    constructor
    · grind [hold.nodup, List.Nodup.erase]
    · intro x c'
      have hmem' := hold.mem_due x c'
      have hnodup := hold.nodup b'
      by_cases hx : x = b' ∧ c' = c
      · obtain ⟨rfl, rfl⟩ := hx
        have hqueue := (h.chained.mem_queue c' x).mp (List.mem_of_mem_head? hhead)
        refine iff_of_false ?_ ?_
        · simp [hnodup.mem_erase_iff]
        · rintro ⟨-, hex | ⟨p', hadj⟩ | ⟨p', hp'⟩⟩
          · exact hqueue.2.1 hex
          · exact hadj.ne_head (h.chained.nodup c') hhead
          · have hunique := hold.unique b p' c' x hb'
            grind
      · have hres' : ∀ p', (((a.resolve b' 1).setRelease b ⟨rest, none⟩).release p').resolves =
            some (c', x) ↔ (a.release p').resolves = some (c', x) := by
          grind
        simp only [hres', acquire_setRelease, acquire_resolve, Ledger.queue_settle]
        rw [← hmem']
        grind [List.Nodup.mem_erase_iff]
    · intro x c' y hx
      have hhead' := hold.head x c' y
      grind
    · intro x x' c' y hx hx'
      have hunique := hold.unique x x' c' y
      grind
    · intro x
      have hsum := hold.sum x
      have hpos := List.length_pos_of_mem hdue
      grind [List.length_erase_of_mem]
  · exact h.ordered.of_before (fun _ _ _ hbefore => hbefore) rfl (fun _ => rfl) (fun _ => rfl)

/-! ## All steps -/

/-- How a step changes the chains: a behaviour enters at the end, or the head leaves. -/
inductive Evolves (a : Protocol β κ) (g : Ledger β κ) (a' : Protocol β κ) (g' : Ledger β κ) : Prop
  /-- Nobody leaves a chain. -/
  | enter (hqueue : ∀ c, g'.queue c = g.queue c ∨ ∃ b, g'.queue c = g.queue c ++ [b])
      (hrelease : ∀ b, (a'.release b).toRelease = (a.release b).toRelease)
  /-- The head `b` leaves the chain of `c`. -/
  | leave {b : β} {c : κ} (hhead : (g.queue c).head? = some b)
      (hqueue : g' = g.leave c) (hleaver : (a.release b).toRelease = c :: (a'.release b).toRelease)
      (hrelease : ∀ b', b' ≠ b → (a'.release b').toRelease = (a.release b').toRelease)

/-- Every step keeps the state consistent with a ledger that evolves from the old one. -/
theorem Consistent.step {a' : Protocol β κ} (h : a.Consistent P g) (hstep : Step P a a') :
    ∃ g', a'.Consistent P g' ∧ Evolves a g a' g' := by
  cases hstep with
  | enterFree hb hlast =>
    refine ⟨_, h.enterFree hb hlast, .enter ?_ (fun _ => rfl)⟩
    intro c
    rw [Ledger.queue_settle, Ledger.queue_enter]
    grind
  | enterBehind hb hlast =>
    refine ⟨_, h.enterBehind hb hlast, .enter ?_ (fun _ => rfl)⟩
    intro c
    rw [Ledger.queue_enter]
    grind
  | link hb hready => exact ⟨_, h.link hb hready, .enter (fun _ => .inl rfl) (fun _ => rfl)⟩
  | finish hb => exact ⟨_, h.finish hb, .enter (fun _ => .inl rfl) (fun _ => rfl)⟩
  | ready hb hn => exact ⟨_, h.setReady hb hn, .enter (fun _ => .inl rfl) (fun _ => rfl)⟩
  | resolveOwn hb hn => exact ⟨_, h.resolveOwn hb hn, .enter (fun _ => .inl rfl) (fun _ => rfl)⟩
  | leave hb hstarted hlast =>
    refine ⟨_, h.leave hb hstarted hlast, .leave (h.head_of_started hstarted ?_) rfl ?_ ?_⟩
    · rw [hb]
      exact List.mem_cons_self ..
    · simp [hb]
    · grind
  | pass hb hstarted hstatus =>
    refine ⟨_, h.pass hb hstarted hstatus, .leave (h.head_of_started hstarted ?_) rfl ?_ ?_⟩
    · rw [hb]
      exact List.mem_cons_self ..
    · simp [hb]
    · grind
  | resolveNext hb =>
    refine ⟨_, h.resolveNext hb, .enter (fun _ => .inl rfl) ?_⟩
    intro b'
    rw [release_setRelease]
    grind

end Protocol

end VeronaRt
