import Mathlib.Data.List.Count
import VeronaFs.Runtime.AsymmetricLock

/-!
# Exclusion of the asymmetric lock

`external_lock` has one owner: an external thread, or the internal one while it waits or until its release
reaches the memory.  An external thread that owns it and has called the barrier sees the count of an
internal thread that has the lock; and while it owns it the internal thread cannot take the lock, since
its load of `external_lock` comes behind its store of the count.
-/

namespace VeronaRt.AsymmetricLock

open Foundation

variable {T : Type*}

/-! ## The invariant -/

/-- The count that the internal thread reads, where it is. -/
def Internal.Counts (depth count : ℕ) : Internal → Prop
  | .idle => count = depth
  | .acquireLoad => count = depth
  | .acquireStore n => n = depth ∧ count = depth
  | .acquireTest n => n = depth ∧ count = depth + 1
  | .rareLoad => depth = 0 ∧ count = 1
  | .rareStore n => depth = 0 ∧ n = 1 ∧ count = 1
  | .rareExchange => depth = 0 ∧ count = 0
  | .rareSet => depth = 0 ∧ count = 0
  | .rareRelease => depth = 0 ∧ count = 1
  | .releaseLoad => 0 < depth ∧ count = depth
  | .releaseStore n => 0 < depth ∧ n = depth ∧ count = depth

/-- The internal thread owns `external_lock`. -/
def Internal.Owns : Internal → Prop
  | .rareSet => True
  | .rareRelease => True
  | _ => False

/-- Whether the internal thread owns `external_lock` is decided by looking where it is. -/
instance : DecidablePred Internal.Owns := fun pc => by
  cases pc <;> unfold Internal.Owns <;> infer_instance

/-- An external thread owns `external_lock`. -/
def External.Owns : External → Prop
  | .tryBarrier => True
  | .tryTest => True
  | .tryRelease => True
  | .spinBarrier => True
  | .spinTest => True
  | .holding => True
  | _ => False

/-- An external thread has called the barrier and is to load the count. -/
def External.Fenced : External → Prop
  | .tryTest => True
  | .spinTest => True
  | _ => False

/-- An external thread that has called the barrier owns `external_lock`. -/
theorem External.Fenced.owns {pc : External} (h : pc.Fenced) : pc.Owns := by
  cases pc <;> trivial

namespace State

/-- How often the internal thread is to give up `external_lock`, or its pending stores are. -/
def owned (s : State T) : ℕ :=
  s.lock.pending.count (.externalLock false) + if s.internal.Owns then 1 else 0

/-- What holds in all states. -/
structure Invariant (s : State T) : Prop where
  /-- The count is that of the calls. -/
  counts : s.internal.Counts s.depth s.read.internalLock
  /-- The internal thread stores only releases of `external_lock`. -/
  releases : .externalLock true ∉ s.lock.pending
  /-- It owns `external_lock` once. -/
  owned_le : s.owned ≤ 1
  /-- What it owns is taken, and by no external thread. -/
  owned_internal : 0 < s.owned → s.lock.memory.externalLock = true ∧ ∀ t, ¬ (s.external t).Owns
  /-- What an external thread owns is taken. -/
  owned_external : ∀ t, (s.external t).Owns → s.lock.memory.externalLock = true
  /-- One external thread owns it. -/
  unique : ∀ t t', (s.external t).Owns → (s.external t').Owns → t = t'
  /-- An external thread that has called the barrier sees that the internal thread has the lock. -/
  fenced : ∀ t, (s.external t).Fenced → 0 < s.depth → 0 < s.lock.memory.internalLock ∧
    ∀ n, .internalLock n ∈ s.lock.pending → 0 < n
  /-- The internal thread does not have the lock when an external thread has it. -/
  exclusive : ∀ t, s.external t = .holding → s.depth = 0

/-- No two threads have the lock, and no count is less than one when it is decreased. -/
structure Safe (s : State T) : Prop where
  /-- The internal thread and an external one do not both have the lock. -/
  exclusive : ∀ t, s.external t = .holding → s.depth = 0
  /-- At most one external thread has it. -/
  unique : ∀ t t', s.external t = .holding → s.external t' = .holding → t = t'
  /-- The count does not underflow. -/
  positive : ∀ n, s.internal = .rareStore n ∨ s.internal = .releaseStore n → 0 < n

/-! ## What the internal thread reads -/

variable {s s' : State T} {n : ℕ} {pc : Internal} {epc : External} {t t' : T} {a : Store}

/-- What the internal thread reads after a store. -/
@[simp] theorem read_store : (s.store a pc).read = write s.read a := StoreBuffer.view_store

/-- A step that neither stores a release nor changes who owns the flag. -/
theorem owned_congr
    (hcount : s'.lock.pending.count (.externalLock false) = s.lock.pending.count (.externalLock false))
    (howns : s'.internal.Owns ↔ s.internal.Owns) : s'.owned = s.owned := by
  rw [owned, owned, hcount]
  simp only [howns]

/-- What the thread owns besides its pending stores. -/
theorem owned_le_count : s.owned ≤ s.lock.pending.count (.externalLock false) + 1 := by
  unfold owned
  split <;> omega

namespace Invariant

/-- The internal thread does not own what an external thread owns. -/
theorem owned_eq_zero (h : Invariant s) (ht : (s.external t).Owns) : s.owned = 0 := by
  by_contra hne
  exact (h.owned_internal (Nat.pos_of_ne_zero hne)).2 t ht

/-- The internal thread reads the flag of the memory if it does not own it. -/
theorem read_externalLock (h : Invariant s) (hzero : s.owned = 0) :
    s.read.externalLock = s.lock.memory.externalLock := by
  refine StoreBuffer.view_congr (f := externalLock) fun a ha l => ?_
  cases a with
  | internalLock n => rfl
  | externalLock held =>
    cases held with
    | true => exact absurd ha h.releases
    | false =>
      have hpos := List.count_pos_iff.mpr ha
      unfold owned at hzero
      omega

/-- The internal thread sees that an external thread owns the flag. -/
theorem read_externalLock_true (h : Invariant s) (ht : (s.external t).Owns) :
    s.read.externalLock = true :=
  (h.read_externalLock (h.owned_eq_zero ht)).trans (h.owned_external t ht)

/-! ## Steps of the internal thread -/

/-- The internal thread goes on without a store.  It takes the lock only if it has it, or if no external
thread owns the flag. -/
theorem goto (h : Invariant s) (pc : Internal) (depth : ℕ) (fresh : Bool)
    (hcounts : pc.Counts depth s.read.internalLock) (howns : pc.Owns ↔ s.internal.Owns)
    (hdepth : 0 < depth → 0 < s.depth ∨ ∀ t, ¬ (s.external t).Owns) :
    Invariant { s with internal := pc, depth := depth, fresh := fresh } := by
  have howned : { s with internal := pc, depth := depth, fresh := fresh }.owned = s.owned :=
    owned_congr rfl howns
  refine ⟨hcounts, h.releases, howned ▸ h.owned_le, fun hpos => h.owned_internal (howned ▸ hpos),
    h.owned_external, h.unique, fun t ht hpos => ?_, fun t ht => ?_⟩
  · rcases hdepth hpos with hold | hnone
    · exact h.fenced t ht hold
    · exact absurd ht.owns (hnone t)
  · by_contra hne
    rcases hdepth (Nat.pos_of_ne_zero hne) with hold | hnone
    · exact Nat.ne_of_gt hold (h.exclusive t ht)
    · exact hnone t (ht ▸ trivial)

/-- The internal thread stores the count. -/
theorem store (h : Invariant s) (n : ℕ) (pc : Internal) (depth : ℕ) (hcounts : pc.Counts depth n)
    (howns : pc.Owns ↔ s.internal.Owns) (hdepth : 0 < depth → 0 < s.depth ∧ 0 < n) :
    Invariant { s.store (.internalLock n) pc with depth := depth } := by
  have howned : { s.store (.internalLock n) pc with depth := depth }.owned = s.owned := by
    refine owned_congr ?_ howns
    simp [State.store, StoreBuffer.store, List.count_append]
  refine ⟨?_, fun hmem => ?_, howned ▸ h.owned_le, fun hpos => h.owned_internal (howned ▸ hpos),
    h.owned_external, h.unique, fun t ht hpos => ?_, fun t ht => ?_⟩
  · change pc.Counts depth (s.store (.internalLock n) pc).read.internalLock
    rw [read_store]
    exact hcounts
  · rcases List.mem_append.mp hmem with hmem | hmem
    · exact h.releases hmem
    · cases List.mem_singleton.mp hmem
  · obtain ⟨hold, hn⟩ := hdepth hpos
    obtain ⟨hmemory, hpending⟩ := h.fenced t ht hold
    refine ⟨hmemory, fun m hm => ?_⟩
    rcases List.mem_append.mp hm with hm | hm
    · exact hpending m hm
    · cases List.mem_singleton.mp hm
      exact hn
  · by_contra hne
    exact Nat.ne_of_gt (hdepth (Nat.pos_of_ne_zero hne)).1 (h.exclusive t ht)

/-- The internal thread exchanges the flag. -/
theorem internalExchange (h : Invariant s) (hpc : s.internal = .rareExchange) :
    Invariant { s with
      lock := (s.lock.flush write).put write (.externalLock true)
      internal := if s.read.externalLock then .rareExchange else .rareSet } := by
  obtain ⟨hdepth, hcount⟩ : s.depth = 0 ∧ s.read.internalLock = 0 := by
    have hcounts := h.counts
    rwa [hpc] at hcounts
  refine ⟨?_, List.not_mem_nil, owned_le_count, fun hpos => ⟨rfl, fun t ht => ?_⟩, fun t _ => rfl,
    h.unique, fun t _ hpos => ?_, h.exclusive⟩
  · split <;> exact ⟨hdepth, hcount⟩
  · -- an external owner would have been seen
    have hpos' : 0 < List.count (Store.externalLock false) [] +
        if (if s.read.externalLock then Internal.rareExchange else .rareSet).Owns then 1 else 0 := hpos
    rw [h.read_externalLock_true ht, if_pos rfl, List.count_nil] at hpos'
    exact absurd hpos' (by decide)
  · exact absurd hpos (by rw [hdepth]; exact Nat.lt_irrefl 0)

/-- The internal thread gives up the flag and has the lock. -/
theorem internalRelease (h : Invariant s) (hpc : s.internal = .rareRelease) (fresh : Bool) :
    Invariant ((s.store (.externalLock false) .idle).acquired fresh) := by
  obtain ⟨hdepth, hcount⟩ : s.depth = 0 ∧ s.read.internalLock = 1 := by
    have hcounts := h.counts
    rwa [hpc] at hcounts
  have hle := h.owned_le
  have howned : s.owned = s.lock.pending.count (.externalLock false) + 1 := by
    rw [owned, hpc]
    rfl
  have hcount' : ((s.store (.externalLock false) .idle).acquired fresh).owned = s.owned := by
    rw [howned, owned]
    simp [acquired, State.store, StoreBuffer.store, List.count_append, Internal.Owns]
  obtain ⟨hflag, hnone⟩ := h.owned_internal (by omega)
  refine ⟨?_, fun hmem => ?_, hcount' ▸ hle, fun _ => ⟨hflag, hnone⟩, h.owned_external, h.unique,
    fun t ht => absurd ht.owns (hnone t), fun t ht => absurd (ht ▸ trivial) (hnone t)⟩
  · change (s.store (.externalLock false) .idle).read.internalLock = s.depth + 1
    rw [read_store, hdepth]
    exact hcount
  · rcases List.mem_append.mp hmem with hmem | hmem
    · exact h.releases hmem
    · cases List.mem_singleton.mp hmem

/-- A step of a call of the internal thread. -/
theorem internalStep (h : Invariant s) (hs : s.internalStep = some s') : Invariant s' := by
  have hcounts := h.counts
  unfold State.internalStep at hs
  cases hpc : s.internal with
  | idle =>
    simp only [hpc] at hs
    cases hs
  | acquireLoad =>
    simp only [hpc, Option.some.injEq] at hs hcounts
    subst hs
    exact h.goto _ s.depth s.fresh ⟨hcounts, hcounts⟩ (by rw [hpc]; rfl) Or.inl
  | acquireStore count =>
    simp only [hpc, Option.some.injEq] at hs hcounts
    subst hs
    obtain ⟨rfl, -⟩ := hcounts
    exact h.store _ _ s.depth ⟨rfl, rfl⟩ (by rw [hpc]; rfl) fun hpos => ⟨hpos, Nat.succ_pos _⟩
  | acquireTest count =>
    simp only [hpc] at hs hcounts
    obtain ⟨rfl, hread⟩ := hcounts
    have howns : Internal.Owns .idle ↔ s.internal.Owns := by rw [hpc]; rfl
    by_cases hpos : 0 < s.depth
    · rw [if_pos hpos] at hs
      cases hs
      exact h.goto _ _ false hread howns fun _ => Or.inl hpos
    · rw [if_neg hpos] at hs
      by_cases hflag : s.read.externalLock = true
      · rw [if_pos hflag] at hs
        cases hs
        have hzero : s.depth = 0 := Nat.eq_zero_of_not_pos hpos
        exact h.goto _ s.depth s.fresh ⟨hzero, by omega⟩ (by rw [hpc]; rfl) Or.inl
      · rw [if_neg hflag] at hs
        cases hs
        exact h.goto _ _ true hread howns fun _ =>
          Or.inr fun t ht => hflag (h.read_externalLock_true ht)
  | rareLoad =>
    simp only [hpc, Option.some.injEq] at hs hcounts
    subst hs
    obtain ⟨hzero, hread⟩ := hcounts
    exact h.goto _ s.depth s.fresh ⟨hzero, hread, hread⟩ (by rw [hpc]; rfl) Or.inl
  | rareStore count =>
    simp only [hpc, Option.some.injEq] at hs hcounts
    subst hs
    obtain ⟨hzero, rfl, -⟩ := hcounts
    exact h.store _ _ s.depth ⟨hzero, rfl⟩ (by rw [hpc]; rfl) fun hpos => by omega
  | rareExchange =>
    simp only [hpc, Option.some.injEq] at hs
    subst hs
    exact h.internalExchange hpc
  | rareSet =>
    simp only [hpc, Option.some.injEq] at hs hcounts
    subst hs
    obtain ⟨hzero, -⟩ := hcounts
    exact h.store _ _ s.depth ⟨hzero, rfl⟩ (by rw [hpc]; rfl) fun hpos => by omega
  | rareRelease =>
    simp only [hpc, Option.some.injEq] at hs
    subst hs
    exact h.internalRelease hpc true
  | releaseLoad =>
    simp only [hpc, Option.some.injEq] at hs hcounts
    subst hs
    obtain ⟨hpos, hread⟩ := hcounts
    exact h.goto _ s.depth s.fresh ⟨hpos, hread, hread⟩ (by rw [hpc]; rfl) Or.inl
  | releaseStore count =>
    simp only [hpc, Option.some.injEq] at hs hcounts
    subst hs
    obtain ⟨hpos, rfl, -⟩ := hcounts
    exact h.store _ _ (s.depth - 1) rfl (by rw [hpc]; rfl) fun hpos' => ⟨hpos, hpos'⟩

/-- The oldest store of the internal thread reaches the memory. -/
theorem drain (h : Invariant s) {lock : StoreBuffer AsymmetricLock Store}
    (hlock : s.lock.drain write = some lock) : Invariant { s with lock := lock } := by
  obtain ⟨a, hpending, hmemory⟩ := StoreBuffer.drain_some hlock
  have hread : { s with lock := lock }.read = s.read := StoreBuffer.view_drain hlock
  have hmem {a' : Store} (ha' : a' ∈ lock.pending) : a' ∈ s.lock.pending := by
    rw [hpending]
    exact List.mem_cons_of_mem a ha'
  have hcount : { s with lock := lock }.owned + (if a = .externalLock false then 1 else 0) =
      s.owned := by
    rw [owned, owned, hpending, List.count_cons]
    simp only [beq_iff_eq]
    omega
  have hle := h.owned_le
  have ha : a ≠ .externalLock true := by
    rintro rfl
    exact h.releases (hpending ▸ List.mem_cons_self)
  have hcounts : s.internal.Counts s.depth { s with lock := lock }.read.internalLock := by
    rw [hread]
    exact h.counts
  have hreleases : .externalLock true ∉ lock.pending := fun hmem' => h.releases (hmem hmem')
  cases a with
  | internalLock n =>
    rw [if_neg Store.noConfusion, Nat.add_zero] at hcount
    have hflag : lock.memory.externalLock = s.lock.memory.externalLock := by
      rw [hmemory]
      rfl
    refine ⟨hcounts, hreleases, hcount ▸ hle, fun hpos => ?_, fun t ht => ?_, h.unique,
      fun t ht hpos => ?_, h.exclusive⟩
    · exact hflag ▸ h.owned_internal (hcount ▸ hpos)
    · exact hflag.trans (h.owned_external t ht)
    · obtain ⟨-, hall⟩ := h.fenced t ht hpos
      refine ⟨?_, fun n' hn' => hall n' (hmem hn')⟩
      simp only [hmemory]
      exact hall n (hpending ▸ List.mem_cons_self)
  | externalLock held =>
    obtain rfl : held = false := by
      cases held with
      | true => exact absurd rfl ha
      | false => rfl
    rw [if_pos rfl] at hcount
    -- the thread gives up the flag, which nobody else owned
    obtain ⟨-, hnone⟩ := h.owned_internal (by omega)
    exact ⟨hcounts, hreleases, by omega, fun hpos => by omega, fun t ht => absurd ht (hnone t),
      h.unique, fun t ht => absurd ht.owns (hnone t), h.exclusive⟩

/-! ## Steps of external threads -/

section External

variable [DecidableEq T]

/-- A property of the external threads after one of them went on. -/
theorem forall_update {P : External → Prop} {epc : External} (t' : T)
    (h : P (Function.update s.external t epc t')) : t' = t ∧ P epc ∨ t' ≠ t ∧ P (s.external t') := by
  rw [Function.update_apply] at h
  split at h
  · next heq => exact Or.inl ⟨heq, h⟩
  · next hne => exact Or.inr ⟨hne, h⟩

/-- An external thread goes on without taking the flag. -/
theorem externalGoto (h : Invariant s) (t : T) (epc : External)
    (howns : epc.Owns → (s.external t).Owns) (hfenced : epc.Fenced → (s.external t).Fenced)
    (hholding : epc = .holding → s.depth = 0) : Invariant (s.goto t epc) := by
  have howner {t' : T} (ht' : (Function.update s.external t epc t').Owns) :
      (s.external t').Owns := by
    rcases forall_update t' ht' with ⟨rfl, hown⟩ | ⟨-, hown⟩
    · exact howns hown
    · exact hown
  refine ⟨h.counts, h.releases, h.owned_le, fun hpos => ?_, fun t' ht' => ?_, fun t₁ t₂ h₁ h₂ => ?_,
    fun t' ht' => ?_, fun t' ht' => ?_⟩
  · obtain ⟨hflag, hnone⟩ := h.owned_internal hpos
    exact ⟨hflag, fun t' ht' => hnone t' (howner ht')⟩
  · exact h.owned_external t' (howner ht')
  · exact h.unique t₁ t₂ (howner h₁) (howner h₂)
  · rcases forall_update t' ht' with ⟨rfl, hfence⟩ | ⟨-, hfence⟩
    · exact h.fenced t' (hfenced hfence)
    · exact h.fenced t' hfence
  · rcases forall_update (P := (· = .holding)) t' ht' with ⟨-, hhold⟩ | ⟨-, hhold⟩
    · exact hholding hhold
    · exact h.exclusive t' hhold

/-- An external thread exchanges the flag. -/
theorem exchange (h : Invariant s) (t : T) (held free : External) (hheld : ¬ held.Owns)
    (hfree : ¬ free.Fenced) (hholding : free ≠ .holding) : Invariant (s.exchange t held free) := by
  by_cases hflag : s.lock.memory.externalLock = true
  · -- the exchange changes nothing
    have hsame : s.exchange t held free = s.goto t held := by
      have hlock : s.lock.put write (.externalLock true) = s.lock := by
        rw [StoreBuffer.put, write, ← hflag]
      rw [State.exchange, hlock, if_pos hflag, State.goto]
    rw [hsame]
    exact h.externalGoto t held (fun hown => absurd hown hheld) (fun hf => absurd hf.owns hheld)
      fun hhold => absurd (hhold ▸ trivial) hheld
  · have hzero : s.owned = 0 := by
      by_contra hne
      exact hflag (h.owned_internal (Nat.pos_of_ne_zero hne)).1
    have hnone (t' : T) : ¬ (s.external t').Owns := fun hown => hflag (h.owned_external t' hown)
    have howner {t' : T} (ht' : ((s.exchange t held free).external t').Owns) : t' = t := by
      rcases forall_update t' ht' with ⟨heq, -⟩ | ⟨-, hown⟩
      · exact heq
      · exact absurd hown (hnone t')
    have hread : (s.exchange t held free).read.internalLock = s.read.internalLock := by
      refine StoreBuffer.view_put (f := internalLock) (fun l l' hl a _ => ?_) rfl
      cases a with
      | internalLock n => rfl
      | externalLock held => exact hl
    refine ⟨hread ▸ h.counts, h.releases, h.owned_le, fun hpos => ?_, fun _ _ => rfl,
      fun t₁ t₂ h₁ h₂ => (howner h₁).trans (howner h₂).symm, fun t' ht' => ?_, fun t' ht' => ?_⟩
    · exact absurd hpos (Nat.not_lt.mpr (Nat.le_of_eq hzero))
    · have hfence : t' = t ∧ free.Fenced ∨ t' ≠ t ∧ (s.external t').Fenced := by
        have hupdate := forall_update t' ht'
        rwa [if_neg hflag] at hupdate
      rcases hfence with ⟨-, hf⟩ | ⟨-, hf⟩
      · exact absurd hf hfree
      · exact absurd hf.owns (hnone t')
    · have hhold : t' = t ∧ free = .holding ∨ t' ≠ t ∧ s.external t' = .holding := by
        have hupdate := forall_update (P := (· = .holding)) t' ht'
        rwa [if_neg hflag] at hupdate
      rcases hhold with ⟨-, hf⟩ | ⟨-, hf⟩
      · exact absurd hf hholding
      · exact h.exclusive t' hf

/-- An external thread that owns the flag calls the barrier. -/
theorem barrier (h : Invariant s) (t : T) (epc : External) (howns : (s.external t).Owns)
    (hholding : epc ≠ .holding) : Invariant (s.barrier t epc) := by
  have hzero := h.owned_eq_zero howns
  have hflag := h.read_externalLock_true howns
  have howned : (s.barrier t epc).owned = 0 := by
    rw [owned] at hzero ⊢
    change List.count _ [] + (if s.internal.Owns then 1 else 0) = 0
    rw [List.count_nil]
    omega
  have howner {t' : T} (ht' : (Function.update s.external t epc t').Owns) :
      (s.external t').Owns := by
    rcases forall_update t' ht' with ⟨rfl, -⟩ | ⟨-, hown⟩
    · exact howns
    · exact hown
  refine ⟨h.counts, List.not_mem_nil, howned ▸ Nat.zero_le 1, fun hpos => ?_, fun t' _ => hflag,
    fun t₁ t₂ h₁ h₂ => h.unique t₁ t₂ (howner h₁) (howner h₂), fun t' ht' hpos => ⟨?_, ?_⟩,
    fun t' ht' => ?_⟩
  · exact absurd hpos (Nat.not_lt.mpr (Nat.le_of_eq howned))
  · -- what the internal thread reads is now in the memory
    have hcounts := h.counts
    have hpos' : 0 < s.depth := hpos
    change 0 < s.read.internalLock
    cases hpc : s.internal <;> rw [hpc] at hcounts <;> simp only [Internal.Counts] at hcounts <;> omega
  · exact fun n hn => absurd hn List.not_mem_nil
  · rcases forall_update (P := (· = .holding)) t' ht' with ⟨-, hhold⟩ | ⟨-, hhold⟩
    · exact absurd hhold hholding
    · exact h.exclusive t' hhold

/-- An external thread that owns the flag gives it up. -/
theorem release (h : Invariant s) (t : T) (howns : (s.external t).Owns) : Invariant (s.release t) := by
  have hzero := h.owned_eq_zero howns
  have hnone (t' : T) : ¬ ((s.release t).external t').Owns := fun hown => by
    rcases forall_update t' hown with ⟨-, hidle⟩ | ⟨hne, hown⟩
    · exact hidle
    · exact hne (h.unique t' t hown howns)
  have hread : (s.release t).read.internalLock = s.read.internalLock := by
    refine StoreBuffer.view_put (f := internalLock) (fun l l' hl a _ => ?_) rfl
    cases a with
    | internalLock n => rfl
    | externalLock held => exact hl
  refine ⟨hread ▸ h.counts, h.releases, h.owned_le, fun hpos => ?_, fun t' ht' => absurd ht' (hnone t'),
    fun t₁ t₂ h₁ => absurd h₁ (hnone t₁), fun t' ht' => absurd ht'.owns (hnone t'),
    fun t' ht' => absurd (ht' ▸ trivial) (hnone t')⟩
  exact absurd hpos (Nat.not_lt.mpr (Nat.le_of_eq hzero))

omit [DecidableEq T] in
/-- A thread that sees no count behind the barrier has the lock alone. -/
theorem depth_eq_zero (h : Invariant s) (hfenced : (s.external t).Fenced)
    (hcount : s.lock.memory.internalLock = 0) : s.depth = 0 := by
  by_contra hne
  exact Nat.ne_of_gt (h.fenced t hfenced (Nat.pos_of_ne_zero hne)).1 hcount

/-- A step of a call of an external thread. -/
theorem externalStep (h : Invariant s) (hs : s.externalStep t = some s') : Invariant s' := by
  unfold State.externalStep at hs
  cases hpc : s.external t with
  | idle =>
    simp only [hpc] at hs
    cases hs
  | tryLoad =>
    simp only [hpc, Option.some.injEq] at hs
    subst hs
    split
    · exact h.externalGoto t _ (fun hown => hown.elim) (fun hf => hf.elim) nofun
    · exact h.externalGoto t _ (fun hown => hown.elim) (fun hf => hf.elim) nofun
  | tryExchange =>
    simp only [hpc, Option.some.injEq] at hs
    subst hs
    exact h.exchange t _ _ (fun hown => hown) (fun hf => hf) nofun
  | tryBarrier =>
    simp only [hpc, Option.some.injEq] at hs
    subst hs
    exact h.barrier t _ (hpc ▸ trivial) nofun
  | tryTest =>
    simp only [hpc, Option.some.injEq] at hs
    subst hs
    have hfenced : (s.external t).Fenced := hpc ▸ trivial
    split
    · next hcount =>
      exact h.externalGoto t _ (fun _ => hfenced.owns) (fun _ => hfenced) fun _ =>
        h.depth_eq_zero hfenced hcount
    · exact h.externalGoto t _ (fun _ => hfenced.owns) (fun _ => hfenced) nofun
  | tryRelease =>
    simp only [hpc, Option.some.injEq] at hs
    subst hs
    exact h.release t (hpc ▸ trivial)
  | spinExchange =>
    simp only [hpc, Option.some.injEq] at hs
    subst hs
    exact h.exchange t _ _ (fun hown => hown) (fun hf => hf) nofun
  | spinBarrier =>
    simp only [hpc, Option.some.injEq] at hs
    subst hs
    exact h.barrier t _ (hpc ▸ trivial) nofun
  | spinTest =>
    simp only [hpc, Option.some.injEq] at hs
    subst hs
    have hfenced : (s.external t).Fenced := hpc ▸ trivial
    split
    · next hcount =>
      exact h.externalGoto t _ (fun _ => hfenced.owns) (fun _ => hfenced) fun _ =>
        h.depth_eq_zero hfenced hcount
    · exact h.externalGoto t _ (fun _ => hfenced.owns) (fun _ => hfenced) nofun
  | holding =>
    simp only [hpc] at hs
    cases hs

/-! ## Runs -/

/-- Every step keeps the invariant. -/
theorem step {act : Action T} (h : Invariant s) (hs : s.step act = some s') : Invariant s' := by
  have hcounts := h.counts
  cases act with
  | internalAcquire =>
    simp only [State.step] at hs
    split at hs
    · next hpc =>
      cases hs
      rw [hpc] at hcounts
      exact h.goto _ s.depth s.fresh hcounts (by rw [hpc]; rfl) Or.inl
    · cases hs
  | internalRelease =>
    simp only [State.step] at hs
    split at hs
    · next hpc =>
      cases hs
      rw [hpc.1] at hcounts
      exact h.goto _ s.depth s.fresh ⟨hpc.2, hcounts⟩ (by rw [hpc.1]; rfl) Or.inl
    · cases hs
  | internal => exact h.internalStep hs
  | drain =>
    obtain ⟨lock, hlock, rfl⟩ := Option.map_eq_some_iff.mp hs
    exact h.drain hlock
  | tryExternalAcquire t =>
    simp only [State.step] at hs
    split at hs
    · cases hs
      exact h.externalGoto t _ (fun hown => hown.elim) (fun hf => hf.elim) nofun
    · cases hs
  | externalAcquire t =>
    simp only [State.step] at hs
    split at hs
    · cases hs
      exact h.externalGoto t _ (fun hown => hown.elim) (fun hf => hf.elim) nofun
    · cases hs
  | externalRelease t =>
    simp only [State.step] at hs
    split at hs
    · next hpc =>
      cases hs
      exact h.release t (hpc ▸ trivial)
    · cases hs
  | external t => exact h.externalStep hs

end External

end Invariant

/-- A new lock has the invariant. -/
theorem invariant_initial : Invariant (State.initial T) where
  counts := rfl
  releases := List.not_mem_nil
  owned_le := Nat.zero_le 1
  owned_internal := fun hpos => absurd hpos (Nat.lt_irrefl 0)
  owned_external := fun _ hown => hown.elim
  unique := fun _ _ hown => hown.elim
  fenced := fun _ hf => hf.elim
  exclusive := nofun

/-- The invariant gives exclusion. -/
theorem Invariant.safe (h : Invariant s) : Safe s where
  exclusive := h.exclusive
  unique := fun t t' ht ht' => h.unique t t' (ht ▸ trivial) (ht' ▸ trivial)
  positive := by
    have hcounts := h.counts
    rintro n (hpc | hpc)
    · rw [hpc] at hcounts
      exact hcounts.2.1 ▸ Nat.one_pos
    · rw [hpc] at hcounts
      exact hcounts.2.1 ▸ hcounts.1

/-- No two threads ever have the lock, and the count never underflows, however the stores of the internal
thread are delayed. -/
theorem reached_safe [DecidableEq T] (h : Reached s) : Safe s := by
  have hinv : Invariant s := by
    induction h with
    | initial => exact invariant_initial
    | step hs hstep ih => exact ih.step hstep
  exact hinv.safe

/-- A list of steps leads to a state of the lock. -/
theorem reached_of_foldlM [DecidableEq T] {acts : List (Action T)} (h : Reached s)
    (hs : acts.foldlM State.step s = some s') : Reached s' := by
  induction acts generalizing s with
  | nil => exact Option.some.inj hs ▸ h
  | cons act acts ih =>
    rw [List.foldlM_cons] at hs
    obtain ⟨s₁, hs₁, hs⟩ := Option.bind_eq_some_iff.mp hs
    exact ih (h.step hs₁) hs

/-- An external thread starts while the store of the internal thread is delayed. -/
def delayedStore : List (Action (Fin 2)) :=
  [.internalAcquire, .internal, .internal, .tryExternalAcquire 0, .external 0, .internal, .external 0,
    .external 0, .external 0]

/-- The theorem at a run in which the barrier makes a delayed store visible. -/
theorem reached_safe_delayedStore :
    ∃ s, delayedStore.foldlM State.step (State.initial (Fin 2)) = some s ∧ s.depth = 1 ∧
      s.external 0 = .tryRelease ∧ Safe s :=
  ⟨_, rfl, rfl, rfl, reached_safe (reached_of_foldlM Reached.initial (rfl : delayedStore.foldlM _ _ = _))⟩

end State

end VeronaRt.AsymmetricLock
