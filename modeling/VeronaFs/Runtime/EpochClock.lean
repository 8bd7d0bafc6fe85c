import VeronaFs.Runtime.Epoch
import VeronaFs.Runtime.Clock

/-!
# The global epoch

The lock of a record keeps other threads from ejecting a thread that uses its epoch, and the records
with the global epoch are a clock with members that lag by one.  So the global epoch only advances by
one, and a record that is not ejected and not rejoining holds the global epoch or the one before it.
-/

namespace VeronaRt.Epoch

open Foundation

variable {ι ω : Type*}

/-! ## Where the lock is held -/

/-- The call of `in_epoch_try_eject` holds the external lock. -/
def EjectPc.Holding : EjectPc → Prop
  | .tryLoad | .tryExchange => False
  | _ => True

/-- The call of `in_epoch_try_eject` has the external lock and no thread inside. -/
def EjectPc.Ejecting : EjectPc → Prop
  | .check | .load | .store _ | .release => True
  | _ => False

/-- The thread of `i` holds the external lock of the record `o`. -/
def Pc.Holds (i o : ι) : Pc ι → Prop
  | .rareStore | .rareFree => o = i
  | .eject p _ o' _ => o = o' ∧ p.Holding
  | _ => False

/-- The thread uses its epoch: it has acquired the internal lock. -/
def Pc.Locked : Pc ι → Prop
  | .free | .outside | .externalCheck | .rareRelease | .rareExchange | .rareStore | .rareFree => False
  | .exitLoad | .exitStore _ => False
  | _ => True

/-- The thread has published an epoch since it acquired the internal lock. -/
def Pc.Published : Pc ι → Prop
  | .useLoad | .useCompare _ | .rejoinLoad | .rejoinPublish _ _ => False
  | pc => pc.Locked

/-- The value of `internal_lock`. -/
def Pc.Counts (n : ℕ) : Pc ι → Prop
  | .inside => 1 ≤ n
  | .free | .outside | .rareExchange | .rareStore | .exitLoad | .exitStore _ => n = 0
  | _ => n = 1

/-- The record is inside the loop of `rejoin_epoch`. -/
def Pc.InRejoinLoop : Pc ι → Prop
  | .rejoinReload _ _ | .rejoinStore _ _ _ => True
  | _ => False

/-- What the locks of the records guarantee. -/
structure State.Locks (s : State ι ω) : Prop where
  /-- The internal lock counts the threads inside. -/
  counts : ∀ i, (s.record i).pc.Counts (s.record i).internal
  /-- The external lock is set while it is held. -/
  external : ∀ i o, (s.record i).pc.Holds i o → (s.record o).external = true
  /-- One thread at a time holds the external lock. -/
  unique : ∀ i j o, (s.record i).pc.Holds i o → (s.record j).pc.Holds j o → i = j
  /-- No thread uses the epoch of a record that is being ejected. -/
  ejecting : ∀ i p e o rest, (s.record i).pc = .eject p e o rest → p.Ejecting →
    ¬ (s.record o).pc.Locked
  /-- The number that `eject` has loaded stays. -/
  loaded : ∀ i x e o rest, (s.record i).pc = .eject (.store x) e o rest →
    x.number = (s.record o).epoch.number
  /-- The number that a thread has loaded at its exit stays. -/
  exiting : ∀ i x, (s.record i).pc = .exitStore x → x.number = (s.record i).epoch.number
  /-- A thread that uses its epoch is not ejected. -/
  published : ∀ i, (s.record i).pc.Published → (s.record i).epoch.ejected = false
  /-- A thread that rejoins was ejected. -/
  rejoining : ∀ i, (s.record i).pc = .rejoinLoad → (s.record i).epoch.ejected = true
  /-- A thread that rejoins has read its old epoch. -/
  old : ∀ i old new, (s.record i).pc = .rejoinPublish old new →
    (s.record i).epoch.ejected = true ∧ (s.record i).epoch.number = old
  /-- A record that was not allocated is not in use. -/
  pool : ∀ i, i ∉ s.pool → (s.record i).pc = .free ∧ (s.record i).epoch.ejected = true

/-! ## What a step does to the locks -/

/-- What the step of the thread of `i` does to the locks. -/
structure State.Lawful (s s' : State ι ω) (i : ι) : Prop where
  /-- The other threads stay where they are. -/
  pc : ∀ j, j ≠ i → (s'.record j).pc = (s.record j).pc
  /-- The internal locks of the other threads stay. -/
  internal : ∀ j, j ≠ i → (s'.record j).internal = (s.record j).internal
  /-- The epoch of another thread stays, or it is ejected while it does not use it. -/
  epoch : ∀ j, j ≠ i → (s'.record j).epoch = (s.record j).epoch ∨
    ¬ (s.record j).pc.Locked ∧ (s'.record j).epoch = ⟨true, (s.record j).epoch.number⟩
  /-- The thread changes its number only while it uses its epoch. -/
  number : (s'.record i).epoch.number = (s.record i).epoch.number ∨ (s.record i).pc.Locked
  /-- Its internal lock counts. -/
  counts : (s'.record i).pc.Counts (s'.record i).internal
  /-- An external lock is released by its holder only. -/
  external : ∀ o, (s.record o).external = true → ¬ (s.record i).pc.Holds i o →
    (s'.record o).external = true
  /-- An external lock is taken when it is free. -/
  holds : ∀ o, (s'.record i).pc.Holds i o → (s'.record o).external = true ∧
    ((s.record i).pc.Holds i o ∨ (s.record o).external = false)
  /-- The thread begins to use its epoch when nobody else has the external lock. -/
  locked : (s'.record i).pc.Locked → (s.record i).pc.Locked ∨ (s.record i).external = false ∨
    (s.record i).pc.Holds i i
  /-- It ejects a record that is not used. -/
  ejecting : ∀ p e o rest, (s'.record i).pc = .eject p e o rest → p.Ejecting →
    o ≠ i ∧ ¬ (s.record o).pc.Locked
  /-- It knows the number of the record that it ejects. -/
  loaded : ∀ x e o rest, (s'.record i).pc = .eject (.store x) e o rest →
    x.number = (s'.record o).epoch.number
  /-- It knows its own number at its exit. -/
  exiting : ∀ x, (s'.record i).pc = .exitStore x → x.number = (s'.record i).epoch.number
  /-- It is not ejected while it uses its epoch. -/
  published : (s'.record i).pc.Published → (s'.record i).epoch.ejected = false
  /-- It was ejected before it rejoins. -/
  rejoining : (s'.record i).pc = .rejoinLoad → (s'.record i).epoch.ejected = true
  /-- It has read its old epoch. -/
  old : ∀ old new, (s'.record i).pc = .rejoinPublish old new →
    (s'.record i).epoch.ejected = true ∧ (s'.record i).epoch.number = old
  /-- Its record is allocated. -/
  pool : i ∈ s'.pool ∧ ∀ j ∈ s.pool, j ∈ s'.pool

/-- A thread whose epoch is published uses it. -/
theorem Pc.Published.locked {pc : Pc ι} (h : pc.Published) : pc.Locked := by
  cases pc <;> trivial

/-- A thread that ejects holds the external lock. -/
theorem EjectPc.Ejecting.holding {p : EjectPc} (h : p.Ejecting) : p.Holding := by
  cases p <;> trivial

/-- The record being ejected is locked by the thread that ejects it. -/
theorem State.Locks.holds {s : State ι ω} {i o : ι} {p : EjectPc} {e : ℕ} {rest : List ι}
    (hp : (s.record i).pc = .eject p e o rest) (hej : p.Ejecting) : (s.record i).pc.Holds i o := by
  rw [hp]
  exact ⟨rfl, hej.holding⟩

/-- Lawful steps keep the locks. -/
theorem State.Locks.of_lawful {s s' : State ι ω} {i : ι} (h : s.Locks) (hl : s.Lawful s' i) :
    s'.Locks where
  counts := by
    intro j
    by_cases hj : j = i
    · rw [hj]
      exact hl.counts
    · rw [hl.pc j hj, hl.internal j hj]
      exact h.counts j
  external := by
    intro j o hholds
    by_cases hj : j = i
    · rw [hj] at hholds
      exact (hl.holds o hholds).1
    · rw [hl.pc j hj] at hholds
      refine hl.external o (h.external j o hholds) fun hi => ?_
      exact hj (h.unique j i o hholds hi)
  unique := by
    have key : ∀ j o, j ≠ i → (s'.record j).pc.Holds j o → ¬ (s'.record i).pc.Holds i o := by
      intro j o hj hholds hi
      rw [hl.pc j hj] at hholds
      rcases (hl.holds o hi).2 with hi' | hfree
      · exact hj (h.unique j i o hholds hi')
      · rw [h.external j o hholds] at hfree
        cases hfree
    intro j k o hjo hko
    by_cases hj : j = i
    · by_cases hk : k = i
      · rw [hj, hk]
      · rw [hj] at hjo
        exact absurd hjo (key k o hk hko)
    · by_cases hk : k = i
      · rw [hk] at hko
        exact absurd hko (key j o hj hjo)
      · rw [hl.pc j hj] at hjo
        rw [hl.pc k hk] at hko
        exact h.unique j k o hjo hko
  ejecting := by
    intro j p e o rest hpc hej
    by_cases hj : j = i
    · rw [hj] at hpc
      obtain ⟨hoi, hlocked⟩ := hl.ejecting p e o rest hpc hej
      rwa [hl.pc o hoi]
    · rw [hl.pc j hj] at hpc
      have hnot := h.ejecting j p e o rest hpc hej
      have hholds := Locks.holds hpc hej
      by_cases ho : o = i
      · subst ho
        intro hlocked
        rcases hl.locked hlocked with hlocked | hfree | hself
        · exact hnot hlocked
        · rw [h.external j o hholds] at hfree
          cases hfree
        · exact hj (h.unique j o o hholds hself)
      · rwa [hl.pc o ho]
  loaded := by
    intro j x e o rest hpc
    by_cases hj : j = i
    · rw [hj] at hpc
      exact hl.loaded x e o rest hpc
    · rw [hl.pc j hj] at hpc
      have hx := h.loaded j x e o rest hpc
      have hnot := h.ejecting j _ e o rest hpc trivial
      by_cases ho : o = i
      · subst ho
        rw [hx, hl.number.resolve_right hnot]
      · rcases hl.epoch o ho with heq | ⟨-, heq⟩
        · rw [hx, heq]
        · rw [hx, heq]
  exiting := by
    intro j x hpc
    by_cases hj : j = i
    · rw [hj] at hpc ⊢
      exact hl.exiting x hpc
    · rw [hl.pc j hj] at hpc
      have hx := h.exiting j x hpc
      rcases hl.epoch j hj with heq | ⟨-, heq⟩
      · rw [hx, heq]
      · rw [hx, heq]
  published := by
    intro j hpub
    by_cases hj : j = i
    · rw [hj] at hpub ⊢
      exact hl.published hpub
    · rw [hl.pc j hj] at hpub
      rcases hl.epoch j hj with heq | ⟨hnot, -⟩
      · rw [heq]
        exact h.published j hpub
      · exact absurd hpub.locked hnot
  rejoining := by
    intro j hpc
    by_cases hj : j = i
    · rw [hj] at hpc ⊢
      exact hl.rejoining hpc
    · rw [hl.pc j hj] at hpc
      rcases hl.epoch j hj with heq | ⟨-, heq⟩
      · rw [heq]
        exact h.rejoining j hpc
      · rw [heq]
  old := by
    intro j old new hpc
    by_cases hj : j = i
    · rw [hj] at hpc ⊢
      exact hl.old old new hpc
    · rw [hl.pc j hj] at hpc
      have hold := h.old j old new hpc
      rcases hl.epoch j hj with heq | ⟨-, heq⟩
      · rwa [heq]
      · rw [heq]
        exact ⟨rfl, hold.2⟩
  pool := by
    intro j hj
    have hji : j ≠ i := by
      rintro rfl
      exact hj hl.pool.1
    obtain ⟨hpc, hej⟩ := h.pool j fun hmem => hj (hl.pool.2 j hmem)
    refine ⟨(hl.pc j hji).trans hpc, ?_⟩
    rcases hl.epoch j hji with heq | ⟨-, heq⟩
    · rw [heq, hej]
    · rw [heq]

attribute [grind] EjectPc.Holding EjectPc.Ejecting Pc.Holds Pc.Locked Pc.Published Pc.Counts
  After.pc Flush.next Record.InEpoch

/-- The internal lock of a thread that uses its epoch is not zero. -/
theorem Pc.Counts.not_locked {pc : Pc ι} (h : pc.Counts 0) : ¬ pc.Locked := by
  cases pc with
  | inside => exact absurd h (Nat.not_succ_le_zero 0)
  | free | outside | rareExchange | rareStore | exitLoad | exitStore x => exact id
  | _ => exact absurd h (Nat.zero_ne_one)

/-- The thread uses its epoch and does nothing with a lock. -/
def Pc.Plain : Pc ι → Prop
  | .refreshLoad _ | .refreshCompare _ _ | .refreshStore _ _ => True
  | .rejoinReload _ _ | .rejoinStore _ _ _ | .flush _ | .dequeue _ _ => True
  | .inside | .tryAdvance | .scan _ _ _ | .leave => True
  | _ => False

attribute [grind] Pc.Plain

/-- A plain thread has published its epoch. -/
theorem Pc.Plain.published {pc : Pc ι} (h : pc.Plain) : pc.Published := by
  cases pc <;> first | exact h.elim | trivial

/-- A plain thread holds no external lock. -/
theorem Pc.Plain.not_holds {pc : Pc ι} (h : pc.Plain) (i o : ι) : ¬ pc.Holds i o := by
  cases pc <;> first | exact h.elim | exact id

/-- The internal lock of a plain thread may be 1. -/
theorem Pc.Plain.counts {pc : Pc ι} (h : pc.Plain) : pc.Counts 1 := by
  cases pc <;> first | exact h.elim | exact le_rfl | exact rfl

/-- `refresh` returns to a plain thread. -/
theorem After.plain (k : After) : (k.pc : Pc ι).Plain := by
  cases k <;> trivial

/-- `flush_old_epoch` returns to a plain thread. -/
theorem Flush.plain (f : Flush) : (f.next : Pc ι).Plain := by
  cases f with
  | refresh k newEpoch => trivial
  | rejoin oldEpoch newEpoch maxSteps =>
    simp only [Flush.next]
    split <;> trivial

/-- A step that touches no lock and no epoch. -/
theorem State.Locks.lawful_plain {s s' : State ι ω} {i : ι} (h : s.Locks)
    (hpc : ∀ j, j ≠ i → (s'.record j).pc = (s.record j).pc)
    (hinternal : ∀ j, (s'.record j).internal = (s.record j).internal)
    (hexternal : ∀ j, (s'.record j).external = (s.record j).external)
    (hepoch : ∀ j, (s'.record j).epoch = (s.record j).epoch) (hpool : s'.pool = s.pool)
    (hplain : (s.record i).pc.Plain) (hplain' : (s'.record i).pc.Plain)
    (hcount : (s.record i).internal = 1) : s.Lawful s' i := by
  have hpublished := h.published i
  have hin := h.pool i
  have hpub := hplain'.published
  have hpub' := hplain.published
  have hlocked := hpub'.locked
  have hholds := hplain'.not_holds i
  have hholds' := hplain.not_holds i
  have hcounts := hplain'.counts
  constructor <;> grind

variable [DecidableEq ι]

/-- A step of `in_epoch_try_eject` is lawful. -/
theorem State.Locks.lawful_eject {s : State ι ω} (h : s.Locks) {i o : ι} {p : EjectPc} {e : ℕ}
    {rest : List ι} (hpc : (s.record i).pc = .eject p e o rest) :
    s.Lawful (s.ejectStep i e o rest p) i := by
  have hcount := h.counts i
  have hcounto := h.counts o
  have hexternal := h.external i o
  have hejecting := h.ejecting i p e o rest hpc
  have hloaded := h.loaded i
  have hpublished := h.published i
  have hpool := h.pool i
  cases p with
  | tryRecheck =>
    simp only [State.ejectStep]
    split
    · next hzero =>
      rw [hzero] at hcounto
      have hnot := hcounto.not_locked
      constructor <;> grind
    · constructor <;> grind
  | tryLoad | tryExchange | check =>
    simp only [State.ejectStep]
    split <;> constructor <;> grind
  | giveUp | load | store x | release =>
    simp only [State.ejectStep]
    constructor <;> grind

/-- A step of `internal_acquire` is lawful. -/
theorem State.Locks.lawful_acquire {s : State ι ω} (h : s.Locks) {i : ι}
    (hpc : (s.record i).pc = .externalCheck ∨ (s.record i).pc = .rareRelease ∨
      (s.record i).pc = .rareExchange ∨ (s.record i).pc = .rareStore ∨
      (s.record i).pc = .rareFree) : s.threadStep i = s ∨ s.Lawful (s.threadStep i) i := by
  have hcount := h.counts i
  have hexternal := h.external i i
  have hpool := h.pool i
  rcases hpc with hpc | hpc | hpc | hpc | hpc
  · right
    simp only [State.threadStep, hpc]
    split <;> constructor <;> grind
  · right
    simp only [State.threadStep, hpc]
    constructor <;> grind
  · simp only [State.threadStep, hpc]
    split
    · exact .inl rfl
    · right
      constructor <;> grind
  · right
    simp only [State.threadStep, hpc]
    constructor <;> grind
  · right
    simp only [State.threadStep, hpc]
    constructor <;> grind

/-- What the thread of `i` does in a step keeps the locks. -/
theorem State.Locks.lawful_thread {s : State ι ω} (h : s.Locks) (i : ι) :
    s.threadStep i = s ∨ s.Lawful (s.threadStep i) i := by
  have hcount := h.counts i
  have hpublished := h.published i
  have hpool := h.pool i
  cases hpc : (s.record i).pc with
  | free | outside | inside | tryAdvance => 
    left
    simp only [State.threadStep, hpc]
  | externalCheck => exact h.lawful_acquire (.inl hpc)
  | rareRelease => exact h.lawful_acquire (.inr (.inl hpc))
  | rareExchange => exact h.lawful_acquire (.inr (.inr (.inl hpc)))
  | rareStore => exact h.lawful_acquire (.inr (.inr (.inr (.inl hpc))))
  | rareFree => exact h.lawful_acquire (.inr (.inr (.inr (.inr hpc))))
  | useLoad => 
    right
    simp only [State.threadStep, hpc]
    constructor <;> grind
  | useCompare newEpoch => 
    right
    simp only [State.threadStep, hpc]
    split
    · constructor <;> grind
    · split <;> constructor <;> grind
  | rejoinLoad =>
    right
    have hrejoining := h.rejoining i hpc
    simp only [State.threadStep, hpc]
    constructor <;> grind
  | rejoinPublish old new => 
    right
    simp only [State.threadStep, hpc]
    constructor <;> grind
  | refreshLoad k => 
    right
    simp only [State.threadStep, hpc]
    refine h.lawful_plain ?_ ?_ ?_ ?_ ?_ ?_ ?_ ?_ <;> grind
  | refreshCompare k new =>
    right
    have hplain := k.plain (ι := ι)
    simp only [State.threadStep, hpc]
    split <;> refine h.lawful_plain ?_ ?_ ?_ ?_ ?_ ?_ ?_ ?_ <;> grind
  | refreshStore k new =>
    right
    simp only [State.threadStep, hpc]
    cases k <;> constructor <;> grind
  | rejoinReload old guessed => 
    right
    simp only [State.threadStep, hpc]
    refine h.lawful_plain ?_ ?_ ?_ ?_ ?_ ?_ ?_ ?_ <;> grind
  | rejoinStore old guessed new =>
    right
    simp only [State.threadStep, hpc]
    split <;> constructor <;> grind
  | flush f =>
    right
    simp only [State.threadStep, hpc]
    refine h.lawful_plain ?_ ?_ ?_ ?_ ?_ ?_ ?_ ?_ <;> grind
  | dequeue usable f =>
    have hplain := f.plain (ι := ι)
    cases usable with
    | zero => 
      right
      simp only [State.threadStep, hpc]
      refine h.lawful_plain ?_ ?_ ?_ ?_ ?_ ?_ ?_ ?_ <;> grind
    | succ usable => 
      simp only [State.threadStep, hpc]
      split
      · exact .inl rfl
      · right
        refine h.lawful_plain ?_ ?_ ?_ ?_ ?_ ?_ ?_ ?_ <;> grind
  | scan e tryEject todo =>
    right
    cases todo with
    | nil => 
      simp only [State.threadStep, hpc]
      refine h.lawful_plain ?_ ?_ ?_ ?_ ?_ ?_ ?_ ?_ <;> grind
    | cons o rest =>
      simp only [State.threadStep, hpc]
      split
      · refine h.lawful_plain ?_ ?_ ?_ ?_ ?_ ?_ ?_ ?_ <;> grind
      · split
        · constructor <;> grind
        · refine h.lawful_plain ?_ ?_ ?_ ?_ ?_ ?_ ?_ ?_ <;> grind
  | eject p e o rest =>
    right
    simp only [State.threadStep, hpc]
    exact h.lawful_eject hpc
  | leave =>
    right
    simp only [State.threadStep, hpc]
    constructor <;> grind
  | exitLoad =>
    right
    simp only [State.threadStep, hpc]
    constructor <;> grind
  | exitStore x =>
    right
    have hexiting := h.exiting i x hpc
    simp only [State.threadStep, hpc]
    constructor <;> grind

/-- Every step is lawful. -/
theorem State.Locks.lawful_step {s s' : State ι ω} {i : ι} (h : s.Locks) (hstep : StepOf i s s') :
    s' = s ∨ s.Lawful s' i := by
  have hcount := h.counts i
  have hpool := h.pool i
  have hpublished := h.published i
  cases hstep with
  | acquire hpc =>
    right
    constructor <;> grind
  | use hpc =>
    right
    split <;> constructor <;> grind
  | delete hpc o =>
    right
    constructor <;> grind
  | releaseRare hpc hcount =>
    right
    refine h.lawful_plain ?_ ?_ ?_ ?_ ?_ ?_ ?_ ?_ <;> grind
  | release hpc =>
    right
    split <;> constructor <;> grind
  | tryAdvance hpc tryEject =>
    right
    refine h.lawful_plain ?_ ?_ ?_ ?_ ?_ ?_ ?_ ?_ <;> grind
  | exit hpc =>
    right
    constructor <;> grind
  | thread => exact h.lawful_thread i

/-- Every step keeps the locks. -/
theorem State.Locks.step {s s' : State ι ω} (h : s.Locks) (hstep : Step s s') : s'.Locks := by
  obtain ⟨i, hstep⟩ := hstep
  rcases h.lawful_step hstep with rfl | hlawful
  · exact h
  · exact h.of_lawful hlawful

/-! ## The clock of the records -/

/-- What the thread does with the clock. -/
def Pc.role (w : Word) : Pc ι → Role ι
  | .rejoinReload oldEpoch guessedEpoch => .reload oldEpoch guessedEpoch
  | .rejoinStore oldEpoch guessedEpoch newEpoch => .store oldEpoch guessedEpoch newEpoch
  | .refreshCompare _ newEpoch => if w.number = newEpoch then .idle else .refresh newEpoch
  | .refreshStore _ newEpoch => .refresh newEpoch
  | .flush (.refresh _ newEpoch) => .refresh newEpoch
  | .dequeue _ (.refresh _ newEpoch) => .refresh newEpoch
  | .scan e _ todo => .scan e todo
  | .eject .release e _ rest => .scan e rest
  | .eject _ e o rest => .scan e (o :: rest)
  | _ => .idle

/-- The record as a member of the clock. -/
def Record.member (r : Record ι ω) : Member ι := ⟨r.epoch.ejected, r.epoch.number, r.pc.role r.epoch⟩

/-- The global epoch with the records. -/
def State.clock (s : State ι ω) : Clock ι where
  global := s.global
  member := fun i => (s.record i).member

omit [DecidableEq ι] in
@[simp] theorem State.clock_global (s : State ι ω) : s.clock.global = s.global := rfl

omit [DecidableEq ι] in
/-- The member of a record whose thread is at `pc`. -/
theorem State.clock_member {s : State ι ω} {i : ι} {pc : Pc ι} {b : Bool}
    (hpc : (s.record i).pc = pc) (hej : (s.record i).epoch.ejected = b) :
    s.clock.member i = ⟨b, (s.record i).epoch.number, pc.role (s.record i).epoch⟩ := by
  rw [← hpc, ← hej]
  rfl

omit [DecidableEq ι] in
/-- The role of a thread that is not inside its epoch. -/
theorem Pc.role_of_not_locked {pc : Pc ι} (h : ¬ pc.Locked) (w : Word) : pc.role w = .idle := by
  cases pc <;> first | rfl | exact absurd trivial h

omit [DecidableEq ι] in
/-- `refresh` is over. -/
@[simp] theorem After.role (k : After) (w : Word) : (k.pc : Pc ι).role w = .idle := by
  cases k <;> rfl

/-- A change of fields that the clock does not read. -/
theorem State.clock_modify (s : State ι ω) (i : ι) (f : Record ι ω → Record ι ω)
    (hf : ∀ r, (f r).member = r.member) : (s.modify i f).clock = s.clock := by
  unfold State.clock
  congr 1
  funext j
  exact State.field_modify s i j f Record.member hf

@[simp] theorem State.clock_setExternal (s : State ι ω) (i : ι) (b : Bool) :
    (s.setExternal i b).clock = s.clock := s.clock_modify i _ fun _ => rfl

@[simp] theorem State.clock_setInternal (s : State ι ω) (i : ι) (n : ℕ) :
    (s.setInternal i n).clock = s.clock := s.clock_modify i _ fun _ => rfl

@[simp] theorem State.clock_addToDeleteList (s : State ι ω) (i : ι) (o : ω) :
    (s.addToDeleteList i o).clock = s.clock := s.clock_modify i _ fun _ => rfl

@[simp] theorem State.clock_dealloc (s : State ι ω) (i : ι) (d : ω) (rest : List ω) :
    (s.dealloc i d rest).clock = s.clock := s.clock_modify i _ fun _ => rfl

@[simp] theorem State.clock_rotate (s : State ι ω) (i : ι) : (s.rotate i).clock = s.clock :=
  s.clock_modify i _ fun _ => rfl

/-- A change of one record. -/
theorem State.clock_modify_set (s : State ι ω) (i : ι) (f : Record ι ω → Record ι ω) :
    (s.modify i f).clock = s.clock.set i (f (s.record i)).member := by
  unfold State.clock Clock.set
  congr 1
  funext j
  rw [State.record_modify, Function.update_apply]
  split <;> rfl

/-- The thread of `i` goes on. -/
theorem State.clock_goto (s : State ι ω) (i : ι) (pc : Pc ι) : (s.goto i pc).clock =
    s.clock.set i ⟨(s.record i).epoch.ejected, (s.record i).epoch.number,
      pc.role (s.record i).epoch⟩ :=
  s.clock_modify_set i _

/-- The thread of `i` goes on after a store to its epoch. -/
theorem State.clock_setEpoch_goto (s : State ι ω) (i : ι) (w : Word) (pc : Pc ι) :
    ((s.setEpoch i w).goto i pc).clock = s.clock.set i ⟨w.ejected, w.number, pc.role w⟩ := by
  rw [State.clock_goto, State.setEpoch, State.clock_modify_set]
  have hepoch : ((s.modify i fun r => { r with epoch := w }).record i).epoch = w := by
    rw [State.record_modify, if_pos rfl]
  rw [hepoch]
  unfold Clock.set
  simp only [Function.update_idem]

omit [DecidableEq ι] in
/-- The thread of `i` goes on in the same role. -/
theorem Clock.set_self [DecidableEq ι] (a : Clock ι) (i : ι) : a.set i (a.member i) = a := by
  unfold Clock.set
  rw [Function.update_eq_self]

/-- The thread of `i` goes on in the same role. -/
theorem State.clock_goto_same {s : State ι ω} {i : ι} {pc pc' : Pc ι} (hpc : (s.record i).pc = pc)
    (hrole : pc'.role (s.record i).epoch = pc.role (s.record i).epoch) :
    (s.goto i pc').clock = s.clock := by
  rw [State.clock_goto, hrole, ← State.clock_member hpc rfl, Clock.set_self]

/-- The thread of `i` goes on in the same role after a change that the clock does not see. -/
theorem State.clock_goto_of {s t : State ι ω} {i : ι} {pc pc' : Pc ι} (hclock : t.clock = s.clock)
    (hpc : (t.record i).pc = pc)
    (hrole : pc'.role (t.record i).epoch = pc.role (t.record i).epoch) :
    (t.goto i pc').clock = s.clock :=
  (State.clock_goto_same hpc hrole).trans hclock

/-- What a step does to the clock. -/
def State.Ticks (s s' : State ι ω) : Prop :=
  s'.clock = s.clock ∨ Clock.Step epochs s.clock s'.clock

/-- A step of `in_epoch_try_eject` is a step of the clock or changes nothing there. -/
theorem State.Locks.clock_eject {s : State ι ω} (h : s.Locks) {i o : ι} {p : EjectPc} {e : ℕ}
    {rest : List ι} (hpc : (s.record i).pc = .eject p e o rest) :
    s.Ticks (s.ejectStep i e o rest p) := by
  have hejected := h.published i (by rw [hpc]; trivial)
  have hmember := State.clock_member hpc hejected
  cases p with
  | tryLoad =>
    simp only [State.ejectStep]
    split
    · right
      rw [State.clock_goto, hejected]
      exact .stop hmember
    · exact .inl (State.clock_goto_same hpc rfl)
  | tryExchange =>
    simp only [State.ejectStep]
    split
    · right
      rw [State.clock_goto, hejected]
      exact .stop hmember
    · left
      exact State.clock_goto_of (s.clock_setExternal o true) ((State.pc_setExternal ..).trans hpc) rfl
  | tryRecheck =>
    simp only [State.ejectStep]
    split <;> exact .inl (State.clock_goto_same hpc rfl)
  | giveUp =>
    right
    simp only [State.ejectStep]
    rw [State.clock_goto, State.clock_setExternal, State.epoch_setExternal, hejected]
    exact .stop hmember
  | check =>
    simp only [State.ejectStep]
    split
    · next hin =>
      right
      rw [State.clock_goto, hejected]
      refine .pass hmember ?_
      rcases hin with hin | hin
      · right
        change (s.record o).epoch.number = e
        rw [hin]
      · exact .inl hin
    · exact .inl (State.clock_goto_same hpc rfl)
  | load =>
    simp only [State.ejectStep]
    exact .inl (State.clock_goto_same hpc rfl)
  | store x =>
    right
    have hnot := h.ejecting i _ e o rest hpc trivial
    have hnumber := h.loaded i x e o rest hpc
    have hoi : i ≠ o := by
      rintro rfl
      rw [hpc] at hnot
      exact hnot trivial
    simp only [State.ejectStep]
    rw [State.clock_goto, State.epoch_setEpoch, if_neg hoi, hejected, State.setEpoch,
      State.clock_modify_set, hnumber]
    have hrole : (s.record o).pc.role ⟨true, (s.record o).epoch.number⟩ = .idle :=
      Pc.role_of_not_locked hnot _
    change Clock.Step epochs s.clock ((s.clock.set o ⟨true, (s.record o).epoch.number,
      (s.record o).pc.role ⟨true, (s.record o).epoch.number⟩⟩).set i _)
    rw [hrole]
    exact .ejectPass hmember (Pc.role_of_not_locked hnot _)
  | release =>
    left
    simp only [State.ejectStep]
    exact State.clock_goto_of (s.clock_setExternal o false) ((State.pc_setExternal ..).trans hpc) rfl

/-- A step of a thread is a step of the clock or changes nothing there. -/
theorem State.Locks.clock_thread {s : State ι ω} (h : s.Locks) (i : ι) :
    s.Ticks (s.threadStep i) := by
  have hpublished := h.published i
  cases hpc : (s.record i).pc with
  | free | outside | inside | tryAdvance =>
    left
    simp only [State.threadStep, hpc]
  | externalCheck =>
    left
    simp only [State.threadStep, hpc]
    split <;> exact State.clock_goto_same hpc rfl
  | rareRelease =>
    left
    simp only [State.threadStep, hpc]
    exact State.clock_goto_of (s.clock_setInternal i _) ((State.pc_setInternal ..).trans hpc) rfl
  | rareExchange =>
    left
    simp only [State.threadStep, hpc]
    split
    · rfl
    · exact State.clock_goto_of (s.clock_setExternal i true) ((State.pc_setExternal ..).trans hpc) rfl
  | rareStore =>
    left
    simp only [State.threadStep, hpc]
    exact State.clock_goto_of (s.clock_setInternal i _) ((State.pc_setInternal ..).trans hpc) rfl
  | rareFree =>
    left
    simp only [State.threadStep, hpc]
    exact State.clock_goto_of (s.clock_setExternal i false) ((State.pc_setExternal ..).trans hpc) rfl
  | useLoad =>
    left
    simp only [State.threadStep, hpc]
    exact State.clock_goto_same hpc rfl
  | useCompare newEpoch =>
    left
    simp only [State.threadStep, hpc]
    split
    · exact State.clock_goto_same hpc rfl
    · split <;> exact State.clock_goto_same hpc rfl
  | refreshLoad k =>
    rw [hpc] at hpublished
    have hejected := hpublished trivial
    simp only [State.threadStep, hpc]
    by_cases hnumber : (s.record i).epoch.number = s.global
    · refine .inl (State.clock_goto_same hpc ?_)
      simp only [Pc.role, if_pos hnumber]
    · right
      rw [State.clock_goto, hejected]
      simp only [Pc.role, if_neg hnumber]
      exact .startRefresh (State.clock_member hpc hejected) hnumber
  | refreshCompare k newEpoch =>
    left
    rw [hpc] at hpublished
    have hejected := hpublished trivial
    simp only [State.threadStep, hpc]
    split
    · next heq =>
      refine State.clock_goto_same hpc ?_
      rw [After.role, heq]
      simp only [Pc.role, if_true]
    · next hne =>
      refine State.clock_goto_same hpc ?_
      have hnumber : (s.record i).epoch.number ≠ newEpoch := by
        rintro rfl
        rw [← hejected] at hne
        exact hne rfl
      simp only [Pc.role, if_neg hnumber]
  | refreshStore k newEpoch =>
    right
    rw [hpc] at hpublished
    have hejected := hpublished trivial
    simp only [State.threadStep, hpc]
    rw [State.clock_setEpoch_goto, After.role]
    exact .refresh (State.clock_member hpc hejected)
  | rejoinLoad =>
    left
    simp only [State.threadStep, hpc]
    exact State.clock_goto_same hpc rfl
  | rejoinPublish oldEpoch newEpoch =>
    right
    obtain ⟨hejected, hnumber⟩ := h.old i oldEpoch newEpoch hpc
    have hmember := State.clock_member hpc hejected
    rw [hnumber] at hmember
    simp only [State.threadStep, hpc]
    rw [State.clock_setEpoch_goto]
    exact .publish hmember newEpoch
  | rejoinReload oldEpoch guessedEpoch =>
    right
    rw [hpc] at hpublished
    have hejected := hpublished trivial
    simp only [State.threadStep, hpc]
    rw [State.clock_goto, hejected]
    exact .reload (State.clock_member hpc hejected)
  | rejoinStore oldEpoch guessedEpoch newEpoch =>
    right
    rw [hpc] at hpublished
    have hmember := State.clock_member hpc (hpublished trivial)
    simp only [State.threadStep, hpc]
    split
    · next hretry =>
      rw [State.clock_setEpoch_goto]
      exact .retry hmember hretry
    · next hrejoin =>
      rw [State.clock_setEpoch_goto]
      exact .rejoin hmember hrejoin
  | flush f =>
    left
    simp only [State.threadStep, hpc]
    cases f with
    | refresh k newEpoch => exact State.clock_goto_same hpc rfl
    | rejoin oldEpoch newEpoch maxSteps => exact State.clock_goto_same hpc rfl
  | dequeue usable f =>
    left
    cases usable with
    | zero =>
      simp only [State.threadStep, hpc]
      rw [State.clock_goto_same ((State.pc_rotate ..).trans hpc), State.clock_rotate]
      cases f with
      | refresh k newEpoch => rfl
      | rejoin oldEpoch newEpoch maxSteps =>
        simp only [Flush.next]
        split <;> rfl
    | succ usable =>
      simp only [State.threadStep, hpc]
      split
      · rfl
      · rw [State.clock_goto_same ((State.pc_dealloc ..).trans hpc), State.clock_dealloc]
        cases f <;> rfl
  | scan e tryEject todo =>
    rw [hpc] at hpublished
    have hejected := hpublished trivial
    have hmember := State.clock_member hpc hejected
    cases todo with
    | nil =>
      right
      simp only [State.threadStep, hpc]
      have hclock := s.clock_goto i (.refreshLoad .leave)
      rw [hejected] at hclock
      have hadvance := Clock.Step.advance (N := epochs) hmember
      have hnext : ({ s.goto i (.refreshLoad .leave) with global := incEpochBy e 1 }).clock =
          { s.clock.set i ⟨false, (s.record i).epoch.number, .idle⟩ with
            global := incMod epochs e } := by
        change Clock.mk (incEpochBy e 1) (s.goto i (.refreshLoad .leave)).clock.member = _
        rw [hclock]
        rfl
      rw [hnext]
      exact hadvance
    | cons o rest =>
      simp only [State.threadStep, hpc]
      split
      · next hin =>
        right
        rw [State.clock_goto, hejected]
        refine .pass hmember ?_
        rcases hin with hin | hin
        · right
          change (s.record o).epoch.number = e
          rw [hin]
        · exact .inl hin
      · split
        · exact .inl (State.clock_goto_same hpc rfl)
        · right
          rw [State.clock_goto, hejected]
          exact .stop hmember
  | eject p e o rest =>
    simp only [State.threadStep, hpc]
    exact h.clock_eject hpc
  | leave =>
    left
    simp only [State.threadStep, hpc]
    exact State.clock_goto_of (s.clock_setInternal i _) ((State.pc_setInternal ..).trans hpc) rfl
  | exitLoad =>
    left
    simp only [State.threadStep, hpc]
    exact State.clock_goto_same hpc rfl
  | exitStore x =>
    right
    have hnumber := h.exiting i x hpc
    simp only [State.threadStep, hpc]
    rw [State.clock_setEpoch_goto, hnumber]
    refine .eject ?_
    change (s.record i).pc.role _ = _
    rw [hpc]
    rfl

/-- A step is a step of the clock or changes nothing there. -/
theorem State.Locks.clock_step {s s' : State ι ω} (h : s.Locks) (hstep : Step s s') :
    s.Ticks s' := by
  obtain ⟨i, hstep⟩ := hstep
  cases hstep with
  | acquire hpc => exact .inl (State.clock_goto_same hpc rfl)
  | use hpc =>
    left
    rcases hpc with hpc | hpc
    · rw [State.clock_goto_same ((State.pc_setInternal ..).trans hpc), State.clock_setInternal]
      split <;> rfl
    · rw [State.clock_goto_same ((State.pc_setInternal ..).trans hpc), State.clock_setInternal]
      split <;> rfl
  | delete hpc o => exact .inl (s.clock_addToDeleteList i o)
  | releaseRare hpc hcount => exact .inl (State.clock_goto_same hpc rfl)
  | release hpc =>
    left
    rw [State.clock_goto_same ((State.pc_setInternal ..).trans hpc), State.clock_setInternal]
    split <;> rfl
  | tryAdvance hpc tryEject =>
    right
    have hejected := h.published i (by rw [hpc]; trivial)
    rw [State.clock_goto, hejected]
    refine .startScan (State.clock_member hpc hejected) s.pool fun j hj => ?_
    obtain ⟨hfree, hej⟩ := h.pool j hj
    refine ⟨hej, ?_⟩
    change (s.record j).pc.role _ = _
    rw [hfree]
    rfl
  | exit hpc => exact .inl (State.clock_goto_same hpc rfl)
  | thread => exact h.clock_thread i

/-! ## Reachable states -/

omit [DecidableEq ι] in
/-- At the start every record is free. -/
theorem locks_init : (init : State ι ω).Locks where
  counts := fun _ => rfl
  external := fun _ _ h => h.elim
  unique := fun _ _ _ h => h.elim
  ejecting := fun _ _ _ _ _ h => by cases h
  loaded := fun _ _ _ _ _ h => by cases h
  exiting := fun _ _ h => by cases h
  published := fun _ h => h.elim
  rejoining := fun _ h => by cases h
  old := fun _ _ _ h => by cases h
  pool := fun _ _ => ⟨rfl, rfl⟩

omit [DecidableEq ι] in
/-- At the start the clock and all members are in round 0. -/
theorem timed_init : (init : State ι ω).clock.Timed epochs 0 (fun _ => 0) fun _ => 0 where
  global := rfl
  fits := fun _ => ⟨le_rfl, fun _ => rfl, fun _ _ => Nat.zero_le 1, fun _ => rfl, by nofun, by nofun,
    by nofun, by nofun⟩
  passed := fun _ _ => passed_of_not_scan (by nofun)

/-- There is more than one epoch. -/
theorem two_le_epochs : 2 ≤ epochs := by decide

/-- The locks are kept and the clock has its rounds in every reachable state. -/
theorem Reachable.timed {s : State ι ω} (h : Reachable s) :
    s.Locks ∧ ∃ n r p, s.clock.Timed epochs n r p := by
  induction h with
  | refl => exact ⟨locks_init, 0, fun _ => 0, fun _ => 0, timed_init⟩
  | @tail s s' _ hstep ih =>
    obtain ⟨hlocks, n, r, p, htimed⟩ := ih
    refine ⟨hlocks.step hstep, ?_⟩
    rcases hlocks.clock_step hstep with hsame | htick
    · rw [hsame]
      exact ⟨n, r, p, htimed⟩
    · obtain ⟨n', r', p', htimed', -⟩ := htimed.step two_le_epochs htick
      exact ⟨n', r', p', htimed'⟩

omit [DecidableEq ι] in
/-- Only a record in the loop of `rejoin_epoch` rejoins the clock. -/
theorem Pc.InRejoinLoop.of_role {pc : Pc ι} {w : Word} (h : (pc.role w).Rejoining) :
    pc.InRejoinLoop := by
  cases pc with
  | rejoinReload oldEpoch guessedEpoch => trivial
  | rejoinStore oldEpoch guessedEpoch newEpoch => trivial
  | refreshCompare k newEpoch =>
    simp only [Pc.role] at h
    split at h <;> exact False.elim h
  | flush f => cases f <;> exact False.elim h
  | dequeue usable f => cases f <;> exact False.elim h
  | eject p e o rest => cases p <;> exact False.elim h
  | _ => exact False.elim h

omit [DecidableEq ι] in
/-- A record that takes part in the epochs lags by one at most. -/
theorem lags_of_timed {s : State ι ω} {n : ℕ} {r p : ι → ℕ} (h : s.clock.Timed epochs n r p) {i : ι}
    (hej : (s.record i).epoch.ejected = false) (hloop : ¬ (s.record i).pc.InRejoinLoop) :
    (s.record i).epoch.number = s.global ∨ incEpochBy (s.record i).epoch.number 1 = s.global := by
  have hfits := h.fits i
  have hrole : ¬ (s.clock.member i).role.Rejoining := fun h => hloop (.of_role h)
  have hnumber : (s.record i).epoch.number = r i % epochs := hfits.number hrole
  have hglobal : s.global = n % epochs := h.global
  have hle := hfits.le
  have hcurrent := hfits.current hej hrole
  rw [hnumber, hglobal]
  rcases Nat.lt_or_ge (r i) n with hlt | hge
  · right
    rw [show n = r i + 1 by omega]
    exact Clock.incMod_mod epochs (r i)
  · left
    rw [show n = r i by omega]

/-- The global epoch only advances by one, and every record that is not ejected and not inside the loop
of `rejoin_epoch` holds the global epoch or the one before it. -/
theorem global_epoch_followed {s : State ι ω} (h : Reachable s) :
    (∀ s', Step s s' → s'.global = s.global ∨ s'.global = (s.global + 1) % 2 ^ 63) ∧
    ∀ i, (s.record i).epoch.ejected = false → ¬ (s.record i).pc.InRejoinLoop →
      (s.record i).epoch.number = s.global ∨
        ((s.record i).epoch.number + 1) % 2 ^ 63 = s.global := by
  obtain ⟨hlocks, n, r, p, htimed⟩ := h.timed
  refine ⟨fun s' hstep => ?_, fun i hej hloop => lags_of_timed htimed hej hloop⟩
  rcases hlocks.clock_step hstep with hsame | htick
  · exact .inl (congrArg Clock.global hsame)
  · obtain ⟨n', r', p', htimed', hadvances⟩ := htimed.step two_le_epochs htick
    have hglobal : s.global = n % epochs := htimed.global
    have hglobal' : s'.global = n' % epochs := htimed'.global
    rcases hadvances.counter with rfl | rfl
    · exact .inl (hglobal'.trans hglobal.symm)
    · right
      rw [hglobal', hglobal]
      exact (Clock.incMod_mod epochs n).symm

/-- Two threads enter epoch 0; the second one leaves and advances the global epoch. -/
def advancing : List (Action Bool ℕ) :=
  [.acquire false, .use false, .thread false 15, .acquire true, .use true, .thread true 15,
    .releaseRare true, .thread true 2, .tryAdvance true false, .thread true 9]

/-- The first thread is still inside and holds the epoch before the global one. -/
theorem global_epoch_followed_advancing :
    (init.run advancing).global = 1 ∧ ((init.run advancing).record false).epoch = ⟨false, 0⟩ ∧
    (∀ s', Step (init.run advancing) s' → s'.global = 1 ∨ s'.global = 2) ∧
    (((init.run advancing).record false).epoch.number = 1 ∨
      (((init.run advancing).record false).epoch.number + 1) % 2 ^ 63 = 1) := by
  have hglobal : (init.run advancing).global = 1 := by decide +kernel
  have hepoch : ((init.run advancing).record false).epoch = ⟨false, 0⟩ := by decide +kernel
  have hpc : ((init.run advancing).record false).pc = .inside := by decide +kernel
  obtain ⟨hstep, hfollow⟩ := global_epoch_followed (State.steps_run init advancing)
  have hfalse := hfollow false (by rw [hepoch]) (by rw [hpc]; exact id)
  rw [hglobal] at hstep hfalse
  exact ⟨hglobal, hepoch, hstep, hfalse⟩

end VeronaRt.Epoch
