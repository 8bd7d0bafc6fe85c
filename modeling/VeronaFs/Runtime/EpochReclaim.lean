import VeronaFs.Runtime.EpochClock

/-!
# Delayed deallocation

Each record counts its objects by the epoch in which they may be deallocated and rotates the counters
when its epoch passes.  An object of round `t` waits until the global epoch is in round `t + 3`, and a
thread that was inside an `Epoch` when the object was passed to `delete_in_epoch` holds the global epoch
back before that.  The exception is a thread that rejoins in the very epoch in which it was ejected: the
loop of `rejoin_epoch` then rotates all counters at once.
-/

namespace VeronaRt.Epoch

open Foundation

variable {ι ω : Type*}

/-! ## The lists of a record -/

/-- What a record knows of the objects that were passed to it. -/
structure Lists (ω : Type*) where
  /-- `index`. -/
  index : Fin 4
  /-- `unusable`. -/
  unusable : Fin 4 → ℕ
  /-- `delete_list`. -/
  deleteList : List ω
  /-- The objects that were passed to `delete_in_epoch`. -/
  deleted : List ω
  /-- The objects that were deallocated. -/
  freed : List ω

/-- The lists of a record. -/
def Record.lists (r : Record ι ω) : Lists ω := ⟨r.index, r.unusable, r.deleteList, r.deleted, r.freed⟩

namespace State

variable [DecidableEq ι] (s : State ι ω) (i j : ι)

@[simp, grind =] theorem lists_goto (pc : Pc ι) :
    ((s.goto i pc).record j).lists = (s.record j).lists :=
  field_modify s i j _ Record.lists fun _ => rfl

@[simp, grind =] theorem lists_setExternal (b : Bool) :
    ((s.setExternal i b).record j).lists = (s.record j).lists :=
  field_modify s i j _ Record.lists fun _ => rfl

@[simp, grind =] theorem lists_setEpoch (w : Word) :
    ((s.setEpoch i w).record j).lists = (s.record j).lists :=
  field_modify s i j _ Record.lists fun _ => rfl

@[simp, grind =] theorem lists_setInternal (n : ℕ) :
    ((s.setInternal i n).record j).lists = (s.record j).lists :=
  field_modify s i j _ Record.lists fun _ => rfl

@[simp, grind =] theorem lists_addToDeleteList_of_ne (o : ω) (h : j ≠ i) :
    ((s.addToDeleteList i o).record j).lists = (s.record j).lists :=
  congrArg Record.lists (record_modify_of_ne s i j _ h)

@[simp, grind =] theorem lists_dealloc_of_ne (d : ω) (rest : List ω) (h : j ≠ i) :
    ((s.dealloc i d rest).record j).lists = (s.record j).lists :=
  congrArg Record.lists (record_modify_of_ne s i j _ h)

@[simp, grind =] theorem lists_rotate_of_ne (h : j ≠ i) :
    ((s.rotate i).record j).lists = (s.record j).lists :=
  congrArg Record.lists (record_modify_of_ne s i j _ h)

end State

/-! ## The age of the objects -/

/-- How many objects are still to be deallocated before the counters are rotated next. -/
def Pc.front (l : Lists ω) : Pc ι → ℕ
  | .dequeue usable _ => usable
  | _ => l.unusable l.index

/-- How often the counters were rotated, against the round of the record. -/
def Pc.Rotated (l : Lists ω) (round q : ℕ) : Pc ι → Prop
  | .refreshStore _ _ => q = round + 1
  | .flush (.rejoin oldEpoch newEpoch _) | .dequeue _ (.rejoin oldEpoch newEpoch _) =>
    q ≤ round ∧
      (l.deleteList = [] ∨ q < round ∧ oldEpoch = q % epochs ∧ newEpoch = round % epochs)
  | _ => q = round

/-- The objects of a record have waited since the rounds `stamps`; its counters were rotated `q` times. -/
structure Pc.Aged (pc : Pc ι) (l : Lists ω) (round q : ℕ) (stamps : List ℕ) : Prop where
  /-- Each object has its round. -/
  length : stamps.length = l.deleteList.length
  /-- The counters count the objects. -/
  total : l.deleteList.length = pc.front l + l.unusable (l.index + 1) + l.unusable (l.index + 2)
  /-- The last counter is for the next rotation. -/
  last : l.unusable (l.index + 3) = 0
  /-- The first objects have waited for two rotations. -/
  first : ∀ t ∈ stamps.take (pc.front l), t + 2 ≤ q
  /-- The next objects have waited for one rotation. -/
  second : ∀ t ∈ stamps.take (pc.front l + l.unusable (l.index + 1)), t + 1 ≤ q
  /-- The last objects are from the current round at the latest. -/
  third : ∀ t ∈ stamps, t ≤ q
  /-- How often the counters were rotated. -/
  rotated : pc.Rotated l round q

/-- The thread is not about to rotate its counters or to publish that it has. -/
def Pc.Quiet : Pc ι → Prop
  | .refreshStore _ _ | .flush _ | .dequeue _ _ => False
  | _ => True

theorem Pc.Quiet.front {pc : Pc ι} (h : pc.Quiet) (l : Lists ω) :
    pc.front l = l.unusable l.index := by
  cases pc <;> first | exact h.elim | rfl

theorem Pc.Quiet.rotated {pc : Pc ι} (h : pc.Quiet) (l : Lists ω) (round q : ℕ) :
    pc.Rotated l round q ↔ q = round := by
  cases pc <;> first | exact h.elim | exact Iff.rfl

/-- Only the list of the waiting objects matters. -/
theorem Pc.Rotated.congr {pc : Pc ι} {l l' : Lists ω} {round q : ℕ}
    (h : pc.Rotated l round q) (hlist : l'.deleteList = l.deleteList) : pc.Rotated l' round q := by
  unfold Pc.Rotated at h ⊢
  rw [hlist]
  exact h

/-- A quiet thread stays quiet in the same round. -/
theorem Pc.Aged.quiet {pc pc' : Pc ι} {l : Lists ω} {round q : ℕ} {stamps : List ℕ}
    (h : pc.Aged l round q stamps) (hquiet : pc.Quiet) (hquiet' : pc'.Quiet) :
    pc'.Aged l round q stamps := by
  obtain ⟨hlength, htotal, hlast, hfirst, hsecond, hthird, hrotated⟩ := h
  rw [hquiet.front] at htotal hfirst hsecond
  refine ⟨hlength, ?_, hlast, ?_, ?_, hthird, ?_⟩
  · rwa [hquiet'.front]
  · rwa [hquiet'.front]
  · rwa [hquiet'.front]
  · rw [hquiet'.rotated]
    exact (hquiet.rotated ..).mp hrotated

/-- The loop of `flush_old_epoch` begins. -/
theorem Pc.Aged.flush {f : Flush} {l : Lists ω} {round q : ℕ} {stamps : List ℕ}
    (h : (Pc.flush f : Pc ι).Aged l round q stamps) :
    (Pc.dequeue (l.unusable l.index) f : Pc ι).Aged l round q stamps := by
  refine ⟨h.length, h.total, h.last, h.first, h.second, h.third, ?_⟩
  have hrotated := h.rotated
  cases f <;> exact hrotated

/-- The counter for new objects is another one than the other three. -/
theorem index_ne : ∀ x : Fin 4, x ≠ x + 2 ∧ x + 1 ≠ x + 2 ∧ x + 3 ≠ x + 2 := by decide

/-- The counters after a rotation are the next ones. -/
theorem index_next : ∀ x : Fin 4, x + 1 + 1 = x + 2 ∧ x + 1 + 2 = x + 3 ∧ x + 1 + 3 = x ∧
    x + 1 ≠ x ∧ x + 2 ≠ x ∧ x + 3 ≠ x := by decide

/-- An object is deallocated. -/
theorem Pc.Aged.dealloc {usable : ℕ} {f : Flush} {l : Lists ω} {d : ω} {rest : List ω}
    {round q : ℕ} {stamps : List ℕ}
    (h : (Pc.dequeue (usable + 1) f : Pc ι).Aged l round q stamps)
    (hlist : l.deleteList = d :: rest) :
    ∃ t stamps', stamps = t :: stamps' ∧ t + 2 ≤ q ∧
      (Pc.dequeue usable f : Pc ι).Aged
        { l with deleteList := rest, freed := l.freed ++ [d] } round q stamps' := by
  obtain ⟨hlength, htotal, hlast, hfirst, hsecond, hthird, hrotated⟩ := h
  cases stamps with
  | nil =>
    rw [hlist] at hlength
    cases hlength
  | cons t stamps =>
    have htake : ∀ k, (t :: stamps).take (k + 1) = t :: stamps.take k := fun k => rfl
    change ∀ x ∈ (t :: stamps).take (usable + 1), x + 2 ≤ q at hfirst
    change ∀ x ∈ (t :: stamps).take (usable + 1 + l.unusable (l.index + 1)), x + 1 ≤ q at hsecond
    rw [htake] at hfirst
    rw [Nat.add_right_comm, htake] at hsecond
    refine ⟨t, stamps, rfl, hfirst t List.mem_cons_self, ?_, ?_, hlast, ?_, ?_, ?_, ?_⟩
    · rw [hlist] at hlength
      exact Nat.succ.inj hlength
    · rw [hlist] at htotal
      change rest.length + 1 = usable + 1 + _ + _ at htotal
      change rest.length = usable + l.unusable (l.index + 1) + l.unusable (l.index + 2)
      omega
    · exact fun x hx => hfirst x (List.mem_cons_of_mem t hx)
    · exact fun x hx => hsecond x (List.mem_cons_of_mem t hx)
    · exact fun x hx => hthird x (List.mem_cons_of_mem t hx)
    · cases f with
      | refresh k newEpoch => exact hrotated
      | rejoin oldEpoch newEpoch maxSteps =>
        refine ⟨hrotated.1, .inr ?_⟩
        refine hrotated.2.resolve_left ?_
        rw [hlist]
        exact List.cons_ne_nil d rest

/-- An object is passed to `delete_in_epoch`. -/
theorem Pc.Aged.delete {pc : Pc ι} {l : Lists ω} {round q : ℕ} {stamps : List ℕ} (o : ω)
    (h : pc.Aged l round q stamps) (hquiet : pc.Quiet) :
    pc.Aged { l with
      deleteList := l.deleteList ++ [o]
      unusable := Function.update l.unusable (l.index + 2) (l.unusable (l.index + 2) + 1)
      deleted := l.deleted ++ [o] } round q (stamps ++ [round]) := by
  obtain ⟨hlength, htotal, hlast, hfirst, hsecond, hthird, hrotated⟩ := h
  rw [hquiet.front] at htotal hfirst hsecond
  have hq := (hquiet.rotated ..).mp hrotated
  obtain ⟨h02, h12, h32⟩ := index_ne l.index
  have hle : l.unusable l.index + l.unusable (l.index + 1) ≤ stamps.length := by omega
  refine ⟨?_, ?_, ?_, ?_, ?_, ?_, ?_⟩
  · simp [hlength]
  · rw [hquiet.front]
    simp only [Function.update_of_ne h02, Function.update_of_ne h12, Function.update_self,
      List.length_append, List.length_singleton]
    omega
  · exact (Function.update_of_ne h32 _ _).trans hlast
  · rw [hquiet.front]
    simp only [Function.update_of_ne h02]
    rw [List.take_append_of_le_length (by omega)]
    exact hfirst
  · rw [hquiet.front]
    simp only [Function.update_of_ne h02, Function.update_of_ne h12]
    rw [List.take_append_of_le_length hle]
    exact hsecond
  · intro t ht
    rcases List.mem_append.mp ht with ht | ht
    · exact hthird t ht
    · rw [List.mem_singleton.mp ht, hq]
  · rw [hquiet.rotated]
    exact hq

/-- What a thread does after `flush_old_epoch` is no flush with objects to go. -/
theorem Flush.front (f : Flush) (l : Lists ω) : (f.next : Pc ι).front l = l.unusable l.index := by
  cases f with
  | refresh k newEpoch => rfl
  | rejoin oldEpoch newEpoch maxSteps =>
    simp only [Flush.next]
    split <;> rfl

/-- The loop of `rejoin_epoch` ends, or the old epoch is not the new one yet. -/
theorem Flush.rotated_next {oldEpoch newEpoch maxSteps round q : ℕ} {l : Lists ω}
    (h : (Pc.dequeue 0 (.rejoin oldEpoch newEpoch maxSteps) : Pc ι).Rotated l round q) :
    ∃ q', (l.deleteList = [] ∨ q + 1 ≤ q') ∧
      ((Flush.rejoin oldEpoch newEpoch maxSteps).next : Pc ι).Rotated l round q' := by
  obtain ⟨hle, hrest⟩ := h
  simp only [Flush.next]
  split
  · next hmore =>
    rcases hrest with hempty | ⟨hlt, hold, hnew⟩
    · exact ⟨q, .inl hempty, hle, .inl hempty⟩
    · have hinc : incEpochBy oldEpoch 1 = (q + 1) % epochs := by
        rw [hold]
        exact Clock.incMod_mod epochs q
      have hne : q + 1 ≠ round := by
        intro heq
        rw [hinc, heq, ← hnew] at hmore
        exact hmore.1 rfl
      exact ⟨q + 1, .inr le_rfl, hlt, .inr ⟨by omega, hinc, hnew⟩⟩
  · rcases hrest with hempty | ⟨hlt, -, -⟩
    · exact ⟨round, .inl hempty, rfl⟩
    · exact ⟨round, .inr hlt, rfl⟩

/-- The counters are rotated. -/
theorem Pc.Aged.rotate {f : Flush} {l : Lists ω} {round q : ℕ} {stamps : List ℕ}
    (h : (Pc.dequeue 0 f : Pc ι).Aged l round q stamps) :
    ∃ q', (f.next : Pc ι).Aged { l with
      unusable := Function.update l.unusable l.index 0, index := l.index + 1 } round q' stamps := by
  obtain ⟨hlength, htotal, hlast, hfirst, hsecond, hthird, hrotated⟩ := h
  obtain ⟨hi1, hi2, hi3, hn1, hn2, hn3⟩ := index_next l.index
  have hnext : ∃ q', (l.deleteList = [] ∨ q + 1 ≤ q') ∧ (f.next : Pc ι).Rotated l round q' := by
    cases f with
    | refresh k newEpoch => exact ⟨q + 1, .inr le_rfl, congrArg (· + 1) hrotated⟩
    | rejoin oldEpoch newEpoch maxSteps => exact Flush.rotated_next hrotated
  obtain ⟨q', hq', hrotated'⟩ := hnext
  change l.deleteList.length = 0 + _ + _ at htotal
  change ∀ t ∈ stamps.take (0 + _), t + 1 ≤ q at hsecond
  rw [Nat.zero_add] at htotal hsecond
  have hstamps : ∀ t ∈ stamps, q + 1 ≤ q' := by
    intro t ht
    refine hq'.resolve_left fun hempty => ?_
    rw [hempty, List.length_nil, List.length_eq_zero_iff] at hlength
    rw [hlength] at ht
    exact List.not_mem_nil ht
  refine ⟨q', hlength, ?_, ?_, ?_, ?_, ?_, ?_⟩
  · rw [Flush.front]
    simp only [hi1, hi2, Function.update_of_ne hn1, Function.update_of_ne hn2,
      Function.update_of_ne hn3, hlast]
    exact htotal
  · simp only [hi3, Function.update_self]
  · rw [Flush.front]
    simp only [Function.update_of_ne hn1]
    intro t ht
    have hold := hsecond t ht
    have hnew := hstamps t (List.mem_of_mem_take ht)
    omega
  · intro t ht
    have hold := hthird t (List.mem_of_mem_take ht)
    have hnew := hstamps t (List.mem_of_mem_take ht)
    omega
  · intro t ht
    have hold := hthird t ht
    have hnew := hstamps t ht
    omega
  · exact hrotated'.congr rfl

/-! ## What a step does to the lists -/

/-- What a step of the thread of `i` does to its lists. -/
inductive State.Moves [DecidableEq ι] (s s' : State ι ω) (i : ι) : Prop
  /-- Nothing, and the thread is not about to rotate its counters. -/
  | quiet (hquiet : (s.record i).pc.Quiet) (hquiet' : (s'.record i).pc.Quiet)
      (hlists : (s'.record i).lists = (s.record i).lists)
      (hrole : (s.record i).member.role.Publishes → (s'.record i).member.role ≠ .idle)
  /-- An object is passed to `delete_in_epoch`. -/
  | delete (o : ω) (hpc : (s.record i).pc = .inside) (hpc' : (s'.record i).pc = .inside)
      (hlists : (s'.record i).lists = ((s.addToDeleteList i o).record i).lists)
  /-- `refresh` has found a new epoch. -/
  | startRefresh (k : After) (newEpoch : ℕ) (hpc : (s.record i).pc = .refreshCompare k newEpoch)
      (hpc' : (s'.record i).pc = .flush (.refresh k newEpoch))
      (hlists : (s'.record i).lists = (s.record i).lists)
  /-- The loop of `rejoin_epoch` is over. -/
  | rejoin (oldEpoch guessedEpoch newEpoch : ℕ)
      (hpc : (s.record i).pc = .rejoinStore oldEpoch guessedEpoch newEpoch)
      (hguessed : guessedEpoch ≠ incEpochBy newEpoch 1)
      (hpc' : (s'.record i).pc = .flush (.rejoin oldEpoch newEpoch 4))
      (hepoch : (s'.record i).epoch = ⟨false, newEpoch⟩)
      (hlists : (s'.record i).lists = (s.record i).lists)
  /-- `flush_old_epoch` begins. -/
  | flush (f : Flush) (hpc : (s.record i).pc = .flush f)
      (hpc' : (s'.record i).pc = .dequeue ((s.record i).unusable (s.record i).index) f)
      (hlists : (s'.record i).lists = (s.record i).lists)
  /-- An object is deallocated. -/
  | dealloc (usable : ℕ) (f : Flush) (d : ω) (rest : List ω)
      (hpc : (s.record i).pc = .dequeue (usable + 1) f)
      (hlist : (s.record i).deleteList = d :: rest) (hpc' : (s'.record i).pc = .dequeue usable f)
      (hlists : (s'.record i).lists = ((s.dealloc i d rest).record i).lists)
  /-- The counters are rotated. -/
  | rotate (f : Flush) (hpc : (s.record i).pc = .dequeue 0 f) (hpc' : (s'.record i).pc = f.next)
      (hlists : (s'.record i).lists = ((s.rotate i).record i).lists)
  /-- `refresh` publishes the new epoch. -/
  | publish (k : After) (newEpoch : ℕ) (hpc : (s.record i).pc = .refreshStore k newEpoch)
      (hpc' : (s'.record i).pc = k.pc) (hepoch : (s'.record i).epoch = ⟨false, newEpoch⟩)
      (hglobal : s'.global = s.global) (hlists : (s'.record i).lists = (s.record i).lists)

variable [DecidableEq ι]

/-- A thread goes on from a quiet place where it publishes nothing. -/
theorem State.Moves.of_goto {s t : State ι ω} {i : ι} {pc pc' : Pc ι}
    (hpc : (s.record i).pc = pc) (hquiet : pc.Quiet) (hquiet' : pc'.Quiet)
    (hlists : (t.record i).lists = (s.record i).lists)
    (hrole : ¬ (pc.role (s.record i).epoch).Publishes) : s.Moves (t.goto i pc') i := by
  refine .quiet (by rwa [hpc]) ?_ ?_ fun hpublishes => absurd ?_ hrole
  · rwa [State.pc_goto, if_pos rfl]
  · rw [State.lists_goto, hlists]
  · rw [← hpc]
    exact hpublishes

/-- What a step of `in_epoch_try_eject` does. -/
theorem State.moves_eject {s : State ι ω} {i o : ι} {p : EjectPc} {e : ℕ} {rest : List ι}
    (hpc : (s.record i).pc = .eject p e o rest) :
    (∀ j, j ≠ i → ((s.ejectStep i e o rest p).record j).lists = (s.record j).lists) ∧
      s.Moves (s.ejectStep i e o rest p) i := by
  have hrole : ¬ ((Pc.eject p e o rest).role (s.record i).epoch).Publishes := by
    cases p <;> exact id
  cases p with
  | tryLoad | tryExchange | tryRecheck | check =>
    simp only [State.ejectStep]
    split <;> exact ⟨by simp, .of_goto hpc trivial trivial (by simp) hrole⟩
  | giveUp | load | store x | release =>
    simp only [State.ejectStep]
    exact ⟨by simp, .of_goto hpc trivial trivial (by simp) hrole⟩

/-- What a step of a thread does. -/
theorem State.moves_thread (s : State ι ω) (i : ι) :
    s.threadStep i = s ∨ (∀ j, j ≠ i → ((s.threadStep i).record j).lists = (s.record j).lists) ∧
      s.Moves (s.threadStep i) i := by
  cases hpc : (s.record i).pc with
  | free | outside | inside | tryAdvance =>
    left
    simp only [State.threadStep, hpc]
  | externalCheck =>
    right
    simp only [State.threadStep, hpc]
    split <;> exact ⟨by simp, .of_goto hpc trivial trivial rfl id⟩
  | rareRelease | rareStore | rareFree | useLoad | refreshLoad k | rejoinLoad
  | rejoinPublish old new | rejoinReload old guessed | leave | exitLoad | exitStore x =>
    right
    simp only [State.threadStep, hpc]
    exact ⟨by simp, .of_goto hpc trivial trivial (by simp) id⟩
  | rareExchange =>
    simp only [State.threadStep, hpc]
    split
    · exact .inl rfl
    · exact .inr ⟨by simp, .of_goto hpc trivial trivial (by simp) id⟩
  | useCompare new =>
    right
    simp only [State.threadStep, hpc]
    split
    · exact ⟨by simp, .of_goto hpc trivial trivial rfl id⟩
    · split <;> exact ⟨by simp, .of_goto hpc trivial trivial rfl id⟩
  | refreshCompare k new =>
    right
    simp only [State.threadStep, hpc]
    split
    · next hsame =>
      refine ⟨by simp, .of_goto hpc trivial (by cases k <;> trivial) rfl ?_⟩
      rw [hsame]
      simp only [Pc.role, if_true]
      exact id
    · exact ⟨by simp, .startRefresh k new hpc (by simp) (by simp)⟩
  | refreshStore k new =>
    right
    simp only [State.threadStep, hpc]
    exact ⟨by simp, .publish k new hpc (by simp) (by simp) rfl (by simp)⟩
  | rejoinStore old guessed new =>
    right
    simp only [State.threadStep, hpc]
    split
    · refine ⟨by simp, .quiet (by rw [hpc]; trivial) (by simp; trivial) (by simp) fun _ => ?_⟩
      simp only [Record.member, State.pc_goto, if_true, Pc.role]
      intro hjoined
      cases hjoined
    · next hguessed =>
      exact ⟨by simp, .rejoin old guessed new hpc hguessed (by simp) (by simp) (by simp)⟩
  | flush f =>
    right
    simp only [State.threadStep, hpc]
    exact ⟨by simp, .flush f hpc (by simp) (by simp)⟩
  | dequeue usable f =>
    cases usable with
    | zero =>
      right
      simp only [State.threadStep, hpc]
      exact ⟨by simp +contextual, .rotate f hpc (by simp) (by simp)⟩
    | succ usable =>
      cases hlist : (s.record i).deleteList with
      | nil =>
        left
        simp only [State.threadStep, hpc, hlist]
      | cons d rest =>
        right
        simp only [State.threadStep, hpc, hlist]
        exact ⟨by simp +contextual, .dealloc usable f d rest hpc hlist (by simp) (by simp)⟩
  | scan e tryEject todo =>
    right
    cases todo with
    | nil =>
      simp only [State.threadStep, hpc]
      refine ⟨fun j _ => State.lists_goto s i j _, ?_⟩
      refine .quiet (by rw [hpc]; trivial) ?_ (State.lists_goto s i i _) fun hpublishes => ?_
      · change ((s.goto i (.refreshLoad .leave)).record i).pc.Quiet
        rw [State.pc_goto, if_pos rfl]
        trivial
      · rw [Record.member, hpc] at hpublishes
        exact hpublishes.elim
    | cons o rest =>
      simp only [State.threadStep, hpc]
      split
      · exact ⟨by simp, .of_goto hpc trivial trivial rfl id⟩
      · split <;> exact ⟨by simp, .of_goto hpc trivial trivial rfl id⟩
  | eject p e o rest =>
    right
    simp only [State.threadStep, hpc]
    exact State.moves_eject hpc

/-- What a step does to the lists. -/
theorem State.moves_step {s s' : State ι ω} {i : ι} (hstep : StepOf i s s') :
    s' = s ∨ (∀ j, j ≠ i → (s'.record j).lists = (s.record j).lists) ∧ s.Moves s' i := by
  cases hstep with
  | acquire hpc =>
    right
    refine ⟨fun j _ => State.lists_goto s i j _, ?_⟩
    refine .quiet (by rw [hpc]; trivial) ?_ (State.lists_goto s i i _) fun hpublishes => ?_
    · change ((s.goto i .outside).record i).pc.Quiet
      rw [State.pc_goto, if_pos rfl]
      trivial
    · rw [Record.member, hpc] at hpublishes
      exact hpublishes.elim
  | use hpc =>
    right
    rcases hpc with hpc | hpc
    · split <;> exact ⟨by simp, .of_goto hpc trivial trivial (by simp) id⟩
    · split <;> exact ⟨by simp, .of_goto hpc trivial trivial (by simp) id⟩
  | delete hpc o =>
    right
    exact ⟨by simp +contextual, .delete o hpc (by simpa using hpc) rfl⟩
  | releaseRare hpc hcount =>
    right
    exact ⟨by simp, .of_goto hpc trivial trivial rfl id⟩
  | release hpc =>
    right
    split <;> exact ⟨by simp, .of_goto hpc trivial trivial (by simp) id⟩
  | tryAdvance hpc tryEject =>
    right
    exact ⟨by simp, .of_goto hpc trivial trivial rfl id⟩
  | exit hpc =>
    right
    exact ⟨by simp, .of_goto hpc trivial trivial rfl id⟩
  | thread => exact s.moves_thread i

/-! ## Runs -/

/-- In this step a thread rejoins in the epoch in which it was ejected. -/
def State.RejoinsUnmoved (s s' : State ι ω) (i : ι) : Prop :=
  ∃ oldEpoch guessedEpoch, (s.record i).pc = .rejoinStore oldEpoch guessedEpoch oldEpoch ∧
    (s'.record i).pc = .flush (.rejoin oldEpoch oldEpoch 4)

/-- A step in which no thread that has objects to deallocate rejoins in the epoch in which it was
ejected. -/
def CarefulStep (s s' : State ι ω) : Prop :=
  Step s s' ∧ ∀ i, s.RejoinsUnmoved s' i → (s.record i).deleteList = []

/-- The objects of all records have waited since the rounds `stamps`. -/
def State.Aging (s : State ι ω) (r q : ι → ℕ) (stamps : ι → List ℕ) : Prop :=
  ∀ i, (s.record i).pc.Aged (s.record i).lists (r i) (q i) (stamps i)

/-- How the history of a record goes on while the global epoch is in round `n` and the record in round
`r`: nothing happens, an object is passed to `delete_in_epoch`, or one is deallocated. -/
def Continues (n r : ℕ) (l l' : Lists ω) (stamps stamps' : List ℕ) : Prop :=
  (l'.deleted = l.deleted ∧ l'.freed = l.freed ∧ stamps' = stamps) ∨
  (∃ o, l'.deleted = l.deleted ++ [o] ∧ l'.freed = l.freed ∧ stamps' = stamps ++ [r] ∧
    n ≤ r + 1) ∨
  ∃ d t, l'.deleted = l.deleted ∧ l'.freed = l.freed ++ [d] ∧ stamps = t :: stamps' ∧ t + 3 ≤ n

omit [DecidableEq ι] in
/-- The role of a thread depends on its number only. -/
theorem Pc.role_congr (pc : Pc ι) {w w' : Word} (h : w'.number = w.number) :
    pc.role w' = pc.role w := by
  cases pc <;> first | rfl | simp only [Pc.role, h]

/-- The rounds after a step. -/
theorem State.Locks.timed_step {s s' : State ι ω} {n : ℕ} {r p : ι → ℕ} (h : s.Locks)
    (htimed : s.clock.Timed epochs n r p) (hstep : Step s s') :
    ∃ n' r' p', s'.clock.Timed epochs n' r' p' ∧ s.clock.Advances s'.clock n n' r r' := by
  rcases h.clock_step hstep with hsame | htick
  · rw [hsame]
    exact ⟨n, r, p, htimed, Clock.Advances.rfl'⟩
  · exact htimed.step two_le_epochs htick

omit [DecidableEq ι] in
/-- The other records stay in their rounds. -/
theorem State.Lawful.round_of_ne {s s' : State ι ω} {n n' : ℕ} {r r' : ι → ℕ} {i j : ι}
    (h : s.Lawful s' i) (hadvances : s.clock.Advances s'.clock n n' r r') (hj : j ≠ i) :
    r' j = r j := by
  by_contra hne
  obtain ⟨hpublishes, hidle⟩ := hadvances.moves j hne
  have hnumber : (s'.record j).epoch.number = (s.record j).epoch.number := by
    rcases h.epoch j hj with heq | ⟨-, heq⟩ <;> rw [heq]
  have hrole : (s'.clock.member j).role = (s.clock.member j).role := by
    change (s'.record j).pc.role _ = (s.record j).pc.role _
    rw [h.pc j hj, Pc.role_congr _ hnumber]
  rw [← hrole, hidle] at hpublishes
  exact hpublishes

omit [DecidableEq ι] in
/-- A thread that publishes nothing stays in its round. -/
theorem round_of_not_publishes {s s' : State ι ω} {n n' : ℕ} {r r' : ι → ℕ} {i : ι} {pc : Pc ι}
    (hadvances : s.clock.Advances s'.clock n n' r r') (hpc : (s.record i).pc = pc)
    (hrole : ¬ (pc.role (s.record i).epoch).Publishes) : r' i = r i := by
  by_contra hne
  obtain ⟨hpublishes, -⟩ := hadvances.moves i hne
  rw [← hpc] at hrole
  exact hrole hpublishes

omit [DecidableEq ι] in
/-- A thread that is about to publish stays in its round. -/
theorem round_of_not_idle {s s' : State ι ω} {n n' : ℕ} {r r' : ι → ℕ} {i : ι} {pc : Pc ι}
    (hadvances : s.clock.Advances s'.clock n n' r r') (hpc : (s'.record i).pc = pc)
    (hrole : pc.role (s'.record i).epoch ≠ .idle) : r' i = r i := by
  by_contra hne
  obtain ⟨-, hidle⟩ := hadvances.moves i hne
  rw [← hpc] at hrole
  exact hrole hidle

omit [DecidableEq ι] in
/-- `refresh` publishes the next round. -/
theorem round_of_publish {s s' : State ι ω} {n n' : ℕ} {r r' p p' : ι → ℕ} {i : ι} {k : After}
    {newEpoch : ℕ} (htimed : s.clock.Timed epochs n r p) (htimed' : s'.clock.Timed epochs n' r' p')
    (hadvances : s.clock.Advances s'.clock n n' r r')
    (hpc : (s.record i).pc = .refreshStore k newEpoch) (hpc' : (s'.record i).pc = k.pc)
    (hepoch : (s'.record i).epoch = ⟨false, newEpoch⟩) (hglobal : s'.global = s.global) :
    r' i = r i + 1 := by
  have hrole : (s.clock.member i).role = .refresh newEpoch := by
    change (s.record i).pc.role _ = _
    rw [hpc]
    rfl
  have hrole' : (s'.clock.member i).role = .idle := by
    change (s'.record i).pc.role _ = _
    rw [hpc', After.role]
  obtain ⟨hnew, hn⟩ := (htimed.fits i).refresh newEpoch hrole
  have hnumber : (s'.record i).epoch.number = r' i % epochs :=
    (htimed'.fits i).number (by rw [hrole']; exact id)
  rw [hepoch] at hnumber
  change newEpoch = r' i % epochs at hnumber
  have hle := hadvances.le i
  have hle' := (htimed'.fits i).le
  have hmod : n' % epochs = n % epochs := by
    rw [← htimed.global, ← htimed'.global]
    exact hglobal
  have hn' : n' = n := by
    rcases hadvances.counter with heq | heq
    · exact heq
    · rw [heq] at hmod
      exact absurd hmod.symm (Clock.mod_ne_succ_mod two_le_epochs)
  have hne : r' i ≠ r i := by
    intro heq
    rw [heq, hnew] at hnumber
    exact Clock.mod_ne_succ_mod two_le_epochs hnumber.symm
  omega

/-- What a thread does to its lists keeps their age. -/
theorem State.Moves.aged {s s' : State ι ω} {n n' q : ℕ} {r r' p p' : ι → ℕ} {i : ι}
    {stamps : List ℕ} (hmoves : s.Moves s' i) (hlocks : s.Locks)
    (htimed : s.clock.Timed epochs n r p) (htimed' : s'.clock.Timed epochs n' r' p')
    (hadvances : s.clock.Advances s'.clock n n' r r')
    (hcareful : s.RejoinsUnmoved s' i → (s.record i).deleteList = [])
    (haged : (s.record i).pc.Aged (s.record i).lists (r i) q stamps) :
    ∃ q' stamps', (s'.record i).pc.Aged (s'.record i).lists (r' i) q' stamps' ∧
      Continues n (r i) (s.record i).lists (s'.record i).lists stamps stamps' := by
  induction hmoves with
  | quiet hquiet hquiet' hlists hrole =>
    have hround : r' i = r i := by
      by_contra hne
      obtain ⟨hpublishes, hidle⟩ := hadvances.moves i hne
      exact hrole hpublishes hidle
    refine ⟨q, stamps, ?_, .inl ⟨by rw [hlists], by rw [hlists], rfl⟩⟩
    rw [hlists, hround]
    exact haged.quiet hquiet hquiet'
  | delete o hpc hpc' hlists =>
    have hround := round_of_not_publishes hadvances hpc id
    have hejected := hlocks.published i (by rw [hpc]; trivial)
    have hcurrent : n ≤ r i + 1 := by
      refine (htimed.fits i).current hejected ?_
      change ¬ ((s.record i).pc.role _).Rejoining
      rw [hpc]
      exact id
    rw [hpc] at haged
    have hdelete := haged.delete o trivial
    refine ⟨q, stamps ++ [r i], ?_, .inr (.inl ⟨o, ?_, ?_, rfl, hcurrent⟩)⟩
    · rw [hpc', hlists, hround, State.addToDeleteList, State.record_modify, if_pos rfl]
      exact hdelete
    · rw [hlists, State.addToDeleteList, State.record_modify, if_pos rfl]
      rfl
    · rw [hlists, State.addToDeleteList, State.record_modify, if_pos rfl]
      rfl
  | startRefresh k newEpoch hpc hpc' hlists =>
    have hround := round_of_not_idle hadvances hpc' nofun
    rw [hpc] at haged
    refine ⟨q, stamps, ?_, .inl ⟨by rw [hlists], by rw [hlists], rfl⟩⟩
    rw [hpc', hlists, hround]
    exact ⟨haged.length, haged.total, haged.last, haged.first, haged.second, haged.third,
      haged.rotated⟩
  | rejoin oldEpoch guessedEpoch newEpoch hpc hguessed hpc' hepoch hlists =>
    have hrole : (s.clock.member i).role = .store oldEpoch guessedEpoch newEpoch := by
      change (s.record i).pc.role _ = _
      rw [hpc]
      rfl
    have hrole' : (s'.clock.member i).role = .idle := by
      change (s'.record i).pc.role _ = _
      rw [hpc']
      rfl
    obtain ⟨hold, -, -⟩ := (htimed.fits i).store oldEpoch guessedEpoch newEpoch hrole
    have hnew : (s'.record i).epoch.number = r' i % epochs :=
      (htimed'.fits i).number (by rw [hrole']; exact id)
    rw [hepoch] at hnew
    have hle := hadvances.le i
    rw [hpc] at haged
    have hq : q = r i := haged.rotated
    refine ⟨q, stamps, ?_, .inl ⟨by rw [hlists], by rw [hlists], rfl⟩⟩
    rw [hpc', hlists]
    refine ⟨haged.length, haged.total, haged.last, haged.first, haged.second, haged.third, ?_⟩
    refine ⟨by omega, ?_⟩
    rcases Nat.lt_or_ge (r i) (r' i) with hlt | hge
    · exact .inr ⟨by omega, by rw [hold, hq], hnew⟩
    · left
      have hsame : oldEpoch = newEpoch := by
        rw [hold, show r i = r' i by omega]
        exact hnew.symm
      subst hsame
      exact hcareful ⟨oldEpoch, guessedEpoch, hpc, hpc'⟩
  | flush f hpc hpc' hlists =>
    have hround : r' i = r i := by
      cases f with
      | refresh k newEpoch => exact round_of_not_idle hadvances hpc' nofun
      | rejoin oldEpoch newEpoch maxSteps => exact round_of_not_publishes hadvances hpc id
    rw [hpc] at haged
    refine ⟨q, stamps, ?_, .inl ⟨by rw [hlists], by rw [hlists], rfl⟩⟩
    rw [hpc', hlists, hround]
    exact haged.flush
  | dealloc usable f d rest hpc hlist hpc' hlists =>
    have hround : r' i = r i := by
      cases f with
      | refresh k newEpoch => exact round_of_not_idle hadvances hpc' nofun
      | rejoin oldEpoch newEpoch maxSteps => exact round_of_not_publishes hadvances hpc id
    rw [hpc] at haged
    have hrotated := haged.rotated
    have hnext : q + 1 ≤ n := by
      cases f with
      | refresh k newEpoch =>
        have hrole : (s.clock.member i).role = .refresh newEpoch := by
          change (s.record i).pc.role _ = _
          rw [hpc]
          rfl
        obtain ⟨-, hn⟩ := (htimed.fits i).refresh newEpoch hrole
        have hq : q = r i := hrotated
        omega
      | rejoin oldEpoch newEpoch maxSteps =>
        have hle := (htimed.fits i).le
        rcases hrotated.2 with hempty | ⟨hlt, -, -⟩
        · have hnil : (s.record i).deleteList = [] := hempty
          rw [hlist] at hnil
          cases hnil
        · omega
    obtain ⟨t, stamps', rfl, ht, hdealloc⟩ := haged.dealloc hlist
    refine ⟨q, stamps', ?_, .inr (.inr ⟨d, t, ?_, ?_, rfl, by omega⟩)⟩
    · rw [hpc', hlists, hround, State.dealloc, State.record_modify, if_pos rfl]
      exact hdealloc
    · rw [hlists, State.dealloc, State.record_modify, if_pos rfl]
      rfl
    · rw [hlists, State.dealloc, State.record_modify, if_pos rfl]
      rfl
  | rotate f hpc hpc' hlists =>
    have hround : r' i = r i := by
      cases f with
      | refresh k newEpoch => exact round_of_not_idle hadvances hpc' nofun
      | rejoin oldEpoch newEpoch maxSteps => exact round_of_not_publishes hadvances hpc id
    rw [hpc] at haged
    obtain ⟨q', hrotate⟩ := haged.rotate
    refine ⟨q', stamps, ?_, .inl ⟨?_, ?_, rfl⟩⟩
    · rw [hpc', hlists, hround, State.rotate, State.record_modify, if_pos rfl]
      exact hrotate
    · rw [hlists, State.rotate, State.record_modify, if_pos rfl]
      rfl
    · rw [hlists, State.rotate, State.record_modify, if_pos rfl]
      rfl
  | publish k newEpoch hpc hpc' hepoch hglobal hlists =>
    have hround := round_of_publish htimed htimed' hadvances hpc hpc' hepoch hglobal
    rw [hpc] at haged
    have hq : q = r i + 1 := haged.rotated
    have hquiet : (k.pc : Pc ι).Quiet := by
      cases k <;> trivial
    refine ⟨q, stamps, ?_, .inl ⟨by rw [hlists], by rw [hlists], rfl⟩⟩
    rw [hpc', hlists]
    have hfront := hquiet.front (s.record i).lists
    refine ⟨haged.length, ?_, haged.last, ?_, ?_, haged.third, ?_⟩
    · rw [hfront]
      exact haged.total
    · rw [hfront]
      exact haged.first
    · rw [hfront]
      exact haged.second
    · rw [hquiet.rotated]
      omega

/-- A careful step keeps the age of all objects. -/
theorem State.Aging.step {s s' : State ι ω} {n : ℕ} {r q p : ι → ℕ} {stamps : ι → List ℕ}
    (haging : s.Aging r q stamps) (hlocks : s.Locks) (htimed : s.clock.Timed epochs n r p)
    (hstep : CarefulStep s s') :
    ∃ n' r' p' q' stamps', s'.clock.Timed epochs n' r' p' ∧
      s.clock.Advances s'.clock n n' r r' ∧ s'.Aging r' q' stamps' ∧
      ∀ j, Continues n (r j) (s.record j).lists (s'.record j).lists (stamps j) (stamps' j) := by
  obtain ⟨⟨i, hi⟩, hcareful⟩ := hstep
  obtain ⟨n', r', p', htimed', hadvances⟩ := hlocks.timed_step htimed ⟨i, hi⟩
  have hstay : s' = s ∨ s.Lawful s' i := hlocks.lawful_step hi
  rcases hstay with rfl | hlawful
  · have hround : s'.Aging r q stamps := haging
    exact ⟨n, r, p, q, stamps, htimed, Clock.Advances.rfl', haging,
      fun _ => .inl ⟨rfl, rfl, rfl⟩⟩
  · rcases State.moves_step hi with rfl | ⟨hframe, hmoves⟩
    · exact ⟨n, r, p, q, stamps, htimed, Clock.Advances.rfl', haging,
        fun _ => .inl ⟨rfl, rfl, rfl⟩⟩
    · obtain ⟨qi, stampsi, haged, hcontinues⟩ :=
        hmoves.aged hlocks htimed htimed' hadvances (hcareful i) (haging i)
      refine ⟨n', r', p', Function.update q i qi, Function.update stamps i stampsi, htimed',
        hadvances, fun j => ?_, fun j => ?_⟩
      · by_cases hj : j = i
        · subst hj
          rw [Function.update_self, Function.update_self]
          exact haged
        · rw [Function.update_of_ne hj, Function.update_of_ne hj, hlawful.pc j hj, hframe j hj,
            hlawful.round_of_ne hadvances hj]
          exact haging j
      · by_cases hj : j = i
        · subst hj
          rw [Function.update_self]
          exact hcontinues
        · rw [Function.update_of_ne hj, hframe j hj]
          exact .inl ⟨rfl, rfl, rfl⟩

/-- The objects of each record are deallocated in their order. -/
theorem State.Moves.fifo {s s' : State ι ω} {i : ι} (h : s.Moves s' i)
    (hfifo : (s.record i).deleted = (s.record i).freed ++ (s.record i).deleteList) :
    (s'.record i).deleted = (s'.record i).freed ++ (s'.record i).deleteList ∧
      (s.record i).deleted <+: (s'.record i).deleted := by
  have hsame : ∀ l : Lists ω, (s'.record i).lists = l → (s'.record i).deleted = l.deleted ∧
      (s'.record i).freed = l.freed ∧ (s'.record i).deleteList = l.deleteList := by
    rintro _ rfl
    exact ⟨rfl, rfl, rfl⟩
  induction h with
  | delete o hpc hpc' hlists =>
    obtain ⟨hdeleted, hfreed, hlist⟩ := hsame _ hlists
    rw [hdeleted, hfreed, hlist, State.addToDeleteList, State.record_modify, if_pos rfl]
    refine ⟨?_, List.prefix_append _ [o]⟩
    change (s.record i).deleted ++ [o] = (s.record i).freed ++ ((s.record i).deleteList ++ [o])
    rw [hfifo, List.append_assoc]
  | dealloc usable f d rest hpc hlist hpc' hlists =>
    obtain ⟨hdeleted, hfreed, hlist'⟩ := hsame _ hlists
    rw [hdeleted, hfreed, hlist', State.dealloc, State.record_modify, if_pos rfl]
    refine ⟨?_, List.prefix_rfl⟩
    change (s.record i).deleted = ((s.record i).freed ++ [d]) ++ rest
    rw [hfifo, hlist, List.append_assoc]
    rfl
  | rotate f hpc hpc' hlists =>
    obtain ⟨hdeleted, hfreed, hlist⟩ := hsame _ hlists
    rw [hdeleted, hfreed, hlist, State.rotate, State.record_modify, if_pos rfl]
    exact ⟨hfifo, List.prefix_rfl⟩
  | quiet _ _ hlists _ | startRefresh _ _ _ _ hlists | rejoin _ _ _ _ _ _ _ hlists
  | flush _ _ _ hlists | publish _ _ _ _ _ _ hlists =>
    obtain ⟨hdeleted, hfreed, hlist⟩ := hsame _ hlists
    rw [hdeleted, hfreed, hlist]
    exact ⟨hfifo, List.prefix_rfl⟩

/-- Every object of a record was deallocated once or is still in its list. -/
def State.Fifo (s : State ι ω) : Prop :=
  ∀ j, (s.record j).deleted = (s.record j).freed ++ (s.record j).deleteList

/-- Every step deallocates in order. -/
theorem State.Fifo.step {s s' : State ι ω} (h : s.Fifo) (hstep : Step s s') :
    s'.Fifo ∧ ∀ j, (s.record j).deleted <+: (s'.record j).deleted := by
  obtain ⟨i, hi⟩ := hstep
  rcases State.moves_step hi with rfl | ⟨hframe, hmoves⟩
  · exact ⟨h, fun _ => List.prefix_rfl⟩
  · have hall : ∀ j, (s'.record j).deleted = (s'.record j).freed ++ (s'.record j).deleteList ∧
        (s.record j).deleted <+: (s'.record j).deleted := by
      intro j
      by_cases hj : j = i
      · rw [hj]
        exact hmoves.fifo (h i)
      · have hlists := hframe j hj
        have hdeleted : (s'.record j).deleted = (s.record j).deleted := congrArg Lists.deleted hlists
        have hfreed : (s'.record j).freed = (s.record j).freed := congrArg Lists.freed hlists
        have hlist : (s'.record j).deleteList = (s.record j).deleteList :=
          congrArg Lists.deleteList hlists
        rw [hdeleted, hfreed, hlist]
        exact ⟨h j, List.prefix_rfl⟩
    exact ⟨fun j => (hall j).1, fun j => (hall j).2⟩

/-- Every object is deallocated at most once. -/
theorem Reachable.fifo {s : State ι ω} (h : Reachable s) : s.Fifo := by
  induction h with
  | refl => exact fun _ => rfl
  | tail _ hstep ih => exact (ih.step hstep).1

/-- The states that careful steps reach. -/
def CarefullyReachable (s : State ι ω) : Prop := Relation.ReflTransGen CarefulStep init s

/-- Careful steps are steps. -/
theorem CarefullyReachable.reachable {s : State ι ω} (h : CarefullyReachable s) : Reachable s :=
  Relation.ReflTransGen.mono (fun _ _ (hstep : CarefulStep _ _) => hstep.1) _ _ h

/-- Careful steps from `s` to `s'` during which the thread of `i` stays inside its `Epoch`. -/
def StaysInside (i : ι) (s s' : State ι ω) : Prop :=
  (s.record i).pc = .inside ∧
    Relation.ReflTransGen (fun t t' => CarefulStep t t' ∧ (t'.record i).pc = .inside) s s'

/-- In states that careful steps reach the objects have their age. -/
theorem CarefullyReachable.aging {s : State ι ω} (h : CarefullyReachable s) :
    ∃ n r p q stamps, s.clock.Timed epochs n r p ∧ s.Aging r q stamps := by
  induction h with
  | refl =>
    refine ⟨0, fun _ => 0, fun _ => 0, fun _ => 0, fun _ => [], timed_init, fun _ => ?_⟩
    exact ⟨rfl, rfl, rfl, by simp, by simp, by simp, rfl⟩
  | @tail t t' hrun hstep ih =>
    obtain ⟨n, r, p, q, stamps, htimed, haging⟩ := ih
    have hlocks := (CarefullyReachable.reachable hrun).timed.1
    obtain ⟨n', r', p', q', stamps', htimed', -, haging', -⟩ :=
      haging.step hlocks htimed hstep
    exact ⟨n', r', p', q', stamps', htimed', haging'⟩

/-- What holds since the state `s`, in round `m`, while the thread of `i` stays inside: nothing that was
passed to `delete_in_epoch` since then is deallocated. -/
structure State.Since (s t : State ι ω) (m n : ℕ) (r : ι → ℕ) (stamps : ι → List ℕ) (i : ι) :
    Prop where
  /-- The global epoch does not go back. -/
  le : m ≤ n
  /-- The thread keeps its round. -/
  round : r i ≤ m
  /-- New objects are from the round before at the earliest. -/
  young : ∀ j k x, (stamps j)[k]? = some x →
    (s.record j).deleted.length ≤ (t.record j).freed.length + k → m ≤ x + 1
  /-- No new object is deallocated. -/
  freed : ∀ j, (t.record j).freed.length ≤ (s.record j).deleted.length
  /-- The old objects are remembered. -/
  deleted : ∀ j, (s.record j).deleted <+: (t.record j).deleted

omit [DecidableEq ι] in
/-- The global epoch is held back by a thread that stays inside. -/
theorem lag_of_inside {t : State ι ω} {n : ℕ} {r p : ι → ℕ} {i : ι} (hlocks : t.Locks)
    (htimed : t.clock.Timed epochs n r p) (hinside : (t.record i).pc = .inside) : n ≤ r i + 1 := by
  refine (htimed.fits i).current (hlocks.published i ?_) ?_
  · rw [hinside]
    trivial
  · change ¬ ((t.record i).pc.role _).Rejoining
    rw [hinside]
    exact id

/-- A careful step during which the thread of `i` stays inside. -/
theorem State.Since.step {s t t' : State ι ω} {m n : ℕ} {r p q : ι → ℕ} {stamps : ι → List ℕ}
    {i : ι} (h : s.Since t m n r stamps i) (hlocks : t.Locks)
    (htimed : t.clock.Timed epochs n r p) (haging : t.Aging r q stamps) (hfifo : t.Fifo)
    (hstep : CarefulStep t t') (hinside : (t.record i).pc = .inside) :
    ∃ n' r' p' q' stamps', t'.clock.Timed epochs n' r' p' ∧ t'.Aging r' q' stamps' ∧
      s.Since t' m n' r' stamps' i := by
  obtain ⟨n', r', p', q', stamps', htimed', hadvances, haging', hcontinues⟩ :=
    haging.step hlocks htimed hstep
  have hlag := lag_of_inside hlocks htimed hinside
  have hround : r' i = r i := round_of_not_publishes hadvances hinside id
  have hle := h.le
  have hri := h.round
  have hn : n ≤ n' := by
    have hcounter := hadvances.counter
    omega
  refine ⟨n', r', p', q', stamps', htimed', haging', hle.trans hn, hround.trans_le hri, ?_, ?_,
    fun j => (h.deleted j).trans ((hfifo.step hstep.1).2 j)⟩
  · intro j k x hx hk
    have hyoung := h.young j
    rcases hcontinues j with ⟨-, hfreed, hstamps⟩ | ⟨o, -, hfreed, hstamps, hcurrent⟩ |
      ⟨d, y, -, hfreed, hstamps, -⟩
    · have hfreed : (t'.record j).freed = (t.record j).freed := hfreed
      rw [hstamps] at hx
      rw [hfreed] at hk
      exact hyoung k x hx hk
    · have hfreed : (t'.record j).freed = (t.record j).freed := hfreed
      rw [hstamps] at hx
      rw [hfreed] at hk
      rcases Nat.lt_or_ge k (stamps j).length with hlt | hge
      · rw [List.getElem?_append_left hlt] at hx
        exact hyoung k x hx hk
      · rw [List.getElem?_append_right hge] at hx
        have hxr : x = r j := by
          have hmem := List.mem_of_getElem? hx
          exact List.mem_singleton.mp hmem
        omega
    · have hfreed : (t'.record j).freed = (t.record j).freed ++ [d] := hfreed
      rw [hfreed, List.length_append, List.length_singleton] at hk
      refine hyoung (k + 1) x ?_ (by omega)
      rw [hstamps]
      exact hx
  · intro j
    have hyoung := h.young j 0
    have hold := h.freed j
    rcases hcontinues j with ⟨-, hfreed, -⟩ | ⟨o, -, hfreed, -, -⟩ | ⟨d, y, -, hfreed, hstamps, hy⟩
    · have hfreed : (t'.record j).freed = (t.record j).freed := hfreed
      rwa [hfreed]
    · have hfreed : (t'.record j).freed = (t.record j).freed := hfreed
      rwa [hfreed]
    · have hfreed : (t'.record j).freed = (t.record j).freed ++ [d] := hfreed
      rw [hfreed, List.length_append, List.length_singleton]
      by_contra hmore
      -- The object in front would be new, but the thread of `i` holds the global epoch back.
      have hnew := hyoung y (by rw [hstamps]; rfl) (by omega)
      omega

/-- Every object is deallocated at most once, in the order of the calls of `delete_in_epoch`, and while a
thread stays inside an `Epoch` only objects are deallocated that were passed to it before. -/
theorem deallocated_after_epoch {s s' : State ι ω} {i : ι} (h : CarefullyReachable s)
    (hinside : StaysInside i s s') (j : ι) :
    (s'.record j).deleted = (s'.record j).freed ++ (s'.record j).deleteList ∧
      (s'.record j).freed <+: (s.record j).deleted := by
  obtain ⟨hpc, hrun⟩ := hinside
  obtain ⟨n, r, p, q, stamps, htimed, haging⟩ := h.aging
  have hlocks := h.reachable.timed.1
  have hfifo := h.reachable.fifo
  have hstart : s.Since s n n r stamps i := by
    refine ⟨le_rfl, (htimed.fits i).le, ?_, fun j => ?_, fun _ => List.prefix_rfl⟩
    · intro j k x hx hk
      have hlength := congrArg List.length (hfifo j)
      rw [List.length_append] at hlength
      have hstamps := (haging j).length
      have hstamps : (stamps j).length = (s.record j).deleteList.length := hstamps
      have hbound := (List.getElem?_eq_some_iff.mp hx).1
      omega
    · rw [hfifo j]
      simp
  have hall : ∃ n' r' p' q' stamps', s'.clock.Timed epochs n' r' p' ∧ s'.Aging r' q' stamps' ∧
      s.Since s' n n' r' stamps' i ∧ (s'.record i).pc = .inside ∧ Reachable s' := by
    induction hrun with
    | refl => exact ⟨n, r, p, q, stamps, htimed, haging, hstart, hpc, h.reachable⟩
    | tail _ hstep ih =>
      obtain ⟨n', r', p', q', stamps', htimed', haging', hsince, hpc', hreach⟩ := ih
      obtain ⟨n'', r'', p'', q'', stamps'', htimed'', haging'', hsince'⟩ :=
        hsince.step hreach.timed.1 htimed' haging' hreach.fifo hstep.1 hpc'
      exact ⟨n'', r'', p'', q'', stamps'', htimed'', haging'', hsince', hstep.2,
        hreach.tail hstep.1.1⟩
  obtain ⟨n', r', p', q', stamps', -, -, hsince, -, hreach⟩ := hall
  have hfifo' := hreach.fifo j
  refine ⟨hfifo', ?_⟩
  have hprefix : (s'.record j).freed <+: (s'.record j).deleted := by
    rw [hfifo']
    exact List.prefix_append _ _
  exact List.prefix_of_prefix_length_le hprefix (hsince.deleted j) (hsince.freed j)

/-! ## The rejoining thread -/

/-- Steps of another thread leave a thread where it is. -/
theorem staysInside_of_actor {s : State ι ω} {i : ι} (hlocks : s.Locks)
    (hinside : (s.record i).pc = .inside) {a : Action ι ω} (ha : a.actor ≠ i) :
    Relation.ReflTransGen (fun t t' => Step t t' ∧ (t'.record i).pc = .inside) s (s.act a) ∧
      ((s.act a).record i).pc = .inside ∧ (s.act a).Locks := by
  have hsteps := s.steps_act a
  generalize s.act a = t at hsteps ⊢
  induction hsteps with
  | refl => exact ⟨.refl, hinside, hlocks⟩
  | @tail t t' _ hstep ih =>
    obtain ⟨hrun, hpc, hlocks'⟩ := ih
    have hpc' : (t'.record i).pc = .inside := by
      rcases hlocks'.lawful_step hstep with rfl | hlawful
      · exact hpc
      · exact (hlawful.pc i ha.symm).trans hpc
    exact ⟨hrun.tail ⟨⟨_, hstep⟩, hpc'⟩, hpc', hlocks'.step ⟨_, hstep⟩⟩

/-- Runs of other threads leave a thread where it is. -/
theorem staysInside_run {s : State ι ω} {i : ι} (hlocks : s.Locks)
    (hinside : (s.record i).pc = .inside) (actions : List (Action ι ω))
    (hactors : ∀ a ∈ actions, a.actor ≠ i) :
    Relation.ReflTransGen (fun t t' => Step t t' ∧ (t'.record i).pc = .inside) s
      (s.run actions) := by
  induction actions generalizing s with
  | nil => exact .refl
  | cons a rest ih =>
    obtain ⟨hrun, hpc, hlocks'⟩ :=
      staysInside_of_actor hlocks hinside (hactors a List.mem_cons_self)
    exact hrun.trans (ih hlocks' hpc fun b hb => hactors b (List.mem_cons_of_mem a hb))

/-- A run in which nothing is passed to `delete_in_epoch` is careful. -/
theorem careful_of_nothing_deleted {s : State ι ω} (h : Reachable s)
    (hnothing : ∀ j, (s.record j).deleted = []) : CarefullyReachable s := by
  induction h with
  | refl => exact .refl
  | @tail t t' hrun hstep ih =>
    have hfifo : t.Fifo := Reachable.fifo hrun
    have hprefix := (hfifo.step hstep).2
    have hnothing' : ∀ j, (t.record j).deleted = [] := by
      intro j
      have hj := hprefix j
      rw [hnothing j] at hj
      exact List.prefix_nil.mp hj
    refine (ih hnothing').tail ⟨hstep, fun i _ => ?_⟩
    have hi := hfifo i
    rw [hnothing' i] at hi
    exact (List.append_eq_nil_iff.mp hi.symm).2

/-- Two threads enter an `Epoch`. -/
def bothInside : State Bool ℕ := init.run
  [.acquire false, .use false, .thread false 15, .acquire true, .use true, .thread true 15]

/-- The second thread passes the object 7 to `delete_in_epoch`, leaves, advances the global epoch and
exits; the next thread takes its record over, rejoins and begins to deallocate. -/
def exitAndRejoin : List (Action Bool ℕ) :=
  [.delete true 7, .releaseRare true, .thread true 2, .tryAdvance true false, .thread true 9,
    .exit true, .thread true 2, .acquire true, .use true, .thread true 11]

/-- Both threads are inside. -/
theorem bothInside_spec : Reachable bothInside ∧ (bothInside.record false).pc = .inside ∧
    (bothInside.record true).pc = .inside ∧ ∀ j, (bothInside.record j).deleted = [] :=
  ⟨State.steps_run init _, by decide +kernel, by decide +kernel, by decide +kernel⟩

/-- The second thread passes an object to `delete_in_epoch`; it waits. -/
theorem deallocated_after_epoch_bothInside :
    ((bothInside.addToDeleteList true 7).record true).deleted = [7] ∧
    ((bothInside.addToDeleteList true 7).record true).freed <+: [] := by
  obtain ⟨hreach, hfalse, htrue, hnothing⟩ := bothInside_spec
  have hstep : CarefulStep bothInside (bothInside.addToDeleteList true 7) := by
    refine ⟨⟨true, .delete htrue 7⟩, fun i hi => ?_⟩
    obtain ⟨old, guessed, hpc, -⟩ := hi
    cases i with
    | false =>
      rw [hfalse] at hpc
      cases hpc
    | true =>
      rw [htrue] at hpc
      cases hpc
  have hstays : StaysInside false bothInside (bothInside.addToDeleteList true 7) :=
    ⟨hfalse, .single ⟨hstep, (State.pc_addToDeleteList ..).trans hfalse⟩⟩
  have hsafe := deallocated_after_epoch (careful_of_nothing_deleted hreach hnothing) hstays true
  rw [hnothing true] at hsafe
  refine ⟨?_, hsafe.2⟩
  rw [State.addToDeleteList, State.record_modify, if_pos rfl, hnothing true]
  rfl

/-- The object is deallocated while the first thread is still inside the `Epoch` in which it was when the
object was passed to `delete_in_epoch`. -/
theorem exitAndRejoin_deallocates : ¬ ∀ (s s' : State Bool ℕ) (i : Bool), Reachable s →
    (s.record i).pc = .inside →
    Relation.ReflTransGen (fun t t' => Step t t' ∧ (t'.record i).pc = .inside) s s' →
    ∀ j, (s'.record j).freed <+: (s.record j).deleted := by
  intro hall
  obtain ⟨hreach, hfalse, htrue, hnothing⟩ := bothInside_spec
  have hactors : ∀ a ∈ exitAndRejoin, a.actor ≠ false := by decide
  have hrun := staysInside_run hreach.timed.1 hfalse exitAndRejoin hactors
  have hprefix := hall _ _ false hreach hfalse hrun true
  have hfreed : ((bothInside.run exitAndRejoin).record true).freed = [7] := by decide +kernel
  rw [hfreed, hnothing true] at hprefix
  exact absurd (List.prefix_nil.mp hprefix) (List.cons_ne_nil 7 [])

end VeronaRt.Epoch
