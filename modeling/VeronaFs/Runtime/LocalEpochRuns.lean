import VeronaFs.Runtime.LocalEpoch

/-!
# The delayed operations of a record

`flush_old_epoch` counts a delayed decrement off before it releases the object, so the release finds the
counters in order and may add operations.  While the lock is held the release cannot flush
(`reached_good_of_locked`).  But `Epoch::flush` does not hold it: a release that opens an `Epoch` on a
record that is not in the global epoch flushes again, and the outer loop goes on with its old number of
steps.  In every run in which no flush begins inside of another one the lists are as they are to be
(`reached_good`).
-/

namespace VeronaRt.LocalEpoch

open Foundation Epoch

variable {ω : Type*} {s s' : State ω} {r : Record ω} {a : Action ω} {stack rest : List Task} {task : Task}

/-! ## The invariant -/

/-- What holds of a record. -/
structure Record.Tidy (r : Record ω) : Prop where
  /-- The counters of `delete_list`. -/
  deleteList : r.deleteList.Ordered r.index r.round
  /-- The counters of `dec_list`. -/
  decList : r.decList.Ordered r.index r.round
  /-- The operations of `delete_list`. -/
  kept_deleteList : r.deleteList.Kept
  /-- The operations of `dec_list`. -/
  kept_decList : r.decList.Kept

/-- What holds of a running flush: its loop is over the first counter, with as many steps left. -/
def Record.Serves (r : Record ω) (running : List Task) : Prop :=
  running = [] ∨ running = [.decLoop r.index (r.decList.count r.index)] ∧ r.deleteList.count r.index = 0

/-- What holds in all states. -/
structure State.Invariant (s : State ω) : Prop where
  /-- The record. -/
  tidy : s.record.Tidy
  /-- The running flush. -/
  serves : s.record.Serves s.running

namespace State

/-- A step that does not touch the lists, the index or the running flushes. -/
theorem Invariant.congr (h : Invariant s) (hdelete : s'.record.deleteList = s.record.deleteList)
    (hdec : s'.record.decList = s.record.decList) (hindex : s'.record.index = s.record.index)
    (hround : s'.record.round = s.record.round) (hrunning : s'.running = s.running) : Invariant s' := by
  obtain ⟨⟨h₁, h₂, h₃, h₄⟩, hserves⟩ := h
  refine ⟨⟨?_, ?_, ?_, ?_⟩, ?_⟩
  · rwa [hdelete, hindex, hround]
  · rwa [hdec, hindex, hround]
  · rwa [hdelete]
  · rwa [hdec]
  · rwa [Record.Serves, hrunning, hdelete, hdec, hindex]

/-- Calls that are no running flush. -/
theorem running_call {tasks : List Task} (h : ∀ t ∈ tasks, t.flushing = false) :
    (s.call tasks).running = s.running := by
  rw [running, call, List.filter_append, List.filter_eq_nil_iff.mpr, List.nil_append, running]
  intro t ht hflushing
  rw [h t ht] at hflushing
  cases hflushing

/-- No task of `refresh` is a running flush. -/
theorem flushing_refresh (r : Record ω) (globalEpoch : ℕ) :
    ∀ t ∈ r.refresh globalEpoch, t.flushing = false := by
  rw [Record.refresh]
  split
  · nofun
  · intro t ht
    rcases List.mem_pair.mp ht with rfl | rfl <;> rfl

/-- `use_epoch_rare` does not touch the lists. -/
theorem Invariant.useEpochRare (h : Invariant s) : Invariant s.useEpochRare := by
  rw [State.useEpochRare]
  split
  · refine h.congr rfl rfl rfl rfl ((running_call fun t ht => ?_).trans rfl)
    rw [List.eq_of_mem_replicate ht]
    rfl
  · exact h.congr rfl rfl rfl rfl (running_call (flushing_refresh s.record s.globalEpoch))

/-- `use_epoch` does not touch the lists. -/
theorem Invariant.useEpoch (h : Invariant s) : Invariant s.useEpoch := by
  have h' : Invariant { s with record := { s.record with internal := s.record.internal + 1 } } :=
    h.congr rfl rfl rfl rfl rfl
  unfold State.useEpoch
  split
  · exact h'.useEpochRare
  · exact h'

/-- `advance_is_sensible` does not touch the lists. -/
theorem advanceIsSensible_record (r : Record ω) (coin : Option Bool) :
    ∃ n, (r.advanceIsSensible coin).2 = { r with sensibleThreshold := n } := by
  cases coin with
  | some b => exact ⟨_, rfl⟩
  | none =>
    rw [Record.advanceIsSensible]
    split <;> exact ⟨_, rfl⟩

/-- `release_epoch` does not touch the lists. -/
theorem Invariant.releaseEpoch (h : Invariant s) (coin : Option Bool) :
    Invariant (s.releaseEpoch coin) := by
  obtain ⟨n, hn⟩ := advanceIsSensible_record s.record coin
  have h' : Invariant { s with record := (s.record.advanceIsSensible coin).2 } := by
    rw [hn]
    exact h.congr rfl rfl rfl rfl rfl
  rw [State.releaseEpoch]
  split
  · simp only
    split
    · refine h'.congr rfl rfl rfl rfl (running_call fun t ht => ?_)
      rcases List.mem_append.mp ht with ht | ht
      · exact flushing_refresh _ _ t ht
      · rcases List.mem_pair.mp ht with rfl | rfl <;> rfl
    · exact h'.congr rfl rfl rfl rfl rfl
  · exact h.congr rfl rfl rfl rfl rfl

/-- A flush that begins while no other one is running deallocates the oldest objects. -/
theorem Invariant.deleteLoop (h : Invariant s) (hstack : s.stack = .flush :: rest)
    (hrunning : s.running = []) : ∃ record, s.record.deleteLoop = some record ∧
      Invariant { s with
        record := record
        stack := .decLoop record.index (record.decList.count record.index) :: rest } := by
  obtain ⟨q, hq, hordered⟩ := h.tidy.deleteList.dequeueAll rfl
  have hloop : s.record.deleteLoop = some { s.record with
      deleteList := q.setCount s.record.index 0
      pressure := Function.update s.record.pressure s.record.index 0 } := by
    rw [Record.deleteLoop, hq, Option.map_some]
  have hkept : q.Kept := h.tidy.kept_deleteList.dequeueAll hq
  refine ⟨_, hloop, ⟨hordered, h.tidy.decList, hkept, h.tidy.kept_decList⟩,
    Or.inr ⟨?_, Function.update_self ..⟩⟩
  · rw [running, hstack, List.filter_cons_of_neg (by decide)] at hrunning
    change List.filter Task.flushing (_ :: rest) = _
    rw [List.filter_cons_of_pos rfl, hrunning]

/-- The running flush, when it is the innermost call. -/
theorem Invariant.decLoop {cell : Fin 4} {left : ℕ} (h : Invariant s)
    (hstack : s.stack = .decLoop cell left :: rest) : cell = s.record.index ∧
      s.record.decList.count s.record.index = left ∧ s.record.deleteList.count s.record.index = 0 ∧
      rest.filter Task.flushing = [] := by
  have hrunning : s.running = .decLoop cell left :: rest.filter Task.flushing := by
    rw [running, hstack, List.filter_cons_of_pos rfl]
  rcases h.serves with hnone | ⟨hone, hzero⟩
  · rw [hrunning] at hnone
    cases hnone
  · rw [hrunning, List.cons.injEq, Task.decLoop.injEq] at hone
    exact ⟨hone.1.1, hone.1.2.symm, hzero, hone.2⟩

/-- The loop over `dec_list` performs the oldest decrement. -/
theorem Invariant.decStep {cell : Fin 4} {left : ℕ} (h : Invariant s)
    (hstack : s.stack = .decLoop cell (left + 1) :: rest) :
    ∃ record, s.record.decStep cell = some record ∧
      Invariant { s with record := record, stack := .client 0 :: .decLoop cell left :: rest } := by
  obtain ⟨rfl, hcount, hzero, hrest⟩ := h.decLoop hstack
  obtain ⟨q, hq, hqcount, hordered⟩ := h.tidy.decList.dequeue hcount
  have hdec : decSize (q.count s.record.index) = left := by
    rw [hqcount, hcount]
    rfl
  have hstep : s.record.decStep s.record.index = some { s.record with
      decList := q.setCount s.record.index left } := by
    rw [Record.decStep, hq, Option.map_some, hdec]
  have hkept : q.Kept := h.tidy.kept_decList.dequeue hq
  refine ⟨_, hstep, ⟨h.tidy.deleteList, hordered, h.tidy.kept_deleteList, hkept⟩,
    Or.inr ⟨?_, hzero⟩⟩
  change List.filter Task.flushing (.client 0 :: .decLoop s.record.index left :: rest) = _
  rw [List.filter_cons_of_neg (by decide), List.filter_cons_of_pos rfl, hrest]
  simp only [AgedQueue.setCount, Function.update_self]

/-- A flush ends. -/
theorem Invariant.rotate {cell : Fin 4} (h : Invariant s) (hstack : s.stack = .decLoop cell 0 :: rest) :
    Invariant { s with record := s.record.rotate, stack := rest } := by
  obtain ⟨-, hcount, hzero, hrest⟩ := h.decLoop hstack
  exact ⟨⟨h.tidy.deleteList.rotate hzero, h.tidy.decList.rotate hcount, h.tidy.kept_deleteList,
    h.tidy.kept_decList⟩, Or.inl hrest⟩

/-- What is running below a call that is no running flush. -/
theorem running_cons (hstack : s.stack = task :: rest) (htask : task.flushing = false) :
    s.running = rest.filter Task.flushing := by
  rw [running, hstack, List.filter_cons_of_neg (by simp [htask])]

/-- The program, or what a release runs, opens or closes an `Epoch`. -/
theorem Invariant.client {opened : ℕ} (h : Invariant s) (hstack : s.stack = .client opened :: rest)
    (opened' : ℕ) : Invariant { s with stack := .client opened' :: rest } := by
  refine h.congr rfl rfl rfl rfl ?_
  rw [running_cons hstack rfl]
  rfl

/-- A step of the innermost call. -/
theorem Invariant.taskStep {allInEpoch : Bool} (h : Invariant s) (hstack : s.stack = task :: rest)
    (hnested : task = .flush → s.running = []) (hs : s.taskStep allInEpoch task rest = some s') :
    Invariant s' := by
  cases task with
  | client opened => cases hs
  | flush =>
    obtain ⟨record, hrecord, hinv⟩ := h.deleteLoop hstack (hnested rfl)
    rw [State.taskStep, hrecord] at hs
    obtain rfl := Option.some.inj hs
    exact hinv
  | decLoop cell left =>
    cases left with
    | zero =>
      obtain rfl := Option.some.inj hs
      exact h.rotate hstack
    | succ left =>
      obtain ⟨record, hrecord, hinv⟩ := h.decStep hstack
      rw [State.taskStep, hrecord] at hs
      obtain rfl := Option.some.inj hs
      exact hinv
  | storeEpoch newEpoch =>
    obtain rfl := Option.some.inj hs
    exact h.congr rfl rfl rfl rfl (running_cons hstack rfl).symm
  | tryAdvance =>
    have hrunning := running_cons hstack rfl
    unfold State.taskStep at hs
    simp only at hs
    split at hs
    · obtain rfl := Option.some.inj hs
      refine h.congr rfl rfl rfl rfl ?_
      rw [hrunning, running, List.filter_append, List.filter_eq_nil_iff.mpr, List.nil_append]
      intro t ht hflushing
      rw [flushing_refresh _ _ t ht] at hflushing
      cases hflushing
    · obtain rfl := Option.some.inj hs
      exact h.congr rfl rfl rfl rfl hrunning.symm
  | release =>
    obtain rfl := Option.some.inj hs
    exact h.congr rfl rfl rfl rfl (running_cons hstack rfl).symm
  | eject =>
    obtain rfl := Option.some.inj hs
    exact h.congr rfl rfl rfl rfl (running_cons hstack rfl).symm

/-- A step that does not begin a nested flush keeps the invariant. -/
theorem Invariant.step (h : Invariant s) (ha : s.NotNested a) (hs : s.step a = some s') :
    Invariant s' := by
  unfold State.step at hs
  cases a with
  | use =>
    simp only at hs
    split at hs
    · next opened rest hstack =>
      obtain rfl := Option.some.inj hs
      exact (h.client hstack _).useEpoch
    · cases hs
  | release coin =>
    simp only at hs
    split at hs
    · next opened rest hstack =>
      obtain rfl := Option.some.inj hs
      exact (h.client hstack _).releaseEpoch coin
    · cases hs
  | addToDeleteList p =>
    simp only at hs
    split at hs
    · obtain rfl := Option.some.inj hs
      refine ⟨⟨h.tidy.deleteList.add p, h.tidy.decList, h.tidy.kept_deleteList.add p,
        h.tidy.kept_decList⟩, h.serves.imp_right fun hone => ⟨hone.1, ?_⟩⟩
      exact AgedQueue.count_add.trans hone.2
    · cases hs
  | addToDecList p =>
    simp only at hs
    split at hs
    · obtain rfl := Option.some.inj hs
      refine ⟨⟨h.tidy.deleteList, h.tidy.decList.add p, h.tidy.kept_deleteList,
        h.tidy.kept_decList.add p⟩, h.serves.imp_right fun hone => ⟨?_, hone.2⟩⟩
      rw [Record.addToDecList, AgedQueue.count_add]
      exact hone.1
    · cases hs
  | flushOldEpoch =>
    simp only at hs
    split at hs
    · obtain rfl := Option.some.inj hs
      exact h.congr rfl rfl rfl rfl rfl
    · cases hs
  | flush =>
    simp only at hs
    split at hs
    · obtain rfl := Option.some.inj hs
      exact h.congr rfl rfl rfl rfl rfl
    · cases hs
  | releaseReturns =>
    simp only at hs
    split at hs
    · next hstack =>
      obtain rfl := Option.some.inj hs
      refine h.congr rfl rfl rfl rfl ?_
      rw [running_cons hstack rfl]
      rfl
    · cases hs
  | step allInEpoch =>
    simp only at hs
    split at hs
    · next task rest hstack =>
      exact h.taskStep hstack (fun heq => ha (by rw [hstack, heq]; rfl)) hs
    · cases hs
  | setGlobal epoch =>
    obtain rfl := Option.some.inj hs
    exact h.congr rfl rfl rfl rfl rfl
  | ejectOther =>
    simp only at hs
    split at hs
    · obtain rfl := Option.some.inj hs
      exact h.congr rfl rfl rfl rfl rfl
    · cases hs

/-- The invariant gives what is to hold. -/
theorem Invariant.good (h : Invariant s) : s.Good where
  not_faults := by
    rintro (⟨-, hnone⟩ | ⟨cell, left, hhead, hnone⟩)
    · obtain ⟨q, hq, -⟩ := h.tidy.deleteList.dequeueAll rfl
      rw [Record.deleteLoop, hq] at hnone
      cases hnone
    · obtain ⟨rest, hstack⟩ := List.head?_eq_some_iff.mp hhead
      obtain ⟨record, hrecord, -⟩ := h.decStep hstack
      rw [hnone] at hrecord
      cases hrecord
  ordered := fun _ => ⟨h.tidy.deleteList, h.tidy.decList⟩
  sum_eq := fun _ => ⟨h.tidy.deleteList.sum_eq, h.tidy.decList.sum_eq⟩
  kept := ⟨h.tidy.kept_deleteList, h.tidy.kept_decList⟩

/-- A new record has the invariant. -/
theorem invariant_initial : Invariant (initial : State ω) :=
  ⟨⟨AgedQueue.ordered_empty, AgedQueue.ordered_empty, AgedQueue.kept_empty, AgedQueue.kept_empty⟩,
    Or.inl rfl⟩

/-- The invariant holds in every run without nested flushes. -/
theorem Reached.invariant (h : Reached NotNested s) : Invariant s := by
  induction h with
  | initial => exact invariant_initial
  | step hs ha h ih => exact ih.step ha h

end State

/-! ## The lock -/

/-- How often the lock is held by a call. -/
def Task.opened : Task → ℕ
  | .client opened => opened
  | .release => 1
  | _ => 0

/-- The call flushes or is still to flush. -/
def Task.slow : Task → Bool
  | .flush => true
  | .tryAdvance => true
  | .decLoop _ _ => true
  | _ => false

/-- How often the lock is held. -/
def held (stack : List Task) : ℕ := (stack.map Task.opened).sum

/-- Whatever flushes has an outer call that holds the lock, and no other flush is running outside of
it. -/
def Guarded : List Task → Prop
  | [] => True
  | task :: rest =>
    (task.slow → 0 < held rest ∧ rest.filter Task.flushing = []) ∧ Guarded rest

/-- What holds in the runs in which all flushes hold the lock. -/
structure State.Serial (s : State ω) : Prop where
  /-- The count of the lock. -/
  internal_eq : s.record.internal = held s.stack
  /-- The flushes. -/
  guarded : Guarded s.stack

/-- How often the lock is held by calls with others. -/
theorem held_append (tasks stack : List Task) : held (tasks ++ stack) = held tasks + held stack := by
  rw [held, List.map_append, List.sum_append]
  rfl

/-- How often the lock is held by a call with others. -/
theorem held_cons (task : Task) (stack : List Task) : held (task :: stack) = task.opened + held stack :=
  List.sum_cons

/-- A running flush flushes. -/
theorem Task.slow_of_flushing (h : task.flushing = true) : task.slow = true := by
  cases task <;> first | rfl | cases h

/-- No flush is running when nobody holds the lock. -/
theorem Guarded.filter_eq_nil (h : Guarded stack) (hheld : held stack = 0) :
    stack.filter Task.flushing = [] := by
  induction stack with
  | nil => rfl
  | cons task rest ih =>
    rw [held_cons] at hheld
    have hrest := ih h.2 (by omega)
    cases hflushing : task.flushing with
    | true =>
      have hpos := (h.1 (Task.slow_of_flushing hflushing)).1
      omega
    | false => rw [List.filter_cons_of_neg (by simp [hflushing]), hrest]

/-- Calls that are no running flush, with the lock held. -/
theorem Guarded.append {tasks : List Task} (h : Guarded stack)
    (htasks : ∀ t ∈ tasks, t.flushing = false) (hheld : 0 < held stack)
    (hnone : stack.filter Task.flushing = []) : Guarded (tasks ++ stack) := by
  induction tasks with
  | nil => exact h
  | cons task tasks ih =>
    have htail (t : Task) (ht : t ∈ tasks) : t.flushing = false :=
      htasks t (List.mem_cons_of_mem task ht)
    change Guarded (task :: (tasks ++ stack))
    refine ⟨fun _ => ⟨?_, ?_⟩, ih htail⟩
    · rw [held_append]
      omega
    · rw [List.filter_append, hnone, List.append_nil, List.filter_eq_nil_iff]
      intro t ht hflushing
      rw [htail t ht] at hflushing
      cases hflushing

/-- The calls of `refresh` do not hold the lock. -/
theorem held_refresh (r : Record ω) (globalEpoch : ℕ) : held (r.refresh globalEpoch) = 0 := by
  rw [Record.refresh]
  split <;> rfl

namespace State

/-- `use_epoch_rare` flushes with the lock held. -/
theorem Serial.useEpochRare (h : Serial s) (hheld : 0 < held s.stack) (hnone : s.running = []) :
    Serial s.useEpochRare := by
  rw [State.useEpochRare]
  split
  · refine ⟨h.internal_eq.trans ?_, h.guarded.append (fun t ht => ?_) hheld hnone⟩
    · have hzero (n : ℕ) : held (List.replicate n .flush) = 0 := by
        simp [held, Task.opened]
      rw [call, held_append, hzero, Nat.zero_add]
    · rw [List.eq_of_mem_replicate ht]
      rfl
  · refine ⟨h.internal_eq.trans ?_, h.guarded.append (flushing_refresh _ _) hheld hnone⟩
    rw [call, held_append, held_refresh, Nat.zero_add]

/-- `use_epoch` flushes only if nobody held the lock. -/
theorem Serial.useEpoch {opened : ℕ} (h : Serial s) (hstack : s.stack = .client opened :: rest) :
    Serial (State.useEpoch { s with stack := .client (opened + 1) :: rest }) := by
  have hinternal := h.internal_eq
  have hguarded := h.guarded
  rw [hstack, held_cons] at hinternal
  rw [hstack] at hguarded
  have hheld : held (.client (opened + 1) :: rest) = s.record.internal + 1 := by
    rw [held_cons, hinternal, Task.opened, Task.opened]
    omega
  have hopen : Serial
      { s with
        record := { s.record with internal := s.record.internal + 1 }
        stack := .client (opened + 1) :: rest } := ⟨hheld.symm, nofun, hguarded.2⟩
  unfold State.useEpoch
  split
  · next hslow =>
    have hzero : s.record.internal = 0 := hslow.1
    have hpos : 0 < held (.client (opened + 1) :: rest) := by omega
    refine hopen.useEpochRare hpos ?_
    rw [running, List.filter_cons_of_neg Bool.false_ne_true]
    exact hguarded.2.filter_eq_nil (by omega)
  · exact hopen

/-- `release_epoch` flushes only if no outer call holds the lock. -/
theorem Serial.releaseEpoch {opened : ℕ} (h : Serial s)
    (hstack : s.stack = .client (opened + 1) :: rest) (coin : Option Bool) :
    Serial (State.releaseEpoch { s with stack := .client opened :: rest } coin) := by
  have hinternal := h.internal_eq
  have hguarded := h.guarded
  rw [hstack, held_cons, Task.opened] at hinternal
  rw [hstack] at hguarded
  have hrelease : Guarded (.release :: .client opened :: rest) := ⟨nofun, nofun, hguarded.2⟩
  have hheld : held (.release :: .client opened :: rest) = s.record.internal := by
    rw [held_cons, held_cons, hinternal, Task.opened, Task.opened]
    omega
  obtain ⟨n, hn⟩ := advanceIsSensible_record s.record coin
  have hsame : (s.record.advanceIsSensible coin).2.internal = s.record.internal := by rw [hn]
  unfold State.releaseEpoch
  split
  · next hone =>
    have hone' : s.record.internal = 1 := hone
    simp only
    split
    · have hnone : (Task.release :: .client opened :: rest).filter Task.flushing = [] := by
        rw [List.filter_cons_of_neg Bool.false_ne_true, List.filter_cons_of_neg Bool.false_ne_true]
        exact hguarded.2.filter_eq_nil (by omega)
      have htasks : ∀ t ∈ (s.record.advanceIsSensible coin).2.refresh s.globalEpoch ++ [.tryAdvance],
          t.flushing = false := by
        intro t ht
        rcases List.mem_append.mp ht with ht | ht
        · exact flushing_refresh _ _ t ht
        · rw [List.mem_singleton.mp ht]
          rfl
      have hcalls : (s.record.advanceIsSensible coin).2.refresh s.globalEpoch ++
            [.tryAdvance, .release] ++ .client opened :: rest =
          ((s.record.advanceIsSensible coin).2.refresh s.globalEpoch ++ [.tryAdvance]) ++
            .release :: .client opened :: rest := by
        simp only [List.append_assoc, List.cons_append, List.nil_append]
      have hall := hrelease.append htasks (by omega) hnone
      rw [← hcalls] at hall
      refine ⟨(hsame.trans hheld.symm).trans ?_, hall⟩
      change _ = held (_ ++ _ ++ _)
      rw [hcalls, held_append, held_append, held_refresh]
      exact (Nat.zero_add _).symm
    · exact ⟨hsame.trans hheld.symm, hrelease⟩
  · exact ⟨hheld.symm, hrelease⟩

/-- A step of the innermost call holds the lock as before. -/
theorem Serial.taskStep {allInEpoch : Bool} (h : Serial s) (hstack : s.stack = task :: rest)
    (hs : s.taskStep allInEpoch task rest = some s') : Serial s' := by
  have hinternal := h.internal_eq
  have hguarded := h.guarded
  rw [hstack, held_cons] at hinternal
  rw [hstack] at hguarded
  cases task with
  | client opened => cases hs
  | flush =>
    obtain ⟨record, hrecord, rfl⟩ := Option.map_eq_some_iff.mp hs
    obtain ⟨q, -, rfl⟩ := Option.map_eq_some_iff.mp hrecord
    exact ⟨hinternal, fun _ => hguarded.1 rfl, hguarded.2⟩
  | decLoop cell left =>
    cases left with
    | zero =>
      obtain rfl := Option.some.inj hs
      exact ⟨hinternal.trans (Nat.zero_add _), hguarded.2⟩
    | succ left =>
      obtain ⟨record, hrecord, rfl⟩ := Option.map_eq_some_iff.mp hs
      obtain ⟨q, -, rfl⟩ := Option.map_eq_some_iff.mp hrecord
      refine ⟨hinternal.trans ?_, nofun, fun _ => hguarded.1 rfl, hguarded.2⟩
      simp [held, Task.opened]
  | storeEpoch newEpoch =>
    obtain rfl := Option.some.inj hs
    exact ⟨hinternal.trans (Nat.zero_add _), hguarded.2⟩
  | tryAdvance =>
    obtain ⟨hheld, hnone⟩ := hguarded.1 rfl
    unfold State.taskStep at hs
    simp only at hs
    split at hs
    · obtain rfl := Option.some.inj hs
      refine ⟨hinternal.trans ?_, hguarded.2.append (flushing_refresh _ _) hheld hnone⟩
      rw [held_append, held_refresh]
      rfl
    · obtain rfl := Option.some.inj hs
      exact ⟨hinternal.trans (Nat.zero_add _), hguarded.2⟩
  | release =>
    obtain rfl := Option.some.inj hs
    refine ⟨?_, hguarded.2⟩
    change s.record.internal - 1 = held rest
    rw [hinternal, Task.opened]
    omega
  | eject =>
    obtain rfl := Option.some.inj hs
    exact ⟨hinternal.trans (Nat.zero_add _), hguarded.2⟩

/-- Steps that call no flush without the lock. -/
theorem Serial.step (h : Serial s) (ha : s.Locked a) (hs : s.step a = some s') : Serial s' := by
  unfold State.step at hs
  cases a with
  | use =>
    simp only at hs
    split at hs
    · next opened rest hstack =>
      obtain rfl := Option.some.inj hs
      exact h.useEpoch hstack
    · cases hs
  | release coin =>
    simp only at hs
    split at hs
    · next opened rest hstack =>
      obtain rfl := Option.some.inj hs
      exact h.releaseEpoch hstack coin
    · cases hs
  | addToDeleteList p =>
    simp only at hs
    split at hs
    · obtain rfl := Option.some.inj hs
      exact ⟨h.internal_eq, h.guarded⟩
    · cases hs
  | addToDecList p =>
    simp only at hs
    split at hs
    · obtain rfl := Option.some.inj hs
      exact ⟨h.internal_eq, h.guarded⟩
    · cases hs
  | flushOldEpoch => exact absurd rfl ha.1
  | flush => exact absurd rfl ha.2
  | releaseReturns =>
    simp only at hs
    split at hs
    · next task rest hstack =>
      obtain rfl := Option.some.inj hs
      have hinternal := h.internal_eq
      have hguarded := h.guarded
      rw [hstack, held_cons] at hinternal
      rw [hstack] at hguarded
      exact ⟨hinternal.trans (Nat.zero_add _), hguarded.2⟩
    · cases hs
  | step allInEpoch =>
    simp only at hs
    split at hs
    · next task rest hstack => exact h.taskStep hstack hs
    · cases hs
  | setGlobal epoch =>
    obtain rfl := Option.some.inj hs
    exact ⟨h.internal_eq, h.guarded⟩
  | ejectOther =>
    simp only at hs
    split at hs
    · obtain rfl := Option.some.inj hs
      exact ⟨h.internal_eq, h.guarded⟩
    · cases hs

/-- With the lock held no nested flush begins. -/
theorem Serial.running_eq_nil (h : Serial s) (hhead : s.stack.head? = some .flush) :
    s.running = [] := by
  obtain ⟨rest, hstack⟩ := List.head?_eq_some_iff.mp hhead
  have hguarded := h.guarded
  rw [hstack] at hguarded
  rw [running_cons hstack rfl]
  exact (hguarded.1 rfl).2

/-! ## Runs -/

/-- With the lock held in all flushes no flush is nested. -/
theorem Reached.notNested (h : Reached Locked s) : Reached NotNested s ∧ Serial s := by
  induction h with
  | initial => exact ⟨.initial, rfl, nofun, trivial⟩
  | step hs ha h ih => exact ⟨ih.1.step ih.2.running_eq_nil h, ih.2.step ha h⟩

/-- The lists are in order in every run in which no flush begins while another one is running; and so
they are in every run in which all flushes are called by opening and closing Epochs. -/
theorem reached_good (s : State ω) :
    (Reached NotNested s → s.Good) ∧ (Reached Locked s → s.Good) :=
  ⟨fun h => h.invariant.good, fun h => h.notNested.1.invariant.good⟩

/-- A list of actions leads to a state. -/
theorem reached_of_foldlM {P : State ω → Action ω → Prop} {acts : List (Action ω)} (h : Reached P s)
    (hP : ∀ a ∈ acts, ∀ s, P s a) (hs : acts.foldlM State.step s = some s') : Reached P s' := by
  induction acts generalizing s with
  | nil => exact Option.some.inj hs ▸ h
  | cons a acts ih =>
    rw [List.foldlM_cons] at hs
    obtain ⟨s₁, hs₁, hs⟩ := Option.bind_eq_some_iff.mp hs
    exact ih (h.step (hP a List.mem_cons_self s) hs₁)
      (fun a' ha' => hP a' (List.mem_cons_of_mem a ha')) hs

/-- A thread opens its first `Epoch` and rejoins, delays two decrements, and closes it. -/
def delays : List (Action ℕ) :=
  .use :: List.replicate 8 (.step false) ++
    [.addToDecList 1, .addToDecList 2, .release (some false), .step false]

/-- The theorem at a record with two delayed decrements. -/
theorem reached_good_delays :
    ∃ s, delays.foldlM State.step initial = some s ∧ s.record.decList.list.length = 2 ∧ s.Good := by
  have hlocked : ∀ a ∈ delays, a ≠ .flushOldEpoch ∧ a ≠ .flush := by decide
  exact ⟨_, rfl, rfl, (reached_good _).2 (reached_of_foldlM .initial (fun a ha _ => hlocked a ha)
    (rfl : delays.foldlM State.step initial = _))⟩

/-- The record is ejected and flushed without the lock; the first release opens an `Epoch` and rejoins,
which performs the second decrement. -/
def nestedFlush : List (Action ℕ) :=
  delays ++ ([.ejectOther, .flush] : List (Action ℕ)) ++
    (List.replicate 6 (.step false) : List (Action ℕ)) ++ ([.use] : List (Action ℕ)) ++
    (List.replicate 2 (.step false) : List (Action ℕ)) ++ ([.releaseReturns] : List (Action ℕ)) ++
    (List.replicate 7 (.step false) : List (Action ℕ)) ++
    ([.release (some false), .step false, .releaseReturns] : List (Action ℕ))

/-- The outer flush then dequeues from an empty list. -/
theorem nestedFlush_faults : ∃ s : State ℕ, Reached (fun _ _ => True) s ∧ ¬ s.Good := by
  refine ⟨_, reached_of_foldlM .initial (fun _ _ _ => trivial)
    (rfl : nestedFlush.foldlM State.step initial = _), fun h => h.not_faults (Or.inr ⟨2, 0, rfl, rfl⟩)⟩

end State

end VeronaRt.LocalEpoch
