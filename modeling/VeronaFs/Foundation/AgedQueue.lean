import Mathlib

/-!
# Queues counted by age

The elements of a queue are counted in four counters, one for each round in which elements are added.  The
counters rotate: `index` is the one of the oldest elements, new elements are counted two further on, and
the last counter is spare for the next round.  `AgedQueue.Ordered` says that the counters describe
segments of the queue in the order of age.  Adding, removing one of the oldest elements, and rotating when
the oldest elements are gone keep this.
-/

namespace Foundation

/-- A queue with its counters.  Each element has the round in which it was added, and the queue knows its
past. -/
structure AgedQueue (α : Type*) where
  /-- The elements, the oldest first, with the rounds in which they were added. -/
  list : List (α × ℕ)
  /-- The counters. -/
  count : Fin 4 → ℕ
  /-- All elements that were added. -/
  added : List α
  /-- All elements that were removed. -/
  removed : List α

/-- There is a first counter. -/
instance neZero_four : NeZero 4 := ⟨by decide⟩

namespace AgedQueue

variable {α : Type*}

/-- A queue without elements. -/
def empty : AgedQueue α := ⟨[], fun _ => 0, [], []⟩

/-- An element is added in a round. -/
def add (q : AgedQueue α) (index : Fin 4) (round : ℕ) (a : α) : AgedQueue α :=
  { q with
    list := q.list ++ [(a, round)]
    count := Function.update q.count (index + 2) (q.count (index + 2) + 1)
    added := q.added ++ [a] }

/-- The first element is removed, and not yet counted off. -/
def dequeue (q : AgedQueue α) : Option (AgedQueue α) :=
  match q.list with
  | [] => none
  | x :: rest => some { q with list := rest, removed := q.removed ++ [x.1] }

/-- A number of elements is removed. -/
def dequeueAll : ℕ → AgedQueue α → Option (AgedQueue α)
  | 0, q => some q
  | n + 1, q => q.dequeue.bind (dequeueAll n)

/-- A counter is set. -/
def setCount (q : AgedQueue α) (i : Fin 4) (n : ℕ) : AgedQueue α :=
  { q with count := Function.update q.count i n }

/-- The counters count the segments of the queue, the elements of which were added two rounds ago, one
round ago and in this round. -/
structure Segments (q : AgedQueue α) (index : Fin 4) (round : ℕ) (old mid new : List (α × ℕ)) :
    Prop where
  /-- The queue. -/
  list_eq : q.list = old ++ (mid ++ new)
  /-- The first counter. -/
  count_old : q.count index = old.length
  /-- The second counter. -/
  count_mid : q.count (index + 1) = mid.length
  /-- The third counter. -/
  count_new : q.count (index + 2) = new.length
  /-- The last counter. -/
  count_spare : q.count (index + 3) = 0
  /-- The first elements are two rounds old. -/
  round_old : ∀ x ∈ old, x.2 + 2 = round
  /-- The next ones are one round old. -/
  round_mid : ∀ x ∈ mid, x.2 + 1 = round
  /-- The last ones are from this round. -/
  round_new : ∀ x ∈ new, x.2 = round

/-- The counters describe the queue in the order of age. -/
def Ordered (q : AgedQueue α) (index : Fin 4) (round : ℕ) : Prop :=
  ∃ old mid new, q.Segments index round old mid new

/-- Every element that was added is in the queue or was removed, in the order of the additions. -/
def Kept (q : AgedQueue α) : Prop := q.removed ++ q.list.map Prod.fst = q.added

variable {q q' : AgedQueue α} {index : Fin 4} {round : ℕ} {a : α}

/-- The four counters are different. -/
theorem index_ne : ∀ i : Fin 4, i ≠ i + 1 ∧ i ≠ i + 2 ∧ i ≠ i + 3 ∧ i + 1 ≠ i + 2 ∧ i + 1 ≠ i + 3 ∧
    i + 2 ≠ i + 3 := by decide

/-- The counters after a rotation. -/
theorem index_rotate : ∀ i : Fin 4, i + 1 + 1 = i + 2 ∧ i + 1 + 2 = i + 3 ∧ i + 1 + 3 = i := by decide

/-- The counters are all of those four. -/
theorem sum_rotate (f : Fin 4 → ℕ) : ∀ i : Fin 4,
    f i + f (i + 1) + f (i + 2) + f (i + 3) = ∑ j, f j := by
  intro i
  rw [Fin.sum_univ_four]
  fin_cases i
  · rfl
  · change f 1 + f 2 + f 3 + f 0 = _
    omega
  · change f 2 + f 3 + f 0 + f 1 = _
    omega
  · change f 3 + f 0 + f 1 + f 2 = _
    omega

/-- The counters of a queue in order add up to its length. -/
theorem Ordered.sum_eq (h : q.Ordered index round) : ∑ i, q.count i = q.list.length := by
  obtain ⟨old, mid, new, hs⟩ := h
  rw [← sum_rotate q.count index, hs.count_old, hs.count_mid, hs.count_new, hs.count_spare, hs.list_eq,
    List.length_append, List.length_append]
  omega

/-- There are as many elements as the first counter says. -/
theorem Ordered.count_le (h : q.Ordered index round) : q.count index ≤ q.list.length := by
  obtain ⟨old, mid, new, hs⟩ := h
  rw [hs.count_old, hs.list_eq, List.length_append]
  exact Nat.le_add_right ..

/-- A queue without elements is in order. -/
theorem ordered_empty : (empty : AgedQueue α).Ordered index round :=
  ⟨[], [], [], rfl, rfl, rfl, rfl, rfl, nofun, nofun, nofun⟩

/-- A queue stays in order when an element is added. -/
theorem Ordered.add (h : q.Ordered index round) (a : α) : (q.add index round a).Ordered index round := by
  obtain ⟨old, mid, new, hs⟩ := h
  obtain ⟨-, h02, -, h12, -, h23⟩ := index_ne index
  refine ⟨old, mid, new ++ [(a, round)], ?_, ?_, ?_, ?_, ?_, hs.round_old, hs.round_mid, ?_⟩
  · simp only [AgedQueue.add, hs.list_eq, List.append_assoc]
  · exact (Function.update_of_ne h02 ..).trans hs.count_old
  · exact (Function.update_of_ne h12 ..).trans hs.count_mid
  · rw [List.length_append]
    exact (Function.update_self ..).trans (congrArg (· + 1) hs.count_new)
  · exact (Function.update_of_ne h23.symm ..).trans hs.count_spare
  · intro x hx
    rcases List.mem_append.mp hx with hx | hx
    · exact hs.round_new x hx
    · rw [List.mem_singleton.mp hx]

/-- Adding leaves the first counter. -/
theorem count_add : (q.add index round a).count index = q.count index :=
  Function.update_of_ne (index_ne index).2.1 ..

/-- The oldest element is removed and counted off. -/
theorem Ordered.dequeue {n : ℕ} (h : q.Ordered index round) (hn : q.count index = n + 1) :
    ∃ q', q.dequeue = some q' ∧ q'.count = q.count ∧ (q'.setCount index n).Ordered index round := by
  obtain ⟨old, mid, new, hs⟩ := h
  obtain ⟨h01, h02, h03, -⟩ := index_ne index
  cases old with
  | nil =>
    rw [hs.count_old] at hn
    cases hn
  | cons x old =>
    have hlist : q.list = x :: (old ++ (mid ++ new)) := hs.list_eq
    refine ⟨{ q with list := old ++ (mid ++ new), removed := q.removed ++ [x.1] }, ?_, rfl, old, mid,
      new, rfl, ?_, ?_, ?_, ?_, fun y hy => hs.round_old y (List.mem_cons_of_mem x hy), hs.round_mid,
      hs.round_new⟩
    · rw [AgedQueue.dequeue, hlist]
    · have hlength := hs.count_old.symm.trans hn
      exact (Function.update_self ..).trans (Nat.succ.inj hlength).symm
    · exact (Function.update_of_ne h01.symm ..).trans hs.count_mid
    · exact (Function.update_of_ne h02.symm ..).trans hs.count_new
    · exact (Function.update_of_ne h03.symm ..).trans hs.count_spare

/-- What is removed does not depend on the counters. -/
theorem dequeue_setCount (q : AgedQueue α) (i : Fin 4) (k : ℕ) :
    (q.setCount i k).dequeue = q.dequeue.map fun q' => q'.setCount i k := by
  obtain ⟨list, count, added, removed⟩ := q
  cases list with
  | nil => rfl
  | cons x rest => rfl

/-- The same for a number of elements. -/
theorem dequeueAll_setCount (n : ℕ) (q : AgedQueue α) (i : Fin 4) (k : ℕ) :
    AgedQueue.dequeueAll n (q.setCount i k) =
      (AgedQueue.dequeueAll n q).map fun q' => q'.setCount i k := by
  induction n generalizing q with
  | zero => rfl
  | succ n ih =>
    rw [AgedQueue.dequeueAll, AgedQueue.dequeueAll, dequeue_setCount]
    cases q.dequeue with
    | none => rfl
    | some q' => exact ih q'

/-- All of the oldest elements are removed. -/
theorem Ordered.dequeueAll {n : ℕ} (h : q.Ordered index round) (hn : q.count index = n) :
    ∃ q', AgedQueue.dequeueAll n q = some q' ∧ (q'.setCount index 0).Ordered index round := by
  induction n generalizing q with
  | zero =>
    refine ⟨q, rfl, ?_⟩
    have hsame : q.setCount index 0 = q := by
      rw [setCount, ← hn, Function.update_eq_self]
    rwa [hsame]
  | succ n ih =>
    obtain ⟨q₁, hq₁, -, hordered⟩ := h.dequeue hn
    obtain ⟨q₂, hq₂, hordered₂⟩ := ih hordered (Function.update_self ..)
    rw [dequeueAll_setCount] at hq₂
    obtain ⟨q₃, hq₃, rfl⟩ := Option.map_eq_some_iff.mp hq₂
    refine ⟨q₃, ?_, ?_⟩
    · rw [AgedQueue.dequeueAll, hq₁]
      exact hq₃
    · have hset : (q₃.setCount index n).setCount index 0 = q₃.setCount index 0 := by
        simp only [setCount, Function.update_idem]
      rwa [hset] at hordered₂

/-- The counters are rotated when the oldest elements are gone. -/
theorem Ordered.rotate (h : q.Ordered index round) (hzero : q.count index = 0) :
    q.Ordered (index + 1) (round + 1) := by
  obtain ⟨old, mid, new, hs⟩ := h
  obtain ⟨h1, h2, h3⟩ := index_rotate index
  obtain rfl : old = [] := List.eq_nil_of_length_eq_zero (hs.count_old.symm.trans hzero)
  refine ⟨mid, new, [], ?_, hs.count_mid, ?_, ?_, ?_, fun x hx => ?_, fun x hx => ?_, nofun⟩
  · rw [hs.list_eq, List.nil_append, List.append_nil]
  · rw [h1]
    exact hs.count_new
  · rw [h2]
    exact hs.count_spare
  · rw [h3]
    exact hzero
  · have hround := hs.round_mid x hx
    omega
  · rw [hs.round_new x hx]

/-- A queue without elements kept all of them. -/
theorem kept_empty : (empty : AgedQueue α).Kept := rfl

/-- An element that is added is kept. -/
theorem Kept.add (h : q.Kept) (a : α) : (q.add index round a).Kept := by
  rw [Kept, AgedQueue.add, List.map_append, ← List.append_assoc]
  exact congrArg (· ++ [a]) h

/-- An element that is removed was in the queue. -/
theorem Kept.dequeue (h : q.Kept) (hq : q.dequeue = some q') : q'.Kept := by
  rw [AgedQueue.dequeue] at hq
  rw [Kept] at h
  cases hlist : q.list with
  | nil =>
    rw [hlist] at hq
    cases hq
  | cons x rest =>
    rw [hlist] at hq h
    obtain rfl := Option.some.inj hq
    rw [Kept, List.append_assoc]
    exact h

/-- The same for a number of elements. -/
theorem Kept.dequeueAll {n : ℕ} (h : q.Kept) (hq : AgedQueue.dequeueAll n q = some q') : q'.Kept := by
  induction n generalizing q with
  | zero => exact Option.some.inj hq ▸ h
  | succ n ih =>
    obtain ⟨q₁, hq₁, hq⟩ := Option.bind_eq_some_iff.mp hq
    exact ih (h.dequeue hq₁) hq

end AgedQueue

end Foundation
