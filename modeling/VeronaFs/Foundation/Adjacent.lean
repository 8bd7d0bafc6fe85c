import Mathlib.Data.List.Nodup
import Mathlib.Data.List.Infix

/-!
# Neighbours in a queue

A queue is a list without duplicates.  `Adjacent l x y` says that `y` stands directly behind `x` in
`l`, and `Before l x y` that `y` stands somewhere behind `x`.  The lemmas say how the two relations
change when an element is appended at the end and when the head is removed.
-/

namespace Foundation

variable {α : Type*} {l : List α} {x y z : α}

/-- In the list `l`, `y` stands directly behind `x`. -/
def Adjacent (l : List α) (x y : α) : Prop := [x, y] <:+: l

/-- In the list `l`, `y` stands behind `x`. -/
def Before (l : List α) (x y : α) : Prop := List.Sublist [x, y] l

/-! ## Neighbours -/

/-- Nothing stands in the empty list. -/
theorem not_adjacent_nil : ¬ Adjacent [] x y := by
  simp [Adjacent]

/-- A single element has no neighbour. -/
theorem not_adjacent_singleton : ¬ Adjacent [z] x y := by
  intro h
  have hlen := h.length_le
  simp at hlen

/-- The neighbours in a list with a head. -/
theorem adjacent_cons : Adjacent (z :: l) x y ↔ z = x ∧ l.head? = some y ∨ Adjacent l x y := by
  unfold Adjacent
  rw [List.infix_cons_iff, List.cons_prefix_cons]
  refine or_congr (and_congr eq_comm ?_) Iff.rfl
  cases l <;> simp [List.cons_prefix_cons, eq_comm]

/-- The neighbours after an element was appended. -/
theorem adjacent_concat :
    Adjacent (l ++ [z]) x y ↔ Adjacent l x y ∨ l.getLast? = some x ∧ z = y := by
  induction l with
  | nil => simp [not_adjacent_nil, not_adjacent_singleton]
  | cons a t ih =>
    rw [List.cons_append, adjacent_cons, adjacent_cons, ih, or_assoc]
    cases t with
    | nil => simp [not_adjacent_nil]
    | cons b t => simp

/-- The neighbours in a list that has two elements at its head. -/
theorem adjacent_head (z : α) (l : List α) : Adjacent (x :: z :: l) x z :=
  adjacent_cons.mpr (.inl ⟨rfl, rfl⟩)

/-- A neighbour is in the list. -/
theorem Adjacent.left_mem (h : Adjacent l x y) : x ∈ l := h.subset (by simp)

/-- A neighbour is in the list. -/
theorem Adjacent.right_mem (h : Adjacent l x y) : y ∈ l := h.subset (by simp)

/-- An element of a queue follows one element at most. -/
theorem Adjacent.left_unique {x' : α} (hl : l.Nodup) (h : Adjacent l x y) (h' : Adjacent l x' y) :
    x = x' := by
  induction l with
  | nil => exact absurd h not_adjacent_nil
  | cons a t ih =>
    have hlast : ∀ {u}, t.head? = some y → ¬ Adjacent t u y := by
      intro u hhead hadj
      obtain ⟨b, t', rfl⟩ : ∃ b t', t = b :: t' := by cases t <;> simp_all
      obtain rfl : b = y := by simpa using hhead
      rcases adjacent_cons.mp hadj with ⟨-, hb⟩ | hb
      · exact absurd (List.mem_of_mem_head? hb) (List.nodup_cons.mp hl.of_cons).1
      · exact absurd hb.right_mem (List.nodup_cons.mp hl.of_cons).1
    rcases adjacent_cons.mp h with ⟨ha, hy⟩ | hadj
    · rcases adjacent_cons.mp h' with ⟨ha', -⟩ | hadj'
      · exact ha.symm.trans ha'
      · exact absurd hadj' (hlast hy)
    · rcases adjacent_cons.mp h' with ⟨-, hy⟩ | hadj'
      · exact absurd hadj (hlast hy)
      · exact ih hl.of_cons hadj hadj'

/-- An element of a queue is followed by one element at most. -/
theorem Adjacent.right_unique {y' : α} (hl : l.Nodup) (h : Adjacent l x y)
    (h' : Adjacent l x y') : y = y' := by
  induction l with
  | nil => exact absurd h not_adjacent_nil
  | cons a t ih =>
    have hx : a = x → ∀ {u}, ¬ Adjacent t x u := by
      intro ha u hadj
      exact (List.nodup_cons.mp hl).1 (ha ▸ hadj.left_mem)
    rcases adjacent_cons.mp h with ⟨ha, hy⟩ | hadj
    · rcases adjacent_cons.mp h' with ⟨-, hy'⟩ | hadj'
      · exact Option.some.inj (hy.symm.trans hy')
      · exact absurd hadj' (hx ha)
    · rcases adjacent_cons.mp h' with ⟨ha, -⟩ | hadj'
      · exact absurd hadj (hx ha)
      · exact ih hl.of_cons hadj hadj'

/-- An element is the head or follows another one. -/
theorem head_or_adjacent (h : y ∈ l) : l.head? = some y ∨ ∃ x, Adjacent l x y := by
  induction l with
  | nil => simp at h
  | cons a t ih =>
    rcases List.mem_cons.mp h with rfl | hy
    · exact .inl rfl
    · rcases ih hy with hhead | ⟨x, hx⟩
      · exact .inr ⟨a, adjacent_cons.mpr (.inl ⟨rfl, hhead⟩)⟩
      · exact .inr ⟨x, adjacent_cons.mpr (.inr hx)⟩

/-- An element is the last one or is followed by another one. -/
theorem last_or_adjacent (h : x ∈ l) : l.getLast? = some x ∨ ∃ y, Adjacent l x y := by
  induction l with
  | nil => simp at h
  | cons a t ih =>
    cases t with
    | nil => simp_all
    | cons b t =>
      rcases List.mem_cons.mp h with rfl | hx
      · exact .inr ⟨b, adjacent_head b t⟩
      · rcases ih hx with hlast | ⟨y, hy⟩
        · exact .inl (by simpa using hlast)
        · exact .inr ⟨y, adjacent_cons.mpr (.inr hy)⟩

/-- The head of a queue follows no element. -/
theorem Adjacent.ne_head (hl : l.Nodup) (h : Adjacent l x y) : l.head? ≠ some y := by
  intro hhead
  cases l with
  | nil => simp at hhead
  | cons a t =>
    obtain rfl : a = y := by simpa using hhead
    rcases adjacent_cons.mp h with ⟨-, hy⟩ | hadj
    · exact (List.nodup_cons.mp hl).1 (List.mem_of_mem_head? hy)
    · exact (List.nodup_cons.mp hl).1 hadj.right_mem

/-- The last element of a queue is not followed by another one. -/
theorem Adjacent.ne_last (hl : l.Nodup) (h : Adjacent l x y) : l.getLast? ≠ some x := by
  intro hlast
  induction l with
  | nil => simp at hlast
  | cons a t ih =>
    rcases adjacent_cons.mp h with ⟨rfl, hy⟩ | hadj
    · refine (List.nodup_cons.mp hl).1 (List.mem_of_getLast? ?_)
      cases t with
      | nil => simp at hy
      | cons b t => simpa using hlast
    · refine ih hl.of_cons hadj ?_
      cases t with
      | nil => exact absurd hadj not_adjacent_nil
      | cons b t => simpa using hlast

/-! ## Order -/

/-- A neighbour stands behind its neighbour. -/
theorem Adjacent.before (h : Adjacent l x y) : Before l x y := h.sublist

/-- The order in a list with a head. -/
theorem before_cons : Before (z :: l) x y ↔ z = x ∧ y ∈ l ∨ Before l x y := by
  unfold Before
  constructor
  · intro h
    cases h with
    | cons _ h => exact .inr h
    | cons_cons _ h => exact .inl ⟨rfl, List.singleton_sublist.mp h⟩
  · rintro (⟨rfl, hy⟩ | h)
    · exact (List.singleton_sublist.mpr hy).cons_cons _
    · exact h.cons _

/-- The order after an element was appended. -/
theorem before_concat : Before (l ++ [z]) x y ↔ Before l x y ∨ x ∈ l ∧ z = y := by
  induction l with
  | nil => simp [Before]
  | cons a t ih =>
    rw [List.cons_append, before_cons, before_cons, ih, List.mem_append, List.mem_singleton,
      List.mem_cons]
    constructor
    · rintro (⟨ha, hy | hy⟩ | hb | ⟨hx, hz⟩)
      · exact .inl (.inl ⟨ha, hy⟩)
      · exact .inr ⟨.inl ha.symm, hy.symm⟩
      · exact .inl (.inr hb)
      · exact .inr ⟨.inr hx, hz⟩
    · rintro ((⟨ha, hy⟩ | hb) | ⟨hx | hx, hz⟩)
      · exact .inl ⟨ha, .inl hy⟩
      · exact .inr (.inl hb)
      · exact .inl ⟨hx.symm, .inr hz.symm⟩
      · exact .inr (.inr ⟨hx, hz⟩)

/-- The elements of a list are in it. -/
theorem Before.left_mem (h : Before l x y) : x ∈ l := h.subset (by simp)

/-- The elements of a list are in it. -/
theorem Before.right_mem (h : Before l x y) : y ∈ l := h.subset (by simp)

/-- Every other element stands before the last one. -/
theorem before_getLast (hx : x ∈ l) (hlast : l.getLast? = some y) (hne : x ≠ y) : Before l x y := by
  obtain ⟨l', rfl⟩ := List.getLast?_eq_some_iff.mp hlast
  rcases List.mem_append.mp hx with hx | hx
  · exact before_concat.mpr (.inr ⟨hx, rfl⟩)
  · exact absurd (List.mem_singleton.mp hx) hne

/-- Nothing stands before the first element. -/
theorem Before.ne_head (hl : l.Nodup) (h : Before l x y) : l.head? ≠ some y := by
  intro hhead
  obtain ⟨l', rfl⟩ := List.head?_eq_some_iff.mp hhead
  have hnot := (List.nodup_cons.mp hl).1
  rcases before_cons.mp h with ⟨-, hy⟩ | h
  · exact hnot hy
  · exact hnot h.right_mem

/-- Whatever stands before `y` stands before or at the place of the element that `y` follows. -/
theorem Before.adjacent (hl : l.Nodup) (h : Before l x y) (hadj : Adjacent l z y) :
    x = z ∨ Before l x z := by
  induction l with
  | nil => exact absurd hadj not_adjacent_nil
  | cons a t ih =>
    have hnot := (List.nodup_cons.mp hl).1
    rcases adjacent_cons.mp hadj with ⟨rfl, hy⟩ | hadj
    · rcases before_cons.mp h with ⟨rfl, -⟩ | h
      · exact .inl rfl
      · obtain ⟨b, t', rfl⟩ : ∃ b t', t = b :: t' := by cases t <;> simp_all
        obtain rfl : b = y := by simpa using hy
        rcases before_cons.mp h with ⟨-, hb⟩ | h
        · exact absurd hb (List.nodup_cons.mp hl.of_cons).1
        · exact absurd h.right_mem (List.nodup_cons.mp hl.of_cons).1
    · rcases before_cons.mp h with ⟨rfl, -⟩ | h
      · exact .inr (before_cons.mpr (.inl ⟨rfl, hadj.left_mem⟩))
      · exact (ih hl.of_cons h hadj).imp id fun h => before_cons.mpr (.inr h)

/-- The position of an element in a queue is behind the ones that stand before it. -/
theorem Before.idxOf_lt [DecidableEq α] (hl : l.Nodup) (h : Before l x y) :
    l.idxOf x < l.idxOf y := by
  induction l with
  | nil => simp [Before] at h
  | cons a t ih =>
    have hnot := (List.nodup_cons.mp hl).1
    rcases before_cons.mp h with ⟨rfl, hy⟩ | h
    · have hne : a ≠ y := by
        intro heq
        exact hnot (heq ▸ hy)
      rw [List.idxOf_cons_self, List.idxOf_cons_ne _ hne]
      exact Nat.succ_pos _
    · have hx : a ≠ x := by
        intro heq
        exact hnot (heq ▸ h.left_mem)
      have hy : a ≠ y := by
        intro heq
        exact hnot (heq ▸ h.right_mem)
      rw [List.idxOf_cons_ne _ hx, List.idxOf_cons_ne _ hy]
      exact Nat.succ_lt_succ (ih hl.of_cons h)

end Foundation
