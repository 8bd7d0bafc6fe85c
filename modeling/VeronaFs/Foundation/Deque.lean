import VeronaFs.Foundation.Adjacent

/-!
# Histories of a queue with two ends

Elements are pushed at the back or at the front of a queue and popped at its front, and an element is
in the queue at most once.  `Deque.History l tr l'` says that the operations `tr` lead from the queue
`l` to the queue `l'`.  An element is popped once for each push, and what is pushed at the back is
popped in the order of the pushes.
-/

namespace Foundation

namespace Deque

/-- An operation. -/
inductive Op (α : Type*)
  /-- An element is added at the back. -/
  | pushBack (a : α)
  /-- An element is added at the front. -/
  | pushFront (a : α)
  /-- The first element is removed. -/
  | pop (a : α)
deriving DecidableEq, Repr

variable {α : Type*} {l l' : List α} {tr tr₁ tr₂ tr₃ tr₄ : List (Op α)} {a b : α} {x : Op α}

/-- What an operation does to the queue. -/
def Step (l : List α) : Op α → List α → Prop
  | .pushBack a, l' => a ∉ l ∧ l' = l ++ [a]
  | .pushFront a, l' => a ∉ l ∧ l' = a :: l
  | .pop a, l' => l = a :: l'

/-- The operations lead from one queue to the other. -/
def History (l : List α) : List (Op α) → List α → Prop
  | [], l' => l = l'
  | x :: tr, l' => ∃ l₁, Step l x l₁ ∧ History l₁ tr l'

/-- The operation adds the element. -/
def Op.Pushes (a : α) (x : Op α) : Prop := x = .pushBack a ∨ x = .pushFront a

/-! ## One step -/

/-- No element is in the queue twice. -/
theorem Step.nodup (h : Step l x l') (hl : l.Nodup) : l'.Nodup := by
  cases x with
  | pushBack a =>
    obtain ⟨ha, rfl⟩ := h
    exact List.nodup_append'.mpr ⟨hl, List.nodup_singleton a, by simpa using ha⟩
  | pushFront a =>
    obtain ⟨ha, rfl⟩ := h
    exact List.nodup_cons.mpr ⟨ha, hl⟩
  | pop a =>
    obtain rfl := h
    exact hl.of_cons

/-- Only a push adds an element. -/
theorem Step.not_mem (h : Step l x l') (ha : a ∉ l) (hx : ¬ x.Pushes a) : a ∉ l' := by
  cases x with
  | pushBack b =>
    obtain ⟨-, rfl⟩ := h
    have hab : a ≠ b := fun hab => hx (Or.inl (by rw [hab]))
    simp [ha, hab]
  | pushFront b =>
    obtain ⟨-, rfl⟩ := h
    have hab : a ≠ b := fun hab => hx (Or.inr (by rw [hab]))
    simp [ha, hab]
  | pop b =>
    obtain rfl := h
    exact fun h => ha (List.mem_cons_of_mem b h)

/-- Only a pop removes an element. -/
theorem Step.mem (h : Step l x l') (ha : a ∈ l) (hx : x ≠ .pop a) : a ∈ l' := by
  cases x with
  | pushBack b =>
    obtain ⟨-, rfl⟩ := h
    exact List.mem_append_left _ ha
  | pushFront b =>
    obtain ⟨-, rfl⟩ := h
    exact List.mem_cons_of_mem b ha
  | pop b =>
    obtain rfl := h
    exact List.mem_of_ne_of_mem (fun hab => hx (by rw [hab])) ha

/-- The order of two elements stays until the first is removed. -/
theorem Step.before (h : Step l x l') (hab : Before l a b) (hx : x ≠ .pop a) : Before l' a b := by
  cases x with
  | pushBack c =>
    obtain ⟨-, rfl⟩ := h
    exact before_concat.mpr (Or.inl hab)
  | pushFront c =>
    obtain ⟨-, rfl⟩ := h
    exact before_cons.mpr (Or.inr hab)
  | pop c =>
    obtain rfl := h
    rcases before_cons.mp hab with ⟨rfl, -⟩ | hab
    · exact absurd rfl hx
    · exact hab

/-- An operation leads to one queue. -/
theorem Step.eq {l₁ l₂ : List α} (h₁ : Step l x l₁) (h₂ : Step l x l₂) : l₁ = l₂ := by
  cases x with
  | pushBack a => exact h₁.2.trans h₂.2.symm
  | pushFront a => exact h₁.2.trans h₂.2.symm
  | pop a => exact (List.cons.inj (h₁.symm.trans h₂)).2

/-! ## Histories -/

/-- Two histories behind each other. -/
theorem history_append : History l (tr₁ ++ tr₂) l' ↔ ∃ l₁, History l tr₁ l₁ ∧ History l₁ tr₂ l' := by
  induction tr₁ generalizing l with
  | nil => simp [History]
  | cons x tr₁ ih =>
    constructor
    · rintro ⟨l₀, hstep, h⟩
      obtain ⟨l₁, h₁, h₂⟩ := ih.mp h
      exact ⟨l₁, ⟨l₀, hstep, h₁⟩, h₂⟩
    · rintro ⟨l₁, ⟨l₀, hstep, h₁⟩, h₂⟩
      exact ⟨l₀, hstep, ih.mpr ⟨l₁, h₁, h₂⟩⟩

namespace History

/-- One more operation. -/
theorem snoc {l₁ : List α} (h : History l tr l₁) (hstep : Step l₁ x l') :
    History l (tr ++ [x]) l' :=
  history_append.mpr ⟨l₁, h, l', hstep, rfl⟩

/-- A list of operations leads to one queue. -/
theorem eq {l₁ l₂ : List α} (h₁ : History l tr l₁) (h₂ : History l tr l₂) : l₁ = l₂ := by
  induction tr generalizing l with
  | nil => exact h₁.symm.trans h₂
  | cons x tr ih =>
    obtain ⟨k₁, hstep₁, h₁⟩ := h₁
    obtain ⟨k₂, hstep₂, h₂⟩ := h₂
    obtain rfl := hstep₁.eq hstep₂
    exact ih h₁ h₂

/-- No element is in the queue twice. -/
theorem nodup (h : History l tr l') (hl : l.Nodup) : l'.Nodup := by
  induction tr generalizing l with
  | nil => exact h ▸ hl
  | cons x tr ih =>
    obtain ⟨l₁, hstep, h⟩ := h
    exact ih h (hstep.nodup hl)

/-- Only a push adds an element. -/
theorem not_mem (h : History l tr l') (ha : a ∉ l) (htr : ∀ x ∈ tr, ¬ x.Pushes a) : a ∉ l' := by
  induction tr generalizing l with
  | nil => exact h ▸ ha
  | cons x tr ih =>
    obtain ⟨l₁, hstep, h⟩ := h
    exact ih h (hstep.not_mem ha (htr x List.mem_cons_self)) fun y hy =>
      htr y (List.mem_cons_of_mem x hy)

/-- Only a pop removes an element. -/
theorem mem (h : History l tr l') (ha : a ∈ l) (htr : .pop a ∉ tr) : a ∈ l' := by
  induction tr generalizing l with
  | nil => exact h ▸ ha
  | cons x tr ih =>
    obtain ⟨l₁, hstep, h⟩ := h
    rw [List.mem_cons, not_or] at htr
    exact ih h (hstep.mem ha (Ne.symm htr.1)) htr.2

/-- The order of two elements stays until the first is removed. -/
theorem before (h : History l tr l') (hab : Before l a b) (htr : .pop a ∉ tr) : Before l' a b := by
  induction tr generalizing l with
  | nil => exact h ▸ hab
  | cons x tr ih =>
    obtain ⟨l₁, hstep, h⟩ := h
    rw [List.mem_cons, not_or] at htr
    exact ih h (hstep.before hab (Ne.symm htr.1)) htr.2

/-- An element is popped before one that stands behind it comes to the front. -/
theorem popped_of_before (h : History l tr l') (hl : l.Nodup) (hab : Before l a b)
    (hhead : l'.head? = some b) : .pop a ∈ tr := by
  by_contra hno
  exact (h.before hab hno).ne_head (h.nodup hl) hhead

/-- Between two pops of an element it is pushed again. -/
theorem pushed_between (h : History l (tr₁ ++ .pop a :: tr₂ ++ .pop a :: tr₃) l') (hl : l.Nodup) :
    ∃ x ∈ tr₂, x.Pushes a := by
  obtain ⟨l₃, h, l₄, hpop₂, -⟩ := history_append.mp h
  obtain ⟨l₁, h₁, l₂, hpop₁, h₂⟩ := history_append.mp h
  by_contra hno
  push Not at hno
  have hnodup := h₁.nodup hl
  obtain rfl : l₁ = a :: l₂ := hpop₁
  obtain rfl : l₃ = a :: l₄ := hpop₂
  exact h₂.not_mem (List.nodup_cons.mp hnodup).1 hno List.mem_cons_self

/-- An element that is popped was there at the start or was pushed. -/
theorem pushed_before (h : History l (tr₁ ++ .pop a :: tr₂) l') :
    a ∈ l ∨ ∃ x ∈ tr₁, x.Pushes a := by
  obtain ⟨l₁, h₁, l₂, hpop, -⟩ := history_append.mp h
  obtain rfl : l₁ = a :: l₂ := hpop
  by_contra hno
  push Not at hno
  exact h₁.not_mem hno.1 hno.2 List.mem_cons_self

/-- What is pushed at the back is popped in the order of the pushes. -/
theorem fifo (h : History l (tr₁ ++ .pushBack a :: tr₂ ++ .pushBack b :: tr₃ ++ .pop b :: tr₄) l')
    (hl : l.Nodup) : .pop a ∈ tr₂ ++ tr₃ := by
  obtain ⟨l₅, h, l₆, hpop, -⟩ := history_append.mp h
  have hnodup := h.nodup hl
  obtain rfl : l₅ = b :: l₆ := hpop
  have hb : b ∉ l₆ := (List.nodup_cons.mp hnodup).1
  obtain ⟨l₃, h, l₄, ⟨-, rfl⟩, h₃⟩ := history_append.mp h
  obtain ⟨l₁, h₁, l₂, ⟨-, rfl⟩, h₂⟩ := history_append.mp h
  by_contra hno
  rw [List.mem_append, not_or] at hno
  have hmem : a ∈ l₃ := h₂.mem (List.mem_append_right _ (List.mem_singleton_self a)) hno.1
  have hbefore : Before (l₃ ++ [b]) a b := before_concat.mpr (Or.inr ⟨hmem, rfl⟩)
  have hlast := h₃.before hbefore hno.2
  rcases before_cons.mp hlast with ⟨-, hmem⟩ | hbefore
  · exact hb hmem
  · exact hb hbefore.right_mem

end History

end Deque

end Foundation
