import Mathlib.Logic.Equiv.Defs

/-!
# Feistel networks

A round takes two halves and combines the second with a function of the first; the first goes on as
the second.  Whatever the function is, a round can be undone, as combining twice with the same value
changes nothing.  A network is a sequence of rounds.
-/

namespace Foundation

namespace Feistel

variable {α : Type*} (op : α → α → α)

/-- One round with the function `f`. -/
def round (f : α → α) (h : α × α) : α × α := (op h.2 (f h.1), h.1)

/-- The round that undoes it. -/
def unround (f : α → α) (h : α × α) : α × α := (h.2, op h.1 (f h.2))

variable {op} (hop : ∀ a b, op (op a b) b = a)

/-- A round as a permutation of the pairs of halves. -/
def roundEquiv (f : α → α) : Equiv.Perm (α × α) where
  toFun := round op f
  invFun := unround op f
  left_inv h := by
    rw [unround, round, hop]
  right_inv h := by
    rw [unround, round, hop]

/-- The rounds with the functions of a list, the first first. -/
def network : List (α → α) → Equiv.Perm (α × α)
  | [] => Equiv.refl _
  | f :: fs => (roundEquiv hop f).trans (network fs)

/-- A network is a loop over its rounds. -/
theorem network_apply (fs : List (α → α)) (h : α × α) :
    network hop fs h = fs.foldl (fun h f => round op f h) h := by
  induction fs generalizing h with
  | nil => rfl
  | cons f fs ih => exact ih (round op f h)

end Feistel

end Foundation
