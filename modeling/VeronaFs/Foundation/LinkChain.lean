import Mathlib.Data.Nat.Basic
import Mathlib.Logic.Function.Basic
import Mathlib.Logic.Relation

/-!
# Chains of links

Every element may have a link to another one, its parent in a union-find structure.
`Leads link n x r` says that the chain of links from `x` has `n` links and ends at `r`, which has
none.  Splitting a path lets an element skip its parent: all chains keep their ends and none gets
longer.  Attaching an end to another one makes the chains to the first longer by one link.
-/

namespace Foundation

variable {α : Type*}

/-- From `x` on `n` links lead to `r`, which has no link. -/
inductive Leads (link : α → Option α) : ℕ → α → α → Prop
  /-- The end of a chain. -/
  | root {r : α} (h : link r = none) : Leads link 0 r r
  /-- A link. -/
  | step {n : ℕ} {x y r : α} (h : link x = some y) (hy : Leads link n y r) :
      Leads link (n + 1) x r

/-- The element `y` is the parent of `x`. -/
def LinksTo (link : α → Option α) (x y : α) : Prop := link x = some y

namespace Leads

variable {link : α → Option α} {n m : ℕ} {x y z p r s u : α}

/-- The end of a chain has no link. -/
theorem link_end (h : Leads link n x r) : link r = none := by
  induction h with
  | root h => exact h
  | step _ _ ih => exact ih

/-- A chain goes on behind a link. -/
theorem of_link (h : Leads link n x r) (hx : link x = some y) :
    ∃ m, n = m + 1 ∧ Leads link m y r := by
  cases h with
  | root h =>
    rw [h] at hx
    cases hx
  | step h hy =>
    obtain rfl := Option.some.inj (h.symm.trans hx)
    exact ⟨_, rfl, hy⟩

/-- An element without a link is the end of its chain. -/
theorem of_root (h : Leads link n x r) (hx : link x = none) : n = 0 ∧ r = x := by
  cases h with
  | root => exact ⟨rfl, rfl⟩
  | step h =>
    rw [hx] at h
    cases h

/-- The chain from an element is unique. -/
theorem unique (h : Leads link n x r) (h' : Leads link m x s) : n = m ∧ r = s := by
  induction h generalizing m with
  | root h =>
    obtain ⟨rfl, rfl⟩ := h'.of_root h
    exact ⟨rfl, rfl⟩
  | step h _ ih =>
    obtain ⟨k, rfl, hk⟩ := h'.of_link h
    obtain ⟨rfl, rfl⟩ := ih hk
    exact ⟨rfl, rfl⟩

/-- Along its links a chain gets shorter. -/
theorem of_transGen (h : Leads link n x r) (hxy : Relation.TransGen (LinksTo link) x y) :
    ∃ m < n, Leads link m y r := by
  induction hxy with
  | single hxy =>
    obtain ⟨m, rfl, hm⟩ := h.of_link hxy
    exact ⟨m, Nat.lt_succ_self m, hm⟩
  | tail _ hyz ih =>
    obtain ⟨m, hlt, hm⟩ := ih
    obtain ⟨k, rfl, hk⟩ := hm.of_link hyz
    exact ⟨k, by omega, hk⟩

/-- A chain that ends does not come back to its start. -/
theorem not_cycle (h : Leads link n x r) : ¬ Relation.TransGen (LinksTo link) x x := by
  intro hcycle
  obtain ⟨m, hlt, hm⟩ := h.of_transGen hcycle
  have heq := (h.unique hm).1
  omega

/-- The parent of an element is not the element. -/
theorem ne_of_link (h : Leads link n x r) (hx : link x = some y) : y ≠ x := by
  rintro rfl
  exact h.not_cycle (.single hx)

variable [DecidableEq α]

/-- Splitting a path: all chains keep their ends and get no longer. -/
theorem split (hx : link x = some y) (hy : link y = some z) (h : Leads link n u r) :
    ∃ m ≤ n, Leads (Function.update link x (some z)) m u r := by
  induction h with
  | @root r h =>
    have hne : r ≠ x := by
      rintro rfl
      rw [h] at hx
      cases hx
    exact ⟨0, le_rfl, .root (by rw [Function.update_of_ne hne, h])⟩
  | @step n u v r h hv ih =>
    obtain ⟨m, hle, hm⟩ := ih
    by_cases hu : u = x
    · subst hu
      obtain rfl := Option.some.inj (h.symm.trans hx)
      have hne : v ≠ u := (Leads.step h hv).ne_of_link h
      obtain ⟨k, rfl, hk⟩ := hm.of_link (by rw [Function.update_of_ne hne, hy])
      exact ⟨k + 1, by omega, .step (Function.update_self ..) hk⟩
    · exact ⟨m + 1, by omega, .step (by rw [Function.update_of_ne hu, h]) hm⟩

/-- Attaching the end `p` to the end `r`: the chains to `p` have one more link. -/
theorem attach (hr : link r = none) (hne : p ≠ r) (h : Leads link n u p) :
    Leads (Function.update link p (some r)) (n + 1) u r := by
  have hroot : Leads (Function.update link p (some r)) 0 r r :=
    .root (by rw [Function.update_of_ne hne.symm, hr])
  induction h with
  | root => exact .step (Function.update_self ..) hroot
  | @step n u v p h hv ih =>
    have hu : u ≠ p := by
      rintro rfl
      rw [hv.link_end] at h
      cases h
    exact .step (by rw [Function.update_of_ne hu, h]) (ih hne hroot)

/-- The chains to other ends stay. -/
theorem attach_of_ne (hp : link p = none) (hs : s ≠ p) (h : Leads link n u s) :
    Leads (Function.update link p (some r)) n u s := by
  induction h with
  | root h => exact .root (by rw [Function.update_of_ne hs, h])
  | @step n u v s h _ ih =>
    have hu : u ≠ p := by
      rintro rfl
      rw [hp] at h
      cases h
    exact .step (by rw [Function.update_of_ne hu, h]) (ih hs)

/-- Removing the link of `x`: a chain ends at `x` or where it did. -/
theorem cut (h : Leads link n u r) (x : α) : (∃ m, Leads (Function.update link x none) m u x) ∨
    Leads (Function.update link x none) n u r := by
  have hx : Leads (Function.update link x none) 0 x x := .root (Function.update_self ..)
  induction h with
  | @root r h =>
    by_cases hr : r = x
    · exact .inl ⟨0, hr ▸ hx⟩
    · exact .inr (.root (by rw [Function.update_of_ne hr, h]))
  | @step n u v r h _ ih =>
    by_cases hu : u = x
    · exact .inl ⟨0, hu ▸ hx⟩
    · have hlink : Function.update link x none u = some v := by rw [Function.update_of_ne hu, h]
      rcases ih with ⟨m, hm⟩ | hr
      · exact .inl ⟨m + 1, .step hlink hm⟩
      · exact .inr (.step hlink hr)

/-- A chain behind the removal was one before, but for those that end at `x` now. -/
theorem of_cut (hx : Leads link m x r) (h : Leads (Function.update link x none) n u s) :
    ∃ k, Leads link k u (if s = x then r else s) := by
  induction h with
  | @root s h =>
    by_cases hs : s = x
    · exact ⟨m, by rw [if_pos hs, hs]; exact hx⟩
    · rw [Function.update_of_ne hs] at h
      exact ⟨0, by rw [if_neg hs]; exact .root h⟩
  | @step n u v s h _ ih =>
    have hu : u ≠ x := by
      rintro rfl
      rw [Function.update_self] at h
      cases h
    obtain ⟨k, hk⟩ := ih
    rw [Function.update_of_ne hu] at h
    exact ⟨k + 1, .step h hk⟩

end Leads

end Foundation
