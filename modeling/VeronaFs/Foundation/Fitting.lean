import Mathlib

/-!
# The longest run that fits

A buffer is filled with the elements of a list in their order, as long as the next one fits.
-/

namespace Foundation

variable {α : Type*} {w : α → ℕ} {room : ℕ} {l r : List α}

/-- The elements of a list that fit into a room, up to the first that does not. -/
def fitting (w : α → ℕ) : ℕ → List α → List α
  | _, [] => []
  | room, a :: l => if w a ≤ room then a :: fitting w (room - w a) l else []

/-- `r` is the longest prefix of `l` that fits into a room. -/
structure LongestRun (w : α → ℕ) (room : ℕ) (l r : List α) : Prop where
  /-- It is a prefix. -/
  isPrefix : r <+: l
  /-- It fits. -/
  fits : (r.map w).sum ≤ room
  /-- Every prefix that fits is a part of it. -/
  longest : ∀ r', r' <+: l → (r'.map w).sum ≤ room → r' <+: r

/-- Filling a buffer yields the longest run that fits. -/
theorem longestRun_fitting (w : α → ℕ) (room : ℕ) (l : List α) :
    LongestRun w room l (fitting w room l) := by
  induction l generalizing room with
  | nil => exact ⟨List.nil_prefix, Nat.zero_le _, fun _ h _ => h⟩
  | cons a l ih =>
    rw [fitting]
    by_cases ha : w a ≤ room
    · rw [if_pos ha]
      have hrest := ih (room - w a)
      refine ⟨List.cons_prefix_cons.mpr ⟨rfl, hrest.isPrefix⟩, ?_, fun r' hr' hfits => ?_⟩
      · have hsum := hrest.fits
        rw [List.map_cons, List.sum_cons]
        omega
      · cases r' with
        | nil => exact List.nil_prefix
        | cons b r' =>
          obtain ⟨rfl, hprefix⟩ := List.cons_prefix_cons.mp hr'
          rw [List.map_cons, List.sum_cons] at hfits
          exact List.cons_prefix_cons.mpr ⟨rfl, hrest.longest r' hprefix (by omega)⟩
    · rw [if_neg ha]
      refine ⟨List.nil_prefix, Nat.zero_le _, fun r' hr' hfits => ?_⟩
      cases r' with
      | nil => exact List.nil_prefix
      | cons b r' =>
        obtain ⟨rfl, -⟩ := List.cons_prefix_cons.mp hr'
        rw [List.map_cons, List.sum_cons] at hfits
        omega

/-- A longest run is the first elements of the list. -/
theorem LongestRun.eq_take (h : LongestRun w room l r) : r = l.take r.length :=
  List.prefix_iff_eq_take.mp h.isPrefix

/-- If the first element fits, the longest run is empty for the empty list only. -/
theorem LongestRun.eq_nil (h : LongestRun w room l []) (hw : ∀ a ∈ l, w a ≤ room) : l = [] := by
  cases l with
  | nil => rfl
  | cons a l =>
    have hfits : ([a].map w).sum ≤ room := by simpa using hw a List.mem_cons_self
    have hle := (h.longest [a] (List.cons_prefix_cons.mpr ⟨rfl, List.nil_prefix⟩) hfits).length_le
    simp at hle

end Foundation
