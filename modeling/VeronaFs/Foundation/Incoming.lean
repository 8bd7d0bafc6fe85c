import Mathlib.Algebra.Order.BigOperators.Group.List
import Mathlib.Algebra.Order.Ring.Nat
import Mathlib.Data.List.Perm.Subperm

/-!
# References into a part of a graph

`incoming fields V C` is the number of references from the vertices `V` into `C` that come from outside
`C`: what a count of the references into a component has to be.
-/

namespace Foundation

variable {α : Type*} [DecidableEq α]

/-- The number of references from the vertices `V` into `C` that come from outside `C`. -/
def incoming (fields : α → List α) (V C : List α) : ℕ :=
  ((V.filter fun x => x ∉ C).map fun x => (fields x).countP fun y => y ∈ C).sum

variable {fields : α → List α} {V W C E : List α} {x y : α}

/-- The references from two lists of vertices. -/
theorem incoming_append (fields : α → List α) (V W C : List α) :
    incoming fields (V ++ W) C = incoming fields V C + incoming fields W C := by
  rw [incoming, List.filter_append, List.map_append, List.sum_append]
  rfl

/-- The order of the vertices does not matter. -/
theorem incoming_perm (h : V.Perm W) : incoming fields V C = incoming fields W C :=
  ((h.filter _).map _).sum_eq

/-- Fewer vertices have fewer references. -/
theorem incoming_le (hnodup : V.Nodup) (h : V ⊆ W) : incoming fields V C ≤ incoming fields W C := by
  obtain ⟨U, hU, hsub⟩ := hnodup.subperm h
  rw [← incoming_perm hU]
  exact ((hsub.filter _).map _).sum_le_sum fun n _ => Nat.zero_le n

/-- No vertex has one. -/
theorem incoming_eq_zero_of_not (h : ∀ x ∈ V, ∀ y ∈ fields x, y ∉ C) : incoming fields V C = 0 := by
  refine List.sum_eq_zero fun n hn => ?_
  obtain ⟨x, hx, rfl⟩ := List.mem_map.mp hn
  exact List.countP_eq_zero.mpr fun y hy => by simpa using h x (List.mem_filter.mp hx).1 y hy

/-- There are none from inside. -/
theorem incoming_eq_zero (h : V ⊆ C) : incoming fields V C = 0 := by
  have hnil : V.filter (fun x => x ∉ C) = [] :=
    List.filter_eq_nil_iff.mpr fun x hx => by simpa using h hx
  rw [incoming, hnil]
  rfl

/-- The references from vertices that are all outside. -/
theorem incoming_eq {q : α → α → Bool} (hV : ∀ x ∈ V, x ∉ C)
    (h : ∀ x ∈ V, ∀ y ∈ fields x, y ∈ C ↔ q x y = true) :
    incoming fields V C = (V.map fun x => (fields x).countP (q x)).sum := by
  have hall : V.filter (fun x => x ∉ C) = V :=
    List.filter_eq_self.mpr fun x hx => decide_eq_true (hV x hx)
  rw [incoming, hall]
  congr 1
  refine List.map_congr_left fun x hx => List.countP_congr fun y hy => ?_
  rw [decide_eq_true_eq]
  exact h x hx y hy

/-- Only what is in the part matters. -/
theorem incoming_congr (h : ∀ x, x ∈ C ↔ x ∈ E) : incoming fields V C = incoming fields V E := by
  have hC : (fun x => decide (x ∈ C)) = fun x => decide (x ∈ E) :=
    funext fun x => decide_eq_decide.mpr (h x)
  have hnot : (fun x => decide (x ∉ C)) = fun x => decide (x ∉ E) :=
    funext fun x => decide_eq_decide.mpr (not_congr (h x))
  rw [incoming, incoming, hC, hnot]

/-- The references of all vertices, with the condition on their sources. -/
theorem incoming_eq_sum (q : α → α → Bool) (h : ∀ x ∈ V, ∀ y ∈ fields x, q x y = true ↔ y ∈ C ∧ x ∉ C) :
    incoming fields V C = (V.map fun x => (fields x).countP (q x)).sum := by
  induction V with
  | nil => rfl
  | cons x V ih =>
    have happend := incoming_append fields [x] V C
    rw [List.singleton_append] at happend
    rw [happend, ih fun u hu => h u (List.mem_cons_of_mem x hu), List.map_cons, List.sum_cons]
    congr 1
    have hx := h x List.mem_cons_self
    by_cases hxC : x ∈ C
    · have hzero : (fields x).countP (q x) = 0 :=
        List.countP_eq_zero.mpr fun y hy hq => ((hx y hy).mp hq).2 hxC
      rw [hzero, incoming_eq_zero (by simpa using hxC)]
    · rw [incoming_eq (q := q) (by simpa using hxC) (by simpa [hxC] using fun y hy => (hx y hy).symm)]
      simp

/-- A vertex outside with a reference is counted. -/
theorem one_le_incoming (hx : x ∈ V) (hout : x ∉ C) (hy : y ∈ fields x) (hC : y ∈ C) :
    1 ≤ incoming fields V C := by
  have hmem : x ∈ V.filter fun x => x ∉ C := List.mem_filter.mpr ⟨hx, decide_eq_true hout⟩
  have hpos : 0 < (fields x).countP fun y => y ∈ C :=
    List.countP_pos_iff.mpr ⟨y, hy, decide_eq_true hC⟩
  exact hpos.trans_le (List.single_le_sum (fun n _ => Nat.zero_le n) _ (List.mem_map_of_mem hmem))

/-- Two vertices outside with references are both counted. -/
theorem two_le_incoming {u v : α} (hx : x ∈ V) (hu : u ∈ V) (hne : x ≠ u) (hxC : x ∉ C)
    (huC : u ∉ C) (hy : y ∈ fields x) (hyC : y ∈ C) (hv : v ∈ fields u) (hvC : v ∈ C) :
    2 ≤ incoming fields V C := by
  have hnodup : [x, u].Nodup := by simpa using hne
  have hsub : [x, u] ⊆ V := by simp [hx, hu]
  have hle : incoming fields [x, u] C ≤ incoming fields V C := incoming_le hnodup hsub
  have hxone : 1 ≤ incoming fields [x] C := one_le_incoming (List.mem_singleton_self x) hxC hy hyC
  have huone : 1 ≤ incoming fields [u] C := one_le_incoming (List.mem_singleton_self u) huC hv hvC
  have happend := incoming_append fields [x] [u] C
  rw [List.singleton_append] at happend
  omega

end Foundation
