import Mathlib.Data.Set.Finite.List
import Mathlib.Order.WellFounded
import VeronaFs.Foundation.Incoming
import VeronaFs.Foundation.PathSearch

/-!
# Reference counted components

A graph whose vertices are those of some strongly connected components, with references from outside.
`references` lists the references that count, with their sources, and `count` those that enter a
component.

`Components.mem_iff` says what exact counts are good for: if every component in use has a reference from
outside of it, and every other component has none, then the vertices in use are those that references
from outside reach.  A component in use has an entry, so there is a path back from it, and as no two
components reach each other it ends at a reference from outside.
-/

set_option linter.unusedSectionVars false

namespace Foundation.Ledger

open PathSearch

variable {α : Type*} [DecidableEq α]

/-- The references that count: those from outside and those of some vertices. -/
def references (fields : α → List α) (roots vertices : List α) : List (Option α × α) :=
  roots.map (Prod.mk none) ++ sourced fields vertices

/-- The references that enter a component. -/
def count (left : List (Option α × α)) (C : List α) : ℕ := left.countP fun e => Enters C e

/-- A partition of a graph into its strongly connected components. -/
structure Components (fields : α → List α) (Cs : List (List α)) : Prop where
  /-- No vertex is in two components. -/
  nodup : Cs.flatten.Nodup
  /-- The vertices of a component reach each other inside of it. -/
  strong : ∀ C ∈ Cs, Strong (· ∈ C) fields C
  /-- Components that reach each other are the same. -/
  acyclic : ∀ C ∈ Cs, ∀ E ∈ Cs, ∀ x ∈ C, ∀ y ∈ E, Connects (· ∈ Cs.flatten) fields x y →
    Connects (· ∈ Cs.flatten) fields y x → C = E

variable {fields : α → List α} {roots vertices : List α} {Cs alive : List (List α)} {C E : List α}
  {left rest : List (Option α × α)} {e : Option α × α} {x y : α}

/-! ## Counting -/

/-- The order of the references does not matter. -/
theorem count_perm (h : left.Perm rest) : count left C = count rest C := h.countP_eq _

/-- One reference more. -/
theorem count_cons (e : Option α × α) (left : List (Option α × α)) (C : List α) :
    count (e :: left) C = count left C + if Enters C e then 1 else 0 := by
  rw [count, List.countP_cons, count]
  simp only [decide_eq_true_eq]

/-- A reference that does not enter the component. -/
theorem count_cons_of_not (h : ¬ Enters C e) : count (e :: left) C = count left C := by
  rw [count_cons, if_neg h, Nat.add_zero]

/-- One that does. -/
theorem count_cons_of_enters (h : Enters C e) : count (e :: left) C = count left C + 1 := by
  rw [count_cons, if_pos h]

/-- A component with a reference from outside of it is counted. -/
theorem one_le_count (he : e ∈ left) (h : Enters C e) : 1 ≤ count left C :=
  List.countP_pos_iff.mpr ⟨e, he, decide_eq_true h⟩

/-- A component that is counted has a reference from outside of it. -/
theorem exists_of_count (h : 1 ≤ count left C) : ∃ e ∈ left, Enters C e := by
  obtain ⟨e, he, henters⟩ := List.countP_pos_iff.mp h
  exact ⟨e, he, of_decide_eq_true henters⟩

/-- What the references are. -/
theorem mem_references : e ∈ references fields roots vertices ↔
    (∃ y ∈ roots, e = (none, y)) ∨ ∃ x ∈ vertices, ∃ y ∈ fields x, e = (some x, y) := by
  rw [references, List.mem_append, List.mem_map, sourced, List.mem_flatMap]
  simp only [List.mem_map, eq_comm]

/-- The references into a component are those from outside and those of vertices of other components. -/
theorem count_references : count (references fields roots vertices) C =
    roots.countP (· ∈ C) + incoming fields vertices C := by
  have hroots : (roots.map (Prod.mk (none : Option α))).countP (fun e => decide (Enters C e)) =
      roots.countP (· ∈ C) := by
    rw [List.countP_map]
    refine List.countP_congr fun y _ => ?_
    simp [Enters]
  have hsum : incoming fields vertices C =
      (vertices.map fun x => (fields x).countP fun y => decide (Enters C (some x, y))).sum :=
    incoming_eq_sum (fun x y => decide (Enters C (some x, y))) fun x _ y _ => by simp [Enters]
  rw [count, references, List.countP_append, hroots, hsum, sourced, List.countP_flatMap]
  refine congrArg (roots.countP (· ∈ C) + ·) (congrArg List.sum (List.map_congr_left fun x _ => ?_))
  rw [Function.comp_apply, List.countP_map]
  rfl

/-- A reference from outside. -/
theorem count_references_cons (y : α) (roots : List α) :
    count (references fields (y :: roots) vertices) C =
      count (references fields roots vertices) C + if y ∈ C then 1 else 0 := by
  rw [count_references, count_references, List.countP_cons]
  simp only [decide_eq_true_eq]
  omega

/-- If no reference from outside leads to the component, the others are counted. -/
theorem count_references_of_not (h : ∀ y ∈ roots, y ∉ C) :
    count (references fields roots vertices) C = incoming fields vertices C := by
  have hzero : roots.countP (· ∈ C) = 0 := List.countP_eq_zero.mpr fun y hy => by simpa using h y hy
  rw [count_references, hzero, Nat.zero_add]

/-- More vertices. -/
theorem count_references_append (vertices rest : List α) :
    count (references fields roots (vertices ++ rest)) C =
      count (references fields roots vertices) C + incoming fields rest C := by
  rw [count_references, count_references, incoming_append, Nat.add_assoc]

/-! ## What is in use -/

namespace Components

/-- The component of a vertex. -/
theorem eq_of_mem (h : Components fields Cs) (hC : C ∈ Cs) (hE : E ∈ Cs) (hx : x ∈ C) (hy : x ∈ E) :
    C = E :=
  h.acyclic C hC E hE x hx x hy .refl .refl

/-- Some components of a partition. -/
theorem mono (h : Components fields Cs) (hnodup : alive.flatten.Nodup) (hsub : alive ⊆ Cs) :
    Components fields alive where
  nodup := hnodup
  strong C hC := h.strong C (hsub hC)
  acyclic C hC E hE x hx y hy hxy hyx := by
    have hmono : ∀ z, z ∈ alive.flatten → z ∈ Cs.flatten := fun z hz => by
      obtain ⟨F, hF, hzF⟩ := List.mem_flatten.mp hz
      exact List.mem_flatten.mpr ⟨F, hsub hF, hzF⟩
    exact h.acyclic C (hsub hC) E (hsub hE) x hx y hy (connects_mono hmono hxy) (connects_mono hmono hyx)

/-- A vertex is reached from another one strictly. -/
def Below (fields : α → List α) (Cs : List (List α)) (x y : { z // z ∈ Cs.flatten }) : Prop :=
  Connects (· ∈ Cs.flatten) fields x.1 y.1 ∧ ¬ Connects (· ∈ Cs.flatten) fields y.1 x.1

/-- There are no infinite paths back through components. -/
theorem below_wf (fields : α → List α) (Cs : List (List α)) : WellFounded (Below fields Cs) := by
  have htrans : IsTrans { z // z ∈ Cs.flatten } (Below fields Cs) :=
    ⟨fun x y z hxy hyz => ⟨hxy.1.trans hyz.1, fun hzx => hxy.2 (hyz.1.trans hzx)⟩⟩
  have hirrefl : Std.Irrefl (Below fields Cs) := ⟨fun x hx => hx.2 hx.1⟩
  have hfinite : Finite { z // z ∈ Cs.flatten } := (Cs.flatten.finite_toSet).to_subtype
  exact Finite.wellFounded_of_trans_of_irrefl _

/-- The vertices in use are those that references from outside reach. -/
theorem mem_iff (h : Components fields Cs) (hsub : alive ⊆ Cs)
    (hpos : ∀ C ∈ alive, 1 ≤ count (references fields roots alive.flatten) C)
    (hzero : ∀ C ∈ Cs, C ∉ alive → count (references fields roots alive.flatten) C = 0) :
    x ∈ alive.flatten ↔ ∃ y ∈ roots, y ∈ Cs.flatten ∧ Connects (· ∈ Cs.flatten) fields y x := by
  have hmem : ∀ {z}, z ∈ alive.flatten → z ∈ Cs.flatten := fun hz => by
    obtain ⟨F, hF, hzF⟩ := List.mem_flatten.mp hz
    exact List.mem_flatten.mpr ⟨F, hsub hF, hzF⟩
  -- A component with a reference that counts is in use.
  have hentered : ∀ C ∈ Cs, ∀ e ∈ references fields roots alive.flatten, Enters C e → C ∈ alive := by
    intro C hC e he henters
    by_contra hnot
    have hone := one_le_count he henters
    rw [hzero C hC hnot] at hone
    omega
  constructor
  · -- By induction on the components that lead to that of `x`.
    intro hxalive
    induction hz : (⟨x, hmem hxalive⟩ : { z // z ∈ Cs.flatten }) using (below_wf fields Cs).induction
      generalizing x with
    | _ z ih =>
      subst hz
      obtain ⟨C, hC, hxC⟩ := List.mem_flatten.mp hxalive
      obtain ⟨e, he, hyC, hsrc⟩ := exists_of_count (hpos C hC)
      have hstrong : ∀ y ∈ C, Connects (· ∈ Cs.flatten) fields y x := fun y hy =>
        connects_mono (fun z hz => List.mem_flatten.mpr ⟨C, hsub hC, hz⟩) (h.strong C (hsub hC) y hy x hxC)
      rcases mem_references.mp he with ⟨y, hy, rfl⟩ | ⟨u, hu, y, hy, rfl⟩
      · exact ⟨y, hy, List.mem_flatten.mpr ⟨C, hsub hC, hyC⟩, hstrong y hyC⟩
      · have hucs : u ∈ Cs.flatten := hmem hu
        have hux : Connects (· ∈ Cs.flatten) fields u x :=
          (hstrong y hyC).head ⟨hy, List.mem_flatten.mpr ⟨C, hsub hC, hyC⟩⟩
        have hnot : ¬ Connects (· ∈ Cs.flatten) fields x u := by
          intro hxu
          obtain ⟨E, hE, huE⟩ := List.mem_flatten.mp hu
          have hEC := h.acyclic E (hsub hE) C (hsub hC) u huE x hxC hux hxu
          exact hsrc u rfl (hEC ▸ huE)
        obtain ⟨r, hr, hrcs, hru⟩ := ih ⟨u, hucs⟩ ⟨hux, hnot⟩ hu rfl
        exact ⟨r, hr, hrcs, hru.trans hux⟩
  · rintro ⟨r, hr, hrcs, hrx⟩
    induction hrx with
    | refl =>
      obtain ⟨C, hC, hrC⟩ := List.mem_flatten.mp hrcs
      have halive := hentered C hC (none, r) (mem_references.mpr (.inl ⟨r, hr, rfl⟩))
        ⟨hrC, fun u hu => by cases hu⟩
      exact List.mem_flatten.mpr ⟨C, halive, hrC⟩
    | @tail u v _ huv ih =>
      obtain ⟨C, hC, hvC⟩ := List.mem_flatten.mp huv.2
      obtain ⟨E, hE, huE⟩ := List.mem_flatten.mp ih
      by_cases huC : u ∈ C
      · exact List.mem_flatten.mpr ⟨E, hE, h.eq_of_mem (hsub hE) hC huE huC ▸ hvC⟩
      · have halive := hentered C hC (some u, v) (mem_references.mpr (.inr ⟨u, ih, v, huv.1, rfl⟩))
          ⟨hvC, fun z hz => Option.some.inj hz ▸ huC⟩
        exact List.mem_flatten.mpr ⟨C, halive, hvC⟩

end Components

end Foundation.Ledger
