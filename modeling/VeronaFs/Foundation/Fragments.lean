import Mathlib.Data.List.Perm.Basic
import VeronaFs.Foundation.Links

/-!
# Fragments of linked lists

Some elements of a linked list are kept, and their links are read off and put away.  What is left of the
list are fragments: each leads along elements that are not kept to one that is, or to the end of the
list.  The pointers to the fragments are the pointer to the list and the links of the kept elements
(`map_start_fragments`).
-/

namespace Foundation

variable {α : Type*}

/-- One more element at the head of the first fragment. -/
def consFragment (x : α) : List (List α × α) → List (List α × α)
  | [] => []
  | f :: fragments => (x :: f.1, f.2) :: fragments

/-- The fragments of a list that ends at `e`: the elements that are not kept, with the element behind
them. -/
def fragments (kept : α → Bool) (e : α) : List α → List (List α × α)
  | [] => [([], e)]
  | x :: l => if kept x then ([], x) :: fragments kept e l else consFragment x (fragments kept e l)

/-- The element at which a fragment starts. -/
def start (f : List α × α) : α := f.1.headD f.2

section

variable {kept : α → Bool} {e x : α} {l : List α} {next : α → Option α} {h : Option α}

/-- A list has a fragment. -/
theorem fragments_ne_nil : fragments kept e l ≠ [] := by
  induction l with
  | nil => exact List.cons_ne_nil _ _
  | cons x l ih =>
    rw [fragments]
    split
    · exact List.cons_ne_nil _ _
    · cases hl : fragments kept e l with
      | nil => exact absurd hl ih
      | cons f fs => exact List.cons_ne_nil _ _

/-- The fragments have the elements that are not kept. -/
theorem flatMap_fragments : (fragments kept e l).flatMap Prod.fst = l.filter fun x => !kept x := by
  induction l with
  | nil => rfl
  | cons x l ih =>
    rw [fragments]
    split
    · next hx => simp [hx, ih]
    · next hx =>
      cases hl : fragments kept e l with
      | nil => exact absurd hl fragments_ne_nil
      | cons f fs =>
        rw [hl] at ih
        simp [consFragment, hx, ← ih]

/-- They stop at those that are kept and at the end. -/
theorem map_snd_fragments : (fragments kept e l).map Prod.snd = l.filter kept ++ [e] := by
  induction l with
  | nil => rfl
  | cons x l ih =>
    rw [fragments]
    split
    · next hx => simp [hx, ih]
    · next hx =>
      cases hl : fragments kept e l with
      | nil => exact absurd hl fragments_ne_nil
      | cons f fs =>
        rw [hl] at ih
        simpa [consFragment, hx] using ih

/-- The pointers to the fragments are that to the list and the links of the kept elements. -/
theorem map_start_fragments (hp : Path next l h (some e)) :
    (fragments kept e l).map (fun f => some (start f)) = h :: (l.filter kept).map next := by
  induction l generalizing h with
  | nil =>
    obtain rfl : h = some e := hp
    rfl
  | cons x l ih =>
    obtain ⟨rfl, hp⟩ := hp
    rw [fragments]
    split
    · next hx =>
      rw [List.map_cons, ih hp, List.filter_cons_of_pos hx, List.map_cons]
      rfl
    · next hx =>
      have hl := ih hp
      cases hfs : fragments kept e l with
      | nil => exact absurd hfs fragments_ne_nil
      | cons f fs =>
        rw [hfs, List.map_cons] at hl
        have htail := (List.cons.inj hl).2
        rw [List.filter_cons_of_neg (by simpa using hx), consFragment, List.map_cons, htail]
        rfl

/-- A fragment leads from its start to its stop. -/
theorem path_fragment (hp : Path next l h (some e)) {f : List α × α} (hf : f ∈ fragments kept e l) :
    Path next f.1 (some (start f)) (some f.2) := by
  induction l generalizing h f with
  | nil =>
    obtain rfl : f = ([], e) := List.mem_singleton.mp hf
    rfl
  | cons x l ih =>
    obtain ⟨rfl, hp⟩ := hp
    rw [fragments] at hf
    split at hf
    · rcases List.mem_cons.mp hf with rfl | hf
      · rfl
      · exact ih hp hf
    · cases hl : fragments kept e l with
      | nil => exact absurd hl fragments_ne_nil
      | cons g fs =>
        rw [hl, consFragment] at hf
        rcases List.mem_cons.mp hf with rfl | hf
        · have hg := ih hp (f := g) (by rw [hl]; exact List.mem_cons_self)
          have hstart : (fragments kept e l).map (fun f => some (start f)) = _ := map_start_fragments hp
          rw [hl, List.map_cons] at hstart
          refine ⟨rfl, ?_⟩
          rw [← (List.cons.inj hstart).1]
          exact hg
        · exact ih hp (by rw [hl]; exact List.mem_cons_of_mem g hf)

end

end Foundation
