import Mathlib.Algebra.BigOperators.Group.Finset.Basic
import Mathlib.Algebra.Order.BigOperators.Group.Finset
import Mathlib.Logic.Relation

/-!
# Tracing a graph

A graph has for every vertex the list of its references to others.  A trace pops the vertices off a
stack and pushes the references of those that it visits for the first time.  `drain` is the loop, with
what it does to a vertex as a parameter, and `drain_total` its rule: an invariant of the state and the
stack, and a bound for the references that are still to be pushed.

`refs` counts the references to a vertex from a set of vertices, and `width` all the references from
the set.
-/

namespace Foundation

variable {α σ : Type*}

/-! ## The loop -/

/-- Pop until the stack is empty.  A step gives the new state and what it pushes, the top first. -/
def drain (step : σ → α → Option (σ × List α)) : ℕ → σ → List α → Option σ
  | _, s, [] => some s
  | 0, _, _ :: _ => none
  | fuel + 1, s, x :: stack =>
    (step s x).bind fun r => drain step fuel r.1 (r.2 ++ stack)

/-- The loop ends with the invariant, if every step keeps it and pays for what it pushes out of a
budget. -/
theorem drain_budget {step : σ → α → Option (σ × List α)} {I : ℕ → σ → List α → Prop}
    (hstep : ∀ n s x stack, I n s (x :: stack) → ∃ n' s' pushed, step s x = some (s', pushed) ∧
      I n' s' (pushed ++ stack) ∧ n' + pushed.length ≤ n)
    {n : ℕ} {s : σ} {stack : List α} {fuel : ℕ} (h : I n s stack) (hfuel : n + stack.length ≤ fuel) :
    ∃ n' s', drain step fuel s stack = some s' ∧ I n' s' [] := by
  induction fuel generalizing n s stack with
  | zero =>
    cases stack with
    | nil => exact ⟨n, s, by rw [drain], h⟩
    | cons x stack =>
      rw [List.length_cons] at hfuel
      omega
  | succ fuel ih =>
    cases stack with
    | nil => exact ⟨n, s, by rw [drain], h⟩
    | cons x stack =>
      obtain ⟨n₁, s₁, pushed, hs₁, h₁, hn⟩ := hstep n s x stack h
      have hfuel₁ : n₁ + (pushed ++ stack).length ≤ fuel := by
        rw [List.length_cons] at hfuel
        rw [List.length_append]
        omega
      obtain ⟨n', s', hs', h'⟩ := ih h₁ hfuel₁
      refine ⟨n', s', ?_, h'⟩
      rw [drain, hs₁]
      exact hs'

/-- The loop ends with the invariant, if every step keeps it and what it pushes is paid for. -/
theorem drain_total {step : σ → α → Option (σ × List α)} {I : σ → List α → Prop} {μ : σ → ℕ}
    (hstep : ∀ s x stack, I s (x :: stack) → ∃ s' pushed, step s x = some (s', pushed) ∧
      I s' (pushed ++ stack) ∧ μ s' + pushed.length ≤ μ s)
    {s : σ} {stack : List α} {fuel : ℕ} (h : I s stack) (hfuel : μ s + stack.length ≤ fuel) :
    ∃ s', drain step fuel s stack = some s' ∧ I s' [] := by
  obtain ⟨n, s', hs', h', -⟩ := drain_budget (I := fun n s stack => I s stack ∧ μ s = n)
    (fun n s x stack hI => by
      obtain ⟨hI, rfl⟩ := hI
      obtain ⟨s', pushed, hs', h', hμ⟩ := hstep s x stack hI
      exact ⟨μ s', s', pushed, hs', ⟨h', rfl⟩, hμ⟩) ⟨h, rfl⟩ hfuel
  exact ⟨s', hs', h'⟩

/-- A loop that ends has the invariant, if every step that does not fail keeps it. -/
theorem drain_some {step : σ → α → Option (σ × List α)} {I : σ → List α → Prop}
    (hstep : ∀ s x stack s' pushed, I s (x :: stack) → step s x = some (s', pushed) →
      I s' (pushed ++ stack))
    {s s' : σ} {stack : List α} {fuel : ℕ} (h : I s stack) (hs' : drain step fuel s stack = some s') :
    I s' [] := by
  induction fuel generalizing s stack with
  | zero =>
    cases stack with
    | nil =>
      rw [drain] at hs'
      rwa [← Option.some.inj hs']
    | cons x stack =>
      rw [drain] at hs'
      cases hs'
  | succ fuel ih =>
    cases stack with
    | nil =>
      rw [drain] at hs'
      rwa [← Option.some.inj hs']
    | cons x stack =>
      rw [drain] at hs'
      obtain ⟨r, hr, hs'⟩ := Option.bind_eq_some_iff.mp hs'
      exact ih (hstep s x stack r.1 r.2 h hr) hs'

/-! ## References -/

/-- A vertex is reached by following references. -/
def Reaches (fields : α → List α) : α → α → Prop :=
  Relation.ReflTransGen fun x y => y ∈ fields x

/-- The number of references to a vertex from the vertices of a set. -/
def refs [DecidableEq α] (fields : α → List α) (X : Finset α) (y : α) : ℕ :=
  ∑ x ∈ X, (fields x).count y

/-- The number of references from the vertices of a set. -/
def width (fields : α → List α) (X : Finset α) : ℕ := ∑ x ∈ X, (fields x).length

section

variable {fields : α → List α} {X Y : Finset α} {x y z : α}

/-- A reference of a vertex that is reached is reached. -/
theorem Reaches.tail (h : Reaches fields x y) (hz : z ∈ fields y) : Reaches fields x z :=
  Relation.ReflTransGen.tail h hz

/-- A set that the references do not leave holds all that its vertices reach. -/
theorem Reaches.mem_of_closed {P : α → Prop} (h : Reaches fields x y) (hx : P x)
    (hclosed : ∀ x, P x → ∀ y ∈ fields x, P y) : P y := by
  induction h with
  | refl => exact hx
  | tail _ hz ih => exact hclosed _ ih _ hz

/-- More vertices have more references. -/
theorem width_mono (h : X ⊆ Y) : width fields X ≤ width fields Y :=
  Finset.sum_le_sum_of_subset h

variable [DecidableEq α]

/-- The references without those of one vertex. -/
theorem refs_erase (fields : α → List α) (hx : x ∈ X) (y : α) :
    refs fields (X.erase x) y + (fields x).count y = refs fields X y :=
  Finset.sum_erase_add _ _ hx

/-- The references with those of one vertex more. -/
theorem refs_insert (fields : α → List α) (hx : x ∉ X) (y : α) :
    refs fields (insert x X) y = (fields x).count y + refs fields X y :=
  Finset.sum_insert hx

/-- The number of references without those of one vertex. -/
theorem width_erase (fields : α → List α) (hx : x ∈ X) :
    width fields (X.erase x) + (fields x).length = width fields X :=
  Finset.sum_erase_add _ _ hx

/-- A vertex is referred to from a set exactly if one of the set refers to it. -/
theorem refs_pos_iff : 0 < refs fields X y ↔ ∃ x ∈ X, y ∈ fields x := by
  rw [refs, Finset.sum_pos_iff]
  simp only [List.count_pos_iff]

/-- Vertices that do not refer to a vertex do not count. -/
theorem refs_eq_of_subset (h : X ⊆ Y) (hout : ∀ x ∈ Y, x ∉ X → y ∉ fields x) :
    refs fields X y = refs fields Y y :=
  Finset.sum_subset h fun x hx hx' => List.count_eq_zero.mpr (hout x hx hx')

end

end Foundation
