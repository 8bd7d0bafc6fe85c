import Mathlib.Data.List.Nodup

/-!
# Tilings

`Tiles size l b e` says that the blocks at the positions of `l` lie behind each other, from `b` to `e`
and without a gap.  The blocks of a tiling are disjoint, and one is at the end of the one before it, so
that they are found in their order by adding the sizes.
-/

namespace Foundation

/-- Nonempty blocks behind each other, from `b` to `e`. -/
def Tiles (size : ℕ → ℕ) : List ℕ → ℕ → ℕ → Prop
  | [], b, e => b = e
  | a :: l, b, e => a = b ∧ 0 < size a ∧ Tiles size l (a + size a) e

namespace Tiles

variable {size size' : ℕ → ℕ} {l l₁ l₂ : List ℕ} {a b e d : ℕ}

/-- Two tilings behind each other. -/
theorem append_iff : Tiles size (l₁ ++ l₂) b e ↔ ∃ m, Tiles size l₁ b m ∧ Tiles size l₂ m e := by
  induction l₁ generalizing b with
  | nil => simp [Tiles]
  | cons a l ih =>
    simp only [List.cons_append, Tiles, ih]
    constructor
    · rintro ⟨ha, hsize, m, h₁, h₂⟩
      exact ⟨m, ⟨ha, hsize, h₁⟩, h₂⟩
    · rintro ⟨m, ⟨ha, hsize, h₁⟩, h₂⟩
      exact ⟨ha, hsize, m, h₁, h₂⟩

/-- The sizes of other blocks do not matter. -/
theorem congr (ht : Tiles size l b e) (hsize : ∀ a ∈ l, size' a = size a) : Tiles size' l b e := by
  induction l generalizing b with
  | nil => exact ht
  | cons a l ih =>
    obtain ⟨ha, hpos, ht⟩ := ht
    rw [← hsize a List.mem_cons_self] at hpos ht
    exact ⟨ha, hpos, ih ht fun x hx => hsize x (List.mem_cons_of_mem a hx)⟩

/-- A block is appended. -/
theorem concat (ht : Tiles size l b e) (hpos : 0 < size e) : Tiles size (l ++ [e]) b (e + size e) :=
  append_iff.mpr ⟨e, ht, rfl, hpos, rfl⟩

/-- The end is behind the beginning. -/
theorem le (ht : Tiles size l b e) : b ≤ e := by
  induction l generalizing b with
  | nil => exact Nat.le_of_eq ht
  | cons a l ih =>
    obtain ⟨rfl, -, ht⟩ := ht
    exact Nat.le_trans (Nat.le_add_right a _) (ih ht)

/-- The blocks are between the beginning and the end. -/
theorem bounds (ht : Tiles size l b e) (ha : a ∈ l) : b ≤ a ∧ 0 < size a ∧ a + size a ≤ e := by
  induction l generalizing b with
  | nil => exact absurd ha List.not_mem_nil
  | cons c l ih =>
    obtain ⟨rfl, hpos, ht⟩ := ht
    rcases List.mem_cons.mp ha with rfl | ha
    · exact ⟨Nat.le_refl a, hpos, ht.le⟩
    · obtain ⟨hle, hend⟩ := ih ht ha
      exact ⟨by omega, hend⟩

/-- There are no blocks if and only if there is no space. -/
theorem eq_nil_iff (ht : Tiles size l b e) : l = [] ↔ b = e := by
  cases l with
  | nil => exact iff_of_true rfl ht
  | cons a l =>
    obtain ⟨rfl, hpos, ht⟩ := ht
    exact iff_of_false (by simp) (by have := ht.le; omega)

/-- The first block is at the beginning. -/
theorem head_eq (ht : Tiles size (a :: l) b e) : a = b := ht.1

/-- A position occurs once. -/
theorem nodup (ht : Tiles size l b e) : l.Nodup := by
  induction l generalizing b with
  | nil => exact List.nodup_nil
  | cons a l ih =>
    obtain ⟨rfl, hpos, ht⟩ := ht
    refine List.nodup_cons.mpr ⟨fun ha => ?_, ih ht⟩
    have hle := (ht.bounds ha).1
    omega

/-- Two different blocks are disjoint. -/
theorem disjoint (ht : Tiles size l b e) {a' : ℕ} (ha : a ∈ l) (ha' : a' ∈ l) (hne : a ≠ a') :
    a + size a ≤ a' ∨ a' + size a' ≤ a := by
  induction l generalizing b with
  | nil => exact absurd ha List.not_mem_nil
  | cons c l ih =>
    obtain ⟨rfl, -, ht⟩ := ht
    rcases List.mem_cons.mp ha with heq | ha <;> rcases List.mem_cons.mp ha' with heq' | ha'
    · exact absurd (heq.trans heq'.symm) hne
    · rw [heq]
      exact .inl (ht.bounds ha').1
    · rw [heq']
      exact .inr (ht.bounds ha).1
    · exact ih ht ha ha'

/-- If a number divides all sizes, then it divides the beginning if and only if it does the end. -/
theorem dvd_iff (ht : Tiles size l b e) (hsize : ∀ a ∈ l, d ∣ size a) : d ∣ b ↔ d ∣ e := by
  induction l generalizing b with
  | nil => rw [show b = e from ht]
  | cons a l ih =>
    obtain ⟨rfl, -, ht⟩ := ht
    rw [← ih ht fun x hx => hsize x (List.mem_cons_of_mem a hx),
      Nat.dvd_add_iff_left (hsize a List.mem_cons_self)]

end Tiles

end Foundation
