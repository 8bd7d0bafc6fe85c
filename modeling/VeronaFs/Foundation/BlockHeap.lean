import Mathlib.Data.List.Perm.Lattice
import Mathlib.Data.List.Range
import Mathlib.Logic.Function.Basic

/-!
# Heaps of blocks

A heap numbers its allocations, so that each block that was ever allocated has a number of its own
also when its address is used again.  A read, a write or a deallocation at an address without a block
is `none`, so what finishes touches no deallocated block and frees none twice.

An allocator is given by its four operations.  `BlockAlloc.Lawful` says what its user may rely on: the
user owns the blocks that it got and did not give back, with their contents.
-/

namespace Foundation

variable {σ γ : Type*}

/-- A heap of blocks with contents `γ`. -/
structure BlockHeap (γ : Type*) where
  /-- The blocks by their addresses. -/
  blocks : ℕ → Option γ
  /-- Which allocation the block at an address is. -/
  number : ℕ → ℕ
  /-- The number of allocations. -/
  allocations : ℕ
  /-- The numbers of the blocks that were deallocated. -/
  freed : List ℕ

namespace BlockHeap

variable {h h' : BlockHeap γ} {a b : ℕ} {c : γ}

/-- A heap without blocks. -/
def empty : BlockHeap γ where
  blocks := fun _ => none
  number := fun _ => 0
  allocations := 0
  freed := []

/-- Allocate a block at an address, with what is in its memory. -/
def alloc (h : BlockHeap γ) (a : ℕ) (c : γ) : BlockHeap γ where
  blocks := Function.update h.blocks a (some c)
  number := Function.update h.number a h.allocations
  allocations := h.allocations + 1
  freed := h.freed

/-- Deallocate the block at an address. -/
def dealloc (h : BlockHeap γ) (a : ℕ) : Option (BlockHeap γ) :=
  (h.blocks a).map fun _ =>
    { h with blocks := Function.update h.blocks a none, freed := h.freed ++ [h.number a] }

/-- Write the block at an address. -/
def write (h : BlockHeap γ) (a : ℕ) (c : γ) : Option (BlockHeap γ) :=
  (h.blocks a).map fun _ => { h with blocks := Function.update h.blocks a (some c) }

/-- Every block that was allocated is at one address, or it was deallocated once. -/
structure Sound (h : BlockHeap γ) : Prop where
  /-- Two addresses have different blocks. -/
  number_inj : ∀ a b, h.blocks a ≠ none → h.blocks b ≠ none → h.number a = h.number b → a = b
  /-- The numbers that were deallocated are different. -/
  freed_nodup : h.freed.Nodup
  /-- A block is on the heap or deallocated. -/
  lt_iff : ∀ k, k < h.allocations ↔ k ∈ h.freed ∨ ∃ a, h.blocks a ≠ none ∧ h.number a = k
  /-- It is not both. -/
  notMem_freed : ∀ a, h.blocks a ≠ none → h.number a ∉ h.freed

/-- The heap without blocks. -/
theorem Sound.empty : (empty : BlockHeap γ).Sound where
  number_inj _ _ ha := absurd rfl ha
  freed_nodup := List.nodup_nil
  lt_iff k := by simp [BlockHeap.empty]
  notMem_freed _ ha := absurd rfl ha

/-- An allocation at a free address. -/
theorem Sound.alloc (h : h'.Sound) (ha : h'.blocks a = none) (c : γ) : (h'.alloc a c).Sound := by
  have hlt (b : ℕ) (hb : h'.blocks b ≠ none) : h'.number b < h'.allocations :=
    (h.lt_iff _).mpr (Or.inr ⟨b, hb, rfl⟩)
  constructor
  · intro b b' hb hb' hnumber
    simp only [BlockHeap.alloc, Function.update_apply] at hb hb' hnumber
    by_cases hba : b = a <;> by_cases hba' : b' = a
    · rw [hba, hba']
    · rw [if_neg hba'] at hb'
      rw [if_pos hba, if_neg hba'] at hnumber
      exact absurd hnumber.symm (hlt b' hb').ne
    · rw [if_neg hba] at hb
      rw [if_neg hba, if_pos hba'] at hnumber
      exact absurd hnumber (hlt b hb).ne
    · rw [if_neg hba] at hb
      rw [if_neg hba'] at hb'
      rw [if_neg hba, if_neg hba'] at hnumber
      exact h.number_inj b b' hb hb' hnumber
  · exact h.freed_nodup
  · intro k
    have hsplit : k < (h'.alloc a c).allocations ↔ k < h'.allocations ∨ k = h'.allocations :=
      Nat.lt_succ_iff_lt_or_eq
    rw [hsplit, h.lt_iff, or_assoc]
    refine or_congr Iff.rfl ⟨?_, ?_⟩
    · rintro (⟨b, hb, rfl⟩ | rfl)
      · have hne : b ≠ a := by
          rintro rfl
          exact hb ha
        exact ⟨b, by simpa [BlockHeap.alloc, hne] using hb, by simp [BlockHeap.alloc, hne]⟩
      · exact ⟨a, by simp [BlockHeap.alloc], by simp [BlockHeap.alloc]⟩
    · rintro ⟨b, hb, rfl⟩
      rcases eq_or_ne b a with rfl | hne
      · exact Or.inr (by simp [BlockHeap.alloc])
      · exact Or.inl ⟨b, by simpa [BlockHeap.alloc, hne] using hb, by simp [BlockHeap.alloc, hne]⟩
  · intro b hb hmem
    rcases eq_or_ne b a with rfl | hne
    · have hlast : (h'.alloc b c).number b = h'.allocations := Function.update_self ..
      rw [hlast] at hmem
      exact absurd ((h.lt_iff _).mpr (Or.inl hmem)) (Nat.lt_irrefl _)
    · simp only [BlockHeap.alloc, Function.update_of_ne hne] at hb hmem
      exact h.notMem_freed b hb hmem

/-- A deallocation. -/
theorem Sound.dealloc (h : h'.Sound) (ha : h'.blocks a = some c) :
    ∃ h'', h'.dealloc a = some h'' ∧ h''.Sound ∧ h''.blocks = Function.update h'.blocks a none := by
  have hlive : h'.blocks a ≠ none := by simp [ha]
  have hleft (b : ℕ) (hb : Function.update h'.blocks a none b ≠ none) : b ≠ a ∧ h'.blocks b ≠ none := by
    rcases eq_or_ne b a with rfl | hne
    · simp at hb
    · exact ⟨hne, by simpa [hne] using hb⟩
  refine ⟨_, by rw [BlockHeap.dealloc, ha]; rfl, ?_, rfl⟩
  constructor
  · intro b b' hb hb'
    exact h.number_inj b b' (hleft b hb).2 (hleft b' hb').2
  · rw [List.nodup_append]
    refine ⟨h.freed_nodup, List.nodup_singleton _, fun k hk k' hk' => ?_⟩
    obtain rfl := List.mem_singleton.mp hk'
    rintro rfl
    exact h.notMem_freed a hlive hk
  · intro k
    rw [h.lt_iff, List.mem_append, List.mem_singleton, or_assoc]
    refine or_congr Iff.rfl ⟨?_, ?_⟩
    · rintro ⟨b, hb, rfl⟩
      rcases eq_or_ne b a with rfl | hne
      · exact Or.inl rfl
      · exact Or.inr ⟨b, by simpa [hne] using hb, rfl⟩
    · rintro (rfl | ⟨b, hb, rfl⟩)
      · exact ⟨a, hlive, rfl⟩
      · exact ⟨b, (hleft b hb).2, rfl⟩
  · intro b hb hmem
    obtain ⟨hne, hb'⟩ := hleft b hb
    rcases List.mem_append.mp hmem with hmem | hmem
    · exact h.notMem_freed b hb' hmem
    · exact hne (h.number_inj _ _ hb' hlive (List.mem_singleton.mp hmem))

/-- A write. -/
theorem Sound.write (h : h'.Sound) (ha : h'.blocks a = some c) (c' : γ) :
    ∃ h'', h'.write a c' = some h'' ∧ h''.Sound ∧
      h''.blocks = Function.update h'.blocks a (some c') := by
  have hlive (b : ℕ) : Function.update h'.blocks a (some c') b ≠ none ↔ h'.blocks b ≠ none := by
    rcases eq_or_ne b a with rfl | hne
    · simp [ha]
    · simp [hne]
  refine ⟨_, by rw [BlockHeap.write, ha]; rfl, ?_, rfl⟩
  constructor
  · intro b b' hb hb'
    exact h.number_inj b b' ((hlive b).mp hb) ((hlive b').mp hb')
  · exact h.freed_nodup
  · intro k
    simp only [hlive]
    exact h.lt_iff k
  · intro b hb
    exact h.notMem_freed b ((hlive b).mp hb)

/-- When no block is left, every block that was allocated was deallocated exactly once. -/
theorem Sound.freed_perm (h : h'.Sound) (hnone : ∀ a, h'.blocks a = none) :
    h'.freed.Perm (List.range h'.allocations) := by
  rw [List.perm_ext_iff_of_nodup h.freed_nodup List.nodup_range]
  intro k
  rw [List.mem_range, h.lt_iff]
  simp [hnone]

end BlockHeap

/-! ## Allocators -/

/-- The operations of an allocator with states `σ`, for blocks with contents `γ`.  An allocation gets
the address that the heap below would use for a new block. -/
structure BlockAlloc (σ γ : Type*) where
  /-- Allocate a block. -/
  alloc : σ → ℕ → Option (ℕ × σ)
  /-- Deallocate a block. -/
  dealloc : σ → ℕ → Option σ
  /-- Read a block. -/
  read : σ → ℕ → Option γ
  /-- Write a block. -/
  write : σ → ℕ → γ → Option σ

/-- The allocator hands out blocks that the user does not own and keeps what the user owns, never the
block `z`.  `ok` is its invariant, `fresh` says that an address is free below. -/
structure BlockAlloc.Lawful (ops : BlockAlloc σ γ) (ok : σ → Prop) (own : σ → ℕ → Option γ)
    (fresh : σ → ℕ → Prop) (z : ℕ) : Prop where
  /-- The block `z` is not owned. -/
  notMem : ∀ {s}, ok s → own s z = none
  /-- An owned block is read. -/
  read_eq : ∀ {s b c}, ok s → own s b = some c → ops.read s b = some c
  /-- An owned block is written. -/
  write_spec : ∀ {s b c}, ok s → own s b = some c → ∀ c', ∃ s', ops.write s b c' = some s' ∧ ok s' ∧
    own s' = Function.update (own s) b (some c')
  /-- A block is allocated. -/
  alloc_spec : ∀ {s a}, ok s → fresh s a → ∃ b c s', ops.alloc s a = some (b, s') ∧ ok s' ∧
    own s b = none ∧ own s' = Function.update (own s) b (some c)
  /-- An owned block is deallocated. -/
  dealloc_spec : ∀ {s b c}, ok s → own s b = some c → ∃ s', ops.dealloc s b = some s' ∧ ok s' ∧
    own s' = Function.update (own s) b none

/-- The allocator of a heap.  A new block is not initialised and contains `init`. -/
def heapAlloc (init : γ) : BlockAlloc (BlockHeap γ) γ where
  alloc h a := some (a, h.alloc a init)
  dealloc h b := h.dealloc b
  read h b := h.blocks b
  write h b c := h.write b c

/-- The blocks of the heap are allocated and deallocated right, and the block `z` is not on it. -/
structure HeapOk (z : ℕ) (h : BlockHeap γ) : Prop where
  /-- Every block is on the heap or was deallocated once. -/
  sound : h.Sound
  /-- The block is not one of them. -/
  notMem : h.blocks z = none

/-- An address is free, and it is not that of the block `z`. -/
def HeapFresh (z : ℕ) (h : BlockHeap γ) (a : ℕ) : Prop := h.blocks a = none ∧ a ≠ z

/-- The user of a heap owns its blocks. -/
theorem heapAlloc_lawful (init : γ) (z : ℕ) :
    (heapAlloc init).Lawful (HeapOk z) BlockHeap.blocks (HeapFresh z) z where
  notMem hok := hok.notMem
  read_eq _ hb := hb
  write_spec {h b c} hok hb c' := by
    obtain ⟨h', hwrite, hsound, hblocks⟩ := hok.sound.write hb c'
    have hne : z ≠ b := by
      rintro rfl
      exact Option.some_ne_none _ (hb.symm.trans hok.notMem)
    exact ⟨h', hwrite, ⟨hsound, by rw [hblocks, Function.update_of_ne hne, hok.notMem]⟩, hblocks⟩
  alloc_spec {h a} hok hfresh :=
    ⟨a, init, _, rfl, ⟨hok.sound.alloc hfresh.1 init, by
      simp only [BlockHeap.alloc, Function.update_of_ne hfresh.2.symm, hok.notMem]⟩,
      hfresh.1, rfl⟩
  dealloc_spec {h b c} hok hb := by
    obtain ⟨h', hdealloc, hsound, hblocks⟩ := hok.sound.dealloc hb
    refine ⟨h', hdealloc, ⟨hsound, ?_⟩, hblocks⟩
    rw [hblocks, Function.update_apply, hok.notMem, ite_self]

end Foundation
