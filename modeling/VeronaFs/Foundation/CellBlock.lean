import VeronaFs.Foundation.BlockHeap
import VeronaFs.Foundation.BlockChain

/-!
# Cells of blocks

A block has a pointer and cells.  The cells of a chain of blocks are read and written through pointers,
by the operations of any lawful allocator; the lemmas say what this does to the cells in use.
-/

namespace Foundation

variable {σ ε : Type}

/-- A block: the pointer to the block below, and the cells. -/
structure CellBlock (ε : Type) where
  /-- The pointer. -/
  prev : Option ℕ
  /-- The cells. -/
  data : ℕ → Option ε

/-- A block as it is allocated, nothing is written. -/
def CellBlock.uninit : CellBlock ε := ⟨none, fun _ => none⟩

section Accesses

variable (ops : BlockAlloc σ (CellBlock ε)) (N : ℕ)

/-- Read a cell. -/
def loadCell (s : σ) (ptr : ℕ) : Option ε := do
  let block ← ops.read s (ptr / N)
  if ptr % N = 0 then none else block.data (ptr % N - 1)

/-- Write a cell. -/
def storeCell (s : σ) (ptr : ℕ) (item : ε) : Option σ := do
  let block ← ops.read s (ptr / N)
  if ptr % N = 0 then none
  else
    let data := Function.update block.data (ptr % N - 1) (some item)
    ops.write s (ptr / N) { block with data := data }

/-- Read the pointer to the block below. -/
def loadPrev (s : σ) (block : ℕ) : Option ℕ := do (← ops.read s block).prev

/-- Write the pointer to the block below. -/
def storePrev (s : σ) (block prev : ℕ) : Option σ := do
  ops.write s block { (← ops.read s block) with prev := some prev }

end Accesses

/-! ## Contents -/

/-- What is in a cell. -/
def cellAt (N : ℕ) (content : ℕ → Option (CellBlock ε)) (p : ℕ) : Option ε :=
  (content (p / N)).bind fun block => block.data (p % N - 1)

/-- The pointers to the blocks below. -/
def belowOf (content : ℕ → Option (CellBlock ε)) (b : ℕ) : Option ℕ := (content b).bind CellBlock.prev

variable {ops : BlockAlloc σ (CellBlock ε)} {ok : σ → Prop} {own : σ → ℕ → Option (CellBlock ε)}
  {fresh : σ → ℕ → Prop} {content : ℕ → Option (CellBlock ε)} {s : σ} {N z k p q a b : ℕ}
  {bs : List ℕ} {item : ε}

/-- The cells of the other blocks, when a block was changed. -/
theorem cellAt_update_of_notMem {o : Option (CellBlock ε)} (hk : k < N) (hb : b ∉ bs)
    (hq : q ∈ cells N bs k) : cellAt N (Function.update content b o) q = cellAt N content q := by
  have hne : q / N ≠ b := by
    rintro rfl
    exact hb (block_of_mem_cells hk hq).1
  rw [cellAt, Function.update_of_ne hne]
  rfl

/-- The pointers of the other blocks, when a block was changed. -/
theorem belowOf_update_of_ne {o : Option (CellBlock ε)} {b' : ℕ} (hne : b' ≠ b) :
    belowOf (Function.update content b o) b' = belowOf content b' := by
  rw [belowOf, Function.update_of_ne hne]
  rfl

/-- A cell in use is in a block. -/
theorem exists_block_of_mem_cells (h : Linked (belowOf content) N z bs) (hk : k < N)
    (hp : p ∈ cells N bs k) : ∃ block, content (p / N) = some block := by
  obtain ⟨q, hq⟩ := h.exists_below (block_of_mem_cells hk hp).1
  obtain ⟨block, hblock, -⟩ := Option.bind_eq_some_iff.mp hq
  exact ⟨block, hblock⟩

/-! ## Accesses of owned blocks -/

section Lawful

variable (hops : ops.Lawful ok own fresh z) (hok : ok s)
include hops hok

/-- A cell that was written is read. -/
theorem loadCell_eq (hslot : p % N ≠ 0) (hitem : cellAt N (own s) p = some item) :
    loadCell ops N s p = some item := by
  obtain ⟨block, hblock, hdata⟩ := Option.bind_eq_some_iff.mp hitem
  simp only [loadCell, hops.read_eq hok hblock, Option.bind_eq_bind, Option.bind_some, if_neg hslot,
    hdata]

/-- The pointer of an owned block is read. -/
theorem loadPrev_eq (hq : belowOf (own s) b = some q) : loadPrev ops s b = some q := by
  obtain ⟨block, hblock, hprev⟩ := Option.bind_eq_some_iff.mp hq
  simp only [loadPrev, hops.read_eq hok hblock, Option.bind_eq_bind, Option.bind_some, hprev]

/-- A write to a cell of an owned block changes this cell alone. -/
theorem storeCell_spec (hslot : p % N ≠ 0) (hblock : own s (p / N) ≠ none) (item : ε) :
    ∃ s', storeCell ops N s p item = some s' ∧ ok s' ∧
      (∀ q, q % N ≠ 0 → cellAt N (own s') q = if q = p then some item else cellAt N (own s) q) ∧
      belowOf (own s') = belowOf (own s) ∧ ∀ b, own s' b = none ↔ own s b = none := by
  obtain ⟨block, hblock⟩ := Option.ne_none_iff_exists'.mp hblock
  obtain ⟨s', hwrite, hok', hown⟩ := hops.write_spec hok hblock
    { block with data := Function.update block.data (p % N - 1) (some item) }
  refine ⟨s', ?_, hok', fun q hq => ?_, ?_, fun b => ?_⟩
  · simp only [storeCell, hops.read_eq hok hblock, Option.bind_eq_bind, Option.bind_some,
      if_neg hslot, hwrite]
  · rw [cellAt, cellAt, hown, Function.update_apply]
    by_cases hqp : q = p
    · rw [if_pos hqp, hqp, if_pos rfl]
      exact Function.update_self ..
    · rw [if_neg hqp]
      by_cases hdiv : q / N = p / N
      · have hmod : q % N - 1 ≠ p % N - 1 := by
          intro hmod
          have hq' := Nat.div_add_mod q N
          have hp' := Nat.div_add_mod p N
          rw [hdiv] at hq'
          omega
        rw [if_pos hdiv, hdiv, hblock]
        exact Function.update_of_ne hmod ..
      · rw [if_neg hdiv]
  · funext b
    rw [belowOf, belowOf, hown, Function.update_apply]
    split
    · next hb => rw [hb, hblock, Option.bind_some, Option.bind_some]
    · rfl
  · rw [hown, Function.update_apply]
    split
    · next hb => simp [hb, hblock]
    · rfl

/-- The next cell of a chain is written when the top block is not full. -/
theorem storeCell_up (h : BlockChain (belowOf (own s)) N z bs k p) (hk : k + 1 < N) (item : ε) :
    ∃ s', storeCell ops N s (p + 1) item = some s' ∧ ok s' ∧
      BlockChain (belowOf (own s')) N z bs (k + 1) (p + 1) ∧
      cells N bs (k + 1) = (p + 1) :: cells N bs k ∧ p + 1 ∉ cells N bs k ∧
      cellAt N (own s') (p + 1) = some item ∧
      (∀ q ∈ cells N bs k, cellAt N (own s') q = cellAt N (own s) q) ∧
      ∀ b, own s' b = none ↔ own s b = none := by
  have hup := h.up hk
  have hcells := h.cells_up hk
  have hmem : p + 1 ∈ cells N bs (k + 1) := by
    rw [hcells]
    exact List.mem_cons_self
  have hnodup := nodup_cells hk h.linked.nodup
  rw [hcells] at hnodup
  have hnot := (List.nodup_cons.mp hnodup).1
  have hslot := (block_of_mem_cells hk hmem).2
  obtain ⟨block, hblock⟩ := exists_block_of_mem_cells h.linked hk hmem
  obtain ⟨s', hstore, hok', hcell, hbelow, hnone⟩ :=
    storeCell_spec hops hok hslot (Option.ne_none_iff_exists'.mpr ⟨block, hblock⟩) item
  refine ⟨s', hstore, hok', ?_, hcells, hnot, by rw [hcell _ hslot, if_pos rfl], fun q hq => ?_, hnone⟩
  · rw [hbelow]
    exact hup
  · have hne : q ≠ p + 1 := by
      rintro rfl
      exact hnot hq
    rw [hcell q (block_of_mem_cells h.lt hq).2, if_neg hne]

/-- A new block is put on a full one, with its first cell. -/
theorem storeCell_push (h : BlockChain (belowOf (own s)) N z bs k p) (hk : k = N - 1)
    (hfresh : fresh s a) (item : ε) :
    ∃ b s₁ s₂ s₃, ops.alloc s a = some (b, s₁) ∧ storePrev ops s₁ b p = some s₂ ∧
      storeCell ops N s₂ (N * b + 1) item = some s₃ ∧ ok s₃ ∧
      BlockChain (belowOf (own s₃)) N z (b :: bs) 1 (N * b + 1) ∧
      cells N (b :: bs) 1 = (N * b + 1) :: cells N bs k ∧ N * b + 1 ∉ cells N bs k ∧
      cellAt N (own s₃) (N * b + 1) = some item ∧
      (∀ q ∈ cells N bs k, cellAt N (own s₃) q = cellAt N (own s) q) ∧
      ∀ b', own s₃ b' ≠ none → b' = b ∨ own s b' ≠ none := by
  have hone : 1 < N := by
    have hpos := h.pos
    have hlt := h.lt
    omega
  obtain ⟨b, c, s₁, halloc, hok₁, hb, hown₁⟩ := hops.alloc_spec hok hfresh
  have hblock₁ : own s₁ b = some c := by rw [hown₁, Function.update_self]
  have hz : b ≠ z := by
    rintro rfl
    rw [hops.notMem hok₁] at hblock₁
    cases hblock₁
  obtain ⟨s₂, hwrite, hok₂, hown₂⟩ := hops.write_spec hok₁ hblock₁ { c with prev := some p }
  have hprev : storePrev ops s₁ b p = some s₂ := by
    simp only [storePrev, hops.read_eq hok₁ hblock₁, Option.bind_eq_bind, Option.bind_some, hwrite]
  rw [hown₁, Function.update_idem] at hown₂
  have hbs : b ∉ bs := h.linked.notMem (by rw [belowOf, hb]; rfl)
  have hdiv : (N * b + 1) / N = b := block_div hone
  have hslot : (N * b + 1) % N ≠ 0 := by
    rw [block_mod hone]
    exact Nat.one_ne_zero
  have hblock₂ : own s₂ ((N * b + 1) / N) ≠ none := by
    rw [hdiv, hown₂, Function.update_self]
    exact Option.some_ne_none _
  obtain ⟨s₃, hstore, hok₃, hcell, hbelow, hnone⟩ := storeCell_spec hops hok₂ hslot hblock₂ item
  have hnot : N * b + 1 ∉ cells N bs k := fun hmem => hbs (hdiv ▸ (block_of_mem_cells h.lt hmem).1)
  refine ⟨b, s₁, s₂, s₃, halloc, hprev, hstore, hok₃, ?_, ?_, hnot, ?_, fun q hq => ?_,
    fun b' hb' => ?_⟩
  · refine h.push hk hbs hz ?_ fun b' hb' => ?_
    · rw [hbelow, belowOf, hown₂, Function.update_self]
      rfl
    · have hne : b' ≠ b := by
        rintro rfl
        exact hbs hb'
      rw [hbelow, hown₂, belowOf_update_of_ne hne]
  · rw [cells_succ, cells_zero, hk]
  · rw [hcell _ hslot, if_pos rfl]
  · have hne : q ≠ N * b + 1 := by
      rintro rfl
      exact hnot hq
    rw [hcell q (block_of_mem_cells h.lt hq).2, if_neg hne, hown₂, cellAt_update_of_notMem h.lt hbs hq]
  · rw [Ne, hnone, hown₂, Function.update_apply] at hb'
    by_cases hne : b' = b
    · exact Or.inl hne
    · rw [if_neg hne] at hb'
      exact Or.inr hb'

/-- The top block of a chain is deallocated. -/
theorem dealloc_top (h : BlockChain (belowOf (own s)) N z (b :: bs) k p) :
    ∃ q s', belowOf (own s) b = some q ∧ ops.dealloc s b = some s' ∧ ok s' ∧
      BlockChain (belowOf (own s')) N z bs (N - 1) q ∧
      (∀ r ∈ cells N bs (N - 1), cellAt N (own s') r = cellAt N (own s) r) ∧
      ∀ b', own s' b' ≠ none → b' ≠ b ∧ own s b' ≠ none := by
  obtain ⟨q, hq, htail⟩ := h.tail
  obtain ⟨-, hb, -, -⟩ := h.linked
  obtain ⟨block, hblock, -⟩ := Option.bind_eq_some_iff.mp hq
  obtain ⟨s', hdealloc, hok', hown⟩ := hops.dealloc_spec hok hblock
  refine ⟨q, s', hq, hdealloc, hok', htail.congr fun b' hb' => ?_, fun r hr => ?_, fun b' hb' => ?_⟩
  · have hne : b' ≠ b := by
      rintro rfl
      exact hb hb'
    rw [hown, belowOf_update_of_ne hne]
  · rw [hown, cellAt_update_of_notMem htail.lt hb hr]
  · rw [hown, Function.update_apply] at hb'
    by_cases hne : b' = b
    · rw [if_pos hne] at hb'
      exact absurd rfl hb'
    · rw [if_neg hne] at hb'
      exact ⟨hne, hb'⟩

end Lawful

end Foundation
