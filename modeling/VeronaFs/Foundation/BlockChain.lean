import Mathlib.Data.List.Basic
import Mathlib.Data.List.Nodup

/-!
# Chains of blocks

A block has `N` slots.  A pointer to a slot is the number of the block times `N` and the number of the
slot in it, so that the block and the slot are the quotient and the remainder.  Slot zero has the
pointer to the last slot of the block below, the other slots are cells.  The lowest block points to
the last slot of a block `z` that is not a part of the chain.

A chain is filled up to a pointer into its top block: all cells of the lower blocks and the cells of
the top block up to the pointer are in use.
-/

namespace Foundation

variable {N z b k p : ℕ} {bs : List ℕ} {below below' : ℕ → Option ℕ}

/-! ## Cells -/

/-- The pointer to the last slot of a block. -/
def lastSlot (N b : ℕ) : ℕ := N * b + (N - 1)

/-- The top block, or the one that stands for the empty chain. -/
def topBlock (z : ℕ) (bs : List ℕ) : ℕ := bs.headD z

/-- The cells of a block up to a slot, from the top. -/
def slots (N b : ℕ) : ℕ → List ℕ
  | 0 => []
  | k + 1 => (N * b + (k + 1)) :: slots N b k

/-- The cells in use when the top block is filled up to a slot, from the top. -/
def cells (N : ℕ) : List ℕ → ℕ → List ℕ
  | [], _ => []
  | b :: bs, k => slots N b k ++ cells N bs (N - 1)

/-- The block of a pointer. -/
theorem block_div (hk : k < N) : (N * b + k) / N = b := by
  rw [Nat.mul_add_div (Nat.zero_lt_of_lt hk), Nat.div_eq_of_lt hk, Nat.add_zero]

/-- The slot of a pointer. -/
theorem block_mod (hk : k < N) : (N * b + k) % N = k := by
  rw [Nat.mul_add_mod, Nat.mod_eq_of_lt hk]

/-- The cells of a block. -/
theorem mem_slots : p ∈ slots N b k ↔ ∃ j, 0 < j ∧ j ≤ k ∧ p = N * b + j := by
  induction k with
  | zero =>
    simp only [slots, List.not_mem_nil, false_iff]
    rintro ⟨j, hpos, hle, -⟩
    omega
  | succ k ih =>
    rw [slots, List.mem_cons, ih]
    constructor
    · rintro (rfl | ⟨j, hpos, hle, rfl⟩)
      · exact ⟨k + 1, Nat.succ_pos k, Nat.le_refl _, rfl⟩
      · exact ⟨j, hpos, Nat.le_succ_of_le hle, rfl⟩
    · rintro ⟨j, hpos, hle, rfl⟩
      rcases Nat.eq_or_lt_of_le hle with rfl | hlt
      · exact Or.inl rfl
      · exact Or.inr ⟨j, hpos, Nat.le_of_lt_succ hlt, rfl⟩

/-- A cell in use is in a block of the chain, and it is not its first slot. -/
theorem block_of_mem_cells (hk : k < N) (hp : p ∈ cells N bs k) : p / N ∈ bs ∧ p % N ≠ 0 := by
  induction bs generalizing k with
  | nil => exact absurd hp List.not_mem_nil
  | cons b bs ih =>
    rcases List.mem_append.mp hp with hp | hp
    · obtain ⟨j, hpos, hle, rfl⟩ := mem_slots.mp hp
      have hj : j < N := Nat.lt_of_le_of_lt hle hk
      rw [block_div hj, block_mod hj]
      exact ⟨List.mem_cons_self, Nat.ne_of_gt hpos⟩
    · obtain ⟨hmem, hslot⟩ := ih (Nat.sub_one_lt_of_lt hk) hp
      exact ⟨List.mem_cons_of_mem b hmem, hslot⟩

/-- A cell of a block that is used up to a slot. -/
theorem slot_le_of_mem_cells (hk : k < N) (hb : b ∉ bs) (hp : p ∈ cells N (b :: bs) k)
    (hpb : p / N = b) : p % N ≤ k := by
  rcases List.mem_append.mp hp with hp | hp
  · obtain ⟨j, -, hle, rfl⟩ := mem_slots.mp hp
    rwa [block_mod (Nat.lt_of_le_of_lt hle hk)]
  · have hmem := (block_of_mem_cells (Nat.sub_one_lt_of_lt hk) hp).1
    rw [hpb] at hmem
    exact absurd hmem hb

/-- The cells in use are different. -/
theorem nodup_cells (hk : k < N) (hbs : bs.Nodup) : (cells N bs k).Nodup := by
  induction bs generalizing k with
  | nil => exact List.nodup_nil
  | cons b bs ih =>
    obtain ⟨hb, hrest⟩ := List.nodup_cons.mp hbs
    induction k with
    | zero => exact ih (Nat.sub_one_lt_of_lt hk) hrest
    | succ k ihk =>
      have hk' : k < N := Nat.lt_of_succ_lt hk
      refine List.nodup_cons.mpr ⟨fun hmem => ?_, ihk hk'⟩
      have hle := slot_le_of_mem_cells hk' hb hmem (block_div hk)
      rw [block_mod hk] at hle
      omega

/-! ## Chains -/

/-- The blocks are linked from the top by the pointers in their first slots, which are `below`. -/
def Linked (below : ℕ → Option ℕ) (N z : ℕ) : List ℕ → Prop
  | [] => True
  | b :: bs => b ≠ z ∧ b ∉ bs ∧ below b = some (lastSlot N (topBlock z bs)) ∧ Linked below N z bs

/-- Blocks that keep their first slots stay linked. -/
theorem Linked.congr (h : Linked below N z bs) (hbelow : ∀ b ∈ bs, below' b = below b) :
    Linked below' N z bs := by
  induction bs with
  | nil => trivial
  | cons b bs ih =>
    obtain ⟨hz, hb, hptr, hrest⟩ := h
    exact ⟨hz, hb, (hbelow b List.mem_cons_self).trans hptr,
      ih hrest fun b hb => hbelow b (List.mem_cons_of_mem _ hb)⟩

/-- Linked blocks are different. -/
theorem Linked.nodup (h : Linked below N z bs) : bs.Nodup := by
  induction bs with
  | nil => exact List.nodup_nil
  | cons b bs ih => exact List.nodup_cons.mpr ⟨h.2.1, ih h.2.2.2⟩

/-- Linked blocks have pointers. -/
theorem Linked.exists_below (h : Linked below N z bs) (hb : b ∈ bs) : ∃ q, below b = some q := by
  induction bs with
  | nil => exact absurd hb List.not_mem_nil
  | cons b' bs ih =>
    rcases List.mem_cons.mp hb with rfl | hb
    · exact ⟨_, h.2.2.1⟩
    · exact ih h.2.2.2 hb

/-- A block without a pointer is not linked. -/
theorem Linked.notMem (h : Linked below N z bs) (hb : below b = none) : b ∉ bs := by
  intro hmem
  obtain ⟨q, hq⟩ := h.exists_below hmem
  exact Option.some_ne_none q (hq.symm.trans hb)

/-- A pointer to the slot `k` of the top block of a chain.  The empty chain is a full block. -/
structure BlockChain (below : ℕ → Option ℕ) (N z : ℕ) (bs : List ℕ) (k p : ℕ) : Prop where
  /-- The blocks are linked. -/
  linked : Linked below N z bs
  /-- The pointer. -/
  ptr_eq : p = N * topBlock z bs + k
  /-- A cell of the top block is in use. -/
  pos : 0 < k
  /-- The slot is one of the block. -/
  lt : k < N
  /-- The empty chain is full. -/
  full : bs = [] → k = N - 1

namespace BlockChain

/-- The chain without blocks. -/
theorem nil (hN : 1 < N) : BlockChain below N z [] (N - 1) (lastSlot N z) :=
  ⟨trivial, rfl, by omega, by omega, fun _ => rfl⟩

section

variable (h : BlockChain below N z bs k p)
include h

/-- The block of the pointer. -/
theorem div_eq : p / N = topBlock z bs := by
  rw [h.ptr_eq, block_div h.lt]

/-- The slot of the pointer. -/
theorem mod_eq : p % N = k := by
  rw [h.ptr_eq, block_mod h.lt]

/-- The pointer into the block `z` is that of the empty chain. -/
theorem eq_lastSlot_iff : p = lastSlot N z ↔ bs = [] := by
  constructor
  · intro hp
    have htop := h.div_eq
    have hlt : N - 1 < N := Nat.sub_one_lt_of_lt h.lt
    rw [hp, lastSlot, block_div hlt] at htop
    cases bs with
    | nil => rfl
    | cons b bs => exact absurd htop.symm h.linked.1
  · rintro rfl
    rw [h.ptr_eq, h.full rfl]
    rfl

/-- The slot below the pointer. -/
theorem pred_mod_eq : (p - 1) % N = k - 1 := by
  have hpos := h.pos
  have hlt := h.lt
  have hp : p - 1 = N * topBlock z bs + (k - 1) := by
    have hptr := h.ptr_eq
    omega
  rw [hp, block_mod (by omega)]

/-- One more cell of the top block. -/
theorem up (hk : k + 1 < N) : BlockChain below N z bs (k + 1) (p + 1) where
  linked := h.linked
  ptr_eq := by rw [h.ptr_eq, Nat.add_assoc]
  pos := Nat.succ_pos k
  lt := hk
  full hbs := by
    have hfull := h.full hbs
    omega

/-- A cell of the top block less. -/
theorem down (hbs : bs ≠ []) (hk : 1 < k) : BlockChain below N z bs (k - 1) (p - 1) where
  linked := h.linked
  ptr_eq := by
    have hp := h.ptr_eq
    omega
  pos := by omega
  lt := by
    have hlt := h.lt
    omega
  full hnil := absurd hnil hbs

/-- Blocks that keep their first slots. -/
theorem congr (hbelow : ∀ b ∈ bs, below' b = below b) : BlockChain below' N z bs k p :=
  ⟨h.linked.congr hbelow, h.ptr_eq, h.pos, h.lt, h.full⟩

/-- A new block on a full one. -/
theorem push (hk : k = N - 1) (hb : b ∉ bs) (hz : b ≠ z) (hptr : below' b = some p)
    (hbelow : ∀ b ∈ bs, below' b = below b) :
    BlockChain below' N z (b :: bs) 1 (N * b + 1) where
  linked := by
    refine ⟨hz, hb, ?_, h.linked.congr hbelow⟩
    rw [hptr, h.ptr_eq, hk]
    rfl
  ptr_eq := rfl
  pos := Nat.one_pos
  lt := by
    have hpos := h.pos
    have hlt := h.lt
    omega
  full hnil := absurd hnil (List.cons_ne_nil b bs)

end

/-- The chain below the top block. -/
theorem tail (h : BlockChain below N z (b :: bs) k p) :
    ∃ q, below b = some q ∧ BlockChain below N z bs (N - 1) q := by
  obtain ⟨-, -, hptr, hrest⟩ := h.linked
  have hpos := h.pos
  have hlt := h.lt
  exact ⟨_, hptr, hrest, rfl, by omega, by omega, fun _ => rfl⟩

end BlockChain

/-- The cells in use, when one more is. -/
theorem cells_succ (N b k : ℕ) (bs : List ℕ) :
    cells N (b :: bs) (k + 1) = (N * b + (k + 1)) :: cells N (b :: bs) k := rfl

/-- The cells in use, when the top block has none. -/
theorem cells_zero (N b : ℕ) (bs : List ℕ) : cells N (b :: bs) 0 = cells N bs (N - 1) := rfl

/-- The cells in use begin with that of the pointer. -/
theorem BlockChain.cells_eq (h : BlockChain below N z (b :: bs) k p) :
    cells N (b :: bs) k = p :: cells N (b :: bs) (k - 1) := by
  obtain ⟨j, rfl⟩ := Nat.exists_eq_add_of_lt h.pos
  have hp : p = N * b + (j + 1) := by
    rw [h.ptr_eq, Nat.zero_add]
    rfl
  rw [Nat.zero_add, cells_succ, hp]
  rfl

/-- One more cell of the top block is a cell in use. -/
theorem BlockChain.cells_up (h : BlockChain below N z bs k p) (hk : k + 1 < N) :
    cells N bs (k + 1) = (p + 1) :: cells N bs k := by
  cases bs with
  | nil =>
    have hfull := h.full rfl
    omega
  | cons b bs => exact (h.up hk).cells_eq

/-- The empty chain has no cells in use. -/
theorem BlockChain.cells_eq_nil_iff (h : BlockChain below N z bs k p) : cells N bs k = [] ↔ bs = [] := by
  cases bs with
  | nil => simp [cells]
  | cons b bs => simp [h.cells_eq]

end Foundation
