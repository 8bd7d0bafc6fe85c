import VeronaFs.Boc.Replay
import VeronaFs.FileSystem.RegInode

/-!
# The block pieces of a write

`RegInode::write` cuts a range of the file into one piece for each block it meets, creates the
blocks that are missing, and hands the pieces to `batch_write`.  This file describes the result of
the loop: `File.Grows` says how the blocks and their map change, and `replay_write` says which byte
of the file the scheduled behaviours write, for a range that meets at most two blocks; for a longer
range `batch_write` schedules nothing (`write_tasks_of_large`).
-/

namespace VeronaFs

open Boc Foundation

/-- The id of the block that holds the position `p` of a file. -/
def blockOf (p : ℕ) : ℤ := ((p / BLOCK_SIZE : ℕ) : ℤ)

/-- The position of `p` inside its block. -/
def slotOf (p : ℕ) : Fin BLOCK_SIZE := ⟨p % BLOCK_SIZE, Nat.mod_lt _ (by decide)⟩

/-- Two positions are in one block when their quotients by the block size agree. -/
theorem blockOf_eq_iff {p q : ℕ} : blockOf p = blockOf q ↔ p / BLOCK_SIZE = q / BLOCK_SIZE := by
  exact Nat.cast_inj

namespace File

/-! ## Growing files -/

/-- The block map enters existing blocks, each under one id. -/
structure WF (f : File) : Prop where
  /-- Every block cown of the map belongs to a block. -/
  bounded : ∀ (k : ℤ) (a : ℕ), f.inode.dataBlocks[k]? = some a → a < f.blocks.length
  /-- No block is entered twice. -/
  injective : ∀ (k k' : ℤ) (a : ℕ),
    f.inode.dataBlocks[k]? = some a → f.inode.dataBlocks[k']? = some a → k = k'

/-- `f'` has the blocks of `f` and new zeroed blocks; the block map has new entries at ids of `ids`,
all of them for new blocks. -/
structure Grows (ids : ℤ → Prop) (f f' : File) : Prop where
  /-- Entries are kept. -/
  kept : ∀ (k : ℤ) (a : ℕ), f.inode.dataBlocks[k]? = some a → f'.inode.dataBlocks[k]? = some a
  /-- New entries are at the given ids and for new blocks. -/
  fresh : ∀ (k : ℤ) (a : ℕ), f'.inode.dataBlocks[k]? = some a →
    f.inode.dataBlocks[k]? = some a ∨
      (f.inode.dataBlocks[k]? = none ∧ ids k ∧ f.blocks.length ≤ a)
  /-- New blocks are appended and zeroed. -/
  appended : ∃ ext : List Block, f'.blocks = f.blocks ++ ext ∧
    ∀ b ∈ ext, b.buf = some fun _ => 0
  /-- The read buffers stay. -/
  reads_eq : f'.reads = f.reads
  /-- The map stays well formed. -/
  wf : f.WF → f'.WF

/-- A file is its own growth. -/
theorem Grows.refl (ids : ℤ → Prop) (f : File) : Grows ids f f :=
  ⟨fun _ _ h => h, fun _ _ h => Or.inl h, ⟨[], by simp, by simp⟩, rfl, id⟩

/-- Growth at more ids is growth. -/
theorem Grows.mono {ids ids' : ℤ → Prop} {f f' : File} (h : Grows ids f f')
    (hids : ∀ k, ids k → ids' k) : Grows ids' f f' :=
  { h with fresh := fun k a hk => (h.fresh k a hk).imp_right fun ⟨h₁, h₂, h₃⟩ => ⟨h₁, hids k h₂, h₃⟩ }

/-- Growth composes. -/
theorem Grows.trans {ids : ℤ → Prop} {f f' f'' : File} (h : Grows ids f f')
    (h' : Grows ids f' f'') : Grows ids f f'' where
  kept k a hk := h'.kept k a (h.kept k a hk)
  fresh k a hk := by
    rcases h'.fresh k a hk with hk' | ⟨hnone, hid, hle⟩
    · exact h.fresh k a hk'
    · right
      refine ⟨?_, hid, ?_⟩
      · cases hf : f.inode.dataBlocks[k]? with
        | none => rfl
        | some b => rw [h.kept k b hf] at hnone; cases hnone
      · obtain ⟨ext, hext, -⟩ := h.appended
        rw [hext, List.length_append] at hle
        omega
  appended := by
    obtain ⟨ext, hext, hz⟩ := h.appended
    obtain ⟨ext', hext', hz'⟩ := h'.appended
    refine ⟨ext ++ ext', by rw [hext', hext, List.append_assoc], fun b hb => ?_⟩
    rcases List.mem_append.mp hb with hb | hb
    · exact hz b hb
    · exact hz' b hb
  reads_eq := h'.reads_eq.trans h.reads_eq
  wf hwf := h'.wf (h.wf hwf)

/-- Growth does not look at the attributes. -/
theorem Grows.congr {ids : ℤ → Prop} {f f' g g' : File} (h : Grows ids f f')
    (hmap : g.inode.dataBlocks = f.inode.dataBlocks) (hblocks : g.blocks = f.blocks)
    (hreads : g.reads = f.reads) (hmap' : g'.inode.dataBlocks = f'.inode.dataBlocks)
    (hblocks' : g'.blocks = f'.blocks) (hreads' : g'.reads = f'.reads) : Grows ids g g' where
  kept k a hk := by rw [hmap'] ; exact h.kept k a (by rwa [← hmap])
  fresh k a hk := by
    rw [hmap, hblocks]
    exact h.fresh k a (by rwa [← hmap'])
  appended := by
    rw [hblocks, hblocks']
    exact h.appended
  reads_eq := by rw [hreads, hreads', h.reads_eq]
  wf hwf := by
    have hwf' := h.wf ⟨by rw [← hmap, ← hblocks]; exact hwf.bounded,
      by rw [← hmap]; exact hwf.injective⟩
    exact ⟨by rw [hmap', hblocks']; exact hwf'.bounded, by rw [hmap']; exact hwf'.injective⟩

/-- Creating a block is growth at its id. -/
theorem emplaceBlock_grows (f : File) (blockId : ℤ) :
    Grows (· = blockId) f (f.emplaceBlock blockId) where
  kept k a hk := by
    simp only [emplaceBlock, StdMap.get?_insertIfNew]
    split
    · next h => rw [h.1, hk] at h; exact absurd h.2 (by simp)
    · exact hk
  fresh k a hk := by
    simp only [emplaceBlock, StdMap.get?_insertIfNew] at hk
    split at hk
    · next h =>
      obtain ⟨rfl, hnone⟩ := h
      exact Or.inr ⟨hnone, rfl, (Option.some.inj hk).le⟩
    · exact Or.inl hk
  appended := ⟨[Block.make blockId], rfl, by simp [Block.make]⟩
  reads_eq := rfl
  wf hwf := by
    constructor
    · intro k a hk
      simp only [emplaceBlock, StdMap.get?_insertIfNew] at hk
      simp only [emplaceBlock, List.length_append, List.length_singleton]
      split at hk
      · exact Nat.lt_succ_of_le (Option.some.inj hk).ge
      · exact Nat.lt_succ_of_lt (hwf.bounded k a hk)
    · intro k k' a hk hk'
      simp only [emplaceBlock, StdMap.get?_insertIfNew] at hk hk'
      split at hk <;> split at hk'
      · next h h' => exact h.1.symm.trans h'.1
      · have := hwf.bounded k' a hk'
        obtain rfl := Option.some.inj hk
        omega
      · have := hwf.bounded k a hk
        obtain rfl := Option.some.inj hk'
        omega
      · exact hwf.injective k k' a hk hk'

/-- After creating a block its id is in the map. -/
theorem emplaceBlock_self (f : File) (blockId : ℤ) :
    (f.emplaceBlock blockId).inode.dataBlocks[blockId]? ≠ none := by
  simp only [emplaceBlock, StdMap.get?_insertIfNew]
  split
  · simp
  · next h => exact fun hnone => h ⟨trivial, hnone⟩

/-- Looking up a block for a write is growth at its id. -/
theorem blockFor_grows (f : File) (blockId : ℤ) :
    Grows (· = blockId) f (f.blockFor blockId).1 := by
  unfold blockFor
  split
  · exact .refl _ _
  · have h := (f.emplaceBlock_grows blockId).trans
      ((f.emplaceBlock blockId).emplaceBlock_grows blockId)
    exact h.congr rfl rfl rfl rfl rfl rfl

/-- The block found for a write is the one the map has afterwards. -/
theorem blockFor_get? (f : File) (blockId : ℤ) :
    (f.blockFor blockId).1.inode.dataBlocks[blockId]? = some (f.blockFor blockId).2 := by
  unfold blockFor
  split
  · next a h => exact h
  · next h =>
    simp only [allocateSpace, emplaceBlock, StdMap.get?_insertIfNew, h, and_self, if_true,
      reduceCtorEq, and_false, if_false]

/-- Looking up a block for a write leaves all attributes but the number of blocks. -/
theorem blockFor_st (f : File) (blockId : ℤ) :
    ∃ n, (f.blockFor blockId).1.st = { f.st with stBlocks := n } := by
  unfold blockFor
  split <;> exact ⟨_, rfl⟩

/-! ## The loop -/

/-- The ids of the blocks that meet the `n` positions from `p` on. -/
def Touched (p n : ℕ) (k : ℤ) : Prop := ∃ q, p ≤ q ∧ q < p + n ∧ blockOf q = k

/-- One round of the loop, at a position that does not overflow. -/
theorem writeLoop_step (f : File) {p rem : ℕ} (o bw : ℕ) (data : List UInt8) (vec : List Wrapper)
    (hp : p = o + bw) (hlt : p < 2 ^ 64) (hrem : rem ≠ 0) :
    f.writeLoop o data bw rem vec =
      (f.blockFor (blockOf p)).1.writeLoop o data (bw + min (BLOCK_SIZE - p % BLOCK_SIZE) rem)
        (rem - min (BLOCK_SIZE - p % BLOCK_SIZE) rem)
        (vec ++ [⟨(f.blockFor (blockOf p)).2, cInt (min (BLOCK_SIZE - p % BLOCK_SIZE) rem : ℕ),
          cInt (p % BLOCK_SIZE : ℕ), cInt bw, data⟩]) := by
  have hpos : cU64 ((o : ℤ) + (bw : ℤ)) = p := by
    rw [cU64_of_lt (by omega) (by omega)]
    omega
  rw [writeLoop, dif_neg hrem]
  simp only [hpos, blockOf]

/-- The loop ends when nothing remains. -/
theorem writeLoop_zero (f : File) (o : ℤ) (data : List UInt8) (bw : ℕ) (vec : List Wrapper) :
    f.writeLoop o data bw 0 vec = (f, vec) := by
  rw [writeLoop, dif_pos rfl]

/-- The loop leaves all attributes but the number of blocks. -/
theorem writeLoop_st (f : File) (o : ℤ) (data : List UInt8) (bw rem : ℕ) (vec : List Wrapper) :
    ∃ n, (f.writeLoop o data bw rem vec).1.st = { f.st with stBlocks := n } := by
  fun_induction writeLoop f o data bw rem vec with
  | case1 => exact ⟨_, rfl⟩
  | case2 f bw rem vec _ pos blockId blockOffset fa n ih =>
    obtain ⟨m, hm⟩ := ih
    obtain ⟨m', hm'⟩ := f.blockFor_st blockId
    exact ⟨m, by rw [hm, hm']⟩

/-- The loop leaves the read buffers and keeps the map well formed, wherever the range lies. -/
theorem writeLoop_grows_any (f : File) (o : ℤ) (data : List UInt8) (bw rem : ℕ)
    (vec : List Wrapper) : Grows (fun _ => True) f (f.writeLoop o data bw rem vec).1 := by
  fun_induction writeLoop f o data bw rem vec with
  | case1 => exact .refl _ _
  | case2 f bw rem vec _ pos blockId blockOffset fa n ih =>
    exact ((f.blockFor_grows blockId).mono fun _ _ => trivial).trans ih

/-- The first piece of a range lies in one block. -/
theorem blockOf_of_mem_piece {p q n : ℕ} (hn : n ≤ BLOCK_SIZE - p % BLOCK_SIZE) (hpq : p ≤ q)
    (hq : q < p + n) : blockOf q = blockOf p := by
  rw [blockOf_eq_iff]
  have hB : BLOCK_SIZE = 4096 := rfl
  rw [hB] at hn ⊢
  omega

/-- The loop creates blocks at the ids its range meets, and only there. -/
theorem writeLoop_grows (data : List UInt8) (o : ℕ) (rem : ℕ) :
    ∀ (f : File) (bw : ℕ) (vec : List Wrapper), o + bw + rem ≤ 2 ^ 64 →
      Grows (Touched (o + bw) rem) f (f.writeLoop o data bw rem vec).1 ∧
        ∀ k, Touched (o + bw) rem k →
          (f.writeLoop o data bw rem vec).1.inode.dataBlocks[k]? ≠ none := by
  induction rem using Nat.strong_induction_on with
  | _ rem ih =>
    intro f bw vec hle
    by_cases hrem : rem = 0
    · subst hrem
      rw [writeLoop_zero]
      refine ⟨.refl _ _, ?_⟩
      rintro k ⟨q, h₁, h₂, -⟩
      omega
    · have hlt : (o + bw) % BLOCK_SIZE < BLOCK_SIZE := Nat.mod_lt _ (by decide)
      rw [writeLoop_step f o bw data vec rfl (by omega) hrem]
      set n := min (BLOCK_SIZE - (o + bw) % BLOCK_SIZE) rem with hn
      have hnpos : 0 < n := by omega
      obtain ⟨hg, hcov⟩ := ih (rem - n) (by omega) (f.blockFor (blockOf (o + bw))).1 (bw + n)
        (vec ++ [⟨(f.blockFor (blockOf (o + bw))).2, cInt n, cInt ((o + bw) % BLOCK_SIZE : ℕ),
          cInt bw, data⟩]) (by omega)
      constructor
      · refine ((f.blockFor_grows _).mono ?_).trans (hg.mono ?_)
        · rintro k rfl
          exact ⟨o + bw, le_rfl, by omega, rfl⟩
        · rintro k ⟨q, h₁, h₂, h₃⟩
          exact ⟨q, by omega, by omega, h₃⟩
      · rintro k ⟨q, h₁, h₂, rfl⟩
        by_cases hq : q < o + bw + n
        · rw [blockOf_of_mem_piece (by omega) h₁ hq]
          have hself := f.blockFor_get? (blockOf (o + bw))
          rw [hg.kept _ _ hself]
          simp
        · exact hcov _ ⟨q, by omega, by omega, rfl⟩

/-- The pieces collected before a round stay in front. -/
theorem writeLoop_vec (f : File) (o : ℤ) (data : List UInt8) (bw rem : ℕ) (vec : List Wrapper) :
    ∃ rest, (f.writeLoop o data bw rem vec).2 = vec ++ rest ∧ (rem ≠ 0 → rest ≠ []) := by
  fun_induction writeLoop f o data bw rem vec with
  | case1 f bw vec => exact ⟨[], by simp, by simp⟩
  | case2 f bw rem vec _ pos blockId blockOffset fa n ih =>
    obtain ⟨rest, hrest, -⟩ := ih
    exact ⟨_, by rw [hrest, List.append_assoc], by simp⟩

end File

/-! ## The behaviours of a write -/

namespace WriteReq

/-- The position of the first byte, as a natural number. -/
def pos (w : WriteReq) : ℕ := w.off.toNat

/-- The number of bytes. -/
def size (w : WriteReq) : ℕ := w.data.length

/-- The number of blocks the range of a write meets. -/
def blocksTouched (w : WriteReq) : ℕ :=
  if w.size = 0 then 0 else (w.pos + w.size - 1) / BLOCK_SIZE - w.pos / BLOCK_SIZE + 1

/-- The position as an `off_t`. -/
theorem off_eq (w : WriteReq) : w.off = (w.pos : ℤ) := (Int.toNat_of_nonneg w.off_nonneg).symm

/-- Positions are below `2 ^ 63`. -/
theorem pos_lt (w : WriteReq) : w.pos < 2 ^ 63 := by
  have := w.off_lt
  have := w.off_eq
  omega

/-- A range meets at most two blocks when it ends with the block after its first one. -/
theorem blocksTouched_le_two {w : WriteReq} :
    w.blocksTouched ≤ 2 ↔ w.size ≤ 2 * BLOCK_SIZE - w.pos % BLOCK_SIZE := by
  have hB : BLOCK_SIZE = 4096 := rfl
  unfold blocksTouched
  rw [hB]
  split <;> omega

/-- The range of a write that meets at most two blocks does not overflow. -/
theorem end_lt_of_small {w : WriteReq} (h : w.blocksTouched ≤ 2) : w.pos + w.size < 2 ^ 64 := by
  have hB : BLOCK_SIZE = 4096 := rfl
  have := blocksTouched_le_two.mp h
  have := w.pos_lt
  omega

/-- The byte a write puts at the position `p`, if its range covers `p`. -/
def byteAt (w : WriteReq) (p : ℕ) : Option UInt8 :=
  if w.pos ≤ p then w.data[p - w.pos]? else none

/-- A write puts a byte at the positions of its range. -/
theorem byteAt_isSome {w : WriteReq} {p : ℕ} :
    (w.byteAt p).isSome ↔ w.pos ≤ p ∧ p < w.pos + w.size := by
  unfold byteAt size
  split
  · next h =>
    simp only [isSome_getElem?, h, true_and]
    omega
  · next h => simp [h]

/-- The byte of a covered position. -/
theorem byteAt_eq_some {w : WriteReq} {p : ℕ} (h : w.pos ≤ p) (h' : p < w.pos + w.size) :
    w.byteAt p = some (w.data.getD (p - w.pos) 0) := by
  unfold byteAt
  unfold size at h'
  have hlt : p - w.pos < w.data.length := by omega
  rw [if_pos h, List.getD_eq_getElem?_getD, List.getElem?_eq_getElem hlt, Option.getD_some]

end WriteReq

/-- The piece of a write at `off` inside the block `a`. -/
def Wrapper.piece (a n off bw : ℕ) (data : List UInt8) : Wrapper :=
  ⟨a, cInt n, cInt off, cInt bw, data⟩

namespace File

/-- The file whose blocks `write` looks up: the one with the new times and size. -/
def touch (f : File) (w : WriteReq) : File :=
  { f with
    inode.iSt :=
      { f.st with
        stCtime := w.now, stMtime := w.now
        stSize := max f.st.stSize (cOff (w.off + w.data.length)) } }

/-- `RegInode::write` in terms of its loop. -/
theorem write_eq (f : File) (w : WriteReq) :
    f.write w = (((f.touch w).writeLoop w.pos w.data 0 w.size []).1,
      batchWrite ((f.touch w).writeLoop w.pos w.data 0 w.size []).2) := by
  rw [write, ← w.off_eq]
  rfl

/-- The pieces of a write: none for an empty range, one for a range inside a block, two for a range
that ends in the next block, and at least three otherwise.  The pieces are for the blocks the map
has after the loop. -/
theorem writeLoop_cases (f : File) (w : WriteReq) :
    (w.size = 0 ∧ f.writeLoop w.pos w.data 0 w.size [] = (f, [])) ∨
    (0 < w.size ∧ w.size ≤ BLOCK_SIZE - w.pos % BLOCK_SIZE ∧
      ∃ a, (f.writeLoop w.pos w.data 0 w.size []).1.inode.dataBlocks[blockOf w.pos]? = some a ∧
        (f.writeLoop w.pos w.data 0 w.size []).2 =
          [.piece a w.size (w.pos % BLOCK_SIZE) 0 w.data]) ∨
    (BLOCK_SIZE - w.pos % BLOCK_SIZE < w.size ∧ w.size ≤ 2 * BLOCK_SIZE - w.pos % BLOCK_SIZE ∧
      ∃ a₀ a₁,
        (f.writeLoop w.pos w.data 0 w.size []).1.inode.dataBlocks[blockOf w.pos]? = some a₀ ∧
        (f.writeLoop w.pos w.data 0 w.size []).1.inode.dataBlocks[blockOf w.pos + 1]? = some a₁ ∧
        (f.writeLoop w.pos w.data 0 w.size []).2 =
          [.piece a₀ (BLOCK_SIZE - w.pos % BLOCK_SIZE) (w.pos % BLOCK_SIZE) 0 w.data,
            .piece a₁ (w.size - (BLOCK_SIZE - w.pos % BLOCK_SIZE)) 0
              (BLOCK_SIZE - w.pos % BLOCK_SIZE) w.data]) ∨
    (2 * BLOCK_SIZE - w.pos % BLOCK_SIZE < w.size ∧
      3 ≤ (f.writeLoop w.pos w.data 0 w.size []).2.length) := by
  have hB : BLOCK_SIZE = 4096 := rfl
  have hpos := w.pos_lt
  have hmod : w.pos % BLOCK_SIZE < BLOCK_SIZE := Nat.mod_lt _ (by decide)
  rcases Nat.eq_zero_or_pos w.size with h0 | h0
  · left
    rw [h0, writeLoop_zero]
    exact ⟨rfl, rfl⟩
  right
  -- the first piece ends with its block or with the range
  have hstep := f.writeLoop_step w.pos 0 w.data [] (add_zero _).symm (by omega)
    h0.ne'
  rcases Nat.lt_or_ge (BLOCK_SIZE - w.pos % BLOCK_SIZE) w.size with h1 | h1
  swap
  · left
    rw [min_eq_right h1, Nat.sub_self, writeLoop_zero] at hstep
    refine ⟨h0, h1, (f.blockFor (blockOf w.pos)).2, ?_, ?_⟩
    · rw [hstep]
      exact f.blockFor_get? _
    · rw [hstep]
      rfl
  right
  set n := BLOCK_SIZE - w.pos % BLOCK_SIZE with hn
  rw [min_eq_left h1.le, Nat.zero_add] at hstep
  have hmod' : (w.pos + n) % BLOCK_SIZE = 0 := by rw [hB] at *; omega
  have hnext : blockOf (w.pos + n) = blockOf w.pos + 1 := by
    simp only [blockOf]
    rw [hB] at *
    omega
  set g := (f.blockFor (blockOf w.pos)).1 with hg
  have hg_get : g.inode.dataBlocks[blockOf w.pos]? = some (f.blockFor (blockOf w.pos)).2 :=
    f.blockFor_get? _
  -- the second piece starts at the beginning of the next block
  rw [g.writeLoop_step w.pos n w.data _ rfl (by omega) (by omega), hmod',
    Nat.sub_zero, hnext] at hstep
  rcases Nat.lt_or_ge BLOCK_SIZE (w.size - n) with h2 | h2
  · right
    rw [min_eq_left h2.le] at hstep
    obtain ⟨rest, hrest, hne⟩ := (g.blockFor (blockOf w.pos + 1)).1.writeLoop_vec w.pos w.data
      (n + BLOCK_SIZE) (w.size - n - BLOCK_SIZE) _
    refine ⟨by omega, ?_⟩
    rw [hstep, hrest]
    have : rest ≠ [] := hne (by omega)
    have := List.length_pos_iff.mpr this
    simp only [List.length_append, List.length_cons, List.length_nil]
    omega
  · left
    rw [min_eq_right h2, Nat.sub_self, writeLoop_zero] at hstep
    refine ⟨h1, by omega, (f.blockFor (blockOf w.pos)).2, (g.blockFor (blockOf w.pos + 1)).2,
      ?_, ?_, ?_⟩
    · rw [hstep]
      exact (g.blockFor_grows _).kept _ _ hg_get
    · rw [hstep]
      exact g.blockFor_get? _
    · rw [hstep]
      rfl

end File

/-! ## The updates of the block behaviours -/

/-- The update of a block behaviour of `batch_write` on the buffer of a cown. -/
def Wrapper.update (w : Wrapper) (k : FileCown) (v : Option Buffer) : Option Buffer :=
  if k = .block w.ptr then
    v.map fun b => b.store w.readBuf (cU64 w.bytesToWrite) (cU64 w.blockOffset)
      (cU64 w.bytesWritten)
  else v

/-- The update of a behaviour on the buffer of a cown.  Behaviours that run on the inode, that copy
out of a block or that count copied bytes update no buffer. -/
def FileTask.update : FileTask → FileCown → Option Buffer → Option Buffer
  | .writeOne w, k, v => w.update k v
  | .writeTwo w₀ w₁, k, v => w₁.update k (w₀.update k v)
  | .freeSpace a, k, v => if k = .block a then none else v
  | _, _, v => v

/-- A behaviour updates the buffers of its own cowns only. -/
theorem FileTask.localUpdate : LocalUpdate FileTask.cowns FileTask.update := by
  intro t k hk v
  cases t with
  | writeOne w =>
    simp only [FileTask.cowns, List.mem_singleton] at hk
    simp [FileTask.update, Wrapper.update, hk]
  | writeTwo w₀ w₁ =>
    simp only [FileTask.cowns, List.mem_cons, List.not_mem_nil, or_false, not_or] at hk
    simp [FileTask.update, Wrapper.update, hk]
  | freeSpace a =>
    simp only [FileTask.cowns, List.mem_singleton] at hk
    simp [FileTask.update, hk]
  | _ => rfl

/-- The update of a piece on its own block. -/
theorem Wrapper.piece_update {a n off bw : ℕ} {data : List UInt8} (hn : n ≤ BLOCK_SIZE)
    (hoff : off ≤ BLOCK_SIZE) (hbw : bw ≤ BLOCK_SIZE) (v : Option Buffer) :
    (Wrapper.piece a n off bw data).update (.block a) v = v.map fun b => b.store data n off bw := by
  have hB : BLOCK_SIZE = 4096 := rfl
  have hn' : cU64 (cInt n) = n := cU64_cInt (by omega)
  have hoff' : cU64 (cInt off) = off := cU64_cInt (by omega)
  have hbw' : cU64 (cInt bw) = bw := cU64_cInt (by omega)
  unfold Wrapper.update
  rw [if_pos (by rfl)]
  dsimp only [Wrapper.piece]
  rw [hn', hoff', hbw']

/-- The byte a piece leaves at a position of its block. -/
theorem Wrapper.piece_update_slot {a n off bw : ℕ} {data : List UInt8} (hn : n ≤ BLOCK_SIZE)
    (hoff : off ≤ BLOCK_SIZE) (hbw : bw ≤ BLOCK_SIZE) (v : Option Buffer) (p : ℕ) :
    ((Wrapper.piece a n off bw data).update (.block a) v).map (· (slotOf p)) =
      v.map fun b =>
        if off ≤ p % BLOCK_SIZE ∧ p % BLOCK_SIZE < off + n then
          data.getD (bw + (p % BLOCK_SIZE - off)) 0
        else b (slotOf p) := by
  rw [Wrapper.piece_update hn hoff hbw, Option.map_map]
  rfl

/-- A piece leaves the blocks of other cowns. -/
theorem Wrapper.piece_update_ne {a a' n off bw : ℕ} {data : List UInt8} (h : a ≠ a')
    (v : Option Buffer) : (Wrapper.piece a n off bw data).update (.block a') v = v := by
  simp [Wrapper.update, Wrapper.piece, h.symm]

namespace File

/-- The map of blocks after a write is that of the loop. -/
theorem write_grows (f : File) (w : WriteReq) : Grows (fun _ => True) f (f.write w).1 := by
  rw [write_eq]
  exact ((f.touch w).writeLoop_grows_any w.pos w.data 0 w.size []).congr rfl rfl rfl rfl rfl rfl

/-- A write that does not overflow creates the blocks its range meets. -/
theorem write_touched (f : File) (w : WriteReq) (hend : w.pos + w.size ≤ 2 ^ 64) :
    Grows (Touched w.pos w.size) f (f.write w).1 ∧
      ∀ k, Touched w.pos w.size k → (f.write w).1.inode.dataBlocks[k]? ≠ none := by
  rw [write_eq]
  obtain ⟨hg, hcov⟩ := writeLoop_grows w.data w.pos w.size (f.touch w) 0 [] hend
  exact ⟨hg.congr rfl rfl rfl rfl rfl rfl, hcov⟩

/-- A write extends the size to the end of its range. -/
theorem write_stSize (f : File) (w : WriteReq) :
    (f.write w).1.st.stSize = max f.st.stSize (cOff (w.off + w.size)) := by
  rw [write_eq]
  obtain ⟨n, hn⟩ := (f.touch w).writeLoop_st w.pos w.data 0 w.size []
  rw [hn]
  rfl

/-- A write leaves the mode. -/
theorem write_stMode (f : File) (w : WriteReq) : (f.write w).1.st.stMode = f.st.stMode := by
  rw [write_eq]
  obtain ⟨n, hn⟩ := (f.touch w).writeLoop_st w.pos w.data 0 w.size []
  rw [hn]
  rfl

/-- Nothing is written for a range that meets three or more blocks. -/
theorem write_tasks_of_large (f : File) {w : WriteReq} (h : ¬ w.blocksTouched ≤ 2) :
    (f.write w).2 = [] := by
  rw [WriteReq.blocksTouched_le_two, not_le] at h
  have hmod : w.pos % BLOCK_SIZE < BLOCK_SIZE := Nat.mod_lt _ (by decide)
  rw [write_eq]
  rcases (f.touch w).writeLoop_cases w with ⟨h0, -⟩ | ⟨-, h1, -⟩ | ⟨-, h2, -⟩ | ⟨-, h3⟩
  · omega
  · omega
  · omega
  · match hvec : ((f.touch w).writeLoop w.pos w.data 0 w.size []).2, h3 with
    | _ :: _ :: _ :: _, _ => simp only [batchWrite]

/-- The behaviours of a write put its bytes at the positions of its range and leave all others. -/
theorem replay_write {f : File} (hwf : f.WF) {w : WriteReq} (hsmall : w.blocksTouched ≤ 2)
    {p a : ℕ} (hmap : (f.write w).1.inode.dataBlocks[blockOf p]? = some a) (v : Option Buffer) :
    (replay FileTask.update (f.write w).2 (.block a) v).map (· (slotOf p)) =
      v.map fun b => (w.byteAt p).getD (b (slotOf p)) := by
  have hB : BLOCK_SIZE = 4096 := rfl
  have hinj := ((f.write_grows w).wf hwf).injective
  have hmod : w.pos % BLOCK_SIZE < BLOCK_SIZE := Nat.mod_lt _ (by decide)
  have hout : ¬ (w.pos ≤ p ∧ p < w.pos + w.size) → w.byteAt p = none := by
    intro h
    rw [← WriteReq.byteAt_isSome, Option.not_isSome_iff_eq_none] at h
    exact h
  rw [WriteReq.blocksTouched_le_two] at hsmall
  rw [write_eq] at hmap hinj ⊢
  simp only at hmap hinj ⊢
  rcases (f.touch w).writeLoop_cases w with ⟨h0, hvec⟩ | ⟨h0, h1, b, hb, hvec⟩ |
    ⟨h1, h2, b₀, b₁, hb₀, hb₁, hvec⟩ | ⟨h2, -⟩
  · rw [hvec, hout (by omega)]
    rfl
  · rw [hvec]
    simp only [batchWrite, replay_cons, replay_nil, FileTask.update]
    by_cases hba : b = a
    · subst hba
      have hpk : blockOf p = blockOf w.pos := hinj _ _ _ hmap hb
      rw [blockOf_eq_iff] at hpk
      rw [Wrapper.piece_update_slot (by omega) (by omega) (by omega)]
      congr 1
      funext v
      rw [hB] at *
      split
      · next h =>
        rw [WriteReq.byteAt_eq_some (by omega) (by omega), Option.getD_some]
        congr 1
        omega
      · next h => rw [hout (by omega), Option.getD_none]
    · rw [Wrapper.piece_update_ne hba, hout]
      · rfl
      · rintro ⟨hp, hp'⟩
        refine hba (Option.some.inj (hb.symm.trans ?_))
        rw [← hmap, blockOf_of_mem_piece h1 hp hp']
  · rw [hvec]
    simp only [batchWrite, replay_cons, replay_nil, FileTask.update]
    have hne : b₀ ≠ b₁ := by
      rintro rfl
      exact absurd (hinj _ _ _ hb₀ hb₁) (by omega)
    by_cases hba₀ : b₀ = a
    · subst hba₀
      have hpk : blockOf p = blockOf w.pos := hinj _ _ _ hmap hb₀
      rw [blockOf_eq_iff] at hpk
      rw [Wrapper.piece_update_ne hne.symm, Wrapper.piece_update_slot (by omega) (by omega)
        (by omega)]
      congr 1
      funext v
      rw [hB] at *
      split
      · next h =>
        rw [WriteReq.byteAt_eq_some (by omega) (by omega), Option.getD_some]
        congr 1
        omega
      · next h => rw [hout (by omega), Option.getD_none]
    · rw [Wrapper.piece_update_ne hba₀]
      by_cases hba₁ : b₁ = a
      · subst hba₁
        have hpk : blockOf p = blockOf w.pos + 1 := hinj _ _ _ hmap hb₁
        simp only [blockOf] at hpk
        rw [Wrapper.piece_update_slot (by omega) (by omega) (by omega)]
        congr 1
        funext v
        rw [hB] at *
        split
        · next h =>
          rw [WriteReq.byteAt_eq_some (by omega) (by omega), Option.getD_some]
          congr 1
          omega
        · next h => rw [hout (by omega), Option.getD_none]
      · rw [Wrapper.piece_update_ne hba₁, hout]
        · rfl
        · rintro ⟨hp, hp'⟩
          by_cases hfirst : p < w.pos + (BLOCK_SIZE - w.pos % BLOCK_SIZE)
          · refine hba₀ (Option.some.inj (hb₀.symm.trans ?_))
            rw [← hmap, blockOf_of_mem_piece le_rfl hp hfirst]
          · refine hba₁ (Option.some.inj (hb₁.symm.trans ?_))
            rw [← hmap]
            congr 1
            simp only [blockOf]
            rw [hB] at *
            omega
  · omega

end File
end VeronaFs
