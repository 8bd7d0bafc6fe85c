import VeronaFs.FileSystem.WriteLoop

/-!
# The contents of a file while behaviours are pending

The bytes of a file are what its blocks will hold once all pending behaviours have run.  `valueAt`
is this byte for a position, read off a configuration by replaying the pending updates of its block.
Running a block behaviour does not change it (`valueAt_run`), so the contents of a file change only
where a request runs on the inode, and there all at once: `valueAt_write` for a write.  With nothing
pending `valueAt` is what the blocks hold.
-/

namespace VeronaFs

open Boc Foundation

/-- The configurations of one regular inode. -/
abbrev FileConfig := Config File FileTask Reply

namespace File

/-- The buffer of a block. -/
def bufOf (f : File) (a : ℕ) : Option Buffer := f.blocks[a]?.bind Block.buf

/-- Replacing a block replaces its buffer. -/
theorem bufOf_setBlock {f : File} {a : ℕ} (ha : a < f.blocks.length) (blk : Block) (a' : ℕ) :
    (f.setBlock a blk).bufOf a' = if a = a' then blk.buf else f.bufOf a' := by
  unfold bufOf setBlock
  rw [List.getElem?_set]
  split
  · simp
  · rfl

/-- The block behind a valid cown. -/
theorem getBlock_eq_ok {f : File} {a : ℕ} {blk : Block} (h : f.getBlock a = .ok blk) :
    a < f.blocks.length ∧ f.bufOf a = blk.buf := by
  unfold getBlock at h
  unfold bufOf
  cases hb : f.blocks[a]? with
  | none => rw [hb] at h; cases h
  | some blk' =>
    rw [hb] at h
    obtain rfl := Except.ok.inj h
    exact ⟨(List.getElem?_eq_some_iff.mp hb).1, rfl⟩

end File

/-- Writing a piece updates the buffer of the block. -/
theorem Wrapper.apply_eq_ok {w : Wrapper} {blk blk' : Block} (h : w.apply blk = .ok blk') :
    blk'.buf = w.update (.block w.ptr) blk.buf := by
  unfold Wrapper.apply Block.write at h
  unfold Wrapper.update
  rw [if_pos rfl]
  cases hb : blk.buf with
  | none => rw [hb] at h; cases h
  | some b =>
    rw [hb] at h
    simp only at h
    split at h
    · rw [← Except.ok.inj h, Option.map_some]
    · cases h

namespace File

/-- Writing a piece into the block behind its cown. -/
theorem setBlock_apply {f : File} {w : Wrapper} {blk blk' : Block}
    (hget : f.getBlock w.ptr = .ok blk) (happly : w.apply blk = .ok blk') (a : ℕ) :
    (f.setBlock w.ptr blk').bufOf a = w.update (.block a) (f.bufOf a) := by
  obtain ⟨hlt, hbuf⟩ := getBlock_eq_ok hget
  rw [bufOf_setBlock hlt]
  by_cases ha : w.ptr = a
  · rw [if_pos ha, ← ha, hbuf]
    exact Wrapper.apply_eq_ok happly
  · rw [if_neg ha, Wrapper.update, if_neg]
    rintro h
    exact ha (FileCown.block.inj h).symm

/-- What a behaviour that does not run on the inode does: it leaves the inode, updates the buffers
by `FileTask.update` and schedules at most a counter behaviour. -/
structure BlockStep (t : FileTask) (f : File) (e : Effect File FileTask Reply) : Prop where
  /-- The inode is left. -/
  inode_eq : e.state.inode = f.inode
  /-- No block is created. -/
  length_eq : e.state.blocks.length = f.blocks.length
  /-- No read buffer is created. -/
  reads_length_eq : e.state.reads.length = f.reads.length
  /-- The buffers are updated. -/
  bufOf_eq : ∀ a, e.state.bufOf a = t.update (.block a) (f.bufOf a)
  /-- A copy out of a block schedules its counter behaviour. -/
  spawned : ∀ t' ∈ e.spawned, ∃ a p, t = .readBlock a p ∧ t' = .count p

/-- The behaviours of blocks and counters do what `BlockStep` says. -/
theorem body_blockStep {t : FileTask} {f : File} {e : Effect File FileTask Reply}
    (ht : ∀ r, t ≠ .inode r) (h : body t f = .ok e) : BlockStep t f e := by
  cases t with
  | inode r => exact absurd rfl (ht r)
  | writeOne w =>
    obtain ⟨blk, hget, h⟩ := bind_eq_ok.mp h
    obtain ⟨blk', happly, h⟩ := bind_eq_ok.mp h
    obtain rfl := Except.ok.inj h
    exact ⟨rfl, by simp [setBlock], rfl, setBlock_apply hget happly, by simp⟩
  | writeTwo w₀ w₁ =>
    obtain ⟨blk₀, hget₀, h⟩ := bind_eq_ok.mp h
    obtain ⟨blk₀', happly₀, h⟩ := bind_eq_ok.mp h
    obtain ⟨blk₁, hget₁, h⟩ := bind_eq_ok.mp h
    obtain ⟨blk₁', happly₁, h⟩ := bind_eq_ok.mp h
    obtain rfl := Except.ok.inj h
    refine ⟨rfl, by simp [setBlock], rfl, fun a => ?_, by simp⟩
    rw [setBlock_apply hget₁ happly₁, setBlock_apply hget₀ happly₀]
    rfl
  | readBlock a p =>
    obtain ⟨blk, hget, h⟩ := bind_eq_ok.mp h
    cases hrb : f.reads[p.counter]? with
    | none => rw [hrb] at h; cases h
    | some rb =>
      rw [hrb] at h
      obtain ⟨bytes, hread, h⟩ := bind_eq_ok.mp h
      obtain rfl := Except.ok.inj h
      exact ⟨rfl, rfl, by simp, fun _ => rfl, by simp⟩
  | count p =>
    simp only [body, countRead] at h
    cases hrb : f.reads[p.counter]? with
    | none => rw [hrb] at h; cases h
    | some rb =>
      rw [hrb] at h
      simp only at h
      split at h
      · split at h
        · obtain rfl := Except.ok.inj h
          exact ⟨rfl, rfl, by simp, fun _ => rfl, by simp⟩
        · obtain rfl := Except.ok.inj h
          exact ⟨rfl, rfl, by simp, fun _ => rfl, by simp⟩
      · obtain rfl := Except.ok.inj h
        exact ⟨rfl, rfl, by simp, fun _ => rfl, by simp⟩
  | freeSpace a =>
    obtain ⟨blk, hget, h⟩ := bind_eq_ok.mp h
    obtain rfl := Except.ok.inj h
    obtain ⟨hlt, hbuf⟩ := getBlock_eq_ok hget
    refine ⟨rfl, by simp [setBlock], rfl, fun a' => ?_, by simp⟩
    rw [bufOf_setBlock hlt, FileTask.update]
    by_cases ha : a = a'
    · simp [ha]
    · rw [if_neg ha, if_neg]
      rintro h
      exact ha (FileCown.block.inj h).symm

end File

/-! ## Replayed contents -/

/-- The buffer a block will have once everything pending has run. -/
def virtualBuf (c : FileConfig) (a : ℕ) : Option Buffer :=
  replay FileTask.update c.pending (.block a) (c.state.bufOf a)

/-- The byte at the position `p` of the file, once everything pending has run: zero where there is
no block, and none where the block has lost its buffer. -/
def valueAt (c : FileConfig) (p : ℕ) : Option UInt8 :=
  match c.state.inode.dataBlocks[blockOf p]? with
  | none => some 0
  | some a => (virtualBuf c a).map (· (slotOf p))

/-- The byte of a position whose block exists. -/
theorem valueAt_of_get? {c : FileConfig} {p a : ℕ}
    (h : c.state.inode.dataBlocks[blockOf p]? = some a) :
    valueAt c p = (virtualBuf c a).map (· (slotOf p)) := by
  simp only [valueAt, h]

/-- The byte of a position that has no block. -/
theorem valueAt_of_get?_eq_none {c : FileConfig} {p : ℕ}
    (h : c.state.inode.dataBlocks[blockOf p]? = none) : valueAt c p = some 0 := by
  simp only [valueAt, h]

/-- The arguments of a wrapper stay inside the block and inside the data. -/
def Wrapper.Fits (w : Wrapper) : Prop :=
  cU64 w.blockOffset + cU64 w.bytesToWrite ≤ BLOCK_SIZE ∧
    cU64 w.bytesWritten + cU64 w.bytesToWrite ≤ w.readBuf.length

/-- The arguments of a behaviour stay inside its block, its data and the buffers of the file. -/
def FileTask.Fits (f : File) : FileTask → Prop
  | .writeOne w => w.Fits
  | .writeTwo w₀ w₁ => w₀.Fits ∧ w₁.Fits
  | .readBlock _ p => p.blockOffset + p.bytesToRead ≤ BLOCK_SIZE ∧ p.counter < f.reads.length
  | .count p => p.counter < f.reads.length
  | _ => True

/-- Arguments stay inside when read buffers are added. -/
theorem FileTask.Fits.mono {f f' : File} {t : FileTask} (h : t.Fits f)
    (hle : f.reads.length ≤ f'.reads.length) : t.Fits f' := by
  cases t with
  | readBlock a p => exact ⟨h.1, h.2.trans_le hle⟩
  | count p => exact lt_of_lt_of_le h hle
  | _ => exact h

/-- The invariant of the configurations of a regular inode: the block map is well formed and pending
behaviours are about blocks and buffers that exist. -/
structure FileInv (c : FileConfig) : Prop where
  /-- The block map is well formed. -/
  wf : c.state.WF
  /-- Pending behaviours are about existing blocks. -/
  bounded : ∀ t ∈ c.pending, ∀ a, FileCown.block a ∈ t.cowns → a < c.state.blocks.length
  /-- The arguments of pending behaviours stay inside. -/
  fits : ∀ t ∈ c.pending, t.Fits c.state

/-- A well-formed file with nothing pending satisfies the invariant. -/
theorem FileInv.of_wf {f : File} (hwf : f.WF) (rs : List Reply) : FileInv ⟨f, [], rs⟩ :=
  ⟨hwf, by simp, by simp⟩

/-- No pending behaviour updates a block that does not exist yet. -/
theorem FileInv.replay_new {c : FileConfig} (hinv : FileInv c) {l : List FileTask}
    (hl : ∀ t ∈ l, t ∈ c.pending) {a : ℕ} (ha : c.state.blocks.length ≤ a) (v : Option Buffer) :
    replay FileTask.update l (.block a) v = v := by
  refine replay_eq_self (fun t ht w => FileTask.localUpdate t _ (fun hmem => ?_) w) v
  exact absurd (hinv.bounded t (hl t ht) a hmem) (by omega)

/-- What block behaviours schedule updates no buffer. -/
theorem File.BlockStep.replay_spawned {t : FileTask} {f : File} {e : Effect File FileTask Reply}
    (h : File.BlockStep t f e) (k : FileCown) (v : Option Buffer) :
    replay FileTask.update e.spawned k v = v := by
  refine replay_eq_self (fun t' ht' w => ?_) v
  obtain ⟨a, p, -, rfl⟩ := h.spawned t' ht'
  rfl

section BlockStep

variable {f : File} {pre post : List FileTask} {rs : List Reply} {t : FileTask}
  {e : Effect File FileTask Reply}

/-- Running a block or counter behaviour leaves what is replayed. -/
theorem virtualBuf_run (hfree : fileSystem.FreeOf pre t) (hstep : File.BlockStep t f e) (a : ℕ) :
    virtualBuf ⟨e.state, pre ++ post ++ e.spawned, rs ++ e.replies⟩ a =
      virtualBuf ⟨f, pre ++ t :: post, rs⟩ a := by
  unfold virtualBuf
  simp only
  rw [replay_append, hstep.replay_spawned, hstep.bufOf_eq,
    replay_run FileTask.localUpdate hfree]

/-- Running a block or counter behaviour leaves the contents of the file. -/
theorem valueAt_run (hfree : fileSystem.FreeOf pre t) (hstep : File.BlockStep t f e) (p : ℕ) :
    valueAt ⟨e.state, pre ++ post ++ e.spawned, rs ++ e.replies⟩ p =
      valueAt ⟨f, pre ++ t :: post, rs⟩ p := by
  unfold valueAt
  simp only [hstep.inode_eq, virtualBuf_run hfree hstep]

/-- Running a block or counter behaviour keeps the invariant. -/
theorem FileInv.blockStep (hinv : FileInv ⟨f, pre ++ t :: post, rs⟩)
    (hstep : File.BlockStep t f e) :
    FileInv ⟨e.state, pre ++ post ++ e.spawned, rs ++ e.replies⟩ where
  wf := by
    constructor
    · rw [hstep.inode_eq, hstep.length_eq]
      exact hinv.wf.bounded
    · rw [hstep.inode_eq]
      exact hinv.wf.injective
  bounded := by
    intro t' ht' a ha
    rw [hstep.length_eq]
    rcases List.mem_append.mp ht' with ht' | ht'
    · refine hinv.bounded t' ?_ a ha
      rcases List.mem_append.mp ht' with ht' | ht' <;> simp [ht']
    · obtain ⟨b, p, -, rfl⟩ := hstep.spawned t' ht'
      simp [FileTask.cowns] at ha
  fits := by
    intro t' ht'
    simp only [List.mem_append] at ht'
    have hle := hstep.reads_length_eq.ge
    rcases ht' with (ht' | ht') | ht'
    · exact (hinv.fits t' (by simp [ht'])).mono hle
    · exact (hinv.fits t' (by simp [ht'])).mono hle
    · obtain ⟨b, p, rfl, rfl⟩ := hstep.spawned t' ht'
      exact ((hinv.fits (.readBlock b p) (by simp)).mono hle).2

end BlockStep

/-! ## Requests on the inode -/

section Inode

variable {ids : ℤ → Prop} {f f' : File} {pending pending' : List FileTask} {rs rs' : List Reply}
  {spawned : List FileTask}

/-- The buffer of a block after growth. -/
theorem File.Grows.bufOf (h : File.Grows ids f f') (a : ℕ) :
    f'.bufOf a = if a < f.blocks.length then f.bufOf a
      else if a < f'.blocks.length then some (fun _ => 0) else none := by
  obtain ⟨ext, hext, hz⟩ := h.appended
  unfold File.bufOf
  rw [hext, List.length_append]
  by_cases ha : a < f.blocks.length
  · rw [if_pos ha, List.getElem?_append_left ha]
  · rw [if_neg ha, List.getElem?_append_right (by omega)]
    by_cases ha' : a < f.blocks.length + ext.length
    · rw [if_pos ha', List.getElem?_eq_getElem (by omega), Option.bind_some]
      exact hz _ (List.getElem_mem _)
    · rw [if_neg ha', List.getElem?_eq_none (by omega), Option.bind_none]

/-- The replayed buffers after a request on the inode that grew the file and scheduled `spawned`:
the new updates are replayed after all pending ones. -/
theorem virtualBuf_grows (hinv : FileInv ⟨f, pending, rs⟩) (hg : File.Grows ids f f')
    (hmem : ∀ t ∈ pending', t ∈ pending)
    (hreplay : ∀ k v, replay FileTask.update pending' k v = replay FileTask.update pending k v)
    {k : ℤ} {a : ℕ} (hmap : f'.inode.dataBlocks[k]? = some a) :
    virtualBuf ⟨f', pending' ++ spawned, rs'⟩ a =
      replay FileTask.update spawned (.block a)
        (if f.inode.dataBlocks[k]? = some a then virtualBuf ⟨f, pending, rs⟩ a
          else some fun _ => 0) := by
  have hwf' := hg.wf hinv.wf
  unfold virtualBuf
  simp only [replay_append]
  congr 1
  rw [hg.bufOf]
  rcases hg.fresh k a hmap with hold | ⟨hnone, -, hle⟩
  · rw [if_pos hold, if_pos (hinv.wf.bounded k a hold), hreplay]
  · rw [if_neg (by omega), if_pos (hwf'.bounded k a hmap), if_neg (by rw [hnone]; simp)]
    exact hinv.replay_new hmem hle _

/-- The contents of the file after a request on the inode that grew the file and scheduled no
update. -/
theorem valueAt_grows (hinv : FileInv ⟨f, pending, rs⟩) (hg : File.Grows ids f f')
    (hmem : ∀ t ∈ pending', t ∈ pending)
    (hreplay : ∀ k v, replay FileTask.update pending' k v = replay FileTask.update pending k v)
    (hspawned : ∀ k v, replay FileTask.update spawned k v = v) (p : ℕ) :
    valueAt ⟨f', pending' ++ spawned, rs'⟩ p = valueAt ⟨f, pending, rs⟩ p := by
  cases hmap : f'.inode.dataBlocks[blockOf p]? with
  | none =>
    have hold : f.inode.dataBlocks[blockOf p]? = none := by
      cases hf : f.inode.dataBlocks[blockOf p]? with
      | none => rfl
      | some a => rw [hg.kept _ _ hf] at hmap; cases hmap
    rw [valueAt_of_get?_eq_none hmap, valueAt_of_get?_eq_none hold]
  | some a =>
    rw [valueAt_of_get? hmap, virtualBuf_grows hinv hg hmem hreplay hmap, hspawned]
    rcases hg.fresh _ _ hmap with hold | ⟨hnone, -, -⟩
    · rw [if_pos hold, valueAt_of_get? hold]
    · rw [if_neg (by rw [hnone]; simp), valueAt_of_get?_eq_none hnone]
      rfl

/-- The contents of the file after a write ran on the inode: a range of at most two blocks has the
bytes of the write, and everything else is as before.  A longer range changes nothing. -/
theorem valueAt_write (hinv : FileInv ⟨f, pending, rs⟩)
    (hmem : ∀ t ∈ pending', t ∈ pending)
    (hreplay : ∀ k v, replay FileTask.update pending' k v = replay FileTask.update pending k v)
    (w : WriteReq) (p : ℕ) :
    valueAt ⟨(f.write w).1, pending' ++ (f.write w).2, rs'⟩ p =
      if w.blocksTouched ≤ 2 then
        (valueAt ⟨f, pending, rs⟩ p).map fun b => (w.byteAt p).getD b
      else valueAt ⟨f, pending, rs⟩ p := by
  by_cases hsmall : w.blocksTouched ≤ 2
  · rw [if_pos hsmall]
    obtain ⟨hg, hcov⟩ := f.write_touched w (WriteReq.end_lt_of_small hsmall).le
    cases hmap : (f.write w).1.inode.dataBlocks[blockOf p]? with
    | none =>
      have hold : f.inode.dataBlocks[blockOf p]? = none := by
        cases hf : f.inode.dataBlocks[blockOf p]? with
        | none => rfl
        | some a => rw [hg.kept _ _ hf] at hmap; cases hmap
      have hbyte : w.byteAt p = none := by
        rw [← Option.not_isSome_iff_eq_none, WriteReq.byteAt_isSome]
        rintro ⟨h₁, h₂⟩
        exact hcov _ ⟨p, h₁, h₂, rfl⟩ hmap
      rw [valueAt_of_get?_eq_none hmap, valueAt_of_get?_eq_none hold, hbyte]
      rfl
    | some a =>
      rw [valueAt_of_get? hmap, virtualBuf_grows hinv hg hmem hreplay hmap,
        File.replay_write hinv.wf hsmall hmap]
      rcases hg.fresh _ _ hmap with hold | ⟨hnone, -, -⟩
      · rw [if_pos hold, valueAt_of_get? hold, Option.map_map]
        rfl
      · rw [if_neg (by rw [hnone]; simp), valueAt_of_get?_eq_none hnone]
        rfl
  · rw [if_neg hsmall, f.write_tasks_of_large hsmall]
    exact valueAt_grows hinv (f.write_grows w) hmem hreplay (fun _ _ => rfl) p

end Inode

end VeronaFs
