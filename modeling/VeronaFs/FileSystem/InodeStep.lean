import VeronaFs.FileSystem.Content

/-!
# What a request does to its inode

The behaviour a request schedules on a regular inode writes, reads, truncates, reserves blocks, or
leaves the data of the file.  `RequestStep` lists these cases once, with everything later modules
need to know: the blocks and their map, the size, and the block behaviours that are scheduled.
-/

namespace VeronaFs

open Boc Foundation

/-! ## Truncation -/

/-- The two files have the same blocks, block map and read buffers. -/
structure File.SameData (f f' : File) : Prop where
  /-- The block map is the same. -/
  map_eq : f'.inode.dataBlocks = f.inode.dataBlocks
  /-- The blocks are the same. -/
  blocks_eq : f'.blocks = f.blocks
  /-- The read buffers are the same. -/
  reads_eq : f'.reads = f.reads

namespace File

/-- A file has its own data. -/
theorem SameData.refl (f : File) : SameData f f := ⟨rfl, rfl, rfl⟩

/-- Having the same data is growth. -/
theorem SameData.grows {f f' : File} (h : SameData f f') (ids : ℤ → Prop) : Grows ids f f' :=
  (Grows.refl ids f).congr rfl rfl rfl h.map_eq h.blocks_eq h.reads_eq

/-- The release of the blocks of some entries of a block map. -/
def releases (entries : List (ℤ × ℕ)) : List FileTask := entries.map fun e => .freeSpace e.2

/-- The walk of `truncate` runs to the end and releases every entry on its way. -/
theorem freeWalk_eq (entries : List (ℤ × ℕ)) : freeWalk entries = (releases entries, []) := by
  induction entries with
  | nil => rfl
  | cons e entries ih => rw [freeWalk, ih]; rfl

/-- What a truncation to `n` does to the data of a file and the releases it schedules. -/
inductive Truncates (n : ℤ) (f : File) : File → List FileTask → Prop
  /-- The size is the one the file has. -/
  | same {f' : File} (hdata : SameData f f') (hold : f.st.stSize = n) (hsize : f'.st.stSize = n) :
      Truncates n f f' []
  /-- All blocks are released and taken out of the map. -/
  | clear {f' : File} (hn : n = 0) (hold : f.st.stSize ≠ 0) (hmap : f'.inode.dataBlocks = ∅)
      (hblocks : f'.blocks = f.blocks) (hreads : f'.reads = f.reads) (hsize : f'.st.stSize = 0) :
      Truncates n f f' (releases f.inode.dataBlocks.toList)
  /-- The blocks after the one of `n` are released and stay in the map. -/
  | shrink {f' : File} (hn : n ≠ 0) (hlt : n < f.st.stSize) (hdata : SameData f f')
      (hsize : f'.st.stSize = n) :
      Truncates n f f' (releases (StdMap.afterKey f.inode.dataBlocks (n.tdiv BLOCK_SIZE)))
  /-- Missing blocks are created. -/
  | extend {f' : File} (hlt : f.st.stSize < n) (hgrows : Grows (fun _ => True) f f')
      (hsize : 0 < n → f'.st.stSize = n) : Truncates n f f' []

/-- Truncation does not look at attributes other than the size. -/
theorem Truncates.congr {n : ℤ} {f f' g g' : File} {tasks : List FileTask}
    (h : Truncates n f f' tasks) (hdata : SameData f g) (hsize : g.st.stSize = f.st.stSize)
    (hdata' : SameData f' g') (hsize' : g'.st.stSize = f'.st.stSize) : Truncates n g g' tasks := by
  cases h with
  | same hd hold hs =>
    refine .same ⟨?_, ?_, ?_⟩ (by rw [hsize, hold]) (by rw [hsize', hs])
    · rw [hdata'.map_eq, hd.map_eq, hdata.map_eq]
    · rw [hdata'.blocks_eq, hd.blocks_eq, hdata.blocks_eq]
    · rw [hdata'.reads_eq, hd.reads_eq, hdata.reads_eq]
  | clear hn hold hmap hblocks hreads hs =>
    rw [← hdata.map_eq]
    refine .clear hn (by rwa [hsize]) ?_ ?_ ?_ (by rw [hsize', hs])
    · rw [hdata'.map_eq, hmap]
    · rw [hdata'.blocks_eq, hblocks, hdata.blocks_eq]
    · rw [hdata'.reads_eq, hreads, hdata.reads_eq]
  | shrink hn hlt hd hs =>
    rw [← hdata.map_eq]
    refine .shrink hn (by rwa [hsize]) ⟨?_, ?_, ?_⟩ (by rw [hsize', hs])
    · rw [hdata'.map_eq, hd.map_eq, hdata.map_eq]
    · rw [hdata'.blocks_eq, hd.blocks_eq, hdata.blocks_eq]
    · rw [hdata'.reads_eq, hd.reads_eq, hdata.reads_eq]
  | extend hlt hg hs =>
    exact .extend (by rwa [hsize])
      (hg.congr hdata.map_eq hdata.blocks_eq hdata.reads_eq hdata'.map_eq hdata'.blocks_eq
        hdata'.reads_eq) fun hpos => by rw [hsize', hs hpos]

/-- A block that is missing is created by a loop over block ids. -/
theorem ensureBlock_grows (f : File) (blockId : ℤ) :
    Grows (fun _ => True) f
      (if f.inode.dataBlocks[blockId]? = none then f.allocateSpace blockId else f) := by
  split
  · exact (f.emplaceBlock_grows blockId).mono fun _ _ => trivial
  · exact .refl _ _

/-- The growing loop of `truncate` creates blocks, and sets the size in its first round. -/
theorem growLoop_grows {f f' : File} {newsize i : ℤ} (h : f.growLoop newsize i = .ok f') :
    Grows (fun _ => True) f f' ∧ (i < newsize → f'.st.stSize = newsize) := by
  fun_induction growLoop f newsize i with
  | case1 => cases h
  | case2 f i hi blockId f₁ f₂ hov ih =>
    obtain ⟨hg, hs⟩ := ih h
    have h₁ : Grows (fun _ => True) f f₁ := f.ensureBlock_grows blockId
    have h₂ : Grows (fun _ => True) f f₂ := h₁.congr rfl rfl rfl rfl rfl rfl
    refine ⟨h₂.trans hg, fun _ => ?_⟩
    by_cases hlast : i + BLOCK_SIZE < newsize
    · exact hs hlast
    · rw [growLoop, dif_neg hlast] at h
      rw [← Except.ok.inj h]
  | case3 f i hi =>
    rw [← Except.ok.inj h]
    exact ⟨.refl _ _, fun hlt => absurd hlt hi⟩

/-- The specification of `truncate`. -/
theorem truncate_truncates {f f' : File} {n : ℤ} {tasks : List FileTask}
    (h : f.truncate n = .ok (f', tasks)) : Truncates n f f' tasks := by
  unfold truncate at h
  split at h
  · next hn =>
    obtain ⟨rfl, rfl⟩ := Prod.mk.inj (Except.ok.inj h)
    exact .same (.refl f) hn hn
  · next hold =>
    split at h
    · next hn =>
      obtain ⟨rfl, rfl⟩ := Prod.mk.inj (Except.ok.inj h)
      exact .clear hn (fun h0 => hold (h0.trans hn.symm)) rfl rfl rfl rfl
    · next hn =>
      split at h
      · next hlt =>
        obtain ⟨rfl, rfl⟩ := Prod.mk.inj (Except.ok.inj h)
        rw [freeWalk_eq]
        exact .shrink hn hlt ⟨rfl, rfl, rfl⟩ rfl
      · next hge =>
        obtain ⟨f₁, hgrow, h⟩ := bind_eq_ok.mp h
        obtain ⟨rfl, rfl⟩ := Prod.mk.inj (Except.ok.inj h)
        obtain ⟨hg, hs⟩ := growLoop_grows hgrow
        exact .extend (by omega) hg hs

/-! ## Requests -/

end File

/-- The size a request asks for. -/
def FileRequest.newSize : FileRequest → Option ℤ
  | .setattr r => if r.has FUSE_SET_ATTR_SIZE then some r.attr.stSize else none
  | .openFile r => if r.flags &&& O_TRUNC ≠ 0 then some 0 else none
  | _ => none

/-- The requests that only move data: reads and writes. -/
def FileRequest.IsData : FileRequest → Prop
  | .write _ => True
  | .read _ => True
  | _ => False

namespace File

/-- What the behaviour of a request does to the data of its inode. -/
inductive RequestStep : FileRequest → File → Effect File FileTask Reply → Prop
  /-- `RegInode::write`. -/
  | write (w : WriteReq) (f : File) :
      RequestStep (.write w) f ⟨(f.write w).1, (f.write w).2, [.write w.req w.size]⟩
  /-- `RegInode::read`. -/
  | read (r : ReadReq) (f : File) : RequestStep (.read r) f (f.read r)
  /-- A truncation. -/
  | truncate {q : FileRequest} {f f' : File} {tasks : List FileTask} {rs : List Reply} (n : ℤ)
      (hq : q.newSize = some n) (h : Truncates n f f' tasks) (hok : rs.any Reply.isErr = false) :
      RequestStep q f ⟨f', tasks, rs⟩
  /-- Blocks are reserved. -/
  | reserve {req : ℕ} {mode offset length : ℤ} {f f' : File} {rs : List Reply}
      (hgrows : Grows (fun _ => True) f f')
      (hsize : f'.st.stSize = max f.st.stSize (offset + length)) :
      RequestStep (.fallocate req mode offset length) f ⟨f', [], rs⟩
  /-- The data stay: the request asks for no new size or is refused. -/
  | keep {q : FileRequest} {f f' : File} {rs : List Reply} (hother : ¬ q.IsData)
      (hdata : SameData f f') (hsize : f'.st.stSize = f.st.stSize)
      (hq : q.newSize = none ∨ rs.any Reply.isErr = true) : RequestStep q f ⟨f', [], rs⟩

/-- The specification of `setattr`. -/
theorem setattr_requestStep {f : File} {r : SetattrReq} {e : Effect File FileTask Reply}
    (h : f.setattr r = .ok e) : RequestStep (.setattr r) f e := by
  have hshape := setattrFields_sameShape r f.st
  unfold setattr at h
  split at h
  · next ret st heq =>
    rw [heq] at hshape
    rw [← Except.ok.inj h]
    exact .keep id ⟨rfl, rfl, rfl⟩ hshape.size (.inr rfl)
  · next clearMode st heq =>
    rw [heq] at hshape
    simp only at h
    split at h
    · next hsize =>
      obtain ⟨ret, -, h⟩ := bind_eq_ok.mp h
      split at h
      · rw [← Except.ok.inj h]
        exact .keep id ⟨rfl, rfl, rfl⟩ hshape.size (.inr rfl)
      · obtain ⟨⟨f₂, tasks⟩, htrunc, h⟩ := bind_eq_ok.mp h
        rw [← Except.ok.inj h]
        refine .truncate r.attr.stSize (by simp [FileRequest.newSize, hsize]) ?_ rfl
        exact (truncate_truncates htrunc).congr ⟨rfl, rfl, rfl⟩ hshape.size.symm ⟨rfl, rfl, rfl⟩ rfl
    · next hsize =>
      rw [← Except.ok.inj h]
      exact .keep id ⟨rfl, rfl, rfl⟩ hshape.size (.inl (by simp [FileRequest.newSize, hsize]))

/-- The specification of `open`. -/
theorem openFile_requestStep {f : File} {r : OpenReq} {e : Effect File FileTask Reply}
    (h : f.openFile r = .ok e) : RequestStep (.openFile r) f e := by
  obtain ⟨ret, -, h⟩ := bind_eq_ok.mp h
  split at h
  · rw [← Except.ok.inj h]
    exact .keep id (.refl f) rfl (.inr rfl)
  · simp only at h
    split at h
    · next htr =>
      obtain ⟨⟨f₁, tasks⟩, htrunc, h⟩ := bind_eq_ok.mp h
      rw [← Except.ok.inj h]
      refine .truncate 0 (by simp only [FileRequest.newSize]; rw [if_pos htr]) ?_ rfl
      exact (truncate_truncates htrunc).congr (.refl f) rfl ⟨rfl, rfl, rfl⟩ rfl
    · next htr =>
      rw [← Except.ok.inj h]
      refine .keep id (.refl f) rfl (.inl ?_)
      simp only [FileRequest.newSize]
      rw [if_neg htr]

/-- The loop of `my_fallocate` creates blocks. -/
theorem fallocateLoop_grows {f f' : File} {i stop : ℤ} (h : f.fallocateLoop i stop = .ok f') :
    Grows (fun _ => True) f f' ∧ f'.st.stSize = f.st.stSize := by
  fun_induction fallocateLoop f i stop with
  | case1 => cases h
  | case2 f i hi blockId f₁ hov ih =>
    obtain ⟨hg, hs⟩ := ih h
    have h₁ : Grows (fun _ => True) f f₁ := f.ensureBlock_grows blockId
    refine ⟨h₁.trans hg, hs.trans ?_⟩
    simp only [f₁]
    split <;> rfl
  | case3 f i hi =>
    rw [← Except.ok.inj h]
    exact ⟨.refl _ _, rfl⟩

/-- The specification of `my_fallocate`. -/
theorem fallocate_requestStep {f : File} {req : ℕ} {mode offset length : ℤ}
    {e : Effect File FileTask Reply} (h : f.fallocate req offset length = .ok e) :
    RequestStep (.fallocate req mode offset length) f e := by
  obtain ⟨f₁, hloop, h⟩ := bind_eq_ok.mp h
  rw [← Except.ok.inj h]
  obtain ⟨hg, hs⟩ := fallocateLoop_grows hloop
  refine .reserve (hg.congr rfl rfl rfl rfl rfl rfl) ?_
  simp only [File.st] at hs ⊢
  rw [hs]

/-- The specification of the behaviour of a request. -/
theorem inodeBody_requestStep {f : File} {q : FileRequest} {e : Effect File FileTask Reply}
    (h : f.inodeBody q = .ok e) : RequestStep q f e := by
  cases q with
  | write w =>
    rw [← Except.ok.inj h]
    exact .write w f
  | read r =>
    rw [← Except.ok.inj h]
    exact .read r f
  | setattr r => exact setattr_requestStep h
  | openFile r => exact openFile_requestStep h
  | fallocate req mode offset length => exact fallocate_requestStep h
  | opendir req flags uid gid fi =>
    simp only [inodeBody] at h
    split at h
    · obtain ⟨ret, -, h⟩ := bind_eq_ok.mp h
      split at h <;>
      · rw [← Except.ok.inj h]
        exact .keep id (.refl f) rfl (.inl rfl)
    · rw [← Except.ok.inj h]
      exact .keep id (.refl f) rfl (.inl rfl)
  | access req mask uid gid =>
    obtain ⟨ret, -, h⟩ := bind_eq_ok.mp h
    rw [← Except.ok.inj h]
    exact .keep id (.refl f) rfl (.inl rfl)

end File

/-! ## The behaviours of a write -/

/-- The pieces of a write stay inside their block and the data. -/
theorem Wrapper.piece_fits {a n off bw : ℕ} {data : List UInt8} (hoff : off + n ≤ BLOCK_SIZE)
    (hbw : bw ≤ BLOCK_SIZE) (hlen : bw + n ≤ data.length) :
    (Wrapper.piece a n off bw data).Fits := by
  have hB : BLOCK_SIZE = 4096 := rfl
  have hn' : cU64 (cInt n) = n := cU64_cInt (by omega)
  have hoff' : cU64 (cInt off) = off := cU64_cInt (by omega)
  have hbw' : cU64 (cInt bw) = bw := cU64_cInt (by omega)
  unfold Wrapper.Fits
  dsimp only [Wrapper.piece]
  rw [hn', hoff', hbw']
  exact ⟨hoff, hlen⟩

namespace File

/-- The behaviours of a write: none, one for a block of the map, or one for two blocks of it. -/
theorem write_tasks (f : File) (w : WriteReq) :
    (f.write w).2 = [] ∨
    (∃ (u : Wrapper) (k : ℤ), (f.write w).2 = [.writeOne u] ∧ u.Fits ∧
      (f.write w).1.inode.dataBlocks[k]? = some u.ptr) ∨
    (∃ (u₀ u₁ : Wrapper) (k : ℤ), (f.write w).2 = [.writeTwo u₀ u₁] ∧ u₀.Fits ∧ u₁.Fits ∧
      (f.write w).1.inode.dataBlocks[k]? = some u₀.ptr ∧
      (f.write w).1.inode.dataBlocks[k + 1]? = some u₁.ptr) := by
  have hB : BLOCK_SIZE = 4096 := rfl
  have hmod : w.pos % BLOCK_SIZE < BLOCK_SIZE := Nat.mod_lt _ (by decide)
  have hsize : w.size = w.data.length := rfl
  rw [write_eq]
  rcases (f.touch w).writeLoop_cases w with ⟨h0, hvec⟩ | ⟨h0, h1, a, ha, hvec⟩ |
    ⟨h1, h2, a₀, a₁, ha₀, ha₁, hvec⟩ | ⟨-, h3⟩
  · exact .inl (by rw [hvec]; rfl)
  · refine .inr (.inl ⟨_, _, by rw [hvec]; rfl, ?_, ha⟩)
    exact Wrapper.piece_fits (by omega) (by omega) (by omega)
  · refine .inr (.inr ⟨_, _, _, by rw [hvec]; rfl, ?_, ?_, ha₀, ha₁⟩)
    · exact Wrapper.piece_fits (by omega) (by omega) (by omega)
    · exact Wrapper.piece_fits (by omega) (by omega) (by omega)
  · left
    match hvec : ((f.touch w).writeLoop w.pos w.data 0 w.size []).2, h3 with
    | _ :: _ :: _ :: _, _ => simp only [batchWrite]

/-- A write keeps the invariant for the behaviours it schedules. -/
theorem write_fileInv {f : File} (hwf : f.WF) (w : WriteReq) (rs : List Reply) :
    FileInv ⟨(f.write w).1, (f.write w).2, rs⟩ := by
  have hwf' := (f.write_grows w).wf hwf
  rcases f.write_tasks w with h | ⟨u, k, h, hu, hk⟩ | ⟨u₀, u₁, k, h, hu₀, hu₁, hk₀, hk₁⟩
  · rw [h]
    exact .of_wf hwf' rs
  · refine ⟨hwf', ?_, ?_⟩
    · simp only [h, List.mem_singleton, forall_eq, FileTask.cowns, FileCown.block.injEq]
      exact hwf'.bounded k _ hk
    · simp only [h, List.mem_singleton, forall_eq]
      exact hu
  · refine ⟨hwf', ?_, ?_⟩
    · simp only [h, forall_eq, FileTask.cowns, List.mem_cons, FileCown.block.injEq,
        List.not_mem_nil, or_false]
      rintro a (rfl | rfl)
      · exact hwf'.bounded k _ hk₀
      · exact hwf'.bounded (k + 1) _ hk₁
    · simp only [h, List.mem_singleton, forall_eq]
      exact ⟨hu₀, hu₁⟩

/-! ## The behaviours of a read -/

/-- The behaviours of a read copy out of blocks of the map, at least one byte each. -/
theorem readLoop_mem {m : StdMap ℤ ℕ} {o rem : ℤ} {req c total br : ℕ} {t : FileTask}
    (h : t ∈ readLoop m o req c total br rem) :
    ∃ (a : ℕ) (k : ℤ) (p : ReadPart), t = .readBlock a p ∧ m[k]? = some a ∧ p.req = req ∧ p.counter = c ∧ p.total = total ∧
      p.blockOffset + p.bytesToRead ≤ BLOCK_SIZE := by
  fun_induction readLoop m o req c total br rem with
  | case1 br rem hrem pos hnone ih => exact ih h
  | case2 br rem hrem pos blockOffset a hget n ih =>
    have hlt : blockOffset < BLOCK_SIZE := Nat.mod_lt _ (by decide)
    rcases List.mem_cons.mp h with rfl | h
    · exact ⟨a, _, _, rfl, hget, rfl, rfl, rfl, by simp only; omega⟩
    · exact ih h
  | case3 => cases h

/-- A read leaves the inode and the blocks. -/
theorem read_inode (f : File) (r : ReadReq) :
    (f.read r).state.inode = f.inode ∧ (f.read r).state.blocks = f.blocks := by
  unfold read
  simp only
  split <;> exact ⟨rfl, rfl⟩

/-- A read adds at most one read buffer. -/
theorem read_reads_length (f : File) (r : ReadReq) :
    f.reads.length ≤ (f.read r).state.reads.length := by
  unfold read
  simp only
  split <;> simp

/-- The behaviours of a read. -/
theorem read_spawned {f : File} {r : ReadReq} {t : FileTask} (h : t ∈ (f.read r).spawned) :
    ∃ (a : ℕ) (k : ℤ) (p : ReadPart), t = .readBlock a p ∧ f.inode.dataBlocks[k]? = some a ∧ p.req = r.req ∧
      p.counter = f.reads.length ∧ p.counter < (f.read r).state.reads.length ∧
      p.blockOffset + p.bytesToRead ≤ BLOCK_SIZE := by
  unfold read at h ⊢
  simp only at h ⊢
  split at h
  · cases h
  · next h0 =>
    obtain ⟨a, k, p, rfl, hk, hreq, hc, -, hfit⟩ := readLoop_mem h
    rw [if_neg h0]
    exact ⟨a, k, p, rfl, hk, hreq, hc, by simp [hc], hfit⟩

/-- A read keeps the invariant for the behaviours it schedules. -/
theorem read_fileInv {f : File} (hwf : f.WF) (r : ReadReq) (rs : List Reply) :
    FileInv ⟨(f.read r).state, (f.read r).spawned, rs⟩ := by
  obtain ⟨hinode, hblocks⟩ := f.read_inode r
  refine ⟨⟨?_, ?_⟩, fun t ht a ha => ?_, fun t ht => ?_⟩
  · rw [hinode, hblocks]
    exact hwf.bounded
  · rw [hinode]
    exact hwf.injective
  · obtain ⟨b, k, p, rfl, hk, -⟩ := read_spawned ht
    simp only [FileTask.cowns, List.mem_singleton, FileCown.block.injEq] at ha
    rw [ha, hblocks]
    exact hwf.bounded k b hk
  · obtain ⟨b, k, p, rfl, -, -, -, hc, hfit⟩ := read_spawned ht
    exact ⟨hfit, hc⟩

/-! ## The behaviours of a truncation -/

/-- The behaviours of a truncation release blocks of the map. -/
theorem Truncates.spawned {n : ℤ} {f f' : File} {tasks : List FileTask}
    (h : Truncates n f f' tasks) {t : FileTask} (ht : t ∈ tasks) :
    ∃ (a : ℕ) (k : ℤ), t = .freeSpace a ∧ f.inode.dataBlocks[k]? = some a := by
  cases h with
  | same => cases ht
  | clear =>
    obtain ⟨⟨k, a⟩, hmem, rfl⟩ := List.mem_map.mp ht
    exact ⟨a, k, rfl, Std.ExtTreeMap.mem_toList_iff_getElem?_eq_some.mp hmem⟩
  | shrink =>
    obtain ⟨⟨k, a⟩, hmem, rfl⟩ := List.mem_map.mp ht
    exact ⟨a, k, rfl, (StdMap.mem_afterKey.mp hmem).2⟩
  | extend => cases ht

/-- A truncation keeps blocks and read buffers. -/
theorem Truncates.lengths {n : ℤ} {f f' : File} {tasks : List FileTask}
    (h : Truncates n f f' tasks) :
    f.blocks.length ≤ f'.blocks.length ∧ f'.reads = f.reads := by
  cases h with
  | same hd => exact ⟨by rw [hd.blocks_eq], hd.reads_eq⟩
  | clear _ _ _ hblocks hreads => exact ⟨by rw [hblocks], hreads⟩
  | shrink _ _ hd => exact ⟨by rw [hd.blocks_eq], hd.reads_eq⟩
  | extend _ hg =>
    obtain ⟨ext, hext, -⟩ := hg.appended
    exact ⟨by rw [hext, List.length_append]; omega, hg.reads_eq⟩

/-- A truncation keeps the map well formed. -/
theorem Truncates.wf {n : ℤ} {f f' : File} {tasks : List FileTask} (h : Truncates n f f' tasks)
    (hwf : f.WF) : f'.WF := by
  cases h with
  | same hd => exact (hd.grows fun _ => True).wf hwf
  | clear _ _ hmap => exact ⟨by simp [hmap], by simp [hmap]⟩
  | shrink _ _ hd => exact (hd.grows fun _ => True).wf hwf
  | extend _ hg => exact hg.wf hwf

/-! ## What all requests have in common -/

section RequestStep

variable {q : FileRequest} {f : File} {e : Effect File FileTask Reply}

/-- No block and no read buffer goes away. -/
theorem RequestStep.lengths (h : RequestStep q f e) :
    f.blocks.length ≤ e.state.blocks.length ∧ f.reads.length ≤ e.state.reads.length := by
  have hgrows : ∀ {ids : ℤ → Prop} {f' : File}, Grows ids f f' →
      f.blocks.length ≤ f'.blocks.length ∧ f.reads.length ≤ f'.reads.length := by
    intro ids f' hg
    obtain ⟨ext, hext, -⟩ := hg.appended
    exact ⟨by rw [hext, List.length_append]; omega, by rw [hg.reads_eq]⟩
  cases h with
  | write w => exact hgrows (f.write_grows w)
  | read r => exact ⟨by rw [(f.read_inode r).2], f.read_reads_length r⟩
  | truncate n hq h => exact ⟨h.lengths.1, by rw [h.lengths.2]⟩
  | reserve hg hs => exact hgrows hg
  | keep _ hd hs => exact hgrows (hd.grows fun _ => True)

/-- A request keeps the invariant for the behaviours it schedules. -/
theorem RequestStep.fileInv_spawned (h : RequestStep q f e) (hwf : f.WF) (rs : List Reply) :
    FileInv ⟨e.state, e.spawned, rs⟩ := by
  cases h with
  | write w => exact write_fileInv hwf w rs
  | read r => exact read_fileInv hwf r rs
  | truncate n hq h =>
    refine ⟨h.wf hwf, fun t ht a ha => ?_, fun t ht => ?_⟩
    · obtain ⟨b, k, rfl, hk⟩ := h.spawned ht
      simp only [FileTask.cowns, List.mem_singleton, FileCown.block.injEq] at ha
      exact ha ▸ (hwf.bounded k b hk).trans_le h.lengths.1
    · obtain ⟨b, k, rfl, -⟩ := h.spawned ht
      trivial
  | reserve hg hs => exact .of_wf (hg.wf hwf) rs
  | keep _ hd hs => exact .of_wf ((hd.grows fun _ => True).wf hwf) rs

/-- A request keeps the invariant. -/
theorem RequestStep.fileInv (h : RequestStep q f e) {pending pending' : List FileTask}
    {rs rs' : List Reply} (hinv : FileInv ⟨f, pending, rs⟩) (hmem : ∀ t ∈ pending', t ∈ pending) :
    FileInv ⟨e.state, pending' ++ e.spawned, rs'⟩ := by
  have hspawned := h.fileInv_spawned hinv.wf rs'
  obtain ⟨hblocks, hreads⟩ := h.lengths
  refine ⟨hspawned.wf, fun t ht a ha => ?_, fun t ht => ?_⟩
  · rcases List.mem_append.mp ht with ht | ht
    · exact (hinv.bounded t (hmem t ht) a ha).trans_le hblocks
    · exact hspawned.bounded t ht a ha
  · rcases List.mem_append.mp ht with ht | ht
    · exact (hinv.fits t (hmem t ht)).mono hreads
    · exact hspawned.fits t ht

/-- The behaviours a request schedules are block behaviours on pairwise distinct cowns. -/
theorem RequestStep.spawned (h : RequestStep q f e) (hwf : f.WF) {t : FileTask}
    (ht : t ∈ e.spawned) :
    (∃ u, t = .writeOne u) ∨ (∃ u₀ u₁, t = .writeTwo u₀ u₁ ∧ u₀.ptr ≠ u₁.ptr) ∨
      (∃ a p, t = .readBlock a p) ∨ ∃ a, t = .freeSpace a := by
  cases h with
  | write w =>
    rcases f.write_tasks w with h | ⟨u, k, h, -⟩ | ⟨u₀, u₁, k, h, -, -, hk₀, hk₁⟩
    · rw [h] at ht
      cases ht
    · rw [h, List.mem_singleton] at ht
      exact .inl ⟨u, ht⟩
    · rw [h, List.mem_singleton] at ht
      refine .inr (.inl ⟨u₀, u₁, ht, fun hptr => ?_⟩)
      rw [hptr] at hk₀
      exact absurd (((f.write_grows w).wf hwf).injective _ _ _ hk₀ hk₁) (by omega)
  | read r =>
    obtain ⟨a, k, p, rfl, -⟩ := read_spawned ht
    exact .inr (.inr (.inl ⟨a, p, rfl⟩))
  | truncate n hq h =>
    obtain ⟨a, k, rfl, -⟩ := h.spawned ht
    exact .inr (.inr (.inr ⟨a, rfl⟩))
  | reserve => cases ht
  | keep => cases ht

end RequestStep

end File

/-- Behaviours only schedule behaviours of a smaller rank. -/
def FileTask.rank : FileTask → ℕ
  | .inode _ => 2
  | .readBlock _ _ => 1
  | _ => 0

/-- The rank goes down along `when`. -/
theorem FileTask.rank_lt {t : FileTask} {f : File} {e : Effect File FileTask Reply}
    (hbody : File.body t f = .ok e) {t' : FileTask} (ht' : t' ∈ e.spawned) :
    t'.rank < t.rank := by
  cases t with
  | inode q =>
    cases File.inodeBody_requestStep hbody with
    | write w =>
      rcases f.write_tasks w with h | ⟨u, k, h, -⟩ | ⟨u₀, u₁, k, h, -⟩
      · rw [h] at ht'
        cases ht'
      · rw [h, List.mem_singleton] at ht'
        simp [ht', rank]
      · rw [h, List.mem_singleton] at ht'
        simp [ht', rank]
    | read r =>
      obtain ⟨a, k, p, rfl, -⟩ := File.read_spawned ht'
      simp [rank]
    | truncate n hq h =>
      obtain ⟨a, k, rfl, -⟩ := h.spawned ht'
      simp [rank]
    | reserve => cases ht'
    | keep => cases ht'
  | readBlock a p =>
    obtain ⟨b, p', -, rfl⟩ := (File.body_blockStep (by simp) hbody).spawned t' ht'
    simp [rank]
  | _ =>
    obtain ⟨b, p', heq, -⟩ := (File.body_blockStep (by simp) hbody).spawned t' ht'
    cases heq

end VeronaFs
