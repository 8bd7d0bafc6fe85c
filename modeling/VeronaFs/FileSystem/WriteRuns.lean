import VeronaFs.FileSystem.Runs

/-!
# Sequences of writes

What a sequence of write requests should leave in a file is the last write that covers each
position (`lastByte`) and the largest end of a range (`maxEnd`).  `DataHistory` says what a run of
reads and writes does leave: the bytes of the last write among those that `batch_write` carries out,
which are the ones whose range meets at most two blocks.
-/

namespace VeronaFs

open Boc Foundation

/-! ## The last write -/

/-- The byte that the last write whose range covers `p` puts there. -/
def lastByte (ws : List WriteReq) (p : ℕ) : Option UInt8 := ws.reverse.findSome? (·.byteAt p)

/-- A further write decides the positions it covers. -/
theorem lastByte_append_singleton (ws : List WriteReq) (w : WriteReq) (p : ℕ) :
    lastByte (ws ++ [w]) p = (w.byteAt p).or (lastByte ws p) := by
  simp only [lastByte, List.reverse_append, List.reverse_singleton, List.singleton_append,
    List.findSome?_cons]
  cases w.byteAt p <;> rfl

/-- No byte is put at a position that no write covers. -/
theorem lastByte_eq_none_iff {ws : List WriteReq} {p : ℕ} :
    lastByte ws p = none ↔ ∀ w ∈ ws, w.byteAt p = none := by
  simp [lastByte]

/-- A position with a last byte is covered by a write. -/
theorem exists_of_lastByte_eq_some {ws : List WriteReq} {p : ℕ} {b : UInt8}
    (h : lastByte ws p = some b) : ∃ w ∈ ws, w.byteAt p = some b := by
  obtain ⟨w, hw, hb⟩ := List.exists_of_findSome?_eq_some h
  exact ⟨w, List.mem_reverse.mp hw, hb⟩

/-- The writes whose pieces `batch_write` carries out. -/
def batched (ws : List WriteReq) : List WriteReq := ws.filter fun w => w.blocksTouched ≤ 2

/-- The largest end of the ranges of a sequence of writes. -/
def maxEnd (ws : List WriteReq) : ℕ := (ws.map fun w => w.pos + w.size).foldr max 0

/-- The largest end is at least every end. -/
theorem le_maxEnd {ws : List WriteReq} {w : WriteReq} (hw : w ∈ ws) :
    w.pos + w.size ≤ maxEnd ws := by
  induction ws with
  | nil => cases hw
  | cons w' ws ih =>
    simp only [maxEnd, List.map_cons, List.foldr_cons] at ih ⊢
    rcases List.mem_cons.mp hw with rfl | hw
    · exact le_max_left _ _
    · exact (ih hw).trans (le_max_right _ _)

/-- The largest end of a longer sequence. -/
theorem maxEnd_append_singleton (ws : List WriteReq) (w : WriteReq) :
    maxEnd (ws ++ [w]) = max (maxEnd ws) (w.pos + w.size) := by
  induction ws with
  | nil => simp [maxEnd]
  | cons w' ws ih =>
    simp only [maxEnd, List.cons_append, List.map_cons, List.foldr_cons] at ih ⊢
    rw [ih, max_assoc]

/-- The size the code computes for a sequence of writes to a file of size `s`: the ends of the
ranges are converted to `off_t`. -/
def sizeAfter (s : ℤ) (ws : List WriteReq) : ℤ :=
  ws.foldl (fun s w => max s (cOff (w.off + w.size))) s

/-- The computed size of an empty file is the largest end exactly when no end overflows. -/
theorem sizeAfter_eq_maxEnd_iff {ws : List WriteReq} :
    sizeAfter 0 ws = maxEnd ws ↔ ∀ w ∈ ws, w.pos + w.size < 2 ^ 63 := by
  constructor
  · intro h w hw
    have hlt : sizeAfter 0 ws < 2 ^ 63 := by
      suffices ∀ s : ℤ, s < 2 ^ 63 → sizeAfter s ws < 2 ^ 63 from this 0 (by norm_num)
      clear h hw
      induction ws with
      | nil => exact fun s hs => hs
      | cons w ws ih => exact fun s hs => ih _ (max_lt hs (cOff_lt _))
    have := le_maxEnd hw
    omega
  · intro h
    induction ws using List.reverseRecOn with
    | nil => rfl
    | append_singleton ws w ih =>
      have hw := h w (by simp)
      have hoff := w.off_eq
      rw [maxEnd_append_singleton, sizeAfter, List.foldl_append]
      change max (sizeAfter 0 ws) (cOff (w.off + w.size)) = _
      rw [ih fun w' hw' => h w' (by simp [hw']), cOff_of_lt (by omega) (by omega), hoff]
      simp

/-! ## Runs of reads and writes -/

/-- The writes among some requests. -/
def writesOf (qs : List FileRequest) : List WriteReq :=
  qs.filterMap fun
    | .write w => some w
    | _ => none

/-- The writes of a longer list of requests. -/
@[simp] theorem writesOf_append (qs qs' : List FileRequest) :
    writesOf (qs ++ qs') = writesOf qs ++ writesOf qs' := List.filterMap_append

/-- The file of a configuration as it is changed by a run of reads and writes from the configuration
`c₀`: `ws` are the writes that have run on the inode. -/
structure DataHistory (c₀ : FileConfig) (ws : List WriteReq) (c : FileConfig) : Prop where
  /-- Every position has its last byte among the batched writes. -/
  value : ∀ p, valueAt c p = (valueAt c₀ p).map fun b => (lastByte (batched ws) p).getD b
  /-- The size is extended by every write. -/
  size : c.state.st.stSize = sizeAfter c₀.state.st.stSize ws
  /-- Blocks are kept. -/
  kept : ∀ (k : ℤ) (a : ℕ), c₀.state.inode.dataBlocks[k]? = some a →
    c.state.inode.dataBlocks[k]? = some a
  /-- The blocks a write meets exist. -/
  present : ∀ w ∈ ws, w.pos + w.size ≤ 2 ^ 64 → ∀ k, File.Touched w.pos w.size k →
    c.state.inode.dataBlocks[k]? ≠ none

/-- At the start nothing has run. -/
theorem DataHistory.refl (c : FileConfig) : DataHistory c [] c where
  value p := by simp [batched, lastByte]
  size := rfl
  kept _ _ h := h
  present := by simp

/-- Only the contents, the size and the block map matter. -/
theorem DataHistory.congr {c₀ c c' : FileConfig} {ws : List WriteReq} (h : DataHistory c₀ ws c)
    (hvalue : ∀ p, valueAt c' p = valueAt c p) (hinode : c'.state.inode = c.state.inode) :
    DataHistory c₀ ws c' where
  value p := (hvalue p).trans (h.value p)
  size := by rw [File.st, hinode]; exact h.size
  kept := by rw [hinode]; exact h.kept
  present := by rw [hinode]; exact h.present

/-- A write that runs on the inode extends the history. -/
theorem DataHistory.write {c₀ : FileConfig} {ws : List WriteReq} {f : File}
    {pre post : List FileTask} {rs rs' : List Reply} {w : WriteReq}
    (h : DataHistory c₀ ws ⟨f, pre ++ .inode (.write w) :: post, rs⟩)
    (hinv : FileInv ⟨f, pre ++ .inode (.write w) :: post, rs⟩) :
    DataHistory c₀ (ws ++ [w]) ⟨(f.write w).1, pre ++ post ++ (f.write w).2, rs'⟩ where
  value p := by
    rw [valueAt_write hinv (fun t => mem_drop_inode) replay_drop_inode, h.value]
    by_cases hsmall : w.blocksTouched ≤ 2
    · have hb : batched (ws ++ [w]) = batched ws ++ [w] := by simp [batched, hsmall]
      rw [if_pos hsmall, hb, Option.map_map]
      congr 1
      funext b
      rw [lastByte_append_singleton]
      cases w.byteAt p <;> simp
    · have hb : batched (ws ++ [w]) = batched ws := by simp [batched, hsmall]
      rw [if_neg hsmall, hb]
  size := by
    have hsize := h.size
    rw [sizeAfter, List.foldl_append]
    change _ = max (sizeAfter c₀.state.st.stSize ws) (cOff (w.off + w.size))
    rw [← hsize]
    exact f.write_stSize w
  kept k a hk := (f.write_grows w).kept k a (h.kept k a hk)
  present w' hw' hend k hk := by
    rcases List.mem_append.mp hw' with hw' | hw'
    · intro hnone
      cases hold : f.inode.dataBlocks[k]? with
      | none => exact h.present w' hw' hend k hk hold
      | some a =>
        rw [(f.write_grows w).kept k a hold] at hnone
        cases hnone
    · obtain rfl := List.mem_singleton.mp hw'
      exact (f.write_touched _ hend).2 k hk

/-- The history of a run of reads and writes. -/
theorem DataHistory.run {c₀ c : FileConfig} {tr : FileTrace} (hrun : fileSystem.Run c₀ tr c)
    (h₀ : DataInv c₀) (hdata : ∀ q ∈ requested tr, q.IsData) :
    DataHistory c₀ (writesOf (inodeRuns tr)) c := by
  induction hrun with
  | nil => exact .refl c₀
  | @snoc tr c c' l hrun hstep ih =>
    have hdata' : ∀ q ∈ requested tr, q.IsData := fun q hq =>
      hdata q (by simp only [requested, List.filterMap_append, List.mem_append]; exact .inl hq)
    have hinv := h₀.run hrun hdata'
    replace ih := ih hdata'
    cases fileStep_of_step hstep with
    | request f pending rs q =>
      have hq : q.IsData := hdata q (by simp [requested])
      have hruns : inodeRuns (tr ++ [.request q]) = inodeRuns tr := by simp [inodeRuns]
      rw [hruns]
      refine ih.congr (fun p => ?_) rfl
      simp only [valueAt, virtualBuf, hq.not_denied, Bool.false_eq_true, if_false, replay_append]
      rfl
    | @inode f pre post rs q e hpre hreq =>
      have hq : q.IsData := hinv.data q (mem_pendingRequests.mpr (by simp))
      have hruns : inodeRuns (tr ++ [.run (.inode q)]) = inodeRuns tr ++ [q] := by simp [inodeRuns]
      rw [hruns]
      cases hreq with
      | write w =>
        rw [writesOf_append]
        exact ih.write hinv.toFileInv
      | read r =>
        have hwrites : writesOf (inodeRuns tr ++ [.read r]) = writesOf (inodeRuns tr) := by
          simp [writesOf]
        obtain ⟨hinode, hblocks⟩ := f.read_inode r
        rw [hwrites]
        refine ih.congr (fun p => ?_) hinode
        have hreplay : ∀ k v, replay FileTask.update (f.read r).spawned k v = v := fun k v =>
          replay_eq_self (fun t ht w => by
            obtain ⟨a, k', p, rfl, -⟩ := File.read_spawned ht
            rfl) v
        have hbuf : ∀ a, virtualBuf ⟨(f.read r).state, pre ++ post ++ (f.read r).spawned,
            rs ++ (f.read r).replies⟩ a = virtualBuf ⟨f, pre ++ .inode (.read r) :: post, rs⟩ a := by
          intro a
          unfold virtualBuf
          simp only
          rw [replay_append, hreplay, replay_drop_inode (q := .read r), File.bufOf, hblocks]
          rfl
        unfold valueAt
        simp only [hinode, hbuf]
      | truncate n hnew => cases q <;> first | cases hnew | exact absurd hq id
      | reserve => exact absurd hq id
      | keep hother => exact absurd hq hother
    | @block f pre post rs t e ht hfree hbody hblock =>
      rw [inodeRuns_run ht]
      exact ih.congr (valueAt_run hfree hblock) hblock.inode_eq

/-! ## The bytes that are stored -/

/-- The byte that `data_blocks` holds for the position `p`, if there is a block and it owns its
buffer. -/
def File.storedByte (f : File) (p : ℕ) : Option UInt8 :=
  match f.inode.dataBlocks[blockOf p]? with
  | none => none
  | some a => (f.bufOf a).map (· (slotOf p))

/-- The file stores a sequence of writes: every covered position has the byte of the last write that
covers it, the other positions of its blocks are zero, and the size is the largest end. -/
structure StoresWrites (ws : List WriteReq) (f : File) : Prop where
  /-- Covered positions have the byte of the last write. -/
  covered : ∀ p b, lastByte ws p = some b → f.storedByte p = some b
  /-- Positions of existing blocks that no write covers are zero. -/
  uncovered : ∀ p, lastByte ws p = none → f.inode.dataBlocks[blockOf p]? ≠ none →
    f.storedByte p = some 0
  /-- The size is the largest end. -/
  size : f.st.stSize = maxEnd ws

/-- No range ends at `2 ^ 63` or later, and the writes that meet three or more blocks decide no
byte: at every position the last write and the last batched write put the same byte, where no byte
counts as zero. -/
structure AllBatched (ws : List WriteReq) : Prop where
  /-- Ends are `off_t` values. -/
  end_lt : ∀ w ∈ ws, w.pos + w.size < 2 ^ 63
  /-- The writes that are not carried out decide nothing. -/
  byte_eq : ∀ p, (lastByte ws p).getD 0 = (lastByte (batched ws) p).getD 0

/-- With nothing pending, the stored byte of an existing block is the byte of the file. -/
theorem File.storedByte_eq_valueAt {f : File} {p : ℕ} (rs : List Reply)
    (h : f.inode.dataBlocks[blockOf p]? ≠ none) : f.storedByte p = valueAt ⟨f, [], rs⟩ p := by
  unfold File.storedByte valueAt
  cases hk : f.inode.dataBlocks[blockOf p]? with
  | none => exact absurd hk h
  | some a => rfl

/-- A file without blocks satisfies the invariant. -/
theorem DataInv.of_empty {f : File} (h : f.inode.dataBlocks = ∅) (rs : List Reply) :
    DataInv ⟨f, [], rs⟩ where
  toFileInv := .of_wf ⟨by simp [h], by simp [h]⟩ rs
  toOwned := .of_blocks (by simp [h]) rs
  data := by simp [pendingRequests]

/-- What a history of writes from an empty file stores. -/
theorem DataHistory.storesWrites_iff {f₀ f : File} {rs₀ rs : List Reply} {ws : List WriteReq}
    (h : DataHistory ⟨f₀, [], rs₀⟩ ws ⟨f, [], rs⟩) (hmap : f₀.inode.dataBlocks = ∅)
    (hsize : f₀.st.stSize = 0) : StoresWrites ws f ↔ AllBatched ws := by
  have hvalue : ∀ p, valueAt ⟨f, [], rs⟩ p = some ((lastByte (batched ws) p).getD 0) := by
    intro p
    rw [h.value, valueAt_of_get?_eq_none (by simp [hmap])]
    rfl
  have hend : f.st.stSize = maxEnd ws ↔ ∀ w ∈ ws, w.pos + w.size < 2 ^ 63 := by
    rw [← sizeAfter_eq_maxEnd_iff, ← hsize]
    exact ⟨fun hf => h.size.symm.trans hf, fun hf => h.size.trans hf⟩
  have hnone : ∀ p, lastByte ws p = none → lastByte (batched ws) p = none := by
    intro p hp
    rw [lastByte_eq_none_iff] at hp ⊢
    exact fun w hw => hp w (List.mem_of_mem_filter hw)
  have hpresent : (∀ w ∈ ws, w.pos + w.size < 2 ^ 63) → ∀ p b, lastByte ws p = some b →
      f.inode.dataBlocks[blockOf p]? ≠ none := by
    intro hlt p b hp
    obtain ⟨w, hw, hb⟩ := exists_of_lastByte_eq_some hp
    obtain ⟨h₁, h₂⟩ := WriteReq.byteAt_isSome.mp (by rw [hb]; rfl)
    have := hlt w hw
    exact h.present w hw (by omega) _ ⟨p, h₁, h₂, rfl⟩
  constructor
  · intro hst
    have hlt := hend.mp hst.size
    refine ⟨hlt, fun p => ?_⟩
    cases hp : lastByte ws p with
    | none => rw [hnone p hp]
    | some b =>
      have hb := hst.covered p b hp
      rw [File.storedByte_eq_valueAt rs (hpresent hlt p b hp), hvalue] at hb
      exact (Option.some.inj hb).symm
  · intro hall
    refine ⟨fun p b hp => ?_, fun p hp hk => ?_, hend.mpr hall.end_lt⟩
    · rw [File.storedByte_eq_valueAt rs (hpresent hall.end_lt p b hp), hvalue,
        ← hall.byte_eq, hp]
      rfl
    · rw [File.storedByte_eq_valueAt rs hk, hvalue, hnone p hp]
      rfl

/-- Where only pending behaviours run nothing is requested. -/
theorem requested_runs {tr : FileTrace} (h : ∀ l ∈ tr, ∃ t, l = .run t) : requested tr = [] :=
  List.filterMap_eq_nil_iff.mpr fun l hl => by
    obtain ⟨t, rfl⟩ := h l hl
    rfl

/-- When only pending behaviours run the requests stay. -/
theorem requested_append_runs {tr tr' : FileTrace} (h : ∀ l ∈ tr', ∃ t, l = .run t) :
    requested (tr ++ tr') = requested tr := by
  rw [requested, List.filterMap_append]
  change requested tr ++ requested tr' = requested tr
  rw [requested_runs h, List.append_nil]

/-- Reads and writes are all scheduled. -/
theorem scheduled_eq_requested {tr : FileTrace} (h : ∀ q ∈ requested tr, q.IsData) :
    scheduled tr = requested tr := by
  refine List.filterMap_congr fun l hl => ?_
  cases l with
  | run t => rfl
  | request q =>
    have hq : q.IsData := h q (List.mem_filterMap.mpr ⟨_, hl, rfl⟩)
    simp [hq.not_denied]

/-- The writes requested of an empty file, in any interleaving, are stored once their behaviours
have run exactly when `batch_write` carries out those that matter. -/
theorem writes_stored_iff {f₀ : File} (hmap : f₀.inode.dataBlocks = ∅) (hsize : f₀.st.stSize = 0)
    {rs₀ : List Reply} {ws : List WriteReq} {tr : FileTrace} {c : FileConfig}
    (hrun : fileSystem.Run ⟨f₀, [], rs₀⟩ tr c) (hreq : requested tr = ws.map .write) :
    (∃ c', fileSystem.Settles c c') ∧ ∀ c', fileSystem.Settles c c' →
      c'.pending = [] ∧ (StoresWrites ws c'.state ↔ AllBatched ws) := by
  have hdata : ∀ q ∈ requested tr, q.IsData := by
    rw [hreq]
    intro q hq
    obtain ⟨w, -, rfl⟩ := List.mem_map.mp hq
    trivial
  have h₀ : DataInv ⟨f₀, [], rs₀⟩ := .of_empty hmap rs₀
  obtain ⟨hex, hall⟩ := (h₀.run hrun hdata).exists_settles
  refine ⟨hex, fun c' hc' => ?_⟩
  have hdone := hall c' hc'
  refine ⟨hdone, ?_⟩
  obtain ⟨tr', hrun', hruns⟩ := hc'.exists_run
  have hreq' : requested (tr ++ tr') = ws.map .write := (requested_append_runs hruns).trans hreq
  have hdata' : ∀ q ∈ requested (tr ++ tr'), q.IsData := by rwa [requested_append_runs hruns]
  have hhist := DataHistory.run (hrun.append hrun') h₀ hdata'
  have hfifo := inodeRuns_append_pending (hrun.append hrun')
  obtain ⟨f, pending, rs⟩ := c'
  obtain rfl : pending = [] := hdone
  have hws : writesOf (inodeRuns (tr ++ tr')) = ws := by
    rw [pendingRequests_eq_nil (by simp), List.append_nil, scheduled_eq_requested hdata',
      hreq'] at hfifo
    rw [hfifo, writesOf, List.filterMap_map]
    exact List.filterMap_some
  rw [hws] at hhist
  exact hhist.storesWrites_iff hmap hsize

/-- An empty file. -/
def emptyFile : File := File.make 3 (initStat 3 0 0 0 BLOCK_SIZE 0o644 true)

/-- A write of two bytes at the end of the first block. -/
def twoBlockWrite : WriteReq := ⟨0, [1, 2], 4095, 0, by decide, by decide, by decide⟩

/-- The run that requests a write of two bytes. -/
theorem writes_stored_iff_twoBlockWrite :
    ∃ c, fileSystem.Run ⟨emptyFile, [], []⟩ [.request (.write twoBlockWrite)] c ∧
      (∃ c', fileSystem.Settles c c') ∧ ∀ c', fileSystem.Settles c c' →
        c'.pending = [] ∧ (StoresWrites [twoBlockWrite] c'.state ↔ AllBatched [twoBlockWrite]) := by
  have hrun : fileSystem.Run ⟨emptyFile, [], []⟩ ([] ++ [.request (.write twoBlockWrite)])
      ⟨emptyFile, [.inode (.write twoBlockWrite)], []⟩ :=
    .snoc .nil (FileRequest.IsData.step (q := .write twoBlockWrite) trivial _ _ _)
  exact ⟨_, hrun, writes_stored_iff rfl rfl hrun rfl⟩

/-- A write of `4098` bytes from the last byte of the first block to the first byte of the third. -/
def threeBlockWrite : WriteReq :=
  ⟨0, List.replicate 4098 1, 4095, 0, by decide, by decide, by rw [List.length_replicate]; decide⟩

/-- The bytes of a write that meets three blocks are lost: the run ends with nothing pending and a
zero where the write put a one. -/
theorem threeBlockWrite_lost :
    ∃ c, fileSystem.Run ⟨emptyFile, [], []⟩
        [.request (.write threeBlockWrite), .run (.inode (.write threeBlockWrite))] c ∧
      c.pending = [] ∧ lastByte [threeBlockWrite] 4095 = some 1 ∧
      c.state.storedByte 4095 = some 0 := by
  have hsize : threeBlockWrite.size = 4098 := List.length_replicate
  have hpos : threeBlockWrite.pos = 4095 := rfl
  have hlarge : ¬ threeBlockWrite.blocksTouched ≤ 2 := by
    rw [WriteReq.blocksTouched_le_two, hsize, hpos]
    decide
  have htasks := emptyFile.write_tasks_of_large hlarge
  have hrun : fileSystem.Run ⟨emptyFile, [], []⟩
      (([] ++ [.request (.write threeBlockWrite)]) ++ [.run (.inode (.write threeBlockWrite))])
      ⟨(emptyFile.write threeBlockWrite).1, [], [.write 0 4098]⟩ := by
    have h₁ : fileSystem.Run ⟨emptyFile, [], []⟩ ([] ++ [.request (.write threeBlockWrite)])
        ⟨emptyFile, [.inode (.write threeBlockWrite)], []⟩ :=
      .snoc .nil (FileRequest.IsData.step (q := .write threeBlockWrite) trivial _ _ _)
    refine h₁.snoc (System.Step.head (e := ⟨(emptyFile.write threeBlockWrite).1, [],
      [Reply.write 0 4098]⟩) ⟨?_, by simp⟩)
    rw [← htasks, ← hsize]
    rfl
  have hhist := DataHistory.run hrun (.of_empty rfl []) (by simp [requested, FileRequest.IsData])
  have hws : writesOf (inodeRuns (([] ++ [.request (FileRequest.write threeBlockWrite)]) ++
      [.run (.inode (.write threeBlockWrite))])) = [threeBlockWrite] := rfl
  rw [hws] at hhist
  refine ⟨_, hrun, rfl, ?_, ?_⟩
  · have hb : lastByte [threeBlockWrite] 4095 = threeBlockWrite.byteAt 4095 := by
      simp [lastByte]
    rw [hb, WriteReq.byteAt_eq_some (by rw [hpos]) (by rw [hpos, hsize]; omega), hpos]
    rfl
  · have hpresent := hhist.present threeBlockWrite List.mem_cons_self (by rw [hpos, hsize]; omega)
      (blockOf 4095) ⟨4095, by rw [hpos], by rw [hpos, hsize]; omega, rfl⟩
    have hbatched : batched [threeBlockWrite] = [] := by simp [batched, hlarge]
    rw [File.storedByte_eq_valueAt [.write 0 4098] hpresent, hhist.value, hbatched]
    rfl

end VeronaFs
