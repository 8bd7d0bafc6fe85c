import VeronaFs.FileSystem.ReadServed

/-!
# Writes and truncations, one at a time

The abstract file is a size and a byte for every position, zero from the size on; a write puts its
bytes and extends the size, a truncation cuts or extends with zeros.  `File.Holds` says that a file
with nothing pending has these contents, and `Holds.serves` that serving a write or a truncation
keeps this, on the condition `File.Tame`: the code's truncation only frees whole blocks and leaves
the rest of the last block as it is, so a cut must find nothing after the new size.
-/

namespace VeronaFs

open Boc Foundation

/-! ## Contents -/

/-- The contents of a file: its size and its bytes, which are zero from the size on. -/
structure Contents where
  /-- The number of bytes. -/
  size : ℕ
  /-- The byte at each position. -/
  byte : ℕ → UInt8
  /-- Nothing is beyond the end. -/
  zero_beyond : ∀ p, size ≤ p → byte p = 0

namespace Contents

/-- The empty contents. -/
def empty : Contents := ⟨0, fun _ => 0, fun _ _ => rfl⟩

/-- The contents after a write. -/
def write (c : Contents) (w : WriteReq) : Contents where
  size := max c.size (w.pos + w.size)
  byte p := (w.byteAt p).getD (c.byte p)
  zero_beyond p hp := by
    have hnone : w.byteAt p = none := by
      rw [← Option.not_isSome_iff_eq_none, WriteReq.byteAt_isSome]
      omega
    rw [hnone, Option.getD_none]
    exact c.zero_beyond p (by omega)

/-- The contents cut to `n` bytes, or extended with zeros to `n` bytes. -/
def truncate (c : Contents) (n : ℕ) : Contents where
  size := n
  byte p := if p < n then c.byte p else 0
  zero_beyond _ hp := if_neg (not_lt.mpr hp)

/-- The contents after a request that was answered with the replies `rs`: a write puts its bytes,
and a truncation that was not refused cuts or extends. -/
def apply (c : Contents) (q : FileRequest) (rs : List Reply) : Contents :=
  match q with
  | .write w => c.write w
  | q =>
    match q.newSize with
    | some n => if rs.any Reply.isErr then c else c.truncate n.toNat
    | none => c

/-- The contents after a history of requests. -/
def after (c : Contents) (h : List (FileRequest × List Reply)) : Contents :=
  h.foldl (fun c x => c.apply x.1 x.2) c

/-- A longer history. -/
theorem after_append_singleton (c : Contents) (h : List (FileRequest × List Reply))
    (q : FileRequest) (rs : List Reply) : c.after (h ++ [(q, rs)]) = (c.after h).apply q rs := by
  simp [after]

end Contents

/-! ## Files with given contents -/

/-- A file with nothing pending has the contents `c`: its size is that of `c`, its blocks own their
buffers, and every position has the byte of `c`, where a position without a block counts as zero. -/
structure File.Holds (f : File) (c : Contents) : Prop where
  /-- The block map is well formed. -/
  wf : f.WF
  /-- The blocks own their buffers. -/
  owned : ∀ (k : ℤ) (a : ℕ), f.inode.dataBlocks[k]? = some a → f.bufOf a ≠ none
  /-- The size. -/
  size : f.st.stSize = c.size
  /-- The bytes. -/
  byte : ∀ p, (f.storedByte p).getD 0 = c.byte p

/-- An empty file has the empty contents. -/
theorem File.holds_empty {f : File} (hmap : f.inode.dataBlocks = ∅) (hsize : f.st.stSize = 0) :
    f.Holds .empty where
  wf := ⟨by simp [hmap], by simp [hmap]⟩
  owned := by simp [hmap]
  size := hsize
  byte p := by simp [File.storedByte, hmap, Contents.empty]

/-- There is nothing from the position `n` on: no block after the one of `n`, and only zeros in the
rest of that block. -/
structure File.NothingFrom (f : File) (n : ℤ) : Prop where
  /-- No block lies after the one of `n`. -/
  blocks : ∀ (k : ℤ) (a : ℕ), f.inode.dataBlocks[k]? = some a → k ≤ n.tdiv BLOCK_SIZE
  /-- The stored bytes from `n` on are zero. -/
  zeros : ∀ p : ℕ, n ≤ p → ∀ b, f.storedByte p = some b → b = 0

/-- A size to which the file can be truncated: growing does not overflow the counter of the loop,
and a cut finds nothing after the new size. -/
structure File.CanTruncate (f : File) (n : ℤ) : Prop where
  /-- Sizes are not negative. -/
  nonneg : 0 ≤ n
  /-- The loop that extends a file counts in an `int`. -/
  grow : f.st.stSize < n → n ≤ 2 ^ 31 - BLOCK_SIZE
  /-- A cut to a size other than zero finds nothing after it. -/
  cut : n ≠ 0 → n < f.st.stSize → f.NothingFrom n

/-- The writes and truncations after which a file has the contents it should have: a write meets at
most two blocks and ends below `2 ^ 63`, and a setattr that passes its checks asks for a size to
which the file can be truncated. -/
def File.Tame (f : File) : FileRequest → Prop
  | .write w => w.blocksTouched ≤ 2 ∧ w.pos + w.size < 2 ^ 63
  | .setattr r => r.has FUSE_SET_ATTR_SIZE → ∀ clearMode st,
      setattrFields r f.st = (.ok clearMode, st) →
        st.isRegular ∧ (setattrSizeCheck r st = .ok 0 → f.CanTruncate r.attr.stSize)
  | .openFile _ => True
  | _ => False

/-! ## The behaviours of a request on a drained file -/

/-- The block behaviours of a write or a truncation run to their end, and leave the inode, the
contents and the replies. -/
theorem settles_blocks {c : FileConfig} (hinv : FileInv c) (howned : Owned c)
    (hparts : ∀ t ∈ c.pending, (∀ r, t ≠ .inode r) ∧ t.part? = none) :
    (∃ c', fileSystem.Settles c c') ∧ ∀ c', fileSystem.Settles c c' →
      c'.pending = [] ∧ FileInv c' ∧ Owned c' ∧ c'.state.inode = c.state.inode ∧
        (∀ p, valueAt c' p = valueAt c p) ∧ c'.replies = c.replies := by
  have hdata : DataInv c := ⟨hinv, howned, fun q hq =>
    absurd rfl ((hparts _ (mem_pendingRequests.mp hq)).1 q)⟩
  obtain ⟨hex, hend⟩ := hdata.exists_settles
  refine ⟨hex, fun c' hc' => ⟨hend c' hc', ?_⟩⟩
  have hall : (DataInv c' ∧ ∀ t ∈ c'.pending, (∀ r, t ≠ .inode r) ∧ t.part? = none) ∧
      c'.state.inode = c.state.inode ∧ (∀ p, valueAt c' p = valueAt c p) ∧
      c'.replies = c.replies := by
    refine hc'.invariant (P := fun c' =>
      (DataInv c' ∧ ∀ t ∈ c'.pending, (∀ r, t ≠ .inode r) ∧ t.part? = none) ∧
      c'.state.inode = c.state.inode ∧ (∀ p, valueAt c' p = valueAt c p) ∧
      c'.replies = c.replies) ?_ ⟨⟨hdata, hparts⟩, rfl, fun _ => rfl, rfl⟩
    rintro c₁ c₂ ⟨⟨h₁, hparts₁⟩, hinode, hvalue, hreplies⟩ ⟨b, hstep⟩
    have h₂ := h₁.step hstep fun q hq => by cases hq
    cases fileStep_of_step hstep with
    | @inode f pre post rs q e => exact absurd rfl ((hparts₁ (.inode q) (by simp)).1 q)
    | @block f pre post rs _ e ht hfree hbody hblock =>
      have hpart : b.part? = none := (hparts₁ b (by simp)).2
      have hspawned : e.spawned = [] ∧ e.replies = [] := by
        cases File.body_readsStep ht hbody with
        | other _ _ hspawned hreplies => exact ⟨hspawned, hreplies⟩
        | copy => cases hpart
        | count => cases hpart
      refine ⟨⟨h₂, fun t' ht' => hparts₁ t' ?_⟩, hblock.inode_eq.trans hinode,
        fun p => (valueAt_run hfree hblock p).trans (hvalue p), ?_⟩
      · rw [hspawned.1, List.append_nil] at ht'
        rcases List.mem_append.mp ht' with ht' | ht' <;> simp [ht']
      · rw [hspawned.2, List.append_nil]
        exact hreplies
  exact ⟨hall.1.1.toFileInv, hall.1.1.toOwned, hall.2⟩

/-- The bytes of a file that owns its buffers, with nothing pending. -/
theorem File.Holds.valueAt {f : File} {c : Contents} (h : f.Holds c) (rs : List Reply) (p : ℕ) :
    VeronaFs.valueAt ⟨f, [], rs⟩ p = some (c.byte p) := by
  rw [valueAt_eq_storedByte h.owned, h.byte]

/-- A drained configuration holds the contents that its bytes are. -/
theorem File.Holds.of_valueAt {f : File} {c : Contents} {rs : List Reply}
    (hinv : FileInv ⟨f, [], rs⟩) (howned : Owned ⟨f, [], rs⟩) (hsize : f.st.stSize = c.size)
    (hvalue : ∀ p, VeronaFs.valueAt ⟨f, [], rs⟩ p = some (c.byte p)) : f.Holds c where
  wf := hinv.wf
  owned k a hk := howned.blocks k a hk
  size := hsize
  byte p := by
    have hp := hvalue p
    rw [valueAt_eq_storedByte fun k a hk => howned.blocks k a hk] at hp
    exact Option.some.inj hp

section Drained

variable {f : File} {c : Contents} {q : FileRequest}

/-- A request that runs on a drained file: when its step leaves the contents `c'`, the file holds
them once everything has run. -/
theorem File.Holds.serves_step {c' : Contents} {e : Effect File FileTask Reply} (h : f.Holds c)
    (hrun : fileSystem.Runs (.inode q) f e) (hkeep : f.KeepsBlocks q)
    (hparts : ∀ t ∈ e.spawned, (∀ r, t ≠ .inode r) ∧ t.part? = none)
    (hsize : e.state.st.stSize = c'.size)
    (hvalue : ∀ p, VeronaFs.valueAt ⟨e.state, e.spawned, e.replies⟩ p = some (c'.byte p)) :
    (∃ d, fileSystem.Settles ⟨f, [.inode q], []⟩ d) ∧
      ∀ d, fileSystem.Settles ⟨f, [.inode q], []⟩ d →
        d.pending = [] ∧ d.state.Holds c' ∧ d.replies = e.replies ∧
          d.state.inode = e.state.inode := by
  have hinv : FileInv ⟨f, [] ++ .inode q :: [], []⟩ :=
    ⟨h.wf, by simp [FileTask.cowns], by simp [FileTask.Fits]⟩
  have howned : Owned ⟨f, [] ++ .inode q :: [], []⟩ := ⟨h.owned, trivial, trivial⟩
  have hreq : File.RequestStep q f e := File.inodeBody_requestStep hrun.body_eq
  have hinv' : FileInv ⟨e.state, [] ++ [] ++ e.spawned, e.replies⟩ := hreq.fileInv hinv (by simp)
  have howned' : Owned ⟨e.state, [] ++ [] ++ e.spawned, e.replies⟩ :=
    howned.requestStep hinv hreq hkeep
  obtain ⟨hex, hend⟩ := settles_blocks hinv' howned' hparts
  simp only [System.settles_singleton hrun]
  refine ⟨hex, fun d hd => ?_⟩
  obtain ⟨hp, hinvd, hownedd, hinode, hvalued, hreplies⟩ := hend d hd
  obtain ⟨g, pending, rs⟩ := d
  obtain rfl : pending = [] := hp
  refine ⟨rfl, .of_valueAt hinvd hownedd ?_ fun p => (hvalued p).trans (hvalue p), hreplies,
    hinode⟩
  change g.inode.iSt.stSize = _
  rw [show g.inode = e.state.inode from hinode]
  exact hsize

/-- A write of at most two blocks. -/
theorem File.Holds.serves_write (h : f.Holds c) {w : WriteReq} (hsmall : w.blocksTouched ≤ 2)
    (hend : w.pos + w.size < 2 ^ 63) :
    (∃ d, fileSystem.Settles ⟨f, [.inode (.write w)], []⟩ d) ∧
      ∀ d, fileSystem.Settles ⟨f, [.inode (.write w)], []⟩ d →
        d.pending = [] ∧ d.state.Holds (c.write w) ∧ d.replies = [.write w.req w.size] ∧
          d.state.inode = (f.write w).1.inode := by
  obtain ⟨e, he⟩ := FileRequest.IsData.runs (q := .write w) trivial h.wf
  obtain rfl : e = ⟨(f.write w).1, (f.write w).2, [.write w.req w.size]⟩ :=
    Except.ok.inj (he.body_eq.symm.trans rfl)
  have hinv : FileInv ⟨f, [] ++ .inode (.write w) :: [], []⟩ :=
    ⟨h.wf, by simp [FileTask.cowns], by simp [FileTask.Fits]⟩
  have hoff := w.off_eq
  refine h.serves_step he (FileRequest.IsData.keepsBlocks (q := .write w) trivial f) ?_ ?_ ?_
  · intro t ht
    rcases f.write_tasks w with hw | ⟨u, k, hw, -⟩ | ⟨u₀, u₁, k, hw, -⟩
    · simp [hw] at ht
    · simp only [hw, List.mem_singleton] at ht
      simp [ht, FileTask.part?]
    · simp only [hw, List.mem_singleton] at ht
      simp [ht, FileTask.part?]
  · rw [File.write_stSize, h.size, cOff_of_lt (by omega) (by omega), hoff]
    simp [Contents.write]
  · intro p
    have hvalue : VeronaFs.valueAt ⟨(f.write w).1, [] ++ [] ++ (f.write w).2,
        [.write w.req w.size]⟩ p = _ :=
      valueAt_write hinv (fun t => mem_drop_inode) replay_drop_inode w p
    rw [if_pos hsmall] at hvalue
    refine hvalue.trans ?_
    change Option.map _ (VeronaFs.valueAt ⟨f, [], []⟩ p) = _
    rw [h.valueAt]
    rfl

/-- A truncation that runs to its end. -/
theorem File.Holds.serves_truncate {n : ℤ} {f' : File} {tasks : List FileTask} {rs : List Reply}
    (h : f.Holds c) (hrun : fileSystem.Runs (.inode q) f ⟨f', tasks, rs⟩)
    (hcan : f.CanTruncate n) (hq : q.newSize = some n) (ht : File.Truncates n f f' tasks) :
    (∃ d, fileSystem.Settles ⟨f, [.inode q], []⟩ d) ∧
      ∀ d, fileSystem.Settles ⟨f, [.inode q], []⟩ d →
        d.pending = [] ∧ d.state.Holds (c.truncate n.toNat) ∧ d.replies = rs ∧
          d.state.inode = f'.inode := by
  have hinv : FileInv ⟨f, [] ++ .inode q :: [], []⟩ :=
    ⟨h.wf, by simp [FileTask.cowns], by simp [FileTask.Fits]⟩
  have hnonneg := hcan.nonneg
  have hsize := h.size
  have hkeep : f.KeepsBlocks q := by
    intro m hm h0 hlt
    obtain rfl : n = m := Option.some.inj (hq.symm.trans hm)
    exact (hcan.cut h0 hlt).blocks
  have hparts : ∀ t ∈ tasks, (∀ r, t ≠ .inode r) ∧ t.part? = none := by
    intro t hmem
    obtain ⟨a, k, rfl, -⟩ := ht.spawned hmem
    exact ⟨by simp, rfl⟩
  -- without releases the bytes stay, so all of them must be those of the new contents
  have hgrow : tasks = [] → File.Grows (fun _ => True) f f' →
      (∀ p, c.byte p = (c.truncate n.toNat).byte p) →
      ∀ p, VeronaFs.valueAt ⟨f', tasks, rs⟩ p = some ((c.truncate n.toNat).byte p) := by
    rintro rfl hg hbyte p
    have hvalue : VeronaFs.valueAt ⟨f', [] ++ [] ++ [], rs⟩ p = _ :=
      valueAt_grows hinv hg (fun t => mem_drop_inode) replay_drop_inode (fun _ _ => rfl) p
    rw [← hbyte]
    exact hvalue.trans (h.valueAt [] p)
  cases ht with
  | same hd hold hs =>
    refine h.serves_step hrun hkeep hparts (by rw [hs]; simp [Contents.truncate]; omega)
      (hgrow rfl (hd.grows _) fun p => ?_)
    simp only [Contents.truncate]
    split
    · rfl
    · exact c.zero_beyond p (by omega)
  | clear hn hold hmap hblocks hreads hs =>
    refine h.serves_step hrun hkeep hparts (by rw [hs]; simp [Contents.truncate, hn]) fun p => ?_
    rw [valueAt_of_get?_eq_none (by simp [hmap])]
    simp [Contents.truncate, hn]
  | shrink hn hlt hd hs =>
    obtain ⟨hafter, hzeros⟩ := hcan.cut hn hlt
    have hempty : StdMap.afterKey f.inode.dataBlocks (n.tdiv BLOCK_SIZE) = [] := by
      refine List.eq_nil_iff_forall_not_mem.mpr ?_
      rintro ⟨k, a⟩ hmem
      obtain ⟨hlt', hk⟩ := StdMap.mem_afterKey.mp hmem
      exact absurd (hafter k a hk) (not_le.mpr hlt')
    refine h.serves_step hrun hkeep hparts (by rw [hs]; simp [Contents.truncate]; omega)
      (hgrow (by rw [hempty]; rfl) (hd.grows _) fun p => ?_)
    simp only [Contents.truncate]
    split
    · rfl
    · rw [← h.byte]
      cases hb : f.storedByte p with
      | none => rfl
      | some b => exact hzeros p (by omega) b hb
  | extend hlt hg hs =>
    refine h.serves_step hrun hkeep hparts
      (by rw [hs (by omega)]; simp [Contents.truncate]; omega) (hgrow rfl hg fun p => ?_)
    simp only [Contents.truncate]
    split
    · rfl
    · exact c.zero_beyond p (by omega)

/-- A request that leaves the data. -/
theorem File.Holds.serves_keep {f' : File} {rs : List Reply} (h : f.Holds c)
    (hrun : fileSystem.Runs (.inode q) f ⟨f', [], rs⟩) (hd : File.SameData f f')
    (hs : f'.st.stSize = f.st.stSize) :
    (∃ d, fileSystem.Settles ⟨f, [.inode q], []⟩ d) ∧
      ∀ d, fileSystem.Settles ⟨f, [.inode q], []⟩ d →
        d.pending = [] ∧ d.state.Holds c ∧ d.replies = rs ∧ d.state.inode = f'.inode := by
  have hbuf : ∀ a, f'.bufOf a = f.bufOf a := fun a => by simp only [File.bufOf, hd.blocks_eq]
  have hheld : f'.Holds c := by
    refine ⟨(hd.grows fun _ => True).wf h.wf, fun k a hk => ?_, hs.trans h.size, fun p => ?_⟩
    · rw [hd.map_eq] at hk
      rw [hbuf]
      exact h.owned k a hk
    · rw [← h.byte]
      simp only [File.storedByte, hd.map_eq, hbuf]
  simp only [System.settles_singleton hrun, List.nil_append, System.settles_nil]
  refine ⟨⟨_, rfl⟩, ?_⟩
  rintro d rfl
  exact ⟨rfl, hheld, rfl, rfl⟩

end Drained

/-! ## Requests that run to their end -/

namespace File

/-- The growing loop ends when its counter does not overflow. -/
theorem growLoop_ok {n : ℤ} (hn : n ≤ 2 ^ 31 - BLOCK_SIZE) (f : File) (i : ℤ) :
    ∃ f', f.growLoop n i = .ok f' := by
  fun_induction growLoop f n i with
  | case1 => omega
  | case2 f i hi blockId f₁ f₂ hov ih => exact ih
  | case3 f i hi => exact ⟨f, rfl⟩

/-- A truncation ends when its loop does not overflow. -/
theorem truncate_ok {f : File} {n : ℤ} (h : f.st.stSize < n → n ≤ 2 ^ 31 - BLOCK_SIZE) :
    ∃ f' tasks, f.truncate n = .ok (f', tasks) := by
  unfold truncate
  split
  · exact ⟨_, _, rfl⟩
  · split
    · exact ⟨_, _, rfl⟩
    · split
      · exact ⟨_, _, rfl⟩
      · obtain ⟨f', hf'⟩ := growLoop_ok (h (by omega)) f 0
        exact ⟨f', [], by rw [hf']; rfl⟩

/-- A setattr whose checks on the attributes fail. -/
theorem setattr_of_fields_error {f : File} {r : SetattrReq} {ret : ℤ} {st : Stat}
    (h : setattrFields r f.st = (.error ret, st)) :
    f.setattr r = .ok ⟨{ f with inode.iSt := st }, [], [replyFail ret r.req]⟩ := by
  unfold setattr
  rw [h]

/-- A setattr whose check on the size fails. -/
theorem setattr_of_check_ne {f : File} {r : SetattrReq} {clearMode : BitVec 32} {ret : ℤ}
    {st : Stat} (h : setattrFields r f.st = (.ok clearMode, st)) (hsize : r.has FUSE_SET_ATTR_SIZE)
    (hcheck : setattrSizeCheck r st = .ok ret) (hret : ret ≠ 0) :
    f.setattr r = .ok ⟨{ f with inode.iSt := st }, [], [replyFail ret r.req]⟩ := by
  unfold setattr
  rw [h]
  simp only [hsize, if_true, hcheck]
  exact if_pos hret

/-- The check on the size only fails for a file that is not regular. -/
theorem setattrSizeCheck_ok {r : SetattrReq} {st : Stat} (h : st.isRegular) :
    ∃ ret, setattrSizeCheck r st = .ok ret := by
  unfold setattrSizeCheck
  simp only [access_W_OK, h, if_true]
  split_ifs <;> simp only [bind, Except.bind] <;> (try split) <;> (try split_ifs) <;>
    exact ⟨_, rfl⟩

/-- A tame setattr runs to its end. -/
theorem setattr_ok {f : File} {r : SetattrReq} (h : f.Tame (.setattr r)) :
    ∃ e, f.setattr r = .ok e := by
  have hshape := setattrFields_sameShape r f.st
  cases hfields : setattrFields r f.st with
  | mk res st =>
    rw [hfields] at hshape
    cases res with
    | error ret => exact ⟨_, setattr_of_fields_error hfields⟩
    | ok clearMode =>
      by_cases hsize : r.has FUSE_SET_ATTR_SIZE
      · obtain ⟨hreg, hcan⟩ := h hsize clearMode st hfields
        obtain ⟨ret, hret⟩ := setattrSizeCheck_ok (r := r) hreg
        by_cases h0 : ret = 0
        · obtain ⟨f₂, tasks, htrunc⟩ := truncate_ok (f := { f with inode.iSt := st })
            (n := r.attr.stSize) fun hlt => (hcan (h0 ▸ hret)).grow (hshape.size ▸ hlt)
          unfold setattr
          rw [hfields]
          simp only [hsize, if_true, hret]
          exact ⟨_, by simp only [bind, Except.bind, h0, ne_eq, not_true_eq_false, if_false, htrunc]; rfl⟩
        · exact ⟨_, setattr_of_check_ne hfields hsize hret h0⟩
      · unfold setattr
        rw [hfields]
        simp only [hsize, Bool.false_eq_true, if_false]
        exact ⟨_, rfl⟩

/-- The permission check of an open has no failing assertion. -/
theorem access_openMode (st : Stat) (flags : BitVec 32) (uid gid : ℕ) :
    ∃ ret, access st (openMode flags) uid gid = .ok ret := by
  unfold openMode
  split_ifs
  · exact ⟨_, access_R_OK ..⟩
  · exact ⟨_, access_W_OK ..⟩
  · exact ⟨_, by rw [access, if_neg (by decide), if_neg (by decide)]⟩
  · exact ⟨0, rfl⟩

/-- An open of a file whose size is not negative runs to its end. -/
theorem openFile_ok {f : File} (hsize : 0 ≤ f.st.stSize) (o : OpenReq) :
    ∃ e, f.openFile o = .ok e := by
  obtain ⟨ret, hret⟩ := access_openMode f.st o.flags o.uid o.gid
  obtain ⟨f', tasks, htrunc⟩ := truncate_ok (f := f) (n := 0) fun hlt => by omega
  unfold openFile
  simp only [hret, bind, Except.bind]
  split
  · exact ⟨_, rfl⟩
  · split
    · exact ⟨_, by simp only [htrunc]; rfl⟩
    · exact ⟨_, rfl⟩

end File

/-! ## Histories -/

/-- A tame request has a behaviour that runs to its end. -/
theorem File.Tame.body_ok {f : File} {c : Contents} {q : FileRequest} (hq : f.Tame q)
    (h : f.Holds c) : ∃ e, f.inodeBody q = .ok e := by
  cases q with
  | write w => exact ⟨_, rfl⟩
  | setattr r => exact File.setattr_ok hq
  | openFile o => exact File.openFile_ok (by rw [h.size]; exact Int.natCast_nonneg _) o
  | _ => exact absurd hq id

/-- A tame request that was not refused asks for a size to which the file can be truncated. -/
theorem File.Tame.canTruncate {f : File} {c : Contents} {q : FileRequest} (hq : f.Tame q)
    (h : f.Holds c) {e : Effect File FileTask Reply} (he : f.inodeBody q = .ok e)
    (hok : e.replies.any Reply.isErr = false) {n : ℤ} (hn : q.newSize = some n) :
    f.CanTruncate n := by
  cases q with
  | setattr r =>
    have hsize : r.has FUSE_SET_ATTR_SIZE = true := by
      by_contra hno
      simp [FileRequest.newSize, hno] at hn
    obtain rfl : r.attr.stSize = n := by simpa [FileRequest.newSize, hsize] using hn
    cases hfields : setattrFields r f.st with
    | mk res st =>
      cases res with
      | error ret =>
        obtain rfl := Except.ok.inj ((File.setattr_of_fields_error hfields).symm.trans he)
        simp [replyFail, Reply.isErr] at hok
      | ok clearMode =>
        obtain ⟨hreg, hcan⟩ := hq hsize clearMode st hfields
        obtain ⟨ret, hret⟩ := File.setattrSizeCheck_ok (r := r) hreg
        by_cases h0 : ret = 0
        · exact hcan (h0 ▸ hret)
        · obtain rfl := Except.ok.inj
            ((File.setattr_of_check_ne hfields hsize hret h0).symm.trans he)
          simp [replyFail, Reply.isErr] at hok
  | openFile o =>
    obtain rfl : n = 0 := by
      simp only [FileRequest.newSize] at hn
      split at hn
      · exact (Option.some.inj hn).symm
      · cases hn
    have hsize := h.size
    exact ⟨le_rfl, fun hlt => by omega, fun h0 => absurd rfl h0⟩
  | _ => cases hn

/-- A tame request that is served alone: its execution ends with nothing pending, and the file then
has the contents it should have. -/
theorem File.Holds.serves {f : File} {c : Contents} {q : FileRequest} (h : f.Holds c)
    (hq : f.Tame q) :
    (∃ d, fileSystem.Serves f q d) ∧
      ∀ d, fileSystem.Serves f q d → d.pending = [] ∧ d.state.Holds (c.apply q d.replies) := by
  simp only [System.serves_iff (f.handles q)]
  cases hdenied : q.denied with
  | true =>
    obtain ⟨errno, heq⟩ := f.handleRequest_of_denied hdenied
    simp only [heq, System.settles_nil]
    refine ⟨⟨_, rfl⟩, ?_⟩
    rintro d rfl
    refine ⟨rfl, ?_⟩
    cases q with
    | openFile o =>
      simp only [Contents.apply]
      split <;> exact h
    | setattr r => cases hdenied
    | _ => first | cases hdenied | exact absurd hq id
  | false =>
    rw [f.handleRequest_of_not_denied hdenied]
    obtain ⟨e, he⟩ := hq.body_ok h
    have hrun := f.runs_inode h.wf he
    have hcan := fun hok n hn => hq.canTruncate h he hok (n := n) hn
    suffices hstep : ∃ rs c' i, c' = c.apply q rs ∧
        (∃ d, fileSystem.Settles ⟨f, [.inode q], []⟩ d) ∧
        ∀ d, fileSystem.Settles ⟨f, [.inode q], []⟩ d →
          d.pending = [] ∧ d.state.Holds c' ∧ d.replies = rs ∧ d.state.inode = i by
      obtain ⟨rs, c', i, rfl, hex, hend⟩ := hstep
      refine ⟨hex, fun d hd => ?_⟩
      obtain ⟨hp, hheld, hrs, -⟩ := hend d hd
      exact ⟨hp, hrs ▸ hheld⟩
    cases File.inodeBody_requestStep he with
    | write w => exact ⟨_, _, _, rfl, h.serves_write hq.1 hq.2⟩
    | read r => exact absurd hq id
    | @truncate _ _ f' tasks rs n hn ht hok =>
      refine ⟨rs, c.truncate n.toNat, _, ?_, h.serves_truncate hrun (hcan hok n hn) hn ht⟩
      cases q <;> first | cases hn | simp only [Contents.apply, hn, hok, Bool.false_eq_true, if_false]
    | reserve => exact absurd hq id
    | @keep _ _ f' rs hother hd hs hrefused =>
      refine ⟨rs, c, _, ?_, h.serves_keep hrun hd hs⟩
      rcases hrefused with hnone | herr
      · cases q <;> first | exact absurd trivial hother | simp only [Contents.apply, hnone]
      · cases q with
        | write w => exact absurd trivial hother
        | _ => simp only [Contents.apply, herr, if_true]; split <;> rfl

/-- After every history of tame writes and truncations the file has the contents it should have:
each write put its bytes and each truncation cut the previous contents or extended them with zeros.
Every further tame request is served to its end. -/
theorem history_holds {f₀ : File} {c₀ : Contents} (h₀ : f₀.Holds c₀)
    {h : List (FileRequest × List Reply)} {f : File}
    (hserial : fileSystem.Serial File.Tame f₀ h f) :
    f.Holds (c₀.after h) ∧ ∀ q, f.Tame q →
      (∃ d, fileSystem.Serves f q d) ∧ ∀ d, fileSystem.Serves f q d →
        d.pending = [] ∧ d.state.Holds (c₀.after (h ++ [(q, d.replies)])) := by
  have hheld : f.Holds (c₀.after h) := by
    refine hserial.invariant (P := fun h f => f.Holds (c₀.after h)) h₀ fun h f q f' rs ih hq hs => ?_
    rw [Contents.after_append_singleton]
    exact ((ih.serves hq).2 _ hs).2
  refine ⟨hheld, fun q hq => ?_⟩
  simp only [Contents.after_append_singleton]
  exact hheld.serves hq

/-- A setattr by root that asks for the size `n`. -/
def rootTruncate (n : ℤ) : SetattrReq :=
  ⟨0, none, { initStat 3 0 0 0 BLOCK_SIZE 0o644 true with stSize := n }, FUSE_SET_ATTR_SIZE, 0, 0,
    0, 0, 0⟩

/-- A truncation sets no attribute but the size. -/
theorem rootTruncate_has (n : ℤ) (bits : BitVec 32) :
    (rootTruncate n).has bits = (FUSE_SET_ATTR_SIZE &&& bits != 0) := rfl

/-- The attributes that a truncation by root assigns before the size: none. -/
theorem setattrFields_rootTruncate (n : ℤ) (st : Stat) :
    setattrFields (rootTruncate n) st = (.ok 0, st) := by
  have hmode : (FUSE_SET_ATTR_SIZE &&& FUSE_SET_ATTR_MODE != 0) = false := by decide
  have howner : (FUSE_SET_ATTR_SIZE &&& (FUSE_SET_ATTR_UID ||| FUSE_SET_ATTR_GID) != 0) = false := by
    decide
  have htimes : (FUSE_SET_ATTR_SIZE &&& (FUSE_SET_ATTR_MTIME ||| FUSE_SET_ATTR_ATIME) != 0) =
      false := by decide
  have hctime : (FUSE_SET_ATTR_SIZE &&& FUSE_SET_ATTR_CTIME != 0) = false := by decide
  simp only [setattrFields, setattrMode, setattrOwner, setattrTimes, setattrCtime,
    rootTruncate_has, hmode, howner, htimes, hctime, Bool.false_eq_true, if_false]

/-- A write of two bytes. -/
def twoBytes : WriteReq := ⟨0, [1, 2], 0, 0, longRead.off_nonneg, longRead.off_lt,
  twoBlockWrite.size_lt⟩

/-- The write of two bytes meets one block. -/
theorem twoBytes_small : twoBytes.blocksTouched ≤ 2 := by
  rw [WriteReq.blocksTouched_le_two]
  decide

/-- Two bytes are written to an empty file: it has one block. -/
theorem serves_twoBytes :
    ∃ f, fileSystem.Serves emptyFile (.write twoBytes) ⟨f, [], [.write 0 2]⟩ ∧
      f.Holds (Contents.empty.write twoBytes) ∧ f.st.isRegular ∧
      ∀ (k : ℤ) (a : ℕ), f.inode.dataBlocks[k]? = some a → k ≤ 0 := by
  have h₀ : emptyFile.Holds .empty := File.holds_empty rfl rfl
  obtain ⟨⟨⟨f, pending, rs⟩, hd⟩, hend⟩ := h₀.serves_write twoBytes_small (by decide)
  obtain ⟨hp, hheld, hrs, hinode⟩ := hend _ hd
  obtain rfl : pending = [] := hp
  obtain rfl : rs = [.write 0 2] := hrs
  replace hinode : f.inode = (emptyFile.write twoBytes).1.inode := hinode
  refine ⟨f, ?_, hheld, ?_, fun k a hk => ?_⟩
  · rw [System.serves_iff (emptyFile.handles _), emptyFile.handleRequest_of_not_denied rfl]
    exact hd
  · rw [File.st, hinode, Stat.isRegular,
      show (emptyFile.write twoBytes).1.inode.iSt.stMode = _ from emptyFile.write_stMode twoBytes]
    decide
  · rw [hinode] at hk
    rcases (emptyFile.write_touched twoBytes (by decide)).1.fresh k a hk with
      hold | ⟨-, ⟨p, h₁, h₂, rfl⟩, -⟩
    · simp [emptyFile, File.make] at hold
    · have hend : twoBytes.pos + twoBytes.size = 2 := rfl
      have hzero : p / BLOCK_SIZE = 0 := Nat.div_eq_of_lt (by change p < 4096; omega)
      simp [blockOf, hzero]

/-- Two bytes are written to an empty file, and the file is extended to three. -/
theorem history_holds_extend :
    ∃ h f, fileSystem.Serial File.Tame emptyFile h f ∧
      h.map Prod.fst = [.write twoBytes, .setattr (rootTruncate 3)] ∧
      f.Holds (Contents.empty.after h) ∧ ∀ q, f.Tame q →
        (∃ d, fileSystem.Serves f q d) ∧ ∀ d, fileSystem.Serves f q d →
          d.pending = [] ∧ d.state.Holds (Contents.empty.after (h ++ [(q, d.replies)])) := by
  obtain ⟨f₁, hserve₁, hheld₁, hreg, -⟩ := serves_twoBytes
  have htame : f₁.Tame (.setattr (rootTruncate 3)) := by
    intro _ clearMode st hfields
    obtain ⟨-, rfl⟩ := Prod.mk.inj ((setattrFields_rootTruncate 3 f₁.st).symm.trans hfields)
    have hsize : f₁.st.stSize = 2 := hheld₁.size
    exact ⟨hreg, fun _ => ⟨by decide, fun _ => by decide, fun _ hlt => by
      rw [hsize] at hlt
      exact absurd hlt (by decide)⟩⟩
  obtain ⟨⟨⟨f₂, pending, rs⟩, hd⟩, hend⟩ := hheld₁.serves htame
  obtain rfl : pending = [] := (hend _ hd).1
  have hserial := (System.Serial.nil.snoc ⟨twoBytes_small, by decide⟩ hserve₁).snoc htame hd
  exact ⟨_, f₂, hserial, rfl, history_holds (File.holds_empty rfl rfl) hserial⟩

/-! ## A truncation that leaves stale bytes -/

/-- The growing loop leaves the mode. -/
theorem File.growLoop_stMode {f f' : File} {n i : ℤ} (h : f.growLoop n i = .ok f') :
    f'.st.stMode = f.st.stMode := by
  fun_induction File.growLoop f n i with
  | case1 => cases h
  | case2 f i hi blockId f₁ f₂ hov ih =>
    refine (ih h).trans ?_
    simp only [f₂, f₁]
    split <;> rfl
  | case3 f i hi => rw [← Except.ok.inj h]

/-- Truncation leaves the mode. -/
theorem File.truncate_stMode {f f' : File} {n : ℤ} {tasks : List FileTask}
    (h : f.truncate n = .ok (f', tasks)) : f'.st.stMode = f.st.stMode := by
  unfold File.truncate at h
  split at h
  · rw [← (Prod.mk.inj (Except.ok.inj h)).1]
  · split at h
    · rw [← (Prod.mk.inj (Except.ok.inj h)).1]
    · split at h
      · rw [← (Prod.mk.inj (Except.ok.inj h)).1]
      · obtain ⟨f₁, hgrow, h⟩ := bind_eq_ok.mp h
        rw [← (Prod.mk.inj (Except.ok.inj h)).1]
        exact File.growLoop_stMode hgrow

/-- A truncation that is not refused gives the contents its size. -/
theorem Contents.apply_rootTruncate (c : Contents) (n : ℤ) {rs : List Reply}
    (hok : rs.any Reply.isErr = false) :
    c.apply (.setattr (rootTruncate n)) rs = c.truncate n.toNat := by
  have hsize : (FileRequest.setattr (rootTruncate n)).newSize = some n := by
    simp only [FileRequest.newSize, rootTruncate_has]
    exact if_pos (by decide)
  simp only [Contents.apply, hsize, hok, Bool.false_eq_true, if_false]

/-- The check of the size passes for root on a regular file. -/
theorem setattrSizeCheck_rootTruncate {n : ℤ} {st : Stat} (hreg : st.isRegular)
    (hn : n ≤ 2 ^ 31 - BLOCK_SIZE) : setattrSizeCheck (rootTruncate n) st = .ok 0 := by
  have hbig : ¬ (rootTruncate n).attr.stSize > 2199023255552 := by
    change ¬ n > 2199023255552
    omega
  simp only [setattrSizeCheck, rootTruncate, hreg, bind, Except.bind] at hbig ⊢
  simp [hbig]

/-- A truncation by root runs to its end on a regular file when it does not overflow. -/
theorem runs_rootTruncate {f : File} (hwf : f.WF) (hreg : f.st.isRegular) {n : ℤ}
    (hn : n ≤ 2 ^ 31 - BLOCK_SIZE) :
    ∃ f' tasks st, fileSystem.Runs (.inode (.setattr (rootTruncate n))) f
        ⟨f', tasks, [.attr 0 st]⟩ ∧ File.Truncates n f f' tasks ∧
      f'.st.stMode = f.st.stMode := by
  obtain ⟨f₁, tasks, htrunc⟩ := File.truncate_ok (f := f) fun _ => hn
  have hbody : f.inodeBody (.setattr (rootTruncate n)) = .ok ⟨{ f₁ with
      inode.iSt := setattrFinish (rootTruncate n) 0 { f₁.st with stMtime := 0 } }, tasks,
      [.attr 0 (setattrFinish (rootTruncate n) 0 { f₁.st with stMtime := 0 })]⟩ := by
    change f.setattr (rootTruncate n) = _
    have hhas : (rootTruncate n).has FUSE_SET_ATTR_SIZE = true := by
      rw [rootTruncate_has]
      decide
    have hsize : (rootTruncate n).attr.stSize = n := rfl
    unfold File.setattr
    rw [setattrFields_rootTruncate]
    simp only [hhas, if_true, setattrSizeCheck_rootTruncate hreg hn, hsize, bind, Except.bind,
      ne_eq, not_true_eq_false, if_false, htrunc]
    rfl
  have ht := File.truncate_truncates htrunc
  have hmode := File.truncate_stMode htrunc
  refine ⟨_, _, _, f.runs_inode hwf hbody, ht.congr (.refl f) rfl ⟨rfl, rfl, rfl⟩ rfl, ?_⟩
  rw [← hmode]
  simp only [File.st, setattrFinish, rootTruncate_has,
    show (FUSE_SET_ATTR_SIZE &&& FUSE_SET_ATTR_MODE != 0) = false by decide, Bool.false_eq_true,
    if_false]

/-- Growth keeps the stored bytes. -/
theorem File.Grows.storedByte_eq {ids : ℤ → Prop} {f f' : File} (hg : File.Grows ids f f')
    (hwf : f.WF) {p : ℕ} {b : UInt8} (hb : f.storedByte p = some b) :
    f'.storedByte p = some b := by
  unfold File.storedByte at hb ⊢
  cases hk : f.inode.dataBlocks[blockOf p]? with
  | none =>
    rw [hk] at hb
    cases hb
  | some a =>
    rw [hk] at hb
    rw [hg.kept _ a hk]
    simp only [hg.bufOf, if_pos (hwf.bounded _ a hk)]
    exact hb

/-- A truncation by root to a size after whose block there is none keeps every block. -/
theorem serves_rootTruncate {f : File} (hwf : f.WF) (hreg : f.st.isRegular) {n : ℤ} (hpos : 0 < n)
    (hn : n ≤ 2 ^ 31 - BLOCK_SIZE)
    (hblocks : ∀ (k : ℤ) (a : ℕ), f.inode.dataBlocks[k]? = some a → k ≤ n.tdiv BLOCK_SIZE) :
    ∃ f' rs, fileSystem.Serves f (.setattr (rootTruncate n)) ⟨f', [], rs⟩ ∧
      rs.any Reply.isErr = false ∧ File.Grows (fun _ => True) f f' ∧ f'.st.stSize = n ∧
      f'.st.isRegular ∧ (n ≤ f.st.stSize → f'.inode.dataBlocks = f.inode.dataBlocks) := by
  obtain ⟨f', tasks, st, hrun, ht, hmode⟩ := runs_rootTruncate hwf hreg hn
  obtain ⟨rfl, hg, hsize, hmap⟩ : tasks = [] ∧ File.Grows (fun _ => True) f f' ∧
      f'.st.stSize = n ∧ (n ≤ f.st.stSize → f'.inode.dataBlocks = f.inode.dataBlocks) := by
    cases ht with
    | same hd hold hs => exact ⟨rfl, hd.grows _, hs, fun _ => hd.map_eq⟩
    | clear h0 => omega
    | shrink _ _ hd hs =>
      refine ⟨?_, hd.grows _, hs, fun _ => hd.map_eq⟩
      have hempty : StdMap.afterKey f.inode.dataBlocks (n.tdiv BLOCK_SIZE) = [] := by
        refine List.eq_nil_iff_forall_not_mem.mpr ?_
        rintro ⟨k, a⟩ hmem
        obtain ⟨hlt, hk⟩ := StdMap.mem_afterKey.mp hmem
        exact absurd (hblocks k a hk) (not_le.mpr hlt)
      rw [hempty]
      rfl
    | extend hlt hg hs => exact ⟨rfl, hg, hs hpos, fun hle => absurd hlt (not_lt.mpr hle)⟩
  refine ⟨f', [.attr 0 st], ?_, rfl, hg, hsize, ?_, hmap⟩
  · rw [System.serves_iff (f.handles _), f.handleRequest_of_not_denied rfl,
      System.settles_singleton hrun]
    exact System.settles_nil.mpr rfl
  · rw [Stat.isRegular, hmode]
    exact hreg

/-- Two bytes are written, the file is cut to one byte and extended again: the second byte is back
although the contents should have a zero there. -/
theorem stale_tail :
    ∃ h f, fileSystem.Serial (fun _ _ => True) emptyFile h f ∧
      h.map Prod.fst =
        [.write twoBytes, .setattr (rootTruncate 1), .setattr (rootTruncate 2)] ∧
      (Contents.empty.after h).byte 1 = 0 ∧ f.st.stSize = 2 ∧ f.storedByte 1 = some 2 := by
  obtain ⟨f₁, hserve₁, hheld, hreg₁, hmap₁⟩ := serves_twoBytes
  have hbyte : f₁.storedByte 1 = some 2 := by
    have hb : (f₁.storedByte 1).getD 0 = 2 := hheld.byte 1
    cases hs : f₁.storedByte 1 with
    | none => simp [hs] at hb
    | some b => simpa [hs] using hb
  obtain ⟨f₂, rs₂, hserve₂, hok₂, hg₂, -, hreg₂, hsame⟩ :=
    serves_rootTruncate hheld.wf hreg₁ (n := 1) (by decide) (by decide) hmap₁
  have hmap₂ : ∀ (k : ℤ) (a : ℕ), f₂.inode.dataBlocks[k]? = some a → k ≤ 0 := by
    rwa [hsame (by rw [hheld.size]; decide)]
  obtain ⟨f₃, rs₃, hserve₃, hok₃, hg₃, hsize₃, -⟩ :=
    serves_rootTruncate (hg₂.wf hheld.wf) hreg₂ (n := 2) (by decide) (by decide) hmap₂
  refine ⟨_, f₃, ((System.Serial.nil.snoc trivial hserve₁).snoc trivial hserve₂).snoc trivial
    hserve₃, rfl, ?_, hsize₃, hg₃.storedByte_eq (hg₂.wf hheld.wf) (hg₂.storedByte_eq hheld.wf hbyte)⟩
  simp only [List.nil_append, List.cons_append, Contents.after, List.foldl_cons, List.foldl_nil,
    Contents.apply_rootTruncate, hok₂, hok₃]
  rfl

end VeronaFs
