import VeronaFs.FileSystem.Assignments

/-!
# Released blocks

A block whose buffer was released must not stay in the block map.  `truncate` takes the blocks it
releases out of the map when it cuts a file to zero, and leaves them there when it cuts it to another
size: `CutsBlocks` says when there is such a block.  A request that does not cut blocks keeps the
ownership of buffers (`Owned.inodeBody`).  All blocks of a forgotten inode are released, but what was
pending still finds its buffers (`Turns`) as long as nothing reads or writes.
-/

namespace VeronaFs

open Boc Foundation

/-- The request cuts the file to a size other than zero and releases a block that stays in the map: it
is a `setattr` whose checks pass, of a size below that of the file, and there is a block after the one
of the new size. -/
def File.CutsBlocks (f : File) (q : FileRequest) : Prop :=
  match q with
  | .setattr r => r.SetsSize f.st ∧ r.attr.stSize ≠ 0 ∧ r.attr.stSize < f.st.stSize ∧
      ∃ (k : ℤ) (a : ℕ), f.inode.dataBlocks[k]? = some a ∧ r.attr.stSize.tdiv BLOCK_SIZE < k
  | _ => False

/-- Every pending behaviour finds the buffers it needs at its turn. -/
def Turns (c : FileConfig) : Prop := AtTurn FileTask.update NeedsBuf c.pending c.state.bufs

section Released

variable {f : File} {pre post : List FileTask} {rs rs' : List Reply} {q : FileRequest}
  {e : Effect File FileTask Reply}

/-! ## Requests that do not cut -/

/-- A request that is not refused and does not cut blocks leaves none of them behind. -/
theorem File.keepsBlocks_of_not_cuts (hcut : ¬ f.CutsBlocks q)
    (hrefused : ∀ r, q = .setattr r → ¬ r.Refused f.st) : f.KeepsBlocks q := by
  intro n hn h0 hlt k a hk
  cases q with
  | setattr r =>
    simp only [FileRequest.newSize] at hn
    split at hn
    · next hsize =>
      obtain rfl := Option.some.inj hn
      have hno := hrefused r rfl
      have hfields : r.FieldsAllowed f.st := by
        by_contra hnot
        exact hno (.inl hnot)
      have hallowed : r.SizeAllowed f.st ∧ r.attr.stSize ≤ 2199023255552 := by
        by_contra hnot
        exact hno (.inr ⟨hsize, hnot⟩)
      by_contra hafter
      exact hcut ⟨⟨hsize, hfields, hallowed.1, hallowed.2⟩, h0, hlt, k, a, hk, not_le.mp hafter⟩
    · cases hn
  | openFile r =>
    simp only [FileRequest.newSize] at hn
    split at hn
    · exact absurd (Option.some.inj hn).symm h0
    · cases hn
  | _ => cases hn

/-- A request that does not cut blocks keeps the ownership of buffers. -/
theorem Owned.inodeBody (h : Owned ⟨f, pre ++ .inode q :: post, rs⟩)
    (hinv : FileInv ⟨f, pre ++ .inode q :: post, rs⟩) (he : f.inodeBody q = .ok e)
    (hcut : ¬ f.CutsBlocks q) : Owned ⟨e.state, pre ++ post ++ e.spawned, rs'⟩ := by
  by_cases hrefused : ∃ r, q = .setattr r ∧ r.Refused f.st
  · obtain ⟨r, rfl, hr⟩ := hrefused
    obtain ⟨ret, heq⟩ := File.setattr_of_refused hr
    obtain rfl := Except.ok.inj (heq.symm.trans he)
    have hdata : f.SameData { f with inode.iSt := (setattrFields r f.st).2 } := ⟨rfl, rfl, rfl⟩
    exact h.grows hinv (hdata.grows fun _ => True) (fun _ _ => trivial) fun _ _ _ _ hv => hv
  · refine h.requestStep hinv (File.inodeBody_requestStep he) ?_
    exact File.keepsBlocks_of_not_cuts hcut fun r hq hr => hrefused ⟨r, hq, hr⟩

/-! ## Turns -/

/-- A request leaves the buffers of the blocks there are. -/
theorem File.RequestStep.bufOf_eq (h : File.RequestStep q f e) {a : ℕ} (ha : a < f.blocks.length) :
    e.state.bufOf a = f.bufOf a := by
  have hgrows : ∀ {ids : ℤ → Prop} {f' : File}, File.Grows ids f f' → f'.bufOf a = f.bufOf a := by
    intro ids f' hg
    rw [hg.bufOf, if_pos ha]
  cases h with
  | write w => exact hgrows (f.write_grows w)
  | read r => simp only [File.bufOf, (f.read_inode r).2]
  | truncate n hq ht =>
    cases ht with
    | same hd => exact hgrows (hd.grows fun _ => True)
    | clear _ _ _ hblocks => simp only [File.bufOf, hblocks]
    | shrink _ _ hd => exact hgrows (hd.grows fun _ => True)
    | extend _ hg => exact hgrows hg
  | reserve hg => exact hgrows hg
  | keep _ hd => exact hgrows (hd.grows fun _ => True)

/-- A request that neither reads nor writes only schedules the release of blocks. -/
theorem File.RequestStep.spawned_of_not_data (h : File.RequestStep q f e) (hq : ¬ q.IsData)
    {t : FileTask} (ht : t ∈ e.spawned) : ∃ a, t = .freeSpace a := by
  cases h with
  | write w => exact absurd trivial hq
  | read r => exact absurd trivial hq
  | truncate n _ h =>
    obtain ⟨a, -, rfl, -⟩ := h.spawned ht
    exact ⟨a, rfl⟩
  | reserve => cases ht
  | keep => cases ht

/-- The release of a block needs no buffer. -/
theorem turns_append_releases {l l' : List FileTask} (h : Turns ⟨f, l, rs⟩)
    (hl' : ∀ t ∈ l', ∃ a, t = .freeSpace a) : Turns ⟨f, l ++ l', rs'⟩ := by
  refine atTurn_append.mpr ⟨h, atTurn_of_forall (fun t ht v => ?_) _⟩
  obtain ⟨a, rfl⟩ := hl' t ht
  trivial

/-- A request that neither reads nor writes leaves what pending behaviours find. -/
theorem Turns.requestStep (h : Turns ⟨f, pre ++ .inode q :: post, rs⟩)
    (hinv : FileInv ⟨f, pre ++ .inode q :: post, rs⟩) (hstep : File.RequestStep q f e)
    (hq : ¬ q.IsData) : Turns ⟨e.state, pre ++ post ++ e.spawned, rs'⟩ := by
  have hdrop : Turns ⟨e.state, pre ++ post, rs'⟩ :=
    atTurn_drop needsBuf_local h hinv fun a ha => hstep.bufOf_eq ha
  exact turns_append_releases hdrop fun t ht => hstep.spawned_of_not_data hq ht

end Released

/-! ## References and the number -/

namespace File

/-- The inode has the number and the references it had. -/
structure SameRefs (f f' : File) : Prop where
  /-- The number. -/
  ino_eq : f'.inode.ino = f.inode.ino
  /-- The references. -/
  krefs_eq : f'.inode.krefs = f.inode.krefs

variable {f f' : File}

/-- Nothing changed. -/
theorem SameRefs.refl (f : File) : SameRefs f f := ⟨rfl, rfl⟩

/-- Two changes after each other. -/
theorem SameRefs.trans {f'' : File} (h : SameRefs f f') (h' : SameRefs f' f'') : SameRefs f f'' :=
  ⟨h'.ino_eq.trans h.ino_eq, h'.krefs_eq.trans h.krefs_eq⟩

/-- The loop of a write keeps the number and the references. -/
theorem writeLoop_sameRefs (f : File) (offset : ℤ) (data : List UInt8) (bytesWritten remaining : ℕ)
    (vec : List Wrapper) : SameRefs f (f.writeLoop offset data bytesWritten remaining vec).1 := by
  fun_induction writeLoop f offset data bytesWritten remaining vec with
  | case1 => exact .refl _
  | case2 f bytesWritten remaining vec hrem pos blockId blockOffset fa bytesToWrite ih =>
    refine .trans ?_ ih
    simp only [fa, blockFor]
    split <;> exact ⟨rfl, rfl⟩

/-- A round of a loop that creates missing blocks keeps the number and the references. -/
theorem ensureBlock_sameRefs (f : File) (blockId : ℤ) : SameRefs f
    (if f.inode.dataBlocks[blockId]? = none then f.allocateSpace blockId else f) := by
  split <;> exact ⟨rfl, rfl⟩

/-- The growing loop of `truncate` keeps the number and the references. -/
theorem growLoop_sameRefs {newsize i : ℤ} (h : f.growLoop newsize i = .ok f') : SameRefs f f' := by
  fun_induction growLoop f newsize i with
  | case1 => cases h
  | case2 f i hi blockId f₁ f₂ hov ih =>
    have h₁ : SameRefs f f₁ := f.ensureBlock_sameRefs blockId
    exact h₁.trans ⟨(ih h).ino_eq, (ih h).krefs_eq⟩
  | case3 f i hi =>
    rw [← Except.ok.inj h]
    exact .refl _

/-- The loop of `my_fallocate` keeps the number and the references. -/
theorem fallocateLoop_sameRefs {i stop : ℤ} (h : f.fallocateLoop i stop = .ok f') :
    SameRefs f f' := by
  fun_induction fallocateLoop f i stop with
  | case1 => cases h
  | case2 f i hi blockId f₁ hov ih =>
    have h₁ : SameRefs f f₁ := f.ensureBlock_sameRefs blockId
    exact h₁.trans (ih h)
  | case3 f i hi =>
    rw [← Except.ok.inj h]
    exact .refl _

/-- `truncate` keeps the number and the references. -/
theorem truncate_sameRefs {newsize : ℤ} {tasks : List FileTask}
    (h : f.truncate newsize = .ok (f', tasks)) : SameRefs f f' := by
  unfold truncate at h
  split_ifs at h
  · rw [← (Prod.mk.inj (Except.ok.inj h)).1]
    exact .refl _
  · rw [← (Prod.mk.inj (Except.ok.inj h)).1]
    exact ⟨rfl, rfl⟩
  · rw [← (Prod.mk.inj (Except.ok.inj h)).1]
    exact ⟨rfl, rfl⟩
  · obtain ⟨f₁, hgrow, h⟩ := bind_eq_ok.mp h
    rw [← (Prod.mk.inj (Except.ok.inj h)).1]
    exact growLoop_sameRefs hgrow

/-- `setattr` keeps the number and the references. -/
theorem setattr_sameRefs {r : SetattrReq} {e : Effect File FileTask Reply}
    (h : f.setattr r = .ok e) : SameRefs f e.state := by
  unfold setattr at h
  split at h
  · rw [← Except.ok.inj h]
    exact ⟨rfl, rfl⟩
  · simp only at h
    split at h
    · obtain ⟨ret, -, h⟩ := bind_eq_ok.mp h
      split at h
      · rw [← Except.ok.inj h]
        exact ⟨rfl, rfl⟩
      · obtain ⟨⟨f₂, tasks⟩, htrunc, h⟩ := bind_eq_ok.mp h
        have hrefs := truncate_sameRefs htrunc
        rw [← Except.ok.inj h]
        exact ⟨hrefs.ino_eq, hrefs.krefs_eq⟩
    · rw [← Except.ok.inj h]
      exact ⟨rfl, rfl⟩

/-- The behaviour of a request keeps the number and the references. -/
theorem inodeBody_sameRefs {q : FileRequest} {e : Effect File FileTask Reply}
    (h : f.inodeBody q = .ok e) : SameRefs f e.state := by
  cases q with
  | write w =>
    rw [← Except.ok.inj h]
    have hrefs := writeLoop_sameRefs { f with
      inode.iSt := { f.st with
        stCtime := w.now, stMtime := w.now
        stSize := max f.st.stSize (cOff (w.off + w.data.length)) } } w.off w.data 0 w.data.length []
    exact ⟨hrefs.ino_eq, hrefs.krefs_eq⟩
  | read r =>
    rw [← Except.ok.inj h]
    exact ⟨by rw [(f.read_inode r).1], by rw [(f.read_inode r).1]⟩
  | setattr r => exact setattr_sameRefs h
  | openFile r =>
    obtain ⟨ret, -, h⟩ := bind_eq_ok.mp h
    split at h
    · rw [← Except.ok.inj h]
      exact .refl f
    · simp only at h
      split at h
      · obtain ⟨⟨f₁, tasks⟩, htrunc, h⟩ := bind_eq_ok.mp h
        have hrefs := truncate_sameRefs htrunc
        rw [← Except.ok.inj h]
        exact ⟨hrefs.ino_eq, hrefs.krefs_eq⟩
      · rw [← Except.ok.inj h]
        exact .refl f
  | fallocate req mode offset length =>
    obtain ⟨f₁, hloop, h⟩ := bind_eq_ok.mp h
    have hrefs := fallocateLoop_sameRefs hloop
    rw [← Except.ok.inj h]
    exact ⟨hrefs.ino_eq, hrefs.krefs_eq⟩
  | opendir req flags uid gid fi =>
    simp only [inodeBody] at h
    split at h
    · obtain ⟨ret, -, h⟩ := bind_eq_ok.mp h
      split at h <;>
      · rw [← Except.ok.inj h]
        exact .refl f
    · rw [← Except.ok.inj h]
      exact .refl f
  | access req mask uid gid =>
    obtain ⟨ret, -, h⟩ := bind_eq_ok.mp h
    rw [← Except.ok.inj h]
    exact .refl f

/-- Every behaviour behind a regular inode keeps its number and its references. -/
theorem body_sameRefs {t : FileTask} {e : Effect File FileTask Reply} (h : body t f = .ok e) :
    SameRefs f e.state := by
  by_cases ht : ∃ q, t = .inode q
  · obtain ⟨q, rfl⟩ := ht
    exact inodeBody_sameRefs h
  · simp only [not_exists] at ht
    have hstep := body_blockStep ht h
    exact ⟨by rw [hstep.inode_eq], by rw [hstep.inode_eq]⟩

end File

end VeronaFs
