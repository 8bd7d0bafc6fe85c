import VeronaFs.Namespace.Steps

/-!
# What the behaviours of rename do

The exits of the four behaviours of `rename`, as in the module on the other requests.
-/

namespace VeronaFs

open Boc Foundation

/-- The path of `rename` with a single parent. -/
@[simp] theorem RenameReq.sameParent_iff {r : RenameReq} :
    r.sameParent = true ↔ r.parent = r.newparent := by
  simp [sameParent]

/-- The permission to rename an inode that has the mode of a directory. -/
def RenameReq.SourceDenied (r : RenameReq) (st : Stat) : Prop :=
  st.isDir ∧ accessBits st W_OK r.uid r.gid ≠ 0

instance (r : RenameReq) (st : Stat) : Decidable (r.SourceDenied st) :=
  inferInstanceAs (Decidable (_ ∧ _))

/-! ## The parents -/

/-- The exits of `rename` on the parents. -/
inductive RenameStep (s : FsState) (r : RenameReq) : FsEffect → Prop
  /-- There is no entry. -/
  | noEntry {p np : DirInode} (hp : s.dirs[r.parent]? = some p)
      (hnp : s.dirs[r.newparent]? = some np) (hfind : p.find r.oldname = none) :
      RenameStep s r ⟨s, [], [.err r.req ENOENT]⟩
  /-- The requester may not write one of the parents. -/
  | denied {p np : DirInode} {old : Iter} (hp : s.dirs[r.parent]? = some p)
      (hnp : s.dirs[r.newparent]? = some np) (hfind : p.find r.oldname = some old)
      (hacc : ¬ (p.CanWrite r.uid r.gid ∧ np.CanWrite r.uid r.gid)) :
      RenameStep s r ⟨s, [], [.err r.req EACCES]⟩
  /-- The entry names a directory. -/
  | dir {p np d : DirInode} {old : Iter} (hp : s.dirs[r.parent]? = some p)
      (hnp : s.dirs[r.newparent]? = some np) (hfind : p.find r.oldname = some old)
      (hold : p.CanWrite r.uid r.gid) (hnew : np.CanWrite r.uid r.gid)
      (hdir : old.entry.ino = 1 ∨ old.entry.ino % 2 = 0)
      (hd : s.dirs[old.entry.ino]? = some d) : RenameStep s r ⟨s, [.renameDir r old], []⟩
  /-- The entry names a regular inode. -/
  | reg {p np : DirInode} {f : File} {old : Iter} (hp : s.dirs[r.parent]? = some p)
      (hnp : s.dirs[r.newparent]? = some np) (hfind : p.find r.oldname = some old)
      (hold : p.CanWrite r.uid r.gid) (hnew : np.CanWrite r.uid r.gid)
      (hdir : ¬ (old.entry.ino = 1 ∨ old.entry.ino % 2 = 0))
      (hf : s.regs[old.entry.ino]? = some f) : RenameStep s r ⟨s, [.renameReg r old], []⟩

/-- The body of `rename` takes one of its exits. -/
theorem rename_step {s : FsState} {r : RenameReq} {e : FsEffect} (h : s.rename r = .ok e) :
    RenameStep s r e := by
  obtain ⟨p, hp, h⟩ := bind_eq_ok.mp h
  obtain ⟨np, hnp, h⟩ := bind_eq_ok.mp h
  rw [FsState.getDir_eq_ok] at hp hnp
  cases hfind : p.find r.oldname with
  | none =>
    simp only [hfind] at h
    rw [← Except.ok.inj h]
    exact .noEntry hp hnp hfind
  | some old =>
    simp only [hfind, access_W_OK] at h
    obtain ⟨ret, hret, h⟩ := bind_eq_ok.mp h
    obtain rfl := Except.ok.inj hret
    rcases p.canWrite_cases r.uid r.gid with ⟨hold, hret⟩ | ⟨hold, hret⟩
    · rw [hret, if_neg (not_not.mpr rfl)] at h
      obtain ⟨ret', hret', h⟩ := bind_eq_ok.mp h
      obtain rfl := Except.ok.inj hret'
      rcases np.canWrite_cases r.uid r.gid with ⟨hnew, hret'⟩ | ⟨hnew, hret'⟩
      · rw [hret', if_neg (not_not.mpr rfl)] at h
        split at h
        · next hdir =>
          obtain ⟨d, hd, h⟩ := bind_eq_ok.mp h
          rw [FsState.getDir_eq_ok] at hd
          rw [← Except.ok.inj h]
          exact .dir hp hnp hfind hold hnew hdir hd
        · next hdir =>
          obtain ⟨f, hf, h⟩ := bind_eq_ok.mp h
          rw [FsState.getReg_eq_ok] at hf
          rw [← Except.ok.inj h]
          exact .reg hp hnp hfind hold hnew hdir hf
      · rw [hret', if_pos neg_EACCES_ne_zero] at h
        rw [← Except.ok.inj h]
        exact .denied hp hnp hfind fun hacc => hnew hacc.2
    · rw [hret, if_pos neg_EACCES_ne_zero] at h
      rw [← Except.ok.inj h]
      exact .denied hp hnp hfind fun hacc => hold hacc.1

/-! ## Replacement -/

/-- The exits of `replace_entry` and `replace_entry_same_parent`. -/
inductive ReplaceStep (s : FsState) (r : RenameReq) (old : Iter) : FsEffect → Prop
  /-- There is no target and a single parent. -/
  | one {p : DirInode} (hsame : r.parent = r.newparent) (hp : s.dirs[r.parent]? = some p)
      (hfind : p.find r.newname = none) :
      ReplaceStep s r old ⟨s.setDir r.parent (FsState.moveOne r old p), [], [.err r.req 0]⟩
  /-- There is no target and there are two parents. -/
  | two {p np : DirInode} (hne : r.parent ≠ r.newparent) (hp : s.dirs[r.parent]? = some p)
      (hnp : s.dirs[r.newparent]? = some np) (hfind : np.find r.newname = none) :
      ReplaceStep s r old
        ⟨(s.setDir r.parent (FsState.moveTwo r old p np).1).setDir r.newparent
          (FsState.moveTwo r old p np).2, [], [.err r.req 0]⟩
  /-- There is a target. -/
  | target {np : DirInode} {dupl : Iter} (hnp : s.dirs[r.newparent]? = some np)
      (hfind : np.find r.newname = some dupl) :
      ReplaceStep s r old ⟨s, [.replaceTables r old dupl], []⟩

/-- `replace_entry` takes one of its exits. -/
theorem replaceEntry_step {s : FsState} {r : RenameReq} {old : Iter} {e : FsEffect}
    (hne : r.parent ≠ r.newparent) (h : s.replaceEntry r old = .ok e) : ReplaceStep s r old e := by
  obtain ⟨p, hp, h⟩ := bind_eq_ok.mp h
  obtain ⟨np, hnp, h⟩ := bind_eq_ok.mp h
  rw [FsState.getDir_eq_ok] at hp hnp
  cases hfind : np.find r.newname with
  | none =>
    simp only [hfind] at h
    rw [← Except.ok.inj h]
    exact .two hne hp hnp hfind
  | some dupl =>
    simp only [hfind] at h
    rw [← Except.ok.inj h]
    exact .target hnp hfind

/-- `replace_entry_same_parent` takes one of its exits. -/
theorem replaceEntrySameParent_step {s : FsState} {r : RenameReq} {old : Iter} {e : FsEffect}
    (hsame : r.parent = r.newparent) (h : s.replaceEntrySameParent r old = .ok e) :
    ReplaceStep s r old e := by
  obtain ⟨p, hp, h⟩ := bind_eq_ok.mp h
  rw [FsState.getDir_eq_ok] at hp
  cases hfind : p.find r.newname with
  | none =>
    simp only [hfind] at h
    rw [← Except.ok.inj h]
    exact .one hsame hp hfind
  | some dupl =>
    simp only [hfind] at h
    rw [← Except.ok.inj h]
    exact .target (hsame ▸ hp) hfind

/-! ## The old inode -/

/-- The holder of the sticky bit and the owners for a directory that is renamed: with a single
parent the bit of the directory itself is tested. -/
def RenameReq.DirSticky (r : RenameReq) (d p : DirInode) : Prop :=
  if r.parent = r.newparent then r.stickyDenied d.iSt d.iSt.stUid d.iSt.stUid
  else r.stickyDenied p.iSt d.iSt.stUid p.iSt.stUid

/-- The exits of `rename` on an old inode that is a directory. -/
inductive RenameDirStep (s : FsState) (r : RenameReq) (old : Iter) : FsEffect → Prop
  /-- The permission on the directory is missing, with a single parent. -/
  | denied {d p : DirInode} (hd : s.dirs[old.entry.ino]? = some d)
      (hp : s.dirs[r.parent]? = some p) (hsame : r.parent = r.newparent)
      (hden : r.SourceDenied d.iSt) : RenameDirStep s r old ⟨s, [], [.err r.req EACCES]⟩
  /-- The permission on the directory is missing, with two parents: there is no reply. -/
  | silentDenied {d p : DirInode} (hd : s.dirs[old.entry.ino]? = some d)
      (hp : s.dirs[r.parent]? = some p) (hne : r.parent ≠ r.newparent)
      (hden : r.SourceDenied d.iSt) : RenameDirStep s r old ⟨s, [], []⟩
  /-- The sticky bit forbids it: there is no reply. -/
  | silentSticky {d p : DirInode} (hd : s.dirs[old.entry.ino]? = some d)
      (hp : s.dirs[r.parent]? = some p) (hden : ¬ r.SourceDenied d.iSt)
      (hsticky : r.DirSticky d p) : RenameDirStep s r old ⟨s, [], []⟩
  /-- The checks pass. -/
  | replace {d p : DirInode} {e : FsEffect} (hd : s.dirs[old.entry.ino]? = some d)
      (hp : s.dirs[r.parent]? = some p) (hden : ¬ r.SourceDenied d.iSt)
      (hsticky : ¬ r.DirSticky d p) (h : ReplaceStep s r old e) : RenameDirStep s r old e

/-- The check on the old inode. -/
theorem sourceCheck_eq_ok {r : RenameReq} {st : Stat} {ret : ℤ}
    (h : FsState.sourceCheck r st = .ok ret) :
    (r.SourceDenied st ∧ ret = -EACCES) ∨ (¬ r.SourceDenied st ∧ ret = 0) := by
  unfold FsState.sourceCheck at h
  unfold RenameReq.SourceDenied
  split at h
  · next hdir =>
    rw [access_W_OK] at h
    obtain rfl := Except.ok.inj h
    rcases accessBits_eq st W_OK r.uid r.gid with hret | hret
    · exact .inr ⟨fun hden => hden.2 hret, hret⟩
    · exact .inl ⟨⟨hdir, by rw [hret]; exact neg_EACCES_ne_zero⟩, hret⟩
  · next hdir => exact .inr ⟨fun hden => hdir hden.1, (Except.ok.inj h).symm⟩

/-- The body of `rename` on a directory takes one of its exits. -/
theorem renameDir_step {s : FsState} {r : RenameReq} {old : Iter} {e : FsEffect}
    (h : s.renameDir r old = .ok e) : RenameDirStep s r old e := by
  obtain ⟨d, hd, h⟩ := bind_eq_ok.mp h
  obtain ⟨p, hp, h⟩ := bind_eq_ok.mp h
  rw [FsState.getDir_eq_ok] at hd hp
  obtain ⟨ret, hret, h⟩ := bind_eq_ok.mp h
  by_cases hsame : r.parent = r.newparent
  · rw [if_pos (RenameReq.sameParent_iff.mpr hsame)] at h
    rcases sourceCheck_eq_ok hret with ⟨hden, rfl⟩ | ⟨hden, rfl⟩
    · rw [if_pos neg_EACCES_ne_zero] at h
      rw [← Except.ok.inj h]
      exact .denied hd hp hsame hden
    · rw [if_neg (not_not.mpr rfl)] at h
      split at h
      · next hsticky =>
        rw [← Except.ok.inj h]
        exact .silentSticky hd hp hden (by rwa [RenameReq.DirSticky, if_pos hsame])
      · next hsticky =>
        exact .replace hd hp hden (by rwa [RenameReq.DirSticky, if_pos hsame])
          (replaceEntrySameParent_step hsame h)
  · rw [if_neg (mt RenameReq.sameParent_iff.mp hsame)] at h
    rcases sourceCheck_eq_ok hret with ⟨hden, rfl⟩ | ⟨hden, rfl⟩
    · rw [if_pos neg_EACCES_ne_zero] at h
      rw [← Except.ok.inj h]
      exact .silentDenied hd hp hsame hden
    · rw [if_neg (not_not.mpr rfl)] at h
      split at h
      · next hsticky =>
        rw [← Except.ok.inj h]
        exact .silentSticky hd hp hden (by rwa [RenameReq.DirSticky, if_neg hsame])
      · next hsticky =>
        exact .replace hd hp hden (by rwa [RenameReq.DirSticky, if_neg hsame])
          (replaceEntry_step hsame h)

/-- The exits of `rename` on an old inode that is regular. -/
inductive RenameRegStep (s : FsState) (r : RenameReq) (old : Iter) : FsEffect → Prop
  /-- A permission is missing: there is no reply. -/
  | silent {f : File} {p : DirInode} (hf : s.regs[old.entry.ino]? = some f)
      (hp : s.dirs[r.parent]? = some p)
      (hden : r.SourceDenied f.st ∨ r.stickyDenied p.iSt f.st.stUid p.iSt.stUid = true) :
      RenameRegStep s r old ⟨s, [], []⟩
  /-- The checks pass. -/
  | replace {f : File} {p : DirInode} {e : FsEffect} (hf : s.regs[old.entry.ino]? = some f)
      (hp : s.dirs[r.parent]? = some p) (hden : ¬ r.SourceDenied f.st)
      (hsticky : ¬ r.stickyDenied p.iSt f.st.stUid p.iSt.stUid = true)
      (h : ReplaceStep s r old e) : RenameRegStep s r old e

/-- The body of `rename` on a regular inode takes one of its exits. -/
theorem renameReg_step {s : FsState} {r : RenameReq} {old : Iter} {e : FsEffect}
    (h : s.renameReg r old = .ok e) : RenameRegStep s r old e := by
  obtain ⟨f, hf, h⟩ := bind_eq_ok.mp h
  obtain ⟨p, hp, h⟩ := bind_eq_ok.mp h
  rw [FsState.getReg_eq_ok] at hf
  rw [FsState.getDir_eq_ok] at hp
  obtain ⟨ret, hret, h⟩ := bind_eq_ok.mp h
  rcases sourceCheck_eq_ok hret with ⟨hden, rfl⟩ | ⟨hden, rfl⟩
  · rw [if_pos neg_EACCES_ne_zero] at h
    rw [← Except.ok.inj h]
    exact .silent hf hp (.inl hden)
  · rw [if_neg (not_not.mpr rfl)] at h
    split at h
    · next hsticky =>
      rw [← Except.ok.inj h]
      exact .silent hf hp (.inr hsticky)
    · next hsticky =>
      refine .replace hf hp hden hsticky ?_
      split at h
      · next hsame => exact replaceEntrySameParent_step (RenameReq.sameParent_iff.mp hsame) h
      · next hne => exact replaceEntry_step (mt RenameReq.sameParent_iff.mpr hne) h

/-! ## The tables -/

/-- What the tables say about the old entry and the target. -/
def FsState.replaced (s : FsState) (r : RenameReq) (old dupl : Iter) (p np : DirInode) : Replaced :=
  let oldIno := (p.deref (r.freed .tableOld) old).2
  let duplIno := (np.deref (r.freed .tableDupl) dupl).2
  ⟨s.regTable[oldIno]?, s.regTable[duplIno]?, s.dirTable[oldIno]?, s.dirTable[duplIno]?⟩

/-- The effect of the behaviour on the tables. -/
theorem replaceTables_step {s : FsState} {r : RenameReq} {old dupl : Iter} {e : FsEffect}
    (h : s.replaceTables r old dupl = .ok e) :
    ∃ p np, s.dirs[r.parent]? = some p ∧ s.dirs[r.newparent]? = some np ∧
      e = ⟨s, [.replaceInodes r old dupl (s.replaced r old dupl p np)], []⟩ := by
  obtain ⟨p, hp, h⟩ := bind_eq_ok.mp h
  obtain ⟨np, hnp, h⟩ := bind_eq_ok.mp h
  rw [FsState.getDir_eq_ok] at hp hnp
  exact ⟨p, np, hp, hnp, (Except.ok.inj h).symm⟩

/-! ## The inodes -/

/-- The regular inode behind a cown that may be a placeholder. -/
theorem FsState.getReg?_eq_ok {s : FsState} {ino : Option ℕ} {f : Option File} :
    s.getReg? ino = .ok f ↔ (ino = none ∧ f = none) ∨
      ∃ i g, ino = some i ∧ f = some g ∧ s.regs[i]? = some g := by
  cases ino with
  | none => simp [getReg?, eq_comm]
  | some i =>
    cases h : s.regs[i]? with
    | none => simp [getReg?, getReg_of_none h, h]
    | some g => simp [getReg?, getReg_of_some h, h, eq_comm]

/-- The directory behind a cown that may be a placeholder. -/
theorem FsState.getDir?_eq_ok {s : FsState} {ino : Option ℕ} {d : Option DirInode} :
    s.getDir? ino = .ok d ↔ (ino = none ∧ d = none) ∨
      ∃ i g, ino = some i ∧ d = some g ∧ s.dirs[i]? = some g := by
  cases ino with
  | none => simp [getDir?, eq_comm]
  | some i =>
    cases h : s.dirs[i]? with
    | none => simp [getDir?, getDir_of_none h, h]
    | some g => simp [getDir?, getDir_of_some h, h, eq_comm]

/-- The inodes that the last behaviour of `rename` reads. -/
structure FsState.ReplaceReads (s : FsState) (r : RenameReq) (x : Replaced) (p np : DirInode)
    (duplReg : Option File) (oldDir duplDir : Option DirInode) : Prop where
  /-- The parent. -/
  parent : s.dirs[r.parent]? = some p
  /-- The new parent. -/
  newparent : s.dirs[r.newparent]? = some np
  /-- The target as a regular inode. -/
  duplReg : s.getReg? x.duplReg = .ok duplReg
  /-- The old inode as a directory. -/
  oldDir : s.getDir? x.oldDir = .ok oldDir
  /-- The target as a directory. -/
  duplDir : s.getDir? x.duplDir = .ok duplDir

/-- The exits of `replace_entry` and `replace_entry_same_parent` on the inodes. -/
inductive ReplaceInodesStep (s : FsState) (r : RenameReq) (old dupl : Iter) (x : Replaced) :
    FsEffect → Prop
  /-- A check fails. -/
  | refused {p np : DirInode} {duplReg : Option File} {oldDir duplDir : Option DirInode}
      {rs : List Reply} (hreads : s.ReplaceReads r x p np duplReg oldDir duplDir)
      (hcheck : FsState.replaceCheck r np duplReg oldDir duplDir = some rs) :
      ReplaceInodesStep s r old dupl x ⟨s, [], rs⟩
  /-- The target is replaced, with a single parent. -/
  | one {p np : DirInode} {duplReg : Option File} {oldDir duplDir : Option DirInode}
      (hsame : r.parent = r.newparent) (hreads : s.ReplaceReads r x p np duplReg oldDir duplDir)
      (hcheck : FsState.replaceCheck r np duplReg oldDir duplDir = none) :
      ReplaceInodesStep s r old dupl x
        ⟨(s.dropLink x.duplReg duplReg).setDir r.parent
          (FsState.replaceInodesOne r old dupl (oldDir.isSome && duplDir.isSome) p), [],
          [.err r.req 0]⟩
  /-- The target is replaced, with two parents. -/
  | two {p np : DirInode} {duplReg : Option File} {oldDir duplDir : Option DirInode}
      (hne : r.parent ≠ r.newparent) (hreads : s.ReplaceReads r x p np duplReg oldDir duplDir)
      (hcheck : FsState.replaceCheck r np duplReg oldDir duplDir = none) :
      ReplaceInodesStep s r old dupl x
        ⟨((s.dropLink x.duplReg duplReg).setDir r.parent
            (FsState.replaceInodesTwo r old dupl (oldDir.isSome && duplDir.isSome) p np).1).setDir
              r.newparent
            (FsState.replaceInodesTwo r old dupl (oldDir.isSome && duplDir.isSome) p np).2, [],
          [.err r.req 0]⟩

/-- The last behaviour of `rename` takes one of its exits. -/
theorem replaceInodes_step {s : FsState} {r : RenameReq} {old dupl : Iter} {x : Replaced}
    {e : FsEffect} (h : s.replaceInodes r old dupl x = .ok e) :
    ReplaceInodesStep s r old dupl x e := by
  obtain ⟨p, hp, h⟩ := bind_eq_ok.mp h
  obtain ⟨np, hnp, h⟩ := bind_eq_ok.mp h
  obtain ⟨duplReg, hdr, h⟩ := bind_eq_ok.mp h
  obtain ⟨oldDir, hod, h⟩ := bind_eq_ok.mp h
  obtain ⟨duplDir, hdd, h⟩ := bind_eq_ok.mp h
  rw [FsState.getDir_eq_ok] at hp hnp
  have hreads : s.ReplaceReads r x p np duplReg oldDir duplDir := ⟨hp, hnp, hdr, hod, hdd⟩
  cases hcheck : FsState.replaceCheck r np duplReg oldDir duplDir with
  | some rs =>
    simp only [hcheck] at h
    rw [← Except.ok.inj h]
    exact .refused hreads hcheck
  | none =>
    simp only [hcheck] at h
    split at h
    · next hsame =>
      rw [← Except.ok.inj h]
      exact .one (RenameReq.sameParent_iff.mp hsame) hreads hcheck
    · next hne =>
      rw [← Except.ok.inj h]
      exact .two (mt RenameReq.sameParent_iff.mpr hne) hreads hcheck

end VeronaFs
