import VeronaFs.Namespace.Inodes
import VeronaFs.FileSystem.Assignments

/-!
# Rights on attributes

The behaviour of `setattr` on a directory has its own copy of the assignments and checks.  For both
copies: a refused request leaves the inode as it was exactly when no assignment that changes something
comes before the check that fails, and a requester who is neither root nor the owner changes nothing
but the change time, and the size with what hangs on it where it may write.
-/

namespace VeronaFs

open Boc Foundation

/-! ## The behaviour on a directory -/

namespace FsState

variable {s : FsState} {ino : ℕ} {d : DirInode} {r : SetattrReq} {e : FsEffect}

/-- A refused request keeps the assignments that were made before the check that failed. -/
theorem setattrDir_of_refused (hd : s.getDir ino = .ok d) (h : r.Refused d.iSt) :
    ∃ ret, s.setattrDir ino r =
      .ok ⟨s.setDir ino { d with iSt := (setattrFields r d.iSt).2 }, [], [replyFail ret r.req]⟩ := by
  unfold setattrDir
  rw [hd]
  rcases setattrFields_cases r d.iSt with
    ⟨hfields, clearMode, mtime, atime, ctime, heq⟩ | ⟨-, ret, st', heq⟩
  · obtain ⟨hsize, hno⟩ := h.resolve_left (not_not.mpr hfields)
    rcases setattrSizeCheck_cases r d.iSt
      (show Stat.stMode { r.assigned d.iSt with stMtime := mtime, stAtime := atime, stCtime := ctime }
        = _ from rfl) rfl rfl with ⟨hyes, -⟩ | ⟨-, ret, hret, hcheck⟩
    · exact absurd hyes hno
    · simp only [heq, hsize, if_true, bind, Except.bind, hcheck]
      exact ⟨ret, if_pos hret⟩
  · simp only [heq, bind, Except.bind]
    exact ⟨ret, rfl⟩

/-- A request that is not refused succeeds, and sets the modification time when it asks for a
size. -/
theorem setattrDir_of_not_refused (hd : s.getDir ino = .ok d) (hno : ¬ r.Refused d.iSt)
    (he : s.setattrDir ino r = .ok e) : ∃ clearMode st',
    (st' = r.newStat d.iSt ∧ ¬ r.has FUSE_SET_ATTR_SIZE ∨
      st' = { r.newStat d.iSt with stMtime := r.now } ∧ r.has FUSE_SET_ATTR_SIZE) ∧
      e = ⟨s.setDir ino { d with iSt := setattrFinish r clearMode st' }, [],
        [.attr r.req (setattrFinish r clearMode st')]⟩ := by
  have hfields : r.FieldsAllowed d.iSt := by
    by_contra hnot
    exact hno (.inl hnot)
  obtain ⟨clearMode, heq⟩ := SetattrReq.setattrFields_of_allowed hfields
  unfold setattrDir at he
  rw [hd] at he
  simp only [bind, Except.bind, heq] at he
  by_cases hsize : r.has FUSE_SET_ATTR_SIZE
  · rw [if_pos hsize] at he
    rcases setattrSizeCheck_cases r d.iSt (show (r.newStat d.iSt).stMode = _ from rfl) rfl rfl with
      ⟨-, hcheck⟩ | ⟨hnot, -⟩
    · rw [hcheck] at he
      split at he
      · cases he
      · next ret hret =>
        split at hret
        · obtain rfl := Except.ok.inj hret
          rw [if_neg (not_not.mpr rfl)] at he
          exact ⟨clearMode, _, .inr ⟨rfl, hsize⟩, (Except.ok.inj he).symm⟩
        · cases hret
    · exact absurd (.inr ⟨hsize, hnot⟩) hno
  · rw [if_neg hsize] at he
    exact ⟨clearMode, _, .inl ⟨rfl, hsize⟩, (Except.ok.inj he).symm⟩

end FsState

/-! ## Refused requests -/

/-- Whenever a `setattr` on the regular inode replies an error, its attributes and its data are as
before. -/
def File.SetattrAtomic (f : File) (r : SetattrReq) : Prop :=
  ∀ e, f.setattr r = .ok e → (∃ rep ∈ e.replies, rep.isErr) →
    e.state.st = f.st ∧ e.state.inode.dataBlocks = f.inode.dataBlocks ∧
      e.state.blocks = f.blocks ∧ e.spawned = []

/-- Whenever a `setattr` on the directory replies an error, its attributes and its entries are as
before. -/
def FsState.SetattrAtomic (s : FsState) (ino : ℕ) (d : DirInode) (r : SetattrReq) : Prop :=
  ∀ e, s.setattrDir ino r = .ok e → (∃ rep ∈ e.replies, rep.isErr) →
    e.state.getDir ino = .ok d ∧ e.spawned = []

/-- A `setattr` on a regular inode is atomic exactly when no assignment that changes something comes
before a check that fails. -/
theorem File.setattrAtomic_iff (f : File) (r : SetattrReq) :
    f.SetattrAtomic r ↔ r.AllOrNothing f.st := by
  by_cases hrefused : r.Refused f.st
  · obtain ⟨ret, heq⟩ := File.setattr_of_refused hrefused
    rw [← hrefused.fields_eq_iff]
    constructor
    · intro h
      exact (h _ heq ⟨_, List.mem_singleton.mpr rfl, rfl⟩).1
    · intro hsame e he _
      rw [heq] at he
      rw [← Except.ok.inj he]
      exact ⟨hsame, rfl, rfl, rfl⟩
  · refine iff_of_true (fun e he hrep => ?_) ⟨fun _ hno => absurd (.inl hno) hrefused,
      fun _ hsize hno => absurd (.inr ⟨hsize, hno⟩) hrefused⟩
    exfalso
    obtain ⟨rep, hmem, herr⟩ := hrep
    by_cases hsize : r.has FUSE_SET_ATTR_SIZE
    · obtain ⟨clearMode, f₂, tasks, -, rfl⟩ := File.setattr_of_size hrefused hsize he
      rw [List.mem_singleton.mp hmem] at herr
      cases herr
    · obtain ⟨clearMode, heq⟩ := File.setattr_of_no_size hrefused hsize
      obtain rfl := Except.ok.inj (heq.symm.trans he)
      rw [List.mem_singleton.mp hmem] at herr
      cases herr

/-- A `setattr` on a directory is atomic exactly when no assignment that changes something comes
before a check that fails. -/
theorem FsState.setattrAtomic_iff {s : FsState} {ino : ℕ} {d : DirInode} (hd : s.getDir ino = .ok d)
    (r : SetattrReq) : s.SetattrAtomic ino d r ↔ r.AllOrNothing d.iSt := by
  by_cases hrefused : r.Refused d.iSt
  · obtain ⟨ret, heq⟩ := FsState.setattrDir_of_refused hd hrefused
    rw [← hrefused.fields_eq_iff]
    constructor
    · intro h
      have hget := (h _ heq ⟨_, List.mem_singleton.mpr rfl, rfl⟩).1
      rw [FsState.getDir_eq_ok, FsState.dirs_setDir, if_pos rfl] at hget
      exact congrArg DirInode.iSt (Option.some.inj hget)
    · intro hsame e he _
      rw [heq] at he
      rw [← Except.ok.inj he]
      refine ⟨?_, rfl⟩
      rw [FsState.getDir_eq_ok, FsState.dirs_setDir, if_pos rfl, hsame]
  · refine iff_of_true (fun e he hrep => ?_) ⟨fun _ hno => absurd (.inl hno) hrefused,
      fun _ hsize hno => absurd (.inr ⟨hsize, hno⟩) hrefused⟩
    exfalso
    obtain ⟨rep, hmem, herr⟩ := hrep
    obtain ⟨clearMode, st', -, rfl⟩ := FsState.setattrDir_of_not_refused hd hrefused he
    rw [List.mem_singleton.mp hmem] at herr
    cases herr

/-- A refused `setattr` leaves the inode as it was exactly when no assignment that changes something
comes before a check that fails, for regular inodes and for directories. -/
theorem setattr_atomic_iff (r : SetattrReq) :
    (∀ f : File, f.SetattrAtomic r ↔ r.AllOrNothing f.st) ∧
      ∀ (s : FsState) (ino : ℕ) (d : DirInode), s.getDir ino = .ok d →
        (s.SetattrAtomic ino d r ↔ r.AllOrNothing d.iSt) :=
  ⟨fun f => f.setattrAtomic_iff r, fun _ _ _ hd => FsState.setattrAtomic_iff hd r⟩

/-- The owner of a file asks for another mode and for another owner. -/
def giveAway : SetattrReq where
  req := 0
  fh := none
  attr := initStat 3 0 2 1 4096 0o600 true
  toSet := FUSE_SET_ATTR_MODE ||| FUSE_SET_ATTR_UID
  uid := 1
  gid := 1
  now := 5
  nowM := 5
  nowA := 5

/-- The request is refused because of the owner, after the mode was assigned. -/
theorem giveAway_not_atomic :
    ¬ (File.make 3 (initStat 3 0 1 1 4096 0o644 true)).SetattrAtomic giveAway := by
  intro h
  have hmode := (h _ rfl ⟨_, List.mem_singleton.mpr rfl, rfl⟩).1
  revert hmode
  decide

/-- On the root directory of a new file system, root may ask for another mode and another owner. -/
theorem giveAway_root_allOrNothing : SetattrReq.AllOrNothing { giveAway with uid := 0 }
    (initStat FUSE_ROOT_ID 0 1 1 BLOCK_SIZE 0o755 false) := by
  refine ((setattr_atomic_iff { giveAway with uid := 0 }).2 (FsState.init 1 1 0) FUSE_ROOT_ID _
    rfl).mp fun e he hrep => ?_
  obtain rfl := Except.ok.inj he
  obtain ⟨rep, hmem, herr⟩ := hrep
  rw [List.mem_singleton.mp hmem] at herr
  cases herr

/-! ## Strangers -/

/-- What a requester who is neither root nor the owner leaves of the attributes. -/
structure SetattrReq.StrangerKeeps (r : SetattrReq) (st st' : Stat) : Prop where
  /-- The mode. -/
  mode : st'.stMode = st.stMode
  /-- The owner. -/
  owner : st'.stUid = st.stUid
  /-- The group. -/
  group : st'.stGid = st.stGid
  /-- The access time. -/
  atime : st'.stAtime = st.stAtime
  /-- The size, unless the file may be resized. -/
  size : ¬ r.MayResize st → st'.stSize = st.stSize
  /-- The modification time, unless the file may be resized. -/
  mtime : ¬ r.MayResize st → st'.stMtime = st.stMtime

/-- The end of a request that assigned nothing keeps all but the change time. -/
theorem SetattrReq.StrangerKeeps.finish {r : SetattrReq} {st : Stat} (hmode : ¬ r.has FUSE_SET_ATTR_MODE)
    (clearMode : BitVec 32) {st' : Stat} (h : r.StrangerKeeps st st') :
    r.StrangerKeeps st (setattrFinish r clearMode st') := by
  refine ⟨?_, h.owner, h.group, h.atime, h.size, h.mtime⟩
  simp only [setattrFinish, hmode, Bool.false_eq_true, if_false]
  exact h.mode

/-- A request of a stranger that is not refused does not ask for a mode. -/
theorem SetattrReq.no_mode_of_stranger {r : SetattrReq} {st : Stat} (h : ¬ r.OwnerOrRoot st)
    (hfields : r.FieldsAllowed st) : ¬ r.has FUSE_SET_ATTR_MODE := fun hset => h (hfields.mode hset)

/-- A stranger changes nothing of a regular inode but the change time, and its size, its data and its
modification time when the file may be resized. -/
theorem File.setattr_of_stranger {f : File} {r : SetattrReq} {e : Effect File FileTask Reply}
    (h : ¬ r.OwnerOrRoot f.st) (he : f.setattr r = .ok e) : r.StrangerKeeps f.st e.state.st ∧
      (¬ r.MayResize f.st → e.state.inode.dataBlocks = f.inode.dataBlocks ∧
        e.state.blocks = f.blocks ∧ e.spawned = []) := by
  have hsame : r.StrangerKeeps f.st f.st := ⟨rfl, rfl, rfl, rfl, fun _ => rfl, fun _ => rfl⟩
  by_cases hrefused : r.Refused f.st
  · obtain ⟨ret, heq⟩ := File.setattr_of_refused hrefused
    obtain rfl := Except.ok.inj (heq.symm.trans he)
    refine ⟨?_, fun _ => ⟨rfl, rfl, rfl⟩⟩
    rw [SetattrReq.setattrFields_of_stranger h]
    exact hsame
  · have hfields : r.FieldsAllowed f.st := by
      by_contra hnot
      exact hrefused (.inl hnot)
    have hstat := SetattrReq.newStat_of_stranger h hfields
    have hmode := SetattrReq.no_mode_of_stranger h hfields
    by_cases hsize : r.has FUSE_SET_ATTR_SIZE
    · have hmay := SetattrReq.mayResize_of_stranger h hrefused hsize
      obtain ⟨clearMode, f₂, tasks, htrunc, rfl⟩ := File.setattr_of_size hrefused hsize he
      have hst := File.truncate_st htrunc
      rw [hstat] at hst
      refine ⟨.finish hmode clearMode ?_, fun hno => absurd hmay hno⟩
      rw [hst]
      exact ⟨rfl, rfl, rfl, rfl, fun hno => absurd hmay hno, fun hno => absurd hmay hno⟩
    · obtain ⟨clearMode, heq⟩ := File.setattr_of_no_size hrefused hsize
      obtain rfl := Except.ok.inj (heq.symm.trans he)
      refine ⟨.finish hmode clearMode ?_, fun _ => ⟨rfl, rfl, rfl⟩⟩
      rw [hstat]
      exact hsame

/-- A stranger changes nothing of a directory but the change time, and its modification time when it
may be resized. -/
theorem FsState.setattrDir_of_stranger {s : FsState} {ino : ℕ} {d : DirInode} {r : SetattrReq}
    {e : FsEffect} (hd : s.getDir ino = .ok d) (h : ¬ r.OwnerOrRoot d.iSt)
    (he : s.setattrDir ino r = .ok e) : ∃ st',
      e.state = s.setDir ino { d with iSt := st' } ∧ e.spawned = [] ∧ r.StrangerKeeps d.iSt st' := by
  have hsame : r.StrangerKeeps d.iSt d.iSt := ⟨rfl, rfl, rfl, rfl, fun _ => rfl, fun _ => rfl⟩
  by_cases hrefused : r.Refused d.iSt
  · obtain ⟨ret, heq⟩ := FsState.setattrDir_of_refused hd hrefused
    obtain rfl := Except.ok.inj (heq.symm.trans he)
    refine ⟨_, rfl, rfl, ?_⟩
    rw [SetattrReq.setattrFields_of_stranger h]
    exact hsame
  · have hfields : r.FieldsAllowed d.iSt := by
      by_contra hnot
      exact hrefused (.inl hnot)
    have hstat := SetattrReq.newStat_of_stranger h hfields
    have hmode := SetattrReq.no_mode_of_stranger h hfields
    obtain ⟨clearMode, st', hst', rfl⟩ := FsState.setattrDir_of_not_refused hd hrefused he
    refine ⟨_, rfl, rfl, .finish hmode clearMode ?_⟩
    rw [hstat] at hst'
    rcases hst' with ⟨rfl, -⟩ | ⟨rfl, hsize⟩
    · exact hsame
    · have hmay := SetattrReq.mayResize_of_stranger h hrefused hsize
      exact ⟨rfl, rfl, rfl, rfl, fun hno => absurd hmay hno, fun hno => absurd hmay hno⟩

/-- A requester who is neither root nor the owner leaves mode, owner, group and access time of an
inode, and leaves size, data and modification time unless it asks for a size and opened the file for
writing or has the right to write it. -/
theorem setattr_stranger (r : SetattrReq) :
    (∀ (f : File) (e : Effect File FileTask Reply), r.uid ≠ 0 → r.uid ≠ f.st.stUid →
      f.setattr r = .ok e → r.StrangerKeeps f.st e.state.st ∧
        (¬ r.MayResize f.st → e.state.inode.dataBlocks = f.inode.dataBlocks ∧
          e.state.blocks = f.blocks ∧ e.spawned = [])) ∧
      ∀ (s : FsState) (ino : ℕ) (d : DirInode) (e : FsEffect), s.getDir ino = .ok d → r.uid ≠ 0 →
        r.uid ≠ d.iSt.stUid → s.setattrDir ino r = .ok e → ∃ st',
          e.state = s.setDir ino { d with iSt := st' } ∧ e.spawned = [] ∧
            r.StrangerKeeps d.iSt st' := by
  have hstranger : ∀ st : Stat, r.uid ≠ 0 → r.uid ≠ st.stUid → ¬ r.OwnerOrRoot st :=
    fun st hroot howner hor => hor.elim hroot fun heq => howner heq.symm
  constructor
  · intro f e hroot howner he
    exact File.setattr_of_stranger (hstranger f.st hroot howner) he
  · intro s ino d e hd hroot howner he
    exact FsState.setattrDir_of_stranger hd (hstranger d.iSt hroot howner) he

/-- A stranger who asks for the mode and the owner of a file changes neither. -/
theorem giveAway_stranger : SetattrReq.StrangerKeeps { giveAway with uid := 7 }
    (initStat 3 0 1 1 4096 0o644 true) (initStat 3 0 1 1 4096 0o644 true) :=
  ((setattr_stranger { giveAway with uid := 7 }).1 (File.make 3 (initStat 3 0 1 1 4096 0o644 true)) _
    (by decide) (by decide) rfl).1

end VeronaFs
