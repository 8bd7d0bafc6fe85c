import VeronaFs.Namespace.RenameAlone
import VeronaFs.Namespace.Termination

/-!
# Permission to change entries

Every request on entries but `rmdir` tests that the requester may write a directory before it
changes an entry of it.  `rmdir` has no such test: `change_permitted_iff` is the exact condition
under which a change was permitted.
-/

namespace VeronaFs

open Boc Foundation

/-! ## Entries -/

/-- The entry of the directory `ino` under a name. -/
def FsState.entryAt (s : FsState) (ino : ℕ) (name : Name) : Option Dentry :=
  s.dirs[ino]?.bind fun d => d.dentries[name]?

namespace FsState

variable (s : FsState) (i ino : ℕ) (d : DirInode) (f : File) (name : Name)

/-- The entries of a directory that exists. -/
theorem entryAt_of_some {s : FsState} {ino : ℕ} {d : DirInode} (h : s.dirs[ino]? = some d)
    (name : Name) : s.entryAt ino name = d.dentries[name]? := by
  rw [entryAt, h, Option.bind_some]

/-- The entries after a directory was replaced. -/
@[simp] theorem entryAt_setDir :
    (s.setDir i d).entryAt ino name = if i = ino then d.dentries[name]? else s.entryAt ino name := by
  unfold entryAt
  rw [dirs_setDir]
  split <;> rfl

/-- Replacing a regular inode leaves the entries. -/
@[simp] theorem entryAt_setReg : (s.setReg i f).entryAt ino name = s.entryAt ino name := rfl

/-- A link less leaves the entries. -/
@[simp] theorem entryAt_dropLink (x : Option ℕ) (f : Option File) :
    (s.dropLink x f).entryAt ino name = s.entryAt ino name := by
  unfold dropLink
  split <;> rfl

/-- A new regular inode changes the entries of its parent. -/
theorem entryAt_created (r : MakeReq) (p : DirInode) (hne : r.parent ≠ ino) :
    (s.created r p).entryAt ino name = s.entryAt ino name := by
  change (((s.setReg r.regIno r.newReg).setDir r.parent
    ((p.insert r.name ⟨r.regIno, r.node⟩).touch r.now)).setReg r.regIno r.addedReg).entryAt ino name
      = _
  simp [hne]

/-- A new directory changes the entries of its parent and of the new number. -/
theorem entryAt_madeDir {r : MakeReq} (hfresh : s.dirs[r.addr]? = none) (p : DirInode)
    (hne : r.parent ≠ ino) : (s.madeDir r p).entryAt ino name = s.entryAt ino name := by
  change (((s.setDir r.addr r.newDir).setDir r.parent
    (((p.insert r.name ⟨r.addr, r.node⟩).touch r.now).addLinks 1)).setDir r.addr
      r.addedDir).entryAt ino name = _
  simp only [entryAt_setDir, hne, if_false]
  split
  · next h =>
    rw [← h, entryAt, hfresh]
    simp [MakeReq.addedDir, MakeReq.newDir]
  · rfl

/-- The removal of a regular inode changes the entries of its parent. -/
theorem entryAt_unlinked (r : RemoveReq) (p : DirInode) (i : ℕ) (f : File) (hne : r.parent ≠ ino) :
    (s.unlinked r p i f).entryAt ino name = s.entryAt ino name := by
  simp [unlinked, hne]

end FsState

/-! ## Requests on entries -/

/-- The requester of a request on entries and its group. -/
def FsRequest.requester : FsRequest → Option (ℕ × ℕ)
  | .create r => some (r.uid, r.gid)
  | .mkdir r => some (r.uid, r.gid)
  | .unlink r => some (r.uid, r.gid)
  | .rmdir r => some (r.uid, r.gid)
  | .rename r => some (r.uid, r.gid)
  | _ => none

/-- The address of the cown that a request makes is not in use. -/
def FsRequest.FreshAddr (q : FsRequest) (s : FsState) : Prop :=
  match q with
  | .create r => s.regs[r.regIno]? = none
  | .mkdir r => s.dirs[r.addr]? = none
  | _ => True

/-- The iterator points to an entry that `rmdir` will erase: a directory that is not the parent,
that is empty and has two links. -/
structure RemoveReq.Removes (r : RemoveReq) (s : FsState) (p d : DirInode) (it : Iter) : Prop where
  /-- The parent. -/
  parent : s.dirs[r.parent]? = some p
  /-- The entry. -/
  find : p.find r.name = some it
  /-- The entry names a directory. -/
  isDir : it.IsDir
  /-- The directory is not its own parent. -/
  ne_parent : it.entry.ino ≠ r.parent
  /-- The directory. -/
  dir : s.dirs[it.entry.ino]? = some d
  /-- It has no entries. -/
  empty : d.dentries.size = 0
  /-- It has two links. -/
  nlink : d.iSt.stNlink = 2

/-- The state after a `rmdir` that erased its entry. -/
def FsState.removed (s : FsState) (r : RemoveReq) (p d : DirInode) (it : Iter) : FsState :=
  (s.setDir it.entry.ino (d.addLinks (-2))).setDir r.parent
    (((p.touch r.now).erase r.name).addLinks (-1))

/-- The execution of a `rmdir` that erases its entry. -/
theorem RemoveReq.Removes.end_eq {r : RemoveReq} {s : FsState} {p d : DirInode} {it : Iter}
    (h : r.Removes s p d it) {c : FsConfig} (hserve : server.Serves s (.rmdir r) c) :
    c = ⟨s.removed r p d it, [], [.err r.req 0]⟩ := by
  have hhas := DirInode.find_eq_some.mp h.find
  cases rmdir_end hserve with
  | badParent hp => rw [h.parent] at hp; cases hp
  | refused hstep =>
    generalize he : (⟨s, [], _⟩ : FsEffect) = e at hstep
    cases hstep with
    | noEntry hp hfind =>
      obtain rfl := Option.some.inj (h.parent.symm.trans hp)
      rw [h.find] at hfind
      cases hfind
    | notDir hp hfind hone hodd =>
      obtain rfl := Option.some.inj (h.parent.symm.trans hp)
      obtain rfl := Option.some.inj (h.find.symm.trans hfind)
      have hdir : it.entry.ino = 1 ∨ it.entry.ino % 2 = 0 := h.isDir
      omega
    | found => cases he
  | stuck hp hfind hdir hbad =>
    obtain rfl := Option.some.inj (h.parent.symm.trans hp)
    obtain rfl := Option.some.inj (h.find.symm.trans hfind)
    rcases hbad with hd | heq
    · rw [h.dir] at hd
      cases hd
    · exact absurd heq h.ne_parent
  | assertion hp hfind hdir hne hd hsize hnlink =>
    obtain rfl := Option.some.inj (h.parent.symm.trans hp)
    obtain rfl := Option.some.inj (h.find.symm.trans hfind)
    obtain rfl := Option.some.inj (h.dir.symm.trans hd)
    exact absurd h.nlink hnlink
  | removed hp hfind hdir hne hd hstep =>
    obtain rfl := Option.some.inj (h.parent.symm.trans hp)
    obtain rfl := Option.some.inj (h.find.symm.trans hfind)
    obtain rfl := Option.some.inj (h.dir.symm.trans hd)
    cases hstep with
    | notEmpty hd' hp' hsize =>
      obtain rfl := Option.some.inj (h.dir.symm.trans hd')
      exact absurd h.empty hsize
    | erased hd' hp' hsize hnlink =>
      obtain rfl := Option.some.inj (h.dir.symm.trans hd')
      obtain rfl := Option.some.inj (h.parent.symm.trans hp')
      rw [DirInode.deref_of_has hhas.2, Iter.contents, hhas.1]
      rfl

/-- The request erases an entry of a directory that the requester may not write. -/
def FsRequest.Unchecked (q : FsRequest) (s : FsState) : Prop :=
  match q with
  | .rmdir r => ∃ p d it, r.Removes s p d it ∧ ¬ p.CanWrite r.uid r.gid
  | _ => False

/-- The requester of a change may write the directory that is changed. -/
def ChangesPermitted (s s' : FsState) (uid gid : ℕ) : Prop :=
  ∀ ino name, s'.entryAt ino name ≠ s.entryAt ino name →
    ∃ d, s.dirs[ino]? = some d ∧ access d.iSt W_OK uid gid = .ok 0

/-- Nothing is changed. -/
theorem ChangesPermitted.refl (s : FsState) (uid gid : ℕ) : ChangesPermitted s s uid gid :=
  fun _ _ h => absurd rfl h

/-- Only the entries of a directory that the requester may write are changed. -/
theorem ChangesPermitted.of_parent {s s' : FsState} {uid gid ino : ℕ} {p : DirInode}
    (hp : s.dirs[ino]? = some p) (hacc : p.CanWrite uid gid)
    (h : ∀ i, ino ≠ i → ∀ name, s'.entryAt i name = s.entryAt i name) :
    ChangesPermitted s s' uid gid := by
  intro i name hne
  by_cases hi : ino = i
  · obtain rfl := hi
    exact ⟨p, hp, by rw [access_W_OK, show accessBits p.iSt W_OK uid gid = 0 from hacc]⟩
  · exact absurd (h i hi name) hne

/-- Only the entries of two directories that the requester may write are changed. -/
theorem ChangesPermitted.of_parents {s s' : FsState} {r : RenameReq} {p np : DirInode} {old : Iter}
    (hreach : r.Reaches s p np old)
    (h : ∀ i, r.parent ≠ i → r.newparent ≠ i → ∀ name, s'.entryAt i name = s.entryAt i name) :
    ChangesPermitted s s' r.uid r.gid := by
  intro i name hne
  by_cases hi : r.parent = i
  · obtain rfl := hi
    refine ⟨p, hreach.parent, ?_⟩
    rw [access_W_OK, show accessBits p.iSt W_OK r.uid r.gid = 0 from hreach.canWrite]
  · by_cases hi' : r.newparent = i
    · obtain rfl := hi'
      refine ⟨np, hreach.newparent, ?_⟩
      rw [access_W_OK, show accessBits np.iSt W_OK r.uid r.gid = 0 from hreach.canWriteNew]
    · exact absurd (h i hi hi' name) hne

/-- `replace_entry` changes the entries of the parents. -/
theorem ReplaceStep.entryAt_eq {s : FsState} {r : RenameReq} {old : Iter} {e : FsEffect}
    (h : ReplaceStep s r old e) {i : ℕ} (hi : r.parent ≠ i) (hi' : r.newparent ≠ i) (name : Name) :
    e.state.entryAt i name = s.entryAt i name := by
  cases h <;> simp [hi, hi']

/-- The second behaviour of `rename` changes the entries of the parents. -/
theorem SourceStep.entryAt_eq {s : FsState} {r : RenameReq} {old : Iter} {e : FsEffect}
    (h : SourceStep s r old e) {i : ℕ} (hi : r.parent ≠ i) (hi' : r.newparent ≠ i) (name : Name) :
    e.state.entryAt i name = s.entryAt i name := by
  cases h with
  | dir hdir hne hne' hstep =>
    cases hstep with
    | replace _ _ _ _ h => exact h.entryAt_eq hi hi' name
    | _ => rfl
  | reg hdir hstep =>
    cases hstep with
    | replace _ _ _ _ h => exact h.entryAt_eq hi hi' name
    | silent => rfl

/-- The last behaviour of `rename` changes the entries of the parents. -/
theorem ReplaceInodesStep.entryAt_eq {s : FsState} {r : RenameReq} {old dupl : Iter} {x : Replaced}
    {e : FsEffect} (h : ReplaceInodesStep s r old dupl x e) {i : ℕ} (hi : r.parent ≠ i)
    (hi' : r.newparent ≠ i) (name : Name) : e.state.entryAt i name = s.entryAt i name := by
  cases h <;> simp [hi, hi']

/-- The execution of `rename` changes entries of directories that the requester may write. -/
theorem RenameEnd.changesPermitted {s : FsState} {r : RenameReq} {c : FsConfig}
    (h : RenameEnd s r c) : ChangesPermitted s c.state r.uid r.gid := by
  cases h with
  | done hreach hstep =>
    exact .of_parents hreach fun i hi hi' name => hstep.entryAt_eq hi hi' name
  | replaced hreach hstep hnodup hlast =>
    exact .of_parents hreach fun i hi hi' name => hlast.entryAt_eq hi hi' name
  | _ => exact .refl _ _ _

/-- The execution of `rmdir` changes entries of a directory that the requester may write, unless it
erases an entry unchecked. -/
theorem RmdirEnd.changesPermitted {s : FsState} {r : RemoveReq} {c : FsConfig} (h : RmdirEnd s r c)
    (hchecked : ¬ (FsRequest.rmdir r).Unchecked s) : ChangesPermitted s c.state r.uid r.gid := by
  cases h with
  | removed hp hfind hdir hne hd hstep =>
    cases hstep with
    | notEmpty => exact .refl _ _ _
    | erased hd' hp' hsize hnlink =>
      obtain rfl := Option.some.inj (hd.symm.trans hd')
      obtain rfl := Option.some.inj (hp.symm.trans hp')
      refine .of_parent hp ?_ fun i hi name => ?_
      · by_contra hacc
        exact hchecked ⟨_, _, _, ⟨hp, hfind, hdir, hne, hd, hsize, hnlink⟩, hacc⟩
      · simp only [FsState.entryAt_setDir, hi, if_false]
        split
        · next h =>
          rw [← h, FsState.entryAt_of_some hd]
          rfl
        · rfl
  | _ => exact .refl _ _ _

/-- For every request on entries: whatever entry its execution adds, removes or replaces, the
requester may write the directory of this entry, if and only if the request is not a `rmdir` that
erases an entry of a directory that the requester may not write. -/
theorem change_permitted_iff {s : FsState} {q : FsRequest} {uid gid : ℕ} {c : FsConfig}
    (hq : q.requester = some (uid, gid)) (hfresh : q.FreshAddr s) (hserve : server.Serves s q c) :
    ChangesPermitted s c.state uid gid ↔ ¬ q.Unchecked s := by
  cases q with
  | create r =>
    obtain ⟨rfl, rfl⟩ := Prod.mk.inj (Option.some.inj hq)
    refine iff_of_true ?_ id
    cases create_end hserve with
    | made hshort hp hfind hacc =>
      exact .of_parent hp hacc fun i hi name => s.entryAt_created _ _ _ _ hi
    | _ => exact .refl _ _ _
  | mkdir r =>
    obtain ⟨rfl, rfl⟩ := Prod.mk.inj (Option.some.inj hq)
    refine iff_of_true ?_ id
    cases mkdir_end hfresh hserve with
    | made hshort hp hfind hacc =>
      exact .of_parent hp hacc fun i hi name => s.entryAt_madeDir _ _ hfresh _ hi
    | _ => exact .refl _ _ _
  | unlink r =>
    obtain ⟨rfl, rfl⟩ := Prod.mk.inj (Option.some.inj hq)
    refine iff_of_true ?_ id
    cases unlink_end hserve with
    | erased hp hfind hacc hodd hf =>
      exact .of_parent hp hacc fun i hi name => s.entryAt_unlinked _ _ _ _ _ _ hi
    | _ => exact .refl _ _ _
  | rmdir r =>
    obtain ⟨rfl, rfl⟩ := Prod.mk.inj (Option.some.inj hq)
    constructor
    · rintro hchanges ⟨p, d, it, h, hacc⟩
      rw [h.end_eq hserve] at hchanges
      have hhas := DirInode.find_eq_some.mp h.find
      obtain ⟨p', hp', hret⟩ := hchanges r.parent r.name (by
        rw [FsState.entryAt_of_some h.parent, ← hhas.1, hhas.2, FsState.removed]
        simp [hhas.1])
      obtain rfl := Option.some.inj (h.parent.symm.trans hp')
      rw [access_W_OK] at hret
      exact hacc (Except.ok.inj hret)
    · exact (rmdir_end hserve).changesPermitted
  | rename r =>
    obtain ⟨rfl, rfl⟩ := Prod.mk.inj (Option.some.inj hq)
    exact iff_of_true (rename_end hserve).changesPermitted id
  | _ => cases hq

/-! ## A removal without permission -/

/-- The file system after `init`, started by root at time zero. -/
def rootFs : FsState := .init 0 0 0

/-- The root directory of `rootFs`. -/
def rootDir : DirInode := ⟨1, initStat 1 0 0 0 BLOCK_SIZE 0o755 false, 1, ∅⟩

/-- The root of the new file system. -/
theorem rootFs_dirs : rootFs.dirs[1]? = some rootDir := by
  simp [rootFs, FsState.init, FUSE_ROOT_ID, rootDir]

/-- Root makes the directory `a` in the root directory. -/
def mkdirA : MakeReq where
  req := 1
  parent := 1
  name := [97]
  mode := 0o755
  uid := 0
  gid := 0
  fi := ⟨0, false, false, none⟩
  now := 0
  addr := 2
  this := 3
  node := 4

/-- The user 1000 removes the directory `a`. -/
def rmdirA : RemoveReq where
  req := 2
  parent := 1
  name := [97]
  uid := 1000
  gid := 1000
  now := 0
  freed := Iter.contents

/-- The root directory after `mkdirA`. -/
def rootDirA : DirInode := ((rootDir.insert [97] ⟨2, 4⟩).touch 0).addLinks 1

/-- The file system after `mkdirA`. -/
def fsA : FsState := rootFs.madeDir mkdirA rootDir

/-- A `mkdir` that makes its entry is served. -/
theorem serves_mkdir {s : FsState} {r : MakeReq} {p : DirInode} (hfresh : s.dirs[r.addr]? = none)
    (hshort : r.name.length ≤ NAME_MAX) (hp : s.dirs[r.parent]? = some p)
    (hfind : p.find r.name = none) (hacc : p.CanWrite r.uid r.gid) :
    server.Serves s (.mkdir r) ⟨s.madeDir r p, [], [.entry r.req (MakeReq.entryParam r.dirStat)]⟩ := by
  obtain ⟨c, hc⟩ := exists_serves s (.mkdir r)
  rwa [mkdir_makes hfresh hshort hp hfind hacc hc] at hc

/-- `mkdirA` is served in the new file system. -/
theorem serves_mkdirA :
    server.Serves rootFs (.mkdir mkdirA)
      ⟨fsA, [], [.entry 1 (MakeReq.entryParam mkdirA.dirStat)]⟩ := by
  have hfresh : rootFs.dirs[mkdirA.addr]? = none := by
    simp [rootFs, FsState.init, FUSE_ROOT_ID, mkdirA]
  have hfind : rootDir.find mkdirA.name = none := by simp [DirInode.find, rootDir]
  exact serves_mkdir hfresh (by decide) rootFs_dirs hfind (by decide)

/-- The directories after `mkdirA`. -/
theorem fsA_dirs : fsA.dirs[1]? = some rootDirA ∧ fsA.dirs[2]? = some mkdirA.addedDir := by
  constructor
  · change (((rootFs.setDir 2 mkdirA.newDir).setDir 1 rootDirA).setDir 2 mkdirA.addedDir).dirs[1]? = _
    simp
  · change (((rootFs.setDir 2 mkdirA.newDir).setDir 1 rootDirA).setDir 2 mkdirA.addedDir).dirs[2]? = _
    simp

/-- The entry of `a`. -/
theorem rootDirA_find : rootDirA.find [97] = some ⟨[97], ⟨2, 4⟩⟩ := by
  simp [DirInode.find, rootDirA, rootDir]

/-- `rmdirA` erases its entry. -/
theorem rmdirA_removes : rmdirA.Removes fsA rootDirA mkdirA.addedDir ⟨[97], ⟨2, 4⟩⟩ where
  parent := fsA_dirs.1
  find := rootDirA_find
  isDir := .inr rfl
  ne_parent := by decide
  dir := fsA_dirs.2
  empty := rfl
  nlink := rfl

/-- `mkdirA` changes an entry of the root directory, and root may do so. -/
theorem change_permitted_iff_mkdirA :
    ∃ c, server.Serves rootFs (.mkdir mkdirA) c ∧
      (ChangesPermitted rootFs c.state 0 0 ↔ ¬ (FsRequest.mkdir mkdirA).Unchecked rootFs) := by
  refine ⟨_, serves_mkdirA, change_permitted_iff rfl ?_ serves_mkdirA⟩
  simp [FsRequest.FreshAddr, rootFs, FsState.init, FUSE_ROOT_ID, mkdirA]

/-- Root makes a directory in the root directory, and a user who may not write there removes it. -/
theorem rmdirA_unchecked :
    server.Serial (fun _ _ => True) rootFs
        [(.mkdir mkdirA, [.entry 1 (MakeReq.entryParam mkdirA.dirStat)])] fsA ∧
      ∃ c, server.Serves fsA (.rmdir rmdirA) c ∧ ¬ ChangesPermitted fsA c.state 1000 1000 := by
  refine ⟨System.Serial.nil.snoc trivial serves_mkdirA, ?_⟩
  obtain ⟨c, hc⟩ := exists_serves fsA (.rmdir rmdirA)
  refine ⟨c, hc, fun hchanges => ?_⟩
  rw [rmdirA_removes.end_eq hc] at hchanges
  obtain ⟨d, hd, hret⟩ := hchanges 1 [97] (by
    rw [FsState.entryAt_of_some fsA_dirs.1, FsState.removed]
    simp [rmdirA, rootDirA, rootDir])
  obtain rfl := Option.some.inj (fsA_dirs.1.symm.trans hd)
  revert hret
  decide

end VeronaFs
