import VeronaFs.Namespace.RenameSteps

/-!
# Requests on entries, executed alone

The ends of the execution of a single `create`, `mkdir`, `unlink`, `rmdir` or `rename` request from a
state in which nothing is pending: one constructor for each end, and a theorem that there are no
others.  Where an execution does not come to its end the behaviour that cannot run stays pending.
-/

namespace VeronaFs

open Boc Foundation

/-! ## Creation -/

/-- The regular inode of `create` after `add_inode`. -/
def MakeReq.addedReg (r : MakeReq) : File :=
  { r.newReg with inode := { r.newReg.inode with iSt := r.regStat, ino := r.regIno, krefs := 1 } }

/-- The directory of `mkdir` after `add_inode`. -/
def MakeReq.addedDir (r : MakeReq) : DirInode :=
  { r.newDir with iSt := r.dirStat, ino := r.addr, krefs := 1 }

/-- The state after a `create` that made its entry. -/
def FsState.created (s : FsState) (r : MakeReq) (p : DirInode) : FsState :=
  { ((s.setReg r.regIno r.newReg).setDir r.parent
      ((p.insert r.name ⟨r.regIno, r.node⟩).touch r.now)).setReg r.regIno r.addedReg with
    regTable := s.regTable.insertIfNew r.regIno r.regIno }

/-- The state after a `mkdir` that made its entry. -/
def FsState.madeDir (s : FsState) (r : MakeReq) (p : DirInode) : FsState :=
  { ((s.setDir r.addr r.newDir).setDir r.parent
      (((p.insert r.name ⟨r.addr, r.node⟩).touch r.now).addLinks 1)).setDir r.addr r.addedDir with
    dirTable := s.dirTable.insertIfNew r.addr r.addr }

/-- The directories after a `create`. -/
theorem FsState.dirs_created (s : FsState) (r : MakeReq) (p : DirInode) (i : ℕ) :
    (s.created r p).dirs[i]? =
      if r.parent = i then some ((p.insert r.name ⟨r.regIno, r.node⟩).touch r.now)
      else s.dirs[i]? :=
  FsState.dirs_setDir ..

/-- The regular inodes after a `create`. -/
theorem FsState.regs_created (s : FsState) (r : MakeReq) (p : DirInode) (i : ℕ) :
    (s.created r p).regs[i]? = if r.regIno = i then some r.addedReg else s.regs[i]? := by
  change (((s.setReg r.regIno r.newReg).setDir r.parent
    ((p.insert r.name ⟨r.regIno, r.node⟩).touch r.now)).setReg r.regIno r.addedReg).regs[i]? = _
  simp only [FsState.regs_setReg, FsState.regs_setDir]
  split <;> rfl

/-- The directories after a `mkdir`. -/
theorem FsState.dirs_madeDir (s : FsState) (r : MakeReq) (p : DirInode) (i : ℕ) :
    (s.madeDir r p).dirs[i]? =
      if r.addr = i then some r.addedDir
      else if r.parent = i then
        some (((p.insert r.name ⟨r.addr, r.node⟩).touch r.now).addLinks 1)
      else s.dirs[i]? := by
  change (((s.setDir r.addr r.newDir).setDir r.parent
    (((p.insert r.name ⟨r.addr, r.node⟩).touch r.now).addLinks 1)).setDir r.addr
      r.addedDir).dirs[i]? = _
  simp only [FsState.dirs_setDir]
  split
  · rfl
  · split <;> rfl

/-- The table of directories after a `mkdir`. -/
theorem FsState.dirTable_madeDir (s : FsState) (r : MakeReq) (p : DirInode) (i : ℕ) :
    (s.madeDir r p).dirTable[i]? =
      if r.addr = i ∧ s.dirTable[r.addr]? = none then some r.addr else s.dirTable[i]? :=
  StdMap.get?_insertIfNew ..

/-- The ends of `create`. -/
inductive CreateEnd (s : FsState) (r : MakeReq) : FsConfig → Prop
  /-- The name is too long. -/
  | longName (hlong : NAME_MAX < r.name.length) :
      CreateEnd s r ⟨s, [], [.err r.req ENAMETOOLONG]⟩
  /-- The inode number of the parent is not that of a directory. -/
  | badParent (hshort : r.name.length ≤ NAME_MAX) (hp : s.dirs[r.parent]? = none) :
      CreateEnd s r ⟨s, [], []⟩
  /-- The body replies an error. -/
  | refused {p : DirInode} {errno : ℤ} (hshort : r.name.length ≤ NAME_MAX)
      (hp : s.dirs[r.parent]? = some p)
      (hrefuse : (∃ it, p.find r.name = some it) ∧ errno = EEXIST ∨
        p.find r.name = none ∧ ¬ p.CanWrite r.uid r.gid ∧ errno = EACCES) :
      CreateEnd s r ⟨s, [], [.err r.req errno]⟩
  /-- The entry is made. -/
  | made {p : DirInode} (hshort : r.name.length ≤ NAME_MAX) (hp : s.dirs[r.parent]? = some p)
      (hfind : p.find r.name = none) (hacc : p.CanWrite r.uid r.gid) :
      CreateEnd s r
        ⟨s.created r p, [], [.create r.req (MakeReq.entryParam r.regStat) r.createInfo]⟩

/-- The body of `create` ends when the parent exists. -/
theorem create_ok {s : FsState} {r : MakeReq} {p : DirInode} (hp : s.dirs[r.parent]? = some p) :
    ∃ e, s.create r = .ok e := by
  simp only [FsState.create, FsState.getDir_of_some hp, access_W_OK, bind, Except.bind]
  split_ifs <;> exact ⟨_, rfl⟩

/-- `add_inode` after `create`. -/
theorem addReg_created (s : FsState) (r : MakeReq) (p : DirInode) :
    ((s.setReg r.regIno r.newReg).setDir r.parent
      ((p.insert r.name ⟨r.regIno, r.node⟩).touch r.now)).addReg r.regIno r.regStat =
      .ok ⟨s.created r p, [], []⟩ := by
  have hget : ((s.setReg r.regIno r.newReg).setDir r.parent
      ((p.insert r.name ⟨r.regIno, r.node⟩).touch r.now)).regs[r.regIno]? = some r.newReg := by
    simp
  unfold FsState.addReg
  rw [FsState.getReg_of_some hget]
  rfl

/-- The execution of `create` comes to one of its ends. -/
theorem create_end {s : FsState} {r : MakeReq} {d : FsConfig} (h : server.Serves s (.create r) d) :
    CreateEnd s r d := by
  by_cases hlong : NAME_MAX < r.name.length
  · have hhandle : server.handle (.create r) s = .ok ⟨s, [], [.err r.req ENAMETOOLONG]⟩ :=
      if_pos hlong
    rw [h.answered hhandle]
    exact .longName hlong
  have hshort : r.name.length ≤ NAME_MAX := not_lt.mp hlong
  have hhandle : server.handle (.create r) s =
      (s.getDir r.parent >>= fun _ => .ok ⟨s, [.create r], []⟩) := if_neg hlong
  cases hp : s.dirs[r.parent]? with
  | none =>
    rw [FsState.getDir_of_none hp] at hhandle
    rw [h.failed hhandle]
    exact .badParent hshort hp
  | some p =>
    rw [FsState.getDir_of_some hp] at hhandle
    rcases h.scheduled_cases hhandle (by simp [server, FsTask.cowns]) with
      ⟨-, hstuck⟩ | ⟨e, he, hend⟩
    · obtain ⟨e, he⟩ := create_ok hp
      refine absurd ⟨he, ?_⟩ (hstuck e)
      cases create_step he <;> simp [server, FsTask.cowns]
    · have hbody : s.create r = .ok e := he.body_eq
      cases create_step hbody with
      | taken hp hfind =>
        rw [System.settles_nil.mp hend]
        exact .refused hshort hp (.inl ⟨⟨_, hfind⟩, rfl⟩)
      | denied hp hfind hacc =>
        rw [System.settles_nil.mp hend]
        exact .refused hshort hp (.inr ⟨hfind, hacc, rfl⟩)
      | made hp hfind hacc =>
        rw [System.settles_singleton ⟨addReg_created s r _, by simp⟩] at hend
        rw [System.settles_nil.mp hend]
        exact .made hshort hp hfind hacc

/-- The ends of `mkdir`. -/
inductive MkdirEnd (s : FsState) (r : MakeReq) : FsConfig → Prop
  /-- The name is too long. -/
  | longName (hlong : NAME_MAX < r.name.length) :
      MkdirEnd s r ⟨s, [], [.err r.req ENAMETOOLONG]⟩
  /-- The inode number of the parent is not that of a directory. -/
  | badParent (hshort : r.name.length ≤ NAME_MAX) (hp : s.dirs[r.parent]? = none) :
      MkdirEnd s r ⟨s, [], []⟩
  /-- The body replies an error. -/
  | refused {p : DirInode} {errno : ℤ} (hshort : r.name.length ≤ NAME_MAX)
      (hp : s.dirs[r.parent]? = some p)
      (hrefuse : (∃ it, p.find r.name = some it) ∧ errno = EEXIST ∨
        p.find r.name = none ∧ ¬ p.CanWrite r.uid r.gid ∧ errno = EACCES) :
      MkdirEnd s r ⟨s, [], [.err r.req errno]⟩
  /-- The entry is made. -/
  | made {p : DirInode} (hshort : r.name.length ≤ NAME_MAX) (hp : s.dirs[r.parent]? = some p)
      (hfind : p.find r.name = none) (hacc : p.CanWrite r.uid r.gid) :
      MkdirEnd s r ⟨s.madeDir r p, [], [.entry r.req (MakeReq.entryParam r.dirStat)]⟩

/-- The body of `mkdir` ends when the parent exists. -/
theorem mkdir_ok {s : FsState} {r : MakeReq} {p : DirInode} (hp : s.dirs[r.parent]? = some p) :
    ∃ e, s.mkdir r = .ok e := by
  simp only [FsState.mkdir, FsState.getDir_of_some hp, access_W_OK, bind, Except.bind]
  split_ifs <;> exact ⟨_, rfl⟩

/-- `add_inode` after `mkdir`. -/
theorem addDir_made {s : FsState} {r : MakeReq} (hne : r.parent ≠ r.addr) (p : DirInode) :
    ((s.setDir r.addr r.newDir).setDir r.parent
      (((p.insert r.name ⟨r.addr, r.node⟩).touch r.now).addLinks 1)).addDir r.addr r.dirStat =
      .ok ⟨s.madeDir r p, [], []⟩ := by
  have hget : ((s.setDir r.addr r.newDir).setDir r.parent
      (((p.insert r.name ⟨r.addr, r.node⟩).touch r.now).addLinks 1)).dirs[r.addr]? =
        some r.newDir := by
    simp [hne]
  unfold FsState.addDir
  rw [FsState.getDir_of_some hget]
  rfl

/-- The execution of `mkdir` comes to one of its ends, when the address of the new cown is not in
use. -/
theorem mkdir_end {s : FsState} {r : MakeReq} {d : FsConfig} (hfresh : s.dirs[r.addr]? = none)
    (h : server.Serves s (.mkdir r) d) : MkdirEnd s r d := by
  by_cases hlong : NAME_MAX < r.name.length
  · have hhandle : server.handle (.mkdir r) s = .ok ⟨s, [], [.err r.req ENAMETOOLONG]⟩ :=
      if_pos hlong
    rw [h.answered hhandle]
    exact .longName hlong
  have hshort : r.name.length ≤ NAME_MAX := not_lt.mp hlong
  have hhandle : server.handle (.mkdir r) s =
      (s.getDir r.parent >>= fun _ => .ok ⟨s, [.mkdir r], []⟩) := if_neg hlong
  cases hp : s.dirs[r.parent]? with
  | none =>
    rw [FsState.getDir_of_none hp] at hhandle
    rw [h.failed hhandle]
    exact .badParent hshort hp
  | some p =>
    have hne : r.parent ≠ r.addr := by
      intro heq
      rw [heq, hfresh] at hp
      cases hp
    rw [FsState.getDir_of_some hp] at hhandle
    rcases h.scheduled_cases hhandle (by simp [server, FsTask.cowns]) with
      ⟨-, hstuck⟩ | ⟨e, he, hend⟩
    · obtain ⟨e, he⟩ := mkdir_ok hp
      refine absurd ⟨he, ?_⟩ (hstuck e)
      cases mkdir_step he <;> simp [server, FsTask.cowns]
    · have hbody : s.mkdir r = .ok e := he.body_eq
      cases mkdir_step hbody with
      | taken hp hfind =>
        rw [System.settles_nil.mp hend]
        exact .refused hshort hp (.inl ⟨⟨_, hfind⟩, rfl⟩)
      | denied hp hfind hacc =>
        rw [System.settles_nil.mp hend]
        exact .refused hshort hp (.inr ⟨hfind, hacc, rfl⟩)
      | made hp hfind hacc =>
        rw [System.settles_singleton ⟨addDir_made hne _, by simp⟩] at hend
        rw [System.settles_nil.mp hend]
        exact .made hshort hp hfind hacc

/-- The execution of a `mkdir` that makes its entry. -/
theorem mkdir_makes {s : FsState} {r : MakeReq} {p : DirInode} {c : FsConfig}
    (hfresh : s.dirs[r.addr]? = none) (hshort : r.name.length ≤ NAME_MAX)
    (hp : s.dirs[r.parent]? = some p) (hfind : p.find r.name = none)
    (hacc : p.CanWrite r.uid r.gid) (h : server.Serves s (.mkdir r) c) :
    c = ⟨s.madeDir r p, [], [.entry r.req (MakeReq.entryParam r.dirStat)]⟩ := by
  cases mkdir_end hfresh h with
  | longName hlong => omega
  | badParent _ hp' => rw [hp] at hp'; cases hp'
  | refused _ hp' hrefuse =>
    obtain rfl := Option.some.inj (hp.symm.trans hp')
    rcases hrefuse with ⟨⟨it, hit⟩, -⟩ | ⟨-, hno, -⟩
    · rw [hfind] at hit
      cases hit
    · exact absurd hacc hno
  | made _ hp' =>
    obtain rfl := Option.some.inj (hp.symm.trans hp')
    rfl

/-! ## Removal -/

/-- The handler of a request on a directory that does not exist fails. -/
theorem handleDir_of_none {s : FsState} {ino : ℕ} (h : s.dirs[ino]? = none) (t : FsTask) :
    s.handleDir ino t = .error .badCown := by
  unfold FsState.handleDir
  rw [FsState.getDir_of_none h]
  rfl

/-- The handler of a request on a directory schedules its behaviour. -/
theorem handleDir_of_some {s : FsState} {ino : ℕ} {d : DirInode} (h : s.dirs[ino]? = some d)
    (t : FsTask) : s.handleDir ino t = .ok ⟨s, [t], []⟩ := by
  unfold FsState.handleDir
  rw [FsState.getDir_of_some h]
  rfl

/-- The state after an `unlink` that erased its entry. -/
def FsState.unlinked (s : FsState) (r : RemoveReq) (p : DirInode) (ino : ℕ) (f : File) : FsState :=
  ((s.setDir r.parent (p.erase r.name)).setReg ino { f with inode.iSt :=
    { f.st with stCtime := r.now, stNlink := f.st.stNlink - 1 } }).setDir r.parent
      ((p.erase r.name).touch r.now)

/-- The ends of `unlink`. -/
inductive UnlinkEnd (s : FsState) (r : RemoveReq) : FsConfig → Prop
  /-- The inode number of the parent is not that of a directory. -/
  | badParent (hp : s.dirs[r.parent]? = none) : UnlinkEnd s r ⟨s, [], []⟩
  /-- The first behaviour answers. -/
  | refused {rs : List Reply} (hstep : UnlinkStep s r ⟨s, [], rs⟩) : UnlinkEnd s r ⟨s, [], rs⟩
  /-- The entry names a regular inode that does not exist. -/
  | stuck {p : DirInode} {it : Iter} (hp : s.dirs[r.parent]? = some p)
      (hfind : p.find r.name = some it) (hacc : p.CanWrite r.uid r.gid)
      (hodd : it.entry.ino % 2 = 1) (hf : s.regs[it.entry.ino]? = none) :
      UnlinkEnd s r ⟨s, [.unlink r], []⟩
  /-- The entry is erased. -/
  | erased {p : DirInode} {it : Iter} {f : File} (hp : s.dirs[r.parent]? = some p)
      (hfind : p.find r.name = some it) (hacc : p.CanWrite r.uid r.gid)
      (hodd : it.entry.ino % 2 = 1) (hf : s.regs[it.entry.ino]? = some f) :
      UnlinkEnd s r ⟨s.unlinked r p it.entry.ino f, [], [.err r.req 0]⟩

/-- The body of `unlink` ends when the parent and the inode that is unlinked exist. -/
theorem unlink_ok {s : FsState} {r : RemoveReq} {p : DirInode} (hp : s.dirs[r.parent]? = some p)
    (hf : ∀ it, p.find r.name = some it → p.CanWrite r.uid r.gid → it.entry.ino % 2 = 1 →
      ∃ f, s.regs[it.entry.ino]? = some f) : ∃ e, s.unlink r = .ok e := by
  cases hfind : p.find r.name with
  | none =>
    simp only [FsState.unlink, FsState.getDir_of_some hp, bind, Except.bind, hfind]
    exact ⟨_, rfl⟩
  | some it =>
    simp only [FsState.unlink, FsState.getDir_of_some hp, access_W_OK, bind, Except.bind, hfind]
    split
    · exact ⟨_, rfl⟩
    · next hacc =>
      split
      · exact ⟨_, rfl⟩
      · next hodd =>
        obtain ⟨f, hf⟩ := hf it hfind (not_not.mp hacc) (by omega)
        rw [FsState.getReg_of_some hf]
        exact ⟨_, rfl⟩

/-- The second behaviour of `unlink` after the first. -/
theorem unlinkReg_erased {s : FsState} {r : RemoveReq} {p : DirInode} {ino : ℕ} {f : File}
    (hf : s.regs[ino]? = some f) :
    (s.setDir r.parent (p.erase r.name)).unlinkReg r ino =
      .ok ⟨s.unlinked r p ino f, [], [.err r.req 0]⟩ := by
  have hreg : (s.setDir r.parent (p.erase r.name)).regs[ino]? = some f := hf
  have hdir : (s.setDir r.parent (p.erase r.name)).dirs[r.parent]? = some (p.erase r.name) := by
    simp
  unfold FsState.unlinkReg
  rw [FsState.getReg_of_some hreg, FsState.getDir_of_some hdir]
  rfl

/-- The execution of `unlink` comes to one of its ends. -/
theorem unlink_end {s : FsState} {r : RemoveReq} {d : FsConfig}
    (h : server.Serves s (.unlink r) d) : UnlinkEnd s r d := by
  cases hp : s.dirs[r.parent]? with
  | none =>
    rw [h.failed (handleDir_of_none hp _)]
    exact .badParent hp
  | some p =>
    rcases h.scheduled_cases (handleDir_of_some hp _) (by simp [server, FsTask.cowns]) with
      ⟨rfl, hstuck⟩ | ⟨e, he, hend⟩
    · by_cases hok : ∃ e, s.unlink r = .ok e
      · obtain ⟨e, he⟩ := hok
        refine absurd ⟨he, ?_⟩ (hstuck e)
        cases unlink_step he <;> simp [server, FsTask.cowns]
      · have hbad := mt (unlink_ok hp) hok
        push Not at hbad
        obtain ⟨it, hfind, hacc, hodd, hf⟩ := hbad
        exact .stuck hp hfind hacc hodd (Option.eq_none_iff_forall_ne_some.mpr hf)
    · have hbody : s.unlink r = .ok e := he.body_eq
      cases unlink_step hbody with
      | erased hp hfind hacc hodd hf =>
        rw [System.settles_singleton ⟨unlinkReg_erased hf, by simp⟩] at hend
        rw [System.settles_nil.mp hend]
        exact .erased hp hfind hacc hodd hf
      | noEntry hp hfind =>
        rw [System.settles_nil.mp hend]
        exact .refused (.noEntry hp hfind)
      | denied hp hfind hacc =>
        rw [System.settles_nil.mp hend]
        exact .refused (.denied hp hfind hacc)
      | isDir hp hfind hacc heven =>
        rw [System.settles_nil.mp hend]
        exact .refused (.isDir hp hfind hacc heven)

/-- The ends of `rmdir`. -/
inductive RmdirEnd (s : FsState) (r : RemoveReq) : FsConfig → Prop
  /-- The inode number of the parent is not that of a directory. -/
  | badParent (hp : s.dirs[r.parent]? = none) : RmdirEnd s r ⟨s, [], []⟩
  /-- The first behaviour answers. -/
  | refused {rs : List Reply} (hstep : RmdirStep s r ⟨s, [], rs⟩) : RmdirEnd s r ⟨s, [], rs⟩
  /-- The directory does not exist, or it is its own parent. -/
  | stuck {p : DirInode} {it : Iter} (hp : s.dirs[r.parent]? = some p)
      (hfind : p.find r.name = some it) (hdir : it.entry.ino = 1 ∨ it.entry.ino % 2 = 0)
      (hbad : s.dirs[it.entry.ino]? = none ∨ it.entry.ino = r.parent) :
      RmdirEnd s r ⟨s, [.rmdir r], []⟩
  /-- The assertion on the link count fails. -/
  | assertion {p d : DirInode} {it : Iter} (hp : s.dirs[r.parent]? = some p)
      (hfind : p.find r.name = some it) (hdir : it.entry.ino = 1 ∨ it.entry.ino % 2 = 0)
      (hne : it.entry.ino ≠ r.parent) (hd : s.dirs[it.entry.ino]? = some d)
      (hsize : d.dentries.size = 0) (hnlink : d.iSt.stNlink ≠ 2) :
      RmdirEnd s r ⟨s, [.rmdirDir r it], []⟩
  /-- The second behaviour runs. -/
  | removed {p d : DirInode} {it : Iter} {e : FsEffect} (hp : s.dirs[r.parent]? = some p)
      (hfind : p.find r.name = some it) (hdir : it.entry.ino = 1 ∨ it.entry.ino % 2 = 0)
      (hne : it.entry.ino ≠ r.parent) (hd : s.dirs[it.entry.ino]? = some d)
      (hstep : RmdirDirStep s r it e) : RmdirEnd s r ⟨e.state, [], e.replies⟩

/-- The first behaviour of `rmdir` ends when the parent and the directory exist. -/
theorem rmdir_ok {s : FsState} {r : RemoveReq} {p : DirInode} (hp : s.dirs[r.parent]? = some p)
    (hd : ∀ it, p.find r.name = some it → (it.entry.ino = 1 ∨ it.entry.ino % 2 = 0) →
      ∃ d, s.dirs[it.entry.ino]? = some d) : ∃ e, s.rmdir r = .ok e := by
  cases hfind : p.find r.name with
  | none =>
    simp only [FsState.rmdir, FsState.getDir_of_some hp, bind, Except.bind, hfind]
    exact ⟨_, rfl⟩
  | some it =>
    simp only [FsState.rmdir, FsState.getDir_of_some hp, bind, Except.bind, hfind]
    split
    · exact ⟨_, rfl⟩
    · next hdir =>
      obtain ⟨d, hd⟩ := hd it hfind (by omega)
      rw [FsState.getDir_of_some hd]
      exact ⟨_, rfl⟩

/-- The second behaviour of `rmdir` ends unless its assertion fails. -/
theorem rmdirDir_ok {s : FsState} {r : RemoveReq} {it : Iter} {d p : DirInode}
    (hd : s.dirs[it.entry.ino]? = some d) (hp : s.dirs[r.parent]? = some p)
    (h : d.dentries.size = 0 → d.iSt.stNlink = 2) : ∃ e, s.rmdirDir r it = .ok e := by
  simp only [FsState.rmdirDir, FsState.getDir_of_some hd, FsState.getDir_of_some hp, bind,
    Except.bind]
  split
  · exact ⟨_, rfl⟩
  · next hsize =>
    have hnlink := h (not_not.mp hsize)
    rw [if_neg (by simp [DirInode.addLinks, hnlink])]
    exact ⟨_, rfl⟩

/-- The execution of `rmdir` comes to one of its ends. -/
theorem rmdir_end {s : FsState} {r : RemoveReq} {d : FsConfig}
    (h : server.Serves s (.rmdir r) d) : RmdirEnd s r d := by
  cases hp : s.dirs[r.parent]? with
  | none =>
    rw [h.failed (handleDir_of_none hp _)]
    exact .badParent hp
  | some p =>
    rcases h.scheduled_cases (handleDir_of_some hp _) (by simp [server, FsTask.cowns]) with
      ⟨rfl, hstuck⟩ | ⟨e, he, hend⟩
    · by_cases hok : ∃ e, s.rmdir r = .ok e
      · obtain ⟨e, he⟩ := hok
        have hnodup : ¬ ∀ t ∈ e.spawned, (server.cowns t).Nodup :=
          fun hnodup => hstuck e ⟨he, hnodup⟩
        cases rmdir_step he with
        | noEntry => simp at hnodup
        | notDir => simp at hnodup
        | @found p d it hp hfind hdir hd =>
          refine .stuck hp hfind hdir (.inr ?_)
          simpa [server, FsTask.cowns] using hnodup
      · have hbad := mt (rmdir_ok hp) hok
        push Not at hbad
        obtain ⟨it, hfind, hdir, hd⟩ := hbad
        exact .stuck hp hfind hdir (.inl (Option.eq_none_iff_forall_ne_some.mpr hd))
    · have hbody : s.rmdir r = .ok e := he.body_eq
      cases rmdir_step hbody with
      | noEntry hp hfind =>
        rw [System.settles_nil.mp hend]
        exact .refused (.noEntry hp hfind)
      | notDir hp hfind hone hodd =>
        rw [System.settles_nil.mp hend]
        exact .refused (.notDir hp hfind hone hodd)
      | @found p d it hp hfind hdir hd =>
        have hne : it.entry.ino ≠ r.parent := by
          simpa [server, FsTask.cowns] using he.nodup (.rmdirDir r it) (by simp)
        rcases hend.singleton_cases with ⟨rfl, hstuck⟩ | ⟨e, he, hend⟩
        · have hbad : ¬ (d.dentries.size = 0 → d.iSt.stNlink = 2) := by
            intro hok
            obtain ⟨e, he⟩ := rmdirDir_ok hd hp hok
            refine hstuck e ⟨he, ?_⟩
            cases rmdirDir_step he <;> simp
          push Not at hbad
          exact .assertion hp hfind hdir hne hd hbad.1 hbad.2
        · have hbody : s.rmdirDir r it = .ok e := he.body_eq
          have hstep := rmdirDir_step hbody
          have hspawned : e.spawned = [] := by cases hstep <;> rfl
          rw [hspawned] at hend
          rw [System.settles_nil.mp hend]
          exact .removed hp hfind hdir hne hd hstep

end VeronaFs
