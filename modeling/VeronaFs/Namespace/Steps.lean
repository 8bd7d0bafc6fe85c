import VeronaFs.Namespace.System

/-!
# What the behaviours on entries do

One inductive family for each body of `create`, `mkdir`, `unlink`, `rmdir` and `rename`, with one
constructor for each of its exits: the guards that lead to the exit, and the effect.  The theorem
after a family says that the body has no other exits.
-/

namespace VeronaFs

open Boc Foundation

/-! ## Reading through casts -/

namespace FsState

/-- A cast to a directory that exists. -/
theorem getDir_of_some {s : FsState} {i : ℕ} {d : DirInode} (h : s.dirs[i]? = some d) :
    s.getDir i = .ok d := getDir_eq_ok s i |>.mpr h

/-- A cast to a directory that does not exist. -/
theorem getDir_of_none {s : FsState} {i : ℕ} (h : s.dirs[i]? = none) :
    s.getDir i = .error .badCown := by
  unfold getDir
  rw [h]

/-- A cast to a regular inode that exists. -/
theorem getReg_of_some {s : FsState} {i : ℕ} {f : File} (h : s.regs[i]? = some f) :
    s.getReg i = .ok f := getReg_eq_ok s i |>.mpr h

/-- A cast to a regular inode that does not exist. -/
theorem getReg_of_none {s : FsState} {i : ℕ} (h : s.regs[i]? = none) :
    s.getReg i = .error .badCown := by
  unfold getReg
  rw [h]

end FsState

/-- The permission to change the entries of a directory. -/
def DirInode.CanWrite (d : DirInode) (uid gid : ℕ) : Prop := accessBits d.iSt W_OK uid gid = 0

instance (d : DirInode) (uid gid : ℕ) : Decidable (d.CanWrite uid gid) :=
  inferInstanceAs (Decidable (_ = _))

/-- The permission is there and the check yields zero, or it is not and the check yields
`-EACCES`. -/
theorem DirInode.canWrite_cases (d : DirInode) (uid gid : ℕ) :
    (d.CanWrite uid gid ∧ accessBits d.iSt W_OK uid gid = 0) ∨
      (¬ d.CanWrite uid gid ∧ accessBits d.iSt W_OK uid gid = -EACCES) := by
  rcases accessBits_eq d.iSt W_OK uid gid with h | h
  · exact .inl ⟨h, h⟩
  · exact .inr ⟨fun h0 => absurd (h0.symm.trans h) (by decide), h⟩

/-- The error of the permission check is not zero. -/
theorem neg_EACCES_ne_zero : -EACCES ≠ 0 := by decide

/-! ## Lookup -/

/-- The exits of `lookup` on the parent. -/
inductive LookupStep (s : FsState) (req parent : ℕ) (name : Name) : FsEffect → Prop
  /-- There is no entry. -/
  | noEntry {p : DirInode} (hp : s.dirs[parent]? = some p) (hfind : p.find name = none) :
      LookupStep s req parent name ⟨s, [], [.err req ENOENT]⟩
  /-- The entry names a regular inode. -/
  | reg {p : DirInode} {it : Iter} {f : File} (hp : s.dirs[parent]? = some p)
      (hfind : p.find name = some it) (hodd : it.entry.ino % 2 = 1)
      (hf : s.regs[it.entry.ino]? = some f) :
      LookupStep s req parent name ⟨s, [.lookupReg req it.entry.ino], []⟩
  /-- The entry names a directory. -/
  | dir {p d : DirInode} {it : Iter} (hp : s.dirs[parent]? = some p)
      (hfind : p.find name = some it) (heven : it.entry.ino % 2 = 0)
      (hd : s.dirs[it.entry.ino]? = some d) :
      LookupStep s req parent name ⟨s, [.lookupDir req it.entry.ino], []⟩

/-- The body of `lookup` takes one of its exits. -/
theorem lookup_step {s : FsState} {req parent : ℕ} {name : Name} {e : FsEffect}
    (h : s.lookup req parent name = .ok e) : LookupStep s req parent name e := by
  obtain ⟨p, hp, h⟩ := bind_eq_ok.mp h
  rw [FsState.getDir_eq_ok] at hp
  split at h
  · next hfind =>
    rw [← Except.ok.inj h]
    exact .noEntry hp hfind
  · next it hfind =>
    split at h
    · next hodd =>
      obtain ⟨f, hf, h⟩ := bind_eq_ok.mp h
      rw [FsState.getReg_eq_ok] at hf
      rw [← Except.ok.inj h]
      exact .reg hp hfind hodd hf
    · next heven =>
      obtain ⟨d, hd, h⟩ := bind_eq_ok.mp h
      rw [FsState.getDir_eq_ok] at hd
      rw [← Except.ok.inj h]
      exact .dir hp hfind (by omega) hd

/-! ## Creation -/

/-- The exits of `create`. -/
inductive CreateStep (s : FsState) (r : MakeReq) : FsEffect → Prop
  /-- The name is taken. -/
  | taken {p : DirInode} {it : Iter} (hp : s.dirs[r.parent]? = some p)
      (hfind : p.find r.name = some it) : CreateStep s r ⟨s, [], [.err r.req EEXIST]⟩
  /-- The requester may not write the parent. -/
  | denied {p : DirInode} (hp : s.dirs[r.parent]? = some p) (hfind : p.find r.name = none)
      (hacc : ¬ p.CanWrite r.uid r.gid) : CreateStep s r ⟨s, [], [.err r.req EACCES]⟩
  /-- The entry is made. -/
  | made {p : DirInode} (hp : s.dirs[r.parent]? = some p) (hfind : p.find r.name = none)
      (hacc : p.CanWrite r.uid r.gid) :
      CreateStep s r
        ⟨(s.setReg r.regIno r.newReg).setDir r.parent
            ((p.insert r.name ⟨r.regIno, r.node⟩).touch r.now),
          [.addReg r.regIno r.regStat],
          [.create r.req (MakeReq.entryParam r.regStat) r.createInfo]⟩

/-- The body of `create` takes one of its exits. -/
theorem create_step {s : FsState} {r : MakeReq} {e : FsEffect} (h : s.create r = .ok e) :
    CreateStep s r e := by
  obtain ⟨p, hp, h⟩ := bind_eq_ok.mp h
  rw [FsState.getDir_eq_ok] at hp
  cases hfind : p.find r.name with
  | some it =>
    simp only [hfind, Option.isSome_some, if_true] at h
    rw [← Except.ok.inj h]
    exact .taken hp hfind
  | none =>
    simp only [hfind, Option.isSome_none, Bool.false_eq_true, if_false, access_W_OK, bind,
      Except.bind] at h
    rcases p.canWrite_cases r.uid r.gid with ⟨hacc, hret⟩ | ⟨hacc, hret⟩
    · rw [hret, if_neg (not_not.mpr rfl)] at h
      rw [← Except.ok.inj h]
      exact .made hp hfind hacc
    · rw [hret, if_pos neg_EACCES_ne_zero] at h
      rw [← Except.ok.inj h]
      exact .denied hp hfind hacc

/-- The exits of `mkdir`. -/
inductive MkdirStep (s : FsState) (r : MakeReq) : FsEffect → Prop
  /-- The name is taken. -/
  | taken {p : DirInode} {it : Iter} (hp : s.dirs[r.parent]? = some p)
      (hfind : p.find r.name = some it) : MkdirStep s r ⟨s, [], [.err r.req EEXIST]⟩
  /-- The requester may not write the parent. -/
  | denied {p : DirInode} (hp : s.dirs[r.parent]? = some p) (hfind : p.find r.name = none)
      (hacc : ¬ p.CanWrite r.uid r.gid) : MkdirStep s r ⟨s, [], [.err r.req EACCES]⟩
  /-- The entry is made. -/
  | made {p : DirInode} (hp : s.dirs[r.parent]? = some p) (hfind : p.find r.name = none)
      (hacc : p.CanWrite r.uid r.gid) :
      MkdirStep s r
        ⟨(s.setDir r.addr r.newDir).setDir r.parent
            (((p.insert r.name ⟨r.addr, r.node⟩).touch r.now).addLinks 1),
          [.addDir r.addr r.dirStat], [.entry r.req (MakeReq.entryParam r.dirStat)]⟩

/-- The body of `mkdir` takes one of its exits. -/
theorem mkdir_step {s : FsState} {r : MakeReq} {e : FsEffect} (h : s.mkdir r = .ok e) :
    MkdirStep s r e := by
  obtain ⟨p, hp, h⟩ := bind_eq_ok.mp h
  rw [FsState.getDir_eq_ok] at hp
  cases hfind : p.find r.name with
  | some it =>
    simp only [hfind, Option.isSome_some, if_true] at h
    rw [← Except.ok.inj h]
    exact .taken hp hfind
  | none =>
    simp only [hfind, Option.isSome_none, Bool.false_eq_true, if_false, access_W_OK, bind,
      Except.bind] at h
    rcases p.canWrite_cases r.uid r.gid with ⟨hacc, hret⟩ | ⟨hacc, hret⟩
    · rw [hret, if_neg (not_not.mpr rfl)] at h
      rw [← Except.ok.inj h]
      exact .made hp hfind hacc
    · rw [hret, if_pos neg_EACCES_ne_zero] at h
      rw [← Except.ok.inj h]
      exact .denied hp hfind hacc

/-! ## Removal -/

/-- The exits of `unlink` on the parent.  The permission error is sent with its sign turned twice,
and a directory is answered like a success. -/
inductive UnlinkStep (s : FsState) (r : RemoveReq) : FsEffect → Prop
  /-- There is no entry. -/
  | noEntry {p : DirInode} (hp : s.dirs[r.parent]? = some p) (hfind : p.find r.name = none) :
      UnlinkStep s r ⟨s, [], [.err r.req ENOENT]⟩
  /-- The requester may not write the parent. -/
  | denied {p : DirInode} {it : Iter} (hp : s.dirs[r.parent]? = some p)
      (hfind : p.find r.name = some it) (hacc : ¬ p.CanWrite r.uid r.gid) :
      UnlinkStep s r ⟨s, [], [.err r.req (-EACCES)]⟩
  /-- The entry names a directory. -/
  | isDir {p : DirInode} {it : Iter} (hp : s.dirs[r.parent]? = some p)
      (hfind : p.find r.name = some it) (hacc : p.CanWrite r.uid r.gid)
      (heven : it.entry.ino % 2 = 0) : UnlinkStep s r ⟨s, [], [.err r.req 0]⟩
  /-- The entry is erased. -/
  | erased {p : DirInode} {it : Iter} {f : File} (hp : s.dirs[r.parent]? = some p)
      (hfind : p.find r.name = some it) (hacc : p.CanWrite r.uid r.gid)
      (hodd : it.entry.ino % 2 = 1) (hf : s.regs[it.entry.ino]? = some f) :
      UnlinkStep s r
        ⟨s.setDir r.parent (p.erase r.name), [.unlinkReg r it.entry.ino], []⟩

/-- The body of `unlink` takes one of its exits. -/
theorem unlink_step {s : FsState} {r : RemoveReq} {e : FsEffect} (h : s.unlink r = .ok e) :
    UnlinkStep s r e := by
  obtain ⟨p, hp, h⟩ := bind_eq_ok.mp h
  rw [FsState.getDir_eq_ok] at hp
  cases hfind : p.find r.name with
  | none =>
    simp only [hfind] at h
    rw [← Except.ok.inj h]
    exact .noEntry hp hfind
  | some it =>
    simp only [hfind, access_W_OK] at h
    obtain ⟨ret, hret, h⟩ := bind_eq_ok.mp h
    obtain rfl := Except.ok.inj hret
    rcases p.canWrite_cases r.uid r.gid with ⟨hacc, hret⟩ | ⟨hacc, hret⟩
    · rw [hret, if_neg (not_not.mpr rfl)] at h
      split at h
      · next heven =>
        rw [← Except.ok.inj h]
        exact .isDir hp hfind hacc heven
      · next hodd =>
        obtain ⟨f, hf, h⟩ := bind_eq_ok.mp h
        rw [FsState.getReg_eq_ok] at hf
        rw [← Except.ok.inj h, (DirInode.find_eq_some.mp hfind).1]
        exact .erased hp hfind hacc (by omega) hf
    · rw [hret, if_pos neg_EACCES_ne_zero] at h
      rw [← Except.ok.inj h]
      exact .denied hp hfind hacc

/-- The effect of `unlink` on the inode and the parent. -/
theorem unlinkReg_step {s : FsState} {r : RemoveReq} {ino : ℕ} {e : FsEffect}
    (h : s.unlinkReg r ino = .ok e) :
    ∃ f p, s.regs[ino]? = some f ∧ s.dirs[r.parent]? = some p ∧
      e = ⟨(s.setReg ino { f with inode.iSt :=
          { f.st with stCtime := r.now, stNlink := f.st.stNlink - 1 } }).setDir r.parent
            (p.touch r.now), [], [.err r.req 0]⟩ := by
  obtain ⟨f, hf, h⟩ := bind_eq_ok.mp h
  obtain ⟨p, hp, h⟩ := bind_eq_ok.mp h
  rw [FsState.getReg_eq_ok] at hf
  rw [FsState.getDir_eq_ok] at hp
  exact ⟨f, p, hf, hp, (Except.ok.inj h).symm⟩

/-- The exits of `rmdir` on the parent. -/
inductive RmdirStep (s : FsState) (r : RemoveReq) : FsEffect → Prop
  /-- There is no entry. -/
  | noEntry {p : DirInode} (hp : s.dirs[r.parent]? = some p) (hfind : p.find r.name = none) :
      RmdirStep s r ⟨s, [], [.err r.req ENOENT]⟩
  /-- The entry names a regular inode. -/
  | notDir {p : DirInode} {it : Iter} (hp : s.dirs[r.parent]? = some p)
      (hfind : p.find r.name = some it) (hone : it.entry.ino ≠ 1) (hodd : it.entry.ino % 2 = 1) :
      RmdirStep s r ⟨s, [], [.err r.req ENOTDIR]⟩
  /-- The entry is captured. -/
  | found {p d : DirInode} {it : Iter} (hp : s.dirs[r.parent]? = some p)
      (hfind : p.find r.name = some it) (hdir : it.entry.ino = 1 ∨ it.entry.ino % 2 = 0)
      (hd : s.dirs[it.entry.ino]? = some d) : RmdirStep s r ⟨s, [.rmdirDir r it], []⟩

/-- The body of `rmdir` takes one of its exits. -/
theorem rmdir_step {s : FsState} {r : RemoveReq} {e : FsEffect} (h : s.rmdir r = .ok e) :
    RmdirStep s r e := by
  obtain ⟨p, hp, h⟩ := bind_eq_ok.mp h
  rw [FsState.getDir_eq_ok] at hp
  cases hfind : p.find r.name with
  | none =>
    simp only [hfind] at h
    rw [← Except.ok.inj h]
    exact .noEntry hp hfind
  | some it =>
    simp only [hfind] at h
    split at h
    · next hodd =>
      rw [← Except.ok.inj h]
      exact .notDir hp hfind hodd.1 (by omega)
    · next hdir =>
      obtain ⟨d, hd, h⟩ := bind_eq_ok.mp h
      rw [FsState.getDir_eq_ok] at hd
      rw [← Except.ok.inj h]
      exact .found hp hfind (by omega) hd

/-- The exits of `rmdir` on the directory and the parent. -/
inductive RmdirDirStep (s : FsState) (r : RemoveReq) (it : Iter) : FsEffect → Prop
  /-- The directory has entries. -/
  | notEmpty {d p : DirInode} (hd : s.dirs[it.entry.ino]? = some d)
      (hp : s.dirs[r.parent]? = some p) (hsize : d.dentries.size ≠ 0) :
      RmdirDirStep s r it ⟨s, [], [.err r.req ENOTEMPTY]⟩
  /-- The entry is erased. -/
  | erased {d p : DirInode} (hd : s.dirs[it.entry.ino]? = some d)
      (hp : s.dirs[r.parent]? = some p) (hsize : d.dentries.size = 0)
      (hnlink : d.iSt.stNlink = 2) :
      RmdirDirStep s r it
        ⟨(s.setDir it.entry.ino (d.addLinks (-2))).setDir r.parent
          (((p.touch r.now).erase (p.deref r.freed it).1).addLinks (-1)), [], [.err r.req 0]⟩

/-- The body of `rmdir` takes one of its exits. -/
theorem rmdirDir_step {s : FsState} {r : RemoveReq} {it : Iter} {e : FsEffect}
    (h : s.rmdirDir r it = .ok e) : RmdirDirStep s r it e := by
  obtain ⟨d, hd, h⟩ := bind_eq_ok.mp h
  obtain ⟨p, hp, h⟩ := bind_eq_ok.mp h
  rw [FsState.getDir_eq_ok] at hd hp
  split at h
  · next hsize =>
    rw [← Except.ok.inj h]
    exact .notEmpty hd hp hsize
  · next hsize =>
    simp only at h
    split at h
    · cases h
    · next hnlink =>
      rw [← Except.ok.inj h]
      refine .erased hd hp (not_not.mp hsize) ?_
      simp only [DirInode.addLinks, ne_eq, not_not] at hnlink
      omega

end VeronaFs
