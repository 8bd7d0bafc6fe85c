import VeronaFs.Namespace.Inodes

/-!
# Behaviours that change the entries of one directory

The bodies of `create`, `mkdir`, `unlink` and `rmdir`.  `unlink` erases the entry in its first
behaviour and `rmdir` in its second, through the iterator that the first one captured.
-/

namespace VeronaFs

open Boc Foundation

/-! ## Creation -/

namespace MakeReq

/-- The mode that `create` gives to its inode. -/
def regMode (r : MakeReq) : BitVec 32 := S_IFREG ||| r.mode

/-- The inode number of the regular inode that `create` makes. -/
def regIno (r : MakeReq) : ℕ := r.addr + 1

/-- The attributes that `create` hands to `add_inode` and to the kernel. -/
def regStat (r : MakeReq) : Stat := initStat r.regIno r.now r.uid r.gid BLOCK_SIZE r.regMode true

/-- The attributes that `mkdir` hands to `add_inode` and to the kernel. -/
def dirStat (r : MakeReq) : Stat := initStat r.addr r.now r.uid r.gid BLOCK_SIZE r.mode false

/-- The regular inode that `make_cown<RegInode>` constructs: it takes its own address for its
number. -/
def newReg (r : MakeReq) : File := .make r.this { r.regStat with stIno := r.this }

/-- The directory that `make_cown<DirInode>` constructs. -/
def newDir (r : MakeReq) : DirInode := ⟨r.this, { r.dirStat with stIno := r.this }, 0, ∅⟩

/-- The entry that is replied for a new inode. -/
def entryParam (st : Stat) : EntryParam :=
  { ino := st.stIno, generation := 0, attr := st, attrTimeout := 0, entryTimeout := 1 }

/-- The file information that `create` replies. -/
def createInfo (r : MakeReq) : FileInfo :=
  { r.fi with
    parallelDirectWrites := true, directIo := true
    fh := some ⟨r.regIno, r.fi.flags⟩ }

end MakeReq

namespace FsState

/-- The body of `create`.  The inode is made before the checks and goes away when they fail. -/
def create (s : FsState) (r : MakeReq) : Except Fault FsEffect := do
  let parentIn ← s.getDir r.parent
  if (parentIn.find r.name).isSome then .ok ⟨s, [], [replyFail (-EEXIST) r.req]⟩
  else
    let ret ← access parentIn.iSt W_OK r.uid r.gid
    if ret ≠ 0 then .ok ⟨s, [], [replyFail ret r.req]⟩
    else
      let s := s.setReg r.regIno r.newReg
      let parentIn := (parentIn.insert r.name ⟨r.regIno, r.node⟩).touch r.now
      .ok ⟨s.setDir r.parent parentIn, [.addReg r.regIno r.regStat],
        [.create r.req (MakeReq.entryParam r.regStat) r.createInfo]⟩

/-- The body of `mkdir`. -/
def mkdir (s : FsState) (r : MakeReq) : Except Fault FsEffect := do
  let parentIn ← s.getDir r.parent
  if (parentIn.find r.name).isSome then .ok ⟨s, [], [replyFail (-EEXIST) r.req]⟩
  else
    let ret ← access parentIn.iSt W_OK r.uid r.gid
    if ret ≠ 0 then .ok ⟨s, [], [replyFail ret r.req]⟩
    else
      let s := s.setDir r.addr r.newDir
      let parentIn := ((parentIn.insert r.name ⟨r.addr, r.node⟩).touch r.now).addLinks 1
      .ok ⟨s.setDir r.parent parentIn, [.addDir r.addr r.dirStat],
        [.entry r.req (MakeReq.entryParam r.dirStat)]⟩

/-- The handler of `create`. -/
def handleCreate (s : FsState) (r : MakeReq) : Except Fault FsEffect :=
  if r.name.length > NAME_MAX then .ok ⟨s, [], [replyFail (-ENAMETOOLONG) r.req]⟩
  else do
    let _ ← s.getDir r.parent
    .ok ⟨s, [.create r], []⟩

/-- The handler of `mkdir`. -/
def handleMkdir (s : FsState) (r : MakeReq) : Except Fault FsEffect :=
  if r.name.length > NAME_MAX then .ok ⟨s, [], [replyFail (-ENAMETOOLONG) r.req]⟩
  else do
    let _ ← s.getDir r.parent
    .ok ⟨s, [.mkdir r], []⟩

/-! ## Removal -/

/-- The body of `unlink` on the parent. -/
def unlink (s : FsState) (r : RemoveReq) : Except Fault FsEffect := do
  let parentIn ← s.getDir r.parent
  match parentIn.find r.name with
  | none => .ok ⟨s, [], [replyFail (-ENOENT) r.req]⟩
  | some it =>
    let ret ← access parentIn.iSt W_OK r.uid r.gid
    if ret ≠ 0 then .ok ⟨s, [], [replyFail (-ret) r.req]⟩
    else if it.entry.ino % 2 = 0 then .ok ⟨s, [], [replyFail ret r.req]⟩
    else do
      let _ ← s.getReg it.entry.ino
      .ok ⟨s.setDir r.parent (parentIn.erase it.name), [.unlinkReg r it.entry.ino], []⟩

/-- The body of `unlink` on the inode and the parent. -/
def unlinkReg (s : FsState) (r : RemoveReq) (ino : ℕ) : Except Fault FsEffect := do
  let regIn ← s.getReg ino
  let parentIn ← s.getDir r.parent
  let st := { regIn.st with stCtime := r.now, stNlink := regIn.st.stNlink - 1 }
  .ok ⟨(s.setReg ino { regIn with inode.iSt := st }).setDir r.parent (parentIn.touch r.now), [],
    [.err r.req 0]⟩

/-- The body of `rmdir` on the parent. -/
def rmdir (s : FsState) (r : RemoveReq) : Except Fault FsEffect := do
  let parentIn ← s.getDir r.parent
  match parentIn.find r.name with
  | none => .ok ⟨s, [], [replyFail (-ENOENT) r.req]⟩
  | some it =>
    if it.entry.ino ≠ 1 ∧ it.entry.ino % 2 ≠ 0 then .ok ⟨s, [], [replyFail (-ENOTDIR) r.req]⟩
    else do
      let _ ← s.getDir it.entry.ino
      .ok ⟨s, [.rmdirDir r it], []⟩

/-- The body of `rmdir` on the directory and the parent. -/
def rmdirDir (s : FsState) (r : RemoveReq) (it : Iter) : Except Fault FsEffect := do
  let inodeToDelete ← s.getDir it.entry.ino
  let parentIn ← s.getDir r.parent
  if inodeToDelete.dentries.size ≠ 0 then .ok ⟨s, [], [replyFail (-ENOTEMPTY) r.req]⟩
  else
    let inodeToDelete := inodeToDelete.addLinks (-2)
    if inodeToDelete.iSt.stNlink ≠ 0 then .error .assertion
    else
      let parentIn := parentIn.touch r.now
      let parentIn := (parentIn.erase (parentIn.deref r.freed it).1).addLinks (-1)
      .ok ⟨(s.setDir it.entry.ino inodeToDelete).setDir r.parent parentIn, [], [.err r.req 0]⟩

end FsState

end VeronaFs
