import VeronaFs.Namespace.Entries

/-!
# Rename

`rename` has a path for two parents and one for a single parent.  Both go through up to four
behaviours: the parents, the old inode with the parents, the inode tables when the new name exists,
and the parents with all inodes that were found.  The iterators to the old entry and to the target
are captured on the way.  `replace_entry` belongs to the path with two parents and
`replace_entry_same_parent` to the other; the paths differ in their checks, in the name under which
the entry is inserted and in the link counts.
-/

namespace VeronaFs

open Boc Foundation

namespace RenameReq

/-- Whether the path with a single parent is taken. -/
def sameParent (r : RenameReq) : Bool := r.parent = r.newparent

/-- Whether the requester is neither root nor one of the two owners. -/
def notOwner (r : RenameReq) (uid uid' : ℕ) : Bool := r.uid ≠ 0 ∧ r.uid ≠ uid ∧ r.uid ≠ uid'

/-- Whether a sticky bit keeps the requester from a change that the two owners may make. -/
def stickyDenied (r : RenameReq) (holder : Stat) (uid uid' : ℕ) : Bool :=
  holder.isSticky ∧ r.notOwner uid uid'

end RenameReq

/-- The owner of a placeholder: `(uid_t)-1`. -/
def FAKE_UID : ℕ := 2 ^ 32 - 1

namespace FsState

/-! ## The parents -/

/-- The body of `rename` on the parents. -/
def rename (s : FsState) (r : RenameReq) : Except Fault FsEffect := do
  let oldParentIn ← s.getDir r.parent
  let newParentIn ← s.getDir r.newparent
  match oldParentIn.find r.oldname with
  | none => .ok ⟨s, [], [replyFail (-ENOENT) r.req]⟩
  | some old =>
    let ret ← access oldParentIn.iSt W_OK r.uid r.gid
    if ret ≠ 0 then .ok ⟨s, [], [.err r.req (-ret)]⟩
    else
      let ret ← access newParentIn.iSt W_OK r.uid r.gid
      if ret ≠ 0 then .ok ⟨s, [], [.err r.req (-ret)]⟩
      else if old.entry.ino = 1 ∨ old.entry.ino % 2 = 0 then do
        let _ ← s.getDir old.entry.ino
        .ok ⟨s, [.renameDir r old], []⟩
      else do
        let _ ← s.getReg old.entry.ino
        .ok ⟨s, [.renameReg r old], []⟩

/-! ## Replacement -/

/-- The move of the old entry to a name that is free, with two parents. -/
def moveTwo (r : RenameReq) (old : Iter) (oldParentIn newParentIn : DirInode) :
    DirInode × DirInode :=
  let oldParentIn := oldParentIn.erase (oldParentIn.deref (r.freed .eraseOld) old).1
  let newParentIn :=
    newParentIn.insert r.newname ⟨(oldParentIn.deref (r.freed .insertIno) old).2, r.node⟩
  if (oldParentIn.deref (r.freed .countOld) old).2 % 2 = 0 then
    (oldParentIn.addLinks (-1), newParentIn.addLinks 1)
  else (oldParentIn, newParentIn)

/-- The move of the old entry to a name that is free, with a single parent. -/
def moveOne (r : RenameReq) (old : Iter) (oldParentIn : DirInode) : DirInode :=
  let oldParentIn := oldParentIn.erase (oldParentIn.deref (r.freed .eraseOld) old).1
  oldParentIn.insert r.newname ⟨(oldParentIn.deref (r.freed .insertIno) old).2, r.node⟩

/-- `replace_entry`: the new name is looked up in the new parent, and the entry is moved when there
is no target. -/
def replaceEntry (s : FsState) (r : RenameReq) (old : Iter) : Except Fault FsEffect := do
  let oldParentIn ← s.getDir r.parent
  let newParentIn ← s.getDir r.newparent
  match newParentIn.find r.newname with
  | none =>
    let ps := moveTwo r old oldParentIn newParentIn
    .ok ⟨(s.setDir r.parent ps.1).setDir r.newparent ps.2, [], [.err r.req 0]⟩
  | some dupl => .ok ⟨s, [.replaceTables r old dupl], []⟩

/-- `replace_entry_same_parent`. -/
def replaceEntrySameParent (s : FsState) (r : RenameReq) (old : Iter) : Except Fault FsEffect := do
  let oldParentIn ← s.getDir r.parent
  match oldParentIn.find r.newname with
  | none => .ok ⟨s.setDir r.parent (moveOne r old oldParentIn), [], [.err r.req 0]⟩
  | some dupl => .ok ⟨s, [.replaceTables r old dupl], []⟩

/-! ## The old inode -/

/-- The permission check of `rename` on an old inode whose mode is that of a directory. -/
def sourceCheck (r : RenameReq) (st : Stat) : Except Fault ℤ :=
  if st.isDir then access st W_OK r.uid r.gid else .ok 0

/-- The body of `rename` on the old inode, a directory, and the parents. -/
def renameDir (s : FsState) (r : RenameReq) (old : Iter) : Except Fault FsEffect := do
  let oldIn ← s.getDir old.entry.ino
  let oldParentIn ← s.getDir r.parent
  let ret ← sourceCheck r oldIn.iSt
  if r.sameParent then
    if ret ≠ 0 then .ok ⟨s, [], [replyFail ret r.req]⟩
    else if r.stickyDenied oldIn.iSt oldIn.iSt.stUid oldIn.iSt.stUid then .ok ⟨s, [], []⟩
    else s.replaceEntrySameParent r old
  else
    -- the exits of this path have no reply
    if ret ≠ 0 then .ok ⟨s, [], []⟩
    else if r.stickyDenied oldParentIn.iSt oldIn.iSt.stUid oldParentIn.iSt.stUid then
      .ok ⟨s, [], []⟩
    else s.replaceEntry r old

/-- The body of `rename` on the old inode, a regular one, and the parents. -/
def renameReg (s : FsState) (r : RenameReq) (old : Iter) : Except Fault FsEffect := do
  let oldIn ← s.getReg old.entry.ino
  let oldParentIn ← s.getDir r.parent
  let ret ← sourceCheck r oldIn.st
  -- the exits of both paths have no reply
  if ret ≠ 0 then .ok ⟨s, [], []⟩
  else if r.stickyDenied oldParentIn.iSt oldIn.st.stUid oldParentIn.iSt.stUid then
    .ok ⟨s, [], []⟩
  else if r.sameParent then s.replaceEntrySameParent r old
  else s.replaceEntry r old

/-! ## The tables -/

/-- The body of `replace_entry` and `replace_entry_same_parent` on the tables. -/
def replaceTables (s : FsState) (r : RenameReq) (old dupl : Iter) : Except Fault FsEffect := do
  let oldParentIn ← s.getDir r.parent
  let newParentIn ← s.getDir r.newparent
  let oldIno := (oldParentIn.deref (r.freed .tableOld) old).2
  let duplIno := (newParentIn.deref (r.freed .tableDupl) dupl).2
  .ok ⟨s, [.replaceInodes r old dupl
    ⟨s.regTable[oldIno]?, s.regTable[duplIno]?, s.dirTable[oldIno]?, s.dirTable[duplIno]?⟩], []⟩

/-! ## The inodes -/

/-- The regular inode behind a cown that may be a placeholder. -/
def getReg? (s : FsState) : Option ℕ → Except Fault (Option File)
  | none => .ok none
  | some ino => some <$> s.getReg ino

/-- The directory behind a cown that may be a placeholder. -/
def getDir? (s : FsState) : Option ℕ → Except Fault (Option DirInode)
  | none => .ok none
  | some ino => some <$> s.getDir ino

/-- The checks of `replace_entry` and `replace_entry_same_parent` on the new parent and the inodes,
where placeholders are `none`: `none` when they pass, else the replies of the exit.  The check on a
target that is a directory reads the owner of the placeholder for a regular target. -/
def replaceCheck (r : RenameReq) (newParentIn : DirInode) (duplReg : Option File)
    (oldDir duplDir : Option DirInode) : Option (List Reply) :=
  let duplUid := (duplReg.map fun f => f.st.stUid).getD FAKE_UID
  let sticky := r.stickyDenied newParentIn.iSt duplUid newParentIn.iSt.stUid
  if duplReg.isSome ∧ sticky then some [replyFail (-EPERM) r.req]
  else if duplDir.isSome ∧ sticky then some [replyFail (-EPERM) r.req]
  else if oldDir.any (·.iSt.isDir) then
    match duplDir.filter (·.iSt.isDir) with
    | some d => if d.dentries.size ≠ 0 then some [replyFail (-ENOTEMPTY) r.req] else none
    | none => some [replyFail (-ENOTDIR) r.req]
  else if duplDir.any (·.iSt.isDir) then some []
  else none

/-- One link less for the regular inode that was replaced, if there is one. -/
def dropLink (s : FsState) (ino : Option ℕ) (f : Option File) : FsState :=
  match ino, f with
  | some ino, some f => s.setReg ino { f with inode.iSt.stNlink := f.st.stNlink - 1 }
  | _, _ => s

/-- The replacement of the target by the old entry, with two parents: the entry is inserted under
its old name. -/
def replaceInodesTwo (r : RenameReq) (old dupl : Iter) (dirs : Bool)
    (oldParentIn newParentIn : DirInode) : DirInode × DirInode :=
  let oldParentIn := { oldParentIn with iSt.stCtime := r.now }
  let oldParentIn := oldParentIn.erase (oldParentIn.deref (r.freed .eraseOld) old).1
  let newParentIn := newParentIn.erase (newParentIn.deref (r.freed .eraseDupl) dupl).1
  let newParentIn := newParentIn.insert (oldParentIn.deref (r.freed .insertName) old).1
    ⟨(oldParentIn.deref (r.freed .insertIno) old).2, r.node⟩
  if dirs then (oldParentIn.addLinks (-1), newParentIn.addLinks 1) else (oldParentIn, newParentIn)

/-- The replacement of the target by the old entry, with a single parent. -/
def replaceInodesOne (r : RenameReq) (old dupl : Iter) (dirs : Bool) (oldParentIn : DirInode) :
    DirInode :=
  let oldParentIn := { oldParentIn with iSt.stCtime := r.now }
  let oldParentIn := oldParentIn.erase (oldParentIn.deref (r.freed .eraseOld) old).1
  let oldParentIn := oldParentIn.erase (oldParentIn.deref (r.freed .eraseDupl) dupl).1
  let oldParentIn := oldParentIn.insert (oldParentIn.deref (r.freed .insertName) dupl).1
    ⟨(oldParentIn.deref (r.freed .insertIno) old).2, r.node⟩
  if dirs then oldParentIn.addLinks (-1) else oldParentIn

/-- The body of `replace_entry` and `replace_entry_same_parent` on the parents and the inodes. -/
def replaceInodes (s : FsState) (r : RenameReq) (old dupl : Iter) (x : Replaced) :
    Except Fault FsEffect := do
  let oldParentIn ← s.getDir r.parent
  let newParentIn ← s.getDir r.newparent
  let duplReg ← s.getReg? x.duplReg
  let oldDir ← s.getDir? x.oldDir
  let duplDir ← s.getDir? x.duplDir
  match replaceCheck r newParentIn duplReg oldDir duplDir with
  | some rs => .ok ⟨s, [], rs⟩
  | none =>
    let dirs := oldDir.isSome && duplDir.isSome
    let s := s.dropLink x.duplReg duplReg
    if r.sameParent then
      .ok ⟨s.setDir r.parent (replaceInodesOne r old dupl dirs oldParentIn), [], [.err r.req 0]⟩
    else
      let ps := replaceInodesTwo r old dupl dirs oldParentIn newParentIn
      .ok ⟨(s.setDir r.parent ps.1).setDir r.newparent ps.2, [], [.err r.req 0]⟩

/-- The handler of `rename`: a name that is too long has no reply. -/
def handleRename (s : FsState) (r : RenameReq) : Except Fault FsEffect :=
  if r.oldname.length > NAME_MAX ∨ r.newname.length > NAME_MAX then .ok ⟨s, [], []⟩
  else do
    let _ ← s.getDir r.parent
    let _ ← s.getDir r.newparent
    .ok ⟨s, [.rename r], []⟩

end FsState

end VeronaFs
