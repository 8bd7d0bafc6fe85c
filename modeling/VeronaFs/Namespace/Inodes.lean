import VeronaFs.Namespace.Requests

/-!
# Behaviours that leave the entries

The inode tables (`add_inode`, `get_inode`, `lookup`, `forget`), the attributes of a directory
(`setattr`, `opendir`, `access`) and the listing of its entries (`readdir`).  Each definition is the
body of one behaviour of `FileSystem.cpp`; the behaviours on a regular inode are those of
`FileTask`.
-/

namespace VeronaFs

open Boc Foundation

/-- The effects of the bodies of behaviours and of the handlers. -/
abbrev FsEffect := Effect FsState FsTask Reply

namespace FsState

/-! ## The inode tables -/

/-- The body of `add_inode` for a directory. -/
def addDir (s : FsState) (ino : ℕ) (st : Stat) : Except Fault FsEffect := do
  let inode ← s.getDir ino
  if inode.krefs ≠ 0 then .error .assertion
  else
    let inode := { inode with iSt := st, ino := st.stIno, krefs := inode.krefs + 1 }
    .ok ⟨{ s.setDir ino inode with dirTable := s.dirTable.insertIfNew inode.ino ino }, [], []⟩

/-- The body of `add_inode` for a regular inode. -/
def addReg (s : FsState) (ino : ℕ) (st : Stat) : Except Fault FsEffect := do
  let f ← s.getReg ino
  if f.inode.krefs ≠ 0 then .error .assertion
  else
    let inode := { f.inode with iSt := st, ino := st.stIno, krefs := f.inode.krefs + 1 }
    .ok ⟨{ s.setReg ino { f with inode := inode } with
      regTable := s.regTable.insertIfNew inode.ino ino }, [], []⟩

/-- The assertions of `get_inode`: `krefs` is the number of references with the new one, and `found`
says whether the inode was in its table. -/
def getInodeCheck (krefs : ℤ) (found : Bool) : Except Fault Unit :=
  if found then if 0 < krefs then .ok () else .error .assertion
  else if krefs = 0 then .ok () else .error .assertion

/-- The reply to a lookup. -/
def lookupEntry (st : Stat) : EntryParam :=
  { ino := st.stIno, generation := 0, attr := st, attrTimeout := 0, entryTimeout := 0 }

/-- The body of `lookup` on a regular inode, with `get_inode`. -/
def lookupReg (s : FsState) (req ino : ℕ) : Except Fault FsEffect := do
  let f ← s.getReg ino
  let inode := { f.inode with krefs := f.inode.krefs + 1 }
  getInodeCheck inode.krefs s.regTable[inode.ino]?.isSome
  .ok ⟨{ s.setReg ino { f with inode := inode } with
    regTable := s.regTable.insertIfNew inode.ino ino }, [], [.entry req (lookupEntry inode.iSt)]⟩

/-- The body of `lookup` on a directory, with `get_inode`. -/
def lookupDir (s : FsState) (req ino : ℕ) : Except Fault FsEffect := do
  let d ← s.getDir ino
  let inode := { d with krefs := d.krefs + 1 }
  getInodeCheck inode.krefs s.dirTable[inode.ino]?.isSome
  .ok ⟨{ s.setDir ino inode with dirTable := s.dirTable.insertIfNew inode.ino ino }, [],
    [.entry req (lookupEntry inode.iSt)]⟩

/-- The body of `lookup` on the parent. -/
def lookup (s : FsState) (req parent : ℕ) (name : Name) : Except Fault FsEffect := do
  let parentIn ← s.getDir parent
  match parentIn.find name with
  | none => .ok ⟨s, [], [replyFail (-ENOENT) req]⟩
  | some it =>
    if it.entry.ino % 2 = 1 then do
      let _ ← s.getReg it.entry.ino
      .ok ⟨s, [.lookupReg req it.entry.ino], []⟩
    else do
      let _ ← s.getDir it.entry.ino
      .ok ⟨s, [.lookupDir req it.entry.ino], []⟩

/-- The number of references after a forget.  `nlookup` is unsigned, so the difference is. -/
def forgetKrefs (krefs : ℤ) (nlookup : ℕ) : Except Fault ℤ :=
  if 0 < krefs then
    let krefs' := cOff (krefs - nlookup)
    if 0 ≤ krefs' then .ok krefs' else .error .assertion
  else .error .assertion

/-- The body of `forget` on a directory. -/
def forgetDir (s : FsState) (ino nlookup : ℕ) : Except Fault FsEffect := do
  let d ← s.getDir ino
  let krefs ← forgetKrefs d.krefs nlookup
  let s' := s.setDir ino { d with krefs := krefs }
  if krefs = 0 ∧ d.iSt.stNlink = 0 then
    .ok ⟨{ s' with dirTable := s'.dirTable.erase ino }, [], []⟩
  else .ok ⟨s', [], []⟩

/-- The body of `forget` on a regular inode. -/
def forgetReg (s : FsState) (ino nlookup : ℕ) : Except Fault FsEffect := do
  let f ← s.getReg ino
  let krefs ← forgetKrefs f.inode.krefs nlookup
  let s' := s.setReg ino { f with inode.krefs := krefs }
  if krefs = 0 ∧ f.st.stNlink = 0 then
    .ok ⟨{ s' with regTable := s'.regTable.erase ino },
      f.inode.dataBlocks.toList.map fun e => .file ino (.freeSpace e.2), []⟩
  else .ok ⟨s', [], []⟩

/-! ## Attributes of a directory -/

/-- The body of `setattr` on a directory. -/
def setattrDir (s : FsState) (ino : ℕ) (r : SetattrReq) : Except Fault FsEffect := do
  let d ← s.getDir ino
  match setattrFields r d.iSt with
  | (.error ret, st) => .ok ⟨s.setDir ino { d with iSt := st }, [], [replyFail ret r.req]⟩
  | (.ok clearMode, st) =>
    if r.has FUSE_SET_ATTR_SIZE then
      let ret ← setattrSizeCheck r st
      if ret ≠ 0 then .ok ⟨s.setDir ino { d with iSt := st }, [], [replyFail ret r.req]⟩
      else
        let st' := setattrFinish r clearMode { st with stMtime := r.now }
        .ok ⟨s.setDir ino { d with iSt := st' }, [], [.attr r.req st']⟩
    else
      let st' := setattrFinish r clearMode st
      .ok ⟨s.setDir ino { d with iSt := st' }, [], [.attr r.req st']⟩

/-- The body of `opendir` on a directory. -/
def opendirDir (s : FsState) (ino req : ℕ) (flags : BitVec 32) (uid gid : ℕ) (fi : FileInfo) :
    Except Fault FsEffect := do
  let d ← s.getDir ino
  if flags &&& O_ACCMODE = O_RDONLY then
    let ret ← access d.iSt R_OK uid gid
    if ret ≠ 0 then .ok ⟨s, [], [replyFail ret req]⟩ else .ok ⟨s, [], [.openFile req fi]⟩
  else .ok ⟨s, [], [.openFile req fi]⟩

/-- The body of `access` on a directory. -/
def accessDir (s : FsState) (ino req : ℕ) (mask : BitVec 32) (uid gid : ℕ) :
    Except Fault FsEffect := do
  let d ← s.getDir ino
  let ret ← access d.iSt mask uid gid
  .ok ⟨s, [], [.err req (-ret)]⟩

/-! ## Listing -/

/-- The number of bytes `fuse_add_direntry` needs: the header and the name, padded to eight. -/
def direntSize (name : Name) : ℕ := (24 + name.length + 7) / 8 * 8

/-- One of the entries `.` and `..` that `readdir` adds before it schedules its behaviour: the
entries and the position after it, or `none` when the buffer is full. -/
def addDot (r : ReaddirReq) (name : Name) (entries : List Dirent) (pos off : ℕ) :
    Option (List Dirent × ℕ) :=
  if direntSize name > r.bufsize - pos then none
  else some (entries ++ [⟨1, off, name⟩], pos + direntSize name)

/-- The loop of `readdir` over the entries of the directory, from the `count`-th on. -/
def readdirLoop (bufsize target : ℕ) : List (Name × Dentry) → ℕ → List Dirent → ℕ → ℕ → List Dirent
  | [], _, entries, _, _ => entries
  | e :: children, count, entries, pos, off =>
    if target ≤ count then
      if direntSize e.1 > bufsize - pos then entries
      else
        readdirLoop bufsize target children (count + 1) (entries ++ [⟨e.2.ino, off + 1, e.1⟩])
          (pos + direntSize e.1) (off + 1)
    else readdirLoop bufsize target children (count + 1) entries pos off

/-- The body of `readdir`. -/
def readdir (s : FsState) (r : ReaddirReq) (entries : List Dirent) (pos off : ℕ) :
    Except Fault FsEffect := do
  let d ← s.getDir r.parent
  .ok ⟨s, [], [.dir r.req (readdirLoop r.bufsize (off - 2) d.dentries.toList 0 entries pos off)]⟩

/-- The names of the entries that `readdir` adds itself: `.` and `..`. -/
def dotName (k : ℕ) : Name := List.replicate k 46

/-- The handler of `readdir`. -/
def handleReaddir (s : FsState) (r : ReaddirReq) : Except Fault FsEffect :=
  let off := cU64 r.off
  match (if off = 0 then addDot r (dotName 1) [] 0 1 else some ([], 0)) with
  | none => .ok ⟨s, [], [.dir r.req []]⟩
  | some (entries, pos) =>
    match (if off ≤ 1 then addDot r (dotName 2) entries pos 2 else some (entries, pos)) with
    | none => .ok ⟨s, [], [.dir r.req entries]⟩
    | some (entries, pos) => do
      let _ ← s.getDir r.parent
      .ok ⟨s, [.readdir r entries pos (max off 2)], []⟩

/-- `FileSystem::getattr`: it reads the attributes without a behaviour. -/
def getattr (s : FsState) (req ino : ℕ) : Except Fault FsEffect :=
  if ino = FUSE_ROOT_ID ∨ ino % 2 = 0 then do
    let d ← s.getDir ino
    .ok ⟨s, [], [.attr req d.iSt]⟩
  else do
    let f ← s.getReg ino
    .ok ⟨s, [], [.attr req f.st]⟩

end FsState

end VeronaFs
