import VeronaFs.Namespace.State

/-!
# Requests and behaviours of the file system

The requests of `FileSystem`, the cowns of the file system, and its behaviours: one constructor for
every `when` in `FileSystem.cpp`, with what its lambda captures.  A request also carries what its
execution finds in its environment: the time, the addresses of the objects and map nodes it creates,
and what a read through an iterator finds when the node was erased before the read.
-/

namespace VeronaFs

open Foundation

/-! ## Requests -/

/-- A create or mkdir request. -/
structure MakeReq where
  /-- The request. -/
  req : ℕ
  /-- The inode number of the parent directory. -/
  parent : ℕ
  /-- The name of the new entry. -/
  name : Name
  /-- The permissions of the new inode. -/
  mode : BitVec 32
  /-- The requester. -/
  uid : ℕ
  /-- The group of the requester. -/
  gid : ℕ
  /-- The file information of a create request. -/
  fi : FileInfo
  /-- The time at which the request is handled. -/
  now : ℤ
  /-- The address of the cown that is created. -/
  addr : ℕ
  /-- The address of the inode inside this cown. -/
  this : ℕ
  /-- The address of the map node that is created. -/
  node : ℕ

/-- An unlink or rmdir request. -/
structure RemoveReq where
  /-- The request. -/
  req : ℕ
  /-- The inode number of the parent directory. -/
  parent : ℕ
  /-- The name of the entry. -/
  name : Name
  /-- The requester. -/
  uid : ℕ
  /-- The group of the requester. -/
  gid : ℕ
  /-- The time at which the behaviour runs. -/
  now : ℤ
  /-- What the second behaviour of rmdir reads in a node that was erased. -/
  freed : Iter → Name × ℕ

/-- The places where rename reads through an iterator. -/
inductive RenameRead where
  /-- The name of the old entry, to erase it. -/
  | eraseOld
  /-- The name of the target, to erase it. -/
  | eraseDupl
  /-- The name that is inserted for an existing target. -/
  | insertName
  /-- The inode number that is inserted. -/
  | insertIno
  /-- The inode number that decides whether the link counts of the parents change. -/
  | countOld
  /-- The inode number of the old entry, to look it up in the tables. -/
  | tableOld
  /-- The inode number of the target, to look it up in the tables. -/
  | tableDupl
deriving DecidableEq, Repr

/-- A rename request. -/
structure RenameReq where
  /-- The request. -/
  req : ℕ
  /-- The inode number of the parent directory of the entry. -/
  parent : ℕ
  /-- The name of the entry. -/
  oldname : Name
  /-- The inode number of the new parent directory. -/
  newparent : ℕ
  /-- The new name. -/
  newname : Name
  /-- The requester. -/
  uid : ℕ
  /-- The group of the requester. -/
  gid : ℕ
  /-- The time at which the last behaviour runs. -/
  now : ℤ
  /-- The address of the map node that is created. -/
  node : ℕ
  /-- What the reads find in a node that was erased. -/
  freed : RenameRead → Iter → Name × ℕ

/-- A readdir request. -/
structure ReaddirReq where
  /-- The request. -/
  req : ℕ
  /-- The inode number of the directory. -/
  parent : ℕ
  /-- The size of the buffer. -/
  bufsize : ℕ
  /-- The offset from which to continue. -/
  off : ℤ

/-- The requests of the file system. -/
inductive FsRequest where
  /-- `FileSystem::lookup`. -/
  | lookup (req parent : ℕ) (name : Name)
  /-- `FileSystem::create`. -/
  | create (r : MakeReq)
  /-- `FileSystem::mkdir`. -/
  | mkdir (r : MakeReq)
  /-- `FileSystem::unlink`. -/
  | unlink (r : RemoveReq)
  /-- `FileSystem::rmdir`. -/
  | rmdir (r : RemoveReq)
  /-- `FileSystem::rename`. -/
  | rename (r : RenameReq)
  /-- `FileSystem::readdir`. -/
  | readdir (r : ReaddirReq)
  /-- `FileSystem::getattr`. -/
  | getattr (req ino : ℕ)
  /-- `FileSystem::forget`. -/
  | forget (ino nlookup : ℕ)
  /-- `setattr`, `open`, `opendir`, `access`, `my_fallocate`, `read` and `write` of `FileSystem`. -/
  | onInode (ino : ℕ) (q : FileRequest)

/-! ## Behaviours -/

/-- The cowns of the file system. -/
inductive FsCown where
  /-- A directory. -/
  | dir (ino : ℕ)
  /-- A cown behind a regular inode. -/
  | file (ino : ℕ) (c : FileCown)
  /-- `dir_inode_table`. -/
  | dirTable
  /-- `regular_inode_table`. -/
  | regTable
deriving DecidableEq

/-- The cown of a regular inode. -/
abbrev FsCown.reg (ino : ℕ) : FsCown := .file ino .inode

/-- The inodes that the behaviour of `replace_entry` on the tables looked up: those of the old entry
and of the target, as regular inodes and as directories.  A placeholder (`fake`) is `none`. -/
structure Replaced where
  /-- `old_reg_ino_cown`. -/
  oldReg : Option ℕ
  /-- `dupl_reg_ino_cown`. -/
  duplReg : Option ℕ
  /-- `old_dir_ino_cown`. -/
  oldDir : Option ℕ
  /-- `dupl_dir_ino_cown`. -/
  duplDir : Option ℕ

/-- The behaviours of the file system. -/
inductive FsTask where
  /-- A behaviour behind a regular inode. -/
  | file (ino : ℕ) (t : FileTask)
  /-- `add_inode` for a directory. -/
  | addDir (ino : ℕ) (st : Stat)
  /-- `add_inode` for a regular inode. -/
  | addReg (ino : ℕ) (st : Stat)
  /-- The behaviour of `lookup` on the parent. -/
  | lookup (req parent : ℕ) (name : Name)
  /-- The behaviour of `lookup` on a regular inode. -/
  | lookupReg (req ino : ℕ)
  /-- The behaviour of `lookup` on a directory. -/
  | lookupDir (req ino : ℕ)
  /-- The behaviour of `create`. -/
  | create (r : MakeReq)
  /-- The behaviour of `mkdir`. -/
  | mkdir (r : MakeReq)
  /-- The behaviour of `unlink` on the parent. -/
  | unlink (r : RemoveReq)
  /-- The behaviour of `unlink` on the inode and the parent. -/
  | unlinkReg (r : RemoveReq) (ino : ℕ)
  /-- The behaviour of `rmdir` on the parent. -/
  | rmdir (r : RemoveReq)
  /-- The behaviour of `rmdir` on the directory and the parent. -/
  | rmdirDir (r : RemoveReq) (it : Iter)
  /-- The behaviour of `rename` on the parents. -/
  | rename (r : RenameReq)
  /-- The behaviour of `rename` on the old inode, a directory, and the parents. -/
  | renameDir (r : RenameReq) (old : Iter)
  /-- The behaviour of `rename` on the old inode, a regular one, and the parents. -/
  | renameReg (r : RenameReq) (old : Iter)
  /-- The behaviour of `replace_entry` and `replace_entry_same_parent` on the tables. -/
  | replaceTables (r : RenameReq) (old dupl : Iter)
  /-- The behaviour of `replace_entry` and `replace_entry_same_parent` on the parents and the
  inodes. -/
  | replaceInodes (r : RenameReq) (old dupl : Iter) (x : Replaced)
  /-- The behaviour of `readdir`, with the entries, the position and the offset so far. -/
  | readdir (r : ReaddirReq) (entries : List Dirent) (pos off : ℕ)
  /-- The behaviour of `setattr` on a directory. -/
  | setattrDir (ino : ℕ) (r : SetattrReq)
  /-- The behaviour of `opendir` on a directory. -/
  | opendirDir (ino req : ℕ) (flags : BitVec 32) (uid gid : ℕ) (fi : FileInfo)
  /-- The behaviour of `access` on a directory. -/
  | accessDir (ino req : ℕ) (mask : BitVec 32) (uid gid : ℕ)
  /-- The behaviour of `forget` on a directory. -/
  | forgetDir (ino nlookup : ℕ)
  /-- The behaviour of `forget` on a regular inode. -/
  | forgetReg (ino nlookup : ℕ)

/-- The cowns of the parents of a rename. -/
def RenameReq.parents (r : RenameReq) : List FsCown :=
  if r.parent = r.newparent then [.dir r.parent] else [.dir r.parent, .dir r.newparent]

/-- The cowns of the inodes that were looked up; placeholders are fresh and shared with nobody. -/
def Replaced.cowns (x : Replaced) : List FsCown :=
  (x.oldReg.map FsCown.reg).toList ++ (x.duplReg.map FsCown.reg).toList ++
    (x.oldDir.map FsCown.dir).toList ++ (x.duplDir.map FsCown.dir).toList

/-- The cowns of a behaviour. -/
def FsTask.cowns : FsTask → List FsCown
  | .file ino t => t.cowns.map (.file ino)
  | .addDir ino _ => [.dir ino, .dirTable]
  | .addReg ino _ => [.reg ino, .regTable]
  | .lookup _ parent _ => [.dir parent]
  | .lookupReg _ ino => [.reg ino, .regTable]
  | .lookupDir _ ino => [.dir ino, .dirTable]
  | .create r => [.dir r.parent]
  | .mkdir r => [.dir r.parent]
  | .unlink r => [.dir r.parent]
  | .unlinkReg r ino => [.reg ino, .dir r.parent]
  | .rmdir r => [.dir r.parent]
  | .rmdirDir r it => [.dir it.entry.ino, .dir r.parent]
  | .rename r => r.parents
  | .renameDir r old => .dir old.entry.ino :: r.parents
  | .renameReg r old => .reg old.entry.ino :: r.parents
  | .replaceTables _ _ _ => [.regTable, .dirTable]
  | .replaceInodes r _ _ x => r.parents ++ x.cowns
  | .readdir r _ _ _ => [.dir r.parent]
  | .setattrDir ino _ => [.dir ino, .dirTable]
  | .opendirDir ino _ _ _ _ _ => [.dir ino]
  | .accessDir ino _ _ _ _ => [.dir ino]
  | .forgetDir ino _ => [.dir ino, .dirTable]
  | .forgetReg ino _ => [.reg ino, .regTable]

end VeronaFs
