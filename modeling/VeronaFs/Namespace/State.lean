import VeronaFs.FileSystem.RegInode

/-!
# Directories and the file-system state

`DirInode` is a directory with its `dentries`, a `std::map` from names to inode numbers.  The code
captures iterators of these maps and uses them in later behaviours and after the entry was erased,
so every entry carries the address of its map node: `DirInode.deref` reads through an iterator, and
finds arbitrary data when the node is no longer in the map.

`FsState` has all inodes by inode number (the root under 1, the other directories under even and the
regular inodes under odd numbers) and the two inode tables.  Storage is not reused: an inode that
left its table stays here, and no table refers to it.
-/

namespace VeronaFs

open Boc Foundation

/-! ## Directory entries -/

/-- The value of an entry of `dentries`, with the address of the map node that holds it. -/
structure Dentry where
  /-- The inode number. -/
  ino : ℕ
  /-- The address of the node. -/
  node : ℕ
deriving DecidableEq, Repr

/-- An iterator into the `dentries` of a directory: the node it points to, with the contents the
node was created with.  Contents of nodes are never changed. -/
structure Iter where
  /-- The name in the node. -/
  name : Name
  /-- The value in the node and its address. -/
  entry : Dentry
deriving DecidableEq, Repr

/-- The contents of the node of an iterator. -/
def Iter.contents (it : Iter) : Name × ℕ := (it.name, it.entry.ino)

/-- A directory inode.  The inodes that `make_cown<DirInode>()` creates as placeholders (`fake`) are
not represented by this type. -/
structure DirInode where
  /-- The inode number. -/
  ino : ℕ
  /-- The attributes. -/
  iSt : Stat
  /-- The number of references the kernel holds. -/
  krefs : ℤ
  /-- The entries by name. -/
  dentries : StdMap Name Dentry

namespace DirInode

/-- `dentries.find`. -/
def find (d : DirInode) (name : Name) : Option Iter :=
  d.dentries[name]?.map fun e => ⟨name, e⟩

/-- The node of the iterator is in the map. -/
def Has (d : DirInode) (it : Iter) : Prop := d.dentries[it.name]? = some it.entry

instance (d : DirInode) (it : Iter) : Decidable (d.Has it) :=
  inferInstanceAs (Decidable (_ = _))

/-- Reading through an iterator: the contents of the node while it is in the map, and whatever
`freed` says once it was erased. -/
def deref (d : DirInode) (freed : Iter → Name × ℕ) (it : Iter) : Name × ℕ :=
  if d.Has it then it.contents else freed it

/-- `dentries.erase` with a key. -/
def erase (d : DirInode) (name : Name) : DirInode := { d with dentries := d.dentries.erase name }

/-- `dentries.insert`: an entry that exists is kept. -/
def insert (d : DirInode) (name : Name) (e : Dentry) : DirInode :=
  { d with dentries := d.dentries.insertIfNew name e }

/-- Add to the number of links. -/
def addLinks (d : DirInode) (n : ℤ) : DirInode :=
  { d with iSt.stNlink := d.iSt.stNlink + n }

/-- Set the change and the modification time. -/
def touch (d : DirInode) (now : ℤ) : DirInode :=
  { d with iSt := { d.iSt with stCtime := now, stMtime := now } }

end DirInode

/-! ## The state -/

/-- The state of the file system. -/
structure FsState where
  /-- The directories by inode number. -/
  dirs : StdMap ℕ DirInode
  /-- The regular inodes by inode number. -/
  regs : StdMap ℕ File
  /-- `dir_inode_table`, with inode numbers for cowns. -/
  dirTable : StdMap ℕ ℕ
  /-- `regular_inode_table`, with inode numbers for cowns. -/
  regTable : StdMap ℕ ℕ

/-- The inode number of the root: `FUSE_ROOT_ID`. -/
def FUSE_ROOT_ID : ℕ := 1

namespace FsState

/-- The file system after `init` and the behaviour it schedules. -/
def init (uid gid : ℕ) (now : ℤ) : FsState where
  dirs := (∅ : StdMap ℕ DirInode).insert FUSE_ROOT_ID
    ⟨FUSE_ROOT_ID, initStat FUSE_ROOT_ID now uid gid BLOCK_SIZE 0o755 false, 1, ∅⟩
  regs := ∅
  dirTable := (∅ : StdMap ℕ ℕ).insert FUSE_ROOT_ID FUSE_ROOT_ID
  regTable := ∅

/-- The directory behind a cown that was cast from an inode number. -/
def getDir (s : FsState) (ino : ℕ) : Except Fault DirInode :=
  match s.dirs[ino]? with
  | some d => .ok d
  | none => .error .badCown

/-- The regular inode behind a cown that was cast from an inode number. -/
def getReg (s : FsState) (ino : ℕ) : Except Fault File :=
  match s.regs[ino]? with
  | some f => .ok f
  | none => .error .badCown

/-- Replace a directory. -/
def setDir (s : FsState) (ino : ℕ) (d : DirInode) : FsState :=
  { s with dirs := s.dirs.insert ino d }

/-- Replace a regular inode. -/
def setReg (s : FsState) (ino : ℕ) (f : File) : FsState :=
  { s with regs := s.regs.insert ino f }

/-! ## Reading lemmas -/

variable (s : FsState) (i j : ℕ) (d : DirInode) (f : File)

/-- A cast succeeds when there is a directory under the number. -/
@[simp] theorem getDir_eq_ok {d : DirInode} : s.getDir i = .ok d ↔ s.dirs[i]? = some d := by
  unfold getDir
  cases s.dirs[i]? <;> simp

/-- A cast succeeds when there is a regular inode under the number. -/
@[simp] theorem getReg_eq_ok {f : File} : s.getReg i = .ok f ↔ s.regs[i]? = some f := by
  unfold getReg
  cases s.regs[i]? <;> simp

/-- The directories after one was replaced. -/
@[simp] theorem dirs_setDir : (s.setDir i d).dirs[j]? = if i = j then some d else s.dirs[j]? :=
  StdMap.get?_insert ..

/-- Replacing a directory leaves the regular inodes. -/
@[simp] theorem regs_setDir : (s.setDir i d).regs = s.regs := rfl

/-- Replacing a directory leaves the table of directories. -/
@[simp] theorem dirTable_setDir : (s.setDir i d).dirTable = s.dirTable := rfl

/-- Replacing a directory leaves the table of regular inodes. -/
@[simp] theorem regTable_setDir : (s.setDir i d).regTable = s.regTable := rfl

/-- The regular inodes after one was replaced. -/
@[simp] theorem regs_setReg : (s.setReg i f).regs[j]? = if i = j then some f else s.regs[j]? :=
  StdMap.get?_insert ..

/-- Replacing a regular inode leaves the directories. -/
@[simp] theorem dirs_setReg : (s.setReg i f).dirs = s.dirs := rfl

/-- Replacing a regular inode leaves the table of directories. -/
@[simp] theorem dirTable_setReg : (s.setReg i f).dirTable = s.dirTable := rfl

/-- Replacing a regular inode leaves the table of regular inodes. -/
@[simp] theorem regTable_setReg : (s.setReg i f).regTable = s.regTable := rfl

end FsState

namespace DirInode

variable (d : DirInode) (name a : Name) (e : Dentry) (it : Iter) (n now : ℤ)

/-- What `find` yields is in the map, under the name. -/
theorem find_eq_some {d : DirInode} {name : Name} {it : Iter} :
    d.find name = some it ↔ it.name = name ∧ d.Has it := by
  obtain ⟨a, e⟩ := it
  unfold find Has
  cases h : d.dentries[name]? with
  | none =>
    simp only [Option.map_none, reduceCtorEq, false_iff, not_and]
    rintro rfl
    simp [h]
  | some e' =>
    simp only [Option.map_some, Option.some.injEq, Iter.mk.injEq]
    constructor
    · rintro ⟨rfl, rfl⟩
      exact ⟨rfl, h⟩
    · rintro ⟨rfl, he⟩
      exact ⟨rfl, Option.some.inj (h.symm.trans he)⟩

/-- `find` fails when there is no entry. -/
theorem find_eq_none {d : DirInode} {name : Name} : d.find name = none ↔ d.dentries[name]? = none := by
  simp [find]

/-- The entries after an erasure. -/
@[simp] theorem dentries_erase :
    (d.erase name).dentries[a]? = if name = a then none else d.dentries[a]? :=
  StdMap.get?_erase ..

/-- The entries after an insertion. -/
@[simp] theorem dentries_insert : (d.insert name e).dentries[a]? =
    if name = a ∧ d.dentries[name]? = none then some e else d.dentries[a]? :=
  StdMap.get?_insertIfNew ..

/-- Links do not change the entries. -/
@[simp] theorem dentries_addLinks : (d.addLinks n).dentries = d.dentries := rfl

/-- Times do not change the entries. -/
@[simp] theorem dentries_touch : (d.touch now).dentries = d.dentries := rfl

/-- Reading through an iterator whose node is in the map. -/
theorem deref_of_has {d : DirInode} {it : Iter} (h : d.Has it) (freed : Iter → Name × ℕ) :
    d.deref freed it = it.contents := if_pos h

/-- Reading through an iterator whose node is not in the map. -/
theorem deref_of_not_has {d : DirInode} {it : Iter} (h : ¬ d.Has it) (freed : Iter → Name × ℕ) :
    d.deref freed it = freed it := if_neg h

end DirInode

end VeronaFs
