import VeronaFs.Foundation.StdMap

/-!
# Inode attributes, permissions and replies

The data every operation of the file system shares: the conversions between the integer types of
the C++ code, the attributes of an inode (`struct stat`), the permission check
`FileSystem::access`, and the replies a handler can send through libfuse.

`off_t` and `int` values are integers, unsigned values are natural numbers, and the places where the
code converts between widths say so through `cU64`, `cInt` and `cOff`.  Link counts are integers:
they are only stepped by one or two and compared with zero.
-/

namespace VeronaFs

/-! ## Integer conversions -/

/-- Conversion to a 64-bit unsigned integer (`size_t`, `uint64_t`). -/
def cU64 (x : ℤ) : ℕ := (x % 2 ^ 64).toNat

/-- Conversion to a 64-bit signed integer (`off_t`, `long`). -/
def cOff (x : ℤ) : ℤ := Int.bmod x (2 ^ 64)

/-- Conversion to a 32-bit signed integer (`int`). -/
def cInt (x : ℤ) : ℤ := Int.bmod x (2 ^ 32)

/-- A value that fits is not changed by the conversion to `uint64_t`. -/
theorem cU64_of_lt {x : ℤ} (h0 : 0 ≤ x) (h : x < 2 ^ 64) : cU64 x = x.toNat := by
  rw [cU64, Int.emod_eq_of_lt h0 h]

/-- A value that fits is not changed by the conversion to `off_t`. -/
theorem cOff_of_lt {x : ℤ} (h0 : -2 ^ 63 ≤ x) (h : x < 2 ^ 63) : cOff x = x := by
  unfold cOff
  rw [Int.bmod_eq_of_le] <;> omega

/-- The conversion to `off_t` yields a value below `2 ^ 63`. -/
theorem cOff_lt (x : ℤ) : cOff x < 2 ^ 63 := by
  have h := Int.bmod_lt (x := x) (m := 2 ^ 64) (by norm_num)
  norm_num at h
  exact h

/-- A value that fits is not changed by the conversion to `int`. -/
theorem cInt_of_lt {x : ℤ} (h0 : -2 ^ 31 ≤ x) (h : x < 2 ^ 31) : cInt x = x := by
  unfold cInt
  rw [Int.bmod_eq_of_le] <;> omega

/-- The conversion to `int` yields a value below `2 ^ 31`. -/
theorem cInt_lt (x : ℤ) : cInt x < 2 ^ 31 := by
  have h := Int.bmod_lt (x := x) (m := 2 ^ 32) (by norm_num)
  norm_num at h
  exact h

/-- The conversion to `int` does not enlarge. -/
theorem cInt_le {x : ℤ} (h0 : 0 ≤ x) : cInt x ≤ x := by
  unfold cInt
  rw [Int.bmod_def]
  split <;> omega

/-- A small natural number survives the conversion to `int` and back to `uint64_t`. -/
theorem cU64_cInt {n : ℕ} (h : n < 2 ^ 31) : cU64 (cInt n) = n := by
  rw [cInt_of_lt (by omega) (by omega), cU64_of_lt (by omega) (by omega), Int.toNat_natCast]

/-! ## Attributes -/

/-- The size of a data block. -/
def BLOCK_SIZE : ℕ := 4096

/-- The largest length of a file name. -/
def NAME_MAX : ℕ := 255

/-- A file name: the bytes of a `std::string`, ordered as `std::string` compares them. -/
abbrev Name := List UInt8

/-- File type bit of a regular file. -/
def S_IFREG : BitVec 32 := 0o100000

/-- File type bit of a directory. -/
def S_IFDIR : BitVec 32 := 0o040000

/-- The set-group-id bit. -/
def S_ISGID : BitVec 32 := 0o2000

/-- The sticky bit. -/
def S_ISVTX : BitVec 32 := 0o1000

/-- Access mask that only asks for existence. -/
def F_OK : BitVec 32 := 0

/-- Access mask for reading. -/
def R_OK : BitVec 32 := 4

/-- Access mask for writing. -/
def W_OK : BitVec 32 := 2

/-- Access mask for executing or searching. -/
def X_OK : BitVec 32 := 1

/-- Operation not permitted. -/
def EPERM : ℤ := 1

/-- No such entry. -/
def ENOENT : ℤ := 2

/-- Permission denied. -/
def EACCES : ℤ := 13

/-- The entry exists already. -/
def EEXIST : ℤ := 17

/-- Not a directory. -/
def ENOTDIR : ℤ := 20

/-- Is a directory. -/
def EISDIR : ℤ := 21

/-- File too large. -/
def EFBIG : ℤ := 27

/-- Name too long. -/
def ENAMETOOLONG : ℤ := 36

/-- Directory not empty. -/
def ENOTEMPTY : ℤ := 39

/-- Operation not supported. -/
def EOPNOTSUPP : ℤ := 95

/-- The attributes of an inode (`struct stat`). -/
structure Stat where
  /-- The inode number. -/
  stIno : ℕ
  /-- The file type and permission bits. -/
  stMode : BitVec 32
  /-- The number of links. -/
  stNlink : ℤ
  /-- The owner. -/
  stUid : ℕ
  /-- The group. -/
  stGid : ℕ
  /-- The size in bytes. -/
  stSize : ℤ
  /-- The block size. -/
  stBlksize : ℤ
  /-- The number of blocks. -/
  stBlocks : ℤ
  /-- The time of the last access. -/
  stAtime : ℤ
  /-- The time of the last modification. -/
  stMtime : ℤ
  /-- The time of the last change. -/
  stCtime : ℤ
deriving DecidableEq, Repr

/-- `FileSystem::init_stat`: the attributes of a new inode. -/
def initStat (ino : ℕ) (time : ℤ) (uid gid : ℕ) (blksize : ℤ) (mode : BitVec 32)
    (isRegular : Bool) : Stat :=
  { stIno := ino
    stMode := if isRegular then S_IFREG ||| mode else S_IFDIR ||| mode
    stNlink := if isRegular then 1 else 2
    stUid := uid
    stGid := gid
    stSize := 0
    stBlksize := blksize
    stBlocks := if isRegular then 0 else 1
    stAtime := time
    stMtime := time
    stCtime := time }

/-- `Inode::is_regular`. -/
def Stat.isRegular (st : Stat) : Bool := st.stMode &&& S_IFREG != 0

/-- The test `i_st.st_mode & S_IFDIR`. -/
def Stat.isDir (st : Stat) : Bool := st.stMode &&& S_IFDIR != 0

/-- The test `i_st.st_mode & S_ISVTX`. -/
def Stat.isSticky (st : Stat) : Bool := st.stMode &&& S_ISVTX != 0

/-- A mode that was combined with a file type bit has that bit. -/
theorem or_and_self_eq (a b : BitVec 32) : (a ||| b) &&& a = a := by
  ext i hi
  simp only [BitVec.getElem_and, BitVec.getElem_or]
  cases a[i] <;> simp

/-- The attributes of a new directory have the directory bit. -/
theorem initStat_isDir (ino : ℕ) (time : ℤ) (uid gid : ℕ) (blksize : ℤ) (mode : BitVec 32) :
    (initStat ino time uid gid blksize mode false).isDir = true := by
  simp only [Stat.isDir, initStat, Bool.false_eq_true, if_false, or_and_self_eq]
  decide

/-! ## Failures -/

/-- The ways in which a body can fail to run to its end. -/
inductive Fault where
  /-- A failed `assert`. -/
  | assertion
  /-- An access through a block buffer that was released. -/
  | nullBuffer
  /-- An access outside a buffer. -/
  | outOfBounds
  /-- An inode number that was cast to a cown of the wrong kind, or to none at all. -/
  | badCown
  /-- An overflow of a signed loop counter. -/
  | overflow
deriving DecidableEq, Repr

/-- A sequence of two steps runs to its end when both do. -/
theorem bind_eq_ok {α β : Type} {x : Except Fault α} {k : α → Except Fault β} {b : β} :
    (x >>= k) = .ok b ↔ ∃ a, x = .ok a ∧ k a = .ok b := by
  cases x with
  | error => exact ⟨fun h => (by cases h), fun ⟨_, h, _⟩ => (by cases h)⟩
  | ok a => exact ⟨fun h => ⟨a, rfl, h⟩, fun ⟨_, h, hk⟩ => Except.ok.inj h ▸ hk⟩

/-! ## Permissions -/

/-- One of the four branches of `FileSystem::access`: each requested right needs its bit. -/
def checkBits (stMode mask r w x : BitVec 32) : ℤ :=
  if mask &&& R_OK ≠ 0 ∧ stMode &&& r = 0 then -EACCES
  else if mask &&& W_OK ≠ 0 ∧ stMode &&& w = 0 then -EACCES
  else if mask &&& X_OK ≠ 0 ∧ stMode &&& x = 0 then -EACCES
  else 0

/-- `FileSystem::access` after its assertion: the owner, the group, root and others in this
order.  Root is only tested for the execute bits. -/
def accessBits (iSt : Stat) (mask : BitVec 32) (uid gid : ℕ) : ℤ :=
  if iSt.stUid = uid then checkBits iSt.stMode mask 0o400 0o200 0o100
  else if iSt.stGid = gid then checkBits iSt.stMode mask 0o040 0o020 0o010
  else if uid = 0 then
    if mask &&& X_OK ≠ 0 ∧ iSt.stMode &&& 0o111 = 0 then -EACCES else 0
  else checkBits iSt.stMode mask 0o004 0o002 0o001

/-- `FileSystem::access`: zero when the rights in `mask` are granted to the requester, `-EACCES`
when they are not. -/
def access (iSt : Stat) (mask : BitVec 32) (uid gid : ℕ) : Except Fault ℤ :=
  if mask = F_OK then .ok 0
  else if mask &&& (R_OK ||| W_OK ||| X_OK) = 0 then .error .assertion
  else .ok (accessBits iSt mask uid gid)

/-- The assertion in `access` holds for the mask `W_OK`. -/
@[simp] theorem access_W_OK (iSt : Stat) (uid gid : ℕ) :
    access iSt W_OK uid gid = .ok (accessBits iSt W_OK uid gid) := by
  simp only [access]
  rw [if_neg (by decide), if_neg (by decide)]

/-- The assertion in `access` holds for the mask `R_OK`. -/
@[simp] theorem access_R_OK (iSt : Stat) (uid gid : ℕ) :
    access iSt R_OK uid gid = .ok (accessBits iSt R_OK uid gid) := by
  simp only [access]
  rw [if_neg (by decide), if_neg (by decide)]

/-- A branch of `access` grants or denies. -/
theorem checkBits_eq (stMode mask r w x : BitVec 32) :
    checkBits stMode mask r w x = 0 ∨ checkBits stMode mask r w x = -EACCES := by
  unfold checkBits
  split_ifs <;> simp

/-- The permission check grants or denies. -/
theorem accessBits_eq (iSt : Stat) (mask : BitVec 32) (uid gid : ℕ) :
    accessBits iSt mask uid gid = 0 ∨ accessBits iSt mask uid gid = -EACCES := by
  unfold accessBits
  split_ifs <;> first | exact checkBits_eq .. | simp

/-- The permission check reads the owner, the group and the mode only. -/
theorem accessBits_congr {st st' : Stat} (hmode : st'.stMode = st.stMode)
    (huid : st'.stUid = st.stUid) (hgid : st'.stGid = st.stGid) (mask : BitVec 32) (uid gid : ℕ) :
    accessBits st' mask uid gid = accessBits st mask uid gid := by
  simp only [accessBits, hmode, huid, hgid]

/-! ## Replies -/

/-- An open file: the inode it was opened on and its flags. -/
structure FileHandle where
  /-- The inode number of the file. -/
  ino : ℕ
  /-- The flags given at `open` or `create`. -/
  flags : BitVec 32
deriving DecidableEq, Repr

/-- The fields of `struct fuse_file_info` that are read or written here.  `fh` is the file handle
whose address is stored in it, if any. -/
structure FileInfo where
  /-- The open flags. -/
  flags : BitVec 32
  /-- Whether parallel direct writes are allowed. -/
  parallelDirectWrites : Bool
  /-- Whether the page cache is bypassed. -/
  directIo : Bool
  /-- The file handle. -/
  fh : Option FileHandle
deriving DecidableEq, Repr

/-- `struct fuse_entry_param`. -/
structure EntryParam where
  /-- The inode number of the entry. -/
  ino : ℕ
  /-- The generation of the inode number. -/
  generation : ℕ
  /-- The attributes. -/
  attr : Stat
  /-- The validity of the attributes in seconds. -/
  attrTimeout : ℕ
  /-- The validity of the name in seconds. -/
  entryTimeout : ℕ
deriving DecidableEq, Repr

/-- One entry of a directory listing. -/
structure Dirent where
  /-- The inode number. -/
  ino : ℕ
  /-- The offset of the next entry. -/
  off : ℕ
  /-- The name. -/
  name : Name
deriving DecidableEq, Repr

/-- The replies a handler can send, each for the request it is about. -/
inductive Reply where
  /-- `fuse_reply_err`. -/
  | err (req : ℕ) (errno : ℤ)
  /-- `fuse_reply_entry`. -/
  | entry (req : ℕ) (e : EntryParam)
  /-- `fuse_reply_create`. -/
  | create (req : ℕ) (e : EntryParam) (fi : FileInfo)
  /-- `fuse_reply_attr`. -/
  | attr (req : ℕ) (st : Stat)
  /-- `fuse_reply_open`. -/
  | openFile (req : ℕ) (fi : FileInfo)
  /-- `fuse_reply_write`. -/
  | write (req : ℕ) (count : ℕ)
  /-- `fuse_reply_buf` with file data. -/
  | buf (req : ℕ) (bytes : List UInt8)
  /-- `fuse_reply_buf` with directory entries. -/
  | dir (req : ℕ) (entries : List Dirent)
deriving DecidableEq, Repr

/-- The request a reply is for. -/
def Reply.req : Reply → ℕ
  | err req _ | entry req _ | create req _ _ | attr req _ | openFile req _ | write req _
  | buf req _ | dir req _ => req

/-- Whether a reply is a `fuse_reply_err`. -/
def Reply.isErr : Reply → Bool
  | err _ _ => true
  | _ => false

/-- `filesystem_base::reply_fail`: the helper negates its argument. -/
def replyFail (ret : ℤ) (req : ℕ) : Reply := .err req (-ret)

end VeronaFs
