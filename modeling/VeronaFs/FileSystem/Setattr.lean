import VeronaFs.FileSystem.Attributes

/-!
# The attributes a request may set

`FileSystem::setattr` has one body for regular inodes and one for directories.  Both assign the
attributes group by group in the same way, with the same checks, and differ in what a new size
does.  This file has the common part: `setattrFields` runs on the attributes of the inode and keeps,
when a check fails, what was assigned before it.
-/

namespace VeronaFs

/-! ## Flags -/

/-- `FUSE_SET_ATTR_MODE`. -/
def FUSE_SET_ATTR_MODE : BitVec 32 := 1

/-- `FUSE_SET_ATTR_UID`. -/
def FUSE_SET_ATTR_UID : BitVec 32 := 2

/-- `FUSE_SET_ATTR_GID`. -/
def FUSE_SET_ATTR_GID : BitVec 32 := 4

/-- `FUSE_SET_ATTR_SIZE`. -/
def FUSE_SET_ATTR_SIZE : BitVec 32 := 8

/-- `FUSE_SET_ATTR_ATIME`. -/
def FUSE_SET_ATTR_ATIME : BitVec 32 := 16

/-- `FUSE_SET_ATTR_MTIME`. -/
def FUSE_SET_ATTR_MTIME : BitVec 32 := 32

/-- `FUSE_SET_ATTR_ATIME_NOW`. -/
def FUSE_SET_ATTR_ATIME_NOW : BitVec 32 := 128

/-- `FUSE_SET_ATTR_MTIME_NOW`. -/
def FUSE_SET_ATTR_MTIME_NOW : BitVec 32 := 256

/-- `FUSE_SET_ATTR_CTIME`. -/
def FUSE_SET_ATTR_CTIME : BitVec 32 := 1024

/-- The mask of the access mode in open flags. -/
def O_ACCMODE : BitVec 32 := 3

/-- Open for reading. -/
def O_RDONLY : BitVec 32 := 0

/-- Open for writing. -/
def O_WRONLY : BitVec 32 := 1

/-- Open for reading and writing. -/
def O_RDWR : BitVec 32 := 2

/-- Truncate on open. -/
def O_TRUNC : BitVec 32 := 0o1000

/-! ## Requests -/

/-- A setattr request.  `now` is the time read at the start of the behaviour, `nowM` and `nowA` are
the times read for `FUSE_SET_ATTR_MTIME_NOW` and `FUSE_SET_ATTR_ATIME_NOW`. -/
structure SetattrReq where
  /-- The request. -/
  req : ℕ
  /-- The file handle, if one was given. -/
  fh : Option FileHandle
  /-- The new values. -/
  attr : Stat
  /-- Which attributes are to be set. -/
  toSet : BitVec 32
  /-- The requester. -/
  uid : ℕ
  /-- The group of the requester. -/
  gid : ℕ
  /-- The time at the start of the behaviour. -/
  now : ℤ
  /-- The time read for the modification time. -/
  nowM : ℤ
  /-- The time read for the access time. -/
  nowA : ℤ

/-! ## Assignments -/

/-- Whether one of the attributes `bits` is to be set. -/
def SetattrReq.has (r : SetattrReq) (bits : BitVec 32) : Bool := r.toSet &&& bits != 0

/-- The assignment of the mode in `FileSystem::setattr`.  The result is the mask of the mode bits to
be cleared at the end, or the error to be replied, with the attributes left so far. -/
def setattrMode (r : SetattrReq) (st : Stat) : Except ℤ (BitVec 32) × Stat :=
  if r.has FUSE_SET_ATTR_MODE then
    if r.uid ≠ 0 ∧ st.stUid ≠ r.uid then (.error (-EPERM), st)
    else
      (.ok (if r.uid ≠ 0 ∧ st.stGid ≠ r.gid then S_ISGID else 0),
        { st with stMode := r.attr.stMode })
  else (.ok 0, st)

/-- The assignment of owner and group in `FileSystem::setattr`. -/
def setattrOwner (r : SetattrReq) (st : Stat) : Except ℤ Unit × Stat :=
  if r.has (FUSE_SET_ATTR_UID ||| FUSE_SET_ATTR_GID) then
    if r.uid ≠ 0 ∧ r.has FUSE_SET_ATTR_UID ∧ st.stUid ≠ r.attr.stUid then (.error (-EPERM), st)
    else if r.uid ≠ 0 ∧ r.has FUSE_SET_ATTR_GID ∧ r.uid ≠ st.stUid then (.error (-EPERM), st)
    else
      (.ok (), { st with
        stUid := if r.has FUSE_SET_ATTR_UID then r.attr.stUid else st.stUid
        stGid := if r.has FUSE_SET_ATTR_GID then r.attr.stGid else st.stGid })
  else (.ok (), st)

/-- The assignment of the modification and access times in `FileSystem::setattr`. -/
def setattrTimes (r : SetattrReq) (st : Stat) : Except ℤ Unit × Stat :=
  if r.has (FUSE_SET_ATTR_MTIME ||| FUSE_SET_ATTR_ATIME) then
    if r.uid ≠ 0 ∧ st.stUid ≠ r.uid then (.error (-EPERM), st)
    else
      (.ok (), { st with
        stMtime :=
          if r.has FUSE_SET_ATTR_MTIME_NOW then r.nowM
          else if r.has FUSE_SET_ATTR_MTIME then r.attr.stMtime else st.stMtime
        stAtime :=
          if r.has FUSE_SET_ATTR_ATIME_NOW then r.nowA
          else if r.has FUSE_SET_ATTR_ATIME then r.attr.stAtime else st.stAtime })
  else (.ok (), st)

/-- The assignment of the change time in `FileSystem::setattr`. -/
def setattrCtime (r : SetattrReq) (st : Stat) : Except ℤ Unit × Stat :=
  if r.has FUSE_SET_ATTR_CTIME then
    if r.uid ≠ 0 ∧ st.stUid ≠ r.uid then (.error (-EPERM), st)
    else (.ok (), { st with stCtime := r.attr.stCtime })
  else (.ok (), st)

/-- The part of `FileSystem::setattr` before the size: the attributes are assigned one group after
the other, and a failed check leaves the groups assigned before it. -/
def setattrFields (r : SetattrReq) (st : Stat) : Except ℤ (BitVec 32) × Stat :=
  match setattrMode r st with
  | (.error ret, st) => (.error ret, st)
  | (.ok clearMode, st) =>
    match setattrOwner r st with
    | (.error ret, st) => (.error ret, st)
    | (.ok (), st) =>
      match setattrTimes r st with
      | (.error ret, st) => (.error ret, st)
      | (.ok (), st) =>
        match setattrCtime r st with
        | (.error ret, st) => (.error ret, st)
        | (.ok (), st) => (.ok clearMode, st)

/-- The checks of `FileSystem::setattr` on a new size: a negative result is the error to be
replied. -/
def setattrSizeCheck (r : SetattrReq) (st : Stat) : Except Fault ℤ := do
  let ret ←
    if r.uid ≠ 0 then
      match r.fh with
      | none => access st W_OK r.uid r.gid
      | some fh =>
        if fh.flags &&& O_ACCMODE ≠ O_WRONLY ∧ fh.flags &&& O_ACCMODE ≠ O_RDWR then
          .ok (-EACCES)
        else .ok 0
    else .ok 0
  if ret ≠ 0 then .ok ret
  else if r.attr.stSize > 2199023255552 then .ok (-EFBIG)
  else if st.isRegular then .ok 0
  else .error .assertion

/-- The end of `FileSystem::setattr`: the change time, the mode bits to be cleared, the reply. -/
def setattrFinish (r : SetattrReq) (clearMode : BitVec 32) (st : Stat) : Stat :=
  { st with
    stCtime := r.now
    stMode := if r.has FUSE_SET_ATTR_MODE then st.stMode &&& ~~~clearMode else st.stMode }

/-- The attributes that the assignments before the size leave: number, links, size and blocks. -/
structure Stat.SameShape (st st' : Stat) : Prop where
  /-- The inode number. -/
  ino : st'.stIno = st.stIno
  /-- The number of links. -/
  nlink : st'.stNlink = st.stNlink
  /-- The size. -/
  size : st'.stSize = st.stSize
  /-- The number of blocks. -/
  blocks : st'.stBlocks = st.stBlocks

/-- Leaving the shape is transitive. -/
theorem Stat.SameShape.trans {st st' st'' : Stat} (h : st.SameShape st') (h' : st'.SameShape st'') :
    st.SameShape st'' :=
  ⟨h'.ino.trans h.ino, h'.nlink.trans h.nlink, h'.size.trans h.size, h'.blocks.trans h.blocks⟩

/-- The mode assignment leaves the shape. -/
theorem setattrMode_sameShape (r : SetattrReq) (st : Stat) :
    st.SameShape (setattrMode r st).2 := by
  unfold setattrMode
  split_ifs <;> exact ⟨rfl, rfl, rfl, rfl⟩

/-- The owner assignment leaves the shape. -/
theorem setattrOwner_sameShape (r : SetattrReq) (st : Stat) :
    st.SameShape (setattrOwner r st).2 := by
  unfold setattrOwner
  split_ifs <;> exact ⟨rfl, rfl, rfl, rfl⟩

/-- The time assignment leaves the shape. -/
theorem setattrTimes_sameShape (r : SetattrReq) (st : Stat) :
    st.SameShape (setattrTimes r st).2 := by
  unfold setattrTimes
  split_ifs <;> exact ⟨rfl, rfl, rfl, rfl⟩

/-- The change time assignment leaves the shape. -/
theorem setattrCtime_sameShape (r : SetattrReq) (st : Stat) :
    st.SameShape (setattrCtime r st).2 := by
  unfold setattrCtime
  split_ifs <;> exact ⟨rfl, rfl, rfl, rfl⟩

/-- The assignments before the size leave the shape, whether they succeed or fail. -/
theorem setattrFields_sameShape (r : SetattrReq) (st : Stat) :
    st.SameShape (setattrFields r st).2 := by
  have h₁ := setattrMode_sameShape r st
  unfold setattrFields
  split
  · next heq => rwa [heq] at h₁
  · next clearMode st₁ heq =>
    rw [heq] at h₁
    have h₂ := h₁.trans (setattrOwner_sameShape r st₁)
    split
    · next heq => rwa [heq] at h₂
    · next st₂ heq =>
      rw [heq] at h₂
      have h₃ := h₂.trans (setattrTimes_sameShape r st₂)
      split
      · next heq => rwa [heq] at h₃
      · next st₃ heq =>
        rw [heq] at h₃
        have h₄ := h₃.trans (setattrCtime_sameShape r st₃)
        split
        · next heq => rwa [heq] at h₄
        · next heq => rwa [heq] at h₄

end VeronaFs
