import VeronaFs.FileSystem.Truncation

/-!
# Requests that are answered

The behaviour of a request on a regular inode sends its reply itself, unless it does not run to its
end: `setattr` for a new size of an inode that is not regular or whose growth overflows the loop
counter, `my_fallocate` for a range whose end overflows, and `access` for a mask without a known bit.
`opendir` returns without a reply when the permission is missing.
-/

namespace VeronaFs

open Boc Foundation

/-! ## Setting attributes -/

namespace SetattrReq

variable (r : SetattrReq) (st : Stat)

/-- The requester is root or the owner. -/
def OwnerOrRoot : Prop := r.uid = 0 ∨ st.stUid = r.uid

/-- The requester may assign the attributes that it asks for. -/
structure FieldsAllowed : Prop where
  /-- The mode. -/
  mode : r.has FUSE_SET_ATTR_MODE → r.OwnerOrRoot st
  /-- The owner: only root may change it. -/
  owner : r.has FUSE_SET_ATTR_UID → r.uid = 0 ∨ st.stUid = r.attr.stUid
  /-- The group. -/
  group : r.has FUSE_SET_ATTR_GID → r.OwnerOrRoot st
  /-- The modification and access times. -/
  times : r.has (FUSE_SET_ATTR_MTIME ||| FUSE_SET_ATTR_ATIME) → r.OwnerOrRoot st
  /-- The change time. -/
  ctime : r.has FUSE_SET_ATTR_CTIME → r.OwnerOrRoot st

/-- The mode after the assignments. -/
def newMode : BitVec 32 := if r.has FUSE_SET_ATTR_MODE then r.attr.stMode else st.stMode

/-- The attributes that the permission check on a new size reads, after the assignments. -/
def assigned : Stat :=
  { st with
    stMode := r.newMode st
    stUid := if r.has FUSE_SET_ATTR_UID then r.attr.stUid else st.stUid
    stGid := if r.has FUSE_SET_ATTR_GID then r.attr.stGid else st.stGid }

/-- The requester may set the size: it is root, it opened the inode for writing, or it has the
permission to write. -/
def SizeAllowed : Prop :=
  r.uid = 0 ∨ match r.fh with
    | none => accessBits (r.assigned st) W_OK r.uid r.gid = 0
    | some fh => fh.flags &&& O_ACCMODE = O_WRONLY ∨ fh.flags &&& O_ACCMODE = O_RDWR

/-- All checks on a new size pass. -/
structure SetsSize : Prop where
  /-- A size is to be set. -/
  size : r.has FUSE_SET_ATTR_SIZE
  /-- The assignments are allowed. -/
  fields : r.FieldsAllowed st
  /-- The size may be set. -/
  allowed : r.SizeAllowed st
  /-- The size is not too large. -/
  le : r.attr.stSize ≤ 2199023255552

end SetattrReq

section Fields

variable {r : SetattrReq} {st : Stat}

/-- The assignment of the mode. -/
theorem setattrMode_cases (r : SetattrReq) (st : Stat) :
    (r.has FUSE_SET_ATTR_MODE → r.OwnerOrRoot st) ∧
        (∃ clearMode, setattrMode r st = (.ok clearMode, { st with stMode := r.newMode st })) ∨
      ¬ (r.has FUSE_SET_ATTR_MODE → r.OwnerOrRoot st) ∧
        ∃ ret, setattrMode r st = (.error ret, st) := by
  unfold setattrMode SetattrReq.newMode SetattrReq.OwnerOrRoot
  by_cases hmode : r.has FUSE_SET_ATTR_MODE
  · simp only [hmode, if_true, true_implies]
    split
    · next hno => exact .inr ⟨by tauto, _, rfl⟩
    · next hok => exact .inl ⟨by tauto, _, rfl⟩
  · simp only [hmode, if_false, Bool.false_eq_true, false_implies]
    exact .inl ⟨trivial, _, rfl⟩

/-- Asking for one of two groups of attributes. -/
theorem SetattrReq.has_or (r : SetattrReq) (a b : BitVec 32) :
    r.has (a ||| b) = (r.has a || r.has b) := by
  simp only [has, BitVec.and_or_distrib_left, bne, BEq.beq]
  by_cases ha : r.toSet &&& a = 0 <;> by_cases hb : r.toSet &&& b = 0 <;> simp [ha, hb]

/-- The assignment of owner and group. -/
theorem setattrOwner_cases (r : SetattrReq) (st : Stat) :
    ((r.has FUSE_SET_ATTR_UID → r.uid = 0 ∨ st.stUid = r.attr.stUid) ∧
        (r.has FUSE_SET_ATTR_GID → r.OwnerOrRoot st)) ∧
        setattrOwner r st = (.ok (), { st with
          stUid := if r.has FUSE_SET_ATTR_UID then r.attr.stUid else st.stUid
          stGid := if r.has FUSE_SET_ATTR_GID then r.attr.stGid else st.stGid }) ∨
      ¬ ((r.has FUSE_SET_ATTR_UID → r.uid = 0 ∨ st.stUid = r.attr.stUid) ∧
        (r.has FUSE_SET_ATTR_GID → r.OwnerOrRoot st)) ∧
        ∃ ret, setattrOwner r st = (.error ret, st) := by
  unfold setattrOwner SetattrReq.OwnerOrRoot
  rw [r.has_or]
  by_cases huid : r.has FUSE_SET_ATTR_UID <;> by_cases hgid : r.has FUSE_SET_ATTR_GID <;>
    simp only [huid, hgid, Bool.or_true, Bool.true_or, if_true, Bool.or_self, Bool.false_eq_true,
      if_false, true_implies, false_implies, true_and, and_true, false_and, and_false]
  · split_ifs
    · exact .inr ⟨by tauto, _, rfl⟩
    · exact .inr ⟨by tauto, _, rfl⟩
    · exact .inl ⟨by tauto, rfl⟩
  · split_ifs
    · exact .inr ⟨by tauto, _, rfl⟩
    · exact .inl ⟨by tauto, rfl⟩
  · split_ifs
    · exact .inr ⟨by tauto, _, rfl⟩
    · exact .inl ⟨by tauto, rfl⟩
  · exact .inl trivial

/-- The assignment of the modification and access times. -/
theorem setattrTimes_cases (r : SetattrReq) (st : Stat) :
    (r.has (FUSE_SET_ATTR_MTIME ||| FUSE_SET_ATTR_ATIME) → r.OwnerOrRoot st) ∧
        (∃ mtime atime, setattrTimes r st =
          (.ok (), { st with stMtime := mtime, stAtime := atime })) ∨
      ¬ (r.has (FUSE_SET_ATTR_MTIME ||| FUSE_SET_ATTR_ATIME) → r.OwnerOrRoot st) ∧
        ∃ ret, setattrTimes r st = (.error ret, st) := by
  unfold setattrTimes SetattrReq.OwnerOrRoot
  by_cases htimes : r.has (FUSE_SET_ATTR_MTIME ||| FUSE_SET_ATTR_ATIME)
  · rw [if_pos htimes]
    simp only [htimes, true_implies]
    by_cases hno : r.uid ≠ 0 ∧ st.stUid ≠ r.uid
    · rw [if_pos hno]
      exact .inr ⟨by tauto, _, rfl⟩
    · rw [if_neg hno]
      exact .inl ⟨by tauto, _, _, rfl⟩
  · rw [if_neg htimes]
    exact .inl ⟨fun h => absurd h htimes, st.stMtime, st.stAtime, rfl⟩

/-- The assignment of the change time. -/
theorem setattrCtime_cases (r : SetattrReq) (st : Stat) :
    (r.has FUSE_SET_ATTR_CTIME → r.OwnerOrRoot st) ∧
        (∃ ctime, setattrCtime r st = (.ok (), { st with stCtime := ctime })) ∨
      ¬ (r.has FUSE_SET_ATTR_CTIME → r.OwnerOrRoot st) ∧
        ∃ ret, setattrCtime r st = (.error ret, st) := by
  unfold setattrCtime SetattrReq.OwnerOrRoot
  by_cases hctime : r.has FUSE_SET_ATTR_CTIME
  · rw [if_pos hctime]
    simp only [hctime, true_implies]
    by_cases hno : r.uid ≠ 0 ∧ st.stUid ≠ r.uid
    · rw [if_pos hno]
      exact .inr ⟨by tauto, _, rfl⟩
    · rw [if_neg hno]
      exact .inl ⟨by tauto, _, rfl⟩
  · rw [if_neg hctime]
    exact .inl ⟨fun h => absurd h hctime, st.stCtime, rfl⟩

/-- The assignments before the size pass exactly when they are allowed. -/
theorem setattrFields_cases (r : SetattrReq) (st : Stat) :
    r.FieldsAllowed st ∧ (∃ clearMode mtime atime ctime, setattrFields r st = (.ok clearMode,
        { r.assigned st with stMtime := mtime, stAtime := atime, stCtime := ctime })) ∨
      ¬ r.FieldsAllowed st ∧ ∃ ret st', setattrFields r st = (.error ret, st') := by
  have howner : ∀ {st' : Stat}, (r.has FUSE_SET_ATTR_UID → r.uid = 0 ∨ st.stUid = r.attr.stUid) →
      st'.stUid = (if r.has FUSE_SET_ATTR_UID then r.attr.stUid else st.stUid) →
      (r.OwnerOrRoot st' ↔ r.OwnerOrRoot st) := by
    intro st' h huid
    unfold SetattrReq.OwnerOrRoot
    rw [huid]
    split
    · next hset =>
      rcases h hset with h | h
      · simp [h]
      · rw [h]
    · rfl
  unfold setattrFields
  rcases setattrMode_cases r st with ⟨hmode, clearMode, heq⟩ | ⟨hmode, ret, heq⟩
  swap
  · simp only [heq]
    exact .inr ⟨fun h => hmode h.mode, _, _, rfl⟩
  simp only [heq]
  rcases setattrOwner_cases r { st with stMode := r.newMode st } with
    ⟨⟨huid, hgid⟩, heq⟩ | ⟨hno, ret, heq⟩
  swap
  · simp only [heq]
    exact .inr ⟨fun h => hno ⟨h.owner, h.group⟩, _, _, rfl⟩
  simp only [heq]
  have htimes := setattrTimes_cases r (r.assigned st)
  rw [howner huid rfl] at htimes
  rcases htimes with ⟨htimes, mtime, atime, heq⟩ | ⟨hno, ret, heq⟩
  swap
  · simp only [SetattrReq.assigned] at heq
    simp only [heq]
    exact .inr ⟨fun h => hno h.times, _, _, rfl⟩
  simp only [SetattrReq.assigned] at heq
  simp only [heq]
  have hctime := setattrCtime_cases r
    { r.assigned st with stMtime := mtime, stAtime := atime }
  rw [howner huid rfl] at hctime
  rcases hctime with ⟨hctime, ctime, heq⟩ | ⟨hno, ret, heq⟩
  swap
  · simp only [SetattrReq.assigned] at heq
    simp only [heq]
    exact .inr ⟨fun h => hno h.ctime, _, _, rfl⟩
  simp only [SetattrReq.assigned] at heq
  simp only [heq]
  exact .inl ⟨⟨hmode, huid, hgid, htimes, hctime⟩, clearMode, mtime, atime, ctime, rfl⟩

/-- The permission check on a new size. -/
theorem sizePermission_cases {st' : Stat} (hmode : st'.stMode = (r.assigned st).stMode)
    (huid : st'.stUid = (r.assigned st).stUid) (hgid : st'.stGid = (r.assigned st).stGid) :
    ∃ ret : ℤ, (r.SizeAllowed st ↔ ret = 0) ∧
      (if r.uid ≠ 0 then
        match r.fh with
        | none => access st' W_OK r.uid r.gid
        | some fh =>
          if fh.flags &&& O_ACCMODE ≠ O_WRONLY ∧ fh.flags &&& O_ACCMODE ≠ O_RDWR then
            .ok (-EACCES)
          else .ok 0
      else .ok 0) = .ok ret := by
  unfold SetattrReq.SizeAllowed
  by_cases hroot : r.uid = 0
  · exact ⟨0, by simp [hroot], by simp [hroot]⟩
  · simp only [hroot, ne_eq, not_false_eq_true, if_true, false_or]
    cases r.fh with
    | none =>
      refine ⟨_, Iff.rfl, ?_⟩
      rw [access_W_OK, accessBits_congr hmode huid hgid]
    | some fh =>
      by_cases hflags : fh.flags &&& O_ACCMODE ≠ O_WRONLY ∧ fh.flags &&& O_ACCMODE ≠ O_RDWR
      · refine ⟨-EACCES, iff_of_false ?_ (by decide), if_pos hflags⟩
        exact fun h => h.elim hflags.1 hflags.2
      · exact ⟨0, iff_of_true (by tauto) rfl, if_neg hflags⟩

/-- The checks on a new size. -/
theorem setattrSizeCheck_cases (r : SetattrReq) (st : Stat) {st' : Stat}
    (hmode : st'.stMode = (r.assigned st).stMode)
    (huid : st'.stUid = (r.assigned st).stUid) (hgid : st'.stGid = (r.assigned st).stGid) :
    (r.SizeAllowed st ∧ r.attr.stSize ≤ 2199023255552) ∧ setattrSizeCheck r st' =
        (if (r.assigned st).isRegular then .ok 0 else .error .assertion) ∨
      ¬ (r.SizeAllowed st ∧ r.attr.stSize ≤ 2199023255552) ∧
        ∃ ret, ret ≠ 0 ∧ setattrSizeCheck r st' = .ok ret := by
  obtain ⟨ret, hiff, hret⟩ := sizePermission_cases hmode huid hgid
  have hcheck : setattrSizeCheck r st' = (if ret ≠ 0 then .ok ret
      else if r.attr.stSize > 2199023255552 then .ok (-EFBIG)
      else if st'.isRegular then .ok 0 else .error .assertion) := by
    unfold setattrSizeCheck
    by_cases hroot : r.uid ≠ 0
    · rw [if_pos hroot] at hret ⊢
      cases hfh : r.fh with
      | none =>
        simp only [hfh] at hret ⊢
        rw [hret]
        rfl
      | some fh =>
        simp only [hfh] at hret ⊢
        by_cases hflags : fh.flags &&& O_ACCMODE ≠ O_WRONLY ∧ fh.flags &&& O_ACCMODE ≠ O_RDWR
        · rw [if_pos hflags] at hret ⊢
          obtain rfl := Except.ok.inj hret
          rfl
        · rw [if_neg hflags] at hret ⊢
          obtain rfl := Except.ok.inj hret
          rfl
    · rw [if_neg hroot] at hret ⊢
      obtain rfl := Except.ok.inj hret
      rfl
  have hreg : st'.isRegular = (r.assigned st).isRegular := by rw [Stat.isRegular, hmode, Stat.isRegular]
  rw [hcheck, hiff, hreg]
  by_cases hzero : ret = 0
  · by_cases hle : r.attr.stSize ≤ 2199023255552
    · left
      refine ⟨⟨hzero, hle⟩, ?_⟩
      rw [if_neg (not_not.mpr hzero), if_neg (by omega)]
    · right
      refine ⟨fun h => hle h.2, -EFBIG, by decide, ?_⟩
      rw [if_neg (not_not.mpr hzero), if_pos (by omega)]
  · right
    exact ⟨fun h => hzero h.1, ret, hzero, if_pos hzero⟩

end Fields

/-! ## Growing files -/

namespace File

/-- The growing loop overflows its counter when the new size is too large. -/
theorem growLoop_overflow {n : ℤ} (hn : 2 ^ 31 - BLOCK_SIZE < n) (f : File) {i : ℤ}
    (hi : i ≤ 2 ^ 31 - BLOCK_SIZE) (hmod : i % BLOCK_SIZE = 0) :
    f.growLoop n i = .error .overflow := by
  have hB : (BLOCK_SIZE : ℤ) = 4096 := rfl
  fun_induction growLoop f n i with
  | case1 => rfl
  | case2 f i hlt blockId f₁ f₂ hov ih =>
    rw [hB] at hmod
    exact ih (by omega) (by rw [hB]; omega)
  | case3 f i hge => omega

/-- A truncation does not run to its end exactly when it grows the file too far. -/
theorem truncate_ok_iff {f : File} {n : ℤ} :
    (∃ x, f.truncate n = .ok x) ↔ ¬ (f.st.stSize < n ∧ 2 ^ 31 - BLOCK_SIZE < n) := by
  have hB : (BLOCK_SIZE : ℤ) = 4096 := rfl
  constructor
  · rintro ⟨x, hx⟩ ⟨hlt, hn⟩
    unfold truncate at hx
    rw [if_neg (by omega), if_neg (by omega), if_neg (by omega),
      growLoop_overflow hn f (by omega) (by simp)] at hx
    cases hx
  · intro h
    obtain ⟨f', tasks, hok⟩ := truncate_ok (f := f) (n := n) (by omega)
    exact ⟨_, hok⟩

/-- The end of the range of a `my_fallocate` overflows the loop counter: one of its rounds would step
past the largest `off_t`. -/
def FallocateOverflows (offset length : ℤ) : Prop :=
  ∃ k : ℕ, offset + k * BLOCK_SIZE < offset + length ∧ 2 ^ 63 ≤ offset + (k + 1) * BLOCK_SIZE

/-- The loop of `my_fallocate` runs to its end exactly when no round overflows. -/
theorem fallocateLoop_ok_iff (f : File) (i stop : ℤ) :
    (∃ f', f.fallocateLoop i stop = .ok f') ↔
      ¬ ∃ k : ℕ, i + k * BLOCK_SIZE < stop ∧ 2 ^ 63 ≤ i + (k + 1) * BLOCK_SIZE := by
  have hB : (BLOCK_SIZE : ℤ) = 4096 := rfl
  fun_induction fallocateLoop f i stop with
  | case1 f i hi hov =>
    refine iff_of_false ?_ (not_not.mpr ⟨0, by simpa using hi, ?_⟩)
    · rintro ⟨f', h⟩
      cases h
    · simpa using hov
  | case2 f i hi blockId f₁ hov ih =>
    refine ih.trans (not_congr ⟨?_, ?_⟩)
    · rintro ⟨k, hlt, hle⟩
      refine ⟨k + 1, ?_, ?_⟩ <;> push_cast <;> linarith
    · rintro ⟨k, hlt, hle⟩
      cases k with
      | zero =>
        push_cast at hle
        omega
      | succ k =>
        push_cast at hlt hle
        refine ⟨k, ?_, ?_⟩ <;> linarith
  | case3 f i hi =>
    refine iff_of_true ⟨f, rfl⟩ ?_
    rintro ⟨k, hlt, -⟩
    rw [hB] at hlt
    omega

end File

/-! ## Replies -/

/-- The behaviour of the request on the inode does not send a reply. -/
def FileRequest.Unanswered (q : FileRequest) (f : File) : Prop :=
  match q with
  | .setattr r => r.SetsSize f.st ∧ (¬ (r.assigned f.st).isRegular ∨
      f.st.stSize < r.attr.stSize ∧ 2 ^ 31 - BLOCK_SIZE < r.attr.stSize)
  | .fallocate _ _ offset length => File.FallocateOverflows offset length
  | .opendir _ flags uid gid _ => flags &&& O_ACCMODE = O_RDONLY ∧ accessBits f.st R_OK uid gid ≠ 0
  | .access _ mask _ _ => mask ≠ F_OK ∧ mask &&& (R_OK ||| W_OK ||| X_OK) = 0
  | _ => False

namespace File

variable {f : File}

/-- The outcome of the behaviour of a request: it sends its one reply, or it does not run to its end or
returns without a reply. -/
inductive Outcome (q : FileRequest) (f : File) : Prop
  /-- One reply is sent. -/
  | answers {e : Effect File FileTask Reply} {rep : Reply} (hok : ¬ q.Unanswered f)
      (hbody : f.inodeBody q = .ok e) (hreplies : e.replies = [rep]) (hreq : rep.req = q.req)
  /-- The body fails. -/
  | fails (hno : q.Unanswered f) (hbody : ∀ e, f.inodeBody q ≠ .ok e)
  /-- The body returns without a reply and without scheduling anything. -/
  | silent {e : Effect File FileTask Reply} (hno : q.Unanswered f)
      (hbody : f.inodeBody q = .ok e) (hspawned : e.spawned = []) (hreplies : e.replies = [])

/-- The outcome of `setattr`. -/
theorem setattr_outcome (f : File) (r : SetattrReq) : Outcome (.setattr r) f := by
  rcases setattrFields_cases r f.st with
    ⟨hfields, clearMode, mtime, atime, ctime, heq⟩ | ⟨hfields, ret, st', heq⟩
  swap
  · exact .answers (fun h => hfields h.1.fields) (setattr_of_fields_error heq) rfl rfl
  by_cases hsize : r.has FUSE_SET_ATTR_SIZE
  swap
  · have hbody : ∃ f' st', f.setattr r = .ok ⟨f', [], [.attr r.req st']⟩ := by
      unfold setattr
      rw [heq]
      exact ⟨_, _, if_neg hsize⟩
    obtain ⟨f', st', hbody⟩ := hbody
    exact .answers (fun h => hsize h.1.size) hbody rfl rfl
  rcases setattrSizeCheck_cases r f.st
    (show Stat.stMode { r.assigned f.st with stMtime := mtime, stAtime := atime, stCtime := ctime }
      = _ from rfl) rfl rfl with
    ⟨⟨hallowed, hle⟩, hcheck⟩ | ⟨hno, ret, hret, hcheck⟩
  swap
  · exact .answers (fun h => hno ⟨h.1.allowed, h.1.le⟩)
      (setattr_of_check_ne heq hsize hcheck hret) rfl rfl
  have hsets : r.SetsSize f.st := ⟨hsize, hfields, hallowed, hle⟩
  by_cases hreg : (r.assigned f.st).isRegular
  swap
  · refine .fails ⟨hsets, .inl hreg⟩ fun e he => ?_
    have he : f.setattr r = .ok e := he
    unfold setattr at he
    rw [if_neg hreg] at hcheck
    simp only [heq, hsize, if_true, hcheck] at he
    cases he
  rw [if_pos hreg] at hcheck
  by_cases hgrow : f.st.stSize < r.attr.stSize ∧ 2 ^ 31 - BLOCK_SIZE < r.attr.stSize
  · refine .fails ⟨hsets, .inr hgrow⟩ fun e he => ?_
    have he : f.setattr r = .ok e := he
    unfold setattr at he
    simp only [heq, hsize, if_true, hcheck] at he
    obtain ⟨ret, hret, he⟩ := bind_eq_ok.mp he
    obtain rfl := Except.ok.inj hret
    rw [if_neg (not_not.mpr rfl)] at he
    obtain ⟨x, hx, -⟩ := bind_eq_ok.mp he
    have hno := truncate_ok_iff.mp ⟨x, hx⟩
    exact hno hgrow
  · obtain ⟨⟨f₂, tasks⟩, hok⟩ := truncate_ok_iff (f := { f with inode.iSt :=
      { r.assigned f.st with stMtime := mtime, stAtime := atime, stCtime := ctime } }).mpr hgrow
    have hbody : ∃ f' tasks st', f.setattr r = .ok ⟨f', tasks, [.attr r.req st']⟩ := by
      unfold setattr
      simp only [heq, hsize, if_true, hcheck, bind, Except.bind, hok]
      exact ⟨_, _, _, if_neg (not_not.mpr rfl)⟩
    obtain ⟨f', tasks, st', hbody⟩ := hbody
    exact .answers (fun h => h.2.elim (fun hno => hno hreg) hgrow) hbody rfl rfl

/-- The outcome of `open`. -/
theorem openFile_outcome (f : File) (r : OpenReq) : Outcome (.openFile r) f := by
  obtain ⟨ret, hret⟩ := access_openMode f.st r.flags r.uid r.gid
  have hbody : ∃ f' tasks rep, f.openFile r = .ok ⟨f', tasks, [rep]⟩ ∧ rep.req = r.req := by
    unfold openFile
    rw [hret]
    by_cases hzero : ret ≠ 0
    · exact ⟨_, _, _, if_pos hzero, rfl⟩
    · by_cases htrunc : r.flags &&& O_TRUNC ≠ 0
      · obtain ⟨⟨f₁, tasks⟩, hok⟩ := truncate_ok_iff (f := f) (n := 0) |>.mpr fun h => absurd h.2 (by decide)
        simp only [bind, Except.bind, if_neg hzero, if_pos htrunc, hok]
        exact ⟨_, _, _, rfl, rfl⟩
      · simp only [bind, Except.bind, if_neg hzero, if_neg htrunc]
        exact ⟨_, _, _, rfl, rfl⟩
  obtain ⟨f', tasks, rep, hbody, hreq⟩ := hbody
  exact .answers id hbody rfl hreq

/-- The outcome of the behaviour of every request but a read. -/
theorem inodeBody_outcome (f : File) {q : FileRequest} (hq : ∀ r, q ≠ .read r) : Outcome q f := by
  cases q with
  | write w => exact .answers id rfl rfl rfl
  | read r => exact absurd rfl (hq r)
  | setattr r => exact setattr_outcome f r
  | openFile r => exact openFile_outcome f r
  | fallocate req mode offset length =>
    have hiff := fallocateLoop_ok_iff f offset (offset + length)
    by_cases hno : FallocateOverflows offset length
    · refine .fails hno fun e he => ?_
      obtain ⟨f₁, hf₁, -⟩ := bind_eq_ok.mp he
      exact hiff.mp ⟨f₁, hf₁⟩ hno
    · obtain ⟨f₁, hf₁⟩ := hiff.mpr hno
      have hbody : ∃ f', f.inodeBody (.fallocate req mode offset length) =
          .ok ⟨f', [], [.err req 0]⟩ := by
        simp only [inodeBody, fallocate, hf₁, bind, Except.bind]
        exact ⟨_, rfl⟩
      obtain ⟨f', hbody⟩ := hbody
      exact .answers hno hbody rfl rfl
  | opendir req flags uid gid fi =>
    by_cases hread : flags &&& O_ACCMODE = O_RDONLY
    · have hbody : f.inodeBody (.opendir req flags uid gid fi) =
          if accessBits f.st R_OK uid gid ≠ 0 then .ok ⟨f, [], []⟩
          else .ok ⟨f, [], [.openFile req fi]⟩ := by
        simp only [inodeBody, hread, if_true, access_R_OK, bind, Except.bind]
      by_cases hden : accessBits f.st R_OK uid gid ≠ 0
      · rw [if_pos hden] at hbody
        exact .silent ⟨hread, hden⟩ hbody rfl rfl
      · rw [if_neg hden] at hbody
        exact .answers (fun h => hden h.2) hbody rfl rfl
    · exact .answers (fun h => hread h.1) (if_neg hread) rfl rfl
  | access req mask uid gid =>
    by_cases hok : mask = F_OK
    · have hbody : f.inodeBody (.access req mask uid gid) = .ok ⟨f, [], [.err req (-0)]⟩ := by
        simp only [inodeBody, VeronaFs.access, hok, if_true]
        rfl
      exact .answers (fun h => h.1 hok) hbody rfl rfl
    · by_cases hmask : mask &&& (R_OK ||| W_OK ||| X_OK) = 0
      · refine .fails ⟨hok, hmask⟩ fun e he => ?_
        obtain ⟨ret, hret, -⟩ := bind_eq_ok.mp he
        rw [VeronaFs.access, if_neg hok, if_pos hmask] at hret
        cases hret
      · have hbody : f.inodeBody (.access req mask uid gid) =
            .ok ⟨f, [], [.err req (-accessBits f.st mask uid gid)]⟩ := by
          simp only [inodeBody, VeronaFs.access, if_neg hok, if_neg hmask]
          rfl
        exact .answers (fun h => hmask h.2) hbody rfl rfl

end File

/-! ## Behaviours without replies -/

/-- The behaviours that copy into blocks or release them. -/
def FileTask.Quiet : FileTask → Prop
  | .writeOne _ => True
  | .writeTwo _ _ => True
  | .freeSpace _ => True
  | _ => False

/-- Quiet behaviours send nothing and schedule nothing. -/
theorem FileTask.Quiet.body {t : FileTask} (h : t.Quiet) {f : File} {e : Effect File FileTask Reply}
    (hbody : File.body t f = .ok e) : e.spawned = [] ∧ e.replies = [] := by
  cases t with
  | writeOne w =>
    obtain ⟨blk, -, hbody⟩ := bind_eq_ok.mp hbody
    obtain ⟨blk', -, hbody⟩ := bind_eq_ok.mp hbody
    rw [← Except.ok.inj hbody]
    exact ⟨rfl, rfl⟩
  | writeTwo w₀ w₁ =>
    obtain ⟨blk₀, -, hbody⟩ := bind_eq_ok.mp hbody
    obtain ⟨blk₀', -, hbody⟩ := bind_eq_ok.mp hbody
    obtain ⟨blk₁, -, hbody⟩ := bind_eq_ok.mp hbody
    obtain ⟨blk₁', -, hbody⟩ := bind_eq_ok.mp hbody
    rw [← Except.ok.inj hbody]
    exact ⟨rfl, rfl⟩
  | freeSpace a =>
    obtain ⟨blk, -, hbody⟩ := bind_eq_ok.mp hbody
    rw [← Except.ok.inj hbody]
    exact ⟨rfl, rfl⟩
  | _ => exact absurd h id

/-- The behaviour of a request other than a read schedules quiet behaviours. -/
theorem File.RequestStep.quiet {q : FileRequest} (hq : ∀ r, q ≠ .read r) {f : File}
    {e : Effect File FileTask Reply} (h : File.RequestStep q f e) : ∀ t ∈ e.spawned, t.Quiet := by
  intro t ht
  cases h with
  | write w =>
    rcases f.write_tasks w with h | ⟨u, k, h, -⟩ | ⟨u₀, u₁, k, h, -⟩
    · rw [h] at ht
      cases ht
    · rw [h, List.mem_singleton] at ht
      rw [ht]
      trivial
    · rw [h, List.mem_singleton] at ht
      rw [ht]
      trivial
  | read r => exact absurd rfl (hq r)
  | truncate n hnew h =>
    obtain ⟨a, k, rfl, -⟩ := h.spawned ht
    trivial
  | reserve => cases ht
  | keep => cases ht

end VeronaFs
