import VeronaFs.Namespace.RenameSteps

/-!
# The access rights of root

`FileSystem::access` gives root every right to read and write, and to execute what somebody may execute.
But this case comes behind the ones of the owner and of the group, so root has only the rights of the
owner on its own inodes, and only those of the group on the inodes of its group.  Root passes every
permission check that a user passes exactly if the bits of the class that shadows its case are set
(`rootPasses_iff`).
-/

namespace VeronaFs

open File

/-- The mask asks for some of the three rights. -/
def AsksRights (mask : BitVec 32) : Prop := mask &&& (R_OK ||| W_OK ||| X_OK) ≠ 0

/-- Whether the mask asks for rights is decided by computing the bits. -/
instance : DecidablePred AsksRights := fun mask =>
  inferInstanceAs (Decidable (mask &&& (R_OK ||| W_OK ||| X_OK) ≠ 0))

/-- Root passes every check on the inode that somebody passes, and every check for reading and writing,
also those of `open`, `create`, `mkdir`, `unlink` and `rename`. -/
structure RootPasses (st : Stat) : Prop where
  /-- What is granted to somebody is granted to root. -/
  granted : ∀ mask uid gid gid', AsksRights mask → access st mask uid gid = .ok 0 →
    access st mask 0 gid' = .ok 0
  /-- Reading and writing are granted to root. -/
  bypass : ∀ mask gid, AsksRights mask → mask &&& X_OK = 0 → access st mask 0 gid = .ok 0
  /-- Root opens what somebody opens. -/
  opens : ∀ flags uid gid gid', access st (openMode flags) uid gid = .ok 0 →
    access st (openMode flags) 0 gid' = .ok 0
  /-- Root changes the directories that somebody changes. -/
  changes : ∀ d : DirInode, d.iSt = st → ∀ uid gid gid', d.CanWrite uid gid → d.CanWrite 0 gid'
  /-- Root renames the directories that somebody renames. -/
  renames : ∀ (r : RenameReq) (gid : ℕ), ¬ r.SourceDenied st →
    ¬ { r with uid := 0, gid := gid }.SourceDenied st
  /-- No sticky bit keeps root from a rename. -/
  sticky : ∀ r : RenameReq, r.uid = 0 → ∀ uid uid', r.stickyDenied st uid uid' = false

/-- The bits of the class that shadows the case of root: that of the owner on inodes of root, and that of
the group on others.  The class may read and write, and may execute if another class may. -/
def RootBits (st : Stat) : Prop :=
  if st.stUid = 0 then
    st.stMode &&& 0o400 ≠ 0 ∧ st.stMode &&& 0o200 ≠ 0 ∧
      (st.stMode &&& 0o010 ≠ 0 ∨ st.stMode &&& 0o001 ≠ 0 → st.stMode &&& 0o100 ≠ 0)
  else
    st.stMode &&& 0o040 ≠ 0 ∧ st.stMode &&& 0o020 ≠ 0 ∧
      (st.stMode &&& 0o100 ≠ 0 ∨ st.stMode &&& 0o001 ≠ 0 → st.stMode &&& 0o010 ≠ 0)

/-! ## The classes -/

variable {st : Stat} {mask : BitVec 32} {uid gid : ℕ}

/-- A class has the rights that the mask asks for. -/
def Allows (stMode mask r w x : BitVec 32) : Prop :=
  (mask &&& R_OK ≠ 0 → stMode &&& r ≠ 0) ∧ (mask &&& W_OK ≠ 0 → stMode &&& w ≠ 0) ∧
    (mask &&& X_OK ≠ 0 → stMode &&& x ≠ 0)

/-- A class grants what it has the rights for. -/
theorem checkBits_eq_zero_iff {stMode r w x : BitVec 32} :
    checkBits stMode mask r w x = 0 ↔ Allows stMode mask r w x := by
  rw [checkBits, Allows]
  have hne : -EACCES ≠ 0 := neg_EACCES_ne_zero
  split_ifs with hr hw hx
  · exact iff_of_false hne fun h => h.1 hr.1 hr.2
  · exact iff_of_false hne fun h => h.2.1 hw.1 hw.2
  · exact iff_of_false hne fun h => h.2.2 hx.1 hx.2
  · exact iff_of_true rfl ⟨fun h h' => hr ⟨h, h'⟩, fun h h' => hw ⟨h, h'⟩, fun h h' => hx ⟨h, h'⟩⟩

/-- Somebody may execute exactly if one of the three classes may. -/
theorem executable_iff {stMode : BitVec 32} : stMode &&& 0o111 ≠ 0 ↔
    stMode &&& 0o100 ≠ 0 ∨ stMode &&& 0o010 ≠ 0 ∨ stMode &&& 0o001 ≠ 0 := by
  have hsplit : (0o111 : BitVec 32) = 0o100 ||| (0o010 ||| 0o001) := by decide
  have hor (a b : BitVec 32) : a ||| b = 0 ↔ a = 0 ∧ b = 0 := BitVec.or_eq_zero_iff
  rw [hsplit, BitVec.and_or_distrib_left, BitVec.and_or_distrib_left, Ne, hor, hor,
    not_and_or, not_and_or]

/-- The check is one of the class of the requester. -/
theorem access_eq_ok_zero_iff (h : AsksRights mask) : access st mask uid gid = .ok 0 ↔
    if st.stUid = uid then Allows st.stMode mask 0o400 0o200 0o100
    else if st.stGid = gid then Allows st.stMode mask 0o040 0o020 0o010
    else if uid = 0 then mask &&& X_OK ≠ 0 → st.stMode &&& 0o111 ≠ 0
    else Allows st.stMode mask 0o004 0o002 0o001 := by
  have hne : mask ≠ F_OK := by
    rintro rfl
    exact h (by decide)
  rw [access, if_neg hne, if_neg h, Except.ok.injEq, accessBits]
  split_ifs with howner hgroup hroot hx
  · exact checkBits_eq_zero_iff
  · exact checkBits_eq_zero_iff
  · exact iff_of_false neg_EACCES_ne_zero fun h => h hx.1 hx.2
  · exact iff_of_true rfl fun h h' => hx ⟨h, h'⟩
  · exact checkBits_eq_zero_iff

/-- Whoever is granted to execute is so by a bit. -/
theorem executable_of_access (h : AsksRights mask) (hx : mask &&& X_OK ≠ 0)
    (hacc : access st mask uid gid = .ok 0) : st.stMode &&& 0o100 ≠ 0 ∨ st.stMode &&& 0o010 ≠ 0 ∨
      st.stMode &&& 0o001 ≠ 0 := by
  rw [access_eq_ok_zero_iff h] at hacc
  split_ifs at hacc with howner hgroup hroot
  · exact Or.inl (hacc.2.2 hx)
  · exact Or.inr (Or.inl (hacc.2.2 hx))
  · exact executable_iff.mp (hacc hx)
  · exact Or.inr (Or.inr (hacc.2.2 hx))

/-- With the bits of the shadowing class, root passes what somebody passes. -/
theorem RootBits.access_root (h : RootBits st) (hasks : AsksRights mask)
    (hx : mask &&& X_OK ≠ 0 → st.stMode &&& 0o100 ≠ 0 ∨ st.stMode &&& 0o010 ≠ 0 ∨
      st.stMode &&& 0o001 ≠ 0) : access st mask 0 gid = .ok 0 := by
  rw [access_eq_ok_zero_iff hasks]
  rw [RootBits] at h
  by_cases howner : st.stUid = 0
  · rw [if_pos howner] at h ⊢
    refine ⟨fun _ => h.1, fun _ => h.2.1, fun hmask => ?_⟩
    rcases hx hmask with hbit | hbit | hbit
    · exact hbit
    · exact h.2.2 (Or.inl hbit)
    · exact h.2.2 (Or.inr hbit)
  · rw [if_neg howner] at h ⊢
    by_cases hgroup : st.stGid = gid
    · rw [if_pos hgroup]
      refine ⟨fun _ => h.1, fun _ => h.2.1, fun hmask => ?_⟩
      rcases hx hmask with hbit | hbit | hbit
      · exact h.2.2 (Or.inl hbit)
      · exact hbit
      · exact h.2.2 (Or.inr hbit)
    · rw [if_neg hgroup, if_pos rfl]
      exact fun hmask => executable_iff.mpr (hx hmask)

/-- Every mask for an access mode asks for rights. -/
theorem asksRights_openMode (flags : BitVec 32) : AsksRights (openMode flags) ∨ openMode flags = 0 := by
  unfold openMode AsksRights
  split_ifs
  · exact Or.inl (by decide)
  · exact Or.inl (by decide)
  · exact Or.inl (by decide)
  · exact Or.inr rfl

/-- The permission to change a directory is the check for writing. -/
theorem DirInode.canWrite_iff (d : DirInode) (uid gid : ℕ) :
    d.CanWrite uid gid ↔ access d.iSt W_OK uid gid = .ok 0 := by
  rw [access_W_OK, Except.ok.injEq, CanWrite]

/-- The check on a directory that is renamed is the one for writing. -/
theorem not_sourceDenied_iff (r : RenameReq) :
    ¬ r.SourceDenied st ↔ (st.isDir = true → access st W_OK r.uid r.gid = .ok 0) := by
  rw [access_W_OK, Except.ok.injEq, RenameReq.SourceDenied, not_and_not_right]

/-- The sticky bit is not tested for root. -/
theorem stickyDenied_root {r : RenameReq} (h : r.uid = 0) (uid uid' : ℕ) :
    r.stickyDenied st uid uid' = false := by
  simp [RenameReq.stickyDenied, RenameReq.notOwner, h]

/-! ## Root -/

/-- Root passes every check that somebody passes, and every check for reading and writing, exactly if the
class that shadows its case may read and write, and may execute what another class may. -/
theorem rootPasses_iff (st : Stat) : RootPasses st ↔ RootBits st := by
  constructor
  · intro h
    have hR : AsksRights R_OK := by decide
    have hW : AsksRights W_OK := by decide
    have hX : AsksRights X_OK := by decide
    -- the users of the three classes
    have hother : ∃ uid gid, uid ≠ 0 ∧ st.stUid ≠ uid ∧ st.stGid ≠ gid :=
      ⟨st.stUid + 1, st.stGid + 1, by omega, by omega, by omega⟩
    obtain ⟨uid, gid, huid, huid', hgid⟩ := hother
    have hread := (access_eq_ok_zero_iff hR).mp (h.bypass R_OK st.stGid hR (by decide))
    have hwrite := (access_eq_ok_zero_iff hW).mp (h.bypass W_OK st.stGid hW (by decide))
    have hexec {uid gid : ℕ} (hacc : access st X_OK uid gid = .ok 0) :=
      (access_eq_ok_zero_iff hX).mp (h.granted X_OK uid gid st.stGid hX hacc)
    have hX' : X_OK &&& X_OK ≠ 0 := by decide
    have hnone {r w x : BitVec 32} (hx : st.stMode &&& x ≠ 0) : Allows st.stMode X_OK r w x :=
      ⟨fun h => absurd h (by decide), fun h => absurd h (by decide), fun _ => hx⟩
    have hothers (hbit : st.stMode &&& 0o001 ≠ 0) : access st X_OK uid gid = .ok 0 := by
      rw [access_eq_ok_zero_iff hX, if_neg huid', if_neg hgid, if_neg huid]
      exact hnone hbit
    rw [RootBits]
    by_cases howner : st.stUid = 0
    · rw [if_pos howner] at hread hwrite ⊢
      refine ⟨hread.1 (by decide), hwrite.2.1 (by decide), fun hbit => ?_⟩
      have hacc : ∃ uid gid, access st X_OK uid gid = .ok 0 := by
        rcases hbit with hbit | hbit
        · refine ⟨uid, st.stGid, ?_⟩
          rw [access_eq_ok_zero_iff hX, if_neg huid', if_pos rfl]
          exact hnone hbit
        · exact ⟨uid, gid, hothers hbit⟩
      obtain ⟨uid, gid, hacc⟩ := hacc
      have hgranted := hexec hacc
      rw [if_pos howner] at hgranted
      exact hgranted.2.2 hX'
    · rw [if_neg howner, if_pos rfl] at hread hwrite
      rw [if_neg howner]
      refine ⟨hread.1 (by decide), hwrite.2.1 (by decide), fun hbit => ?_⟩
      have hacc : ∃ uid gid, access st X_OK uid gid = .ok 0 := by
        rcases hbit with hbit | hbit
        · refine ⟨st.stUid, gid, ?_⟩
          rw [access_eq_ok_zero_iff hX, if_pos rfl]
          exact hnone hbit
        · exact ⟨uid, gid, hothers hbit⟩
      obtain ⟨uid, gid, hacc⟩ := hacc
      have hgranted := hexec hacc
      rw [if_neg howner, if_pos rfl] at hgranted
      exact hgranted.2.2 hX'
  · intro h
    have hgranted (mask : BitVec 32) (uid gid gid' : ℕ) (hasks : AsksRights mask)
        (hacc : access st mask uid gid = .ok 0) : access st mask 0 gid' = .ok 0 :=
      h.access_root hasks fun hx => executable_of_access hasks hx hacc
    refine ⟨hgranted, fun mask gid hasks hnone => h.access_root hasks fun hx => absurd hnone hx,
      fun flags uid gid gid' hacc => ?_, fun d hd uid gid gid' hacc => ?_,
      fun r gid' hpass => ?_, fun r => stickyDenied_root⟩
    · rcases asksRights_openMode flags with hasks | hzero
      · exact hgranted _ uid gid gid' hasks hacc
      · rw [hzero]
        rfl
    · rw [DirInode.canWrite_iff, hd] at hacc ⊢
      exact hgranted W_OK uid gid gid' (by decide) hacc
    · rw [not_sourceDenied_iff] at hpass ⊢
      exact fun hdir => hgranted W_OK r.uid r.gid gid' (by decide) (hpass hdir)

/-- A file of the user 1000 and the group of root, that only its owner may write. -/
def groupRootFile : Stat := initStat 2 0 1000 0 BLOCK_SIZE 0o644 true

/-- Root may not write the file of a user. -/
theorem root_refused :
    access groupRootFile W_OK 1000 1000 = .ok 0 ∧ access groupRootFile W_OK 0 0 = .ok (-EACCES) ∧
      ¬ RootPasses groupRootFile := by
  refine ⟨by decide, by decide, fun h => ?_⟩
  have hroot := h.bypass W_OK 0 (by decide) (by decide)
  exact absurd hroot (by decide)

end VeronaFs
