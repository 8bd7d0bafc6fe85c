import VeronaFs.FileSystem.Answers

/-!
# What a refused request has assigned

`FileSystem::setattr` assigns the attributes group by group and checks each group before it.  A
stranger, who is neither root nor the owner, assigns nothing; an owner who asks for another owner has
assigned the mode when it is refused; and when all assignments are allowed they are made before the
size is checked.  The behaviour on a regular inode follows: what is left of a refused request, and
what a request that is not refused does.
-/

namespace VeronaFs

open Boc Foundation

namespace SetattrReq

variable (r : SetattrReq) (st : Stat)

/-! ## Conditions on requests -/

/-- A refused request: an assignment is not allowed, or a new size is not. -/
def Refused : Prop :=
  ¬ r.FieldsAllowed st ∨
    r.has FUSE_SET_ATTR_SIZE ∧ ¬ (r.SizeAllowed st ∧ r.attr.stSize ≤ 2199023255552)

/-- The modification time after the assignments. -/
def newMtime : ℤ :=
  if r.has (FUSE_SET_ATTR_MTIME ||| FUSE_SET_ATTR_ATIME) then
    if r.has FUSE_SET_ATTR_MTIME_NOW then r.nowM
    else if r.has FUSE_SET_ATTR_MTIME then r.attr.stMtime else st.stMtime
  else st.stMtime

/-- The access time after the assignments. -/
def newAtime : ℤ :=
  if r.has (FUSE_SET_ATTR_MTIME ||| FUSE_SET_ATTR_ATIME) then
    if r.has FUSE_SET_ATTR_ATIME_NOW then r.nowA
    else if r.has FUSE_SET_ATTR_ATIME then r.attr.stAtime else st.stAtime
  else st.stAtime

/-- The change time after the assignments. -/
def newCtime : ℤ := if r.has FUSE_SET_ATTR_CTIME then r.attr.stCtime else st.stCtime

/-- The attributes after all assignments before the size. -/
def newStat : Stat :=
  { r.assigned st with
    stMtime := r.newMtime st, stAtime := r.newAtime st, stCtime := r.newCtime st }

/-- The request asks for the values the inode has already, the size apart. -/
structure Repeats : Prop where
  /-- The mode. -/
  mode : r.has FUSE_SET_ATTR_MODE → r.attr.stMode = st.stMode
  /-- The owner. -/
  owner : r.has FUSE_SET_ATTR_UID → r.attr.stUid = st.stUid
  /-- The group. -/
  group : r.has FUSE_SET_ATTR_GID → r.attr.stGid = st.stGid
  /-- The modification time. -/
  mtime : r.newMtime st = st.stMtime
  /-- The access time. -/
  atime : r.newAtime st = st.stAtime
  /-- The change time. -/
  ctime : r.has FUSE_SET_ATTR_CTIME → r.attr.stCtime = st.stCtime

/-- No assignment that changes something comes before a check that fails. -/
structure AllOrNothing : Prop where
  /-- Who may assign the mode but not all that is asked for asks for no other mode. -/
  mode : r.OwnerOrRoot st → ¬ r.FieldsAllowed st →
    r.has FUSE_SET_ATTR_MODE → r.attr.stMode = st.stMode
  /-- When only the size is refused, the other values are those of the inode. -/
  size : r.FieldsAllowed st → r.has FUSE_SET_ATTR_SIZE →
    ¬ (r.SizeAllowed st ∧ r.attr.stSize ≤ 2199023255552) → r.Repeats st

/-- The condition under which a stranger may set a size: the file was opened for writing, or its
mode grants the requester the right to write. -/
def MayResize : Prop :=
  r.has FUSE_SET_ATTR_SIZE ∧
    ((∃ fh, r.fh = some fh ∧
        (fh.flags &&& O_ACCMODE = O_WRONLY ∨ fh.flags &&& O_ACCMODE = O_RDWR)) ∨
      access st W_OK r.uid r.gid = .ok 0)

/-! ## The assignments before the size -/

variable {r st}

/-- A stranger assigns nothing. -/
theorem setattrFields_of_stranger (h : ¬ r.OwnerOrRoot st) : (setattrFields r st).2 = st := by
  have hno : r.uid ≠ 0 ∧ st.stUid ≠ r.uid := by
    unfold OwnerOrRoot at h
    tauto
  have hmode : (setattrMode r st).2 = st := by
    unfold setattrMode
    rw [if_pos hno]
    split <;> rfl
  have howner : (setattrOwner r st).2 = st := by
    rcases setattrOwner_cases r st with ⟨⟨huid, hgid⟩, heq⟩ | ⟨-, ret, heq⟩
    · have hgroup : ¬ r.has FUSE_SET_ATTR_GID := fun hset => h (hgid hset)
      have hkeep : (if r.has FUSE_SET_ATTR_UID then r.attr.stUid else st.stUid) = st.stUid := by
        split
        · next hset => exact ((huid hset).resolve_left fun hroot => h (.inl hroot)).symm
        · rfl
      rw [heq, hkeep, if_neg hgroup]
    · rw [heq]
  have htimes : (setattrTimes r st).2 = st := by
    unfold setattrTimes
    rw [if_pos hno]
    split <;> rfl
  have hctime : (setattrCtime r st).2 = st := by
    unfold setattrCtime
    rw [if_pos hno]
    split <;> rfl
  unfold setattrFields
  split
  · next heq => rwa [heq] at hmode
  · next clearMode st₁ heq =>
    rw [heq] at hmode
    obtain rfl : st₁ = st := hmode
    split
    · next heq => rwa [heq] at howner
    · next st₂ heq =>
      rw [heq] at howner
      obtain rfl : st₂ = st₁ := howner
      split
      · next heq => rwa [heq] at htimes
      · next st₃ heq =>
        rw [heq] at htimes
        obtain rfl : st₃ = st₂ := htimes
        split
        · next heq => rwa [heq] at hctime
        · next heq => rwa [heq] at hctime

/-- An owner who asks for something that is not allowed has assigned the mode. -/
theorem setattrFields_of_owner (h : r.OwnerOrRoot st) (hno : ¬ r.FieldsAllowed st) :
    setattrFields r st = (.error (-EPERM), { st with stMode := r.newMode st }) := by
  obtain ⟨hset, hother⟩ : r.has FUSE_SET_ATTR_UID ∧ ¬ (r.uid = 0 ∨ st.stUid = r.attr.stUid) := by
    by_contra hall
    refine hno ⟨fun _ => h, fun hset => ?_, fun _ => h, fun _ => h, fun _ => h⟩
    by_contra hother
    exact hall ⟨hset, hother⟩
  have howner : setattrOwner r { st with stMode := r.newMode st } =
      (.error (-EPERM), { st with stMode := r.newMode st }) := by
    unfold setattrOwner
    rw [if_pos (by rw [r.has_or, hset]; rfl), if_pos (by tauto)]
  unfold setattrFields
  rcases setattrMode_cases r st with ⟨-, clearMode, heq⟩ | ⟨hmode, -⟩
  · simp only [heq, howner]
  · exact absurd (fun _ => h) hmode

/-- Allowed assignments are all made. -/
theorem setattrFields_of_allowed (h : r.FieldsAllowed st) :
    ∃ clearMode, setattrFields r st = (.ok clearMode, r.newStat st) := by
  have hroot : r.OwnerOrRoot st → r.OwnerOrRoot (r.assigned st) := by
    intro hor
    by_cases hset : r.has FUSE_SET_ATTR_UID
    · rcases h.owner hset with hroot | heq
      · exact .inl hroot
      · refine hor.imp_right fun hu => ?_
        simp only [assigned, hset, if_true]
        exact heq ▸ hu
    · refine hor.imp_right fun hu => ?_
      simp only [assigned, hset, Bool.false_eq_true, if_false]
      exact hu
  have htimes : setattrTimes r (r.assigned st) = (.ok (), { r.assigned st with
      stMtime := r.newMtime st, stAtime := r.newAtime st }) := by
    unfold setattrTimes newMtime newAtime
    by_cases hset : r.has (FUSE_SET_ATTR_MTIME ||| FUSE_SET_ATTR_ATIME)
    · have hor := hroot (h.times hset)
      unfold OwnerOrRoot at hor
      rw [if_pos hset, if_neg (by tauto), if_pos hset, if_pos hset]
      rfl
    · rw [if_neg hset, if_neg hset, if_neg hset]
      rfl
  have hctime : ∀ m a, setattrCtime r { r.assigned st with stMtime := m, stAtime := a } =
      (.ok (), { r.assigned st with stMtime := m, stAtime := a, stCtime := r.newCtime st }) := by
    intro m a
    unfold setattrCtime newCtime
    by_cases hset : r.has FUSE_SET_ATTR_CTIME
    · have hor := hroot (h.ctime hset)
      unfold OwnerOrRoot at hor
      rw [if_pos hset, if_neg (by tauto), if_pos hset]
    · rw [if_neg hset, if_neg hset]
      rfl
  unfold setattrFields
  rcases setattrMode_cases r st with ⟨-, clearMode, heq⟩ | ⟨hno, -⟩
  swap
  · exact absurd h.mode hno
  simp only [heq]
  rcases setattrOwner_cases r { st with stMode := r.newMode st } with ⟨-, heq⟩ | ⟨hno, -⟩
  swap
  · exact absurd ⟨h.owner, h.group⟩ hno
  simp only [heq]
  simp only [assigned] at htimes hctime
  simp only [newStat, assigned, htimes, hctime]
  exact ⟨_, rfl⟩

/-- The assignments that were made when a request is refused change nothing exactly when none
that changes something comes before a check that fails. -/
theorem Refused.fields_eq_iff (h : r.Refused st) :
    (setattrFields r st).2 = st ↔ r.AllOrNothing st := by
  by_cases hfields : r.FieldsAllowed st
  · have hsize := h.resolve_left (not_not.mpr hfields)
    obtain ⟨clearMode, heq⟩ := setattrFields_of_allowed hfields
    rw [heq]
    constructor
    · intro hsame
      refine ⟨fun _ hno => absurd hfields hno, fun _ _ _ => ?_⟩
      have hmode := congrArg Stat.stMode hsame
      have huid := congrArg Stat.stUid hsame
      have hgid := congrArg Stat.stGid hsame
      have hctime := congrArg Stat.stCtime hsame
      refine ⟨fun hset => ?_, fun hset => ?_, fun hset => ?_, congrArg Stat.stMtime hsame,
        congrArg Stat.stAtime hsame, fun hset => ?_⟩
      · simpa only [newStat, assigned, newMode, hset, if_true] using hmode
      · simpa only [newStat, assigned, hset, if_true] using huid
      · simpa only [newStat, assigned, hset, if_true] using hgid
      · simpa only [newStat, newCtime, hset, if_true] using hctime
    · intro hall
      have hsame := hall.size hfields hsize.1 hsize.2
      have hmode : r.newMode st = st.stMode := by
        unfold newMode
        split
        · next hset => exact hsame.mode hset
        · rfl
      have hctime : r.newCtime st = st.stCtime := by
        unfold newCtime
        split
        · next hset => exact hsame.ctime hset
        · rfl
      simp only [newStat, assigned, hmode, hsame.mtime, hsame.atime, hctime]
      have huid : (if r.has FUSE_SET_ATTR_UID then r.attr.stUid else st.stUid) = st.stUid := by
        split
        · next hset => exact hsame.owner hset
        · rfl
      have hgid : (if r.has FUSE_SET_ATTR_GID then r.attr.stGid else st.stGid) = st.stGid := by
        split
        · next hset => exact hsame.group hset
        · rfl
      rw [huid, hgid]
  · by_cases hor : r.OwnerOrRoot st
    · rw [setattrFields_of_owner hor hfields]
      constructor
      · intro hsame
        refine ⟨fun _ _ hset => ?_, fun hno => absurd hno hfields⟩
        simpa only [newMode, hset, if_true] using congrArg Stat.stMode hsame
      · intro hall
        have hmode : r.newMode st = st.stMode := by
          unfold newMode
          split
          · next hset => exact hall.mode hor hfields hset
          · rfl
        rw [hmode]
    · rw [setattrFields_of_stranger hor]
      exact iff_of_true rfl ⟨fun h => absurd h hor, fun h => absurd h hfields⟩

/-- When the assignments of a stranger are allowed, none of them changes anything. -/
theorem newStat_of_stranger (h : ¬ r.OwnerOrRoot st) (hfields : r.FieldsAllowed st) :
    r.newStat st = st := by
  obtain ⟨clearMode, heq⟩ := setattrFields_of_allowed hfields
  have hsame := setattrFields_of_stranger h
  rwa [heq] at hsame

/-- A stranger whose request is not refused may resize the file if it asks for a size. -/
theorem mayResize_of_stranger (h : ¬ r.OwnerOrRoot st) (hno : ¬ r.Refused st)
    (hsize : r.has FUSE_SET_ATTR_SIZE) : r.MayResize st := by
  have hfields : r.FieldsAllowed st := by
    by_contra hnot
    exact hno (.inl hnot)
  have hallowed : r.SizeAllowed st := by
    by_contra hnot
    exact hno (.inr ⟨hsize, fun hall => hnot hall.1⟩)
  have hsame := newStat_of_stranger h hfields
  refine ⟨hsize, ?_⟩
  rcases hallowed with hroot | hallowed
  · exact absurd (.inl hroot) h
  · cases hfh : r.fh with
    | none =>
      right
      rw [hfh] at hallowed
      rw [access_W_OK]
      have hmode : (r.newStat st).stMode = st.stMode := congrArg Stat.stMode hsame
      have huid : (r.newStat st).stUid = st.stUid := congrArg Stat.stUid hsame
      have hgid : (r.newStat st).stGid = st.stGid := congrArg Stat.stGid hsame
      rw [show accessBits st W_OK r.uid r.gid = 0 from
        (accessBits_congr hmode huid hgid W_OK r.uid r.gid).symm.trans hallowed]
    | some fh =>
      rw [hfh] at hallowed
      exact .inl ⟨fh, rfl, hallowed⟩

end SetattrReq

/-! ## The behaviour on a regular inode -/

namespace File

variable {f f' : File} {r : SetattrReq} {e : Effect File FileTask Reply}

/-- The growing loop of `truncate` changes no attribute but the size. -/
theorem growLoop_st {newsize i : ℤ} (h : f.growLoop newsize i = .ok f') :
    f'.st = { f.st with stSize := f'.st.stSize } := by
  fun_induction growLoop f newsize i with
  | case1 => cases h
  | case2 f i hi blockId f₁ f₂ hov ih =>
    have hst : f₁.st = f.st := by
      simp only [f₁]
      split <;> rfl
    have h₂ : f₂.st = { f.st with stSize := f₂.st.stSize } := by
      rw [← hst]
    rw [ih h, h₂]
  | case3 f i hi => rw [← Except.ok.inj h]

/-- `truncate` changes no attribute but the size. -/
theorem truncate_st {newsize : ℤ} {tasks : List FileTask}
    (h : f.truncate newsize = .ok (f', tasks)) : f'.st = { f.st with stSize := f'.st.stSize } := by
  unfold truncate at h
  split_ifs at h
  · obtain ⟨rfl, -⟩ := Prod.mk.inj (Except.ok.inj h)
    rfl
  · obtain ⟨rfl, -⟩ := Prod.mk.inj (Except.ok.inj h)
    rfl
  · obtain ⟨rfl, -⟩ := Prod.mk.inj (Except.ok.inj h)
    rfl
  · obtain ⟨f₁, hgrow, h⟩ := bind_eq_ok.mp h
    obtain ⟨rfl, -⟩ := Prod.mk.inj (Except.ok.inj h)
    exact growLoop_st hgrow

/-- A refused request keeps the assignments that were made before the check that failed. -/
theorem setattr_of_refused (h : r.Refused f.st) : ∃ ret, f.setattr r =
    .ok ⟨{ f with inode.iSt := (setattrFields r f.st).2 }, [], [replyFail ret r.req]⟩ := by
  rcases setattrFields_cases r f.st with
    ⟨hfields, clearMode, mtime, atime, ctime, heq⟩ | ⟨-, ret, st', heq⟩
  · obtain ⟨hsize, hno⟩ := h.resolve_left (not_not.mpr hfields)
    rcases setattrSizeCheck_cases r f.st
      (show Stat.stMode { r.assigned f.st with stMtime := mtime, stAtime := atime, stCtime := ctime }
        = _ from rfl) rfl rfl with ⟨hyes, -⟩ | ⟨-, ret, hret, hcheck⟩
    · exact absurd hyes hno
    · rw [heq]
      exact ⟨ret, setattr_of_check_ne heq hsize hcheck hret⟩
  · rw [heq]
    exact ⟨ret, setattr_of_fields_error heq⟩

/-- A request that is not refused and asks for no size. -/
theorem setattr_of_no_size (hno : ¬ r.Refused f.st) (hsize : ¬ r.has FUSE_SET_ATTR_SIZE) :
    ∃ clearMode, f.setattr r =
      .ok ⟨{ f with inode.iSt := setattrFinish r clearMode (r.newStat f.st) }, [],
        [.attr r.req (setattrFinish r clearMode (r.newStat f.st))]⟩ := by
  have hfields : r.FieldsAllowed f.st := by
    by_contra hnot
    exact hno (.inl hnot)
  obtain ⟨clearMode, heq⟩ := SetattrReq.setattrFields_of_allowed hfields
  refine ⟨clearMode, ?_⟩
  unfold setattr
  rw [heq]
  exact if_neg hsize

/-- A request that is not refused and resizes the file. -/
theorem setattr_of_size (hno : ¬ r.Refused f.st) (hsize : r.has FUSE_SET_ATTR_SIZE)
    (he : f.setattr r = .ok e) : ∃ clearMode f₂ tasks,
    File.truncate { f with inode.iSt := r.newStat f.st } r.attr.stSize = .ok (f₂, tasks) ∧
      e = ⟨{ f₂ with inode.iSt := setattrFinish r clearMode { f₂.st with stMtime := r.now } },
        tasks, [.attr r.req (setattrFinish r clearMode { f₂.st with stMtime := r.now })]⟩ := by
  have hfields : r.FieldsAllowed f.st := by
    by_contra hnot
    exact hno (.inl hnot)
  obtain ⟨clearMode, heq⟩ := SetattrReq.setattrFields_of_allowed hfields
  have hcheck : ∀ ret, setattrSizeCheck r (r.newStat f.st) = .ok ret → ret = 0 := by
    intro ret hret
    rcases setattrSizeCheck_cases r f.st (show (r.newStat f.st).stMode = _ from rfl) rfl rfl with
      ⟨-, hcheck⟩ | ⟨hnot, -⟩
    · rw [hcheck] at hret
      split at hret
      · exact (Except.ok.inj hret).symm
      · cases hret
    · exact absurd (.inr ⟨hsize, hnot⟩) hno
  unfold setattr at he
  rw [heq] at he
  simp only [hsize, if_true] at he
  obtain ⟨ret, hret, he⟩ := bind_eq_ok.mp he
  rw [if_neg (not_not.mpr (hcheck ret hret))] at he
  obtain ⟨⟨f₂, tasks⟩, htrunc, he⟩ := bind_eq_ok.mp he
  exact ⟨clearMode, f₂, tasks, htrunc, (Except.ok.inj he).symm⟩

end File

end VeronaFs
