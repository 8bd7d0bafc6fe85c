import VeronaFs.Namespace.Answered

/-!
# The sticky bit in rename

Only root, the owner of a sticky directory and the owner of the inode may rename or replace an entry
of the directory.  `rename` writes this rule out for each kind of source and target.  The exits on the
source have no reply, a directory that stays in its parent is tested for its own sticky bit, and the
check on a target that is a directory reads the owner of a placeholder.  `rename_sticky_iff` says
exactly when a `rename` that passes its write checks still follows the rule.
-/

namespace VeronaFs

open Boc Foundation

/-! ## The rule -/

instance (it : Iter) : Decidable it.IsDir := inferInstanceAs (Decidable (_ ∨ _))

/-- The attributes of the inode that an entry names. -/
def FsState.statOf (s : FsState) (it : Iter) : Option Stat :=
  if it.IsDir then s.dirs[it.entry.ino]?.map DirInode.iSt else s.regs[it.entry.ino]?.map File.st

/-- The owner of the inode that an entry names. -/
def FsState.ownerOf (s : FsState) (it : Iter) : Option ℕ := (s.statOf it).map Stat.stUid

/-- The directory is sticky and belongs to another user. -/
def RenameReq.Restricted (r : RenameReq) (d : DirInode) : Prop :=
  d.iSt.isSticky = true ∧ d.iSt.stUid ≠ r.uid

/-- The rule: a parent is restricted and the requester does not own the inode of its entry.  `st` are
the attributes of the source. -/
def RenameReq.Forbidden (r : RenameReq) (s : FsState) (p np : DirInode) (st : Stat) : Prop :=
  (r.Restricted p ∧ st.stUid ≠ r.uid) ∨
    ∃ dupl, np.find r.newname = some dupl ∧ r.Restricted np ∧ s.ownerOf dupl ≠ some r.uid

/-- The request fails with `EPERM`, and no entry of any directory changes. -/
def RenameReq.NotPermitted (r : RenameReq) (s : FsState) (c : FsConfig) : Prop :=
  c.replies = [.err r.req EPERM] ∧ ∀ ino name, c.state.entryAt ino name = s.entryAt ino name

/-- The request passes the write checks on the parents and on a source that is a directory. -/
structure RenameReq.PassesWrites (r : RenameReq) (s : FsState) (p np : DirInode) (old : Iter)
    (st : Stat) : Prop extends r.Reaches s p np old where
  /-- The source. -/
  source : s.statOf old = some st
  /-- The permission on the source. -/
  canWriteSource : ¬ r.SourceDenied st

/-! ## What the code checks -/

/-- The owner that the checks on the target read: that of the regular inode in the table, else that
of the placeholder. -/
def FsState.checkedOwner (s : FsState) (dupl : Iter) : ℕ :=
  ((s.regTable[dupl.entry.ino]?.bind fun i => s.regs[i]?).map fun f => f.st.stUid).getD FAKE_UID

/-- The last behaviour runs and finds the target in a table. -/
structure RenameReq.Checked (r : RenameReq) (s : FsState) (p np : DirInode) (old dupl : Iter) :
    Prop where
  /-- The old directory is not a parent. -/
  ne : old.IsDir → old.entry.ino ≠ r.parent ∧ old.entry.ino ≠ r.newparent
  /-- The cowns of the last behaviour are distinct. -/
  distinct : r.DistinctInodes s old.entry.ino dupl.entry.ino
  /-- The inodes in the tables exist. -/
  exist : ¬ (s.replaced r old dupl p np).Missing s
  /-- A table has the target. -/
  listed : s.regTable[dupl.entry.ino]?.isSome ∨ s.dirTable[dupl.entry.ino]?.isSome

/-- The checks on the target fail with `EPERM`. -/
def RenameReq.TargetDenied (r : RenameReq) (s : FsState) (p np : DirInode) (old : Iter) : Prop :=
  ∃ dupl, np.find r.newname = some dupl ∧ r.Checked s p np old dupl ∧ r.Restricted np ∧
    s.checkedOwner dupl ≠ r.uid

/-- The condition under which `rename` follows the rule.

A directory that stays in its parent: when the parent is restricted, the directory is not sticky or
belongs to the requester, and the requester misses the ownership of the source or of the target
exactly when the checks on the target miss it.

Any other source: the requester owns it if its parent is restricted, and if the new parent is
restricted the checks on the target read the right answer. -/
def RenameReq.StickyKept (r : RenameReq) (s : FsState) (p np : DirInode) (old : Iter) (st : Stat) :
    Prop :=
  if old.IsDir ∧ r.parent = r.newparent then
    r.Restricted p → (st.isSticky = true → st.stUid = r.uid) ∧
      ((st.stUid ≠ r.uid ∨
          ∃ dupl, np.find r.newname = some dupl ∧ s.ownerOf dupl ≠ some r.uid) ↔
        ∃ dupl, np.find r.newname = some dupl ∧ r.Checked s p np old dupl ∧
          s.checkedOwner dupl ≠ r.uid)
  else
    (r.Restricted p → st.stUid = r.uid) ∧
      (r.Restricted np → ∀ dupl, np.find r.newname = some dupl →
        (s.ownerOf dupl ≠ some r.uid ↔
          r.Checked s p np old dupl ∧ s.checkedOwner dupl ≠ r.uid))

variable {s : FsState} {r : RenameReq} {p np : DirInode} {old : Iter} {st : Stat} {c : FsConfig}

/-- The test of the sticky bit for a requester other than root. -/
theorem RenameReq.stickyDenied_iff (huid : r.uid ≠ 0) (d : DirInode) (uid : ℕ) :
    r.stickyDenied d.iSt uid d.iSt.stUid = true ↔ r.Restricted d ∧ uid ≠ r.uid := by
  simp only [stickyDenied, notOwner, Restricted, Bool.decide_and, Bool.decide_eq_true,
    Bool.and_eq_true, decide_eq_true_eq]
  constructor
  · rintro ⟨hsticky, -, hne, hne'⟩
    exact ⟨⟨hsticky, Ne.symm hne'⟩, Ne.symm hne⟩
  · rintro ⟨⟨hsticky, hne'⟩, hne⟩
    exact ⟨hsticky, huid, Ne.symm hne, Ne.symm hne'⟩

/-- The attributes of a source that is a directory. -/
theorem FsState.statOf_dir (hdir : old.IsDir) :
    s.statOf old = some st ↔ ∃ d, s.dirs[old.entry.ino]? = some d ∧ d.iSt = st := by
  rw [statOf, if_pos hdir, Option.map_eq_some_iff]

/-- The attributes of a source that is a regular inode. -/
theorem FsState.statOf_reg (hdir : ¬ old.IsDir) :
    s.statOf old = some st ↔ ∃ f, s.regs[old.entry.ino]? = some f ∧ f.st = st := by
  rw [statOf, if_neg hdir, Option.map_eq_some_iff]

/-- The checks on the source after the write checks: the sticky bit of the parent, or that of the
source itself when a directory stays in its parent. -/
theorem RenameReq.PassesWrites.silent_iff (h : r.PassesWrites s p np old st) (huid : r.uid ≠ 0) :
    r.SilentSource s p old ↔ if old.IsDir ∧ r.parent = r.newparent then
      st.isSticky = true ∧ st.stUid ≠ r.uid else r.Restricted p ∧ st.stUid ≠ r.uid := by
  have hden := h.canWriteSource
  by_cases hdir : old.IsDir
  · obtain ⟨d, hd, rfl⟩ := (FsState.statOf_dir hdir).mp h.source
    have hsilent : r.SilentSource s p old ↔ r.DirSticky d p := by
      unfold SilentSource
      constructor
      · rintro (⟨-, d', hd', ⟨hden', -⟩ | ⟨-, hsticky⟩⟩ | ⟨hreg, -⟩)
        · obtain rfl := Option.some.inj (hd.symm.trans hd')
          exact absurd hden' hden
        · obtain rfl := Option.some.inj (hd.symm.trans hd')
          exact hsticky
        · exact absurd hdir hreg
      · exact fun hsticky => .inl ⟨hdir, d, hd, .inr ⟨hden, hsticky⟩⟩
    rw [hsilent, DirSticky]
    by_cases hsame : r.parent = r.newparent
    · rw [if_pos hsame, if_pos ⟨hdir, hsame⟩, r.stickyDenied_iff huid, Restricted]
      tauto
    · rw [if_neg hsame, if_neg fun hboth => hsame hboth.2, r.stickyDenied_iff huid]
  · obtain ⟨f, hf, rfl⟩ := (FsState.statOf_reg hdir).mp h.source
    have hsilent : r.SilentSource s p old ↔
        r.stickyDenied p.iSt f.st.stUid p.iSt.stUid = true := by
      unfold SilentSource
      constructor
      · rintro (⟨hdir', -⟩ | ⟨-, f', hf', hden' | hsticky⟩)
        · exact absurd hdir' hdir
        · obtain rfl := Option.some.inj (hf.symm.trans hf')
          exact absurd hden' hden
        · obtain rfl := Option.some.inj (hf.symm.trans hf')
          exact hsticky
      · exact fun hsticky => .inr ⟨hdir, f, hf, .inr hsticky⟩
    rw [hsilent, if_neg fun hboth => hdir hboth.1, r.stickyDenied_iff huid]

/-- The checks of the last behaviour fail with `EPERM` exactly when a target was found and the sticky
bit keeps the requester from it. -/
theorem replaceCheck_eperm_iff {duplReg : Option File} {oldDir duplDir : Option DirInode} :
    FsState.replaceCheck r np duplReg oldDir duplDir = some [.err r.req EPERM] ↔
      (duplReg.isSome ∨ duplDir.isSome) ∧ r.stickyDenied np.iSt
        ((duplReg.map fun f => f.st.stUid).getD FAKE_UID) np.iSt.stUid = true := by
  have hother : ∀ {errno : ℤ}, errno ≠ EPERM → (some [Reply.err r.req errno] : Option (List Reply)) ≠
      some [.err r.req EPERM] := by
    intro errno hne heq
    simp [hne] at heq
  unfold FsState.replaceCheck
  simp only
  split
  · next hreg => exact iff_of_true rfl ⟨.inl hreg.1, hreg.2⟩
  · next hreg =>
    split
    · next hdir => exact iff_of_true rfl ⟨.inr hdir.1, hdir.2⟩
    · next hdir =>
      refine iff_of_false ?_ fun h => h.1.elim (fun h1 => hreg ⟨h1, h.2⟩) fun h1 => hdir ⟨h1, h.2⟩
      split
      · split
        · split
          · exact hother (by decide)
          · simp
        · exact hother (by decide)
      · split <;> simp

/-! ## The answer -/

/-- What the last behaviour reads of the target. -/
theorem FsState.ReplaceReads.target {dupl : Iter} {duplReg : Option File}
    {oldDir duplDir : Option DirInode} (hhas : np.Has dupl)
    (h : s.ReplaceReads r (s.replaced r old dupl p np) p np duplReg oldDir duplDir) :
    ((duplReg.isSome ∨ duplDir.isSome) ↔
        (s.regTable[dupl.entry.ino]?.isSome ∨ s.dirTable[dupl.entry.ino]?.isSome)) ∧
      (duplReg.map fun f => f.st.stUid).getD FAKE_UID = s.checkedOwner dupl := by
  have hreg : s.getReg? s.regTable[dupl.entry.ino]? = .ok duplReg := by
    have hread := h.duplReg
    rwa [FsState.replaced, DirInode.deref_of_has hhas] at hread
  have hdir : s.getDir? s.dirTable[dupl.entry.ino]? = .ok duplDir := by
    have hread := h.duplDir
    rwa [FsState.replaced, DirInode.deref_of_has hhas] at hread
  have hsome : duplDir.isSome = s.dirTable[dupl.entry.ino]?.isSome := by
    rcases FsState.getDir?_eq_ok.mp hdir with ⟨hi, rfl⟩ | ⟨i, d, hi, rfl, -⟩ <;> simp [hi]
  unfold checkedOwner
  rcases FsState.getReg?_eq_ok.mp hreg with ⟨hi, rfl⟩ | ⟨i, f, hi, rfl, hf⟩
  · simp [hi, hsome]
  · simp [hi, hf]

/-- A `rename` that passes the write checks fails with `EPERM` exactly when the checks on the source
pass and those on the target fail. -/
theorem rename_notPermitted_iff (h : r.PassesWrites s p np old st) (huid : r.uid ≠ 0)
    (hserve : server.Serves s (.rename r) c) :
    r.NotPermitted s c ↔ ¬ r.SilentSource s p old ∧ r.TargetDenied s p np old := by
  have hreach := h.toReaches
  have hno : ∀ {c : FsConfig}, c.replies ≠ [.err r.req EPERM] → ¬ r.NotPermitted s c :=
    fun hne hnot => hne hnot.1
  have hpasses : ¬ r.SilentSource s p old → r.PassesSource s p old := by
    intro hsilent
    by_cases hdir : old.IsDir
    · obtain ⟨d, hd, rfl⟩ := (FsState.statOf_dir hdir).mp h.source
      exact .inl ⟨hdir, d, hd, h.canWriteSource, fun hsticky =>
        hsilent (.inl ⟨hdir, d, hd, .inr ⟨h.canWriteSource, hsticky⟩⟩)⟩
    · obtain ⟨f, hf, rfl⟩ := (FsState.statOf_reg hdir).mp h.source
      exact .inr ⟨hdir, f, hf, h.canWriteSource, fun hsticky =>
        hsilent (.inr ⟨hdir, f, hf, .inr hsticky⟩)⟩
  have hloud : r.PassesSource s p old → ¬ r.SilentSource s p old := by
    rintro (⟨hdir, d, hd, hden, hsticky⟩ | ⟨hdir, f, hf, hden, hsticky⟩)
      (⟨hdir', d', hd', hexit⟩ | ⟨hdir', f', hf', hexit⟩)
    · obtain rfl := Option.some.inj (hd.symm.trans hd')
      exact hexit.elim (fun h => hden h.1) fun h => hsticky h.2
    · exact hdir' hdir
    · exact hdir hdir'
    · obtain rfl := Option.some.inj (hf.symm.trans hf')
      exact hexit.elim hden hsticky
  have htarget : ∀ {dupl}, np.find r.newname = some dupl → r.TargetDenied s p np old →
      r.Checked s p np old dupl ∧ r.Restricted np ∧ s.checkedOwner dupl ≠ r.uid := by
    rintro dupl hfind ⟨dupl', hfind', hdenied⟩
    obtain rfl := Option.some.inj (hfind.symm.trans hfind')
    exact hdenied
  cases rename_end hserve with
  | longName hlong => exact absurd hreach.short (by omega)
  | badParent hshort hbad =>
    rw [hreach.parent, hreach.newparent] at hbad
    simp at hbad
  | refused hshort hstep =>
    generalize he : (⟨s, [], _⟩ : FsEffect) = e at hstep
    cases hstep with
    | noEntry hp hnp hfind =>
      obtain rfl := Option.some.inj (hreach.parent.symm.trans hp)
      rw [hreach.find] at hfind
      cases hfind
    | denied hp hnp hfind hacc =>
      obtain rfl := Option.some.inj (hreach.parent.symm.trans hp)
      obtain rfl := Option.some.inj (hreach.newparent.symm.trans hnp)
      exact absurd ⟨hreach.canWrite, hreach.canWriteNew⟩ hacc
    | dir => cases (Effect.mk.inj he).2.1
    | reg => cases (Effect.mk.inj he).2.1
  | badSource hreach' hbad =>
    obtain ⟨rfl, rfl, rfl⟩ := hreach.unique hreach'
    refine iff_of_false (hno (by simp)) ?_
    rintro ⟨-, dupl, -, hchecked, -⟩
    rcases hbad with ⟨hdir, hnone | heq⟩ | ⟨hdir, hnone⟩
    · obtain ⟨d, hd, -⟩ := (FsState.statOf_dir hdir).mp h.source
      rw [hnone] at hd
      cases hd
    · exact heq.elim (hchecked.ne hdir).1 (hchecked.ne hdir).2
    · obtain ⟨f, hf, -⟩ := (FsState.statOf_reg hdir).mp h.source
      rw [hnone] at hf
      cases hf
  | done hreach' hstep =>
    obtain ⟨rfl, rfl, rfl⟩ := hreach.unique hreach'
    rcases hstep.cases_full hreach with ⟨hup, hreplace⟩ | ⟨hsilent, he⟩ |
      ⟨hbad, hsilent, hpass, he⟩
    · cases hfind : np.find r.newname with
      | none =>
        obtain ⟨rfl, -, rfl⟩ := Effect.mk.inj (hreplace.eq_of_free hreach hfind)
        refine iff_of_false (hno (by simp [EPERM])) ?_
        rintro ⟨-, dupl, hfind', -⟩
        rw [hfind] at hfind'
        cases hfind'
      | some dupl => cases (Effect.mk.inj (hreplace.eq_of_target hreach hfind)).2.1
    · obtain ⟨-, -, rfl⟩ := Effect.mk.inj he
      exact iff_of_false (hno (by simp)) fun hdenied => hdenied.1 hsilent
    · exact absurd (hpasses hsilent) hpass
  | hang hreach' hstep hdup =>
    obtain ⟨rfl, rfl, rfl⟩ := hreach.unique hreach'
    obtain ⟨hup, hfind⟩ := hstep.target hreach
    refine iff_of_false (hno (by simp)) fun hdenied => hdup ?_
    exact (nodup_replaceInodes_of_has (DirInode.find_eq_some.mp hreach.find).2
      (DirInode.find_eq_some.mp hfind).2).mpr (htarget hfind hdenied.2).1.distinct
  | missing hreach' hstep hnodup hbad =>
    obtain ⟨rfl, rfl, rfl⟩ := hreach.unique hreach'
    obtain ⟨hup, hfind⟩ := hstep.target hreach
    exact iff_of_false (hno (by simp)) fun hdenied => (htarget hfind hdenied.2).1.exist hbad
  | @replaced _ _ _ dupl e hreach' hstep hnodup hlast =>
    obtain ⟨rfl, rfl, rfl⟩ := hreach.unique hreach'
    obtain ⟨hup, hfind⟩ := hstep.target hreach
    have hhas := (DirInode.find_eq_some.mp hfind).2
    have hdistinct :=
      (nodup_replaceInodes_of_has (DirInode.find_eq_some.mp hreach.find).2 hhas).mp hnodup
    -- the checks of the last behaviour are those on the target
    have hcheck : ∀ {p' np' duplReg oldDir duplDir},
        s.ReplaceReads r (s.replaced r old dupl p np) p' np' duplReg oldDir duplDir →
        (FsState.replaceCheck r np' duplReg oldDir duplDir = some [.err r.req EPERM] ↔
          ¬ r.SilentSource s p old ∧ r.TargetDenied s p np old) := by
      intro p' np' duplReg oldDir duplDir hreads
      obtain rfl := Option.some.inj (hreach.parent.symm.trans hreads.parent)
      obtain rfl := Option.some.inj (hreach.newparent.symm.trans hreads.newparent)
      obtain ⟨hlisted, howner⟩ := hreads.target hhas
      rw [replaceCheck_eperm_iff, howner, hlisted, r.stickyDenied_iff huid]
      constructor
      · rintro ⟨hlisted, hdenied⟩
        exact ⟨hloud hup.passes, dupl, hfind, ⟨hup.ne, hdistinct, hreads.not_missing, hlisted⟩,
          hdenied⟩
      · rintro ⟨-, hdenied⟩
        obtain ⟨hchecked, hdenied⟩ := htarget hfind hdenied
        exact ⟨hchecked.listed, hdenied⟩
    cases hlast with
    | refused hreads hrs =>
      rw [← hcheck hreads, hrs, Option.some.injEq]
      exact ⟨fun hnot => hnot.1, fun heq => ⟨heq, fun _ _ => rfl⟩⟩
    | one hsame hreads hpass =>
      rw [← hcheck hreads, hpass]
      exact iff_of_false (hno (by simp [EPERM])) (by simp)
    | two hne hreads hpass =>
      rw [← hcheck hreads, hpass]
      exact iff_of_false (hno (by simp [EPERM])) (by simp)

/-- For every `rename` by a requester other than root that passes the write checks: it fails with
`EPERM` and changes no entry exactly when the sticky rule forbids it, if and only if the checks on the
source and on the target read the parent and the owners that the rule names. -/
theorem rename_sticky_iff (h : r.PassesWrites s p np old st) (huid : r.uid ≠ 0)
    (hserve : server.Serves s (.rename r) c) :
    (r.NotPermitted s c ↔ r.Forbidden s p np st) ↔ r.StickyKept s p np old st := by
  rw [rename_notPermitted_iff h huid hserve, h.silent_iff huid, RenameReq.StickyKept]
  unfold RenameReq.Forbidden RenameReq.TargetDenied
  by_cases hdir : old.IsDir ∧ r.parent = r.newparent
  · obtain rfl : p = np := by
      have hp := h.parent
      rw [hdir.2, h.newparent] at hp
      exact (Option.some.inj hp).symm
    rw [if_pos hdir, if_pos hdir]
    by_cases hres : r.Restricted p
    · simp only [hres, true_and, forall_const]
      by_cases hown : st.isSticky = true ∧ st.stUid ≠ r.uid
      · -- the exit on the source, although the rule forbids the rename
        refine iff_of_false (fun hiff => ?_) fun hkept => hown.2 (hkept.1 hown.1)
        exact (hiff.mpr (.inl hown.2)).1 hown
      · have himp : st.isSticky = true → st.stUid = r.uid := by
          intro hsticky
          by_contra hne
          exact hown ⟨hsticky, hne⟩
        simp only [hown, not_false_eq_true, true_and]
        exact ⟨fun hiff => ⟨himp, hiff.symm⟩, fun hkept => hkept.2.symm⟩
    · simp [hres]
  · rw [if_neg hdir, if_neg hdir]
    by_cases hsource : r.Restricted p ∧ st.stUid ≠ r.uid
    · refine iff_of_false (fun hiff => ?_) fun hkept => hsource.2 (hkept.1 hsource.1)
      exact (hiff.mpr (.inl hsource)).1 hsource
    · have himp : r.Restricted p → st.stUid = r.uid := by
        intro hres
        by_contra hne
        exact hsource ⟨hres, hne⟩
      simp only [hsource, not_false_eq_true, true_and, false_or]
      by_cases hres : r.Restricted np
      · simp only [hres, true_and, forall_const]
        constructor
        · refine fun hiff => ⟨himp, fun dupl hfind => ⟨fun hne => ?_, fun hchecked => ?_⟩⟩
          · obtain ⟨dupl', hfind', hchecked⟩ := hiff.mpr ⟨dupl, hfind, hne⟩
            obtain rfl := Option.some.inj (hfind.symm.trans hfind')
            exact hchecked
          · obtain ⟨dupl', hfind', hne⟩ := hiff.mp ⟨dupl, hfind, hchecked⟩
            obtain rfl := Option.some.inj (hfind.symm.trans hfind')
            exact hne
        · rintro ⟨-, hkept⟩
          constructor
          · rintro ⟨dupl, hfind, hchecked⟩
            exact ⟨dupl, hfind, (hkept dupl hfind).mpr hchecked⟩
          · rintro ⟨dupl, hfind, hne⟩
            exact ⟨dupl, hfind, (hkept dupl hfind).mp hne⟩
      · simpa [hres] using himp

/-! ## A directory that leaves its name in a sticky directory -/

/-- Root makes the directory `t`, which everyone may write and which is sticky. -/
def mkdirT : MakeReq := { mkdirA with name := [116], mode := 0o1777 }

/-- Root makes the directory `a` in `t`. -/
def mkdirTA : MakeReq :=
  { mkdirA with req := 2, parent := 2, mode := 0o777, addr := 6, this := 7, node := 8 }

/-- The user 1000 renames `a` in `t` to `b`. -/
def renameTA : RenameReq := { renameAA with
  req := 3, parent := 2, newparent := 2, newname := [98], uid := 1000, gid := 1000 }

/-- The file system after `mkdirT`. -/
def fsT : FsState := rootFs.madeDir mkdirT rootDir

/-- The directory `t` after `mkdirTA`. -/
def dirTA : DirInode := ((mkdirT.addedDir.insert [97] ⟨6, 8⟩).touch 0).addLinks 1

/-- The file system after `mkdirT` and `mkdirTA`. -/
def fsTA : FsState := fsT.madeDir mkdirTA mkdirT.addedDir

/-- The directories of `fsT`. -/
theorem fsT_dirs : fsT.dirs[2]? = some mkdirT.addedDir ∧ fsT.dirs[6]? = none := by
  constructor
  · rw [fsT, FsState.dirs_madeDir]
    rfl
  · rw [fsT, FsState.dirs_madeDir]
    simp [mkdirT, mkdirA, rootFs, FsState.init, FUSE_ROOT_ID]

/-- The directories of `fsTA`. -/
theorem fsTA_dirs : fsTA.dirs[2]? = some dirTA ∧ fsTA.dirs[6]? = some mkdirTA.addedDir := by
  constructor
  · rw [fsTA, FsState.dirs_madeDir]
    rfl
  · rw [fsTA, FsState.dirs_madeDir]
    rfl

/-- The requests that lead to `fsTA` are served one at a time. -/
theorem serial_fsTA : server.Serial (fun _ _ => True) rootFs
    [(.mkdir mkdirT, [.entry 1 (MakeReq.entryParam mkdirT.dirStat)]),
      (.mkdir mkdirTA, [.entry 2 (MakeReq.entryParam mkdirTA.dirStat)])] fsTA := by
  have hT : server.Serves rootFs (.mkdir mkdirT)
      ⟨fsT, [], [.entry 1 (MakeReq.entryParam mkdirT.dirStat)]⟩ := by
    refine serves_mkdir ?_ (by decide) rootFs_dirs ?_ (by decide)
    · simp [rootFs, FsState.init, FUSE_ROOT_ID, mkdirT, mkdirA]
    · simp [DirInode.find, rootDir]
  have hTA : server.Serves fsT (.mkdir mkdirTA)
      ⟨fsTA, [], [.entry 2 (MakeReq.entryParam mkdirTA.dirStat)]⟩ := by
    refine serves_mkdir fsT_dirs.2 (by decide) fsT_dirs.1 ?_ (by decide)
    simp [DirInode.find, MakeReq.addedDir, MakeReq.newDir, mkdirT, mkdirA]
  exact (System.Serial.nil.snoc trivial hT).snoc trivial hTA

/-- `renameTA` passes the write checks. -/
theorem renameTA_passes :
    renameTA.PassesWrites fsTA dirTA dirTA ⟨[97], ⟨6, 8⟩⟩ mkdirTA.addedDir.iSt where
  short := by decide
  parent := fsTA_dirs.1
  newparent := fsTA_dirs.1
  find := by
    simp [DirInode.find, dirTA, MakeReq.addedDir, MakeReq.newDir, mkdirT, mkdirA, renameTA, renameAA]
  canWrite := by decide
  canWriteNew := by decide
  source := (FsState.statOf_dir (.inr rfl)).mpr ⟨_, fsTA_dirs.2, rfl⟩
  canWriteSource := by decide

/-- The user 1000 renames a directory of root in a sticky directory of root, and the reply says
success. -/
theorem renameTA_forbidden_done :
    server.Serial (fun _ _ => True) rootFs
        [(.mkdir mkdirT, [.entry 1 (MakeReq.entryParam mkdirT.dirStat)]),
          (.mkdir mkdirTA, [.entry 2 (MakeReq.entryParam mkdirTA.dirStat)])] fsTA ∧
      renameTA.PassesWrites fsTA dirTA dirTA ⟨[97], ⟨6, 8⟩⟩ mkdirTA.addedDir.iSt ∧
      renameTA.Forbidden fsTA dirTA dirTA mkdirTA.addedDir.iSt ∧
      ∃ c, server.Serves fsTA (.rename renameTA) c ∧ c.replies = [.err 3 0] ∧
        ¬ renameTA.NotPermitted fsTA c := by
  refine ⟨serial_fsTA, renameTA_passes, .inl ⟨⟨by decide, by decide⟩, by decide⟩, ?_⟩
  have hmoves : renameTA.Moves fsTA dirTA dirTA ⟨[97], ⟨6, 8⟩⟩ := by
    refine ⟨⟨renameTA_passes.toReaches, .inl ⟨.inr rfl, _, fsTA_dirs.2, by decide, ?_⟩,
      fun _ => by decide⟩, ?_⟩
    · unfold RenameReq.DirSticky
      decide
    · simp [DirInode.find, dirTA, MakeReq.addedDir, MakeReq.newDir, mkdirT, mkdirA, renameTA,
        renameAA]
  obtain ⟨c, hc⟩ := exists_serves fsTA (.rename renameTA)
  refine ⟨c, hc, ?_⟩
  rw [hmoves.end_eq hc]
  refine ⟨rfl, fun hnot => ?_⟩
  have hreply : [Reply.err 3 0] = [Reply.err 3 EPERM] := hnot.1
  simp [EPERM] at hreply

/-- The condition decides about `renameTA`. -/
theorem rename_sticky_iff_renameTA : ∃ c, server.Serves fsTA (.rename renameTA) c ∧
    ((renameTA.NotPermitted fsTA c ↔ renameTA.Forbidden fsTA dirTA dirTA mkdirTA.addedDir.iSt) ↔
      renameTA.StickyKept fsTA dirTA dirTA ⟨[97], ⟨6, 8⟩⟩ mkdirTA.addedDir.iSt) := by
  obtain ⟨c, hc⟩ := exists_serves fsTA (.rename renameTA)
  exact ⟨c, hc, rename_sticky_iff renameTA_passes (by decide) hc⟩

end VeronaFs
