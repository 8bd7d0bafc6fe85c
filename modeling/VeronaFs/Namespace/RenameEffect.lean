import VeronaFs.Namespace.DistinctCowns

/-!
# What rename does to the entries

The execution of a `rename` request alone leaves the state, or it moves the entry to a free name, or
it replaces the target (`rename_outcome`).  `rename_moved_iff` says exactly when the entries are
those that the request asked for: the old number is read through a node that was erased before, and
with two parents the entry is inserted under its old name.
-/

namespace VeronaFs

open Boc Foundation

/-! ## Inode numbers of entries -/

/-- The inode number that a directory has under a name. -/
def FsState.inoAt (s : FsState) (ino : ℕ) (name : Name) : Option ℕ :=
  (s.entryAt ino name).map Dentry.ino

/-- Equal entries have equal numbers. -/
theorem FsState.inoAt_congr {s s' : FsState} {ino : ℕ} {name : Name}
    (h : s'.entryAt ino name = s.entryAt ino name) : s'.inoAt ino name = s.inoAt ino name := by
  rw [inoAt, h, inoAt]

/-- The number that the directory has under a name that was found. -/
theorem FsState.inoAt_of_find {s : FsState} {ino : ℕ} {d : DirInode} {name : Name} {it : Iter}
    (hd : s.dirs[ino]? = some d) (hfind : d.find name = some it) :
    s.inoAt ino name = some it.entry.ino := by
  obtain ⟨rfl, hhas⟩ := DirInode.find_eq_some.mp hfind
  rw [inoAt, entryAt_of_some hd, hhas]
  rfl

/-- The requested change of a rename: the new name has the number that the old name had, the old
name is gone when it is not the new one, and every other entry of every directory is unchanged. -/
structure RenameReq.Moved (r : RenameReq) (s s' : FsState) : Prop where
  /-- The new name has the old number. -/
  new : s'.inoAt r.newparent r.newname = s.inoAt r.parent r.oldname
  /-- The old name is gone. -/
  old : (r.parent, r.oldname) ≠ (r.newparent, r.newname) → s'.inoAt r.parent r.oldname = none
  /-- Other entries are unchanged. -/
  other : ∀ ino name, (ino, name) ≠ (r.parent, r.oldname) → (ino, name) ≠ (r.newparent, r.newname) →
    s'.inoAt ino name = s.inoAt ino name

/-! ## The updates -/

/-- The node of an entry that was erased is not in the map. -/
theorem DirInode.not_has_erase (d : DirInode) (it : Iter) : ¬ (d.erase it.name).Has it := by
  simp [Has]

/-- The entry that `rename` inserts. -/
def RenameReq.newEntry (r : RenameReq) (old : Iter) : Dentry :=
  ⟨(r.freed .insertIno old).2, r.node⟩

/-- The entries after a move with a single parent. -/
theorem moveOne_eq {r : RenameReq} {old : Iter} {p : DirInode} (h : p.Has old) :
    FsState.moveOne r old p = (p.erase old.name).insert r.newname (r.newEntry old) := by
  rw [FsState.moveOne, DirInode.deref_of_has h]
  simp only [Iter.contents]
  rw [DirInode.deref_of_not_has (p.not_has_erase old)]
  rfl

/-- The entries after a move with two parents. -/
theorem dentries_moveTwo {r : RenameReq} {old : Iter} {p : DirInode} (h : p.Has old)
    (np : DirInode) :
    (FsState.moveTwo r old p np).1.dentries = (p.erase old.name).dentries ∧
      (FsState.moveTwo r old p np).2.dentries = (np.insert r.newname (r.newEntry old)).dentries := by
  rw [FsState.moveTwo]
  simp only [DirInode.deref_of_has h, Iter.contents,
    DirInode.deref_of_not_has (p.not_has_erase old)]
  split <;> exact ⟨rfl, rfl⟩

/-- The entries after a replacement with two parents. -/
theorem dentries_replaceInodesTwo {r : RenameReq} {old dupl : Iter} {p np : DirInode} (h : p.Has old)
    (hdupl : np.Has dupl) (dirs : Bool) :
    (FsState.replaceInodesTwo r old dupl dirs p np).1.dentries = (p.erase old.name).dentries ∧
      (FsState.replaceInodesTwo r old dupl dirs p np).2.dentries =
        ((np.erase dupl.name).insert (r.freed .insertName old).1 (r.newEntry old)).dentries := by
  have hp : DirInode.Has { p with iSt.stCtime := r.now } old := h
  rw [FsState.replaceInodesTwo]
  simp only [DirInode.deref_of_has hp, DirInode.deref_of_has hdupl, Iter.contents,
    DirInode.deref_of_not_has (DirInode.not_has_erase _ old)]
  split <;> exact ⟨rfl, rfl⟩

/-- The name that `rename` erases for an existing target with a single parent: it is read through a
node that was erased before when the target is the old entry itself. -/
def RenameReq.erasedName (r : RenameReq) (old dupl : Iter) : Name :=
  if old.name = dupl.name then (r.freed .eraseDupl dupl).1 else dupl.name

/-- The entries after a replacement with a single parent. -/
theorem dentries_replaceInodesOne {r : RenameReq} {old dupl : Iter} {p : DirInode} (h : p.Has old)
    (hdupl : p.Has dupl) (dirs : Bool) :
    (FsState.replaceInodesOne r old dupl dirs p).dentries =
      (((p.erase old.name).erase (r.erasedName old dupl)).insert (r.freed .insertName dupl).1
        (r.newEntry old)).dentries := by
  have hp : DirInode.Has { p with iSt.stCtime := r.now } old := h
  have hname : (DirInode.deref (DirInode.erase { p with iSt.stCtime := r.now } old.name)
      (r.freed .eraseDupl) dupl).1 = r.erasedName old dupl := by
    unfold RenameReq.erasedName
    split
    · next heq =>
      rw [DirInode.deref_of_not_has]
      simp [DirInode.Has, heq]
    · next hne =>
      rw [DirInode.deref_of_has]
      · rfl
      · simpa [DirInode.Has, hne] using hdupl
  have hgone : ¬ DirInode.Has (DirInode.erase (DirInode.erase { p with iSt.stCtime := r.now } old.name)
      (r.erasedName old dupl)) dupl := by
    unfold RenameReq.erasedName
    split
    · next heq => simp [DirInode.Has, heq]
    · exact DirInode.not_has_erase _ dupl
  have hold : ¬ DirInode.Has (DirInode.erase (DirInode.erase { p with iSt.stCtime := r.now } old.name)
      (r.erasedName old dupl)) old := by
    simp [DirInode.Has]
  rw [FsState.replaceInodesOne]
  simp only [DirInode.deref_of_has hp, Iter.contents, hname, DirInode.deref_of_not_has hgone,
    DirInode.deref_of_not_has hold]
  split <;> rfl

/-! ## The way to the updates -/

/-- The request gets past the checks on the parents and on the old inode. -/
structure RenameReq.Updates (r : RenameReq) (s : FsState) (p np : DirInode) (old : Iter) : Prop where
  /-- The first behaviour passes. -/
  reach : r.Reaches s p np old
  /-- The second behaviour passes. -/
  passes : r.PassesSource s p old
  /-- The old directory is not a parent. -/
  ne : old.IsDir → old.entry.ino ≠ r.parent ∧ old.entry.ino ≠ r.newparent

/-- The request moves the old entry to a free name. -/
structure RenameReq.Moves (r : RenameReq) (s : FsState) (p np : DirInode) (old : Iter) : Prop
    extends r.Updates s p np old where
  /-- There is no target. -/
  free : np.find r.newname = none

/-- The request replaces its target: the last behaviour can be scheduled and its checks pass. -/
structure RenameReq.Replaces (r : RenameReq) (s : FsState) (p np : DirInode) (old dupl : Iter)
    (duplReg : Option File) (oldDir duplDir : Option DirInode) : Prop
    extends r.Updates s p np old where
  /-- The target. -/
  target : np.find r.newname = some dupl
  /-- The cowns of the last behaviour are distinct. -/
  distinct : r.DistinctInodes s old.entry.ino dupl.entry.ino
  /-- The inodes in the tables exist. -/
  reads : s.ReplaceReads r (s.replaced r old dupl p np) p np duplReg oldDir duplDir
  /-- The checks pass. -/
  check : FsState.replaceCheck r np duplReg oldDir duplDir = none

/-- The state after a move. -/
def FsState.moved (s : FsState) (r : RenameReq) (p np : DirInode) (old : Iter) : FsState :=
  if r.parent = r.newparent then s.setDir r.parent (moveOne r old p)
  else (s.setDir r.parent (moveTwo r old p np).1).setDir r.newparent (moveTwo r old p np).2

/-- The state after a replacement; `x` and `duplReg` are the regular target. -/
def FsState.replacedBy (s : FsState) (r : RenameReq) (p np : DirInode) (old dupl : Iter)
    (x : Option ℕ) (duplReg : Option File) (dirs : Bool) : FsState :=
  if r.parent = r.newparent then
    (s.dropLink x duplReg).setDir r.parent (replaceInodesOne r old dupl dirs p)
  else
    ((s.dropLink x duplReg).setDir r.parent (replaceInodesTwo r old dupl dirs p np).1).setDir
      r.newparent (replaceInodesTwo r old dupl dirs p np).2

/-- `replace_entry` moves the entry when there is no target. -/
theorem ReplaceStep.eq_of_free {s : FsState} {r : RenameReq} {p np : DirInode} {old : Iter}
    (hreach : r.Reaches s p np old) (hfree : np.find r.newname = none) {e : FsEffect}
    (h : ReplaceStep s r old e) : e = ⟨s.moved r p np old, [], [.err r.req 0]⟩ := by
  cases h with
  | one hsame hp hfind =>
    obtain rfl := Option.some.inj (hreach.parent.symm.trans hp)
    rw [FsState.moved, if_pos hsame]
  | two hne hp hnp hfind =>
    obtain rfl := Option.some.inj (hreach.parent.symm.trans hp)
    obtain rfl := Option.some.inj (hreach.newparent.symm.trans hnp)
    rw [FsState.moved, if_neg hne]
  | target hnp hfind =>
    obtain rfl := Option.some.inj (hreach.newparent.symm.trans hnp)
    rw [hfree] at hfind
    cases hfind

/-- A request that gets past its checks goes on with `replace_entry`. -/
theorem RenameReq.Updates.serves_iff {r : RenameReq} {s : FsState} {p np : DirInode} {old : Iter}
    (h : r.Updates s p np old) : ∃ e, ReplaceStep s r old e ∧ ∀ c,
      server.Serves s (.rename r) c ↔ server.Settles ⟨e.state, e.spawned, e.replies⟩ c := by
  have hhandle : server.Handles (.rename r) s ⟨s, [.rename r], []⟩ :=
    ⟨h.reach.handle_eq, by simpa [server, FsTask.cowns] using r.nodup_parents⟩
  have hspawned : ∀ {e}, ReplaceStep s r old e → ∀ t ∈ e.spawned, (server.cowns t).Nodup :=
    fun h => h.nodup_spawned
  rcases h.passes with ⟨hdir, d, hd, hden, hsticky⟩ | ⟨hdir, f, hf, hden, hsticky⟩
  · obtain ⟨e, he, hstep⟩ := h.reach.renameDir_replace hd hden hsticky
    refine ⟨e, hstep, fun c => ?_⟩
    have hrename : server.Runs (.rename r) s ⟨s, [.renameDir r old], []⟩ := by
      refine ⟨h.reach.rename_dir hdir hd, ?_⟩
      simpa [server, FsTask.cowns, RenameReq.mem_parents, r.nodup_parents] using h.ne hdir
    rw [System.serves_iff hhandle, System.settles_singleton hrename,
      System.settles_singleton ⟨he, hspawned hstep⟩]
    rfl
  · obtain ⟨e, he, hstep⟩ := h.reach.renameReg_replace hf hden hsticky
    refine ⟨e, hstep, fun c => ?_⟩
    have hrename : server.Runs (.rename r) s ⟨s, [.renameReg r old], []⟩ := by
      refine ⟨h.reach.rename_reg hdir hf, ?_⟩
      simp [server, FsTask.cowns, RenameReq.mem_parents, r.nodup_parents]
    rw [System.serves_iff hhandle, System.settles_singleton hrename,
      System.settles_singleton ⟨he, hspawned hstep⟩]
    rfl

/-- The execution of a request that moves its entry. -/
theorem RenameReq.Moves.end_eq {r : RenameReq} {s : FsState} {p np : DirInode} {old : Iter}
    (h : r.Moves s p np old) {c : FsConfig} (hserve : server.Serves s (.rename r) c) :
    c = ⟨s.moved r p np old, [], [.err r.req 0]⟩ := by
  obtain ⟨e, hstep, hiff⟩ := h.serves_iff
  rw [hiff, hstep.eq_of_free h.reach h.free] at hserve
  exact System.settles_nil.mp hserve

/-- The last behaviour of a request that replaces its target. -/
theorem RenameReq.Replaces.replaceInodes_eq {r : RenameReq} {s : FsState} {p np : DirInode}
    {old dupl : Iter} {duplReg : Option File} {oldDir duplDir : Option DirInode}
    (h : r.Replaces s p np old dupl duplReg oldDir duplDir) :
    s.replaceInodes r old dupl (s.replaced r old dupl p np) =
      .ok ⟨s.replacedBy r p np old dupl (s.replaced r old dupl p np).duplReg duplReg
        (oldDir.isSome && duplDir.isSome), [], [.err r.req 0]⟩ := by
  simp only [FsState.replaceInodes, FsState.getDir_of_some h.reads.parent,
    FsState.getDir_of_some h.reads.newparent, h.reads.duplReg, h.reads.oldDir, h.reads.duplDir,
    bind, Except.bind, h.check, FsState.replacedBy, RenameReq.sameParent_iff]
  split <;> rfl

/-- The execution of a request that replaces its target. -/
theorem RenameReq.Replaces.end_eq {r : RenameReq} {s : FsState} {p np : DirInode}
    {old dupl : Iter} {duplReg : Option File} {oldDir duplDir : Option DirInode}
    (h : r.Replaces s p np old dupl duplReg oldDir duplDir) {c : FsConfig}
    (hserve : server.Serves s (.rename r) c) :
    c = ⟨s.replacedBy r p np old dupl (s.replaced r old dupl p np).duplReg duplReg
      (oldDir.isSome && duplDir.isSome), [], [.err r.req 0]⟩ := by
  obtain ⟨e, hstep, hiff⟩ := h.serves_iff
  rw [hiff, hstep.eq_of_target h.reach h.target] at hserve
  have hnodup : (server.cowns (.replaceInodes r old dupl (s.replaced r old dupl p np))).Nodup :=
    (nodup_replaceInodes_of_has (DirInode.find_eq_some.mp h.reach.find).2
      (DirInode.find_eq_some.mp h.target).2).mpr h.distinct
  have htables : server.Runs (.replaceTables r old dupl) s
      ⟨s, [.replaceInodes r old dupl (s.replaced r old dupl p np)], []⟩ :=
    ⟨replaceTables_ok h.reach.parent h.reach.newparent old dupl, by simpa using hnodup⟩
  rw [System.settles_singleton htables,
    System.settles_singleton ⟨h.replaceInodes_eq, by simp⟩] at hserve
  exact System.settles_nil.mp hserve

/-! ## Outcomes -/

/-- The outcomes of a `rename` request. -/
inductive RenameOutcome (s : FsState) (r : RenameReq) : FsConfig → Prop
  /-- The state is left, and only errors are replied. -/
  | left {pending : List FsTask} {rs : List Reply}
      (herr : ∀ rep ∈ rs, ∃ errno, 0 < errno ∧ rep = .err r.req errno) :
      RenameOutcome s r ⟨s, pending, rs⟩
  /-- The entry is moved. -/
  | moved {p np : DirInode} {old : Iter} (h : r.Moves s p np old) :
      RenameOutcome s r ⟨s.moved r p np old, [], [.err r.req 0]⟩
  /-- The target is replaced. -/
  | replaced {p np : DirInode} {old dupl : Iter} {duplReg : Option File}
      {oldDir duplDir : Option DirInode} (h : r.Replaces s p np old dupl duplReg oldDir duplDir) :
      RenameOutcome s r ⟨s.replacedBy r p np old dupl (s.replaced r old dupl p np).duplReg duplReg
        (oldDir.isSome && duplDir.isSome), [], [.err r.req 0]⟩

/-- The checks on the inodes only reply errors. -/
theorem replaceCheck_err {r : RenameReq} {np : DirInode} {duplReg : Option File}
    {oldDir duplDir : Option DirInode} {rs : List Reply}
    (h : FsState.replaceCheck r np duplReg oldDir duplDir = some rs) :
    ∀ rep ∈ rs, ∃ errno, 0 < errno ∧ rep = .err r.req errno := by
  unfold FsState.replaceCheck at h
  intro rep hrep
  simp only at h
  split at h
  · rw [← Option.some.inj h, List.mem_singleton] at hrep
    exact ⟨EPERM, by decide, hrep⟩
  · split at h
    · rw [← Option.some.inj h, List.mem_singleton] at hrep
      exact ⟨EPERM, by decide, hrep⟩
    · split at h
      · split at h
        · split at h
          · rw [← Option.some.inj h, List.mem_singleton] at hrep
            exact ⟨ENOTEMPTY, by decide, hrep⟩
          · cases h
        · rw [← Option.some.inj h, List.mem_singleton] at hrep
          exact ⟨ENOTDIR, by decide, hrep⟩
      · split at h
        · rw [← Option.some.inj h] at hrep
          cases hrep
        · cases h

/-- The checks of `rename` on the old inode fail at an exit without a reply. -/
def RenameReq.SilentSource (r : RenameReq) (s : FsState) (p : DirInode) (old : Iter) : Prop :=
  (old.IsDir ∧ ∃ d, s.dirs[old.entry.ino]? = some d ∧
      (r.SourceDenied d.iSt ∧ r.parent ≠ r.newparent ∨ ¬ r.SourceDenied d.iSt ∧ r.DirSticky d p)) ∨
    (¬ old.IsDir ∧ ∃ f, s.regs[old.entry.ino]? = some f ∧
      (r.SourceDenied f.st ∨ r.stickyDenied p.iSt f.st.stUid p.iSt.stUid = true))

/-- What the second behaviour found. -/
theorem SourceStep.cases_full {s : FsState} {r : RenameReq} {p np : DirInode} {old : Iter}
    {e : FsEffect}
    (hreach : r.Reaches s p np old) (h : SourceStep s r old e) :
    (r.Updates s p np old ∧ ReplaceStep s r old e) ∨
      (r.SilentSource s p old ∧ e = ⟨s, [], []⟩) ∨
      (¬ r.BadSource s old ∧ ¬ r.SilentSource s p old ∧ ¬ r.PassesSource s p old ∧
        e = ⟨s, [], [.err r.req EACCES]⟩) := by
  cases h with
  | dir hdir hne hne' hstep =>
    cases hstep with
    | denied hd hp hsame hden =>
      obtain rfl := Option.some.inj (hreach.parent.symm.trans hp)
      refine .inr (.inr ⟨?_, ?_, ?_, rfl⟩)
      · rintro (⟨-, hbad | hbad | hbad⟩ | ⟨hdir', -⟩)
        · rw [hd] at hbad
          cases hbad
        · exact hne hbad
        · exact hne' hbad
        · exact hdir' hdir
      · rintro (⟨-, d', hd', ⟨-, hne⟩ | ⟨hden', -⟩⟩ | ⟨hdir', -⟩)
        · exact hne hsame
        · obtain rfl := Option.some.inj (hd.symm.trans hd')
          exact hden' hden
        · exact hdir' hdir
      · rintro (⟨-, d', hd', hden', -⟩ | ⟨hdir', -⟩)
        · obtain rfl := Option.some.inj (hd.symm.trans hd')
          exact hden' hden
        · exact hdir' hdir
    | silentDenied hd hp hne hden => exact .inr (.inl ⟨.inl ⟨hdir, _, hd, .inl ⟨hden, hne⟩⟩, rfl⟩)
    | silentSticky hd hp hden hsticky =>
      obtain rfl := Option.some.inj (hreach.parent.symm.trans hp)
      exact .inr (.inl ⟨.inl ⟨hdir, _, hd, .inr ⟨hden, hsticky⟩⟩, rfl⟩)
    | replace hd hp hden hsticky h =>
      obtain rfl := Option.some.inj (hreach.parent.symm.trans hp)
      exact .inl ⟨⟨hreach, .inl ⟨hdir, _, hd, hden, hsticky⟩, fun _ => ⟨hne, hne'⟩⟩, h⟩
  | reg hdir hstep =>
    cases hstep with
    | silent hf hp hden =>
      obtain rfl := Option.some.inj (hreach.parent.symm.trans hp)
      exact .inr (.inl ⟨.inr ⟨hdir, _, hf, hden⟩, rfl⟩)
    | replace hf hp hden hsticky h =>
      obtain rfl := Option.some.inj (hreach.parent.symm.trans hp)
      exact .inl ⟨⟨hreach, .inr ⟨hdir, _, hf, hden, hsticky⟩, fun h => absurd h hdir⟩, h⟩

/-- What the second behaviour found when it gets to `replace_entry`. -/
theorem SourceStep.cases_replace {s : FsState} {r : RenameReq} {p np : DirInode} {old : Iter}
    {e : FsEffect} (hreach : r.Reaches s p np old) (h : SourceStep s r old e) :
    (r.Updates s p np old ∧ ReplaceStep s r old e) ∨
      (e.state = s ∧ e.spawned = [] ∧
        ∀ rep ∈ e.replies, ∃ errno, 0 < errno ∧ rep = .err r.req errno) := by
  rcases h.cases_full hreach with hup | ⟨-, rfl⟩ | ⟨-, -, -, rfl⟩
  · exact .inl hup
  · exact .inr ⟨rfl, rfl, by simp⟩
  · exact .inr ⟨rfl, rfl, by simp [EACCES]⟩

/-- The execution of `rename` has one of these outcomes. -/
theorem rename_outcome {s : FsState} {r : RenameReq} {c : FsConfig}
    (h : server.Serves s (.rename r) c) : RenameOutcome s r c := by
  cases rename_end h with
  | longName => exact .left (by simp)
  | badParent => exact .left (by simp)
  | refused _ hstep =>
    generalize he : (⟨s, [], _⟩ : FsEffect) = e at hstep
    cases hstep with
    | noEntry =>
      obtain ⟨-, -, rfl⟩ := Effect.mk.inj he
      exact .left (by simp [ENOENT])
    | denied =>
      obtain ⟨-, -, rfl⟩ := Effect.mk.inj he
      exact .left (by simp [EACCES])
    | dir => cases (Effect.mk.inj he).2.1
    | reg => cases (Effect.mk.inj he).2.1
  | badSource => exact .left (by simp)
  | done hreach hstep =>
    rcases hstep.cases_replace hreach with ⟨hup, hreplace⟩ | ⟨rfl, -, herr⟩
    · rename_i p np old s' rs
      cases hfind : np.find r.newname with
      | none =>
        obtain ⟨rfl, -, rfl⟩ := Effect.mk.inj (hreplace.eq_of_free hreach hfind)
        exact .moved ⟨hup, hfind⟩
      | some dupl => cases (Effect.mk.inj (hreplace.eq_of_target hreach hfind)).2.1
    · exact .left herr
  | hang => exact .left (by simp)
  | missing => exact .left (by simp)
  | replaced hreach hstep hnodup hlast =>
    rename_i p np old dupl e
    rcases hstep.cases_replace hreach with ⟨hup, hreplace⟩ | ⟨-, hspawned, -⟩
    · cases hfind : np.find r.newname with
      | none => cases (Effect.mk.inj (hreplace.eq_of_free hreach hfind)).2.1
      | some dupl' =>
        have htasks := (Effect.mk.inj (hreplace.eq_of_target hreach hfind)).2.1
        obtain rfl : dupl = dupl' := by simpa using htasks
        have hdistinct := (nodup_replaceInodes_of_has (DirInode.find_eq_some.mp hreach.find).2
          (DirInode.find_eq_some.mp hfind).2).mp hnodup
        have hparents : ∀ {p' np' duplReg oldDir duplDir},
            s.ReplaceReads r (s.replaced r old dupl p np) p' np' duplReg oldDir duplDir →
              p = p' ∧ np = np' := fun hreads =>
          ⟨Option.some.inj (hreach.parent.symm.trans hreads.parent),
            Option.some.inj (hreach.newparent.symm.trans hreads.newparent)⟩
        cases hlast with
        | refused hreads hcheck => exact .left (replaceCheck_err hcheck)
        | one hsame hreads hcheck =>
          obtain ⟨rfl, rfl⟩ := hparents hreads
          have hout := RenameOutcome.replaced ⟨hup, hfind, hdistinct, hreads, hcheck⟩
          rwa [FsState.replacedBy, if_pos hsame] at hout
        | two hne hreads hcheck =>
          obtain ⟨rfl, rfl⟩ := hparents hreads
          have hout := RenameOutcome.replaced ⟨hup, hfind, hdistinct, hreads, hcheck⟩
          rwa [FsState.replacedBy, if_neg hne] at hout
    · cases hspawned

/-! ## When the entries are as requested -/

/-- The read of the old number, after the old entry was erased, still finds it. -/
def RenameReq.ReadsIno (r : RenameReq) (old : Iter) : Prop :=
  (r.freed .insertIno old).2 = old.entry.ino

/-- A replacement enters the old number under the new name and erases no third entry.  With two
parents the name that is inserted is the old one. -/
def RenameReq.Places (r : RenameReq) (p : DirInode) (old dupl : Iter) : Prop :=
  r.ReadsIno old ∧
    if r.parent = r.newparent then
      (r.freed .insertName dupl).1 = r.newname ∧
        (r.erasedName old dupl = r.newname ∨ p.dentries[r.erasedName old dupl]? = none)
    else (r.freed .insertName old).1 = r.newname

/-- The request gets to an update that does not make the requested change. -/
def RenameReq.Misplaces (r : RenameReq) (s : FsState) : Prop :=
  (∃ p np old, r.Moves s p np old ∧ ¬ r.ReadsIno old) ∨
    ∃ p np old dupl duplReg oldDir duplDir,
      r.Replaces s p np old dupl duplReg oldDir duplDir ∧ ¬ r.Places p old dupl

/-- The old entry. -/
theorem RenameReq.Updates.inoAt_old {r : RenameReq} {s : FsState} {p np : DirInode} {old : Iter}
    (h : r.Updates s p np old) : s.inoAt r.parent r.oldname = some old.entry.ino :=
  FsState.inoAt_of_find h.reach.parent h.reach.find

/-- The entries after a move. -/
theorem RenameReq.Moves.entryAt_moved {r : RenameReq} {s : FsState} {p np : DirInode} {old : Iter}
    (h : r.Moves s p np old) (ino : ℕ) (name : Name) :
    (s.moved r p np old).entryAt ino name =
      if r.newparent = ino ∧ r.newname = name then some (r.newEntry old)
      else if r.parent = ino ∧ r.oldname = name then none else s.entryAt ino name := by
  obtain ⟨hname, hhas⟩ := DirInode.find_eq_some.mp h.reach.find
  have hfree := DirInode.find_eq_none.mp h.free
  unfold FsState.moved
  split
  · next hsame =>
    have hp : s.dirs[r.newparent]? = some p := hsame ▸ h.reach.parent
    obtain rfl := Option.some.inj (hp.symm.trans h.reach.newparent)
    rw [FsState.entryAt_setDir, moveOne_eq hhas, hname, hsame]
    by_cases hino : r.newparent = ino
    · rw [if_pos hino, ← hino, FsState.entryAt_of_some hp]
      simp only [DirInode.dentries_insert, DirInode.dentries_erase, hfree, ite_self, and_true,
        true_and]
    · simp [hino]
  · next hne =>
    obtain ⟨h1, h2⟩ := dentries_moveTwo (r := r) hhas np
    simp only [FsState.entryAt_setDir, h1, h2, hname]
    by_cases hino : r.newparent = ino
    · rw [if_pos hino, ← hino, FsState.entryAt_of_some h.reach.newparent]
      simp only [DirInode.dentries_insert, hfree, and_true, true_and, hne, false_and, if_false]
    · by_cases hino' : r.parent = ino
      · rw [if_neg hino, if_pos hino', ← hino', FsState.entryAt_of_some h.reach.parent]
        simp only [DirInode.dentries_erase, Ne.symm hne, false_and, if_false, true_and]
      · simp [hino, hino']

/-- A move makes the requested change exactly when it reads the old number. -/
theorem RenameReq.Moves.moved_iff {r : RenameReq} {s : FsState} {p np : DirInode} {old : Iter}
    (h : r.Moves s p np old) : r.Moved s (s.moved r p np old) ↔ r.ReadsIno old := by
  have hnew : (s.moved r p np old).inoAt r.newparent r.newname = some (r.newEntry old).ino := by
    rw [FsState.inoAt, h.entryAt_moved, if_pos ⟨rfl, rfl⟩]
    rfl
  constructor
  · intro hmoved
    have hino := hmoved.new
    rw [hnew, h.inoAt_old] at hino
    exact Option.some.inj hino
  · intro hreads
    refine ⟨?_, fun hne => ?_, fun ino name hne hne' => FsState.inoAt_congr ?_⟩
    · rw [hnew, h.inoAt_old]
      exact congrArg some hreads
    · rw [FsState.inoAt, h.entryAt_moved, if_neg, if_pos ⟨rfl, rfl⟩]
      · rfl
      · rintro ⟨hparent, hname⟩
        exact hne (by rw [hparent, hname])
    · rw [h.entryAt_moved, if_neg, if_neg]
      · rintro ⟨rfl, rfl⟩
        exact hne rfl
      · rintro ⟨rfl, rfl⟩
        exact hne' rfl

/-- The entries after a replacement with a single parent. -/
theorem RenameReq.Replaces.entryAt_one {r : RenameReq} {s : FsState} {p np : DirInode}
    {old dupl : Iter} {duplReg : Option File} {oldDir duplDir : Option DirInode}
    (h : r.Replaces s p np old dupl duplReg oldDir duplDir) (hsame : r.parent = r.newparent)
    (x : Option ℕ) (dirs : Bool) (name : Name) :
    (s.replacedBy r p np old dupl x duplReg dirs).entryAt r.newparent name =
      (((p.erase r.oldname).erase (r.erasedName old dupl)).insert (r.freed .insertName dupl).1
        (r.newEntry old)).dentries[name]? := by
  obtain ⟨hname, hhas⟩ := DirInode.find_eq_some.mp h.reach.find
  have hp : s.dirs[r.newparent]? = some p := hsame ▸ h.reach.parent
  obtain rfl := Option.some.inj (hp.symm.trans h.reach.newparent)
  have hdupl := (DirInode.find_eq_some.mp h.target).2
  rw [FsState.replacedBy, if_pos hsame, FsState.entryAt_setDir, if_pos hsame,
    dentries_replaceInodesOne hhas hdupl, hname]

/-- The entries after a replacement with two parents. -/
theorem RenameReq.Replaces.entryAt_two {r : RenameReq} {s : FsState} {p np : DirInode}
    {old dupl : Iter} {duplReg : Option File} {oldDir duplDir : Option DirInode}
    (h : r.Replaces s p np old dupl duplReg oldDir duplDir) (hne : r.parent ≠ r.newparent)
    (x : Option ℕ) (dirs : Bool) (ino : ℕ) (name : Name) :
    (s.replacedBy r p np old dupl x duplReg dirs).entryAt ino name =
      if r.newparent = ino then
        ((np.erase r.newname).insert (r.freed .insertName old).1 (r.newEntry old)).dentries[name]?
      else if r.parent = ino ∧ r.oldname = name then none else s.entryAt ino name := by
  obtain ⟨hname, hhas⟩ := DirInode.find_eq_some.mp h.reach.find
  obtain ⟨hname', hdupl⟩ := DirInode.find_eq_some.mp h.target
  obtain ⟨h1, h2⟩ := dentries_replaceInodesTwo (r := r) hhas hdupl dirs
  rw [FsState.replacedBy, if_neg hne]
  simp only [FsState.entryAt_setDir, FsState.entryAt_dropLink, h1, h2, hname, hname']
  split
  · rfl
  · by_cases hino : r.parent = ino
    · rw [if_pos hino, ← hino, FsState.entryAt_of_some h.reach.parent]
      simp only [DirInode.dentries_erase, true_and]
    · simp [hino]

/-- Other directories are left by a replacement. -/
theorem RenameReq.Replaces.entryAt_other {r : RenameReq} {s : FsState} {p np : DirInode}
    {old dupl : Iter} {x : Option ℕ} {duplReg : Option File} {dirs : Bool} {ino : ℕ}
    (hne : r.parent ≠ ino) (hne' : r.newparent ≠ ino) (name : Name) :
    (s.replacedBy r p np old dupl x duplReg dirs).entryAt ino name = s.entryAt ino name := by
  unfold FsState.replacedBy
  split <;> simp [hne, hne']

/-- A replacement with two parents makes the requested change exactly when it enters the old number
under the new name. -/
theorem RenameReq.Replaces.moved_iff_two {r : RenameReq} {s : FsState} {p np : DirInode}
    {old dupl : Iter} {duplReg : Option File} {oldDir duplDir : Option DirInode}
    (h : r.Replaces s p np old dupl duplReg oldDir duplDir) (hne : r.parent ≠ r.newparent)
    (x : Option ℕ) (dirs : Bool) :
    r.Moved s (s.replacedBy r p np old dupl x duplReg dirs) ↔ r.Places p old dupl := by
  have hnew : (s.replacedBy r p np old dupl x duplReg dirs).inoAt r.newparent r.newname =
      if (r.freed .insertName old).1 = r.newname then some (r.newEntry old).ino else none := by
    rw [FsState.inoAt, h.entryAt_two hne, if_pos rfl]
    simp only [DirInode.dentries_insert, DirInode.dentries_erase]
    by_cases hname : (r.freed .insertName old).1 = r.newname
    · simp [hname]
    · simp [hname]
  rw [RenameReq.Places, if_neg hne]
  constructor
  · intro hmoved
    have hino := hmoved.new
    rw [hnew, h.inoAt_old] at hino
    split at hino
    · next hname => exact ⟨Option.some.inj hino, hname⟩
    · cases hino
  · rintro ⟨hreads, hname⟩
    refine ⟨?_, fun _ => ?_, fun ino name hold hnew => FsState.inoAt_congr ?_⟩
    · rw [hnew, if_pos hname, h.inoAt_old]
      exact congrArg some hreads
    · rw [FsState.inoAt, h.entryAt_two hne, if_neg (Ne.symm hne), if_pos ⟨rfl, rfl⟩]
      rfl
    · rw [h.entryAt_two hne]
      split
      · next hino =>
        subst hino
        have hne' : r.newname ≠ name := fun heq => hnew (by rw [heq])
        rw [FsState.entryAt_of_some h.reach.newparent]
        simp [hname, hne']
      · rw [if_neg]
        rintro ⟨rfl, rfl⟩
        exact hold rfl

/-- A replacement with a single parent makes the requested change exactly when it enters the old
number under the new name and erases nothing else. -/
theorem RenameReq.Replaces.moved_iff_one {r : RenameReq} {s : FsState} {p np : DirInode}
    {old dupl : Iter} {duplReg : Option File} {oldDir duplDir : Option DirInode}
    (h : r.Replaces s p np old dupl duplReg oldDir duplDir) (hsame : r.parent = r.newparent)
    (x : Option ℕ) (dirs : Bool) :
    r.Moved s (s.replacedBy r p np old dupl x duplReg dirs) ↔ r.Places p old dupl := by
  have hp : s.dirs[r.newparent]? = some p := hsame ▸ h.reach.parent
  obtain ⟨hold, hhas⟩ := DirInode.find_eq_some.mp h.reach.find
  obtain ⟨hdupl, -⟩ := DirInode.find_eq_some.mp h.target
  -- the new name is erased, under its own name or as the old one
  have hgone : ((p.erase r.oldname).erase (r.erasedName old dupl)).dentries[r.newname]? = none := by
    simp only [DirInode.dentries_erase, RenameReq.erasedName, hold, hdupl]
    by_cases heq : r.oldname = r.newname
    · simp [heq]
    · simp [heq]
  have hnew : (s.replacedBy r p np old dupl x duplReg dirs).inoAt r.newparent r.newname =
      if (r.freed .insertName dupl).1 = r.newname then some (r.newEntry old).ino else none := by
    rw [FsState.inoAt, h.entryAt_one hsame, DirInode.dentries_insert, hgone]
    by_cases hname : (r.freed .insertName dupl).1 = r.newname
    · simp [hname, hgone]
    · simp [hname]
  rw [RenameReq.Places, if_pos hsame]
  constructor
  · intro hmoved
    have hino := hmoved.new
    rw [hnew, h.inoAt_old] at hino
    split at hino
    · next hname =>
      refine ⟨Option.some.inj hino, hname, ?_⟩
      by_contra hthird
      push Not at hthird
      have hthird' : r.oldname = r.newname := by
        by_contra hne
        exact hthird.1 (by rw [RenameReq.erasedName, hold, hdupl, if_neg hne])
      have hother := hmoved.other r.newparent (r.erasedName old dupl)
        (by simp [hthird', hthird.1]) (by simp [hthird.1])
      rw [FsState.inoAt, FsState.inoAt, h.entryAt_one hsame, DirInode.dentries_insert, hname,
        FsState.entryAt_of_some hp] at hother
      obtain ⟨e, he⟩ := Option.ne_none_iff_exists'.mp hthird.2
      simp [Ne.symm hthird.1, he] at hother
    · cases hino
  · rintro ⟨hreads, hname, hthird⟩
    refine ⟨?_, fun hne => ?_, fun ino name hne hne' => FsState.inoAt_congr ?_⟩
    · rw [hnew, if_pos hname, h.inoAt_old]
      exact congrArg some hreads
    · have hne' : r.newname ≠ r.oldname := fun heq => hne (by rw [hsame, heq])
      rw [hsame, FsState.inoAt, h.entryAt_one hsame]
      simp [hname, hne']
    · by_cases hino : r.newparent = ino
      · subst hino
        have h1 : r.newname ≠ name := fun heq => hne' (by rw [heq])
        have h2 : r.oldname ≠ name := fun heq => hne (by rw [hsame, heq])
        rw [h.entryAt_one hsame, FsState.entryAt_of_some hp]
        simp only [DirInode.dentries_insert, DirInode.dentries_erase, hname, h1, h2, false_and,
          if_false]
        split
        · next heq =>
          rcases hthird with hthird | hthird
          · exact absurd (hthird.symm.trans heq) h1
          · rw [← heq, hthird]
        · rfl
      · exact entryAt_other (hsame ▸ hino) hino name

/-- An outcome with success made the requested change exactly when the update was not a wrong one. -/
theorem RenameOutcome.moved_iff {s : FsState} {r : RenameReq} {c : FsConfig}
    (h : RenameOutcome s r c) (hsuccess : .err r.req 0 ∈ c.replies) :
    r.Moved s c.state ↔ ¬ r.Misplaces s := by
  cases h with
  | left herr =>
    obtain ⟨errno, hpos, heq⟩ := herr _ hsuccess
    simp only [Reply.err.injEq, true_and] at heq
    omega
  | @moved p np old h =>
    rw [h.moved_iff]
    constructor
    · rintro hreads (⟨p', np', old', h', hno⟩ | ⟨p', np', old', dupl, _, _, _, h', -⟩)
      · obtain rfl := Option.some.inj (h.reach.parent.symm.trans h'.reach.parent)
        obtain rfl := Option.some.inj (h.reach.find.symm.trans h'.reach.find)
        exact hno hreads
      · obtain rfl := Option.some.inj (h.reach.newparent.symm.trans h'.reach.newparent)
        have hfree := h.free
        rw [h'.target] at hfree
        cases hfree
    · intro hok
      by_contra hno
      exact hok (.inl ⟨p, np, old, h, hno⟩)
  | @replaced p np old dupl duplReg oldDir duplDir h =>
    have hiff : ∀ x dirs,
        r.Moved s (s.replacedBy r p np old dupl x duplReg dirs) ↔ r.Places p old dupl := by
      intro x dirs
      by_cases hsame : r.parent = r.newparent
      · exact h.moved_iff_one hsame x dirs
      · exact h.moved_iff_two hsame x dirs
    rw [hiff]
    constructor
    · rintro hplaces (⟨p', np', old', h', -⟩ | ⟨p', np', old', dupl', _, _, _, h', hno⟩)
      · obtain rfl := Option.some.inj (h.reach.newparent.symm.trans h'.reach.newparent)
        have hfree := h'.free
        rw [h.target] at hfree
        cases hfree
      · obtain rfl := Option.some.inj (h.reach.parent.symm.trans h'.reach.parent)
        obtain rfl := Option.some.inj (h.reach.newparent.symm.trans h'.reach.newparent)
        obtain rfl := Option.some.inj (h.reach.find.symm.trans h'.reach.find)
        obtain rfl := Option.some.inj (h.target.symm.trans h'.target)
        exact hno hplaces
    · intro hok
      by_contra hno
      exact hok (.inr ⟨p, np, old, dupl, duplReg, oldDir, duplDir, h, hno⟩)

/-- For every `rename` request executed alone and answered with success: the new name has the old
number, the old name is gone and no other entry is changed, if and only if the request does not get to
a replacement with two parents and different names, and its reads through erased nodes still find the
old contents. -/
theorem rename_moved_iff {s : FsState} {r : RenameReq} {c : FsConfig}
    (hserve : server.Serves s (.rename r) c) (hsuccess : .err r.req 0 ∈ c.replies) :
    r.Moved s c.state ↔ ¬ r.Misplaces s :=
  (rename_outcome hserve).moved_iff hsuccess

/-! ## A replacement under the old name -/

/-- Root makes the directory `b` in the root directory. -/
def mkdirB : MakeReq := { mkdirA with req := 2, name := [98], addr := 6, this := 7, node := 8 }

/-- Root makes the directory `c` in the directory `a`. -/
def mkdirC : MakeReq :=
  { mkdirA with req := 3, parent := 2, name := [99], addr := 10, this := 11, node := 12 }

/-- The root directory after `mkdirB`. -/
def rootDirAB : DirInode := ((rootDirA.insert [98] ⟨6, 8⟩).touch 0).addLinks 1

/-- The directory `a` after `mkdirC`. -/
def dirAC : DirInode := ((mkdirA.addedDir.insert [99] ⟨10, 12⟩).touch 0).addLinks 1

/-- The file system after `mkdirA` and `mkdirB`. -/
def fsAB : FsState := fsA.madeDir mkdirB rootDirA

/-- The file system after `mkdirA`, `mkdirB` and `mkdirC`. -/
def fsABC : FsState := fsAB.madeDir mkdirC mkdirA.addedDir

/-- The directories of `fsA`. -/
theorem fsA_dirs_eq (i : ℕ) : fsA.dirs[i]? =
    if 2 = i then some mkdirA.addedDir else if 1 = i then some rootDirA else none := by
  rw [fsA, FsState.dirs_madeDir]
  simp only [mkdirA, rootDirA, rootFs, FsState.init, StdMap.get?_insert, FUSE_ROOT_ID]
  split
  · rfl
  · split <;> simp

/-- The directories of `fsAB`. -/
theorem fsAB_dirs_eq (i : ℕ) : fsAB.dirs[i]? =
    if 6 = i then some mkdirB.addedDir else if 1 = i then some rootDirAB else fsA.dirs[i]? :=
  FsState.dirs_madeDir ..

/-- The directories of `fsABC`. -/
theorem fsABC_dirs_eq (i : ℕ) : fsABC.dirs[i]? =
    if 10 = i then some mkdirC.addedDir else if 2 = i then some dirAC else fsAB.dirs[i]? :=
  FsState.dirs_madeDir ..

/-- The table of directories of `fsABC`. -/
theorem fsABC_dirTable : fsABC.dirTable[6]? = some 6 ∧ fsABC.dirTable[10]? = some 10 := by
  simp [fsABC, fsAB, fsA, FsState.dirTable_madeDir, mkdirA, mkdirB, mkdirC, rootFs, FsState.init,
    FUSE_ROOT_ID]

/-- There are no regular inodes in `fsABC`. -/
theorem fsABC_regTable (i : ℕ) : fsABC.regTable[i]? = none := by
  change (∅ : StdMap ℕ ℕ)[i]? = none
  simp

/-- The requests that lead to `fsABC`. -/
def historyABC : List (FsRequest × List Reply) :=
  [(.mkdir mkdirA, [.entry 1 (MakeReq.entryParam mkdirA.dirStat)]),
    (.mkdir mkdirB, [.entry 2 (MakeReq.entryParam mkdirB.dirStat)]),
    (.mkdir mkdirC, [.entry 3 (MakeReq.entryParam mkdirC.dirStat)])]

/-- The requests are served one at a time. -/
theorem serial_fsABC : server.Serial (fun _ _ => True) rootFs historyABC fsABC := by
  have hB : server.Serves fsA (.mkdir mkdirB)
      ⟨fsAB, [], [.entry 2 (MakeReq.entryParam mkdirB.dirStat)]⟩ := by
    refine serves_mkdir ?_ (by decide) fsA_dirs.1 ?_ (by decide)
    · rw [fsA_dirs_eq]
      rfl
    · simp [DirInode.find, rootDirA, rootDir, mkdirB]
  have hC : server.Serves fsAB (.mkdir mkdirC)
      ⟨fsABC, [], [.entry 3 (MakeReq.entryParam mkdirC.dirStat)]⟩ := by
    refine serves_mkdir ?_ (by decide) ?_ ?_ (by decide)
    · rw [fsAB_dirs_eq, fsA_dirs_eq]
      rfl
    · rw [fsAB_dirs_eq, fsA_dirs_eq]
      rfl
    · simp [DirInode.find, MakeReq.addedDir, MakeReq.newDir, mkdirA, mkdirC]
  exact ((System.Serial.nil.snoc trivial serves_mkdirA).snoc trivial hB).snoc trivial hC

/-- Root renames the directory `b` to the existing directory `c` in `a`. -/
def renameBC : RenameReq where
  req := 4
  parent := 1
  oldname := [98]
  newparent := 2
  newname := [99]
  uid := 0
  gid := 0
  now := 0
  node := 13
  freed := fun _ => Iter.contents

/-- `renameBC` replaces its target. -/
theorem renameBC_replaces :
    renameBC.Replaces fsABC rootDirAB dirAC ⟨[98], ⟨6, 8⟩⟩ ⟨[99], ⟨10, 12⟩⟩ none
      (some mkdirB.addedDir) (some mkdirC.addedDir) where
  reach := by
    refine ⟨by decide, ?_, ?_, ?_, by decide, by decide⟩
    · rw [fsABC_dirs_eq, fsAB_dirs_eq]
      rfl
    · rw [fsABC_dirs_eq]
      rfl
    · simp [DirInode.find, rootDirAB, rootDirA, rootDir, renameBC]
  passes := by
    refine .inl ⟨.inr rfl, mkdirB.addedDir, ?_, by decide, ?_⟩
    · rw [fsABC_dirs_eq, fsAB_dirs_eq]
      rfl
    · unfold RenameReq.DirSticky
      decide
  ne := fun _ => by decide
  target := by simp [DirInode.find, dirAC, MakeReq.addedDir, MakeReq.newDir, renameBC]
  distinct := by
    obtain ⟨h6, h10⟩ := fsABC_dirTable
    refine ⟨fun i hi => ?_, fun i hi hi' => ?_, fun i hi => ?_, fun i hi => ?_⟩
    · rw [fsABC_regTable] at hi
      cases hi
    · rw [h6] at hi
      rw [h10] at hi'
      exact absurd (hi.trans hi'.symm) (by decide)
    · obtain rfl := Option.some.inj (h6.symm.trans hi)
      decide
    · obtain rfl := Option.some.inj (h10.symm.trans hi)
      decide
  reads := by
    obtain ⟨h6, h10⟩ := fsABC_dirTable
    have hold : rootDirAB.Has ⟨[98], ⟨6, 8⟩⟩ := by
      simp [DirInode.Has, rootDirAB, rootDirA, rootDir]
    have hdupl : dirAC.Has ⟨[99], ⟨10, 12⟩⟩ := by
      simp [DirInode.Has, dirAC, MakeReq.addedDir, MakeReq.newDir]
    refine ⟨?_, ?_, ?_, ?_, ?_⟩
    · rw [fsABC_dirs_eq, fsAB_dirs_eq]
      rfl
    · rw [fsABC_dirs_eq]
      rfl
    · simp only [FsState.replaced, fsABC_regTable]
      rfl
    · simp only [FsState.replaced, DirInode.deref_of_has hold, Iter.contents, h6]
      rw [FsState.getDir?_eq_ok]
      refine .inr ⟨6, _, rfl, rfl, ?_⟩
      rw [fsABC_dirs_eq, fsAB_dirs_eq]
      rfl
    · simp only [FsState.replaced, DirInode.deref_of_has hdupl, Iter.contents, h10]
      rw [FsState.getDir?_eq_ok]
      refine .inr ⟨10, _, rfl, rfl, ?_⟩
      rw [fsABC_dirs_eq]
      rfl
  check := by decide

/-- Root makes the directories `a`, `b` and `a/c` and renames `b` to `a/c`: the reply says success,
and the new name has no entry. -/
theorem renameBC_not_moved :
    server.Serial (fun _ _ => True) rootFs historyABC fsABC ∧
      ∃ c, server.Serves fsABC (.rename renameBC) c ∧ .err 4 0 ∈ c.replies ∧
        ¬ renameBC.Moved fsABC c.state := by
  refine ⟨serial_fsABC, ?_⟩
  obtain ⟨c, hc⟩ := exists_serves fsABC (.rename renameBC)
  refine ⟨c, hc, ?_⟩
  rw [renameBC_replaces.end_eq hc]
  refine ⟨List.mem_singleton.mpr rfl, ?_⟩
  rw [renameBC_replaces.moved_iff_two (by decide)]
  rintro ⟨-, hname⟩
  rw [if_neg (by decide)] at hname
  exact absurd hname (by decide)

/-- The condition decides about `renameBC`, which is answered with success. -/
theorem rename_moved_iff_renameBC :
    ∃ c, server.Serves fsABC (.rename renameBC) c ∧
      (renameBC.Moved fsABC c.state ↔ ¬ renameBC.Misplaces fsABC) := by
  obtain ⟨c, hc⟩ := exists_serves fsABC (.rename renameBC)
  refine ⟨c, hc, rename_moved_iff hc ?_⟩
  rw [renameBC_replaces.end_eq hc]
  exact List.mem_singleton.mpr rfl

end VeronaFs
