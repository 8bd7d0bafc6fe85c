import VeronaFs.Namespace.Alone

/-!
# Rename, executed alone

The ends of the execution of a single `rename` request, as in the module on the other requests.  An
execution can also stop because a `when` of `rename` names a cown twice.
-/

namespace VeronaFs

open Boc Foundation

/-! ## The way to the old inode -/

/-- The entry names the root or a directory by its number. -/
def Iter.IsDir (it : Iter) : Prop := it.entry.ino = 1 ∨ it.entry.ino % 2 = 0

/-- The request gets past its first behaviour: names, parents, entry and permissions are right. -/
structure RenameReq.Reaches (r : RenameReq) (s : FsState) (p np : DirInode) (old : Iter) : Prop where
  /-- The names are short enough. -/
  short : r.oldname.length ≤ NAME_MAX ∧ r.newname.length ≤ NAME_MAX
  /-- The parent. -/
  parent : s.dirs[r.parent]? = some p
  /-- The new parent. -/
  newparent : s.dirs[r.newparent]? = some np
  /-- The entry. -/
  find : p.find r.oldname = some old
  /-- The permission on the parent. -/
  canWrite : p.CanWrite r.uid r.gid
  /-- The permission on the new parent. -/
  canWriteNew : np.CanWrite r.uid r.gid

/-- The second behaviour cannot be scheduled: the inode does not exist, or it is one of the
parents. -/
def RenameReq.BadSource (r : RenameReq) (s : FsState) (old : Iter) : Prop :=
  (old.IsDir ∧ (s.dirs[old.entry.ino]? = none ∨ old.entry.ino = r.parent ∨
      old.entry.ino = r.newparent)) ∨
    (¬ old.IsDir ∧ s.regs[old.entry.ino]? = none)

/-- The second behaviour and its exits. -/
inductive SourceStep (s : FsState) (r : RenameReq) (old : Iter) : FsEffect → Prop
  /-- The entry names a directory. -/
  | dir {e : FsEffect} (hdir : old.IsDir) (hne : old.entry.ino ≠ r.parent)
      (hne' : old.entry.ino ≠ r.newparent) (hstep : RenameDirStep s r old e) : SourceStep s r old e
  /-- The entry names a regular inode. -/
  | reg {e : FsEffect} (hdir : ¬ old.IsDir) (hstep : RenameRegStep s r old e) : SourceStep s r old e

/-- One of the inodes that the tables name does not exist. -/
def Replaced.Missing (x : Replaced) (s : FsState) : Prop :=
  (∃ i, x.duplReg = some i ∧ s.regs[i]? = none) ∨ (∃ i, x.oldDir = some i ∧ s.dirs[i]? = none) ∨
    ∃ i, x.duplDir = some i ∧ s.dirs[i]? = none

/-- The ends of `rename`. -/
inductive RenameEnd (s : FsState) (r : RenameReq) : FsConfig → Prop
  /-- A name is too long: there is no reply. -/
  | longName (hlong : NAME_MAX < r.oldname.length ∨ NAME_MAX < r.newname.length) :
      RenameEnd s r ⟨s, [], []⟩
  /-- The inode number of a parent is not that of a directory. -/
  | badParent (hshort : r.oldname.length ≤ NAME_MAX ∧ r.newname.length ≤ NAME_MAX)
      (hbad : s.dirs[r.parent]? = none ∨ s.dirs[r.newparent]? = none) : RenameEnd s r ⟨s, [], []⟩
  /-- The first behaviour answers. -/
  | refused {rs : List Reply} (hshort : r.oldname.length ≤ NAME_MAX ∧ r.newname.length ≤ NAME_MAX)
      (hstep : RenameStep s r ⟨s, [], rs⟩) : RenameEnd s r ⟨s, [], rs⟩
  /-- The second behaviour cannot be scheduled. -/
  | badSource {p np : DirInode} {old : Iter} (hreach : r.Reaches s p np old)
      (hbad : r.BadSource s old) : RenameEnd s r ⟨s, [.rename r], []⟩
  /-- The second behaviour ends the execution. -/
  | done {p np : DirInode} {old : Iter} {s' : FsState} {rs : List Reply}
      (hreach : r.Reaches s p np old) (hstep : SourceStep s r old ⟨s', [], rs⟩) :
      RenameEnd s r ⟨s', [], rs⟩
  /-- The last behaviour names a cown twice. -/
  | hang {p np : DirInode} {old dupl : Iter} (hreach : r.Reaches s p np old)
      (hstep : SourceStep s r old ⟨s, [.replaceTables r old dupl], []⟩)
      (hdup : ¬ (FsTask.cowns (.replaceInodes r old dupl (s.replaced r old dupl p np))).Nodup) :
      RenameEnd s r ⟨s, [.replaceTables r old dupl], []⟩
  /-- The last behaviour finds no inode where a table has one. -/
  | missing {p np : DirInode} {old dupl : Iter} (hreach : r.Reaches s p np old)
      (hstep : SourceStep s r old ⟨s, [.replaceTables r old dupl], []⟩)
      (hnodup : (FsTask.cowns (.replaceInodes r old dupl (s.replaced r old dupl p np))).Nodup)
      (hbad : (s.replaced r old dupl p np).Missing s) :
      RenameEnd s r ⟨s, [.replaceInodes r old dupl (s.replaced r old dupl p np)], []⟩
  /-- The last behaviour runs. -/
  | replaced {p np : DirInode} {old dupl : Iter} {e : FsEffect} (hreach : r.Reaches s p np old)
      (hstep : SourceStep s r old ⟨s, [.replaceTables r old dupl], []⟩)
      (hnodup : (FsTask.cowns (.replaceInodes r old dupl (s.replaced r old dupl p np))).Nodup)
      (hlast : ReplaceInodesStep s r old dupl (s.replaced r old dupl p np) e) :
      RenameEnd s r ⟨e.state, [], e.replies⟩

/-! ## The behaviours end -/

/-- The parents have distinct cowns. -/
theorem RenameReq.nodup_parents (r : RenameReq) : r.parents.Nodup := by
  unfold parents
  split
  · exact List.nodup_singleton _
  · next hne => simpa using hne

/-- The cowns of the parents. -/
theorem RenameReq.mem_parents {r : RenameReq} {k : FsCown} :
    k ∈ r.parents ↔ k = .dir r.parent ∨ k = .dir r.newparent := by
  unfold parents
  split
  · next h => simp [h]
  · simp

/-- The first behaviour ends when the parents and the old inode exist. -/
theorem rename_ok {s : FsState} {r : RenameReq} {p np : DirInode}
    (hp : s.dirs[r.parent]? = some p) (hnp : s.dirs[r.newparent]? = some np)
    (hold : ∀ old, p.find r.oldname = some old → p.CanWrite r.uid r.gid →
      np.CanWrite r.uid r.gid → (old.IsDir → ∃ d, s.dirs[old.entry.ino]? = some d) ∧
        (¬ old.IsDir → ∃ f, s.regs[old.entry.ino]? = some f)) : ∃ e, s.rename r = .ok e := by
  cases hfind : p.find r.oldname with
  | none =>
    simp only [FsState.rename, FsState.getDir_of_some hp, FsState.getDir_of_some hnp, bind,
      Except.bind, hfind]
    exact ⟨_, rfl⟩
  | some old =>
    simp only [FsState.rename, FsState.getDir_of_some hp, FsState.getDir_of_some hnp, bind,
      Except.bind, hfind, access_W_OK]
    split
    · exact ⟨_, rfl⟩
    · next hcan =>
      split
      · exact ⟨_, rfl⟩
      · next hcan' =>
        obtain ⟨hd, hf⟩ := hold old hfind (not_not.mp hcan) (not_not.mp hcan')
        split
        · next hdir =>
          obtain ⟨d, hd⟩ := hd hdir
          rw [FsState.getDir_of_some hd]
          exact ⟨_, rfl⟩
        · next hdir =>
          obtain ⟨f, hf⟩ := hf hdir
          rw [FsState.getReg_of_some hf]
          exact ⟨_, rfl⟩

/-- The check on the old inode has no failing assertion. -/
theorem sourceCheck_ok (r : RenameReq) (st : Stat) : ∃ ret, FsState.sourceCheck r st = .ok ret := by
  unfold FsState.sourceCheck
  split
  · exact ⟨_, access_W_OK ..⟩
  · exact ⟨0, rfl⟩

/-- `replace_entry` ends when the parents exist. -/
theorem replaceEntry_ok {s : FsState} {r : RenameReq} {p np : DirInode}
    (hp : s.dirs[r.parent]? = some p) (hnp : s.dirs[r.newparent]? = some np) (old : Iter) :
    ∃ e, s.replaceEntry r old = .ok e := by
  simp only [FsState.replaceEntry, FsState.getDir_of_some hp, FsState.getDir_of_some hnp, bind,
    Except.bind]
  split <;> exact ⟨_, rfl⟩

/-- `replace_entry_same_parent` ends when the parent exists. -/
theorem replaceEntrySameParent_ok {s : FsState} {r : RenameReq} {p : DirInode}
    (hp : s.dirs[r.parent]? = some p) (old : Iter) :
    ∃ e, s.replaceEntrySameParent r old = .ok e := by
  simp only [FsState.replaceEntrySameParent, FsState.getDir_of_some hp, bind, Except.bind]
  split <;> exact ⟨_, rfl⟩

/-- The second behaviour ends for a directory. -/
theorem renameDir_ok {s : FsState} {r : RenameReq} {p np d : DirInode} {old : Iter}
    (hp : s.dirs[r.parent]? = some p) (hnp : s.dirs[r.newparent]? = some np)
    (hd : s.dirs[old.entry.ino]? = some d) : ∃ e, s.renameDir r old = .ok e := by
  obtain ⟨ret, hret⟩ := sourceCheck_ok r d.iSt
  simp only [FsState.renameDir, FsState.getDir_of_some hp, FsState.getDir_of_some hd, hret, bind,
    Except.bind]
  split_ifs <;> first
    | exact ⟨_, rfl⟩
    | exact replaceEntrySameParent_ok hp old
    | exact replaceEntry_ok hp hnp old

/-- The second behaviour ends for a regular inode. -/
theorem renameReg_ok {s : FsState} {r : RenameReq} {p np : DirInode} {f : File} {old : Iter}
    (hp : s.dirs[r.parent]? = some p) (hnp : s.dirs[r.newparent]? = some np)
    (hf : s.regs[old.entry.ino]? = some f) : ∃ e, s.renameReg r old = .ok e := by
  obtain ⟨ret, hret⟩ := sourceCheck_ok r f.st
  simp only [FsState.renameReg, FsState.getDir_of_some hp, FsState.getReg_of_some hf, hret, bind,
    Except.bind]
  split_ifs <;> first
    | exact ⟨_, rfl⟩
    | exact replaceEntrySameParent_ok hp old
    | exact replaceEntry_ok hp hnp old

/-- The behaviour on the tables. -/
theorem replaceTables_ok {s : FsState} {r : RenameReq} {p np : DirInode}
    (hp : s.dirs[r.parent]? = some p) (hnp : s.dirs[r.newparent]? = some np) (old dupl : Iter) :
    s.replaceTables r old dupl =
      .ok ⟨s, [.replaceInodes r old dupl (s.replaced r old dupl p np)], []⟩ := by
  simp only [FsState.replaceTables, FsState.getDir_of_some hp, FsState.getDir_of_some hnp, bind,
    Except.bind]
  rfl

/-- The inodes that the tables name can be read when none is missing. -/
theorem replaceReads_of_not_missing {s : FsState} {r : RenameReq} {p np : DirInode} {x : Replaced}
    (hp : s.dirs[r.parent]? = some p) (hnp : s.dirs[r.newparent]? = some np)
    (h : ¬ x.Missing s) :
    ∃ duplReg oldDir duplDir, s.ReplaceReads r x p np duplReg oldDir duplDir := by
  simp only [Replaced.Missing, not_or, not_exists, not_and] at h
  obtain ⟨hdr, hod, hdd⟩ := h
  have hreg : ∀ o : Option ℕ, (∀ i, o = some i → ¬ s.regs[i]? = none) →
      ∃ f, s.getReg? o = .ok f := by
    intro o ho
    cases o with
    | none => exact ⟨none, rfl⟩
    | some i =>
      obtain ⟨f, hf⟩ := Option.ne_none_iff_exists'.mp (ho i rfl)
      exact ⟨some f, FsState.getReg?_eq_ok.mpr (.inr ⟨i, f, rfl, rfl, hf⟩)⟩
  have hdir : ∀ o : Option ℕ, (∀ i, o = some i → ¬ s.dirs[i]? = none) →
      ∃ d, s.getDir? o = .ok d := by
    intro o ho
    cases o with
    | none => exact ⟨none, rfl⟩
    | some i =>
      obtain ⟨d, hd⟩ := Option.ne_none_iff_exists'.mp (ho i rfl)
      exact ⟨some d, FsState.getDir?_eq_ok.mpr (.inr ⟨i, d, rfl, rfl, hd⟩)⟩
  obtain ⟨f, hf⟩ := hreg _ hdr
  obtain ⟨d, hd⟩ := hdir _ hod
  obtain ⟨d', hd'⟩ := hdir _ hdd
  exact ⟨f, d, d', hp, hnp, hf, hd, hd'⟩

/-- The last behaviour ends when no inode is missing. -/
theorem replaceInodes_ok {s : FsState} {r : RenameReq} {p np : DirInode} {x : Replaced}
    (hp : s.dirs[r.parent]? = some p) (hnp : s.dirs[r.newparent]? = some np) (old dupl : Iter)
    (h : ¬ x.Missing s) : ∃ e, s.replaceInodes r old dupl x = .ok e := by
  obtain ⟨duplReg, oldDir, duplDir, -, -, hdr, hod, hdd⟩ :=
    replaceReads_of_not_missing (r := r) hp hnp h
  simp only [FsState.replaceInodes, FsState.getDir_of_some hp, FsState.getDir_of_some hnp, hdr, hod,
    hdd, bind, Except.bind]
  split
  · exact ⟨_, rfl⟩
  · split <;> exact ⟨_, rfl⟩

/-! ## The execution -/

/-- The second behaviour schedules the behaviour on the tables or nothing. -/
theorem ReplaceStep.spawned {s : FsState} {r : RenameReq} {old : Iter} {e : FsEffect}
    (h : ReplaceStep s r old e) :
    e.spawned = [] ∨ ∃ dupl, e = ⟨s, [.replaceTables r old dupl], []⟩ := by
  cases h with
  | one => exact .inl rfl
  | two => exact .inl rfl
  | target => exact .inr ⟨_, rfl⟩

/-- The same for all exits of the second behaviour. -/
theorem SourceStep.spawned {s : FsState} {r : RenameReq} {old : Iter} {e : FsEffect}
    (h : SourceStep s r old e) :
    e.spawned = [] ∨ ∃ dupl, e = ⟨s, [.replaceTables r old dupl], []⟩ := by
  cases h with
  | dir hdir hne hne' hstep =>
    cases hstep with
    | replace _ _ _ _ h => exact h.spawned
    | _ => exact .inl rfl
  | reg hdir hstep =>
    cases hstep with
    | replace _ _ _ _ h => exact h.spawned
    | silent => exact .inl rfl

/-- The execution from the behaviour on the tables on. -/
theorem renameEnd_of_tables {s : FsState} {r : RenameReq} {p np : DirInode} {old dupl : Iter}
    {c : FsConfig} (hreach : r.Reaches s p np old)
    (hstep : SourceStep s r old ⟨s, [.replaceTables r old dupl], []⟩)
    (hend : server.Settles ⟨s, [.replaceTables r old dupl], []⟩ c) : RenameEnd s r c := by
  have htables := replaceTables_ok hreach.parent hreach.newparent old dupl
  rcases hend.singleton_cases with ⟨rfl, hstuck⟩ | ⟨e, he, hend⟩
  · refine .hang hreach hstep fun hnodup => hstuck _ ⟨htables, ?_⟩
    rintro t ht
    rw [List.mem_singleton.mp ht]
    exact hnodup
  · obtain rfl := Except.ok.inj (htables.symm.trans he.body_eq)
    have hnodup : (FsTask.cowns (.replaceInodes r old dupl (s.replaced r old dupl p np))).Nodup :=
      he.nodup _ (List.mem_singleton.mpr rfl)
    rcases hend.singleton_cases with ⟨rfl, hstuck⟩ | ⟨e, he, hend⟩
    · refine .missing hreach hstep hnodup ?_
      by_contra hbad
      obtain ⟨e, he⟩ := replaceInodes_ok hreach.parent hreach.newparent old dupl hbad
      refine hstuck e ⟨he, ?_⟩
      cases replaceInodes_step he <;> simp
    · have hbody : s.replaceInodes r old dupl (s.replaced r old dupl p np) = .ok e := he.body_eq
      have hlast := replaceInodes_step hbody
      have hspawned : e.spawned = [] := by cases hlast <;> rfl
      rw [hspawned] at hend
      rw [System.settles_nil.mp hend]
      exact .replaced hreach hstep hnodup hlast

/-- The execution from the second behaviour on. -/
theorem renameEnd_of_source {s : FsState} {r : RenameReq} {p np : DirInode} {old : Iter}
    {e : FsEffect} {c : FsConfig} (hreach : r.Reaches s p np old) (hstep : SourceStep s r old e)
    (hend : server.Settles ⟨e.state, e.spawned, e.replies⟩ c) : RenameEnd s r c := by
  rcases hstep.spawned with hnil | ⟨dupl, rfl⟩
  · obtain ⟨s', spawned, rs⟩ := e
    obtain rfl : spawned = [] := hnil
    rw [System.settles_nil.mp hend]
    exact .done hreach hstep
  · exact renameEnd_of_tables hreach hstep hend

/-- The execution of `rename` comes to one of its ends. -/
theorem rename_end {s : FsState} {r : RenameReq} {c : FsConfig}
    (h : server.Serves s (.rename r) c) : RenameEnd s r c := by
  by_cases hlong : r.oldname.length > NAME_MAX ∨ r.newname.length > NAME_MAX
  · rw [h.answered (if_pos hlong)]
    exact .longName hlong
  have hshort : r.oldname.length ≤ NAME_MAX ∧ r.newname.length ≤ NAME_MAX := by omega
  have hhandle : server.handle (.rename r) s = (s.getDir r.parent >>= fun _ =>
      s.getDir r.newparent >>= fun _ => .ok ⟨s, [.rename r], []⟩) := if_neg hlong
  cases hp : s.dirs[r.parent]? with
  | none =>
    rw [FsState.getDir_of_none hp] at hhandle
    rw [h.failed hhandle]
    exact .badParent hshort (.inl hp)
  | some p =>
    rw [FsState.getDir_of_some hp] at hhandle
    cases hnp : s.dirs[r.newparent]? with
    | none =>
      rw [FsState.getDir_of_none hnp] at hhandle
      rw [h.failed hhandle]
      exact .badParent hshort (.inr hnp)
    | some np =>
      rw [FsState.getDir_of_some hnp] at hhandle
      rcases h.scheduled_cases hhandle r.nodup_parents with ⟨rfl, hstuck⟩ | ⟨e, he, hend⟩
      · by_cases hok : ∃ e, s.rename r = .ok e
        · obtain ⟨e, he⟩ := hok
          have hnodup : ¬ ∀ t ∈ e.spawned, (server.cowns t).Nodup :=
            fun hnodup => hstuck e ⟨he, hnodup⟩
          cases rename_step he with
          | noEntry => simp at hnodup
          | denied => simp at hnodup
          | dir hp hnp hfind hold hnew hdir hd =>
            refine .badSource ⟨hshort, hp, hnp, hfind, hold, hnew⟩ (.inl ⟨hdir, .inr ?_⟩)
            simpa [server, FsTask.cowns, RenameReq.mem_parents, r.nodup_parents,
              or_iff_not_imp_left] using hnodup
          | reg hp hnp hfind hold hnew hdir hf =>
            exfalso
            simp [server, FsTask.cowns, RenameReq.mem_parents, r.nodup_parents] at hnodup
        · have hbad := mt (rename_ok hp hnp) hok
          push Not at hbad
          obtain ⟨old, hfind, hold, hnew, hbad⟩ := hbad
          refine .badSource ⟨hshort, hp, hnp, hfind, hold, hnew⟩ ?_
          by_cases hdir : old.IsDir
          · refine .inl ⟨hdir, .inl (Option.eq_none_iff_forall_ne_some.mpr fun d hd => ?_)⟩
            exact absurd hdir (hbad fun _ => ⟨d, hd⟩).1
          · refine .inr ⟨hdir, Option.eq_none_iff_forall_ne_some.mpr fun f hf => ?_⟩
            exact (hbad fun h => absurd h hdir).2 f hf
      · have hbody : s.rename r = .ok e := he.body_eq
        cases rename_step hbody with
        | noEntry hp hnp hfind =>
          rw [System.settles_nil.mp hend]
          exact .refused hshort (.noEntry hp hnp hfind)
        | denied hp hnp hfind hacc =>
          rw [System.settles_nil.mp hend]
          exact .refused hshort (.denied hp hnp hfind hacc)
        | @dir p np d old hp hnp hfind hold hnew hdir hd =>
          have hreach : r.Reaches s p np old := ⟨hshort, hp, hnp, hfind, hold, hnew⟩
          have hne : old.entry.ino ≠ r.parent ∧ old.entry.ino ≠ r.newparent := by
            have hnodup := he.nodup (.renameDir r old) (List.mem_singleton.mpr rfl)
            simpa [server, FsTask.cowns, RenameReq.mem_parents, r.nodup_parents] using hnodup
          rcases hend.singleton_cases with ⟨rfl, hstuck⟩ | ⟨e, he, hend⟩
          · obtain ⟨e, he⟩ := renameDir_ok hp hnp hd
            have hstep : SourceStep s r old e := .dir hdir hne.1 hne.2 (renameDir_step he)
            refine absurd ⟨he, ?_⟩ (hstuck e)
            rcases hstep.spawned with hnil | ⟨dupl, rfl⟩
            · simp [hnil]
            · simp [server, FsTask.cowns]
          · exact renameEnd_of_source hreach (.dir hdir hne.1 hne.2 (renameDir_step he.body_eq)) hend
        | @reg p np f old hp hnp hfind hold hnew hdir hf =>
          have hreach : r.Reaches s p np old := ⟨hshort, hp, hnp, hfind, hold, hnew⟩
          rcases hend.singleton_cases with ⟨rfl, hstuck⟩ | ⟨e, he, hend⟩
          · obtain ⟨e, he⟩ := renameReg_ok hp hnp hf
            have hstep : SourceStep s r old e := .reg hdir (renameReg_step he)
            refine absurd ⟨he, ?_⟩ (hstuck e)
            rcases hstep.spawned with hnil | ⟨dupl, rfl⟩
            · simp [hnil]
            · simp [server, FsTask.cowns]
          · exact renameEnd_of_source hreach (.reg hdir (renameReg_step he.body_eq)) hend

end VeronaFs
