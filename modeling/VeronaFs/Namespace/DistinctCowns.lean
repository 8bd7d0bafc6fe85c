import VeronaFs.Namespace.Files
import VeronaFs.Namespace.Permission

/-!
# Distinct cowns

A behaviour that names a cown twice waits for itself.  All behaviours of the file system name
distinct cowns, with three exceptions in `rename` and one in `rmdir`: `whens_distinct_iff` gives the
condition on the request and the state under which everything that a request schedules names
distinct cowns.
-/

namespace VeronaFs

open Boc Foundation

/-! ## Behaviours behind a regular inode -/

/-- The behaviours that a file behaviour other than that of a request schedules name one cown. -/
theorem fileBody_spawned_of_block {s : FsState} {ino : ℕ} {t : FileTask} (ht : ∀ q, t ≠ .inode q)
    {e : FsEffect} (h : s.fileBody ino t = .ok e) :
    ∀ t' ∈ e.spawned, ∃ p, t' = .file ino (.count p) := by
  obtain ⟨f, e', -, he', rfl⟩ := fileBody_eq_ok.mp h
  intro t' ht'
  obtain ⟨b, hb, rfl⟩ := List.mem_map.mp ht'
  obtain ⟨a, p, -, rfl⟩ := (File.body_blockStep ht he').spawned b hb
  exact ⟨p, rfl⟩

/-- A behaviour behind a regular inode, other than that of a request, on distinct cowns. -/
def FsTask.IsBlock : FsTask → Prop
  | .file _ t => (∀ q, t ≠ .inode q) ∧ t.cowns.Nodup
  | _ => False

/-- Block behaviours name distinct cowns. -/
theorem FsTask.IsBlock.nodup {t : FsTask} (h : t.IsBlock) : t.cowns.Nodup := by
  cases t with
  | file ino t => exact h.2.map fun k k' heq => (inodePart ino).cown_inj k k' heq
  | _ => exact absurd h id

/-- Block behaviours schedule block behaviours. -/
theorem FsTask.IsBlock.spawned {t : FsTask} (h : t.IsBlock) {s : FsState} {e : FsEffect}
    (hbody : server.body t s = .ok e) : ∀ t' ∈ e.spawned, t'.IsBlock := by
  cases t with
  | file ino t =>
    intro t' ht'
    obtain ⟨p, rfl⟩ := fileBody_spawned_of_block h.1 hbody t' ht'
    exact ⟨by simp, by simp [FileTask.cowns]⟩
  | _ => exact absurd h id

/-- The behaviours that the behaviour of a request schedules are block behaviours. -/
theorem inodeBody_spawned_isBlock {f : File} (hwf : f.WF) {q : FileRequest}
    {e : Effect File FileTask Reply} (h : f.inodeBody q = .ok e) (ino : ℕ) :
    ∀ t ∈ e.spawned, (FsTask.file ino t).IsBlock := by
  intro t ht
  have hbody : File.body (.inode q) f = .ok e := h
  refine ⟨fun q' heq => ?_, (f.runs_inode hwf h).nodup t ht⟩
  have hrank := FileTask.rank_lt hbody ht
  rw [heq] at hrank
  exact absurd hrank (lt_irrefl _)

/-- What a behaviour of a request on a regular inode schedules names distinct cowns. -/
theorem issues_inode_nodup {s : FsState} (hwf : s.FilesWF) {ino : ℕ} {q : FileRequest} {t : FsTask}
    {rs : List Reply} (h : server.Issues ⟨s, [.file ino (.inode q)], rs⟩ t) :
    (server.cowns t).Nodup := by
  obtain ⟨e, hbody, h⟩ := System.issues_singleton.mp h
  obtain ⟨f, e', hf, he', rfl⟩ := fileBody_eq_ok.mp hbody
  have hspawned : ∀ t ∈ e'.spawned.map (FsTask.file ino), t.IsBlock := by
    intro t ht
    obtain ⟨b, hb, rfl⟩ := List.mem_map.mp ht
    exact inodeBody_spawned_isBlock (hwf ino f hf) he' ino b hb
  rcases h with ht | ⟨-, hissues⟩
  · exact (hspawned t ht).nodup
  · exact (hissues.invariant (P := FsTask.IsBlock) (fun b s e hb he => hb.spawned he)
      hspawned).nodup

/-! ## Behaviours that always name distinct cowns -/

/-- The behaviours that name distinct cowns, whatever they have captured, and schedule such
behaviours only. -/
def FsTask.Plain : FsTask → Prop
  | .file ino t => (FsTask.file ino t).IsBlock
  | .rmdir _ | .rmdirDir _ _ | .rename _ | .renameDir _ _ | .renameReg _ _ | .replaceTables _ _ _
  | .replaceInodes _ _ _ _ => False
  | _ => True

/-- Plain behaviours name distinct cowns. -/
theorem FsTask.Plain.nodup {t : FsTask} (h : t.Plain) : (server.cowns t).Nodup := by
  cases t with
  | file ino t =>
    have hblock : (FsTask.file ino t).IsBlock := h
    exact hblock.nodup
  | _ => first | exact absurd h id | simp [server, FsTask.cowns]

/-- Plain behaviours schedule plain behaviours. -/
theorem FsTask.Plain.spawned {t : FsTask} (h : t.Plain) {s : FsState} {e : FsEffect}
    (hbody : server.body t s = .ok e) : ∀ t' ∈ e.spawned, t'.Plain := by
  intro t' ht'
  have hbody' : FsState.body t s = .ok e := hbody
  cases t with
  | file ino t =>
    have hfile : (FsTask.file ino t).IsBlock := h
    have hblock := hfile.spawned hbody t' ht'
    cases t' with
    | file => exact hblock
    | _ => exact absurd hblock id
  | lookup req parent name =>
    cases lookup_step hbody with
    | noEntry => cases ht'
    | reg =>
      rw [List.mem_singleton.mp ht']
      trivial
    | dir =>
      rw [List.mem_singleton.mp ht']
      trivial
  | create r =>
    cases create_step hbody with
    | made =>
      rw [List.mem_singleton.mp ht']
      trivial
    | _ => cases ht'
  | mkdir r =>
    cases mkdir_step hbody with
    | made =>
      rw [List.mem_singleton.mp ht']
      trivial
    | _ => cases ht'
  | unlink r =>
    cases unlink_step hbody with
    | erased =>
      rw [List.mem_singleton.mp ht']
      trivial
    | _ => cases ht'
  | forgetReg ino nlookup =>
    obtain ⟨a, rfl⟩ := forgetReg_spawned hbody t' ht'
    exact ⟨by simp, by simp [FileTask.cowns]⟩
  | _ =>
    first
      | exact absurd h id
      | rw [leaf_spawned rfl (by simp) hbody'] at ht'
        cases ht'

/-- A request whose handler only schedules plain behaviours names distinct cowns throughout. -/
theorem issuesAlone_nodup_of_plain {s : FsState} {q : FsRequest} {t : FsTask}
    (hplain : ∀ e, server.handle q s = .ok e → ∀ t ∈ e.spawned, t.Plain)
    (h : server.IssuesAlone s q t) : (server.cowns t).Nodup := by
  obtain ⟨e, he, ht | ⟨-, hissues⟩⟩ := h
  · exact (hplain e he t ht).nodup
  · exact (hissues.invariant (P := FsTask.Plain) (fun b s e hb he => hb.spawned he)
      (hplain e he)).nodup

/-! ## The condition -/

/-- The second behaviour of `rename` gets to the target: its checks on the old inode pass. -/
def RenameReq.PassesSource (r : RenameReq) (s : FsState) (p : DirInode) (old : Iter) : Prop :=
  (old.IsDir ∧ ∃ d, s.dirs[old.entry.ino]? = some d ∧ ¬ r.SourceDenied d.iSt ∧ ¬ r.DirSticky d p) ∨
    (¬ old.IsDir ∧ ∃ f, s.regs[old.entry.ino]? = some f ∧ ¬ r.SourceDenied f.st ∧
      ¬ r.stickyDenied p.iSt f.st.stUid p.iSt.stUid = true)

/-- The inodes that the tables have for the numbers of the old entry and of the target are different
from each other and from the parents. -/
structure RenameReq.DistinctInodes (r : RenameReq) (s : FsState) (old dupl : ℕ) : Prop where
  /-- The regular inodes are different. -/
  reg : ∀ i, s.regTable[old]? = some i → s.regTable[dupl]? ≠ some i
  /-- The directories are different. -/
  dir : ∀ i, s.dirTable[old]? = some i → s.dirTable[dupl]? ≠ some i
  /-- The old directory is not a parent. -/
  old : ∀ i, s.dirTable[old]? = some i → i ≠ r.parent ∧ i ≠ r.newparent
  /-- The target is not a parent. -/
  dupl : ∀ i, s.dirTable[dupl]? = some i → i ≠ r.parent ∧ i ≠ r.newparent

/-- The condition under which everything that the execution of a request schedules names distinct
cowns: `rmdir` does not find an entry that names the parent itself, and `rename` does not find an
old entry that names one of the parents, or a target whose inode is the old one or one of the
parents. -/
def FsRequest.DistinctCowns (q : FsRequest) (s : FsState) : Prop :=
  match q with
  | .rmdir r => ∀ p it, s.dirs[r.parent]? = some p → p.find r.name = some it → it.IsDir →
      it.entry.ino ≠ r.parent
  | .rename r => ∀ p np old, r.Reaches s p np old →
      (old.IsDir → old.entry.ino ≠ r.parent ∧ old.entry.ino ≠ r.newparent) ∧
      ∀ dupl, np.find r.newname = some dupl → r.PassesSource s p old →
        r.DistinctInodes s old.entry.ino dupl.entry.ino
  | _ => True

/-- The condition under which the body of a behaviour only schedules behaviours on distinct cowns, in
whatever state it runs and whatever it has captured. -/
def FsTask.DistinctWhens (t : FsTask) (s : FsState) : Prop :=
  match t with
  | .rmdir r => (FsRequest.rmdir r).DistinctCowns s
  | .rename r => ∀ p np old, s.dirs[r.parent]? = some p → s.dirs[r.newparent]? = some np →
      p.find r.oldname = some old → p.CanWrite r.uid r.gid → np.CanWrite r.uid r.gid → old.IsDir →
        old.entry.ino ≠ r.parent ∧ old.entry.ino ≠ r.newparent
  | .replaceTables r old dupl => ∀ p np, s.dirs[r.parent]? = some p →
      s.dirs[r.newparent]? = some np →
        r.DistinctInodes s (p.deref (r.freed .tableOld) old).2 (np.deref (r.freed .tableDupl) dupl).2
  | _ => True

/-- Appending one more cown, if there is one. -/
theorem nodup_append_toList {α β : Type} {l : List β} {g : α → β} {o : Option α} :
    (l ++ (o.map g).toList).Nodup ↔ l.Nodup ∧ ∀ i, o = some i → g i ∉ l := by
  cases o with
  | none => simp
  | some a =>
    simp only [Option.map_some, Option.toList_some, Option.some.injEq, forall_eq']
    rw [List.nodup_append_comm, List.singleton_append, List.nodup_cons, and_comm]

/-- The cowns of the last behaviour of `rename`. -/
theorem nodup_cowns_replaceInodes {r : RenameReq} {old dupl : Iter} {x : Replaced} :
    (FsTask.cowns (.replaceInodes r old dupl x)).Nodup ↔
      (∀ i, x.duplReg = some i → x.oldReg ≠ some i) ∧
        (∀ i, x.oldDir = some i → i ≠ r.parent ∧ i ≠ r.newparent) ∧
        ∀ i, x.duplDir = some i → i ≠ r.parent ∧ i ≠ r.newparent ∧ x.oldDir ≠ some i := by
  rw [FsTask.cowns, Replaced.cowns, ← List.append_assoc, ← List.append_assoc, ← List.append_assoc]
  simp only [nodup_append_toList, r.nodup_parents, true_and]
  simp [RenameReq.mem_parents, and_assoc]

/-- The cowns of the last behaviour of `rename` are distinct when the inodes are. -/
theorem nodup_replaceInodes {s : FsState} {r : RenameReq} {p np : DirInode} {old dupl : Iter} :
    (FsTask.cowns (.replaceInodes r old dupl (s.replaced r old dupl p np))).Nodup ↔
      r.DistinctInodes s (p.deref (r.freed .tableOld) old).2
        (np.deref (r.freed .tableDupl) dupl).2 := by
  rw [nodup_cowns_replaceInodes]
  simp only [FsState.replaced]
  constructor
  · rintro ⟨hreg, hod, hdd⟩
    exact ⟨fun i ho hd => hreg i hd ho, fun i ho hd => (hdd i hd).2.2 ho, hod,
      fun i hd => ⟨(hdd i hd).1, (hdd i hd).2.1⟩⟩
  · rintro ⟨hreg, hdir, hod, hdd⟩
    exact ⟨fun i hd ho => hreg i ho hd, hod,
      fun i hd => ⟨(hdd i hd).1, (hdd i hd).2, fun ho => hdir i ho hd⟩⟩

/-- The same while the iterators point to entries. -/
theorem nodup_replaceInodes_of_has {s : FsState} {r : RenameReq} {p np : DirInode} {old dupl : Iter}
    (hold : p.Has old) (hdupl : np.Has dupl) :
    (FsTask.cowns (.replaceInodes r old dupl (s.replaced r old dupl p np))).Nodup ↔
      r.DistinctInodes s old.entry.ino dupl.entry.ino := by
  rw [nodup_replaceInodes, DirInode.deref_of_has hold, DirInode.deref_of_has hdupl]
  rfl

/-! ## Requests -/

/-- A request on an inode is refused, or schedules the behaviour on a regular inode or a plain
behaviour on a directory. -/
theorem handleOnInode_spawned {s : FsState} {ino : ℕ} {q : FileRequest} {e : FsEffect}
    (h : s.handleOnInode ino q = .ok e) :
    (∃ reply, e = ⟨s, [], [reply]⟩) ∨ e = ⟨s, [.file ino (.inode q)], []⟩ ∨
      ∃ t, t.Plain ∧ e = ⟨s, [t], []⟩ := by
  have hreg : s.handleReg ino q = .ok e → (∃ reply, e = ⟨s, [], [reply]⟩) ∨
      e = ⟨s, [.file ino (.inode q)], []⟩ ∨ ∃ t, t.Plain ∧ e = ⟨s, [t], []⟩ :=
    fun h => (handleReg_cases h).imp_right .inl
  cases q with
  | setattr r =>
    simp only [FsState.handleOnInode] at h
    split at h
    · exact hreg h
    · exact .inr (.inr ⟨.setattrDir ino r, trivial, handleDir_eq h⟩)
  | opendir req flags uid gid fi =>
    simp only [FsState.handleOnInode] at h
    split at h
    · exact .inr (.inr ⟨.opendirDir ino req flags uid gid fi, trivial, handleDir_eq h⟩)
    · exact hreg h
  | access req mask uid gid =>
    simp only [FsState.handleOnInode] at h
    split at h
    · exact .inr (.inr ⟨.accessDir ino req mask uid gid, trivial, handleDir_eq h⟩)
    · exact hreg h
  | _ => exact hreg h

/-- The handler of `readdir` answers or schedules its behaviour. -/
theorem handleReaddir_spawned {s : FsState} {r : ReaddirReq} {e : FsEffect}
    (h : s.handleReaddir r = .ok e) : ∀ t ∈ e.spawned, t.Plain := by
  unfold FsState.handleReaddir at h
  simp only at h
  split at h
  · rw [← Except.ok.inj h]
    simp
  · split at h
    · rw [← Except.ok.inj h]
      simp
    · obtain ⟨-, -, h⟩ := bind_eq_ok.mp h
      rw [← Except.ok.inj h]
      simp [FsTask.Plain]

/-- `rmdir` names distinct cowns when it does not find its own parent. -/
theorem rmdir_distinct_iff (s : FsState) (r : RemoveReq) :
    (∀ t, server.IssuesAlone s (.rmdir r) t → (server.cowns t).Nodup) ↔
      (FsRequest.rmdir r).DistinctCowns s := by
  constructor
  · intro h p it hp hfind hdir heq
    have hbody : s.rmdir r = .ok ⟨s, [.rmdirDir r it], []⟩ := by
      obtain ⟨e, he⟩ := rmdir_ok hp fun it' hfind' _ => by
        obtain rfl := Option.some.inj (hfind.symm.trans hfind')
        exact ⟨p, by rwa [heq]⟩
      cases rmdir_step he with
      | noEntry hp' hfind' =>
        obtain rfl := Option.some.inj (hp.symm.trans hp')
        rw [hfind] at hfind'
        cases hfind'
      | notDir hp' hfind' hone hodd =>
        obtain rfl := Option.some.inj (hp.symm.trans hp')
        obtain rfl := Option.some.inj (hfind.symm.trans hfind')
        have hdir' : it.entry.ino = 1 ∨ it.entry.ino % 2 = 0 := hdir
        omega
      | found hp' hfind' =>
        obtain rfl := Option.some.inj (hp.symm.trans hp')
        obtain rfl := Option.some.inj (hfind.symm.trans hfind')
        exact he
    have hhandle : server.handle (.rmdir r) s = .ok ⟨s, [.rmdir r], []⟩ := handleDir_of_some hp _
    have hnodup := h (.rmdirDir r it) ⟨_, hhandle, .inr ⟨⟨hhandle, by simp [server, FsTask.cowns]⟩,
      System.issues_singleton.mpr ⟨_, hbody, .inl List.mem_cons_self⟩⟩⟩
    simp [server, FsTask.cowns, heq] at hnodup
  · rintro h t ⟨e, he, ht⟩
    obtain rfl := handleDir_eq he
    rcases ht with ht | ⟨-, hissues⟩
    · rw [List.mem_singleton.mp ht]
      simp [server, FsTask.cowns]
    · obtain ⟨e, hbody, ht⟩ := System.issues_singleton.mp hissues
      cases rmdir_step hbody with
      | noEntry =>
        rcases ht with ht | ⟨-, hissues⟩
        · cases ht
        · exact absurd hissues System.not_issues_nil
      | notDir =>
        rcases ht with ht | ⟨-, hissues⟩
        · cases ht
        · exact absurd hissues System.not_issues_nil
      | @found p d it hp hfind hdir hd =>
        rcases ht with ht | ⟨-, hissues⟩
        · rw [List.mem_singleton.mp ht]
          simpa [server, FsTask.cowns] using h p it hp hfind hdir
        · obtain ⟨e, hbody, ht⟩ := System.issues_singleton.mp hissues
          have hbody' : FsState.body (.rmdirDir r it) _ = .ok e := hbody
          have hspawned : e.spawned = [] := leaf_spawned rfl (by simp) hbody'
          rw [hspawned] at ht
          rcases ht with ht | ⟨-, hissues⟩
          · cases ht
          · exact absurd hissues System.not_issues_nil

/-! ## Rename -/

/-- The first behaviour of `rename` schedules the second one for a directory. -/
theorem RenameReq.Reaches.rename_dir {r : RenameReq} {s : FsState} {p np d : DirInode} {old : Iter}
    (hreach : r.Reaches s p np old) (hdir : old.IsDir) (hd : s.dirs[old.entry.ino]? = some d) :
    s.rename r = .ok ⟨s, [.renameDir r old], []⟩ := by
  obtain ⟨e, he⟩ := rename_ok hreach.parent hreach.newparent fun old' hfind' _ _ => by
    obtain rfl := Option.some.inj (hreach.find.symm.trans hfind')
    exact ⟨fun _ => ⟨d, hd⟩, fun h => absurd hdir h⟩
  cases rename_step he with
  | noEntry hp hnp hfind =>
    obtain rfl := Option.some.inj (hreach.parent.symm.trans hp)
    rw [hreach.find] at hfind
    cases hfind
  | denied hp hnp hfind hacc =>
    obtain rfl := Option.some.inj (hreach.parent.symm.trans hp)
    obtain rfl := Option.some.inj (hreach.newparent.symm.trans hnp)
    exact absurd ⟨hreach.canWrite, hreach.canWriteNew⟩ hacc
  | dir hp hnp hfind hold hnew hdir' hd' =>
    obtain rfl := Option.some.inj (hreach.parent.symm.trans hp)
    obtain rfl := Option.some.inj (hreach.find.symm.trans hfind)
    exact he
  | reg hp hnp hfind hold hnew hdir' hf =>
    obtain rfl := Option.some.inj (hreach.parent.symm.trans hp)
    obtain rfl := Option.some.inj (hreach.find.symm.trans hfind)
    exact absurd hdir hdir'

/-- The first behaviour of `rename` schedules the second one for a regular inode. -/
theorem RenameReq.Reaches.rename_reg {r : RenameReq} {s : FsState} {p np : DirInode} {f : File}
    {old : Iter} (hreach : r.Reaches s p np old) (hdir : ¬ old.IsDir)
    (hf : s.regs[old.entry.ino]? = some f) : s.rename r = .ok ⟨s, [.renameReg r old], []⟩ := by
  obtain ⟨e, he⟩ := rename_ok hreach.parent hreach.newparent fun old' hfind' _ _ => by
    obtain rfl := Option.some.inj (hreach.find.symm.trans hfind')
    exact ⟨fun h => absurd h hdir, fun _ => ⟨f, hf⟩⟩
  cases rename_step he with
  | noEntry hp hnp hfind =>
    obtain rfl := Option.some.inj (hreach.parent.symm.trans hp)
    rw [hreach.find] at hfind
    cases hfind
  | denied hp hnp hfind hacc =>
    obtain rfl := Option.some.inj (hreach.parent.symm.trans hp)
    obtain rfl := Option.some.inj (hreach.newparent.symm.trans hnp)
    exact absurd ⟨hreach.canWrite, hreach.canWriteNew⟩ hacc
  | dir hp hnp hfind hold hnew hdir' hd' =>
    obtain rfl := Option.some.inj (hreach.parent.symm.trans hp)
    obtain rfl := Option.some.inj (hreach.find.symm.trans hfind)
    exact absurd hdir' hdir
  | reg hp hnp hfind hold hnew hdir' hf =>
    obtain rfl := Option.some.inj (hreach.parent.symm.trans hp)
    obtain rfl := Option.some.inj (hreach.find.symm.trans hfind)
    exact he

/-- `replace_entry` schedules the behaviour on the tables when there is a target. -/
theorem ReplaceStep.eq_of_target {s : FsState} {r : RenameReq} {p np : DirInode} {old dupl : Iter}
    (hreach : r.Reaches s p np old) (hfind : np.find r.newname = some dupl) {e : FsEffect}
    (h : ReplaceStep s r old e) : e = ⟨s, [.replaceTables r old dupl], []⟩ := by
  cases h with
  | one hsame hp hfind' =>
    obtain rfl := Option.some.inj (hreach.newparent.symm.trans (hsame ▸ hp))
    rw [hfind] at hfind'
    cases hfind'
  | two hne hp hnp hfind' =>
    obtain rfl := Option.some.inj (hreach.newparent.symm.trans hnp)
    rw [hfind] at hfind'
    cases hfind'
  | target hnp hfind' =>
    obtain rfl := Option.some.inj (hreach.newparent.symm.trans hnp)
    obtain rfl := Option.some.inj (hfind.symm.trans hfind')
    rfl

/-- The second behaviour on a directory gets to its update when its checks pass. -/
theorem RenameReq.Reaches.renameDir_replace {r : RenameReq} {s : FsState} {p np d : DirInode}
    {old : Iter} (hreach : r.Reaches s p np old) (hd : s.dirs[old.entry.ino]? = some d)
    (hden : ¬ r.SourceDenied d.iSt) (hsticky : ¬ r.DirSticky d p) :
    ∃ e, s.renameDir r old = .ok e ∧ ReplaceStep s r old e := by
  obtain ⟨e, he⟩ := renameDir_ok hreach.parent hreach.newparent hd
  refine ⟨e, he, ?_⟩
  cases renameDir_step he with
  | denied hd' hp' hsame hden' =>
    obtain rfl := Option.some.inj (hd.symm.trans hd')
    exact absurd hden' hden
  | silentDenied hd' hp' hne hden' =>
    obtain rfl := Option.some.inj (hd.symm.trans hd')
    exact absurd hden' hden
  | silentSticky hd' hp' hden' hsticky' =>
    obtain rfl := Option.some.inj (hd.symm.trans hd')
    obtain rfl := Option.some.inj (hreach.parent.symm.trans hp')
    exact absurd hsticky' hsticky
  | replace hd' hp' hden' hsticky' h => exact h

/-- The second behaviour on a regular inode gets to its update when its checks pass. -/
theorem RenameReq.Reaches.renameReg_replace {r : RenameReq} {s : FsState} {p np : DirInode}
    {f : File} {old : Iter} (hreach : r.Reaches s p np old)
    (hf : s.regs[old.entry.ino]? = some f) (hden : ¬ r.SourceDenied f.st)
    (hsticky : ¬ r.stickyDenied p.iSt f.st.stUid p.iSt.stUid = true) :
    ∃ e, s.renameReg r old = .ok e ∧ ReplaceStep s r old e := by
  obtain ⟨e, he⟩ := renameReg_ok hreach.parent hreach.newparent hf
  refine ⟨e, he, ?_⟩
  cases renameReg_step he with
  | silent hf' hp' hden' =>
    obtain rfl := Option.some.inj (hf.symm.trans hf')
    obtain rfl := Option.some.inj (hreach.parent.symm.trans hp')
    exact absurd hden' (by simpa using ⟨hden, by simpa using hsticky⟩)
  | replace hf' hp' hden' hsticky' h => exact h

/-- What is scheduled from the behaviour on the tables on. -/
theorem issues_replaceTables {s : FsState} {r : RenameReq} {p np : DirInode} {old dupl : Iter}
    (hreach : r.Reaches s p np old) {rs : List Reply} {t : FsTask}
    (h : server.Issues ⟨s, [.replaceTables r old dupl], rs⟩ t) :
    t = .replaceInodes r old dupl (s.replaced r old dupl p np) := by
  obtain ⟨e, he, ht⟩ := System.issues_singleton.mp h
  have htables := replaceTables_ok hreach.parent hreach.newparent old dupl
  obtain rfl := Except.ok.inj (htables.symm.trans he)
  rcases ht with ht | ⟨-, hissues⟩
  · exact List.mem_singleton.mp ht
  · obtain ⟨e, he, ht⟩ := System.issues_singleton.mp hissues
    have hbody : FsState.body (.replaceInodes r old dupl (s.replaced r old dupl p np)) s = .ok e :=
      he
    have hspawned : e.spawned = [] := leaf_spawned rfl (by simp) hbody
    rw [hspawned] at ht
    rcases ht with ht | ⟨-, hissues⟩
    · cases ht
    · exact absurd hissues System.not_issues_nil

/-- What is scheduled from the second behaviour on: the last behaviours, when it finds a target. -/
theorem issues_source {s : FsState} {r : RenameReq} {p np : DirInode} {old : Iter}
    (hreach : r.Reaches s p np old) {b : FsTask} {rs : List Reply} {t : FsTask}
    (hstep : ∀ e, server.body b s = .ok e → ReplaceStep s r old e ∧ r.PassesSource s p old ∨
      e.spawned = [])
    (h : server.Issues ⟨s, [b], rs⟩ t) :
    ∃ dupl, (t = .replaceTables r old dupl) ∨
      np.find r.newname = some dupl ∧ r.PassesSource s p old ∧
        t = .replaceInodes r old dupl (s.replaced r old dupl p np) := by
  obtain ⟨e, he, ht⟩ := System.issues_singleton.mp h
  rcases hstep e he with ⟨hreplace, hpass⟩ | hspawned
  · cases hreplace with
    | target hnp hfind =>
      obtain rfl := Option.some.inj (hreach.newparent.symm.trans hnp)
      rcases ht with ht | ⟨-, hissues⟩
      · exact ⟨_, .inl (List.mem_singleton.mp ht)⟩
      · exact ⟨_, .inr ⟨hfind, hpass, issues_replaceTables hreach hissues⟩⟩
    | _ =>
      rcases ht with ht | ⟨-, hissues⟩
      · cases ht
      · exact absurd hissues System.not_issues_nil
  · rw [hspawned] at ht
    rcases ht with ht | ⟨-, hissues⟩
    · cases ht
    · exact absurd hissues System.not_issues_nil

/-- What `rename` schedules on a directory that it moves. -/
theorem issues_renameDir {s : FsState} {r : RenameReq} {p np : DirInode} {old : Iter}
    (hreach : r.Reaches s p np old) (hdir : old.IsDir) {rs : List Reply} {t : FsTask}
    (h : server.Issues ⟨s, [.renameDir r old], rs⟩ t) :
    ∃ dupl, (t = .replaceTables r old dupl) ∨
      np.find r.newname = some dupl ∧ r.PassesSource s p old ∧
        t = .replaceInodes r old dupl (s.replaced r old dupl p np) := by
  refine issues_source hreach (fun e he => ?_) h
  cases renameDir_step he with
  | replace hd hp hden hsticky hreplace =>
    obtain rfl := Option.some.inj (hreach.parent.symm.trans hp)
    exact .inl ⟨hreplace, .inl ⟨hdir, _, hd, hden, hsticky⟩⟩
  | _ => exact .inr rfl

/-- What `rename` schedules on a regular inode that it moves. -/
theorem issues_renameReg {s : FsState} {r : RenameReq} {p np : DirInode} {old : Iter}
    (hreach : r.Reaches s p np old) (hdir : ¬ old.IsDir) {rs : List Reply} {t : FsTask}
    (h : server.Issues ⟨s, [.renameReg r old], rs⟩ t) :
    ∃ dupl, (t = .replaceTables r old dupl) ∨
      np.find r.newname = some dupl ∧ r.PassesSource s p old ∧
        t = .replaceInodes r old dupl (s.replaced r old dupl p np) := by
  refine issues_source hreach (fun e he => ?_) h
  cases renameReg_step he with
  | replace hf hp hden hsticky hreplace =>
    obtain rfl := Option.some.inj (hreach.parent.symm.trans hp)
    exact .inl ⟨hreplace, .inr ⟨hdir, _, hf, hden, hsticky⟩⟩
  | silent => exact .inr rfl

/-- Whatever `rename` schedules on its way names distinct cowns under the condition. -/
theorem issues_rename_nodup {s : FsState} {r : RenameReq} {rs : List Reply} {t : FsTask}
    (hshort : r.oldname.length ≤ NAME_MAX ∧ r.newname.length ≤ NAME_MAX)
    (hdistinct : (FsRequest.rename r).DistinctCowns s)
    (h : server.Issues ⟨s, [.rename r], rs⟩ t) : (server.cowns t).Nodup := by
  have hlast : ∀ {p np : DirInode} {old : Iter}, r.Reaches s p np old →
      (∃ dupl, (t = .replaceTables r old dupl) ∨
        np.find r.newname = some dupl ∧ r.PassesSource s p old ∧
          t = .replaceInodes r old dupl (s.replaced r old dupl p np)) → (server.cowns t).Nodup := by
    rintro p np old hreach ⟨dupl, rfl | ⟨hfind, hpass, rfl⟩⟩
    · simp [server, FsTask.cowns]
    · exact (nodup_replaceInodes_of_has (DirInode.find_eq_some.mp hreach.find).2
        (DirInode.find_eq_some.mp hfind).2).mpr ((hdistinct p np old hreach).2 dupl hfind hpass)
  obtain ⟨e, he, ht⟩ := System.issues_singleton.mp h
  cases rename_step he with
  | @dir p np d old hp hnp hfind hold hnew hdir hd =>
    have hreach : r.Reaches s p np old := ⟨hshort, hp, hnp, hfind, hold, hnew⟩
    rcases ht with ht | ⟨-, hissues⟩
    · rw [List.mem_singleton.mp ht]
      have hne := (hdistinct p np old hreach).1 hdir
      simpa [server, FsTask.cowns, RenameReq.mem_parents, r.nodup_parents] using hne
    · exact hlast hreach (issues_renameDir hreach hdir hissues)
  | @reg p np f old hp hnp hfind hold hnew hdir hf =>
    have hreach : r.Reaches s p np old := ⟨hshort, hp, hnp, hfind, hold, hnew⟩
    rcases ht with ht | ⟨-, hissues⟩
    · rw [List.mem_singleton.mp ht]
      simp [server, FsTask.cowns, RenameReq.mem_parents, r.nodup_parents]
    · exact hlast hreach (issues_renameReg hreach hdir hissues)
  | _ =>
    rcases ht with ht | ⟨-, hissues⟩
    · cases ht
    · exact absurd hissues System.not_issues_nil

/-- The handler of `rename` when names and parents are right. -/
theorem RenameReq.Reaches.handle_eq {r : RenameReq} {s : FsState} {p np : DirInode} {old : Iter}
    (hreach : r.Reaches s p np old) : server.handle (.rename r) s = .ok ⟨s, [.rename r], []⟩ := by
  have hlong : ¬ (r.oldname.length > NAME_MAX ∨ r.newname.length > NAME_MAX) := by
    have hshort := hreach.short
    omega
  have hhandle : server.handle (.rename r) s = (s.getDir r.parent >>= fun _ =>
      s.getDir r.newparent >>= fun _ => .ok ⟨s, [.rename r], []⟩) := if_neg hlong
  rw [hhandle, FsState.getDir_of_some hreach.parent, FsState.getDir_of_some hreach.newparent]
  rfl

/-- What the first behaviour of `rename` leads to is scheduled by the request. -/
theorem RenameReq.Reaches.issuesAlone {r : RenameReq} {s : FsState} {p np : DirInode} {old : Iter}
    (hreach : r.Reaches s p np old) {t : FsTask} (h : server.Issues ⟨s, [.rename r], []⟩ t) :
    server.IssuesAlone s (.rename r) t :=
  ⟨_, hreach.handle_eq, .inr ⟨⟨hreach.handle_eq, by simpa [server, FsTask.cowns] using
    r.nodup_parents⟩, h⟩⟩

/-- `rename` names distinct cowns exactly under the condition. -/
theorem rename_distinct_iff (s : FsState) (r : RenameReq) :
    (∀ t, server.IssuesAlone s (.rename r) t → (server.cowns t).Nodup) ↔
      (FsRequest.rename r).DistinctCowns s := by
  constructor
  · intro h p np old hreach
    have hold : ∀ d, old.IsDir → s.dirs[old.entry.ino]? = some d →
        (server.cowns (.renameDir r old)).Nodup := fun d hdir hd =>
      h _ (hreach.issuesAlone
        (System.issues_singleton.mpr ⟨_, hreach.rename_dir hdir hd, .inl List.mem_cons_self⟩))
    have hne : old.IsDir → old.entry.ino ≠ r.parent ∧ old.entry.ino ≠ r.newparent := by
      intro hdir
      constructor
      · intro heq
        have hnodup := hold p hdir (heq ▸ hreach.parent)
        simp [server, FsTask.cowns, RenameReq.mem_parents, heq] at hnodup
      · intro heq
        have hnodup := hold np hdir (heq ▸ hreach.newparent)
        simp [server, FsTask.cowns, RenameReq.mem_parents, heq] at hnodup
    refine ⟨hne, fun dupl hfind hpass => ?_⟩
    have htables : ∀ rs, server.Issues ⟨s, [.replaceTables r old dupl], rs⟩
        (.replaceInodes r old dupl (s.replaced r old dupl p np)) := fun rs =>
      System.issues_singleton.mpr ⟨_, replaceTables_ok hreach.parent hreach.newparent old dupl,
        .inl List.mem_cons_self⟩
    have hnodup : (server.cowns (.replaceInodes r old dupl (s.replaced r old dupl p np))).Nodup := by
      refine h _ (hreach.issuesAlone (System.issues_singleton.mpr ?_))
      rcases hpass with ⟨hdir, d, hd, hden, hsticky⟩ | ⟨hdir, f, hf, hden, hsticky⟩
      · obtain ⟨e, hbody, hstep⟩ := hreach.renameDir_replace hd hden hsticky
        obtain rfl := hstep.eq_of_target hreach hfind
        refine ⟨_, hreach.rename_dir hdir hd, .inr ⟨⟨hreach.rename_dir hdir hd, ?_⟩,
          System.issues_singleton.mpr ⟨_, hbody, .inr ⟨⟨hbody, ?_⟩, htables _⟩⟩⟩⟩
        · simpa using hold d hdir hd
        · simp [server, FsTask.cowns]
      · obtain ⟨e, hbody, hstep⟩ := hreach.renameReg_replace hf hden hsticky
        obtain rfl := hstep.eq_of_target hreach hfind
        refine ⟨_, hreach.rename_reg hdir hf, .inr ⟨⟨hreach.rename_reg hdir hf, ?_⟩,
          System.issues_singleton.mpr ⟨_, hbody, .inr ⟨⟨hbody, ?_⟩, htables _⟩⟩⟩⟩
        · simp [server, FsTask.cowns, RenameReq.mem_parents, r.nodup_parents]
        · simp [server, FsTask.cowns]
    exact (nodup_replaceInodes_of_has (DirInode.find_eq_some.mp hreach.find).2
      (DirInode.find_eq_some.mp hfind).2).mp hnodup
  · rintro hdistinct t ⟨e, he, ht⟩
    by_cases hlong : r.oldname.length > NAME_MAX ∨ r.newname.length > NAME_MAX
    · have hhandle : server.handle (.rename r) s = .ok ⟨s, [], []⟩ := if_pos hlong
      obtain rfl := Except.ok.inj (hhandle.symm.trans he)
      rcases ht with ht | ⟨-, hissues⟩
      · cases ht
      · exact absurd hissues System.not_issues_nil
    · have hhandle : server.handle (.rename r) s = (s.getDir r.parent >>= fun _ =>
          s.getDir r.newparent >>= fun _ => .ok ⟨s, [.rename r], []⟩) := if_neg hlong
      rw [hhandle] at he
      obtain ⟨-, -, he⟩ := bind_eq_ok.mp he
      obtain ⟨-, -, he⟩ := bind_eq_ok.mp he
      obtain rfl := Except.ok.inj he
      rcases ht with ht | ⟨-, hissues⟩
      · rw [List.mem_singleton.mp ht]
        exact r.nodup_parents
      · exact issues_rename_nodup (by omega) hdistinct hissues

/-! ## Every behaviour -/

/-- Plain behaviours only schedule behaviours on distinct cowns. -/
theorem FsTask.Plain.nodup_spawned {t : FsTask} (h : t.Plain) {s : FsState} {e : FsEffect}
    (hbody : server.body t s = .ok e) : ∀ t' ∈ e.spawned, (server.cowns t').Nodup :=
  fun t' ht' => (h.spawned hbody t' ht').nodup

/-- The second behaviour of `rename` only schedules behaviours on distinct cowns. -/
theorem ReplaceStep.nodup_spawned {s : FsState} {r : RenameReq} {old : Iter} {e : FsEffect}
    (h : ReplaceStep s r old e) : ∀ t ∈ e.spawned, (server.cowns t).Nodup := by
  cases h <;> simp [server, FsTask.cowns]

/-- A body only schedules behaviours on distinct cowns exactly under its condition. -/
theorem body_distinct_iff {s : FsState} (hwf : s.FilesWF) {t : FsTask} {e : FsEffect}
    (hbody : server.body t s = .ok e) :
    (∀ t' ∈ e.spawned, (server.cowns t').Nodup) ↔ t.DistinctWhens s := by
  have hbody' : FsState.body t s = .ok e := hbody
  have hplain : t.Plain → ∀ t' ∈ e.spawned, (server.cowns t').Nodup :=
    fun h => h.nodup_spawned hbody
  cases t with
  | file ino b =>
    refine iff_of_true (fun t' ht' => ?_) trivial
    by_cases hb : ∃ q, b = .inode q
    · obtain ⟨q, rfl⟩ := hb
      obtain ⟨f, e', hf, he', rfl⟩ := fileBody_eq_ok.mp hbody
      obtain ⟨b', hb', rfl⟩ := List.mem_map.mp ht'
      exact (inodeBody_spawned_isBlock (hwf ino f hf) he' ino b' hb').nodup
    · simp only [not_exists] at hb
      obtain ⟨p, rfl⟩ := fileBody_spawned_of_block hb hbody t' ht'
      simp [server, FsTask.cowns, FileTask.cowns]
  | rmdir r =>
    cases rmdir_step hbody with
    | noEntry hp hfind =>
      refine iff_of_true (by simp) fun p' it hp' hfind' => ?_
      obtain rfl := Option.some.inj (hp.symm.trans hp')
      rw [hfind] at hfind'
      cases hfind'
    | notDir hp hfind hone hodd =>
      refine iff_of_true (by simp) fun p' it hp' hfind' hdir => ?_
      obtain rfl := Option.some.inj (hp.symm.trans hp')
      obtain rfl := Option.some.inj (hfind.symm.trans hfind')
      rcases hdir with hdir | hdir <;> omega
    | found hp hfind hdir hd =>
      constructor
      · intro h p' it hp' hfind' hdir'
        obtain rfl := Option.some.inj (hp.symm.trans hp')
        obtain rfl := Option.some.inj (hfind.symm.trans hfind')
        simpa [server, FsTask.cowns] using h
      · intro h
        simpa [server, FsTask.cowns] using h _ _ hp hfind hdir
  | rename r =>
    cases rename_step hbody with
    | noEntry hp hnp hfind =>
      refine iff_of_true (by simp) fun p' np' old hp' hnp' hfind' => ?_
      obtain rfl := Option.some.inj (hp.symm.trans hp')
      rw [hfind] at hfind'
      cases hfind'
    | denied hp hnp hfind hacc =>
      refine iff_of_true (by simp) fun p' np' old hp' hnp' hfind' hold hnew => ?_
      obtain rfl := Option.some.inj (hp.symm.trans hp')
      obtain rfl := Option.some.inj (hnp.symm.trans hnp')
      exact absurd ⟨hold, hnew⟩ hacc
    | dir hp hnp hfind hold hnew hdir hd =>
      constructor
      · intro h p' np' old' hp' hnp' hfind' _ _ _
        obtain rfl := Option.some.inj (hp.symm.trans hp')
        obtain rfl := Option.some.inj (hfind.symm.trans hfind')
        simpa [server, FsTask.cowns, RenameReq.mem_parents, r.nodup_parents] using h
      · intro h
        have hne := h _ _ _ hp hnp hfind hold hnew hdir
        simpa [server, FsTask.cowns, RenameReq.mem_parents, r.nodup_parents] using hne
    | reg hp hnp hfind hold hnew hdir hf =>
      refine iff_of_true ?_ fun p' np' old' hp' hnp' hfind' _ _ hdir' => ?_
      · simp [server, FsTask.cowns, RenameReq.mem_parents, r.nodup_parents]
      · obtain rfl := Option.some.inj (hp.symm.trans hp')
        obtain rfl := Option.some.inj (hfind.symm.trans hfind')
        exact absurd hdir' hdir
  | renameDir r old =>
    refine iff_of_true ?_ trivial
    cases renameDir_step hbody with
    | replace _ _ _ _ h => exact h.nodup_spawned
    | _ => simp
  | renameReg r old =>
    refine iff_of_true ?_ trivial
    cases renameReg_step hbody with
    | replace _ _ _ _ h => exact h.nodup_spawned
    | silent => simp
  | replaceTables r old dupl =>
    obtain ⟨p, np, hp, hnp, rfl⟩ := replaceTables_step hbody
    constructor
    · intro h p' np' hp' hnp'
      obtain rfl := Option.some.inj (hp.symm.trans hp')
      obtain rfl := Option.some.inj (hnp.symm.trans hnp')
      exact nodup_replaceInodes.mp (h _ List.mem_cons_self)
    · intro h t' ht'
      rw [List.mem_singleton.mp ht']
      exact nodup_replaceInodes.mpr (h p np hp hnp)
  | rmdirDir r it =>
    have hspawned : e.spawned = [] := leaf_spawned rfl (by simp) hbody'
    exact iff_of_true (by simp [hspawned]) trivial
  | replaceInodes r old dupl x =>
    have hspawned : e.spawned = [] := leaf_spawned rfl (by simp) hbody'
    exact iff_of_true (by simp [hspawned]) trivial
  | _ => exact iff_of_true (hplain trivial) trivial

/-! ## Every request -/

/-- The handlers of all other requests only schedule plain behaviours. -/
theorem handle_plain {s : FsState} {q : FsRequest} {e : FsEffect}
    (hrmdir : ∀ r, q ≠ .rmdir r) (hrename : ∀ r, q ≠ .rename r)
    (hinode : ∀ ino q', q ≠ .onInode ino q') (h : server.handle q s = .ok e) :
    ∀ t ∈ e.spawned, t.Plain := by
  have hmake : ∀ {long : Prop} [Decidable long] {rs : List Reply} {parent : ℕ} {t : FsTask},
      t.Plain → (if long then .ok ⟨s, [], rs⟩ else s.handleDir parent t) = .ok e →
        ∀ t ∈ e.spawned, t.Plain := by
    intro long _ rs parent t ht h
    split at h
    · rw [← Except.ok.inj h]
      simp
    · rw [handleDir_eq h]
      simpa using ht
  cases q with
  | lookup req parent name =>
    rw [handleDir_eq h]
    simp [FsTask.Plain]
  | create r => exact hmake (t := .create r) trivial h
  | mkdir r => exact hmake (t := .mkdir r) trivial h
  | unlink r =>
    rw [handleDir_eq h]
    simp [FsTask.Plain]
  | rmdir r => exact absurd rfl (hrmdir r)
  | rename r => exact absurd rfl (hrename r)
  | readdir r => exact handleReaddir_spawned h
  | getattr req ino =>
    have h : s.getattr req ino = .ok e := h
    unfold FsState.getattr at h
    split at h <;>
    · obtain ⟨d, -, h⟩ := bind_eq_ok.mp h
      rw [← Except.ok.inj h]
      simp
  | forget ino nlookup =>
    have h : s.handleForget ino nlookup = .ok e := h
    unfold FsState.handleForget at h
    split at h
    · rw [handleDir_eq h]
      simp [FsTask.Plain]
    · obtain ⟨f, -, h⟩ := bind_eq_ok.mp h
      rw [← Except.ok.inj h]
      simp [FsTask.Plain]
  | onInode ino q => exact absurd rfl (hinode ino q)

/-- A request on an inode names distinct cowns throughout. -/
theorem onInode_distinct {s : FsState} (hwf : s.FilesWF) {ino : ℕ} {q : FileRequest} {t : FsTask}
    (h : server.IssuesAlone s (.onInode ino q) t) : (server.cowns t).Nodup := by
  obtain ⟨e, he, ht⟩ := h
  rcases handleOnInode_spawned he with ⟨reply, rfl⟩ | rfl | ⟨t', ht', rfl⟩
  · rcases ht with ht | ⟨-, hissues⟩
    · cases ht
    · exact absurd hissues System.not_issues_nil
  · rcases ht with ht | ⟨-, hissues⟩
    · rw [List.mem_singleton.mp ht]
      simp [server, FsTask.cowns, FileTask.cowns]
    · exact issues_inode_nodup hwf hissues
  · rcases ht with ht | ⟨-, hissues⟩
    · rw [List.mem_singleton.mp ht]
      exact ht'.nodup
    · exact (hissues.invariant (P := FsTask.Plain) (fun b s e hb he => hb.spawned he)
        (by simpa using ht')).nodup

/-- For every state.  All behaviours that the execution of a request schedules name pairwise distinct
cowns, if and only if the request is not a `rmdir` or `rename` whose entries name one of its parents
or the same inode twice.  And in any interleaving the body of a behaviour schedules behaviours on
pairwise distinct cowns exactly under the same condition on what it reads. -/
theorem whens_distinct_iff {s : FsState} (hwf : s.FilesWF) :
    (∀ q, (∀ t, server.IssuesAlone s q t → (server.cowns t).Nodup) ↔ q.DistinctCowns s) ∧
      ∀ t e, server.body t s = .ok e →
        ((∀ t' ∈ e.spawned, (server.cowns t').Nodup) ↔ t.DistinctWhens s) := by
  refine ⟨fun q => ?_, fun t e hbody => body_distinct_iff hwf hbody⟩
  cases q with
  | rmdir r => exact rmdir_distinct_iff s r
  | rename r => exact rename_distinct_iff s r
  | onInode ino q => exact iff_of_true (fun t ht => onInode_distinct hwf ht) trivial
  | _ =>
    refine iff_of_true (fun t ht => issuesAlone_nodup_of_plain (fun e he => ?_) ht) trivial
    exact handle_plain (by simp) (by simp) (by simp) he

/-- A new file system has no files. -/
theorem rootFs_filesWF : rootFs.FilesWF := by
  intro ino f hf
  simp [rootFs, FsState.init] at hf

/-- `mkdirA` and its behaviour name distinct cowns exactly under their conditions. -/
theorem whens_distinct_iff_mkdirA :
    ((∀ t, server.IssuesAlone rootFs (.mkdir mkdirA) t → (server.cowns t).Nodup) ↔
        (FsRequest.mkdir mkdirA).DistinctCowns rootFs) ∧
      ∃ e, server.body (.mkdir mkdirA) rootFs = .ok e ∧
        ((∀ t' ∈ e.spawned, (server.cowns t').Nodup) ↔
          (FsTask.mkdir mkdirA).DistinctWhens rootFs) := by
  obtain ⟨e, he⟩ := mkdir_ok (r := mkdirA) rootFs_dirs
  have hdistinct := whens_distinct_iff rootFs_filesWF
  exact ⟨hdistinct.1 (.mkdir mkdirA), e, he, hdistinct.2 (.mkdir mkdirA) e he⟩

/-! ## A rename that waits for itself -/

/-- Root renames the directory `a` to its own name. -/
def renameAA : RenameReq where
  req := 3
  parent := 1
  oldname := [97]
  newparent := 1
  newname := [97]
  uid := 0
  gid := 0
  now := 0
  node := 5
  freed := fun _ => Iter.contents

/-- `renameAA` gets to its target. -/
theorem renameAA_reaches : renameAA.Reaches fsA rootDirA rootDirA ⟨[97], ⟨2, 4⟩⟩ where
  short := by decide
  parent := fsA_dirs.1
  newparent := fsA_dirs.1
  find := rootDirA_find
  canWrite := by decide
  canWriteNew := by decide

/-- Root makes a directory and renames it to its own name: the last behaviour of `rename` would name
the directory twice. -/
theorem renameAA_not_distinct :
    server.Serial (fun _ _ => True) rootFs
        [(.mkdir mkdirA, [.entry 1 (MakeReq.entryParam mkdirA.dirStat)])] fsA ∧
      ∃ t, server.IssuesAlone fsA (.rename renameAA) t ∧ ¬ (server.cowns t).Nodup := by
  refine ⟨System.Serial.nil.snoc trivial serves_mkdirA, ?_⟩
  by_contra hno
  push Not at hno
  have hdistinct := ((rename_distinct_iff fsA renameAA).mp hno _ _ _ renameAA_reaches).2 _
    rootDirA_find (.inl ⟨.inr rfl, mkdirA.addedDir, fsA_dirs.2, by decide, by
      unfold RenameReq.DirSticky
      decide⟩)
  have htable : fsA.dirTable[2]? = some 2 := by
    change (rootFs.dirTable.insertIfNew 2 2)[2]? = some 2
    rw [StdMap.get?_insertIfNew]
    simp [rootFs, FsState.init, FUSE_ROOT_ID]
  exact hdistinct.dir 2 htable htable

end VeronaFs
