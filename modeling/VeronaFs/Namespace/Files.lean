import VeronaFs.FileSystem.Runs
import VeronaFs.Namespace.Termination

/-!
# Regular inodes in a run

The data of a regular inode are changed by the behaviours behind it only; every other behaviour
keeps blocks, block map and read buffers, and `create` makes an empty file.  The block maps of all
files stay well formed in every run (`filesWF_run`).
-/

namespace VeronaFs

open Boc Foundation

/-- How a behaviour leaves the regular inode `ino`: `f'` is the inode afterwards. -/
inductive FileChange (t : FsTask) (s : FsState) (ino : ℕ) (f' : File) : Prop
  /-- The data are those the inode had. -/
  | kept {f : File} (hf : s.regs[ino]? = some f) (hdata : f.SameData f')
  /-- The inode is new. -/
  | made {r : MakeReq} (ht : t = .create r) (hino : ino = r.regIno) (hf' : f' = r.newReg)
  /-- A behaviour behind the inode ran. -/
  | ran {b : FileTask} {f : File} {e : Effect File FileTask Reply} (ht : t = .file ino b)
      (hf : s.regs[ino]? = some f) (hbody : File.body b f = .ok e) (hf' : f' = e.state)

section FileChange

variable {t : FsTask} {s : FsState} {ino : ℕ} {f f' : File}

/-- The regular inodes are the same. -/
theorem FileChange.of_eq {s' : FsState} (h : s'.regs = s.regs) (hf' : s'.regs[ino]? = some f') :
    FileChange t s ino f' :=
  .kept (h ▸ hf') (.refl f')

/-- One regular inode was replaced, with its data kept. -/
theorem FileChange.of_insert {i : ℕ} {g : File} (hf : s.regs[i]? = some f)
    (hf' : (s.regs.insert i g)[ino]? = some f') (hdata : f.SameData g) : FileChange t s ino f' := by
  rw [StdMap.get?_insert] at hf'
  split at hf'
  · next h =>
    subst h
    rw [← Option.some.inj hf']
    exact .kept hf hdata
  · exact .kept hf' (.refl f')

/-- A link less keeps the data. -/
theorem FileChange.of_dropLink {x : Option ℕ} {g : Option File} (hg : s.getReg? x = .ok g)
    (hf' : (s.dropLink x g).regs[ino]? = some f') : FileChange t s ino f' := by
  rcases FsState.getReg?_eq_ok.mp hg with ⟨rfl, rfl⟩ | ⟨i, g, rfl, rfl, hg'⟩
  · exact .of_eq rfl hf'
  · exact .of_insert hg' hf' ⟨rfl, rfl, rfl⟩

/-- `replace_entry` leaves the regular inodes. -/
theorem ReplaceStep.regs_eq {r : RenameReq} {old : Iter} {e : FsEffect}
    (h : ReplaceStep s r old e) : e.state.regs = s.regs := by
  cases h <;> rfl

/-- Every body leaves a regular inode in one of these ways. -/
theorem body_fileChange {e : FsEffect} (h : FsState.body t s = .ok e)
    (hf' : e.state.regs[ino]? = some f') : FileChange t s ino f' := by
  cases t with
  | file i b =>
    obtain ⟨f, e', hf, he', rfl⟩ := fileBody_eq_ok.mp h
    rw [FsState.regs_setReg] at hf'
    split at hf'
    · next hi =>
      subst hi
      exact .ran rfl hf he' (Option.some.inj hf').symm
    · exact .kept hf' (.refl f')
  | addDir i st =>
    obtain ⟨d, -, h⟩ := bind_eq_ok.mp h
    split at h
    · cases h
    · obtain rfl := Except.ok.inj h
      exact .of_eq rfl hf'
  | addReg i st =>
    obtain ⟨f, hf, h⟩ := bind_eq_ok.mp h
    rw [FsState.getReg_eq_ok] at hf
    split at h
    · cases h
    · obtain rfl := Except.ok.inj h
      exact .of_insert hf hf' ⟨rfl, rfl, rfl⟩
  | lookup req parent name => cases lookup_step h <;> exact .of_eq rfl hf'
  | lookupReg req i =>
    obtain ⟨f, hf, h⟩ := bind_eq_ok.mp h
    rw [FsState.getReg_eq_ok] at hf
    obtain ⟨-, -, h⟩ := bind_eq_ok.mp h
    obtain rfl := Except.ok.inj h
    exact .of_insert hf hf' ⟨rfl, rfl, rfl⟩
  | lookupDir req i =>
    obtain ⟨d, -, h⟩ := bind_eq_ok.mp h
    obtain ⟨-, -, h⟩ := bind_eq_ok.mp h
    obtain rfl := Except.ok.inj h
    exact .of_eq rfl hf'
  | create r =>
    cases create_step h with
    | made =>
      simp only [FsState.regs_setDir, FsState.regs_setReg] at hf'
      split at hf'
      · next hi => exact .made rfl hi.symm (Option.some.inj hf').symm
      · exact .kept hf' (.refl f')
    | _ => exact .of_eq rfl hf'
  | mkdir r => cases mkdir_step h <;> exact .of_eq rfl hf'
  | unlink r => cases unlink_step h <;> exact .of_eq rfl hf'
  | unlinkReg r i =>
    obtain ⟨f, p, hf, -, rfl⟩ := unlinkReg_step h
    exact .of_insert hf hf' ⟨rfl, rfl, rfl⟩
  | rmdir r => cases rmdir_step h <;> exact .of_eq rfl hf'
  | rmdirDir r it => cases rmdirDir_step h <;> exact .of_eq rfl hf'
  | rename r => cases rename_step h <;> exact .of_eq rfl hf'
  | renameDir r old =>
    cases renameDir_step h with
    | replace _ _ _ _ hstep => exact .of_eq hstep.regs_eq hf'
    | _ => exact .of_eq rfl hf'
  | renameReg r old =>
    cases renameReg_step h with
    | replace _ _ _ _ hstep => exact .of_eq hstep.regs_eq hf'
    | silent => exact .of_eq rfl hf'
  | replaceTables r old dupl =>
    obtain ⟨p, np, -, -, rfl⟩ := replaceTables_step h
    exact .of_eq rfl hf'
  | replaceInodes r old dupl x =>
    cases replaceInodes_step h with
    | refused => exact .of_eq rfl hf'
    | one _ hreads => exact .of_dropLink hreads.duplReg hf'
    | two _ hreads => exact .of_dropLink hreads.duplReg hf'
  | readdir r entries pos off =>
    obtain ⟨d, -, h⟩ := bind_eq_ok.mp h
    obtain rfl := Except.ok.inj h
    exact .of_eq rfl hf'
  | setattrDir i r =>
    obtain ⟨d, -, h⟩ := bind_eq_ok.mp h
    split at h
    · obtain rfl := Except.ok.inj h
      exact .of_eq rfl hf'
    · split at h
      · obtain ⟨ret, -, h⟩ := bind_eq_ok.mp h
        split at h <;>
        · obtain rfl := Except.ok.inj h
          exact .of_eq rfl hf'
      · obtain rfl := Except.ok.inj h
        exact .of_eq rfl hf'
  | opendirDir i req flags uid gid fi =>
    obtain ⟨d, -, h⟩ := bind_eq_ok.mp h
    split at h
    · obtain ⟨ret, -, h⟩ := bind_eq_ok.mp h
      split at h <;>
      · obtain rfl := Except.ok.inj h
        exact .of_eq rfl hf'
    · obtain rfl := Except.ok.inj h
      exact .of_eq rfl hf'
  | accessDir i req mask uid gid =>
    obtain ⟨d, -, h⟩ := bind_eq_ok.mp h
    obtain ⟨ret, -, h⟩ := bind_eq_ok.mp h
    obtain rfl := Except.ok.inj h
    exact .of_eq rfl hf'
  | forgetDir i nlookup =>
    obtain ⟨d, -, h⟩ := bind_eq_ok.mp h
    obtain ⟨krefs, -, h⟩ := bind_eq_ok.mp h
    split at h <;>
    · obtain rfl := Except.ok.inj h
      exact .of_eq rfl hf'
  | forgetReg i nlookup =>
    obtain ⟨f, hf, h⟩ := bind_eq_ok.mp h
    rw [FsState.getReg_eq_ok] at hf
    obtain ⟨krefs, -, h⟩ := bind_eq_ok.mp h
    split at h <;>
    · obtain rfl := Except.ok.inj h
      exact .of_insert hf hf' ⟨rfl, rfl, rfl⟩

end FileChange

/-! ## The dispatcher -/

/-- The handler of a request on a directory schedules its behaviour. -/
theorem handleDir_eq {s : FsState} {ino : ℕ} {t : FsTask} {e : FsEffect}
    (h : s.handleDir ino t = .ok e) : e = ⟨s, [t], []⟩ := by
  obtain ⟨-, -, h⟩ := bind_eq_ok.mp h
  exact (Except.ok.inj h).symm

/-- The handler of a request on a regular inode refuses it or schedules its behaviour. -/
theorem handleReg_cases {s : FsState} {ino : ℕ} {q : FileRequest} {e : FsEffect}
    (h : s.handleReg ino q = .ok e) :
    (∃ reply, e = ⟨s, [], [reply]⟩) ∨ e = ⟨s, [.file ino (.inode q)], []⟩ := by
  unfold FsState.handleReg at h
  split at h
  · exact .inl ⟨_, (Except.ok.inj h).symm⟩
  · obtain ⟨-, -, h⟩ := bind_eq_ok.mp h
    exact .inr (Except.ok.inj h).symm

/-- The dispatcher leaves the state and schedules at most one behaviour. -/
theorem handle_cases {s : FsState} {q : FsRequest} {e : FsEffect}
    (h : server.handle q s = .ok e) :
    (∃ rs, e = ⟨s, [], rs⟩) ∨ ∃ t, e = ⟨s, [t], []⟩ := by
  have hdir : ∀ {ino t}, s.handleDir ino t = .ok e →
      (∃ rs, e = ⟨s, [], rs⟩) ∨ ∃ t, e = ⟨s, [t], []⟩ :=
    fun h => .inr ⟨_, handleDir_eq h⟩
  have hreg : ∀ {ino q}, s.handleReg ino q = .ok e →
      (∃ rs, e = ⟨s, [], rs⟩) ∨ ∃ t, e = ⟨s, [t], []⟩ := by
    intro ino q h
    rcases handleReg_cases h with ⟨reply, rfl⟩ | rfl
    · exact .inl ⟨_, rfl⟩
    · exact .inr ⟨_, rfl⟩
  have hmake : ∀ {long : Prop} [Decidable long] {rs : List Reply} {parent : ℕ} {t : FsTask},
      (if long then .ok ⟨s, [], rs⟩ else s.handleDir parent t) = .ok e →
        (∃ rs, e = ⟨s, [], rs⟩) ∨ ∃ t, e = ⟨s, [t], []⟩ := by
    intro long _ rs parent t h
    split at h
    · exact .inl ⟨rs, (Except.ok.inj h).symm⟩
    · exact hdir h
  cases q with
  | lookup req parent name => exact hdir h
  | create r => exact hmake h
  | mkdir r => exact hmake h
  | unlink r => exact hdir h
  | rmdir r => exact hdir h
  | rename r =>
    by_cases hlong : r.oldname.length > NAME_MAX ∨ r.newname.length > NAME_MAX
    · have hhandle : server.handle (.rename r) s = .ok ⟨s, [], []⟩ := if_pos hlong
      exact .inl ⟨[], Except.ok.inj (h.symm.trans hhandle)⟩
    · have hhandle : server.handle (.rename r) s = (s.getDir r.parent >>= fun _ =>
          s.getDir r.newparent >>= fun _ => .ok ⟨s, [.rename r], []⟩) := if_neg hlong
      rw [hhandle] at h
      obtain ⟨-, -, h⟩ := bind_eq_ok.mp h
      obtain ⟨-, -, h⟩ := bind_eq_ok.mp h
      exact .inr ⟨_, (Except.ok.inj h).symm⟩
  | readdir r =>
    have h : s.handleReaddir r = .ok e := h
    unfold FsState.handleReaddir at h
    simp only at h
    split at h
    · exact .inl ⟨_, (Except.ok.inj h).symm⟩
    · split at h
      · exact .inl ⟨_, (Except.ok.inj h).symm⟩
      · obtain ⟨-, -, h⟩ := bind_eq_ok.mp h
        exact .inr ⟨_, (Except.ok.inj h).symm⟩
  | getattr req ino =>
    have h : s.getattr req ino = .ok e := h
    unfold FsState.getattr at h
    split at h <;>
    · obtain ⟨d, -, h⟩ := bind_eq_ok.mp h
      exact .inl ⟨_, (Except.ok.inj h).symm⟩
  | forget ino nlookup =>
    have h : s.handleForget ino nlookup = .ok e := h
    unfold FsState.handleForget at h
    split at h
    · exact hdir h
    · obtain ⟨-, -, h⟩ := bind_eq_ok.mp h
      exact .inr ⟨_, (Except.ok.inj h).symm⟩
  | onInode ino q =>
    have h : s.handleOnInode ino q = .ok e := h
    unfold FsState.handleOnInode at h
    split at h
    · split at h
      · exact hreg h
      · exact hdir h
    · split at h
      · exact hdir h
      · exact hreg h
    · split at h
      · exact hdir h
      · exact hreg h
    · exact hreg h

/-- The dispatcher leaves the state. -/
theorem handle_state {s : FsState} {q : FsRequest} {e : FsEffect}
    (h : server.handle q s = .ok e) : e.state = s := by
  rcases handle_cases h with ⟨rs, rfl⟩ | ⟨t, rfl⟩ <;> rfl

/-! ## Well-formed files -/

/-- The block maps of all files are well formed. -/
def FsState.FilesWF (s : FsState) : Prop := ∀ (ino : ℕ) (f : File), s.regs[ino]? = some f → f.WF

/-- Behaviours keep the block maps well formed. -/
theorem File.body_wf {t : FileTask} {f : File} {e : Effect File FileTask Reply} (hwf : f.WF)
    (h : File.body t f = .ok e) : e.state.WF := by
  by_cases ht : ∃ q, t = .inode q
  · obtain ⟨q, rfl⟩ := ht
    exact ((File.inodeBody_requestStep h).fileInv_spawned hwf []).wf
  · simp only [not_exists] at ht
    have hstep := File.body_blockStep ht h
    exact ⟨by rw [hstep.inode_eq, hstep.length_eq]; exact hwf.bounded,
      by rw [hstep.inode_eq]; exact hwf.injective⟩

/-- Behaviours keep all block maps well formed. -/
theorem FsState.FilesWF.body {t : FsTask} {s : FsState} {e : FsEffect} (hwf : s.FilesWF)
    (h : FsState.body t s = .ok e) : e.state.FilesWF := by
  intro ino f' hf'
  cases body_fileChange h hf' with
  | kept hf hdata => exact (hdata.grows fun _ => True).wf (hwf ino _ hf)
  | made ht hino hf' =>
    rw [hf']
    exact ⟨by simp [MakeReq.newReg, File.make], by simp [MakeReq.newReg, File.make]⟩
  | ran ht hf hbody hf' =>
    rw [hf']
    exact File.body_wf (hwf ino _ hf) hbody

/-- The block maps of all files are well formed in every run of the new file system. -/
theorem filesWF_run {uid gid : ℕ} {now : ℤ} {tr : FsTrace} {c : FsConfig}
    (h : server.Run ⟨.init uid gid now, [], []⟩ tr c) : c.state.FilesWF := by
  refine h.invariant (P := fun _ c => c.state.FilesWF) ?_ ?_
  · intro ino f hf
    simp [FsState.init] at hf
  · intro tr c l c' hwf hstep
    cases hstep with
    | request hrun =>
      have hstate := handle_state hrun.handle_eq
      simpa only [hstate] using hwf
    | run hfree hrun => exact FsState.FilesWF.body hwf hrun.body_eq

end VeronaFs
