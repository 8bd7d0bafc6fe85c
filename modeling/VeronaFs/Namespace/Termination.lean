import VeronaFs.Namespace.RenameSteps

/-!
# Executions end

The behaviours of the file system only schedule behaviours of a smaller rank, so every execution of
what is pending ends (`exists_serves`).
-/

namespace VeronaFs

open Boc Foundation

/-- The behaviours behind a regular inode. -/
theorem fileBody_eq_ok {s : FsState} {ino : ℕ} {t : FileTask} {e : FsEffect} :
    s.fileBody ino t = .ok e ↔ ∃ f e', s.regs[ino]? = some f ∧ File.body t f = .ok e' ∧
      e = ⟨s.setReg ino e'.state, e'.spawned.map (.file ino), e'.replies⟩ := by
  unfold FsState.fileBody
  cases hf : s.regs[ino]? with
  | none => simp
  | some f =>
    cases he : File.body t f with
    | error x => simp [Except.map, he]
    | ok e' => simp [Except.map, he, eq_comm]

/-- The behaviour of `forget` on a regular inode schedules the release of its blocks. -/
theorem forgetReg_spawned {s : FsState} {ino nlookup : ℕ} {e : FsEffect}
    (h : s.forgetReg ino nlookup = .ok e) : ∀ t ∈ e.spawned, ∃ a, t = .file ino (.freeSpace a) := by
  obtain ⟨f, -, h⟩ := bind_eq_ok.mp h
  obtain ⟨krefs, -, h⟩ := bind_eq_ok.mp h
  split at h
  · rw [← Except.ok.inj h]
    intro t ht
    obtain ⟨x, -, rfl⟩ := List.mem_map.mp ht
    exact ⟨_, rfl⟩
  · rw [← Except.ok.inj h]
    simp

/-- The behaviour of `setattr` on a directory schedules nothing. -/
theorem setattrDir_spawned {s : FsState} {ino : ℕ} {r : SetattrReq} {e : FsEffect}
    (h : s.setattrDir ino r = .ok e) : e.spawned = [] := by
  obtain ⟨d, -, h⟩ := bind_eq_ok.mp h
  split at h
  · rw [← Except.ok.inj h]
  · split at h
    · obtain ⟨ret, -, h⟩ := bind_eq_ok.mp h
      split at h <;> rw [← Except.ok.inj h]
    · rw [← Except.ok.inj h]

/-- The behaviours that neither scan entries nor wait for others schedule nothing. -/
theorem leaf_spawned {t : FsTask} {s : FsState} {e : FsEffect} (ht : t.rank = 0)
    (hfile : ∀ ino b, t ≠ .file ino b) (h : FsState.body t s = .ok e) : e.spawned = [] := by
  cases t with
  | file ino b => exact absurd rfl (hfile ino b)
  | addDir ino st =>
    obtain ⟨d, -, h⟩ := bind_eq_ok.mp h
    split at h
    · cases h
    · rw [← Except.ok.inj h]
  | addReg ino st =>
    obtain ⟨f, -, h⟩ := bind_eq_ok.mp h
    split at h
    · cases h
    · rw [← Except.ok.inj h]
  | lookupReg req ino =>
    obtain ⟨f, -, h⟩ := bind_eq_ok.mp h
    obtain ⟨-, -, h⟩ := bind_eq_ok.mp h
    rw [← Except.ok.inj h]
  | lookupDir req ino =>
    obtain ⟨d, -, h⟩ := bind_eq_ok.mp h
    obtain ⟨-, -, h⟩ := bind_eq_ok.mp h
    rw [← Except.ok.inj h]
  | unlinkReg r ino =>
    obtain ⟨f, p, -, -, rfl⟩ := unlinkReg_step h
    rfl
  | rmdirDir r it => cases rmdirDir_step h <;> rfl
  | replaceInodes r old dupl x => cases replaceInodes_step h <;> rfl
  | readdir r entries pos off =>
    obtain ⟨d, -, h⟩ := bind_eq_ok.mp h
    rw [← Except.ok.inj h]
  | setattrDir ino r => exact setattrDir_spawned h
  | opendirDir ino req flags uid gid fi =>
    obtain ⟨d, -, h⟩ := bind_eq_ok.mp h
    split at h
    · obtain ⟨ret, -, h⟩ := bind_eq_ok.mp h
      split at h <;> rw [← Except.ok.inj h]
    · rw [← Except.ok.inj h]
  | accessDir ino req mask uid gid =>
    obtain ⟨d, -, h⟩ := bind_eq_ok.mp h
    obtain ⟨ret, -, h⟩ := bind_eq_ok.mp h
    rw [← Except.ok.inj h]
  | forgetDir ino nlookup =>
    obtain ⟨d, -, h⟩ := bind_eq_ok.mp h
    obtain ⟨krefs, -, h⟩ := bind_eq_ok.mp h
    split at h <;> rw [← Except.ok.inj h]
  | _ => cases ht

/-- The rank goes down along `when`. -/
theorem FsTask.rank_lt {t : FsTask} {s : FsState} {e : FsEffect} (h : FsState.body t s = .ok e) :
    ∀ t' ∈ e.spawned, t'.rank < t.rank := by
  intro t' ht'
  have hreplace : ∀ r old, ReplaceStep s r old e → t'.rank < 2 := by
    rintro r old hstep
    cases hstep with
    | one => cases ht'
    | two => cases ht'
    | target =>
      rw [List.mem_singleton.mp ht']
      exact Nat.one_lt_two
  cases t with
  | file ino b =>
    obtain ⟨f, e', -, he', rfl⟩ := fileBody_eq_ok.mp h
    obtain ⟨b', hb', rfl⟩ := List.mem_map.mp ht'
    exact FileTask.rank_lt he' hb'
  | lookup req parent name =>
    cases lookup_step h with
    | noEntry => cases ht'
    | reg => simp [List.mem_singleton.mp ht', rank]
    | dir => simp [List.mem_singleton.mp ht', rank]
  | create r =>
    cases create_step h with
    | made => simp [List.mem_singleton.mp ht', rank]
    | _ => cases ht'
  | mkdir r =>
    cases mkdir_step h with
    | made => simp [List.mem_singleton.mp ht', rank]
    | _ => cases ht'
  | unlink r =>
    cases unlink_step h with
    | erased => simp [List.mem_singleton.mp ht', rank]
    | _ => cases ht'
  | rmdir r =>
    cases rmdir_step h with
    | found => simp [List.mem_singleton.mp ht', rank]
    | _ => cases ht'
  | rename r =>
    cases rename_step h with
    | dir => simp [List.mem_singleton.mp ht', rank]
    | reg => simp [List.mem_singleton.mp ht', rank]
    | _ => cases ht'
  | renameDir r old =>
    cases renameDir_step h with
    | replace _ _ _ _ hstep => exact hreplace r old hstep
    | _ => cases ht'
  | renameReg r old =>
    cases renameReg_step h with
    | replace _ _ _ _ hstep => exact hreplace r old hstep
    | silent => cases ht'
  | replaceTables r old dupl =>
    obtain ⟨p, np, -, -, rfl⟩ := replaceTables_step h
    simp [List.mem_singleton.mp ht', rank]
  | forgetReg ino nlookup =>
    obtain ⟨a, rfl⟩ := forgetReg_spawned h t' ht'
    simp [rank, FileTask.rank]
  | _ =>
    rw [leaf_spawned rfl (by simp) h] at ht'
    cases ht'

/-- The execution of a request alone ends. -/
theorem exists_serves (s : FsState) (q : FsRequest) : ∃ c, server.Serves s q c :=
  System.exists_serves FsTask.rank (fun _ _ _ h => FsTask.rank_lt h) s q

end VeronaFs
