import VeronaFs.FileSystem.Released
import VeronaFs.Namespace.Files

/-!
# Regular inodes and their table

Few behaviours touch the regular inodes and their table: those behind an inode, `create` with the
`add_inode` it schedules, `lookup` and `forget`.  All others keep the table, and of every regular inode
its data, its number and its references (`body_keepsRegs`).

`Registers` is what every run keeps: an inode that is still to be entered into the table has no
references and is not there, and it is entered once.  It assumes of the allocator that it returns
addresses that are even and not in use.
-/

namespace VeronaFs

open Boc Foundation

/-! ## Behaviours apart from the regular inodes -/

/-- A behaviour that neither runs behind a regular inode nor enters one into the table. -/
def FsTask.Apart : FsTask → Prop
  | .file _ _ => False
  | .addReg _ _ => False
  | _ => True

/-- The behaviours that change the regular inodes or their table in more than the attributes. -/
def FsTask.ChangesRegs : FsTask → Prop
  | .file _ _ => True
  | .addReg _ _ => True
  | .lookupReg _ _ => True
  | .forgetReg _ _ => True
  | .create _ => True
  | _ => False

/-- A behaviour that keeps the table of the regular inodes, and the data, the number and the references
of each, and that schedules nothing for them. -/
structure KeepsRegs (s : FsState) (e : FsEffect) : Prop where
  /-- The table. -/
  table_eq : e.state.regTable = s.regTable
  /-- There is no other inode. -/
  regs : ∀ (ino : ℕ) (f' : File), e.state.regs[ino]? = some f' →
    ∃ f, s.regs[ino]? = some f ∧ f.SameData f' ∧ f.SameRefs f'
  /-- No inode goes away. -/
  kept : ∀ ino : ℕ, s.regs[ino]? ≠ none → e.state.regs[ino]? ≠ none
  /-- What is scheduled is for other cowns. -/
  spawned : ∀ t ∈ e.spawned, t.Apart

section KeepsRegs

variable {s : FsState} {e : FsEffect} {t : FsTask}

/-- The regular inodes are the same. -/
theorem KeepsRegs.of_eq (hregs : e.state.regs = s.regs) (htable : e.state.regTable = s.regTable)
    (hspawned : ∀ t ∈ e.spawned, t.Apart) : KeepsRegs s e where
  table_eq := htable
  regs _ f' hf' := ⟨f', hregs ▸ hf', .refl f', .refl f'⟩
  kept _ hino := hregs ▸ hino
  spawned := hspawned

/-- The state is the same and nothing is scheduled. -/
theorem KeepsRegs.of_nil (hregs : e.state.regs = s.regs) (htable : e.state.regTable = s.regTable)
    (hnil : e.spawned = []) : KeepsRegs s e :=
  .of_eq hregs htable fun t ht => by simp [hnil] at ht

/-- One behaviour is scheduled. -/
theorem KeepsRegs.of_one {t : FsTask} {rs : List Reply} (ht : t.Apart) : KeepsRegs s ⟨s, [t], rs⟩ :=
  .of_eq rfl rfl fun _ ht' => List.mem_singleton.mp ht' ▸ ht

/-- The attributes of one regular inode were changed. -/
theorem KeepsRegs.of_insert {i : ℕ} {f g : File} (hf : s.regs[i]? = some f)
    (hregs : e.state.regs = s.regs.insert i g) (htable : e.state.regTable = s.regTable)
    (hdata : f.SameData g) (hrefs : f.SameRefs g) (hnil : e.spawned = []) : KeepsRegs s e where
  table_eq := htable
  regs ino f' hf' := by
    rw [hregs, StdMap.get?_insert] at hf'
    split at hf'
    · next hi =>
      obtain rfl := Option.some.inj hf'
      exact ⟨f, hi ▸ hf, hdata, hrefs⟩
    · exact ⟨f', hf', .refl f', .refl f'⟩
  kept ino hino := by
    rw [hregs, StdMap.get?_insert]
    split
    · exact Option.some_ne_none g
    · exact hino
  spawned := by simp [hnil]

/-- A link less for a regular inode. -/
theorem KeepsRegs.of_dropLink {x : Option ℕ} {g : Option File} (hg : s.getReg? x = .ok g)
    (hregs : e.state.regs = (s.dropLink x g).regs) (htable : e.state.regTable = s.regTable)
    (hnil : e.spawned = []) : KeepsRegs s e := by
  rcases FsState.getReg?_eq_ok.mp hg with ⟨rfl, rfl⟩ | ⟨i, g, rfl, rfl, hg'⟩
  · exact .of_nil hregs htable hnil
  · exact .of_insert hg' hregs htable ⟨rfl, rfl, rfl⟩ ⟨rfl, rfl⟩ hnil

/-- `replace_entry` leaves the regular inodes. -/
theorem ReplaceStep.keepsRegs {r : RenameReq} {old : Iter} (h : ReplaceStep s r old e) :
    KeepsRegs s e := by
  cases h with
  | one => exact .of_nil rfl rfl rfl
  | two => exact .of_nil rfl rfl rfl
  | target => exact .of_one trivial

/-- A link less leaves the table. -/
theorem FsState.regTable_dropLink (s : FsState) (x : Option ℕ) (g : Option File) :
    (s.dropLink x g).regTable = s.regTable := by
  unfold dropLink
  split <;> rfl

/-- All other behaviours keep the regular inodes. -/
theorem body_keepsRegs (h : FsState.body t s = .ok e) (ht : ¬ t.ChangesRegs) : KeepsRegs s e := by
  cases t with
  | addDir i st =>
    obtain ⟨d, -, h⟩ := bind_eq_ok.mp h
    split at h
    · cases h
    · obtain rfl := Except.ok.inj h
      exact .of_nil rfl rfl rfl
  | lookup req parent name =>
    cases lookup_step h with
    | noEntry => exact .of_nil rfl rfl rfl
    | reg => exact .of_one trivial
    | dir => exact .of_one trivial
  | lookupDir req i =>
    obtain ⟨d, -, h⟩ := bind_eq_ok.mp h
    obtain ⟨-, -, h⟩ := bind_eq_ok.mp h
    obtain rfl := Except.ok.inj h
    exact .of_nil rfl rfl rfl
  | mkdir r =>
    cases mkdir_step h with
    | made => exact .of_eq rfl rfl fun t ht => by rw [List.mem_singleton.mp ht]; trivial
    | _ => exact .of_nil rfl rfl rfl
  | unlink r =>
    cases unlink_step h with
    | erased => exact .of_eq rfl rfl fun t ht => by rw [List.mem_singleton.mp ht]; trivial
    | _ => exact .of_nil rfl rfl rfl
  | unlinkReg r i =>
    obtain ⟨f, p, hf, -, rfl⟩ := unlinkReg_step h
    exact .of_insert hf rfl rfl ⟨rfl, rfl, rfl⟩ ⟨rfl, rfl⟩ rfl
  | rmdir r =>
    cases rmdir_step h with
    | found => exact .of_one trivial
    | _ => exact .of_nil rfl rfl rfl
  | rmdirDir r it => cases rmdirDir_step h <;> exact .of_nil rfl rfl rfl
  | rename r =>
    cases rename_step h with
    | dir => exact .of_one trivial
    | reg => exact .of_one trivial
    | _ => exact .of_nil rfl rfl rfl
  | renameDir r old =>
    cases renameDir_step h with
    | replace _ _ _ _ hstep => exact hstep.keepsRegs
    | _ => exact .of_nil rfl rfl rfl
  | renameReg r old =>
    cases renameReg_step h with
    | replace _ _ _ _ hstep => exact hstep.keepsRegs
    | silent => exact .of_nil rfl rfl rfl
  | replaceTables r old dupl =>
    obtain ⟨p, np, -, -, rfl⟩ := replaceTables_step h
    exact .of_one trivial
  | replaceInodes r old dupl x =>
    cases replaceInodes_step h with
    | refused => exact .of_nil rfl rfl rfl
    | one _ hreads => exact .of_dropLink hreads.duplReg rfl (s.regTable_dropLink _ _) rfl
    | two _ hreads => exact .of_dropLink hreads.duplReg rfl (s.regTable_dropLink _ _) rfl
  | readdir r entries pos off =>
    obtain ⟨d, -, h⟩ := bind_eq_ok.mp h
    obtain rfl := Except.ok.inj h
    exact .of_nil rfl rfl rfl
  | setattrDir i r =>
    obtain ⟨d, -, h⟩ := bind_eq_ok.mp h
    split at h
    · obtain rfl := Except.ok.inj h
      exact .of_nil rfl rfl rfl
    · split at h
      · obtain ⟨ret, -, h⟩ := bind_eq_ok.mp h
        split at h <;>
        · obtain rfl := Except.ok.inj h
          exact .of_nil rfl rfl rfl
      · obtain rfl := Except.ok.inj h
        exact .of_nil rfl rfl rfl
  | opendirDir i req flags uid gid fi =>
    obtain ⟨d, -, h⟩ := bind_eq_ok.mp h
    split at h
    · obtain ⟨ret, -, h⟩ := bind_eq_ok.mp h
      split at h <;>
      · obtain rfl := Except.ok.inj h
        exact .of_nil rfl rfl rfl
    · obtain rfl := Except.ok.inj h
      exact .of_nil rfl rfl rfl
  | accessDir i req mask uid gid =>
    obtain ⟨d, -, h⟩ := bind_eq_ok.mp h
    obtain ⟨ret, -, h⟩ := bind_eq_ok.mp h
    obtain rfl := Except.ok.inj h
    exact .of_nil rfl rfl rfl
  | forgetDir i nlookup =>
    obtain ⟨d, -, h⟩ := bind_eq_ok.mp h
    obtain ⟨krefs, -, h⟩ := bind_eq_ok.mp h
    split at h <;>
    · obtain rfl := Except.ok.inj h
      exact .of_nil rfl rfl rfl
  | _ => exact absurd trivial ht

/-- An inode that was there has its data, its number and its references. -/
theorem KeepsRegs.of_some (h : KeepsRegs s e) {ino : ℕ} {f : File} (hf : s.regs[ino]? = some f) :
    ∃ f', e.state.regs[ino]? = some f' ∧ f.SameData f' ∧ f.SameRefs f' := by
  obtain ⟨f', hf'⟩ := Option.ne_none_iff_exists'.mp (h.kept ino (by simp [hf]))
  obtain ⟨f₀, hf₀, hdata, hrefs⟩ := h.regs ino f' hf'
  obtain rfl := Option.some.inj (hf.symm.trans hf₀)
  exact ⟨f', hf', hdata, hrefs⟩

end KeepsRegs

/-! ## The behaviours on the table -/

section Table

variable {s : FsState} {e : FsEffect}

/-- The effect of `add_inode` on a regular inode. -/
theorem addReg_step {ino : ℕ} {st : Stat} (h : s.addReg ino st = .ok e) :
    ∃ f : File, s.regs[ino]? = some f ∧ f.inode.krefs = 0 ∧
      e = ⟨{ s.setReg ino { f with inode := { f.inode with
          iSt := st, ino := st.stIno, krefs := f.inode.krefs + 1 } } with
        regTable := s.regTable.insertIfNew st.stIno ino }, [], []⟩ := by
  obtain ⟨f, hf, h⟩ := bind_eq_ok.mp h
  rw [FsState.getReg_eq_ok] at hf
  split at h
  · cases h
  · next hkrefs => exact ⟨f, hf, not_not.mp hkrefs, (Except.ok.inj h).symm⟩

/-- The effect of `lookup` on a regular inode: with the new reference it has a positive number of them
when it is in the table, and none when it is not. -/
theorem lookupReg_step {req ino : ℕ} (h : s.lookupReg req ino = .ok e) :
    ∃ f : File, s.regs[ino]? = some f ∧
      (if s.regTable[f.inode.ino]? = none then f.inode.krefs + 1 = 0 else 0 < f.inode.krefs + 1) ∧
      e = ⟨{ s.setReg ino { f with inode := { f.inode with krefs := f.inode.krefs + 1 } } with
        regTable := s.regTable.insertIfNew f.inode.ino ino }, [],
        [.entry req (FsState.lookupEntry f.inode.iSt)]⟩ := by
  obtain ⟨f, hf, h⟩ := bind_eq_ok.mp h
  rw [FsState.getReg_eq_ok] at hf
  obtain ⟨u, hcheck, h⟩ := bind_eq_ok.mp h
  refine ⟨f, hf, ?_, (Except.ok.inj h).symm⟩
  unfold FsState.getInodeCheck at hcheck
  cases hfound : s.regTable[f.inode.ino]? with
  | none =>
    simp only [hfound, Option.isSome_none, Bool.false_eq_true, if_false] at hcheck
    split at hcheck
    · next hzero => simpa using hzero
    · cases hcheck
  | some v =>
    simp only [hfound, Option.isSome_some, if_true] at hcheck
    split at hcheck
    · next hpos => simpa using hpos
    · cases hcheck

/-- The number of references after a forget. -/
theorem forgetKrefs_eq_ok {krefs krefs' : ℤ} {nlookup : ℕ}
    (h : FsState.forgetKrefs krefs nlookup = .ok krefs') : 0 < krefs ∧ 0 ≤ krefs' := by
  unfold FsState.forgetKrefs at h
  split at h
  · next hpos =>
    simp only at h
    split at h
    · next hle =>
      rw [← Except.ok.inj h]
      exact ⟨hpos, hle⟩
    · cases h
  · cases h

/-- The exits of `forget` on a regular inode. -/
inductive ForgetRegStep (s : FsState) (ino : ℕ) : FsEffect → Prop
  /-- References or links are left. -/
  | left {f : File} {krefs : ℤ} (hf : s.regs[ino]? = some f) (hpos : 0 < f.inode.krefs)
      (hle : 0 ≤ krefs) : ForgetRegStep s ino ⟨s.setReg ino { f with inode.krefs := krefs }, [], []⟩
  /-- The inode is erased from the table and its blocks are released. -/
  | erased {f : File} {krefs : ℤ} (hf : s.regs[ino]? = some f) (hpos : 0 < f.inode.krefs)
      (hle : 0 ≤ krefs) : ForgetRegStep s ino
        ⟨{ s.setReg ino { f with inode.krefs := krefs } with regTable := s.regTable.erase ino },
          (File.releases f.inode.dataBlocks.toList).map (.file ino), []⟩

/-- The body of `forget` takes one of its exits. -/
theorem forgetReg_step {ino nlookup : ℕ} (h : s.forgetReg ino nlookup = .ok e) :
    ForgetRegStep s ino e := by
  obtain ⟨f, hf, h⟩ := bind_eq_ok.mp h
  rw [FsState.getReg_eq_ok] at hf
  obtain ⟨krefs, hkrefs, h⟩ := bind_eq_ok.mp h
  obtain ⟨hpos, hle⟩ := forgetKrefs_eq_ok hkrefs
  split at h
  · have hreleases : (File.releases f.inode.dataBlocks.toList).map (FsTask.file ino) =
        f.inode.dataBlocks.toList.map fun e => .file ino (.freeSpace e.2) := List.map_map
    have herased := ForgetRegStep.erased (s := s) hf hpos hle
    rw [hreleases] at herased
    rw [← Except.ok.inj h]
    exact herased
  · rw [← Except.ok.inj h]
    exact .left hf hpos hle

end Table

/-! ## The dispatcher -/

/-- The dispatcher schedules the behaviour of a request on a regular inode that exists, or a behaviour
apart from the regular inodes. -/
theorem handle_spawned {s : FsState} {q : FsRequest} {e : FsEffect} (h : server.handle q s = .ok e)
    {t : FsTask} (ht : t ∈ e.spawned) :
    t.Apart ∨ ∃ ino q f, t = .file ino (.inode q) ∧ s.regs[ino]? = some f := by
  have hdir : ∀ {ino : ℕ} {t' : FsTask}, s.handleDir ino t' = .ok e → t'.Apart → t.Apart := by
    intro ino t' h ht'
    rw [handleDir_eq h] at ht
    rwa [List.mem_singleton.mp ht]
  have hreg : ∀ {ino : ℕ} {q : FileRequest}, s.handleReg ino q = .ok e →
      ∃ ino q f, t = .file ino (.inode q) ∧ s.regs[ino]? = some f := by
    intro ino q h
    unfold FsState.handleReg at h
    split at h
    · rw [← Except.ok.inj h] at ht
      cases ht
    · obtain ⟨f, hf, h⟩ := bind_eq_ok.mp h
      rw [FsState.getReg_eq_ok] at hf
      rw [← Except.ok.inj h] at ht
      exact ⟨ino, q, f, List.mem_singleton.mp ht, hf⟩
  have hmake : ∀ {long : Prop} [Decidable long] {rs : List Reply} {parent : ℕ} {t' : FsTask},
      (if long then .ok ⟨s, [], rs⟩ else s.handleDir parent t') = .ok e → t'.Apart → t.Apart := by
    intro long _ rs parent t' h ht'
    split at h
    · rw [← Except.ok.inj h] at ht
      cases ht
    · exact hdir h ht'
  cases q with
  | lookup req parent name => exact .inl (hdir h trivial)
  | create r => exact .inl (hmake h trivial)
  | mkdir r => exact .inl (hmake h trivial)
  | unlink r => exact .inl (hdir h trivial)
  | rmdir r => exact .inl (hdir h trivial)
  | rename r =>
    have h : s.handleRename r = .ok e := h
    unfold FsState.handleRename at h
    split at h
    · rw [← Except.ok.inj h] at ht
      cases ht
    · obtain ⟨-, -, h⟩ := bind_eq_ok.mp h
      obtain ⟨-, -, h⟩ := bind_eq_ok.mp h
      rw [← Except.ok.inj h] at ht
      rw [List.mem_singleton.mp ht]
      exact .inl trivial
  | readdir r =>
    have h : s.handleReaddir r = .ok e := h
    unfold FsState.handleReaddir at h
    simp only at h
    split at h
    · rw [← Except.ok.inj h] at ht
      cases ht
    · split at h
      · rw [← Except.ok.inj h] at ht
        cases ht
      · obtain ⟨-, -, h⟩ := bind_eq_ok.mp h
        rw [← Except.ok.inj h] at ht
        rw [List.mem_singleton.mp ht]
        exact .inl trivial
  | getattr req ino =>
    have h : s.getattr req ino = .ok e := h
    unfold FsState.getattr at h
    split at h <;>
    · obtain ⟨d, -, h⟩ := bind_eq_ok.mp h
      rw [← Except.ok.inj h] at ht
      cases ht
  | forget ino nlookup =>
    have h : s.handleForget ino nlookup = .ok e := h
    unfold FsState.handleForget at h
    split at h
    · exact .inl (hdir h trivial)
    · obtain ⟨-, -, h⟩ := bind_eq_ok.mp h
      rw [← Except.ok.inj h] at ht
      rw [List.mem_singleton.mp ht]
      exact .inl trivial
  | onInode ino q =>
    have h : s.handleOnInode ino q = .ok e := h
    unfold FsState.handleOnInode at h
    split at h
    · split at h
      · exact .inr (hreg h)
      · exact .inl (hdir h trivial)
    · split at h
      · exact .inl (hdir h trivial)
      · exact .inr (hreg h)
    · split at h
      · exact .inl (hdir h trivial)
      · exact .inr (hreg h)
    · exact .inr (hreg h)

/-! ## The invariant -/

/-- The number of the inode that a behaviour enters into the table. -/
def FsTask.added? : FsTask → Option ℕ
  | .addReg ino _ => some ino
  | _ => none

/-- The number is that of an inode that was never in the table: nothing refers to the inode, which has
its own address for a number. -/
structure FsState.Unregistered (s : FsState) (ino : ℕ) : Prop where
  /-- Numbers of regular inodes are odd. -/
  odd : ino % 2 = 1
  /-- The inode is not in the table. -/
  absent : s.regTable[ino]? = none
  /-- The inode has no references, and an address for a number. -/
  inode : ∃ f, s.regs[ino]? = some f ∧ f.inode.krefs = 0 ∧ f.inode.ino % 2 = 0

/-- The allocator returns even addresses, and none that is in use. -/
def FsTask.Placed (t : FsTask) (s : FsState) : Prop :=
  match t with
  | .create r => r.addr % 2 = 0 ∧ r.this % 2 = 0 ∧ s.regs[r.regIno]? = none
  | _ => True

/-- What every run keeps of the regular inodes and their table. -/
structure Registers (c : FsConfig) : Prop where
  /-- Numbers in the table are odd. -/
  odd : ∀ ino : ℕ, c.state.regTable[ino]? ≠ none → ino % 2 = 1
  /-- The inodes in the table exist. -/
  known : ∀ ino : ℕ, c.state.regTable[ino]? ≠ none → c.state.regs[ino]? ≠ none
  /-- The number of references is not negative. -/
  krefs_nonneg : ∀ (ino : ℕ) (f : File), c.state.regs[ino]? = some f → 0 ≤ f.inode.krefs
  /-- Behaviours are pending behind inodes that exist. -/
  file : ∀ ino b, .file ino b ∈ c.pending → c.state.regs[ino]? ≠ none
  /-- An inode that is to be entered was never in the table. -/
  adding : ∀ ino st, .addReg ino st ∈ c.pending → st.stIno = ino ∧ c.state.Unregistered ino
  /-- It is entered once. -/
  once : (c.pending.filterMap FsTask.added?).Nodup

section Registers

variable {s : FsState} {pre post : List FsTask} {t : FsTask} {rs rs' : List Reply} {e : FsEffect}

/-- A behaviour that enters an inode. -/
theorem FsTask.added?_eq_some {ino : ℕ} : t.added? = some ino ↔ ∃ st, t = .addReg ino st := by
  cases t <;> simp [added?]

/-- The inode of an `add_inode` comes first. -/
theorem filterMap_added?_addReg (ino : ℕ) (st : Stat) (l : List FsTask) :
    (FsTask.addReg ino st :: l).filterMap FsTask.added? = ino :: l.filterMap FsTask.added? := rfl

/-- Nothing is registered in the new file system. -/
theorem registers_init (uid gid : ℕ) (now : ℤ) : Registers ⟨.init uid gid now, [], []⟩ where
  odd ino h := absurd (by simp [FsState.init]) h
  known ino h := absurd (by simp [FsState.init]) h
  krefs_nonneg ino f h := by simp [FsState.init] at h
  file ino b h := absurd h List.not_mem_nil
  adding ino st h := absurd h List.not_mem_nil
  once := List.nodup_nil

/-- A request keeps the invariant. -/
theorem Registers.request {pending : List FsTask} {q : FsRequest} (h : Registers ⟨s, pending, rs⟩)
    (hhandle : server.handle q s = .ok e) : Registers ⟨e.state, pending ++ e.spawned, rs'⟩ := by
  have hstate := handle_state hhandle
  have hnone : e.spawned.filterMap FsTask.added? = [] := by
    refine List.filterMap_eq_nil_iff.mpr fun t ht => ?_
    rcases handle_spawned hhandle ht with hapart | ⟨ino, q, f, rfl, -⟩
    · cases t <;> first | rfl | exact absurd hapart id
    · rfl
  rw [hstate]
  refine ⟨h.odd, h.known, h.krefs_nonneg, fun ino b hmem => ?_, fun ino st hmem => ?_, ?_⟩
  · rcases List.mem_append.mp hmem with hmem | hmem
    · exact h.file ino b hmem
    · rcases handle_spawned hhandle hmem with hapart | ⟨i, q, f, heq, hf⟩
      · exact absurd hapart id
      · obtain ⟨rfl, rfl⟩ := FsTask.file.inj heq
        simp [hf]
  · rcases List.mem_append.mp hmem with hmem | hmem
    · exact h.adding ino st hmem
    · rcases handle_spawned hhandle hmem with hapart | ⟨i, q, f, heq, -⟩
      · exact absurd hapart id
      · cases heq
  · rw [List.filterMap_append, hnone, List.append_nil]
    exact h.once

/-- The inodes that are entered by the behaviours that stay pending. -/
theorem filterMap_added?_drop : ((pre ++ post).filterMap FsTask.added?).Sublist
    ((pre ++ t :: post).filterMap FsTask.added?) :=
  ((List.Sublist.refl pre).append (List.sublist_cons_self t post)).filterMap FsTask.added?

/-- The behaviours that stay pending were pending. -/
theorem mem_of_mem_drop {t' : FsTask} (h : t' ∈ pre ++ post) : t' ∈ pre ++ t :: post := by
  rcases List.mem_append.mp h with h | h <;> simp [h]

/-- A behaviour that enters nothing keeps the invariant when it leaves the inodes that are still to be
entered. -/
theorem Registers.body (h : Registers ⟨s, pre ++ t :: post, rs⟩)
    (htable : ∀ ino : ℕ, e.state.regTable[ino]? ≠ none → s.regTable[ino]? ≠ none)
    (hkept : ∀ ino : ℕ, s.regs[ino]? ≠ none → e.state.regs[ino]? ≠ none)
    (hkrefs : ∀ (ino : ℕ) (f : File), e.state.regs[ino]? = some f → 0 ≤ f.inode.krefs)
    (hadding : ∀ (ino : ℕ) (f : File), s.Unregistered ino → s.regs[ino]? = some f →
      ∃ f', e.state.regs[ino]? = some f' ∧ f.SameRefs f')
    (hspawned : ∀ t' ∈ e.spawned, t'.Apart ∨ ∃ ino b, t' = .file ino b ∧ e.state.regs[ino]? ≠ none) :
    Registers ⟨e.state, pre ++ post ++ e.spawned, rs'⟩ := by
  have hnone : e.spawned.filterMap FsTask.added? = [] := by
    refine List.filterMap_eq_nil_iff.mpr fun t' ht' => ?_
    rcases hspawned t' ht' with hapart | ⟨ino, b, rfl, -⟩
    · cases t' <;> first | rfl | exact absurd hapart id
    · rfl
  refine ⟨fun ino hino => h.odd ino (htable ino hino),
    fun ino hino => hkept ino (h.known ino (htable ino hino)), hkrefs, fun ino b hmem => ?_,
    fun ino st hmem => ?_, ?_⟩
  · rcases List.mem_append.mp hmem with hmem | hmem
    · exact hkept ino (h.file ino b (mem_of_mem_drop hmem))
    · rcases hspawned _ hmem with hapart | ⟨i, b', heq, hi⟩
      · exact absurd hapart id
      · obtain ⟨rfl, rfl⟩ := FsTask.file.inj heq
        exact hi
  · rcases List.mem_append.mp hmem with hmem | hmem
    · obtain ⟨hst, hun⟩ := h.adding ino st (mem_of_mem_drop hmem)
      obtain ⟨f, hf, hzero, heven⟩ := hun.inode
      obtain ⟨f', hf', hrefs⟩ := hadding ino f hun hf
      refine ⟨hst, hun.odd, ?_, f', hf', hrefs.krefs_eq.trans hzero, by rw [hrefs.ino_eq, heven]⟩
      by_contra hin
      exact htable ino hin hun.absent
    · rcases hspawned _ hmem with hapart | ⟨i, b', heq, -⟩
      · exact absurd hapart id
      · cases heq
  · rw [List.filterMap_append, hnone, List.append_nil]
    exact h.once.sublist filterMap_added?_drop

/-- `lookup` of an inode leaves the table: an inode that is not in it has a negative number of
references. -/
theorem lookupReg_regTable_eq {req ino : ℕ} (h : s.lookupReg req ino = .ok e)
    (hkrefs : ∀ f, s.regs[ino]? = some f → 0 ≤ f.inode.krefs) : e.state.regTable = s.regTable := by
  obtain ⟨f, hf, hcheck, rfl⟩ := lookupReg_step h
  have hle := hkrefs f hf
  cases hfound : s.regTable[f.inode.ino]? with
  | none =>
    rw [if_pos hfound] at hcheck
    omega
  | some v => exact StdMap.insertIfNew_of_get?_eq_some hfound ino

/-- An inode that is still to be entered is not looked up. -/
theorem FsState.Unregistered.not_lookupReg {req ino : ℕ} (h : s.Unregistered ino)
    (hodd : ∀ ino : ℕ, s.regTable[ino]? ≠ none → ino % 2 = 1) : s.lookupReg req ino ≠ .ok e := by
  intro hbody
  obtain ⟨f, hf, hzero, heven⟩ := h.inode
  obtain ⟨f', hf', hcheck, -⟩ := lookupReg_step hbody
  obtain rfl := Option.some.inj (hf.symm.trans hf')
  split at hcheck
  · omega
  · next hin =>
    have := hodd _ hin
    omega

/-- An inode that is still to be entered is not forgotten. -/
theorem FsState.Unregistered.not_forgetReg {ino nlookup : ℕ} (h : s.Unregistered ino) :
    s.forgetReg ino nlookup ≠ .ok e := by
  intro hbody
  obtain ⟨f, hf, hzero, -⟩ := h.inode
  cases forgetReg_step hbody with
  | left hf' hpos =>
    obtain rfl := Option.some.inj (hf.symm.trans hf')
    omega
  | erased hf' hpos =>
    obtain rfl := Option.some.inj (hf.symm.trans hf')
    omega

/-- Replacing an inode that exists takes none away. -/
theorem FsState.setReg_kept {i : ℕ} (f : File) (ino : ℕ) (h : s.regs[ino]? ≠ none) :
    (s.setReg i f).regs[ino]? ≠ none := by
  rw [regs_setReg]
  split
  · exact Option.some_ne_none f
  · exact h

/-- One inode is replaced, with a number of references that is not negative. -/
theorem Registers.setReg {i : ℕ} {g : File} (h : Registers ⟨s, pre ++ t :: post, rs⟩)
    (hregs : e.state.regs = (s.setReg i g).regs)
    (htable : ∀ ino : ℕ, e.state.regTable[ino]? ≠ none → s.regTable[ino]? ≠ none)
    (hnonneg : 0 ≤ g.inode.krefs)
    (hadding : ∀ f : File, s.Unregistered i → s.regs[i]? = some f → f.SameRefs g)
    (hspawned : ∀ t' ∈ e.spawned, ∃ b, t' = .file i b) :
    Registers ⟨e.state, pre ++ post ++ e.spawned, rs'⟩ := by
  have hi : e.state.regs[i]? = some g := by rw [hregs, FsState.regs_setReg, if_pos rfl]
  refine h.body htable (fun ino hino => hregs ▸ s.setReg_kept g ino hino) (fun ino f hf => ?_)
    (fun ino f hun hf => ?_) fun t' ht' => ?_
  · rw [hregs, FsState.regs_setReg] at hf
    split at hf
    · rwa [← Option.some.inj hf]
    · exact h.krefs_nonneg ino f hf
  · by_cases hino : i = ino
    · subst hino
      exact ⟨g, hi, hadding f hun hf⟩
    · refine ⟨f, ?_, .refl f⟩
      rw [hregs, FsState.regs_setReg, if_neg hino]
      exact hf
  · obtain ⟨b, rfl⟩ := hspawned t' ht'
    exact .inr ⟨i, b, rfl, by simp [hi]⟩

/-- A behaviour that keeps the regular inodes keeps the invariant. -/
theorem Registers.keepsRegs (h : Registers ⟨s, pre ++ t :: post, rs⟩) (hkeeps : KeepsRegs s e) :
    Registers ⟨e.state, pre ++ post ++ e.spawned, rs'⟩ := by
  refine h.body (fun ino hino => hkeeps.table_eq ▸ hino) hkeeps.kept (fun ino f hf => ?_)
    (fun ino f _ hf => ?_) fun t' ht' => .inl (hkeeps.spawned t' ht')
  · obtain ⟨f₀, hf₀, -, hrefs⟩ := hkeeps.regs ino f hf
    rw [hrefs.krefs_eq]
    exact h.krefs_nonneg ino f₀ hf₀
  · obtain ⟨f', hf', -, hrefs⟩ := hkeeps.of_some hf
    exact ⟨f', hf', hrefs⟩

/-- `add_inode` keeps the invariant. -/
theorem Registers.addReg {ino : ℕ} {st : Stat} (h : Registers ⟨s, pre ++ .addReg ino st :: post, rs⟩)
    (hbody : s.addReg ino st = .ok e) : Registers ⟨e.state, pre ++ post ++ e.spawned, rs'⟩ := by
  obtain ⟨f, hf, hzero, rfl⟩ := addReg_step hbody
  obtain ⟨rfl, hun⟩ := h.adding ino st (by simp)
  have honce : ∀ st', .addReg st.stIno st' ∉ pre ++ post := by
    intro st' hmem
    have hnodup := h.once
    rw [List.filterMap_append, filterMap_added?_addReg] at hnodup
    refine (List.nodup_middle.mp hnodup).notMem ?_
    rw [← List.filterMap_append]
    exact List.mem_filterMap.mpr ⟨_, hmem, rfl⟩
  have htable : ∀ k : ℕ, (s.regTable.insertIfNew st.stIno st.stIno)[k]? ≠ none →
      k = st.stIno ∨ s.regTable[k]? ≠ none := by
    intro k hk
    rw [StdMap.get?_insertIfNew] at hk
    split at hk
    · next heq => exact .inl heq.1.symm
    · exact .inr hk
  refine ⟨fun k hk => ?_, fun k hk => ?_, fun k f' hf' => ?_, fun k b hmem => ?_,
    fun k st' hmem => ?_, ?_⟩
  · rcases htable k hk with rfl | hk
    · exact hun.odd
    · exact h.odd k hk
  · rcases htable k hk with rfl | hk
    · simp
    · exact s.setReg_kept _ k (h.known k hk)
  · simp only [FsState.regs_setReg] at hf'
    split at hf'
    · rw [← Option.some.inj hf']
      simp only
      omega
    · exact h.krefs_nonneg k f' hf'
  · rw [List.append_nil] at hmem
    exact s.setReg_kept _ k (h.file k b (mem_of_mem_drop hmem))
  · rw [List.append_nil] at hmem
    obtain ⟨hst, hun'⟩ := h.adding k st' (mem_of_mem_drop hmem)
    have hne : st.stIno ≠ k := by
      rintro rfl
      exact honce st' hmem
    refine ⟨hst, hun'.odd, ?_, ?_⟩
    · rw [StdMap.get?_insertIfNew, if_neg fun heq => hne heq.1]
      exact hun'.absent
    · simp only [FsState.regs_setReg, if_neg hne]
      exact hun'.inode
  · rw [List.append_nil]
    exact h.once.sublist filterMap_added?_drop

/-- `create` keeps the invariant when its inode is placed at a new even address. -/
theorem Registers.create {r : MakeReq} (h : Registers ⟨s, pre ++ .create r :: post, rs⟩)
    (hbody : s.create r = .ok e) (hplaced : (FsTask.create r).Placed s) :
    Registers ⟨e.state, pre ++ post ++ e.spawned, rs'⟩ := by
  cases create_step hbody with
  | taken => exact h.keepsRegs (.of_nil rfl rfl rfl)
  | denied => exact h.keepsRegs (.of_nil rfl rfl rfl)
  | made =>
    obtain ⟨haddr, hthis, hfresh⟩ := hplaced
    have hne : ∀ k : ℕ, s.regs[k]? ≠ none → r.regIno ≠ k := by
      rintro k hk rfl
      exact hk hfresh
    have habsent : s.regTable[r.regIno]? = none := by
      by_contra hin
      exact h.known _ hin hfresh
    refine ⟨h.odd, fun k hk => s.setReg_kept _ k (h.known k hk), fun k f' hf' => ?_,
      fun k b hmem => ?_, fun k st' hmem => ?_, ?_⟩
    · simp only [FsState.regs_setDir, FsState.regs_setReg] at hf'
      split at hf'
      · rw [← Option.some.inj hf']
        exact le_rfl
      · exact h.krefs_nonneg k f' hf'
    · rcases List.mem_append.mp hmem with hmem | hmem
      · exact s.setReg_kept _ k (h.file k b (mem_of_mem_drop hmem))
      · cases List.mem_singleton.mp hmem
    · rcases List.mem_append.mp hmem with hmem | hmem
      · obtain ⟨hst, hun⟩ := h.adding k st' (mem_of_mem_drop hmem)
        obtain ⟨f, hf, hrest⟩ := hun.inode
        refine ⟨hst, hun.odd, hun.absent, f, ?_, hrest⟩
        simp only [FsState.regs_setDir, FsState.regs_setReg]
        rw [if_neg (hne k (by simp [hf]))]
        exact hf
      · obtain ⟨rfl, rfl⟩ := FsTask.addReg.inj (List.mem_singleton.mp hmem)
        refine ⟨rfl, ?_, habsent, r.newReg, ?_, rfl, hthis⟩
        · unfold MakeReq.regIno
          omega
        · simp
    · rw [List.filterMap_append, filterMap_added?_addReg, List.filterMap_nil,
        List.nodup_append_comm, List.singleton_append, List.nodup_cons]
      refine ⟨fun hmem => ?_, h.once.sublist filterMap_added?_drop⟩
      obtain ⟨t', ht', hadded⟩ := List.mem_filterMap.mp hmem
      obtain ⟨st', rfl⟩ := FsTask.added?_eq_some.mp hadded
      obtain ⟨f, hf, -⟩ := (h.adding _ st' (mem_of_mem_drop ht')).2.inode
      rw [hfresh] at hf
      cases hf

/-- A behaviour keeps the invariant. -/
theorem Registers.run (h : Registers ⟨s, pre ++ t :: post, rs⟩) (hbody : FsState.body t s = .ok e)
    (hplaced : t.Placed s) : Registers ⟨e.state, pre ++ post ++ e.spawned, rs'⟩ := by
  by_cases hchanges : t.ChangesRegs
  · cases t with
    | file ino b =>
      obtain ⟨f, e', hf, he', rfl⟩ := fileBody_eq_ok.mp hbody
      have hrefs := File.body_sameRefs he'
      refine h.setReg rfl (fun _ hino => hino) ?_ (fun f' _ hf' => ?_) fun t' ht' => ?_
      · rw [hrefs.krefs_eq]
        exact h.krefs_nonneg ino f hf
      · obtain rfl := Option.some.inj (hf.symm.trans hf')
        exact hrefs
      · obtain ⟨b', -, rfl⟩ := List.mem_map.mp ht'
        exact ⟨b', rfl⟩
    | addReg ino st => exact h.addReg hbody
    | lookupReg req ino =>
      have htable := lookupReg_regTable_eq hbody fun f hf => h.krefs_nonneg ino f hf
      have hun : ¬ s.Unregistered ino := fun hun => hun.not_lookupReg h.odd hbody
      obtain ⟨f, hf, -, rfl⟩ := lookupReg_step hbody
      have hle : 0 ≤ f.inode.krefs := h.krefs_nonneg ino f hf
      refine h.setReg rfl (fun k hk => htable ▸ hk) ?_ (fun f' hun' => absurd hun' hun)
        fun t' ht' => absurd ht' List.not_mem_nil
      simp only
      omega
    | forgetReg ino nlookup =>
      have hun : ¬ s.Unregistered ino := fun hun => hun.not_forgetReg hbody
      cases forgetReg_step hbody with
      | left hf hpos hle =>
        exact h.setReg rfl (fun k hk => hk) hle (fun f' hun' => absurd hun' hun)
          fun t' ht' => absurd ht' List.not_mem_nil
      | erased hf hpos hle =>
        refine h.setReg rfl (fun k hk => ?_) hle (fun f' hun' => absurd hun' hun) fun t' ht' => ?_
        · rw [StdMap.get?_erase] at hk
          split at hk
          · exact absurd rfl hk
          · exact hk
        · obtain ⟨b, -, rfl⟩ := List.mem_map.mp ht'
          exact ⟨b, rfl⟩
    | create r => exact h.create hbody hplaced
    | _ => exact absurd hchanges id
  · exact h.keepsRegs (body_keepsRegs hbody hchanges)

end Registers

end VeronaFs
