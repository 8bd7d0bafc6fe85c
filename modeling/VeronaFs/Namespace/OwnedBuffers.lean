import VeronaFs.Namespace.Permission
import VeronaFs.Namespace.RegularTable

/-!
# Buffers of blocks

A block that is reachable from an inode in the table must own its buffer, and `Block::read` and
`Block::write` must not meet a buffer that was released.  In the runs of the whole file system both hold
as long as no request cuts blocks off a file without taking them out of its map: `blocks_ownBuffers`.
-/

namespace VeronaFs

open Boc Foundation

/-- The behaviours of a list that are behind the regular inode `ino`. -/
def behind (ino : ℕ) (l : List FsTask) : List FileTask := l.filterMap (FsTask.ofFile? ino)

/-- With nothing pending behind it, a regular inode in the table finds a buffer in each of its blocks. -/
def BlocksOwn (c : FsConfig) : Prop :=
  ∀ (ino : ℕ) (f : File), c.state.regTable[ino]? ≠ none → c.state.regs[ino]? = some f →
    (∀ b, .file ino b ∉ c.pending) →
      ∀ (k : ℤ) (a : ℕ), f.inode.dataBlocks[k]? = some a → f.bufOf a ≠ none

/-- Every behaviour on the blocks of a regular inode that can run next runs to its end: it meets no
released buffer. -/
def BlocksRun (c : FsConfig) : Prop :=
  ∀ (ino : ℕ) (pre post : List FsTask) (b : FileTask), c.pending = pre ++ .file ino b :: post →
    (∀ q, b ≠ .inode q) → server.FreeOf pre (.file ino b) →
      ∃ e, server.Runs (.file ino b) c.state e

/-- The behaviour does not cut blocks off a file, and what it makes is placed at a new address. -/
def FsTask.CutFree (t : FsTask) (s : FsState) : Prop :=
  t.Placed s ∧ ∀ (ino : ℕ) (q : FileRequest) (f : File), t = .file ino (.inode q) →
    s.regs[ino]? = some f → ¬ f.CutsBlocks q

/-- The behaviour does not read or write an inode that is not in the table. -/
def FsTask.Registered (t : FsTask) (s : FsState) : Prop :=
  ∀ (ino : ℕ) (q : FileRequest), t = .file ino (.inode q) → q.IsData → s.regTable[ino]? ≠ none

/-- A step of the file system that cuts no blocks off. -/
def CutFreeStep (c c' : FsConfig) : Prop :=
  ∃ l, server.Step c l c' ∧ ∀ t, l = .run t → t.CutFree c.state

/-- A step of the file system that cuts no blocks off and does not read or write an inode that is not
in the table. -/
def RegisteredStep (c c' : FsConfig) : Prop :=
  ∃ l, server.Step c l c' ∧ ∀ t, l = .run t → t.CutFree c.state ∧ t.Registered c.state

/-! ## The same data -/

section SameData

variable {f f' : File} {l : List FileTask} {rs rs' : List Reply}

/-- The buffers are those of the blocks. -/
theorem File.SameData.bufs_eq (h : f.SameData f') : f'.bufs = f.bufs := by
  funext k
  cases k with
  | block a => simp only [File.bufs, File.bufOf, h.blocks_eq]
  | _ => rfl

/-- The invariant is about the data. -/
theorem FileInv.congr (h : FileInv ⟨f, l, rs⟩) (hdata : f.SameData f') : FileInv ⟨f', l, rs'⟩ where
  wf := (hdata.grows fun _ => True).wf h.wf
  bounded t ht a ha := by
    rw [hdata.blocks_eq]
    exact h.bounded t ht a ha
  fits t ht := (h.fits t ht).mono (by rw [hdata.reads_eq])

/-- What pending behaviours find is about the data. -/
theorem Turns.congr (h : Turns ⟨f, l, rs⟩) (hdata : f.SameData f') : Turns ⟨f', l, rs'⟩ := by
  unfold Turns
  simp only
  rw [hdata.bufs_eq]
  exact h

/-- Ownership is about the data. -/
theorem Owned.congr (h : Owned ⟨f, l, rs⟩) (hdata : f.SameData f') : Owned ⟨f', l, rs'⟩ where
  blocks k a hk := by
    rw [hdata.map_eq] at hk
    have hbuf : f'.bufOf a = f.bufOf a := congrFun hdata.bufs_eq (.block a)
    unfold virtualBuf
    simp only
    rw [hbuf]
    exact h.blocks k a hk
  turns := Turns.congr h.turns hdata

end SameData

/-! ## One inode -/

/-- What a run keeps of a regular inode: while it is to be entered into the table or is in it
(`entering`), its blocks will own their buffers; and pending behaviours find theirs, if nothing reads or
writes an inode that is not in the table (`careful`). -/
structure Sound (entering careful : Prop) (c : FileConfig) : Prop where
  /-- Pending behaviours are about existing blocks. -/
  inv : FileInv c
  /-- The blocks own their buffers. -/
  owned : entering → Owned c
  /-- Pending behaviours find the buffers they need. -/
  turns : careful → Turns c

section Sound

variable {entering entering' careful : Prop} {f f' : File} {l pre post : List FileTask}
  {rs rs' : List Reply}

/-- Only the data matter. -/
theorem Sound.congr (h : Sound entering careful ⟨f, l, rs⟩) (hdata : f.SameData f')
    (hentering : entering' → entering) : Sound entering' careful ⟨f', l, rs'⟩ where
  inv := h.inv.congr hdata
  owned hin := (h.owned (hentering hin)).congr hdata
  turns hc := (h.turns hc).congr hdata

/-- A new file is sound. -/
theorem Sound.make (ino : ℕ) (st : Stat) : Sound entering careful ⟨.make ino st, [], rs⟩ where
  inv := .of_wf ⟨by simp [File.make], by simp [File.make]⟩ rs
  owned _ := .of_blocks (by simp [File.make]) rs
  turns _ := trivial

/-- Another request is scheduled. -/
theorem Sound.append_inode (h : Sound entering careful ⟨f, l, rs⟩) (q : FileRequest) :
    Sound entering careful ⟨f, l ++ [.inode q], rs'⟩ where
  inv := by
    refine ⟨h.inv.wf, fun t ht a ha => ?_, fun t ht => ?_⟩
    · rcases List.mem_append.mp ht with ht | ht
      · exact h.inv.bounded t ht a ha
      · rw [List.mem_singleton.mp ht] at ha
        simp [FileTask.cowns] at ha
    · rcases List.mem_append.mp ht with ht | ht
      · exact h.inv.fits t ht
      · rw [List.mem_singleton.mp ht]
        trivial
  owned hin := by
    refine ⟨fun k a hk => ?_, atTurn_append.mpr ⟨(h.owned hin).turns, trivial, trivial⟩⟩
    unfold virtualBuf
    rw [replay_append]
    exact (h.owned hin).blocks k a hk
  turns hc := atTurn_append.mpr ⟨h.turns hc, trivial, trivial⟩

/-- The blocks of an inode that leaves the table are released. -/
theorem Sound.release (h : Sound entering careful ⟨f, l, rs⟩) (hout : ¬ entering') :
    Sound entering' careful ⟨f, l ++ File.releases f.inode.dataBlocks.toList, rs'⟩ where
  inv := by
    have hreleases : ∀ t ∈ File.releases f.inode.dataBlocks.toList,
        ∃ (k : ℤ) (a : ℕ), t = .freeSpace a ∧ f.inode.dataBlocks[k]? = some a := by
      intro t ht
      obtain ⟨⟨k, a⟩, hmem, rfl⟩ := List.mem_map.mp ht
      exact ⟨k, a, rfl, Std.ExtTreeMap.mem_toList_iff_getElem?_eq_some.mp hmem⟩
    refine ⟨h.inv.wf, fun t ht a ha => ?_, fun t ht => ?_⟩
    · rcases List.mem_append.mp ht with ht | ht
      · exact h.inv.bounded t ht a ha
      · obtain ⟨k, b, rfl, hk⟩ := hreleases t ht
        simp only [FileTask.cowns, List.mem_singleton, FileCown.block.injEq] at ha
        exact ha ▸ h.inv.wf.bounded k b hk
    · rcases List.mem_append.mp ht with ht | ht
      · exact h.inv.fits t ht
      · obtain ⟨k, b, rfl, -⟩ := hreleases t ht
        trivial
  owned hin := absurd hin hout
  turns hc := turns_append_releases (h.turns hc) fun t ht => by
    obtain ⟨e, -, rfl⟩ := List.mem_map.mp ht
    exact ⟨e.2, rfl⟩

/-- A behaviour of the inode runs: a request that cuts no blocks off, or one on its blocks. -/
theorem Sound.step {b : FileTask} {e : Effect File FileTask Reply}
    (h : Sound entering careful ⟨f, pre ++ b :: post, rs⟩) (hfree : fileSystem.FreeOf pre b)
    (hbody : File.body b f = .ok e) (hcut : ∀ q, b = .inode q → ¬ f.CutsBlocks q)
    (hcareful : careful → ∀ q, b = .inode q → q.IsData → entering)
    (hentering : entering' → entering) :
    Sound entering' careful ⟨e.state, pre ++ post ++ e.spawned, rs'⟩ := by
  by_cases hb : ∃ q, b = .inode q
  · obtain ⟨q, rfl⟩ := hb
    have hstep := File.inodeBody_requestStep hbody
    refine ⟨hstep.fileInv h.inv fun t => mem_drop_inode, fun hin => ?_, fun hc => ?_⟩
    · exact (h.owned (hentering hin)).inodeBody h.inv hbody (hcut q rfl)
    · by_cases hq : q.IsData
      · have howned : Owned ⟨e.state, pre ++ post ++ e.spawned, rs'⟩ :=
          (h.owned (hcareful hc q rfl hq)).inodeBody h.inv hbody (hcut q rfl)
        exact howned.turns
      · exact (h.turns hc).requestStep h.inv hstep hq
  · simp only [not_exists] at hb
    have hstep := File.body_blockStep hb hbody
    exact ⟨(h.inv.blockStep hstep).congr (.refl _), fun hin => (h.owned (hentering hin)).blockStep hfree hstep,
      fun hc => hstep.turns hfree (h.turns hc)⟩

end Sound

/-! ## The file system -/

/-- The inode is in the table or will be entered into it. -/
def Entering (c : FsConfig) (ino : ℕ) : Prop :=
  c.state.regTable[ino]? ≠ none ∨ ∃ st, .addReg ino st ∈ c.pending

/-- Every regular inode is sound. -/
def AllSound (careful : Prop) (c : FsConfig) : Prop :=
  ∀ (ino : ℕ) (f : File), c.state.regs[ino]? = some f →
    Sound (Entering c ino) careful ⟨f, behind ino c.pending, []⟩

section AllSound

variable {careful : Prop} {s : FsState} {pre post : List FsTask} {t : FsTask} {rs rs' : List Reply}
  {e : FsEffect} {ino : ℕ} {f f' : File}

/-- What is behind an inode in two lists. -/
@[simp] theorem behind_append (ino : ℕ) (l l' : List FsTask) :
    behind ino (l ++ l') = behind ino l ++ behind ino l' := List.filterMap_append

/-- A behaviour behind the inode comes first. -/
@[simp] theorem behind_cons_file (ino : ℕ) (b : FileTask) (l : List FsTask) :
    behind ino (.file ino b :: l) = b :: behind ino l :=
  List.filterMap_cons_some ((inodePart ino).task?_task b)

/-- The behaviours behind the inode are all of them. -/
@[simp] theorem behind_map_file (ino : ℕ) (l : List FileTask) :
    behind ino (l.map (.file ino)) = l := (inodePart ino).filterMap_map_task l

/-- A behaviour is behind the inode when it is that of one of the list. -/
theorem mem_behind {b : FileTask} {l : List FsTask} : b ∈ behind ino l ↔ .file ino b ∈ l := by
  unfold behind
  rw [List.mem_filterMap]
  constructor
  · rintro ⟨t, ht, hb⟩
    have heq : t = .file ino b := ((inodePart ino).task?_eq_some b t).mp hb
    exact heq ▸ ht
  · exact fun h => ⟨_, h, (inodePart ino).task?_task b⟩

/-- Nothing is behind an inode when no behaviour of it is in the list. -/
theorem behind_eq_nil {l : List FsTask} (h : ∀ b, .file ino b ∉ l) : behind ino l = [] :=
  List.eq_nil_iff_forall_not_mem.mpr fun b hb => h b (mem_behind.mp hb)

/-- Behind an inode nothing changes when a behaviour runs that is not behind it. -/
theorem behind_drop (ht : ∀ b, t ≠ .file ino b) :
    behind ino (pre ++ t :: post) = behind ino (pre ++ post) := by
  have hnone : t.ofFile? ino = none := by
    cases hb : t.ofFile? ino with
    | none => rfl
    | some b => exact absurd (((inodePart ino).task?_eq_some b t).mp hb) (ht b)
  rw [behind_append, behind_append]
  unfold behind
  rw [List.filterMap_cons_none hnone]

/-- Only `create` schedules an `add_inode`, and that of its inode. -/
theorem addReg_spawned {st : Stat} (h : FsState.body t s = .ok e) (ht : .addReg ino st ∈ e.spawned) :
    ∃ r, t = .create r ∧ ino = r.regIno := by
  by_cases hchanges : t.ChangesRegs
  · cases t with
    | file i b =>
      obtain ⟨f, e', -, -, rfl⟩ := fileBody_eq_ok.mp h
      obtain ⟨b', -, heq⟩ := List.mem_map.mp ht
      cases heq
    | addReg i st' =>
      obtain ⟨f, -, -, rfl⟩ := addReg_step h
      cases ht
    | lookupReg req i =>
      obtain ⟨f, -, -, rfl⟩ := lookupReg_step h
      cases ht
    | forgetReg i nlookup =>
      cases forgetReg_step h with
      | left => cases ht
      | erased =>
        obtain ⟨b, -, heq⟩ := List.mem_map.mp ht
        cases heq
    | create r =>
      cases create_step h with
      | made =>
        obtain ⟨rfl, -⟩ := FsTask.addReg.inj (List.mem_singleton.mp ht)
        exact ⟨r, rfl, rfl⟩
      | _ => cases ht
    | _ => exact absurd hchanges id
  · exact absurd ((body_keepsRegs h hchanges).spawned _ ht) id

/-- Only `add_inode` enters an inode into the table. -/
theorem regTable_of_body (hreg : Registers ⟨s, pre ++ t :: post, rs⟩) (h : FsState.body t s = .ok e)
    (hin : e.state.regTable[ino]? ≠ none) : s.regTable[ino]? ≠ none ∨ ∃ st, t = .addReg ino st := by
  by_cases hchanges : t.ChangesRegs
  · cases t with
    | file i b =>
      obtain ⟨f, e', -, -, rfl⟩ := fileBody_eq_ok.mp h
      exact .inl hin
    | addReg i st =>
      obtain ⟨f, -, -, rfl⟩ := addReg_step h
      obtain ⟨rfl, -⟩ := hreg.adding i st (by simp)
      simp only at hin
      rw [StdMap.get?_insertIfNew] at hin
      split at hin
      · next heq => exact .inr ⟨st, by rw [heq.1]⟩
      · exact .inl hin
    | lookupReg req i =>
      rw [lookupReg_regTable_eq h fun f hf => hreg.krefs_nonneg i f hf] at hin
      exact .inl hin
    | forgetReg i nlookup =>
      cases forgetReg_step h with
      | left => exact .inl hin
      | erased =>
        simp only at hin
        rw [StdMap.get?_erase] at hin
        split at hin
        · exact absurd rfl hin
        · exact .inl hin
    | create r => cases create_step h <;> exact .inl hin
    | _ => exact absurd hchanges id
  · exact .inl ((body_keepsRegs h hchanges).table_eq ▸ hin)

/-- An inode that left the table is not entered again. -/
theorem entering_of_body (hreg : Registers ⟨s, pre ++ t :: post, rs⟩) (h : FsState.body t s = .ok e)
    (hplaced : t.Placed s) (hino : s.regs[ino]? ≠ none)
    (hin : Entering ⟨e.state, pre ++ post ++ e.spawned, rs'⟩ ino) :
    Entering ⟨s, pre ++ t :: post, rs⟩ ino := by
  rcases hin with hin | ⟨st, hmem⟩
  · rcases regTable_of_body hreg h hin with hin | ⟨st, rfl⟩
    · exact .inl hin
    · exact .inr ⟨st, by simp⟩
  · rcases List.mem_append.mp hmem with hmem | hmem
    · exact .inr ⟨st, mem_of_mem_drop hmem⟩
    · obtain ⟨r, rfl, rfl⟩ := addReg_spawned h hmem
      exact absurd hplaced.2.2 hino

/-- What a behaviour schedules behind an inode that it is not behind itself: nothing, unless it is a
forget of the inode. -/
theorem behind_spawned (h : FsState.body t s = .ok e) (ht : ∀ b, t ≠ .file ino b)
    (hforget : ∀ nlookup, t ≠ .forgetReg ino nlookup) : behind ino e.spawned = [] := by
  have hother : ∀ {i : ℕ} (l : List FileTask), i ≠ ino → behind ino (l.map (.file i)) = [] := by
    intro i l hi
    refine behind_eq_nil fun b hb => ?_
    obtain ⟨b', -, heq⟩ := List.mem_map.mp hb
    exact hi (FsTask.file.inj heq).1
  by_cases hchanges : t.ChangesRegs
  · cases t with
    | file i b =>
      obtain ⟨f, e', -, -, rfl⟩ := fileBody_eq_ok.mp h
      exact hother _ fun hi => ht b (by rw [hi])
    | addReg i st =>
      obtain ⟨f, -, -, rfl⟩ := addReg_step h
      rfl
    | lookupReg req i =>
      obtain ⟨f, -, -, rfl⟩ := lookupReg_step h
      rfl
    | forgetReg i nlookup =>
      cases forgetReg_step h with
      | left => rfl
      | erased => exact hother _ fun hi => hforget nlookup (by rw [hi])
    | create r => cases create_step h <;> rfl
    | _ => exact absurd hchanges id
  · exact behind_eq_nil fun b hb => (body_keepsRegs h hchanges).spawned _ hb

/-- A behaviour behind an inode keeps it sound. -/
theorem AllSound.file {b : FileTask} (h : AllSound careful ⟨s, pre ++ .file ino b :: post, rs⟩)
    (hreg : Registers ⟨s, pre ++ .file ino b :: post, rs⟩)
    (hfree : server.FreeOf pre (.file ino b)) (hbody : s.fileBody ino b = .ok e)
    (hcut : (FsTask.file ino b).CutFree s) (hcareful : careful → (FsTask.file ino b).Registered s)
    (hf' : e.state.regs[ino]? = some f') :
    Sound (Entering ⟨e.state, pre ++ post ++ e.spawned, rs'⟩ ino) careful
      ⟨f', behind ino (pre ++ post ++ e.spawned), []⟩ := by
  have hentering : s.regs[ino]? ≠ none → Entering ⟨e.state, pre ++ post ++ e.spawned, rs'⟩ ino →
      Entering ⟨s, pre ++ .file ino b :: post, rs⟩ ino := entering_of_body hreg hbody hcut.1
  obtain ⟨f, e', hf, he', rfl⟩ := fileBody_eq_ok.mp hbody
  obtain rfl : e'.state = f' := by simpa using hf'
  have hsound : Sound _ careful ⟨f, _, []⟩ := h ino f hf
  simp only [behind_append, behind_cons_file] at hsound
  simp only [behind_append, behind_map_file]
  refine hsound.step ((inodePart ino).freeOf_project hfree) he' (fun q hq => ?_)
    (fun hc q hq hdata => ?_) (hentering (by simp [hf]))
  · exact hcut.2 ino q f (by rw [hq]) hf
  · exact .inl (hcareful hc ino q (by rw [hq]) hdata)

/-- A forget of an inode keeps it sound. -/
theorem AllSound.forget {nlookup : ℕ}
    (h : AllSound careful ⟨s, pre ++ .forgetReg ino nlookup :: post, rs⟩)
    (hreg : Registers ⟨s, pre ++ .forgetReg ino nlookup :: post, rs⟩)
    (hbody : s.forgetReg ino nlookup = .ok e) (hf' : e.state.regs[ino]? = some f') :
    Sound (Entering ⟨e.state, pre ++ post ++ e.spawned, rs'⟩ ino) careful
      ⟨f', behind ino (pre ++ post ++ e.spawned), []⟩ := by
  have hdrop : behind ino (pre ++ .forgetReg ino nlookup :: post) = behind ino (pre ++ post) :=
    behind_drop fun b heq => by cases heq
  have hentering : s.regs[ino]? ≠ none → Entering ⟨e.state, pre ++ post ++ e.spawned, rs'⟩ ino →
      Entering ⟨s, pre ++ .forgetReg ino nlookup :: post, rs⟩ ino := entering_of_body hreg hbody trivial
  cases forgetReg_step hbody with
  | @left f krefs hf =>
    obtain rfl : { f with inode.krefs := krefs } = f' := by simpa using hf'
    have hsound : Sound _ careful ⟨f, _, []⟩ := h ino f hf
    rw [List.append_nil, ← hdrop]
    refine hsound.congr ⟨rfl, rfl, rfl⟩ fun hin => hentering (by simp [hf]) ?_
    simpa using hin
  | @erased f krefs hf hpos hle =>
    obtain rfl : { f with inode.krefs := krefs } = f' := by simpa using hf'
    have hsound : Sound _ careful ⟨f, _, []⟩ := h ino f hf
    have hsound' : Sound _ careful ⟨{ f with inode.krefs := krefs }, _, []⟩ :=
      hsound.congr ⟨rfl, rfl, rfl⟩ id
    rw [behind_append, behind_map_file, ← hdrop]
    refine hsound'.release ?_
    rintro (hin | ⟨st, hmem⟩)
    · exact hin (by simp)
    · rcases List.mem_append.mp hmem with hmem | hmem
      · exact (hreg.adding ino st (mem_of_mem_drop hmem)).2.not_forgetReg hbody
      · obtain ⟨b, -, heq⟩ := List.mem_map.mp hmem
        cases heq

/-- A behaviour that cuts no blocks off keeps every inode sound. -/
theorem AllSound.run (h : AllSound careful ⟨s, pre ++ t :: post, rs⟩)
    (hreg : Registers ⟨s, pre ++ t :: post, rs⟩) (hfree : server.FreeOf pre t)
    (hbody : FsState.body t s = .ok e) (hcut : t.CutFree s) (hcareful : careful → t.Registered s) :
    AllSound careful ⟨e.state, pre ++ post ++ e.spawned, rs'⟩ := by
  intro ino f' hf'
  by_cases hfile : ∃ b, t = .file ino b
  · obtain ⟨b, rfl⟩ := hfile
    exact h.file hreg hfree hbody hcut hcareful hf'
  have hfile : ∀ b, t ≠ .file ino b := fun b hb => hfile ⟨b, hb⟩
  by_cases hforget : ∃ nlookup, t = .forgetReg ino nlookup
  · obtain ⟨nlookup, rfl⟩ := hforget
    exact h.forget hreg hbody hf'
  have hforget : ∀ nlookup, t ≠ .forgetReg ino nlookup := fun n hn => hforget ⟨n, hn⟩
  simp only
  rw [behind_append, behind_spawned hbody hfile hforget, List.append_nil]
  cases body_fileChange hbody hf' with
  | kept hf hdata =>
    rw [← behind_drop hfile]
    exact (h ino _ hf).congr hdata (entering_of_body hreg hbody hcut.1 (by simp [hf]))
  | @made r ht hino hnew =>
    subst ht hino hnew
    rw [behind_eq_nil fun b hb => hreg.file r.regIno b (mem_of_mem_drop hb) hcut.1.2.2]
    exact Sound.make _ _
  | @ran b f e' ht => exact absurd ht (hfile b)

/-- A request keeps every inode sound. -/
theorem AllSound.request {pending : List FsTask} {q : FsRequest}
    (h : AllSound careful ⟨s, pending, rs⟩) (hhandle : server.handle q s = .ok e) :
    AllSound careful ⟨e.state, pending ++ e.spawned, rs'⟩ := by
  intro ino f hf
  have hstate := handle_state hhandle
  have hentering : Entering ⟨e.state, pending ++ e.spawned, rs'⟩ ino → Entering ⟨s, pending, rs⟩ ino := by
    rintro (hin | ⟨st, hmem⟩)
    · exact .inl (by rwa [← hstate])
    · rcases List.mem_append.mp hmem with hmem | hmem
      · exact .inr ⟨st, hmem⟩
      · rcases handle_spawned hhandle hmem with hapart | ⟨i, q, f, heq, -⟩
        · exact absurd hapart id
        · cases heq
  have hsound : Sound (Entering ⟨e.state, pending ++ e.spawned, rs'⟩ ino) careful
      ⟨f, behind ino pending, []⟩ :=
    (h ino f (by rwa [← hstate])).congr (.refl f) hentering
  simp only [behind_append]
  by_cases hnone : behind ino e.spawned = []
  · rw [hnone, List.append_nil]
    exact hsound
  · obtain ⟨b, hb⟩ := List.exists_mem_of_ne_nil _ hnone
    have hmem := mem_behind.mp hb
    rcases handle_spawned hhandle hmem with hapart | ⟨i, q, f', heq, -⟩
    · exact absurd hapart id
    · obtain ⟨rfl, rfl⟩ := FsTask.file.inj heq
      rcases handle_cases hhandle with ⟨rs₁, rfl⟩ | ⟨t, rfl⟩
      · cases hmem
      · obtain rfl := List.mem_singleton.mp hmem
        have hone : behind ino [.file ino (.inode q)] = [.inode q] := behind_cons_file ino _ []
        rw [hone]
        exact hsound.append_inode q

end AllSound

/-! ## Runs -/

section Runs

variable {careful : Prop} {c c' : FsConfig}

/-- A step that cuts no blocks off keeps the invariants. -/
theorem AllSound.step {l : Label FsRequest FsTask} (hstep : server.Step c l c')
    (hcut : ∀ t, l = .run t → t.CutFree c.state)
    (hcareful : careful → ∀ t, l = .run t → t.Registered c.state)
    (h : Registers c ∧ AllSound careful c) : Registers c' ∧ AllSound careful c' := by
  obtain ⟨hreg, hsound⟩ := h
  cases hstep with
  | request hrun => exact ⟨hreg.request hrun.handle_eq, hsound.request hrun.handle_eq⟩
  | run hfree hrun =>
    have hcut := hcut _ rfl
    exact ⟨hreg.run hrun.body_eq hcut.1,
      hsound.run hreg hfree hrun.body_eq hcut fun hc => hcareful hc _ rfl⟩

/-- The new file system has no regular inode. -/
theorem allSound_init (careful : Prop) (uid gid : ℕ) (now : ℤ) :
    AllSound careful ⟨.init uid gid now, [], []⟩ := by
  intro ino f hf
  simp [FsState.init] at hf

/-- Sound inodes own the buffers of their blocks. -/
theorem AllSound.blocksOwn (h : AllSound careful c) : BlocksOwn c := by
  intro ino f hin hf hdrained k a hk
  have howned := ((h ino f hf).owned (.inl hin)).blocks k a hk
  rw [behind_eq_nil hdrained] at howned
  exact howned

/-- In careful runs behaviours on blocks run. -/
theorem AllSound.blocksRun (hreg : Registers c) (h : AllSound True c) : BlocksRun c := by
  intro ino pre post b hpending hb hfree
  have hmem : .file ino b ∈ c.pending := by simp [hpending]
  obtain ⟨f, hf⟩ := Option.ne_none_iff_exists'.mp (hreg.file ino b hmem)
  have hsound := h ino f hf
  rw [hpending, behind_append, behind_cons_file] at hsound
  have hfree' : fileSystem.FreeOf (behind ino pre) b := (inodePart ino).freeOf_project hfree
  obtain ⟨e, he⟩ := runs_of_needsBuf hb (hsound.inv.fits b (by simp))
    (hsound.inv.bounded b (by simp))
    (atTurn_enabled FileTask.localUpdate needsBuf_local hfree' (hsound.turns trivial))
  exact ⟨_, ((inodePart ino).runs_iff hf).mpr ⟨e, he, rfl⟩⟩

/-- In every run of the new file system in which no behaviour cuts blocks off a file, every block that
is reachable from an inode in the table owns its buffer once nothing is pending behind the inode.  When
no behaviour reads or writes an inode that is not in the table either, every behaviour that reads or
writes a block finds its buffer. -/
theorem blocks_ownBuffers {uid gid : ℕ} {now : ℤ} :
    (Relation.ReflTransGen CutFreeStep ⟨.init uid gid now, [], []⟩ c → BlocksOwn c) ∧
      (Relation.ReflTransGen RegisteredStep ⟨.init uid gid now, [], []⟩ c → BlocksRun c) := by
  constructor
  · intro hrun
    have hinv : Registers c ∧ AllSound False c := by
      induction hrun with
      | refl => exact ⟨registers_init uid gid now, allSound_init False uid gid now⟩
      | tail _ hstep ih =>
        obtain ⟨l, hstep, hcut⟩ := hstep
        exact AllSound.step hstep hcut False.elim ih
    exact hinv.2.blocksOwn
  · intro hrun
    have hinv : Registers c ∧ AllSound True c := by
      induction hrun with
      | refl => exact ⟨registers_init uid gid now, allSound_init True uid gid now⟩
      | tail _ hstep ih =>
        obtain ⟨l, hstep, hok⟩ := hstep
        exact AllSound.step hstep (fun t ht => (hok t ht).1) (fun _ t ht => (hok t ht).2) ih
    exact hinv.2.blocksRun hinv.1

end Runs

/-! ## A file that is cut inside its first block -/

/-- Root creates the file `b` in the root directory. -/
def createB : MakeReq := { mkdirA with name := [98], mode := 0o644, this := 4, node := 6 }

/-- The file system after the behaviour of `createB`. -/
def fsB₀ : FsState :=
  (rootFs.setReg 3 createB.newReg).setDir 1 ((rootDir.insert [98] ⟨3, 6⟩).touch 0)

/-- The file system after `createB`. -/
def fsB : FsState := rootFs.created createB rootDir

/-- The reply to `createB`. -/
def replyCreateB : Reply := .create 1 (MakeReq.entryParam createB.regStat) createB.createInfo

/-- A request that reserves the first two blocks. -/
def reserveTwo : FileRequest := .fallocate 2 0 0 4097

/-- The file `b` with two blocks reserved. -/
def reservedB : File :=
  { (createB.addedReg.allocateSpace 0).allocateSpace 1 with
    inode.iSt := { createB.regStat with stSize := 4097, stBlocks := 2 } }

/-- Two blocks are reserved. -/
theorem reserveTwo_createB :
    createB.addedReg.inodeBody reserveTwo = .ok ⟨reservedB, [], [.err 2 0]⟩ := by
  have hloop : createB.addedReg.fallocateLoop 0 (0 + 4097) =
      .ok ((createB.addedReg.allocateSpace 0).allocateSpace 1) := by
    rw [File.fallocateLoop, dif_pos (by decide)]
    simp only
    rw [if_neg (by decide), File.fallocateLoop, dif_pos (by decide)]
    simp only
    rw [if_neg (by decide), File.fallocateLoop, dif_neg (by decide)]
    rfl
  change createB.addedReg.fallocate 2 0 4097 = _
  simp only [File.fallocate, hloop, bind, Except.bind]
  rfl

/-- A registered step cuts no blocks off. -/
theorem RegisteredStep.cutFree {c c' : FsConfig} (h : RegisteredStep c c') : CutFreeStep c c' := by
  obtain ⟨l, hstep, hok⟩ := h
  exact ⟨l, hstep, fun t ht => (hok t ht).1⟩

/-- A registered step is a step. -/
theorem RegisteredStep.step {c c' : FsConfig} (h : RegisteredStep c c') :
    ∃ l, server.Step c l c' := by
  obtain ⟨l, hstep, -⟩ := h
  exact ⟨l, hstep⟩

/-- A request is a registered step. -/
theorem RegisteredStep.of_request {c c' : FsConfig} {q : FsRequest}
    (h : server.Step c (.request q) c') : RegisteredStep c c' :=
  ⟨_, h, fun t ht => by cases ht⟩

/-- A behaviour of a request that neither truncates nor reads nor writes. -/
theorem RegisteredStep.of_run {c c' : FsConfig} {t : FsTask} (h : server.Step c (.run t) c')
    (hplaced : t.Placed c.state) (hq : ∀ ino q, t = .file ino (.inode q) → q = reserveTwo) :
    RegisteredStep c c' := by
  refine ⟨_, h, fun t' ht' => ?_⟩
  cases ht'
  refine ⟨⟨hplaced, fun ino q f heq _ hcut => ?_⟩, fun ino q heq hdata => ?_⟩
  · rw [hq ino q heq] at hcut
    exact hcut
  · rw [hq ino q heq] at hdata
    exact absurd hdata id

/-- The file is created and two blocks are reserved. -/
theorem registered_reservedB : Relation.ReflTransGen RegisteredStep ⟨rootFs, [], []⟩
    ⟨fsB.setReg 3 reservedB, [], [replyCreateB, .err 2 0]⟩ := by
  have hhandles : server.Handles (.create createB) rootFs ⟨rootFs, [.create createB], []⟩ :=
    ⟨rfl, by decide⟩
  have hcreate : server.Step ⟨rootFs, [], []⟩ (.request (.create createB))
      ⟨rootFs, [.create createB], []⟩ := .request hhandles
  have hruns₁ : server.Runs (.create createB) rootFs
      ⟨fsB₀, [.addReg 3 createB.regStat], [replyCreateB]⟩ := ⟨rfl, by decide⟩
  have hcreated : server.Step ⟨rootFs, [.create createB], []⟩ (.run (.create createB))
      ⟨fsB₀, [.addReg 3 createB.regStat], [replyCreateB]⟩ := .head hruns₁
  have hruns₂ : server.Runs (.addReg 3 createB.regStat) fsB₀ ⟨fsB, [], []⟩ := ⟨rfl, by decide⟩
  have hadded : server.Step ⟨fsB₀, [.addReg 3 createB.regStat], [replyCreateB]⟩
      (.run (.addReg 3 createB.regStat)) ⟨fsB, [], [replyCreateB]⟩ := .head hruns₂
  have hhandles' : server.Handles (.onInode 3 reserveTwo) fsB
      ⟨fsB, [.file 3 (.inode reserveTwo)], []⟩ := ⟨rfl, by decide⟩
  have hreserve : server.Step ⟨fsB, [], [replyCreateB]⟩ (.request (.onInode 3 reserveTwo))
      ⟨fsB, [.file 3 (.inode reserveTwo)], [replyCreateB]⟩ := .request hhandles'
  have hfile : File.body (.inode reserveTwo) createB.addedReg = .ok ⟨reservedB, [], [.err 2 0]⟩ :=
    reserveTwo_createB
  have hbody : fsB.fileBody 3 (.inode reserveTwo) = .ok ⟨fsB.setReg 3 reservedB, [], [.err 2 0]⟩ :=
    fileBody_eq_ok.mpr ⟨createB.addedReg, _, rfl, hfile, rfl⟩
  have hruns₃ : server.Runs (.file 3 (.inode reserveTwo)) fsB
      ⟨fsB.setReg 3 reservedB, [], [.err 2 0]⟩ := ⟨hbody, List.forall_mem_nil _⟩
  have hreserved : server.Step ⟨fsB, [.file 3 (.inode reserveTwo)], [replyCreateB]⟩
      (.run (.file 3 (.inode reserveTwo))) ⟨fsB.setReg 3 reservedB, [], [replyCreateB, .err 2 0]⟩ :=
    .head hruns₃
  refine ((((Relation.ReflTransGen.single (.of_request hcreate)).tail
    (.of_run hcreated ⟨rfl, rfl, rfl⟩ ?_)).tail (.of_run hadded trivial ?_)).tail
    (.of_request hreserve)).tail (.of_run hreserved trivial ?_)
  · intro ino q heq
    cases heq
    rfl
  · intro ino q heq
    cases heq
  · intro ino q heq
    cases heq

/-- The blocks that were reserved own their buffers. -/
theorem blocks_ownBuffers_reservedB : ∃ c,
    Relation.ReflTransGen CutFreeStep ⟨.init 0 0 0, [], []⟩ c ∧
      Relation.ReflTransGen RegisteredStep ⟨.init 0 0 0, [], []⟩ c ∧
      c.state.regTable[3]? = some 3 ∧ BlocksOwn c ∧ BlocksRun c := by
  have hcut : Relation.ReflTransGen CutFreeStep ⟨rootFs, [], []⟩
      ⟨fsB.setReg 3 reservedB, [], [replyCreateB, .err 2 0]⟩ :=
    Relation.ReflTransGen.mono (fun _ _ hstep => hstep.cutFree) _ _ registered_reservedB
  exact ⟨_, hcut, registered_reservedB, rfl, blocks_ownBuffers.1 hcut,
    blocks_ownBuffers.2 registered_reservedB⟩

/-- A truncation of the file to one byte releases its second block and leaves it in the map. -/
theorem runs_cut_reservedB : ∃ f st,
    fileSystem.Runs (.inode (.setattr (rootTruncate 1))) reservedB ⟨f, [.freeSpace 1], [.attr 0 st]⟩ ∧
      reservedB.SameData f := by
  have hadded : createB.addedReg.WF :=
    ⟨by simp [createB, MakeReq.addedReg, MakeReq.newReg, File.make],
      by simp [createB, MakeReq.addedReg, MakeReq.newReg, File.make]⟩
  have hwf : reservedB.WF := File.body_wf (t := .inode reserveTwo) hadded reserveTwo_createB
  obtain ⟨f, tasks, st, hruns, htrunc, -⟩ := runs_rootTruncate hwf (by decide) (n := 1) (by decide)
  obtain ⟨rfl, hdata⟩ : tasks = [.freeSpace 1] ∧ reservedB.SameData f := by
    cases htrunc with
    | same _ hold => exact absurd hold (by decide)
    | clear hn => exact absurd hn (by decide)
    | shrink _ _ hdata => exact ⟨rfl, hdata⟩
    | extend hlt => exact absurd hlt (by decide)
  exact ⟨f, st, hruns, hdata⟩

/-- The file of two blocks is truncated to one byte: with nothing pending, its second block is in the
map and has lost its buffer. -/
theorem cut_block_without_buffer : ∃ c,
    Relation.ReflTransGen (fun c c' => ∃ l, server.Step c l c') ⟨.init 0 0 0, [], []⟩ c ∧
      c.pending = [] ∧ ¬ BlocksOwn c := by
  obtain ⟨f, st, hcut, hdata⟩ := runs_cut_reservedB
  let q : FileRequest := .setattr (rootTruncate 1)
  let s := fsB.setReg 3 reservedB
  let rs := [replyCreateB, .err 2 0]
  have hbefore : Relation.ReflTransGen (fun c c' => ∃ l, server.Step c l c') ⟨.init 0 0 0, [], []⟩
      ⟨s, [], rs⟩ :=
    Relation.ReflTransGen.mono (fun _ _ hstep => hstep.step) _ _ registered_reservedB
  have hget : s.regs[3]? = some reservedB := by simp [s]
  have hhandles : server.Handles (.onInode 3 q) s ⟨s, [.file 3 (.inode q)], []⟩ := by
    refine ⟨?_, by simp [server, FsTask.cowns, FileTask.cowns]⟩
    change s.handleReg 3 q = _
    simp only [FsState.handleReg, FileRequest.refusal, FsState.getReg_of_some hget, bind, Except.bind, q]
  have hrequest : server.Step ⟨s, [], rs⟩ (.request (.onInode 3 q)) ⟨s, [.file 3 (.inode q)], rs ++ []⟩ :=
    .request hhandles
  have hbody : s.fileBody 3 (.inode q) = .ok ⟨s.setReg 3 f, [.file 3 (.freeSpace 1)], [.attr 0 st]⟩ :=
    fileBody_eq_ok.mpr ⟨_, _, hget, hcut.body_eq, rfl⟩
  have hruns : server.Runs (.file 3 (.inode q)) s
      ⟨s.setReg 3 f, [.file 3 (.freeSpace 1)], [.attr 0 st]⟩ :=
    ⟨hbody, by simp [server, FsTask.cowns, FileTask.cowns]⟩
  have hrun : server.Step ⟨s, [.file 3 (.inode q)], rs ++ []⟩ (.run (.file 3 (.inode q)))
      ⟨s.setReg 3 f, [.file 3 (.freeSpace 1)], rs ++ [] ++ [.attr 0 st]⟩ := .head hruns
  obtain ⟨blk, hblk, -⟩ := File.getBlock_ok (f := f) (a := 1) (by rw [hdata.blocks_eq]; decide)
  let g := f.setBlock 1 { blk with buf := none }
  have hfree : File.body (.freeSpace 1) f = .ok ⟨g, [], []⟩ := bind_eq_ok.mpr ⟨blk, hblk, rfl⟩
  have hbody' : (s.setReg 3 f).fileBody 3 (.freeSpace 1) = .ok ⟨(s.setReg 3 f).setReg 3 g, [], []⟩ :=
    fileBody_eq_ok.mpr ⟨f, _, by simp, hfree, rfl⟩
  have hruns' : server.Runs (.file 3 (.freeSpace 1)) (s.setReg 3 f)
      ⟨(s.setReg 3 f).setReg 3 g, [], []⟩ := ⟨hbody', List.forall_mem_nil _⟩
  have hrun' : server.Step ⟨s.setReg 3 f, [.file 3 (.freeSpace 1)], rs ++ [] ++ [.attr 0 st]⟩
      (.run (.file 3 (.freeSpace 1)))
      ⟨(s.setReg 3 f).setReg 3 g, [], rs ++ [] ++ [.attr 0 st] ++ []⟩ := .head hruns'
  refine ⟨_, ((hbefore.tail ⟨_, hrequest⟩).tail ⟨_, hrun⟩).tail ⟨_, hrun'⟩, rfl, fun howns => ?_⟩
  have htable : s.regTable[3]? = some 3 := rfl
  have hmap : g.inode.dataBlocks[(1 : ℤ)]? = some 1 := by
    change f.inode.dataBlocks[(1 : ℤ)]? = some 1
    rw [hdata.map_eq]
    rfl
  have hblock : ∀ r, FileTask.freeSpace 1 ≠ .inode r := fun r heq => by cases heq
  have hbuf : g.bufOf 1 = none := by
    rw [(File.body_blockStep hblock hfree).bufOf_eq 1]
    rfl
  exact howns 3 g (by simp [htable]) (by simp) (by simp) 1 1 hmap hbuf

end VeronaFs
