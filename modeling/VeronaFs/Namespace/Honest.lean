import VeronaFs.Namespace.RenameEffect

/-!
# Replies and changes

A request on entries that is executed alone should say success when it made its change, and else send
a positive error and leave all inodes (`Honest`).  `honest_iff` gives the exact condition: `unlink`
answers a directory with the error zero and a missing permission with a negative error, and `rename`
can say success after a change that was not requested.
-/

namespace VeronaFs

open Boc Foundation

/-! ## Honest executions -/

/-- The replies that say success: an entry, a created file, or the error zero. -/
def Reply.IsSuccess : Reply → Prop
  | .entry _ _ => True
  | .create _ _ _ => True
  | .err _ errno => errno = 0
  | _ => False

/-- All inodes have the entries and the attributes they had. -/
structure FsState.SameInodes (s s' : FsState) : Prop where
  /-- The directories. -/
  dirs : ∀ ino : ℕ, s'.dirs[ino]?.map (fun d => (d.dentries, d.iSt)) =
    s.dirs[ino]?.map fun d => (d.dentries, d.iSt)
  /-- The regular inodes. -/
  regs : ∀ ino : ℕ, s'.regs[ino]?.map File.st = s.regs[ino]?.map File.st

/-- Inodes are their own. -/
theorem FsState.SameInodes.refl (s : FsState) : s.SameInodes s := ⟨fun _ => rfl, fun _ => rfl⟩

/-- The same inodes have the same entries. -/
theorem FsState.SameInodes.inoAt_eq {s s' : FsState} (h : s.SameInodes s') (ino : ℕ) (name : Name) :
    s'.inoAt ino name = s.inoAt ino name := by
  have hdir := h.dirs ino
  unfold inoAt entryAt
  cases hd : s.dirs[ino]? <;> cases hd' : s'.dirs[ino]? <;> rw [hd, hd'] at hdir <;>
    simp_all

/-- One entry of the directory `parent` was changed to have the number `new`, if any. -/
structure FsState.EntrySet (s s' : FsState) (parent : ℕ) (name : Name) (new : Option ℕ) : Prop where
  /-- There was an entry exactly when there is none now. -/
  changed : (s.inoAt parent name).isSome = new.isNone
  /-- The entry. -/
  entry : s'.inoAt parent name = new
  /-- Other entries are unchanged. -/
  other : ∀ ino name', (ino, name') ≠ (parent, name) → s'.inoAt ino name' = s.inoAt ino name'

/-- The requested change was made. -/
def FsRequest.Made (q : FsRequest) (s s' : FsState) : Prop :=
  match q with
  | .create r => s.EntrySet s' r.parent r.name (some r.regIno)
  | .mkdir r => s.EntrySet s' r.parent r.name (some r.addr)
  | .unlink r => s.EntrySet s' r.parent r.name none
  | .rmdir r => s.EntrySet s' r.parent r.name none
  | .rename r => r.Moved s s'
  | _ => True

/-- The execution of `q` from `s` to `c` tells the truth. -/
structure Honest (q : FsRequest) (s : FsState) (c : FsConfig) : Prop where
  /-- A success reply is only sent when the requested change was made. -/
  made : (∃ rep ∈ c.replies, rep.IsSuccess) → q.Made s c.state
  /-- Otherwise errors are positive. -/
  errno_pos : (¬ ∃ rep ∈ c.replies, rep.IsSuccess) → ∀ req errno, .err req errno ∈ c.replies →
    0 < errno
  /-- Otherwise all inodes are left. -/
  left : (¬ ∃ rep ∈ c.replies, rep.IsSuccess) → s.SameInodes c.state

/-- The request asks for a change: it is not the rename of an entry to itself. -/
def FsRequest.AsksChange : FsRequest → Prop
  | .rename r => (r.parent, r.oldname) ≠ (r.newparent, r.newname)
  | .create _ | .mkdir _ | .unlink _ | .rmdir _ => True
  | _ => False

/-- The entry that is moved exists. -/
def FsRequest.HasSource (q : FsRequest) (s : FsState) : Prop :=
  match q with
  | .rename r => s.inoAt r.parent r.oldname ≠ none
  | _ => True

/-- A request that asks for a change did not make it where all entries are the same. -/
theorem FsState.SameInodes.not_made {q : FsRequest} {s s' : FsState} (h : s.SameInodes s')
    (hchange : q.AsksChange) (hsource : q.HasSource s) : ¬ q.Made s s' := by
  have hset : ∀ parent name new, ¬ s.EntrySet s' parent name new := by
    rintro parent name new ⟨hchanged, hentry, -⟩
    rw [h.inoAt_eq] at hentry
    rw [hentry] at hchanged
    cases new <;> simp at hchanged
  cases q with
  | rename r =>
    intro hmoved
    exact hsource ((h.inoAt_eq ..).symm.trans (hmoved.old hchange))
  | create r => exact hset _ _ _
  | mkdir r => exact hset _ _ _
  | unlink r => exact hset _ _ _
  | rmdir r => exact hset _ _ _
  | _ => exact absurd hchange id

/-- In an honest execution a success reply is sent exactly when the requested change was made. -/
theorem Honest.success_iff {q : FsRequest} {s : FsState} {c : FsConfig} (h : Honest q s c)
    (hchange : q.AsksChange) (hsource : q.HasSource s) :
    (∃ rep ∈ c.replies, rep.IsSuccess) ↔ q.Made s c.state := by
  refine ⟨h.made, fun hmade => ?_⟩
  by_contra hno
  exact (h.left hno).not_made hchange hsource hmade

/-- An execution that leaves the state and only replies positive errors is honest. -/
theorem Honest.of_left {q : FsRequest} {s : FsState} {pending : List FsTask} {rs : List Reply}
    (herr : ∀ rep ∈ rs, ∃ req errno, 0 < errno ∧ rep = .err req errno) :
    Honest q s ⟨s, pending, rs⟩ where
  made := by
    rintro ⟨rep, hrep, hsuccess⟩
    obtain ⟨req, errno, hpos, rfl⟩ := herr rep hrep
    exact absurd hsuccess hpos.ne'
  errno_pos _ req errno hmem := by
    obtain ⟨req', errno', hpos, heq⟩ := herr _ hmem
    rw [(Reply.err.inj heq).2]
    exact hpos
  left _ := .refl s

/-- An execution that made the requested change and says success is honest. -/
theorem Honest.of_made {q : FsRequest} {s : FsState} {c : FsConfig} {rep : Reply}
    (hrep : rep ∈ c.replies) (hsuccess : rep.IsSuccess) (hmade : q.Made s c.state) :
    Honest q s c :=
  ⟨fun _ => hmade, fun hno => absurd ⟨rep, hrep, hsuccess⟩ hno,
    fun hno => absurd ⟨rep, hrep, hsuccess⟩ hno⟩

/-! ## The condition -/

/-- The request is answered in a way that does not tell the truth: an `unlink` whose entry exists,
without the permission to write the parent or of a directory, or a `rename` with a wrong update. -/
def FsRequest.Misreports (q : FsRequest) (s : FsState) : Prop :=
  match q with
  | .unlink r => ∃ p it, s.dirs[r.parent]? = some p ∧ p.find r.name = some it ∧
      (¬ p.CanWrite r.uid r.gid ∨ it.entry.ino % 2 = 0)
  | .rename r => r.Misplaces s
  | _ => False

section Requests

variable {s : FsState} {c : FsConfig}

/-- There is no number under a name that was not found. -/
theorem FsState.inoAt_of_find_none {ino : ℕ} {d : DirInode} {name : Name}
    (hd : s.dirs[ino]? = some d) (hfind : d.find name = none) : s.inoAt ino name = none := by
  rw [inoAt, entryAt_of_some hd, DirInode.find_eq_none.mp hfind]
  rfl

/-- `create` is honest. -/
theorem create_honest {r : MakeReq} (hserve : server.Serves s (.create r) c) :
    Honest (.create r) s c := by
  cases create_end hserve with
  | longName => exact .of_left (by simp [ENAMETOOLONG])
  | badParent => exact .of_left (by simp)
  | refused _ _ hrefuse =>
    refine .of_left ?_
    rcases hrefuse with ⟨-, rfl⟩ | ⟨-, -, rfl⟩ <;> simp [EEXIST, EACCES]
  | @made p hshort hp hfind hacc =>
    refine .of_made (List.mem_singleton.mpr rfl) trivial ⟨?_, ?_, fun ino name hne => ?_⟩
    · rw [FsState.inoAt_of_find_none hp hfind]
      rfl
    · have hp' := (s.dirs_created r p r.parent).trans (if_pos rfl)
      rw [FsState.inoAt, FsState.entryAt_of_some hp']
      simp [DirInode.find_eq_none.mp hfind]
    · by_cases hino : r.parent = ino
      · subst hino
        have hp' := (s.dirs_created r p r.parent).trans (if_pos rfl)
        have hname : r.name ≠ name := fun heq => hne (by rw [heq])
        rw [FsState.inoAt, FsState.entryAt_of_some hp', FsState.inoAt, FsState.entryAt_of_some hp]
        simp [hname]
      · exact FsState.inoAt_congr (s.entryAt_created _ _ _ _ hino)

/-- `mkdir` is honest. -/
theorem mkdir_honest {r : MakeReq} (hfresh : s.dirs[r.addr]? = none)
    (hserve : server.Serves s (.mkdir r) c) : Honest (.mkdir r) s c := by
  cases mkdir_end hfresh hserve with
  | longName => exact .of_left (by simp [ENAMETOOLONG])
  | badParent => exact .of_left (by simp)
  | refused _ _ hrefuse =>
    refine .of_left ?_
    rcases hrefuse with ⟨-, rfl⟩ | ⟨-, -, rfl⟩ <;> simp [EEXIST, EACCES]
  | @made p hshort hp hfind hacc =>
    have hne : r.addr ≠ r.parent := by
      intro heq
      rw [heq, hp] at hfresh
      cases hfresh
    have hp' : (s.madeDir r p).dirs[r.parent]? =
        some (((p.insert r.name ⟨r.addr, r.node⟩).touch r.now).addLinks 1) := by
      rw [FsState.dirs_madeDir, if_neg hne, if_pos rfl]
    refine .of_made (List.mem_singleton.mpr rfl) trivial ⟨?_, ?_, fun ino name hname => ?_⟩
    · rw [FsState.inoAt_of_find_none hp hfind]
      rfl
    · rw [FsState.inoAt, FsState.entryAt_of_some hp']
      simp [DirInode.find_eq_none.mp hfind]
    · by_cases hino : r.parent = ino
      · subst hino
        have hname' : r.name ≠ name := fun heq => hname (by rw [heq])
        rw [FsState.inoAt, FsState.entryAt_of_some hp', FsState.inoAt, FsState.entryAt_of_some hp]
        simp [hname']
      · exact FsState.inoAt_congr (s.entryAt_madeDir _ _ hfresh _ hino)

/-- `unlink` is honest exactly when it does not misreport. -/
theorem unlink_honest_iff {r : RemoveReq} (hserve : server.Serves s (.unlink r) c) :
    Honest (.unlink r) s c ↔ ¬ (FsRequest.unlink r).Misreports s := by
  have hnone : (s.dirs[r.parent]? = none ∨ ∃ p, s.dirs[r.parent]? = some p ∧
      (p.find r.name = none ∨ ∃ it, p.find r.name = some it ∧ p.CanWrite r.uid r.gid ∧
        it.entry.ino % 2 = 1)) → ¬ (FsRequest.unlink r).Misreports s := by
    rintro (hp | ⟨p, hp, hrest⟩) ⟨p', it, hp', hfind', hbad⟩
    · rw [hp] at hp'
      cases hp'
    · obtain rfl := Option.some.inj (hp.symm.trans hp')
      rcases hrest with hfind | ⟨it', hfind, hacc, hodd⟩
      · rw [hfind] at hfind'
        cases hfind'
      · obtain rfl := Option.some.inj (hfind.symm.trans hfind')
        rcases hbad with hbad | hbad
        · exact hbad hacc
        · omega
  cases unlink_end hserve with
  | badParent hp => exact iff_of_true (.of_left (by simp)) (hnone (.inl hp))
  | refused hstep =>
    generalize he : (⟨s, [], _⟩ : FsEffect) = e at hstep
    cases hstep with
    | noEntry hp hfind =>
      obtain ⟨-, -, rfl⟩ := Effect.mk.inj he
      exact iff_of_true (.of_left (by simp [ENOENT])) (hnone (.inr ⟨_, hp, .inl hfind⟩))
    | denied hp hfind hacc =>
      obtain ⟨-, -, rfl⟩ := Effect.mk.inj he
      refine iff_of_false (fun hhonest => ?_) (not_not.mpr ⟨_, _, hp, hfind, .inl hacc⟩)
      have hpos := hhonest.errno_pos (by simp [Reply.IsSuccess, EACCES]) _ _
        (List.mem_singleton.mpr rfl)
      exact absurd hpos (by decide)
    | isDir hp hfind hacc heven =>
      obtain ⟨-, -, rfl⟩ := Effect.mk.inj he
      refine iff_of_false (fun hhonest => ?_) (not_not.mpr ⟨_, _, hp, hfind, .inr heven⟩)
      have hmade := hhonest.made ⟨_, List.mem_singleton.mpr rfl, rfl⟩
      exact (FsState.SameInodes.refl s).not_made (q := .unlink r) trivial trivial hmade
    | erased => cases (Effect.mk.inj he).2.1
  | stuck hp hfind hacc hodd hf =>
    exact iff_of_true (.of_left (by simp)) (hnone (.inr ⟨_, hp, .inr ⟨_, hfind, hacc, hodd⟩⟩))
  | @erased p it f hp hfind hacc hodd hf =>
    refine iff_of_true ?_ (hnone (.inr ⟨_, hp, .inr ⟨_, hfind, hacc, hodd⟩⟩))
    have hp' : (s.unlinked r p it.entry.ino f).dirs[r.parent]? =
        some ((p.erase r.name).touch r.now) := by
      simp [FsState.unlinked]
    refine .of_made (List.mem_singleton.mpr rfl) rfl ⟨?_, ?_, fun ino name hne => ?_⟩
    · rw [FsState.inoAt_of_find hp hfind]
      rfl
    · rw [FsState.inoAt, FsState.entryAt_of_some hp']
      simp
    · by_cases hino : r.parent = ino
      · subst hino
        have hname : r.name ≠ name := fun heq => hne (by rw [heq])
        rw [FsState.inoAt, FsState.entryAt_of_some hp', FsState.inoAt, FsState.entryAt_of_some hp]
        simp [hname]
      · exact FsState.inoAt_congr (s.entryAt_unlinked _ _ _ _ _ _ hino)

/-- `rmdir` is honest. -/
theorem rmdir_honest {r : RemoveReq} (hserve : server.Serves s (.rmdir r) c) :
    Honest (.rmdir r) s c := by
  cases rmdir_end hserve with
  | badParent => exact .of_left (by simp)
  | refused hstep =>
    generalize he : (⟨s, [], _⟩ : FsEffect) = e at hstep
    cases hstep with
    | noEntry =>
      obtain ⟨-, -, rfl⟩ := Effect.mk.inj he
      exact .of_left (by simp [ENOENT])
    | notDir =>
      obtain ⟨-, -, rfl⟩ := Effect.mk.inj he
      exact .of_left (by simp [ENOTDIR])
    | found => cases (Effect.mk.inj he).2.1
  | stuck => exact .of_left (by simp)
  | assertion => exact .of_left (by simp)
  | @removed p d it e hp hfind hdir hne hd hstep =>
    cases hstep with
    | notEmpty => exact .of_left (by simp [ENOTEMPTY])
    | @erased d' p' hd' hp' hsize hnlink =>
      have hremoves : r.Removes s p' d' it := by
        obtain rfl := Option.some.inj (hp.symm.trans hp')
        exact ⟨hp, hfind, hdir, hne, hd', hsize, hnlink⟩
      rw [hremoves.end_eq hserve]
      have hparent : (s.removed r p' d' it).dirs[r.parent]? =
          some (((p'.touch r.now).erase r.name).addLinks (-1)) := by
        simp [FsState.removed]
      refine .of_made (List.mem_singleton.mpr rfl) rfl ⟨?_, ?_, fun ino name hname => ?_⟩
      · rw [FsState.inoAt_of_find hp hfind]
        rfl
      · rw [FsState.inoAt, FsState.entryAt_of_some hparent]
        simp
      · refine FsState.inoAt_congr ?_
        simp only [FsState.removed, FsState.entryAt_setDir]
        split
        · next hino =>
          subst hino
          have hname' : r.name ≠ name := fun heq => hname (by rw [heq])
          rw [FsState.entryAt_of_some hp']
          simp [hname']
        · split
          · next hino =>
            subst hino
            rw [FsState.entryAt_of_some hd']
            rfl
          · rfl

/-- `rename` is honest exactly when it makes no wrong update. -/
theorem rename_honest_iff {r : RenameReq} (hserve : server.Serves s (.rename r) c) :
    Honest (.rename r) s c ↔ ¬ r.Misplaces s := by
  have hout := rename_outcome hserve
  by_cases hsuccess : Reply.err r.req 0 ∈ c.replies
  · rw [← hout.moved_iff hsuccess]
    exact ⟨fun h => h.made ⟨_, hsuccess, rfl⟩, fun hmoved => .of_made hsuccess rfl hmoved⟩
  · refine iff_of_true ?_ ?_
    · cases hout with
      | left herr =>
        refine .of_left fun rep hrep => ?_
        obtain ⟨errno, hpos, rfl⟩ := herr rep hrep
        exact ⟨_, errno, hpos, rfl⟩
      | moved => exact absurd (List.mem_singleton.mpr rfl) hsuccess
      | replaced => exact absurd (List.mem_singleton.mpr rfl) hsuccess
    · rintro (⟨p, np, old, h, -⟩ | ⟨p, np, old, dupl, _, _, _, h, -⟩)
      · rw [h.end_eq hserve] at hsuccess
        exact hsuccess (List.mem_singleton.mpr rfl)
      · rw [h.end_eq hserve] at hsuccess
        exact hsuccess (List.mem_singleton.mpr rfl)

/-- For every request on entries, every requester and every state: the execution of the request alone
says success exactly when it made the requested change, and else sends positive errors and leaves all
inodes, if and only if the request is not an `unlink` of a directory, an `unlink` without permission,
or a `rename` with a wrong update. -/
theorem honest_iff {q : FsRequest} {uid gid : ℕ} (hq : q.requester = some (uid, gid))
    (hfresh : q.FreshAddr s) (hserve : server.Serves s q c) :
    Honest q s c ↔ ¬ q.Misreports s := by
  cases q with
  | create r => exact iff_of_true (create_honest hserve) id
  | mkdir r => exact iff_of_true (mkdir_honest hfresh hserve) id
  | unlink r => exact unlink_honest_iff hserve
  | rmdir r => exact iff_of_true (rmdir_honest hserve) id
  | rename r => exact rename_honest_iff hserve
  | _ => cases hq

end Requests

/-- `mkdirA` is honest exactly when it does not misreport. -/
theorem honest_iff_mkdirA :
    ∃ c, server.Serves rootFs (.mkdir mkdirA) c ∧
      (Honest (.mkdir mkdirA) rootFs c ↔ ¬ (FsRequest.mkdir mkdirA).Misreports rootFs) := by
  refine ⟨_, serves_mkdirA, honest_iff rfl ?_ serves_mkdirA⟩
  simp [FsRequest.FreshAddr, rootFs, FsState.init, FUSE_ROOT_ID, mkdirA]

/-! ## A directory that is not unlinked -/

/-- Root unlinks the directory `a`. -/
def unlinkA : RemoveReq := { rmdirA with uid := 0, gid := 0 }

/-- Root makes a directory and unlinks it: the reply says success, and the entry is still there. -/
theorem unlinkA_not_honest :
    server.Serial (fun _ _ => True) rootFs
        [(.mkdir mkdirA, [.entry 1 (MakeReq.entryParam mkdirA.dirStat)])] fsA ∧
      ∃ c, server.Serves fsA (.unlink unlinkA) c ∧ ¬ Honest (.unlink unlinkA) fsA c := by
  refine ⟨System.Serial.nil.snoc trivial serves_mkdirA, ?_⟩
  obtain ⟨c, hc⟩ := exists_serves fsA (.unlink unlinkA)
  refine ⟨c, hc, fun hhonest => (unlink_honest_iff hc).mp hhonest ?_⟩
  exact ⟨rootDirA, _, fsA_dirs.1, rootDirA_find, .inr rfl⟩

end VeronaFs
