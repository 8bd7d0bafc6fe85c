import VeronaFs.FileSystem.Answers
import VeronaFs.Namespace.RenameEffect

/-!
# Every request is answered once

A request that is executed alone should be answered by exactly one reply.  `answered_iff` gives the
exact condition: inode numbers must be those of inodes, no assertion may fail, no loop may overflow
and no `when` may wait for itself; and a `rename` must not take one of its exits without a reply.
-/

namespace VeronaFs

open Boc Foundation

/-! ## The condition -/

/-- The assertions of `get_inode`, for the number of references with the new one. -/
def RefsOk (krefs : ℤ) (found : Bool) : Prop := if found then 0 < krefs else krefs = 0

/-- The checks of `get_inode` pass exactly when its assertions hold. -/
theorem getInodeCheck_eq_ok {krefs : ℤ} {found : Bool} {u : Unit} :
    FsState.getInodeCheck krefs found = .ok u ↔ RefsOk krefs found := by
  unfold FsState.getInodeCheck RefsOk
  split
  · split <;> simp [*]
  · split <;> simp [*]

/-- The lookup of `name` does not come to its reply: the parent or the inode does not exist, or an
assertion of `get_inode` fails. -/
def FsState.LookupFails (s : FsState) (parent : ℕ) (name : Name) : Prop :=
  s.dirs[parent]? = none ∨ ∃ p it, s.dirs[parent]? = some p ∧ p.find name = some it ∧
    (it.entry.ino % 2 = 1 ∧ (∀ f, s.regs[it.entry.ino]? = some f →
        ¬ RefsOk (f.inode.krefs + 1) s.regTable[f.inode.ino]?.isSome) ∨
      it.entry.ino % 2 = 0 ∧ ∀ d, s.dirs[it.entry.ino]? = some d →
        ¬ RefsOk (d.krefs + 1) s.dirTable[d.ino]?.isSome)

/-- The `unlink` does not come to its reply. -/
def RemoveReq.UnlinkFails (r : RemoveReq) (s : FsState) : Prop :=
  s.dirs[r.parent]? = none ∨ ∃ p it, s.dirs[r.parent]? = some p ∧ p.find r.name = some it ∧
    p.CanWrite r.uid r.gid ∧ it.entry.ino % 2 = 1 ∧ s.regs[it.entry.ino]? = none

/-- The `rmdir` does not come to its reply: a directory does not exist or is its own parent, or the
assertion on the link count fails. -/
def RemoveReq.RmdirFails (r : RemoveReq) (s : FsState) : Prop :=
  s.dirs[r.parent]? = none ∨ ∃ p it, s.dirs[r.parent]? = some p ∧ p.find r.name = some it ∧
    it.IsDir ∧ (it.entry.ino = r.parent ∨ ∀ d, s.dirs[it.entry.ino]? = some d →
      d.dentries.size = 0 ∧ d.iSt.stNlink ≠ 2)

/-- The target is a directory and the old inode is not: the exit has no reply. -/
structure RenameReq.OverDirectory (r : RenameReq) (np : DirInode) (duplReg : Option File)
    (oldDir duplDir : Option DirInode) : Prop where
  /-- The sticky bit does not forbid the replacement. -/
  not_sticky : duplReg.isSome ∨ duplDir.isSome → ¬ r.stickyDenied np.iSt
    ((duplReg.map fun f => f.st.stUid).getD FAKE_UID) np.iSt.stUid = true
  /-- The old inode does not have the mode of a directory. -/
  old : ¬ oldDir.any (·.iSt.isDir) = true
  /-- The target has. -/
  dupl : duplDir.any (·.iSt.isDir) = true

/-- The `rename` does not come to a reply. -/
inductive RenameReq.Fails (r : RenameReq) (s : FsState) : Prop
  /-- A name is too long. -/
  | longName (h : NAME_MAX < r.oldname.length ∨ NAME_MAX < r.newname.length)
  /-- A parent does not exist. -/
  | badParent (h : s.dirs[r.parent]? = none ∨ s.dirs[r.newparent]? = none)
  /-- The old inode does not exist, or it is a parent. -/
  | badSource {p np : DirInode} {old : Iter} (hreach : r.Reaches s p np old)
      (h : r.BadSource s old)
  /-- The checks on the old inode fail without a reply. -/
  | silent {p np : DirInode} {old : Iter} (hreach : r.Reaches s p np old)
      (h : r.SilentSource s p old)
  /-- The last behaviour names a cown twice. -/
  | hang {p np : DirInode} {old dupl : Iter} (hup : r.Updates s p np old)
      (hfind : np.find r.newname = some dupl)
      (h : ¬ r.DistinctInodes s old.entry.ino dupl.entry.ino)
  /-- An inode in the tables does not exist. -/
  | missing {p np : DirInode} {old dupl : Iter} (hup : r.Updates s p np old)
      (hfind : np.find r.newname = some dupl) (h : (s.replaced r old dupl p np).Missing s)
  /-- A directory would be replaced by another kind of inode. -/
  | overDirectory {p np : DirInode} {old dupl : Iter} {duplReg : Option File}
      {oldDir duplDir : Option DirInode} (hup : r.Updates s p np old)
      (hfind : np.find r.newname = some dupl)
      (hreads : s.ReplaceReads r (s.replaced r old dupl p np) p np duplReg oldDir duplDir)
      (h : r.OverDirectory np duplReg oldDir duplDir)

/-- The buffer of a `readdir` has space for the entries `.` and `..` that its offset asks for. -/
def ReaddirReq.DotsFit (r : ReaddirReq) : Prop :=
  if cU64 r.off = 0 then FsState.direntSize (FsState.dotName 1) + FsState.direntSize (FsState.dotName 2) ≤ r.bufsize
  else if cU64 r.off = 1 then FsState.direntSize (FsState.dotName 2) ≤ r.bufsize
  else True

/-- The request is not refused by the dispatcher and does not come to a reply on the regular inode. -/
def FsState.RegFails (s : FsState) (ino : ℕ) (q : FileRequest) : Prop :=
  q.refusal = none ∧ ∀ f, s.regs[ino]? = some f → q.Unanswered f

/-- The request on the inode `ino` does not come to its reply. -/
def FsState.InodeFails (s : FsState) (ino : ℕ) (q : FileRequest) : Prop :=
  match q with
  | .setattr r =>
    if ino % 2 = 1 then s.RegFails ino q
    else ∀ d, s.dirs[ino]? = some d → r.SetsSize d.iSt ∧ ¬ (r.assigned d.iSt).isRegular
  | .opendir _ _ _ _ _ =>
    if ino = FUSE_ROOT_ID ∨ ino % 2 = 0 then s.dirs[ino]? = none else s.RegFails ino q
  | .access _ mask _ _ =>
    if ino = FUSE_ROOT_ID ∨ ino % 2 = 0 then
      s.dirs[ino]? = none ∨ mask ≠ F_OK ∧ mask &&& (R_OK ||| W_OK ||| X_OK) = 0
    else s.RegFails ino q
  | _ => s.RegFails ino q

/-- The request does not come to its reply. -/
def FsRequest.Unanswered (q : FsRequest) (s : FsState) : Prop :=
  match q with
  | .lookup _ parent name => s.LookupFails parent name
  | .create r => r.name.length ≤ NAME_MAX ∧ s.dirs[r.parent]? = none
  | .mkdir r => r.name.length ≤ NAME_MAX ∧ s.dirs[r.parent]? = none
  | .unlink r => r.UnlinkFails s
  | .rmdir r => r.RmdirFails s
  | .rename r => r.Fails s
  | .readdir r => r.DotsFit ∧ s.dirs[r.parent]? = none
  | .getattr _ ino =>
    if ino = FUSE_ROOT_ID ∨ ino % 2 = 0 then s.dirs[ino]? = none else s.regs[ino]? = none
  | .forget _ _ => True
  | .onInode ino q => s.InodeFails ino q

/-- The request that a client waits for; a `forget` has no reply. -/
def FsRequest.req? : FsRequest → Option ℕ
  | .lookup req _ _ => some req
  | .create r => some r.req
  | .mkdir r => some r.req
  | .unlink r => some r.req
  | .rmdir r => some r.req
  | .rename r => some r.req
  | .readdir r => some r.req
  | .getattr req _ => some req
  | .forget _ _ => none
  | .onInode _ q => some q.req

/-- All requests but `read`, whose reply comes from the counter of its buffer, and `forget`. -/
def FsRequest.Listed : FsRequest → Prop
  | .forget _ _ => False
  | .onInode _ (.read _) => False
  | _ => True

/-- Exactly one reply was sent, and it is for the request. -/
def AnsweredOnce (q : FsRequest) (c : FsConfig) : Prop :=
  ∃ rep, c.replies = [rep] ∧ q.req? = some rep.req

/-- Nothing was sent. -/
theorem not_answeredOnce {q : FsRequest} {s : FsState} {pending : List FsTask} :
    ¬ AnsweredOnce q ⟨s, pending, []⟩ := by
  rintro ⟨rep, h, -⟩
  cases h

/-! ## Requests on entries -/

section Entries

variable {s : FsState} {c : FsConfig}

/-- A behaviour `t`, the only one pending, that either does not run to its end or sends one reply. -/
theorem answeredOnce_iff_of_settles {q : FsRequest} {t : FsTask}
    (hend : server.Settles ⟨s, [t], []⟩ c) (hleaf : ∀ e, server.body t s = .ok e →
      e.spawned = [] ∧ ∃ rep, e.replies = [rep] ∧ q.req? = some rep.req) :
    AnsweredOnce q c ↔ ∃ e, server.body t s = .ok e := by
  rcases hend.singleton_cases with ⟨rfl, hstuck⟩ | ⟨e, he, hend⟩
  · refine iff_of_false not_answeredOnce ?_
    rintro ⟨e, he⟩
    refine hstuck e ⟨he, ?_⟩
    rw [(hleaf e he).1]
    simp
  · obtain ⟨hspawned, hrep⟩ := hleaf e he.body_eq
    rw [hspawned] at hend
    rw [System.settles_nil.mp hend]
    exact iff_of_true hrep ⟨e, he.body_eq⟩

/-- A request whose handler schedules such a behaviour. -/
theorem answeredOnce_iff_of_leaf {q : FsRequest} {t : FsTask} (h : server.Serves s q c)
    (hhandle : server.handle q s = .ok ⟨s, [t], []⟩) (ht : (server.cowns t).Nodup)
    (hleaf : ∀ e, server.body t s = .ok e →
      e.spawned = [] ∧ ∃ rep, e.replies = [rep] ∧ q.req? = some rep.req) :
    AnsweredOnce q c ↔ ∃ e, server.body t s = .ok e := by
  have hrun : server.Handles q s ⟨s, [t], []⟩ := ⟨hhandle, by simpa using ht⟩
  exact answeredOnce_iff_of_settles ((System.serves_iff hrun).mp h) hleaf

/-- The behaviour of `lookup` on a regular inode comes to its reply when the assertions hold. -/
theorem lookupReg_ok_iff {req ino : ℕ} : (∃ e, s.lookupReg req ino = .ok e) ↔
    ∃ f, s.regs[ino]? = some f ∧ RefsOk (f.inode.krefs + 1) s.regTable[f.inode.ino]?.isSome := by
  constructor
  · rintro ⟨e, he⟩
    obtain ⟨f, hf, he⟩ := bind_eq_ok.mp he
    obtain ⟨u, hu, -⟩ := bind_eq_ok.mp he
    exact ⟨f, (FsState.getReg_eq_ok ..).mp hf, getInodeCheck_eq_ok.mp hu⟩
  · rintro ⟨f, hf, hrefs⟩
    simp only [FsState.lookupReg, FsState.getReg_of_some hf, bind, Except.bind,
      getInodeCheck_eq_ok (u := ()).mpr hrefs]
    exact ⟨_, rfl⟩

/-- The behaviour of `lookup` on a directory comes to its reply when the assertions hold. -/
theorem lookupDir_ok_iff {req ino : ℕ} : (∃ e, s.lookupDir req ino = .ok e) ↔
    ∃ d, s.dirs[ino]? = some d ∧ RefsOk (d.krefs + 1) s.dirTable[d.ino]?.isSome := by
  constructor
  · rintro ⟨e, he⟩
    obtain ⟨d, hd, he⟩ := bind_eq_ok.mp he
    obtain ⟨u, hu, -⟩ := bind_eq_ok.mp he
    exact ⟨d, (FsState.getDir_eq_ok ..).mp hd, getInodeCheck_eq_ok.mp hu⟩
  · rintro ⟨d, hd, hrefs⟩
    simp only [FsState.lookupDir, FsState.getDir_of_some hd, bind, Except.bind,
      getInodeCheck_eq_ok (u := ()).mpr hrefs]
    exact ⟨_, rfl⟩

/-- The body of `lookup` runs to its end when the inode of the entry exists. -/
theorem lookup_ok (req : ℕ) {parent : ℕ} {name : Name} {p : DirInode}
    (hp : s.dirs[parent]? = some p)
    (hino : ∀ it, p.find name = some it → (it.entry.ino % 2 = 1 → ∃ f, s.regs[it.entry.ino]? = some f) ∧
      (it.entry.ino % 2 = 0 → ∃ d, s.dirs[it.entry.ino]? = some d)) :
    ∃ e, s.lookup req parent name = .ok e := by
  cases hfind : p.find name with
  | none =>
    simp only [FsState.lookup, FsState.getDir_of_some hp, bind, Except.bind, hfind]
    exact ⟨_, rfl⟩
  | some it =>
    simp only [FsState.lookup, FsState.getDir_of_some hp, bind, Except.bind, hfind]
    obtain ⟨hreg, hdir⟩ := hino it hfind
    split
    · next hodd =>
      obtain ⟨f, hf⟩ := hreg hodd
      rw [FsState.getReg_of_some hf]
      exact ⟨_, rfl⟩
    · next heven =>
      obtain ⟨d, hd⟩ := hdir (by omega)
      rw [FsState.getDir_of_some hd]
      exact ⟨_, rfl⟩

/-- `lookup` is answered once exactly when it comes to its reply. -/
theorem lookup_answered_iff {req parent : ℕ} {name : Name}
    (h : server.Serves s (.lookup req parent name) c) :
    AnsweredOnce (.lookup req parent name) c ↔ ¬ s.LookupFails parent name := by
  cases hp : s.dirs[parent]? with
  | none =>
    rw [h.failed (handleDir_of_none hp _)]
    exact iff_of_false not_answeredOnce (not_not.mpr (.inl hp))
  | some p =>
    have hfails : ∀ it, p.find name = some it → (s.LookupFails parent name ↔
        (it.entry.ino % 2 = 1 ∧ (∀ f, s.regs[it.entry.ino]? = some f →
            ¬ RefsOk (f.inode.krefs + 1) s.regTable[f.inode.ino]?.isSome) ∨
          it.entry.ino % 2 = 0 ∧ ∀ d, s.dirs[it.entry.ino]? = some d →
            ¬ RefsOk (d.krefs + 1) s.dirTable[d.ino]?.isSome)) := by
      intro it hfind
      refine ⟨?_, fun h => .inr ⟨p, it, hp, hfind, h⟩⟩
      rintro (hno | ⟨p', it', hp', hfind', h⟩)
      · rw [hp] at hno
        cases hno
      · obtain rfl := Option.some.inj (hp.symm.trans hp')
        obtain rfl := Option.some.inj (hfind.symm.trans hfind')
        exact h
    rcases h.scheduled_cases (handleDir_of_some hp _) (by simp [server, FsTask.cowns]) with
      ⟨rfl, hstuck⟩ | ⟨e, he, hend⟩
    · refine iff_of_false not_answeredOnce (not_not.mpr ?_)
      have hno : ¬ ∃ e, s.lookup req parent name = .ok e := by
        rintro ⟨e, he⟩
        refine hstuck e ⟨he, ?_⟩
        cases lookup_step he <;> simp [server, FsTask.cowns]
      have hbad := mt (lookup_ok req hp) hno
      push Not at hbad
      obtain ⟨it, hfind, hbad⟩ := hbad
      refine (hfails it hfind).mpr ?_
      by_cases hodd : it.entry.ino % 2 = 1
      · by_cases hreg : ∃ f, s.regs[it.entry.ino]? = some f
        · exact absurd (hbad fun _ => hreg).1 (by omega)
        · exact .inl ⟨hodd, fun f hf => absurd ⟨f, hf⟩ hreg⟩
      · obtain ⟨heven, hno⟩ := hbad fun h => absurd h hodd
        exact .inr ⟨heven, fun d hd => absurd hd (hno d)⟩
    · have hbody : s.lookup req parent name = .ok e := he.body_eq
      cases lookup_step hbody with
      | noEntry hp' hfind =>
        obtain rfl := Option.some.inj (hp.symm.trans hp')
        rw [System.settles_nil.mp hend]
        refine iff_of_true ⟨_, rfl, rfl⟩ ?_
        rintro (hno | ⟨p', it, hp', hfind', -⟩)
        · rw [hp] at hno
          cases hno
        · obtain rfl := Option.some.inj (hp.symm.trans hp')
          rw [hfind] at hfind'
          cases hfind'
      | reg hp' hfind hodd hf =>
        obtain rfl := Option.some.inj (hp.symm.trans hp')
        rw [hfails _ hfind, answeredOnce_iff_of_settles hend]
        · refine (lookupReg_ok_iff (s := s)).trans ?_
          simp [hodd]
        · intro e he
          obtain ⟨f, -, he⟩ := bind_eq_ok.mp he
          obtain ⟨u, -, he⟩ := bind_eq_ok.mp he
          rw [← Except.ok.inj he]
          exact ⟨rfl, _, rfl, rfl⟩
      | dir hp' hfind heven hd =>
        obtain rfl := Option.some.inj (hp.symm.trans hp')
        rw [hfails _ hfind, answeredOnce_iff_of_settles hend]
        · refine (lookupDir_ok_iff (s := s)).trans ?_
          simp [heven]
        · intro e he
          obtain ⟨f, -, he⟩ := bind_eq_ok.mp he
          obtain ⟨u, -, he⟩ := bind_eq_ok.mp he
          rw [← Except.ok.inj he]
          exact ⟨rfl, _, rfl, rfl⟩

/-- `create` is answered once exactly when its parent exists. -/
theorem create_answered_iff {r : MakeReq} (h : server.Serves s (.create r) c) :
    AnsweredOnce (.create r) c ↔ ¬ (FsRequest.create r).Unanswered s := by
  cases create_end h with
  | longName hlong => exact iff_of_true ⟨_, rfl, rfl⟩ fun h => absurd h.1 (by omega)
  | badParent hshort hp => exact iff_of_false not_answeredOnce (not_not.mpr ⟨hshort, hp⟩)
  | refused hshort hp =>
    refine iff_of_true ⟨_, rfl, rfl⟩ fun h => ?_
    rw [h.2] at hp
    cases hp
  | made hshort hp =>
    refine iff_of_true ⟨_, rfl, rfl⟩ fun h => ?_
    rw [h.2] at hp
    cases hp

/-- `mkdir` is answered once exactly when its parent exists. -/
theorem mkdir_answered_iff {r : MakeReq} (hfresh : s.dirs[r.addr]? = none)
    (h : server.Serves s (.mkdir r) c) :
    AnsweredOnce (.mkdir r) c ↔ ¬ (FsRequest.mkdir r).Unanswered s := by
  cases mkdir_end hfresh h with
  | longName hlong => exact iff_of_true ⟨_, rfl, rfl⟩ fun h => absurd h.1 (by omega)
  | badParent hshort hp => exact iff_of_false not_answeredOnce (not_not.mpr ⟨hshort, hp⟩)
  | refused hshort hp =>
    refine iff_of_true ⟨_, rfl, rfl⟩ fun h => ?_
    rw [h.2] at hp
    cases hp
  | made hshort hp =>
    refine iff_of_true ⟨_, rfl, rfl⟩ fun h => ?_
    rw [h.2] at hp
    cases hp

/-- `unlink` is answered once exactly when it comes to its reply. -/
theorem unlink_answered_iff {r : RemoveReq} (h : server.Serves s (.unlink r) c) :
    AnsweredOnce (.unlink r) c ↔ ¬ r.UnlinkFails s := by
  have hok : ∀ {p}, s.dirs[r.parent]? = some p → (∀ it, p.find r.name = some it →
      p.CanWrite r.uid r.gid → it.entry.ino % 2 = 1 → s.regs[it.entry.ino]? ≠ none) →
        ¬ r.UnlinkFails s := by
    rintro p hp hreg (hno | ⟨p', it, hp', hfind, hacc, hodd, hf⟩)
    · rw [hp] at hno
      cases hno
    · obtain rfl := Option.some.inj (hp.symm.trans hp')
      exact hreg it hfind hacc hodd hf
  cases unlink_end h with
  | badParent hp => exact iff_of_false not_answeredOnce (not_not.mpr (.inl hp))
  | refused hstep =>
    generalize he : (⟨s, [], _⟩ : FsEffect) = e at hstep
    cases hstep with
    | noEntry hp hfind =>
      obtain ⟨-, -, rfl⟩ := Effect.mk.inj he
      refine iff_of_true ⟨_, rfl, rfl⟩ (hok hp fun it hfind' => ?_)
      rw [hfind] at hfind'
      cases hfind'
    | denied hp hfind hacc =>
      obtain ⟨-, -, rfl⟩ := Effect.mk.inj he
      exact iff_of_true ⟨_, rfl, rfl⟩ (hok hp fun it hfind' hacc' => absurd hacc' hacc)
    | isDir hp hfind hacc heven =>
      obtain ⟨-, -, rfl⟩ := Effect.mk.inj he
      refine iff_of_true ⟨_, rfl, rfl⟩ (hok hp fun it hfind' _ hodd => ?_)
      obtain rfl := Option.some.inj (hfind.symm.trans hfind')
      omega
    | erased => cases (Effect.mk.inj he).2.1
  | stuck hp hfind hacc hodd hf =>
    exact iff_of_false not_answeredOnce (not_not.mpr (.inr ⟨_, _, hp, hfind, hacc, hodd, hf⟩))
  | erased hp hfind hacc hodd hf =>
    refine iff_of_true ⟨_, rfl, rfl⟩ (hok hp fun it hfind' _ _ hno => ?_)
    obtain rfl := Option.some.inj (hfind.symm.trans hfind')
    rw [hf] at hno
    cases hno

/-- `rmdir` is answered once exactly when it comes to its reply. -/
theorem rmdir_answered_iff {r : RemoveReq} (h : server.Serves s (.rmdir r) c) :
    AnsweredOnce (.rmdir r) c ↔ ¬ r.RmdirFails s := by
  have hok : ∀ {p}, s.dirs[r.parent]? = some p → (∀ it, p.find r.name = some it → it.IsDir →
      it.entry.ino ≠ r.parent ∧ ∃ d, s.dirs[it.entry.ino]? = some d ∧
        (d.dentries.size = 0 → d.iSt.stNlink = 2)) → ¬ r.RmdirFails s := by
    rintro p hp hdir (hno | ⟨p', it, hp', hfind, hit, hbad⟩)
    · rw [hp] at hno
      cases hno
    · obtain rfl := Option.some.inj (hp.symm.trans hp')
      obtain ⟨hne, d, hd, hsize⟩ := hdir it hfind hit
      rcases hbad with hbad | hbad
      · exact hne hbad
      · exact (hbad d hd).2 (hsize (hbad d hd).1)
  cases rmdir_end h with
  | badParent hp => exact iff_of_false not_answeredOnce (not_not.mpr (.inl hp))
  | refused hstep =>
    generalize he : (⟨s, [], _⟩ : FsEffect) = e at hstep
    cases hstep with
    | noEntry hp hfind =>
      obtain ⟨-, -, rfl⟩ := Effect.mk.inj he
      refine iff_of_true ⟨_, rfl, rfl⟩ (hok hp fun it hfind' => ?_)
      rw [hfind] at hfind'
      cases hfind'
    | notDir hp hfind hone hodd =>
      obtain ⟨-, -, rfl⟩ := Effect.mk.inj he
      refine iff_of_true ⟨_, rfl, rfl⟩ (hok hp fun it hfind' hit => ?_)
      obtain rfl := Option.some.inj (hfind.symm.trans hfind')
      rcases hit with hit | hit <;> omega
    | found => cases (Effect.mk.inj he).2.1
  | stuck hp hfind hdir hbad =>
    refine iff_of_false not_answeredOnce (not_not.mpr (.inr ⟨_, _, hp, hfind, hdir, ?_⟩))
    rcases hbad with hbad | hbad
    · refine .inr fun d hd => ?_
      rw [hbad] at hd
      cases hd
    · exact .inl hbad
  | assertion hp hfind hdir hne hd hsize hnlink =>
    refine iff_of_false not_answeredOnce (not_not.mpr (.inr ⟨_, _, hp, hfind, hdir, .inr ?_⟩))
    intro d' hd'
    obtain rfl := Option.some.inj (hd.symm.trans hd')
    exact ⟨hsize, hnlink⟩
  | removed hp hfind hdir hne hd hstep =>
    cases hstep with
    | notEmpty hd' hp' hsize =>
      refine iff_of_true ⟨_, rfl, rfl⟩ (hok hp fun it hfind' _ => ?_)
      obtain rfl := Option.some.inj (hfind.symm.trans hfind')
      exact ⟨hne, _, hd', fun h => absurd h hsize⟩
    | erased hd' hp' hsize hnlink =>
      refine iff_of_true ⟨_, rfl, rfl⟩ (hok hp fun it hfind' _ => ?_)
      obtain rfl := Option.some.inj (hfind.symm.trans hfind')
      exact ⟨hne, _, hd', fun _ => hnlink⟩

end Entries

/-! ## Rename -/

section Rename

variable {s : FsState} {r : RenameReq}

/-- What a request finds on its way to the old inode is determined. -/
theorem RenameReq.Reaches.unique {p p' np np' : DirInode} {old old' : Iter}
    (h : r.Reaches s p np old) (h' : r.Reaches s p' np' old') : p = p' ∧ np = np' ∧ old = old' := by
  obtain rfl := Option.some.inj (h.parent.symm.trans h'.parent)
  obtain rfl := Option.some.inj (h.newparent.symm.trans h'.newparent)
  exact ⟨rfl, rfl, Option.some.inj (h.find.symm.trans h'.find)⟩

/-- A request that gets to the old inode fails at the old inode or later. -/
theorem RenameReq.Reaches.fails_cases {p np : DirInode} {old : Iter} (hreach : r.Reaches s p np old)
    (h : r.Fails s) : r.BadSource s old ∨ r.SilentSource s p old ∨
      r.Updates s p np old ∧ ∃ dupl, np.find r.newname = some dupl ∧
        (¬ r.DistinctInodes s old.entry.ino dupl.entry.ino ∨
          (s.replaced r old dupl p np).Missing s ∨
          ∃ duplReg oldDir duplDir, s.ReplaceReads r (s.replaced r old dupl p np) p np duplReg oldDir
            duplDir ∧ r.OverDirectory np duplReg oldDir duplDir) := by
  cases h with
  | longName h =>
    have hshort := hreach.short
    omega
  | badParent h =>
    rw [hreach.parent, hreach.newparent] at h
    simp at h
  | badSource hreach' h =>
    obtain ⟨rfl, rfl, rfl⟩ := hreach.unique hreach'
    exact .inl h
  | silent hreach' h =>
    obtain ⟨rfl, rfl, rfl⟩ := hreach.unique hreach'
    exact .inr (.inl h)
  | hang hup hfind h =>
    obtain ⟨rfl, rfl, rfl⟩ := hreach.unique hup.reach
    exact .inr (.inr ⟨hup, _, hfind, .inl h⟩)
  | missing hup hfind h =>
    obtain ⟨rfl, rfl, rfl⟩ := hreach.unique hup.reach
    exact .inr (.inr ⟨hup, _, hfind, .inr (.inl h)⟩)
  | overDirectory hup hfind hreads h =>
    obtain ⟨rfl, rfl, rfl⟩ := hreach.unique hup.reach
    exact .inr (.inr ⟨hup, _, hfind, .inr (.inr ⟨_, _, _, hreads, h⟩)⟩)

/-- A request that passes the checks on the old inode fails at its target only. -/
theorem RenameReq.Updates.fails_cases {p np : DirInode} {old : Iter} (hup : r.Updates s p np old)
    (h : r.Fails s) : ∃ dupl, np.find r.newname = some dupl ∧
      (¬ r.DistinctInodes s old.entry.ino dupl.entry.ino ∨
        (s.replaced r old dupl p np).Missing s ∨
        ∃ duplReg oldDir duplDir, s.ReplaceReads r (s.replaced r old dupl p np) p np duplReg oldDir
          duplDir ∧ r.OverDirectory np duplReg oldDir duplDir) := by
  rcases hup.reach.fails_cases h with hbad | hsilent | ⟨-, htarget⟩
  · rcases hbad with ⟨hdir, hbad⟩ | ⟨hdir, hf⟩
    · rcases hbad with hd | heq | heq
      · rcases hup.passes with ⟨-, d, hd', -⟩ | ⟨hdir', -⟩
        · rw [hd] at hd'
          cases hd'
        · exact absurd hdir hdir'
      · exact absurd heq (hup.ne hdir).1
      · exact absurd heq (hup.ne hdir).2
    · rcases hup.passes with ⟨hdir', -⟩ | ⟨-, f, hf', -⟩
      · exact absurd hdir' hdir
      · rw [hf] at hf'
        cases hf'
  · rcases hsilent with ⟨hdir, d, hd, hbad⟩ | ⟨hdir, f, hf, hbad⟩
    · rcases hup.passes with ⟨-, d', hd', hden, hsticky⟩ | ⟨hdir', -⟩
      · obtain rfl := Option.some.inj (hd.symm.trans hd')
        rcases hbad with ⟨hbad, -⟩ | ⟨-, hbad⟩
        · exact absurd hbad hden
        · exact absurd hbad hsticky
      · exact absurd hdir hdir'
    · rcases hup.passes with ⟨hdir', -⟩ | ⟨-, f', hf', hden, hsticky⟩
      · exact absurd hdir' hdir
      · obtain rfl := Option.some.inj (hf.symm.trans hf')
        exact absurd hbad (by tauto)
  · exact htarget

/-- The reads of the last behaviour are determined. -/
theorem FsState.ReplaceReads.unique {x : Replaced} {p p' np np' : DirInode}
    {duplReg duplReg' : Option File} {oldDir oldDir' duplDir duplDir' : Option DirInode}
    (h : s.ReplaceReads r x p np duplReg oldDir duplDir)
    (h' : s.ReplaceReads r x p' np' duplReg' oldDir' duplDir') :
    np = np' ∧ duplReg = duplReg' ∧ oldDir = oldDir' ∧ duplDir = duplDir' :=
  ⟨Option.some.inj (h.newparent.symm.trans h'.newparent),
    Except.ok.inj (h.duplReg.symm.trans h'.duplReg), Except.ok.inj (h.oldDir.symm.trans h'.oldDir),
    Except.ok.inj (h.duplDir.symm.trans h'.duplDir)⟩

/-- No inode is missing where all were read. -/
theorem FsState.ReplaceReads.not_missing {x : Replaced} {p np : DirInode} {duplReg : Option File}
    {oldDir duplDir : Option DirInode} (h : s.ReplaceReads r x p np duplReg oldDir duplDir) :
    ¬ x.Missing s := by
  have hreg : ∀ {i}, x.duplReg = some i → s.regs[i]? ≠ none := by
    intro i hi hno
    rcases FsState.getReg?_eq_ok.mp h.duplReg with ⟨hnone, -⟩ | ⟨j, g, hj, -, hg⟩
    · rw [hnone] at hi
      cases hi
    · obtain rfl := Option.some.inj (hi.symm.trans hj)
      rw [hno] at hg
      cases hg
  have hdir : ∀ {o d i}, s.getDir? o = .ok d → o = some i → s.dirs[i]? ≠ none := by
    intro o d i ho hi hno
    rcases FsState.getDir?_eq_ok.mp ho with ⟨hnone, -⟩ | ⟨j, g, hj, -, hg⟩
    · rw [hnone] at hi
      cases hi
    · obtain rfl := Option.some.inj (hi.symm.trans hj)
      rw [hno] at hg
      cases hg
  rintro (⟨i, hi, hno⟩ | ⟨i, hi, hno⟩ | ⟨i, hi, hno⟩)
  · exact hreg hi hno
  · exact hdir h.oldDir hi hno
  · exact hdir h.duplDir hi hno

/-- The exits of the checks of the last behaviour: a single error, or no reply. -/
theorem replaceCheck_cases {np : DirInode} {duplReg : Option File} {oldDir duplDir : Option DirInode} :
    (¬ r.OverDirectory np duplReg oldDir duplDir ∧
      (FsState.replaceCheck r np duplReg oldDir duplDir = none ∨
        ∃ errno, FsState.replaceCheck r np duplReg oldDir duplDir = some [.err r.req errno])) ∨
    (r.OverDirectory np duplReg oldDir duplDir ∧
      FsState.replaceCheck r np duplReg oldDir duplDir = some []) := by
  unfold FsState.replaceCheck
  simp only
  split
  · next hsticky =>
    exact .inl ⟨fun h => h.not_sticky (.inl hsticky.1) hsticky.2, .inr ⟨_, rfl⟩⟩
  · next hreg =>
    split
    · next hsticky =>
      exact .inl ⟨fun h => h.not_sticky (.inr hsticky.1) hsticky.2, .inr ⟨_, rfl⟩⟩
    · next hdir =>
      split
      · next hold =>
        refine .inl ⟨fun h => h.old hold, ?_⟩
        split
        · split
          · exact .inr ⟨_, rfl⟩
          · exact .inl rfl
        · exact .inr ⟨_, rfl⟩
      · next hold =>
        split
        · next hdupl =>
          refine .inr ⟨⟨fun hsome hsticky => ?_, hold, hdupl⟩, rfl⟩
          rcases hsome with hsome | hsome
          · exact hreg ⟨hsome, hsticky⟩
          · exact hdir ⟨hsome, hsticky⟩
        · next hdupl => exact .inl ⟨fun h => hdupl h.dupl, .inl rfl⟩

/-- The target that the second behaviour found. -/
theorem SourceStep.target {p np : DirInode} {old dupl : Iter} (hreach : r.Reaches s p np old)
    (h : SourceStep s r old ⟨s, [.replaceTables r old dupl], []⟩) :
    r.Updates s p np old ∧ np.find r.newname = some dupl := by
  rcases h.cases_replace hreach with ⟨hup, hreplace⟩ | ⟨-, hspawned, -⟩
  · refine ⟨hup, ?_⟩
    cases hfind : np.find r.newname with
    | none => cases (Effect.mk.inj (hreplace.eq_of_free hreach hfind)).2.1
    | some dupl' =>
      have htasks := (Effect.mk.inj (hreplace.eq_of_target hreach hfind)).2.1
      obtain rfl : dupl = dupl' := by simpa using htasks
      rfl
  · cases hspawned

/-- `rename` is answered once exactly when it does not fail. -/
theorem rename_answered_iff {c : FsConfig} (h : server.Serves s (.rename r) c) :
    AnsweredOnce (.rename r) c ↔ ¬ r.Fails s := by
  cases rename_end h with
  | longName hlong => exact iff_of_false not_answeredOnce (not_not.mpr (.longName hlong))
  | badParent hshort hbad => exact iff_of_false not_answeredOnce (not_not.mpr (.badParent hbad))
  | refused hshort hstep =>
    generalize he : (⟨s, [], _⟩ : FsEffect) = e at hstep
    have hok : ∀ {p np}, s.dirs[r.parent]? = some p → s.dirs[r.newparent]? = some np →
        (∀ old, ¬ r.Reaches s p np old) → ¬ r.Fails s := by
      intro p np hp hnp hno hfails
      have hno' : ∀ {p' np' old}, ¬ r.Reaches s p' np' old := by
        intro p' np' old hreach
        obtain rfl := Option.some.inj (hp.symm.trans hreach.parent)
        obtain rfl := Option.some.inj (hnp.symm.trans hreach.newparent)
        exact hno old hreach
      cases hfails with
      | longName h => omega
      | badParent h =>
        rw [hp, hnp] at h
        simp at h
      | badSource hreach => exact hno' hreach
      | silent hreach => exact hno' hreach
      | hang hup => exact hno' hup.reach
      | missing hup => exact hno' hup.reach
      | overDirectory hup => exact hno' hup.reach
    cases hstep with
    | noEntry hp hnp hfind =>
      obtain ⟨-, -, rfl⟩ := Effect.mk.inj he
      refine iff_of_true ⟨_, rfl, rfl⟩ (hok hp hnp fun old hreach => ?_)
      rw [hreach.find] at hfind
      cases hfind
    | denied hp hnp hfind hacc =>
      obtain ⟨-, -, rfl⟩ := Effect.mk.inj he
      exact iff_of_true ⟨_, rfl, rfl⟩
        (hok hp hnp fun old hreach => hacc ⟨hreach.canWrite, hreach.canWriteNew⟩)
    | dir => cases (Effect.mk.inj he).2.1
    | reg => cases (Effect.mk.inj he).2.1
  | badSource hreach hbad =>
    exact iff_of_false not_answeredOnce (not_not.mpr (.badSource hreach hbad))
  | @done p np old s' rs hreach hstep =>
    rcases hstep.cases_full hreach with ⟨hup, hreplace⟩ | ⟨hsilent, hrs⟩ |
      ⟨hbad, hsilent, hpass, hrs⟩
    · cases hfind : np.find r.newname with
      | none =>
        obtain ⟨rfl, -, rfl⟩ := Effect.mk.inj (hreplace.eq_of_free hreach hfind)
        refine iff_of_true ⟨_, rfl, rfl⟩ fun hfails => ?_
        obtain ⟨dupl, hdupl, -⟩ := hup.fails_cases hfails
        rw [hfind] at hdupl
        cases hdupl
      | some dupl => cases (Effect.mk.inj (hreplace.eq_of_target hreach hfind)).2.1
    · obtain ⟨rfl, -, rfl⟩ := Effect.mk.inj hrs
      exact iff_of_false not_answeredOnce (not_not.mpr (.silent hreach hsilent))
    · obtain ⟨rfl, -, rfl⟩ := Effect.mk.inj hrs
      refine iff_of_true ⟨_, rfl, rfl⟩ fun hfails => ?_
      rcases hreach.fails_cases hfails with h | h | ⟨hup, -⟩
      · exact hbad h
      · exact hsilent h
      · exact hpass hup.passes
  | hang hreach hstep hdup =>
    obtain ⟨hup, hfind⟩ := hstep.target hreach
    rw [nodup_replaceInodes_of_has (DirInode.find_eq_some.mp hreach.find).2
      (DirInode.find_eq_some.mp hfind).2] at hdup
    exact iff_of_false not_answeredOnce (not_not.mpr (.hang hup hfind hdup))
  | missing hreach hstep hnodup hbad =>
    obtain ⟨hup, hfind⟩ := hstep.target hreach
    exact iff_of_false not_answeredOnce (not_not.mpr (.missing hup hfind hbad))
  | @replaced p np old dupl e hreach hstep hnodup hlast =>
    obtain ⟨hup, hfind⟩ := hstep.target hreach
    rw [nodup_replaceInodes_of_has (DirInode.find_eq_some.mp hreach.find).2
      (DirInode.find_eq_some.mp hfind).2] at hnodup
    -- with the inodes read, only the exit without a reply is left as a failure
    have hok : ∀ {p' np' duplReg oldDir duplDir},
        s.ReplaceReads r (s.replaced r old dupl p np) p' np' duplReg oldDir duplDir →
        ¬ r.OverDirectory np' duplReg oldDir duplDir → ¬ r.Fails s := by
      intro p' np' duplReg oldDir duplDir hreads hover hfails
      obtain ⟨dupl', hfind', hbad⟩ := hup.fails_cases hfails
      obtain rfl := Option.some.inj (hfind.symm.trans hfind')
      rcases hbad with hbad | hbad | ⟨_, _, _, hreads', hbad⟩
      · exact hbad hnodup
      · exact hreads.not_missing hbad
      · obtain ⟨rfl, rfl, rfl, rfl⟩ := hreads.unique hreads'
        exact hover hbad
    cases hlast with
    | refused hreads hcheck =>
      rcases replaceCheck_cases (r := r) with ⟨hover, hnone | ⟨errno, herr⟩⟩ | ⟨hover, hnil⟩
      · rw [hnone] at hcheck
        cases hcheck
      · rw [herr] at hcheck
        rw [← Option.some.inj hcheck]
        exact iff_of_true ⟨_, rfl, rfl⟩ (hok hreads hover)
      · rw [hnil] at hcheck
        rw [← Option.some.inj hcheck]
        have hnp := Option.some.inj (hreach.newparent.symm.trans hreads.newparent)
        have hp := Option.some.inj (hreach.parent.symm.trans hreads.parent)
        subst hnp hp
        exact iff_of_false not_answeredOnce (not_not.mpr (.overDirectory hup hfind hreads hover))
    | one hsame hreads hcheck =>
      refine iff_of_true ⟨_, rfl, rfl⟩ (hok hreads fun hover => ?_)
      rcases replaceCheck_cases (r := r) with ⟨hno, -⟩ | ⟨-, hnil⟩
      · exact hno hover
      · rw [hnil] at hcheck
        cases hcheck
    | two hne hreads hcheck =>
      refine iff_of_true ⟨_, rfl, rfl⟩ (hok hreads fun hover => ?_)
      rcases replaceCheck_cases (r := r) with ⟨hno, -⟩ | ⟨-, hnil⟩
      · exact hno hover
      · rw [hnil] at hcheck
        cases hcheck

end Rename

/-! ## Requests that leave the entries -/

section Inodes

variable {s : FsState} {c : FsConfig}

/-- The handler of `readdir` answers a buffer without space for the first entries, and else schedules
its behaviour. -/
theorem handleReaddir_cases (s : FsState) (r : ReaddirReq) :
    (¬ r.DotsFit ∧ ∃ entries, s.handleReaddir r = .ok ⟨s, [], [.dir r.req entries]⟩) ∨
      r.DotsFit ∧ ∃ entries pos off, s.handleReaddir r =
        s.handleDir r.parent (.readdir r entries pos off) := by
  unfold ReaddirReq.DotsFit FsState.handleReaddir FsState.addDot
  by_cases h0 : cU64 r.off = 0
  · simp only [h0, if_true, zero_le, Nat.sub_zero, List.nil_append, Nat.zero_add]
    by_cases h1 : FsState.direntSize (FsState.dotName 1) > r.bufsize
    · simp only [h1, if_true]
      exact .inl ⟨by omega, _, rfl⟩
    · simp only [h1, if_false]
      by_cases h2 : FsState.direntSize (FsState.dotName 2) >
          r.bufsize - FsState.direntSize (FsState.dotName 1)
      · simp only [h2, if_true]
        exact .inl ⟨by omega, _, rfl⟩
      · simp only [h2, if_false]
        exact .inr ⟨by omega, _, _, _, rfl⟩
  · by_cases h1 : cU64 r.off = 1
    · simp only [h1, one_ne_zero, if_false, le_refl, if_true, Nat.sub_zero, List.nil_append,
        Nat.zero_add]
      by_cases h2 : FsState.direntSize (FsState.dotName 2) > r.bufsize
      · simp only [h2, if_true]
        exact .inl ⟨by omega, _, rfl⟩
      · simp only [h2, if_false]
        exact .inr ⟨by omega, _, _, _, rfl⟩
    · have hle : ¬ cU64 r.off ≤ 1 := by omega
      simp only [h0, h1, hle, if_false]
      exact .inr ⟨trivial, _, _, _, rfl⟩

/-- `readdir` is answered once exactly when its buffer is full at once or the directory exists. -/
theorem readdir_answered_iff {r : ReaddirReq} (h : server.Serves s (.readdir r) c) :
    AnsweredOnce (.readdir r) c ↔ ¬ (FsRequest.readdir r).Unanswered s := by
  rcases handleReaddir_cases s r with ⟨hfit, entries, hhandle⟩ | ⟨hfit, entries, pos, off, hhandle⟩
  · rw [h.answered hhandle]
    exact iff_of_true ⟨_, rfl, rfl⟩ fun h => hfit h.1
  · cases hp : s.dirs[r.parent]? with
    | none =>
      rw [handleDir_of_none hp] at hhandle
      rw [h.failed hhandle]
      exact iff_of_false not_answeredOnce (not_not.mpr ⟨hfit, hp⟩)
    | some p =>
      rw [handleDir_of_some hp] at hhandle
      have hbody : ∃ es, server.body (.readdir r entries pos off) s =
          .ok ⟨s, [], [.dir r.req es]⟩ := by
        refine ⟨FsState.readdirLoop r.bufsize (off - 2) p.dentries.toList 0 entries pos off, ?_⟩
        change s.readdir r entries pos off = _
        rw [FsState.readdir, FsState.getDir_of_some hp]
        rfl
      obtain ⟨es, hbody⟩ := hbody
      rw [answeredOnce_iff_of_leaf h hhandle (by simp [server, FsTask.cowns])]
      · refine iff_of_true ⟨_, hbody⟩ fun h => ?_
        rw [h.2] at hp
        cases hp
      · intro e he
        obtain rfl := Except.ok.inj (hbody.symm.trans he)
        exact ⟨rfl, _, rfl, rfl⟩

/-- `getattr` is answered once exactly when the inode exists. -/
theorem getattr_answered_iff {req ino : ℕ} (h : server.Serves s (.getattr req ino) c) :
    AnsweredOnce (.getattr req ino) c ↔ ¬ (FsRequest.getattr req ino).Unanswered s := by
  simp only [FsRequest.Unanswered]
  have hhandle : server.handle (.getattr req ino) s = s.getattr req ino := rfl
  unfold FsState.getattr at hhandle
  split at hhandle
  · next hdir =>
    rw [if_pos hdir]
    cases hd : s.dirs[ino]? with
    | none =>
      rw [FsState.getDir_of_none hd] at hhandle
      rw [h.failed hhandle]
      exact iff_of_false not_answeredOnce (not_not.mpr rfl)
    | some d =>
      rw [FsState.getDir_of_some hd] at hhandle
      rw [h.answered hhandle]
      exact iff_of_true ⟨_, rfl, rfl⟩ (by simp)
  · next hreg =>
    rw [if_neg hreg]
    cases hf : s.regs[ino]? with
    | none =>
      rw [FsState.getReg_of_none hf] at hhandle
      rw [h.failed hhandle]
      exact iff_of_false not_answeredOnce (not_not.mpr rfl)
    | some f =>
      rw [FsState.getReg_of_some hf] at hhandle
      rw [h.answered hhandle]
      exact iff_of_true ⟨_, rfl, rfl⟩ (by simp)

/-- Quiet behaviours send nothing until nothing can run. -/
theorem settles_quiet (ino : ℕ) {rs : List Reply} {pending : List FsTask}
    (hquiet : ∀ t ∈ pending, ∃ b, t = .file ino b ∧ b.Quiet)
    (h : server.Settles ⟨s, pending, rs⟩ c) : c.replies = rs := by
  refine (h.invariant (P := fun c => c.replies = rs ∧ ∀ t ∈ c.pending, ∃ b, t = .file ino b ∧ b.Quiet)
    ?_ ⟨rfl, hquiet⟩).1
  rintro c c' ⟨hrs, hpending⟩ ⟨t, hstep⟩
  generalize hl : (Label.run t : Label FsRequest FsTask) = l at hstep
  cases hstep with
  | request => cases hl
  | @run s pre post rs' t e hfree hrun =>
    obtain ⟨b, rfl, hb⟩ := hpending t (by simp)
    obtain ⟨f, e', -, he', rfl⟩ := fileBody_eq_ok.mp hrun.body_eq
    obtain ⟨hspawned, hreplies⟩ := hb.body he'
    simp only [hspawned, hreplies, List.map_nil, List.append_nil]
    refine ⟨hrs, fun t ht => hpending t ?_⟩
    rcases List.mem_append.mp ht with ht | ht
    · simp [ht]
    · simp [ht]

/-- A reply of the dispatcher is for its request. -/
theorem FileRequest.refusal_req {q : FileRequest} {reply : Reply} (h : q.refusal = some reply) :
    reply.req = q.req := by
  cases q with
  | openFile o =>
    simp only [refusal] at h
    split at h
    · rw [← Option.some.inj h]
      rfl
    · cases h
  | fallocate req mode offset length =>
    simp only [refusal] at h
    split at h
    · rw [← Option.some.inj h]
      rfl
    · cases h
  | _ => cases h

/-- A request that is handled on a regular inode is answered once exactly when it does not fail
there. -/
theorem reg_answered_iff (hwf : s.FilesWF) {ino : ℕ} {q : FileRequest} (hq : ∀ r, q ≠ .read r)
    (hhandle : server.handle (.onInode ino q) s = s.handleReg ino q)
    (h : server.Serves s (.onInode ino q) c) :
    AnsweredOnce (.onInode ino q) c ↔ ¬ s.RegFails ino q := by
  unfold FsState.handleReg at hhandle
  split at hhandle
  · next reply hrefuse =>
    rw [h.answered hhandle]
    refine iff_of_true ⟨reply, rfl, congrArg some (FileRequest.refusal_req hrefuse).symm⟩ fun h => ?_
    rw [h.1] at hrefuse
    cases hrefuse
  · next hrefuse =>
    cases hf : s.regs[ino]? with
    | none =>
      rw [FsState.getReg_of_none hf] at hhandle
      rw [h.failed hhandle]
      refine iff_of_false not_answeredOnce (not_not.mpr ⟨hrefuse, fun f hf' => ?_⟩)
      rw [hf] at hf'
      cases hf'
    | some f =>
      rw [FsState.getReg_of_some hf] at hhandle
      have hfails : s.RegFails ino q ↔ q.Unanswered f := by
        refine ⟨fun h => h.2 f hf, fun h => ⟨hrefuse, fun f' hf' => ?_⟩⟩
        rwa [← Option.some.inj (hf.symm.trans hf')]
      have hbody : ∀ {e}, f.inodeBody q = .ok e → server.Runs (.file ino (.inode q)) s
          ⟨s.setReg ino e.state, e.spawned.map (.file ino), e.replies⟩ := by
        intro e he
        refine ⟨fileBody_eq_ok.mpr ⟨f, e, hf, he, rfl⟩, fun t ht => ?_⟩
        obtain ⟨b, hb, rfl⟩ := List.mem_map.mp ht
        exact (inodeBody_spawned_isBlock (hwf ino f hf) he ino b hb).nodup
      rw [hfails]
      rcases h.scheduled_cases hhandle (by simp [server, FsTask.cowns, FileTask.cowns]) with
        ⟨rfl, hstuck⟩ | ⟨e, he, hend⟩
      · refine iff_of_false not_answeredOnce (not_not.mpr ?_)
        cases f.inodeBody_outcome hq with
        | answers hok he => exact absurd (hbody he) (hstuck _)
        | fails hno => exact hno
        | silent hno => exact hno
      · obtain ⟨f', e', hf', he', rfl⟩ := fileBody_eq_ok.mp he.body_eq
        obtain rfl := Option.some.inj (hf.symm.trans hf')
        have hreplies := settles_quiet ino (fun t ht => by
          obtain ⟨b, hb, rfl⟩ := List.mem_map.mp ht
          exact ⟨b, rfl, (File.inodeBody_requestStep he').quiet hq b hb⟩) hend
        cases f.inodeBody_outcome hq with
        | answers hok he hrep hreq =>
          obtain rfl := Except.ok.inj (he.symm.trans he')
          exact iff_of_true ⟨_, hreplies.trans hrep, congrArg some hreq.symm⟩ hok
        | fails hno hbody' => exact absurd he' (hbody' e')
        | silent hno he hspawned hrep =>
          obtain rfl := Except.ok.inj (he.symm.trans he')
          refine iff_of_false ?_ (not_not.mpr hno)
          rintro ⟨rep, hc, -⟩
          rw [hreplies, hrep] at hc
          cases hc

/-- The body of `setattr` on a directory sends its reply unless the assertion on its mode fails. -/
theorem setattrDir_cases {ino : ℕ} {r : SetattrReq} {d : DirInode} (hd : s.dirs[ino]? = some d) :
    ((r.SetsSize d.iSt ∧ ¬ (r.assigned d.iSt).isRegular) ∧ ∀ e, s.setattrDir ino r ≠ .ok e) ∨
      ¬ (r.SetsSize d.iSt ∧ ¬ (r.assigned d.iSt).isRegular) ∧
        ∃ s' rep, s.setattrDir ino r = .ok ⟨s', [], [rep]⟩ ∧ rep.req = r.req := by
  unfold FsState.setattrDir
  simp only [FsState.getDir_of_some hd, bind, Except.bind]
  rcases setattrFields_cases r d.iSt with
    ⟨hfields, clearMode, mtime, atime, ctime, heq⟩ | ⟨hfields, ret, st', heq⟩
  swap
  · rw [heq]
    exact .inr ⟨fun h => hfields h.1.fields, _, _, rfl, rfl⟩
  simp only [heq]
  by_cases hsize : r.has FUSE_SET_ATTR_SIZE
  swap
  · rw [if_neg hsize]
    exact .inr ⟨fun h => hsize h.1.size, _, _, rfl, rfl⟩
  simp only [hsize, if_true]
  rcases setattrSizeCheck_cases r d.iSt
    (show Stat.stMode { r.assigned d.iSt with stMtime := mtime, stAtime := atime, stCtime := ctime }
      = _ from rfl) rfl rfl with ⟨⟨hallowed, hle⟩, hcheck⟩ | ⟨hno, ret, hret, hcheck⟩
  swap
  · simp only [hcheck, hret, ne_eq, not_false_eq_true, if_true]
    exact .inr ⟨fun h => hno ⟨h.1.allowed, h.1.le⟩, _, _, rfl, rfl⟩
  by_cases hreg : (r.assigned d.iSt).isRegular
  · rw [if_pos hreg] at hcheck
    simp only [hcheck]
    exact .inr ⟨fun h => h.2 hreg, _, _, rfl, rfl⟩
  · rw [if_neg hreg] at hcheck
    simp only [hcheck]
    exact .inl ⟨⟨⟨hsize, hfields, hallowed, hle⟩, hreg⟩, fun e he => by cases he⟩

/-- A request that is handled on a directory by the behaviour `t`. -/
theorem dir_answered_iff {ino : ℕ} {q : FileRequest} {t : FsTask} (fails : DirInode → Prop)
    (hhandle : server.handle (.onInode ino q) s = s.handleDir ino t)
    (ht : (server.cowns t).Nodup)
    (hcases : ∀ d, s.dirs[ino]? = some d → (fails d ∧ ∀ e, server.body t s ≠ .ok e) ∨
      ¬ fails d ∧ ∃ s' rep, server.body t s = .ok ⟨s', [], [rep]⟩ ∧ rep.req = q.req)
    (h : server.Serves s (.onInode ino q) c) :
    AnsweredOnce (.onInode ino q) c ↔ ¬ ∀ d, s.dirs[ino]? = some d → fails d := by
  cases hd : s.dirs[ino]? with
  | none =>
    rw [handleDir_of_none hd] at hhandle
    rw [h.failed hhandle]
    exact iff_of_false not_answeredOnce (by simp)
  | some d =>
    rw [handleDir_of_some hd] at hhandle
    have hall : (∀ d', some d = some d' → fails d') ↔ fails d := by simp
    rw [hall]
    rcases hcases d hd with ⟨hfails, hno⟩ | ⟨hok, s', rep, hbody, hreq⟩
    · rw [answeredOnce_iff_of_leaf h hhandle ht fun e he => absurd he (hno e)]
      exact iff_of_false (fun ⟨e, he⟩ => hno e he) (not_not.mpr hfails)
    · rw [answeredOnce_iff_of_leaf h hhandle ht]
      · exact iff_of_true ⟨_, hbody⟩ hok
      · intro e he
        obtain rfl := Except.ok.inj (hbody.symm.trans he)
        exact ⟨rfl, rep, rfl, congrArg some hreq.symm⟩

/-- A request on an inode is answered once exactly when it does not fail. -/
theorem onInode_answered_iff (hwf : s.FilesWF) {ino : ℕ} {q : FileRequest} (hq : ∀ r, q ≠ .read r)
    (h : server.Serves s (.onInode ino q) c) :
    AnsweredOnce (.onInode ino q) c ↔ ¬ s.InodeFails ino q := by
  cases q with
  | setattr r =>
    by_cases hodd : ino % 2 = 1
    · rw [reg_answered_iff hwf hq (if_pos hodd) h, FsState.InodeFails, if_pos hodd]
    · rw [FsState.InodeFails, if_neg hodd]
      exact dir_answered_iff (fun d => r.SetsSize d.iSt ∧ ¬ (r.assigned d.iSt).isRegular)
        (t := .setattrDir ino r) (if_neg hodd) (by simp [server, FsTask.cowns])
        (fun d hd => setattrDir_cases hd) h
  | opendir req flags uid gid fi =>
    by_cases hdir : ino = FUSE_ROOT_ID ∨ ino % 2 = 0
    · have hhandle : server.handle (.onInode ino (.opendir req flags uid gid fi)) s =
          s.handleDir ino (.opendirDir ino req flags uid gid fi) := if_pos hdir
      rw [FsState.InodeFails, if_pos hdir]
      refine (dir_answered_iff (fun _ => False) hhandle (by simp [server, FsTask.cowns])
        (fun d hd => ?_) h).trans (not_congr Option.eq_none_iff_forall_ne_some.symm)
      · refine .inr ⟨id, ?_⟩
        change ∃ s' rep, s.opendirDir ino req flags uid gid fi = .ok ⟨s', [], [rep]⟩ ∧ rep.req = req
        unfold FsState.opendirDir
        simp only [FsState.getDir_of_some hd, bind, Except.bind, access_R_OK]
        split
        · split <;> exact ⟨_, _, rfl, rfl⟩
        · exact ⟨_, _, rfl, rfl⟩
    · rw [reg_answered_iff hwf hq (if_neg hdir) h, FsState.InodeFails, if_neg hdir]
  | access req mask uid gid =>
    by_cases hdir : ino = FUSE_ROOT_ID ∨ ino % 2 = 0
    · have hhandle : server.handle (.onInode ino (.access req mask uid gid)) s =
          s.handleDir ino (.accessDir ino req mask uid gid) := if_pos hdir
      rw [FsState.InodeFails, if_pos hdir]
      refine (dir_answered_iff
        (fun _ => mask ≠ F_OK ∧ mask &&& (R_OK ||| W_OK ||| X_OK) = 0) hhandle
        (by simp [server, FsTask.cowns]) (fun d hd => ?_) h).trans (not_congr ?_)
      swap
      · cases hd : s.dirs[ino]? <;> simp
      · clear hhandle
        change (_ ∧ ∀ e, s.accessDir ino req mask uid gid ≠ .ok e) ∨ _ ∧
          ∃ s' rep, s.accessDir ino req mask uid gid = .ok ⟨s', [], [rep]⟩ ∧ rep.req = req
        unfold FsState.accessDir VeronaFs.access
        simp only [FsState.getDir_of_some hd, bind, Except.bind]
        by_cases hok : mask = F_OK
        · simp only [hok, if_true]
          exact .inr ⟨fun h => h.1 rfl, _, _, rfl, rfl⟩
        · by_cases hmask : mask &&& (R_OK ||| W_OK ||| X_OK) = 0
          · simp only [hok, if_false, hmask, if_true]
            exact .inl ⟨⟨hok, trivial⟩, fun e he => by cases he⟩
          · simp only [hok, if_false, hmask]
            exact .inr ⟨fun h => h.2, _, _, rfl, rfl⟩
    · rw [reg_answered_iff hwf hq (if_neg hdir) h, FsState.InodeFails, if_neg hdir]
  | _ => exact reg_answered_iff hwf hq rfl h

end Inodes

/-! ## Every request -/

/-- For every request of these kinds, every requester and every state: the execution of the request
alone sends exactly one reply, if and only if no exit without a reply is taken, no assertion fails, no
loop overflows, no behaviour waits for itself and all inode numbers are those of inodes. -/
theorem answered_iff {s : FsState} {q : FsRequest} {c : FsConfig} (hwf : s.FilesWF)
    (hlisted : q.Listed) (hfresh : q.FreshAddr s) (hserve : server.Serves s q c) :
    AnsweredOnce q c ↔ ¬ q.Unanswered s := by
  cases q with
  | lookup req parent name => exact lookup_answered_iff hserve
  | create r => exact create_answered_iff hserve
  | mkdir r => exact mkdir_answered_iff hfresh hserve
  | unlink r => exact unlink_answered_iff hserve
  | rmdir r => exact rmdir_answered_iff hserve
  | rename r => exact rename_answered_iff hserve
  | readdir r => exact readdir_answered_iff hserve
  | getattr req ino => exact getattr_answered_iff hserve
  | forget ino nlookup => exact absurd hlisted id
  | onInode ino q =>
    refine onInode_answered_iff hwf (fun r hr => ?_) hserve
    subst hr
    exact hlisted

/-- `mkdirA` is answered once exactly when its parent exists. -/
theorem answered_iff_mkdirA :
    ∃ c, server.Serves rootFs (.mkdir mkdirA) c ∧
      (AnsweredOnce (.mkdir mkdirA) c ↔ ¬ (FsRequest.mkdir mkdirA).Unanswered rootFs) := by
  refine ⟨_, serves_mkdirA, answered_iff rootFs_filesWF trivial ?_ serves_mkdirA⟩
  simp [FsRequest.FreshAddr, rootFs, FsState.init, FUSE_ROOT_ID, mkdirA]

/-! ## A rename without a reply -/

/-- Root renames an entry with a name of 256 bytes in the root directory. -/
def renameLong : RenameReq :=
  { renameBC with oldname := List.replicate 256 97, newparent := 1, newname := [98] }

/-- A rename with a name that is too long is never answered. -/
theorem renameLong_not_answered :
    ∃ c, server.Serves rootFs (.rename renameLong) c ∧
      ¬ AnsweredOnce (.rename renameLong) c := by
  obtain ⟨c, hc⟩ := exists_serves rootFs (.rename renameLong)
  refine ⟨c, hc, fun h => (rename_answered_iff hc).mp h (.longName (.inl ?_))⟩
  change NAME_MAX < (List.replicate 256 97).length
  rw [List.length_replicate]
  decide

end VeronaFs
