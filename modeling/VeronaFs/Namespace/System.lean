import VeronaFs.Boc.Part
import VeronaFs.FileSystem.InodeStep
import VeronaFs.Namespace.Rename

/-!
# The system of the file system

`server` has all requests of the file system and all behaviours they lead to.  The system of a
single regular inode is a part of it (`inodePart`).
-/

namespace VeronaFs

open Boc Foundation

namespace FsState

/-- The body of a behaviour behind a regular inode. -/
def fileBody (s : FsState) (ino : ℕ) (t : FileTask) : Except Fault FsEffect :=
  match s.regs[ino]? with
  | some f => (File.body t f).map fun e =>
    ⟨s.setReg ino e.state, e.spawned.map (.file ino), e.replies⟩
  | none => .error .badCown

/-- The body of a behaviour. -/
def body : FsTask → FsState → Except Fault FsEffect
  | .file ino t, s => s.fileBody ino t
  | .addDir ino st, s => s.addDir ino st
  | .addReg ino st, s => s.addReg ino st
  | .lookup req parent name, s => s.lookup req parent name
  | .lookupReg req ino, s => s.lookupReg req ino
  | .lookupDir req ino, s => s.lookupDir req ino
  | .create r, s => s.create r
  | .mkdir r, s => s.mkdir r
  | .unlink r, s => s.unlink r
  | .unlinkReg r ino, s => s.unlinkReg r ino
  | .rmdir r, s => s.rmdir r
  | .rmdirDir r it, s => s.rmdirDir r it
  | .rename r, s => s.rename r
  | .renameDir r old, s => s.renameDir r old
  | .renameReg r old, s => s.renameReg r old
  | .replaceTables r old dupl, s => s.replaceTables r old dupl
  | .replaceInodes r old dupl x, s => s.replaceInodes r old dupl x
  | .readdir r entries pos off, s => s.readdir r entries pos off
  | .setattrDir ino r, s => s.setattrDir ino r
  | .opendirDir ino req flags uid gid fi, s => s.opendirDir ino req flags uid gid fi
  | .accessDir ino req mask uid gid, s => s.accessDir ino req mask uid gid
  | .forgetDir ino nlookup, s => s.forgetDir ino nlookup
  | .forgetReg ino nlookup, s => s.forgetReg ino nlookup

/-- The handler of a request on a regular inode: it is refused, or scheduled after the cast. -/
def handleReg (s : FsState) (ino : ℕ) (q : FileRequest) : Except Fault FsEffect :=
  match q.refusal with
  | some reply => .ok ⟨s, [], [reply]⟩
  | none => do
    let _ ← s.getReg ino
    .ok ⟨s, [.file ino (.inode q)], []⟩

/-- The handler of a request on a directory: the behaviour is scheduled after the cast. -/
def handleDir (s : FsState) (ino : ℕ) (t : FsTask) : Except Fault FsEffect := do
  let _ ← s.getDir ino
  .ok ⟨s, [t], []⟩

/-- The handlers of the requests on an inode.  `setattr` takes every odd number, that of the root
included, for that of a regular inode. -/
def handleOnInode (s : FsState) (ino : ℕ) (q : FileRequest) : Except Fault FsEffect :=
  match q with
  | .setattr r => if ino % 2 = 1 then s.handleReg ino q else s.handleDir ino (.setattrDir ino r)
  | .opendir req flags uid gid fi =>
    if ino = FUSE_ROOT_ID ∨ ino % 2 = 0 then
      s.handleDir ino (.opendirDir ino req flags uid gid fi)
    else s.handleReg ino q
  | .access req mask uid gid =>
    if ino = FUSE_ROOT_ID ∨ ino % 2 = 0 then s.handleDir ino (.accessDir ino req mask uid gid)
    else s.handleReg ino q
  | _ => s.handleReg ino q

/-- The handler of `forget`. -/
def handleForget (s : FsState) (ino nlookup : ℕ) : Except Fault FsEffect :=
  if ino = FUSE_ROOT_ID ∨ ino % 2 = 0 then s.handleDir ino (.forgetDir ino nlookup)
  else do
    let _ ← s.getReg ino
    .ok ⟨s, [.forgetReg ino nlookup], []⟩

/-- The handler of a request. -/
def handle : FsRequest → FsState → Except Fault FsEffect
  | .lookup req parent name, s => s.handleDir parent (.lookup req parent name)
  | .create r, s => s.handleCreate r
  | .mkdir r, s => s.handleMkdir r
  | .unlink r, s => s.handleDir r.parent (.unlink r)
  | .rmdir r, s => s.handleDir r.parent (.rmdir r)
  | .rename r, s => s.handleRename r
  | .readdir r, s => s.handleReaddir r
  | .getattr req ino, s => s.getattr req ino
  | .forget ino nlookup, s => s.handleForget ino nlookup
  | .onInode ino q, s => s.handleOnInode ino q

end FsState

/-- The system of the file system. -/
def server : System FsCown FsState FsTask FsRequest Reply Fault where
  cowns := FsTask.cowns
  body := FsState.body
  handle := FsState.handle

/-- The configurations of the file system. -/
abbrev FsConfig := Config FsState FsTask Reply

/-- The labels of a run of the file system. -/
abbrev FsTrace := List (Label FsRequest FsTask)

/-! ## Regular inodes -/

/-- The behaviours behind the regular inode `ino`. -/
def FsTask.ofFile? (ino : ℕ) : FsTask → Option FileTask
  | .file i t => if i = ino then some t else none
  | _ => none

/-- The system of the regular inode `ino` is a part of the file system. -/
def inodePart (ino : ℕ) : Part fileSystem server where
  task := .file ino
  cown := .file ino
  task? := FsTask.ofFile? ino
  get s := s.regs[ino]?
  set s f := s.setReg ino f
  task?_eq_some b b' := by
    cases b' with
    | file i t =>
      simp only [FsTask.ofFile?]
      split
      · next h => simp [h]
      · next h => simp [h]
    | _ => simp [FsTask.ofFile?]
  cown_inj k k' h := by cases h; rfl
  cowns_task b := rfl
  body_task b s f hs := by
    change s.fileBody ino b = _
    rw [FsState.fileBody, hs]
    rfl
  get_set s f g hs := by simp
  set_set s f g := by
    simp only [FsState.setReg, FsState.mk.injEq, true_and, and_true]
    refine Std.ExtTreeMap.ext_getElem? fun a => ?_
    simp only [StdMap.get?_insert]
    split <;> rfl
  set_get s f hs := by
    obtain ⟨dirs, regs, dirTable, regTable⟩ := s
    simp only [FsState.setReg, FsState.mk.injEq, true_and, and_true]
    refine Std.ExtTreeMap.ext_getElem? fun a => ?_
    rw [StdMap.get?_insert]
    split
    · next h => rw [← h, hs]
    · rfl

/-! ## Termination -/

/-- Behaviours only schedule behaviours of a smaller rank. -/
def FsTask.rank : FsTask → ℕ
  | .file _ t => t.rank
  | .lookup _ _ _ => 1
  | .create _ => 1
  | .mkdir _ => 1
  | .unlink _ => 1
  | .rmdir _ => 1
  | .rename _ => 3
  | .renameDir _ _ => 2
  | .renameReg _ _ => 2
  | .replaceTables _ _ _ => 1
  | .forgetReg _ _ => 1
  | _ => 0

end VeronaFs
