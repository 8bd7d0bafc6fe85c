import VeronaFs.FileSystem.ReadServed
import VeronaFs.Namespace.DistinctCowns
import VeronaFs.Namespace.Listing

/-!
# The session loop

`my_fuse_session_loop` receives every message into the same buffer, and the dispatcher calls the handler
of its request with pointers into the buffer (the bytes of a write) and into its own stack frame (the
file information).  The behaviours of `write` and `opendir` capture these pointers and read through them
when they run.

`Session` has this memory next to the state and the pending behaviours.  A pending behaviour carries what
its own message said; `Session.load` puts what the memory has in its place, and this is what runs.  When
no message is received before the behaviours of writes have run, and no handler returns before the
behaviour of `opendir` has run, every behaviour finds what its message said (`session_ownMemory`).
-/

namespace VeronaFs

open Boc Foundation

/-! ## Request memory -/

/-- The bytes of a write, read again. -/
def WriteReq.load (w : WriteReq) (mem : ℕ → UInt8) : WriteReq :=
  { w with
    data := (List.range w.data.length).map mem
    size_lt := by
      rw [List.length_map, List.length_range]
      exact w.size_lt }

/-- The behaviour of a write of some bytes, which copies them from the receive buffer. -/
def FsTask.ReadsBuffer : FsTask → Prop
  | .file _ (.inode (.write w)) => w.data ≠ []
  | _ => False

/-- The behaviours of `opendir`, which reply the file information of the frame of the dispatcher. -/
def FsTask.ReadsFrame : FsTask → Prop
  | .file _ (.inode (.opendir _ _ _ _ _)) => True
  | .opendirDir _ _ _ _ _ _ => True
  | _ => False

/-- A behaviour with what it reads in the request memory: the bytes of a write are from `payload` on. -/
def FsTask.load (payload : ℕ) (buffer : ℕ → UInt8) (frame : FileInfo) : FsTask → FsTask
  | .file ino (.inode (.write w)) => .file ino (.inode (.write (w.load fun i => buffer (payload + i))))
  | .file ino (.inode (.opendir req flags uid gid _)) =>
    .file ino (.inode (.opendir req flags uid gid frame))
  | .opendirDir ino req flags uid gid _ => .opendirDir ino req flags uid gid frame
  | t => t

/-- The buffer after a message was received into it. -/
def receive (buffer : ℕ → UInt8) (bytes : List UInt8) : ℕ → UInt8 := fun i => bytes[i]?.getD (buffer i)

/-- The file information in the frame while the handler of a request runs, where a behaviour reads it. -/
def FsRequest.frame? : FsRequest → Option FileInfo
  | .onInode _ (.opendir _ _ _ _ fi) => some fi
  | _ => none

/-- A message of the kernel.  Its request is what libfuse decodes; the bytes of a write are those of the
message from `payload` on. -/
structure Message (payload : ℕ) where
  /-- The bytes. -/
  bytes : List UInt8
  /-- The request. -/
  request : FsRequest
  /-- A write carries its bytes. -/
  data_eq : ∀ ino w, request = .onInode ino (.write w) →
    w.data = (bytes.drop payload).take w.data.length

/-! ## The session -/

/-- The state of a session. -/
structure Session where
  /-- The receive buffer. -/
  buffer : ℕ → UInt8
  /-- The memory of the file information in the frame of the dispatcher. -/
  frame : FileInfo
  /-- The handler of the last request has not returned. -/
  handling : Bool
  /-- The number of messages that were received. -/
  received : ℕ
  /-- The state of the file system. -/
  state : FsState
  /-- The pending behaviours, each with the number of the message it comes from. -/
  pending : List (FsTask × ℕ)
  /-- The replies sent so far. -/
  replies : List Reply

namespace Session

/-- The configuration of the file system. -/
def config (s : Session) : FsConfig := ⟨s.state, s.pending.map Prod.fst, s.replies⟩

/-- What runs when a pending behaviour runs. -/
def load (payload : ℕ) (s : Session) (t : FsTask) : FsTask := t.load payload s.buffer s.frame

/-- The steps of a session. -/
inductive Action (payload : ℕ) where
  /-- The loop receives a message and the dispatcher calls the handler of its request. -/
  | receive (m : Message payload)
  /-- The handler returns: the loop may use the frame for anything. -/
  | handled
  /-- A scheduler thread runs a pending behaviour. -/
  | run (t : FsTask)

variable {payload : ℕ}

/-- One step of a session. -/
inductive Step : Session → Action payload → Session → Prop
  /-- The loop receives a message and the dispatcher calls the handler of its request. -/
  | receive {s : Session} {m : Message payload} {frame : FileInfo} {e : FsEffect}
      (hidle : s.handling = false) (hframe : ∀ fi, m.request.frame? = some fi → frame = fi)
      (hhandles : server.Handles m.request s.state e) :
      Step s (.receive m)
        { buffer := VeronaFs.receive s.buffer m.bytes
          frame := frame
          handling := true
          received := s.received + 1
          state := e.state
          pending := s.pending ++ e.spawned.map (·, s.received + 1)
          replies := s.replies ++ e.replies }
  /-- The handler returns. -/
  | handled {s : Session} {frame : FileInfo} (hhandling : s.handling = true) :
      Step s .handled { s with frame := frame, handling := false }
  /-- A pending behaviour runs once no earlier one shares a cown with it. -/
  | run {s : Session} {pre post : List (FsTask × ℕ)} {t : FsTask} {n : ℕ} {e : FsEffect}
      (hpending : s.pending = pre ++ (t, n) :: post) (hfree : server.FreeOf (pre.map Prod.fst) t)
      (hruns : server.Runs (s.load payload t) s.state e) :
      Step s (.run t)
        { s with
          state := e.state
          pending := pre ++ post ++ e.spawned.map (·, n)
          replies := s.replies ++ e.replies }

/-- The labels of the file system for a step of a session. -/
def Action.labels : Action payload → FsTrace
  | .receive m => [.request m.request]
  | .handled => []
  | .run t => [.run t]

/-- The runs of a session from `s₀` on in which every step meets `ok`, with the labels of the file
system. -/
inductive Run (ok : Session → Action payload → Prop) (s₀ : Session) : FsTrace → Session → Prop
  /-- The empty run. -/
  | nil : Run ok s₀ [] s₀
  /-- A run and one more step. -/
  | snoc {tr : FsTrace} {s s' : Session} {a : Action payload} (hrun : Run ok s₀ tr s) (hok : ok s a)
      (hstep : Step s a s') : Run ok s₀ (tr ++ a.labels) s'

/-- The loop waits for the behaviours that read request memory: it receives a message when none of them
reads the buffer, and a handler returns when none of them reads the frame. -/
def Waits (s : Session) : Action payload → Prop
  | .receive _ => ∀ p ∈ s.pending, ¬ p.1.ReadsBuffer
  | .handled => ∀ p ∈ s.pending, ¬ p.1.ReadsFrame
  | .run _ => True

end Session

/-! ## What behaviours read -/

namespace FsTask

variable {payload : ℕ} {buffer buffer' : ℕ → UInt8} {frame frame' : FileInfo} {t t' : FsTask}

/-- What a behaviour finds does not depend on memory it does not read. -/
theorem load_congr (hbuffer : t.ReadsBuffer → buffer' = buffer) (hframe : t.ReadsFrame → frame' = frame) :
    t.load payload buffer' frame' = t.load payload buffer frame := by
  cases t with
  | file ino b =>
    cases b with
    | inode q =>
      cases q with
      | write w =>
        by_cases hw : w.data = []
        · simp [load, WriteReq.load, hw]
        · rw [hbuffer hw]
          rfl
      | opendir req flags uid gid fi =>
        rw [hframe trivial]
        rfl
      | _ => rfl
    | _ => rfl
  | opendirDir ino req flags uid gid fi =>
    rw [hframe trivial]
    rfl
  | _ => rfl

/-- A behaviour that reads no request memory runs as it is. -/
theorem load_eq (hbuffer : ¬ t.ReadsBuffer) (hframe : ¬ t.ReadsFrame) :
    t.load payload buffer frame = t := by
  cases t with
  | file ino b =>
    cases b with
    | inode q =>
      cases q with
      | write w =>
        have hw : w.data = [] := not_not.mp hbuffer
        obtain ⟨req, data, off, now, h₁, h₂, h₃⟩ := w
        obtain rfl : data = [] := hw
        rfl
      | opendir req flags uid gid fi => exact absurd trivial hframe
      | _ => rfl
    | _ => rfl
  | opendirDir ino req flags uid gid fi => exact absurd trivial hframe
  | _ => rfl

/-- The behaviours that read request memory are scheduled by handlers only. -/
theorem not_reads_spawned {s : FsState} {e : FsEffect} (h : FsState.body t s = .ok e)
    (ht' : t' ∈ e.spawned) : ¬ t'.ReadsBuffer ∧ ¬ t'.ReadsFrame := by
  have hone {b : FsTask} (hb : ¬ b.ReadsBuffer ∧ ¬ b.ReadsFrame) (ht' : t' ∈ [b]) :
      ¬ t'.ReadsBuffer ∧ ¬ t'.ReadsFrame := by
    rwa [List.mem_singleton.mp ht']
  have hreplace : ∀ r old, ReplaceStep s r old e → ¬ t'.ReadsBuffer ∧ ¬ t'.ReadsFrame := by
    rintro r old hstep
    cases hstep with
    | one => cases ht'
    | two => cases ht'
    | target => exact hone ⟨id, id⟩ ht'
  cases t with
  | file ino b =>
    obtain ⟨f, e', -, he', rfl⟩ := fileBody_eq_ok.mp h
    obtain ⟨b', hb', rfl⟩ := List.mem_map.mp ht'
    have hrank := FileTask.rank_lt he' hb'
    have hle : b.rank ≤ 2 := by cases b <;> simp [FileTask.rank]
    cases b' with
    | inode q =>
      have hlt : 2 < b.rank := hrank
      omega
    | _ => exact ⟨id, id⟩
  | lookup req parent name =>
    cases lookup_step h with
    | noEntry => cases ht'
    | reg => exact hone ⟨id, id⟩ ht'
    | dir => exact hone ⟨id, id⟩ ht'
  | create r =>
    cases create_step h with
    | made => exact hone ⟨id, id⟩ ht'
    | _ => cases ht'
  | mkdir r =>
    cases mkdir_step h with
    | made => exact hone ⟨id, id⟩ ht'
    | _ => cases ht'
  | unlink r =>
    cases unlink_step h with
    | erased => exact hone ⟨id, id⟩ ht'
    | _ => cases ht'
  | rmdir r =>
    cases rmdir_step h with
    | found => exact hone ⟨id, id⟩ ht'
    | _ => cases ht'
  | rename r =>
    cases rename_step h with
    | dir => exact hone ⟨id, id⟩ ht'
    | reg => exact hone ⟨id, id⟩ ht'
    | _ => cases ht'
  | renameDir r old =>
    cases renameDir_step h with
    | replace _ _ _ _ hstep => exact hreplace r old hstep
    | _ => cases ht'
  | renameReg r old =>
    cases renameReg_step h with
    | replace _ _ _ _ hstep => exact hreplace r old hstep
    | silent => cases ht'
  | replaceTables r old dupl =>
    obtain ⟨p, np, -, -, rfl⟩ := replaceTables_step h
    exact hone ⟨id, id⟩ ht'
  | forgetReg ino nlookup =>
    obtain ⟨a, rfl⟩ := forgetReg_spawned h t' ht'
    exact ⟨id, id⟩
  | _ =>
    rw [leaf_spawned rfl (by simp) h] at ht'
    cases ht'

end FsTask

/-! ## What a handler schedules -/

section Handlers

variable {payload : ℕ} {s : FsState} {e : FsEffect} {t : FsTask}

/-- The bytes of a write are found in the buffer into which its message was received. -/
theorem WriteReq.load_receive {w : WriteReq} {bytes : List UInt8} (buffer : ℕ → UInt8)
    (hdata : w.data = (bytes.drop payload).take w.data.length) :
    w.load (fun i => receive buffer bytes (payload + i)) = w := by
  obtain ⟨req, data, off, now, h₁, h₂, h₃⟩ := w
  replace hdata : data = (bytes.drop payload).take data.length := hdata
  have hloaded : (List.range data.length).map (fun i => receive buffer bytes (payload + i)) = data := by
    refine List.ext_getElem (by simp) fun i hi hi' => ?_
    have hget : bytes[payload + i]? = some data[i] := by
      have hsome : ((bytes.drop payload).take data.length)[i]? = some data[i] := by
        rw [← hdata]
        exact List.getElem?_eq_getElem hi'
      rwa [List.getElem?_take_of_lt hi', List.getElem?_drop] at hsome
    rw [List.getElem_map, List.getElem_range, receive, hget]
    rfl
  simp only [load]
  congr

/-- The handlers of requests that are not on an inode schedule no behaviour that reads request memory. -/
theorem handle_not_reads {q : FsRequest} (hinode : ∀ ino q', q ≠ .onInode ino q')
    (h : server.handle q s = .ok e) (ht : t ∈ e.spawned) : ¬ t.ReadsBuffer ∧ ¬ t.ReadsFrame := by
  have hone {t' : FsTask} (ht' : t ∈ [t']) (hreads : ¬ t'.ReadsBuffer ∧ ¬ t'.ReadsFrame) :
      ¬ t.ReadsBuffer ∧ ¬ t.ReadsFrame := by
    rwa [List.mem_singleton.mp ht']
  have hdir {ino : ℕ} {t' : FsTask} (h : s.handleDir ino t' = .ok e)
      (hreads : ¬ t'.ReadsBuffer ∧ ¬ t'.ReadsFrame) : ¬ t.ReadsBuffer ∧ ¬ t.ReadsFrame := by
    rw [handleDir_eq h] at ht
    exact hone ht hreads
  have hmake {long : Prop} [Decidable long] {rs : List Reply} {parent : ℕ} (t' : FsTask)
      (h : (if long then .ok ⟨s, [], rs⟩ else s.handleDir parent t') = .ok e)
      (hreads : ¬ t'.ReadsBuffer ∧ ¬ t'.ReadsFrame) : ¬ t.ReadsBuffer ∧ ¬ t.ReadsFrame := by
    split at h
    · rw [← Except.ok.inj h] at ht
      cases ht
    · exact hdir h hreads
  cases q with
  | lookup req parent name => exact hdir h ⟨id, id⟩
  | create r => exact hmake (.create r) h ⟨id, id⟩
  | mkdir r => exact hmake (.mkdir r) h ⟨id, id⟩
  | unlink r => exact hdir h ⟨id, id⟩
  | rmdir r => exact hdir h ⟨id, id⟩
  | rename r =>
    replace h : (if r.oldname.length > NAME_MAX ∨ r.newname.length > NAME_MAX then .ok ⟨s, [], []⟩
      else s.getDir r.parent >>= fun _ => s.getDir r.newparent >>= fun _ =>
        .ok ⟨s, [.rename r], []⟩) = .ok e := h
    split at h
    · rw [← Except.ok.inj h] at ht
      cases ht
    · obtain ⟨-, -, h⟩ := bind_eq_ok.mp h
      obtain ⟨-, -, h⟩ := bind_eq_ok.mp h
      rw [← Except.ok.inj h] at ht
      exact hone ht ⟨id, id⟩
  | readdir r =>
    cases readdirHandled h with
    | full => cases ht
    | scheduled => exact hone ht ⟨id, id⟩
  | getattr req ino =>
    have h : s.getattr req ino = .ok e := h
    unfold FsState.getattr at h
    split at h <;>
    · obtain ⟨d, -, h⟩ := bind_eq_ok.mp h
      rw [← Except.ok.inj h] at ht
      cases ht
  | forget ino nlookup =>
    have h : s.handleForget ino nlookup = .ok e := h
    unfold FsState.handleForget at h
    split at h
    · exact hdir h ⟨id, id⟩
    · obtain ⟨f, -, h⟩ := bind_eq_ok.mp h
      rw [← Except.ok.inj h] at ht
      exact hone ht ⟨id, id⟩
  | onInode ino q => exact absurd rfl (hinode ino q)

/-- The behaviours that a handler schedules find what the message says. -/
theorem load_handled {m : Message payload} (buffer : ℕ → UInt8) {frame : FileInfo}
    (hframe : ∀ fi, m.request.frame? = some fi → frame = fi) (h : server.handle m.request s = .ok e)
    (ht : t ∈ e.spawned) : t.load payload (receive buffer m.bytes) frame = t := by
  have hplain {t' : FsTask} (ht' : t ∈ [t']) (hreads : ¬ t'.ReadsBuffer ∧ ¬ t'.ReadsFrame) :
      t.load payload (receive buffer m.bytes) frame = t := by
    rw [List.mem_singleton.mp ht']
    exact FsTask.load_eq hreads.1 hreads.2
  cases hm : m.request with
  | onInode ino q =>
    rw [hm] at h
    have hreg (hreg : s.handleReg ino q = .ok e) :
        t.load payload (receive buffer m.bytes) frame = t := by
      rcases handleReg_cases hreg with ⟨reply, rfl⟩ | rfl
      · cases ht
      obtain rfl := List.mem_singleton.mp ht
      cases q with
      | write w =>
        change FsTask.file ino (.inode (.write (w.load _))) = _
        rw [WriteReq.load_receive buffer (m.data_eq ino w hm)]
      | opendir req flags uid gid fi =>
        rw [hframe fi (by rw [hm]; rfl)]
        rfl
      | _ => rfl
    cases q with
    | setattr r =>
      replace h : (if ino % 2 = 1 then s.handleReg ino (.setattr r)
        else s.handleDir ino (.setattrDir ino r)) = .ok e := h
      split at h
      · exact hreg h
      · rw [handleDir_eq h] at ht
        exact hplain ht ⟨id, id⟩
    | opendir req flags uid gid fi =>
      replace h : (if ino = FUSE_ROOT_ID ∨ ino % 2 = 0 then
        s.handleDir ino (.opendirDir ino req flags uid gid fi)
        else s.handleReg ino (.opendir req flags uid gid fi)) = .ok e := h
      split at h
      · rw [handleDir_eq h] at ht
        rw [List.mem_singleton.mp ht, hframe fi (by rw [hm]; rfl)]
        rfl
      · exact hreg h
    | access req mask uid gid =>
      replace h : (if ino = FUSE_ROOT_ID ∨ ino % 2 = 0 then
        s.handleDir ino (.accessDir ino req mask uid gid)
        else s.handleReg ino (.access req mask uid gid)) = .ok e := h
      split at h
      · rw [handleDir_eq h] at ht
        exact hplain ht ⟨id, id⟩
      · exact hreg h
    | _ => exact hreg h
  | _ =>
    obtain ⟨hbuffer, hframe'⟩ := handle_not_reads (by simp [hm]) h ht
    exact FsTask.load_eq hbuffer hframe'

end Handlers

/-! ## Runs in which the loop waits -/

namespace Session

variable {payload : ℕ} {s s' s₀ : Session} {a : Action payload} {tr : FsTrace}

/-- A pending behaviour would run with what its own message says, and the memory it reads was not used
for anything else since: no message was received after its own, and its handler has not returned. -/
structure Own (payload : ℕ) (s : Session) (p : FsTask × ℕ) : Prop where
  /-- It would run as its message says. -/
  load_eq : s.load payload p.1 = p.1
  /-- The buffer has its message. -/
  buffer : p.1.ReadsBuffer → p.2 = s.received
  /-- The frame is that of its handler. -/
  frame : p.1.ReadsFrame → p.2 = s.received ∧ s.handling = true

/-- A behaviour that reads no request memory. -/
theorem own_of_not_reads {p : FsTask × ℕ} (h : ¬ p.1.ReadsBuffer ∧ ¬ p.1.ReadsFrame) :
    Own payload s p :=
  ⟨FsTask.load_eq h.1 h.2, fun hreads => absurd hreads h.1, fun hreads => absurd hreads h.2⟩

/-- A step in which the loop waits. -/
theorem Step.own (h : Step s a s') (hwaits : Waits s a) (hown : ∀ p ∈ s.pending, Own payload s p) :
    ∀ p ∈ s'.pending, Own payload s' p := by
  intro p hp
  cases h with
  | @receive m frame e hidle hframe hhandles =>
    rcases List.mem_append.mp hp with hp | hp
    · refine own_of_not_reads ⟨hwaits p hp, fun hreads => ?_⟩
      have hhandling := ((hown p hp).frame hreads).2
      rw [hidle] at hhandling
      cases hhandling
    · obtain ⟨t, ht, rfl⟩ := List.mem_map.mp hp
      exact ⟨load_handled s.buffer hframe hhandles.handle_eq ht, fun _ => rfl, fun _ => ⟨rfl, rfl⟩⟩
  | @handled frame hhandling =>
    have hp' : p ∈ s.pending := hp
    have hreads := hwaits p hp'
    refine ⟨?_, (hown p hp').buffer, fun h => absurd h hreads⟩
    calc p.1.load payload s.buffer frame = p.1.load payload s.buffer s.frame :=
          FsTask.load_congr (fun _ => rfl) fun h => absurd h hreads
      _ = p.1 := (hown p hp').load_eq
  | @run pre post t n e hpending hfree hruns =>
    rcases List.mem_append.mp hp with hp | hp
    · have hp' : p ∈ s.pending := by
        rw [hpending]
        exact (List.sublist_cons_self (t, n) post).append_left pre |>.subset hp
      obtain ⟨hload, hbuffer, hframe⟩ := hown p hp'
      exact ⟨hload, hbuffer, hframe⟩
    · obtain ⟨t', ht', rfl⟩ := List.mem_map.mp hp
      exact own_of_not_reads (FsTask.not_reads_spawned hruns.body_eq ht')

/-- The behaviours without the numbers of their messages. -/
theorem map_fst_tagged (ts : List FsTask) (n : ℕ) : (ts.map (·, n)).map Prod.fst = ts := by
  rw [List.map_map]
  exact List.map_id ts

/-- When every behaviour runs as its message says, a step of the session is one of the file system. -/
theorem Step.server_run (h : Step s a s') (hown : ∀ p ∈ s.pending, Own payload s p) :
    server.Run s.config a.labels s'.config := by
  cases h with
  | @receive m frame e hidle hframe hhandles =>
    have hstep : server.Step s.config (.request m.request)
        ⟨e.state, s.pending.map Prod.fst ++ e.spawned, s.replies ++ e.replies⟩ := .request hhandles
    have hrun := System.Run.nil.snoc hstep
    simpa only [config, List.map_append, map_fst_tagged, Action.labels, List.nil_append] using hrun
  | handled => exact .nil
  | @run pre post t n e hpending hfree hruns =>
    have hload : s.load payload t = t := (hown (t, n) (by simp [hpending])).load_eq
    rw [hload] at hruns
    have hstep : server.Step ⟨s.state, pre.map Prod.fst ++ t :: post.map Prod.fst, s.replies⟩ (.run t)
        ⟨e.state, pre.map Prod.fst ++ post.map Prod.fst ++ e.spawned, s.replies ++ e.replies⟩ :=
      .run hfree hruns
    have hrun := System.Run.nil.snoc hstep
    simpa only [config, hpending, List.map_append, List.map_cons, map_fst_tagged, Action.labels,
      List.nil_append] using hrun

/-- In every run in which the loop waits for the behaviours that read request memory, every pending
behaviour would run with what its own message says, reading memory that was not used for anything else
since; and the run is one of the file system in which every request carries its bytes and its file
information itself. -/
theorem session_ownMemory (h : @Run payload Waits s₀ tr s) (hstart : s₀.pending = []) :
    (∀ p ∈ s.pending, Own payload s p) ∧ server.Run s₀.config tr s.config := by
  induction h with
  | nil =>
    refine ⟨fun p hp => ?_, .nil⟩
    rw [hstart] at hp
    cases hp
  | snoc hrun hwaits hstep ih => exact ⟨hstep.own hwaits ih.1, ih.2.append (hstep.server_run ih.1)⟩

end Session

/-- The oldest pending behaviour runs, and reads no request memory. -/
theorem Session.Step.run_head {payload : ℕ} {buffer : ℕ → UInt8} {frame : FileInfo} {handling : Bool}
    {received n : ℕ} {state : FsState} {t : FsTask} {post : List (FsTask × ℕ)} {rs : List Reply}
    {e : FsEffect} (ht : ¬ t.ReadsBuffer ∧ ¬ t.ReadsFrame) (hruns : server.Runs t state e) :
    @Session.Step payload ⟨buffer, frame, handling, received, state, (t, n) :: post, rs⟩ (.run t)
      ⟨buffer, frame, handling, received, e.state, post ++ e.spawned.map (·, n), rs ++ e.replies⟩ := by
  have hfree : server.FreeOf (([] : List (FsTask × ℕ)).map Prod.fst) t :=
    fun _ ht => absurd ht List.not_mem_nil
  have hload : t.load payload buffer frame = t := FsTask.load_eq ht.1 ht.2
  have hruns' : server.Runs (t.load payload buffer frame) state e := by rwa [hload]
  exact .run (s := ⟨buffer, frame, handling, received, state, [] ++ (t, n) :: post, rs⟩) rfl hfree hruns'

/-! ## An `opendir`, and two writes -/

/-- The file information of an `opendir` to read. -/
def readInfo : FileInfo := ⟨0, false, false, none⟩

/-- The session after `init`. -/
def newSession : Session := ⟨fun _ => 0, readInfo, false, 0, rootFs, [], []⟩

/-- The message of an `opendir` on the root directory. -/
def opendirMessage : Message 80 where
  bytes := []
  request := .onInode 1 (.opendir 1 0 0 0 readInfo)
  data_eq ino w h := by cases h

/-- The session while the handler of the `opendir` runs. -/
def opendirSession : Session :=
  ⟨receive (fun _ => 0) [], readInfo, true, 1, rootFs, [(.opendirDir 1 1 0 0 0 readInfo, 1)], []⟩

/-- The behaviour of the `opendir` would reply its own file information. -/
theorem session_ownMemory_opendir : ∃ tr,
    @Session.Run 80 Session.Waits newSession tr opendirSession ∧
      (∀ p ∈ opendirSession.pending, Session.Own 80 opendirSession p) ∧
      server.Run newSession.config tr opendirSession.config := by
  have hhandles : server.Handles opendirMessage.request newSession.state
      ⟨rootFs, [.opendirDir 1 1 0 0 0 readInfo], []⟩ := ⟨rfl, by decide⟩
  have hstep : Session.Step newSession (.receive opendirMessage) opendirSession :=
    .receive (m := opendirMessage) rfl (fun fi hfi => Option.some.inj hfi) hhandles
  have hrun : @Session.Run 80 Session.Waits newSession _ opendirSession :=
    Session.Run.nil.snoc (fun p hp => absurd hp List.not_mem_nil) hstep
  exact ⟨_, hrun, Session.session_ownMemory hrun rfl⟩

/-- The message of the creation of the file `A`. -/
def createMessage : Message 80 where
  bytes := []
  request := .create createA
  data_eq ino w h := by cases h

/-- A write of one byte at the beginning of the file. -/
def byteWrite (b : UInt8) : WriteReq :=
  ⟨20, [b], 0, 0, longRead.off_nonneg, longRead.off_lt, Nat.one_lt_two_pow (by decide)⟩

/-- Its message. -/
def writeMessage (b : UInt8) : Message 80 where
  bytes := List.replicate 80 0 ++ [b]
  request := .onInode 9 (.write (byteWrite b))
  data_eq ino w h := by
    cases h
    rw [List.drop_left' (List.length_replicate ..)]
    rfl

/-- The file system after the behaviour of `createA`. -/
def fsFile₀ : FsState :=
  (rootFs.setReg 9 createA.newReg).setDir 1 ((rootDir.insert [65] ⟨9, 10⟩).touch 0)

/-- The file system with the file `A`. -/
def fsFile : FsState := rootFs.created createA rootDir

/-- The session with the file. -/
def fileSession : Session :=
  ⟨receive (fun _ => 0) [], readInfo, false, 1, fsFile, [], [replyCreateA]⟩

/-- The file is created. -/
theorem run_fileSession : ∃ tr, @Session.Run 80 (fun _ _ => True) newSession tr fileSession := by
  have hhandles : server.Handles createMessage.request newSession.state
      ⟨rootFs, [.create createA], []⟩ := ⟨rfl, by decide⟩
  have hcreate : server.Runs (.create createA) rootFs
      ⟨fsFile₀, [.addReg 9 createA.regStat], [replyCreateA]⟩ := ⟨rfl, by decide⟩
  have hadd : server.Runs (.addReg 9 createA.regStat) fsFile₀ ⟨fsFile, [], []⟩ := ⟨rfl, by decide⟩
  let buffer : ℕ → UInt8 := receive (fun _ => 0) []
  have hreceived : Session.Step newSession (.receive createMessage)
      ⟨buffer, readInfo, true, 1, rootFs, [(.create createA, 1)], []⟩ :=
    .receive (m := createMessage) rfl (fun fi hfi => by cases hfi) hhandles
  have hhandled : @Session.Step 80 ⟨buffer, readInfo, true, 1, rootFs, [(.create createA, 1)], []⟩
      .handled ⟨buffer, readInfo, false, 1, rootFs, [(.create createA, 1)], []⟩ := .handled rfl
  have hcreated : @Session.Step 80 ⟨buffer, readInfo, false, 1, rootFs, [(.create createA, 1)], []⟩
      (.run (.create createA)) ⟨buffer, readInfo, false, 1, fsFile₀,
        [(.addReg 9 createA.regStat, 1)], [replyCreateA]⟩ :=
    Session.Step.run_head ⟨id, id⟩ hcreate
  have hadded : @Session.Step 80 ⟨buffer, readInfo, false, 1, fsFile₀,
      [(.addReg 9 createA.regStat, 1)], [replyCreateA]⟩ (.run (.addReg 9 createA.regStat))
        fileSession := Session.Step.run_head ⟨id, id⟩ hadd
  exact ⟨_, (((Session.Run.nil.snoc trivial hreceived).snoc trivial hhandled).snoc trivial
    hcreated).snoc trivial hadded⟩

/-- The session in which two writes are pending and the second message was received. -/
def twoWrites : Session :=
  ⟨receive (receive fileSession.buffer (writeMessage 1).bytes) (writeMessage 2).bytes, readInfo, true, 3,
    fsFile, [(.file 9 (.inode (.write (byteWrite 1))), 2), (.file 9 (.inode (.write (byteWrite 2))), 3)],
    [replyCreateA]⟩

/-- The file system with the file has blocks where its inodes say so. -/
theorem fsFile_filesWF : fsFile.FilesWF := by
  have hcreate : FsState.body (.create createA) rootFs =
      .ok ⟨fsFile₀, [.addReg 9 createA.regStat], [replyCreateA]⟩ := rfl
  have hadd : FsState.body (.addReg 9 createA.regStat) fsFile₀ = .ok ⟨fsFile, [], []⟩ := rfl
  exact (rootFs_filesWF.body hcreate).body hadd

/-- A message with a write is received. -/
theorem receive_writeMessage (b : UInt8) (buffer : ℕ → UInt8) (received : ℕ)
    (pending : List (FsTask × ℕ)) :
    Session.Step ⟨buffer, readInfo, false, received, fsFile, pending, [replyCreateA]⟩
      (.receive (writeMessage b))
      ⟨receive buffer (writeMessage b).bytes, readInfo, true, received + 1, fsFile,
        pending ++ [(.file 9 (.inode (.write (byteWrite b))), received + 1)], [replyCreateA]⟩ := by
  have hhandles : server.Handles (writeMessage b).request fsFile
      ⟨fsFile, [.file 9 (.inode (.write (byteWrite b)))], []⟩ := by
    refine ⟨rfl, fun t ht => ?_⟩
    rw [List.mem_singleton.mp ht]
    exact List.nodup_singleton _
  exact .receive (s := ⟨buffer, readInfo, false, received, fsFile, pending, [replyCreateA]⟩) rfl
    (fun fi hfi => by cases hfi) hhandles

/-- Two writes are requested before the first behaviour runs: this one stores the byte of the second. -/
theorem write_overwritten : ∃ tr, @Session.Run 80 (fun _ _ => True) newSession tr twoWrites ∧
    (FsTask.file 9 (.inode (.write (byteWrite 1)))).ReadsBuffer ∧ 2 < twoWrites.received ∧
    twoWrites.load 80 (.file 9 (.inode (.write (byteWrite 1)))) =
      .file 9 (.inode (.write (byteWrite 2))) ∧
    ∃ s, @Session.Step 80 twoWrites (.run (.file 9 (.inode (.write (byteWrite 1))))) s := by
  let write (b : UInt8) : FsTask := .file 9 (.inode (.write (byteWrite b)))
  obtain ⟨tr, hfile⟩ := run_fileSession
  have hfirst := receive_writeMessage 1 fileSession.buffer 1 []
  have hhandled : @Session.Step 80 ⟨receive fileSession.buffer (writeMessage 1).bytes, readInfo, true, 2,
      fsFile, [(write 1, 2)], [replyCreateA]⟩ .handled
      ⟨receive fileSession.buffer (writeMessage 1).bytes, readInfo, false, 2, fsFile, [(write 1, 2)],
        [replyCreateA]⟩ := .handled rfl
  have hsecond := receive_writeMessage 2 (receive fileSession.buffer (writeMessage 1).bytes) 2
    [(write 1, 2)]
  have hload : twoWrites.load 80 (write 1) = write 2 := rfl
  refine ⟨_, ((hfile.snoc trivial hfirst).snoc trivial hhandled).snoc trivial hsecond,
    List.cons_ne_nil 1 [], by decide, hload, ?_⟩
  have hfile9 : fsFile.regs[9]? = some createA.addedReg := by
    rw [fsFile, FsState.regs_created]
    exact if_pos rfl
  obtain ⟨e, he⟩ : ∃ e, fsFile.fileBody 9 (.inode (.write (byteWrite 2))) = .ok e :=
    ⟨_, fileBody_eq_ok.mpr ⟨createA.addedReg, _, hfile9, rfl, rfl⟩⟩
  have hruns : server.Runs (twoWrites.load 80 (write 1)) fsFile e := by
    have hbody : server.body (write 2) fsFile = .ok e := he
    rw [hload]
    exact ⟨hbody, (body_distinct_iff fsFile_filesWF hbody).mpr trivial⟩
  have hpending : twoWrites.pending = [] ++ (write 1, 2) :: [(write 2, 3)] := rfl
  exact ⟨_, .run hpending (fun _ ht => absurd ht List.not_mem_nil) hruns⟩

end VeronaFs
