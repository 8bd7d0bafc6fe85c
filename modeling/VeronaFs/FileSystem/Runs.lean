import VeronaFs.FileSystem.InodeStep

/-!
# Runs of a regular inode

`FileStep` lists what one step of the system of a regular inode can be.  On top of it this file has
the bookkeeping of traces (which requests were made, which have run on the inode, which are
pending), the ownership invariant `Owned`, and what the two give: no behaviour fails, and every
execution of what is pending ends with nothing pending.
-/

namespace VeronaFs

open Boc Foundation

/-- The traces of a regular inode. -/
abbrev FileTrace := List (Label FileRequest FileTask)

/-- The requests that the dispatcher answers itself. -/
def FileRequest.denied (q : FileRequest) : Bool := q.refusal.isSome

/-- The dispatcher schedules the behaviour of a request it does not answer itself. -/
theorem File.handleRequest_of_not_denied {q : FileRequest} (h : q.denied = false) (f : File) :
    f.handleRequest q = ⟨f, [.inode q], []⟩ := by
  rw [FileRequest.denied, Option.isSome_eq_false_iff, Option.isNone_iff_eq_none] at h
  rw [File.handleRequest, h]

/-- A refusal is an error. -/
theorem FileRequest.refusal_eq {q : FileRequest} {reply : Reply} (h : q.refusal = some reply) :
    ∃ errno, reply = .err q.req errno := by
  cases q with
  | openFile o =>
    simp only [FileRequest.refusal] at h
    split at h
    · exact ⟨EACCES, (Option.some.inj h).symm⟩
    · cases h
  | fallocate req mode offset length =>
    simp only [FileRequest.refusal] at h
    split at h
    · exact ⟨EOPNOTSUPP, (Option.some.inj h).symm⟩
    · cases h
  | _ => cases h

/-- The dispatcher answers a request that it denies with an error. -/
theorem File.handleRequest_of_denied {q : FileRequest} (h : q.denied = true) (f : File) :
    ∃ errno, f.handleRequest q = ⟨f, [], [.err q.req errno]⟩ := by
  obtain ⟨reply, hreply⟩ := Option.isSome_iff_exists.mp h
  obtain ⟨errno, rfl⟩ := FileRequest.refusal_eq hreply
  exact ⟨errno, by rw [File.handleRequest, hreply]⟩

/-- The dispatcher leaves the file and schedules at most the behaviour of the request. -/
theorem File.handleRequest_eq (f : File) (q : FileRequest) :
    f.handleRequest q =
      ⟨f, if q.denied then [] else [.inode q], (f.handleRequest q).replies⟩ := by
  cases h : q.denied with
  | false => simp [f.handleRequest_of_not_denied h]
  | true =>
    obtain ⟨errno, heq⟩ := f.handleRequest_of_denied h
    simp [heq]

/-- The dispatcher handles every request to the end. -/
theorem File.handles (f : File) (q : FileRequest) :
    fileSystem.Handles q f (f.handleRequest q) := by
  refine ⟨rfl, fun t ht => ?_⟩
  rw [f.handleRequest_eq q] at ht
  simp only at ht
  split at ht
  · cases ht
  · rw [List.mem_singleton.mp ht]
    exact List.nodup_singleton _

/-! ## Steps -/

/-- The steps of a regular inode: the dispatcher handles a request, the behaviour of a request runs
on the inode, or a block or counter behaviour runs. -/
inductive FileStep : FileConfig → Label FileRequest FileTask → FileConfig → Prop
  /-- The dispatcher handles a request. -/
  | request (f : File) (pending : List FileTask) (rs : List Reply) (q : FileRequest) :
      FileStep ⟨f, pending, rs⟩ (.request q)
        ⟨f, pending ++ if q.denied then [] else [.inode q], rs ++ (f.handleRequest q).replies⟩
  /-- The behaviour of the oldest request runs on the inode. -/
  | inode {f : File} {pre post : List FileTask} {rs : List Reply} {q : FileRequest}
      {e : Effect File FileTask Reply} (hpre : ∀ t ∈ pre, ∀ r, t ≠ .inode r)
      (hstep : File.RequestStep q f e) :
      FileStep ⟨f, pre ++ .inode q :: post, rs⟩ (.run (.inode q))
        ⟨e.state, pre ++ post ++ e.spawned, rs ++ e.replies⟩
  /-- A block or counter behaviour runs. -/
  | block {f : File} {pre post : List FileTask} {rs : List Reply} {t : FileTask}
      {e : Effect File FileTask Reply} (ht : ∀ r, t ≠ .inode r) (hfree : fileSystem.FreeOf pre t)
      (hbody : File.body t f = .ok e) (hstep : File.BlockStep t f e) :
      FileStep ⟨f, pre ++ t :: post, rs⟩ (.run t)
        ⟨e.state, pre ++ post ++ e.spawned, rs ++ e.replies⟩

/-- Every step of the system is one of these. -/
theorem fileStep_of_step {c c' : FileConfig} {l : Label FileRequest FileTask}
    (h : fileSystem.Step c l c') : FileStep c l c' := by
  cases h with
  | @request f pending rs q e hrun =>
    obtain rfl : f.handleRequest q = e := Except.ok.inj hrun.handle_eq
    have hstep := FileStep.request f pending rs q
    rw [f.handleRequest_eq q]
    exact hstep
  | @run f pre post rs t e hfree hrun =>
    have hbody : File.body t f = .ok e := hrun.body_eq
    by_cases ht : ∃ q, t = .inode q
    · obtain ⟨q, rfl⟩ := ht
      refine .inode (fun t' ht' r heq => ?_) (File.inodeBody_requestStep hbody)
      have hdisj := hfree t' ht'
      rw [heq] at hdisj
      exact hdisj (a := .inode) (List.mem_singleton.mpr rfl) (List.mem_singleton.mpr rfl)
    · simp only [not_exists] at ht
      exact .block ht hfree hbody (File.body_blockStep ht hbody)

/-- What holds at the start of a run and is kept by every step holds throughout. -/
theorem run_invariant {c₀ c : FileConfig} {tr : FileTrace} {P : FileTrace → FileConfig → Prop}
    (hrun : fileSystem.Run c₀ tr c) (hnil : P [] c₀)
    (hsnoc : ∀ tr c l c', P tr c → FileStep c l c' → P (tr ++ [l]) c') : P tr c :=
  hrun.invariant hnil fun tr c l c' h hstep => hsnoc tr c l c' h (fileStep_of_step hstep)

/-! ## Traces -/

/-- The requests the dispatcher handled, in order. -/
def requested (tr : FileTrace) : List FileRequest :=
  tr.filterMap fun
    | .request q => some q
    | .run _ => none

/-- The requests the dispatcher scheduled, in order. -/
def scheduled (tr : FileTrace) : List FileRequest :=
  tr.filterMap fun
    | .request q => if q.denied then none else some q
    | .run _ => none

/-- The requests whose behaviour has run on the inode, in order. -/
def inodeRuns (tr : FileTrace) : List FileRequest :=
  tr.filterMap fun
    | .run (.inode q) => some q
    | _ => none

/-- The requests whose behaviour is pending. -/
def pendingRequests (pending : List FileTask) : List FileRequest :=
  pending.filterMap fun
    | .inode q => some q
    | _ => none

/-- The pending requests of two lists. -/
@[simp] theorem pendingRequests_append (l₁ l₂ : List FileTask) :
    pendingRequests (l₁ ++ l₂) = pendingRequests l₁ ++ pendingRequests l₂ :=
  List.filterMap_append

/-- A request is pending when its behaviour is. -/
theorem mem_pendingRequests {l : List FileTask} {q : FileRequest} :
    q ∈ pendingRequests l ↔ .inode q ∈ l := by
  unfold pendingRequests
  rw [List.mem_filterMap]
  constructor
  · rintro ⟨t, ht, heq⟩
    cases t <;> cases heq
    exact ht
  · exact fun h => ⟨_, h, rfl⟩

/-- A block or counter behaviour in a trace is no run of a request. -/
theorem inodeRuns_run {t : FileTask} (ht : ∀ r, t ≠ .inode r) (tr : FileTrace) :
    inodeRuns (tr ++ [.run t]) = inodeRuns tr := by
  cases t with
  | inode q => exact absurd rfl (ht q)
  | _ => simp [inodeRuns]

/-- A list without behaviours of requests has no pending requests. -/
theorem pendingRequests_eq_nil {l : List FileTask} (h : ∀ t ∈ l, ∀ r, t ≠ .inode r) :
    pendingRequests l = [] := by
  refine List.filterMap_eq_nil_iff.mpr fun t ht => ?_
  cases t with
  | inode q => exact absurd rfl (h _ ht q)
  | _ => rfl

/-- Requests schedule no requests. -/
theorem File.RequestStep.pendingRequests_spawned {q : FileRequest} {f : File}
    {e : Effect File FileTask Reply} (h : File.RequestStep q f e) :
    pendingRequests e.spawned = [] := by
  refine pendingRequests_eq_nil fun t ht r heq => ?_
  subst heq
  cases h with
  | write w =>
    rcases f.write_tasks w with h | ⟨u, k, h, -⟩ | ⟨u₀, u₁, k, h, -⟩ <;> simp [h] at ht
  | read r =>
    obtain ⟨a, k, p, heq, -⟩ := File.read_spawned ht
    cases heq
  | truncate n hq h =>
    obtain ⟨a, k, heq, -⟩ := h.spawned ht
    cases heq
  | reserve => cases ht
  | keep => cases ht

/-- Requests run on the inode in the order in which they were scheduled. -/
theorem inodeRuns_append_pending {f₀ : File} {rs₀ : List Reply} {tr : FileTrace} {c : FileConfig}
    (hrun : fileSystem.Run ⟨f₀, [], rs₀⟩ tr c) :
    inodeRuns tr ++ pendingRequests c.pending = scheduled tr := by
  refine run_invariant (P := fun tr c =>
    inodeRuns tr ++ pendingRequests c.pending = scheduled tr) hrun rfl ?_
  intro tr c l c' ih hstep
  cases hstep with
  | request f pending rs q =>
    rw [scheduled, List.filterMap_append, ← scheduled, ← ih]
    by_cases hq : q.denied <;> simp [inodeRuns, pendingRequests, hq]
  | @inode f pre post rs q e hpre hstep =>
    have hsched : scheduled (tr ++ [.run (.inode q)]) = scheduled tr := by simp [scheduled]
    have hruns : inodeRuns (tr ++ [.run (.inode q)]) = inodeRuns tr ++ [q] := by simp [inodeRuns]
    rw [hsched, ← ih, hruns]
    simp only [pendingRequests_append, hstep.pendingRequests_spawned, pendingRequests_eq_nil hpre]
    simp [pendingRequests]
  | @block f pre post rs t e ht hfree hbody hstep =>
    have hsched : scheduled (tr ++ [.run t]) = scheduled tr := by simp [scheduled]
    have hspawned : pendingRequests e.spawned = [] := pendingRequests_eq_nil fun t' ht' r heq => by
      obtain ⟨a, p, -, rfl⟩ := hstep.spawned t' ht'
      cases heq
    have hself : pendingRequests [t] = [] :=
      pendingRequests_eq_nil fun t' ht' => List.mem_singleton.mp ht' ▸ ht
    rw [hsched, ← ih, inodeRuns_run ht, List.append_cons pre t post]
    simp only [pendingRequests_append, hspawned, hself, List.append_nil]

/-! ## The invariant -/

/-- A run keeps the invariant of a file. -/
theorem FileInv.run {c₀ c : FileConfig} {tr : FileTrace} (hrun : fileSystem.Run c₀ tr c)
    (h₀ : FileInv c₀) : FileInv c := by
  refine run_invariant (P := fun _ c => FileInv c) hrun h₀ fun _ c l c' ih hstep => ?_
  cases hstep with
  | request f pending rs q =>
    refine ⟨ih.wf, fun t ht a ha => ?_, fun t ht => ?_⟩
    · rcases List.mem_append.mp ht with ht | ht
      · exact ih.bounded t ht a ha
      · split at ht
        · cases ht
        · rw [List.mem_singleton.mp ht] at ha
          simp [FileTask.cowns] at ha
    · rcases List.mem_append.mp ht with ht | ht
      · exact ih.fits t ht
      · split at ht
        · cases ht
        · rw [List.mem_singleton.mp ht]
          trivial
  | @inode f pre post rs q e hpre hstep =>
    exact hstep.fileInv ih (by simp +contextual [or_imp])
  | block ht hfree hbody hstep => exact ih.blockStep hstep

/-! ## Ownership of buffers -/

/-- The buffers behind the cowns of a file. -/
def File.bufs (f : File) : FileCown → Option Buffer
  | .block a => f.bufOf a
  | _ => none

/-- The blocks a behaviour copies from or into own their buffer. -/
def NeedsBuf : FileTask → (FileCown → Option Buffer) → Prop
  | .writeOne w, v => v (.block w.ptr) ≠ none
  | .writeTwo w₀ w₁, v => v (.block w₀.ptr) ≠ none ∧ v (.block w₁.ptr) ≠ none
  | .readBlock a _, v => v (.block a) ≠ none
  | _, _ => True

/-- What a behaviour needs is about its own cowns. -/
theorem needsBuf_local : LocalProp FileTask.cowns NeedsBuf := by
  intro t v v' heq h
  cases t with
  | writeOne w =>
    simp only [NeedsBuf] at h ⊢
    rwa [← heq _ (by simp [FileTask.cowns])]
  | writeTwo w₀ w₁ =>
    simp only [NeedsBuf] at h ⊢
    rwa [← heq _ (by simp [FileTask.cowns]), ← heq _ (by simp [FileTask.cowns])]
  | readBlock a p =>
    simp only [NeedsBuf] at h ⊢
    rwa [← heq _ (by simp [FileTask.cowns])]
  | _ => trivial

/-- Every block of the map will own its buffer once everything pending has run, and every pending
behaviour finds the buffers it needs at its turn. -/
structure Owned (c : FileConfig) : Prop where
  /-- The blocks of the map will own their buffers. -/
  blocks : ∀ (k : ℤ) (a : ℕ), c.state.inode.dataBlocks[k]? = some a → virtualBuf c a ≠ none
  /-- Pending behaviours find the buffers they need. -/
  turns : AtTurn FileTask.update NeedsBuf c.pending c.state.bufs

/-- With nothing pending ownership is about the blocks alone. -/
theorem Owned.of_blocks {f : File} (h : ∀ (k : ℤ) (a : ℕ),
    f.inode.dataBlocks[k]? = some a → f.bufOf a ≠ none) (rs : List Reply) : Owned ⟨f, [], rs⟩ :=
  ⟨h, trivial⟩

/-- Running a block behaviour updates the buffers. -/
theorem File.BlockStep.bufs_eq {t : FileTask} {f : File} {e : Effect File FileTask Reply}
    (h : File.BlockStep t f e) : e.state.bufs = fun k => t.update k (f.bufs k) := by
  funext k
  cases k with
  | block a => exact h.bufOf_eq a
  | _ => cases t <;> simp [File.bufs, FileTask.update, Wrapper.update]

/-- Running a block behaviour leaves what the others find at their turn. -/
theorem File.BlockStep.turns {f : File} {pre post : List FileTask} {t : FileTask}
    {e : Effect File FileTask Reply} (hstep : File.BlockStep t f e)
    (hfree : fileSystem.FreeOf pre t) (h : AtTurn FileTask.update NeedsBuf (pre ++ t :: post) f.bufs) :
    AtTurn FileTask.update NeedsBuf (pre ++ post ++ e.spawned) e.state.bufs := by
  refine atTurn_append.mpr ⟨?_, ?_⟩
  · rw [hstep.bufs_eq]
    exact atTurn_run FileTask.localUpdate needsBuf_local hfree h
  · refine atTurn_of_forall (fun t' ht' v => ?_) _
    obtain ⟨a, p, -, rfl⟩ := hstep.spawned t' ht'
    trivial

/-- Running a block behaviour keeps ownership. -/
theorem Owned.blockStep {f : File} {pre post : List FileTask} {rs rs' : List Reply} {t : FileTask}
    {e : Effect File FileTask Reply} (h : Owned ⟨f, pre ++ t :: post, rs⟩)
    (hfree : fileSystem.FreeOf pre t) (hstep : File.BlockStep t f e) :
    Owned ⟨e.state, pre ++ post ++ e.spawned, rs'⟩ where
  blocks k a hk := by
    rw [hstep.inode_eq] at hk
    have heq : virtualBuf ⟨e.state, pre ++ post ++ e.spawned, rs ++ e.replies⟩ a =
        virtualBuf ⟨f, pre ++ t :: post, rs⟩ a := virtualBuf_run hfree hstep a
    unfold virtualBuf at heq
    exact fun hnone => h.blocks k a hk (heq.symm.trans hnone)
  turns := hstep.turns hfree h.turns

/-- The condition under which a request that runs on the inode keeps ownership: it does not cut the
file to a size other than zero while the map has a block after the one of the new size. -/
def File.KeepsBlocks (f : File) (q : FileRequest) : Prop :=
  ∀ n, q.newSize = some n → n ≠ 0 → n < f.st.stSize →
    ∀ (k : ℤ) (a : ℕ), f.inode.dataBlocks[k]? = some a → k ≤ n.tdiv BLOCK_SIZE

section Inode

variable {f f' : File} {pre post spawned : List FileTask} {rs rs' : List Reply} {q : FileRequest}

/-- The behaviour of a request updates no buffer. -/
theorem replay_drop_inode (k : FileCown) (v : Option Buffer) :
    replay FileTask.update (pre ++ post) k v =
      replay FileTask.update (pre ++ .inode q :: post) k v := by
  rw [replay_append, replay_append, replay_cons]
  rfl

/-- The behaviours that stay pending are pending. -/
theorem mem_drop_inode {t : FileTask} (ht : t ∈ pre ++ post) : t ∈ pre ++ .inode q :: post := by
  rcases List.mem_append.mp ht with ht | ht <;> simp [ht]

/-- The pending behaviours still find what they found before a request ran on the inode. -/
theorem atTurn_drop {P : FileTask → (FileCown → Option Buffer) → Prop}
    (hlocal : LocalProp FileTask.cowns P)
    (h : AtTurn FileTask.update P (pre ++ .inode q :: post) f.bufs)
    (hinv : FileInv ⟨f, pre ++ .inode q :: post, rs⟩)
    (hbufs : ∀ a, a < f.blocks.length → f'.bufOf a = f.bufOf a) :
    AtTurn FileTask.update P (pre ++ post) f'.bufs := by
  have hturn : AtTurn FileTask.update P (pre ++ post) f.bufs := by
    obtain ⟨h₁, -, h₂⟩ := atTurn_append.mp h
    exact atTurn_append.mpr ⟨h₁, h₂⟩
  refine atTurn_congr hlocal (fun t ht k hk => ?_) hturn
  cases k with
  | block a => exact (hbufs a (hinv.bounded t (mem_drop_inode ht) a hk)).symm
  | _ => rfl

/-- Growth with new behaviours keeps ownership when these find what they need and release
nothing. -/
theorem Owned.grows {ids : ℤ → Prop} (h : Owned ⟨f, pre ++ .inode q :: post, rs⟩)
    (hinv : FileInv ⟨f, pre ++ .inode q :: post, rs⟩) (hg : File.Grows ids f f')
    (hneeds : ∀ v : FileCown → Option Buffer,
      (∀ (k : ℤ) (a : ℕ), f'.inode.dataBlocks[k]? = some a → v (.block a) ≠ none) →
      AtTurn FileTask.update NeedsBuf spawned v)
    (hkeep : ∀ (k : ℤ) (a : ℕ), f'.inode.dataBlocks[k]? = some a → ∀ v, v ≠ none →
      replay FileTask.update spawned (.block a) v ≠ none) :
    Owned ⟨f', pre ++ post ++ spawned, rs'⟩ := by
  have hvirtual : ∀ (k : ℤ) (a : ℕ), f'.inode.dataBlocks[k]? = some a →
      replay FileTask.update (pre ++ post) (.block a) (f'.bufOf a) ≠ none := by
    intro k a hk
    have heq : virtualBuf ⟨f', pre ++ post ++ [], rs⟩ a = _ :=
      virtualBuf_grows hinv hg (fun t => mem_drop_inode) replay_drop_inode hk
    simp only [virtualBuf, List.append_nil, replay_nil] at heq
    rw [heq]
    split
    · next hold => exact h.blocks k a hold
    · simp
  constructor
  · intro k a hk
    simp only [virtualBuf]
    rw [replay_append]
    exact hkeep k a hk _ (hvirtual k a hk)
  · refine atTurn_append.mpr
      ⟨atTurn_drop needsBuf_local h.turns hinv fun a ha => ?_, hneeds _ hvirtual⟩
    rw [hg.bufOf, if_pos ha]

/-- Writing into a block keeps its buffer. -/
theorem Wrapper.update_ne_none (w : Wrapper) (k : FileCown) {v : Option Buffer} (hv : v ≠ none) :
    w.update k v ≠ none := by
  unfold Wrapper.update
  split
  · simpa using hv
  · exact hv

/-- A request keeps ownership under its condition. -/
theorem Owned.requestStep {e : Effect File FileTask Reply}
    (h : Owned ⟨f, pre ++ .inode q :: post, rs⟩) (hinv : FileInv ⟨f, pre ++ .inode q :: post, rs⟩)
    (hstep : File.RequestStep q f e) (hcond : f.KeepsBlocks q) :
    Owned ⟨e.state, pre ++ post ++ e.spawned, rs'⟩ := by
  have hnil : ∀ {ids : ℤ → Prop} {f' : File}, File.Grows ids f f' →
      Owned ⟨f', pre ++ post ++ [], rs'⟩ := fun hg =>
    h.grows hinv hg (fun _ _ => trivial) (fun _ _ _ _ hv => hv)
  cases hstep with
  | write w =>
    refine h.grows hinv (f.write_grows w) ?_ ?_
    · intro v hv
      rcases f.write_tasks w with ht | ⟨u, k, ht, -, hk⟩ | ⟨u₀, u₁, k, ht, -, -, hk₀, hk₁⟩
      · rw [ht]
        trivial
      · rw [ht]
        exact ⟨hv _ _ hk, trivial⟩
      · rw [ht]
        exact ⟨⟨hv _ _ hk₀, hv _ _ hk₁⟩, trivial⟩
    · intro k a _ v hv
      rcases f.write_tasks w with ht | ⟨u, k, ht, -⟩ | ⟨u₀, u₁, k, ht, -⟩
      · rwa [ht]
      · rw [ht]
        exact u.update_ne_none _ hv
      · rw [ht]
        exact u₁.update_ne_none _ (u₀.update_ne_none _ hv)
  | read r =>
    have hupdate : ∀ t ∈ (f.read r).spawned, ∀ k v, FileTask.update t k v = v := by
      intro t ht k v
      obtain ⟨a, k', p, rfl, -⟩ := File.read_spawned ht
      rfl
    obtain ⟨hinode, hblocks⟩ := f.read_inode r
    have hbuf : ∀ a, (f.read r).state.bufOf a = f.bufOf a := fun a => by
      simp only [File.bufOf, hblocks]
    have hvirtual : ∀ (k : ℤ) (a : ℕ), f.inode.dataBlocks[k]? = some a →
        replay FileTask.update (pre ++ post) (.block a) (f.bufOf a) ≠ none := by
      intro k a hk
      rw [replay_drop_inode]
      exact h.blocks k a hk
    constructor
    · intro k a hk
      rw [hinode] at hk
      simp only [virtualBuf]
      rw [replay_append, replay_eq_self (fun t ht => hupdate t ht _), hbuf]
      exact hvirtual k a hk
    · refine atTurn_append.mpr ⟨atTurn_drop needsBuf_local h.turns hinv fun a _ => hbuf a, ?_⟩
      refine atTurn_of_const hupdate fun t ht => ?_
      obtain ⟨a, k, p, rfl, hk, -⟩ := File.read_spawned ht
      simp only [NeedsBuf, File.bufs, hbuf]
      exact hvirtual k a hk
  | truncate n hq ht =>
    cases ht with
    | same hd => exact hnil (hd.grows fun _ => True)
    | clear _ _ hmap hblocks =>
      constructor
      · simp [hmap]
      · refine atTurn_append.mpr ⟨atTurn_drop needsBuf_local h.turns hinv fun a _ => ?_, ?_⟩
        · simp only [File.bufOf, hblocks]
        · refine atTurn_of_forall (fun t ht' v => ?_) _
          obtain ⟨e, -, rfl⟩ := List.mem_map.mp ht'
          trivial
    | shrink hn hlt hd =>
      have hempty : StdMap.afterKey f.inode.dataBlocks (n.tdiv BLOCK_SIZE) = [] := by
        refine List.eq_nil_iff_forall_not_mem.mpr ?_
        rintro ⟨k, a⟩ hmem
        obtain ⟨hlt', hk⟩ := StdMap.mem_afterKey.mp hmem
        exact absurd (hcond n hq hn hlt k a hk) (not_le.mpr hlt')
      rw [hempty]
      exact hnil (hd.grows fun _ => True)
    | extend _ hg => exact hnil hg
  | reserve hg => exact hnil hg
  | keep _ hd => exact hnil (hd.grows fun _ => True)

end Inode

/-! ## Nothing fails -/

/-- A cown of an existing block can be acquired. -/
theorem File.getBlock_ok {f : File} {a : ℕ} (ha : a < f.blocks.length) :
    ∃ blk, f.getBlock a = .ok blk ∧ blk.buf = f.bufOf a := by
  refine ⟨f.blocks[a], ?_, ?_⟩
  · simp [File.getBlock, ha]
  · simp [File.bufOf, ha]

/-- A piece that fits can be written into a block that owns its buffer. -/
theorem Wrapper.apply_ok {w : Wrapper} {blk : Block} (hfits : w.Fits) (hbuf : blk.buf ≠ none) :
    ∃ blk', w.apply blk = .ok blk' := by
  obtain ⟨b, hb⟩ := Option.ne_none_iff_exists'.mp hbuf
  unfold Wrapper.apply Block.write
  rw [hb]
  exact ⟨_, if_pos hfits⟩

/-- What a copy out of a block that owns its buffer yields. -/
theorem Block.read_eq {blk : Block} {b : Buffer} (hb : blk.buf = some b) (data : ℕ → UInt8)
    {bytesToRead blockOffset : ℕ} (hfit : blockOffset + bytesToRead ≤ BLOCK_SIZE)
    (bytesRead : ℕ) :
    blk.read data bytesToRead blockOffset bytesRead = .ok fun j =>
      if bytesRead ≤ j ∧ j < bytesRead + bytesToRead then
        if h : blockOffset + (j - bytesRead) < BLOCK_SIZE then b ⟨_, h⟩ else 0
      else data j := by
  unfold Block.read
  rw [hb]
  exact if_pos hfit

/-- The body of a copy out of a block. -/
theorem File.body_readBlock {f : File} {a : ℕ} {p : ReadPart} {blk : Block} {rb : ReadBuf}
    {bytes : ℕ → UInt8} (hget : f.getBlock a = .ok blk) (hrb : f.reads[p.counter]? = some rb)
    (hread : blk.read rb.bytes p.bytesToRead p.blockOffset p.bytesRead = .ok bytes) :
    File.body (.readBlock a p) f =
      .ok ⟨{ f with reads := f.reads.set p.counter { rb with bytes := bytes } }, [.count p], []⟩ := by
  refine bind_eq_ok.mpr ⟨blk, hget, ?_⟩
  rw [hrb]
  exact bind_eq_ok.mpr ⟨bytes, hread, rfl⟩

/-- A block or counter behaviour that fits and finds the buffers it needs runs to its end. -/
theorem runs_of_needsBuf {f : File} {t : FileTask} (ht : ∀ r, t ≠ .inode r) (hfits : t.Fits f)
    (hbound : ∀ a, FileCown.block a ∈ t.cowns → a < f.blocks.length) (hneeds : NeedsBuf t f.bufs) :
    ∃ e, fileSystem.Runs t f e := by
  suffices h : ∃ e, File.body t f = .ok e by
    obtain ⟨e, he⟩ := h
    refine ⟨e, he, fun t' ht' => ?_⟩
    obtain ⟨a, p, -, rfl⟩ := (File.body_blockStep ht he).spawned t' ht'
    exact List.nodup_singleton _
  cases t with
  | inode r => exact absurd rfl (ht r)
  | writeOne w =>
    obtain ⟨blk, hget, hbuf⟩ := File.getBlock_ok (hbound w.ptr (by simp [FileTask.cowns]))
    have hbuf' : blk.buf ≠ none := by
      rw [hbuf]
      exact hneeds
    obtain ⟨blk', happly⟩ := w.apply_ok hfits hbuf'
    exact ⟨_, bind_eq_ok.mpr ⟨_, hget, bind_eq_ok.mpr ⟨_, happly, rfl⟩⟩⟩
  | writeTwo w₀ w₁ =>
    obtain ⟨blk₀, hget₀, hbuf₀⟩ := File.getBlock_ok (hbound w₀.ptr (by simp [FileTask.cowns]))
    have hbuf₀' : blk₀.buf ≠ none := by
      rw [hbuf₀]
      exact hneeds.1
    obtain ⟨blk₀', happly₀⟩ := w₀.apply_ok hfits.1 hbuf₀'
    have hlt₁ : w₁.ptr < (f.setBlock w₀.ptr blk₀').blocks.length := by
      simpa [File.setBlock] using hbound w₁.ptr (by simp [FileTask.cowns])
    obtain ⟨blk₁, hget₁, hbuf₁⟩ := File.getBlock_ok hlt₁
    have hbuf₁' : blk₁.buf ≠ none := by
      rw [hbuf₁, File.setBlock_apply hget₀ happly₀]
      exact w₀.update_ne_none _ hneeds.2
    obtain ⟨blk₁', happly₁⟩ := w₁.apply_ok hfits.2 hbuf₁'
    exact ⟨_, bind_eq_ok.mpr ⟨_, hget₀, bind_eq_ok.mpr ⟨_, happly₀, bind_eq_ok.mpr
      ⟨_, hget₁, bind_eq_ok.mpr ⟨_, happly₁, rfl⟩⟩⟩⟩⟩
  | readBlock a p =>
    obtain ⟨blk, hget, hbuf⟩ := File.getBlock_ok (hbound a (by simp [FileTask.cowns]))
    have hbuf' : blk.buf ≠ none := by
      rw [hbuf]
      exact hneeds
    obtain ⟨b, hb⟩ := Option.ne_none_iff_exists'.mp hbuf'
    have hlt : p.counter < f.reads.length := hfits.2
    have hrb : f.reads[p.counter]? = some f.reads[p.counter] := List.getElem?_eq_getElem hlt
    exact ⟨_, File.body_readBlock hget hrb (Block.read_eq hb _ hfits.1 p.bytesRead)⟩
  | count p =>
    have hlt : p.counter < f.reads.length := hfits
    have hrb : f.reads[p.counter]? = some f.reads[p.counter] := List.getElem?_eq_getElem hlt
    simp only [File.body, File.countRead, hrb]
    split_ifs <;> exact ⟨_, rfl⟩
  | freeSpace a =>
    obtain ⟨blk, hget, -⟩ := File.getBlock_ok (hbound a (by simp [FileTask.cowns]))
    exact ⟨_, bind_eq_ok.mpr ⟨_, hget, rfl⟩⟩

/-- No behaviour of a block or a counter fails in a configuration that owns its buffers: whichever
can run next runs to its end. -/
theorem Owned.runs {c : FileConfig} (h : Owned c) (hinv : FileInv c) {pre post : List FileTask}
    {t : FileTask} (hp : c.pending = pre ++ t :: post) (ht : ∀ r, t ≠ .inode r)
    (hfree : fileSystem.FreeOf pre t) : ∃ e, fileSystem.Runs t c.state e := by
  have hmem : t ∈ c.pending := by simp [hp]
  have hturns := h.turns
  rw [hp] at hturns
  exact runs_of_needsBuf ht (hinv.fits t hmem) (hinv.bounded t hmem)
    (atTurn_enabled FileTask.localUpdate needsBuf_local hfree hturns)

/-- Reads and writes are scheduled. -/
theorem FileRequest.IsData.not_denied {q : FileRequest} (h : q.IsData) : q.denied = false := by
  cases q <;> first | rfl | exact absurd h id

/-- Reads and writes keep all blocks. -/
theorem FileRequest.IsData.keepsBlocks {q : FileRequest} (h : q.IsData) (f : File) :
    f.KeepsBlocks q := by
  intro n hn
  cases q <;> first | cases hn | exact absurd h id

/-- The behaviour of a request runs to its end when its body does not fail. -/
theorem File.runs_inode {f : File} (hwf : f.WF) {q : FileRequest} {e : Effect File FileTask Reply}
    (h : f.inodeBody q = .ok e) : fileSystem.Runs (.inode q) f e := by
  refine ⟨h, fun t ht => ?_⟩
  rcases (File.inodeBody_requestStep h).spawned hwf ht with ⟨u, rfl⟩ | ⟨u₀, u₁, rfl, hne⟩ |
    ⟨a, p, rfl⟩ | ⟨a, rfl⟩
  · exact List.nodup_singleton _
  · simp [fileSystem, FileTask.cowns, hne]
  · exact List.nodup_singleton _
  · exact List.nodup_singleton _

/-- Reads and writes run to their end. -/
theorem FileRequest.IsData.runs {q : FileRequest} (h : q.IsData) {f : File} (hwf : f.WF) :
    ∃ e, fileSystem.Runs (.inode q) f e := by
  cases q with
  | write w => exact ⟨_, f.runs_inode hwf rfl⟩
  | read r => exact ⟨_, f.runs_inode hwf rfl⟩
  | _ => exact absurd h id

/-- The dispatcher schedules a read or a write. -/
theorem FileRequest.IsData.step {q : FileRequest} (h : q.IsData) (f : File)
    (pending : List FileTask) (rs : List Reply) :
    fileSystem.Step ⟨f, pending, rs⟩ (.request q) ⟨f, pending ++ [.inode q], rs⟩ := by
  have hhandles := f.handles q
  rw [f.handleRequest_of_not_denied h.not_denied] at hhandles
  have hstep : fileSystem.Step ⟨f, pending, rs⟩ (.request q) ⟨f, pending ++ [.inode q], rs ++ []⟩ :=
    .request hhandles
  simpa using hstep

/-- The invariant of runs that only read and write. -/
structure DataInv (c : FileConfig) : Prop extends FileInv c, Owned c where
  /-- Only reads and writes are pending. -/
  data : ∀ q ∈ pendingRequests c.pending, q.IsData

/-- A step of the system keeps the invariant when it requests at most a read or a write. -/
theorem DataInv.step {c c' : FileConfig} {l : Label FileRequest FileTask} (h : DataInv c)
    (hstep : fileSystem.Step c l c') (hl : ∀ q, l = .request q → q.IsData) : DataInv c' := by
  have hinv : FileInv c' := h.toFileInv.run (.snoc .nil hstep)
  cases fileStep_of_step hstep with
  | request f pending rs q =>
    have hq := hl q rfl
    refine ⟨hinv, ⟨fun k a hk => ?_, atTurn_append.mpr ⟨h.turns, ?_⟩⟩, fun r hr => ?_⟩
    · simp only [virtualBuf, hq.not_denied, Bool.false_eq_true, if_false, replay_append]
      exact h.blocks k a hk
    · simp only [hq.not_denied, Bool.false_eq_true, if_false]
      exact ⟨trivial, trivial⟩
    · simp only [hq.not_denied, Bool.false_eq_true, if_false, pendingRequests_append,
        List.mem_append, mem_pendingRequests, List.mem_singleton, FileTask.inode.injEq] at hr
      rcases hr with hr | rfl
      · exact h.data r (mem_pendingRequests.mpr hr)
      · exact hq
  | @inode f pre post rs q e hpre hreq =>
    have hq : q.IsData := h.data q (mem_pendingRequests.mpr (by simp))
    refine ⟨hinv, h.toOwned.requestStep h.toFileInv hreq (hq.keepsBlocks f), fun r hr => ?_⟩
    rw [pendingRequests_append, hreq.pendingRequests_spawned, List.append_nil,
      mem_pendingRequests] at hr
    exact h.data r (mem_pendingRequests.mpr (mem_drop_inode hr))
  | @block f pre post rs t e ht hfree hbody hblock =>
    refine ⟨hinv, h.toOwned.blockStep hfree hblock, fun r hr => ?_⟩
    rcases List.mem_append.mp (mem_pendingRequests.mp hr) with hr | hr
    · refine h.data r (mem_pendingRequests.mpr ?_)
      rcases List.mem_append.mp hr with hr | hr <;> simp [hr]
    · obtain ⟨a, p, -, heq⟩ := hblock.spawned _ hr
      cases heq

/-- A run that only requests reads and writes keeps the invariant. -/
theorem DataInv.run {c₀ c : FileConfig} {tr : FileTrace} (hrun : fileSystem.Run c₀ tr c)
    (h₀ : DataInv c₀) (hdata : ∀ q ∈ requested tr, q.IsData) : DataInv c := by
  induction hrun with
  | nil => exact h₀
  | @snoc tr c c' l hrun hstep ih =>
    simp only [requested, List.filterMap_append, List.mem_append] at hdata
    refine (ih fun q hq => hdata q (.inl hq)).step hstep fun q hl => ?_
    exact hdata q (.inr (by simp [hl]))

/-- Every execution of pending reads and writes ends, and it ends with nothing pending. -/
theorem DataInv.exists_settles {c : FileConfig} (h : DataInv c) :
    (∃ c', fileSystem.Settles c c') ∧ ∀ c', fileSystem.Settles c c' → c'.pending = [] := by
  constructor
  · exact System.exists_settles FileTask.rank (fun _ _ _ hbody _ => FileTask.rank_lt hbody) c
  · intro c' hc'
    have h' : DataInv c' := hc'.invariant (fun c₁ c₂ h₁ ⟨b, hstep⟩ =>
      h₁.step hstep fun q hq => by cases hq) h
    cases hp : c'.pending with
    | nil => rfl
    | cons t post =>
      exfalso
      by_cases ht : ∃ q, t = .inode q
      · obtain ⟨q, rfl⟩ := ht
        have hq : q.IsData := h'.data q (mem_pendingRequests.mpr (by simp [hp]))
        obtain ⟨e, he⟩ := hq.runs h'.wf
        exact hc'.head_stuck hp e he
      · simp only [not_exists] at ht
        have hp' : c'.pending = [] ++ t :: post := hp
        obtain ⟨e, he⟩ := h'.toOwned.runs h'.toFileInv hp' ht (by simp [System.FreeOf])
        exact hc'.head_stuck hp e he

end VeronaFs
