import VeronaFs.FileSystem.ReadParts

/-!
# Reads among reads and writes

A read takes its place in the order of the requests when it runs on the inode: its parts are then
scheduled on the blocks behind all earlier writes and before all later ones.  `ReadInv` follows the
parts through the rest of the run: each still finds the bytes of that moment at its turn, the count
and the bytes to be counted add up to the length, and the reply is sent when the last part is
counted.
-/

namespace VeronaFs

open Boc Foundation

/-- The replies to a request. -/
def repliesFor (req : ℕ) (rs : List Reply) : List Reply := rs.filter fun x => x.req = req

/-- The replies to a request in two lists. -/
@[simp] theorem repliesFor_append (req : ℕ) (rs rs' : List Reply) :
    repliesFor req (rs ++ rs') = repliesFor req rs ++ repliesFor req rs' := List.filter_append ..

/-- Replies to other requests. -/
theorem repliesFor_eq_nil {req : ℕ} {rs : List Reply} (h : ∀ x ∈ rs, x.req ≠ req) :
    repliesFor req rs = [] := by
  simpa [repliesFor] using h

/-- The reply of a read is for its request. -/
@[simp] theorem readReply_req (req total : ℕ) (bytes : ℕ → UInt8) :
    (readReply req total bytes).req = req := by
  unfold readReply
  split <;> rfl

/-! ## The invariant of a read -/

/-- The behaviour copies the byte `i` of the read `req`. -/
def FileTask.Copies (req i : ℕ) (t : FileTask) : Prop :=
  ∃ a p, t = .readBlock a p ∧ p.req = req ∧ p.bytesRead ≤ i ∧ i < p.bytesRead + p.bytesToRead

/-- A part of the read `req` finds the bytes `V` in its block. -/
def FindsBytes (req : ℕ) (V : ℕ → UInt8) (t : FileTask) (v : FileCown → Option Buffer) : Prop :=
  ∀ a p, t = .readBlock a p → p.req = req → ∃ b, v (.block a) = some b ∧
    ∀ j < p.bytesToRead, ∀ h : p.blockOffset + j < BLOCK_SIZE,
      b ⟨p.blockOffset + j, h⟩ = V (p.bytesRead + j)

/-- What a part finds is in its own block. -/
theorem findsBytes_local (req : ℕ) (V : ℕ → UInt8) :
    LocalProp FileTask.cowns (FindsBytes req V) := by
  rintro t v v' heq h a p rfl hreq
  rw [← heq _ (by simp [FileTask.cowns])]
  exact h a p rfl hreq

/-- A behaviour that copies no byte of the read has nothing to find. -/
theorem findsBytes_of_ne {req : ℕ} {V : ℕ → UInt8} {t : FileTask}
    (h : ∀ p, t.part? = some p → p.req ≠ req) (v : FileCown → Option Buffer) :
    FindsBytes req V t v := by
  rintro a p rfl hreq
  exact absurd hreq (h p rfl)

/-- The read `req` of `total` bytes with the buffer and counter `c` is under way: it will copy the
bytes `V`. -/
structure ReadInv (req c total : ℕ) (V : ℕ → UInt8) (cfg : FileConfig) : Prop where
  /-- The parts of the read are those with its counter. -/
  parts : ∀ t ∈ cfg.pending, ∀ p, t.part? = some p → (p.req = req ↔ p.counter = c) ∧
    (p.req = req → p.total = total ∧ 0 < p.bytesToRead)
  /-- No request with the number of the read is pending. -/
  requests : ∀ q, .inode q ∈ cfg.pending → q.req ≠ req
  /-- The parts find the bytes at their turn. -/
  finds : AtTurn FileTask.update (FindsBytes req V) cfg.pending cfg.state.bufs
  /-- The count and the pending bytes add up, the bytes that are not to be copied any more are in
  the buffer, and the reply was sent when everything was counted. -/
  buffer : ∃ rb, cfg.state.reads[c]? = some rb ∧
    rb.count + pendingBytes req cfg.pending = total ∧
    (∀ i < total, (∀ t ∈ cfg.pending, ¬ t.Copies req i) → rb.bytes i = V i) ∧
    repliesFor req cfg.replies = if rb.count = total then [readReply req total V] else []

section Steps

variable {req c total : ℕ} {V : ℕ → UInt8} {f : File} {pre post : List FileTask} {rs : List Reply}

/-- A request that the dispatcher schedules does not touch a read that is under way. -/
theorem ReadInv.request {pending : List FileTask} {q : FileRequest}
    (h : ReadInv req c total V ⟨f, pending, rs⟩) (hq : q.req ≠ req) :
    ReadInv req c total V ⟨f, pending ++ [.inode q], rs⟩ where
  parts t ht p hp := by
    rcases List.mem_append.mp ht with ht | ht
    · exact h.parts t ht p hp
    · rw [List.mem_singleton.mp ht] at hp
      cases hp
  requests q' hq' := by
    rcases List.mem_append.mp hq' with hq' | hq'
    · exact h.requests q' hq'
    · rw [FileTask.inode.inj (List.mem_singleton.mp hq')]
      exact hq
  finds := by
    refine atTurn_append.mpr ⟨h.finds, findsBytes_of_ne (fun p hp => ?_) _, trivial⟩
    cases hp
  buffer := by
    obtain ⟨rb, hrb, hsum, hbytes, hreply⟩ := h.buffer
    have hzero : pendingBytes req [FileTask.inode q] = 0 := rfl
    refine ⟨rb, hrb, by rw [pendingBytes_append, hzero, add_zero, hsum], fun i hi hcopy => ?_,
      hreply⟩
    exact hbytes i hi fun t ht => hcopy t (List.mem_append_left _ ht)

/-- A request that runs on the inode does not touch a read that is under way, when it has another
number and another counter. -/
theorem ReadInv.inode {q : FileRequest} {e : Effect File FileTask Reply}
    (h : ReadInv req c total V ⟨f, pre ++ .inode q :: post, rs⟩)
    (hinv : FileInv ⟨f, pre ++ .inode q :: post, rs⟩)
    (hbufs : ∀ a, a < f.blocks.length → e.state.bufOf a = f.bufOf a)
    (hreads : e.state.reads[c]? = f.reads[c]?)
    (hspawned : ∀ t ∈ e.spawned, (∀ r, t ≠ .inode r) ∧
      ∀ p, t.part? = some p → p.req ≠ req ∧ p.counter ≠ c)
    (hreplies : ∀ x ∈ e.replies, x.req ≠ req) :
    ReadInv req c total V ⟨e.state, pre ++ post ++ e.spawned, rs ++ e.replies⟩ where
  parts t ht p hp := by
    rcases List.mem_append.mp ht with ht | ht
    · exact h.parts t (mem_drop_inode ht) p hp
    · obtain ⟨h₁, h₂⟩ := (hspawned t ht).2 p hp
      exact ⟨iff_of_false h₁ h₂, fun hreq => absurd hreq h₁⟩
  requests q' hq' := by
    rcases List.mem_append.mp hq' with hq' | hq'
    · exact h.requests q' (mem_drop_inode hq')
    · exact absurd rfl ((hspawned _ hq').1 q')
  finds := by
    refine atTurn_append.mpr ⟨atTurn_drop (findsBytes_local req V) h.finds hinv hbufs, ?_⟩
    exact atTurn_of_forall (fun t ht v =>
      findsBytes_of_ne (fun p hp => ((hspawned t ht).2 p hp).1) v) _
  buffer := by
    obtain ⟨rb, hrb, hsum, hbytes, hreply⟩ := h.buffer
    have hzero : pendingBytes req e.spawned = 0 :=
      pendingBytes_eq_zero fun t ht p hp => ((hspawned t ht).2 p hp).1
    have hself : FileTask.bytesOf req (.inode q) = 0 := rfl
    refine ⟨rb, hreads.trans hrb, ?_, fun i hi hcopy => hbytes i hi fun t ht => ?_, ?_⟩
    · simp only [pendingBytes_append, pendingBytes_cons, hself, hzero] at hsum ⊢
      omega
    · rintro ⟨a, p, rfl, hp⟩
      refine hcopy (.readBlock a p) (List.mem_append_left _ ?_) ⟨a, p, rfl, hp⟩
      simp only [List.mem_append, List.mem_cons, reduceCtorEq, false_or] at ht ⊢
      exact ht
    · simp only [repliesFor_append, repliesFor_eq_nil hreplies, List.append_nil]
      exact hreply

/-- A block or counter behaviour keeps the invariant of a read. -/
theorem ReadInv.block {t : FileTask} {e : Effect File FileTask Reply}
    (h : ReadInv req c total V ⟨f, pre ++ t :: post, rs⟩)
    (hinv : FileInv ⟨f, pre ++ t :: post, rs⟩) (hfree : fileSystem.FreeOf pre t)
    (hblock : File.BlockStep t f e) (hstep : ReadsStep t f e) :
    ReadInv req c total V ⟨e.state, pre ++ post ++ e.spawned, rs ++ e.replies⟩ := by
  have hmem : ∀ t' ∈ pre ++ post, t' ∈ pre ++ t :: post := fun t' ht' => by
    rcases List.mem_append.mp ht' with ht' | ht' <;> simp [ht']
  have hself : t ∈ pre ++ t :: post := by simp
  have hfinds : FindsBytes req V t f.bufs :=
    atTurn_enabled FileTask.localUpdate (findsBytes_local req V) hfree h.finds
  have hcount : ∀ t' ∈ e.spawned, ∃ p, t' = .count p ∧ t.part? = some p := by
    intro t' ht'
    obtain ⟨a, p, rfl, rfl⟩ := hblock.spawned t' ht'
    exact ⟨p, rfl, rfl⟩
  refine ⟨fun t' ht' p hp => ?_, fun q hq => ?_, atTurn_append.mpr ⟨?_, ?_⟩, ?_⟩
  · rcases List.mem_append.mp ht' with ht' | ht'
    · exact h.parts t' (hmem t' ht') p hp
    · obtain ⟨p', rfl, hp'⟩ := hcount t' ht'
      obtain rfl : p' = p := Option.some.inj hp
      exact h.parts t hself p' hp'
  · rcases List.mem_append.mp hq with hq | hq
    · exact h.requests q (hmem _ hq)
    · obtain ⟨p, heq, -⟩ := hcount _ hq
      cases heq
  · rw [hblock.bufs_eq]
    exact atTurn_run FileTask.localUpdate (findsBytes_local req V) hfree h.finds
  · refine atTurn_of_forall (fun t' ht' v => ?_) _
    obtain ⟨p, rfl, -⟩ := hcount t' ht'
    rintro a p' heq
    cases heq
  obtain ⟨rb, hrb, hsum, hbytes, hreply⟩ := h.buffer
  simp only [pendingBytes_append, pendingBytes_cons] at hsum
  cases hstep with
  | other ht hreads hspawned hreplies =>
    have hzero : t.bytesOf req = 0 := by simp [FileTask.bytesOf, ht]
    refine ⟨rb, by rw [hreads]; exact hrb, ?_, fun i hi hcopy => hbytes i hi fun t' ht' => ?_, ?_⟩
    · simp only [hspawned, List.append_nil, pendingBytes_append]
      omega
    · rw [List.append_cons, List.append_assoc, List.mem_append, List.mem_append,
        List.mem_singleton] at ht'
      rcases ht' with ht' | rfl | ht'
      · exact hcopy t' (by simp [ht'])
      · rintro ⟨a, p, rfl, -⟩
        cases ht
      · exact hcopy t' (by simp [ht'])
    · simp only [hreplies, List.append_nil]
      exact hreply
  | @copy a p _ _ rb' b hrb' hb hreads hspawned hreplies =>
    obtain ⟨hiff, hof⟩ := h.parts _ hself p rfl
    have hbytesOf : FileTask.bytesOf req (.readBlock a p) = FileTask.bytesOf req (.count p) := rfl
    have hsum' : ∀ n, n + pendingBytes req (pre ++ .readBlock a p :: post) = total →
        n + pendingBytes req (pre ++ post ++ e.spawned) = total := by
      intro n hn
      simp only [hspawned, pendingBytes_append, pendingBytes_cons, hbytesOf] at hn ⊢
      simp only [pendingBytes, List.map_nil, List.sum_nil] at hn ⊢
      omega
    by_cases hreq : p.req = req
    · obtain rfl := hiff.mp hreq
      obtain rfl : rb' = rb := Option.some.inj (hrb'.symm.trans hrb)
      have hlt := (List.getElem?_eq_some_iff.mp hrb).1
      have hfits : p.blockOffset + p.bytesToRead ≤ BLOCK_SIZE := (hinv.fits _ hself).1
      obtain ⟨b', hb', hV⟩ := hfinds a p rfl hreq
      obtain rfl : b' = b := Option.some.inj (hb'.symm.trans hb)
      refine ⟨rb'.copy b' p, ?_, ?_, fun i hi hcopy => ?_, ?_⟩
      · rw [hreads, List.getElem?_set_self hlt]
      · exact hsum' rb'.count (by simp only [pendingBytes_append, pendingBytes_cons]; exact hsum)
      · simp only [ReadBuf.copy]
        split
        · next hi' =>
          rw [dif_pos (by omega), hV (i - p.bytesRead) (by omega) (by omega)]
          congr 1
          omega
        · next hi' =>
          refine hbytes i hi fun t' ht' => ?_
          rw [List.append_cons, List.append_assoc, List.mem_append, List.mem_append,
            List.mem_singleton] at ht'
          rcases ht' with ht' | rfl | ht'
          · exact hcopy t' (by simp [ht'])
          · rintro ⟨a', p', heq, -, h₁, h₂⟩
            obtain ⟨rfl, rfl⟩ := FileTask.readBlock.inj heq
            exact hi' ⟨h₁, h₂⟩
          · exact hcopy t' (by simp [ht'])
      · simp only [hreplies, List.append_nil]
        exact hreply
    · have hc : p.counter ≠ c := fun hc => hreq (hiff.mpr hc)
      refine ⟨rb, ?_, hsum' rb.count (by simp only [pendingBytes_append, pendingBytes_cons]; exact hsum),
        fun i hi hcopy => hbytes i hi fun t' ht' => ?_, ?_⟩
      · rw [hreads, List.getElem?_set_ne hc]
        exact hrb
      · rw [List.append_cons, List.append_assoc, List.mem_append, List.mem_append,
          List.mem_singleton] at ht'
        rcases ht' with ht' | rfl | ht'
        · exact hcopy t' (by simp [ht'])
        · rintro ⟨a', p', heq, hreq', -⟩
          obtain ⟨rfl, rfl⟩ := FileTask.readBlock.inj heq
          exact hreq hreq'
        · exact hcopy t' (by simp [ht'])
      · simp only [hreplies, List.append_nil]
        exact hreply
  | @count p _ _ rb' hrb' hreads hspawned hreplies =>
    obtain ⟨hiff, hof⟩ := h.parts _ hself p rfl
    have hcopies : ∀ i, (∀ t ∈ pre ++ post ++ e.spawned, ¬ t.Copies req i) →
        ∀ t ∈ pre ++ .count p :: post, ¬ t.Copies req i := by
      intro i hcopy t' ht'
      rw [List.append_cons, List.append_assoc, List.mem_append, List.mem_append,
        List.mem_singleton] at ht'
      rcases ht' with ht' | rfl | ht'
      · exact hcopy t' (by simp [ht'])
      · rintro ⟨a', p', heq, -⟩
        cases heq
      · exact hcopy t' (by simp [ht'])
    by_cases hreq : p.req = req
    · obtain rfl := hiff.mp hreq
      obtain rfl : rb' = rb := Option.some.inj (hrb'.symm.trans hrb)
      obtain ⟨htotal, hpos⟩ := hof hreq
      have hlt := (List.getElem?_eq_some_iff.mp hrb).1
      have hbytesOf : FileTask.bytesOf req (.count p) = p.bytesToRead := by
        simp [FileTask.bytesOf, FileTask.part?, hreq]
      refine ⟨{ rb' with count := rb'.count + p.bytesToRead }, ?_, ?_,
        fun i hi hcopy => hbytes i hi (hcopies i hcopy), ?_⟩
      · rw [hreads, List.getElem?_set_self hlt]
      · simp only [hspawned, List.append_nil, pendingBytes_append]
        omega
      · simp only [repliesFor_append, hreply, hreplies, htotal]
        rw [if_neg (by omega), List.nil_append]
        split
        · next hlast =>
          -- nothing is left to be copied, so the buffer has all its bytes
          have hdone : ∀ i < total, rb'.bytes i = V i := by
            refine fun i hi => hbytes i hi (hcopies i fun t' ht' => ?_)
            rintro ⟨a', p', rfl, hreq', h₁, h₂⟩
            rw [hspawned, List.append_nil] at ht'
            have hle := le_pendingBytes ht' rfl hreq'
            rw [pendingBytes_append] at hle
            omega
          rw [hreq, readReply_congr hdone]
          simp [repliesFor]
        · rfl
    · have hc : p.counter ≠ c := fun hc => hreq (hiff.mpr hc)
      have hbytesOf : FileTask.bytesOf req (.count p) = 0 := by
        simp [FileTask.bytesOf, FileTask.part?, hreq]
      refine ⟨rb, ?_, ?_, fun i hi hcopy => hbytes i hi (hcopies i hcopy), ?_⟩
      · rw [hreads, List.getElem?_set_ne hc]
        exact hrb
      · simp only [hspawned, List.append_nil, pendingBytes_append]
        omega
      · have hother : repliesFor req e.replies = [] := by
          refine repliesFor_eq_nil fun x hx => ?_
          rw [hreplies] at hx
          split at hx
          · rw [List.mem_singleton.mp hx, readReply_req]
            exact hreq
          · cases hx
        simp only [repliesFor_append, hother, List.append_nil]
        exact hreply

end Steps

/-! ## Which request a behaviour is for -/

/-- The request a behaviour will answer, or schedule the answer of. -/
def FileTask.req? : FileTask → Option ℕ
  | .inode q => some q.req
  | .readBlock _ p => some p.req
  | .count p => some p.req
  | _ => none

/-- A part is for the request of its read. -/
theorem FileTask.req?_of_part? {t : FileTask} {p : ReadPart} (h : t.part? = some p) :
    t.req? = some p.req := by
  cases t <;> cases h <;> rfl

/-- What a read or a write does on the inode is for its own request. -/
theorem File.RequestStep.req {q : FileRequest} {f : File} {e : Effect File FileTask Reply}
    (h : File.RequestStep q f e) (hq : q.IsData) :
    (∀ t ∈ e.spawned, t.req? = none ∨ t.req? = some q.req) ∧ ∀ x ∈ e.replies, x.req = q.req := by
  cases h with
  | write w =>
    refine ⟨fun t ht => ?_, fun x hx => by rw [List.mem_singleton.mp hx]; rfl⟩
    left
    rcases f.write_tasks w with h | ⟨u, k, h, -⟩ | ⟨u₀, u₁, k, h, -⟩
    · rw [h] at ht
      cases ht
    · rw [h] at ht
      rw [List.mem_singleton.mp ht]
      rfl
    · rw [h] at ht
      rw [List.mem_singleton.mp ht]
      rfl
  | read r =>
    constructor
    · intro t ht
      obtain ⟨a, k, p, rfl, -, hreq, -⟩ := File.read_spawned ht
      exact .inr (congrArg some hreq)
    · intro x hx
      unfold File.read at hx
      simp only at hx
      split at hx
      · rw [List.mem_singleton.mp hx]
        rfl
      · cases hx
  | truncate n hnew => cases q <;> first | cases hnew | exact absurd hq id
  | reserve => exact absurd hq id
  | keep hother => exact absurd hq hother

/-- What a block or counter behaviour does is for the request of its read. -/
theorem ReadsStep.req {t : FileTask} {f : File} {e : Effect File FileTask Reply}
    (h : ReadsStep t f e) :
    (∀ t' ∈ e.spawned, t'.req? = t.req?) ∧ ∀ x ∈ e.replies, t.req? = some x.req := by
  cases h with
  | other _ _ hspawned hreplies => simp [hspawned, hreplies]
  | copy _ _ _ hspawned hreplies => simp [hspawned, hreplies, FileTask.req?]
  | count _ _ hspawned hreplies =>
    refine ⟨by simp [hspawned], fun x hx => ?_⟩
    rw [hreplies] at hx
    split at hx
    · rw [List.mem_singleton.mp hx, readReply_req]
      rfl
    · cases hx

/-- The parts that are pending and the replies that were sent are for requests that have run on the
inode. -/
structure Attributed (qs : List FileRequest) (cfg : FileConfig) : Prop where
  /-- Pending parts are for requests that have run. -/
  pending : ∀ t ∈ cfg.pending, (∀ r, t ≠ .inode r) → ∀ n, t.req? = some n →
    n ∈ qs.map FileRequest.req
  /-- Replies are for requests that have run. -/
  replies : ∀ x ∈ cfg.replies, x.req ∈ qs.map FileRequest.req

/-- A run of reads and writes keeps the attribution. -/
theorem Attributed.run {f₀ : File} {tr : FileTrace} {cfg : FileConfig}
    (hrun : fileSystem.Run ⟨f₀, [], []⟩ tr cfg) (h₀ : DataInv ⟨f₀, [], []⟩)
    (hdata : ∀ q ∈ requested tr, q.IsData) : Attributed (inodeRuns tr) cfg := by
  induction hrun with
  | nil => exact ⟨by simp, by simp⟩
  | @snoc tr c c' l hrun hstep ih =>
    have hdata' : ∀ q ∈ requested tr, q.IsData := fun q hq =>
      hdata q (by simp only [requested, List.filterMap_append, List.mem_append]; exact .inl hq)
    have hinv := h₀.run hrun hdata'
    replace ih := ih hdata'
    cases fileStep_of_step hstep with
    | request f pending rs q =>
      have hq : q.IsData := hdata q (by simp [requested])
      have hruns : inodeRuns (tr ++ [.request q]) = inodeRuns tr := by simp [inodeRuns]
      have hnil : (f.handleRequest q).replies = [] := by
        rw [f.handleRequest_of_not_denied hq.not_denied]
      rw [hruns]
      refine ⟨fun t ht hne => ?_, by simpa [hnil] using ih.replies⟩
      rcases List.mem_append.mp ht with ht | ht
      · exact ih.pending t ht hne
      · rw [hq.not_denied] at ht
        exact absurd (List.mem_singleton.mp ht) (hne q)
    | @inode f pre post rs q e hpre hreq =>
      have hq : q.IsData := hinv.data q (mem_pendingRequests.mpr (by simp))
      have hruns : inodeRuns (tr ++ [.run (.inode q)]) = inodeRuns tr ++ [q] := by simp [inodeRuns]
      obtain ⟨hspawned, hreplies⟩ := hreq.req hq
      rw [hruns]
      refine ⟨fun t ht hne n hn => ?_, fun x hx => ?_⟩
      · rw [List.map_append, List.mem_append]
        rcases List.mem_append.mp ht with ht | ht
        · exact .inl (ih.pending t (mem_drop_inode ht) hne n hn)
        · rcases hspawned t ht with h | h <;> rw [h] at hn
          · cases hn
          · right
            simpa using (Option.some.inj hn).symm
      · rw [List.map_append, List.mem_append]
        rcases List.mem_append.mp hx with hx | hx
        · exact .inl (ih.replies x hx)
        · right
          simpa using hreplies x hx
    | @block f pre post rs t e ht hfree hbody hblock =>
      obtain ⟨hspawned, hreplies⟩ := (File.body_readsStep ht hbody).req
      have hself : t ∈ pre ++ t :: post := by simp
      rw [inodeRuns_run ht]
      refine ⟨fun t' ht' hne n hn => ?_, fun x hx => ?_⟩
      · rcases List.mem_append.mp ht' with ht' | ht'
        · refine ih.pending t' ?_ hne n hn
          rcases List.mem_append.mp ht' with ht' | ht' <;> simp [ht']
        · exact ih.pending t hself ht n ((hspawned t' ht').symm.trans hn)
      · rcases List.mem_append.mp hx with hx | hx
        · exact ih.replies x hx
        · exact ih.pending t hself ht _ (hreplies x hx)

/-! ## A read from its start to the end of a run -/

/-- A step keeps the invariant of a read when it does not request anything else under its number. -/
theorem ReadInv.step {req c total : ℕ} {V : ℕ → UInt8} {cfg cfg' : FileConfig}
    {l : Label FileRequest FileTask} (h : ReadInv req c total V cfg) (hdata : DataInv cfg)
    (hstep : fileSystem.Step cfg l cfg')
    (hl : ∀ q, l = .request q → q.IsData ∧ q.req ≠ req) : ReadInv req c total V cfg' := by
  cases fileStep_of_step hstep with
  | request f pending rs q =>
    obtain ⟨hq, hne⟩ := hl q rfl
    rw [f.handleRequest_of_not_denied hq.not_denied, hq.not_denied, List.append_nil]
    exact h.request hne
  | @inode f pre post rs q e hpre hreq =>
    have hq : q.IsData := hdata.data q (mem_pendingRequests.mpr (by simp))
    have hne : q.req ≠ req := h.requests q (by simp)
    obtain ⟨hspawned, hreplies⟩ := hreq.req hq
    obtain ⟨rb, hrb, -⟩ := h.buffer
    have hlt : c < f.reads.length := (List.getElem?_eq_some_iff.mp hrb).1
    have hnot : ∀ t ∈ e.spawned, ∀ p, t.part? = some p → p.req ≠ req := by
      intro t ht p hp heq
      rcases hspawned t ht with h | h <;> rw [FileTask.req?_of_part? hp] at h
      · cases h
      · exact hne ((Option.some.inj h).symm.trans heq)
    have hinode : ∀ t ∈ e.spawned, ∀ r, t ≠ .inode r := fun t ht r heq => by
      have hmem : r ∈ pendingRequests e.spawned := mem_pendingRequests.mpr (heq ▸ ht)
      rw [hreq.pendingRequests_spawned] at hmem
      cases hmem
    cases hreq with
    | write w =>
      have hg := f.write_grows w
      refine h.inode hdata.toFileInv (fun a ha => by rw [hg.bufOf, if_pos ha])
        (by rw [hg.reads_eq]) (fun t ht => ⟨hinode t ht, fun p hp => ⟨hnot t ht p hp, ?_⟩⟩)
        fun x hx => (hreplies x hx).trans_ne hne
      exfalso
      rcases f.write_tasks w with h | ⟨u, k, h, -⟩ | ⟨u₀, u₁, k, h, -⟩
      · rw [h] at ht
        cases ht
      · rw [h] at ht
        rw [List.mem_singleton.mp ht] at hp
        cases hp
      · rw [h] at ht
        rw [List.mem_singleton.mp ht] at hp
        cases hp
    | read r =>
      obtain ⟨-, hblocks⟩ := f.read_inode r
      refine h.inode hdata.toFileInv (fun a _ => by simp only [File.bufOf, hblocks]) ?_
        (fun t ht => ⟨hinode t ht, fun p hp => ⟨hnot t ht p hp, ?_⟩⟩)
        fun x hx => (hreplies x hx).trans_ne hne
      · unfold File.read
        simp only
        split
        · rfl
        · exact List.getElem?_append_left hlt
      · obtain ⟨a, k, p', rfl, -, -, hc, -⟩ := File.read_spawned ht
        obtain rfl : p' = p := Option.some.inj hp
        omega
    | truncate n hnew => cases q <;> first | cases hnew | exact absurd hq id
    | reserve => exact absurd hq id
    | keep hother => exact absurd hq hother
  | @block f pre post rs t e ht hfree hbody hblock =>
    exact h.block hdata.toFileInv hfree hblock (File.body_readsStep ht hbody)

/-- A run keeps the invariant of a read when it does not request anything else under its number. -/
theorem ReadInv.run {req c total : ℕ} {V : ℕ → UInt8} {cfg cfg' : FileConfig} {tr : FileTrace}
    (h : ReadInv req c total V cfg) (hdata : DataInv cfg) (hrun : fileSystem.Run cfg tr cfg')
    (htr : ∀ q ∈ requested tr, q.IsData ∧ q.req ≠ req) : ReadInv req c total V cfg' := by
  induction hrun with
  | nil => exact h
  | @snoc tr c c' l hrun hstep ih =>
    simp only [requested, List.filterMap_append, List.mem_append] at htr
    refine (ih fun q hq => htr q (.inl hq)).step
      (hdata.run hrun fun q hq => (htr q (.inl hq)).1) hstep fun q hl => ?_
    exact htr q (.inr (by simp [hl]))

namespace ReadReq

/-- The position of the first byte, as a natural number. -/
def pos (r : ReadReq) : ℕ := r.off.toNat

/-- The position as an `off_t`. -/
theorem off_eq (r : ReadReq) : r.off = (r.pos : ℤ) := (Int.toNat_of_nonneg r.off_nonneg).symm

/-- The length of the in-file range of a read. -/
def inFile (r : ReadReq) (f : File) : ℕ := (min (r.size : ℤ) (f.st.stSize - r.off)).toNat

/-- A size below `2 ^ 63` is read as far as the file goes. -/
theorem readSize_eq {r : ReadReq} (h : r.size < 2 ^ 63) (f : File) :
    f.readSize r = r.inFile f := by
  unfold File.readSize inFile
  rw [cOff_of_lt (by omega) (by omega)]
  omega

/-- A size of `2 ^ 63` or more is negative as a `long`: nothing is read. -/
theorem readSize_eq_zero {r : ReadReq} (h : ¬ r.size < 2 ^ 63) (f : File) : f.readSize r = 0 := by
  have hlt := r.size_lt
  have hneg : cOff r.size < 0 := by
    unfold cOff
    rw [Int.bmod_def]
    split <;> omega
  unfold File.readSize
  omega

end ReadReq

/-- The inode behaviour of a read whose blocks exist starts the invariant of the read. -/
theorem ReadInv.start {r : ReadReq} {f : File} {pre post : List FileTask} {rs : List Reply}
    (hinv : FileInv ⟨f, pre ++ .inode (.read r) :: post, rs⟩)
    (howned : Owned ⟨f, pre ++ .inode (.read r) :: post, rs⟩) (hsize : r.size < 2 ^ 63)
    (hlen : 0 < r.inFile f)
    (hpresent : ∀ p, r.pos ≤ p → p < r.pos + r.inFile f → f.inode.dataBlocks[blockOf p]? ≠ none)
    (hother : ∀ t ∈ pre ++ post, t.req? ≠ some r.req) (hreplies : repliesFor r.req rs = []) :
    ReadInv r.req f.reads.length (r.inFile f)
      (fun i => (valueAt ⟨f, pre ++ .inode (.read r) :: post, rs⟩ (r.pos + i)).getD 0)
      ⟨(f.read r).state, pre ++ post ++ (f.read r).spawned, rs ++ (f.read r).replies⟩ := by
  have hoff := r.off_lt
  have hoff' := r.off_eq
  have hread : f.read r = ⟨{ f with reads := f.reads ++ [⟨r.heap, 0⟩] },
      File.readLoop f.inode.dataBlocks r.pos r.req f.reads.length (r.inFile f) 0 (r.inFile f), []⟩ := by
    have hne : ((r.inFile f : ℕ) : ℤ) ≠ 0 := by omega
    unfold File.read
    simp only [ReadReq.readSize_eq hsize, if_neg hne, Int.toNat_natCast, hoff']
  obtain ⟨hparts, hsum, hcov⟩ := readLoop_parts f.inode.dataBlocks r.pos r.req f.reads.length
    (r.inFile f) (r.inFile f) 0 (by unfold ReadReq.inFile; omega)
    fun q h₁ h₂ => hpresent q (by omega) (by omega)
  set loop := File.readLoop f.inode.dataBlocks r.pos r.req f.reads.length (r.inFile f) 0
    (r.inFile f) with hloop
  rw [hread]
  have hpre : ∀ t ∈ pre ++ post, ∀ p, t.part? = some p → p.req ≠ r.req ∧ p.counter ≠ f.reads.length := by
    intro t ht p hp
    refine ⟨fun heq => hother t ht (by rw [FileTask.req?_of_part? hp, heq]), ?_⟩
    have hfits := hinv.fits t (mem_drop_inode ht)
    cases t with
    | readBlock a p' =>
      obtain rfl : p' = p := Option.some.inj hp
      exact hfits.2.ne
    | count p' =>
      obtain rfl : p' = p := Option.some.inj hp
      exact (show p'.counter < f.reads.length from hfits).ne
    | _ => cases hp
  have hzero : pendingBytes r.req (pre ++ post) = 0 :=
    pendingBytes_eq_zero fun t ht p hp => (hpre t ht p hp).1
  refine ⟨fun t ht p hp => ?_, fun q hq => ?_, atTurn_append.mpr ⟨?_, ?_⟩, ⟨⟨r.heap, 0⟩, ?_, ?_,
    fun i hi hcopy => ?_, ?_⟩⟩
  · rcases List.mem_append.mp ht with ht | ht
    · obtain ⟨h₁, h₂⟩ := hpre t ht p hp
      exact ⟨iff_of_false h₁ h₂, fun heq => absurd heq h₁⟩
    · obtain ⟨a, p', rfl, hpart⟩ := hparts t ht
      obtain rfl : p' = p := Option.some.inj hp
      exact ⟨iff_of_true hpart.req_eq hpart.counter_eq, fun _ => ⟨hpart.total_eq, hpart.pos⟩⟩
  · rcases List.mem_append.mp hq with hq | hq
    · exact fun heq => hother _ hq (congrArg some heq)
    · obtain ⟨a, p, heq, -⟩ := hparts _ hq
      cases heq
  · exact atTurn_of_forall (fun t ht v => findsBytes_of_ne (fun p hp => (hpre t ht p hp).1) v) _
  · refine atTurn_of_const (fun t ht k w => ?_) fun t ht => ?_
    · obtain ⟨a, p, rfl, -⟩ := hparts t ht
      rfl
    · obtain ⟨a, p, rfl, hpart⟩ := hparts t ht
      rintro a' p' heq -
      obtain ⟨rfl, rfl⟩ := FileTask.readBlock.inj heq
      obtain ⟨b, hb⟩ := Option.ne_none_iff_exists'.mp (howned.blocks _ _ hpart.block)
      refine ⟨b, ?_, fun j hj hlt => ?_⟩
      · change replay FileTask.update (pre ++ post) (.block a) (f.bufOf a) = some b
        rw [replay_drop_inode (q := .read r)]
        exact hb
      · obtain ⟨hblk, hslot⟩ := hpart.byte hj
        have hval : valueAt ⟨f, pre ++ .inode (.read r) :: post, rs⟩ (r.pos + (p.bytesRead + j)) =
            some (b (slotOf (r.pos + (p.bytesRead + j)))) := by
          rw [valueAt_of_get? (hblk ▸ hpart.block), hb]
          rfl
        change _ = Option.getD (valueAt ⟨f, _, rs⟩ (r.pos + (p.bytesRead + j))) 0
        rw [hval, Option.getD_some]
        exact congrArg b (Fin.ext hslot.symm)
  · exact List.getElem?_concat_length
  · simp only [pendingBytes_append] at hzero ⊢
    rw [hzero, hsum]
    omega
  · obtain ⟨a, p, hp, h₁, h₂⟩ := hcov i (by omega) (by omega)
    obtain ⟨a', p', heq, hpart⟩ := hparts _ hp
    obtain ⟨rfl, rfl⟩ := FileTask.readBlock.inj heq
    exact absurd ⟨a, p, rfl, hpart.req_eq, h₁, h₂⟩ (hcopy _ (List.mem_append_right _ hp))
  · rw [if_neg (by simp only; omega), List.append_nil]
    exact hreplies

end VeronaFs
