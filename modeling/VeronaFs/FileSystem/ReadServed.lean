import VeronaFs.FileSystem.ReadRuns

/-!
# What a read is answered

A read with a non-empty range whose blocks exist is answered once, after its last part was copied,
with the bytes of the writes that ran on the inode before it (`read_served_iff`), provided that the
code's integer conversions keep its length: the size fits into a `long` and the number of bytes into
an `int`.  Otherwise the reply is another one.
-/

namespace VeronaFs

open Boc Foundation

/-! ## Requests that were answered -/

/-- The request `req` has its final replies `R` and nothing of it is pending. -/
structure Answered (req : ℕ) (R : List Reply) (cfg : FileConfig) : Prop where
  /-- Nothing of the request is pending. -/
  pending : ∀ t ∈ cfg.pending, t.req? ≠ some req
  /-- The replies. -/
  replies : repliesFor req cfg.replies = R

/-- A step keeps the replies of an answered request. -/
theorem Answered.step {req : ℕ} {R : List Reply} {cfg cfg' : FileConfig}
    {l : Label FileRequest FileTask} (h : Answered req R cfg) (hdata : DataInv cfg)
    (hstep : fileSystem.Step cfg l cfg')
    (hl : ∀ q, l = .request q → q.IsData ∧ q.req ≠ req) : Answered req R cfg' := by
  cases fileStep_of_step hstep with
  | request f pending rs q =>
    obtain ⟨hq, hne⟩ := hl q rfl
    rw [f.handleRequest_of_not_denied hq.not_denied, hq.not_denied, List.append_nil]
    refine ⟨fun t ht => ?_, h.replies⟩
    rcases List.mem_append.mp ht with ht | ht
    · exact h.pending t ht
    · rw [List.mem_singleton.mp ht]
      exact fun heq => hne (Option.some.inj heq)
  | @inode f pre post rs q e hpre hreq =>
    have hq : q.IsData := hdata.data q (mem_pendingRequests.mpr (by simp))
    have hne : FileTask.req? (.inode q) ≠ some req := h.pending _ (by simp)
    obtain ⟨hspawned, hreplies⟩ := hreq.req hq
    refine ⟨fun t ht => ?_, ?_⟩
    · rcases List.mem_append.mp ht with ht | ht
      · exact h.pending t (mem_drop_inode ht)
      · rcases hspawned t ht with heq | heq <;> rw [heq]
        · simp
        · exact hne
    · have hother : repliesFor req e.replies = [] := repliesFor_eq_nil fun x hx heq =>
        hne (congrArg some ((hreplies x hx).symm.trans heq))
      rw [repliesFor_append, hother, List.append_nil]
      exact h.replies
  | @block f pre post rs t e ht hfree hbody hblock =>
    have hne : t.req? ≠ some req := h.pending t (by simp)
    obtain ⟨hspawned, hreplies⟩ := (File.body_readsStep ht hbody).req
    refine ⟨fun t' ht' => ?_, ?_⟩
    · rcases List.mem_append.mp ht' with ht' | ht'
      · refine h.pending t' ?_
        rcases List.mem_append.mp ht' with ht' | ht' <;> simp [ht']
      · rw [hspawned t' ht']
        exact hne
    · have hother : repliesFor req e.replies = [] := repliesFor_eq_nil fun x hx heq =>
        hne (heq ▸ hreplies x hx)
      rw [repliesFor_append, hother, List.append_nil]
      exact h.replies

/-- A run keeps the replies of an answered request. -/
theorem Answered.run {req : ℕ} {R : List Reply} {cfg cfg' : FileConfig} {tr : FileTrace}
    (h : Answered req R cfg) (hdata : DataInv cfg) (hrun : fileSystem.Run cfg tr cfg')
    (htr : ∀ q ∈ requested tr, q.IsData ∧ q.req ≠ req) : Answered req R cfg' := by
  induction hrun with
  | nil => exact h
  | @snoc tr c c' l hrun hstep ih =>
    simp only [requested, List.filterMap_append, List.mem_append] at htr
    refine (ih fun q hq => htr q (.inl hq)).step
      (hdata.run hrun fun q hq => (htr q (.inl hq)).1) hstep fun q hl => ?_
    exact htr q (.inr (by simp [hl]))

/-! ## Reads that are served -/

/-- The read `req` is served with `bytes`: at most one reply is sent, it is these bytes, it comes
after the last copy, and it is there when nothing is pending. -/
structure ReadServed (req : ℕ) (bytes : List UInt8) (cfg : FileConfig) : Prop where
  /-- There is at most one reply, a buffer with the bytes. -/
  once : repliesFor req cfg.replies = [] ∨ repliesFor req cfg.replies = [.buf req bytes]
  /-- The reply comes after all copies of the read. -/
  after : repliesFor req cfg.replies ≠ [] →
    ∀ a p, FileTask.readBlock a p ∈ cfg.pending → p.req ≠ req
  /-- The reply is there in the end. -/
  done : cfg.pending = [] → repliesFor req cfg.replies = [.buf req bytes]

/-- The bytes of a read at the position of `r` in the contents `V`. -/
def ReadReq.bytesOf (r : ReadReq) (n : ℕ) (V : ℕ → UInt8) : List UInt8 :=
  (List.range n).map fun i => V (r.pos + i)

/-- The contents that the writes `ws` leave in the file `f`. -/
def File.after (f : File) (ws : List WriteReq) (p : ℕ) : UInt8 :=
  (lastByte ws p).getD ((f.storedByte p).getD 0)

/-- The reply of a read whose length fits into an `int`. -/
theorem readReply_of_lt {req total : ℕ} (h : total < 2 ^ 31) (bytes : ℕ → UInt8) :
    readReply req total bytes = .buf req ((List.range total).map bytes) := by
  unfold readReply
  rw [cInt_of_lt (by omega) (by omega), if_pos (Int.natCast_nonneg total), Int.toNat_natCast]

/-- The reply of a longer read is no buffer of its length. -/
theorem readReply_ne_of_le {req total : ℕ} (h : 2 ^ 31 ≤ total) (bytes : ℕ → UInt8)
    {bytes' : List UInt8} (hlen : bytes'.length = total) :
    readReply req total bytes ≠ .buf req bytes' := by
  intro heq
  unfold readReply at heq
  split at heq
  · have hlt := cInt_lt (total : ℤ)
    have hlen' := congrArg List.length (Reply.buf.inj heq).2
    rw [List.length_map, List.length_range, hlen] at hlen'
    omega
  · cases heq

/-- A read that is under way, or was answered, is served when its length fits into an `int`. -/
theorem ReadInv.served {req c total : ℕ} {V : ℕ → UInt8} {cfg : FileConfig}
    (h : ReadInv req c total V cfg) (htotal : total < 2 ^ 31) :
    ReadServed req ((List.range total).map V) cfg := by
  obtain ⟨rb, hrb, hsum, hbytes, hreply⟩ := h.buffer
  rw [readReply_of_lt htotal] at hreply
  refine ⟨?_, fun hne a p hp hreq => ?_, fun hdone => ?_⟩
  · rw [hreply]
    split
    · exact .inr rfl
    · exact .inl rfl
  · rw [hreply] at hne
    split at hne
    · next hcount =>
      have hpos := ((h.parts _ hp p rfl).2 hreq).2
      have hle := le_pendingBytes hp rfl hreq
      omega
    · exact hne rfl
  · have hzero : pendingBytes req cfg.pending = 0 := by rw [hdone]; rfl
    rw [hreply, if_pos (by omega)]

/-- A longer read is not served: in the end its reply is another one. -/
theorem ReadInv.not_served {req c total : ℕ} {V : ℕ → UInt8} {cfg : FileConfig}
    (h : ReadInv req c total V cfg) (htotal : 2 ^ 31 ≤ total) (hdone : cfg.pending = [])
    {bytes : List UInt8} (hlen : bytes.length = total) : ¬ ReadServed req bytes cfg := by
  intro hserved
  obtain ⟨rb, hrb, hsum, hbytes, hreply⟩ := h.buffer
  have hzero : pendingBytes req cfg.pending = 0 := by rw [hdone]; rfl
  rw [if_pos (by omega), hserved.done hdone] at hreply
  exact readReply_ne_of_le htotal V hlen (List.cons.inj hreply).1.symm

section Served

variable {f₀ : File} {tr₁ tr₂ : FileTrace} {c₁ c₂ c₃ : FileConfig} {r : ReadReq}

/-- The contents of a file with nothing pending that owns its buffers. -/
theorem valueAt_eq_storedByte {f : File} (howned : ∀ (k : ℤ) (a : ℕ),
    f.inode.dataBlocks[k]? = some a → f.bufOf a ≠ none) (rs : List Reply) (p : ℕ) :
    valueAt ⟨f, [], rs⟩ p = some ((f.storedByte p).getD 0) := by
  cases hk : f.inode.dataBlocks[blockOf p]? with
  | none =>
    rw [valueAt_of_get?_eq_none hk]
    simp [File.storedByte, hk]
  | some a =>
    obtain ⟨b, hb⟩ := Option.ne_none_iff_exists'.mp (howned _ _ hk)
    have hne : f.inode.dataBlocks[blockOf p]? ≠ none := by simp [hk]
    rw [← File.storedByte_eq_valueAt rs hne]
    simp [File.storedByte, hk, hb]

/-- A file whose block map is well formed and whose blocks own their buffers satisfies the
invariant of runs. -/
theorem DataInv.of_owned {f : File} (hwf : f.WF) (howned : ∀ (k : ℤ) (a : ℕ),
    f.inode.dataBlocks[k]? = some a → f.bufOf a ≠ none) (rs : List Reply) :
    DataInv ⟨f, [], rs⟩ where
  toFileInv := .of_wf hwf rs
  toOwned := .of_blocks howned rs
  data := by simp [pendingRequests]

/-- The contents a read finds when it runs on the inode: those of the writes that ran before it. -/
theorem valueAt_of_writes (h₀ : DataInv ⟨f₀, [], []⟩)
    (howned : ∀ (k : ℤ) (a : ℕ), f₀.inode.dataBlocks[k]? = some a → f₀.bufOf a ≠ none)
    (hrun : fileSystem.Run ⟨f₀, [], []⟩ tr₁ c₁) (hdata : ∀ q ∈ requested tr₁, q.IsData)
    (hsmall : ∀ w, .write w ∈ requested tr₁ → w.blocksTouched ≤ 2) (p : ℕ) :
    (valueAt c₁ p).getD 0 = f₀.after (writesOf (inodeRuns tr₁)) p := by
  have hbatched : batched (writesOf (inodeRuns tr₁)) = writesOf (inodeRuns tr₁) := by
    refine List.filter_eq_self.mpr fun w hw => decide_eq_true (hsmall w ?_)
    have hfifo := inodeRuns_append_pending hrun
    rw [scheduled_eq_requested hdata] at hfifo
    rw [← hfifo]
    refine List.mem_append_left _ ?_
    obtain ⟨q, hq, heq⟩ := List.mem_filterMap.mp hw
    cases q <;> cases heq
    exact hq
  rw [(DataHistory.run hrun h₀ hdata).value, hbatched, valueAt_eq_storedByte howned]
  rfl

/-- What the numbering of the requests gives for a read that runs on the inode: its number is not
that of anything pending or requested later, and it was not answered. -/
theorem fresh_of_nodup (h₀ : DataInv ⟨f₀, [], []⟩) {f : File} {pre post : List FileTask}
    {rs : List Reply}
    (hrun : fileSystem.Run ⟨f₀, [], []⟩ tr₁ ⟨f, pre ++ .inode (.read r) :: post, rs⟩)
    (hpre : ∀ t ∈ pre, ∀ q, t ≠ .inode q)
    (hdata : ∀ q ∈ requested (tr₁ ++ tr₂), q.IsData)
    (hids : ((requested (tr₁ ++ tr₂)).map FileRequest.req).Nodup) :
    (∀ t ∈ pre ++ post, t.req? ≠ some r.req) ∧ repliesFor r.req rs = [] ∧
      ∀ q ∈ requested tr₂, q.req ≠ r.req := by
  have hsplit : requested (tr₁ ++ tr₂) = requested tr₁ ++ requested tr₂ := by simp [requested]
  have hdata₁ : ∀ q ∈ requested tr₁, q.IsData := fun q hq => hdata q (by simp [hsplit, hq])
  have hfifo := inodeRuns_append_pending hrun
  rw [scheduled_eq_requested hdata₁] at hfifo
  simp only [pendingRequests_append, pendingRequests_eq_nil hpre, List.nil_append] at hfifo
  have hcons : pendingRequests (.inode (.read r) :: post) = .read r :: pendingRequests post := rfl
  rw [hsplit, ← hfifo, hcons, List.map_append, List.map_append, List.map_cons] at hids
  obtain ⟨hids₁, -, hdisj⟩ := List.nodup_append.mp hids
  obtain ⟨-, hids₂, hdisj'⟩ := List.nodup_append.mp hids₁
  have hran : r.req ∉ (inodeRuns tr₁).map FileRequest.req := fun hmem =>
    hdisj' _ hmem _ List.mem_cons_self rfl
  have hatt := Attributed.run hrun h₀ hdata₁
  refine ⟨fun t ht heq => ?_, repliesFor_eq_nil fun x hx heq => ?_, fun q hq heq => ?_⟩
  · by_cases hinode : ∃ q, t = .inode q
    · obtain ⟨q, rfl⟩ := hinode
      rcases List.mem_append.mp ht with ht | ht
      · exact hpre _ ht q rfl
      · refine (List.nodup_cons.mp hids₂).1 (List.mem_map.mpr ⟨q, ?_, Option.some.inj heq⟩)
        exact mem_pendingRequests.mpr ht
    · simp only [not_exists] at hinode
      exact hran (hatt.pending t (mem_drop_inode ht) hinode _ heq)
  · exact hran (heq ▸ hatt.replies x hx)
  · refine hdisj r.req (List.mem_append_right _ List.mem_cons_self) q.req
      (List.mem_map_of_mem hq) heq.symm

/-- A read with a non-empty in-file range whose blocks exist, in any run of reads and writes of at
most two blocks each: every execution of what is pending ends, ends with nothing pending, and serves
the read exactly when its size fits into a `long` and its length into an `int`; and then it is
served in every configuration after its behaviour ran on the inode. -/
theorem read_served_iff (hwf : f₀.WF)
    (howned : ∀ (k : ℤ) (a : ℕ), f₀.inode.dataBlocks[k]? = some a → f₀.bufOf a ≠ none)
    (hrun₁ : fileSystem.Run ⟨f₀, [], []⟩ tr₁ c₁)
    (hstep : fileSystem.Step c₁ (.run (.inode (.read r))) c₂)
    (hrun₂ : fileSystem.Run c₂ tr₂ c₃)
    (hdata : ∀ q ∈ requested (tr₁ ++ tr₂), q.IsData)
    (hsmall : ∀ w, .write w ∈ requested (tr₁ ++ tr₂) → w.blocksTouched ≤ 2)
    (hids : ((requested (tr₁ ++ tr₂)).map FileRequest.req).Nodup)
    (hlen : 0 < r.inFile c₁.state)
    (hpresent : ∀ p, r.pos ≤ p → p < r.pos + r.inFile c₁.state →
      c₁.state.inode.dataBlocks[blockOf p]? ≠ none) :
    (∃ c', fileSystem.Settles c₃ c') ∧
    (∀ c', fileSystem.Settles c₃ c' → c'.pending = [] ∧
      (ReadServed r.req (r.bytesOf (r.inFile c₁.state) (f₀.after (writesOf (inodeRuns tr₁)))) c' ↔
        r.size < 2 ^ 63 ∧ r.inFile c₁.state < 2 ^ 31)) ∧
    (r.size < 2 ^ 63 → r.inFile c₁.state < 2 ^ 31 →
      ReadServed r.req (r.bytesOf (r.inFile c₁.state) (f₀.after (writesOf (inodeRuns tr₁)))) c₃) := by
  have hsplit : requested (tr₁ ++ tr₂) = requested tr₁ ++ requested tr₂ := by simp [requested]
  have hdata₁ : ∀ q ∈ requested tr₁, q.IsData := fun q hq => hdata q (by simp [hsplit, hq])
  have hdata₂ : ∀ q ∈ requested tr₂, q.IsData := fun q hq => hdata q (by simp [hsplit, hq])
  have h₀ : DataInv ⟨f₀, [], []⟩ := .of_owned hwf howned []
  have h₁ : DataInv c₁ := h₀.run hrun₁ hdata₁
  have h₂ : DataInv c₂ := h₁.step hstep fun q hq => by cases hq
  have h₃ : DataInv c₃ := h₂.run hrun₂ hdata₂
  have hvalue : ∀ p, (valueAt c₁ p).getD 0 = f₀.after (writesOf (inodeRuns tr₁)) p :=
    valueAt_of_writes h₀ howned hrun₁ hdata₁ fun w hw => hsmall w (by simp [hsplit, hw])
  obtain ⟨hex, hend⟩ := h₃.exists_settles
  have hcase : ∃ f pre post rs, c₁ = ⟨f, pre ++ .inode (.read r) :: post, rs⟩ ∧
      (∀ t ∈ pre, ∀ q, t ≠ .inode q) ∧ c₂ = ⟨(f.read r).state, pre ++ post ++ (f.read r).spawned,
        rs ++ (f.read r).replies⟩ := by
    cases fileStep_of_step hstep with
    | @inode f pre post rs _ e hpre hreq =>
      cases hreq with
      | read => exact ⟨f, pre, post, rs, rfl, hpre, rfl⟩
      | truncate n hnew => cases hnew
      | keep hother => exact absurd trivial hother
    | block ht => exact absurd rfl (ht _)
  obtain ⟨f, pre, post, rs, rfl, hpre, rfl⟩ := hcase
  obtain ⟨hother, hnone, hlater⟩ := fresh_of_nodup h₀ hrun₁ hpre hdata hids
  have hruns : ∀ c', fileSystem.Settles c₃ c' → ∃ tr, fileSystem.Run ⟨(f.read r).state,
      pre ++ post ++ (f.read r).spawned, rs ++ (f.read r).replies⟩ tr c' ∧
      ∀ q ∈ requested tr, q.IsData ∧ q.req ≠ r.req := by
    intro c' hc'
    obtain ⟨tr, htr, hall⟩ := hc'.exists_run
    refine ⟨_, hrun₂.append htr, ?_⟩
    rw [requested_append_runs hall]
    exact fun q hq => ⟨hdata₂ q hq, hlater q hq⟩
  by_cases hsize : r.size < 2 ^ 63
  · have hinv := ReadInv.start h₁.toFileInv h₁.toOwned hsize hlen hpresent hother hnone
    have hbytes : (List.range (r.inFile f)).map
        (fun i => (valueAt ⟨f, pre ++ .inode (.read r) :: post, rs⟩ (r.pos + i)).getD 0) =
        r.bytesOf (r.inFile f) (f₀.after (writesOf (inodeRuns tr₁))) :=
      List.map_congr_left fun i _ => hvalue _
    refine ⟨hex, fun c' hc' => ⟨hend c' hc', ?_⟩, fun _ hshort => ?_⟩
    · obtain ⟨tr, htr, hreqs⟩ := hruns c' hc'
      have hinv' := hinv.run h₂ htr hreqs
      constructor
      · intro hserved
        refine ⟨hsize, not_le.mp fun hle => ?_⟩
        exact hinv'.not_served hle (hend c' hc') (by simp [ReadReq.bytesOf]) hserved
      · rintro ⟨-, hshort⟩
        rw [← hbytes]
        exact hinv'.served hshort
    · rw [← hbytes]
      exact (hinv.run h₂ hrun₂ fun q hq => ⟨hdata₂ q hq, hlater q hq⟩).served hshort
  · refine ⟨hex, fun c' hc' => ⟨hend c' hc', ?_⟩, fun h => absurd h hsize⟩
    obtain ⟨tr, htr, hreqs⟩ := hruns c' hc'
    have hread : f.read r = ⟨f, [], [.buf r.req []]⟩ := by
      unfold File.read
      rw [if_pos (ReadReq.readSize_eq_zero hsize f)]
    have hans : Answered r.req [.buf r.req []] ⟨(f.read r).state,
        pre ++ post ++ (f.read r).spawned, rs ++ (f.read r).replies⟩ := by
      rw [hread]
      refine ⟨fun t ht => hother t (by simpa using ht), ?_⟩
      simp only [repliesFor_append, hnone, List.nil_append]
      simp [repliesFor, Reply.req]
    constructor
    · intro hserved
      have hdone := hserved.done (hend c' hc')
      rw [(hans.run h₂ htr hreqs).replies] at hdone
      have hlen' := congrArg List.length (Reply.buf.inj (List.cons.inj hdone).1).2
      rw [ReadReq.bytesOf, List.length_map, List.length_range] at hlen'
      exact absurd hlen' hlen.ne
    · exact fun h => absurd h.1 hsize

end Served

/-- A read of the two bytes that `twoBlockWrite` writes. -/
def twoBlockRead : ReadReq := ⟨1, 2, 4095, fun _ => 0, twoBlockWrite.off_nonneg,
  twoBlockWrite.off_lt, twoBlockWrite.size_lt⟩

/-- A write and a read are requested, the write runs on the inode, then the read does: the read is
served with the bytes of the write, although none of them is in its block yet. -/
theorem read_served_iff_twoBlockRead :
    ∃ c₁ c₂, fileSystem.Run ⟨emptyFile, [], []⟩ [.request (.write twoBlockWrite),
        .request (.read twoBlockRead), .run (.inode (.write twoBlockWrite))] c₁ ∧
      fileSystem.Step c₁ (.run (.inode (.read twoBlockRead))) c₂ ∧
      (∃ c', fileSystem.Settles c₂ c') ∧
      (∀ c', fileSystem.Settles c₂ c' → c'.pending = [] ∧
        (ReadServed 1 (twoBlockRead.bytesOf (twoBlockRead.inFile c₁.state)
          (emptyFile.after [twoBlockWrite])) c' ↔
        (2 : ℕ) < 2 ^ 63 ∧ twoBlockRead.inFile c₁.state < 2 ^ 31)) ∧
      ((2 : ℕ) < 2 ^ 63 → twoBlockRead.inFile c₁.state < 2 ^ 31 →
        ReadServed 1 (twoBlockRead.bytesOf (twoBlockRead.inFile c₁.state)
          (emptyFile.after [twoBlockWrite])) c₂) := by
  have hw : FileRequest.IsData (.write twoBlockWrite) := trivial
  have hr : FileRequest.IsData (.read twoBlockRead) := trivial
  have hwf : emptyFile.WF := ⟨by simp [emptyFile, File.make], by simp [emptyFile, File.make]⟩
  obtain ⟨e, he⟩ := hw.runs hwf
  obtain rfl : e = ⟨(emptyFile.write twoBlockWrite).1, (emptyFile.write twoBlockWrite).2,
      [.write 0 2]⟩ := Except.ok.inj (he.body_eq.symm.trans rfl)
  have hrun : fileSystem.Run ⟨emptyFile, [], []⟩ ((([] ++ [.request (.write twoBlockWrite)]) ++
      [.request (.read twoBlockRead)]) ++ [.run (.inode (.write twoBlockWrite))])
      ⟨(emptyFile.write twoBlockWrite).1, [.inode (.read twoBlockRead)] ++
        (emptyFile.write twoBlockWrite).2, [] ++ [.write 0 2]⟩ :=
    ((System.Run.nil.snoc (hw.step _ _ _)).snoc (hr.step _ _ _)).snoc (.head he)
  obtain ⟨e', he'⟩ := hr.runs ((emptyFile.write_grows twoBlockWrite).wf hwf)
  have hsize : (emptyFile.write twoBlockWrite).1.st.stSize = 4097 := by
    rw [File.write_stSize, cOff_of_lt (by decide) (by decide)]
    decide
  have hlen : twoBlockRead.inFile (emptyFile.write twoBlockWrite).1 = 2 := by
    unfold ReadReq.inFile
    rw [hsize]
    decide
  have htouched := (emptyFile.write_touched twoBlockWrite (by decide)).2
  refine ⟨_, _, hrun, .head he', read_served_iff hwf (by simp [emptyFile, File.make]) hrun
    (.head he') .nil ?_ ?_ (by decide) ?_ ?_⟩
  · simp [requested, FileRequest.IsData]
  · simp only [requested, List.nil_append, List.filterMap_append, List.filterMap_cons,
      List.filterMap_nil, List.append_nil, List.singleton_append, List.mem_cons, List.not_mem_nil,
      or_false, reduceCtorEq, FileRequest.write.injEq]
    rintro w rfl
    rw [WriteReq.blocksTouched_le_two]
    decide
  · rw [hlen]
    decide
  · intro p h₁ h₂
    rw [hlen] at h₂
    exact htouched _ ⟨p, h₁, h₂, rfl⟩

/-! ## A read that is not served -/

/-- The block map of a file with the blocks `0` to `n - 1`. -/
def blockMap : ℕ → StdMap ℤ ℕ
  | 0 => ∅
  | n + 1 => (blockMap n).insert n n

/-- The entries of the map. -/
theorem blockMap_get? (n : ℕ) (k : ℤ) :
    (blockMap n)[k]? = if 0 ≤ k ∧ k < n then some k.toNat else none := by
  induction n with
  | zero =>
    rw [if_neg (by omega)]
    simp [blockMap]
  | succ n ih =>
    rw [blockMap, StdMap.get?_insert, ih]
    split_ifs <;> first | rfl | omega | (congr 1; omega)

/-- A file of `n` blocks of zeros. -/
def zeroFile (n : ℕ) : File :=
  ⟨⟨3, { initStat 3 0 0 0 BLOCK_SIZE 0o644 true with stSize := n * BLOCK_SIZE }, 1, blockMap n⟩,
    List.replicate n (Block.make 0), []⟩

/-- The blocks of the file own their buffers. -/
theorem zeroFile_owned (n : ℕ) (k : ℤ) (a : ℕ)
    (h : (zeroFile n).inode.dataBlocks[k]? = some a) :
    a < (zeroFile n).blocks.length ∧ (zeroFile n).bufOf a ≠ none ∧ k = a := by
  simp only [zeroFile, blockMap_get?] at h
  split at h
  · next hk =>
    obtain rfl := Option.some.inj h
    have hlt : k.toNat < n := by omega
    exact ⟨by simpa [zeroFile] using hlt, by simp [zeroFile, File.bufOf, hlt, Block.make], by omega⟩
  · cases h

/-- A read of `2 ^ 31` bytes. -/
def longRead : ReadReq :=
  ⟨0, 2 ^ 31, 0, fun _ => 0, by decide, by decide, by decide⟩

/-- A read of `2 ^ 31` bytes that all exist is answered with an error: the count is negative as an
`int`. -/
theorem longRead_error :
    longRead.inFile (zeroFile 524288) = 2 ^ 31 ∧
    (∀ p, longRead.pos ≤ p → p < longRead.pos + longRead.inFile (zeroFile 524288) →
      (zeroFile 524288).inode.dataBlocks[blockOf p]? ≠ none) ∧
    ∃ c₁ c₂, fileSystem.Run ⟨zeroFile 524288, [], []⟩ [.request (.read longRead)] c₁ ∧
      fileSystem.Step c₁ (.run (.inode (.read longRead))) c₂ ∧
      (∃ c', fileSystem.Settles c₂ c') ∧
      ∀ c', fileSystem.Settles c₂ c' → c'.pending = [] ∧
        repliesFor 0 c'.replies = [.err 0 (-2 ^ 31)] := by
  have hlen : longRead.inFile (zeroFile 524288) = 2 ^ 31 := by decide
  have hpos : longRead.pos = 0 := rfl
  have hpresent : ∀ p, longRead.pos ≤ p → p < longRead.pos + longRead.inFile (zeroFile 524288) →
      (zeroFile 524288).inode.dataBlocks[blockOf p]? ≠ none := by
    intro p _ h₂
    have hB : BLOCK_SIZE = 4096 := rfl
    rw [hlen, hpos] at h₂
    simp only [zeroFile, blockMap_get?, blockOf]
    rw [if_pos ⟨Int.natCast_nonneg _, by rw [hB]; omega⟩]
    simp
  have hwf : (zeroFile 524288).WF :=
    ⟨fun k a h => (zeroFile_owned _ k a h).1, fun k k' a h h' => by
      rw [(zeroFile_owned _ k a h).2.2, (zeroFile_owned _ k' a h').2.2]⟩
  have h₀ : DataInv ⟨zeroFile 524288, [], []⟩ :=
    .of_owned hwf (fun k a h => (zeroFile_owned _ k a h).2.1) []
  have hr : FileRequest.IsData (.read longRead) := trivial
  obtain ⟨e, he⟩ := hr.runs hwf
  have hrun : fileSystem.Run ⟨zeroFile 524288, [], []⟩ ([] ++ [.request (.read longRead)])
      ⟨zeroFile 524288, [] ++ .inode (.read longRead) :: [], []⟩ :=
    .snoc .nil (hr.step _ _ _)
  have h₁ := h₀.run hrun (by simp [requested, FileRequest.IsData])
  obtain rfl : e = (zeroFile 524288).read longRead := Except.ok.inj (he.body_eq.symm.trans rfl)
  have hstep : fileSystem.Step ⟨zeroFile 524288, [] ++ .inode (.read longRead) :: [], []⟩
      (.run (.inode (.read longRead))) ⟨((zeroFile 524288).read longRead).state,
        [] ++ [] ++ ((zeroFile 524288).read longRead).spawned,
        [] ++ ((zeroFile 524288).read longRead).replies⟩ := .run (by simp [System.FreeOf]) he
  have h₂ := h₁.step hstep fun q hq => by cases hq
  have hinv := ReadInv.start h₁.toFileInv h₁.toOwned (by decide) (by rw [hlen]; decide) hpresent
    (by simp) rfl
  obtain ⟨hex, hend⟩ := h₂.exists_settles
  refine ⟨hlen, hpresent, _, _, hrun, hstep, hex, fun c' hc' => ⟨hend c' hc', ?_⟩⟩
  obtain ⟨tr, htr, hall⟩ := hc'.exists_run
  have hnil : requested tr = [] := requested_runs hall
  obtain ⟨rb, -, hsum, -, hreply⟩ := (hinv.run h₂ htr (by simp [hnil])).buffer
  have hzero : pendingBytes longRead.req c'.pending = 0 := by rw [hend c' hc']; rfl
  rw [if_pos (by omega), hlen] at hreply
  exact hreply

end VeronaFs
