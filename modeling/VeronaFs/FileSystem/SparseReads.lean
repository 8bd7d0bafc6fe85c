import VeronaFs.FileSystem.ReadServed
import VeronaFs.FileSystem.BlockSpace

/-!
# Reads of files with holes

`RegInode::read` steps over a block that does not exist and takes `BLOCK_SIZE` bytes off what remains
to be read, but its counter behaviours still compare with the full length.  So a read that meets a
hole is never answered, while a read of stored bytes alone is answered as it would be with all holes
filled (`read_fillHoles_iff`).
-/

namespace VeronaFs

open Boc Foundation

/-! ## The parts of a read that meets holes -/

section Loop

variable {m : StdMap ℤ ℕ} {req c total : ℕ}

/-- The parts of a read, with or without holes. -/
theorem readLoop_part {o rem : ℤ} {br : ℕ} {t : FileTask}
    (h : t ∈ File.readLoop m o req c total br rem) :
    ∃ a p, t = .readBlock a p ∧ p.req = req ∧ p.counter = c ∧ p.total = total ∧
      0 < p.bytesToRead ∧ p.bytesRead + p.bytesToRead ≤ br + rem.toNat := by
  fun_induction File.readLoop m o req c total br rem with
  | case1 br rem hrem pos hnone ih =>
    by_cases hmore : 0 < rem - BLOCK_SIZE
    · obtain ⟨a, p, ht, hreq, hc, htotal, hpos, hle⟩ := ih h
      exact ⟨a, p, ht, hreq, hc, htotal, hpos, by omega⟩
    · rw [File.readLoop, dif_neg hmore] at h
      cases h
  | case2 br rem hrem pos blockOffset a hget n ih =>
    have hlt : blockOffset < BLOCK_SIZE := Nat.mod_lt _ (by decide)
    rcases List.mem_cons.mp h with rfl | h
    · exact ⟨a, _, rfl, rfl, rfl, rfl, by simp only; omega, by simp only; omega⟩
    · obtain ⟨a', p, ht, hreq, hc, htotal, hpos, hle⟩ := ih h
      exact ⟨a', p, ht, hreq, hc, htotal, hpos, by omega⟩
  | case3 => cases h

variable (m req c total) in
/-- The parts have at most as many bytes as the range. -/
theorem pendingBytes_readLoop_le (o : ℤ) (br : ℕ) (rem : ℤ) :
    pendingBytes req (File.readLoop m o req c total br rem) ≤ rem.toNat := by
  fun_induction File.readLoop m o req c total br rem with
  | case1 br rem hrem pos hnone ih =>
    have hB : (BLOCK_SIZE : ℤ) = 4096 := rfl
    omega
  | case2 br rem hrem pos blockOffset a hget n ih =>
    have hself : FileTask.bytesOf req (.readBlock a ⟨req, c, n, blockOffset, br, total⟩) = n := by
      simp [FileTask.bytesOf, FileTask.part?]
    have hn : n ≤ rem.toNat := min_le_right _ _
    rw [pendingBytes_cons, hself]
    omega
  | case3 => simp [pendingBytes]

variable (m req c total) in
/-- The parts have fewer bytes than a range that meets a hole. -/
theorem pendingBytes_readLoop_lt (o rem : ℕ) : ∀ br : ℕ, o + br + rem ≤ 2 ^ 64 →
    (∃ q, o + br ≤ q ∧ q < o + br + rem ∧ m[blockOf q]? = none) →
    pendingBytes req (File.readLoop m o req c total br rem) < rem := by
  induction rem using Nat.strong_induction_on with
  | _ rem ih =>
    rintro br hend ⟨q, hle, hlt, hhole⟩
    have hB : BLOCK_SIZE = 4096 := rfl
    have hmod : (o + br) % BLOCK_SIZE < BLOCK_SIZE := Nat.mod_lt _ (by decide)
    cases ha : m[blockOf (o + br)]? with
    | none =>
      have hpos : cU64 ((o : ℤ) + (br : ℤ)) = o + br := by
        rw [cU64_of_lt (by omega) (by omega)]
        omega
      rw [File.readLoop, dif_pos (by omega)]
      simp only [hpos]
      split
      · have hbound := pendingBytes_readLoop_le m req c total o (br + BLOCK_SIZE) (rem - BLOCK_SIZE)
        omega
      · next a ha' =>
        rw [blockOf] at ha
        rw [ha] at ha'
        cases ha'
    | some a =>
      rw [readLoop_step (by omega) (by omega) ha]
      set n := min (BLOCK_SIZE - (o + br) % BLOCK_SIZE) rem with hn
      -- the hole lies behind the part, in another block
      have hbehind : o + (br + n) ≤ q := by
        by_contra hbefore
        have hsame : blockOf q = blockOf (o + br) := by
          rw [blockOf_eq_iff, hB]
          rw [hB] at hmod hn
          omega
        rw [hsame, ha] at hhole
        cases hhole
      have hrest := ih (rem - n) (by omega) (br + n) (by omega) ⟨q, hbehind, by omega, hhole⟩
      rw [pendingBytes_cons]
      simp only [FileTask.bytesOf, FileTask.part?, if_true]
      omega

end Loop

/-! ## A read that runs alone -/

/-- The bytes that a read finds: those that are stored, and zeros elsewhere. -/
def File.bytesAt (f : File) (r : ReadReq) (i : ℕ) : UInt8 := (f.storedByte (r.pos + i)).getD 0

/-- The read `r` of the file `f` runs alone: its parts, of `S` bytes together, copy stored bytes, and
it is answered when as many bytes are counted as it has. -/
structure ReadsAlone (f : File) (r : ReadReq) (S : ℕ) (cfg : FileConfig) : Prop where
  /-- The buffers stay. -/
  bufs : ∀ a, cfg.state.bufOf a = f.bufOf a
  /-- Only parts of the read are pending. -/
  parts : ∀ t ∈ cfg.pending, ∃ p, t.part? = some p ∧ p.req = r.req ∧
    p.counter = f.reads.length ∧ p.total = r.inFile f ∧ 0 < p.bytesToRead ∧
    p.bytesRead + p.bytesToRead ≤ r.inFile f
  /-- Where no hole is met, the copies are parts of the range. -/
  copies : S = r.inFile f → ∀ a p, .readBlock a p ∈ cfg.pending →
    IsPart f.inode.dataBlocks r.pos r.req f.reads.length (r.inFile f) a p
  /-- The count and the pending bytes add up; where no hole is met, the bytes that are not to be
  copied any more are in the buffer; the reply was sent when everything was counted. -/
  buffer : ∃ rb, cfg.state.reads[f.reads.length]? = some rb ∧
    rb.count + pendingBytes r.req cfg.pending = S ∧
    (S = r.inFile f → ∀ i < r.inFile f, (∀ t ∈ cfg.pending, ¬ t.Copies r.req i) →
      rb.bytes i = f.bytesAt r i) ∧
    cfg.replies = if rb.count = r.inFile f then [readReply r.req (r.inFile f) (f.bytesAt r)] else []

section Alone

variable {f : File} {r : ReadReq} {S : ℕ}

/-- The bytes of a part are those of the file. -/
theorem IsPart.bytesAt {c total a : ℕ} {p : ReadPart} {b : Buffer}
    (h : IsPart f.inode.dataBlocks r.pos r.req c total a p) (hb : f.bufOf a = some b) {j : ℕ}
    (hj : j < p.bytesToRead) (hlt : p.blockOffset + j < BLOCK_SIZE) :
    b ⟨p.blockOffset + j, hlt⟩ = f.bytesAt r (p.bytesRead + j) := by
  obtain ⟨hblk, hslot⟩ := h.byte hj
  have hget : f.inode.dataBlocks[blockOf (r.pos + (p.bytesRead + j))]? = some a := hblk ▸ h.block
  have hstored : f.storedByte (r.pos + (p.bytesRead + j)) =
      some (b (slotOf (r.pos + (p.bytesRead + j)))) := by
    simp only [File.storedByte, hget, hb, Option.map_some]
  rw [File.bytesAt, hstored, Option.getD_some]
  exact congrArg b (Fin.ext hslot.symm)

/-- A step of the read. -/
theorem ReadsAlone.step {cfg cfg' : FileConfig} (h : ReadsAlone f r S cfg) (hinv : FileInv cfg)
    (hS : S ≤ r.inFile f) (hstep : fileSystem.RunStep cfg cfg') : ReadsAlone f r S cfg' := by
  obtain ⟨t, hstep⟩ := hstep
  cases fileStep_of_step hstep with
  | @inode g pre post rs q e =>
    obtain ⟨p, hp, -⟩ := h.parts (.inode q) (by simp)
    cases hp
  | @block g pre post rs _ e ht hfree hbody hblock =>
    have hself : t ∈ pre ++ t :: post := by simp
    have hrest : ∀ t' ∈ pre ++ post, t' ∈ pre ++ t :: post := fun t' ht' => by
      rcases List.mem_append.mp ht' with ht' | ht' <;> simp [ht']
    obtain ⟨p, hp, hreq, hcounter, htotal, hpos, hle⟩ := h.parts t hself
    obtain ⟨rb, hrb, hsum, hbytes, hreply⟩ := h.buffer
    have hlt := (List.getElem?_eq_some_iff.mp hrb).1
    have hbytesOf : t.bytesOf r.req = p.bytesToRead := by
      simp only [FileTask.bytesOf, hp]
      rw [if_pos hreq]
    simp only [pendingBytes_append, pendingBytes_cons, hbytesOf] at hsum
    cases File.body_readsStep ht hbody with
    | other hnone => rw [hnone] at hp; cases hp
    | @copy a p' _ _ rb' buf hrb' hb hreads hspawned hreplies =>
      obtain rfl : p' = p := Option.some.inj hp
      obtain rfl : rb' = rb := Option.some.inj (hrb'.symm.trans (hcounter ▸ hrb))
      have hbuf : f.bufOf a = some buf := (h.bufs a).symm.trans hb
      have hcount : FileTask.bytesOf r.req (.count p') = p'.bytesToRead := hbytesOf
      have hzero : pendingBytes r.req [] = 0 := rfl
      refine ⟨fun a' => (hblock.bufOf_eq a').trans (h.bufs a'), fun t' ht' => ?_,
        fun hfull a' q hq => ?_, rb'.copy buf p', ?_, ?_, fun hfull i hi hcopy => ?_, ?_⟩
      · rw [hspawned] at ht'
        rcases List.mem_append.mp ht' with ht' | ht'
        · exact h.parts t' (hrest t' ht')
        · rw [List.mem_singleton.mp ht']
          exact ⟨p', rfl, hreq, hcounter, htotal, hpos, hle⟩
      · rw [hspawned] at hq
        rcases List.mem_append.mp hq with hq | hq
        · exact h.copies hfull a' q (hrest _ hq)
        · cases List.mem_singleton.mp hq
      · simp only
        rw [hreads, hcounter, List.getElem?_set_self hlt]
      · simp only [hspawned, pendingBytes_append, pendingBytes_cons, hcount, hzero, ReadBuf.copy]
        omega
      · have hpart := h.copies hfull a p' hself
        have hfits := hpart.fits
        simp only [ReadBuf.copy]
        split
        · next hin =>
          rw [dif_pos (by omega), hpart.bytesAt hbuf (by omega) (by omega)]
          congr 1
          omega
        · next hout =>
          refine hbytes hfull i hi fun t' ht' => ?_
          rw [List.append_cons, List.append_assoc, List.mem_append, List.mem_append,
            List.mem_singleton] at ht'
          rcases ht' with ht' | rfl | ht'
          · exact hcopy t' (by simp [ht'])
          · rintro ⟨a', q, heq, -, h₁, h₂⟩
            obtain ⟨rfl, rfl⟩ := FileTask.readBlock.inj heq
            exact hout ⟨h₁, h₂⟩
          · exact hcopy t' (by simp [ht'])
      · simp only [hreplies, List.append_nil, ReadBuf.copy]
        exact hreply
    | @count p' _ _ rb' hrb' hreads hspawned hreplies =>
      obtain rfl : p' = p := Option.some.inj hp
      obtain rfl : rb' = rb := Option.some.inj (hrb'.symm.trans (hcounter ▸ hrb))
      refine ⟨fun a' => (hblock.bufOf_eq a').trans (h.bufs a'), fun t' ht' => ?_,
        fun hfull a' q hq => ?_, { rb' with count := rb'.count + p'.bytesToRead }, ?_, ?_,
        fun hfull i hi hcopy => ?_, ?_⟩
      · rw [hspawned, List.append_nil] at ht'
        exact h.parts t' (hrest t' ht')
      · rw [hspawned, List.append_nil] at hq
        exact h.copies hfull a' q (hrest _ hq)
      · simp only
        rw [hreads, hcounter, List.getElem?_set_self hlt]
      · simp only [hspawned, List.append_nil, pendingBytes_append]
        omega
      · refine hbytes hfull i hi fun t' ht' => ?_
        rw [List.append_cons, List.append_assoc, List.mem_append, List.mem_append,
          List.mem_singleton] at ht'
        rcases ht' with ht' | rfl | ht'
        · exact hcopy t' (by simp [ht'])
        · rintro ⟨a', q, heq, -⟩
          cases heq
        · exact hcopy t' (by simp [ht'])
      · simp only at hreply ⊢
        rw [hreply, hreplies, htotal, hreq, if_neg (by omega), List.nil_append]
        split
        · next hlast =>
          -- everything is counted, so nothing is left to be copied
          have hdone : ∀ i < r.inFile f, rb'.bytes i = f.bytesAt r i := by
            refine fun i hi => hbytes (by omega) i hi fun t' ht' => ?_
            rintro ⟨a', q, rfl, hreq', h₁, h₂⟩
            rw [List.append_cons, List.append_assoc, List.mem_append, List.mem_append,
              List.mem_singleton] at ht'
            have hmem : .readBlock a' q ∈ pre ∨ .readBlock a' q ∈ post := by
              rcases ht' with ht' | heq | ht'
              · exact .inl ht'
              · cases heq
              · exact .inr ht'
            rcases hmem with hmem | hmem
            · have hle := le_pendingBytes hmem rfl hreq'
              omega
            · have hle := le_pendingBytes hmem rfl hreq'
              omega
          rw [readReply_congr hdone]
        · rfl

/-- The behaviour of a read of a range that is not empty. -/
theorem File.read_of_pos (hsize : r.size < 2 ^ 63) (hlen : 0 < r.inFile f) :
    f.read r = ⟨{ f with reads := f.reads ++ [⟨r.heap, 0⟩] },
      File.readLoop f.inode.dataBlocks r.pos r.req f.reads.length (r.inFile f) 0 (r.inFile f),
      []⟩ := by
  have hne : ((r.inFile f : ℕ) : ℤ) ≠ 0 := by omega
  unfold File.read
  simp only [ReadReq.readSize_eq hsize, if_neg hne, Int.toNat_natCast, r.off_eq]

/-- The range of a read ends below `2 ^ 64`. -/
theorem ReadReq.end_le (hsize : r.size < 2 ^ 63) (f : File) : r.pos + 0 + r.inFile f ≤ 2 ^ 64 := by
  have hoff := r.off_lt
  have hoff' := r.off_eq
  unfold ReadReq.inFile
  omega

/-- The read runs alone after its behaviour ran on the inode. -/
theorem ReadsAlone.start (hsize : r.size < 2 ^ 63) (hlen : 0 < r.inFile f) :
    ReadsAlone f r (pendingBytes r.req (f.read r).spawned)
      ⟨(f.read r).state, (f.read r).spawned, (f.read r).replies⟩ := by
  rw [File.read_of_pos hsize hlen]
  have hnohole : pendingBytes r.req (File.readLoop f.inode.dataBlocks r.pos r.req f.reads.length
      (r.inFile f) 0 (r.inFile f)) = r.inFile f → ∀ q, r.pos + 0 ≤ q →
      q < r.pos + 0 + r.inFile f → f.inode.dataBlocks[blockOf q]? ≠ none := by
    intro hfull q hle hlt hhole
    have hfewer := pendingBytes_readLoop_lt f.inode.dataBlocks r.req f.reads.length (r.inFile f)
      r.pos (r.inFile f) 0 (ReadReq.end_le hsize f) ⟨q, hle, hlt, hhole⟩
    omega
  refine ⟨fun _ => rfl, fun t ht => ?_, fun hfull a p hp => ?_, ⟨r.heap, 0⟩,
    List.getElem?_concat_length, by simp, fun hfull i hi hcopy => ?_, ?_⟩
  · obtain ⟨a, p, rfl, hreq, hc, htotal, hpos, hle⟩ := readLoop_part ht
    exact ⟨p, rfl, hreq, hc, htotal, hpos, by omega⟩
  · obtain ⟨hparts, -⟩ := readLoop_parts f.inode.dataBlocks r.pos r.req f.reads.length
      (r.inFile f) (r.inFile f) 0 (ReadReq.end_le hsize f) (hnohole hfull)
    obtain ⟨a', p', heq, hpart⟩ := hparts _ hp
    obtain ⟨rfl, rfl⟩ := FileTask.readBlock.inj heq
    exact hpart
  · obtain ⟨hparts, -, hcov⟩ := readLoop_parts f.inode.dataBlocks r.pos r.req f.reads.length
      (r.inFile f) (r.inFile f) 0 (ReadReq.end_le hsize f) (hnohole hfull)
    obtain ⟨a, p, hp, h₁, h₂⟩ := hcov i (by omega) (by omega)
    obtain ⟨a', p', heq, hpart⟩ := hparts _ hp
    obtain ⟨rfl, rfl⟩ := FileTask.readBlock.inj heq
    exact absurd ⟨a, p, rfl, hpart.req_eq, h₁, h₂⟩ (hcopy _ hp)
  · rw [if_neg (by simp only; omega)]

/-- The behaviours of a read have at most as many bytes as its range. -/
theorem pendingBytes_read_le (hsize : r.size < 2 ^ 63) (hlen : 0 < r.inFile f) :
    pendingBytes r.req (f.read r).spawned ≤ r.inFile f := by
  rw [File.read_of_pos hsize hlen]
  exact (pendingBytes_readLoop_le _ _ _ _ _ _ _).trans (by simp)

/-- What an execution of the read alone ends with. -/
theorem ReadsAlone.settled (hwf : f.WF) (hsize : r.size < 2 ^ 63) (hlen : 0 < r.inFile f)
    {c' : FileConfig} (hc' : fileSystem.Settles ⟨f, [.inode (.read r)], []⟩ c') :
    fileSystem.Settles ⟨(f.read r).state, (f.read r).spawned, (f.read r).replies⟩ c' ∧
      ReadsAlone f r (pendingBytes r.req (f.read r).spawned) c' ∧ FileInv c' := by
  have hruns : fileSystem.Runs (.inode (.read r)) f (f.read r) := f.runs_inode hwf rfl
  have hend := (System.settles_singleton hruns).mp hc'
  rw [List.nil_append] at hend
  have hS : pendingBytes r.req (f.read r).spawned ≤ r.inFile f :=
    pendingBytes_read_le hsize hlen
  have hinv : FileInv ⟨(f.read r).state, (f.read r).spawned, (f.read r).replies⟩ :=
    File.read_fileInv hwf r _
  have hboth := hend.invariant (P := fun c => ReadsAlone f r _ c ∧ FileInv c)
    (fun c c₁ h hstep => by
      obtain ⟨b, hb⟩ := hstep
      exact ⟨h.1.step h.2 hS ⟨b, hb⟩, h.2.run (.snoc .nil hb)⟩)
    ⟨ReadsAlone.start hsize hlen, hinv⟩
  exact ⟨hend, hboth⟩

/-- A copy out of a block without a buffer stays pending. -/
theorem readBlock_stays {a : ℕ} {p : ReadPart} (hnone : f.bufOf a = none) {cfg cfg' : FileConfig}
    (hbufs : ∀ a, cfg.state.bufOf a = f.bufOf a) (hmem : .readBlock a p ∈ cfg.pending)
    (hstep : fileSystem.RunStep cfg cfg') : .readBlock a p ∈ cfg'.pending := by
  obtain ⟨t, hstep⟩ := hstep
  have hne : t ≠ .readBlock a p := by
    rintro rfl
    cases fileStep_of_step hstep with
    | @block g pre post rs _ e ht hfree hbody hblock =>
      cases File.body_readsStep ht hbody with
      | other hpart => cases hpart
      | copy hrb hb =>
        rw [hbufs, hnone] at hb
        cases hb
  generalize hl : (Label.run t : Label FileRequest FileTask) = l at hstep
  cases hstep with
  | request => cases hl
  | @run g pre post rs t' e hfree hrun =>
    obtain rfl := Label.run.inj hl
    simp only [List.mem_append, List.mem_cons] at hmem ⊢
    rcases hmem with hmem | hmem | hmem
    · exact .inl (.inl hmem)
    · exact absurd hmem.symm hne
    · exact .inl (.inr hmem)

/-- A read of stored bytes alone is answered with them. -/
theorem read_alone_stored (hwf : f.WF) (hsize : r.size < 2 ^ 63) (hlen : 0 < r.inFile f)
    (hstored : ∀ p, r.pos ≤ p → p < r.pos + r.inFile f → f.storedByte p ≠ none) {c' : FileConfig}
    (hc' : fileSystem.Settles ⟨f, [.inode (.read r)], []⟩ c') :
    c'.replies = [readReply r.req (r.inFile f) (f.bytesAt r)] := by
  obtain ⟨hend, halone, hinv⟩ := ReadsAlone.settled hwf hsize hlen hc'
  have hpresent : ∀ q, r.pos + 0 ≤ q → q < r.pos + 0 + r.inFile f →
      f.inode.dataBlocks[blockOf q]? ≠ none := by
    intro q hle hlt hnone
    refine hstored q (by omega) (by omega) ?_
    simp only [File.storedByte, hnone]
  have hfull : pendingBytes r.req (f.read r).spawned = r.inFile f := by
    rw [File.read_of_pos hsize hlen]
    exact (readLoop_parts f.inode.dataBlocks r.pos r.req f.reads.length (r.inFile f) (r.inFile f) 0
      (ReadReq.end_le hsize f) hpresent).2.1
  rw [hfull] at halone
  -- every pending part finds its buffer, so nothing is pending in the end
  have hdone : c'.pending = [] := by
    cases hp : c'.pending with
    | nil => rfl
    | cons t post =>
      exfalso
      have hmem : t ∈ c'.pending := by simp [hp]
      obtain ⟨p, hpart, -, -, -, hpos, hrange⟩ := halone.parts t hmem
      have hneeds : NeedsBuf t c'.state.bufs := by
        cases t with
        | readBlock a p' =>
          have hcopy := halone.copies rfl a p' hmem
          obtain rfl : p' = p := Option.some.inj hpart
          have hbuf := hstored (r.pos + p'.bytesRead) (by omega) (by omega)
          simp only [NeedsBuf, File.bufs, halone.bufs]
          intro hnone
          simp only [File.storedByte, hcopy.block, hnone, Option.map_none] at hbuf
          exact hbuf rfl
        | count p' => trivial
        | _ => cases hpart
      obtain ⟨e, he⟩ := runs_of_needsBuf (fun q hq => by rw [hq] at hpart; cases hpart)
        (hinv.fits t hmem) (hinv.bounded t hmem) hneeds
      exact hend.head_stuck hp e he
  obtain ⟨rb, -, hsum, -, hreply⟩ := halone.buffer
  have hzero : pendingBytes r.req c'.pending = 0 := by rw [hdone]; rfl
  rw [hreply, if_pos (by omega)]

/-- A read that meets a hole or a block without its buffer is not answered. -/
theorem read_alone_hole (hwf : f.WF) (hsize : r.size < 2 ^ 63) {p : ℕ} (hle : r.pos ≤ p)
    (hlt : p < r.pos + r.inFile f) (hhole : f.storedByte p = none) {c' : FileConfig}
    (hc' : fileSystem.Settles ⟨f, [.inode (.read r)], []⟩ c') : c'.replies = [] := by
  have hlen : 0 < r.inFile f := by omega
  obtain ⟨hend, halone, -⟩ := ReadsAlone.settled hwf hsize hlen hc'
  obtain ⟨rb, -, hsum, -, hreply⟩ := halone.buffer
  rw [hreply]
  refine if_neg fun hcount => ?_
  by_cases hall : ∃ q, r.pos + 0 ≤ q ∧ q < r.pos + 0 + r.inFile f ∧
      f.inode.dataBlocks[blockOf q]? = none
  · have hfewer := pendingBytes_readLoop_lt f.inode.dataBlocks r.req f.reads.length (r.inFile f)
      r.pos (r.inFile f) 0 (ReadReq.end_le hsize f) hall
    rw [File.read_of_pos hsize hlen] at hsum
    simp only at hsum
    omega
  · simp only [not_exists, not_and] at hall
    -- the part of the byte whose block lost its buffer stays pending
    obtain ⟨hparts, -, hcov⟩ := readLoop_parts f.inode.dataBlocks r.pos r.req f.reads.length
      (r.inFile f) (r.inFile f) 0 (ReadReq.end_le hsize f) hall
    obtain ⟨a, part, hmem, h₁, h₂⟩ := hcov (p - r.pos) (by omega) (by omega)
    obtain ⟨a', part', heq, hpart⟩ := hparts _ hmem
    obtain ⟨rfl, rfl⟩ := FileTask.readBlock.inj heq
    have hblk : blockOf p = blockOf (r.pos + part.bytesRead) := by
      have hbyte := (hpart.byte (j := p - r.pos - part.bytesRead) (by omega)).1
      rwa [show r.pos + (part.bytesRead + (p - r.pos - part.bytesRead)) = p by omega] at hbyte
    have hnone : f.bufOf a = none := by
      have hget : f.inode.dataBlocks[blockOf p]? = some a := hblk ▸ hpart.block
      simpa only [File.storedByte, hget, Option.map_eq_none_iff] using hhole
    have hstays : FileTask.readBlock a part ∈ c'.pending := by
      have hinit : FileTask.readBlock a part ∈ (f.read r).spawned := by
        rw [File.read_of_pos hsize hlen]
        exact hmem
      have hall := hend.invariant (P := fun c => (ReadsAlone f r _ c ∧ FileInv c) ∧
          FileTask.readBlock a part ∈ c.pending)
        (fun c c₁ h hstep => by
          obtain ⟨b, hb⟩ := hstep
          have hS : pendingBytes r.req (f.read r).spawned ≤ r.inFile f :=
    pendingBytes_read_le hsize hlen
          exact ⟨⟨h.1.1.step h.1.2 hS ⟨b, hb⟩, h.1.2.run (.snoc .nil hb)⟩,
            readBlock_stays hnone h.1.1.bufs h.2 ⟨b, hb⟩⟩)
        ⟨⟨ReadsAlone.start hsize hlen, File.read_fileInv hwf r _⟩, hinit⟩
      exact hall.2
    have hpending := le_pendingBytes hstays rfl hpart.req_eq
    have hpos := hpart.pos
    have hS : pendingBytes r.req (f.read r).spawned ≤ r.inFile f :=
    pendingBytes_read_le hsize hlen
    omega

end Alone

/-! ## Files with all holes filled -/

namespace File

/-- The file with the blocks `0` to `n - 1`: those that were missing are filled with zeros. -/
def fillBlocks (f : File) : ℕ → File
  | 0 => f
  | n + 1 =>
    if (f.fillBlocks n).inode.dataBlocks[(n : ℤ)]? = none then (f.fillBlocks n).allocateSpace n
    else f.fillBlocks n

/-- The file with every block below its size present. -/
def fillHoles (f : File) : File := f.fillBlocks ((f.st.stSize.toNat + (BLOCK_SIZE - 1)) / BLOCK_SIZE)

/-- Filling creates the missing blocks. -/
theorem fillBlocks_ensures (f : File) (n : ℕ) :
    Ensures (fun k => 0 ≤ k ∧ k < n) f (f.fillBlocks n) := by
  induction n with
  | zero => exact .refl f fun k => by omega
  | succ n ih =>
    rw [fillBlocks]
    refine (ih.trans ((f.fillBlocks n).ensureBlock_ensures n)).iff fun k => ?_
    push_cast
    omega

/-- Filling leaves the attributes. -/
theorem fillBlocks_st (f : File) (n : ℕ) : (f.fillBlocks n).st = f.st := by
  induction n with
  | zero => rfl
  | succ n ih =>
    rw [fillBlocks]
    split
    · exact ih
    · exact ih

/-- Filling keeps the stored bytes. -/
theorem storedByte_fillHoles {f : File} (hwf : f.WF) {p : ℕ} (h : f.storedByte p ≠ none) :
    f.fillHoles.storedByte p = f.storedByte p := by
  obtain ⟨b, hb⟩ := Option.ne_none_iff_exists'.mp h
  rw [hb]
  exact (f.fillBlocks_ensures _).storedByte_eq hwf hb

/-- A hole below the size is filled with zeros. -/
theorem storedByte_fillHoles_of_hole {f : File} (hwf : f.WF) {p : ℕ} (hlt : p < f.st.stSize)
    (hhole : f.inode.dataBlocks[blockOf p]? = none) : f.fillHoles.storedByte p = some 0 := by
  have hB : BLOCK_SIZE = 4096 := rfl
  have hensures := f.fillBlocks_ensures ((f.st.stSize.toNat + (BLOCK_SIZE - 1)) / BLOCK_SIZE)
  obtain ⟨a, ha⟩ := Option.ne_none_iff_exists'.mp (hensures.present (blockOf p) (by
    rw [blockOf, hB]
    omega))
  have hbound := (hensures.wf hwf).bounded _ a ha
  rcases hensures.fresh _ a ha with hold | ⟨-, -, hnew⟩
  · rw [hhole] at hold
    cases hold
  · have hbuf := hensures.toGrows.bufOf a
    rw [if_neg (by omega), if_pos hbound] at hbuf
    simp only [storedByte, fillHoles, ha, hbuf, Option.map_some]

/-- The read of `r` alone is answered once, with as many bytes as there are, and in the same way as
when every hole is filled with zeros. -/
def ServesAsFilled (f : File) (r : ReadReq) : Prop :=
  (∃ c', fileSystem.Settles ⟨f, [.inode (.read r)], []⟩ c') ∧
    ∀ c', fileSystem.Settles ⟨f, [.inode (.read r)], []⟩ c' → ∃ bytes,
      c'.replies = [.buf r.req bytes] ∧ bytes.length = r.inFile f ∧
        ∀ c'', fileSystem.Settles ⟨f.fillHoles, [.inode (.read r)], []⟩ c'' →
          c''.replies = c'.replies

end File

/-- A read of an empty range is answered with no bytes. -/
theorem read_alone_empty {f : File} (hwf : f.WF) {r : ReadReq} (hzero : f.readSize r = 0)
    {c' : FileConfig} (hc' : fileSystem.Settles ⟨f, [.inode (.read r)], []⟩ c') :
    c'.replies = [.buf r.req []] := by
  have hread : f.read r = ⟨f, [], [.buf r.req []]⟩ := by
    unfold File.read
    rw [if_pos hzero]
  have hruns : fileSystem.Runs (.inode (.read r)) f (f.read r) := f.runs_inode hwf rfl
  rw [System.settles_singleton hruns, hread, System.settles_nil] at hc'
  rw [hc']
  rfl

/-- A read alone is answered once and as if every hole were filled with zeros, exactly when its range
is empty, or its size fits into a `long`, its length into an `int`, and every byte of its range is
stored. -/
theorem read_fillHoles_iff {f : File} (hwf : f.WF) (r : ReadReq) : f.ServesAsFilled r ↔
    r.inFile f = 0 ∨ r.size < 2 ^ 63 ∧ r.inFile f < 2 ^ 31 ∧
      ∀ p, r.pos ≤ p → p < r.pos + r.inFile f → f.storedByte p ≠ none := by
  have hwf' : f.fillHoles.WF := (f.fillBlocks_ensures _).wf hwf
  have hinFile : r.inFile f.fillHoles = r.inFile f := by
    unfold ReadReq.inFile
    rw [File.fillHoles, File.fillBlocks_st]
  have hex : ∃ c', fileSystem.Settles ⟨f, [.inode (.read r)], []⟩ c' :=
    System.exists_settles FileTask.rank (fun _ _ _ hbody _ => FileTask.rank_lt hbody) _
  have hreadSize : f.fillHoles.readSize r = f.readSize r := by
    unfold File.readSize
    rw [File.fillHoles, File.fillBlocks_st]
  constructor
  · rintro ⟨-, hserved⟩
    obtain ⟨c', hc'⟩ := hex
    obtain ⟨bytes, hreply, hlength, -⟩ := hserved c' hc'
    rcases Nat.eq_zero_or_pos (r.inFile f) with hzero | hlen
    · exact .inl hzero
    right
    have hsize : r.size < 2 ^ 63 := by
      by_contra hbig
      rw [read_alone_empty hwf (ReadReq.readSize_eq_zero hbig f) hc'] at hreply
      rw [← (Reply.buf.inj (List.cons.inj hreply).1).2] at hlength
      exact hlen.ne hlength
    have hstored : ∀ p, r.pos ≤ p → p < r.pos + r.inFile f → f.storedByte p ≠ none := by
      intro p hle hlt hhole
      rw [read_alone_hole hwf hsize hle hlt hhole hc'] at hreply
      cases hreply
    refine ⟨hsize, not_le.mp fun hlong => ?_, hstored⟩
    rw [read_alone_stored hwf hsize hlen hstored hc'] at hreply
    exact readReply_ne_of_le hlong _ hlength (List.cons.inj hreply).1
  · intro h
    refine ⟨hex, fun c' hc' => ?_⟩
    by_cases hlen : 0 < r.inFile f
    · obtain ⟨hsize, hshort, hstored⟩ := h.resolve_left hlen.ne'
      have hsame : ∀ i < r.inFile f, f.fillHoles.bytesAt r i = f.bytesAt r i := by
        intro i hi
        rw [File.bytesAt, File.storedByte_fillHoles hwf (hstored _ (by omega) (by omega)),
          File.bytesAt]
      have hstored' : ∀ p, r.pos ≤ p → p < r.pos + r.inFile f.fillHoles →
          f.fillHoles.storedByte p ≠ none := by
        intro p hle hlt
        rw [hinFile] at hlt
        rw [File.storedByte_fillHoles hwf (hstored p hle hlt)]
        exact hstored p hle hlt
      have hreply := read_alone_stored hwf hsize hlen hstored hc'
      rw [readReply_of_lt hshort] at hreply
      refine ⟨_, hreply, by simp, fun c'' hc'' => ?_⟩
      rw [read_alone_stored hwf' hsize (by omega) hstored' hc'', hinFile, readReply_congr hsame,
        readReply_of_lt hshort, hreply]
    · have hzero : f.readSize r = 0 := by
        by_cases hsize : r.size < 2 ^ 63
        · rw [ReadReq.readSize_eq hsize]
          omega
        · exact ReadReq.readSize_eq_zero hsize f
      have hreply := read_alone_empty hwf hzero hc'
      refine ⟨[], hreply, ?_, fun c'' hc'' => ?_⟩
      · rw [List.length_nil]
        omega
      · rw [read_alone_empty hwf' (hreadSize.trans hzero) hc'', hreply]

/-- A file of one block at position `4096` with nothing before it, as a write of one byte there
leaves it. -/
def farByte : File :=
  ⟨⟨3, { initStat 3 0 0 0 BLOCK_SIZE 0o644 true with stSize := 4097, stBlocks := 1 }, 1,
    (∅ : StdMap ℤ ℕ).insert 1 0⟩, [Block.make 1], []⟩

/-- The block map of the file is well formed. -/
theorem farByte_wf : farByte.WF := by
  constructor
  · intro k a hk
    simp only [farByte, StdMap.get?_insert] at hk
    split at hk
    · obtain rfl := Option.some.inj hk
      exact Nat.zero_lt_one
    · simp at hk
  · intro k k' a hk hk'
    simp only [farByte, StdMap.get?_insert] at hk hk'
    split at hk <;> split at hk' <;> simp_all

/-- The read of one byte. -/
def readByte (off : ℤ) (h₀ : 0 ≤ off) (h : off < 2 ^ 63) : ReadReq :=
  ⟨0, 1, off, fun _ => 0, h₀, h, by decide⟩

/-- The byte of the block is read as it would be without holes. -/
theorem read_fillHoles_iff_farByte :
    farByte.ServesAsFilled (readByte 4096 (by decide) (by decide)) := by
  refine (read_fillHoles_iff farByte_wf _).mpr (.inr ⟨by decide, by decide, fun p hle hlt => ?_⟩)
  have hpos : ReadReq.pos (readByte 4096 (by decide) (by decide)) = 4096 := rfl
  have hlen : ReadReq.inFile (readByte 4096 (by decide) (by decide)) farByte = 1 := by decide
  rw [hpos] at hle hlt
  rw [hlen] at hlt
  obtain rfl : p = 4096 := by omega
  have hget : farByte.inode.dataBlocks[blockOf 4096]? = some 0 := by
    simp only [farByte, StdMap.get?_insert]
    rw [if_pos (by decide)]
  have hbuf : farByte.bufOf 0 = some fun _ => 0 := rfl
  simp only [File.storedByte, hget, hbuf, Option.map_some]
  exact Option.some_ne_none _

/-- The first byte lies in a hole: the read of it is not answered. -/
theorem readByte_hole_unanswered :
    ¬ farByte.ServesAsFilled (readByte 0 (by decide) (by decide)) := by
  rintro ⟨⟨c', hc'⟩, hserved⟩
  obtain ⟨bytes, hreply, -⟩ := hserved c' hc'
  have hhole : farByte.storedByte 0 = none := by
    have hget : farByte.inode.dataBlocks[blockOf 0]? = none := by
      simp only [farByte, StdMap.get?_insert]
      rw [if_neg (by decide)]
      simp
    simp only [File.storedByte, hget]
  have hlen : ReadReq.inFile (readByte 0 (by decide) (by decide)) farByte = 1 := by decide
  rw [read_alone_hole farByte_wf (by decide) (p := 0) (by decide) (by rw [hlen]; decide) hhole
    hc'] at hreply
  cases hreply

end VeronaFs
