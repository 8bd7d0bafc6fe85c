import VeronaFs.FileSystem.WriteRuns

/-!
# The parts of a read

`RegInode::read` cuts a range whose blocks exist into consecutive parts, one for each block it
meets, and each part runs twice: a copy out of its block and a count.  `readLoop_isPart`,
`readLoop_sum` and `readLoop_covers` describe the parts; `ReadsStep` says what a block or counter
behaviour does to the read buffers and which reply it sends.
-/

namespace VeronaFs

open Boc Foundation

/-! ## Parts -/

/-- The part of a read that a behaviour copies or counts. -/
def FileTask.part? : FileTask → Option ReadPart
  | .readBlock _ p => some p
  | .count p => some p
  | _ => none

/-- The bytes of the read `req` that a behaviour has still to copy or to count. -/
def FileTask.bytesOf (req : ℕ) (t : FileTask) : ℕ :=
  match t.part? with
  | some p => if p.req = req then p.bytesToRead else 0
  | none => 0

/-- The bytes of the read `req` that are still to be counted. -/
def pendingBytes (req : ℕ) (l : List FileTask) : ℕ := (l.map (FileTask.bytesOf req)).sum

/-- The pending bytes of two lists. -/
@[simp] theorem pendingBytes_append (req : ℕ) (l₁ l₂ : List FileTask) :
    pendingBytes req (l₁ ++ l₂) = pendingBytes req l₁ + pendingBytes req l₂ := by
  simp [pendingBytes]

/-- The pending bytes of a longer list. -/
@[simp] theorem pendingBytes_cons (req : ℕ) (t : FileTask) (l : List FileTask) :
    pendingBytes req (t :: l) = t.bytesOf req + pendingBytes req l := rfl

/-- No bytes of a read are pending when none of its parts is. -/
theorem pendingBytes_eq_zero {req : ℕ} {l : List FileTask}
    (h : ∀ t ∈ l, ∀ p, t.part? = some p → p.req ≠ req) : pendingBytes req l = 0 := by
  refine List.sum_eq_zero fun n hn => ?_
  obtain ⟨t, ht, rfl⟩ := List.mem_map.mp hn
  unfold FileTask.bytesOf
  split
  · next p hp => rw [if_neg (h t ht p hp)]
  · rfl

/-- The bytes of a pending part are pending. -/
theorem le_pendingBytes {req : ℕ} {l : List FileTask} {t : FileTask} {p : ReadPart} (ht : t ∈ l)
    (hp : t.part? = some p) (hreq : p.req = req) : p.bytesToRead ≤ pendingBytes req l := by
  have hle := List.single_le_sum (l := l.map (FileTask.bytesOf req)) (by simp) (t.bytesOf req)
    (List.mem_map_of_mem ht)
  have hself : t.bytesOf req = p.bytesToRead := by
    simp only [FileTask.bytesOf, hp]
    rw [if_pos hreq]
  rwa [hself] at hle

/-! ## The loop of a read -/

/-- A part of the read of the range from `o` on: it copies consecutive bytes out of the block that
holds them. -/
structure IsPart (m : StdMap ℤ ℕ) (o req c total a : ℕ) (p : ReadPart) : Prop where
  /-- The request. -/
  req_eq : p.req = req
  /-- The counter. -/
  counter_eq : p.counter = c
  /-- The number of bytes of the whole read. -/
  total_eq : p.total = total
  /-- The part is not empty. -/
  pos : 0 < p.bytesToRead
  /-- The part starts where its first byte lies in the block. -/
  offset_eq : p.blockOffset = (o + p.bytesRead) % BLOCK_SIZE
  /-- The part ends in the block. -/
  fits : p.blockOffset + p.bytesToRead ≤ BLOCK_SIZE
  /-- The block is the one of the first byte. -/
  block : m[blockOf (o + p.bytesRead)]? = some a

/-- The bytes of a part lie in one block, one after the other. -/
theorem IsPart.byte {m : StdMap ℤ ℕ} {o req c total a : ℕ} {p : ReadPart}
    (h : IsPart m o req c total a p) {j : ℕ} (hj : j < p.bytesToRead) :
    blockOf (o + (p.bytesRead + j)) = blockOf (o + p.bytesRead) ∧
      (slotOf (o + (p.bytesRead + j)) : ℕ) = p.blockOffset + j := by
  have hB : BLOCK_SIZE = 4096 := rfl
  have hoff := h.offset_eq
  have hfits := h.fits
  rw [blockOf_eq_iff]
  simp only [slotOf]
  rw [hB] at *
  omega

section Loop

variable {m : StdMap ℤ ℕ} {o req c total : ℕ}

/-- One round of the loop at a position whose block exists. -/
theorem readLoop_step {br rem a : ℕ} (hlt : o + br < 2 ^ 64) (hrem : 0 < rem)
    (ha : m[blockOf (o + br)]? = some a) :
    File.readLoop m o req c total br rem =
      .readBlock a ⟨req, c, min (BLOCK_SIZE - (o + br) % BLOCK_SIZE) rem, (o + br) % BLOCK_SIZE, br,
          total⟩ ::
        File.readLoop m o req c total (br + min (BLOCK_SIZE - (o + br) % BLOCK_SIZE) rem)
          ((rem - min (BLOCK_SIZE - (o + br) % BLOCK_SIZE) rem : ℕ) : ℤ) := by
  have hpos : cU64 ((o : ℤ) + (br : ℤ)) = o + br := by
    rw [cU64_of_lt (by omega) (by omega)]
    omega
  have hmin : min (BLOCK_SIZE - (o + br) % BLOCK_SIZE) rem ≤ rem := min_le_right _ _
  rw [File.readLoop, dif_pos (by omega)]
  simp only [hpos]
  split
  · next hnone =>
    rw [blockOf] at ha
    rw [ha] at hnone
    cases hnone
  · next b hb =>
    rw [blockOf] at ha
    rw [ha] at hb
    obtain rfl := Option.some.inj hb
    simp only [Int.toNat_natCast]
    rw [Nat.cast_sub hmin]

/-- The loop ends when nothing remains. -/
theorem readLoop_zero (br : ℕ) : File.readLoop m o req c total br ((0 : ℕ) : ℤ) = [] := by
  rw [File.readLoop, dif_neg (by simp)]

/-- The parts of a read whose blocks exist: they are parts of its range, they have as many bytes as
the range, and they cover it. -/
theorem readLoop_parts (m : StdMap ℤ ℕ) (o req c total rem : ℕ) : ∀ br : ℕ,
    o + br + rem ≤ 2 ^ 64 →
    (∀ q, o + br ≤ q → q < o + br + rem → m[blockOf q]? ≠ none) →
    (∀ t ∈ File.readLoop m o req c total br rem,
      ∃ a p, t = .readBlock a p ∧ IsPart m o req c total a p) ∧
    pendingBytes req (File.readLoop m o req c total br rem) = rem ∧
    ∀ i, br ≤ i → i < br + rem → ∃ a p, .readBlock a p ∈ File.readLoop m o req c total br rem ∧
      p.bytesRead ≤ i ∧ i < p.bytesRead + p.bytesToRead := by
  induction rem using Nat.strong_induction_on with
  | _ rem ih =>
    intro br hend hpresent
    rcases Nat.eq_zero_or_pos rem with rfl | hrem
    · rw [readLoop_zero]
      exact ⟨by simp, rfl, by omega⟩
    · obtain ⟨a, ha⟩ := Option.ne_none_iff_exists'.mp (hpresent (o + br) le_rfl (by omega))
      have hlt : (o + br) % BLOCK_SIZE < BLOCK_SIZE := Nat.mod_lt _ (by decide)
      rw [readLoop_step (by omega) hrem ha]
      set n := min (BLOCK_SIZE - (o + br) % BLOCK_SIZE) rem with hn
      obtain ⟨hparts, hsum, hcov⟩ := ih (rem - n) (by omega) (br + n) (by omega)
        fun q h₁ h₂ => hpresent q (by omega) (by omega)
      refine ⟨fun t ht => ?_, ?_, fun i h₁ h₂ => ?_⟩
      · rcases List.mem_cons.mp ht with rfl | ht
        · exact ⟨a, _, rfl, rfl, rfl, rfl, by simp only; omega, rfl, by simp only; omega, ha⟩
        · exact hparts t ht
      · rw [pendingBytes_cons, hsum]
        simp only [FileTask.bytesOf, FileTask.part?, if_true]
        omega
      · by_cases hi : i < br + n
        · exact ⟨a, _, List.mem_cons_self, h₁, hi⟩
        · obtain ⟨a', p, hp, h⟩ := hcov i (by omega) (by omega)
          exact ⟨a', p, List.mem_cons_of_mem _ hp, h⟩

end Loop

/-! ## Steps on the read buffers -/

/-- The reply of a read of `total` bytes: the count is converted to `int`. -/
def readReply (req total : ℕ) (bytes : ℕ → UInt8) : Reply :=
  if 0 ≤ cInt total then .buf req ((List.range (cInt total).toNat).map bytes)
  else .err req (cInt (-cInt total))

/-- The reply of a read looks at the bytes below its length. -/
theorem readReply_congr {req total : ℕ} {bytes bytes' : ℕ → UInt8}
    (h : ∀ i < total, bytes i = bytes' i) : readReply req total bytes = readReply req total bytes' := by
  unfold readReply
  split
  · have hle : (cInt total).toNat ≤ total := by
      have := cInt_le (Int.natCast_nonneg total)
      omega
    refine congrArg (Reply.buf req) (List.map_congr_left fun i hi => h i ?_)
    exact (List.mem_range.mp hi).trans_le hle
  · rfl

/-- The bytes of a read buffer after a part was copied into it. -/
def ReadBuf.copy (rb : ReadBuf) (b : Buffer) (p : ReadPart) : ReadBuf :=
  { rb with
    bytes := fun j =>
      if p.bytesRead ≤ j ∧ j < p.bytesRead + p.bytesToRead then
        if h : p.blockOffset + (j - p.bytesRead) < BLOCK_SIZE then b ⟨_, h⟩ else 0
      else rb.bytes j }

/-- What a behaviour that does not run on the inode does to the read buffers, and the reply it
sends. -/
inductive ReadsStep : FileTask → File → Effect File FileTask Reply → Prop
  /-- Writing and releasing blocks leave the read buffers. -/
  | other {t : FileTask} {f : File} {e : Effect File FileTask Reply} (ht : t.part? = none)
      (hreads : e.state.reads = f.reads) (hspawned : e.spawned = []) (hreplies : e.replies = []) :
      ReadsStep t f e
  /-- A part is copied into its buffer and will be counted. -/
  | copy {a : ℕ} {p : ReadPart} {f : File} {e : Effect File FileTask Reply} {rb : ReadBuf}
      {b : Buffer} (hrb : f.reads[p.counter]? = some rb) (hb : f.bufOf a = some b)
      (hreads : e.state.reads = f.reads.set p.counter (rb.copy b p))
      (hspawned : e.spawned = [.count p]) (hreplies : e.replies = []) :
      ReadsStep (.readBlock a p) f e
  /-- A part is counted, and the read is answered when it was the last one. -/
  | count {p : ReadPart} {f : File} {e : Effect File FileTask Reply} {rb : ReadBuf}
      (hrb : f.reads[p.counter]? = some rb)
      (hreads : e.state.reads =
        f.reads.set p.counter { rb with count := rb.count + p.bytesToRead })
      (hspawned : e.spawned = [])
      (hreplies : e.replies =
        if rb.count + p.bytesToRead = p.total then [readReply p.req p.total rb.bytes] else []) :
      ReadsStep (.count p) f e

/-- Block and counter behaviours do what `ReadsStep` says. -/
theorem File.body_readsStep {t : FileTask} {f : File} {e : Effect File FileTask Reply}
    (ht : ∀ r, t ≠ .inode r) (h : File.body t f = .ok e) : ReadsStep t f e := by
  cases t with
  | inode r => exact absurd rfl (ht r)
  | writeOne w =>
    obtain ⟨blk, -, h⟩ := bind_eq_ok.mp h
    obtain ⟨blk', -, h⟩ := bind_eq_ok.mp h
    rw [← Except.ok.inj h]
    exact .other rfl rfl rfl rfl
  | writeTwo w₀ w₁ =>
    obtain ⟨blk₀, -, h⟩ := bind_eq_ok.mp h
    obtain ⟨blk₀', -, h⟩ := bind_eq_ok.mp h
    obtain ⟨blk₁, -, h⟩ := bind_eq_ok.mp h
    obtain ⟨blk₁', -, h⟩ := bind_eq_ok.mp h
    rw [← Except.ok.inj h]
    exact .other rfl rfl rfl rfl
  | readBlock a p =>
    obtain ⟨blk, hget, h⟩ := bind_eq_ok.mp h
    cases hrb : f.reads[p.counter]? with
    | none => rw [hrb] at h; cases h
    | some rb =>
      rw [hrb] at h
      obtain ⟨bytes, hread, h⟩ := bind_eq_ok.mp h
      rw [← Except.ok.inj h]
      obtain ⟨-, hbuf⟩ := getBlock_eq_ok hget
      unfold Block.read at hread
      cases hb : blk.buf with
      | none => rw [hb] at hread; cases hread
      | some b =>
        rw [hb] at hread
        simp only at hread
        split at hread
        · obtain rfl := Except.ok.inj hread
          exact .copy hrb (hbuf.trans hb) rfl rfl rfl
        · cases hread
  | count p =>
    simp only [body, countRead] at h
    cases hrb : f.reads[p.counter]? with
    | none => rw [hrb] at h; cases h
    | some rb =>
      rw [hrb] at h
      simp only at h
      split at h
      · next htotal =>
        split at h
        · next hret =>
          rw [← Except.ok.inj h]
          refine .count hrb rfl rfl ?_
          rw [if_pos htotal, readReply, ← htotal, if_pos hret]
        · next hret =>
          rw [← Except.ok.inj h]
          refine .count hrb rfl rfl ?_
          rw [if_pos htotal, readReply, ← htotal, if_neg hret]
      · next htotal =>
        rw [← Except.ok.inj h]
        exact .count hrb rfl rfl (by rw [if_neg htotal])
  | freeSpace a =>
    obtain ⟨blk, -, h⟩ := bind_eq_ok.mp h
    rw [← Except.ok.inj h]
    exact .other rfl rfl rfl rfl

end VeronaFs
