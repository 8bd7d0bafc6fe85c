import VeronaFs.Foundation.Fitting

/-!
# Reading a directory

The handle of an open directory of StackFS is a stream of the file system below, the offset that the
next call continues from, and an entry that was read from the stream and did not fit into the reply.
With such an entry the stream is already past it.

The stream is the interface of `readdir`, `telldir` and `seekdir`, the size of an entry in the reply
is that of `fuse_add_direntry`.
-/

namespace StackFs

open Foundation

/-! ## The code -/

/-- An entry of a stream, `struct dirent`. -/
structure Dirent where
  /-- The inode number. -/
  dIno : UInt64
  /-- The type of the file. -/
  dType : UInt8
  /-- The name. -/
  dName : List UInt8
deriving DecidableEq, Repr

/-- What `readdir` returns. -/
structure DirRead (δ : Type*) where
  /-- The entry, or a null pointer. -/
  entry : Option Dirent
  /-- The error number, zero before the call. -/
  errno : ℕ
  /-- The stream. -/
  dp : δ

/-- The operations on a stream. -/
structure DirStream (δ : Type*) where
  /-- The next entry. -/
  readdir : δ → DirRead δ
  /-- The offset of the next entry. -/
  telldir : δ → ℤ
  /-- Continue at an offset. -/
  seekdir : δ → ℤ → δ

/-- The handle of an open directory, `struct lo_dirptr`. -/
structure LoDirptr (δ : Type*) where
  /-- The stream. -/
  dp : δ
  /-- An entry that did not fit. -/
  entry : Option Dirent
  /-- The offset to continue from. -/
  offset : ℤ

/-- An entry of a reply. -/
structure Direntry where
  /-- The inode number. -/
  ino : UInt64
  /-- The mode of the file, its type alone. -/
  mode : ℕ
  /-- The name. -/
  name : List UInt8
  /-- The offset of the entry after it. -/
  off : ℤ
deriving DecidableEq, Repr

/-- The reply to the kernel. -/
inductive DirReply where
  /-- The buffer. -/
  | buf (entries : List Direntry)
  /-- An error. -/
  | err (errno : ℕ)
deriving DecidableEq, Repr

/-- The size of an entry with a name, which is not zero. -/
structure DirentSize where
  /-- The size. -/
  size : List UInt8 → ℕ
  /-- An entry takes some space. -/
  pos : ∀ name, 0 < size name

variable {δ : Type*}

/-- What a reply says about an entry. -/
def Dirent.direntry (entry : Dirent) (nextoff : ℤ) : Direntry where
  ino := entry.dIno
  mode := entry.dType.toNat <<< 12
  name := entry.dName
  off := nextoff

/-- The handle of a stream. -/
def stackfsLlOpendir (dp : δ) : LoDirptr δ where
  dp := dp
  entry := none
  offset := 0

/-- Read an entry unless there is one, with the error number. -/
def LoDirptr.fetch (stream : DirStream δ) (d : LoDirptr δ) : LoDirptr δ × ℕ :=
  match d.entry with
  | some _ => (d, 0)
  | none =>
    let read := stream.readdir d.dp
    ({ d with dp := read.dp, entry := read.entry }, read.errno)

/-- Fill the buffer of `size` bytes, of which `rem` are left. -/
def readdirLoop (stream : DirStream δ) (dirent : DirentSize) (size : ℕ) :
    ℕ → LoDirptr δ → ℕ → List Direntry → Option (DirReply × LoDirptr δ)
  | 0, _, _, _ => none
  | fuel + 1, d, rem, buf =>
    let (d, errno) := d.fetch stream
    match d.entry with
    | none => some (if errno ≠ 0 ∧ rem = size then .err errno else .buf buf, d)
    | some entry =>
      let nextoff := stream.telldir d.dp
      let entsize := dirent.size entry.dName
      if rem < entsize then some (.buf buf, d)
      else
        readdirLoop stream dirent size fuel { d with entry := none, offset := nextoff }
          (rem - entsize) (buf ++ [entry.direntry nextoff])

/-- Read entries from an offset on. -/
def stackfsLlReaddir (stream : DirStream δ) (dirent : DirentSize) (size : ℕ) (off : ℤ)
    (d : LoDirptr δ) : Option (DirReply × LoDirptr δ) :=
  let d : LoDirptr δ :=
    if off ≠ d.offset then { dp := stream.seekdir d.dp off, entry := none, offset := off } else d
  readdirLoop stream dirent size (size + 1) d size []

/-! ## Streams that are cursors -/

/-- The stream is a cursor over a fixed list.  `pos` is the position of a stream, `tell` the offset of
a position, and the offset of the first entry is zero. -/
structure IsCursor (stream : DirStream δ) (entries : List Dirent) (tell : ℕ → ℤ) (pos : δ → ℕ) :
    Prop where
  /-- A position is one of the list. -/
  pos_le : ∀ dp, pos dp ≤ entries.length
  /-- The entry at the position is read. -/
  readdir_entry : ∀ dp, (stream.readdir dp).entry = entries[pos dp]?
  /-- The end of the list is no error. -/
  readdir_errno : ∀ dp, pos dp = entries.length → (stream.readdir dp).errno = 0
  /-- The cursor moves to the next position. -/
  pos_readdir : ∀ dp, pos (stream.readdir dp).dp = min (pos dp + 1) entries.length
  /-- The offset is that of the position. -/
  telldir_eq : ∀ dp, stream.telldir dp = tell (pos dp)
  /-- The cursor moves to the position of an offset. -/
  pos_seekdir : ∀ dp i, i ≤ entries.length → pos (stream.seekdir dp (tell i)) = i
  /-- The offset of the first entry. -/
  tell_zero : tell 0 = 0

/-- All entries, each with the offset of the entry after it. -/
def listing (entries : List Dirent) (tell : ℕ → ℤ) : List Direntry :=
  entries.zipIdx.map fun p => p.1.direntry (tell (p.2 + 1))

/-- The size of an entry of a reply. -/
def Direntry.size (dirent : DirentSize) (entry : Direntry) : ℕ := dirent.size entry.name

variable {stream : DirStream δ} {dirent : DirentSize} {entries : List Dirent} {tell : ℕ → ℤ}
  {pos : δ → ℕ} {d d' : LoDirptr δ} {dp : δ} {i fuel size rem : ℕ} {off : ℤ} {buf : List Direntry}

/-- The listing has one element for each entry. -/
@[simp] theorem length_listing : (listing entries tell).length = entries.length := by
  simp [listing]

/-- The listing from an entry on. -/
theorem drop_listing {entry : Dirent} (hentry : entries[i]? = some entry) :
    (listing entries tell).drop i =
      entry.direntry (tell (i + 1)) :: (listing entries tell).drop (i + 1) := by
  obtain ⟨hi, rfl⟩ := List.getElem?_eq_some_iff.mp hentry
  rw [List.drop_eq_getElem_cons (by simpa using hi)]
  simp [listing]

/-- The listing behind the last entry. -/
theorem drop_listing_length : (listing entries tell).drop entries.length = [] := by
  simp

/-- The handle continues from the entry at a position: it keeps the entry and the cursor is past it,
or it keeps none and the cursor is there. -/
structure Synced (entries : List Dirent) (tell : ℕ → ℤ) (pos : δ → ℕ) (d : LoDirptr δ) (i : ℕ) :
    Prop where
  /-- It is a position of the list. -/
  le : i ≤ entries.length
  /-- The offset is that of the position. -/
  offset_eq : d.offset = tell i
  /-- The cursor and the entry. -/
  cursor : d.entry = none ∧ pos d.dp = i ∨
    ∃ entry, entries[i]? = some entry ∧ d.entry = some entry ∧ pos d.dp = i + 1

/-- Behind the last entry nothing is fetched, and this is no error. -/
theorem Synced.fetch_length (h : IsCursor stream entries tell pos)
    (hd : Synced entries tell pos d entries.length) :
    Synced entries tell pos (d.fetch stream).1 entries.length ∧
      (d.fetch stream).1.entry = none ∧ (d.fetch stream).2 = 0 := by
  obtain ⟨hentry, hpos⟩ | ⟨entry, hsome, -, -⟩ := hd.cursor
  · have hnone : (stream.readdir d.dp).entry = none := by
      rw [h.readdir_entry, hpos, List.getElem?_length]
    have hpos' : pos (stream.readdir d.dp).dp = entries.length := by
      rw [h.pos_readdir, hpos]
      omega
    simp only [LoDirptr.fetch, hentry]
    exact ⟨⟨le_rfl, hd.offset_eq, Or.inl ⟨hnone, hpos'⟩⟩, hnone, h.readdir_errno _ hpos⟩
  · rw [List.getElem?_length] at hsome
    cases hsome

/-- Before the end the entry at the position is fetched, and the cursor is past it. -/
theorem Synced.fetch_entry (h : IsCursor stream entries tell pos) (hd : Synced entries tell pos d i)
    {entry : Dirent} (hentry : entries[i]? = some entry) :
    Synced entries tell pos (d.fetch stream).1 i ∧
      (d.fetch stream).1.entry = some entry ∧ pos (d.fetch stream).1.dp = i + 1 := by
  have hi : i < entries.length := (List.getElem?_eq_some_iff.mp hentry).1
  obtain ⟨hnone, hpos⟩ | ⟨entry', hsome, hkept, hpos⟩ := hd.cursor
  · have hread : (stream.readdir d.dp).entry = some entry := by
      rw [h.readdir_entry, hpos, hentry]
    have hpos' : pos (stream.readdir d.dp).dp = i + 1 := by
      rw [h.pos_readdir, hpos]
      omega
    simp only [LoDirptr.fetch, hnone]
    exact ⟨⟨hd.le, hd.offset_eq, Or.inr ⟨entry, hentry, hread, hpos'⟩⟩, hread, hpos'⟩
  · obtain rfl := Option.some.inj (hentry.symm.trans hsome)
    simp only [LoDirptr.fetch, hkept]
    exact ⟨hd, trivial, hpos⟩

/-- The loop appends the longest run that fits, and the handle continues behind it. -/
theorem readdirLoop_spec (dirent : DirentSize) (size : ℕ) (h : IsCursor stream entries tell pos)
    (hd : Synced entries tell pos d i) (hfuel : rem < fuel) (buf : List Direntry) :
    ∃ d', readdirLoop stream dirent size fuel d rem buf = some
        (.buf (buf ++ fitting (Direntry.size dirent) rem ((listing entries tell).drop i)), d') ∧
      Synced entries tell pos d'
        (i + (fitting (Direntry.size dirent) rem ((listing entries tell).drop i)).length) := by
  induction fuel generalizing d i rem buf with
  | zero => exact absurd hfuel (Nat.not_lt_zero _)
  | succ fuel ih =>
    rw [readdirLoop]
    rcases hd.le.eq_or_lt with rfl | hi
    · obtain ⟨hsynced, hentry, herrno⟩ := hd.fetch_length h
      have hnil : fitting (Direntry.size dirent) rem [] = [] := rfl
      rw [drop_listing_length, hnil]
      exact ⟨(d.fetch stream).1, by simp [hentry, herrno], hsynced⟩
    · have hentry := List.getElem?_eq_getElem hi
      obtain ⟨hsynced, hfetched, hpos⟩ := hd.fetch_entry h hentry
      have htell : stream.telldir (d.fetch stream).1.dp = tell (i + 1) := by
        rw [h.telldir_eq, hpos]
      have hsize : Direntry.size dirent (entries[i].direntry (tell (i + 1))) =
          dirent.size entries[i].dName := rfl
      have hroom := dirent.pos entries[i].dName
      rw [drop_listing hentry, fitting, hsize]
      simp only [hfetched, htell]
      by_cases hfits : dirent.size entries[i].dName ≤ rem
      · have hnext : Synced entries tell pos
            { (d.fetch stream).1 with entry := none, offset := tell (i + 1) } (i + 1) :=
          ⟨hi, rfl, Or.inl ⟨rfl, hpos⟩⟩
        have hfuel' : rem - dirent.size entries[i].dName < fuel := by omega
        obtain ⟨d', hloop, hd'⟩ := ih hnext hfuel' (buf ++ [entries[i].direntry (tell (i + 1))])
        rw [if_neg (Nat.not_lt.mpr hfits), if_pos hfits, hloop, List.append_assoc]
        refine ⟨d', rfl, ?_⟩
        rwa [List.length_cons, Nat.add_comm _ 1, ← Nat.add_assoc]
      · rw [if_pos (Nat.lt_of_not_le hfits), if_neg hfits]
        exact ⟨_, by rw [List.append_nil], hsynced⟩

/-- A call with the offset of a position replies with the longest run from there, and the handle
continues behind it. -/
theorem stackfsLlReaddir_spec (dirent : DirentSize) (size : ℕ) {j : ℕ}
    (h : IsCursor stream entries tell pos) (hd : Synced entries tell pos d j)
    (hi : i ≤ entries.length) :
    ∃ d' r, stackfsLlReaddir stream dirent size (tell i) d = some (.buf r, d') ∧
      LongestRun (Direntry.size dirent) size ((listing entries tell).drop i) r ∧
      Synced entries tell pos d' (i + r.length) := by
  have hsought : Synced entries tell pos (if tell i ≠ d.offset then
      { dp := stream.seekdir d.dp (tell i), entry := none, offset := tell i } else d) i := by
    by_cases hoff : tell i = d.offset
    · rw [if_neg (not_not.mpr hoff)]
      -- Different positions have different offsets.
      have hij : i = j := by
        have hpos := h.pos_seekdir d.dp i hi
        rw [hoff, hd.offset_eq, h.pos_seekdir d.dp j hd.le] at hpos
        exact hpos.symm
      rwa [hij]
    · rw [if_pos hoff]
      exact ⟨hi, rfl, Or.inl ⟨rfl, h.pos_seekdir d.dp i hi⟩⟩
  obtain ⟨d', hloop, hd'⟩ := readdirLoop_spec dirent size h hsought (Nat.lt_succ_self size) []
  exact ⟨d', _, hloop, longestRun_fitting .., hd'⟩

/-! ## Sequences of calls -/

/-- The entries of a reply. -/
def DirReply.sent : DirReply → List Direntry
  | .buf r => r
  | .err _ => []

/-- Where a reader continues that follows the offsets. -/
def nextOffset (off : ℤ) (r : List Direntry) : ℤ := (r.getLast?.map Direntry.off).getD off

/-- The calls on the handle of a stream: the offsets that were returned, the handle, and a reader that
follows the offsets from zero, with its next offset and the entries it got.  Between its calls there
are any others, with offsets that are zero or were returned. -/
inductive Reads (stream : DirStream δ) (dirent : DirentSize) (dp : δ) :
    List ℤ → LoDirptr δ → ℤ → List Direntry → Prop
  /-- The directory is opened. -/
  | opendir : Reads stream dirent dp [] (stackfsLlOpendir dp) 0 []
  /-- A call with any of the offsets. -/
  | readdir {offs : List ℤ} {d d' : LoDirptr δ} {next off : ℤ} {got : List Direntry} {size : ℕ}
      {reply : DirReply} (h : Reads stream dirent dp offs d next got) (hoff : off = 0 ∨ off ∈ offs)
      (hcall : stackfsLlReaddir stream dirent size off d = some (reply, d')) :
      Reads stream dirent dp (offs ++ reply.sent.map Direntry.off) d' next got
  /-- The next call of the reader. -/
  | next {offs : List ℤ} {d d' : LoDirptr δ} {next : ℤ} {got : List Direntry} {size : ℕ}
      {reply : DirReply} (h : Reads stream dirent dp offs d next got)
      (hcall : stackfsLlReaddir stream dirent size next d = some (reply, d')) :
      Reads stream dirent dp (offs ++ reply.sent.map Direntry.off) d'
        (nextOffset next reply.sent) (got ++ reply.sent)

/-- An entry of the listing has the offset of a position. -/
theorem exists_tell_of_mem {entry : Direntry} (h : entry ∈ listing entries tell) :
    ∃ i ≤ entries.length, entry.off = tell i := by
  obtain ⟨⟨e, k⟩, hmem, rfl⟩ := List.mem_map.mp h
  have hk : k < entries.length := List.snd_lt_of_mem_zipIdx hmem
  exact ⟨k + 1, hk, rfl⟩

/-- Behind a run from a position the reader continues at the position after it. -/
theorem nextOffset_run {n : ℕ} (hn : i + n ≤ entries.length) :
    nextOffset (tell i) (((listing entries tell).drop i).take n) = tell (i + n) := by
  cases n with
  | zero => simp [nextOffset]
  | succ n =>
    have hlast : (((listing entries tell).drop i).take (n + 1)).getLast? =
        (listing entries tell)[i + n]? := by
      rw [List.getLast?_eq_getElem?, List.length_take, List.length_drop, length_listing]
      rw [show min (n + 1) (entries.length - i) - 1 = n by omega]
      rw [List.getElem?_take_of_lt (Nat.lt_succ_self n), List.getElem?_drop]
    rw [nextOffset, hlast, List.getElem?_eq_getElem (by simp; omega)]
    simp [listing, Dirent.direntry, Nat.add_assoc]

/-- What holds after every sequence of calls. -/
structure Listed (entries : List Dirent) (tell : ℕ → ℤ) (pos : δ → ℕ) (offs : List ℤ)
    (d : LoDirptr δ) (next : ℤ) (got : List Direntry) : Prop where
  /-- The handle continues from a position. -/
  synced : ∃ i, Synced entries tell pos d i
  /-- The offsets that were returned are those of positions. -/
  offs_tell : ∀ off ∈ offs, ∃ i ≤ entries.length, off = tell i
  /-- The reader got all entries before the position where it continues. -/
  got_eq : ∃ i ≤ entries.length, next = tell i ∧ got = (listing entries tell).take i

/-- An offset that is zero or was returned is that of a position. -/
theorem Listed.exists_tell {offs : List ℤ} {next : ℤ} {got : List Direntry}
    (h : IsCursor stream entries tell pos) (hl : Listed entries tell pos offs d next got)
    (hoff : off = 0 ∨ off ∈ offs) : ∃ i ≤ entries.length, off = tell i := by
  rcases hoff with rfl | hoff
  · exact ⟨0, Nat.zero_le _, h.tell_zero.symm⟩
  · exact hl.offs_tell off hoff

/-- A call returns offsets of positions. -/
theorem Listed.offs_append {offs : List ℤ} {next : ℤ} {got r : List Direntry}
    (hl : Listed entries tell pos offs d next got)
    (hr : LongestRun (Direntry.size dirent) size ((listing entries tell).drop i) r) :
    ∀ off ∈ offs ++ r.map Direntry.off, ∃ i ≤ entries.length, off = tell i := by
  intro off hoff
  rcases List.mem_append.mp hoff with hoff | hoff
  · exact hl.offs_tell off hoff
  · obtain ⟨entry, hentry, rfl⟩ := List.mem_map.mp hoff
    exact exists_tell_of_mem (List.mem_of_mem_drop (hr.isPrefix.subset hentry))

/-- After every sequence of calls. -/
theorem Reads.listed {offs : List ℤ} {next : ℤ} {got : List Direntry}
    (h : IsCursor stream entries tell pos) (hdp : pos dp = 0)
    (hreads : Reads stream dirent dp offs d next got) :
    Listed entries tell pos offs d next got := by
  induction hreads with
  | opendir =>
    refine ⟨⟨0, Nat.zero_le _, h.tell_zero.symm, Or.inl ⟨rfl, hdp⟩⟩, fun off hoff => ?_,
      ⟨0, Nat.zero_le _, h.tell_zero.symm, by simp⟩⟩
    exact absurd hoff List.not_mem_nil
  | readdir _ hoff hcall ih =>
    obtain ⟨j, hsynced⟩ := ih.synced
    obtain ⟨i, hi, rfl⟩ := ih.exists_tell h hoff
    obtain ⟨d', r, hcall', hrun, hsynced'⟩ := stackfsLlReaddir_spec dirent _ h hsynced hi
    obtain ⟨rfl, rfl⟩ := Prod.mk.inj (Option.some.inj (hcall.symm.trans hcall'))
    exact ⟨⟨_, hsynced'⟩, ih.offs_append hrun, ih.got_eq⟩
  | next _ hcall ih =>
    obtain ⟨j, hsynced⟩ := ih.synced
    obtain ⟨i, hi, rfl, rfl⟩ := ih.got_eq
    obtain ⟨d', r, hcall', hrun, hsynced'⟩ := stackfsLlReaddir_spec dirent _ h hsynced hi
    obtain ⟨rfl, rfl⟩ := Prod.mk.inj (Option.some.inj (hcall.symm.trans hcall'))
    have htake : r = ((listing entries tell).drop i).take r.length := hrun.eq_take
    refine ⟨⟨_, hsynced'⟩, ih.offs_append hrun, ⟨i + r.length, hsynced'.le, ?_, ?_⟩⟩
    · change nextOffset (tell i) r = _
      calc nextOffset (tell i) r
          = nextOffset (tell i) (((listing entries tell).drop i).take r.length) := by rw [← htake]
        _ = tell (i + r.length) := nextOffset_run hsynced'.le
    · change _ ++ r = _
      rw [List.take_add, ← htake]

/-- After every sequence of calls: a call with an offset that is zero or was returned replies with the
longest run of entries that fits, from the entry of the offset on and each with the offset of its
successor; and a reader that follows the offsets got the entries before its position, in order and
without a gap, and all of them when a reply with room for any entry is empty. -/
theorem readdir_listing {offs : List ℤ} {next : ℤ} {got : List Direntry}
    (h : IsCursor stream entries tell pos) (hdp : pos dp = 0)
    (hreads : Reads stream dirent dp offs d next got) :
    (∀ size off, off = 0 ∨ off ∈ offs → ∃ i ≤ entries.length, off = tell i ∧
      ∃ r d', stackfsLlReaddir stream dirent size off d = some (.buf r, d') ∧
        LongestRun (Direntry.size dirent) size ((listing entries tell).drop i) r) ∧
    (∃ i ≤ entries.length, next = tell i ∧ got = (listing entries tell).take i) ∧
    ∀ size d', (∀ entry ∈ entries, dirent.size entry.dName ≤ size) →
      stackfsLlReaddir stream dirent size next d = some (.buf [], d') →
      got = listing entries tell := by
  have hlisted := hreads.listed h hdp
  obtain ⟨j, hsynced⟩ := hlisted.synced
  refine ⟨fun size off hoff => ?_, hlisted.got_eq, fun size d' hsize hcall => ?_⟩
  · obtain ⟨i, hi, rfl⟩ := hlisted.exists_tell h hoff
    obtain ⟨d', r, hcall, hrun, -⟩ :=
      stackfsLlReaddir_spec dirent size h hsynced hi
    exact ⟨i, hi, rfl, r, d', hcall, hrun⟩
  · obtain ⟨i, hi, rfl, rfl⟩ := hlisted.got_eq
    obtain ⟨d'', r, hcall', hrun, -⟩ :=
      stackfsLlReaddir_spec dirent size h hsynced hi
    obtain ⟨hr, rfl⟩ := Prod.mk.inj (Option.some.inj (hcall.symm.trans hcall'))
    obtain rfl := DirReply.buf.inj hr
    have hfits : ∀ entry ∈ (listing entries tell).drop i, Direntry.size dirent entry ≤ size := by
      intro entry hentry
      obtain ⟨⟨e, k⟩, hmem, rfl⟩ := List.mem_map.mp (List.mem_of_mem_drop hentry)
      exact hsize e (List.fst_mem_of_mem_zipIdx hmem)
    exact List.take_of_length_le (List.drop_eq_nil_iff.mp (hrun.eq_nil hfits))

/-- The stream of a list, at a position.  The offsets are the positions. -/
def listStream (entries : List Dirent) : DirStream ℕ where
  readdir dp := ⟨entries[dp]?, 0, min (dp + 1) entries.length⟩
  telldir dp := (min dp entries.length : ℕ)
  seekdir _ off := off.toNat

/-- The stream of a list is a cursor over it. -/
theorem listStream_isCursor (entries : List Dirent) :
    IsCursor (listStream entries) entries (fun i => (i : ℤ)) fun dp => min dp entries.length where
  pos_le dp := Nat.min_le_right ..
  readdir_entry dp := by
    rcases Nat.lt_or_ge dp entries.length with hdp | hdp
    · rw [Nat.min_eq_left hdp.le]
      rfl
    · rw [Nat.min_eq_right hdp, List.getElem?_length]
      exact List.getElem?_eq_none hdp
  readdir_errno _ _ := rfl
  pos_readdir dp := by
    simp only [listStream]
    omega
  telldir_eq _ := rfl
  pos_seekdir _ i hi := by
    simp only [listStream, Int.toNat_natCast]
    omega
  tell_zero := rfl

/-- The header of an entry has 24 bytes, an entry is padded to a multiple of eight. -/
def fuseDirentSize : DirentSize where
  size name := (24 + name.length + 7) / 8 * 8
  pos name := by omega

/-- The first of two entries fits, the second is kept. -/
theorem readdir_listing_two : ∃ offs d next got,
    Reads (listStream [⟨7, 8, [97]⟩, ⟨9, 4, [98]⟩]) fuseDirentSize 0 offs d next got ∧
    d.entry = some ⟨9, 4, [98]⟩ ∧
    ∃ i ≤ 2, next = (i : ℕ) ∧
      got = (listing [⟨7, 8, [97]⟩, ⟨9, 4, [98]⟩] fun i => (i : ℤ)).take i := by
  have hopened : Reads (listStream [⟨7, 8, [97]⟩, ⟨9, 4, [98]⟩]) fuseDirentSize 0 []
      (stackfsLlOpendir 0) 0 [] := .opendir
  have hcall : stackfsLlReaddir (listStream [⟨7, 8, [97]⟩, ⟨9, 4, [98]⟩]) fuseDirentSize 40 0
      (stackfsLlOpendir 0) = some (.buf [⟨7, 32768, [97], 1⟩], ⟨2, some ⟨9, 4, [98]⟩, 1⟩) := rfl
  have hreads := hopened.next hcall
  exact ⟨_, _, _, _, hreads, rfl, (readdir_listing (listStream_isCursor _) rfl hreads).2.1⟩

end StackFs
