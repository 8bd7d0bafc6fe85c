import VeronaFs.Boc.System
import VeronaFs.FileSystem.Setattr

/-!
# Regular inodes and their blocks

A regular inode keeps its data in blocks of `BLOCK_SIZE` bytes, each behind a cown of its own, and a
map from block ids to these cowns.  A block cown is created by one inode and only ever handed to
behaviours of that inode, so the state `File` holds an inode together with the blocks it created,
and a block cown is the position of its block in the order of creation.

The functions follow `RegInode::write`, `RegInode::read`, `FileSystem::truncate`,
`FileSystem::setattr`, `FileSystem::open` and `FileSystem::my_fallocate`; the behaviours they
schedule are the constructors of `FileTask`, with what the lambdas capture as their arguments.
-/

namespace VeronaFs

open Boc Foundation

/-! ## Data -/

/-- The memory behind a block. -/
abbrev Buffer := Fin BLOCK_SIZE → UInt8

/-- A data block.  `buf` is empty once the buffer was released. -/
structure Block where
  /-- The number the block was created with. -/
  blockNumber : ℤ
  /-- The buffer the block owns. -/
  buf : Option Buffer

/-- The constructor of `Block`: a zeroed buffer. -/
def Block.make (blockNumber : ℤ) : Block := ⟨cInt blockNumber, some fun _ => 0⟩

/-- The `memcpy` of `Block::write` into a buffer. -/
def Buffer.store (b : Buffer) (data : List UInt8) (bytesToWrite blockOffset bytesWritten : ℕ) :
    Buffer := fun i =>
  if blockOffset ≤ i ∧ i < blockOffset + bytesToWrite then
    data.getD (bytesWritten + (i - blockOffset)) 0
  else b i

/-- `Block::write`. -/
def Block.write (blk : Block) (data : List UInt8) (bytesToWrite blockOffset bytesWritten : ℕ) :
    Except Fault Block :=
  match blk.buf with
  | none => .error .nullBuffer
  | some b =>
    if blockOffset + bytesToWrite ≤ BLOCK_SIZE ∧ bytesWritten + bytesToWrite ≤ data.length then
      .ok { blk with buf := some (b.store data bytesToWrite blockOffset bytesWritten) }
    else .error .outOfBounds

/-- `Block::read` into the memory `data`. -/
def Block.read (blk : Block) (data : ℕ → UInt8) (bytesToRead blockOffset bytesRead : ℕ) :
    Except Fault (ℕ → UInt8) :=
  match blk.buf with
  | none => .error .nullBuffer
  | some b =>
    if blockOffset + bytesToRead ≤ BLOCK_SIZE then
      .ok fun j =>
        if bytesRead ≤ j ∧ j < bytesRead + bytesToRead then
          if h : blockOffset + (j - bytesRead) < BLOCK_SIZE then b ⟨_, h⟩ else 0
        else data j
    else .error .outOfBounds

/-- A regular inode.  The inodes that `make_cown<RegInode>()` creates as placeholders (`fake`) are
not represented by this type. -/
structure RegInode where
  /-- The inode number. -/
  ino : ℕ
  /-- The attributes. -/
  iSt : Stat
  /-- The number of references the kernel holds. -/
  krefs : ℤ
  /-- The block cowns by block id. -/
  dataBlocks : StdMap ℤ ℕ

/-- The buffer allocated for a read and the counter of the bytes copied into it. -/
structure ReadBuf where
  /-- The memory of the buffer. -/
  bytes : ℕ → UInt8
  /-- `Counter::count`. -/
  count : ℕ

/-- A regular inode with the blocks it created and the buffers of the reads it started. -/
structure File where
  /-- The inode. -/
  inode : RegInode
  /-- The blocks in the order of their creation. -/
  blocks : List Block
  /-- The read buffers in the order of their creation. -/
  reads : List ReadBuf

/-- A regular inode as it is created: it has no data and no references. -/
def File.make (ino : ℕ) (iSt : Stat) : File := ⟨⟨ino, iSt, 0, ∅⟩, [], []⟩

/-- The attributes of the inode. -/
abbrev File.st (f : File) : Stat := f.inode.iSt

/-- A block to be written: `Wrapper`. -/
structure Wrapper where
  /-- The block cown. -/
  ptr : ℕ
  /-- The number of bytes. -/
  bytesToWrite : ℤ
  /-- The position inside the block. -/
  blockOffset : ℤ
  /-- The position inside the data. -/
  bytesWritten : ℤ
  /-- The data. -/
  readBuf : List UInt8

/-- `Block::write` with the arguments of a wrapper. -/
def Wrapper.apply (w : Wrapper) (blk : Block) : Except Fault Block :=
  blk.write w.readBuf (cU64 w.bytesToWrite) (cU64 w.blockOffset) (cU64 w.bytesWritten)

/-! ## Requests on a regular inode -/

/-- A write request, with the bytes that `FileSystem::write` copies and the time of the write. -/
structure WriteReq where
  /-- The request. -/
  req : ℕ
  /-- The bytes to be written; their number is the `size` of the request. -/
  data : List UInt8
  /-- The position of the first byte. -/
  off : ℤ
  /-- The time at which the inode behaviour runs. -/
  now : ℤ
  /-- File positions are not negative. -/
  off_nonneg : 0 ≤ off
  /-- The position is an `off_t`. -/
  off_lt : off < 2 ^ 63
  /-- The size is a `size_t`. -/
  size_lt : data.length < 2 ^ 64

/-- A read request.  `heap` is what `malloc` finds in the memory of the buffer. -/
structure ReadReq where
  /-- The request. -/
  req : ℕ
  /-- The number of bytes asked for. -/
  size : ℕ
  /-- The position of the first byte. -/
  off : ℤ
  /-- The former contents of the buffer. -/
  heap : ℕ → UInt8
  /-- File positions are not negative. -/
  off_nonneg : 0 ≤ off
  /-- The position is an `off_t`. -/
  off_lt : off < 2 ^ 63
  /-- The size is a `size_t`. -/
  size_lt : size < 2 ^ 64

/-- An open request. -/
structure OpenReq where
  /-- The request. -/
  req : ℕ
  /-- The open flags. -/
  flags : BitVec 32
  /-- The file information of the request. -/
  fi : FileInfo
  /-- The requester. -/
  uid : ℕ
  /-- The group of the requester. -/
  gid : ℕ
  /-- The time of the behaviour. -/
  now : ℤ

/-- The requests that are served under the cown of a regular inode. -/
inductive FileRequest where
  /-- `FileSystem::write`. -/
  | write (w : WriteReq)
  /-- `FileSystem::read`. -/
  | read (r : ReadReq)
  /-- `FileSystem::setattr`. -/
  | setattr (r : SetattrReq)
  /-- `FileSystem::open`. -/
  | openFile (r : OpenReq)
  /-- `FileSystem::my_fallocate`. -/
  | fallocate (req : ℕ) (mode offset length : ℤ)
  /-- `FileSystem::opendir` on a regular inode. -/
  | opendir (req : ℕ) (flags : BitVec 32) (uid gid : ℕ) (fi : FileInfo)
  /-- `FileSystem::access`. -/
  | access (req : ℕ) (mask : BitVec 32) (uid gid : ℕ)

/-- The request a client waits for. -/
def FileRequest.req : FileRequest → ℕ
  | .write w => w.req
  | .read r => r.req
  | .setattr r => r.req
  | .openFile r => r.req
  | .fallocate req _ _ _ => req
  | .opendir req _ _ _ _ => req
  | .access req _ _ _ => req

/-- What the block and counter behaviours of a read have captured. -/
structure ReadPart where
  /-- The request. -/
  req : ℕ
  /-- The buffer and its counter. -/
  counter : ℕ
  /-- The number of bytes this part copies. -/
  bytesToRead : ℕ
  /-- The position inside the block. -/
  blockOffset : ℕ
  /-- The position inside the buffer. -/
  bytesRead : ℕ
  /-- The number of bytes of the whole read. -/
  total : ℕ

/-- The cowns behind a regular inode. -/
inductive FileCown where
  /-- The inode. -/
  | inode
  /-- A block. -/
  | block (a : ℕ)
  /-- The counter of a read. -/
  | counter (c : ℕ)
deriving DecidableEq

/-- The behaviours behind a regular inode. -/
inductive FileTask where
  /-- The behaviour a request schedules on the inode. -/
  | inode (r : FileRequest)
  /-- The behaviour of `batch_write` for one block. -/
  | writeOne (w : Wrapper)
  /-- The behaviour of `batch_write` for two blocks. -/
  | writeTwo (w₀ w₁ : Wrapper)
  /-- The behaviour of `RegInode::read` on one block. -/
  | readBlock (a : ℕ) (p : ReadPart)
  /-- The behaviour of `RegInode::read` on its counter. -/
  | count (p : ReadPart)
  /-- The behaviour that calls `free_space` on a block. -/
  | freeSpace (a : ℕ)

/-- The cowns of a behaviour. -/
def FileTask.cowns : FileTask → List FileCown
  | .inode _ => [.inode]
  | .writeOne w => [.block w.ptr]
  | .writeTwo w₀ w₁ => [.block w₀.ptr, .block w₁.ptr]
  | .readBlock a _ => [.block a]
  | .count p => [.counter p.counter]
  | .freeSpace a => [.block a]

namespace File

/-! ## Allocation -/

/-- `data_blocks.emplace(blockId, make_cown<Block>(BLOCK_SIZE, blockId))`: the block is created in
any case and entered when the id is new. -/
def emplaceBlock (f : File) (blockId : ℤ) : File :=
  { f with
    inode.dataBlocks := f.inode.dataBlocks.insertIfNew blockId f.blocks.length
    blocks := f.blocks ++ [Block.make blockId] }

/-- `RegInode::allocate_space`. -/
def allocateSpace (f : File) (blockId : ℤ) : File := f.emplaceBlock blockId

/-! ## Writing -/

/-- The block cown of `blockId` for a write, created first when there is none. -/
def blockFor (f : File) (blockId : ℤ) : File × ℕ :=
  match f.inode.dataBlocks[blockId]? with
  | some a => (f, a)
  | none =>
    let f' := (f.emplaceBlock blockId).allocateSpace blockId
    ({ f' with inode.iSt.stBlocks := min (f'.st.stBlocks + 1) f'.inode.dataBlocks.size },
      f.blocks.length)

/-- The loop of `RegInode::write`: cut the range into pieces, one for each block it meets. -/
def writeLoop (f : File) (offset : ℤ) (data : List UInt8) (bytesWritten remaining : ℕ)
    (vec : List Wrapper) : File × List Wrapper :=
  if _hrem : remaining = 0 then (f, vec)
  else
    let pos := cU64 (offset + bytesWritten)
    let blockId : ℤ := ((pos / BLOCK_SIZE : ℕ) : ℤ)
    let blockOffset := pos % BLOCK_SIZE
    let fa := f.blockFor blockId
    let bytesToWrite := min (BLOCK_SIZE - blockOffset) remaining
    writeLoop fa.1 offset data (bytesWritten + bytesToWrite) (remaining - bytesToWrite)
      (vec ++ [⟨fa.2, cInt bytesToWrite, cInt blockOffset, cInt bytesWritten, data⟩])
termination_by remaining
decreasing_by
  have : cU64 (offset + bytesWritten) % BLOCK_SIZE < BLOCK_SIZE := Nat.mod_lt _ (by decide)
  omega

/-- `batch_write`: there is a behaviour for one piece and one for two pieces. -/
def batchWrite : List Wrapper → List FileTask
  | [w] => [.writeOne w]
  | [w₀, w₁] => [.writeTwo w₀ w₁]
  | _ => []

/-- `RegInode::write`. -/
def write (f : File) (w : WriteReq) : File × List FileTask :=
  let var := cOff (w.off + w.data.length)
  let f₁ : File :=
    { f with
      inode.iSt := { f.st with stCtime := w.now, stMtime := w.now, stSize := max f.st.stSize var } }
  let fv := f₁.writeLoop w.off w.data 0 w.data.length []
  (fv.1, batchWrite fv.2)

/-! ## Reading -/

/-- The loop of `RegInode::read`: one behaviour for each block of the range that exists. -/
def readLoop (dataBlocks : StdMap ℤ ℕ) (offset : ℤ) (req counter total bytesRead : ℕ)
    (remaining : ℤ) : List FileTask :=
  if _hrem : 0 < remaining then
    let pos := cU64 (offset + bytesRead)
    let blockOffset := pos % BLOCK_SIZE
    match dataBlocks[((pos / BLOCK_SIZE : ℕ) : ℤ)]? with
    | none =>
      readLoop dataBlocks offset req counter total (bytesRead + BLOCK_SIZE) (remaining - BLOCK_SIZE)
    | some a =>
      let bytesToRead := min (BLOCK_SIZE - blockOffset) remaining.toNat
      .readBlock a ⟨req, counter, bytesToRead, blockOffset, bytesRead, total⟩ ::
        readLoop dataBlocks offset req counter total (bytesRead + bytesToRead)
          (remaining - bytesToRead)
  else []
termination_by remaining.toNat
decreasing_by
  · have : (0 : ℤ) < BLOCK_SIZE := by decide
    omega
  · have : cU64 (offset + bytesRead) % BLOCK_SIZE < BLOCK_SIZE := Nat.mod_lt _ (by decide)
    omega

/-- The number of bytes `RegInode::read` starts out to copy. -/
def readSize (f : File) (r : ReadReq) : ℤ := max (min (cOff r.size) (f.st.stSize - r.off)) 0

/-- `RegInode::read`. -/
def read (f : File) (r : ReadReq) : Effect File FileTask Reply :=
  let remaining := f.readSize r
  if remaining = 0 then ⟨f, [], [.buf r.req []]⟩
  else
    let c := f.reads.length
    ⟨{ f with reads := f.reads ++ [⟨r.heap, 0⟩] },
      readLoop f.inode.dataBlocks r.off r.req c remaining.toNat 0 remaining, []⟩

/-! ## Truncation -/

/-- The walk of `truncate` over the entries from `it` on: it schedules the release of every block
and returns the entries that are left where the iterator stands afterwards. -/
def freeWalk : List (ℤ × ℕ) → List FileTask × List (ℤ × ℕ)
  | [] => ([], [])
  | e :: it => (.freeSpace e.2 :: (freeWalk it).1, (freeWalk it).2)

/-- `data_blocks.erase(it, data_blocks.end())`, where `it` stands before the entries `rest`. -/
def eraseRange (dataBlocks : StdMap ℤ ℕ) (rest : List (ℤ × ℕ)) : StdMap ℤ ℕ :=
  rest.foldl (fun m e => m.erase e.1) dataBlocks

/-- The loop of `truncate` that creates the missing blocks of a grown file.  Its counter is an
`int`. -/
def growLoop (f : File) (newsize i : ℤ) : Except Fault File :=
  if hi : i < newsize then
    let blockId := i.tdiv BLOCK_SIZE
    let f₁ := if f.inode.dataBlocks[blockId]? = none then f.allocateSpace blockId else f
    let f₂ : File := { f₁ with inode.iSt.stSize := newsize }
    if 2 ^ 31 ≤ i + BLOCK_SIZE then .error .overflow
    else growLoop f₂ newsize (i + BLOCK_SIZE)
  else .ok f
termination_by (newsize - i).toNat
decreasing_by
  have : (0 : ℤ) < BLOCK_SIZE := by decide
  omega

/-- `FileSystem::truncate`.  Where it returns, it returns zero. -/
def truncate (f : File) (newsize : ℤ) : Except Fault (File × List FileTask) :=
  if f.st.stSize = newsize then .ok (f, [])
  else if newsize = 0 then
    .ok ({ f with inode.dataBlocks := ∅, inode.iSt.stSize := 0 },
      f.inode.dataBlocks.toList.map fun e => .freeSpace e.2)
  else if newsize < f.st.stSize then
    let blockId := newsize.tdiv BLOCK_SIZE
    let walk := freeWalk (StdMap.afterKey f.inode.dataBlocks blockId)
    .ok ({ f with
            inode.dataBlocks := eraseRange f.inode.dataBlocks walk.2
            inode.iSt.stSize := newsize }, walk.1)
  else do
    let f' ← f.growLoop newsize 0
    .ok (f', [])

/-! ## Attributes -/

/-- `FileSystem::setattr` on a regular inode. -/
def setattr (f : File) (r : SetattrReq) : Except Fault (Effect File FileTask Reply) :=
  match setattrFields r f.st with
  | (.error ret, st) => .ok ⟨{ f with inode.iSt := st }, [], [replyFail ret r.req]⟩
  | (.ok clearMode, st) => do
    let f₁ : File := { f with inode.iSt := st }
    if r.has FUSE_SET_ATTR_SIZE then
      let ret ← setattrSizeCheck r st
      if ret ≠ 0 then .ok ⟨f₁, [], [replyFail ret r.req]⟩
      else
        let (f₂, tasks) ← f₁.truncate r.attr.stSize
        let st' := setattrFinish r clearMode { f₂.st with stMtime := r.now }
        .ok ⟨{ f₂ with inode.iSt := st' }, tasks, [.attr r.req st']⟩
    else
      let st' := setattrFinish r clearMode st
      .ok ⟨{ f₁ with inode.iSt := st' }, [], [.attr r.req st']⟩

/-- The access mask `FileSystem::open` derives from the open flags. -/
def openMode (flags : BitVec 32) : BitVec 32 :=
  if flags &&& O_ACCMODE = O_RDONLY then R_OK
  else if flags &&& O_ACCMODE = O_WRONLY then W_OK
  else if flags &&& O_ACCMODE = O_RDWR then R_OK ||| W_OK
  else 0

/-- The behaviour of `FileSystem::open`. -/
def openFile (f : File) (r : OpenReq) : Except Fault (Effect File FileTask Reply) := do
  let ret ← access f.st (openMode r.flags) r.uid r.gid
  if ret ≠ 0 then .ok ⟨f, [], [replyFail ret r.req]⟩
  else
    let fi : FileInfo :=
      { r.fi with
        parallelDirectWrites := true, directIo := true
        fh := some ⟨f.inode.ino, r.flags⟩ }
    if r.flags &&& O_TRUNC ≠ 0 then
      let (f₁, tasks) ← f.truncate 0
      .ok ⟨{ f₁ with inode.iSt := { f₁.st with stMtime := r.now, stCtime := r.now } }, tasks,
        [.openFile r.req fi]⟩
    else .ok ⟨f, [], [.openFile r.req fi]⟩

/-- The loop of `my_fallocate`.  Its counter is an `off_t`. -/
def fallocateLoop (f : File) (i stop : ℤ) : Except Fault File :=
  if hi : i < stop then
    let blockId := i.tdiv BLOCK_SIZE
    let f₁ := if f.inode.dataBlocks[blockId]? = none then f.allocateSpace blockId else f
    if 2 ^ 63 ≤ i + BLOCK_SIZE then .error .overflow
    else fallocateLoop f₁ (i + BLOCK_SIZE) stop
  else .ok f
termination_by (stop - i).toNat
decreasing_by
  have : (0 : ℤ) < BLOCK_SIZE := by decide
  omega

/-- The behaviour of `FileSystem::my_fallocate`. -/
def fallocate (f : File) (req : ℕ) (offset length : ℤ) :
    Except Fault (Effect File FileTask Reply) := do
  let f₁ ← f.fallocateLoop offset (offset + length)
  .ok ⟨{ f₁ with
          inode.iSt :=
            { f₁.st with
              stSize := max f₁.st.stSize (offset + length)
              stBlocks := f₁.inode.dataBlocks.size } }, [], [.err req 0]⟩

/-! ## Bodies -/

/-- Replace the block behind a cown. -/
def setBlock (f : File) (a : ℕ) (blk : Block) : File := { f with blocks := f.blocks.set a blk }

/-- The block behind a cown. -/
def getBlock (f : File) (a : ℕ) : Except Fault Block :=
  match f.blocks[a]? with
  | some blk => .ok blk
  | none => .error .badCown

/-- The body of the counter behaviour of a read. -/
def countRead (f : File) (p : ReadPart) : Except Fault (Effect File FileTask Reply) :=
  match f.reads[p.counter]? with
  | none => .error .badCown
  | some rb =>
    let count := rb.count + p.bytesToRead
    let f' : File := { f with reads := f.reads.set p.counter { rb with count := count } }
    if count = p.total then
      let ret := cInt count
      if 0 ≤ ret then .ok ⟨f', [], [.buf p.req ((List.range ret.toNat).map rb.bytes)]⟩
      else .ok ⟨f', [], [.err p.req (cInt (-ret))]⟩
    else .ok ⟨f', [], []⟩

end File

/-- The reply that the dispatcher sends instead of scheduling a behaviour on the inode, if any. -/
def FileRequest.refusal : FileRequest → Option Reply
  | .openFile o =>
    if File.openMode o.flags &&& W_OK = 0 ∧ o.flags &&& O_TRUNC ≠ 0 then some (.err o.req EACCES)
    else none
  | .fallocate req mode _ _ => if mode ≠ 0 then some (.err req EOPNOTSUPP) else none
  | _ => none

namespace File

/-- The part of a request that the dispatcher executes: it refuses the request or schedules its
behaviour on the inode. -/
def handleRequest (f : File) (r : FileRequest) : Effect File FileTask Reply :=
  match r.refusal with
  | some reply => ⟨f, [], [reply]⟩
  | none => ⟨f, [.inode r], []⟩

/-- The body of the behaviour a request schedules on the inode. -/
def inodeBody (f : File) : FileRequest → Except Fault (Effect File FileTask Reply)
  | .write w =>
    .ok ⟨(f.write w).1, (f.write w).2, [.write w.req w.data.length]⟩
  | .read r => .ok (f.read r)
  | .setattr r => f.setattr r
  | .openFile r => f.openFile r
  | .fallocate req _ offset length => f.fallocate req offset length
  | .opendir req flags uid gid fi =>
    if flags &&& O_ACCMODE = O_RDONLY then do
      let ret ← VeronaFs.access f.st R_OK uid gid
      -- this branch returns without a reply
      if ret ≠ 0 then .ok ⟨f, [], []⟩ else .ok ⟨f, [], [.openFile req fi]⟩
    else .ok ⟨f, [], [.openFile req fi]⟩
  | .access req mask uid gid => do
    let ret ← VeronaFs.access f.st mask uid gid
    .ok ⟨f, [], [.err req (-ret)]⟩

/-- The body of a behaviour. -/
def body : FileTask → File → Except Fault (Effect File FileTask Reply)
  | .inode r, f => f.inodeBody r
  | .writeOne w, f => do
    let blk ← w.apply (← f.getBlock w.ptr)
    .ok ⟨f.setBlock w.ptr blk, [], []⟩
  | .writeTwo w₀ w₁, f => do
    let blk₀ ← w₀.apply (← f.getBlock w₀.ptr)
    let f₁ := f.setBlock w₀.ptr blk₀
    let blk₁ ← w₁.apply (← f₁.getBlock w₁.ptr)
    .ok ⟨f₁.setBlock w₁.ptr blk₁, [], []⟩
  | .readBlock a p, f => do
    let blk ← f.getBlock a
    match f.reads[p.counter]? with
    | none => .error .badCown
    | some rb =>
      let bytes ← blk.read rb.bytes p.bytesToRead p.blockOffset p.bytesRead
      .ok ⟨{ f with reads := f.reads.set p.counter { rb with bytes := bytes } }, [.count p], []⟩
  | .count p, f => f.countRead p
  | .freeSpace a, f => do
    let blk ← f.getBlock a
    .ok ⟨f.setBlock a { blk with buf := none }, [], []⟩

end File

/-- The system of one regular inode. -/
def fileSystem : System FileCown File FileTask FileRequest Reply Fault where
  cowns := FileTask.cowns
  body := File.body
  handle r f := .ok (f.handleRequest r)

end VeronaFs
