import VeronaFs.Foundation.StdMap
import VeronaFs.Foundation.Links

/-!
# The inode table of StackFS

StackFS keeps one `lo_inode` for every path that it has handed to the kernel, in a hash table with
linear hashing: an insertion into a full table splits one bucket and doubles the table after the
last one, a removal from a sparse table merges buckets again and halves it when none is split.

The nodes live on a heap, an address without a node is freed or was never allocated.  A function
returns `none` where the program would read or write such an address, leave the array of buckets or
fail an assertion.  A null pointer is the address `none`.
-/

namespace StackFs

open Foundation

/-! ## The data -/

/-- A node, `struct lo_inode`. -/
structure LoInode where
  /-- The next node of the bucket. -/
  next : Option ℕ
  /-- The node before it in the bucket. -/
  prev : Option ℕ
  /-- The full path in the file system below. -/
  name : List UInt8
  /-- The inode number in the file system below. -/
  ino : UInt64
  /-- The device of the file system below. -/
  dev : UInt64
  /-- The inode number that the kernel gets. -/
  loIno : ℕ
  /-- How many replies handed the node to the kernel. -/
  nlookup : UInt64
deriving DecidableEq, Repr

/-- The hash table, `struct node_table`. -/
structure NodeTable where
  /-- The first node of every bucket. -/
  array : ℕ → Option ℕ
  /-- How many nodes there are. -/
  use : ℕ
  /-- The number of buckets. -/
  size : ℕ
  /-- The first bucket of the lower half that is not split. -/
  split : ℕ

/-- The state of the file system, `struct lo_data`, and the heap with its nodes. -/
structure LoData where
  /-- The hash table. -/
  hashTable : NodeTable
  /-- The allocated nodes. -/
  nodes : StdMap ℕ LoInode

/-- What `stat` says about a file. -/
structure Stat where
  /-- The inode number. -/
  ino : UInt64
  /-- The device. -/
  dev : UInt64
deriving DecidableEq, Repr

/-- What a node is looked up by. -/
structure Key where
  /-- The inode number. -/
  ino : UInt64
  /-- The device. -/
  dev : UInt64
  /-- The full path. -/
  path : List UInt8
deriving DecidableEq, Repr

/-- What a node is found by. -/
def LoInode.key (node : LoInode) : Key := ⟨node.ino, node.dev, node.name⟩

/-- The number of buckets of an empty table. -/
def hashTableMinSize : ℕ := 8192

/-! ## The heap and the array -/

namespace LoData

/-- The pointer to the first node of a bucket. -/
def bucket (d : LoData) (i : ℕ) : Option (Option ℕ) :=
  if i < d.hashTable.size then some (d.hashTable.array i) else none

/-- Write the pointer to the first node of a bucket. -/
def setBucket (d : LoData) (i : ℕ) (v : Option ℕ) : Option LoData :=
  if i < d.hashTable.size then
    some { d with hashTable := { d.hashTable with array := Function.update d.hashTable.array i v } }
  else none

/-- Write a field of a node. -/
def modify (d : LoData) (a : ℕ) (f : LoInode → LoInode) : Option LoData :=
  if a ∈ d.nodes then some { d with nodes := d.nodes.modify a f } else none

/-- Write `next` of a node. -/
def setNext (d : LoData) (a : ℕ) (v : Option ℕ) : Option LoData :=
  d.modify a fun node => { node with next := v }

/-- Write `prev` of a node. -/
def setPrev (d : LoData) (a : ℕ) (v : Option ℕ) : Option LoData :=
  d.modify a fun node => { node with prev := v }

/-- Write `prev` of the node behind a pointer that may be null. -/
def setPrevOf (d : LoData) (p v : Option ℕ) : Option LoData :=
  match p with
  | none => some d
  | some a => d.setPrev a v

/-- Read through a pointer that may be null. -/
def nodeAt (d : LoData) (a : ℕ) : Option LoInode := d.nodes[a]?

end LoData

/-- A pointer to a pointer: a cell of the array or `next` of a node. -/
inductive Ref where
  /-- A cell of the array. -/
  | bucket (i : ℕ)
  /-- The field of a node. -/
  | next (a : ℕ)
deriving DecidableEq, Repr

/-- Read the pointer. -/
def LoData.read (d : LoData) : Ref → Option (Option ℕ)
  | .bucket i => d.bucket i
  | .next a => (d.nodeAt a).map LoInode.next

/-- Write the pointer. -/
def LoData.write (d : LoData) : Ref → Option ℕ → Option LoData
  | .bucket i, v => d.setBucket i v
  | .next a, v => d.setNext a v

/-! ## The functions of the table -/

/-- An empty table. -/
def hashTableInit : NodeTable where
  array := fun _ => none
  use := 0
  size := hashTableMinSize
  split := 0

/-- Double the array. -/
def hashTableResize (t : NodeTable) : NodeTable where
  array := fun i => if i < t.size then t.array i else none
  use := t.use
  size := t.size * 2
  split := 0

/-- The bucket of an inode number and a path. -/
def nameHash (t : NodeTable) (ino : UInt64) (fullpath : List UInt8) : ℕ :=
  let hash := (fullpath.foldl (fun hash c => hash * 31 + c.toUInt64) ino).toNat % t.size
  let oldhash := hash % (t.size / 2)
  if t.split ≤ oldhash then oldhash else hash

/-- Move the nodes that no longer belong to the bucket. -/
def remapLoop (hash : ℕ) : ℕ → Ref → LoData → Option LoData
  | 0, _, _ => none
  | fuel + 1, nodep, d => do
    match ← d.read nodep with
    | none => some d
    | some a =>
      let node ← d.nodeAt a
      let newhash := nameHash d.hashTable node.ino node.name
      if newhash ≠ hash then
        let prev := node.prev
        let d ← d.write nodep node.next
        let d ← d.setPrevOf (← d.read nodep) prev
        let d ← d.setPrev a none
        let d ← d.setNext a (← d.bucket newhash)
        let d ← d.setPrevOf (← d.bucket newhash) (some a)
        let d ← d.setBucket newhash (some a)
        remapLoop hash fuel nodep d
      else
        remapLoop hash fuel (.next a) d

/-- Split the next bucket and double the table after the last one. -/
def remapHashTable (d : LoData) : Option LoData :=
  let t := d.hashTable
  if t.split = t.size / 2 then some d else do
    let hash := t.split
    let d := { d with hashTable := { t with split := t.split + 1 } }
    let d ← remapLoop hash (d.nodes.size + 1) (.bucket hash) d
    if d.hashTable.split = d.hashTable.size / 2 then
      some { d with hashTable := hashTableResize d.hashTable }
    else some d

/-- Insert a node at the front of its bucket. -/
def insertToHashTable (d : LoData) (a : ℕ) : Option LoData := do
  let node ← d.nodeAt a
  let hash := nameHash d.hashTable node.ino node.name
  let d ← d.setNext a (← d.bucket hash)
  let d ← d.setPrevOf (← d.bucket hash) (some a)
  let d ← d.setBucket hash (some a)
  let d := { d with hashTable := { d.hashTable with use := d.hashTable.use + 1 } }
  if d.hashTable.size / 2 ≤ d.hashTable.use then remapHashTable d else some d

/-- Halve the array. -/
def hashTableReduce (t : NodeTable) : NodeTable :=
  let newsize := t.size / 2
  if newsize < hashTableMinSize then t
  else { t with size := newsize, split := newsize / 2 }

/-- Follow a bucket to its null pointer, with the last node before it. -/
def lastRef (d : LoData) : ℕ → Ref → Option ℕ → Option (Ref × Option ℕ)
  | 0, _, _ => none
  | fuel + 1, nodep, prev => do
    match ← d.read nodep with
    | none => some (nodep, prev)
    | some a => lastRef d fuel (.next a) (some a)

/-- Merge up to `iter` buckets, until one of them has a node. -/
def remergeLoop : ℕ → LoData → Option LoData
  | 0, d => some d
  | iter + 1, d =>
    if d.hashTable.split = 0 then some d else do
      let t := { d.hashTable with split := d.hashTable.split - 1 }
      let d := { d with hashTable := t }
      match ← d.bucket (t.split + t.size / 2) with
      | none => remergeLoop iter d
      | some upper =>
        let (nodep, prev) ← lastRef d (d.nodes.size + 1) (.bucket t.split) none
        let d ← d.write nodep (some upper)
        let d ← d.setPrev upper prev
        d.setBucket (t.split + t.size / 2) none

/-- Halve the table if no bucket is split, and merge buckets. -/
def remergeHashTable (d : LoData) : Option LoData :=
  let d := if d.hashTable.split = 0 then { d with hashTable := hashTableReduce d.hashTable } else d
  remergeLoop 8 d

/-- Unlink and free a node. -/
def deleteFromHashTable (d : LoData) (a : ℕ) : Option LoData := do
  let node ← d.nodeAt a
  let d ←
    match node.prev with
    | some prev => do
      let d ← d.setNext prev node.next
      d.setPrevOf node.next (some prev)
    | none => do
      let hash := nameHash d.hashTable node.ino node.name
      let d ← d.setPrevOf node.next none
      d.setBucket hash node.next
  let t := { d.hashTable with use := d.hashTable.use - 1 }
  let d := { hashTable := t, nodes := d.nodes.erase a }
  if t.use < t.size / 4 then remergeHashTable d else some d

/-- Search a bucket from a node on. -/
def lookupFrom (d : LoData) (key : Key) : ℕ → Option ℕ → Option (Option ℕ)
  | _, none => some none
  | 0, some _ => none
  | fuel + 1, some a => do
    let node ← d.nodeAt a
    if node.key = key then some (some a) else lookupFrom d key fuel node.next

/-- Search the bucket of a path. -/
def lookupLoInode (d : LoData) (st : Stat) (fullpath : List UInt8) : Option (Option ℕ) := do
  let hash := nameHash d.hashTable st.ino fullpath
  lookupFrom d ⟨st.ino, st.dev, fullpath⟩ d.nodes.size (← d.bucket hash)

/-! ## The requests -/

/-- A new node, zeroed by `calloc` and filled in. -/
def LoData.calloc (d : LoData) (a : ℕ) (st : Stat) (fullpath : List UInt8) : LoData :=
  let node : LoInode :=
    { next := none, prev := none, name := fullpath, ino := st.ino, dev := st.dev, loIno := a
      nlookup := 0 }
  { d with nodes := d.nodes.insert a node }

/-- One more reply hands out the node. -/
def LoData.lookedUp (d : LoData) (a : ℕ) : Option LoData :=
  d.modify a fun node => { node with nlookup := node.nlookup + 1 }

/-- The node of a path, inserted if there is none.  A new one is at the address `a`. -/
def findLoInode (d : LoData) (a : ℕ) (st : Stat) (fullpath : List UInt8) :
    Option (LoData × ℕ) := do
  let (d, inode) ←
    match ← lookupLoInode d st fullpath with
    | some inode => some (d, inode)
    | none => do
      let d ← insertToHashTable (d.calloc a st fullpath) a
      some (d, a)
  let d ← d.lookedUp inode
  some (d, inode)

/-- A lookup of a file with the attributes `st`, and the inode number of the reply. -/
def stackfsLlLookup (d : LoData) (a : ℕ) (st : Stat) (fullpath : List UInt8) :
    Option (LoData × ℕ) := do
  let (d, inode) ← findLoInode d a st fullpath
  let node ← d.nodeAt inode
  some (d, node.loIno)

/-- The new node of a created file, at the address `a`, and the inode number of the reply. -/
def stackfsLlCreate (d : LoData) (a : ℕ) (st : Stat) (fullpath : List UInt8) :
    Option (LoData × ℕ) := do
  let d ← insertToHashTable (d.calloc a st fullpath) a
  let d ← d.lookedUp a
  let node ← d.nodeAt a
  some (d, node.loIno)

/-- The new node of a created directory, at the address `a`, and the inode number of the reply. -/
def stackfsLlMkdir (d : LoData) (a : ℕ) (st : Stat) (fullpath : List UInt8) :
    Option (LoData × ℕ) := do
  let d ← insertToHashTable (d.calloc a st fullpath) a
  let d ← d.lookedUp a
  let node ← d.nodeAt a
  some (d, node.loIno)

/-- The kernel gives back `nlookup` replies for a node. -/
def forgetInode (d : LoData) (inode : ℕ) (nlookup : UInt64) : Option LoData := do
  let node ← d.nodeAt inode
  if nlookup ≤ node.nlookup then
    let d ← d.modify inode fun node => { node with nlookup := node.nlookup - nlookup }
    if node.nlookup - nlookup = 0 then deleteFromHashTable d inode else some d
  else none

/-- A request that changes the table. -/
inductive Op where
  /-- A lookup of an existing file. -/
  | lookup (a : ℕ) (st : Stat) (fullpath : List UInt8)
  /-- A file was created. -/
  | create (a : ℕ) (st : Stat) (fullpath : List UInt8)
  /-- A directory was created. -/
  | mkdir (a : ℕ) (st : Stat) (fullpath : List UInt8)
  /-- The kernel forgets a node. -/
  | forget (inode : ℕ) (nlookup : UInt64)
deriving DecidableEq, Repr

/-- What a request does to the state. -/
def Op.exec (d : LoData) : Op → Option LoData
  | .lookup a st fullpath => (stackfsLlLookup d a st fullpath).map Prod.fst
  | .create a st fullpath => (stackfsLlCreate d a st fullpath).map Prod.fst
  | .mkdir a st fullpath => (stackfsLlMkdir d a st fullpath).map Prod.fst
  | .forget inode nlookup => forgetInode d inode nlookup

/-- The allocator returns an address that is free, and the kernel gives back no more replies for a
node than the node counts. -/
def Op.Allowed (d : LoData) : Op → Prop
  | .lookup a _ _ | .create a _ _ | .mkdir a _ _ => d.nodes[a]? = none
  | .forget inode nlookup => ∃ node, d.nodes[inode]? = some node ∧ nlookup ≤ node.nlookup

/-- The state at the start. -/
def LoData.init : LoData := ⟨hashTableInit, ∅⟩

/-- The states that some sequence of requests leads to. -/
inductive Reachable : LoData → Prop
  /-- The start. -/
  | init : Reachable LoData.init
  /-- One more request. -/
  | exec {d d' : LoData} {op : Op} : Reachable d → op.Allowed d → op.exec d = some d' → Reachable d'

end StackFs
