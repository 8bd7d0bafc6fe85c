import VeronaFs.Foundation.CellBlock

/-!
# Stacks of blocks

A `StackThin` is one pointer into a chain of aligned blocks, whose low bits are the slot in the top
block.  A block has one pointer and 63 elements.  A static block that counts as full stands for the
empty stack, so that a push has to test for a full block only.  A `Stack` has an allocator of its own
that keeps one block back.

Pointers are counted in words, so the bits below the alignment of a block are the remainder by its
number of words.  A function returns `none` where the program would fail an assertion, read a word
that was not written, or access a block that is not allocated.
-/

namespace VeronaRt

open Foundation

/-- The number of words of a block of a stack, `POINTER_COUNT`. -/
def pointerCount : ℕ := 64

/-- The pointer of a stack, with the state of its allocator. -/
structure StackThin (σ : Type) where
  /-- The top element. -/
  index : ℕ
  /-- The allocator. -/
  alloc : σ

namespace StackThin

variable {σ α : Type}

/-- The last element of the static block. -/
def nullIndex (nullBlock : ℕ) : ℕ := lastSlot pointerCount nullBlock

/-- The block of a pointer. -/
def getBlock (ptr : ℕ) : ℕ := ptr / pointerCount

/-- The pointer is to no element of its block. -/
def isEmpty (ptr : ℕ) : Bool := ptr % pointerCount = 0

/-- The pointer is to the last element of its block. -/
def isFull (index : ℕ) : Bool := index % pointerCount = pointerCount - 1

/-- A stack without elements. -/
def init (nullBlock : ℕ) (alloc : σ) : StackThin σ := ⟨nullIndex nullBlock, alloc⟩

/-- Whether the stack is empty. -/
def empty (nullBlock : ℕ) (st : StackThin σ) : Bool := st.index = nullIndex nullBlock

variable (ops : BlockAlloc σ (CellBlock α)) (nullBlock : ℕ)

/-- The top element. -/
def peek (st : StackThin σ) : Option α :=
  if st.empty nullBlock then none else loadCell ops pointerCount st.alloc st.index

/-- Pop the only element of a block, and deallocate the block. -/
def popSlow (st : StackThin σ) : Option (α × StackThin σ) :=
  if isEmpty (st.index - 1) then do
    let item ← peek ops nullBlock st
    let block := getBlock st.index
    let index ← loadPrev ops st.alloc block
    let s ← ops.dealloc st.alloc block
    some (item, ⟨index, s⟩)
  else none

/-- Pop an element. -/
def pop (st : StackThin σ) : Option (α × StackThin σ) :=
  if st.empty nullBlock then none
  else if isEmpty (st.index - 1) then popSlow ops nullBlock st
  else do
    let item ← peek ops nullBlock st
    some (item, { st with index := st.index - 1 })

/-- Push an element to a new block. -/
def pushSlow (item : α) (a : ℕ) (st : StackThin σ) : Option (StackThin σ) :=
  if isFull st.index then do
    let (next, s) ← ops.alloc st.alloc a
    let s ← storePrev ops s next st.index
    let index := pointerCount * next + 1
    let s ← storeCell ops pointerCount s index item
    some ⟨index, s⟩
  else none

/-- Push an element. -/
def push (item : α) (a : ℕ) (st : StackThin σ) : Option (StackThin σ) :=
  if isFull st.index then pushSlow ops item a st
  else do
    let index := st.index + 1
    let s ← storeCell ops pointerCount st.alloc index item
    some ⟨index, s⟩

/-- Apply a function to the elements of a block, the list are its arguments, with the pointer behind
the last of them. -/
def forallBlock (s : σ) : ℕ → ℕ → Option (List α × ℕ)
  | 0, _ => none
  | fuel + 1, curr => do
    let item ← loadCell ops pointerCount s curr
    let curr := curr - 1
    if isEmpty curr then some ([item], curr)
    else
      let (items, curr) ← forallBlock s fuel curr
      some (item :: items, curr)

/-- Apply a function to the elements from a pointer on. -/
def forallFrom (s : σ) : ℕ → ℕ → Option (List α)
  | 0, _ => none
  | fuel + 1, curr =>
    if curr = nullIndex nullBlock then some []
    else do
      let (items, curr) ← forallBlock ops s pointerCount curr
      let rest ← forallFrom s fuel (← loadPrev ops s (getBlock curr))
      some (items ++ rest)

/-- Apply a function to all elements. -/
def forAll (fuel : ℕ) (st : StackThin σ) : Option (List α) :=
  forallFrom ops nullBlock st.alloc fuel st.index

/-- Deallocate a block and those below it. -/
def deallocFrom : ℕ → σ → ℕ → Option σ
  | 0, _, _ => none
  | fuel + 1, s, localBlock =>
    if localBlock = nullBlock then some s
    else do
      let prev := getBlock (← loadPrev ops s localBlock)
      deallocFrom fuel (← ops.dealloc s localBlock) prev

/-- Deallocate the blocks of a stack. -/
def dealloc (fuel : ℕ) (st : StackThin σ) : Option σ :=
  deallocFrom ops nullBlock fuel st.alloc (getBlock st.index)

end StackThin

/-! ## The allocator of a stack -/

/-- A pool of one block above an allocator, `BackupAlloc`. -/
structure BackupAlloc (σ : Type) where
  /-- The block that is kept back. -/
  backup : Option ℕ
  /-- The allocator that blocks are supplied by. -/
  underlying : σ

/-- The operations of the pool. -/
def backupAlloc {σ γ : Type} (ops : BlockAlloc σ γ) : BlockAlloc (BackupAlloc σ) γ where
  alloc s a :=
    match s.backup with
    | some b => some (b, { s with backup := none })
    | none => do
      let (b, underlying) ← ops.alloc s.underlying a
      some (b, { s with underlying := underlying })
  dealloc s b :=
    match s.backup with
    | none => some { s with backup := some b }
    | some _ => do some { s with underlying := ← ops.dealloc s.underlying b }
  read s b := ops.read s.underlying b
  write s b c := do some { s with underlying := ← ops.write s.underlying b c }

/-- The destructor of the pool. -/
def BackupAlloc.destroy {σ γ : Type} (ops : BlockAlloc σ γ) (s : BackupAlloc σ) : Option σ :=
  match s.backup with
  | none => some s.underlying
  | some b => ops.dealloc s.underlying b

/-- The destructor of a stack with the pool. -/
def stackDestroy {σ α : Type} (ops : BlockAlloc σ (CellBlock α)) (nullBlock fuel : ℕ)
    (st : StackThin (BackupAlloc σ)) : Option σ := do
  BackupAlloc.destroy ops (← StackThin.dealloc (backupAlloc ops) nullBlock fuel st)

end VeronaRt
