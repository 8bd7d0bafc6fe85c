import VeronaFs.Foundation.CellBlock

/-!
# Bags of blocks

A bag has its elements in the cells of a chain of aligned blocks.  A removed element leaves a hole: its
first word is the address of the next hole with the lowest bit set, and an element has this bit clear.
The bit is set for the last hole too, its address is null.

A pointer to a cell is counted in cells, a word that stores one is its address in bytes.  A function
returns `none` where the program would fail an assertion, read a word that was not written, or access
a block that is not allocated.
-/

namespace VeronaRt

open Foundation

/-- The layout of the elements of a bag. -/
structure BagLayout where
  /-- The number of words of an element. -/
  words : ℕ
  /-- An element has a word. -/
  pos : 0 < words
  /-- A block has room for an element. -/
  fits : 1 < 512 / (8 * words)

namespace BagLayout

/-- An object and another word, `BagElem`. -/
def bagElem : BagLayout := ⟨2, by decide, by decide⟩

/-- An object alone, `BagThinElem`. -/
def bagThinElem : BagLayout := ⟨1, by decide, by decide⟩

variable (B : BagLayout)

/-- The number of bytes of an element, `sizeof(E)`. -/
def size : ℕ := 8 * B.words

/-- The number of cells of a block with the one of the pointer below, `ITEM_COUNT`. -/
def itemCount : ℕ := 512 / B.size

/-- The address of a pointer that may be null. -/
def address : Option ℕ → ℕ
  | none => 0
  | some p => B.size * p

/-- The pointer of an address. -/
def pointer : ℕ → Option ℕ
  | 0 => none
  | w + 1 => some ((w + 1) / B.size)

end BagLayout

/-- An element: its first word, and the others. -/
structure BagElem (β : Type) where
  /-- The object. -/
  object : ℕ
  /-- The other words. -/
  metadata : β
deriving DecidableEq, Repr

/-- A bag, `BagBase`, with the state of its allocator. -/
structure Bag (σ : Type) where
  /-- The last cell that was taken. -/
  index : ℕ
  /-- The first hole. -/
  nextFree : Option ℕ
  /-- The allocator. -/
  alloc : σ

/-- Set the lowest bit, `EMPTY_MASK`. -/
def markEmpty (w : ℕ) : ℕ := w ||| 1

/-- Whether the lowest bit is set. -/
def isMarked (w : ℕ) : Bool := w % 2 = 1

/-- Clear the lowest bit. -/
def clearMark (w : ℕ) : ℕ := w / 2 * 2

namespace Bag

variable {σ β : Type} (B : BagLayout) (ops : BlockAlloc σ (CellBlock (BagElem β))) (nullBlock : ℕ)

/-- The last cell of the static block. -/
def nullIndex : ℕ := lastSlot B.itemCount nullBlock

/-- The block of a pointer. -/
def getBlock (ptr : ℕ) : ℕ := ptr / B.itemCount

/-- The pointer is to the place of the pointer to the block below. -/
def isFirstBlockElem (ptr : ℕ) : Bool := ptr % B.itemCount = 0

/-- The pointer is to the last cell of its block. -/
def isLastBlockElem (index : ℕ) : Bool := index % B.itemCount = B.itemCount - 1

/-- A bag without elements. -/
def init (alloc : σ) : Bag σ := ⟨nullIndex B nullBlock, none, alloc⟩

/-- Read the first word of a cell, `hole_ptr`. -/
def loadHole (s : σ) (ptr : ℕ) : Option ℕ := (loadCell ops B.itemCount s ptr).map BagElem.object

/-- Write the first word of a cell that was written before. -/
def storeHole (s : σ) (ptr w : ℕ) : Option σ := do
  storeCell ops B.itemCount s ptr { (← loadCell ops B.itemCount s ptr) with object := w }

/-- Remove the element at a pointer. -/
def remove (item : ℕ) (bag : Bag σ) : Option (Bag σ) := do
  let s ← storeHole B ops bag.alloc item (markEmpty (B.address bag.nextFree))
  some { bag with nextFree := some item, alloc := s }

/-- Insert an element into a new block. -/
def insertSlow (item : BagElem β) (a : ℕ) (bag : Bag σ) : Option (ℕ × Bag σ) :=
  if isLastBlockElem B bag.index then do
    let (next, s) ← ops.alloc bag.alloc a
    let s ← storePrev ops s next bag.index
    let index := B.itemCount * next + 1
    let s ← storeCell ops B.itemCount s index item
    some (index, { bag with index := index, alloc := s })
  else none

/-- Insert an element, with the pointer to it. -/
def insert (item : BagElem β) (a : ℕ) (bag : Bag σ) : Option (ℕ × Bag σ) :=
  match bag.nextFree with
  | some cur => do
    let prev ← loadHole B ops bag.alloc cur
    let s ← storeCell ops B.itemCount bag.alloc cur item
    if isMarked prev then
      some (cur, { bag with nextFree := B.pointer (clearMark prev), alloc := s })
    else none
  | none =>
    if isLastBlockElem B bag.index then insertSlow B ops item a bag
    else do
      let index := bag.index + 1
      let s ← storeCell ops B.itemCount bag.alloc index item
      some (index, { bag with index := index, alloc := s })

/-- The cell below. -/
def step (s : σ) (elem : ℕ) : Option ℕ :=
  let elem := elem - 1
  if isFirstBlockElem B elem then loadPrev ops s (getBlock B elem) else some elem

/-- The first cell from a pointer on that is no hole, or the end. -/
def nextNonEmpty (s : σ) : ℕ → ℕ → Option ℕ
  | 0, _ => none
  | fuel + 1, elem =>
    if elem = nullIndex B nullBlock then some elem
    else do
      if isMarked (← loadHole B ops s elem) then nextNonEmpty s fuel (← step B ops s elem)
      else some elem

/-- The next position of an iterator, `operator++`. -/
def nextPosition (s : σ) (fuel ptr : ℕ) : Option ℕ := do
  let ptr ← nextNonEmpty B ops nullBlock s fuel (← step B ops s ptr)
  if ptr = nullIndex B nullBlock then some ptr
  else if isMarked (← loadHole B ops s ptr) then none else some ptr

/-- The pointers that an iterator yields from a position up to the end. -/
def iterateFrom (s : σ) : ℕ → ℕ → Option (List ℕ)
  | 0, _ => none
  | fuel + 1, ptr =>
    if ptr = nullIndex B nullBlock then some []
    else do
      let rest ← iterateFrom s fuel (← nextPosition B ops nullBlock s fuel ptr)
      some (ptr :: rest)

/-- The pointers that an iteration over a bag yields. -/
def iterate (fuel : ℕ) (bag : Bag σ) : Option (List ℕ) := do
  iterateFrom B ops nullBlock bag.alloc fuel (← nextNonEmpty B ops nullBlock bag.alloc fuel bag.index)

end Bag

end VeronaRt
