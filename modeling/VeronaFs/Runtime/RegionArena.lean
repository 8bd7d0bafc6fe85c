import Mathlib
import VeronaFs.Runtime.Object

/-!
# Arena regions

`RegionArena`.  The objects of a region that are small enough lie in arenas, which are linked in a list:
the trivial ones from the front of an arena on, the others from its end down.  The larger objects have
blocks of their own, and they are in a ring that is linked through their headers and the metadata object
of the region.  If the entry point is one of them, then it is the last object of the ring.

The functions return `none` where an assertion fails and where a null pointer is used.
-/

namespace VeronaRt

/-! ## Arenas -/

/-- `Object::ALIGNMENT`. -/
def alignment : ℕ := 2 ^ 4

/-- The next multiple of the alignment. -/
def alignUp (sz : ℕ) : ℕ := (sz + (alignment - 1)) / alignment * alignment

namespace RegionArena

/-- An arena: its header, with offsets into the bytes for the objects in the place of pointers. -/
structure Arena where
  /-- The next arena of the list. -/
  next : Option ℕ
  /-- The first byte behind the trivial objects. -/
  objectsEnd : ℕ
  /-- The first byte of the other objects. -/
  nonTrivialBegin : ℕ
deriving DecidableEq, Repr

namespace Arena

/-- `Arena::SIZE`, which is also where the nontrivial objects end. -/
def size : ℕ := 1024 * 1024 - 4 * 8

/-- An arena without objects. -/
def new : Arena := ⟨none, 0, size⟩

/-- What an arena asserts about its pointers. -/
def debugInvariant (a : Arena) : Prop :=
  a.objectsEnd ≤ a.nonTrivialBegin ∧ a.nonTrivialBegin ≤ size ∧ alignment ∣ a.objectsEnd ∧
    alignment ∣ a.nonTrivialBegin

instance (a : Arena) : Decidable a.debugInvariant := inferInstanceAs (Decidable (_ ∧ _ ∧ _ ∧ _))

/-- The bytes between the trivial objects and the others. -/
def freeSpace (a : Arena) : Option ℕ :=
  if a.debugInvariant then some (a.nonTrivialBegin - a.objectsEnd) else none

/-- Allocate `sz` bytes.  The result has the offset of the object. -/
def allocObj (a : Arena) (isTrivial : Bool) (sz : ℕ) : Option (Arena × ℕ) :=
  a.freeSpace.bind fun free =>
    if free < sz then none
    else
      let (a, p) := if isTrivial = true then
          ({ a with objectsEnd := a.objectsEnd + sz }, a.objectsEnd)
        else ({ a with nonTrivialBegin := a.nonTrivialBegin - sz }, a.nonTrivialBegin - sz)
      if a.debugInvariant then some (a, p) else none

end Arena

/-! ## The heap -/

/-- The address of an object. -/
inductive Addr
  /-- A block of the allocator. -/
  | block (id : ℕ)
  /-- An offset in the arena in a block. -/
  | slot (arena offset : ℕ)
deriving DecidableEq, Repr

/-- The block that has an address. -/
def Addr.memory : Addr → ℕ
  | .block id => id
  | .slot arena _ => arena

/-- What the metadata object of a region stores. -/
structure Metadata where
  /-- The first arena of the list. -/
  firstArena : Option ℕ
  /-- The last arena of the list. -/
  lastArena : Option ℕ
  /-- The last object of the ring. -/
  lastLarge : Option Addr
deriving DecidableEq, Repr

/-- The headers of all objects, with the arenas and the regions. -/
structure Heap where
  /-- The class of an object. -/
  cls : Addr → RegionMD
  /-- The link in the header of an object. -/
  next : Addr → Option Addr
  /-- The object has neither a finaliser nor a destructor. -/
  isTrivial : Addr → Bool
  /-- The size of an object. -/
  size : Addr → ℕ
  /-- The arenas, by their blocks. -/
  arenas : ℕ → Option Arena
  /-- The regions, by their metadata objects. -/
  regions : Addr → Option Metadata

namespace Heap

/-- A new object with its descriptor. -/
def register (w : Heap) (o : Addr) (isTrivial : Bool) (size : ℕ) : Heap :=
  { w with
    isTrivial := Function.update w.isTrivial o isTrivial
    size := Function.update w.size o size }

/-- Write a header: a link, with which the object is not marked. -/
def initNext (w : Heap) (o : Addr) (next : Option Addr) : Heap :=
  { w with next := Function.update w.next o next, cls := Function.update w.cls o .unmarked }

/-- Write the header of the entry point of a region. -/
def initIso (w : Heap) (o self : Addr) : Heap :=
  { w with next := Function.update w.next o (some self), cls := Function.update w.cls o .iso }

/-- The link of an object that is not marked. -/
def getNext (w : Heap) (o : Addr) : Option (Option Addr) :=
  if w.cls o = .unmarked then some (w.next o) else none

/-- Write the link of an object that is not marked. -/
def setNext (w : Heap) (o : Addr) (next : Option Addr) : Option Heap :=
  if w.cls o = .unmarked then some (w.initNext o next) else none

/-- The link of an object, whether or not it is marked or an entry point. -/
def getNextAnyMark (w : Heap) (o : Addr) : Option (Option Addr) :=
  if w.cls o = .marked ∨ w.cls o = .unmarked ∨ w.cls o = .pending ∨ w.cls o = .iso then
    some (w.next o) else none

/-- Write an arena. -/
def setArena (w : Heap) (id : ℕ) (arena : Arena) : Heap :=
  { w with arenas := Function.update w.arenas id (some arena) }

/-- Write the metadata of a region. -/
def setRegion (w : Heap) (self : Addr) (m : Metadata) : Heap :=
  { w with regions := Function.update w.regions self (some m) }

/-- The arena behind an arena. -/
def nextArena (w : Heap) (id : ℕ) : Option ℕ := (w.arenas id).bind Arena.next

/-- The region of an entry point, with its metadata object. -/
def get (w : Heap) (entry : Addr) : Option (Addr × Metadata) :=
  if w.cls entry = .iso then
    (w.next entry).bind fun self => (w.regions self).map fun m => (self, m)
  else none

/-- The last object of the ring, if there is one, is linked to the metadata object. -/
def lastLargeClosed (w : Heap) (self : Addr) (m : Metadata) : Prop :=
  ∀ last ∈ m.lastLarge, w.getNextAnyMark last = some (some self)

instance (w : Heap) (self : Addr) (m : Metadata) : Decidable (w.lastLargeClosed self m) :=
  inferInstanceAs (Decidable (∀ last ∈ m.lastLarge, _))

/-- The last arena, if there is one, has none behind it. -/
def lastArenaClosed (w : Heap) (m : Metadata) : Prop :=
  ∀ last ∈ m.lastArena, w.nextArena last = none

instance (w : Heap) (m : Metadata) : Decidable (w.lastArenaClosed m) :=
  inferInstanceAs (Decidable (∀ last ∈ m.lastArena, _))

/-! ## Allocation -/

/-- Insert the objects that are linked from `hd` to `tl` in the ring, behind the metadata object. -/
def append (w : Heap) (self : Addr) (m : Metadata) (hd tl : Addr) : Option (Heap × Metadata) :=
  (w.getNext self).bind fun p => ((w.initNext tl p).setNext self (some hd)).map fun w =>
    (w, if m.lastLarge = none then { m with lastLarge := some tl } else m)

/-- Add a new arena in the block `mem` to the list, unless the last one has space. -/
def ensureArena (w : Heap) (m : Metadata) (mem sz : ℕ) : Option (Heap × Metadata) :=
  match m.lastArena with
  | none => some (w.setArena mem .new, { m with firstArena := some mem, lastArena := some mem })
  | some last => (w.arenas last).bind fun arena => arena.freeSpace.bind fun free =>
    if free < sz then
      some ((w.setArena mem .new).setArena last { arena with next := some mem },
        { m with lastArena := some mem })
    else some (w, m)

/-- Allocate an object in the last arena. -/
def allocSmall (w : Heap) (m : Metadata) (isTrivial : Bool) (sz : ℕ) : Option (Heap × Addr) :=
  m.lastArena.bind fun last => (w.arenas last).bind fun arena =>
    (arena.allocObj isTrivial sz).map fun (arena, p) =>
      (((w.setArena last arena).register (.slot last p) isTrivial sz).initNext (.slot last p) none,
        .slot last p)

/-- Allocate an object, in an arena or in the ring.  The allocator returns the block `mem` if it is
asked for one. -/
def allocInternal (w : Heap) (self : Addr) (m : Metadata) (mem : ℕ) (isTrivial : Bool) (sz : ℕ) :
    Option (Heap × Metadata × Addr) :=
  if Arena.size < sz then
    ((w.register (.block mem) isTrivial sz).append self m (.block mem) (.block mem)).map
      fun (w, m) => (w, m, .block mem)
  else
    (w.ensureArena m mem sz).bind fun (w, m) =>
      (w.allocSmall m isTrivial sz).map fun (w, o) => (w, m, o)

/-- A region without objects: the metadata object, linked to itself. -/
def newRegion (w : Heap) (self : Addr) : Heap := (w.register self true 0).initNext self (some self)

/-- Create a region with the metadata object in the block `self`. -/
def create (w : Heap) (self mem : ℕ) (isTrivial : Bool) (sz : ℕ) : Option (Heap × Addr) :=
  ((w.newRegion (.block self)).allocInternal (.block self) ⟨none, none, none⟩ mem isTrivial sz).bind
    fun (w, m, o) =>
      let w := w.initIso o (.block self)
      if w.lastLargeClosed (.block self) m then some (w.setRegion (.block self) m, o) else none

/-- Allocate an object in the region of an entry point. -/
def alloc (w : Heap) (entry : Addr) (mem : ℕ) (isTrivial : Bool) (sz : ℕ) :
    Option (Heap × Addr) :=
  (w.get entry).bind fun (self, m) => (w.allocInternal self m mem isTrivial sz).map
    fun (w, m, o) => (w.setRegion self m, o)

/-! ## Merging -/

/-- Append the arenas of another region to the list. -/
def mergeArenas (w : Heap) (m m' : Metadata) : Option (Heap × Metadata) :=
  match m.lastArena with
  | none =>
    if m.firstArena = none then
      some (w, { m with firstArena := m'.firstArena, lastArena := m'.lastArena })
    else none
  | some last =>
    if m'.firstArena = none then some (w, m)
    else if m'.lastArena = none then none
    else (w.arenas last).map fun arena =>
      (w.setArena last { arena with next := m'.firstArena }, { m with lastArena := m'.lastArena })

/-- Insert the ring of another region. -/
def mergeRing (w : Heap) (self : Addr) (m : Metadata) (other : Addr) (m' : Metadata) :
    Option (Heap × Metadata) :=
  (w.getNext other).bind fun head =>
    if head = some other then some (w, m)
    else head.bind fun head => m'.lastLarge.bind fun last => w.append self m head last

/-- Move the objects of another region to the region. -/
def mergeInternal (w : Heap) (self : Addr) (m : Metadata) (other : Addr) (m' : Metadata) :
    Option (Heap × Metadata) :=
  (w.mergeArenas m m').bind fun (w, m) => (w.mergeRing self m other m').bind fun (w, m) =>
    if w.lastArenaClosed m ∧ w.lastLargeClosed self m then some (w, m) else none

/-- Clear the class of a former entry point that is in an arena. -/
def clearIso (w : Heap) (o : Addr) : Heap :=
  if alignUp (w.size o) ≤ Arena.size then w.initNext o none else w

/-- Deallocate the metadata object of a region. -/
def dealloc (w : Heap) (self : Addr) : Heap :=
  { w with regions := Function.update w.regions self none }

/-- Merge two regions. -/
def merge (w : Heap) (into o : Addr) : Option Heap :=
  (w.get into).bind fun (self, m) => (w.get o).bind fun (other, m') =>
    if self = other then none
    else (w.mergeInternal self m other m').map fun (w, m) =>
      ((w.clearIso o).setRegion self m).dealloc other

end Heap

/-! ## Iteration -/

/-- The iteration is over objects of the kind. -/
def wants (type : IteratorType) (isTrivial : Bool) : Bool :=
  match type with
  | .trivial => isTrivial
  | .nonTrivial => !isTrivial
  | .allObjects => true

/-- The state of an iteration: the arena, and the object. -/
structure Iterator where
  /-- The arena, or null in the ring. -/
  arena : Option ℕ
  /-- The object, or null at the end. -/
  ptr : Option Addr
deriving DecidableEq, Repr

namespace Heap

/-- The next object in an arena. -/
def nextInArena (type : IteratorType) (w : Heap) (id : ℕ) (arena : Arena) (p : ℕ) :
    Option (Option Addr) :=
  if arena.debugInvariant then
    let q := p + alignUp (w.size (.slot id p))
    match type with
    | .trivial =>
      if 0 < q ∧ q ≤ arena.objectsEnd then
        some (if q ≠ arena.objectsEnd then some (.slot id q) else none)
      else none
    | .nonTrivial =>
      if arena.nonTrivialBegin < q ∧ q ≤ Arena.size then
        some (if q ≠ Arena.size then some (.slot id q) else none)
      else none
    | .allObjects =>
      if (0 < q ∧ q ≤ arena.objectsEnd) ∨ (arena.nonTrivialBegin < q ∧ q ≤ Arena.size) then
        some (if q ≠ arena.objectsEnd ∧ q ≠ Arena.size then some (.slot id q)
          else if q = arena.objectsEnd ∧ arena.nonTrivialBegin ≠ Arena.size then
            some (.slot id arena.nonTrivialBegin)
          else none)
      else none
  else none

/-- The first object in the arenas from a pointer on, with its arena. -/
def firstInArenaList (type : IteratorType) (w : Heap) : ℕ → Option ℕ → Option Iterator
  | _, none => some ⟨none, none⟩
  | 0, some _ => none
  | fuel + 1, some id => (w.arenas id).bind fun arena =>
    if ¬ (0 < arena.objectsEnd ∨ arena.nonTrivialBegin < Arena.size) ∨ ¬ arena.debugInvariant then none
    else if wants type true = true ∧ 0 ≠ arena.objectsEnd then some ⟨some id, some (.slot id 0)⟩
    else if wants type false = true ∧ arena.nonTrivialBegin ≠ Arena.size then
      some ⟨some id, some (.slot id arena.nonTrivialBegin)⟩
    else if type = .allObjects then none
    else firstInArenaList type w fuel arena.next

/-- The next object in the ring. -/
def nextInRing (type : IteratorType) (w : Heap) (self : Addr) : ℕ → Addr → Option (Option Addr)
  | 0, _ => none
  | fuel + 1, p => (w.getNextAnyMark p).bind fun q => q.bind fun q =>
    if q = self then some none
    else if wants type (w.isTrivial q) = true then some (some q)
    else nextInRing type w self fuel q

/-- Go to the ring if there is no object in the arenas. -/
def orRing (type : IteratorType) (w : Heap) (self : Addr) (fuel : ℕ) (it : Iterator) :
    Option Iterator :=
  if it.ptr = none then (w.nextInRing type self fuel self).map fun q => { it with ptr := q }
  else some it

/-- The first object from an arena on. -/
def initForArenaOrRing (type : IteratorType) (w : Heap) (self : Addr) (fuel : ℕ)
    (arena : Option ℕ) : Option Iterator :=
  (w.firstInArenaList type fuel arena).bind (w.orRing type self fuel)

/-- The next object. -/
def advance (type : IteratorType) (w : Heap) (self : Addr) (fuel : ℕ) (it : Iterator) :
    Option Iterator :=
  match it.arena, it.ptr with
  | some id, some (.slot id' p) =>
    if id' = id then
      (w.arenas id).bind fun arena => (w.nextInArena type id arena p).bind fun q =>
        if q = none then w.initForArenaOrRing type self fuel arena.next else some ⟨some id, q⟩
    else none
  | none, some p => (w.nextInRing type self fuel p).map fun q => ⟨none, q⟩
  | _, _ => none

/-- The objects that an iteration visits from a state on. -/
def visit (type : IteratorType) (w : Heap) (self : Addr) (fuel : ℕ) :
    ℕ → Iterator → Option (List Addr)
  | _, ⟨_, none⟩ => some []
  | 0, ⟨_, some _⟩ => none
  | n + 1, ⟨arena, some p⟩ => (w.advance type self fuel ⟨arena, some p⟩).bind fun it =>
    (visit type w self fuel n it).map fun l => p :: l

/-- The objects that an iteration visits. -/
def objects (type : IteratorType) (w : Heap) (self : Addr) (m : Metadata) (fuel : ℕ) :
    Option (List Addr) :=
  (w.initForArenaOrRing type self fuel m.firstArena).bind (w.visit type self fuel fuel)

/-! ## Swapping the root -/

/-- Make `nroot` the last object of the ring. -/
def rotateRing (w : Heap) (self : Addr) (m : Metadata) (nroot : Addr) : Option (Heap × Metadata) :=
  (w.getNext self).bind fun x => (w.getNext nroot).bind fun y => m.lastLarge.bind fun last =>
    ((w.initNext last x).setNext self y).map fun w => (w, { m with lastLarge := some nroot })

/-- Take the class of an entry point from `oroot`, which `nroot` replaces. -/
def leaveRoot (w : Heap) (self : Addr) (m : Metadata) (oroot nroot : Addr) : Option Heap :=
  if alignUp (w.size oroot) ≤ Arena.size then some (w.initNext oroot none)
  else if some oroot ≠ m.lastLarge then none
  else if alignUp (w.size nroot) ≤ Arena.size then some (w.initNext oroot (some self))
  else some w

/-- Make `nroot` the entry point in the place of `oroot`. -/
def swapRootInternal (w : Heap) (self : Addr) (m : Metadata) (fuel : ℕ) (oroot nroot : Addr) :
    Option (Heap × Metadata) :=
  (w.objects .allObjects self m fuel).bind fun l =>
    if nroot ∉ l then none
    else (w.leaveRoot self m oroot nroot).bind fun w =>
      (if some nroot ≠ m.lastLarge ∧ Arena.size < alignUp (w.size nroot) then
        w.rotateRing self m nroot
      else some (w, m)).bind fun (w, m) =>
        let w := w.initIso nroot self
        if w.lastLargeClosed self m then some (w, m) else none

/-- Swap the entry point of a region. -/
def swapRoot (w : Heap) (fuel : ℕ) (prev next : Addr) : Option Heap :=
  if prev = next then none
  else (w.get prev).bind fun (self, m) =>
    if w.cls next ≠ .unmarked ∨ self = next then none
    else (w.swapRootInternal self m fuel prev next).map fun (w, m) => w.setRegion self m

end Heap

end RegionArena

end VeronaRt
