import Mathlib
import VeronaFs.Foundation.Trace
import VeronaFs.Runtime.Object

/-!
# Collection of cycles in a region with reference counts

`RegionRc::gc_cycles`.  An object whose count was decremented is a candidate: it is black and on the
Lins stack.  For each candidate the collection subtracts the references of everything that the
candidate reaches (`markRed`), adds them again for what has a count that is left (`restoreGreen`), and
deallocates the rest (`deallocReds`).

The functions return `none` where an assertion fails and where the memory of a deallocated object is
used.  The colour of a candidate is read before anything else, also if it is deallocated: then it is
what the allocator has left there, the argument `stale`.
-/

namespace VeronaRt

/-! ## Code -/

/-- A region, with the objects that are allocated. -/
structure RegionRc (O : Type*) where
  /-- The references of an object, the one that a trace pushes last first. -/
  fields : O → List O
  /-- The entry points of other regions that the finaliser of an object adds. -/
  finaliser : O → List O
  /-- The objects that are allocated. -/
  allocated : Finset O
  /-- The class of an object. -/
  cls : O → RegionMD
  /-- The reference count of an object. -/
  refCount : O → ℕ
  /-- The colour of an object. -/
  colour : O → RcColour
  /-- Objects that may be in a cycle, the top first. -/
  linsStack : List O
  /-- The number of objects of the region. -/
  regionSize : ℕ
  /-- What is done to objects. -/
  events : List (ObjectEvent O)

namespace RegionRc

variable {O : Type*} [DecidableEq O]

/-- The object may be collected as a part of a cycle. -/
def isRcCandidate (r : RegionRc O) (o : O) : Bool :=
  r.cls o = .unmarked || r.cls o = .marked || r.cls o = .iso

/-- The assertion of the functions that read or write a reference count. -/
def hasRefCount (r : RegionRc O) (o : O) : Bool :=
  o ∈ r.allocated && (r.cls o = .openIso || r.cls o = .marked || r.cls o = .unmarked)

/-- Write a reference count. -/
def setRefCount (r : RegionRc O) (o : O) (n : ℕ) : RegionRc O :=
  { r with refCount := Function.update r.refCount o n }

/-- Write a colour. -/
def setRcColour (r : RegionRc O) (o : O) (colour : RcColour) : RegionRc O :=
  { r with colour := Function.update r.colour o colour }

/-- Mark an object. -/
def mark (r : RegionRc O) (o : O) : RegionRc O :=
  { r with cls := Function.update r.cls o .marked }

/-- Note what is done to an object. -/
def emit (r : RegionRc O) (event : ObjectEvent O) : RegionRc O :=
  { r with events := r.events ++ [event] }

/-- Increment the count of an object. -/
def incref (r : RegionRc O) (o : O) : Option (RegionRc O) :=
  if r.hasRefCount o then some (r.setRefCount o (r.refCount o + 1)) else none

/-- Decrement the count of an object. -/
def decrefInner (r : RegionRc O) (o : O) : Option (RegionRc O) :=
  if r.hasRefCount o then some (r.setRefCount o (r.refCount o - 1)) else none

/-- A pop of `mark_red`.  The test of whether the object is a candidate is about the first object, not
about the popped one.  The object `in` of the source is the metadata of the region, so an entry point
is always another one. -/
def markRedStep (o : O) (s : RegionRc O × List O) (f : O) :
    Option ((RegionRc O × List O) × List O) :=
  if s.1.isRcCandidate o = false ∨ s.1.cls f = .iso then some (s, [])
  else
    (s.1.decrefInner f).map fun r =>
      if r.colour f = .red then ((r, s.2), [])
      else ((r.setRcColour f .red, if 0 < r.refCount f then f :: s.2 else s.2), r.fields f)

/-- Subtract the references of everything that an object reaches. -/
def markRed (fuel : ℕ) (r : RegionRc O) (o : O) (jumpStack : List O) :
    Option (RegionRc O × List O) :=
  if r.isRcCandidate o = false then some (r, jumpStack)
  else Foundation.drain (markRedStep o) fuel (r.setRcColour o .red, jumpStack) (r.fields o)

/-- A pop of `restore_green`. -/
def restoreGreenStep (r : RegionRc O) (f : O) : Option (RegionRc O × List O) :=
  if r.cls f = .iso then some (r, [])
  else
    (r.incref f).map fun r =>
      if r.isRcCandidate f ∧ r.colour f ≠ .green then (r.setRcColour f .green, r.fields f)
      else (r, [])

/-- Add the references of what an object reaches again. -/
def restoreGreen (fuel : ℕ) (r : RegionRc O) (o : O) : Option (RegionRc O) :=
  Foundation.drain restoreGreenStep fuel (r.setRcColour o .green) (r.fields o)

/-- The loop of `scan` over the jump stack. -/
def restoreJumps (fuel : ℕ) : RegionRc O → List O → Option (RegionRc O)
  | r, [] => some r
  | r, p :: jumpStack =>
    if r.hasRefCount p = false then none
    else if r.colour p = .red ∧ 0 < r.refCount p then
      (restoreGreen fuel r p).bind fun r => restoreJumps fuel r jumpStack
    else restoreJumps fuel r jumpStack

/-- The stacks of `dealloc_reds`, with the region. -/
structure Dealloc (O : Type*) where
  /-- The region. -/
  region : RegionRc O
  /-- The objects to deallocate, the top first. -/
  gc : List O
  /-- The entry points of the regions to release, the top first. -/
  subRegions : List O

/-- A pop of `dealloc_reds`. -/
def deallocRedsStep (s : Dealloc O) (f : O) : Option (Dealloc O × List O) :=
  if f ∉ s.region.allocated then none
  else
    match s.region.cls f with
    | .openIso => none
    | .marked => some (s, [])
    | .unmarked =>
      if s.region.colour f = .red then
        some (⟨(s.region.emit (.finalise f)).mark f, f :: s.gc, s.region.finaliser f ++ s.subRegions⟩,
          s.region.fields f)
      else some (s, [])
    -- The count of the component is looked up, but the object itself is decremented.
    | .sccPtr => none
    | .rc => some ({ s with region := s.region.emit (.decref f) }, [])
    | .shared => some ({ s with region := s.region.emit (.release f) }, [])
    | .iso => some ({ s with subRegions := f :: s.subRegions }, [])
    | .pending => none
    | .nonatomicRc => none

/-- Destruct and deallocate an object. -/
def freeObject (r : RegionRc O) (o : O) : RegionRc O :=
  { (r.emit (.destructor o)).emit (.dealloc o) with
    allocated := r.allocated.erase o, regionSize := r.regionSize - 1 }

/-- Deallocate what is still red of what an object reaches. -/
def deallocReds (fuel : ℕ) (r : RegionRc O) (o : O) : Option (RegionRc O) :=
  if r.colour o ≠ .red then some r
  else
    (Foundation.drain deallocRedsStep fuel ⟨r, [], []⟩ (r.fields o)).map fun s =>
      s.gc.foldl freeObject
        (s.subRegions.foldl (fun r o => r.emit (.releaseInternal o)) s.region)

/-- Decide what becomes of the objects that are red. -/
def scan (fuel : ℕ) (r : RegionRc O) (o : O) (jumpStack : List O) : Option (RegionRc O × List O) :=
  if r.isRcCandidate o ∧ r.hasRefCount o = false then none
  else if r.isRcCandidate o ∧ 0 < r.refCount o then
    (restoreGreen fuel r o).map fun r => (r, jumpStack)
  else
    (restoreJumps fuel r jumpStack).bind fun r => (deallocReds fuel r o).map fun r => (r, [])

/-- The loop of `gc_cycles`. -/
def gcLoop (fuel : ℕ) (stale : O → RcColour) : RegionRc O → List O → List O → Option (RegionRc O)
  | r, _, [] => some { r with linsStack := [] }
  | r, jumpStack, p :: linsStack =>
    if p ∈ r.allocated then
      if r.colour p = .black then
        (markRed fuel r p jumpStack).bind fun s =>
          (scan fuel s.1 p s.2).bind fun s => gcLoop fuel stale s.1 s.2 linsStack
      else gcLoop fuel stale r jumpStack linsStack
    else if stale p = .black then none
    else gcLoop fuel stale r jumpStack linsStack

/-- Remove cyclic garbage from the region with the entry point `o`. -/
def gcCycles (fuel : ℕ) (stale : O → RcColour) (r : RegionRc O) (o : O) : Option (RegionRc O) :=
  if r.cls o = .openIso then gcLoop fuel stale r [] r.linsStack else none

end RegionRc

end VeronaRt
