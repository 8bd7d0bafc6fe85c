import VeronaFs.Foundation.Trace
import VeronaFs.Runtime.Object

/-!
# Garbage collection in a trace region

`RegionTrace::gc`.  The objects of a region are in two rings, linked through the first word of their
headers: the primary ring has the objects that are trivial if and only if the entry point is, and ends
with it, the secondary ring has the others.  A collection marks what is reached, then it sweeps the
ring of the objects with finalisers and the ring of the trivial ones.

The functions return `none` where an assertion fails and where a null pointer or the memory of a
deallocated object is used.
-/

namespace VeronaRt

/-! ## Code -/

/-- What the descriptors say about objects. -/
structure RegionTrace.Descriptors (O : Type*) where
  /-- The references of an object, the one that a trace pushes last first. -/
  fields : O → List O
  /-- The entry points of other regions that the finaliser of an object adds. -/
  finaliser : O → List O
  /-- The object has neither a finaliser nor a destructor. -/
  isTrivial : O → Bool
  /-- The size of an object. -/
  size : O → ℕ
  /-- The object with the count of an immutable object. -/
  immutable : O → O

/-- A region, with the headers of the objects. -/
structure RegionTrace (O : Type*) where
  /-- The metadata object of the region. -/
  self : O
  /-- The objects that are allocated. -/
  allocated : Finset O
  /-- The class of an object. -/
  cls : O → RegionMD
  /-- The link in the header of an object. -/
  next : O → Option O
  /-- The first object of the secondary ring. -/
  nextNotRoot : Option O
  /-- The last object of the secondary ring. -/
  lastNotRoot : Option O
  /-- The memory in use. -/
  currentMemoryUsed : ℕ
  /-- The memory in use after the last collection. -/
  previousMemoryUsed : ℕ
  /-- The additional roots, the top first. -/
  additionalEntryPoints : List O
  /-- The objects with an entry in the table of external references. -/
  externalReferences : Finset O
  /-- The objects of other regions that are marked in the remembered set. -/
  remembered : List O
  /-- What is done to objects. -/
  events : List (ObjectEvent O)

/-- The two rings. -/
inductive RegionTrace.RingKind
  /-- The ring of the trivial objects. -/
  | trivialRing
  /-- The ring of the other objects. -/
  | nonTrivialRing
deriving DecidableEq, Repr

namespace RegionTrace

variable {O : Type*} [DecidableEq O]

/-- Note what is done to an object. -/
def emit (r : RegionTrace O) (event : ObjectEvent O) : RegionTrace O :=
  { r with events := r.events ++ [event] }

/-- Write a class. -/
def setClass (r : RegionTrace O) (o : O) (cls : RegionMD) : RegionTrace O :=
  { r with cls := Function.update r.cls o cls }

/-- Write a header: a link, with which the object is not marked. -/
def initNext (r : RegionTrace O) (o : O) (next : Option O) : RegionTrace O :=
  { r with next := Function.update r.next o next, cls := Function.update r.cls o .unmarked }

/-- The link of an object that is not marked. -/
def getNext (r : RegionTrace O) (o : O) : Option (Option O) :=
  if o ∈ r.allocated ∧ r.cls o = .unmarked then some (r.next o) else none

/-- Write the link of an object that is not marked. -/
def setNext (r : RegionTrace O) (o : O) (next : Option O) : Option (RegionTrace O) :=
  if o ∈ r.allocated ∧ r.cls o = .unmarked then some (r.initNext o next) else none

/-- Deallocate an object. -/
def dealloc (r : RegionTrace O) (o : O) : RegionTrace O :=
  { r.emit (.dealloc o) with allocated := r.allocated.erase o }

/-- Count the memory of an object. -/
def useMemory (r : RegionTrace O) (size : ℕ) : RegionTrace O :=
  { r with currentMemoryUsed := r.currentMemoryUsed + size }

variable (D : Descriptors O)

/-- A pop of `mark`. -/
def markStep (r : RegionTrace O) (p : O) : Option (RegionTrace O × List O) :=
  match r.cls p with
  | .iso => some (r, [])
  | .marked => some (r, [])
  | .unmarked => some (r.setClass p .marked, D.fields p)
  | .sccPtr => some ({ r with remembered := r.remembered ++ [D.immutable p] }, [])
  | .rc => some ({ r with remembered := r.remembered ++ [p] }, [])
  | .shared => some ({ r with remembered := r.remembered ++ [p] }, [])
  | .pending => none
  | .nonatomicRc => none
  | .openIso => none

/-- Mark what the entry point and the objects on the stack reach. -/
def mark (fuel : ℕ) (r : RegionTrace O) (o : O) (dfs : List O) : Option (RegionTrace O) :=
  Foundation.drain (markStep D) fuel r (D.fields o ++ dfs)

/-- The state of the sweep of a ring. -/
structure Sweep (O : Type*) where
  /-- The region. -/
  region : RegionTrace O
  /-- The last object that is kept. -/
  prev : O
  /-- The next object. -/
  p : Option O
  /-- The objects to deallocate, linked through their headers. -/
  gc : Option O
  /-- The entry points of the regions to release, the top first. -/
  collect : List O

/-- Collect an object. -/
def sweepObject (ring : RingKind) (s : Sweep O) (p : O) : Option (Sweep O) :=
  match ring with
  | .trivialRing =>
    if D.isTrivial p = true then
      some { s with region := { s.region.dealloc p with
        externalReferences := s.region.externalReferences.erase p } }
    else none
  | .nonTrivialRing =>
    if D.isTrivial p = false then
      some { s with
        region := (s.region.emit (.finalise p)).initNext p s.gc
        gc := some p
        collect := D.finaliser p ++ s.collect }
    else none

/-- Unlink an object that is collected. -/
def unlink (ring primaryRing : RingKind) (s : Sweep O) (p : O) (q : Option O) : Option (Sweep O) :=
  (if ring ≠ primaryRing ∧ s.prev = s.region.self then some { s.region with nextNotRoot := q }
    else s.region.setNext s.prev q).map fun r =>
    { s with
      region := if ring ≠ primaryRing ∧ r.lastNotRoot = some p then
        { r with lastNotRoot := some s.prev } else r
      p := q }

/-- A pass through the loop of `sweep_ring` for the object `p`. -/
def sweepStep (ring primaryRing : RingKind) (sweepAll : Bool) (s : Sweep O) (p : O) :
    Option (Sweep O) :=
  if p ∉ s.region.allocated then none
  else
    match s.region.cls p with
    | .iso =>
      if s.region.next p ≠ some s.region.self then none
      else if sweepAll then
        (sweepObject D ring s p).map fun s => { s with p := some s.region.self }
      else some { s with region := s.region.useMemory (D.size p), p := some s.region.self }
    | .marked =>
      if sweepAll then none
      else
        let r := (s.region.useMemory (D.size p)).setClass p .unmarked
        some { s with region := r, prev := p, p := r.next p }
    | .unmarked => (sweepObject D ring s p).bind fun s' =>
        unlink ring primaryRing s' p (s.region.next p)
    | .sccPtr => none
    | .rc => none
    | .pending => none
    | .nonatomicRc => none
    | .shared => none
    | .openIso => none

/-- The loop of `sweep_ring`. -/
def sweepLoop (ring primaryRing : RingKind) (sweepAll : Bool) : ℕ → Sweep O → Option (Sweep O)
  | 0, _ => none
  | fuel + 1, s =>
    if s.p = some s.region.self then some s
    else s.p.bind fun p => (sweepStep D ring primaryRing sweepAll s p).bind
      (sweepLoop ring primaryRing sweepAll fuel)

/-- The loop that destructs and deallocates. -/
def gcLoop : ℕ → RegionTrace O → Option O → Option (RegionTrace O)
  | _, r, none => some r
  | 0, _, some _ => none
  | fuel + 1, r, some q =>
    if q ∉ r.allocated then none
    else gcLoop fuel ((r.emit (.destructor q)).dealloc q) (r.next q)

/-- Sweep a ring. -/
def sweepRing (fuel : ℕ) (ring primaryRing : RingKind) (sweepAll : Bool) (r : RegionTrace O)
    (collect : List O) : Option (RegionTrace O × List O) :=
  (if ring = primaryRing then r.getNext r.self else some r.nextNotRoot).bind fun p =>
    (sweepLoop D ring primaryRing sweepAll fuel ⟨r, r.self, p, none, collect⟩).bind fun s =>
      match ring with
      | .nonTrivialRing => (gcLoop fuel s.region s.gc).map fun r => (r, s.collect)
      | .trivialRing => some (s.region, s.collect)

/-- The ring of the entry point. -/
def primary (o : O) : RingKind := if D.isTrivial o then .trivialRing else .nonTrivialRing

/-- Sweep the region with the entry point `o`.  The argument `sizeclass` rounds the memory in use, and
the remembered set forgets its marks. -/
def sweep (fuel : ℕ) (sizeclass : ℕ → ℕ) (sweepAll : Bool) (r : RegionTrace O) (o : O)
    (collect : List O) : Option (RegionTrace O × List O) :=
  (sweepRing D fuel .nonTrivialRing (primary D o) sweepAll { r with currentMemoryUsed := 0 }
    collect).bind fun s =>
    (sweepRing D fuel .trivialRing (primary D o) sweepAll s.1 s.2).map fun s =>
      ({ s.1 with remembered := [], previousMemoryUsed := sizeclass s.1.currentMemoryUsed }, s.2)

/-- Collect the garbage of the region with the entry point `o`.  The result has the entry points of the
regions that are then released. -/
def gc (fuel : ℕ) (sizeclass : ℕ → ℕ) (r : RegionTrace O) (o : O) :
    Option (RegionTrace O × List O) :=
  if r.cls o = .iso ∧ r.next o = some r.self then
    (mark D fuel r o r.additionalEntryPoints.reverse).bind fun r =>
      sweep D fuel sizeclass false r o []
  else none

end RegionTrace

end VeronaRt
