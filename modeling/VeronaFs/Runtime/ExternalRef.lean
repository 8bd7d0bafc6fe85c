import VeronaFs.Runtime.ObjectMap
import VeronaFs.Runtime.RegionTraceGrow
import VeronaFs.Runtime.RegionTraceRelease

/-!
# External references

`ExternalRef` and `ExternalReferenceTable` with the trace regions.  Every region has a map from the
objects that an external reference was created for to the reference; the reference has the table of the
region that the object is in.  The bit in the header of an object says that it has a reference.

A metadata object stands for its region and for the table of the region.  The regions share one heap of
headers; a step of a region is a step of its view, a `RegionTrace` with this heap.
-/

namespace VeronaRt.ExternalRef

open RegionTrace (Descriptors)

/-! ## State -/

/-- What the metadata object of a region stores. -/
structure Region (O E : Type*) where
  /-- The objects of the region, with the metadata object. -/
  allocated : Finset O
  /-- The first object of the secondary ring. -/
  nextNotRoot : Option O
  /-- The last object of the secondary ring. -/
  lastNotRoot : Option O
  /-- The memory in use. -/
  currentMemoryUsed : ℕ
  /-- The memory in use after the last collection. -/
  previousMemoryUsed : ℕ
  /-- The additional roots, the top first. -/
  additionalEntryPoints : List O
  /-- The external references of the objects; a null pointer stands for one that has moved. -/
  externalMap : ObjectMap O (Option E)

/-- The regions and the external references. -/
structure World (O E : Type*) where
  /-- The class of an object. -/
  cls : O → RegionMD
  /-- The link in the header of an object. -/
  next : O → Option O
  /-- The bit in the header of an object that has an external reference. -/
  hasExtRef : O → Bool
  /-- The object has neither a finaliser nor a destructor. -/
  isTrivial : O → Bool
  /-- The size of an object. -/
  size : O → ℕ
  /-- How many objects have been allocated at an address. -/
  births : O → ℕ
  /-- The regions, by their metadata objects. -/
  regions : O → Option (Region O E)
  /-- The table in an external reference. -/
  ert : E → Option O
  /-- The object in an external reference. -/
  target : E → Option O
  /-- The object that an external reference was created for: its address, and which object it is of
  those that were allocated there. -/
  created : E → Option (O × ℕ)

namespace World

variable {O E : Type*} [DecidableEq O] [DecidableEq E]

/-- What the descriptors say about the objects, without references. -/
def bare (w : World O E) : Descriptors O where
  fields _ := []
  finaliser _ := []
  isTrivial := w.isTrivial
  size := w.size
  immutable o := o

/-- A region with the heap. -/
def view (w : World O E) (self : O) (m : Region O E) : RegionTrace O where
  self := self
  allocated := m.allocated
  cls := w.cls
  next := w.next
  nextNotRoot := m.nextNotRoot
  lastNotRoot := m.lastNotRoot
  currentMemoryUsed := m.currentMemoryUsed
  previousMemoryUsed := m.previousMemoryUsed
  additionalEntryPoints := m.additionalEntryPoints
  externalReferences := ∅
  remembered := []
  events := []

/-- The metadata of a view, with a map of external references. -/
def metadata (r : RegionTrace O) (externalMap : ObjectMap O (Option E)) : Region O E where
  allocated := r.allocated
  nextNotRoot := r.nextNotRoot
  lastNotRoot := r.lastNotRoot
  currentMemoryUsed := r.currentMemoryUsed
  previousMemoryUsed := r.previousMemoryUsed
  additionalEntryPoints := r.additionalEntryPoints
  externalMap := externalMap

/-- Write a view back to the heap, with a map of external references. -/
def write (w : World O E) (r : RegionTrace O) (externalMap : ObjectMap O (Option E)) : World O E :=
  { w with
    cls := r.cls
    next := r.next
    regions := Function.update w.regions r.self (some (metadata r externalMap)) }

/-- Write the metadata of a region. -/
def setRegion (w : World O E) (self : O) (m : Region O E) : World O E :=
  { w with regions := Function.update w.regions self (some m) }

/-- A new object. -/
def register (w : World O E) (o : O) (isTrivial : Bool) (size : ℕ) : World O E :=
  { w with
    hasExtRef := Function.update w.hasExtRef o false
    isTrivial := Function.update w.isTrivial o isTrivial
    size := Function.update w.size o size
    births := Function.update w.births o (w.births o + 1) }

/-- The region of an entry point, with its metadata object.  An object that is not in its region is
deallocated. -/
def get (w : World O E) (entry : O) : Option (O × Region O E) :=
  if w.cls entry = .iso then
    (w.next entry).bind fun self => (w.regions self).bind fun m =>
      if entry ∈ m.allocated then some (self, m) else none
  else none

/-! ## Regions -/

/-- Create a region with the metadata object `self` and the entry point `o`. -/
def create (w : World O E) (self o : O) (isTrivial : Bool) (size : ℕ) : World O E :=
  let w := (w.register self true 0).register o isTrivial size
  w.write (RegionTrace.create w.bare w.cls w.next self o) ObjectMap.create

/-- Allocate the object `o` in the region of an entry point. -/
def alloc (w : World O E) (entry o : O) (isTrivial : Bool) (size : ℕ) : Option (World O E) :=
  (w.get entry).bind fun (self, m) =>
    let w := w.register o isTrivial size
    (RegionTrace.alloc w.bare (w.view self m) o).map fun r => w.write r m.externalMap

/-- Push an additional root. -/
def pushAdditionalRoot (w : World O E) (entry o : O) : Option (World O E) :=
  (w.get entry).map fun (self, m) =>
    w.setRegion self { m with additionalEntryPoints := o :: m.additionalEntryPoints }

/-- Pop an additional root. -/
def popAdditionalRoot (w : World O E) (entry o : O) : Option (World O E) :=
  (w.get entry).bind fun (self, m) =>
    match m.additionalEntryPoints with
    | [] => none
    | root :: roots =>
      if root = o then some (w.setRegion self { m with additionalEntryPoints := roots }) else none

/-! ## The tables -/

/-- Create an external reference to `o` in the region of `self`, unless it has one: `e` is its address
if it is new. -/
def createRef (H : ObjectMap.Hashing O) (depth : ℕ) (w : World O E) (self o : O) (e : E) :
    Option (World O E) :=
  (w.regions self).bind fun m =>
    if w.cls o = .sccPtr ∨ w.cls o = .rc ∨ w.cls o = .nonatomicRc ∨ w.cls o = .shared then none
    else if w.hasExtRef o then
      (m.externalMap.find H o).bind fun i => (m.externalMap.slots i).bind fun entry =>
        entry.value.map fun _ => w
    else
      (ObjectMap.insert H depth m.externalMap (.new o (some e))).bind fun (map, unique, _) =>
        if unique then
          some { w.setRegion self { m with externalMap := map } with
            hasExtRef := Function.update w.hasExtRef o true
            ert := Function.update w.ert e (some self)
            target := Function.update w.target e (some o)
            created := Function.update w.created e (some (o, w.births o)) }
        else none

/-- Invalidate the external reference in a slot and remove its entry. -/
def removeRef (w : World O E) (self : O) (i : ℕ) : Option (World O E) :=
  (w.regions self).bind fun m => (m.externalMap.slots i).map fun entry =>
    let w := w.setRegion self { m with externalMap := m.externalMap.eraseAt i }
    match entry.value with
    | none => w
    | some e =>
      { w with
        ert := Function.update w.ert e none
        target := Function.update w.target e none }

/-- Remove the entry of an object. -/
def eraseRef (H : ObjectMap.Hashing O) (w : World O E) (self p : O) : Option (World O E) :=
  (w.regions self).bind fun m => (m.externalMap.find H p).bind fun i => w.removeRef self i

/-- What a sweep does to the table when it deallocates an object: the sweep of the trivial ring removes
the entry of an object with an external reference. -/
def sweepRef (H : ObjectMap.Hashing O) (self : O) (w : World O E) : ObjectEvent O → Option (World O E)
  | .dealloc p => if w.isTrivial p = true ∧ w.hasExtRef p = true then w.eraseRef H self p else some w
  | .finalise _ => some w
  | .destructor _ => some w
  | .decref _ => some w
  | .release _ => some w
  | .releaseInternal _ => some w

/-- Deallocate the table of a region: all its external references are invalid from then on. -/
def deallocTable (w : World O E) (self : O) : Option (World O E) :=
  (w.regions self).bind fun m => m.externalMap.visits.foldlM (fun w i => w.removeRef self i) w

/-- Move the entry in a slot of the table of `other` to the table of `self`. -/
def moveRef (H : ObjectMap.Hashing O) (depth : ℕ) (self other : O) (w : World O E) (i : ℕ) :
    Option (World O E) :=
  (w.regions self).bind fun m => (w.regions other).bind fun m' =>
    (m'.externalMap.slots i).bind fun entry => entry.value.bind fun e =>
      if w.target e = none then none
      else
        let slots := Function.update m'.externalMap.slots i (some { entry with value := none })
        (ObjectMap.insert H depth m.externalMap (.new entry.key (some e))).bind fun (map, unique, _) =>
          if unique then
            let m' := { m' with externalMap := { m'.externalMap with slots := slots } }
            some { (w.setRegion other m').setRegion self { m with externalMap := map } with
              ert := Function.update w.ert e (some self) }
          else none

/-- Move all entries of the table of `other` to the table of `self`. -/
def mergeTable (H : ObjectMap.Hashing O) (depth : ℕ) (w : World O E) (self other : O) :
    Option (World O E) :=
  (w.regions other).bind fun m => m.externalMap.visits.foldlM (moveRef H depth self other) w

/-- Merge the region of `o` into that of `into`. -/
def merge (H : ObjectMap.Hashing O) (depth : ℕ) (sizeclass : ℕ → ℕ) (w : World O E) (into o : O) :
    Option (World O E) :=
  (w.get into).bind fun (self, m) => (w.get o).bind fun (other, m') =>
    if self = other ∨ m'.additionalEntryPoints ≠ [] then none
    else
      (RegionTrace.mergeInternal w.bare sizeclass (w.view self m) o (w.view other m')).bind fun r =>
      ((w.write r m.externalMap).mergeTable H depth self other).bind fun w =>
      (w.deallocTable other).map fun w =>
      { w with regions := Function.update w.regions other none }

/-! ## Collection -/

/-- The descriptors of the objects, with the references that they have now. -/
def descriptors (w : World O E) (D : Descriptors O) : Descriptors O :=
  { D with isTrivial := w.isTrivial, size := w.size }

/-- The descriptors of the objects when a region is released: it is not traced. -/
def finalisers (w : World O E) (D : Descriptors O) : Descriptors O :=
  { w.bare with finaliser := D.finaliser }

/-- A bound of the passes of all loops in a region. -/
def passes (D : Descriptors O) (entry : O) (m : Region O E) : ℕ :=
  Foundation.width D.fields m.allocated + (D.fields entry).length + m.additionalEntryPoints.length +
    m.allocated.card

/-- Release the region of an entry point.  The entry points that the finalisers add are pushed on
`collect`. -/
def releaseRegion (H : ObjectMap.Hashing O) (D : Descriptors O) (sizeclass : ℕ → ℕ) (w : World O E)
    (entry : O) (collect : List O) : Option (World O E × List O) :=
  (w.get entry).bind fun (self, m) =>
    (RegionTrace.releaseInternal (w.finalisers D) (passes D entry m) sizeclass (w.view self m) entry
      collect).bind fun (r, collect) =>
    (r.events.foldlM (sweepRef H self) (w.write r m.externalMap)).bind fun w =>
    (w.deallocTable self).map fun w =>
      ({ w with regions := Function.update w.regions self none }, collect)

/-- Release the regions of the entry points that a collection of the region `reg` has found, and of
those that their finalisers add. -/
def releaseAll (H : ObjectMap.Hashing O) (D : Descriptors O) (sizeclass : ℕ → ℕ) (reg : O) :
    ℕ → World O E → List O → Option (World O E)
  | _, w, [] => some w
  | 0, _, _ :: _ => none
  | fuel + 1, w, entry :: collect =>
    if w.next entry = some reg then none
    else (w.releaseRegion H D sizeclass entry collect).bind fun (w, collect) =>
      releaseAll H D sizeclass reg fuel w collect

/-- Collect the garbage of the region of an entry point. -/
def gc (H : ObjectMap.Hashing O) (D : Descriptors O) (sizeclass : ℕ → ℕ) (fuel : ℕ) (w : World O E)
    (entry : O) : Option (World O E) :=
  (w.get entry).bind fun (self, m) =>
    (RegionTrace.gc (w.descriptors D) (passes D entry m) sizeclass (w.view self m) entry).bind
      fun (r, collect) =>
    (r.events.foldlM (sweepRef H self) (w.write r m.externalMap)).bind fun w =>
      releaseAll H D sizeclass self fuel w collect

end World

end VeronaRt.ExternalRef
