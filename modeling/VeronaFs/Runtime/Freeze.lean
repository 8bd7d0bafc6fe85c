import VeronaFs.Foundation.Trace
import VeronaFs.Runtime.LinkedObjectStack

/-!
# Freezing

`Freeze::apply`.  It makes the objects that an entry point reaches immutable: a path-based search over
the objects of a region finds the strongly connected components and counts the references into each,
then the objects of the region that were not reached are collected.  The entry points of other regions
that the search comes to are frozen in the same way afterwards.

The state has the words of the headers.  The functions give `none` where an assertion fails, where the
header of an object is used that is not there any more, and where a loop runs out of fuel.
-/

namespace VeronaRt

/-- What the descriptors and the metadata of regions say about objects. -/
structure Freeze.Descriptors where
  /-- The references of an object, the one that a trace pushes last first. -/
  fields : ObjAddr → List ObjAddr
  /-- The entry points of other regions that the finaliser of an object adds, the last one first, if it
  has a finaliser. -/
  finaliser : ObjAddr → Option (List ObjAddr)
  /-- The object has a destructor. -/
  hasDestructor : ObjAddr → Bool
  /-- The metadata object is that of a trace region. -/
  isTraceRegion : ObjAddr → Bool
  /-- The first object of the secondary ring of a region. -/
  nextNotRoot : ObjAddr → ObjAddr
  /-- The remembered set of a region. -/
  remembered : ObjAddr → List ObjAddr

/-- The state of `Freeze::apply`: the headers, and its stacks, the top first. -/
structure Freeze where
  /-- The words of the headers. -/
  heap : ObjectHeap
  /-- The objects with an external reference, by a bit of their second words. -/
  hasExtRef : ObjAddr → Bool
  /-- The ends of the parts of the rings. -/
  objects : List ObjAddr
  /-- The entry points to freeze. -/
  iso : List ObjAddr
  /-- The vertices with which the components on the path start. -/
  pending : List ObjAddr
  /-- What is done to objects. -/
  events : List (ObjectEvent ObjAddr)

namespace Freeze

/-- An entry of the stack of the search. -/
inductive Visit
  /-- A reference. -/
  | pre (o : ObjAddr)
  /-- An object whose references were pushed: the address with the mark. -/
  | post (o : ObjAddr)
deriving DecidableEq

/-! ## The search -/

/-- A pop of the search. -/
def dfsStep (D : Descriptors) (fuel : ℕ) (s : Freeze) : Visit → Option (Freeze × List Visit)
  | .post q => do
    let head ← s.pending.head?
    if q = head then
      let (r, c, heap) ← ObjectHeap.rootAndClass fuel s.heap q
      let heap ← heap.makeNonatomicScc r
      if c = .pending then some ({ s with heap := heap, pending := s.pending.tail }, []) else none
    else some (s, [])
  | .pre q => do
    let (r, c, heap) ← ObjectHeap.rootAndClass fuel s.heap q
    match c with
    | .pending =>
      let rank ← heap.pendingRank r
      let (heap, pending) ← ObjectHeap.collapseLoop fuel heap s.pending r rank
      some ({ s with heap := heap, pending := pending }, [])
    | .iso => some ({ s with heap := heap, iso := q :: s.iso }, [])
    | .rc => (heap.incref r).map fun heap => ({ s with heap := heap }, [])
    | .shared => (heap.incref r).map fun heap => ({ s with heap := heap }, [])
    | .nonatomicRc => (heap.increfNonatomic r).map fun heap => ({ s with heap := heap }, [])
    | .unmarked =>
      let next ← heap.getNext q
      let heap ← heap.setPendingRank q 0
      some ({ s with
        heap := heap
        hasExtRef := Function.update s.hasExtRef q false
        objects := next :: s.objects
        pending := q :: s.pending }, (D.fields q).map .pre ++ [.post q])
    | .sccPtr => none
    | .marked => none
    | .openIso => none

/-! ## The sweep -/

/-- The state of the sweep of a region. -/
structure Sweep where
  /-- The words of the headers. -/
  heap : ObjectHeap
  /-- The ends of the parts of the rings that are left. -/
  objects : List ObjAddr
  /-- The objects to deallocate. -/
  toDealloc : LinkedObjectStack
  /-- What is done to objects. -/
  events : List (ObjectEvent ObjAddr)

/-- Finalise an object that was not reached, and release the regions that its finaliser adds. -/
def finalise (D : Descriptors) (h : ObjectHeap) (p : ObjAddr) : Option (List (ObjectEvent ObjAddr)) :=
  match D.finaliser p with
  | none => some []
  | some isos =>
    if ∀ q ∈ isos, h.getClass q = some .iso then
      some (.finalise p :: isos.map .releaseInternal)
    else none

/-- The loop over the objects of the region `reg`, at the object `p`. -/
def sweepLoop (D : Descriptors) (reg : ObjAddr) : ℕ → Sweep → ObjAddr → Option Sweep
  | 0, _, _ => none
  | fuel + 1, s, p =>
    let nextPart (s : Sweep) : Option Sweep :=
      match s.objects with
      | [] => some s
      | p :: objects => sweepLoop D reg fuel { s with objects := objects } p
    do
    let c ← s.heap.getClass p
    match c with
    | .unmarked =>
      let next ← s.heap.getNext p
      if p = reg then none
      else
        let events ← finalise D s.heap p
        let (heap, toDealloc) ← s.toDealloc.push s.heap p
        sweepLoop D reg fuel
          { s with heap := heap, toDealloc := toDealloc, events := s.events ++ events } next
    | .nonatomicRc =>
      let heap ← s.heap.makeAtomic p
      nextPart { s with heap := heap }
    | .marked => if p = reg then nextPart s else none
    | .rc => nextPart s
    | .sccPtr => nextPart s
    | .iso => none
    | .pending => none
    | .shared => none
    | .openIso => none

/-- The loop that destructs and deallocates. -/
def deallocLoop (D : Descriptors) :
    ℕ → ObjectHeap → LinkedObjectStack → List (ObjectEvent ObjAddr) →
      Option (ObjectHeap × List (ObjectEvent ObjAddr))
  | 0, h, st, events => if st.empty then some (h, events) else none
  | fuel + 1, h, st, events =>
    if st.empty then some (h, events)
    else do
      let (q, st) ← st.pop h
      let heap ← h.dealloc q
      deallocLoop D fuel heap st
        (events ++ (if D.hasDestructor q then [.destructor q] else []) ++ [.dealloc q])

/-- `discard`: what is done to the objects of the remembered set. -/
def discard (D : Descriptors) (h : ObjectHeap) (reg : ObjAddr) : Option (List (ObjectEvent ObjAddr)) :=
  (D.remembered reg).mapM fun o => do
    let c ← h.getClass o
    match c with
    | .rc => some (.decref o)
    | .shared => some (.release o)
    | _ => none

/-! ## Regions -/

/-- The body of the outer loop of `Freeze::apply` for the entry point `p`. -/
def freezeRegion (D : Descriptors) (fuel : ℕ) (s : Freeze) (p : ObjAddr) : Option Freeze := do
  let reg ← s.heap.getRegion p
  if ¬ D.isTraceRegion reg then none
  else
    let heap ← s.heap.initNext p reg
    let first ← heap.getNext reg
    let heap ← heap.mark reg
    let s ← Foundation.drain (dfsStep D fuel) fuel
      { s with heap := heap, objects := first :: D.nextNotRoot reg :: s.objects } [.pre p]
    match s.objects with
    | [] => none
    | p :: objects =>
      let swept ← sweepLoop D reg fuel ⟨s.heap, objects, .nil, s.events⟩ p
      let (heap, events) ← deallocLoop D fuel swept.heap swept.toDealloc swept.events
      let discarded ← discard D heap reg
      let heap ← heap.dealloc reg
      some { s with
        heap := heap
        objects := swept.objects
        events := events ++ discarded ++ [.dealloc reg] }

/-- The outer loop of `Freeze::apply`. -/
def applyLoop (D : Descriptors) : ℕ → Freeze → Option Freeze
  | 0, s => if s.iso = [] then some s else none
  | fuel + 1, s =>
    match s.iso with
    | [] => some s
    | p :: iso =>
      if s.objects = [] then
        (freezeRegion D (fuel + 1) { s with iso := iso } p).bind (applyLoop D fuel)
      else none

/-- `Freeze::apply`. -/
def apply (D : Descriptors) (fuel : ℕ) (h : ObjectHeap) (hasExtRef : ObjAddr → Bool) (o : ObjAddr) :
    Option Freeze :=
  if h.getClass o = some .iso then applyLoop D fuel ⟨h, hasExtRef, [], [o], [], []⟩ else none

end Freeze

end VeronaRt
