import VeronaFs.Runtime.LinkedObjectStack

/-!
# Immutable objects

`Immutable::acquire` and `Immutable::release`.  A release that drops the last reference to a component
frees it: the objects of the component are found by their references, from the root on, and the
components whose last reference was one of those are freed after it.  Three stacks of objects are linked
through the headers of the objects that are freed.

The functions give `none` where an assertion fails, where the header of an object is used that is not
there any more, and where a loop runs out of fuel.  Other threads are left out.
-/

namespace VeronaRt

/-- What the descriptors say about objects. -/
structure Immutable.Descriptors where
  /-- The references of an object, the one that a trace pushes last first. -/
  fields : ObjAddr → List ObjAddr
  /-- The object has a finaliser. -/
  hasFinaliser : ObjAddr → Bool
  /-- The object has a destructor. -/
  hasDestructor : ObjAddr → Bool
  /-- The size of an object. -/
  size : ObjAddr → ℕ

/-- The state of `Immutable::free`. -/
structure Immutable where
  /-- The words of the headers. -/
  heap : ObjectHeap
  /-- The roots of the components to free. -/
  dfs : LinkedObjectStack
  /-- The objects of the component that were found. -/
  scc : LinkedObjectStack
  /-- The objects of the component whose references were followed. -/
  fl : LinkedObjectStack
  /-- What is done to objects. -/
  events : List (ObjectEvent ObjAddr)
  /-- The size of what was deallocated. -/
  total : ℕ

namespace Immutable

/-- `scc_classify`. -/
def sccClassify (fuel : ℕ) (s : Immutable) (w : ObjAddr) : Option Immutable := do
  let (r, c, heap) ← ObjectHeap.rootAndClass fuel s.heap w
  match c with
  | .rc =>
    let (last, heap) ← heap.decref r
    if last then
      let (heap, dfs) ← s.dfs.push heap r
      some { s with heap := heap, dfs := dfs }
    else some { s with heap := heap }
  | .unmarked =>
    if w ≠ r then
      let (heap, scc) ← s.scc.push heap w
      some { s with heap := heap, scc := scc }
    else some { s with heap := heap }
  | .shared => some { s with heap := heap, events := s.events ++ [.release w] }
  | _ => none

/-- A trace of an object, and the classification of its references. -/
def follow (D : Descriptors) (fuel : ℕ) (s : Immutable) (v : ObjAddr) : Option Immutable :=
  (D.fields v).foldlM (sccClassify fuel) s

/-- The loop over the objects of a component. -/
def sccLoop (D : Descriptors) (fuel : ℕ) : ℕ → Immutable → Option Immutable
  | 0, s => if s.scc.empty then some s else none
  | n + 1, s =>
    if s.scc.empty then some s
    else do
      let (w, scc) ← s.scc.pop s.heap
      let (heap, fl) ← s.fl.push s.heap w
      let s ← follow D fuel { s with heap := heap, scc := scc, fl := fl } w
      sccLoop D fuel n s

/-- An object is destructed and deallocated. -/
def drop (D : Descriptors) (s : Immutable) (w : ObjAddr) : Option Immutable :=
  (s.heap.dealloc w).map fun heap => { s with
    heap := heap
    events := s.events ++ (if D.hasDestructor w then [.destructor w] else []) ++ [.dealloc w]
    total := s.total + D.size w }

/-- The loop that deallocates the objects of a component. -/
def flLoop (D : Descriptors) : ℕ → Immutable → Option Immutable
  | 0, s => if s.fl.empty then some s else none
  | n + 1, s =>
    if s.fl.empty then some s
    else do
      let (w, fl) ← s.fl.pop s.heap
      let s ← drop D { s with fl := fl } w
      flLoop D n s

/-- The finalisers of some objects. -/
def runFinaliser (D : Descriptors) (w : ObjAddr) : List (ObjectEvent ObjAddr) :=
  if D.hasFinaliser w then [.finalise w] else []

/-- The body of the outer loop of `free`. -/
def freeComponent (D : Descriptors) (fuel : ℕ) (s : Immutable) (v : ObjAddr) : Option Immutable := do
  let s ← follow D fuel s v
  let s ← sccLoop D fuel fuel s
  let objects ← s.fl.toList s.heap fuel
  let s ← flLoop D fuel { s with events := s.events ++ (objects ++ [v]).flatMap (runFinaliser D) }
  drop D s v

/-- The outer loop of `free`. -/
def freeLoop (D : Descriptors) (fuel : ℕ) : ℕ → Immutable → Option Immutable
  | 0, s => if s.dfs.empty then some s else none
  | n + 1, s =>
    if s.dfs.empty then some s
    else do
      let (v, dfs) ← s.dfs.pop s.heap
      let s ← freeComponent D fuel { s with dfs := dfs } v
      freeLoop D fuel n s

/-- `immutable`: the root of an immutable object. -/
def immutable (fuel : ℕ) (h : ObjectHeap) (o : ObjAddr) : Option (ObjAddr × ObjectHeap) := do
  let (r, c, h) ← ObjectHeap.rootAndClass fuel h o
  if c = .rc ∨ c = .nonatomicRc then some (r, h) else none

/-- `Immutable::free`. -/
def free (D : Descriptors) (fuel : ℕ) (h : ObjectHeap) (o : ObjAddr) : Option Immutable := do
  let (r, h) ← immutable fuel h o
  if o ≠ r then none
  else
    let (h, dfs) ← LinkedObjectStack.nil.push h o
    freeLoop D fuel fuel ⟨h, dfs, .nil, .nil, [], 0⟩

/-- `Immutable::acquire`. -/
def acquire (fuel : ℕ) (h : ObjectHeap) (o : ObjAddr) : Option ObjectHeap := do
  let (r, h) ← immutable fuel h o
  h.incref r

/-- `Immutable::release`: the headers, what was done to objects and the size of what was deallocated. -/
def release (D : Descriptors) (fuel : ℕ) (h : ObjectHeap) (o : ObjAddr) :
    Option (ObjectHeap × List (ObjectEvent ObjAddr) × ℕ) := do
  let (root, h) ← immutable fuel h o
  let (last, h) ← h.decref root
  if last then
    let s ← free D fuel h root
    some (s.heap, s.events, s.total)
  else some (h, [], 0)

end Immutable

end VeronaRt
