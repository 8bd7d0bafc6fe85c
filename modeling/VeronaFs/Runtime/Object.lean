import Mathlib.Logic.Function.Basic

/-!
# Object headers

The two words in front of an object.  The low bits of the first say what the other bits are: a link of
a ring or of a work list, a reference count, or the metadata of a region.  The low bits of the second,
behind the descriptor, are the colour in a region with reference counts.
-/

namespace VeronaRt

/-- The class of an object, the low bits of its first word. -/
inductive RegionMD
  /-- A mutable object. -/
  | unmarked
  /-- A mutable object that a trace has visited. -/
  | marked
  /-- An immutable object that points to another one of its component. -/
  | sccPtr
  /-- An immutable object with the count of its component. -/
  | rc
  /-- The entry point of a region. -/
  | iso
  /-- An object whose component is being built. -/
  | pending
  /-- An immutable object whose count one thread changes. -/
  | nonatomicRc
  /-- A shared object. -/
  | shared
  /-- The entry point of an open region. -/
  | openIso
deriving DecidableEq, Repr

/-- The classes of what is not an object of the region that refers to it: the entry points of other
regions, immutable objects and shared ones. -/
def RegionMD.outer : RegionMD → Bool
  | .iso => true
  | .sccPtr => true
  | .rc => true
  | .shared => true
  | _ => false

/-- The colour of an object, the low bits of its second word. -/
inductive RcColour
  /-- The object is live, as far as is known. -/
  | green
  /-- The references of the object are not counted. -/
  | red
  /-- The object may be in a dead cycle. -/
  | black
deriving DecidableEq, Repr

/-- Whether a caller gives away the references that it passes on. -/
inductive TransferOwnership
  /-- The caller keeps its references. -/
  | noTransfer
  /-- The caller gives one reference for each object. -/
  | yesTransfer
deriving DecidableEq, Repr

/-- The kinds of iteration over a region. -/
inductive IteratorType
  /-- Over the trivial objects. -/
  | trivial
  /-- Over the other objects. -/
  | nonTrivial
  /-- Over all objects. -/
  | allObjects
deriving DecidableEq, Repr

/-- What a collection does to an object. -/
inductive ObjectEvent (O : Type*)
  /-- Its finaliser runs. -/
  | finalise (o : O)
  /-- Its destructor runs. -/
  | destructor (o : O)
  /-- It is deallocated. -/
  | dealloc (o : O)
  /-- The count of an immutable object is decremented. -/
  | decref (o : O)
  /-- A shared object is released. -/
  | release (o : O)
  /-- The region of an entry point is released. -/
  | releaseInternal (o : O)
deriving DecidableEq, Repr

end VeronaRt
