import VeronaFs.Runtime.Object
import VeronaFs.Runtime.ObjectMapMarks

/-!
# The remembered set

`RememberedSet`, the set of the immutable objects and cowns that a region points to.  The set counts
as one reference to each of its members.  A collection marks what the region still points to, and
the sweep afterwards releases the rest.

The set is an object map from the members, which are shared objects or the roots of immutable
components, so that each has a reference count of its own.  Of a release only the decrement is part
of the model.
-/

namespace VeronaRt

/-! ## Code -/

/-- The set, with the reference counts of the objects. -/
structure RememberedSet (K : Type*) where
  /-- The members. -/
  hashSet : ObjectMap K Unit
  /-- The reference counts. -/
  rc : K → ℤ

/-- What the set is called for, up to a sweep. -/
inductive RememberedSet.Call (K : Type*)
  /-- Insert an object. -/
  | insert (transfer : TransferOwnership) (o : K)
  /-- Mark an object. -/
  | mark (o : K)

namespace RememberedSet

open ObjectMap

variable {K : Type*} [DecidableEq K]

/-- A new set. -/
def create (rc : K → ℤ) : RememberedSet K where
  hashSet := ObjectMap.create
  rc := rc

/-- Count a reference to an object. -/
def incref (s : RememberedSet K) (o : K) : RememberedSet K :=
  { s with rc := Function.update s.rc o (s.rc o + 1) }

/-- Count off a reference to an object. -/
def decref (s : RememberedSet K) (o : K) : RememberedSet K :=
  { s with rc := Function.update s.rc o (s.rc o - 1) }

/-- Add an object. -/
def insert (H : Hashing K) (depth : ℕ) (transfer : TransferOwnership) (s : RememberedSet K) (o : K) :
    Option (RememberedSet K) :=
  let s := if transfer = .noTransfer then s.incref o else s
  (s.hashSet.insert H depth (Entry.new o ())).map fun r =>
    let s := { s with hashSet := r.1 }
    if r.2.1 = false ∧ transfer = .yesTransfer then s.decref o else s

/-- Add the objects of another set, which hands over its references. -/
def merge (H : Hashing K) (depth : ℕ) (s that : RememberedSet K) : Option (RememberedSet K) :=
  (that.hashSet.visits.filterMap that.hashSet.keyAt).foldlM (insert H depth .yesTransfer) s

/-- Mark an object, which is added if it is not there. -/
def mark (H : Hashing K) (depth : ℕ) (s : RememberedSet K) (o : K) : Option (RememberedSet K) :=
  (s.hashSet.insert H depth (Entry.new o ())).map fun r =>
    let s := if r.2.1 then s.incref o else s
    { s with hashSet := r.1.mark r.2.2 }

/-- Release an object. -/
def releaseInternal (s : RememberedSet K) (o : K) : RememberedSet K := s.decref o

/-- One slot of the sweep. -/
def sweepAt (s : RememberedSet K) (i : ℕ) : RememberedSet K :=
  match s.hashSet.slots i with
  | none => s
  | some e =>
    if e.marked then { s with hashSet := s.hashSet.unmark i }
    else { s.releaseInternal e.key with hashSet := s.hashSet.eraseAt i }

/-- Remove the entries that are not marked, and unmark the others. -/
def sweep (s : RememberedSet K) : RememberedSet K := s.hashSet.visits.foldl sweepAt s

/-- One slot of `discard`. -/
def discardAt (release : Bool) (s : RememberedSet K) (i : ℕ) : RememberedSet K :=
  match s.hashSet.slots i with
  | none => s
  | some e =>
    let s := if release then s.releaseInternal e.key else s
    { s with hashSet := s.hashSet.eraseAt i }

/-- Remove all entries. -/
def discard (s : RememberedSet K) (release : Bool) : RememberedSet K :=
  let s := s.hashSet.visits.foldl (discardAt release) s
  { s with hashSet := s.hashSet.clear false }

/-! ## Runs -/

/-- A marking phase from a set: the objects that are marked, and the set then.  The guard says which
calls may be next. -/
inductive Marking (H : Hashing K) (guard : ObjectMap K Unit → Call K → Prop) (s : RememberedSet K) :
    Finset K → RememberedSet K → Prop
  /-- Nothing is marked yet. -/
  | start : Marking H guard s ∅ s
  /-- One more object is marked. -/
  | mark {M : Finset K} {s' s'' : RememberedSet K} {o : K} {depth : ℕ} (h : Marking H guard s M s')
    (ho : guard s'.hashSet (.mark o)) (hmark : s'.mark H depth o = some s'') :
    Marking H guard s (Insert.insert o M) s''

/-- A set that a sequence of insertions, marking phases with their sweeps, and discards leads to.  In
between the counts may change. -/
inductive Reached (H : Hashing K) (guard : ObjectMap K Unit → Call K → Prop) :
    RememberedSet K → Prop
  /-- A new set. -/
  | create (rc : K → ℤ) : Reached H guard (create rc)
  /-- Other references come and go. -/
  | count {s : RememberedSet K} (h : Reached H guard s) (rc : K → ℤ) :
    Reached H guard { s with rc := rc }
  /-- An insertion that returns. -/
  | insert {s s' : RememberedSet K} {transfer : TransferOwnership} {o : K} {depth : ℕ}
    (h : Reached H guard s) (ho : guard s.hashSet (.insert transfer o))
    (hs' : s.insert H depth transfer o = some s') : Reached H guard s'
  /-- A marking phase and the sweep. -/
  | sweep {s s' : RememberedSet K} {M : Finset K} (h : Reached H guard s)
    (hm : Marking H guard s M s') : Reached H guard s'.sweep
  /-- A discard. -/
  | discard {s : RememberedSet K} (h : Reached H guard s) (release : Bool) :
    Reached H guard (s.discard release)

/-! ## What the calls have to meet -/

/-- No entry is marked. -/
def NoneMarked (m : ObjectMap K Unit) : Prop := ∀ i e, m.Stores i e → e.marked = false

/-- No entry of the object is marked. -/
def NotMarked (m : ObjectMap K Unit) (o : K) : Prop :=
  ∀ i e, m.Stores i e → e.key = o → e.marked = false

/-- The call of `mark` loses no mark and no entry.  A resize, which forgets all marks, comes when there
are none.  An entry that makes way for the object finds its place before the object is found, and is
not a marked one that comes to an empty slot.  A second entry of the object is not marked beside the
first. -/
def MarkSafe (H : Hashing K) (m : ObjectMap K Unit) (o : K) : Prop :=
  if m.size = m.capacity then NoneMarked m
  else
    match m.stop H (Entry.new o ()) with
    | some (.found swapped e) => swapped = false ∧ (e.marked = false → NotMarked m o)
    | some (.empty carried) => carried.marked = false ∧ NotMarked m o
    | some .exhausted => NoneMarked m ∧ ¬ m.Mem o
    | none => False

/-- An insertion finds the object if it is there, and a call of `mark` loses nothing. -/
def Call.Safe (H : Hashing K) (m : ObjectMap K Unit) : Call K → Prop
  | .insert _ o => m.Mem o → m.size = m.capacity ∨ Reaches H m o
  | .mark o => MarkSafe H m o

end RememberedSet

end VeronaRt
