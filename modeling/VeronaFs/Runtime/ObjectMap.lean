import Mathlib

/-!
# The object map

`ObjectMap`, the hash map with Robin Hood insertion behind remembered sets and external references.
A slot stores a key with a value, a mark and a probe index, the distance from the slot that the hash
of the key gives; the source packs the mark and the index into the low bits of the key.

`insert` and `resize` call each other, and so do the insertions of a resize: they take the depth of
the calls as an argument and return `none` if it is too small.  They also return `none` where an
assertion fails.
-/

namespace VeronaRt

/-! ## Code -/

/-- A slot that is not empty. -/
structure ObjectMap.Entry (K V : Type*) where
  /-- The key. -/
  key : K
  /-- The value. -/
  value : V
  /-- The mark bit. -/
  marked : Bool
  /-- The probe index. -/
  probe : ℕ
deriving DecidableEq, Repr

/-- The map. -/
structure ObjectMap (K V : Type*) where
  /-- The slots. -/
  slots : ℕ → Option (ObjectMap.Entry K V)
  /-- How many slots are not empty. -/
  filledSlots : ℕ
  /-- The logarithm of the number of slots. -/
  capacityShift : ℕ
  /-- A bound of the probe indices. -/
  longestProbe : ℕ

/-- What the map is given: the hash of a key, and the largest probe index that can be stored. -/
structure ObjectMap.Hashing (K : Type*) where
  /-- The hash of a key. -/
  hash : K → ℕ
  /-- `PROBE_MASK`. -/
  probeMask : ℕ

namespace ObjectMap

variable {K V : Type*} [DecidableEq K]

/-- The number of slots. -/
def capacity (m : ObjectMap K V) : ℕ := 2 ^ m.capacityShift

/-- The number of entries. -/
def size (m : ObjectMap K V) : ℕ := m.filledSlots

/-- A new map. -/
def create : ObjectMap K V where
  slots := fun _ => none
  filledSlots := 0
  capacityShift := 3
  longestProbe := 0

/-- The slot behind another one. -/
def following (m : ObjectMap K V) (index : ℕ) : ℕ :=
  if index + 1 = m.capacity then 0 else index + 1

/-- The slot that the hash of a key gives. -/
def home (H : Hashing K) (m : ObjectMap K V) (key : K) : ℕ := H.hash key % m.capacity

/-- The key in a slot. -/
def keyAt (m : ObjectMap K V) (index : ℕ) : Option K := (m.slots index).map Entry.key

/-- The increment of an iterator. -/
def advance (m : ObjectMap K V) : ℕ → ℕ → ℕ
  | 0, index => index
  | fuel + 1, index =>
    if index + 1 < m.capacity then
      if (m.slots (index + 1)).isSome then index + 1 else advance m fuel (index + 1)
    else index + 1

/-- The first entry. -/
def begin (m : ObjectMap K V) : ℕ := if (m.slots 0).isSome then 0 else m.advance m.capacity 0

/-- The slots that an iterator visits from one on. -/
def visitsFrom (m : ObjectMap K V) : ℕ → ℕ → List ℕ
  | 0, _ => []
  | fuel + 1, index =>
    if index = m.capacity then [] else index :: visitsFrom m fuel (m.advance m.capacity index)

/-- The slots that an iteration visits. -/
def visits (m : ObjectMap K V) : List ℕ := m.visitsFrom (m.capacity + 1) m.begin

/-- Search from a slot on. -/
def findLoop (m : ObjectMap K V) (key : K) : ℕ → ℕ → Option ℕ
  | 0, _ => none
  | fuel + 1, index =>
    if m.keyAt index = some key then some index else findLoop m key fuel (m.following index)

/-- Find the slot of a key. -/
def find (H : Hashing K) (m : ObjectMap K V) (key : K) : Option ℕ :=
  m.findLoop key (m.longestProbe + 1) (m.home H key)

/-- Place an entry in a slot. -/
def placeEntry (m : ObjectMap K V) (entry : Entry K V) (index probeLen : ℕ) : ObjectMap K V :=
  { m with
    slots := Function.update m.slots index (some { entry with probe := probeLen })
    longestProbe := if m.longestProbe < probeLen then probeLen else m.longestProbe }

/-- How the search for a slot ends. -/
inductive Outcome (K V : Type*)
  /-- The key is there already. -/
  | updated (m : ObjectMap K V) (index : ℕ)
  /-- An empty slot was filled. -/
  | placed (m : ObjectMap K V) (index : ℕ)
  /-- The largest probe index was reached with an entry that has no slot. -/
  | exhausted (m : ObjectMap K V) (entry : Entry K V)

/-- The loop of `insert`: `entry` is to be placed at `index` or behind it.  An existing entry keeps
its value: the assignment is to `entry` itself. -/
def insertLoop (H : Hashing K) (key : K) :
    ℕ → ObjectMap K V → Entry K V → ℕ → ℕ → Option ℕ → Option (Outcome K V)
  | 0, _, _, _, _, _ => none
  | fuel + 1, m, entry, index, probeLen, iterIndex =>
    if H.probeMask < probeLen then some (.exhausted m entry)
    else
      match m.slots index with
      | none =>
        if entry.marked then none
        else
          let m := m.placeEntry entry index probeLen
          some (.placed { m with filledSlots := m.filledSlots + 1 } (iterIndex.getD index))
      | some e =>
        if e.key = key then some (.updated m (iterIndex.getD index))
        else if e.probe < probeLen then
          insertLoop H key fuel (m.placeEntry entry index probeLen) e (m.following index)
            (e.probe + 1) (some (iterIndex.getD index))
        else insertLoop H key fuel m entry (m.following index) (probeLen + 1) iterIndex

/-- An entry that is not in the map. -/
def Entry.new (key : K) (value : V) : Entry K V where
  key := key
  value := value
  marked := false
  probe := 0

/-- Double the number of slots and insert all entries again. -/
def resize (insert : ObjectMap K V → Entry K V → Option (ObjectMap K V × Bool × ℕ))
    (m : ObjectMap K V) : Option (ObjectMap K V) :=
  let fresh : ObjectMap K V :=
    { slots := fun _ => none, filledSlots := 0, capacityShift := m.capacityShift + 1
      longestProbe := 0 }
  (m.visits.filterMap m.slots).foldlM
    (fun m e => (insert m (Entry.new e.key e.value)).map Prod.fst) fresh

/-- Insert an entry: the map, whether the key is new, and the slot of the key. -/
def insert (H : Hashing K) : ℕ → ObjectMap K V → Entry K V → Option (ObjectMap K V × Bool × ℕ)
  | 0, _, _ => none
  | depth + 1, m, entry => do
    let m ← if m.size = m.capacity then m.resize (insert H depth) else some m
    match ← insertLoop H entry.key m.capacity m entry (m.home H entry.key) 0 none with
    | .updated m index => some (m, false, index)
    | .placed m index => some (m, true, index)
    | .exhausted m swapped =>
      let m ← m.resize (insert H depth)
      let (m, _, index) ← insert H depth m swapped
      if m.keyAt index = some entry.key then some (m, true, index)
      else some (m, true, (m.find H entry.key).getD m.capacity)

/-- Remove the entry in a slot. -/
def eraseAt (m : ObjectMap K V) (index : ℕ) : ObjectMap K V :=
  { m with slots := Function.update m.slots index none, filledSlots := m.filledSlots - 1 }

/-- Set or clear the mark bit of the entry in a slot. -/
def setMark (m : ObjectMap K V) (index : ℕ) (marked : Bool) : ObjectMap K V :=
  { m with
    slots := Function.update m.slots index
      ((m.slots index).map fun e => { e with marked := marked }) }

/-- Mark the entry in a slot. -/
def mark (m : ObjectMap K V) (index : ℕ) : ObjectMap K V := m.setMark index true

/-- Unmark the entry in a slot. -/
def unmark (m : ObjectMap K V) (index : ℕ) : ObjectMap K V := m.setMark index false

/-- Remove the entry of a key. -/
def erase (H : Hashing K) (m : ObjectMap K V) (key : K) : ObjectMap K V × Bool :=
  match m.find H key with
  | none => (m, false)
  | some index => (m.eraseAt index, true)

/-- Remove all entries. -/
def clear (m : ObjectMap K V) (skipDeallocate : Bool) : ObjectMap K V :=
  let m := { m.visits.foldl eraseAt m with longestProbe := 0 }
  if skipDeallocate = false ∧ 8 < m.capacity then
    { m with slots := fun _ => none, capacityShift := 3 }
  else m

/-! ## The invariant -/

/-- The slots that are not empty. -/
def occupied (m : ObjectMap K V) : Finset ℕ :=
  (Finset.range m.capacity).filter fun i => (m.slots i).isSome

/-- The slot stores an entry. -/
def Stores (m : ObjectMap K V) (i : ℕ) (e : Entry K V) : Prop := i < m.capacity ∧ m.slots i = some e

/-- The key is in the map with the value. -/
def Has (m : ObjectMap K V) (key : K) (value : V) : Prop :=
  ∃ i e, m.Stores i e ∧ e.key = key ∧ e.value = value

/-- The key is in the map. -/
def Mem (m : ObjectMap K V) (key : K) : Prop := ∃ i e, m.Stores i e ∧ e.key = key

/-- What every state of a map has: no key twice, each entry at its distance from the slot of its
hash, and the bounds. -/
structure WellFormed (H : Hashing K) (m : ObjectMap K V) : Prop where
  /-- No key is stored twice. -/
  distinct : ∀ i j e e', m.Stores i e → m.Stores j e' → e.key = e'.key → i = j
  /-- The probe index is the distance from the slot of the hash. -/
  home_add : ∀ i e, m.Stores i e → (H.hash e.key + e.probe) % m.capacity = i
  /-- No probe index is larger than the bound. -/
  probe_le : ∀ i e, m.Stores i e → e.probe ≤ m.longestProbe
  /-- Every probe index can be stored. -/
  probe_le_mask : ∀ i e, m.Stores i e → e.probe ≤ H.probeMask
  /-- No entry is marked. -/
  unmarked : ∀ i e, m.Stores i e → e.marked = false
  /-- The count. -/
  filled_eq : m.filledSlots = m.occupied.card

/-- What a map has while entries are marked: each entry is at its distance from the slot of its hash,
within the bounds.  A key may be stored twice. -/
structure Placed (H : Hashing K) (m : ObjectMap K V) : Prop where
  /-- The probe index is the distance from the slot of the hash. -/
  home_add : ∀ i e, m.Stores i e → (H.hash e.key + e.probe) % m.capacity = i
  /-- No probe index is larger than the bound. -/
  probe_le : ∀ i e, m.Stores i e → e.probe ≤ m.longestProbe
  /-- Every probe index can be stored. -/
  probe_le_mask : ∀ i e, m.Stores i e → e.probe ≤ H.probeMask
  /-- The count. -/
  filled_eq : m.filledSlots = m.occupied.card

/-- An insertion of the key reaches its slot: every slot before it, from the one of the hash on, holds
an entry that does not have to make way. -/
def Reaches (H : Hashing K) (m : ObjectMap K V) (key : K) : Prop :=
  ∀ i e, m.Stores i e → e.key = key → ∀ d < e.probe,
    ∃ e', m.slots ((H.hash key + d) % m.capacity) = some e' ∧ d ≤ e'.probe

end ObjectMap

end VeronaRt
