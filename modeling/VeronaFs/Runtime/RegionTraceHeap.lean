import VeronaFs.Runtime.RegionTraceSwap

/-!
# Runs of trace regions

A heap with trace regions and the operations `create`, `alloc`, `merge` and `swap_root` in any order.
`Contents` is what a caller sees of the regions: the entry point of each and the set of its objects.
Every sequence of operations that the callers may ask for returns, and it leads to regions with exactly
these contents in their rings (`rings_hold_contents`).
-/

set_option linter.unusedSectionVars false

namespace VeronaRt.RegionTrace

open Foundation

variable {O : Type*} [DecidableEq O]

/-! ## Contents -/

/-- The entry point and the objects of each region, by the metadata object. -/
abbrev Contents (O : Type*) := O → Option (O × Finset O)

/-- The operations. -/
inductive Op (O : Type*)
  /-- Create a region with the metadata object `self` and the entry point `o`. -/
  | create (self o : O) (isTrivial : Bool) (size : ℕ)
  /-- Allocate the object `o` in the region of an entry point. -/
  | alloc (entry o : O) (isTrivial : Bool) (size : ℕ)
  /-- Merge the region of `o` into that of `into`. -/
  | merge (into o : O)
  /-- Make `next` the entry point of the region of `prev`. -/
  | swapRoot (prev next : O)

/-- The address is not in use by a region. -/
def Contents.Fresh (A : Contents O) (o : O) : Prop :=
  ∀ self entry objs, A self = some (entry, objs) → o ≠ self ∧ o ∉ objs

/-- What an operation does to the contents.  The allocator returns addresses that are not in use, two
different regions are merged, and a new root is another object of the region. -/
inductive Contents.Step (A : Contents O) : Op O → Contents O → Prop
  /-- A region with its entry point alone. -/
  | create {self o : O} (hself : A.Fresh self) (ho : A.Fresh o) (hne : self ≠ o) (isTrivial : Bool)
      (size : ℕ) : Step A (.create self o isTrivial size) (Function.update A self (some (o, {o})))
  /-- One more object. -/
  | alloc {self entry o : O} {objs : Finset O} (hself : A self = some (entry, objs)) (ho : A.Fresh o)
      (isTrivial : Bool) (size : ℕ) : Step A (.alloc entry o isTrivial size)
        (Function.update A self (some (entry, insert o objs)))
  /-- All objects of another region. -/
  | merge {self other into o : O} {objs objs' : Finset O} (hself : A self = some (into, objs))
      (hother : A other = some (o, objs')) (hne : self ≠ other) : Step A (.merge into o)
        (Function.update (Function.update A self (some (into, objs ∪ objs'))) other none)
  /-- Another entry point. -/
  | swapRoot {self prev next : O} {objs : Finset O} (hself : A self = some (prev, objs))
      (hnext : next ∈ objs) (hne : prev ≠ next) : Step A (.swapRoot prev next)
        (Function.update A self (some (next, objs)))

/-- A sequence of operations, from no region. -/
inductive Contents.Run : List (Op O) → Contents O → Prop
  /-- At first there are no regions. -/
  | nil : Run [] fun _ => none
  /-- One more operation. -/
  | snoc {ops : List (Op O)} {op : Op O} {A A' : Contents O} (h : Run ops A) (hop : A.Step op A') :
      Run (ops ++ [op]) A'

/-! ## Code -/

/-- What the metadata object of a region stores. -/
structure Metadata (O : Type*) where
  /-- The objects of the region, with the metadata object. -/
  allocated : Finset O
  /-- The first object of the secondary ring. -/
  nextNotRoot : Option O
  /-- The last object of the secondary ring. -/
  lastNotRoot : Option O
  /-- The memory in use. -/
  currentMemoryUsed : ℕ
  /-- The memory in use after the last collection. -/
  previousMemoryUsed : ℕ

/-- The headers of all objects, with the regions. -/
structure Heap (O : Type*) where
  /-- The class of an object. -/
  cls : O → RegionMD
  /-- The link in the header of an object. -/
  next : O → Option O
  /-- The object has neither a finaliser nor a destructor. -/
  isTrivial : O → Bool
  /-- The size of an object. -/
  size : O → ℕ
  /-- The regions, by their metadata objects. -/
  regions : O → Option (Metadata O)

namespace Heap

/-- What the descriptors say about the objects, without references. -/
def bare (w : Heap O) : Descriptors O where
  fields _ := []
  finaliser _ := []
  isTrivial := w.isTrivial
  size := w.size
  immutable o := o

/-- A region with the heap. -/
def view (w : Heap O) (self : O) (m : Metadata O) : RegionTrace O where
  self := self
  allocated := m.allocated
  cls := w.cls
  next := w.next
  nextNotRoot := m.nextNotRoot
  lastNotRoot := m.lastNotRoot
  currentMemoryUsed := m.currentMemoryUsed
  previousMemoryUsed := m.previousMemoryUsed
  additionalEntryPoints := []
  externalReferences := ∅
  remembered := []
  events := []

/-- The metadata of a region with the heap. -/
def metadata (r : RegionTrace O) : Metadata O where
  allocated := r.allocated
  nextNotRoot := r.nextNotRoot
  lastNotRoot := r.lastNotRoot
  currentMemoryUsed := r.currentMemoryUsed
  previousMemoryUsed := r.previousMemoryUsed

/-- Write a region back to the heap. -/
def write (w : Heap O) (r : RegionTrace O) : Heap O :=
  { w with
    cls := r.cls
    next := r.next
    regions := Function.update w.regions r.self (some (metadata r)) }

/-- A new object. -/
def register (w : Heap O) (o : O) (isTrivial : Bool) (size : ℕ) : Heap O :=
  { w with
    isTrivial := Function.update w.isTrivial o isTrivial
    size := Function.update w.size o size }

/-- The region of an entry point, with its metadata object. -/
def get (w : Heap O) (entry : O) : Option (O × Metadata O) :=
  if w.cls entry = .iso then
    (w.next entry).bind fun self => (w.regions self).map fun m => (self, m)
  else none

/-- Create a region. -/
def create (w : Heap O) (self o : O) (isTrivial : Bool) (size : ℕ) : Heap O :=
  let w := (w.register self true 0).register o isTrivial size
  w.write (RegionTrace.create w.bare w.cls w.next self o)

/-- Allocate an object. -/
def alloc (w : Heap O) (entry o : O) (isTrivial : Bool) (size : ℕ) : Option (Heap O) :=
  (w.get entry).bind fun (self, m) =>
    let w := w.register o isTrivial size
    (RegionTrace.alloc w.bare (w.view self m) o).map fun r => w.write r

/-- Deallocate the metadata object of a region. -/
def dealloc (w : Heap O) (self : O) : Heap O :=
  { w with regions := Function.update w.regions self none }

/-- Merge two regions and deallocate the metadata object of the other one. -/
def merge (sizeclass : ℕ → ℕ) (w : Heap O) (into o : O) : Option (Heap O) :=
  (w.get into).bind fun (self, m) => (w.get o).bind fun (other, m') =>
    if self = other then none
    else (mergeInternal w.bare sizeclass (w.view self m) o (w.view other m')).map fun r =>
      (w.write r).dealloc other

/-- Swap the entry point of a region. -/
def swapRoot (w : Heap O) (prev next : O) : Option (Heap O) :=
  if prev = next then none
  else (w.get prev).bind fun (self, m) =>
    if w.cls next ≠ .unmarked ∨ self = next then none
    else (swapRootInternal w.bare m.allocated.card (w.view self m) prev next).map fun r => w.write r

end Heap

/-- The heap after an operation. -/
def Op.apply (sizeclass : ℕ → ℕ) (w : Heap O) : Op O → Option (Heap O)
  | .create self o isTrivial size => some (w.create self o isTrivial size)
  | .alloc entry o isTrivial size => w.alloc entry o isTrivial size
  | .merge into o => w.merge sizeclass into o
  | .swapRoot prev next => w.swapRoot prev next

/-! ## What holds of a region -/

/-- The region with the metadata object `self` has its objects in two rings. -/
structure Heap.HasRings (w : Heap O) (self : O) (m : Metadata O) (root : O) (objs : Finset O)
    (prim sec : List O) : Prop where
  /-- The primary ring is a cycle through the metadata object, and the root is its last object. -/
  primary : Path w.next (prim ++ [root]) (w.next self) (some self)
  /-- The secondary ring is a cycle through the metadata object. -/
  secondary : Path w.next sec m.nextNotRoot (some self)
  /-- The rings are disjoint, and an object is in them once. -/
  nodup : (self :: (prim ++ [root] ++ sec)).Nodup
  /-- They have exactly the objects of the region. -/
  mem_iff : ∀ x, x ∈ objs ↔ x ∈ prim ++ [root] ++ sec
  /-- The root is the only entry point. -/
  cls_iso_iff : ∀ x ∈ self :: (prim ++ [root] ++ sec), w.cls x = .iso ↔ x = root
  /-- The objects of the primary ring are as trivial as the root. -/
  isTrivial_primary : ∀ x ∈ prim, w.isTrivial x = w.isTrivial root
  /-- The others are in the secondary ring. -/
  isTrivial_secondary : ∀ x ∈ sec, w.isTrivial x = !w.isTrivial root
  /-- The last object of the secondary ring, or the metadata object if it is empty. -/
  last : m.lastNotRoot = some (sec.getLast?.getD self)
  /-- The iteration over all objects visits each of them once. -/
  visits_all : ∀ fuel, objs.card ≤ fuel →
    objects w.bare .allObjects fuel (w.view self m) = some (prim ++ [root] ++ sec)
  /-- The iterations over the trivial and over the other objects visit one ring each. -/
  visits_kind : ∀ fuel, objs.card ≤ fuel →
    objects w.bare .trivial fuel (w.view self m) =
        some (if w.isTrivial root = true then prim ++ [root] else sec) ∧
      objects w.bare .nonTrivial fuel (w.view self m) =
        some (if w.isTrivial root = false then prim ++ [root] else sec)

namespace Heap

/-- The region has the entry point and the objects, as the other modules state it. -/
def HasRegion (w : Heap O) (self root : O) (objs : Finset O) : Prop :=
  ∃ m prim sec, w.regions self = some m ∧ Rings w.bare root prim sec (w.view self m) ∧
    (∀ x, x ∈ m.allocated ↔ x = self ∨ x ∈ objs) ∧ ∀ x, x ∈ objs ↔ x ∈ root :: (prim ++ sec)

variable {w w' : Heap O} {self root o : O} {objs : Finset O} {m : Metadata O}

/-- The number of objects that are linked. -/
theorem card_eq {prim sec : List O} (h : Rings w.bare root prim sec (w.view self m))
    (hobjs : ∀ x, x ∈ objs ↔ x ∈ root :: (prim ++ sec)) :
    objs.card = (prim ++ [root] ++ sec).length := by
  have heq : objs = (root :: (prim ++ sec)).toFinset := by
    ext x
    rw [hobjs, List.mem_toFinset]
  rw [heq, List.toFinset_card_of_nodup (List.nodup_cons.mp h.nodup).2]
  simp only [List.length_cons, List.length_append, List.length_nil]
  omega

/-- A region has its objects in two rings. -/
theorem HasRegion.hasRings (h : w.HasRegion self root objs) :
    ∃ m prim sec, w.regions self = some m ∧ w.HasRings self m root objs prim sec := by
  obtain ⟨m, prim, sec, hm, hrings, -, hobjs⟩ := h
  have hperm : (root :: (prim ++ sec)).Perm (prim ++ [root] ++ sec) := by
    rw [List.append_assoc]
    exact List.perm_middle.symm
  have hmem {x : O} : x ∈ prim ++ [root] ++ sec ↔ x ∈ root :: (prim ++ sec) := hperm.mem_iff.symm
  have hself : self ∉ root :: (prim ++ sec) := (List.nodup_cons.mp hrings.nodup).1
  have hroot : root ∉ prim ++ sec := (List.nodup_cons.mp (List.nodup_cons.mp hrings.nodup).2).1
  have hcard := card_eq hrings hobjs
  refine ⟨m, prim, sec, hm, hrings.primary_iso, hrings.secondary,
    (hperm.cons self).nodup_iff.mp hrings.nodup, fun x => (hobjs x).trans hmem.symm,
    fun x hx => ?_, hrings.isTrivial_primary, hrings.isTrivial_secondary, hrings.last,
    fun fuel hfuel => objects_spec hrings .allObjects (hcard ▸ hfuel),
    fun fuel hfuel => ⟨objects_spec hrings .trivial (hcard ▸ hfuel),
      objects_spec hrings .nonTrivial (hcard ▸ hfuel)⟩⟩
  rcases List.mem_cons.mp hx with rfl | hx
  · have hcls : w.cls x = .unmarked := hrings.cls_self
    rw [hcls]
    exact iff_of_false (by decide) fun heq => hself (heq ▸ List.mem_cons_self)
  · rcases List.mem_cons.mp (hmem.mp hx) with rfl | hx
    · exact iff_of_true hrings.cls_iso rfl
    · have hcls : w.cls x = .unmarked := hrings.cls_eq x hx
      rw [hcls]
      exact iff_of_false (by decide) fun heq => hroot (heq ▸ hx)

/-- A region stays when its metadata and the headers of its objects do. -/
theorem HasRegion.frame (h : w.HasRegion self root objs) (hregion : w'.regions self = w.regions self)
    (hsame : ∀ x, x = self ∨ x ∈ objs → w'.cls x = w.cls x ∧ w'.next x = w.next x ∧
      w'.isTrivial x = w.isTrivial x) : w'.HasRegion self root objs := by
  obtain ⟨m, prim, sec, hm, hrings, halloc, hobjs⟩ := h
  refine ⟨m, prim, sec, hregion.trans hm, hrings.frame rfl (fun x hx => ?_) rfl rfl rfl
    (fun x hx => ?_) nofun, halloc, hobjs⟩
  · rw [List.mem_cons, ← hobjs] at hx
    obtain ⟨hcls, hnext, -⟩ := hsame x hx
    exact ⟨(halloc x).mpr hx, hcls, hnext⟩
  · exact (hsame x (.inr ((hobjs x).mpr hx))).2.2

/-- The region of an entry point. -/
theorem HasRegion.get_eq (h : w.HasRegion self root objs) :
    ∃ m prim sec, w.get root = some (self, m) ∧ w.regions self = some m ∧
      Rings w.bare root prim sec (w.view self m) ∧
      (∀ x, x ∈ m.allocated ↔ x = self ∨ x ∈ objs) ∧ ∀ x, x ∈ objs ↔ x ∈ root :: (prim ++ sec) := by
  obtain ⟨m, prim, sec, hm, hrings, halloc, hobjs⟩ := h
  refine ⟨m, prim, sec, ?_, hm, hrings, halloc, hobjs⟩
  have hcls : w.cls root = .iso := hrings.cls_iso
  have hnext : w.next root = some self := hrings.next_iso
  rw [get, if_pos hcls, hnext, Option.bind_some, hm, Option.map_some]

/-- A region that was written back to the heap. -/
theorem hasRegion_write {r : RegionTrace O} {prim sec : List O} (hrings : Rings w.bare root prim sec r)
    (halloc : ∀ x, x ∈ r.allocated ↔ x = r.self ∨ x ∈ objs)
    (hobjs : ∀ x, x ∈ objs ↔ x ∈ root :: (prim ++ sec)) :
    (w.write r).HasRegion r.self root objs :=
  ⟨metadata r, prim, sec, Function.update_self ..,
    ⟨hrings.nodup, hrings.allocated, hrings.cls_self, hrings.cls_iso, hrings.cls_eq, hrings.primary,
      hrings.next_iso, hrings.secondary, hrings.last, hrings.isTrivial_primary,
      hrings.isTrivial_secondary, nofun, nofun⟩, halloc, hobjs⟩

/-! ## The operations -/

/-- The heap has exactly the regions of the contents. -/
structure Refines (w : Heap O) (A : Contents O) : Prop where
  /-- The regions of the contents. -/
  region : ∀ self root objs, A self = some (root, objs) → w.HasRegion self root objs
  /-- There are no others. -/
  no_region : ∀ self, A self = none → w.regions self = none
  /-- Regions have different objects. -/
  disjoint : ∀ {self self' root root' objs objs'} {x : O}, A self = some (root, objs) →
    A self' = some (root', objs') → (x = self ∨ x ∈ objs) → (x = self' ∨ x ∈ objs') → self = self'

variable {A A' : Contents O}

/-- One region is written, and the others stay. -/
theorem Refines.update (h : w.Refines A) (hregion : w'.HasRegion self root objs)
    (hregions : ∀ s, s ≠ self → w'.regions s = w.regions s)
    (hsame : ∀ x, ¬ (x = self ∨ x ∈ objs) → w'.cls x = w.cls x ∧ w'.next x = w.next x ∧
      w'.isTrivial x = w.isTrivial x)
    (hout : ∀ {s root' objs'} {x : O}, s ≠ self → A s = some (root', objs') → x = s ∨ x ∈ objs' →
      ¬ (x = self ∨ x ∈ objs)) :
    w'.Refines (Function.update A self (some (root, objs))) := by
  refine ⟨fun s root' objs' hs => ?_, fun s hs => ?_, fun {s s'} root₁ root₂ objs₁ objs₂ x hs hs' hx hx' => ?_⟩
  · by_cases heq : s = self
    · rw [heq, Function.update_self, Option.some.injEq, Prod.mk.injEq] at hs
      obtain ⟨rfl, rfl⟩ := hs
      rw [heq]
      exact hregion
    · rw [Function.update_of_ne heq] at hs
      exact (h.region s root' objs' hs).frame (hregions s heq) fun x hx => hsame x (hout heq hs hx)
  · by_cases heq : s = self
    · rw [heq, Function.update_self] at hs
      cases hs
    · rw [Function.update_of_ne heq] at hs
      rw [hregions s heq, h.no_region s hs]
  · by_cases heq : s = self
    · by_cases heq' : s' = self
      · exact heq.trans heq'.symm
      · rw [Function.update_of_ne heq'] at hs'
        rw [heq, Function.update_self, Option.some.injEq, Prod.mk.injEq] at hs
        obtain ⟨rfl, rfl⟩ := hs
        exact absurd (heq ▸ hx) (hout heq' hs' hx')
    · rw [Function.update_of_ne heq] at hs
      by_cases heq' : s' = self
      · rw [heq', Function.update_self, Option.some.injEq, Prod.mk.injEq] at hs'
        obtain ⟨rfl, rfl⟩ := hs'
        exact absurd (heq' ▸ hx') (hout heq hs hx)
      · rw [Function.update_of_ne heq'] at hs'
        exact h.disjoint hs hs' hx hx'

/-- A region is removed. -/
theorem Refines.erase (h : w.Refines A) (other : O) :
    (w.dealloc other).Refines (Function.update A other none) := by
  have hsome {s : O} {c : O × Finset O} (hs : Function.update A other none s = some c) :
      s ≠ other ∧ A s = some c := by
    by_cases heq : s = other
    · rw [heq, Function.update_self] at hs
      cases hs
    · rw [Function.update_of_ne heq] at hs
      exact ⟨heq, hs⟩
  refine ⟨fun s root objs hs => ?_, fun s hs => ?_, fun hs hs' hx hx' =>
    h.disjoint (hsome hs).2 (hsome hs').2 hx hx'⟩
  · obtain ⟨hne, hs⟩ := hsome hs
    exact (h.region s root objs hs).frame (Function.update_of_ne hne ..) fun _ _ => ⟨rfl, rfl, rfl⟩
  · by_cases heq : s = other
    · rw [heq]
      exact Function.update_self ..
    · rw [Function.update_of_ne heq] at hs
      exact (Function.update_of_ne heq ..).trans (h.no_region s hs)

/-- A region is created. -/
theorem Refines.create (h : w.Refines A) (hself : A.Fresh self) (ho : A.Fresh o) (hne : self ≠ o)
    (isTrivial : Bool) (size : ℕ) :
    (w.create self o isTrivial size).Refines (Function.update A self (some (o, {o}))) := by
  have hout {x : O} (hx : ¬ (x = self ∨ x ∈ ({o} : Finset O))) : x ≠ self ∧ x ≠ o := by
    rwa [Finset.mem_singleton, not_or] at hx
  refine h.update ?_ (fun s hs => Function.update_of_ne hs ..) (fun x hx => ?_)
    fun {s} root' objs' x hs hA hx hx' => ?_
  · refine hasRegion_write (create_rings (fun _ => rfl) _ _ hne) (fun x => ?_) fun x => ?_
    · simp [RegionTrace.create]
    · simp
  · obtain ⟨hx_self, hx_o⟩ := hout hx
    refine ⟨?_, ?_, ?_⟩
    · exact (Function.update_of_ne hx_o ..).trans (Function.update_of_ne hx_self ..)
    · exact (Function.update_of_ne hx_o ..).trans (Function.update_of_ne hx_self ..)
    · exact (Function.update_of_ne hx_o ..).trans (Function.update_of_ne hx_self ..)
  · obtain ⟨hself_ne, hself_out⟩ := hself s root' objs' hA
    obtain ⟨ho_ne, ho_out⟩ := ho s root' objs' hA
    rw [Finset.mem_singleton] at hx'
    rcases hx with rfl | hx <;> rcases hx' with rfl | rfl
    · exact hs rfl
    · exact ho_ne rfl
    · exact hself_out hx
    · exact ho_out hx

/-- An object is allocated. -/
theorem Refines.alloc (h : w.Refines A) {entry : O} (hself : A self = some (entry, objs))
    (ho : A.Fresh o) (isTrivial : Bool) (size : ℕ) : ∃ w', w.alloc entry o isTrivial size = some w' ∧
      w'.Refines (Function.update A self (some (entry, insert o objs))) := by
  obtain ⟨m, prim, sec, hget, hm, hrings, halloc, hobjs⟩ := (h.region self entry objs hself).get_eq
  obtain ⟨ho_self, ho_objs⟩ := ho self entry objs hself
  let w₁ := w.register o isTrivial size
  have htrivial : ∀ x, x ≠ o → w₁.isTrivial x = w.isTrivial x := fun x hx => Function.update_of_ne hx ..
  have hrings₁ : Rings w₁.bare entry prim sec (w₁.view self m) := by
    refine hrings.frame rfl (fun x hx => ⟨hrings.allocated x hx, rfl, rfl⟩) rfl rfl rfl
      (fun x hx => ?_) nofun
    exact htrivial x fun heq => ho_objs (heq ▸ (hobjs x).mpr hx)
  have hout : o ∉ self :: entry :: (prim ++ sec) := by
    rw [List.mem_cons, ← hobjs, not_or]
    exact ⟨ho_self, ho_objs⟩
  obtain ⟨r', prim', sec', hr', hrings', hperm, hgrown⟩ := alloc_spec (fun _ => rfl) hrings₁ hout
  have hself' : r'.self = self := hgrown.self_eq
  refine ⟨w₁.write r', ?_, h.update ?_ (fun s hs => ?_) (fun x hx => ?_) fun {s} root' objs' x hs hA hx hx' => ?_⟩
  · rw [Heap.alloc, hget, Option.bind_some]
    exact congrArg (Option.map _) hr'
  · rw [← hself']
    refine hasRegion_write hrings' (fun x => ?_) fun x => ?_
    · rw [hgrown.allocated_eq, Finset.mem_union, hself', Finset.mem_insert, List.mem_toFinset,
        List.mem_singleton]
      have hx := halloc x
      tauto
    · rw [Finset.mem_insert, hobjs, List.mem_cons (l := prim' ++ sec'), hperm.mem_iff, List.mem_cons,
        List.mem_cons]
      tauto
  · rw [← hself'] at hs
    exact Function.update_of_ne hs ..
  · rw [Finset.mem_insert, not_or, not_or] at hx
    obtain ⟨hx_self, hx_o, -⟩ := hx
    have hx_new : x ∉ [o] := by simpa using hx_o
    exact ⟨hgrown.cls_eq x hx_new, hgrown.next_eq x hx_new hx_self, htrivial x hx_o⟩
  · obtain ⟨ho_ne, ho_out⟩ := ho s root' objs' hA
    rw [Finset.mem_insert] at hx'
    rcases hx' with hx' | rfl | hx'
    · exact hs (h.disjoint hA hself hx (.inl hx'))
    · exact hx.elim ho_ne ho_out
    · exact hs (h.disjoint hA hself hx (.inr hx'))

/-- Two regions are merged. -/
theorem Refines.merge (h : w.Refines A) {other into : O} {objs' : Finset O}
    (hself : A self = some (into, objs)) (hother : A other = some (o, objs')) (hne : self ≠ other)
    (sizeclass : ℕ → ℕ) : ∃ w', w.merge sizeclass into o = some w' ∧ w'.Refines
      (Function.update (Function.update A self (some (into, objs ∪ objs'))) other none) := by
  obtain ⟨m, prim, sec, hget, hm, hrings, halloc, hobjs⟩ := (h.region self into objs hself).get_eq
  obtain ⟨m', prim₂, sec₂, hget', hm', hrings₂, halloc₂, hobjs₂⟩ :=
    (h.region other o objs' hother).get_eq
  have hdisj : (self :: into :: (prim ++ sec)).Disjoint (other :: o :: (prim₂ ++ sec₂)) := by
    intro x hx hx'
    rw [List.mem_cons, ← hobjs] at hx
    rw [List.mem_cons, ← hobjs₂] at hx'
    exact hne (h.disjoint hself hother hx hx')
  obtain ⟨r', prim', sec', hr', hrings', hperm, hgrown⟩ := mergeInternal_spec (fun _ => rfl) hrings
    hrings₂ rfl rfl hdisj (fun x => (halloc₂ x).trans (by rw [List.mem_cons, ← hobjs₂]; rfl)) sizeclass
  have hself' : r'.self = self := hgrown.self_eq
  refine ⟨(w.write r').dealloc other, ?_, ?_⟩
  · simp only [Heap.merge, hget, hget', Option.bind_some, if_neg hne, hr', Option.map_some]
  · rw [Function.update_comm hne]
    refine (h.erase other).update ?_ (fun s hs => ?_) (fun x hx => ?_)
      fun {s} root' objs₃ x hs hA hx hx' => ?_
    · have hwrite : (w.write r').HasRegion self into (objs ∪ objs') := by
        rw [← hself']
        refine hasRegion_write hrings' (fun x => ?_) fun x => ?_
        · rw [hgrown.allocated_eq, Finset.mem_union, hself', Finset.mem_union, List.mem_toFinset,
            ← hobjs₂]
          have hx := halloc x
          tauto
        · rw [Finset.mem_union, hobjs, hobjs₂, List.mem_cons (l := prim' ++ sec'), hperm.mem_iff,
            List.mem_append (s := o :: (prim₂ ++ sec₂)), List.mem_cons (l := prim ++ sec)]
          tauto
      exact hwrite.frame (Function.update_of_ne hne ..) fun _ _ => ⟨rfl, rfl, rfl⟩
    · rw [← hself'] at hs
      change Function.update (Function.update w.regions r'.self _) other none s =
        Function.update w.regions other none s
      rw [Function.update_comm (by rwa [hself']), Function.update_of_ne hs]
    · rw [Finset.mem_union, not_or, not_or] at hx
      obtain ⟨hx_self, -, hx_objs⟩ := hx
      rw [hobjs₂] at hx_objs
      exact ⟨hgrown.cls_eq x hx_objs, hgrown.next_eq x hx_objs hx_self, rfl⟩
    · by_cases heq : s = other
      · rw [heq, Function.update_self] at hA
        cases hA
      · rw [Function.update_of_ne heq] at hA
        rw [Finset.mem_union] at hx'
        rcases hx' with hx' | hx' | hx'
        · exact hs (h.disjoint hA hself hx (.inl hx'))
        · exact hs (h.disjoint hA hself hx (.inr hx'))
        · exact heq (h.disjoint hA hother hx (.inr hx'))

/-- The entry point of a region is swapped. -/
theorem Refines.swapRoot (h : w.Refines A) {prev next : O} (hself : A self = some (prev, objs))
    (hnext : next ∈ objs) (hne : prev ≠ next) : ∃ w', w.swapRoot prev next = some w' ∧
      w'.Refines (Function.update A self (some (next, objs))) := by
  obtain ⟨m, prim, sec, hget, hm, hrings, halloc, hobjs⟩ := (h.region self prev objs hself).get_eq
  have hnext_mem : next ∈ prim ++ sec :=
    (List.mem_cons.mp ((hobjs next).mp hnext)).resolve_left (Ne.symm hne)
  have hself_out : self ∉ prev :: (prim ++ sec) := (List.nodup_cons.mp hrings.nodup).1
  have hnext_self : self ≠ next := fun heq => hself_out (heq ▸ (hobjs next).mp hnext)
  have hcls : w.cls next = .unmarked := hrings.cls_eq next hnext_mem
  have hfuel : (prim ++ [prev] ++ sec).length ≤ m.allocated.card := by
    rw [← card_eq hrings hobjs]
    exact Finset.card_le_card fun x hx => (halloc x).mpr (.inr hx)
  obtain ⟨r', prim', sec', hr', hrings', hperm, hs⟩ :=
    swapRootInternal_spec (fun _ => rfl) hrings hnext_mem hfuel
  have hself' : r'.self = self := hs.self_eq
  refine ⟨w.write r', ?_, h.update ?_ (fun s hs => ?_) (fun x hx => ?_)
    fun {s} root' objs' x hs hA hx hx' => ?_⟩
  · rw [Heap.swapRoot, if_neg hne, hget, Option.bind_some]
    simp only [hcls, hnext_self, ne_eq, not_true_eq_false, or_self, if_false]
    rw [hr', Option.map_some]
  · rw [← hself']
    refine hasRegion_write hrings' (fun x => ?_) fun x => ?_
    · rw [hs.allocated_eq, hself']
      exact halloc x
    · rw [hobjs, hperm.mem_iff]
  · rw [← hself'] at hs
    exact Function.update_of_ne hs ..
  · rw [not_or] at hx
    obtain ⟨hx_self, hx_objs⟩ := hx
    have hx_out : x ∉ prev :: (prim ++ sec) := fun hx => hx_objs ((hobjs x).mpr hx)
    refine ⟨?_, hs.next_eq x hx_out hx_self, rfl⟩
    have hx_next : x ≠ next := fun heq => hx_objs (heq ▸ hnext)
    have hx_prev : x ≠ prev := fun heq => hx_out (heq ▸ List.mem_cons_self)
    exact (hs.cls_eq x).trans (by rw [if_neg hx_next, if_neg hx_prev]; rfl)
  · exact hs (h.disjoint hA hself hx hx')

/-- Every operation that the callers may ask for returns, with the contents that it says. -/
theorem Refines.step (h : w.Refines A) {op : Op O} (hop : A.Step op A') (sizeclass : ℕ → ℕ) :
    ∃ w', op.apply sizeclass w = some w' ∧ w'.Refines A' := by
  cases hop with
  | create hself ho hne isTrivial size => exact ⟨_, rfl, h.create hself ho hne isTrivial size⟩
  | alloc hself ho isTrivial size => exact h.alloc hself ho isTrivial size
  | merge hself hother hne => exact h.merge hself hother hne sizeclass
  | swapRoot hself hnext hne => exact h.swapRoot hself hnext hne

/-- The same for a sequence of operations. -/
theorem refines_of_run {ops : List (Op O)} (hrun : Contents.Run ops A) (sizeclass : ℕ → ℕ)
    (hempty : ∀ o, w.regions o = none) :
    ∃ w', ops.foldlM (Op.apply sizeclass) w = some w' ∧ w'.Refines A := by
  induction hrun with
  | nil => exact ⟨w, rfl, nofun, fun self _ => hempty self, nofun⟩
  | snoc _ hop ih =>
    obtain ⟨w₁, hw₁, h₁⟩ := ih
    obtain ⟨w₂, hw₂, h₂⟩ := h₁.step hop sizeclass
    refine ⟨w₂, ?_, h₂⟩
    rw [List.foldlM_append, hw₁]
    simpa using hw₂

end Heap

/-- For every sequence of `create`, `alloc`, `merge` and `swap_root`, from a heap without regions: the
sequence returns, and it leads to regions that have exactly the objects that were allocated in them or
merged into them in their two rings, with the root last in the primary one, so that an iteration visits
each object once. -/
theorem rings_hold_contents {ops : List (Op O)} {A : Contents O} (hrun : Contents.Run ops A)
    (sizeclass : ℕ → ℕ) (w : Heap O) (hempty : ∀ o, w.regions o = none) :
    ∃ w', ops.foldlM (Op.apply sizeclass) w = some w' ∧
      (∀ self, A self = none → w'.regions self = none) ∧
      ∀ self root objs, A self = some (root, objs) →
        ∃ m prim sec, w'.regions self = some m ∧ w'.HasRings self m root objs prim sec := by
  obtain ⟨w', hw', h⟩ := Heap.refines_of_run hrun sizeclass hempty
  exact ⟨w', hw', h.no_region, fun self root objs hA => (h.region self root objs hA).hasRings⟩

/-- A heap without regions. -/
def noRegions : Heap ℕ := ⟨fun _ => .unmarked, fun _ => none, fun _ => false, fun _ => 0, fun _ => none⟩

/-- A region, a trivial object and the swap that makes it the root. -/
def swapTrivial : List (Op ℕ) := [.create 0 1 false 16, .alloc 1 2 true 16, .swapRoot 1 2]

/-- The sequence returns, and both objects are in the rings. -/
theorem rings_hold_contents_swapTrivial :
    ∃ w', swapTrivial.foldlM (Op.apply id) noRegions = some w' ∧
      ∃ m prim sec, w'.regions 0 = some m ∧ w'.HasRings 0 m 2 {2, 1} prim sec := by
  have hcreate : Contents.Run [.create 0 1 false 16]
      (Function.update (fun _ => none) 0 (some (1, {1}))) :=
    Contents.Run.nil.snoc (.create nofun nofun (by decide) false 16)
  have hfresh : Contents.Fresh (Function.update (fun _ => none) 0 (some (1, {1}))) 2 := by
    intro self entry objs hself
    rw [Function.update_apply] at hself
    split at hself
    · next heq =>
      obtain ⟨rfl, rfl⟩ := Prod.mk.inj (Option.some.inj hself)
      exact ⟨by omega, by decide⟩
    · cases hself
  have halloc := hcreate.snoc (.alloc (Function.update_self ..) hfresh true 16)
  have hswap := halloc.snoc (.swapRoot (Function.update_self ..)
    (show 2 ∈ ({2, 1} : Finset ℕ) by decide) (by decide))
  obtain ⟨w', hw', -, hregions⟩ := rings_hold_contents hswap id noRegions fun _ => rfl
  exact ⟨w', hw', hregions 0 2 {2, 1} (Function.update_self ..)⟩

end VeronaRt.RegionTrace
