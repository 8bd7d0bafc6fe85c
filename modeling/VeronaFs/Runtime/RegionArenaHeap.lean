import VeronaFs.Runtime.RegionArenaSwap

/-!
# Runs of arena regions

A heap with arena regions and the operations `create`, `alloc`, `merge` and `swap_root` in any order.
`Contents` is what a caller sees of the regions: the entry point of each and its objects, as the
operations have returned them.  Every operation that the callers may ask for returns, and the objects of
the regions are disjoint, in their arenas or in their rings, where the iterators find each of them once
(`arenas_hold_contents`).
-/

namespace VeronaRt.RegionArena

open Foundation

/-! ## Contents -/

/-- The entry point and the objects of each region, by the metadata object. -/
abbrev Contents := Addr → Option (Addr × List Addr)

/-- The operations. -/
inductive Op
  /-- Create a region with the metadata object in the block `self`.  The allocator returns `mem` for the
  object. -/
  | create (self mem : ℕ) (isTrivial : Bool) (sz : ℕ)
  /-- Allocate an object in the region of an entry point.  The allocator returns `mem` if it is asked for
  a block. -/
  | alloc (entry : Addr) (mem : ℕ) (isTrivial : Bool) (sz : ℕ)
  /-- Merge the region of `o` into that of `into`. -/
  | merge (into o : Addr)
  /-- Make `next` the entry point of the region of `prev`.  The fuel is for the loop in the assertion that
  it is an object of the region. -/
  | swapRoot (fuel : ℕ) (prev next : Addr)

/-- No region has the block. -/
def Contents.Fresh (A : Contents) (id : ℕ) : Prop :=
  ∀ self root objs, A self = some (root, objs) → ¬ Owns self objs id

/-- What an operation that returns an object, or none, does to the contents.  The allocator returns blocks
that are not in use, a size is a positive multiple of the alignment, two different regions are merged,
and a new root is another object of the region. -/
inductive Contents.Step (A : Contents) : Op → Option Addr → Contents → Prop
  /-- A region with its entry point alone. -/
  | create {self mem sz : ℕ} (hself : A.Fresh self) (hmem : A.Fresh mem) (hne : self ≠ mem)
      (hpos : 0 < sz) (hsz : alignment ∣ sz) (isTrivial : Bool) (o : Addr) :
      Step A (.create self mem isTrivial sz) (some o) (Function.update A (.block self) (some (o, [o])))
  /-- One more object. -/
  | alloc {self entry : Addr} {objs : List Addr} {mem sz : ℕ} (hself : A self = some (entry, objs))
      (hmem : A.Fresh mem) (hpos : 0 < sz) (hsz : alignment ∣ sz) (isTrivial : Bool) (o : Addr) :
      Step A (.alloc entry mem isTrivial sz) (some o)
        (Function.update A self (some (entry, o :: objs)))
  /-- All objects of another region. -/
  | merge {self other into o : Addr} {objs objs' : List Addr} (hself : A self = some (into, objs))
      (hother : A other = some (o, objs')) (hne : self ≠ other) : Step A (.merge into o) none
        (Function.update (Function.update A self (some (into, objs ++ objs'))) other none)
  /-- Another entry point. -/
  | swapRoot {self prev next : Addr} {objs : List Addr} {fuel : ℕ} (hself : A self = some (prev, objs))
      (hnext : next ∈ objs) (hne : prev ≠ next) (hfuel : objs.length < fuel) :
      Step A (.swapRoot fuel prev next) none (Function.update A self (some (next, objs)))

/-- The heap after an operation, with the object that it returns. -/
def Op.apply (w : Heap) : Op → Option (Heap × Option Addr)
  | .create self mem isTrivial sz => (w.create self mem isTrivial sz).map fun (w, o) => (w, some o)
  | .alloc entry mem isTrivial sz => (w.alloc entry mem isTrivial sz).map fun (w, o) => (w, some o)
  | .merge into o => (w.merge into o).map fun w => (w, none)
  | .swapRoot fuel prev next => (w.swapRoot fuel prev next).map fun w => (w, none)

/-- A sequence of operations from a heap, with the contents that the objects it returns lead to. -/
inductive Run (w₀ : Heap) : List Op → Heap → Contents → Prop
  /-- At first there are no regions. -/
  | nil : Run w₀ [] w₀ fun _ => none
  /-- One more operation. -/
  | snoc {ops : List Op} {op : Op} {w w' : Heap} {A A' : Contents} {o : Option Addr}
      (h : Run w₀ ops w A) (hop : A.Step op o A') (hw : op.apply w = some (w', o)) :
      Run w₀ (ops ++ [op]) w' A'

/-! ## What holds of a region -/

/-- The objects of the region with the metadata object `reg` are in its arenas and in its ring. -/
structure Heap.HasLayout (w : Heap) (reg : Addr) (m : Metadata) (root : Addr) (objs large : List Addr) :
    Prop where
  /-- No object has been returned twice. -/
  nodup : objs.Nodup
  /-- The root is one of the objects. -/
  root_mem : root ∈ objs
  /-- The root is the only entry point. -/
  cls_iso_iff : ∀ x ∈ objs, w.cls x = .iso ↔ x = root
  /-- An object in an arena is inside it. -/
  inside : ∀ {id p}, .slot id p ∈ objs → p + w.size (.slot id p) ≤ Arena.size
  /-- Two objects in an arena are disjoint. -/
  disjoint : ∀ {id p q}, .slot id p ∈ objs → .slot id q ∈ objs → p ≠ q →
    p + w.size (.slot id p) ≤ q ∨ q + w.size (.slot id q) ≤ p
  /-- The ring has the objects that are larger than an arena. -/
  mem_large_iff : ∀ x, x ∈ large ↔ x ∈ objs ∧ Arena.size < w.size x
  /-- The ring is a cycle through the metadata object. -/
  ring : Path w.next large (w.next reg) (some reg)
  /-- It has an object once. -/
  ring_nodup : (reg :: large).Nodup
  /-- A large root is its last object. -/
  root_last : root ∈ large → large.getLast? = some root
  /-- The region has a pointer to the last object. -/
  lastLarge_eq : m.lastLarge = large.getLast?
  /-- The iteration over all objects visits each of them once. -/
  visits_all : ∀ fuel, objs.length < fuel →
    ∃ l, w.objects .allObjects reg m fuel = some l ∧ l.Perm objs
  /-- The iteration over the trivial objects visits each of them once. -/
  visits_trivial : ∀ fuel, objs.length < fuel →
    ∃ l, w.objects .trivial reg m fuel = some l ∧ l.Perm (objs.filter fun x => w.isTrivial x)
  /-- The iteration over the other objects visits each of them once. -/
  visits_nonTrivial : ∀ fuel, objs.length < fuel →
    ∃ l, w.objects .nonTrivial reg m fuel = some l ∧ l.Perm (objs.filter fun x => !w.isTrivial x)

namespace Heap

variable {w w' : Heap} {self root o : Addr} {objs : List Addr} {A A' : Contents} {sz mem : ℕ}

/-- The region has the entry point and the objects. -/
def HasRegion (w : Heap) (self root : Addr) (objs : List Addr) : Prop :=
  ∃ m arenas large, w.regions self = some m ∧ w.Parts self m objs arenas large ∧
    w.Rooted self root objs large

/-- A region has its objects in its arenas and in its ring. -/
theorem HasRegion.hasLayout (h : w.HasRegion self root objs) :
    ∃ m large, w.regions self = some m ∧ w.HasLayout self m root objs large := by
  obtain ⟨m, arenas, large, hm, hparts, hroot⟩ := h
  have hvisits (type : IteratorType) (fuel : ℕ) (hfuel : objs.length < fuel) :
      ∃ l, w.objects type self m fuel = some l ∧ l.Perm (objs.filter (w.wanted type)) :=
    ⟨_, hparts.objects_eq (fun x hx => hroot.live (hparts.mem_iff.mpr (.inr hx))) type hfuel,
      (hparts.perm.filter _).symm⟩
  refine ⟨m, large, hm, hparts.nodup, hroot.mem, fun x hx => ⟨fun hcls => ?_, fun heq => ?_⟩,
    hparts.inside, hparts.disjoint, fun x => ⟨fun hx => ⟨hparts.mem_iff.mpr (.inr hx),
    hparts.ring.size_lt x hx⟩, fun ⟨hx, hlt⟩ => ?_⟩, hparts.ring.path, hparts.ring.nodup, hroot.last,
    hparts.ring.last, fun fuel hfuel => ?_, hvisits .trivial, hvisits .nonTrivial⟩
  · by_contra hne
    rw [hroot.cls_eq x hx hne] at hcls
    cases hcls
  · rw [heq]
    exact hroot.cls_root
  · exact (hparts.mem_large_iff hx).mpr (Nat.lt_of_lt_of_le hlt (le_alignUp _))
  · obtain ⟨l, hl, hperm⟩ := hvisits .allObjects fuel hfuel
    have hall : objs.filter (w.wanted .allObjects) = objs := List.filter_eq_self.mpr fun _ _ => rfl
    exact ⟨l, hl, hall ▸ hperm⟩

/-- The metadata object has a block of its own. -/
theorem HasRegion.eq_block (h : w.HasRegion self root objs) : self = .block self.memory := by
  obtain ⟨m, arenas, large, -, hparts, -⟩ := h
  exact hparts.ring.eq_block self List.mem_cons_self

/-- A region stays when its metadata, its arenas and its objects do. -/
theorem HasRegion.frame (h : w.HasRegion self root objs) (hregion : w'.regions self = w.regions self)
    (harenas : ∀ id, Owns self objs id → w'.arenas id = w.arenas id)
    (hsame : ∀ x, x = self ∨ x ∈ objs → w.Same w' x) : w'.HasRegion self root objs := by
  obtain ⟨m, arenas, large, hm, hparts, hroot⟩ := h
  exact ⟨m, arenas, large, hregion.trans hm,
    hparts.frame (fun a ha => harenas a.id (.inr (hparts.exists_mem ha))) hsame,
    hroot.frame fun x hx => hsame x (.inr hx)⟩

/-- The region of an entry point. -/
theorem HasRegion.get_eq (h : w.HasRegion self root objs) :
    ∃ m arenas large, w.get root = some (self, m) ∧ w.Parts self m objs arenas large ∧
      w.Rooted self root objs large := by
  obtain ⟨m, arenas, large, hm, hparts, hroot⟩ := h
  refine ⟨m, arenas, large, ?_, hparts, hroot⟩
  rw [get, if_pos hroot.cls_root, hroot.next_root, Option.bind_some, hm, Option.map_some]

/-- The region with its metadata. -/
theorem hasRegion_setRegion {m : Metadata} {arenas : List ArenaObjects} {large : List Addr}
    (hparts : w.Parts self m objs arenas large) (hroot : w.Rooted self root objs large) :
    (w.setRegion self m).HasRegion self root objs :=
  ⟨m, arenas, large, Function.update_self ..,
    hparts.frame (fun _ _ => rfl) fun _ _ => ⟨rfl, rfl, rfl, rfl⟩,
    hroot.frame fun _ _ => ⟨rfl, rfl, rfl, rfl⟩⟩

/-! ## The operations -/

/-- The heap has exactly the regions of the contents. -/
structure Refines (w : Heap) (A : Contents) : Prop where
  /-- The regions of the contents. -/
  region : ∀ self root objs, A self = some (root, objs) → w.HasRegion self root objs
  /-- There are no others. -/
  no_region : ∀ self, A self = none → w.regions self = none
  /-- Two regions have different blocks. -/
  disjoint : ∀ {self self' root root' objs objs'} {id : ℕ}, A self = some (root, objs) →
    A self' = some (root', objs') → Owns self objs id → Owns self' objs' id → self = self'

/-- One region is written, and the others stay. -/
theorem Refines.update (h : w.Refines A) (hregion : w'.HasRegion self root objs)
    (hregions : ∀ s, s ≠ self → w'.regions s = w.regions s)
    (harenas : ∀ id, ¬ Owns self objs id → w'.arenas id = w.arenas id)
    (hsame : ∀ x, x ≠ self → x ∉ objs → w.Same w' x)
    (hout : ∀ {s root' objs'} {id : ℕ}, s ≠ self → A s = some (root', objs') → Owns s objs' id →
      ¬ Owns self objs id) :
    w'.Refines (Function.update A self (some (root, objs))) := by
  refine ⟨fun s root' objs' hs => ?_, fun s hs => ?_, fun {s s'} root₁ root₂ objs₁ objs₂ id hs hs' hid hid' => ?_⟩
  · by_cases heq : s = self
    · rw [heq, Function.update_self, Option.some.injEq, Prod.mk.injEq] at hs
      obtain ⟨rfl, rfl⟩ := hs
      rw [heq]
      exact hregion
    · rw [Function.update_of_ne heq] at hs
      refine (h.region s root' objs' hs).frame (hregions s heq) (fun id hid => harenas id (hout heq hs hid))
        fun x hx => ?_
      have hnot := hout heq hs (hx.imp (congrArg Addr.memory) fun hx => ⟨x, hx, rfl⟩)
      exact hsame x (fun hx => hnot (.inl (congrArg _ hx))) fun hx => hnot (.inr ⟨x, hx, rfl⟩)
  · by_cases heq : s = self
    · rw [heq, Function.update_self] at hs
      cases hs
    · rw [Function.update_of_ne heq] at hs
      rw [hregions s heq, h.no_region s hs]
  · by_cases heq : s = self
    · by_cases heq' : s' = self
      · exact heq.trans heq'.symm
      · rw [Function.update_of_ne heq'] at hs'
        rw [heq, Function.update_self, Option.some.injEq, Prod.mk.injEq] at hs
        obtain ⟨rfl, rfl⟩ := hs
        exact absurd (heq ▸ hid) (hout heq' hs' hid')
    · rw [Function.update_of_ne heq] at hs
      by_cases heq' : s' = self
      · rw [heq', Function.update_self, Option.some.injEq, Prod.mk.injEq] at hs'
        obtain ⟨rfl, rfl⟩ := hs'
        exact absurd (heq' ▸ hid') (hout heq hs hid)
      · rw [Function.update_of_ne heq'] at hs'
        exact h.disjoint hs hs' hid hid'

/-- A region is removed. -/
theorem Refines.erase (h : w.Refines A) (other : Addr) :
    (w.dealloc other).Refines (Function.update A other none) := by
  have hsome {s : Addr} {c : Addr × List Addr} (hs : Function.update A other none s = some c) :
      s ≠ other ∧ A s = some c := by
    by_cases heq : s = other
    · rw [heq, Function.update_self] at hs
      cases hs
    · rw [Function.update_of_ne heq] at hs
      exact ⟨heq, hs⟩
  refine ⟨fun s root objs hs => ?_, fun s hs => ?_, fun hs hs' hid hid' =>
    h.disjoint (hsome hs).2 (hsome hs').2 hid hid'⟩
  · obtain ⟨hne, hs⟩ := hsome hs
    exact (h.region s root objs hs).frame (Function.update_of_ne hne ..) (fun _ _ => rfl)
      fun _ _ => ⟨rfl, rfl, rfl, rfl⟩
  · by_cases heq : s = other
    · rw [heq]
      exact Function.update_self ..
    · rw [Function.update_of_ne heq] at hs
      exact (Function.update_of_ne heq ..).trans (h.no_region s hs)

/-- A region without objects. -/
theorem newRegion_parts (w : Heap) (id : ℕ) :
    (w.newRegion (.block id)).Parts (.block id) ⟨none, none, none⟩ [] [] [] := by
  refine ⟨⟨List.nodup_nil, rfl, rfl, nofun⟩, nofun, ⟨List.nodup_singleton _, fun x hx => ?_, nofun, ?_,
    rfl, Function.update_self ..⟩, List.Perm.refl _⟩
  · rw [List.mem_singleton.mp hx, Addr.memory]
  · exact Function.update_self ..

/-- A new region has the entry point alone. -/
theorem create_eq (w : Heap) {id : ℕ} (hne : id ≠ mem) (hpos : 0 < sz) (hsz : alignment ∣ sz)
    (k : Bool) :
    ∃ w' o, w.create id mem k sz = some (w', o) ∧ w'.HasRegion (.block id) o [o] ∧ o.memory = mem ∧
      (∀ s, s ≠ .block id → w'.regions s = w.regions s) ∧
      (∀ id', id' ≠ mem → w'.arenas id' = w.arenas id') ∧
      ∀ x, x ≠ .block id → x ≠ o → w.Same w' x := by
  have hparts := newRegion_parts w id
  have hmem : ¬ Owns (.block id) [] mem := by
    rintro (heq | ⟨x, hx, -⟩)
    · exact hne heq.symm
    · exact absurd hx List.not_mem_nil
  obtain ⟨w₂, m₂, o, arenas', large', halloc, hparts₂, hlarge, hadded⟩ :=
    hparts.allocInternal hmem hpos hsz k
  have ho : o.memory = mem := hadded.memory.resolve_right fun ⟨x, hx, _⟩ => absurd hx List.not_mem_nil
  have hself : o ≠ .block id := fun heq => hadded.notMem (heq ▸ List.mem_cons_self)
  have hlast : ∀ x ∈ large', x = o ∧ large'.getLast? = some o := by
    rcases hlarge with rfl | rfl
    · nofun
    · simp
  let w₃ := w₂.initIso o (.block id)
  have hparts₃ : w₃.Parts (.block id) m₂ [o] arenas' large' := by
    refine hparts₂.congr (fun _ _ => rfl) (fun _ _ => ⟨rfl, rfl⟩)
      (Function.update_of_ne (Ne.symm hself) ..) fun x hx => ?_
    rcases List.mem_cons.mp hx with rfl | hx
    · exact Function.update_of_ne (Ne.symm hself) ..
    · obtain ⟨rfl, hx⟩ := hlast x hx
      rw [hparts₂.ring.next_last hx]
      exact Function.update_self ..
  have hroot : w₃.Rooted (.block id) o [o] large' :=
    ⟨List.mem_singleton_self o, Function.update_self .., Function.update_self ..,
      fun x hx hne => absurd (List.mem_singleton.mp hx) hne, fun hx => (hlast o hx).2⟩
  have hclosed : w₃.lastLargeClosed (.block id) m₂ :=
    hparts₃.ring.closed fun x hx => hroot.live (hparts₃.mem_iff.mpr (.inr hx))
  refine ⟨w₃.setRegion (.block id) m₂, o, ?_, hasRegion_setRegion hparts₃ hroot, ho, fun s hs => ?_,
    fun id' hid' => hadded.arenas_eq id' (ho ▸ hid') nofun, fun x hx hx' => ?_⟩
  · rw [Heap.create, halloc, Option.bind_some]
    exact if_pos hclosed
  · exact (Function.update_of_ne hs ..).trans (congrFun hadded.regions_eq s)
  · have hnew : w.Same (w.newRegion (.block id)) x := (Same.register hx true 0).trans (.initNext hx _)
    have hiso : w₂.Same w₃ x := .initIso hx' _
    exact (hnew.trans (hadded.same x hx' hx)).trans ⟨hiso.cls, hiso.next, hiso.isTrivial, hiso.size⟩

/-- A region is created. -/
theorem Refines.create (h : w.Refines A) {id : ℕ} (hself : A.Fresh id) (hmem : A.Fresh mem)
    (hne : id ≠ mem) (hpos : 0 < sz) (hsz : alignment ∣ sz) (k : Bool) :
    ∃ w' o, w.create id mem k sz = some (w', o) ∧
      w'.Refines (Function.update A (.block id) (some (o, [o]))) := by
  obtain ⟨w', o, hcreate, hregion, ho, hregions, harenas, hsame⟩ := create_eq w hne hpos hsz k
  have howns {id' : ℕ} : Owns (.block id) [o] id' ↔ id' = id ∨ id' = mem := by
    simp [Owns, ho, Addr.memory.eq_1, eq_comm]
  refine ⟨w', o, hcreate, h.update hregion hregions (fun id' hid' => ?_) (fun x hx hx' => ?_)
    fun {s} root' objs' id' _ hs hid' hid => ?_⟩
  · exact harenas id' fun heq => hid' (howns.mpr (.inr heq))
  · exact hsame x hx fun heq => hx' (List.mem_singleton.mpr heq)
  · rcases howns.mp hid with rfl | rfl
    · exact hself s root' objs' hs hid'
    · exact hmem s root' objs' hs hid'

/-- An object is allocated. -/
theorem Refines.alloc (h : w.Refines A) {entry : Addr} (hself : A self = some (entry, objs))
    (hmem : A.Fresh mem) (hpos : 0 < sz) (hsz : alignment ∣ sz) (k : Bool) :
    ∃ w' o, w.alloc entry mem k sz = some (w', o) ∧
      w'.Refines (Function.update A self (some (entry, o :: objs))) := by
  obtain ⟨m, arenas, large, hget, hparts, hroot⟩ := (h.region self entry objs hself).get_eq
  obtain ⟨w₂, m₂, o, arenas', large', halloc, hparts₂, hlarge, hadded⟩ :=
    hparts.allocInternal (hmem self entry objs hself) hpos hsz k
  have hnew := hadded.notMem
  rw [List.mem_cons, not_or] at hnew
  have hsame {x : Addr} (hx : x ∈ objs) : w.Same w₂ x :=
    hadded.same x (fun heq => hnew.2 (heq ▸ hx)) fun heq => hparts.self_notMem (heq ▸ hx)
  have hroot₂ : w₂.Rooted self entry (o :: objs) large' := by
    refine ⟨List.mem_cons_of_mem o hroot.mem, (hsame hroot.mem).cls.trans hroot.cls_root,
      (hsame hroot.mem).next.trans hroot.next_root, fun x hx hne => ?_, fun hx => ?_⟩
    · rcases List.mem_cons.mp hx with rfl | hx
      · exact hadded.cls_eq
      · exact (hsame hx).cls.trans (hroot.cls_eq x hx hne)
    · rcases hlarge with rfl | rfl
      · exact hroot.last hx
      · have hx' : entry ∈ large := (List.mem_cons.mp hx).resolve_left fun heq => hnew.2 (heq ▸ hroot.mem)
        rw [List.getLast?_cons, hroot.last hx', Option.getD_some]
  have howns {id : ℕ} (hid : Owns self objs id) : Owns self (o :: objs) id :=
    hid.imp_right fun ⟨x, hx, hid⟩ => ⟨x, List.mem_cons_of_mem o hx, hid⟩
  have howns' {id : ℕ} (hid : Owns self (o :: objs) id) : Owns self objs id ∨ id = mem := by
    rcases hid with hid | ⟨x, hx, rfl⟩
    · exact .inl (.inl hid)
    · rcases List.mem_cons.mp hx with rfl | hx
      · exact hadded.memory.symm.imp_left .inr
      · exact .inl (.inr ⟨x, hx, rfl⟩)
  refine ⟨w₂.setRegion self m₂, o, ?_, h.update (hasRegion_setRegion hparts₂ hroot₂) (fun s hs => ?_)
    (fun id hid => ?_) (fun x hx hx' => ?_) fun {s} root' objs' id hs hs' hid' hid => ?_⟩
  · simp only [Heap.alloc, hget, Option.bind_some, halloc, Option.map_some]
  · exact (Function.update_of_ne hs ..).trans (congrFun hadded.regions_eq s)
  · have hnot : ¬ (id = o.memory ∨ ∃ x ∈ objs, x.memory = id) := by
      rintro (heq | ⟨x, hx, hid'⟩)
      · exact hid (.inr ⟨o, List.mem_cons_self, heq.symm⟩)
      · exact hid (howns (.inr ⟨x, hx, hid'⟩))
    exact hadded.arenas_eq id (fun heq => hnot (.inl heq)) fun x hx hid' => hnot (.inr ⟨x, hx, hid'⟩)
  · have hx_old := hadded.same x (fun heq => hx' (heq ▸ List.mem_cons_self)) hx
    exact ⟨hx_old.cls, hx_old.next, hx_old.isTrivial, hx_old.size⟩
  · rcases howns' hid with hid | rfl
    · exact hs (h.disjoint hs' hself hid' hid)
    · exact hmem s root' objs' hs' hid'

/-- Two regions are merged. -/
theorem Refines.merge (h : w.Refines A) {other into : Addr} {objs' : List Addr}
    (hself : A self = some (into, objs)) (hother : A other = some (o, objs')) (hne : self ≠ other) :
    ∃ w', w.merge into o = some w' ∧ w'.Refines
      (Function.update (Function.update A self (some (into, objs ++ objs'))) other none) := by
  obtain ⟨m, arenas, large, hget, hparts, hroot⟩ := (h.region self into objs hself).get_eq
  obtain ⟨m', arenas', large', hget', hparts', hroot'⟩ := (h.region other o objs' hother).get_eq
  have hdisj (id : ℕ) (hid : Owns self objs id) : ¬ Owns other objs' id :=
    fun hid' => hne (h.disjoint hself hother hid hid')
  obtain ⟨w₂, m₂, hmerge, hparts₂, hroot₂, hsame, harenas, hregions⟩ :=
    hparts.mergeInternal hparts' hroot hroot' hdisj
  have howns {id : ℕ} (hid : Owns self (objs ++ objs') id) : Owns self objs id ∨ Owns other objs' id := by
    rcases hid with hid | ⟨x, hx, rfl⟩
    · exact .inl (.inl hid)
    · exact (List.mem_append.mp hx).imp (fun hx => .inr ⟨x, hx, rfl⟩) fun hx => .inr ⟨x, hx, rfl⟩
  let w₃ := (w₂.clearIso o).setRegion self m₂
  have hregions₃ {s : Addr} (hs : s ≠ self) : w₃.regions s = w.regions s :=
    (Function.update_of_ne hs ..).trans (congrFun hregions s)
  refine ⟨w₃.dealloc other, ?_, ?_⟩
  · simp only [Heap.merge, hget, hget', Option.bind_some, if_neg hne, hmerge, Option.map_some]
    rfl
  · rw [Function.update_comm hne]
    refine (h.erase other).update ?_ (fun s hs => ?_) (fun id hid => ?_) (fun x hx hx' => ?_)
      fun {s} root' objs₃ id hs hA hid' hid => ?_
    · have hregion : w₃.HasRegion self into (objs ++ objs') := hasRegion_setRegion hparts₂ hroot₂
      exact hregion.frame (Function.update_of_ne hne ..) (fun _ _ => rfl) fun _ _ => ⟨rfl, rfl, rfl, rfl⟩
    · by_cases heq : s = other
      · have hnone (w : Heap) : (w.dealloc other).regions other = none := Function.update_self ..
        rw [heq, hnone, hnone]
      · exact (Function.update_of_ne heq ..).trans
          ((hregions₃ hs).trans (Function.update_of_ne heq ..).symm)
    · exact harenas id fun x hx heq => hid (.inr ⟨x, List.mem_append_left _ hx, heq⟩)
    · have hx_old := hsame x hx fun hmem => hx' (List.mem_append_right _ hmem)
      exact ⟨hx_old.cls, hx_old.next, hx_old.isTrivial, hx_old.size⟩
    · by_cases heq : s = other
      · rw [heq, Function.update_self] at hA
        cases hA
      · rw [Function.update_of_ne heq] at hA
        rcases howns hid with hid | hid
        · exact hs (h.disjoint hA hself hid' hid)
        · exact heq (h.disjoint hA hother hid' hid)

/-- The entry point of a region is swapped. -/
theorem Refines.swapRoot (h : w.Refines A) {prev next : Addr} {fuel : ℕ}
    (hself : A self = some (prev, objs)) (hnext : next ∈ objs) (hne : prev ≠ next)
    (hfuel : objs.length < fuel) : ∃ w', w.swapRoot fuel prev next = some w' ∧
      w'.Refines (Function.update A self (some (next, objs))) := by
  obtain ⟨m, arenas, large, hget, hparts, hroot⟩ := (h.region self prev objs hself).get_eq
  obtain ⟨w₂, m₂, large', hswap, hparts₂, hroot₂, hs⟩ :=
    hparts.swapRootInternal hroot hnext hne hfuel
  have hnot : ¬ (w.cls next ≠ .unmarked ∨ self = next) := by
    rintro (hcls | heq)
    · exact hcls (hroot.cls_eq next hnext (Ne.symm hne))
    · exact hparts.self_notMem (heq ▸ hnext)
  refine ⟨w₂.setRegion self m₂, ?_, h.update (hasRegion_setRegion hparts₂ hroot₂) (fun s hs' => ?_)
    (fun id _ => congrFun hs.arenas_eq id) (fun x hx hx' => ?_)
    fun {s} root' objs' id hs hA hid' hid => hs (h.disjoint hA hself hid' hid)⟩
  · simp only [Heap.swapRoot, if_neg hne, hget, Option.bind_some, if_neg hnot, hswap, Option.map_some]
  · exact (Function.update_of_ne hs' ..).trans (congrFun hs.regions_eq s)
  · have hx_old := hs.same x hx hx'
    exact ⟨hx_old.cls, hx_old.next, hx_old.isTrivial, hx_old.size⟩

/-- Every operation that the callers may ask for returns, and with the object that it returns it does
to the regions what it does to the contents. -/
theorem Refines.step (h : w.Refines A) {op : Op} {out : Option Addr} (hop : A.Step op out A') :
    ∃ w' out', op.apply w = some (w', out') ∧ (∃ A₂, A.Step op out' A₂) ∧
      (out' = out → w'.Refines A') := by
  cases hop with
  | create hself hmem hne hpos hsz k _ =>
    obtain ⟨w', o, hcreate, hrefines⟩ := h.create hself hmem hne hpos hsz k
    refine ⟨w', some o, congrArg (Option.map _) hcreate, ⟨_, .create hself hmem hne hpos hsz k o⟩, ?_⟩
    rintro ⟨⟩
    exact hrefines
  | alloc hself hmem hpos hsz k _ =>
    obtain ⟨w', o, halloc, hrefines⟩ := h.alloc hself hmem hpos hsz k
    refine ⟨w', some o, congrArg (Option.map _) halloc, ⟨_, .alloc hself hmem hpos hsz k o⟩, ?_⟩
    rintro ⟨⟩
    exact hrefines
  | merge hself hother hne =>
    obtain ⟨w', hmerge, hrefines⟩ := h.merge hself hother hne
    exact ⟨w', none, congrArg (Option.map _) hmerge, ⟨_, .merge hself hother hne⟩, fun _ => hrefines⟩
  | swapRoot hself hnext hne hfuel =>
    obtain ⟨w', hswap, hrefines⟩ := h.swapRoot hself hnext hne hfuel
    exact ⟨w', none, congrArg (Option.map _) hswap, ⟨_, .swapRoot hself hnext hne hfuel⟩,
      fun _ => hrefines⟩

/-- The same for a sequence of operations. -/
theorem refines_of_run {w₀ : Heap} {ops : List Op} (hrun : Run w₀ ops w A)
    (hempty : ∀ o, w₀.regions o = none) : w.Refines A := by
  induction hrun with
  | nil => exact ⟨nofun, fun self _ => hempty self, nofun⟩
  | snoc _ hop hw ih =>
    obtain ⟨w', out', hw', -, hrefines⟩ := ih.step hop
    obtain ⟨rfl, rfl⟩ := Prod.mk.inj (Option.some.inj (hw'.symm.trans hw))
    exact hrefines rfl

end Heap

/-- In every sequence of `create`, `alloc`, `merge` and `swap_root` from a heap without regions: there are
exactly the regions of the contents, and each has exactly the objects that were allocated in it or merged
into it, disjoint in its arenas or in its ring, where a large root is last and where the iterators find
each object once.  Two regions have different blocks, and each further operation that the callers may ask
for returns. -/
theorem arenas_hold_contents {w₀ w : Heap} {ops : List Op} {A : Contents} (hrun : Run w₀ ops w A)
    (hempty : ∀ o, w₀.regions o = none) :
    (∀ self, A self = none → w.regions self = none) ∧
      (∀ self root objs, A self = some (root, objs) →
        ∃ m large, w.regions self = some m ∧ w.HasLayout self m root objs large) ∧
      (∀ self self' root root' objs objs' id, A self = some (root, objs) →
        A self' = some (root', objs') → Owns self objs id → Owns self' objs' id → self = self') ∧
      ∀ op out A', A.Step op out A' →
        ∃ w' out', op.apply w = some (w', out') ∧ ∃ A₂, A.Step op out' A₂ := by
  have h := Heap.refines_of_run hrun hempty
  refine ⟨h.no_region, fun self root objs hA => (h.region self root objs hA).hasLayout,
    fun _ _ _ _ _ _ _ => h.disjoint, fun op out A' hop => ?_⟩
  obtain ⟨w', out', hw', hlegal, -⟩ := h.step hop
  exact ⟨w', out', hw', hlegal⟩

/-- A heap without regions. -/
def noRegions : Heap where
  cls _ := .unmarked
  next _ := none
  isTrivial _ := false
  size _ := 0
  arenas _ := none
  regions _ := none

/-- A region with a small entry point, a large object and the swap that makes it the root. -/
def swapLarge : List Op :=
  [.create 0 1 false 16, .alloc (.slot 1 1048528) 2 true (2 ^ 21), .swapRoot 3 (.slot 1 1048528) (.block 2)]

/-- The sequence returns, and the large object is the root and the last one of the ring. -/
theorem arenas_hold_contents_swapLarge :
    ∃ w A m large, Run noRegions swapLarge w A ∧ w.regions (.block 0) = some m ∧
      w.HasLayout (.block 0) m (.block 2) [.block 2, .slot 1 1048528] large := by
  obtain ⟨w₁, w₂, w₃, h₁, h₂, h₃⟩ : ∃ w₁ w₂ w₃,
      Op.apply noRegions (.create 0 1 false 16) = some (w₁, some (.slot 1 1048528)) ∧
      Op.apply w₁ (.alloc (.slot 1 1048528) 2 true (2 ^ 21)) = some (w₂, some (.block 2)) ∧
      Op.apply w₂ (.swapRoot 3 (.slot 1 1048528) (.block 2)) = some (w₃, none) :=
    ⟨_, _, _, rfl, rfl, rfl⟩
  have hnone (id : ℕ) : Contents.Fresh (fun _ => none) id := by
    rintro self root objs ⟨⟩
  have hnil : Run noRegions [] noRegions fun _ => none := .nil
  have hcreate := hnil.snoc (.create (hnone 0) (hnone 1) (by decide) (by decide) (by decide) false _) h₁
  have hfresh : Contents.Fresh (Function.update (fun _ => none) (.block 0)
      (some (.slot 1 1048528, [.slot 1 1048528]))) 2 := by
    intro self root objs hself
    rw [Function.update_apply] at hself
    split at hself
    · next heq =>
      obtain ⟨rfl, rfl⟩ := Prod.mk.inj (Option.some.inj hself)
      simp [heq, Owns, Addr.memory]
    · cases hself
  have halloc := hcreate.snoc (.alloc (Function.update_self ..) hfresh (by decide) (by decide) true _) h₂
  have hswap := halloc.snoc (.swapRoot (Function.update_self ..) List.mem_cons_self (by decide)
    (by decide)) h₃
  obtain ⟨-, hregions, -, -⟩ := arenas_hold_contents hswap fun _ => rfl
  obtain ⟨m, large, hm, hlayout⟩ := hregions (.block 0) (.block 2) _ (Function.update_self ..)
  exact ⟨w₃, _, m, large, hswap, hm, hlayout⟩

end VeronaRt.RegionArena
