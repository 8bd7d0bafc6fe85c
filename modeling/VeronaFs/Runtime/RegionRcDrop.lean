import VeronaFs.Runtime.RegionRcCycles

/-!
# Objects that lose their last reference

`RegionRc::decref`, with `dealloc_object`, and the first trace of `RegionRc::release_internal`.  Both
traces count off the references of an object that is dead, and go on with the objects whose count
becomes zero.  The objects that die are the ones that only dead objects refer to.
-/

namespace VeronaRt.RegionRc

open Foundation

variable {O : Type*} [DecidableEq O]

/-! ## Code -/

/-- A pop of a trace that counts off references.  The two traces differ in what they do with the open
entry point, in whether they pass over trivial objects, and in whether they push the entry points of
other regions. -/
def dropStep (onEntry : RegionRc O → O → Option (RegionRc O)) (trivial : O → Bool) (collects : Bool)
    (s : Dealloc O) (f : O) : Option (Dealloc O × List O) :=
  if f ∉ s.region.allocated then none
  else
    match s.region.cls f with
    | .openIso => (onEntry s.region f).map fun r => ({ s with region := r }, [])
    | .marked | .unmarked =>
      (s.region.decrefInner f).map fun r =>
        if r.refCount f = 0 then
          if trivial f then (⟨r, f :: s.gc, s.subRegions⟩, r.fields f)
          else (⟨r.emit (.finalise f), f :: s.gc, r.finaliser f ++ s.subRegions⟩, r.fields f)
        else ({ s with region := r }, [])
    -- The count of the component is looked up, but the object itself is decremented.
    | .sccPtr => none
    | .rc => some ({ s with region := s.region.emit (.decref f) }, [])
    | .shared => some ({ s with region := s.region.emit (.release f) }, [])
    | .iso => some (if collects then { s with subRegions := f :: s.subRegions } else s, [])
    | .pending => none
    | .nonatomicRc => none

/-- Count off a reference to the entry point, which there should be another one to. -/
def decrefEntry (r : RegionRc O) (o : O) : Option (RegionRc O) :=
  (r.decrefInner o).bind fun r => if r.refCount o = 0 then none else some r

/-- A pop of `dealloc_object`. -/
def deallocObjectStep : Dealloc O → O → Option (Dealloc O × List O) :=
  dropStep decrefEntry (fun _ => false) true

/-- Deallocate an object whose count is zero, with the objects whose counts become zero then. -/
def deallocObject (fuel : ℕ) (r : RegionRc O) (o : O) : Option (RegionRc O) :=
  (drain deallocObjectStep fuel ⟨r, [o], []⟩ (r.fields o)).map fun s =>
    s.subRegions.foldl (fun r o => r.emit (.releaseInternal o)) (s.gc.foldl freeObject s.region)

/-- Decrement the count of an object, and deallocate it if there is no other reference. -/
def decref (fuel : ℕ) (r : RegionRc O) (o : O) : Option (RegionRc O × Bool) :=
  (r.decrefInner o).bind fun r =>
    if r.refCount o = 0 then (r.deallocObject fuel o).map fun r => (r, true)
    else if r.colour o ≠ .black then
      some ({ r.setRcColour o .black with linsStack := o :: r.linsStack }, false)
    else some (r, false)

/-! ## What dies -/

/-- The object dies with `o`: it is `o` itself, or nothing but objects that die refers to it. -/
inductive Dies (r : RegionRc O) (held : O → ℕ) (o : O) : O → Prop
  /-- The object itself. -/
  | self : Dies r held o o
  /-- An object to which nothing refers but objects that die. -/
  | other {x : O} (hx : x ∈ r.allocated) (hin : r.Inner x) (hheld : held x = 0)
    (hall : ∀ y ∈ r.allocated, x ∈ r.fields y → Dies r held o y) : Dies r held o x

omit [DecidableEq O] in
/-- What dies depends only on the objects, the references and what is held of the other objects. -/
theorem Dies.congr {r r' : RegionRc O} {held held' : O → ℕ} {o x : O} (h : Dies r held o x)
    (hallocated : r'.allocated = r.allocated) (hfields : r'.fields = r.fields) (hcls : r'.cls = r.cls)
    (hheld : ∀ y, y ≠ o → held' y = held y) : Dies r' held' o x := by
  induction h with
  | self => exact .self
  | @other x hx hin hzero _ ih =>
    rcases eq_or_ne x o with rfl | hne
    · exact .self
    · refine .other (hallocated ▸ hx) ?_ ((hheld x hne).trans hzero) fun y hy hxy => ?_
      · rwa [Inner, hcls]
      · rw [hallocated] at hy
        rw [hfields] at hxy
        exact ih y hy hxy

/-- How often a trace that counts off references finds the entry point of a region at an object. -/
def foundBy (r : RegionRc O) (collects : Bool) (s x : O) : ℕ :=
  (r.finaliser x).count s + if collects then (r.fields x).count s else 0

/-- The invariant of a trace that counts off references from an object `start` on, when `dropped` are
the other objects that are dead. -/
structure Dropping (iso : O) (held : O → ℕ) (start : O) (trivial : O → Bool) (collects : Bool)
    (s₀ s : Dealloc O) (stack dropped : List O) : Prop where
  /-- The references do not change. -/
  fields_eq : s.region.fields = s₀.region.fields
  /-- The finalisers do not change. -/
  finaliser_eq : s.region.finaliser = s₀.region.finaliser
  /-- No object is deallocated yet. -/
  allocated_eq : s.region.allocated = s₀.region.allocated
  /-- The classes do not change. -/
  cls_eq : s.region.cls = s₀.region.cls
  /-- The colours do not change. -/
  colour_eq : s.region.colour = s₀.region.colour
  /-- The Lins stack does not change. -/
  linsStack_eq : s.region.linsStack = s₀.region.linsStack
  /-- The objects to deallocate. -/
  gc_eq : s.gc = dropped ++ s₀.gc
  /-- No object dies twice. -/
  nodup : (start :: dropped).Nodup
  /-- What dies is an object of the region. -/
  dropped_mem : ∀ x ∈ dropped, x ∈ s₀.region.allocated ∧ s₀.region.Inner x ∧ x ≠ iso
  /-- The references of the objects that are not dead, and those on the stack, are counted. -/
  refCount_eq : ∀ y ∈ s₀.region.allocated, s₀.region.Inner y → s.region.refCount y =
    held y + stack.count y +
      refs s₀.region.fields (s₀.region.allocated \ (start :: dropped).toFinset) y
  /-- A dead object has no reference. -/
  zero : ∀ x ∈ start :: dropped, s.region.refCount x = 0
  /-- The other objects have references. -/
  pos : ∀ y ∈ s₀.region.allocated, s₀.region.Inner y → y ∉ start :: dropped →
    0 < s.region.refCount y
  /-- Only objects to which dead objects refer are dead. -/
  dies : ∀ x ∈ start :: dropped, Dies s₀.region held start x
  /-- The stack has allocated objects. -/
  stack_mem : ∀ y ∈ stack, y ∈ s₀.region.allocated
  /-- The dead objects are finalised. -/
  events_eq : ∃ new, s.region.events = s₀.region.events ++ new ∧
    (∀ x, new.count (.finalise x) = if x ∈ dropped ∧ trivial x = false then 1 else 0) ∧
    ∀ x, .destructor x ∉ new ∧ .dealloc x ∉ new ∧ .releaseInternal x ∉ new
  /-- The entry points of regions that are found. -/
  count_eq : ∀ x, s₀.region.cls x = .iso →
    s.subRegions.count x + (if collects then stack.count x else 0) =
      s₀.subRegions.count x + (if collects then (s₀.region.fields start).count x else 0) +
        (dropped.map (s₀.region.foundBy collects x)).sum
  /-- No dead object refers to an immutable object that is not the root of its component, but to those
  on the stack. -/
  plain : ∀ x ∈ start :: dropped, ∀ y ∈ s₀.region.fields x, s₀.region.cls y = .sccPtr → y ∈ stack

namespace Dropping

variable {iso start f : O} {held : O → ℕ} {trivial : O → Bool} {collects : Bool} {s₀ s : Dealloc O}
  {stack dropped : List O}

/-- A dead object is not on the stack. -/
theorem not_mem_of_dead (h : Dropping iso held start trivial collects s₀ s (f :: stack) dropped)
    (hmem : f ∈ s₀.region.allocated) (hin : s₀.region.Inner f) : f ∉ start :: dropped := by
  intro hdead
  have hcount := h.refCount_eq f hmem hin
  rw [h.zero f hdead, List.count_cons_self] at hcount
  omega

/-- Something leaves the stack that is not an object of the region. -/
theorem skip {r : RegionRc O} {subRegions : List O}
    (h : Dropping iso held start trivial collects s₀ s (f :: stack) dropped)
    (hout : ¬ s₀.region.Inner f) (hscc : s₀.region.cls f ≠ .sccPtr)
    (hfields : r.fields = s.region.fields) (hfinaliser : r.finaliser = s.region.finaliser)
    (hallocated : r.allocated = s.region.allocated) (hcls : r.cls = s.region.cls)
    (hcolour : r.colour = s.region.colour) (hlins : r.linsStack = s.region.linsStack)
    (hcounts : r.refCount = s.region.refCount)
    (hevents : ∃ new, r.events = s.region.events ++ new ∧ ∀ x, .finalise x ∉ new ∧
      .destructor x ∉ new ∧ .dealloc x ∉ new ∧ .releaseInternal x ∉ new)
    (hregions : ∀ x, s₀.region.cls x = .iso → subRegions.count x =
      s.subRegions.count x + if collects ∧ f = x then 1 else 0) :
    Dropping iso held start trivial collects s₀ ⟨r, s.gc, subRegions⟩ stack dropped := by
  have hne {y : O} (hin : s₀.region.Inner y) : f ≠ y := fun heq => hout (heq ▸ hin)
  refine ⟨hfields.trans h.fields_eq, hfinaliser.trans h.finaliser_eq, hallocated.trans h.allocated_eq,
    hcls.trans h.cls_eq, hcolour.trans h.colour_eq, hlins.trans h.linsStack_eq, h.gc_eq, h.nodup,
    h.dropped_mem, fun y hy hin => ?_, fun x hx => ?_, fun y hy hin hy' => ?_, h.dies,
    fun y hy => h.stack_mem y (List.mem_cons_of_mem f hy), ?_, fun x hx => ?_,
    fun x hx y hy hcls' => ?_⟩
  · have hcount := h.refCount_eq y hy hin
    rw [List.count_cons_of_ne (hne hin)] at hcount
    rw [hcounts]
    exact hcount
  · rw [hcounts]
    exact h.zero x hx
  · rw [hcounts]
    exact h.pos y hy hin hy'
  · obtain ⟨new, hnew, hfinalise, hother⟩ := h.events_eq
    obtain ⟨new', hnew', hnone⟩ := hevents
    refine ⟨new ++ new', ?_, fun x => ?_, fun x => ?_⟩
    · rw [hnew', hnew, List.append_assoc]
    · rw [List.count_append, hfinalise, List.count_eq_zero.mpr (hnone x).1, Nat.add_zero]
    · obtain ⟨hd, hf, hr⟩ := hother x
      obtain ⟨-, hd', hf', hr'⟩ := hnone x
      simp only [List.mem_append, not_or]
      exact ⟨⟨hd, hd'⟩, ⟨hf, hf'⟩, hr, hr'⟩
  · have hcount := h.count_eq x hx
    rw [hregions x hx, ← hcount]
    cases collects with
    | false => simp
    | true =>
      simp only [if_true, true_and, List.count_cons, beq_iff_eq]
      omega
  · refine (List.mem_cons.mp (h.plain x hx y hy hcls')).resolve_left ?_
    rintro rfl
    exact hscc hcls'

/-- A reference to an object of the region is counted off that is not the last one. -/
theorem lose (h : Dropping iso held start trivial collects s₀ s (f :: stack) dropped)
    (hmem : f ∈ s₀.region.allocated) (hin : s₀.region.Inner f) (hleft : 1 < s.region.refCount f) :
    Dropping iso held start trivial collects s₀
      { s with region := s.region.setRefCount f (s.region.refCount f - 1) } stack dropped := by
  have hdead := h.not_mem_of_dead hmem hin
  refine { h with
    refCount_eq := fun y hy hin' => ?_
    zero := fun x hx => ?_
    pos := fun y hy hin' hy' => ?_
    stack_mem := fun y hy => h.stack_mem y (List.mem_cons_of_mem f hy)
    count_eq := fun x hx => ?_
    plain := fun x hx y hy hcls => ?_ }
  · have hcount := h.refCount_eq y hy hin'
    change (s.region.setRefCount f (s.region.refCount f - 1)).refCount y = _
    rw [refCount_setRefCount]
    rcases eq_or_ne y f with rfl | hne
    · rw [List.count_cons_self] at hcount
      rw [if_pos rfl]
      omega
    · rw [List.count_cons_of_ne (Ne.symm hne)] at hcount
      rw [if_neg hne]
      exact hcount
  · change (s.region.setRefCount f (s.region.refCount f - 1)).refCount x = 0
    rw [refCount_setRefCount, if_neg fun heq : x = f => hdead (heq ▸ hx)]
    exact h.zero x hx
  · change 0 < (s.region.setRefCount f (s.region.refCount f - 1)).refCount y
    rw [refCount_setRefCount]
    split
    · omega
    · exact h.pos y hy hin' hy'
  · have hcount := h.count_eq x hx
    rwa [List.count_cons_of_ne fun heq => ?_] at hcount
    exact Shaped.cls_ne_iso (SameObjects.refl _) hin (heq ▸ hx)
  · refine (List.mem_cons.mp (h.plain x hx y hy hcls)).resolve_left ?_
    rintro rfl
    rw [Inner, hcls] at hin
    cases hin

/-- The last reference to an object of the region is counted off. -/
theorem drop {r : RegionRc O} {subRegions : List O}
    (h : Dropping iso held start trivial collects s₀ s (f :: stack) dropped)
    (hmem : f ∈ s₀.region.allocated) (hin : s₀.region.Inner f) (hne : f ≠ iso)
    (hclosed : ∀ y ∈ s₀.region.fields f, y ∈ s₀.region.allocated)
    (hlast : s.region.refCount f ≤ 1) (hfields : r.fields = s.region.fields)
    (hfinaliser : r.finaliser = s.region.finaliser) (hallocated : r.allocated = s.region.allocated)
    (hcls : r.cls = s.region.cls) (hcolour : r.colour = s.region.colour)
    (hlins : r.linsStack = s.region.linsStack)
    (hcounts : r.refCount = (s.region.setRefCount f (s.region.refCount f - 1)).refCount)
    (hevents : r.events = s.region.events ++ if trivial f then [] else [.finalise f])
    (hregions : ∀ x, s₀.region.cls x = .iso →
      subRegions.count x = s.subRegions.count x + (s₀.region.finaliser f).count x) :
    Dropping iso held start trivial collects s₀ ⟨r, f :: s.gc, subRegions⟩
      (s₀.region.fields f ++ stack) (f :: dropped) := by
  have hdead := h.not_mem_of_dead hmem hin
  have hfstart : f ≠ start := fun heq => hdead (heq ▸ List.mem_cons_self)
  have hfdropped : f ∉ dropped := fun hx => hdead (List.mem_cons_of_mem start hx)
  have hset : s₀.region.allocated \ (start :: f :: dropped).toFinset =
      (s₀.region.allocated \ (start :: dropped).toFinset).erase f := by
    ext x
    simp only [List.toFinset_cons, Finset.mem_sdiff, Finset.mem_insert, List.mem_toFinset,
      Finset.mem_erase]
    tauto
  have hleft : f ∈ s₀.region.allocated \ (start :: dropped).toFinset :=
    Finset.mem_sdiff.mpr ⟨hmem, fun hx => hdead (List.mem_toFinset.mp hx)⟩
  have hcount := h.refCount_eq f hmem hin
  rw [List.count_cons_self] at hcount
  have hnone : held f = 0 ∧ stack.count f = 0 ∧
      refs s₀.region.fields (s₀.region.allocated \ (start :: dropped).toFinset) f = 0 := by omega
  have hall : ∀ y ∈ s₀.region.allocated, f ∈ s₀.region.fields y → y ∈ start :: dropped := by
    intro y hy hfy
    by_contra hy'
    have hpos := refs_pos_iff.mpr ⟨y, Finset.mem_sdiff.mpr
      ⟨hy, fun hx => hy' (List.mem_toFinset.mp hx)⟩, hfy⟩
    omega
  have hmem' {x : O} : x ∈ start :: f :: dropped ↔ x = f ∨ x ∈ start :: dropped := by
    simp only [List.mem_cons]
    tauto
  refine ⟨hfields.trans h.fields_eq, hfinaliser.trans h.finaliser_eq, hallocated.trans h.allocated_eq,
    hcls.trans h.cls_eq, hcolour.trans h.colour_eq, hlins.trans h.linsStack_eq, ?_, ?_,
    fun x hx => ?_, fun y hy hin' => ?_, fun x hx => ?_, fun y hy hin' hy' => ?_, fun x hx => ?_,
    fun y hy => ?_, ?_, fun x hx => ?_, fun x hx y hy hcls' => ?_⟩
  · change f :: s.gc = _
    rw [h.gc_eq]
    rfl
  · have hnodup := List.nodup_cons.mp h.nodup
    refine List.nodup_cons.mpr ⟨fun hx => ?_, List.nodup_cons.mpr ⟨hfdropped, hnodup.2⟩⟩
    exact (List.mem_cons.mp hx).elim (fun heq => hfstart heq.symm) hnodup.1
  · rcases List.mem_cons.mp hx with rfl | hx
    · exact ⟨hmem, hin, hne⟩
    · exact h.dropped_mem x hx
  · have hcount' := h.refCount_eq y hy hin'
    have herase := refs_erase s₀.region.fields hleft y
    change r.refCount y = _
    rw [hcounts, refCount_setRefCount, List.count_append, hset]
    rcases eq_or_ne y f with rfl | hne'
    · rw [List.count_cons_self] at hcount'
      rw [if_pos rfl]
      omega
    · rw [List.count_cons_of_ne (Ne.symm hne')] at hcount'
      rw [if_neg hne']
      omega
  · change r.refCount x = 0
    rw [hcounts, refCount_setRefCount]
    rcases hmem'.mp hx with rfl | hx
    · rw [if_pos rfl]
      omega
    · rw [if_neg fun heq : x = f => hdead (heq ▸ hx)]
      exact h.zero x hx
  · change 0 < r.refCount y
    rw [hmem', not_or] at hy'
    rw [hcounts, refCount_setRefCount, if_neg hy'.1]
    exact h.pos y hy hin' hy'.2
  · rcases hmem'.mp hx with rfl | hx
    · exact .other hmem hin hnone.1 fun y hy hxy => h.dies y (hall y hy hxy)
    · exact h.dies x hx
  · rcases List.mem_append.mp hy with hy | hy
    · exact hclosed y hy
    · exact h.stack_mem y (List.mem_cons_of_mem f hy)
  · obtain ⟨new, hnew, hfinalise, hother⟩ := h.events_eq
    refine ⟨new ++ if trivial f then [] else [.finalise f], ?_, fun x => ?_, fun x => ?_⟩
    · change r.events = _
      rw [hevents, hnew, List.append_assoc]
    · rw [List.count_append, hfinalise]
      rcases eq_or_ne x f with rfl | hxf
      · cases htrivial : trivial x <;> simp [hfdropped]
      · have hcons : x ∈ f :: dropped ↔ x ∈ dropped := by simp [hxf]
        have hnone : (if trivial f then [] else [ObjectEvent.finalise f]).count (.finalise x) = 0 := by
          cases trivial f <;> simp [Ne.symm hxf]
        rw [hnone, Nat.add_zero]
        simp only [hcons]
    · obtain ⟨hd, hf, hr⟩ := hother x
      cases trivial f <;> simp [hd, hf, hr]
  · have hcount' := h.count_eq x hx
    have hfx : f ≠ x := fun heq => Shaped.cls_ne_iso (SameObjects.refl _) hin (heq ▸ hx)
    change subRegions.count x + _ = _
    rw [hregions x hx, List.map_cons, List.sum_cons, foundBy, List.count_append]
    rw [List.count_cons_of_ne hfx] at hcount'
    cases collects with
    | false =>
      simp only [Bool.false_eq_true, if_false] at hcount' ⊢
      omega
    | true =>
      simp only [if_true] at hcount' ⊢
      omega
  · rcases hmem'.mp hx with rfl | hx
    · exact List.mem_append_left _ hy
    · refine List.mem_append_right _ ((List.mem_cons.mp (h.plain x hx y hy hcls')).resolve_left ?_)
      rintro rfl
      rw [Inner, hcls'] at hin
      cases hin

/-- A pop keeps the invariant, unless it meets an immutable object that is not the root of its
component. -/
theorem step {onEntry : RegionRc O → O → Option (RegionRc O)} (hr : Counted iso held s₀.region)
    (hentry : start = iso ∨ 0 < held iso ∧ onEntry = decrefEntry)
    (htrivial : ∀ x, trivial x = true → s₀.region.finaliser x = [])
    (h : Dropping iso held start trivial collects s₀ s (f :: stack) dropped) :
    (s₀.region.cls f = .sccPtr → dropStep onEntry trivial collects s f = none) ∧
    (s₀.region.cls f ≠ .sccPtr → ∃ s' pushed dropped',
      dropStep onEntry trivial collects s f = some (s', pushed) ∧
      Dropping iso held start trivial collects s₀ s' (pushed ++ stack) dropped' ∧
      (∀ y ∈ pushed, ∃ x ∈ dropped', y ∈ s₀.region.fields x) ∧
      width s₀.region.fields (s₀.region.allocated \ (start :: dropped').toFinset) + pushed.length ≤
        width s₀.region.fields (s₀.region.allocated \ (start :: dropped).toFinset)) := by
  have hmem : f ∈ s₀.region.allocated := h.stack_mem f List.mem_cons_self
  have hmem' : f ∈ s.region.allocated := by rwa [h.allocated_eq]
  rw [dropStep, if_neg (not_not.mpr hmem'), h.cls_eq]
  refine ⟨fun hscc => by rw [hscc], fun hscc => ?_⟩
  by_cases hin : s₀.region.Inner f
  · have hcls := hr.cls_eq hmem hin
    have hcount := h.refCount_eq f hmem hin
    rw [List.count_cons_self] at hcount
    have hdecref : s.region.decrefInner f =
        some (s.region.setRefCount f (s.region.refCount f - 1)) := by
      rw [decrefInner, if_pos]
      rw [hasRefCount, h.cls_eq, hcls]
      split <;> simp [hmem']
    have hself : (s.region.setRefCount f (s.region.refCount f - 1)).refCount f =
        s.region.refCount f - 1 := by rw [refCount_setRefCount, if_pos rfl]
    by_cases hiso : f = iso
    · -- The entry point has another reference.
      rw [if_pos hiso] at hcls
      have hstart : start ≠ iso := fun heq =>
        h.not_mem_of_dead hmem hin (hiso ▸ heq ▸ List.mem_cons_self)
      obtain ⟨hheld, hdecrefEntry⟩ := hentry.resolve_left hstart
      have hleft : 1 < s.region.refCount f := by
        rw [← hiso] at hheld
        omega
      have hnext : decrefEntry s.region f =
          some (s.region.setRefCount f (s.region.refCount f - 1)) := by
        rw [decrefEntry, hdecref, Option.bind_some, if_neg]
        omega
      rw [hcls, hdecrefEntry, hnext]
      exact ⟨_, [], dropped, rfl, h.lose hmem hin hleft, fun y hy => absurd hy List.not_mem_nil,
        le_rfl⟩
    · rw [if_neg hiso] at hcls
      rw [hcls, hdecref]
      simp only [Option.map_some, hself]
      have hfields : s.region.fields f = s₀.region.fields f := congrFun h.fields_eq f
      have hfinaliser : s.region.finaliser f = s₀.region.finaliser f := congrFun h.finaliser_eq f
      by_cases hzero : s.region.refCount f - 1 = 0
      · have hleft : f ∈ s₀.region.allocated \ (start :: dropped).toFinset :=
          Finset.mem_sdiff.mpr ⟨hmem, fun hx => h.not_mem_of_dead hmem hin (List.mem_toFinset.mp hx)⟩
        have hwidth : width s₀.region.fields
              (s₀.region.allocated \ (start :: f :: dropped).toFinset) + (s₀.region.fields f).length ≤
            width s₀.region.fields (s₀.region.allocated \ (start :: dropped).toFinset) := by
          have hset : s₀.region.allocated \ (start :: f :: dropped).toFinset =
              (s₀.region.allocated \ (start :: dropped).toFinset).erase f := by
            ext x
            simp only [List.toFinset_cons, Finset.mem_sdiff, Finset.mem_insert, List.mem_toFinset,
              Finset.mem_erase]
            tauto
          rw [hset]
          exact (width_erase s₀.region.fields hleft).le
        rw [if_pos hzero]
        cases hf : trivial f with
        | false =>
          simp only [Bool.false_eq_true, if_false]
          refine ⟨_, _, f :: dropped, rfl, ?_, fun y hy => ⟨f, List.mem_cons_self, hfields ▸ hy⟩,
            hfields ▸ hwidth⟩
          change Dropping iso held start trivial collects s₀ _ (s.region.fields f ++ stack) _
          rw [hfields]
          refine h.drop hmem hin hiso (hr.fields_mem f hmem) (by omega) rfl rfl rfl rfl rfl rfl rfl ?_ ?_
          · rw [hf]
            rfl
          · intro x _
            rw [← hfinaliser, List.count_append, Nat.add_comm]
            rfl
        | true =>
          simp only [if_true]
          refine ⟨_, _, f :: dropped, rfl, ?_, fun y hy => ⟨f, List.mem_cons_self, hfields ▸ hy⟩,
            hfields ▸ hwidth⟩
          change Dropping iso held start trivial collects s₀ _ (s.region.fields f ++ stack) _
          rw [hfields]
          refine h.drop hmem hin hiso (hr.fields_mem f hmem) (by omega) rfl rfl rfl rfl rfl rfl rfl ?_ ?_
          · rw [hf, if_pos rfl, List.append_nil]
            rfl
          · intro x _
            rw [htrivial f hf]
            rfl
      · rw [if_neg hzero]
        exact ⟨_, [], dropped, rfl, h.lose hmem hin (by omega),
          fun y hy => absurd hy List.not_mem_nil, le_rfl⟩
  · have hout : (s₀.region.cls f).outer = true := Bool.eq_true_of_not_eq_false hin
    have hskip {event : ObjectEvent O} (hevent : ∀ x, event ≠ .finalise x ∧ event ≠ .destructor x ∧
        event ≠ .dealloc x ∧ event ≠ .releaseInternal x) (hregion : s₀.region.cls f ≠ .iso) :
        Dropping iso held start trivial collects s₀ { s with region := s.region.emit event } stack
          dropped := by
      refine h.skip hin hscc rfl rfl rfl rfl rfl rfl rfl ⟨[event], rfl, fun x => ?_⟩ fun x hx => ?_
      · obtain ⟨hf, hd, hde, hr⟩ := hevent x
        simp [hf.symm, hd.symm, hde.symm, hr.symm]
      · rw [if_neg, Nat.add_zero]
        rintro ⟨-, rfl⟩
        exact hregion hx
    cases hcls : s₀.region.cls f with
    | iso =>
      refine ⟨_, [], dropped, rfl, ?_, fun y hy => absurd hy List.not_mem_nil, le_rfl⟩
      have hnone : ∃ new, s.region.events = s.region.events ++ new ∧ ∀ x, .finalise x ∉ new ∧
          .destructor x ∉ new ∧ .dealloc x ∉ new ∧ .releaseInternal x ∉ new := ⟨[], by simp, by simp⟩
      cases collects with
      | false =>
        exact h.skip hin hscc rfl rfl rfl rfl rfl rfl rfl hnone fun x _ => by simp
      | true =>
        exact h.skip hin hscc rfl rfl rfl rfl rfl rfl rfl hnone fun x _ => by
          simp [List.count_cons]
    | sccPtr => exact absurd hcls hscc
    | rc =>
      exact ⟨_, [], dropped, rfl, hskip (by simp) (by simp [hcls]),
        fun y hy => absurd hy List.not_mem_nil, le_rfl⟩
    | shared =>
      exact ⟨_, [], dropped, rfl, hskip (by simp) (by simp [hcls]),
        fun y hy => absurd hy List.not_mem_nil, le_rfl⟩
    | unmarked => rw [hcls] at hout; cases hout
    | marked => rw [hcls] at hout; cases hout
    | pending => rw [hcls] at hout; cases hout
    | nonatomicRc => rw [hcls] at hout; cases hout
    | openIso => rw [hcls] at hout; cases hout

/-- The trace starts with the references of an object whose count is zero. -/
theorem init (hr : Counted iso held s₀.region) (hstart : start ∈ s₀.region.allocated)
    (hzero : s₀.region.refCount start = 0)
    (hlive : ∀ y ∈ s₀.region.allocated, s₀.region.Inner y → y ≠ start → 0 < s₀.region.refCount y) :
    Dropping iso held start trivial collects s₀ s₀ (s₀.region.fields start) [] where
  fields_eq := rfl
  finaliser_eq := rfl
  allocated_eq := rfl
  cls_eq := rfl
  colour_eq := rfl
  linsStack_eq := rfl
  gc_eq := rfl
  nodup := List.nodup_singleton start
  dropped_mem := fun x hx => absurd hx List.not_mem_nil
  refCount_eq := by
    intro y hy hin'
    have herase := refs_erase s₀.region.fields hstart y
    have hset : s₀.region.allocated \ [start].toFinset = s₀.region.allocated.erase start := by
      rw [List.toFinset_cons, List.toFinset_nil, insert_empty_eq, Finset.sdiff_singleton_eq_erase]
    rw [hset, hr.refCount_eq y hy hin']
    omega
  zero := by
    intro x hx
    rw [List.mem_singleton.mp hx]
    exact hzero
  pos := fun y hy hin' hy' => hlive y hy hin' fun heq => hy' (heq ▸ List.mem_singleton_self _)
  dies := by
    intro x hx
    rw [List.mem_singleton.mp hx]
    exact .self
  stack_mem := hr.fields_mem start hstart
  events_eq := ⟨[], by simp, by simp, by simp⟩
  count_eq := fun _ _ => rfl
  plain := by
    intro x hx y hy _
    rwa [List.mem_singleton.mp hx] at hy

/-- In the end what is dead is what dies. -/
theorem mem_iff (h : Dropping iso held start trivial collects s₀ s [] dropped) {x : O} :
    x ∈ start :: dropped ↔ Dies s₀.region held start x := by
  refine ⟨h.dies x, fun hx => ?_⟩
  induction hx with
  | self => exact List.mem_cons_self
  | @other x hx hin hheld _ ih =>
    by_contra hdead
    have hcount := h.refCount_eq x hx hin
    have hpos := h.pos x hx hin hdead
    have hrefs : refs s₀.region.fields (s₀.region.allocated \ (start :: dropped).toFinset) x = 0 := by
      by_contra hne
      obtain ⟨y, hy, hxy⟩ := refs_pos_iff.mp (Nat.pos_of_ne_zero hne)
      obtain ⟨hy, hy'⟩ := Finset.mem_sdiff.mp hy
      exact hy' (List.mem_toFinset.mpr (ih y hy hxy))
    rw [List.count_nil] at hcount
    omega

/-- The region without the objects that are dead is as it is between collections. -/
theorem counted (hr : Counted iso held s₀.region)
    (h : Dropping iso held start trivial collects s₀ s [] dropped) (hstart : s₀.region.Inner start)
    (hiso : start ≠ iso) {r : RegionRc O}
    (hallocated : r.allocated = s₀.region.allocated \ (start :: dropped).toFinset)
    (hfields : r.fields = s₀.region.fields) (hcls : r.cls = s₀.region.cls)
    (hcolour : r.colour = s₀.region.colour) (hcounts : r.refCount = s.region.refCount) :
    Counted iso held r := by
  have hmem {x : O} : x ∈ r.allocated ↔ x ∈ s₀.region.allocated ∧ x ∉ start :: dropped := by
    rw [hallocated, Finset.mem_sdiff, List.mem_toFinset]
  have hin {x : O} : r.Inner x ↔ s₀.region.Inner x := by rw [Inner, Inner, hcls]
  have hdead {x : O} (hx : x ∈ start :: dropped) : s₀.region.Inner x ∧ x ≠ iso := by
    rcases List.mem_cons.mp hx with rfl | hx
    · exact ⟨hstart, hiso⟩
    · exact (h.dropped_mem x hx).2
  have hcount {y : O} (hy : y ∈ s₀.region.allocated) (hin' : s₀.region.Inner y) :
      s.region.refCount y = held y + refs s₀.region.fields r.allocated y := by
    rw [h.refCount_eq y hy hin', List.count_nil, hallocated, Nat.add_zero]
  have hzero {y : O} (hy : y ∈ s₀.region.allocated) (hy' : y ∈ start :: dropped) :
      held y = 0 ∧ refs s₀.region.fields r.allocated y = 0 := by
    have heq := hcount hy (hdead hy').1
    rw [h.zero y hy'] at heq
    omega
  refine ⟨⟨hmem.mpr ⟨hr.iso_mem, fun hx => (hdead hx).2 rfl⟩, ?_, fun o ho hne => ?_,
    fun o ho f hf => ?_, fun o ho hout => ?_⟩, fun o ho ho' => ?_, fun o ho => ?_, fun o ho => ?_⟩
  · rw [hcls, hr.cls_iso]
  · rw [hcls]
    exact hr.cls_other o (hmem.mp ho).1 hne
  · rw [hfields] at hf
    have hf' := hr.fields_mem o (hmem.mp ho).1 f hf
    refine hmem.mpr ⟨hf', fun hx => ?_⟩
    have hpos := refs_pos_iff.mpr ⟨o, ho, hf⟩
    have hnone := (hzero hf' hx).2
    omega
  · rw [hcls] at hout
    rw [hfields]
    exact hr.fields_outer o (hmem.mp ho).1 hout
  · rw [hcounts, hfields]
    exact hcount (hmem.mp ho).1 (hin.mp ho')
  · obtain ⟨ho', hin'⟩ := hr.held_mem o ho
    refine ⟨hmem.mpr ⟨ho', fun hx => ?_⟩, hin.mpr hin'⟩
    have hnone := (hzero ho' hx).1
    omega
  · rw [hcolour]
    exact hr.not_red o (hmem.mp ho).1

/-- The trace ends if nothing that dies refers to an immutable object that is not the root of its
component. -/
theorem total {onEntry : RegionRc O → O → Option (RegionRc O)} {fuel : ℕ}
    (hr : Counted iso held s₀.region) (hstart : start ∈ s₀.region.allocated)
    (hentry : start = iso ∨ 0 < held iso ∧ onEntry = decrefEntry)
    (htrivial : ∀ x, trivial x = true → s₀.region.finaliser x = [])
    (hgc : ∀ x ∈ s₀.gc, x = start)
    (h : Dropping iso held start trivial collects s₀ s₀ (s₀.region.fields start) [])
    (hplain : ∀ x, Dies s₀.region held start x → ∀ y ∈ s₀.region.fields x, s₀.region.cls y ≠ .sccPtr)
    (hfuel : width s₀.region.fields s₀.region.allocated ≤ fuel) :
    ∃ s dropped, drain (dropStep onEntry trivial collects) fuel s₀ (s₀.region.fields start) = some s ∧
      Dropping iso held start trivial collects s₀ s [] dropped := by
  have hset {s : Dealloc O} {stack dropped : List O}
      (h : Dropping iso held start trivial collects s₀ s stack dropped) :
      (start :: s.gc).toFinset = (start :: dropped).toFinset := by
    ext x
    simp only [h.gc_eq, List.mem_toFinset, List.mem_cons, List.mem_append]
    have hbase := hgc x
    tauto
  have hwidth : width s₀.region.fields (s₀.region.allocated \ (start :: s₀.gc).toFinset) +
      (s₀.region.fields start).length ≤ fuel := by
    have herase := width_erase s₀.region.fields hstart
    rw [hset h, List.toFinset_cons, List.toFinset_nil, insert_empty_eq,
      Finset.sdiff_singleton_eq_erase]
    omega
  obtain ⟨s, hs, ⟨dropped, hend, -⟩⟩ := drain_total
    (I := fun s stack => ∃ dropped, Dropping iso held start trivial collects s₀ s stack dropped ∧
      ∀ y ∈ stack, s₀.region.cls y ≠ .sccPtr)
    (μ := fun s => width s₀.region.fields (s₀.region.allocated \ (start :: s.gc).toFinset))
    (fun s f stack ⟨dropped, hd, hcls⟩ => by
      obtain ⟨s', pushed, dropped', hstep, hd', hpushed, hle⟩ :=
        (hd.step hr hentry htrivial).2 (hcls f List.mem_cons_self)
      refine ⟨s', pushed, hstep, ⟨dropped', hd', fun y hy => ?_⟩, ?_⟩
      · rcases List.mem_append.mp hy with hy | hy
        · obtain ⟨x, hx, hxy⟩ := hpushed y hy
          exact hplain x (hd'.dies x (List.mem_cons_of_mem start hx)) y hxy
        · exact hcls y (List.mem_cons_of_mem f hy)
      · rw [hset hd, hset hd']
        exact hle)
    ⟨[], h, hplain start .self⟩ hwidth
  exact ⟨s, dropped, hs, hend⟩

/-- A trace that ends has found no immutable object that is not the root of its component. -/
theorem ended {onEntry : RegionRc O → O → Option (RegionRc O)} {fuel : ℕ}
    (hr : Counted iso held s₀.region)
    (hentry : start = iso ∨ 0 < held iso ∧ onEntry = decrefEntry)
    (htrivial : ∀ x, trivial x = true → s₀.region.finaliser x = [])
    (h : Dropping iso held start trivial collects s₀ s₀ (s₀.region.fields start) [])
    (hs : drain (dropStep onEntry trivial collects) fuel s₀ (s₀.region.fields start) = some s) :
    (∃ dropped, Dropping iso held start trivial collects s₀ s [] dropped) ∧
    ∀ x, Dies s₀.region held start x → ∀ y ∈ s₀.region.fields x, s₀.region.cls y ≠ .sccPtr := by
  obtain ⟨dropped, hend⟩ := drain_some
    (I := fun s stack => ∃ dropped, Dropping iso held start trivial collects s₀ s stack dropped)
    (fun s f stack s' pushed ⟨dropped, hd⟩ hstep => by
      obtain ⟨hscc, hstep'⟩ := hd.step hr hentry htrivial
      by_cases hcls : s₀.region.cls f = .sccPtr
      · rw [hscc hcls] at hstep
        cases hstep
      · obtain ⟨s'', pushed', dropped', heq, hd', -⟩ := hstep' hcls
        rw [heq] at hstep
        injection hstep with hstep
        injection hstep with hs' hpushed
        subst hs' hpushed
        exact ⟨dropped', hd'⟩) ⟨[], h⟩ hs
  refine ⟨⟨dropped, hend⟩, fun x hx y hy hcls => ?_⟩
  exact List.not_mem_nil (hend.plain x (hend.mem_iff.mpr hx) y hy hcls)

end Dropping

end VeronaRt.RegionRc
