import VeronaFs.Runtime.RegionRcRelease

/-!
# What is done to objects that die

An object of a region with reference counts dies when its last reference is given back, when it is in a
cycle that is collected, or with its region.  In each case it is finalised, destructed and deallocated
exactly once, and the regions that it owns are released exactly once, but only under conditions:
`dealloc_object` does not finalise the object itself, `dealloc_object` and `dealloc_reds` find the entry
point of a region by the trace and by the finaliser, and `release_internal` finds an object twice or not
at all.
-/

namespace VeronaRt.RegionRc

open Foundation

variable {O : Type*} [DecidableEq O] {r r' : RegionRc O} {iso o p : O} {held : O → ℕ}
  {trivial hasFinaliser : O → Bool} {fuel : ℕ}

/-! ## Counting what is done -/

/-- How often it is done to an object: the objects that die, those that are finalised and the regions
that are released. -/
structure Deaths (new : List (ObjectEvent O)) (dead finalised regions : List O) : Prop where
  /-- The dead objects are finalised. -/
  finalise_eq : ∀ x, new.count (.finalise x) = finalised.count x
  /-- The dead objects are destructed. -/
  destructor_eq : ∀ x, new.count (.destructor x) = dead.count x
  /-- The dead objects are deallocated. -/
  dealloc_eq : ∀ x, new.count (.dealloc x) = dead.count x
  /-- The regions are released. -/
  release_eq : ∀ x, new.count (.releaseInternal x) = regions.count x

/-- Nothing is done. -/
theorem Deaths.nil : Deaths ([] : List (ObjectEvent O)) [] [] [] :=
  ⟨fun _ => rfl, fun _ => rfl, fun _ => rfl, fun _ => rfl⟩

/-- What is done in two parts. -/
theorem Deaths.append {new new' : List (ObjectEvent O)} {dead dead' finalised finalised' regions
    regions' : List O} (h : Deaths new dead finalised regions)
    (h' : Deaths new' dead' finalised' regions') :
    Deaths (new ++ new') (dead ++ dead') (finalised ++ finalised') (regions ++ regions') := by
  refine ⟨fun x => ?_, fun x => ?_, fun x => ?_, fun x => ?_⟩
  · rw [List.count_append, List.count_append, h.finalise_eq, h'.finalise_eq]
  · rw [List.count_append, List.count_append, h.destructor_eq, h'.destructor_eq]
  · rw [List.count_append, List.count_append, h.dealloc_eq, h'.dealloc_eq]
  · rw [List.count_append, List.count_append, h.release_eq, h'.release_eq]

/-- The order of the objects does not matter. -/
theorem Deaths.perm {new : List (ObjectEvent O)} {dead dead' finalised finalised' regions : List O}
    (h : Deaths new dead finalised regions) (hdead : dead.Perm dead')
    (hfinalised : finalised.Perm finalised') : Deaths new dead' finalised' regions :=
  ⟨fun x => (h.finalise_eq x).trans (hfinalised.count_eq _),
    fun x => (h.destructor_eq x).trans (hdead.count_eq _),
    fun x => (h.dealloc_eq x).trans (hdead.count_eq _), h.release_eq⟩

/-- What is done when the objects of a list are destructed and deallocated. -/
theorem deaths_deallocEvents (gc : List O) : Deaths (deallocEvents gc) gc [] [] := by
  induction gc with
  | nil => exact Deaths.nil
  | cons o gc ih =>
    have hself : Deaths [ObjectEvent.destructor o, .dealloc o] [o] [] [] :=
      ⟨fun x => by simp, fun x => by simp [List.count_cons], fun x => by simp [List.count_cons],
        fun x => by simp⟩
    exact hself.append ih

/-- What is done when the regions of a list are released. -/
theorem deaths_releaseInternal (regions : List O) :
    Deaths (regions.map ObjectEvent.releaseInternal) [] [] regions := by
  have hinjective : Function.Injective (ObjectEvent.releaseInternal (O := O)) := fun _ _ h =>
    ObjectEvent.releaseInternal.inj h
  refine ⟨fun x => ?_, fun x => ?_, fun x => ?_, fun x => List.count_map_of_injective _ _ hinjective x⟩
  all_goals exact List.count_eq_zero.mpr fun hx => by simp at hx

/-- What is done when the objects of a list are finalised. -/
theorem deaths_finalise (os : List O) : Deaths (os.map ObjectEvent.finalise) [] os [] := by
  have hinjective : Function.Injective (ObjectEvent.finalise (O := O)) := fun _ _ h =>
    ObjectEvent.finalise.inj h
  refine ⟨fun x => List.count_map_of_injective _ _ hinjective x, fun x => ?_, fun x => ?_, fun x => ?_⟩
  all_goals exact List.count_eq_zero.mpr fun hx => by simp at hx

/-- What is done when dead objects are finalised. -/
theorem deaths_of_finalise {new : List (ObjectEvent O)} {dropped : List O} (hnodup : dropped.Nodup)
    (hfinalise : ∀ x, new.count (.finalise x) = if x ∈ dropped ∧ trivial x = false then 1 else 0)
    (hother : ∀ x, .destructor x ∉ new ∧ .dealloc x ∉ new ∧ .releaseInternal x ∉ new) :
    Deaths new [] (dropped.filter fun x => !trivial x) [] := by
  refine ⟨fun x => ?_, fun x => List.count_eq_zero.mpr (hother x).1,
    fun x => List.count_eq_zero.mpr (hother x).2.1, fun x => List.count_eq_zero.mpr (hother x).2.2⟩
  rw [hfinalise, (hnodup.filter _).count]
  simp [List.mem_filter]

/-- What is done to the objects that a collection of cycles deallocates. -/
theorem Gone.deaths {gc subRegions : List O} (h : Gone r p r' gc subRegions) :
    ∃ new, r'.events = r.events ++ new ∧ Deaths new gc gc subRegions := by
  refine ⟨_, h.events_eq, ?_⟩
  have hall := ((deaths_finalise gc.reverse).append (deaths_releaseInternal subRegions)).append
    (deaths_deallocEvents gc)
  refine ⟨fun x => ?_, hall.destructor_eq, hall.dealloc_eq, fun x => ?_⟩
  · rw [hall.finalise_eq]
    simp
  · rw [hall.release_eq]
    simp

/-- The finalisers add the entry points of regions that their objects refer to. -/
structure Reports (hasFinaliser : O → Bool) (r : RegionRc O) : Prop where
  /-- They add every entry point. -/
  count_eq : ∀ x ∈ r.allocated, ∀ s, r.cls s = .iso → (r.finaliser x).count s = (r.fields x).count s
  /-- What has no finaliser adds nothing. -/
  none : ∀ x, hasFinaliser x = false → r.finaliser x = []

/-- An object without a finaliser owns no region. -/
theorem Reports.cls_ne_iso {x s : O} (h : Reports hasFinaliser r) (hx : x ∈ r.allocated)
    (hnone : hasFinaliser x = false) (hs : s ∈ r.fields x) : r.cls s ≠ .iso := by
  intro hcls
  have hcount := h.count_eq x hx s hcls
  rw [h.none x hnone, List.count_nil] at hcount
  exact List.count_eq_zero.mp hcount.symm hs

/-! ## The last reference -/

/-- What `deallocObject` leaves. -/
structure Dropped (r : RegionRc O) (iso : O) (held : O → ℕ) (o : O) (r' : RegionRc O) : Prop where
  /-- The region is as it is between collections. -/
  counted : Counted iso held r'
  /-- The references do not change. -/
  fields_eq : r'.fields = r.fields
  /-- The finalisers do not change. -/
  finaliser_eq : r'.finaliser = r.finaliser
  /-- The classes do not change. -/
  cls_eq : r'.cls = r.cls
  /-- The colours do not change. -/
  colour_eq : r'.colour = r.colour
  /-- The Lins stack does not change. -/
  linsStack_eq : r'.linsStack = r.linsStack
  /-- What dies is deallocated. -/
  allocated_iff : ∀ x, x ∈ r'.allocated ↔ x ∈ r.allocated ∧ ¬ Dies r held o x
  /-- What is left has references. -/
  pos : ∀ x ∈ r'.allocated, r'.Inner x → 0 < r'.refCount x
  /-- What is done to the objects that die. -/
  deaths : ∃ new dropped regions, r'.events = r.events ++ new ∧
    Deaths new (dropped ++ [o]) dropped regions ∧ (o :: dropped).Nodup ∧
    (∀ x, x ∈ o :: dropped ↔ Dies r held o x) ∧
    ∀ x, r.cls x = .iso →
      regions.count x = (r.fields o).count x + (dropped.map (r.foundBy true x)).sum

/-- `deallocObject` deallocates what dies, unless something of it refers to an immutable object that is
not the root of its component. -/
theorem deallocObject_spec (h : Counted iso held r) (hheld : 0 < held iso) (ho : o ∈ r.allocated)
    (hin : r.Inner o) (hne : o ≠ iso) (hzero : r.refCount o = 0)
    (hlive : ∀ y ∈ r.allocated, r.Inner y → y ≠ o → 0 < r.refCount y)
    (hfuel : width r.fields r.allocated ≤ fuel) :
    ((∃ r', deallocObject fuel r o = some r') ↔
      ∀ x, Dies r held o x → ∀ y ∈ r.fields x, r.cls y ≠ .sccPtr) ∧
    ∀ r', deallocObject fuel r o = some r' → Dropped r iso held o r' := by
  have hentry : o = iso ∨ 0 < held iso ∧ decrefEntry = decrefEntry (O := O) := Or.inr ⟨hheld, rfl⟩
  have hstart : Dropping iso held o (fun _ => false) true ⟨r, [o], []⟩ ⟨r, [o], []⟩ (r.fields o) [] :=
    Dropping.init h ho hzero hlive
  have hdropped (r' : RegionRc O) (hr' : deallocObject fuel r o = some r') :
      Dropped r iso held o r' := by
    rw [deallocObject] at hr'
    obtain ⟨s, hs, rfl⟩ := Option.map_eq_some_iff.mp hr'
    obtain ⟨⟨dropped, hend⟩, -⟩ := hstart.ended h hentry (by simp) hs
    obtain ⟨hallocated, hfields, hfinaliser, hcls, hcounts, hcolour, hlins, hevents⟩ :=
      foldl_freeObject s.gc s.region
    rw [foldl_releaseInternal]
    have hgc : s.gc = dropped ++ [o] := hend.gc_eq
    have hmem (x : O) : x ∈ s.gc ↔ x ∈ o :: dropped := by
      rw [hgc, List.mem_append, List.mem_singleton, List.mem_cons, or_comm]
    have hset : (s.gc.foldl freeObject s.region).allocated =
        r.allocated \ (o :: dropped).toFinset := by
      rw [hallocated, hend.allocated_eq]
      ext x
      rw [Finset.mem_sdiff, Finset.mem_sdiff, List.mem_toFinset, List.mem_toFinset, hmem]
    have hcls' := hcls.trans hend.cls_eq
    have hleft (x : O) : x ∈ (s.gc.foldl freeObject s.region).allocated ↔
        x ∈ r.allocated ∧ x ∉ o :: dropped := by
      rw [hset, Finset.mem_sdiff, List.mem_toFinset]
    refine ⟨hend.counted h hin hne hset (hfields.trans hend.fields_eq) hcls'
      (hcolour.trans hend.colour_eq) hcounts, hfields.trans hend.fields_eq,
      hfinaliser.trans hend.finaliser_eq, hcls', hcolour.trans hend.colour_eq,
      hlins.trans hend.linsStack_eq, fun x => ?_, fun x hx hx' => ?_, ?_⟩
    · rw [← hend.mem_iff]
      exact hleft x
    · obtain ⟨hx, hdead⟩ := (hleft x).mp hx
      change (s.gc.foldl freeObject s.region).Inner x at hx'
      change 0 < (s.gc.foldl freeObject s.region).refCount x
      rw [Inner, hcls'] at hx'
      rw [hcounts]
      exact hend.pos x hx hx' hdead
    · obtain ⟨new, hnew, hfinalise, hother⟩ := hend.events_eq
      have hnodup := (List.nodup_cons.mp hend.nodup).2
      have hdeaths := ((deaths_of_finalise hnodup hfinalise hother).append
        (deaths_deallocEvents s.gc)).append (deaths_releaseInternal s.subRegions)
      refine ⟨new ++ deallocEvents s.gc ++ s.subRegions.map .releaseInternal, dropped, s.subRegions,
        ?_, ?_, hend.nodup, fun x => hend.mem_iff, fun x hx => ?_⟩
      · change (s.gc.foldl freeObject s.region).events ++ _ = _
        rw [hevents, hnew]
        simp only [List.append_assoc]
      · simpa [hgc] using hdeaths
      · have hcount := hend.count_eq x hx
        simpa using hcount
  refine ⟨⟨?_, fun hplain => ?_⟩, hdropped⟩
  · rintro ⟨r', hr'⟩
    rw [deallocObject] at hr'
    obtain ⟨s, hs, -⟩ := Option.map_eq_some_iff.mp hr'
    exact (hstart.ended h hentry (by simp) hs).2
  · obtain ⟨s, dropped, hs, -⟩ := hstart.total h ho hentry (by simp) (by simp) hplain hfuel
    rw [deallocObject, deallocObjectStep, hs]
    exact ⟨_, rfl⟩

variable {stale : O → RcColour} {jumpStack linsStack : List O}

/-- The region before the first trace of a release has the same objects. -/
theorem unowned_region (trivial : O → Bool) (r : RegionRc O) (iso : O) :
    (unowned trivial r iso).region.fields = r.fields ∧
    (unowned trivial r iso).region.finaliser = r.finaliser ∧
    (unowned trivial r iso).region.allocated = r.allocated ∧
    (unowned trivial r iso).region.cls = r.cls ∧
    (unowned trivial r iso).region.colour = r.colour ∧
    (unowned trivial r iso).region.linsStack = r.linsStack ∧
    (unowned trivial r iso).region.refCount = (r.setRefCount iso (r.refCount iso - 1)).refCount ∧
    (unowned trivial r iso).region.events =
      r.events ++ ([iso].filter fun x => !trivial x).map .finalise ∧
    (unowned trivial r iso).gc = [] ∧
    (unowned trivial r iso).subRegions = if trivial iso then [] else r.finaliser iso := by
  rw [unowned]
  cases htrivial : trivial iso <;> simp [htrivial, setRefCount, emit]

/-- What a release leaves, and what is done to the objects that it deallocates. -/
structure Released (trivial : O → Bool) (r : RegionRc O) (iso : O) (held : O → ℕ) (r' : RegionRc O)
    (collect : List O) : Prop where
  /-- What dies with the entry point or is reached from the Lins stack is deallocated. -/
  allocated_iff : ∀ x, x ∈ r'.allocated ↔
    x ∈ r.allocated ∧ ¬ (Dies r held iso x ∨ FromLins r iso x)
  /-- What is done to the objects that are deallocated. -/
  deaths : ∃ new dead, r'.events = r.events ++ new ∧
    Deaths new dead (dead.filter fun x => !trivial x) [] ∧ dead.Nodup ∧
    (∀ x, x ∈ dead ↔ Dies r held iso x ∨ FromLins r iso x) ∧
    ∀ x, r.cls x = .iso → collect.count x = (dead.map fun y => (r.finaliser y).count x).sum

/-- The region after both traces of a release: what dies with the entry point is `dropped`, and what is
reached from the Lins stack is `visited`. -/
structure Traced (trivial : O → Bool) (r : RegionRc O) (iso : O) (held : O → ℕ) (s₁ s₂ : Dealloc O)
    (dropped visited : List O) : Prop where
  /-- The first trace. -/
  dropping : ∃ held₀, Dropping iso held₀ iso trivial false (unowned trivial r iso) s₁ [] dropped
  /-- The second trace. -/
  cycling : Cycling iso trivial s₁ s₂ [] visited
  /-- What the first trace finds. -/
  mem_dropped : ∀ x, x ∈ iso :: dropped ↔ Dies r held iso x
  /-- What the second trace finds. -/
  mem_visited : ∀ x, x ∈ visited ↔ FromLins r iso x

/-- The objects that were found are deallocated. -/
theorem Traced.released {s₁ s₂ : Dealloc O} {dropped visited : List O} {r₃ : RegionRc O}
    (h : Traced trivial r iso held s₁ s₂ dropped visited)
    (htrivial : ∀ x, trivial x = true → r.finaliser x = []) (hr₃ : freeAll s₂.region s₂.gc = some r₃) :
    Released trivial r iso held ((r₃.closed iso).freeObject iso) s₂.subRegions := by
  obtain ⟨hfields, hfinaliser, hallocated, hcls, -, -, -, hevents, hgc, hregions⟩ :=
    unowned_region trivial r iso
  obtain ⟨held₀, hdropping⟩ := h.dropping
  obtain ⟨hnodup, -, rfl⟩ := freeAll_eq_some.mp hr₃
  have hgc' : s₂.gc = visited ++ dropped := by
    rw [h.cycling.gc_eq, hdropping.gc_eq, hgc, List.append_nil]
  rw [hgc'] at hnodup ⊢
  obtain ⟨hallocated', -, -, -, -, -, -, hevents'⟩ := foldl_freeObject (visited ++ dropped) s₂.region
  have hisoVisited : iso ∉ visited := fun hx => (h.cycling.visited_mem iso hx).2.2 rfl
  have hisoDropped := (List.nodup_cons.mp hdropping.nodup).1
  have hmem (x : O) : x ∈ iso :: (visited ++ dropped) ↔ Dies r held iso x ∨ FromLins r iso x := by
    rw [← h.mem_dropped, ← h.mem_visited, List.mem_cons, List.mem_cons, List.mem_append]
    tauto
  obtain ⟨new₁, hnew₁, hfinalise₁, hother₁⟩ := hdropping.events_eq
  obtain ⟨new₂, hnew₂, hfinalise₂, hother₂⟩ := h.cycling.events_eq
  have hdeaths₁ := deaths_of_finalise (List.nodup_cons.mp hdropping.nodup).2 hfinalise₁ hother₁
  have hdeaths₂ := deaths_of_finalise h.cycling.nodup hfinalise₂ hother₂
  have hdeaths := (((deaths_finalise ([iso].filter fun x => !trivial x)).append hdeaths₁).append
    hdeaths₂).append (deaths_deallocEvents (visited ++ dropped ++ [iso]))
  have hfinaliser₁ : s₁.region.finaliser = r.finaliser := hdropping.finaliser_eq.trans hfinaliser
  refine ⟨fun x => ?_, ([iso].filter fun x => !trivial x).map .finalise ++ new₁ ++ new₂ ++
    deallocEvents (visited ++ dropped ++ [iso]), iso :: (visited ++ dropped), ?_,
    hdeaths.perm (List.perm_append_singleton ..) ?_, List.nodup_cons.mpr ⟨?_, hnodup⟩, hmem,
    fun x hx => ?_⟩
  · rw [← hmem, List.mem_cons]
    change x ∈ ((visited ++ dropped).foldl freeObject s₂.region).allocated.erase iso ↔ _
    rw [Finset.mem_erase, hallocated', Finset.mem_sdiff, List.mem_toFinset, h.cycling.allocated_eq,
      hdropping.allocated_eq, hallocated]
    tauto
  · change (((visited ++ dropped).foldl freeObject s₂.region).events ++ [.destructor iso]) ++
      [.dealloc iso] = _
    rw [hevents', hnew₂, hnew₁, hevents]
    simp [deallocEvents]
  · rw [List.append_nil, List.append_assoc, ← List.filter_append, ← List.filter_append]
    have hswap : (dropped ++ visited).Perm (visited ++ dropped) := List.perm_append_comm
    exact (hswap.cons iso).filter _
  · rw [List.mem_append]
    exact fun hx => hx.elim hisoVisited hisoDropped
  · have hcycles := h.cycling.count_eq x
    have hdrops := hdropping.count_eq x (by rw [hcls, hx])
    rw [hfinaliser₁] at hcycles
    have hfound : (unowned trivial r iso).region.foundBy false x =
        fun y => (r.finaliser y).count x := by
      funext y
      rw [foundBy, hfinaliser]
      rfl
    simp only [hfound, Bool.false_eq_true, if_false, Nat.add_zero] at hdrops
    have hself : (unowned trivial r iso).subRegions.count x = (r.finaliser iso).count x := by
      rw [hregions]
      split
      · next hiso => rw [htrivial iso hiso]
      · rfl
    rw [List.map_cons, List.sum_cons, List.map_append, List.sum_append]
    omega

/-- The release of a region. -/
theorem releaseInternal_spec (h : Open iso held r)
    (hlive : ∀ y ∈ r.allocated, r.Inner y → 0 < r.refCount y)
    (htrivial : ∀ x, trivial x = true → r.finaliser x = [])
    (hfuel : width r.fields r.allocated + r.linsStack.length ≤ fuel) :
    ((∃ res, releaseInternal fuel trivial (r.closed iso) iso = some res) ↔ Releases r iso held) ∧
    ∀ r' collect, releaseInternal fuel trivial (r.closed iso) iso = some (r', collect) →
      Released trivial r iso held r' collect := by
  obtain ⟨hfields, hfinaliser, hallocated, hcls, hcolour, hlins, hcounts, hevents, hgc, hregions⟩ :=
    unowned_region trivial r iso
  set s₀ := unowned trivial r iso
  set held₀ := Function.update held iso (held iso - 1)
  have hcounted : Counted iso held₀ s₀.region :=
    (h.toCounted.decref h.held_iso).of_eq hallocated hfields hcls hcounts hcolour
  have hdies (x : O) : Dies s₀.region held₀ iso x ↔ Dies r held iso x := by
    constructor
    · intro hx
      exact hx.congr hallocated.symm hfields.symm hcls.symm fun y hy =>
        (Function.update_of_ne hy ..).symm
    · intro hx
      exact hx.congr hallocated hfields hcls fun y hy => Function.update_of_ne hy ..
  have htrivial₀ : ∀ x, trivial x = true → s₀.region.finaliser x = [] := fun x hx => by
    rw [hfinaliser, htrivial x hx]
  have hstart (hone : r.refCount iso = 1) :
      Dropping iso held₀ iso trivial false s₀ s₀ (s₀.region.fields iso) [] := by
    refine Dropping.init hcounted (hallocated ▸ h.iso_mem) ?_ fun y hy hin hne => ?_
    · rw [hcounts, refCount_setRefCount, if_pos rfl, hone]
    · rw [hcounts, refCount_setRefCount, if_neg hne]
      rw [hallocated] at hy
      rw [Inner, hcls] at hin
      exact hlive y hy hin
  have hpos : 0 < r.refCount iso := hlive iso h.iso_mem h.inner_iso
  have hnone (hone : r.refCount iso = 1) : ∀ x ∈ r.allocated, iso ∉ r.fields x := by
    intro x hx hmem
    have hcount := h.refCount_eq iso h.iso_mem h.inner_iso
    have hrefs := refs_pos_iff.mpr ⟨x, hx, hmem⟩
    have hheld := h.held_iso
    omega
  -- What the first trace leaves has the same shape.
  have hsame {s₁ : Dealloc O} {dropped : List O}
      (hd : Dropping iso held₀ iso trivial false s₀ s₁ [] dropped) :
      s₁.region.fields = r.fields ∧ s₁.region.allocated = r.allocated ∧ s₁.region.cls = r.cls ∧
        s₁.region.linsStack = r.linsStack ∧ Shaped iso s₁.region ∧
        (∀ x, trivial x = true → s₁.region.finaliser x = []) := by
    have hfields₁ := hd.fields_eq.trans hfields
    have hallocated₁ := hd.allocated_eq.trans hallocated
    have hcls₁ := hd.cls_eq.trans hcls
    refine ⟨hfields₁, hallocated₁, hcls₁, hd.linsStack_eq.trans hlins,
      h.toShaped.of_eq hallocated₁ hfields₁ hcls₁, fun x hx => ?_⟩
    rw [hd.finaliser_eq]
    exact htrivial₀ x hx
  have hfrom {s₁ : Dealloc O} {dropped : List O}
      (hd : Dropping iso held₀ iso trivial false s₀ s₁ [] dropped) (x : O) :
      FromLins s₁.region iso x ↔ FromLins r iso x := by
    obtain ⟨hfields₁, -, hcls₁, hlins₁, -, -⟩ := hsame hd
    rw [FromLins, FromLins, Inner, Inner, hcls₁, hlins₁]
    simp only [Reaches, hfields₁]
  have htraced (hone : r.refCount iso = 1) {s₁ s₂ : Dealloc O} {dropped visited : List O}
      (hd : Dropping iso held₀ iso trivial false s₀ s₁ [] dropped)
      (hc : Cycling iso trivial s₁ s₂ [] visited) :
      Traced trivial r iso held s₁ s₂ dropped visited := by
    obtain ⟨hfields₁, hallocated₁, -, -, hshaped, -⟩ := hsame hd
    refine ⟨⟨held₀, hd⟩, hc, fun x => hd.mem_iff.trans (hdies x), fun x => ?_⟩
    have hnone₁ : ∀ x ∈ s₁.region.allocated, iso ∉ s₁.region.fields x := by
      rw [hallocated₁, hfields₁]
      exact hnone hone
    exact (hc.mem_iff hshaped hnone₁).trans (hfrom hd x)
  have hblocks {s₁ : Dealloc O} {dropped : List O}
      (hd : Dropping iso held₀ iso trivial false s₀ s₁ [] dropped) (x : O) :
      Blocks s₁.region x ↔ Blocks r x := by
    obtain ⟨-, hallocated₁, hcls₁, -, -, -⟩ := hsame hd
    rw [Blocks, Blocks, hallocated₁, hcls₁]
  have hentry : iso = iso ∨
      0 < held₀ iso ∧ (fun _ _ => none : RegionRc O → O → Option (RegionRc O)) = decrefEntry :=
    Or.inl rfl
  -- What a release that ends has found.
  have hended {res : RegionRc O × List O}
      (hres : releaseInternal fuel trivial (r.closed iso) iso = some res) :
      r.refCount iso = 1 ∧ (∀ x, Dies r held iso x → ∀ y ∈ r.fields x, r.cls y ≠ .sccPtr) ∧
      ∃ s₁ s₂ r₃ dropped visited, Traced trivial r iso held s₁ s₂ dropped visited ∧
        freeAll s₂.region s₂.gc = some r₃ ∧ res = ((r₃.closed iso).freeObject iso, s₂.subRegions) ∧
        (∀ x, Blocks s₁.region x ↔ Blocks r x) ∧ s₁.region.linsStack = r.linsStack ∧
        s₁.region.fields = r.fields ∧ Shaped iso s₁.region := by
    obtain ⟨hzero, s₁, s₂, r₃, hs₁, hs₂, hr₃, -, hres⟩ :=
      (releaseInternal_eq_some h.cls_iso h.iso_mem).mp hres
    have hone : r.refCount iso = 1 := by omega
    rw [← hfields] at hs₁
    obtain ⟨⟨dropped, hd⟩, hplain⟩ := (hstart hone).ended hcounted hentry htrivial₀ hs₁
    obtain ⟨hfields₁, -, -, hlins₁, hshaped, htrivial₁⟩ := hsame hd
    obtain ⟨visited, hc⟩ := Cycling.ended hshaped htrivial₁ hs₂
    refine ⟨hone, fun x hx => ?_, s₁, s₂, r₃, dropped, visited, htraced hone hd hc, hr₃, hres,
      hblocks hd, hlins₁, hfields₁, hshaped⟩
    have hx' := hplain x ((hdies x).mpr hx)
    rwa [hfields, hcls] at hx'
  constructor
  · constructor
    · rintro ⟨res, hres⟩
      obtain ⟨hone, hplain, s₁, s₂, r₃, dropped, visited, ht, hr₃, -, hblocks', hlins₁, hfields₁,
        hshaped⟩ := hended hres
      have hnot {x : O} (hx : x ∈ s₁.region.allocated ∧ s₁.region.cls x ≠ .sccPtr ∧
          s₁.region.cls x ≠ .iso) : ¬ Blocks r x := by
        rw [← hblocks', Blocks]
        tauto
      refine ⟨hone, hplain, fun x hx => ?_, fun x hx y hy => ?_, fun x hx hx' => ?_⟩
      · obtain ⟨hmem, -, hout⟩ := (ht.cycling.lins x (hlins₁ ▸ hx)).resolve_left List.not_mem_nil
        exact hnot ⟨hmem, hout⟩
      · have hx' := (ht.mem_visited x).mpr hx
        obtain ⟨-, hout⟩ :=
          (ht.cycling.closed x hx' y (hfields₁ ▸ hy)).resolve_left List.not_mem_nil
        exact hnot ⟨hshaped.fields_mem x (ht.cycling.visited_mem x hx').1 y (hfields₁ ▸ hy), hout⟩
      · obtain ⟨hnodup, -⟩ := freeAll_eq_some.mp hr₃
        obtain ⟨held₁, hd⟩ := ht.dropping
        rw [ht.cycling.gc_eq, hd.gc_eq, hgc, List.append_nil] at hnodup
        have hvisited := (ht.mem_visited x).mpr hx
        refine (List.nodup_append'.mp hnodup).2.2 hvisited ?_
        refine (List.mem_cons.mp ((ht.mem_dropped x).mpr hx')).resolve_left ?_
        exact (ht.cycling.visited_mem x hvisited).2.2
    · intro hreleases
      obtain ⟨hone, hplain, hlinsStack, hcycles, hdisjoint⟩ := hreleases
      have hplain₀ : ∀ x, Dies s₀.region held₀ iso x → ∀ y ∈ s₀.region.fields x,
          s₀.region.cls y ≠ .sccPtr := by
        rw [hfields, hcls]
        exact fun x hx => hplain x ((hdies x).mp hx)
      have hfuel₀ : width s₀.region.fields s₀.region.allocated ≤ fuel := by
        rw [hfields, hallocated]
        omega
      obtain ⟨s₁, dropped, hs₁, hd⟩ := (hstart hone).total hcounted (hallocated ▸ h.iso_mem) hentry
        htrivial₀ (by simp [hgc]) hplain₀ hfuel₀
      obtain ⟨hfields₁, hallocated₁, hcls₁, hlins₁, hshaped, htrivial₁⟩ := hsame hd
      have hfuel₁ : width s₁.region.fields s₁.region.allocated + s₁.region.linsStack.length ≤ fuel := by
        rw [hfields₁, hallocated₁, hlins₁]
        exact hfuel
      obtain ⟨s₂, visited, hs₂, hc⟩ := Cycling.total hshaped htrivial₁
        (fun x hx => (hblocks hd x).not.mpr (hlinsStack x (hlins₁ ▸ hx)))
        (fun x hx y hy => (hblocks hd y).not.mpr (hcycles x ((hfrom hd x).mp hx) y (hfields₁ ▸ hy)))
        hfuel₁
      have ht := htraced hone hd hc
      have hgc₂ : s₂.gc = visited ++ dropped := by
        rw [hc.gc_eq, hd.gc_eq, hgc, List.append_nil]
      have hfree : freeAll s₂.region s₂.gc = some (s₂.gc.foldl freeObject s₂.region) := by
        refine freeAll_eq_some.mpr ⟨?_, fun x hx => ?_, rfl⟩
        · rw [hgc₂]
          refine List.nodup_append'.mpr ⟨hc.nodup, (List.nodup_cons.mp hd.nodup).2, fun x hx hx' => ?_⟩
          exact hdisjoint x ((ht.mem_visited x).mp hx)
            ((ht.mem_dropped x).mp (List.mem_cons_of_mem iso hx'))
        · rw [hc.allocated_eq]
          rw [hgc₂] at hx
          rcases List.mem_append.mp hx with hx | hx
          · exact (hc.visited_mem x hx).1
          · rw [hd.allocated_eq]
            exact (hd.dropped_mem x hx).1
      have hopen : (s₂.gc.foldl freeObject s₂.region).cls iso = .openIso := by
        obtain ⟨-, -, -, hcls₃, -⟩ := foldl_freeObject s₂.gc s₂.region
        rw [hcls₃, hc.cls_eq, if_neg fun hx => (hc.visited_mem iso hx).2.2 rfl, hshaped.cls_iso]
      rw [hfields] at hs₁
      exact ⟨_, (releaseInternal_eq_some h.cls_iso h.iso_mem).mpr ⟨by omega, s₁, s₂, _, hs₁, hs₂, hfree,
        hopen, rfl⟩⟩
  · intro r' collect hres
    obtain ⟨-, -, s₁, s₂, r₃, dropped, visited, ht, hr₃, heq, -⟩ := hended hres
    obtain ⟨rfl, rfl⟩ := Prod.mk.inj heq
    exact ht.released htrivial hr₃

/-- What is found is an object of the region. -/
theorem Releases.mem_of_found {x : O} (hr : Releases r iso held) (h : Open iso held r)
    (hx : Dies r held iso x ∨ FromLins r iso x) : x ∈ r.allocated := by
  rcases hx with hx | ⟨-, l, hl, -, hreach⟩
  · cases hx with
    | self => exact h.iso_mem
    | other hx _ _ _ => exact hx
  · have hl' := hr.lins l hl
    rw [Blocks, not_or, not_not] at hl'
    exact h.mem_of_reaches hl'.1 hreach

/-- The references that are held outside. -/
def heldOnce (o : ℕ) : ℕ := if o = 0 ∨ o = 1 then 1 else 0

end VeronaRt.RegionRc
