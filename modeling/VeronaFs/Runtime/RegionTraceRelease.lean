import VeronaFs.Runtime.RegionTraceGc

/-!
# The release of a trace region

`RegionTrace::release_internal`.  A release sweeps both rings with the entry point, so that every object
of the region is deallocated, and then deallocates the metadata object.  The entry points that the
finalisers add, in a release as in a collection, are those of the objects that are finalised.
-/

set_option linter.unusedSectionVars false

namespace VeronaRt.RegionTrace

open Foundation

variable {O : Type*} [DecidableEq O] {D : Descriptors O} {r r' : RegionTrace O} {iso x : O}
  {ring ring' primaryRing : RingKind} {objects objects' all prim sec : List O}
  {finish finish' : Option O} {fuel : ℕ}

/-! ## Code -/

/-- Release the region with the entry point `o`: every object is collected, and then the metadata
object is deallocated.  A region with additional roots is not released. -/
def releaseInternal (D : Descriptors O) (fuel : ℕ) (sizeclass : ℕ → ℕ) (r : RegionTrace O) (o : O)
    (collect : List O) : Option (RegionTrace O × List O) :=
  if r.cls o = .iso ∧ r.additionalEntryPoints = [] then
    (sweep D fuel sizeclass true r o collect).map fun s => (s.1.dealloc s.1.self, s.2)
  else none

/-! ## A ring -/

/-- What the sweep of all objects of a ring leaves. -/
structure SweptAll (r : RegionTrace O) (ring primaryRing : RingKind) (all : List O)
    (r' : RegionTrace O) : Prop where
  /-- The region is the same. -/
  self_eq : r'.self = r.self
  /-- The classes of other objects are the same. -/
  cls_eq : ∀ x ∉ all, r'.cls x = r.cls x
  /-- The links of other objects are the same. -/
  next_eq : ∀ x ∉ all, (x = r.self → ring ≠ primaryRing) → r'.next x = r.next x
  /-- The secondary ring is the same when the primary one is swept. -/
  nextNotRoot_eq : ring = primaryRing → r'.nextNotRoot = r.nextNotRoot
  /-- So is its last object. -/
  lastNotRoot_eq : ring = primaryRing → r'.lastNotRoot = r.lastNotRoot
  /-- The objects are deallocated. -/
  allocated_eq : r'.allocated = r.allocated \ all.toFinset
  /-- What is done to the objects. -/
  events_eq : r'.events = r.events ++ ringEvents ring all

/-- All objects of a ring, the entry point with the primary one. -/
def ringAll (ring primaryRing : RingKind) (objects : List O) (finish : Option O) : List O :=
  if ring = primaryRing then objects ++ finish.toList else objects

/-- A ring without marks is dead. -/
theorem dead_eq (hcls : ∀ x ∈ objects, r.cls x ≠ .marked) : dead r objects = objects :=
  List.filter_eq_self.mpr fun x hx => decide_eq_true (hcls x hx)

/-- The end of the loop when it has passed all objects of the secondary ring. -/
theorem Sweeping.end_secondary {s : Sweep O}
    (hs : Sweeping r ring primaryRing objects [] (some r.self) s) (hfuel : 1 ≤ fuel) :
    sweepLoop D ring primaryRing true fuel s = some s := by
  obtain ⟨fuel, rfl⟩ := Nat.exists_eq_add_of_le' hfuel
  have hp : s.p = some r.self := hs.path_todo
  rw [sweepLoop, if_pos (by rw [hp, hs.self_eq])]

/-- The end of the loop when it has passed all objects of the primary ring but the entry point. -/
theorem Sweeping.end_primary {s : Sweep O} (hs : Sweeping r ring primaryRing objects [] (some iso) s)
    (hcls : r.cls iso = .iso) (hnext : r.next iso = some r.self) (hmem : iso ∈ r.allocated)
    (hout : iso ∉ r.self :: objects) (hfuel : 2 ≤ fuel) :
    sweepLoop D ring primaryRing true fuel s =
      (sweepObject D ring s iso).map fun s' => { s' with p := some s.region.self } := by
  obtain ⟨fuel, rfl⟩ := Nat.exists_eq_add_of_le' hfuel
  rw [List.mem_cons, not_or] at hout
  have hp : s.p = some iso := hs.path_todo
  have hne : s.p ≠ some s.region.self := by
    rw [hp, hs.self_eq]
    exact fun heq => hout.1 (Option.some.inj heq)
  have hmem' : iso ∈ s.region.allocated := by
    rw [hs.allocated_eq]
    split
    · refine Finset.mem_sdiff.mpr ⟨hmem, fun hdead => hout.2 ?_⟩
      exact List.mem_of_mem_filter (List.mem_toFinset.mp hdead)
    · exact hmem
  have hcls' : s.region.cls iso = .iso := by
    rw [hs.cls_eq, if_neg hout.2, hcls]
  have hnext' : s.region.next iso = some s.region.self := by
    rw [hs.next_eq iso (by simpa using hout.2) fun heq => absurd heq hout.1, hnext, hs.self_eq]
  rw [sweepLoop, if_neg hne, hp, Option.bind_some, sweepStep, if_neg (not_not.mpr hmem'), hcls']
  simp only [hnext', ne_eq, not_true_eq_false, if_false, if_true]
  cases ring with
  | trivialRing =>
    rw [sweepObject]
    split
    · exact if_pos rfl
    · rfl
  | nonTrivialRing =>
    rw [sweepObject]
    split
    · exact if_pos rfl
    · rfl

/-- All objects of a ring are swept. -/
theorem sweepRing_all (h : Ring D ring primaryRing objects finish r)
    (hfinish : Finish r ring primaryRing objects finish)
    (hcls : ∀ x ∈ objects, r.cls x ≠ .marked)
    (htrivial : ring = primaryRing → ∀ x ∈ finish, D.isTrivial x = decide (ring = .trivialRing))
    (hfuel : objects.length + 2 ≤ fuel) (collect : List O) :
    ∃ r' collect', sweepRing D fuel ring primaryRing true r collect = some (r', collect') ∧
      SweptAll r ring primaryRing (ringAll ring primaryRing objects finish) r' := by
  obtain ⟨fuel, rfl⟩ := Nat.exists_eq_add_of_le' (Nat.le_of_add_right_le hfuel)
  have hstart : (if ring = primaryRing then r.getNext r.self else some r.nextNotRoot) =
      some (first ring primaryRing r) := by
    by_cases hring : ring = primaryRing
    · rw [first, if_pos hring, if_pos hring, getNext,
        if_pos ⟨h.allocated r.self List.mem_cons_self, h.cls_self⟩]
    · rw [first, if_neg hring, if_neg hring]
  obtain ⟨s, hloop, hs⟩ := (h.sweeping collect).loop h true fun _ => hcls
  rw [List.nil_append] at hs
  rw [sweepRing, hstart, Option.bind_some, hloop]
  have hself := hs.self_eq
  have hallocated := hs.allocated_eq
  have hevents := hs.events_eq
  rw [dead_eq hcls] at hallocated hevents
  have hnodup : (r.self :: objects).Nodup := h.nodup
  have hmem : ∀ x ∈ objects, x ∈ r.allocated := fun x hx => h.allocated x (List.mem_cons_of_mem _ hx)
  have hgc : ring = .nonTrivialRing → Path s.region.next objects.reverse s.gc none := by
    have hpath := hs.gc_path
    rwa [dead_eq hcls] at hpath
  have hcls' : ∀ x ∉ objects, s.region.cls x = r.cls x := fun x hx => by
    rw [hs.cls_eq, if_neg hx]
  have hnext : ∀ x ∉ objects, (x = r.self → ring ≠ primaryRing) → s.region.next x = r.next x :=
    fun x hx => hs.next_eq x (by simpa using hx)
  have hlength : objects.reverse.length ≤ fuel + objects.length := by
    rw [List.length_reverse]
    exact Nat.le_add_left ..
  have hnodup' : objects.reverse.Nodup := List.nodup_reverse.mpr (List.nodup_cons.mp hnodup).2
  rcases hfinish with ⟨hring, rfl⟩ | ⟨hring, iso, rfl, hiso, hnext_iso, hmem_iso, hout⟩
  · rw [hs.end_secondary (by omega), Option.bind_some, ringAll, if_neg hring]
    cases ring with
    | trivialRing =>
      exact ⟨_, _, rfl, hself, hcls', hnext, fun heq => absurd heq hring,
        fun heq => absurd heq hring, hallocated, hevents⟩
    | nonTrivialRing =>
      rw [if_neg (by decide)] at hallocated
      have hmem' : ∀ x ∈ objects.reverse, x ∈ s.region.allocated := fun x hx => by
        rw [hallocated]
        exact hmem x (List.mem_reverse.mp hx)
      simp only [gcLoop_spec (hgc rfl) hnodup' hmem' hlength, Option.map_some]
      refine ⟨_, _, rfl, hself, hcls', hnext, fun heq => absurd heq hring,
        fun heq => absurd heq hring, ?_, ?_⟩
      · rw [hallocated, List.toFinset_reverse]
      · rw [hevents, List.append_assoc]
        rfl
  · have hout' := hout
    rw [List.mem_cons, not_or] at hout'
    have htrivial' := htrivial hring iso rfl
    rw [hs.end_primary (D := D) hiso hnext_iso hmem_iso hout (by omega), ringAll, if_pos hring]
    have hlast : s.region.lastNotRoot = r.lastNotRoot := by
      rw [hs.lastNotRoot_eq, if_pos hring]
    have hfirst := hs.nextNotRoot_eq hring
    have hsplit {x : O} (hx : x ∉ objects ++ (some iso).toList) : x ∉ objects ∧ x ≠ iso := by
      simpa using hx
    cases ring with
    | trivialRing =>
      have htrivial' : D.isTrivial iso = true := htrivial'
      rw [sweepObject, if_pos htrivial', Option.map_some, Option.bind_some]
      refine ⟨_, _, rfl, hself, fun x hx => hcls' x (hsplit hx).1,
        fun x hx => hnext x (hsplit hx).1, fun _ => hfirst, fun _ => hlast, ?_, ?_⟩
      · change s.region.allocated.erase iso = _
        rw [hallocated, if_pos rfl]
        ext x
        simp only [Finset.mem_erase, Finset.mem_sdiff, List.mem_toFinset, List.mem_append,
          Option.toList_some, List.mem_singleton, not_or]
        tauto
      · change s.region.events ++ _ = _
        rw [hevents, List.append_assoc]
        simp [ringEvents, sweepEvent]
    | nonTrivialRing =>
      have htrivial' : D.isTrivial iso = false := htrivial'
      rw [if_neg (by decide)] at hallocated
      rw [sweepObject, if_pos htrivial', Option.map_some, Option.bind_some]
      have hpath : Path (Function.update s.region.next iso s.gc) (iso :: objects.reverse) (some iso)
          none := by
        refine ⟨rfl, ?_⟩
        rw [Function.update_self]
        exact (hgc rfl).update fun hx => hout'.2 (List.mem_reverse.mp hx)
      have hnodup'' : (iso :: objects.reverse).Nodup :=
        List.nodup_cons.mpr ⟨fun hx => hout'.2 (List.mem_reverse.mp hx), hnodup'⟩
      have hmem' : ∀ x ∈ iso :: objects.reverse, x ∈ s.region.allocated := fun x hx => by
        rw [hallocated]
        rcases List.mem_cons.mp hx with rfl | hx
        · exact hmem_iso
        · exact hmem x (List.mem_reverse.mp hx)
      have hfuel' : (iso :: objects.reverse).length ≤ fuel + objects.length := by
        rw [List.length_cons, List.length_reverse]
        omega
      have hloop' := gcLoop_spec (r := (s.region.emit (.finalise iso)).initNext iso s.gc) hpath
        hnodup'' hmem' hfuel'
      simp only [hloop', Option.map_some]
      refine ⟨_, _, rfl, hself, fun x hx => ?_, fun x hx hx' => ?_, fun _ => hfirst, fun _ => hlast,
        ?_, ?_⟩
      · exact (Function.update_of_ne (hsplit hx).2 _ _).trans (hcls' x (hsplit hx).1)
      · exact (Function.update_of_ne (hsplit hx).2 _ _).trans (hnext x (hsplit hx).1 hx')
      · change s.region.allocated \ _ = _
        rw [hallocated]
        ext x
        simp only [Finset.mem_sdiff, List.mem_toFinset, List.mem_cons, List.mem_reverse,
          List.mem_append, Option.toList_some, not_or]
        tauto
      · change (s.region.events ++ _) ++ _ = _
        rw [hevents]
        simp [ringEvents, sweepEvent, List.append_assoc]

/-! ## Both rings -/

/-- The other ring is still as before its sweep. -/
theorem SweptAll.ring_other (hs : SweptAll r ring primaryRing all r') (hne : ring' ≠ ring)
    (hself : r.self ∉ all) (hdisj : objects'.Disjoint all)
    (h : Ring D ring' primaryRing objects' finish' r) :
    Ring D ring' primaryRing objects' finish' r' := by
  have hself' := (List.nodup_cons.mp h.nodup).1
  have hout {x : O} (hx : x ∈ r.self :: objects') : x ∉ all := by
    rcases List.mem_cons.mp hx with rfl | hx
    · exact hself
    · exact fun hx' => hdisj hx hx'
  have hring {primaryRing : RingKind} (hring' : ring' ≠ primaryRing) : ring = primaryRing := by
    cases ring <;> cases ring' <;> cases primaryRing <;> first | rfl | exact absurd rfl hne |
      exact absurd rfl hring'
  refine ⟨?_, fun x hx => ?_, ?_, fun x hx => ?_, ?_, fun hring' => ?_, h.isTrivial⟩
  · rw [hs.self_eq]
    exact h.nodup
  · rw [hs.self_eq] at hx
    rw [hs.allocated_eq]
    exact Finset.mem_sdiff.mpr ⟨h.allocated x hx, fun hx' => hout hx (List.mem_toFinset.mp hx')⟩
  · rw [hs.self_eq, hs.cls_eq _ hself, h.cls_self]
  · rw [hs.cls_eq x (hout (List.mem_cons_of_mem _ hx))]
    exact h.cls_eq x hx
  · have hfirst : first ring' primaryRing r' = first ring' primaryRing r := by
      rw [first, first]
      split
      · next hring' =>
        rw [hs.self_eq]
        exact hs.next_eq r.self hself fun _ hring => hne (hring'.trans hring.symm)
      · next hring' => exact hs.nextNotRoot_eq (hring hring')
    rw [hfirst]
    refine h.path.congr fun x hx => hs.next_eq x (hout (List.mem_cons_of_mem _ hx)) fun heq => ?_
    exact absurd (heq ▸ hx) hself'
  · rw [hs.lastNotRoot_eq (hring hring'), h.last hring', hs.self_eq]

/-- The end of the other ring is still the same. -/
theorem SweptAll.finish_other (hs : SweptAll r ring primaryRing all r')
    (hiso : ∀ iso ∈ finish', ring' = primaryRing → iso ∉ all)
    (h : Finish r ring' primaryRing objects' finish') :
    Finish r' ring' primaryRing objects' finish' := by
  rcases h with ⟨hring, rfl⟩ | ⟨hring, iso, rfl, hcls, hnext, hmem, hout⟩
  · exact Or.inl ⟨hring, by rw [hs.self_eq]⟩
  · have hiso' := hiso iso rfl hring
    refine Or.inr ⟨hring, iso, rfl, ?_, ?_, ?_, ?_⟩
    · rw [hs.cls_eq iso hiso', hcls]
    · rw [hs.next_eq iso hiso' fun heq => absurd (heq ▸ List.mem_cons_self) hout, hnext, hs.self_eq]
    · rw [hs.allocated_eq]
      exact Finset.mem_sdiff.mpr ⟨hmem, fun hx => hiso' (List.mem_toFinset.mp hx)⟩
    · rwa [hs.self_eq]

/-- The rings of a region that is not marked. -/
theorem isRing_of_rings (h : Rings D iso prim sec r) (ring : RingKind) :
    Ring D ring (primary D iso) (ringObjects (primary D iso) prim sec ring)
      (ringFinish (primary D iso) iso r.self ring) { r with currentMemoryUsed := 0 } ∧
    Finish { r with currentMemoryUsed := 0 } ring (primary D iso)
      (ringObjects (primary D iso) prim sec ring) (ringFinish (primary D iso) iso r.self ring) := by
  have hnodup := h.nodup
  simp only [List.nodup_cons, List.mem_cons, List.mem_append, List.nodup_append', not_or] at hnodup
  obtain ⟨⟨hself_iso, hself_prim, hself_sec⟩, ⟨hiso_prim, hiso_sec⟩, hprim, hsec, -⟩ := hnodup
  have hkind (x : O) (hx : x ∈ ringObjects (primary D iso) prim sec ring) :
      D.isTrivial x = decide (ring = .trivialRing) := ((mem_ringObjects_iff h ring).mp hx).2
  have hmem {x : O} (hx : x = r.self ∨ x ∈ prim ++ sec) : x ∈ r.allocated := by
    refine h.allocated x ?_
    rcases hx with rfl | hx
    · exact List.mem_cons_self
    · exact List.mem_cons_of_mem _ (List.mem_cons_of_mem _ hx)
  have hcls {x : O} (hx : x ∈ ringObjects (primary D iso) prim sec ring) : r.cls x = .unmarked :=
    h.cls_eq x (ringObjects_subset _ _ hx)
  have hallocated : ∀ x ∈ r.self :: ringObjects (primary D iso) prim sec ring, x ∈ r.allocated :=
    fun x hx => hmem ((List.mem_cons.mp hx).imp_right fun hx => ringObjects_subset _ _ hx)
  by_cases hring : ring = primary D iso
  · have hobjects : ringObjects (primary D iso) prim sec ring = prim := if_pos hring
    rw [hobjects] at hkind hallocated hcls ⊢
    rw [ringFinish, if_pos hring]
    refine ⟨⟨List.nodup_cons.mpr ⟨hself_prim, hprim⟩, hallocated, h.cls_self, fun x hx _ => hcls hx,
      ?_, fun hne => absurd hring hne, hkind⟩, Or.inr ⟨hring, iso, rfl, h.cls_iso, h.next_iso,
      h.allocated iso (by simp), ?_⟩⟩
    · rw [first, if_pos hring]
      exact h.primary
    · rw [List.mem_cons, not_or]
      exact ⟨fun heq => hself_iso heq.symm, hiso_prim⟩
  · have hobjects : ringObjects (primary D iso) prim sec ring = sec := if_neg hring
    rw [hobjects] at hkind hallocated hcls ⊢
    rw [ringFinish, if_neg hring]
    refine ⟨⟨List.nodup_cons.mpr ⟨hself_sec, hsec⟩, hallocated, h.cls_self, fun x hx _ => hcls hx, ?_,
      fun _ => h.last, hkind⟩, Or.inl ⟨hring, rfl⟩⟩
    rw [first, if_neg hring]
    exact h.secondary

/-- The objects of a kind, the entry point with the primary ring. -/
def allOf (D : Descriptors O) (iso : O) (prim sec : List O) (ring : RingKind) : List O :=
  if ring = primary D iso then prim ++ [iso] else sec

/-- The lists of the two kinds have the objects of the region. -/
theorem mem_allOf (h : Rings D iso prim sec r) (ring : RingKind) :
    x ∈ allOf D iso prim sec ring ↔
      x ∈ iso :: (prim ++ sec) ∧ D.isTrivial x = decide (ring = .trivialRing) := by
  have hiso : D.isTrivial iso = decide (primary D iso = .trivialRing) := by
    rw [primary]
    cases D.isTrivial iso <;> rfl
  have hobjects := mem_ringObjects_iff (x := x) h ring
  rw [ringObjects] at hobjects
  rw [allOf]
  by_cases hring : ring = primary D iso
  · rw [if_pos hring] at hobjects ⊢
    rw [List.mem_append, hobjects, List.mem_singleton, List.mem_cons]
    rw [← hring] at hiso
    constructor
    · rintro (⟨hx, hkind⟩ | rfl)
      · exact ⟨Or.inr hx, hkind⟩
      · exact ⟨Or.inl rfl, hiso⟩
    · rintro ⟨rfl | hx, hkind⟩
      · exact Or.inr rfl
      · exact Or.inl ⟨hx, hkind⟩
  · rw [if_neg hring] at hobjects ⊢
    rw [hobjects, List.mem_cons]
    refine ⟨fun h => ⟨Or.inr h.1, h.2⟩, fun h => ⟨h.1.resolve_left ?_, h.2⟩⟩
    rintro rfl
    refine hring ?_
    have hkind := h.2
    rw [hiso] at hkind
    cases hp : primary D x <;> cases ring <;> simp [hp] at hkind ⊢

/-- The objects of a kind are different ones. -/
theorem nodup_allOf (h : Rings D iso prim sec r) (ring : RingKind) :
    (allOf D iso prim sec ring).Nodup := by
  have hnodup := (List.nodup_cons.mp h.nodup).2
  simp only [List.nodup_cons, List.mem_append, List.nodup_append', not_or] at hnodup
  rw [allOf]
  split
  · refine hnodup.2.1.append (List.nodup_singleton iso) fun x hx hx' => ?_
    rw [List.mem_singleton.mp hx'] at hx
    exact hnodup.1.1 hx
  · exact hnodup.2.2.1

/-- What a release leaves of the region: nothing. -/
structure Released (D : Descriptors O) (iso : O) (prim sec : List O) (r r' : RegionTrace O) : Prop where
  /-- The region is the same. -/
  self_eq : r'.self = r.self
  /-- The classes of other objects are the same. -/
  cls_eq : ∀ x ∉ r.self :: iso :: (prim ++ sec), r'.cls x = r.cls x
  /-- Their links are the same. -/
  next_eq : ∀ x ∉ r.self :: iso :: (prim ++ sec), r'.next x = r.next x
  /-- The objects of the region are deallocated. -/
  allocated_eq : r'.allocated = r.allocated \ (r.self :: iso :: (prim ++ sec)).toFinset
  /-- What is done to them. -/
  events_eq : r'.events = r.events ++ (ringEvents .nonTrivialRing (allOf D iso prim sec .nonTrivialRing) ++
    ringEvents .trivialRing (allOf D iso prim sec .trivialRing) ++ [.dealloc r.self])

/-- A release deallocates every object of the region. -/
theorem releaseInternal_spec (h : Rings D iso prim sec r) (sizeclass : ℕ → ℕ)
    (hroots : r.additionalEntryPoints = []) (hfuel : prim.length + sec.length + 2 ≤ fuel)
    (collect : List O) :
    ∃ r' collect', releaseInternal D fuel sizeclass r iso collect = some (r', collect') ∧
      Released D iso prim sec r r' := by
  have hnodup := h.nodup
  simp only [List.nodup_cons, List.mem_cons, List.mem_append, List.nodup_append', not_or] at hnodup
  obtain ⟨⟨hself_iso, hself_prim, hself_sec⟩, ⟨hiso_prim, hiso_sec⟩, -, -, hdisj⟩ := hnodup
  have hlength (ring : RingKind) : (ringObjects (primary D iso) prim sec ring).length + 2 ≤ fuel := by
    rw [ringObjects]
    split <;> omega
  have hall (ring : RingKind) : ringAll ring (primary D iso) (ringObjects (primary D iso) prim sec ring)
      (ringFinish (primary D iso) iso r.self ring) = allOf D iso prim sec ring := by
    rw [ringAll, ringObjects, ringFinish, allOf]
    split <;> rfl
  have hself (ring : RingKind) : r.self ∉ allOf D iso prim sec ring := fun hx => by
    have hx := ((mem_allOf h ring).mp hx).1
    exact (List.nodup_cons.mp h.nodup).1 hx
  have hkinds : ∀ x ∈ allOf D iso prim sec .nonTrivialRing, x ∉ allOf D iso prim sec .trivialRing := by
    intro x hx hx'
    have hfalse := ((mem_allOf h _).mp hx).2
    have htrue := ((mem_allOf h _).mp hx').2
    exact absurd (hfalse.symm.trans htrue) (by decide)
  have hsub (ring : RingKind) :
      ∀ x ∈ ringObjects (primary D iso) prim sec ring, x ∈ allOf D iso prim sec ring := by
    intro x hx
    rw [← hall, ringAll]
    split
    · exact List.mem_append_left _ hx
    · exact hx
  have hfinish_mem (ring : RingKind) (hring : ring = primary D iso) :
      ∀ x ∈ ringFinish (primary D iso) iso r.self ring, x ∈ allOf D iso prim sec ring := by
    intro x hx
    rw [ringFinish, if_pos hring] at hx
    rw [allOf, if_pos hring, Option.some.inj hx]
    exact List.mem_append_right _ (List.mem_singleton_self _)
  have htrivial (ring : RingKind) (hring : ring = primary D iso) :
      ∀ x ∈ ringFinish (primary D iso) iso r.self ring, D.isTrivial x = decide (ring = .trivialRing) :=
    fun x hx => ((mem_allOf h ring).mp (hfinish_mem ring hring x hx)).2
  have hcls (ring : RingKind) :
      ∀ x ∈ ringObjects (primary D iso) prim sec ring, r.cls x ≠ .marked := fun x hx => by
    rw [h.cls_eq x (ringObjects_subset _ _ hx)]
    decide
  obtain ⟨hring₁, hfinish₁⟩ := isRing_of_rings h .nonTrivialRing
  obtain ⟨hring₂, hfinish₂⟩ := isRing_of_rings h .trivialRing
  obtain ⟨r₁, collect₁, hr₁, hs₁⟩ := sweepRing_all hring₁ hfinish₁ (hcls _) (htrivial _) (hlength _)
    collect
  rw [hall] at hs₁
  have hne : RingKind.trivialRing ≠ RingKind.nonTrivialRing := by decide
  have hout (x : O) (hx : x ∈ allOf D iso prim sec .trivialRing) :
      x ∉ allOf D iso prim sec .nonTrivialRing := fun hx' => hkinds x hx' hx
  have hring₂' := hs₁.ring_other hne (hself _) (fun x hx hx' => hout x (hsub _ x hx) hx') hring₂
  have hfinish₂' := hs₁.finish_other
    (fun x hx hring => hout x (hfinish_mem .trivialRing hring x hx)) hfinish₂
  have hcls₂ : ∀ x ∈ ringObjects (primary D iso) prim sec .trivialRing, r₁.cls x ≠ .marked :=
    fun x hx => by
      rw [hs₁.cls_eq x (hout x (hsub _ x hx))]
      exact hcls _ x hx
  obtain ⟨r₂, collect₂, hr₂, hs₂⟩ := sweepRing_all hring₂' hfinish₂' hcls₂ (htrivial _) (hlength _)
    collect₁
  rw [hall] at hs₂
  have hself₁ : r₁.self = r.self := hs₁.self_eq
  have hself₂ : r₂.self = r.self := hs₂.self_eq.trans hself₁
  have hmem (x : O) : x ∈ allOf D iso prim sec .nonTrivialRing ∨ x ∈ allOf D iso prim sec .trivialRing ↔
      x ∈ iso :: (prim ++ sec) := by
    rw [mem_allOf h, mem_allOf h]
    cases D.isTrivial x <;> simp
  have hsplit {x : O} (hx : x ∉ r.self :: iso :: (prim ++ sec)) : x ≠ r.self ∧
      x ∉ allOf D iso prim sec .nonTrivialRing ∧ x ∉ allOf D iso prim sec .trivialRing := by
    rw [List.mem_cons, ← hmem] at hx
    tauto
  let r₃ : RegionTrace O :=
    { r₂ with remembered := [], previousMemoryUsed := sizeclass r₂.currentMemoryUsed }
  refine ⟨r₃.dealloc r₃.self, collect₂, ?_, ⟨hself₂, fun x hx => ?_, fun x hx => ?_, ?_, ?_⟩⟩
  · rw [releaseInternal, if_pos ⟨h.cls_iso, hroots⟩, sweep, hr₁, Option.bind_some, hr₂]
    rfl
  · obtain ⟨-, hx₁, hx₂⟩ := hsplit hx
    exact (hs₂.cls_eq x hx₂).trans (hs₁.cls_eq x hx₁)
  · obtain ⟨hxself, hx₁, hx₂⟩ := hsplit hx
    refine (hs₂.next_eq x hx₂ fun heq => absurd (heq.trans hself₁) hxself).trans ?_
    exact hs₁.next_eq x hx₁ fun heq => absurd heq hxself
  · change r₂.allocated.erase r₂.self = _
    rw [hs₂.allocated_eq, hs₁.allocated_eq, hself₂]
    ext x
    simp only [Finset.mem_erase, Finset.mem_sdiff, List.mem_toFinset, List.mem_cons (a := x) (b := r.self),
      ← hmem]
    tauto
  · change r₂.events ++ [.dealloc r₂.self] = _
    rw [hs₂.events_eq, hs₁.events_eq, hself₂]
    simp only [List.append_assoc]

/-! ## Other objects -/

/-- What a collection leaves of other objects. -/
structure Framed (iso : O) (prim sec : List O) (r r' : RegionTrace O) : Prop where
  /-- The region is the same. -/
  self_eq : r'.self = r.self
  /-- The classes of other objects are the same. -/
  cls_eq : ∀ x ∉ prim ++ sec, r'.cls x = r.cls x
  /-- Their links are the same. -/
  next_eq : ∀ x ∉ r.self :: (prim ++ sec), r'.next x = r.next x
  /-- The additional roots are the same. -/
  additionalEntryPoints_eq : r'.additionalEntryPoints = r.additionalEntryPoints

/-- A garbage collection leaves the objects of other regions as they are. -/
theorem gc_framed (h : Rings D iso prim sec r) (sizeclass : ℕ → ℕ)
    (hmark : width D.fields (iso :: (prim ++ sec)).toFinset + (D.fields iso).length +
      r.additionalEntryPoints.length ≤ fuel)
    (hsweep : prim.length + sec.length + 2 ≤ fuel) :
    ∃ r' collect, gc D fuel sizeclass r iso = some (r', collect) ∧ Framed iso prim sec r r' := by
  obtain ⟨r₁, hr₁, hm⟩ := mark_spec h hmark
  obtain ⟨r₂, r₃, collect, hs₂, hs₃, hr₃⟩ := sweep_spec h hm sizeclass hsweep
  refine ⟨{ r₃ with remembered := [], previousMemoryUsed := sizeclass r₃.currentMemoryUsed }, collect,
    ?_, ?_⟩
  · rw [gc, if_pos ⟨h.cls_iso, h.next_iso⟩, hr₁, Option.bind_some]
    exact hr₃
  · have hb := bothSwept h hm hs₂ hs₃
    refine ⟨hb.self_eq, fun x hx => ?_, fun x hx => ?_, hb.additionalEntryPoints_eq⟩
    · rw [← if_neg (c := x ∈ prim ++ sec) (t := RegionMD.unmarked) (e := r.cls x) hx]
      exact hb.cls_eq x
    · rw [List.mem_cons, not_or] at hx
      have hself₁ : r₁.self = r.self := by rw [hm.same]
      have hself₂ : r₂.self = r.self := hs₂.self_eq.trans hself₁
      have hout (ring : RingKind) : x ∉ ringObjects (primary D iso) prim sec ring :=
        fun hx' => hx.2 (ringObjects_subset _ _ hx')
      have hnext₁ : r₁.next = r.next := by rw [hm.same]
      change r₃.next x = _
      rw [hs₃.next_eq x (hout _) fun heq => absurd (heq.trans hself₂) hx.1,
        hs₂.next_eq x (hout _) fun heq => absurd (heq.trans hself₁) hx.1]
      exact congrFun hnext₁ x

end VeronaRt.RegionTrace
