import VeronaFs.Runtime.RegionTraceSweep

/-!
# What a garbage collection leaves

After a collection the rings have exactly the live objects and the ring invariants hold again.  Every
other object has been deallocated once, and if it is not trivial its finaliser and its destructor have
run once, all finalisers before any destructor.
-/

namespace VeronaRt.RegionTrace

open Foundation

variable {O : Type*} {D : Descriptors O} {r r₁ r' : RegionTrace O} {iso x : O}
  {ring ring' primaryRing : RingKind} {objects objects' prim sec : List O} {finish finish' : Option O}
  {fuel : ℕ}

/-! ## The lists of a region -/

/-- The objects of a ring but the entry point. -/
def ringObjects (primaryRing : RingKind) (prim sec : List O) (ring : RingKind) : List O :=
  if ring = primaryRing then prim else sec

/-- The two rings of a region have the objects of both lists. -/
theorem mem_ringObjects (primaryRing : RingKind) (x : O) :
    x ∈ ringObjects primaryRing prim sec .nonTrivialRing ∨
      x ∈ ringObjects primaryRing prim sec .trivialRing ↔ x ∈ prim ++ sec := by
  rw [List.mem_append]
  cases primaryRing
  · exact or_comm
  · exact Iff.rfl

/-- The objects of a ring are objects of the region. -/
theorem ringObjects_subset (primaryRing ring : RingKind) :
    ringObjects primaryRing prim sec ring ⊆ prim ++ sec := by
  rw [ringObjects]
  split
  · exact List.subset_append_left ..
  · exact List.subset_append_right ..

/-- An object is in the ring for its kind. -/
theorem mem_ringObjects_iff (h : Rings D iso prim sec r) (ring : RingKind) :
    x ∈ ringObjects (primary D iso) prim sec ring ↔
      x ∈ prim ++ sec ∧ D.isTrivial x = decide (ring = .trivialRing) := by
  have hprimary : D.isTrivial iso = decide (primary D iso = .trivialRing) := by
    rw [primary]
    cases D.isTrivial iso <;> rfl
  have hother : ∀ ring', ring' ≠ primary D iso →
      (!D.isTrivial iso) = decide (ring' = RingKind.trivialRing) := by
    intro ring' hne
    rw [hprimary]
    cases hp : primary D iso <;> cases ring' <;> first | rfl | exact absurd hp.symm hne
  have hprim : x ∈ prim → D.isTrivial x = decide (primary D iso = .trivialRing) := fun hx =>
    (h.isTrivial_primary x hx).trans hprimary
  have hsec {ring' : RingKind} (hne : ring' ≠ primary D iso) :
      x ∈ sec → D.isTrivial x = decide (ring' = .trivialRing) := fun hx =>
    (h.isTrivial_secondary x hx).trans (hother ring' hne)
  have hkinds {ring₁ ring₂ : RingKind} (hne : ring₁ ≠ ring₂) :
      decide (ring₁ = RingKind.trivialRing) ≠ decide (ring₂ = RingKind.trivialRing) := by
    cases ring₁ <;> cases ring₂ <;> first | exact absurd rfl hne | decide
  rw [ringObjects, List.mem_append]
  by_cases hring : ring = primary D iso
  · rw [if_pos hring, hring]
    refine ⟨fun hx => ⟨Or.inl hx, hprim hx⟩, fun ⟨hx, htrivial⟩ => hx.resolve_right fun hx => ?_⟩
    obtain ⟨ring', hne⟩ : ∃ ring', ring' ≠ primary D iso := by
      cases primary D iso
      · exact ⟨.nonTrivialRing, by decide⟩
      · exact ⟨.trivialRing, by decide⟩
    exact hkinds hne ((hsec hne hx).symm.trans htrivial)
  · rw [if_neg hring]
    refine ⟨fun hx => ⟨Or.inr hx, hsec hring hx⟩, fun ⟨hx, htrivial⟩ => hx.resolve_left fun hx => ?_⟩
    exact hkinds hring (htrivial.symm.trans (hprim hx))

/-- One if a proposition holds, and zero otherwise. -/
def CountIs (n : ℕ) (P : Prop) : Prop := (P → n = 1) ∧ (¬ P → n = 0)

variable [DecidableEq O]

/-- A list without duplicates counts its elements once. -/
theorem countIs_count {l : List O} {P : Prop} (hl : l.Nodup) (h : x ∈ l ↔ P) :
    CountIs (l.count x) P :=
  ⟨fun hp => List.count_eq_one_of_mem hl (h.mpr hp),
    fun hp => List.count_eq_zero_of_not_mem fun hx => hp (h.mp hx)⟩

/-! ## The other ring -/

/-- The sweep of a ring does not move the other one. -/
theorem Swept.first_eq (hs : Swept r ring primaryRing objects finish r') (hne : ring' ≠ ring)
    (hself : r.self ∉ objects) : first ring' primaryRing r' = first ring' primaryRing r := by
  rw [first, first]
  split
  · next hring' =>
    rw [hs.self_eq]
    exact hs.next_eq r.self hself fun _ hring => hne (hring'.trans hring.symm)
  · next hring' =>
    refine hs.nextNotRoot_eq ?_
    cases ring <;> cases ring' <;> cases primaryRing <;> first | rfl | exact absurd rfl hne |
      exact absurd rfl hring'

/-- The links of the other ring stay. -/
theorem Swept.path_other (hs : Swept r ring primaryRing objects finish r') (hne : ring' ≠ ring)
    (hself : r.self ∉ objects) (hself' : r.self ∉ objects') (hdisj : objects'.Disjoint objects)
    (hpath : Path r.next objects' (first ring' primaryRing r) finish') :
    Path r'.next objects' (first ring' primaryRing r') finish' := by
  rw [hs.first_eq hne hself]
  refine hpath.congr fun x hx => hs.next_eq x (fun hx' => hdisj hx hx') fun heq => ?_
  exact absurd (heq ▸ hx) hself'

/-- The other ring is still as before its sweep. -/
theorem Swept.ring_other (hs : Swept r ring primaryRing objects finish r') (hne : ring' ≠ ring)
    (hself : r.self ∉ objects) (hdisj : objects'.Disjoint objects)
    (h : Ring D ring' primaryRing objects' finish' r) :
    Ring D ring' primaryRing objects' finish' r' := by
  have hself' := (List.nodup_cons.mp h.nodup).1
  have hcls {x : O} (hx : x ∉ objects) : r'.cls x = r.cls x := by
    rw [hs.cls_eq, if_neg hx]
  have hmem {x : O} (hx : x ∉ objects) (hx' : x ∈ r.allocated) : x ∈ r'.allocated := by
    rw [hs.allocated_eq]
    refine Finset.mem_sdiff.mpr ⟨hx', fun hdead => hx ?_⟩
    exact List.mem_of_mem_filter (List.mem_toFinset.mp hdead)
  refine ⟨?_, fun x hx => ?_, ?_, fun x hx => ?_, hs.path_other hne hself hself' hdisj h.path,
    fun hring' => ?_, h.isTrivial⟩
  · rw [hs.self_eq]
    exact h.nodup
  · rw [hs.self_eq] at hx
    refine hmem ?_ (h.allocated x hx)
    rcases List.mem_cons.mp hx with rfl | hx
    · exact hself
    · exact fun hx' => hdisj hx hx'
  · rw [hs.self_eq, hcls hself, h.cls_self]
  · rw [hcls fun hx' => hdisj hx hx']
    exact h.cls_eq x hx
  · have hring : ring = primaryRing := by
      cases ring <;> cases ring' <;> cases primaryRing <;> first | rfl | exact absurd rfl hne |
        exact absurd rfl hring'
    rw [hs.lastNotRoot_eq, if_pos hring, h.last hring', hs.self_eq]

/-- The end of the other ring is still the same. -/
theorem Swept.finish_other (hs : Swept r ring primaryRing objects finish r')
    (hiso : iso ∉ r.self :: objects) (h : Finish r ring' primaryRing objects' finish')
    (hfinish : ring' = primaryRing → finish' = some iso) :
    Finish r' ring' primaryRing objects' finish' := by
  rcases h with ⟨hring, rfl⟩ | ⟨hring, iso', rfl, hcls, hnext, hmem, hout⟩
  · exact Or.inl ⟨hring, by rw [hs.self_eq]⟩
  · obtain rfl := Option.some.inj (hfinish hring)
    rw [List.mem_cons, not_or] at hiso
    refine Or.inr ⟨hring, iso', rfl, ?_, ?_, ?_, ?_⟩
    · rw [hs.cls_eq, if_neg hiso.2, hcls]
    · rw [hs.next_eq iso' hiso.2 fun heq => absurd heq hiso.1, hnext, hs.self_eq]
    · rw [hs.allocated_eq]
      refine Finset.mem_sdiff.mpr ⟨hmem, fun hdead => hiso.2 ?_⟩
      exact List.mem_of_mem_filter (List.mem_toFinset.mp hdead)
    · rwa [hs.self_eq]

/-! ## The rings of a region -/

/-- The end of a ring. -/
def ringFinish (primaryRing : RingKind) (iso self : O) (ring : RingKind) : Option O :=
  if ring = primaryRing then some iso else some self

/-- The rings of a marked region. -/
theorem Marked.isRing (h : Rings D iso prim sec r) (hm : Marked D r iso prim sec r₁)
    (ring : RingKind) :
    Ring D ring (primary D iso) (ringObjects (primary D iso) prim sec ring)
      (ringFinish (primary D iso) iso r.self ring) { r₁ with currentMemoryUsed := 0 } ∧
    Finish { r₁ with currentMemoryUsed := 0 } ring (primary D iso)
      (ringObjects (primary D iso) prim sec ring) (ringFinish (primary D iso) iso r.self ring) := by
  obtain ⟨cls, remembered, rfl⟩ : ∃ cls remembered,
      r₁ = { r with cls := cls, remembered := remembered } := ⟨_, _, hm.same⟩
  have hnodup := h.nodup
  simp only [List.nodup_cons, List.mem_cons, List.mem_append, List.nodup_append', not_or] at hnodup
  obtain ⟨⟨hself_iso, hself_prim, hself_sec⟩, ⟨hiso_prim, hiso_sec⟩, hprim, hsec, -⟩ := hnodup
  have hself : cls r.self = .unmarked := by
    rw [← h.cls_self]
    exact hm.cls_eq r.self (by simp [hself_prim, hself_sec])
  have hiso : cls iso = .iso := by
    rw [← h.cls_iso]
    exact hm.cls_eq iso (by simp [hiso_prim, hiso_sec])
  have hcls : ∀ x ∈ prim ++ sec, cls x ≠ .marked → cls x = .unmarked := fun x hx hne =>
    hm.cls_dead x hx fun hlive => hne (hm.cls_live x hx hlive)
  have hmem {x : O} (hx : x = r.self ∨ x ∈ prim ++ sec) : x ∈ r.allocated := by
    refine h.allocated x ?_
    rcases hx with rfl | hx
    · exact List.mem_cons_self
    · exact List.mem_cons_of_mem _ (List.mem_cons_of_mem _ hx)
  by_cases hring : ring = primary D iso
  · rw [ringObjects, ringFinish, if_pos hring, if_pos hring]
    refine ⟨⟨List.nodup_cons.mpr ⟨hself_prim, hprim⟩, fun x hx => ?_, hself, fun x hx => ?_, ?_,
      fun hne => absurd hring hne, fun x hx => ?_⟩, ?_⟩
    · exact hmem ((List.mem_cons.mp hx).imp_right fun hx => List.mem_append_left _ hx)
    · exact hcls x (List.mem_append_left _ hx)
    · rw [first, if_pos hring]
      exact h.primary
    · rw [h.isTrivial_primary x hx, hring, primary]
      cases D.isTrivial iso <;> rfl
    · refine Or.inr ⟨hring, iso, rfl, hiso, h.next_iso, h.allocated iso (by simp), ?_⟩
      rw [List.mem_cons, not_or]
      exact ⟨fun heq => hself_iso heq.symm, hiso_prim⟩
  · rw [ringObjects, ringFinish, if_neg hring, if_neg hring]
    refine ⟨⟨List.nodup_cons.mpr ⟨hself_sec, hsec⟩, fun x hx => ?_, hself, fun x hx => ?_, ?_,
      fun _ => h.last, fun x hx => ?_⟩, Or.inl ⟨hring, rfl⟩⟩
    · exact hmem ((List.mem_cons.mp hx).imp_right fun hx => List.mem_append_right _ hx)
    · exact hcls x (List.mem_append_right _ hx)
    · rw [first, if_neg hring]
      exact h.secondary
    · rw [h.isTrivial_secondary x hx]
      rw [primary] at hring
      cases htrivial : D.isTrivial iso <;> cases ring <;> simp [htrivial] at hring ⊢

/-- Both rings are swept. -/
theorem sweep_spec (h : Rings D iso prim sec r) (hm : Marked D r iso prim sec r₁)
    (sizeclass : ℕ → ℕ) (hfuel : prim.length + sec.length + 2 ≤ fuel) :
    ∃ r₂ r₃ collect, Swept { r₁ with currentMemoryUsed := 0 } .nonTrivialRing (primary D iso)
        (ringObjects (primary D iso) prim sec .nonTrivialRing)
        (ringFinish (primary D iso) iso r.self .nonTrivialRing) r₂ ∧
      Swept r₂ .trivialRing (primary D iso) (ringObjects (primary D iso) prim sec .trivialRing)
        (ringFinish (primary D iso) iso r.self .trivialRing) r₃ ∧
      sweep D fuel sizeclass false r₁ iso [] = some ({ r₃ with
        remembered := [], previousMemoryUsed := sizeclass r₃.currentMemoryUsed }, collect) := by
  have hnodup := h.nodup
  simp only [List.nodup_cons, List.mem_cons, List.mem_append, List.nodup_append', not_or] at hnodup
  obtain ⟨⟨hself_iso, hself_prim, hself_sec⟩, ⟨hiso_prim, hiso_sec⟩, -, -, hdisj⟩ := hnodup
  have hself₁ : r₁.self = r.self := by rw [hm.same]
  have hlength (ring : RingKind) : (ringObjects (primary D iso) prim sec ring).length + 2 ≤ fuel := by
    rw [ringObjects]
    split <;> omega
  have hself (ring : RingKind) : r.self ∉ ringObjects (primary D iso) prim sec ring := by
    rw [ringObjects]
    split
    · exact hself_prim
    · exact hself_sec
  have hiso (ring : RingKind) : iso ∉ r.self :: ringObjects (primary D iso) prim sec ring := by
    rw [ringObjects, List.mem_cons, not_or]
    refine ⟨fun heq => hself_iso heq.symm, ?_⟩
    split
    · exact hiso_prim
    · exact hiso_sec
  have hobjects : (ringObjects (primary D iso) prim sec .trivialRing).Disjoint
      (ringObjects (primary D iso) prim sec .nonTrivialRing) := by
    rw [ringObjects, ringObjects]
    cases primary D iso with
    | trivialRing => exact hdisj
    | nonTrivialRing => exact hdisj.symm
  have hne : RingKind.trivialRing ≠ RingKind.nonTrivialRing := by decide
  obtain ⟨hring, hfinish⟩ := hm.isRing h .nonTrivialRing
  obtain ⟨hring', hfinish'⟩ := hm.isRing h .trivialRing
  obtain ⟨r₂, collect, hr₂, hs₂⟩ := sweepRing_spec hring hfinish (hlength _) []
  have hself' : ({ r₁ with currentMemoryUsed := 0 } : RegionTrace O).self ∉
      ringObjects (primary D iso) prim sec .nonTrivialRing := by
    change r₁.self ∉ _
    rw [hself₁]
    exact hself _
  have hiso' : iso ∉ ({ r₁ with currentMemoryUsed := 0 } : RegionTrace O).self ::
      ringObjects (primary D iso) prim sec .nonTrivialRing := by
    change iso ∉ r₁.self :: _
    rw [hself₁]
    exact hiso _
  have hring₂ := hs₂.ring_other hne hself' hobjects hring'
  have hfinish₂ := hs₂.finish_other hiso' hfinish' fun heq => by
    rw [ringFinish, if_pos heq]
  obtain ⟨r₃, collect', hr₃, hs₃⟩ := sweepRing_spec hring₂ hfinish₂ (hlength _) collect
  refine ⟨r₂, r₃, collect', hs₂, hs₃, ?_⟩
  rw [sweep, hr₂, Option.bind_some, hr₃, Option.map_some]

/-- The destructions and deallocations of a list of objects. -/
theorem count_flatMap_destroy (l : List O) (e : ObjectEvent O) :
    (l.flatMap fun q => [.destructor q, .dealloc q]).count e =
      (l.map .destructor).count e + (l.map .dealloc).count e := by
  induction l with
  | nil => rfl
  | cons q l ih =>
    simp only [List.flatMap_cons, List.count_append, ih, List.map_cons, List.count_cons,
      List.count_nil]
    omega

/-- What is done to the dead objects of a ring. -/
theorem count_ringEvents (ring : RingKind) (l : List O) (x : O) :
    (ringEvents ring l).count (.finalise x) = (if ring = .nonTrivialRing then l.count x else 0) ∧
    (ringEvents ring l).count (.destructor x) = (if ring = .nonTrivialRing then l.count x else 0) ∧
    (ringEvents ring l).count (.dealloc x) = l.count x := by
  have hdealloc : (l.map ObjectEvent.dealloc).count (.dealloc x) = l.count x :=
    List.count_map_of_injective l _ (fun y z hyz => ObjectEvent.dealloc.inj hyz) x
  have hdealloc₁ : (l.map ObjectEvent.dealloc).count (.finalise x) = 0 :=
    List.count_eq_zero.mpr (by simp)
  have hdealloc₂ : (l.map ObjectEvent.dealloc).count (.destructor x) = 0 :=
    List.count_eq_zero.mpr (by simp)
  cases ring with
  | trivialRing => exact ⟨hdealloc₁, hdealloc₂, hdealloc⟩
  | nonTrivialRing =>
    have hpairs (e : ObjectEvent O) : (l.reverse.flatMap fun q => [.destructor q, .dealloc q]).count e =
        (l.map .destructor).count e + (l.map .dealloc).count e :=
      (((List.reverse_perm l).flatMap_right _).count_eq e).trans (count_flatMap_destroy l e)
    have hfinalise : (l.map ObjectEvent.finalise).count (.finalise x) = l.count x :=
      List.count_map_of_injective l _ (fun y z hyz => ObjectEvent.finalise.inj hyz) x
    have hfinalise₁ : (l.map ObjectEvent.finalise).count (.destructor x) = 0 :=
      List.count_eq_zero.mpr (by simp)
    have hfinalise₂ : (l.map ObjectEvent.finalise).count (.dealloc x) = 0 :=
      List.count_eq_zero.mpr (by simp)
    have hdestructor : (l.map ObjectEvent.destructor).count (.destructor x) = l.count x :=
      List.count_map_of_injective l _ (fun y z hyz => ObjectEvent.destructor.inj hyz) x
    have hdestructor₁ : (l.map ObjectEvent.destructor).count (.finalise x) = 0 :=
      List.count_eq_zero.mpr (by simp)
    have hdestructor₂ : (l.map ObjectEvent.destructor).count (.dealloc x) = 0 :=
      List.count_eq_zero.mpr (by simp)
    simp only [ringEvents, List.count_append, hpairs, if_true]
    omega

/-! ## The collection -/

/-- What a collection does to a region: the rings have the live objects, and the other objects are
finalised, destructed and deallocated. -/
structure Collected (D : Descriptors O) (iso : O) (prim sec : List O) (r r' : RegionTrace O) : Prop where
  /-- The ring invariants hold for the live objects. -/
  rings : ∃ prim' sec', Rings D iso prim' sec' r' ∧
    (∀ x, x ∈ prim' ↔ x ∈ prim ∧ Live D r iso (iso :: (prim ++ sec)) x) ∧
    ∀ x, x ∈ sec' ↔ x ∈ sec ∧ Live D r iso (iso :: (prim ++ sec)) x
  /-- Each object that is neither live nor trivial is finalised and destructed once, and each object
  that is not live is deallocated once, all finalisers before any destructor. -/
  events : ∃ before after, r'.events = r.events ++ (before ++ after) ∧
    (∀ x, CountIs ((before ++ after).count (.finalise x))
      (x ∈ prim ++ sec ∧ ¬ Live D r iso (iso :: (prim ++ sec)) x ∧ D.isTrivial x = false)) ∧
    (∀ x, CountIs ((before ++ after).count (.destructor x))
      (x ∈ prim ++ sec ∧ ¬ Live D r iso (iso :: (prim ++ sec)) x ∧ D.isTrivial x = false)) ∧
    (∀ x, CountIs ((before ++ after).count (.dealloc x))
      (x ∈ prim ++ sec ∧ ¬ Live D r iso (iso :: (prim ++ sec)) x)) ∧
    (∀ x, .destructor x ∉ before) ∧ ∀ x, .finalise x ∉ after
  /-- Nothing else is deallocated. -/
  allocated : ∀ x, x ∈ r'.allocated ↔
    x ∈ r.allocated ∧ ¬ (x ∈ prim ++ sec ∧ ¬ Live D r iso (iso :: (prim ++ sec)) x)

/-- What a sweep keeps of a ring of a marked region. -/
theorem Marked.mem_kept (hm : Marked D r iso prim sec r₁) (hsub : objects ⊆ prim ++ sec) :
    x ∈ kept r₁ objects ↔ x ∈ objects ∧ Live D r iso (iso :: (prim ++ sec)) x := by
  rw [kept, List.mem_filter, decide_eq_true_eq]
  refine and_congr_right fun hx => ⟨fun hmarked => ?_, hm.cls_live x (hsub hx)⟩
  by_contra hdead
  rw [hm.cls_dead x (hsub hx) hdead] at hmarked
  cases hmarked

/-- What a sweep takes out of a ring of a marked region. -/
theorem Marked.mem_dead (hm : Marked D r iso prim sec r₁) (hsub : objects ⊆ prim ++ sec) :
    x ∈ dead r₁ objects ↔ x ∈ objects ∧ ¬ Live D r iso (iso :: (prim ++ sec)) x := by
  rw [dead, List.mem_filter, decide_eq_true_eq]
  refine and_congr_right fun hx =>
    ⟨fun hne hlive => hne (hm.cls_live x (hsub hx) hlive), fun hdead => ?_⟩
  rw [hm.cls_dead x (hsub hx) hdead]
  decide

/-- What both sweeps leave. -/
structure BothSwept (D : Descriptors O) (iso : O) (prim sec : List O) (r r₁ r' : RegionTrace O) :
    Prop where
  /-- The region is the same. -/
  self_eq : r'.self = r.self
  /-- The rings lead along the objects that are kept. -/
  path : ∀ ring, Path r'.next (kept r₁ (ringObjects (primary D iso) prim sec ring))
    (first ring (primary D iso) r') (ringFinish (primary D iso) iso r.self ring)
  /-- No object is marked. -/
  cls_eq : ∀ x, r'.cls x = if x ∈ prim ++ sec then .unmarked else r.cls x
  /-- The entry point leads to the metadata object. -/
  next_iso : r'.next iso = some r.self
  /-- The last object of the secondary ring. -/
  lastNotRoot_eq : r'.lastNotRoot = some ((kept r₁ sec).getLast?.getD r.self)
  /-- The additional roots are the same. -/
  additionalEntryPoints_eq : r'.additionalEntryPoints = r.additionalEntryPoints
  /-- The dead objects are deallocated. -/
  allocated_eq : r'.allocated = r.allocated \ (dead r₁ (prim ++ sec)).toFinset
  /-- What is done to the dead objects. -/
  events_eq : r'.events = r.events ++
    (ringEvents .nonTrivialRing (dead r₁ (ringObjects (primary D iso) prim sec .nonTrivialRing)) ++
      ringEvents .trivialRing (dead r₁ (ringObjects (primary D iso) prim sec .trivialRing)))

/-- The two sweeps together. -/
theorem bothSwept (h : Rings D iso prim sec r) (hm : Marked D r iso prim sec r₁)
    {r₂ r₃ : RegionTrace O} (hs₂ : Swept { r₁ with currentMemoryUsed := 0 } .nonTrivialRing
      (primary D iso) (ringObjects (primary D iso) prim sec .nonTrivialRing)
      (ringFinish (primary D iso) iso r.self .nonTrivialRing) r₂)
    (hs₃ : Swept r₂ .trivialRing (primary D iso)
      (ringObjects (primary D iso) prim sec .trivialRing)
      (ringFinish (primary D iso) iso r.self .trivialRing) r₃) :
    BothSwept D iso prim sec r r₁ r₃ := by
  obtain ⟨cls, remembered, rfl⟩ : ∃ cls remembered,
      r₁ = { r with cls := cls, remembered := remembered } := ⟨_, _, hm.same⟩
  have hnodup := h.nodup
  simp only [List.nodup_cons, List.mem_cons, List.mem_append, List.nodup_append', not_or] at hnodup
  obtain ⟨⟨hself_iso, hself_prim, hself_sec⟩, ⟨hiso_prim, hiso_sec⟩, -, -, hdisj⟩ := hnodup
  have hself : r.self ∉ prim ++ sec := by simp [hself_prim, hself_sec]
  have hiso : iso ∉ prim ++ sec := by simp [hiso_prim, hiso_sec]
  have hself₂ : r₂.self = r.self := hs₂.self_eq
  have hobjects : (ringObjects (primary D iso) prim sec .nonTrivialRing).Disjoint
      (ringObjects (primary D iso) prim sec .trivialRing) := by
    rw [ringObjects, ringObjects]
    cases primary D iso with
    | trivialRing => exact hdisj.symm
    | nonTrivialRing => exact hdisj
  have hcls₂ {x : O} (hx : x ∈ ringObjects (primary D iso) prim sec .trivialRing) :
      r₂.cls x = cls x := by
    rw [hs₂.cls_eq, if_neg fun hx' => hobjects hx' hx]
  have hkept₂ : kept r₂ (ringObjects (primary D iso) prim sec .trivialRing) =
      kept { r with cls := cls, remembered := remembered }
        (ringObjects (primary D iso) prim sec .trivialRing) :=
    List.filter_congr fun x hx => by rw [hcls₂ hx]
  have hdead₂ : dead r₂ (ringObjects (primary D iso) prim sec .trivialRing) =
      dead { r with cls := cls, remembered := remembered }
        (ringObjects (primary D iso) prim sec .trivialRing) :=
    List.filter_congr fun x hx => by rw [hcls₂ hx]
  have hself_out (ring : RingKind) : r₂.self ∉ ringObjects (primary D iso) prim sec ring := by
    rw [hself₂]
    exact fun hmem => hself (ringObjects_subset _ _ hmem)
  have hiso_out (ring : RingKind) : iso ∉ ringObjects (primary D iso) prim sec ring :=
    fun hmem => hiso (ringObjects_subset _ _ hmem)
  refine ⟨hs₃.self_eq.trans hself₂, fun ring => ?_, fun x => ?_, ?_, ?_, ?_, ?_, ?_⟩
  · cases ring with
    | nonTrivialRing =>
      refine hs₃.path_other (by decide) (hself_out _) (fun hmem => ?_) (fun x hx hx' => ?_) hs₂.path
      · exact hself_out _ (List.mem_of_mem_filter hmem)
      · exact hobjects (List.mem_of_mem_filter hx) hx'
    | trivialRing =>
      rw [← hkept₂]
      exact hs₃.path
  · rw [hs₃.cls_eq, hs₂.cls_eq]
    by_cases hx : x ∈ prim ++ sec
    · rw [if_pos hx]
      rcases (mem_ringObjects (primary D iso) x).mpr hx with hx' | hx'
      · rw [if_pos hx']
        split <;> rfl
      · rw [if_pos hx']
    · rw [if_neg hx, if_neg fun hx' => hx (ringObjects_subset _ _ hx'),
        if_neg fun hx' => hx (ringObjects_subset _ _ hx')]
      exact hm.cls_eq x hx
  · rw [hs₃.next_eq iso (hiso_out _) fun heq => absurd (heq.trans hself₂).symm hself_iso,
      hs₂.next_eq iso (hiso_out _) fun heq => absurd heq.symm hself_iso]
    exact h.next_iso
  · have hlast₂ := hs₂.lastNotRoot_eq
    have hlast₃ := hs₃.lastNotRoot_eq
    rw [hkept₂, hself₂] at hlast₃
    rw [hlast₃]
    cases hprimary : primary D iso with
    | trivialRing =>
      rw [hprimary] at hlast₂
      exact hlast₂
    | nonTrivialRing => rfl
  · exact hs₃.additionalEntryPoints_eq.trans hs₂.additionalEntryPoints_eq
  · rw [hs₃.allocated_eq, hs₂.allocated_eq, hdead₂]
    ext x
    have hmem : x ∈ ringObjects (primary D iso) prim sec .nonTrivialRing ∨
        x ∈ ringObjects (primary D iso) prim sec .trivialRing ↔ x ∈ prim ++ sec :=
      mem_ringObjects (primary D iso) x
    simp only [Finset.mem_sdiff, List.mem_toFinset, dead, List.mem_filter, ← hmem]
    tauto
  · rw [hs₃.events_eq, hs₂.events_eq, hdead₂, List.append_assoc]
    rfl

/-- The objects that are kept are live. -/
theorem Marked.live_of_mem_kept (hm : Marked D r iso prim sec r₁)
    (hx : x ∈ kept r₁ prim ++ kept r₁ sec) :
    x ∈ prim ++ sec ∧ Live D r iso (iso :: (prim ++ sec)) x := by
  rw [kept, kept, ← List.filter_append] at hx
  exact (hm.mem_kept (List.Subset.refl _)).mp hx

/-- The live objects are kept, and the entry point stays. -/
theorem Marked.mem_kept_of_live (hm : Marked D r iso prim sec r₁) (hx : x ∈ iso :: (prim ++ sec))
    (hlive : Live D r iso (iso :: (prim ++ sec)) x) : x ∈ iso :: (kept r₁ prim ++ kept r₁ sec) := by
  rcases List.mem_cons.mp hx with rfl | hx
  · exact List.mem_cons_self
  · rw [kept, kept, ← List.filter_append]
    exact List.mem_cons_of_mem _ ((hm.mem_kept (List.Subset.refl _)).mpr ⟨hx, hlive⟩)

/-- The rings hold the objects that are kept. -/
theorem BothSwept.rings (hb : BothSwept D iso prim sec r r₁ r') (h : Rings D iso prim sec r)
    (hm : Marked D r iso prim sec r₁) : Rings D iso (kept r₁ prim) (kept r₁ sec) r' := by
  have hnodup := h.nodup
  have hsub : kept r₁ prim ++ kept r₁ sec ⊆ prim ++ sec := fun x hx => (hm.live_of_mem_kept hx).1
  have hlive_iso : Live D r iso (iso :: (prim ++ sec)) iso :=
    ⟨iso, Or.inl rfl, Relation.ReflTransGen.refl⟩
  have hself_out : r.self ∉ prim ++ sec := fun hmem =>
    (List.nodup_cons.mp hnodup).1 (List.mem_cons_of_mem _ hmem)
  have hiso_out : iso ∉ prim ++ sec := (List.nodup_cons.mp (List.nodup_cons.mp hnodup).2).1
  have hmem {x : O} (hx : x ∈ r.self :: iso :: (prim ++ sec))
      (hlive : x ∈ prim ++ sec → Live D r iso (iso :: (prim ++ sec)) x) : x ∈ r'.allocated := by
    rw [hb.allocated_eq, Finset.mem_sdiff, List.mem_toFinset, hm.mem_dead (List.Subset.refl _)]
    exact ⟨h.allocated x hx, fun hdead => hdead.2 (hlive hdead.1)⟩
  refine ⟨?_, fun x hx => ?_, ?_, ?_, fun x hx => ?_, ?_, ?_, ?_, ?_, fun x hx => ?_, fun x hx => ?_,
    fun x hx f hf => ?_, fun x hx => ?_⟩
  · rw [hb.self_eq]
    exact hnodup.sublist
      (((List.filter_sublist.append List.filter_sublist).cons_cons iso).cons_cons r.self)
  · rw [hb.self_eq] at hx
    rcases List.mem_cons.mp hx with rfl | hx
    · exact hmem List.mem_cons_self fun hx => absurd hx hself_out
    · rcases List.mem_cons.mp hx with rfl | hx
      · exact hmem (by simp) fun _ => hlive_iso
      · obtain ⟨hx, hlive⟩ := hm.live_of_mem_kept hx
        exact hmem (List.mem_cons_of_mem _ (List.mem_cons_of_mem _ hx)) fun _ => hlive
  · rw [hb.self_eq, hb.cls_eq, if_neg hself_out, h.cls_self]
  · rw [hb.cls_eq, if_neg hiso_out, h.cls_iso]
  · rw [hb.cls_eq, if_pos (hsub hx)]
  · have hpath := hb.path (primary D iso)
    rwa [ringObjects, if_pos rfl, ringFinish, if_pos rfl, first, if_pos rfl] at hpath
  · rw [hb.next_iso, hb.self_eq]
  · obtain ⟨ring, hring⟩ : ∃ ring, ring ≠ primary D iso := by
      cases primary D iso
      · exact ⟨.nonTrivialRing, by decide⟩
      · exact ⟨.trivialRing, by decide⟩
    have hpath := hb.path ring
    rw [ringObjects, if_neg hring, ringFinish, if_neg hring, first, if_neg hring] at hpath
    rwa [hb.self_eq]
  · rw [hb.lastNotRoot_eq, hb.self_eq]
  · exact h.isTrivial_primary x (List.mem_of_mem_filter hx)
  · exact h.isTrivial_secondary x (List.mem_of_mem_filter hx)
  · obtain ⟨hx, hlive⟩ : x ∈ iso :: (prim ++ sec) ∧ Live D r iso (iso :: (prim ++ sec)) x := by
      rcases List.mem_cons.mp hx with rfl | hx
      · exact ⟨List.mem_cons_self, hlive_iso⟩
      · exact (hm.live_of_mem_kept hx).imp_left (List.mem_cons_of_mem iso)
    by_cases hobjects : f ∈ iso :: (prim ++ sec)
    · exact Or.inl (hm.mem_kept_of_live hobjects (hlive.tail hf hobjects))
    · refine Or.inr ?_
      rw [hb.cls_eq, if_neg fun hmem => hobjects (List.mem_cons_of_mem iso hmem)]
      exact (h.fields_mem x hx f hf).resolve_left hobjects
  · rw [hb.additionalEntryPoints_eq] at hx
    exact hm.mem_kept_of_live (h.roots_mem x hx) ⟨x, Or.inr hx, Relation.ReflTransGen.refl⟩

/-- What is done to the dead objects. -/
theorem BothSwept.events (hb : BothSwept D iso prim sec r r₁ r') (h : Rings D iso prim sec r)
    (hm : Marked D r iso prim sec r₁) :
    ∃ before after, r'.events = r.events ++ (before ++ after) ∧
    (∀ x, CountIs ((before ++ after).count (.finalise x))
      (x ∈ prim ++ sec ∧ ¬ Live D r iso (iso :: (prim ++ sec)) x ∧ D.isTrivial x = false)) ∧
    (∀ x, CountIs ((before ++ after).count (.destructor x))
      (x ∈ prim ++ sec ∧ ¬ Live D r iso (iso :: (prim ++ sec)) x ∧ D.isTrivial x = false)) ∧
    (∀ x, CountIs ((before ++ after).count (.dealloc x))
      (x ∈ prim ++ sec ∧ ¬ Live D r iso (iso :: (prim ++ sec)) x)) ∧
    (∀ x, .destructor x ∉ before) ∧ ∀ x, .finalise x ∉ after := by
  have hnodup : (prim ++ sec).Nodup :=
    (List.nodup_cons.mp (List.nodup_cons.mp h.nodup).2).2
  have hnodup_ring (ring : RingKind) :
      (dead r₁ (ringObjects (primary D iso) prim sec ring)).Nodup := by
    rw [ringObjects]
    refine List.Nodup.filter _ ?_
    split
    · exact (List.nodup_append'.mp hnodup).1
    · exact (List.nodup_append'.mp hnodup).2.1
  have hmem (ring : RingKind) (x : O) :
      x ∈ dead r₁ (ringObjects (primary D iso) prim sec ring) ↔
        x ∈ prim ++ sec ∧ ¬ Live D r iso (iso :: (prim ++ sec)) x ∧
          D.isTrivial x = decide (ring = .trivialRing) := by
    rw [hm.mem_dead (ringObjects_subset _ _), mem_ringObjects_iff h ring, and_assoc,
      and_comm (a := D.isTrivial x = _)]
  let nonTrivial := dead r₁ (ringObjects (primary D iso) prim sec .nonTrivialRing)
  let trivial := dead r₁ (ringObjects (primary D iso) prim sec .trivialRing)
  have hcounts (x : O) := count_ringEvents .nonTrivialRing nonTrivial x
  have hcounts' (x : O) := count_ringEvents .trivialRing trivial x
  have hassoc : nonTrivial.map ObjectEvent.finalise ++
      (nonTrivial.reverse.flatMap (fun q => [.destructor q, .dealloc q]) ++
        ringEvents .trivialRing trivial) =
      ringEvents .nonTrivialRing nonTrivial ++ ringEvents .trivialRing trivial :=
    (List.append_assoc _ _ _).symm
  refine ⟨nonTrivial.map .finalise, nonTrivial.reverse.flatMap (fun q => [.destructor q, .dealloc q]) ++
    ringEvents .trivialRing trivial, ?_, fun x => ?_, fun x => ?_, fun x => ?_, fun x => ?_,
    fun x => ?_⟩
  · rw [hassoc]
    exact hb.events_eq
  · have hcount : (ringEvents .nonTrivialRing nonTrivial ++ ringEvents .trivialRing trivial).count
        (.finalise x) = nonTrivial.count x := by
      rw [List.count_append, (hcounts x).1, (hcounts' x).1]
      rfl
    rw [hassoc, hcount]
    exact countIs_count (hnodup_ring _) (hmem .nonTrivialRing x)
  · have hcount : (ringEvents .nonTrivialRing nonTrivial ++ ringEvents .trivialRing trivial).count
        (.destructor x) = nonTrivial.count x := by
      rw [List.count_append, (hcounts x).2.1, (hcounts' x).2.1]
      rfl
    rw [hassoc, hcount]
    exact countIs_count (hnodup_ring _) (hmem .nonTrivialRing x)
  · have hcount : (ringEvents .nonTrivialRing nonTrivial ++ ringEvents .trivialRing trivial).count
        (.dealloc x) = (nonTrivial ++ trivial).count x := by
      rw [List.count_append, (hcounts x).2.2, (hcounts' x).2.2, List.count_append]
    rw [hassoc, hcount]
    refine countIs_count ((hnodup_ring _).append (hnodup_ring _) fun y hy hy' => ?_) ?_
    · have hfalse := ((hmem .nonTrivialRing y).mp hy).2.2
      have htrue := ((hmem .trivialRing y).mp hy').2.2
      exact absurd (hfalse.symm.trans htrue) (by decide)
    · rw [List.mem_append, hmem, hmem]
      cases D.isTrivial x <;> simp
  · simp
  · simp [ringEvents]

/-- The dead objects of a region that is swept. -/
theorem sweep_collected (h : Rings D iso prim sec r) (hm : Marked D r iso prim sec r₁)
    {r₂ r₃ : RegionTrace O} (hs₂ : Swept { r₁ with currentMemoryUsed := 0 } .nonTrivialRing
      (primary D iso) (ringObjects (primary D iso) prim sec .nonTrivialRing)
      (ringFinish (primary D iso) iso r.self .nonTrivialRing) r₂)
    (hs₃ : Swept r₂ .trivialRing (primary D iso)
      (ringObjects (primary D iso) prim sec .trivialRing)
      (ringFinish (primary D iso) iso r.self .trivialRing) r₃) :
    Collected D iso prim sec r r₃ := by
  have hb := bothSwept h hm hs₂ hs₃
  have hallocated (x : O) : x ∈ r₃.allocated ↔
      x ∈ r.allocated ∧ ¬ (x ∈ prim ++ sec ∧ ¬ Live D r iso (iso :: (prim ++ sec)) x) := by
    rw [hb.allocated_eq, Finset.mem_sdiff, List.mem_toFinset, hm.mem_dead (List.Subset.refl _)]
  exact ⟨⟨kept r₁ prim, kept r₁ sec, hb.rings h hm, fun x => hm.mem_kept (List.subset_append_left ..),
    fun x => hm.mem_kept (List.subset_append_right ..)⟩, hb.events h hm, hallocated⟩

/-- A garbage collection keeps exactly the live objects. -/
theorem gc_collected (h : Rings D iso prim sec r) (sizeclass : ℕ → ℕ)
    (hmark : width D.fields (iso :: (prim ++ sec)).toFinset + (D.fields iso).length +
      r.additionalEntryPoints.length ≤ fuel)
    (hsweep : prim.length + sec.length + 2 ≤ fuel) :
    ∃ r' collect, gc D fuel sizeclass r iso = some (r', collect) ∧
      Collected D iso prim sec r r' := by
  obtain ⟨r₁, hr₁, hm⟩ := mark_spec h hmark
  obtain ⟨r₂, r₃, collect, hs₂, hs₃, hr₃⟩ := sweep_spec h hm sizeclass hsweep
  refine ⟨{ r₃ with remembered := [], previousMemoryUsed := sizeclass r₃.currentMemoryUsed }, collect,
    ?_, ?_⟩
  · rw [gc, if_pos ⟨h.cls_iso, h.next_iso⟩, hr₁, Option.bind_some]
    exact hr₃
  · obtain ⟨hrings, hevents, hallocated⟩ := sweep_collected h hm hs₂ hs₃
    obtain ⟨prim', sec', hrings, hprim, hsec⟩ := hrings
    exact ⟨⟨prim', sec', ⟨hrings.nodup, hrings.allocated, hrings.cls_self, hrings.cls_iso,
      hrings.cls_eq, hrings.primary, hrings.next_iso, hrings.secondary, hrings.last,
      hrings.isTrivial_primary, hrings.isTrivial_secondary, hrings.fields_mem, hrings.roots_mem⟩,
      hprim, hsec⟩, hevents, hallocated⟩

/-- A region with four objects behind its metadata object: the entry point refers to the first one, and
the last one is trivial. -/
def smallDescriptors : Descriptors ℕ where
  fields x := if x = 1 then [2] else []
  finaliser _ := []
  isTrivial x := x = 4
  size _ := 16
  immutable x := x

/-- The region: one object of the primary ring and the one of the secondary ring are garbage. -/
def smallRegion : RegionTrace ℕ where
  self := 0
  allocated := {0, 1, 2, 3, 4}
  cls x := if x = 1 then .iso else .unmarked
  next x := if x = 0 then some 2 else if x = 2 then some 3 else if x = 3 then some 1 else some 0
  nextNotRoot := some 4
  lastNotRoot := some 4
  currentMemoryUsed := 64
  previousMemoryUsed := 0
  additionalEntryPoints := []
  externalReferences := ∅
  remembered := []
  events := []

/-- The rings of the region. -/
theorem smallRegion_rings : Rings smallDescriptors 1 [2, 3] [4] smallRegion := by
  refine ⟨by decide, by decide, rfl, rfl, by decide, ⟨rfl, rfl, rfl⟩, rfl, ⟨rfl, rfl⟩, rfl, by decide,
    by decide, fun x hx f hf => Or.inl ?_, fun x hx => absurd hx List.not_mem_nil⟩
  revert x f
  decide

/-- The collection of the small region. -/
theorem gc_collected_smallRegion :
    ∃ r' collect, gc smallDescriptors 10 id smallRegion 1 = some (r', collect) ∧
      Collected smallDescriptors 1 [2, 3] [4] smallRegion r' :=
  gc_collected smallRegion_rings id (by decide) (by decide)

end VeronaRt.RegionTrace
