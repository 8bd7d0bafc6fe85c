import VeronaFs.Runtime.FreezeGraph
import VeronaFs.Runtime.ImmutableRuns

/-!
# Freezing among immutable objects

A freeze keeps the counts of the immutable objects.  The components of before count the references of
what was frozen as well, and the strongly connected components of what the entry point reaches join them,
with one reference that the caller holds.  `Freezing.immutables` says this of the end of the loop.
-/

set_option linter.unusedSectionVars false

namespace VeronaRt.Freeze

open Foundation ObjectHeap
open Foundation.Ledger (Components count references count_references_cons count_references_append
  count_references_of_not)
open Immutable (Immutables Known)

/-- What the descriptors say about immutable objects. -/
def Descriptors.immutable (D : Descriptors) (size : ObjAddr → ℕ) : Immutable.Descriptors where
  fields := D.fields
  hasFinaliser o := (D.finaliser o).isSome
  hasDestructor := D.hasDestructor
  size := size

/-- The immutable objects of a heap and the regions that are to be frozen. -/
structure Beside (D : Descriptors) (size : ObjAddr → ℕ) (h : ObjectHeap) (Cs : List (List ObjAddr))
    (held : List ObjAddr) (Rs : List Rings) (p : ObjAddr) : Prop where
  /-- The immutable objects. -/
  immutables : Immutables (D.immutable size) h Cs held
  /-- The regions. -/
  forest : Forest D h Rs p
  /-- They have no object in common. -/
  disjoint : ∀ x ∈ Cs.flatten, x ∉ cellsOf Rs
  /-- References from the regions lead to immutable objects and to shared ones. -/
  outside : ∀ R ∈ Rs, ∀ x ∈ R.objects, ∀ y ∈ D.fields x, y ∉ cellsOf Rs → Known h Cs y
  /-- The counts fit. -/
  bound : (references D.fields (p :: held) (Cs.flatten ++ objectsOf Rs)).length < 2 ^ 60

section

variable {D : Descriptors} {size : ObjAddr → ℕ} {h : ObjectHeap} {ext : ObjAddr → Bool}
  {Cs : List (List ObjAddr)} {held : List ObjAddr} {Rs : List Rings} {s : Freeze} {o p t u x y : ObjAddr}
  {runs : List Run} {r : Run} {C E : List ObjAddr} {fuel : ℕ}

/-- The components that a freeze adds. -/
def components (runs : List Run) : List (List ObjAddr) := runs.flatMap Run.done

/-- Their objects. -/
theorem flatten_components (runs : List Run) : (components runs).flatten = live runs := by
  induction runs with
  | nil => rfl
  | cons r runs ih =>
    rw [components, List.flatMap_cons, List.flatten_append, live, List.flatMap_cons]
    exact congrArg (r.done.flatten ++ ·) ih

/-- An object of a region is none of the others. -/
theorem objectsOf_subset : objectsOf Rs ⊆ cellsOf Rs := by
  intro x hx
  obtain ⟨R, hR, hx⟩ := List.mem_flatMap.mp hx
  exact Forest.mem_cellsOf hR (List.mem_cons_of_mem _ hx)

namespace Beside

/-- A shared object is in no region. -/
theorem shared_not_mem (hb : Beside D size h Cs held Rs p) (hy : h.getClass y = some .shared) :
    y ∉ cellsOf Rs := by
  intro hmem
  rcases hb.forest.class_of_mem hmem with hc | hc <;>
    · rw [hy] at hc
      cases hc

/-- No immutable object refers to an object of a region. -/
theorem not_mem_fields (hb : Beside D size h Cs held Rs p) (hx : x ∈ Cs.flatten) (hy : y ∈ D.fields x) :
    y ∉ cellsOf Rs := by
  rcases hb.immutables.fields x hx y hy with hyCs | ⟨-, hshared⟩
  · exact hb.disjoint y hyCs
  · exact hb.shared_not_mem hshared

/-- Paths from an immutable object do not leave them. -/
theorem connects_immutable (hb : Beside D size h Cs held Rs p) {V : List ObjAddr}
    (hV : ∀ z ∈ V, z ∈ cellsOf Rs) (hx : x ∈ Cs.flatten)
    (hxy : PathSearch.Connects (· ∈ Cs.flatten ++ V) D.fields x y) :
    y ∈ Cs.flatten ∧ PathSearch.Connects (· ∈ Cs.flatten) D.fields x y := by
  induction hxy with
  | refl => exact ⟨hx, .refl⟩
  | @tail u v _ huv ih =>
    have hv : v ∈ Cs.flatten :=
      (List.mem_append.mp huv.2).resolve_right fun hv => hb.not_mem_fields ih.1 huv.1 (hV v hv)
    exact ⟨hv, ih.2.tail ⟨huv.1, hv⟩⟩

/-- A path to an object of the regions is a path by them. -/
theorem connects_regions (hb : Beside D size h Cs held Rs p) {V : List ObjAddr}
    (hV : ∀ z ∈ V, z ∈ objectsOf Rs) (hy : y ∈ V)
    (hxy : PathSearch.Connects (· ∈ Cs.flatten ++ V) D.fields x y) : Reaches D Rs x y := by
  have hcells : ∀ z ∈ V, z ∈ cellsOf Rs := fun z hz => objectsOf_subset (hV z hz)
  induction hxy with
  | refl => exact .refl
  | @tail u v hxu huv ih =>
    by_cases hxu' : x = u
    · subst hxu'
      exact .single ⟨huv.1, hV v hy⟩
    · have hu : u ∈ Cs.flatten ++ V := by
        rcases Relation.ReflTransGen.cases_tail hxu with heq | ⟨w, -, hw⟩
        · exact absurd heq.symm hxu'
        · exact hw.2
      have huV : u ∈ V := (List.mem_append.mp hu).resolve_left fun huCs =>
        hb.not_mem_fields huCs huv.1 (hcells v hy)
      exact (ih huV).tail ⟨huv.1, hV v hy⟩

end Beside

/-! ## What was frozen -/

namespace Freezing

/-- The components of a region that was frozen. -/
theorem mem_components : C ∈ components runs ↔ ∃ r ∈ runs, C ∈ r.done := List.mem_flatMap

/-- An object that was found is of a component. -/
theorem mem_live_of_mem (hr : r ∈ runs) (hC : C ∈ r.done) (hx : x ∈ C) : x ∈ live runs :=
  List.mem_flatMap.mpr ⟨r, hr, List.mem_flatten.mpr ⟨C, hC, hx⟩⟩

variable (hs : Freezing D h ext Rs p runs s) (hf : Forest D h Rs p) (hend : s.iso = [])
include hs hf hend

/-- The components are the strongly connected ones. -/
theorem components_same (hC : C ∈ components runs) (hE : E ∈ components runs) (hx : x ∈ C) (hy : y ∈ E)
    (hxy : Reaches D Rs x y) (hyx : Reaches D Rs y x) : C = E := by
  obtain ⟨r, hr, hC⟩ := mem_components.mp hC
  obtain ⟨r', hr', hE⟩ := mem_components.mp hE
  have hyC : y ∈ C := (hs.mem_component_iff hf hend hr hC hx).mpr ⟨hxy, hyx⟩
  have hregion := hf.eq_of_mem (hs.mem r hr) (hs.mem r' hr')
    (List.mem_cons_of_mem _ (hs.mem_objects hr (List.mem_flatten.mpr ⟨C, hC, hyC⟩)))
    (List.mem_cons_of_mem _ (hs.mem_objects hr' (List.mem_flatten.mpr ⟨E, hE, hy⟩)))
  obtain rfl := List.inj_on_of_nodup_map hs.nodup hr hr' hregion
  exact ((hs.inv r hr).same_iff hC hE hyC hy).mpr ⟨.refl, .refl⟩

/-- Their objects reach each other inside of them. -/
theorem components_strong (hC : C ∈ components runs) : PathSearch.Strong (· ∈ C) D.fields C := by
  obtain ⟨r, hr, hC⟩ := mem_components.mp hC
  refine ((hs.inv r hr).strong_done C hC).inside fun x hx z hxz hzx => ?_
  have hmono : ∀ {u v}, PathSearch.Connects (· ∈ r.region.objects.toFinset) D.fields u v →
      Reaches D Rs u v := fun huv => PathSearch.connects_mono
    (fun w hw => Forest.mem_objectsOf (hs.mem r hr) (List.mem_toFinset.mp hw)) huv
  exact (hs.mem_component_iff hf hend hr hC hx).mpr ⟨hmono hxz, hmono hzx⟩

/-- Each of them has a reference. -/
theorem components_pos (hC : C ∈ components runs) (hne : ∃ x, x ∈ C) :
    1 ≤ incoming D.fields (live runs) C + if p ∈ C then 1 else 0 := by
  obtain ⟨r, hr, hC⟩ := mem_components.mp hC
  obtain ⟨x, hx⟩ := hne
  by_cases hp : p ∈ C
  · rw [if_pos hp]
    exact Nat.le_add_left ..
  · have hpx := (hs.mem_live_iff hf hend).mp (mem_live_of_mem hr hC hx)
    obtain ⟨u, v, hpu, huC, hv, hvC⟩ := PathSearch.exists_entering hpx hp hx
    have hu := (hs.mem_live_iff hf hend).mpr hpu
    exact (one_le_incoming hu huC hv hvC).trans (Nat.le_add_right ..)

/-! ## The components of before -/

/-- Nothing else has the root of an immutable object. -/
theorem endsAt_outer (ht : t ∉ cellsOf Rs) : s.heap.EndsAt u t ↔ h.EndsAt u t := by
  constructor
  · intro hu
    by_cases hmem : u ∈ cellsOf Rs
    · obtain ⟨R, hR, huR⟩ := List.mem_flatMap.mp hmem
      have hself : s.heap.getClass u ≠ some .sccPtr → False := by
        intro hc
        have htu : t = u := hu.eq_of_getClass hc
        exact ht (htu ▸ hmem)
      by_cases hrun : R ∈ runs.map Run.region
      · obtain ⟨r, hr, rfl⟩ := List.mem_map.mp hrun
        by_cases hlive : u ∈ r.done.flatten
        · obtain ⟨C, hC, huC⟩ := List.mem_flatten.mp hlive
          obtain ⟨t', ht'C, -, -, hiff⟩ := (hs.finished r hr C hC).exists_root (by decide)
          rw [hu.unique ((hiff u).mpr huC)] at ht
          exact absurd (Forest.mem_cellsOf (hs.mem r hr) (List.mem_cons_of_mem _
            (hs.mem_objects hr (List.mem_flatten.mpr ⟨C, hC, ht'C⟩)))) ht
        · have hgone := hs.gone r hr u huR hlive
          refine (hself ?_).elim
          rw [getClass, hgone]
          decide
      · have hword := hs.waiting R hR hrun u huR
        refine (hself ?_).elim
        rw [(reads_eq hword).1]
        rcases hf.class_of_mem hmem with hc | hc <;>
          · rw [hc]
            decide
    · have hroot := hf.settled.grounded.endsAt_rootOf u
      have heq := (hs.outer_ends u hmem _ hroot).unique hu
      rwa [heq] at hroot
  · intro hu
    by_cases hmem : u ∈ cellsOf Rs
    · have htu : t = u := hu.eq_of_getClass (by
        rcases hf.class_of_mem hmem with hc | hc <;>
          · rw [hc]
            decide)
      exact absurd hmem (htu ▸ ht)
    · exact hs.outer_ends u hmem t hu

/-- A component of before counts the references of what was frozen. -/
theorem finished_outer {n : ℕ} (hC : h.IsFinished C n .rc) (hn : n < 2 ^ 60)
    (hdisjoint : ∀ x ∈ C, x ∉ cellsOf Rs) :
    s.heap.IsFinished C (n + incoming D.fields (live runs) C) .rc := by
  obtain ⟨t, htC, ht, htc, hiff⟩ := hC.exists_root (by decide)
  have htout := hdisjoint t htC
  refine ⟨t, ?_, fun u => (hs.endsAt_outer hf hend htout).trans (hiff u)⟩
  have hhits : hitsOf h runs t = incoming D.fields (live runs) C := by
    rw [hs.hitsOf_eq hf hend htout]
    have hout : ∀ x ∈ live runs, x ∉ C := fun x hx hxC =>
      hdisjoint x hxC (objectsOf_subset (hs.live_subset hx))
    refine (incoming_eq (q := fun _ y => decide (h.rootOf y = t)) hout fun x hx y hy => ?_).symm
    rw [decide_eq_true_eq]
    constructor
    · exact fun hyC => rootOf_eq ((hiff y).mpr hyC)
    · intro hroot
      exact (hiff y).mp (hroot ▸ hf.settled.grounded.endsAt_rootOf y)
  rw [hs.outer_word t htout (by rw [htc]; decide), ht, hhits, Option.map_some, Header.counted,
    Header.getClass_ofCount, if_pos rfl, Header.count_ofCount hn]

omit hf hend in
/-- Other references lead to the same objects. -/
theorem known_outer (hb : Beside D size h Cs held Rs p) (hy : Known h Cs y) :
    Known s.heap (Cs ++ components runs) y := by
  rw [Known, List.flatten_append, flatten_components]
  rcases hy with hyCs | ⟨hyCs, hshared⟩
  · exact .inl (List.mem_append_left _ hyCs)
  · have hout := hb.shared_not_mem hshared
    refine .inr ⟨fun hmem => ?_, by rw [hs.outer_class hout, hshared]⟩
    rcases List.mem_append.mp hmem with hmem | hmem
    · exact hyCs hmem
    · exact hout (objectsOf_subset (hs.live_subset hmem))

/-! ## All components -/

omit hf in
/-- The freeze keeps the invariant of the immutable objects. -/
theorem immutables (hb : Beside D size h Cs held Rs p) :
    Immutables (D.immutable size) s.heap (Cs ++ components runs) (p :: held) := by
  have hf := hb.forest
  have hi := hb.immutables
  have hflatten : (Cs ++ components runs).flatten = Cs.flatten ++ live runs := by
    rw [List.flatten_append, flatten_components]
  have hlive : ∀ z ∈ live runs, z ∈ cellsOf Rs := fun z hz => objectsOf_subset (hs.live_subset hz)
  have hp : p ∈ live runs := (hs.mem_live_iff hf hend).mpr .refl
  have hmem : ∀ {C}, C ∈ components runs → ∀ x ∈ C, x ∈ live runs := by
    intro C hC x hx
    obtain ⟨r, hr, hC⟩ := mem_components.mp hC
    exact mem_live_of_mem hr hC hx
  -- The references into a component of before.
  have hold : ∀ C ∈ Cs, count (references D.fields (p :: held) (Cs ++ components runs).flatten) C =
      count (references D.fields held Cs.flatten) C + incoming D.fields (live runs) C := by
    intro C hC
    have hpC : p ∉ C := fun hpC => hb.disjoint p (List.mem_flatten.mpr ⟨C, hC, hpC⟩) (hlive p hp)
    rw [count_references_cons, hflatten, count_references_append, if_neg hpC, Nat.add_zero]
  -- The references into a component that was added.
  have hnew : ∀ C ∈ components runs,
      count (references D.fields (p :: held) (Cs ++ components runs).flatten) C =
        incoming D.fields (live runs) C + if p ∈ C then 1 else 0 := by
    intro C hC
    have hheld : ∀ y ∈ held, y ∉ C := fun y hy hyC =>
      hb.disjoint y (hi.held_mem y hy) (hlive y (hmem hC y hyC))
    have hzero : incoming D.fields Cs.flatten C = 0 := incoming_eq_zero_of_not fun x hx y hy hyC =>
      hb.not_mem_fields hx hy (hlive y (hmem hC y hyC))
    rw [count_references_cons, hflatten, count_references_append, count_references_of_not hheld, hzero,
      Nat.zero_add]
    by_cases hpC : p ∈ C
    · rw [if_pos hpC, if_pos hpC]
    · rw [if_neg hpC, if_neg hpC]
  constructor
  case components =>
    refine ⟨?_, fun C hC => ?_, fun C hC E hE x hx y hy hxy hyx => ?_⟩
    · rw [hflatten]
      refine List.nodup_append'.mpr ⟨hi.components.nodup, hs.live_nodup hf, fun x hx hx' => ?_⟩
      exact hb.disjoint x hx (hlive x hx')
    · rcases List.mem_append.mp hC with hC | hC
      · exact hi.components.strong C hC
      · exact hs.components_strong hf hend hC
    · rw [hflatten] at hxy hyx
      rcases List.mem_append.mp hC with hC | hC
      · have hxCs := List.mem_flatten.mpr ⟨C, hC, hx⟩
        obtain ⟨hyCs, hxy'⟩ := hb.connects_immutable hlive hxCs hxy
        obtain ⟨-, hyx'⟩ := hb.connects_immutable hlive hyCs hyx
        rcases List.mem_append.mp hE with hE | hE
        · exact hi.components.acyclic C hC E hE x hx y hy hxy' hyx'
        · exact absurd (hlive y (hmem hE y hy)) (hb.disjoint y hyCs)
      · have hxlive := hmem hC x hx
        rcases List.mem_append.mp hE with hE | hE
        · have hyCs := List.mem_flatten.mpr ⟨E, hE, hy⟩
          exact absurd (hlive x hxlive) (hb.disjoint x (hb.connects_immutable hlive hyCs hyx).1)
        · exact hs.components_same hf hend hC hE hx hy
            (hb.connects_regions (fun z hz => hs.live_subset hz) (hmem hE y hy) hxy)
            (hb.connects_regions (fun z hz => hs.live_subset hz) hxlive hyx)
  case ne_null =>
    rw [hflatten, List.mem_append]
    rintro (hnull | hnull)
    · exact hi.ne_null hnull
    · obtain ⟨R, hR, hnull⟩ := List.mem_flatMap.mp (hlive _ hnull)
      exact (hf.rings R hR).ne_null hnull
  case grounded => exact hs.settled.grounded
  case counted =>
    intro C hC
    rcases List.mem_append.mp hC with hC | hC
    · have hlt : count (references D.fields held Cs.flatten) C < 2 ^ 60 :=
        (List.countP_le_length ..).trans_lt hi.bound
      have hfinished := hs.finished_outer hf hend (hi.counted C hC) hlt fun x hx =>
        hb.disjoint x (List.mem_flatten.mpr ⟨C, hC, hx⟩)
      exact (hold C hC).symm ▸ hfinished
    · obtain ⟨r, hr, hCr⟩ := mem_components.mp hC
      have hfinished := hs.finished r hr C hCr
      rw [hs.countP_enters hf hend hr hCr] at hfinished
      exact (hnew C hC).symm ▸ hfinished
  case pos =>
    intro C hC
    rcases List.mem_append.mp hC with hC | hC
    · exact ((hi.pos C hC).trans (Nat.le_add_right ..)).trans_eq (hold C hC).symm
    · obtain ⟨r, hr, hCr⟩ := mem_components.mp hC
      obtain ⟨t, htC, -⟩ := (hs.finished r hr C hCr).exists_root (by decide)
      exact (hs.components_pos hf hend hC ⟨t, htC⟩).trans_eq (hnew C hC).symm
  case fields =>
    intro x hx y hy
    rw [hflatten] at hx
    rcases List.mem_append.mp hx with hx | hx
    · exact hs.known_outer hb (hi.fields x hx y hy)
    · by_cases hyV : y ∈ objectsOf Rs
      · refine .inl ?_
        rw [hflatten]
        exact List.mem_append_right _ (hs.closed hf hend hx hy hyV)
      · obtain ⟨R, hR, hxR⟩ := List.mem_flatMap.mp (hs.live_subset hx)
        refine hs.known_outer hb (hb.outside R hR x hxR y hy fun hcells => ?_)
        rcases hf.fields_cases hR hxR hy with hyR | ⟨S, hS, -, rfl⟩ | hout
        · exact hyV (Forest.mem_objectsOf hR hyR)
        · exact hyV (Forest.mem_objectsOf hS (Rings.In.entry_mem S))
        · exact hout hcells
  case held_mem =>
    intro y hy
    rw [hflatten]
    rcases List.mem_cons.mp hy with rfl | hy
    · exact List.mem_append_right _ hp
    · exact List.mem_append_left _ (hi.held_mem y hy)
  case bound =>
    have hsub : (live runs).Subperm (objectsOf Rs) :=
      (hs.live_nodup hf).subperm fun x hx => hs.live_subset hx
    obtain ⟨l, hperm, hl⟩ := hsub
    have hle := (((List.Sublist.refl Cs.flatten).append hl).flatMap fun x =>
      (D.fields x).map (Prod.mk (some x))).length_le
    have heq := ((hperm.append_left Cs.flatten).flatMap_right fun x =>
      (D.fields x).map (Prod.mk (some x))).length_eq
    have hlt := hb.bound
    rw [references, List.length_append, PathSearch.sourced] at hlt ⊢
    show _ + (List.flatMap (fun x => (D.fields x).map (Prod.mk (some x)))
      (Cs ++ components runs).flatten).length < _
    rw [hflatten]
    omega

end Freezing

end

/-! ## What is deallocated -/

section

variable {D : Descriptors} {size : ObjAddr → ℕ} {h : ObjectHeap} {ext : ObjAddr → Bool}
  {Cs : List (List ObjAddr)} {held : List ObjAddr} {Rs : List Rings} {R : Rings} {s : Freeze}
  {o p x y : ObjAddr} {runs : List Run} {fuel : ℕ}

/-- What a freeze finds of a region and what it deallocates are its objects. -/
theorem Freezing.objects_perm (hs : Freezing D h ext Rs p runs s) (hf : Forest D h Rs p) {r : Run}
    (hr : r ∈ runs) : (r.done.flatten ++ r.order).Perm r.region.objects := by
  have hnodup := (List.nodup_cons.mp (hf.rings _ (hs.mem r hr)).nodup).2
  have hdone : r.done.flatten.Perm (r.region.objects.filter fun x => x ∈ r.done.flatten) := by
    refine (List.perm_ext_iff_of_nodup (List.nodup_append'.mp (hs.inv r hr).nodup).2.1
      (hnodup.filter _)).mpr fun x => ?_
    rw [List.mem_filter, decide_eq_true_eq]
    exact ⟨fun hx => ⟨hs.mem_objects hr hx, hx⟩, fun hx => hx.2⟩
  refine (hdone.append (hs.order r hr)).trans ?_
  have hfilter := List.filter_append_perm (fun x => decide (x ∈ r.done.flatten)) r.region.objects
  simpa only [decide_not] using hfilter

end

/-! ## Two regions -/

section

variable {D : Descriptors} {size : ObjAddr → ℕ} {h : ObjectHeap} {Cs : List (List ObjAddr)}
  {held l : List ObjAddr} {Rs : List Rings} {p : ObjAddr} {fuel : ℕ}

end

end VeronaRt.Freeze
