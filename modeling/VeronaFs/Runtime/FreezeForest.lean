import VeronaFs.Foundation.Incoming
import VeronaFs.Runtime.FreezeRegion

/-!
# Freezing an isolated graph

The outer loop of `Freeze::apply`.  The entry points of other regions that the search of a region comes
to are frozen after it, so the loop goes through a tree of regions.

`Forest` is what it needs: the rings of the regions, and that a region has at most one reference from
outside, which is that of the caller for the first one.  `Freezing` is the invariant of the loop with the
regions that were frozen so far, the last first, and `applyLoop_total` says that the loop comes to its
end with it.
-/

set_option linter.unusedSectionVars false

namespace VeronaRt

open Foundation

/-- Counting twice. -/
theorem Header.counted_counted (k n : ℕ) (bits : BitVec 64) :
    counted n (counted k bits) = counted (k + n) bits := by
  by_cases h : getClass bits = some .rc ∨ getClass bits = some .shared
  · induction n with
    | zero => rw [counted_zero, Nat.add_zero]
    | succ n ih => rw [← counted_succ n (by rwa [getClass_counted]), ih, counted_succ (k + n) h, Nat.add_assoc]
  · obtain ⟨hrc, hshared⟩ := not_or.mp h
    rw [counted_of_ne k hrc hshared, counted_of_ne n hrc hshared, counted_of_ne _ hrc hshared]

namespace Freeze

open ObjectHeap

/-! ## Trees of regions -/

/-- The objects of some regions. -/
def objectsOf (Rs : List Rings) : List ObjAddr := Rs.flatMap Rings.objects

/-- The objects of some regions and their metadata objects. -/
def cellsOf (Rs : List Rings) : List ObjAddr := Rs.flatMap fun R => R.self :: R.objects

/-- The regions `Rs` are those that may be frozen with the one whose entry point is `p`. -/
structure Forest (D : Descriptors) (h : ObjectHeap) (Rs : List Rings) (p : ObjAddr) : Prop where
  /-- No component is being built. -/
  settled : h.Settled
  /-- The rings of the regions are in the heap. -/
  rings : ∀ R ∈ Rs, R.In D h
  /-- They have no object in common. -/
  nodup : (cellsOf Rs).Nodup
  /-- `p` is the entry point of one of them. -/
  start : ∃ R ∈ Rs, R.entry = p
  /-- References to entry points of other regions are to those of the list. -/
  entries : ∀ R ∈ Rs, ∀ x ∈ R.objects, ∀ y ∈ D.fields x, h.getClass y = some .iso →
    ∃ R' ∈ Rs, R'.entry = y
  /-- A region has at most one reference from outside, the caller's included. -/
  unique : ∀ R ∈ Rs, incoming D.fields (objectsOf Rs) R.objects + (if R.entry = p then 1 else 0) ≤ 1
  /-- A finaliser adds references of its object. -/
  finaliser : ∀ R ∈ Rs, ∀ x ∈ R.objects, ∀ isos, D.finaliser x = some isos → isos ⊆ D.fields x

section

variable {D : Descriptors} {h h' : ObjectHeap} {Rs : List Rings} {R S : Rings} {s s' : Freeze}
  {o p q u x y : ObjAddr} {fuel : ℕ} {done : List (List ObjAddr)} {taken : List (Option ObjAddr × ObjAddr)}

namespace Forest

/-- The objects of a region are among those of all. -/
theorem mem_objectsOf (hR : R ∈ Rs) (hx : x ∈ R.objects) : x ∈ objectsOf Rs :=
  List.mem_flatMap.mpr ⟨R, hR, hx⟩

/-- So are its objects and its metadata object. -/
theorem mem_cellsOf (hR : R ∈ Rs) (hx : x ∈ R.self :: R.objects) : x ∈ cellsOf Rs :=
  List.mem_flatMap.mpr ⟨R, hR, hx⟩

/-- Two regions of the list have no object in common. -/
theorem eq_of_mem (hf : Forest D h Rs p) (hR : R ∈ Rs) (hS : S ∈ Rs) (hxR : x ∈ R.self :: R.objects)
    (hxS : x ∈ S.self :: S.objects) : R = S := by
  by_contra hne
  have hpair := (List.nodup_flatMap.mp hf.nodup).2
  have hsymm : Std.Symm (Function.onFun List.Disjoint fun R : Rings => R.self :: R.objects) :=
    ⟨fun _ _ hd => List.Disjoint.symm hd⟩
  exact hpair.forall hR hS hne hxR hxS

/-- An object of a region is an entry point or mutable. -/
theorem class_of_mem (hf : Forest D h Rs p) (hx : x ∈ cellsOf Rs) :
    h.getClass x = some .iso ∨ h.getClass x = some .unmarked := by
  obtain ⟨R, hR, hxR⟩ := List.mem_flatMap.mp hx
  exact (hf.rings R hR).getClass_mem hxR

/-- References lead to objects of the region, to the entry points of others and to what is in none. -/
theorem fields_cases (hf : Forest D h Rs p) (hR : R ∈ Rs) (hx : x ∈ R.objects) (hy : y ∈ D.fields x) :
    y ∈ R.objects ∨ (∃ S ∈ Rs, S ≠ R ∧ y = S.entry) ∨ y ∉ cellsOf Rs := by
  rcases (hf.rings R hR).fields x hx y hy with hyR | ⟨c, hc, houter⟩
  · exact .inl hyR
  · by_cases hcells : y ∈ cellsOf Rs
    · have hiso : h.getClass y = some .iso := by
        rcases hf.class_of_mem hcells with hiso | hunmarked
        · exact hiso
        · rw [hc] at hunmarked
          obtain rfl := Option.some.inj hunmarked
          cases houter
      obtain ⟨S, hS, rfl⟩ := hf.entries R hR x hx y hy hiso
      by_cases hSR : S = R
      · exact .inl (hSR ▸ Rings.In.entry_mem S)
      · exact .inr (.inl ⟨S, hS, hSR, rfl⟩)
    · exact .inr (.inr hcells)

/-- An object of another region refers to no object of the region but its entry point. -/
theorem eq_entry (hf : Forest D h Rs p) (hR : R ∈ Rs) (hS : S ∈ Rs) (hne : S ≠ R) (hx : x ∈ R.objects)
    (hy : y ∈ D.fields x) (hyS : y ∈ S.objects) : y = S.entry := by
  have hcells : y ∈ S.self :: S.objects := List.mem_cons_of_mem _ hyS
  rcases hf.fields_cases hR hx hy with hyR | ⟨S', hS', -, rfl⟩ | hout
  · exact absurd (hf.eq_of_mem hS hR hcells (List.mem_cons_of_mem _ hyR)) hne
  · rw [hf.eq_of_mem hS hS' hcells (List.mem_cons_of_mem _ (Rings.In.entry_mem S'))]
  · exact absurd (mem_cellsOf hS hcells) hout

/-- The first region has no reference from the objects of others. -/
theorem entry_ne (hf : Forest D h Rs p) (hR : R ∈ Rs) (hS : S ∈ Rs) (hne : S ≠ R) (hx : x ∈ R.objects)
    (hy : S.entry ∈ D.fields x) : S.entry ≠ p := by
  intro hp
  have hunique := hf.unique S hS
  have hout : x ∉ S.objects := fun hxS => hne (hf.eq_of_mem hS hR (List.mem_cons_of_mem _ hxS)
    (List.mem_cons_of_mem _ hx))
  have hone := one_le_incoming (mem_objectsOf hR hx) hout hy (Rings.In.entry_mem S)
  rw [if_pos hp] at hunique
  omega

/-- Only one object of other regions refers to the entry point of a region. -/
theorem source_unique (hf : Forest D h Rs p) {R' : Rings} (hR : R ∈ Rs) (hR' : R' ∈ Rs) (hS : S ∈ Rs)
    (hne : S ≠ R) (hne' : S ≠ R') (hx : x ∈ R.objects) (hu : u ∈ R'.objects)
    (hxS : S.entry ∈ D.fields x) (huS : S.entry ∈ D.fields u) : x = u := by
  by_contra hxu
  have hout : ∀ {T : Rings} {v : ObjAddr}, T ∈ Rs → S ≠ T → v ∈ T.objects → v ∉ S.objects :=
    fun hT hST hvT hvS => hST (hf.eq_of_mem hS hT (List.mem_cons_of_mem _ hvS)
      (List.mem_cons_of_mem _ hvT))
  have htwo := two_le_incoming (mem_objectsOf hR hx) (mem_objectsOf hR' hu) hxu (hout hR hne hx)
    (hout hR' hne' hu) hxS (Rings.In.entry_mem S) huS (Rings.In.entry_mem S)
  have hunique := hf.unique S hS
  omega

end Forest

/-- A component that was finished before keeps its count if no reference to it was followed. -/
theorem Frozen.finished_old (hf : Frozen D R s s' done taken) (hs : s.heap.Settled) {C : List ObjAddr}
    {n : ℕ} (hC : s.heap.IsFinished C n .rc) (hdisj : ∀ x ∈ C, x ∉ R.self :: R.objects)
    (hno : ∀ e ∈ taken, e.2 ∉ R.objects → e.2 ∉ C) : s'.heap.IsFinished C n .rc := by
  obtain ⟨r, hr, hiff⟩ := hC
  have hclass : s.heap.getClass r = some .rc := by rw [getClass_of_some hr, Header.getClass_ofCount]
  have hrC : r ∈ C := (hiff r).mp (endsAt_self hclass (by decide))
  have hzero : hits s.heap R.objects.toFinset taken r = 0 := by
    refine List.countP_eq_zero.mpr fun e he hcount => ?_
    obtain ⟨hout, hroot⟩ := of_decide_eq_true hcount
    rw [List.mem_toFinset] at hout
    have hends := hs.grounded.endsAt_rootOf e.2
    rw [hroot] at hends
    exact hno e he hout ((hiff e.2).mp hends)
  refine ⟨r, ?_, fun o => ⟨fun ho => ?_, fun ho => hf.outer_ends o (hdisj o ho) r ((hiff o).mpr ho)⟩⟩
  · rw [hf.outer_word r (hdisj r hrC) (by rw [hclass]; decide), hzero, hr, Option.map_some,
      Header.counted_zero]
  · by_cases hin : o ∈ R.self :: R.objects
    · exfalso
      by_cases hlive : o ∈ done.flatten
      · obtain ⟨E, hE, hoE⟩ := List.mem_flatten.mp hlive
        obtain ⟨t, ht, htiff⟩ := hf.finished E hE
        have htE : t ∈ E := (htiff t).mp (endsAt_self (by
          rw [getClass_of_some ht, Header.getClass_ofCount]) (by decide))
        obtain rfl := ho.unique ((htiff o).mpr hoE)
        have hmem : r ∈ R.objects :=
          List.mem_toFinset.mp (hf.inv.inner_of_mem r (List.mem_flatten.mpr ⟨E, hE, htE⟩))
        exact hdisj r hrC (List.mem_cons_of_mem _ hmem)
      · have hnone : s'.heap.getClass o ≠ some .sccPtr := by
          rw [getClass, hf.gone o hin hlive]
          decide
        obtain rfl := ho.eq_of_getClass hnone
        exact hdisj r hrC hin
    · have hends := hf.outer_ends o hin _ (hs.grounded.endsAt_rootOf o)
      rw [← hiff, ← hends.unique ho]
      exact hs.grounded.endsAt_rootOf o

/-! ## The invariant of the loop -/

/-- A region that was frozen. -/
structure Run where
  /-- The region. -/
  region : Rings
  /-- Its components. -/
  done : List (List ObjAddr)
  /-- The references that were followed, with their sources. -/
  taken : List (Option ObjAddr × ObjAddr)
  /-- The objects that were not reached, in the order in which they were finalised. -/
  order : List ObjAddr

/-- The entry points of other regions to which references were followed. -/
def Run.crossing (h : ObjectHeap) (r : Run) : List ObjAddr :=
  (r.taken.map Prod.snd).filter fun y => y ∉ r.region.objects ∧ h.getClass y = some .iso

/-- The objects of the components. -/
def live (runs : List Run) : List ObjAddr := runs.flatMap fun r => r.done.flatten

/-- The number of references to `o` that were followed from the regions that were frozen. -/
noncomputable def hitsOf (h : ObjectHeap) (runs : List Run) (o : ObjAddr) : ℕ :=
  (runs.map fun r => hits h r.region.objects.toFinset r.taken o).sum

/-- The loop of `Freeze::apply` has frozen regions of `Rs`, the last first. -/
structure Freezing (D : Descriptors) (h : ObjectHeap) (ext : ObjAddr → Bool) (Rs : List Rings) (p : ObjAddr)
    (runs : List Run) (s : Freeze) : Prop where
  /-- No component is being built. -/
  settled : s.heap.Settled
  /-- The regions are of the list. -/
  mem : ∀ r ∈ runs, r.region ∈ Rs
  /-- No region was frozen twice. -/
  nodup : (runs.map Run.region).Nodup
  /-- The search of each region has come to its end. -/
  inv : ∀ r ∈ runs, PathSearch.Inv (· ∈ r.region.objects.toFinset) D.fields [r.region.entry]
    ⟨[], [], r.done, r.taken⟩
  /-- The components count the references into them. -/
  finished : ∀ r ∈ runs, ∀ C ∈ r.done,
    s.heap.IsFinished C (r.taken.countP fun e => PathSearch.Enters C e) .rc
  /-- The other objects and the metadata objects are gone. -/
  gone : ∀ r ∈ runs, ∀ x ∈ r.region.self :: r.region.objects, x ∉ r.done.flatten → s.heap x = none
  /-- The regions that were not frozen are as before. -/
  waiting : ∀ R ∈ Rs, R ∉ runs.map Run.region → ∀ x ∈ R.self :: R.objects, s.heap x = h x
  /-- The objects outside count the references to them. -/
  outer_word : ∀ o ∉ cellsOf Rs, h.getClass o ≠ some .sccPtr →
    s.heap o = (h o).map (Header.counted (hitsOf h runs o))
  /-- The links outside stay links. -/
  outer_linked : ∀ o ∉ cellsOf Rs, h.getClass o = some .sccPtr → s.heap.getClass o = some .sccPtr
  /-- They lead to where they did. -/
  outer_ends : ∀ o ∉ cellsOf Rs, ∀ r, h.EndsAt o r → s.heap.EndsAt o r
  /-- The entry points to which references were followed were frozen or are to be. -/
  entries : (p :: runs.flatMap (Run.crossing h)).Perm (runs.map (fun r => r.region.entry) ++ s.iso)
  /-- They are frozen later. -/
  later : ∀ newer r older, runs = newer ++ r :: older → ∀ y ∈ r.crossing h,
    y ∈ s.iso ∨ ∃ r' ∈ newer, r'.region.entry = y
  /-- They are reached. -/
  reached : ∀ q ∈ runs.map (fun r => r.region.entry) ++ s.iso,
    PathSearch.Connects (· ∈ objectsOf Rs) D.fields p q
  /-- No part of a ring is left. -/
  objects : s.objects = []
  /-- Nothing is on the path. -/
  pending : s.pending = []
  /-- The objects that were found have no external reference. -/
  hasExtRef : ∀ o, s.hasExtRef o = if o ∈ live runs then false else ext o
  /-- The objects that were not reached. -/
  order : ∀ r ∈ runs, r.order.Perm (r.region.objects.filter fun x => x ∉ r.done.flatten)
  /-- What was done. -/
  events : s.events = runs.reverse.flatMap fun r => collected D h r.region r.order

/-- The loop at its start. -/
theorem Forest.freezing (hf : Forest D h Rs p) (ext : ObjAddr → Bool) :
    Freezing D h ext Rs p [] ⟨h, ext, [], [p], [], []⟩ where
  settled := hf.settled
  mem _ hr := absurd hr List.not_mem_nil
  nodup := List.nodup_nil
  inv _ hr := absurd hr List.not_mem_nil
  finished _ hr := absurd hr List.not_mem_nil
  gone _ hr := absurd hr List.not_mem_nil
  waiting _ _ _ _ _ := rfl
  outer_word o _ _ := by
    have hid : Header.counted (hitsOf h [] o) = id := funext Header.counted_zero
    rw [hid, Option.map_id_fun, id]
  outer_linked _ _ ho := ho
  outer_ends _ _ _ ho := ho
  entries := List.Perm.refl _
  later newer r older hruns := by simp at hruns
  reached q hq := by
    obtain rfl := List.mem_singleton.mp hq
    exact .refl
  objects := rfl
  pending := rfl
  hasExtRef _ := rfl
  order _ hr := absurd hr List.not_mem_nil
  events := rfl

section

variable {ext : ObjAddr → Bool} {runs : List Run} {r : Run}

namespace Freezing

/-- The references that were followed are that to the entry point and those of the objects that were
found. -/
theorem taken_cases (hs : Freezing D h ext Rs p runs s) (hr : r ∈ runs) {e : Option ObjAddr × ObjAddr}
    (he : e ∈ r.taken) : e = (none, r.region.entry) ∨
      ∃ x ∈ r.done.flatten, e.1 = some x ∧ e.2 ∈ D.fields x := by
  rcases List.mem_append.mp ((hs.inv r hr).taken_perm.mem_iff.mp he) with he | he
  · obtain ⟨y, hy, rfl⟩ := List.mem_map.mp he
    exact .inl (by rw [List.mem_singleton.mp hy])
  · obtain ⟨x, hx, he⟩ := List.mem_flatMap.mp he
    obtain ⟨y, hy, rfl⟩ := List.mem_map.mp he
    exact .inr ⟨x, hx, rfl, hy⟩

/-- What was found is of the region. -/
theorem mem_objects (hs : Freezing D h ext Rs p runs s) (hr : r ∈ runs) (hx : x ∈ r.done.flatten) :
    x ∈ r.region.objects :=
  List.mem_toFinset.mp ((hs.inv r hr).inner_of_mem x hx)

/-- A reference to the entry point of another region comes from an object that was found. -/
theorem source_of_crossing (hs : Freezing D h ext Rs p runs s) (hr : r ∈ runs)
    (hy : y ∈ r.crossing h) : ∃ x ∈ r.done.flatten, y ∈ D.fields x := by
  obtain ⟨hy, hout⟩ := List.mem_filter.mp hy
  obtain ⟨e, he, rfl⟩ := List.mem_map.mp hy
  have hout := (of_decide_eq_true hout).1
  rcases hs.taken_cases hr he with rfl | ⟨x, hx, -, hy⟩
  · exact absurd (Rings.In.entry_mem _) hout
  · exact ⟨x, hx, hy⟩

/-- The regions that were not frozen do not refer to those that were. -/
theorem not_referenced (hs : Freezing D h ext Rs p runs s) (hf : Forest D h Rs p) (hR : R ∈ Rs)
    (hnew : R ∉ runs.map Run.region) (hx : x ∈ R.objects) (hr : r ∈ runs) :
    r.region.entry ∉ D.fields x := by
  intro hfield
  have hne : r.region ≠ R := fun heq => hnew (heq ▸ List.mem_map_of_mem hr)
  have hleft : r.region.entry ∈ p :: runs.flatMap (Run.crossing h) :=
    hs.entries.mem_iff.mpr (List.mem_append_left _ (List.mem_map_of_mem hr))
  rcases List.mem_cons.mp hleft with hp | hleft
  · exact hf.entry_ne hR (hs.mem r hr) hne hx hfield hp
  · obtain ⟨r', hr', hcross⟩ := List.mem_flatMap.mp hleft
    obtain ⟨u, hu, huS⟩ := hs.source_of_crossing hr' hcross
    have hout : r.region.entry ∉ r'.region.objects :=
      (of_decide_eq_true (List.mem_filter.mp hcross).2).1
    have hne' : r.region ≠ r'.region := fun heq => hout (heq ▸ Rings.In.entry_mem _)
    have hxu := hf.source_unique hR (hs.mem r' hr') (hs.mem r hr) hne hne' hx (hs.mem_objects hr' hu)
      hfield huS
    have hRr' := hf.eq_of_mem hR (hs.mem r' hr') (List.mem_cons_of_mem _ hx)
      (List.mem_cons_of_mem _ (hxu ▸ hs.mem_objects hr' hu))
    exact hnew (hRr' ▸ List.mem_map_of_mem hr')

/-- An object outside the regions has the class of before. -/
theorem outer_class (hs : Freezing D h ext Rs p runs s) (ho : o ∉ cellsOf Rs) :
    s.heap.getClass o = h.getClass o := by
  by_cases hc : h.getClass o = some .sccPtr
  · rw [hc, hs.outer_linked o ho hc]
  · have hword := hs.outer_word o ho hc
    cases hbits : h o with
    | none => rw [getClass, getClass, hword, hbits, Option.map_none]
    | some bits =>
      rw [hbits, Option.map_some] at hword
      rw [getClass_of_some hword, getClass_of_some hbits, Header.getClass_counted]

/-- So has an entry point or object outside to which a region refers that was not frozen, and its root
is the same. -/
theorem of_field (hs : Freezing D h ext Rs p runs s) (hf : Forest D h Rs p) (hR : R ∈ Rs)
    (hnew : R ∉ runs.map Run.region) (hx : x ∈ R.objects) (hy : y ∈ D.fields x) (hyR : y ∉ R.objects) :
    s.heap.getClass y = h.getClass y ∧ s.heap.rootOf y = h.rootOf y := by
  rcases hf.fields_cases hR hx hy with hyR' | ⟨S, hS, hne, rfl⟩ | hout
  · exact absurd hyR' hyR
  · have hwait : S ∉ runs.map Run.region := by
      intro hmem
      obtain ⟨r, hr, rfl⟩ := List.mem_map.mp hmem
      exact hs.not_referenced hf hR hnew hx hr hy
    have hword := hs.waiting S hS hwait S.entry (List.mem_cons_of_mem _ (Rings.In.entry_mem S))
    have hclass : s.heap.getClass S.entry = h.getClass S.entry := (reads_eq hword).1
    have hiso := (hf.rings S hS).entry_class
    refine ⟨hclass, ?_⟩
    rw [rootOf_eq (endsAt_self hiso (by decide)), rootOf_eq (endsAt_self (hclass.trans hiso) (by decide))]
  · refine ⟨hs.outer_class hout, ?_⟩
    have hends := hf.settled.grounded.endsAt_rootOf y
    rw [rootOf_eq (hs.outer_ends y hout _ hends)]

/-- A region that was not frozen is still in the heap. -/
theorem rings (hs : Freezing D h ext Rs p runs s) (hf : Forest D h Rs p) (hR : R ∈ Rs)
    (hnew : R ∉ runs.map Run.region) : R.In D s.heap := by
  have hin := hf.rings R hR
  have hword := hs.waiting R hR hnew
  have hlink : ∀ x ∈ R.self :: R.objects, s.heap.link x = h.link x := fun x hx => by
    rw [link, link, hword x hx]
  have hclass : ∀ x ∈ R.self :: R.objects, s.heap.getClass x = h.getClass x := fun x hx =>
    (reads_eq (hword x hx)).1
  have hprimary : ∀ x ∈ R.primary ++ R.secondary, x ∈ R.self :: R.objects := by
    intro x hx
    simp only [Rings.objects, List.mem_cons, List.mem_append] at hx ⊢
    tauto
  constructor
  case trace => exact hin.trace
  case entry_word =>
    rw [hword _ (List.mem_cons_of_mem _ (Rings.In.entry_mem R)), hin.entry_word]
  case self_class => rw [hclass _ List.mem_cons_self, hin.self_class]
  case unmarked => exact fun o ho => (hclass o (hprimary o ho)).trans (hin.unmarked o ho)
  case primary_path =>
    rw [hlink _ List.mem_cons_self]
    refine hin.primary_path.congr fun x hx => hlink x ?_
    simp only [Rings.objects, List.mem_cons, List.mem_append] at hx ⊢
    tauto
  case secondary_path =>
    refine hin.secondary_path.congr fun x hx => hlink x (hprimary x (List.mem_append_right _ hx))
  case nodup => exact hin.nodup
  case ne_null => exact hin.ne_null
  case fields =>
    intro x hx y hy
    by_cases hyR : y ∈ R.objects
    · exact .inl hyR
    · rw [(hs.of_field hf hR hnew hx hy hyR).1]
      exact hin.fields x hx y hy
  case finaliser =>
    intro x hx isos hisos q hq
    obtain ⟨hqR, hiso⟩ := hin.finaliser x hx isos hisos q hq
    rw [(hs.of_field hf hR hnew hx (hf.finaliser R hR x hx isos hisos hq) hqR).1]
    exact ⟨hqR, hiso⟩
  case remembered =>
    intro o ho
    have hout : o ∉ cellsOf Rs := by
      intro hmem
      rcases hin.remembered o ho with hc | hc <;> rcases hf.class_of_mem hmem with hc' | hc' <;>
        · rw [hc] at hc'
          cases hc'
    rw [hs.outer_class hout]
    exact hin.remembered o ho

/-- The references to the entry point of a region are those of the objects that were found. -/
theorem count_crossing (hs : Freezing D h ext Rs p runs s) (hf : Forest D h Rs p) (hr : r ∈ runs)
    (hS : S ∈ Rs) : (r.crossing h).count S.entry = incoming D.fields r.done.flatten S.objects := by
  by_cases hrS : r.region = S
  · subst hrS
    have hzero : (r.crossing h).count r.region.entry = 0 := by
      refine List.count_eq_zero.mpr fun hmem => ?_
      exact (of_decide_eq_true (List.mem_filter.mp hmem).2).1 (Rings.In.entry_mem _)
    rw [hzero, incoming_eq_zero fun x hx => hs.mem_objects hr hx]
  · have hdisj : ∀ x ∈ r.region.objects, x ∉ S.objects := fun x hx hxS =>
      hrS (hf.eq_of_mem (hs.mem r hr) hS (List.mem_cons_of_mem _ hx) (List.mem_cons_of_mem _ hxS))
    have hout : S.entry ∉ r.region.objects := fun hmem => hdisj _ hmem (Rings.In.entry_mem S)
    have hiso := (hf.rings S hS).entry_class
    have hne : r.region.entry ≠ S.entry := fun heq => hout (heq ▸ Rings.In.entry_mem _)
    have hSne : S ≠ r.region := fun heq => hrS heq.symm
    have hstart : [r.region.entry].countP
        (fun y => ((fun z => z == S.entry) ∘ Prod.snd) ((none : Option ObjAddr), y)) = 0 := by
      rw [List.countP_singleton]
      exact if_neg fun heq => hne (beq_iff_eq.mp heq)
    rw [Run.crossing, List.count_filter (by simp [hout, hiso]), List.count, List.countP_map,
      (hs.inv r hr).countP_taken, hstart, Nat.zero_add]
    refine (incoming_eq (fun x hx => hdisj x (hs.mem_objects hr hx)) fun x hx y hy => ?_).symm
    simp only [Function.comp, beq_iff_eq]
    exact ⟨hf.eq_entry (hs.mem r hr) hS hSne (hs.mem_objects hr hx) hy,
      fun heq => heq ▸ Rings.In.entry_mem S⟩

/-- No object was found twice. -/
theorem live_nodup (hs : Freezing D h ext Rs p runs s) (hf : Forest D h Rs p) : (live runs).Nodup := by
  refine List.nodup_flatMap.mpr ⟨fun r hr => ?_, ?_⟩
  · exact (List.nodup_append'.mp (hs.inv r hr).nodup).2.1
  · have hne := List.pairwise_map.mp hs.nodup
    refine hne.imp_of_mem fun {r r'} hr hr' hrr' => ?_
    intro x hx hx'
    exact hrr' (hf.eq_of_mem (hs.mem r hr) (hs.mem r' hr') (List.mem_cons_of_mem _ (hs.mem_objects hr hx))
      (List.mem_cons_of_mem _ (hs.mem_objects hr' hx')))

/-- What was found are objects of the regions. -/
theorem live_subset (hs : Freezing D h ext Rs p runs s) : live runs ⊆ objectsOf Rs := by
  intro x hx
  obtain ⟨r, hr, hx⟩ := List.mem_flatMap.mp hx
  exact Forest.mem_objectsOf (hs.mem r hr) (hs.mem_objects hr hx)

/-- The references to the entry point of a region that were followed, from all regions. -/
theorem count_entries (hs : Freezing D h ext Rs p runs s) (hf : Forest D h Rs p) (hS : S ∈ Rs) :
    (p :: runs.flatMap (Run.crossing h)).count S.entry =
      incoming D.fields (live runs) S.objects + if S.entry = p then 1 else 0 := by
  have hsum : ∀ l ⊆ runs, (l.flatMap (Run.crossing h)).count S.entry =
      incoming D.fields (live l) S.objects := by
    intro l hl
    induction l with
    | nil => rfl
    | cons r l ih =>
      obtain ⟨hr, hl⟩ := List.cons_subset.mp hl
      have hlive : live (r :: l) = r.done.flatten ++ live l := List.flatMap_cons
      rw [List.flatMap_cons, List.count_append, ih hl, hs.count_crossing hf hr hS, hlive,
        incoming_append]
  have hif : (if (p == S.entry) = true then 1 else 0) = if S.entry = p then 1 else 0 :=
    if_congr (beq_iff_eq.trans eq_comm) rfl rfl
  rw [List.count_cons, hsum runs (List.Subset.refl _), hif]

/-- They are at most one. -/
theorem count_entries_le (hs : Freezing D h ext Rs p runs s) (hf : Forest D h Rs p) (hS : S ∈ Rs) :
    (p :: runs.flatMap (Run.crossing h)).count S.entry ≤ 1 := by
  have hle : incoming D.fields (live runs) S.objects ≤ incoming D.fields (objectsOf Rs) S.objects :=
    incoming_le (hs.live_nodup hf) hs.live_subset
  have hunique := hf.unique S hS
  rw [hs.count_entries hf hS]
  omega

/-- An entry point that is to be frozen is that of a region that was not frozen. -/
theorem fresh (hs : Freezing D h ext Rs p runs s) (hf : Forest D h Rs p) (hq : q ∈ s.iso) :
    ∃ R ∈ Rs, R.entry = q ∧ R ∉ runs.map Run.region := by
  obtain ⟨R, hR, rfl⟩ : ∃ R ∈ Rs, R.entry = q := by
    rcases List.mem_cons.mp (hs.entries.mem_iff.mpr (List.mem_append_right _ hq)) with rfl | hq
    · exact hf.start
    · obtain ⟨r, hr, hcross⟩ := List.mem_flatMap.mp hq
      obtain ⟨x, hx, hfield⟩ := hs.source_of_crossing hr hcross
      have hiso := (of_decide_eq_true (List.mem_filter.mp hcross).2).2
      exact hf.entries r.region (hs.mem r hr) x (hs.mem_objects hr hx) q hfield hiso
  refine ⟨R, hR, rfl, fun hmem => ?_⟩
  obtain ⟨r, hr, rfl⟩ := List.mem_map.mp hmem
  have hle := hs.count_entries_le hf hR
  rw [hs.entries.count_eq, List.count_append] at hle
  have hold : 0 < (runs.map fun r => r.region.entry).count r.region.entry :=
    List.count_pos_iff.mpr (List.mem_map_of_mem hr)
  have hwait : 0 < s.iso.count r.region.entry := List.count_pos_iff.mpr hq
  omega

/-- The references that the freeze of a region follows, when the regions of `runs` were frozen. -/
theorem taken_field (hfrozen : Frozen D R s s' done taken)
    {e : Option ObjAddr × ObjAddr} (he : e ∈ taken) (hout : e.2 ∉ R.objects) :
    ∃ x ∈ done.flatten, x ∈ R.objects ∧ e.2 ∈ D.fields x := by
  rcases List.mem_append.mp (hfrozen.inv.taken_perm.mem_iff.mp he) with he | he
  · obtain ⟨y, hy, rfl⟩ := List.mem_map.mp he
    rw [List.mem_singleton.mp hy] at hout
    exact absurd (Rings.In.entry_mem R) hout
  · obtain ⟨x, hx, he⟩ := List.mem_flatMap.mp he
    obtain ⟨y, hy, rfl⟩ := List.mem_map.mp he
    exact ⟨x, hx, List.mem_toFinset.mp (hfrozen.inv.inner_of_mem x hx), hy⟩

/-- The freeze of a region that was not frozen keeps the invariant. -/
theorem cons (hs : Freezing D h ext Rs p runs s) (hf : Forest D h Rs p) (hR : R ∈ Rs)
    (hnew : R ∉ runs.map Run.region) {iso : List ObjAddr} (hiso : s.iso = R.entry :: iso)
    (hfrozen : Frozen D R { s with iso := iso } s' done taken) {order : List ObjAddr}
    (horder : order.Perm (R.objects.filter fun x => x ∉ done.flatten))
    (hevents : s'.events = s.events ++ collected D s.heap R order) :
    Freezing D h ext Rs p (⟨R, done, taken, order⟩ :: runs) s' := by
  have hdisj : ∀ r ∈ runs, ∀ x ∈ r.region.self :: r.region.objects, x ∉ R.self :: R.objects := by
    intro r hr x hx hxR
    exact hnew (hf.eq_of_mem hR (hs.mem r hr) hxR hx ▸ List.mem_map_of_mem hr)
  have hout : ∀ o, o ∉ cellsOf Rs → o ∉ R.self :: R.objects := fun o ho hmem =>
    ho (Forest.mem_cellsOf hR hmem)
  have hfield : ∀ e ∈ taken, e.2 ∉ R.objects →
      s.heap.getClass e.2 = h.getClass e.2 ∧ s.heap.rootOf e.2 = h.rootOf e.2 := by
    intro e he heR
    obtain ⟨x, -, hx, hy⟩ := taken_field hfrozen he heR
    exact hs.of_field hf hR hnew hx hy heR
  have hcrossing : (taken.map Prod.snd).filter
      (fun y => y ∉ R.objects ∧ s.heap.getClass y = some .iso) =
        Run.crossing h ⟨R, done, taken, order⟩ := by
    refine List.filter_congr fun y hy => decide_eq_decide.mpr ?_
    obtain ⟨e, he, rfl⟩ := List.mem_map.mp hy
    exact and_congr_right fun heR => by rw [(hfield e he heR).1]
  have hiso' : s'.iso = Run.crossing h ⟨R, done, taken, order⟩ ++ iso := by
    rw [← hcrossing]
    exact hfrozen.iso
  constructor
  case settled => exact hfrozen.settled
  case mem => exact List.forall_mem_cons.mpr ⟨hR, hs.mem⟩
  case nodup => exact List.nodup_cons.mpr ⟨hnew, hs.nodup⟩
  case inv => exact List.forall_mem_cons.mpr ⟨hfrozen.inv, hs.inv⟩
  case finished =>
    refine List.forall_mem_cons.mpr ⟨hfrozen.finished, fun r hr C hC => ?_⟩
    have hCr : ∀ x ∈ C, x ∈ r.region.objects := fun x hx =>
      hs.mem_objects hr (List.mem_flatten.mpr ⟨C, hC, hx⟩)
    refine hfrozen.finished_old hs.settled (hs.finished r hr C hC)
      (fun x hx => hdisj r hr x (List.mem_cons_of_mem _ (hCr x hx))) fun e he heR heC => ?_
    obtain ⟨x, -, hx, hy⟩ := taken_field hfrozen he heR
    have hne : r.region ≠ R := fun heq => hnew (heq ▸ List.mem_map_of_mem hr)
    have heq := hf.eq_entry hR (hs.mem r hr) hne hx hy (hCr _ heC)
    exact hs.not_referenced hf hR hnew hx hr (heq ▸ hy)
  case gone =>
    refine List.forall_mem_cons.mpr ⟨hfrozen.gone, fun r hr x hx hlive => ?_⟩
    have hnone := hs.gone r hr x hx hlive
    have hclass : s.heap.getClass x ≠ some .sccPtr := by
      rw [getClass, hnone]
      decide
    have hword := hfrozen.outer_word x (hdisj r hr x hx) hclass
    rw [hword]
    show (s.heap x).map _ = none
    rw [hnone, Option.map_none]
  case waiting =>
    intro S hS hwait x hx
    rw [List.map_cons, List.mem_cons, not_or] at hwait
    have hxR : x ∉ R.self :: R.objects := fun hxR => hwait.1 (hf.eq_of_mem hS hR hx hxR)
    have hsame := hs.waiting S hS hwait.2 x hx
    have hclass : s.heap.getClass x ≠ some .sccPtr ∧ s.heap.getClass x ≠ some .rc ∧
        s.heap.getClass x ≠ some .shared := by
      rw [(reads_eq hsame).1]
      rcases hf.class_of_mem (Forest.mem_cellsOf hS hx) with hc | hc <;> rw [hc] <;> decide
    rw [← hsame, hfrozen.outer_word x hxR hclass.1]
    show (s.heap x).map _ = s.heap x
    cases hbits : s.heap x with
    | none => rfl
    | some bits =>
      rw [getClass_of_some hbits] at hclass
      rw [Option.map_some, Header.counted_of_ne _ hclass.2.1 hclass.2.2]
  case outer_word =>
    intro o ho hc
    have hclass : s.heap.getClass o ≠ some .sccPtr := by rwa [hs.outer_class ho]
    have hhits : hits s.heap R.objects.toFinset taken o = hits h R.objects.toFinset taken o := by
      refine List.countP_congr fun e he => ?_
      simp only [decide_eq_true_eq, List.mem_toFinset]
      exact and_congr_right fun heR => by rw [(hfield e he heR).2]
    have hsum : hitsOf h (⟨R, done, taken, order⟩ :: runs) o =
        hits h R.objects.toFinset taken o + hitsOf h runs o := List.sum_cons
    rw [hfrozen.outer_word o (hout o ho) hclass]
    show (s.heap o).map (Header.counted (hits s.heap R.objects.toFinset taken o)) = _
    rw [hhits, hs.outer_word o ho hc, Option.map_map, hsum]
    congr 1
    funext bits
    rw [Function.comp, Header.counted_counted, Nat.add_comm]
  case outer_linked =>
    intro o ho hc
    exact hfrozen.outer_linked o (hout o ho) (hs.outer_linked o ho hc)
  case outer_ends =>
    intro o ho r hr
    exact hfrozen.outer_ends o (hout o ho) r (hs.outer_ends o ho r hr)
  case entries =>
    rw [hiso', List.flatMap_cons, List.map_cons]
    have hold := hs.entries
    rw [hiso] at hold
    refine List.perm_middle.symm.trans ?_
    refine (hold.append_left _).trans ?_
    refine List.perm_append_comm.trans ?_
    rw [List.append_assoc, List.cons_append]
    refine List.perm_middle.trans ?_
    rw [List.cons_append]
    exact ((@List.perm_append_comm _ iso _).append_left _).cons _
  case later =>
    intro newer r older hruns y hy
    rw [hiso']
    cases newer with
    | nil =>
      obtain ⟨rfl, -⟩ := List.cons.inj hruns
      exact .inl (List.mem_append_left _ hy)
    | cons r' newer =>
      rw [List.cons_append] at hruns
      obtain ⟨rfl, htail⟩ := List.cons.inj hruns
      rcases hs.later newer r older htail y hy with hwait | ⟨r', hr', hy'⟩
      · rw [hiso] at hwait
        rcases List.mem_cons.mp hwait with rfl | hwait
        · exact .inr ⟨_, List.mem_cons_self, rfl⟩
        · exact .inl (List.mem_append_right _ hwait)
      · exact .inr ⟨r', List.mem_cons_of_mem _ hr', hy'⟩
  case reached =>
    have hentry : PathSearch.Connects (· ∈ objectsOf Rs) D.fields p R.entry :=
      hs.reached R.entry (by rw [hiso]; simp)
    intro q hq
    rw [List.map_cons, hiso'] at hq
    rcases List.mem_cons.mp hq with rfl | hq
    · exact hentry
    · rcases List.mem_append.mp hq with hq | hq
      · exact hs.reached q (List.mem_append_left _ hq)
      · rcases List.mem_append.mp hq with hq | hq
        · obtain ⟨hq, hcond⟩ := List.mem_filter.mp hq
          obtain ⟨hqR, hqiso⟩ := of_decide_eq_true hcond
          obtain ⟨e, he, rfl⟩ := List.mem_map.mp hq
          obtain ⟨x, hx, hxR, hfield⟩ := taken_field hfrozen he hqR
          obtain ⟨u, hu, -, hux⟩ := hfrozen.inv.mem_done_iff.mp hx
          rw [List.mem_singleton.mp hu] at hux
          have hpath : PathSearch.Connects (· ∈ objectsOf Rs) D.fields _ x := PathSearch.connects_mono
            (fun z hz => Forest.mem_objectsOf hR (List.mem_toFinset.mp hz)) hux
          obtain ⟨S, hS, hSe⟩ := hf.entries R hR x hxR e.2 hfield hqiso
          exact (hentry.trans hpath).tail
            ⟨hfield, hSe ▸ Forest.mem_objectsOf hS (Rings.In.entry_mem S)⟩
        · exact hs.reached q (by rw [hiso]; simp [hq])
  case objects => exact hfrozen.objects
  case pending => exact hfrozen.pending
  case hasExtRef =>
    intro o
    have hlive : live (⟨R, done, taken, order⟩ :: runs) = done.flatten ++ live runs := List.flatMap_cons
    rw [hfrozen.hasExtRef o, hlive]
    show (if o ∈ done.flatten then false else s.hasExtRef o) = _
    rw [hs.hasExtRef o]
    by_cases ho : o ∈ done.flatten <;> simp [ho]
  case order => exact List.forall_mem_cons.mpr ⟨horder, hs.order⟩
  case events =>
    have hclass : collected D s.heap R order = collected D h R order := by
      have hsame : (D.remembered R.self).map (discardEvent s.heap) =
          (D.remembered R.self).map (discardEvent h) := by
        refine List.map_congr_left fun o ho => ?_
        have hoR : o ∉ cellsOf Rs := by
          intro hmem
          rcases (hf.rings R hR).remembered o ho with hc | hc <;>
            rcases hf.class_of_mem hmem with hc' | hc' <;>
            · rw [hc] at hc'
              cases hc'
        rw [discardEvent, discardEvent, hs.outer_class hoR]
      rw [collected, collected, hsame]
    rw [hevents, hs.events, hclass, List.reverse_cons, List.flatMap_append, List.flatMap_singleton]

/-- The loop goes on with a region that was not frozen. -/
theorem step (hs : Freezing D h ext Rs p runs s) (hf : Forest D h Rs p) {iso : List ObjAddr}
    (hiso : s.iso = q :: iso) (hfuel : ∀ R ∈ Rs, R.size D ≤ fuel) :
    ∃ s' r, freezeRegion D fuel { s with iso := iso } q = some s' ∧
      Freezing D h ext Rs p (r :: runs) s' := by
  obtain ⟨R, hR, rfl, hnew⟩ := hs.fresh hf (hiso ▸ List.mem_cons_self)
  obtain ⟨s', done, taken, hfreeze, hfrozen⟩ :=
    freezeRegion_total (s := { s with iso := iso }) hs.settled (hs.rings hf hR hnew) hs.objects hs.pending
      (hfuel R hR)
  obtain ⟨order, horder, hevents⟩ := hfrozen.events
  exact ⟨s', ⟨R, done, taken, order⟩, hfreeze, hs.cons hf hR hnew hiso hfrozen horder hevents⟩

/-- There are not more frozen regions than regions. -/
theorem length_le (hs : Freezing D h ext Rs p runs s) : runs.length ≤ Rs.length := by
  have hsub : runs.map Run.region ⊆ Rs := by
    intro R hR
    obtain ⟨r, hr, rfl⟩ := List.mem_map.mp hR
    exact hs.mem r hr
  rw [← List.length_map (f := Run.region)]
  exact (hs.nodup.subperm hsub).length_le

end Freezing

/-- Nothing is left to freeze. -/
theorem applyLoop_nil (hiso : s.iso = []) (k : ℕ) : applyLoop D k s = some s := by
  cases k with
  | zero => rw [applyLoop, if_pos hiso]
  | succ k =>
    rw [applyLoop]
    simp only [hiso]

/-- The loop comes to its end. -/
theorem applyLoop_total {n : ℕ} (hs : Freezing D h ext Rs p runs s) (hf : Forest D h Rs p)
    (hfuel : ∀ R ∈ Rs, R.size D ≤ fuel) (hn : Rs.length ≤ runs.length + n) :
    ∃ s' runs', applyLoop D (n + fuel) s = some s' ∧ Freezing D h ext Rs p runs' s' ∧ s'.iso = [] := by
  induction n generalizing runs s with
  | zero =>
    have hiso : s.iso = [] := by
      by_contra hne
      obtain ⟨q, iso, hiso⟩ := List.exists_cons_of_ne_nil hne
      obtain ⟨s', r, -, hs'⟩ := hs.step hf hiso hfuel
      have hle := hs'.length_le
      rw [List.length_cons] at hle
      omega
    exact ⟨s, runs, applyLoop_nil hiso _, hs, hiso⟩
  | succ n ih =>
    by_cases hne : s.iso = []
    · exact ⟨s, runs, applyLoop_nil hne _, hs, hne⟩
    · obtain ⟨q, iso, hiso⟩ := List.exists_cons_of_ne_nil hne
      obtain ⟨s', r, hfreeze, hs'⟩ := hs.step hf hiso
        (show ∀ R ∈ Rs, R.size D ≤ n + fuel + 1 from fun R hR => (hfuel R hR).trans (by omega))
      obtain ⟨t, runs', hloop, ht⟩ := ih hs' (by rw [List.length_cons]; omega)
      refine ⟨t, runs', ?_, ht⟩
      rw [Nat.add_right_comm, applyLoop]
      simp only [hiso]
      rw [if_pos hs.objects, hfreeze, Option.bind_some, hloop]

end

end

end Freeze

end VeronaRt
