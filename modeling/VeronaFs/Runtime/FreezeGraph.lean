import VeronaFs.Runtime.FreezeForest

/-!
# What a freeze leaves

`Freeze::apply` on an entry point makes what it reaches immutable: `IsFrozen` says that two objects have
the same root exactly if they reach each other, and that the root counts the references into their
component, the caller's included.  Everything else of the regions that were frozen is finalised,
destructed and deallocated, and objects outside count the references to them.
-/

set_option linter.unusedSectionVars false

namespace VeronaRt.Freeze

open Foundation ObjectHeap

/-- The object `y` is reached from `x` by the objects of some regions. -/
abbrev Reaches (D : Descriptors) (Rs : List Rings) : ObjAddr → ObjAddr → Prop :=
  PathSearch.Connects (· ∈ objectsOf Rs) D.fields

/-- The objects that `p` reaches are immutable in the heap `h`. -/
structure IsFrozen (D : Descriptors) (h : ObjectHeap) (Rs : List Rings) (p : ObjAddr)
    (live : List ObjAddr) : Prop where
  /-- No object is in the list twice. -/
  nodup : live.Nodup
  /-- It has the objects that are reached. -/
  mem_live : ∀ x, x ∈ live ↔ Reaches D Rs p x
  /-- Roots are those of the strongly connected components. -/
  same_root : ∀ x ∈ live, ∀ y ∈ live, h.rootOf x = h.rootOf y ↔ Reaches D Rs x y ∧ Reaches D Rs y x
  /-- They count the references from outside the component. -/
  count : ∀ x ∈ live, h (h.rootOf x) = some (Header.ofCount
    (incoming D.fields live (live.filter fun y => h.rootOf y = h.rootOf x) +
      if h.rootOf p = h.rootOf x then 1 else 0) .rc)

section

variable {D : Descriptors} {h : ObjectHeap} {ext : ObjAddr → Bool} {Rs : List Rings} {R S : Rings}
  {s : Freeze} {o p q u x y : ObjAddr} {fuel : ℕ} {runs newer older : List Run} {r : Run}
  {C : List ObjAddr}

namespace Freezing

/-- An object that was found is of a component of some region. -/
theorem exists_run (hx : x ∈ live runs) :
    ∃ newer r older, runs = newer ++ r :: older ∧ x ∈ r.done.flatten := by
  obtain ⟨r, hr, hx⟩ := List.mem_flatMap.mp hx
  obtain ⟨newer, older, hruns⟩ := List.append_of_mem hr
  exact ⟨newer, r, older, hruns, hx⟩

/-- The entry point of a region is found. -/
theorem entry_mem_done (hs : Freezing D h ext Rs p runs s) (hr : r ∈ runs) :
    r.region.entry ∈ r.done.flatten :=
  (hs.inv r hr).mem_done_iff.mpr ⟨r.region.entry, List.mem_singleton_self _,
    List.mem_toFinset.mpr (Rings.In.entry_mem _), .refl⟩

/-- What was found of a region is closed under its references. -/
theorem closed_region (hs : Freezing D h ext Rs p runs s) (hr : r ∈ runs) (hx : x ∈ r.done.flatten)
    (hy : y ∈ D.fields x) (hyr : y ∈ r.region.objects) : y ∈ r.done.flatten := by
  obtain ⟨u, hu, hinner, hux⟩ := (hs.inv r hr).mem_done_iff.mp hx
  exact (hs.inv r hr).mem_done_iff.mpr ⟨u, hu, hinner, hux.tail ⟨hy, List.mem_toFinset.mpr hyr⟩⟩

/-- A reference of an object that was found to another region of the list. -/
theorem mem_crossing (hs : Freezing D h ext Rs p runs s) (hf : Forest D h Rs p) (hr : r ∈ runs)
    (hx : x ∈ r.done.flatten) (hy : y ∈ D.fields x) (hyV : y ∈ objectsOf Rs)
    (hyr : y ∉ r.region.objects) : y ∈ r.crossing h := by
  have htaken : (some x, y) ∈ r.taken := by
    refine (hs.inv r hr).taken_perm.mem_iff.mpr (List.mem_append_right _ ?_)
    exact List.mem_flatMap.mpr ⟨x, hx, List.mem_map_of_mem hy⟩
  have hiso : h.getClass y = some .iso := by
    rcases hf.fields_cases (hs.mem r hr) (hs.mem_objects hr hx) hy with hmem | ⟨S, hS, -, rfl⟩ | hout
    · exact absurd hmem hyr
    · exact (hf.rings S hS).entry_class
    · obtain ⟨S, hS, hyS⟩ := List.mem_flatMap.mp hyV
      exact absurd (Forest.mem_cellsOf hS (List.mem_cons_of_mem _ hyS)) hout
  exact List.mem_filter.mpr ⟨List.mem_map.mpr ⟨_, htaken, rfl⟩, decide_eq_true ⟨hyr, hiso⟩⟩

/-- The position of the region of an object. -/
def rank (runs : List Run) (x : ObjAddr) : ℕ :=
  (runs.takeWhile fun r => x ∉ r.done.flatten).length

/-- The position of the region of an object that was found. -/
theorem rank_eq (hs : Freezing D h ext Rs p runs s) (hf : Forest D h Rs p)
    (hruns : runs = newer ++ r :: older) (hx : x ∈ r.done.flatten) : rank runs x = newer.length := by
  have hnodup := hs.live_nodup hf
  have hnew : ∀ r' ∈ newer, decide (x ∉ r'.done.flatten) = true := by
    intro r' hr'
    refine decide_eq_true fun hx' => ?_
    rw [hruns, live, List.flatMap_append] at hnodup
    exact (List.nodup_append'.mp hnodup).2.2 (List.mem_flatMap.mpr ⟨r', hr', hx'⟩)
      (List.mem_flatMap.mpr ⟨r, List.mem_cons_self, hx⟩)
  rw [rank, hruns, List.takeWhile_append_of_pos hnew, List.takeWhile_cons_of_neg (by simpa using hx),
    List.append_nil]

/-- Objects with the same position are of the same region. -/
theorem mem_of_rank (hs : Freezing D h ext Rs p runs s) (hf : Forest D h Rs p)
    (hruns : runs = newer ++ r :: older) (hx : x ∈ r.done.flatten) (hy : y ∈ live runs)
    (hrank : rank runs y = rank runs x) : y ∈ r.done.flatten := by
  obtain ⟨newer', r', older', hruns', hy⟩ := exists_run hy
  rw [hs.rank_eq hf hruns hx, hs.rank_eq hf hruns' hy] at hrank
  have happend := hruns.symm.trans hruns'
  obtain ⟨-, htail⟩ := List.append_inj happend hrank.symm
  rwa [(List.cons.inj htail).1]

end Freezing

/-! ## The end of the loop -/

section

variable (hs : Freezing D h ext Rs p runs s) (hf : Forest D h Rs p) (hend : s.iso = [])
include hs hf hend

namespace Freezing

/-- What was found is closed under references. -/
theorem closed (hx : x ∈ live runs) (hy : y ∈ D.fields x) (hyV : y ∈ objectsOf Rs) : y ∈ live runs := by
  obtain ⟨r, hr, hx⟩ := List.mem_flatMap.mp hx
  by_cases hyr : y ∈ r.region.objects
  · exact List.mem_flatMap.mpr ⟨r, hr, hs.closed_region hr hx hy hyr⟩
  · have hcross := hs.mem_crossing hf hr hx hy hyV hyr
    have hleft : y ∈ p :: runs.flatMap (Run.crossing h) :=
      List.mem_cons_of_mem _ (List.mem_flatMap.mpr ⟨r, hr, hcross⟩)
    rw [hs.entries.mem_iff, hend, List.append_nil] at hleft
    obtain ⟨r', hr', rfl⟩ := List.mem_map.mp hleft
    exact List.mem_flatMap.mpr ⟨r', hr', hs.entry_mem_done hr'⟩

/-- What was found is what `p` reaches. -/
theorem mem_live_iff : x ∈ live runs ↔ Reaches D Rs p x := by
  constructor
  · intro hx
    obtain ⟨r, hr, hx⟩ := List.mem_flatMap.mp hx
    obtain ⟨u, hu, -, hux⟩ := (hs.inv r hr).mem_done_iff.mp hx
    rw [List.mem_singleton.mp hu] at hux
    have hentry := hs.reached r.region.entry
      (List.mem_append_left _ (List.mem_map.mpr ⟨r, hr, rfl⟩))
    exact hentry.trans (PathSearch.connects_mono
      (fun z hz => Forest.mem_objectsOf (hs.mem r hr) (List.mem_toFinset.mp hz)) hux)
  · intro hpx
    induction hpx with
    | refl =>
      have hleft : p ∈ p :: runs.flatMap (Run.crossing h) := List.mem_cons_self
      rw [hs.entries.mem_iff, hend, List.append_nil] at hleft
      obtain ⟨r, hr, hentry⟩ := List.mem_map.mp hleft
      exact List.mem_flatMap.mpr ⟨r, hr, hentry ▸ hs.entry_mem_done hr⟩
    | tail _ hstep ih => exact hs.closed hf hend ih hstep.1 hstep.2

/-- References lead to the same region or to one that was frozen later. -/
theorem rank_le (u v : ObjAddr) (hu : u ∈ live runs)
    (huv : PathSearch.Inside (· ∈ live runs) D.fields u v) : rank runs v ≤ rank runs u := by
  obtain ⟨newer, r, older, hruns, hu⟩ := exists_run hu
  have hr : r ∈ runs := by rw [hruns]; simp
  by_cases hvr : v ∈ r.region.objects
  · have hv := hs.closed_region hr hu huv.1 hvr
    rw [hs.rank_eq hf hruns hu, hs.rank_eq hf hruns hv]
  · have hcross := hs.mem_crossing hf hr hu huv.1 (hs.live_subset huv.2) hvr
    rcases hs.later newer r older hruns v hcross with hwait | ⟨r', hr', rfl⟩
    · rw [hend] at hwait
      cases hwait
    · obtain ⟨newer₁, newer₂, rfl⟩ := List.append_of_mem hr'
      have hruns' : runs = newer₁ ++ r' :: (newer₂ ++ r :: older) := by simp [hruns]
      have hr'runs : r' ∈ runs := by rw [hruns']; simp
      rw [hs.rank_eq hf hruns hu, hs.rank_eq hf hruns' (hs.entry_mem_done hr'runs)]
      simp

/-- Two objects that reach each other do so within their region. -/
theorem connects_region (hruns : runs = newer ++ r :: older) (hx : x ∈ r.done.flatten)
    (hxy : Reaches D Rs x y) (hyx : Reaches D Rs y x) :
    y ∈ r.done.flatten ∧ PathSearch.Connects (· ∈ r.region.objects.toFinset) D.fields x y := by
  have hr : r ∈ runs := by rw [hruns]; simp
  have hlive : ∀ {u v}, u ∈ live runs → Reaches D Rs u v →
      v ∈ live runs ∧ PathSearch.Connects (· ∈ live runs) D.fields u v := by
    intro u v hu huv
    induction huv with
    | refl => exact ⟨hu, .refl⟩
    | tail _ hstep ih =>
      have hv := hs.closed hf hend ih.1 hstep.1 hstep.2
      exact ⟨hv, ih.2.tail ⟨hstep.1, hv⟩⟩
  have hxlive : x ∈ live runs := List.mem_flatMap.mpr ⟨r, hr, hx⟩
  obtain ⟨hylive, hxy'⟩ := hlive hxlive hxy
  obtain ⟨hrank, hpath⟩ := PathSearch.connects_of_rank (hs.rank_le hf hend) hxlive hxy'
    (hlive hylive hyx).2
  refine ⟨hs.mem_of_rank hf hruns hx hylive hrank, PathSearch.connects_mono (fun z hz => ?_) hpath⟩
  exact List.mem_toFinset.mpr (hs.mem_objects hr (hs.mem_of_rank hf hruns hx hz.1 hz.2))

/-- The objects of the component of an object are those that it reaches and that reach it. -/
theorem mem_component_iff (hr : r ∈ runs) (hC : C ∈ r.done) (hx : x ∈ C) :
    y ∈ C ↔ Reaches D Rs x y ∧ Reaches D Rs y x := by
  have hxr : x ∈ r.done.flatten := List.mem_flatten.mpr ⟨C, hC, hx⟩
  have hmono : ∀ {u v}, PathSearch.Connects (· ∈ r.region.objects.toFinset) D.fields u v →
      Reaches D Rs u v := fun huv => PathSearch.connects_mono
    (fun z hz => Forest.mem_objectsOf (hs.mem r hr) (List.mem_toFinset.mp hz)) huv
  constructor
  · intro hy
    have hstrong := (hs.inv r hr).strong_done C hC
    exact ⟨hmono (hstrong x hx y hy), hmono (hstrong y hy x hx)⟩
  · rintro ⟨hxy, hyx⟩
    obtain ⟨newer, older, hruns⟩ := List.append_of_mem hr
    obtain ⟨hyr, hpath⟩ := hs.connects_region hf hend hruns hxr hxy hyx
    obtain ⟨-, hback⟩ := hs.connects_region hf hend hruns hyr hyx hxy
    obtain ⟨E, hE, hyE⟩ := List.mem_flatten.mp hyr
    rwa [((hs.inv r hr).same_iff hC hE hx hyE).mpr ⟨hpath, hback⟩]

/-- The root of a component. -/
theorem exists_root (hr : r ∈ runs) (hC : C ∈ r.done) (hx : x ∈ C) :
    s.heap (s.heap.rootOf x) = some (Header.ofCount
      (r.taken.countP fun e => PathSearch.Enters C e) .rc) ∧
      ∀ y, s.heap.rootOf x = s.heap.rootOf y ↔ y ∈ C := by
  obtain ⟨t, ht, hiff⟩ := hs.finished r hr C hC
  have hroot : s.heap.rootOf x = t := rootOf_eq ((hiff x).mpr hx)
  rw [hroot]
  refine ⟨ht, fun y => ⟨fun hy => (hiff y).mp ?_, fun hy => (rootOf_eq ((hiff y).mpr hy)).symm⟩⟩
  rw [hy]
  exact hs.settled.grounded.endsAt_rootOf y

/-- Each region that was frozen has one reference from outside, the caller's included. -/
theorem incoming_region (hr : r ∈ runs) :
    incoming D.fields (live runs) r.region.objects + (if r.region.entry = p then 1 else 0) = 1 := by
  have hle := hs.count_entries_le hf (hs.mem r hr)
  have hpos : 0 < (p :: runs.flatMap (Run.crossing h)).count r.region.entry := by
    rw [hs.entries.count_eq, hend, List.append_nil]
    exact List.count_pos_iff.mpr (List.mem_map.mpr ⟨r, hr, rfl⟩)
  have hcount := hs.count_entries hf (hs.mem r hr)
  omega

/-- The references into a component are those of its region and those to the entry point. -/
theorem incoming_component (hr : r ∈ runs) (hC : C ∈ r.done) :
    incoming D.fields (live runs) C = incoming D.fields r.done.flatten C +
      if r.region.entry ∈ C then incoming D.fields (live runs) r.region.objects else 0 := by
  obtain ⟨newer, older, hruns⟩ := List.append_of_mem hr
  have hmem : ∀ r' ∈ newer ++ older, r' ∈ runs ∧ r'.region ≠ r.region := by
    intro r' hr'
    have hnodup := hs.nodup
    rw [hruns, List.map_append, List.map_cons] at hnodup
    have hnot := (List.nodup_cons.mp (List.perm_middle.nodup_iff.mp hnodup)).1
    rw [← List.map_append] at hnot
    refine ⟨?_, fun heq => hnot (heq ▸ List.mem_map_of_mem hr')⟩
    rw [hruns]
    simp only [List.mem_append, List.mem_cons] at hr' ⊢
    tauto
  have hCr : ∀ y ∈ C, y ∈ r.region.objects := fun y hy =>
    hs.mem_objects hr (List.mem_flatten.mpr ⟨C, hC, hy⟩)
  have hperm : (live runs).Perm (r.done.flatten ++ live (newer ++ older)) := by
    rw [hruns]
    exact (List.perm_middle (a := r)).flatMap_right _
  have hsource : ∀ x ∈ live (newer ++ older), x ∉ r.region.objects ∧
      ∀ y ∈ D.fields x, y ∈ r.region.objects → y = r.region.entry := by
    intro x hx
    obtain ⟨r', hr', hx⟩ := List.mem_flatMap.mp hx
    obtain ⟨hr'runs, hne⟩ := hmem r' hr'
    have hx' := hs.mem_objects hr'runs hx
    refine ⟨fun hxr => hne ?_, fun y hy hyr => ?_⟩
    · exact hf.eq_of_mem (hs.mem r' hr'runs) (hs.mem r hr) (List.mem_cons_of_mem _ hx')
        (List.mem_cons_of_mem _ hxr)
    · exact hf.eq_entry (hs.mem r' hr'runs) (hs.mem r hr) hne.symm hx' hy hyr
  have hregion : incoming D.fields (live runs) r.region.objects =
      incoming D.fields (live (newer ++ older)) r.region.objects := by
    rw [incoming_perm hperm, incoming_append, incoming_eq_zero fun x hx => hs.mem_objects hr hx,
      Nat.zero_add]
  rw [incoming_perm hperm, incoming_append, hregion]
  congr 1
  have hout : ∀ x ∈ live (newer ++ older), x ∉ C := fun x hx hxC => (hsource x hx).1 (hCr x hxC)
  split
  · next hentry =>
    rw [incoming_eq (q := fun _ y => decide (y ∈ r.region.objects)) hout,
      incoming_eq (q := fun _ y => decide (y ∈ r.region.objects)) (fun x hx => (hsource x hx).1)]
    · intro x _ y _
      rw [decide_eq_true_eq]
    · intro x hx y hy
      rw [decide_eq_true_eq]
      exact ⟨hCr y, fun hyr => (hsource x hx).2 y hy hyr ▸ hentry⟩
  · next hentry =>
    rw [incoming_eq (q := fun _ _ => false) hout]
    · simp
    · intro x hx y hy
      refine ⟨fun hyC => ?_, fun hfalse => by cases hfalse⟩
      exact absurd ((hsource x hx).2 y hy (hCr y hyC) ▸ hyC) hentry

/-- The references into a component that were followed. -/
theorem countP_enters (hr : r ∈ runs) (hC : C ∈ r.done) :
    (r.taken.countP fun e => PathSearch.Enters C e) =
      incoming D.fields (live runs) C + if p ∈ C then 1 else 0 := by
  have hsum : (r.done.flatten.map fun x => (D.fields x).countP fun y =>
      decide (PathSearch.Enters C (some x, y))).sum = incoming D.fields r.done.flatten C := by
    refine (incoming_eq_sum (fun x y => decide (PathSearch.Enters C (some x, y))) fun x _ y _ => ?_).symm
    simp [PathSearch.Enters]
  have hstart : [r.region.entry].countP (fun y => decide (PathSearch.Enters C (none, y))) =
      if r.region.entry ∈ C then 1 else 0 := by
    rw [List.countP_singleton]
    simp [PathSearch.Enters]
  have hp : p ∈ C ↔ r.region.entry ∈ C ∧ r.region.entry = p := by
    constructor
    · intro hpC
      obtain ⟨S, hS, rfl⟩ := hf.start
      have hmem := hs.mem_objects hr (List.mem_flatten.mpr ⟨C, hC, hpC⟩)
      have heq := hf.eq_of_mem hS (hs.mem r hr) (List.mem_cons_of_mem _ (Rings.In.entry_mem S))
        (List.mem_cons_of_mem _ hmem)
      exact ⟨heq ▸ hpC, by rw [heq]⟩
    · rintro ⟨hentry, rfl⟩
      exact hentry
  have hregion := hs.incoming_region hf hend hr
  rw [(hs.inv r hr).countP_taken, hsum, hstart, hs.incoming_component hf hend hr hC]
  by_cases hentry : r.region.entry ∈ C
  · by_cases heq : r.region.entry = p
    · rw [if_pos heq] at hregion
      rw [if_pos hentry, if_pos hentry, if_pos (hp.mpr ⟨hentry, heq⟩)]
      omega
    · rw [if_neg heq] at hregion
      rw [if_pos hentry, if_pos hentry, if_neg fun hpC => heq (hp.mp hpC).2]
      omega
  · rw [if_neg hentry, if_neg hentry, if_neg fun hpC => hentry (hp.mp hpC).1]
    omega

/-- What was found is immutable. -/
theorem isFrozen : IsFrozen D s.heap Rs p (live runs) where
  nodup := hs.live_nodup hf
  mem_live _ := hs.mem_live_iff hf hend
  same_root x hx y _ := by
    obtain ⟨r, hr, hx⟩ := List.mem_flatMap.mp hx
    obtain ⟨C, hC, hx⟩ := List.mem_flatten.mp hx
    rw [(hs.exists_root hf hend hr hC hx).2, hs.mem_component_iff hf hend hr hC hx]
  count x hx := by
    obtain ⟨r, hr, hx⟩ := List.mem_flatMap.mp hx
    obtain ⟨C, hC, hx⟩ := List.mem_flatten.mp hx
    obtain ⟨hword, hiff⟩ := hs.exists_root hf hend hr hC hx
    have hsame : ∀ y, y ∈ (live runs).filter (fun y => s.heap.rootOf y = s.heap.rootOf x) ↔ y ∈ C := by
      intro y
      rw [List.mem_filter, decide_eq_true_eq, eq_comm, hiff]
      refine ⟨fun hy => hy.2, fun hy => ⟨?_, hy⟩⟩
      exact List.mem_flatMap.mpr ⟨r, hr, List.mem_flatten.mpr ⟨C, hC, hy⟩⟩
    have hp : s.heap.rootOf p = s.heap.rootOf x ↔ p ∈ C := eq_comm.trans (hiff p)
    rw [hword, hs.countP_enters hf hend hr hC, incoming_congr hsame]
    simp only [hp]

/-- The followed references to an object outside. -/
theorem hitsOf_eq (ho : o ∉ cellsOf Rs) : hitsOf h runs o =
    ((live runs).map fun x => (D.fields x).countP fun y => h.rootOf y = o).sum := by
  have hrun : ∀ r ∈ runs, hits h r.region.objects.toFinset r.taken o =
      (r.done.flatten.map fun x => (D.fields x).countP fun y => h.rootOf y = o).sum := by
    intro r hr
    have hself : ∀ y ∈ r.region.objects, h.rootOf y ≠ o := by
      intro y hy heq
      have hcells := Forest.mem_cellsOf (hs.mem r hr) (List.mem_cons_of_mem _ hy)
      have hroot : h.rootOf y = y := by
        rcases hf.class_of_mem hcells with hc | hc <;>
          exact rootOf_eq (endsAt_self hc (by decide))
      rw [hroot] at heq
      exact ho (heq ▸ hcells)
    rw [hits, (hs.inv r hr).countP_taken, List.countP_singleton]
    have hentry : r.region.entry ∈ r.region.objects := Rings.In.entry_mem _
    simp only [List.mem_toFinset, hentry, not_true_eq_false, false_and, decide_false,
      Bool.false_eq_true, if_false, Nat.zero_add]
    refine congrArg List.sum (List.map_congr_left fun x _ => List.countP_congr fun y _ => ?_)
    rw [decide_eq_true_eq, decide_eq_true_eq]
    exact ⟨fun hy => hy.2, fun hy => ⟨fun hmem => hself y hmem hy, hy⟩⟩
  rw [hitsOf, List.map_congr_left hrun, live, List.map_flatMap, List.flatMap, List.sum_flatten,
    List.map_map]
  rfl

end Freezing

end

/-- `Freeze::apply` comes to its end. -/
theorem apply_freezing (hf : Forest D h Rs p) (hfuel : ∀ R ∈ Rs, R.size D + Rs.length ≤ fuel)
    (ext : ObjAddr → Bool) :
    ∃ s runs, apply D fuel h ext p = some s ∧ Freezing D h ext Rs p runs s ∧ s.iso = [] := by
  obtain ⟨R, hR, rfl⟩ := hf.start
  have hiso := (hf.rings R hR).entry_class
  obtain ⟨k, rfl⟩ := Nat.exists_eq_add_of_le (Nat.le_of_add_left_le (hfuel R hR))
  obtain ⟨s, runs, hloop, hs, hend⟩ := applyLoop_total (n := Rs.length) (hf.freezing ext) hf
    (show ∀ S ∈ Rs, S.size D ≤ k from fun S hS => by have hle := hfuel S hS; omega) (by simp)
  refine ⟨s, runs, ?_, hs, hend⟩
  rw [apply, if_pos hiso, hloop]

end

/-! ## Two regions -/

/-- The first region: the entry point and an object refer to each other, and a third one is garbage. -/
def outerRings : Rings := ⟨cell 1, cell 2, [cell 3], [cell 4]⟩

/-- The second one, to whose entry point the first one refers. -/
def innerRings : Rings := ⟨cell 5, cell 6, [], []⟩

/-- Both entry points refer to an immutable object. -/
def twoDescriptors : Descriptors where
  fields x :=
    if x = cell 2 then [cell 3, cell 7]
    else if x = cell 3 then [cell 2, cell 6]
    else if x = cell 6 then [cell 7]
    else []
  finaliser x := if x = cell 4 then some [] else none
  hasDestructor x := x = cell 4
  isTraceRegion _ := true
  nextNotRoot x := if x = cell 1 then cell 4 else cell 5
  remembered x := if x = cell 5 then [cell 7] else []

/-- The words of the headers. -/
def twoWords : List (ObjAddr × BitVec 64) :=
  [(cell 1, Header.ofAddress (cell 3) .unmarked),
   (cell 3, Header.ofAddress (cell 2) .unmarked),
   (cell 2, Header.ofAddress (cell 1) .iso),
   (cell 4, Header.ofAddress (cell 1) .unmarked),
   (cell 5, Header.ofAddress (cell 6) .unmarked),
   (cell 6, Header.ofAddress (cell 5) .iso),
   (cell 7, Header.ofCount 2 .rc)]

/-- The heap with these words. -/
def twoHeap : ObjectHeap := ofWords twoWords

/-- The heap has no links to other objects. -/
theorem twoHeap_settled : twoHeap.Settled := by
  intro o bits ho
  have hclass : ∀ e ∈ twoWords, Header.getClass e.2 = some .unmarked ∨ Header.getClass e.2 = some .iso ∨
      Header.getClass e.2 = some .rc := by decide
  rcases hclass _ (mem_of_ofWords ho) with hc | hc | hc <;>
    exact ⟨o, _, endsAt_self ((getClass_of_some ho).trans hc) (by decide), (getClass_of_some ho).trans hc,
      by decide, by decide, fun hne => absurd rfl hne⟩

/-- The rings of both regions are in the heap. -/
theorem twoRings_in : ∀ R ∈ [outerRings, innerRings], R.In twoDescriptors twoHeap := by
  have houter : ∀ R ∈ [outerRings, innerRings], ∀ x ∈ R.objects, ∀ y ∈ twoDescriptors.fields x,
      y ∈ R.objects ∨ (twoHeap.getClass y).any RegionMD.outer = true := by decide
  have hfields : ∀ R ∈ [outerRings, innerRings], ∀ x ∈ R.objects, ∀ y ∈ twoDescriptors.fields x,
      y ∈ R.objects ∨ ∃ c, twoHeap.getClass y = some c ∧ c.outer = true := by
    intro R hR x hx y hy
    refine (houter R hR x hx y hy).imp_right fun hany => ?_
    exact (Option.any_eq_true _ _).mp hany
  have hfinaliser : ∀ R : Rings, ∀ x ∈ R.objects, ∀ isos, twoDescriptors.finaliser x = some isos →
      ∀ q ∈ isos, q ∉ R.objects ∧ twoHeap.getClass q = some .iso := by
    intro R x _ isos hisos q hq
    simp only [twoDescriptors] at hisos
    split at hisos
    · obtain rfl := Option.some.inj hisos
      cases hq
    · cases hisos
  refine List.forall_mem_cons.mpr ⟨?_, List.forall_mem_singleton.mpr ?_⟩
  · exact ⟨rfl, by decide, by decide, by decide, ⟨by decide, by decide, rfl⟩, ⟨by decide, rfl⟩,
      by decide, by decide, hfields _ (by simp), hfinaliser _, by decide⟩
  · exact ⟨rfl, by decide, by decide, by decide, ⟨by decide, rfl⟩, rfl, by decide, by decide,
      hfields _ (by simp), hfinaliser _, by decide⟩

/-- The regions form a tree. -/
theorem twoRings_forest : Forest twoDescriptors twoHeap [outerRings, innerRings] (cell 2) where
  settled := twoHeap_settled
  rings := twoRings_in
  nodup := by decide
  start := ⟨outerRings, by simp, rfl⟩
  entries := by decide
  unique := by decide
  finaliser R _ x _ isos hisos := by
    simp only [twoDescriptors] at hisos
    split at hisos
    · obtain rfl := Option.some.inj hisos
      exact List.nil_subset _
    · cases hisos

/-- The fuel for both regions. -/
theorem twoRings_fuel : ∀ R ∈ [outerRings, innerRings],
    R.size twoDescriptors + [outerRings, innerRings].length ≤ 2 ^ 64 + 100 := by decide

/-! ## Results -/

variable {D : Descriptors} {h : ObjectHeap} {Rs : List Rings} {p : ObjAddr} {fuel : ℕ}

/-- `Freeze::apply` makes the objects that the entry point reaches immutable, in all regions. -/
theorem apply_isFrozen (hf : Forest D h Rs p) (hfuel : ∀ R ∈ Rs, R.size D + Rs.length ≤ fuel)
    (ext : ObjAddr → Bool) :
    ∃ s live, apply D fuel h ext p = some s ∧ IsFrozen D s.heap Rs p live := by
  obtain ⟨s, runs, happly, hs, hend⟩ := apply_freezing hf hfuel ext
  exact ⟨s, live runs, happly, hs.isFrozen hf hend⟩

/-- The two regions are made immutable. -/
theorem apply_isFrozen_two :
    ∃ s live, apply twoDescriptors (2 ^ 64 + 100) twoHeap (fun _ => true) (cell 2) = some s ∧
      IsFrozen twoDescriptors s.heap [outerRings, innerRings] (cell 2) live :=
  apply_isFrozen twoRings_forest twoRings_fuel fun _ => true

end VeronaRt.Freeze
