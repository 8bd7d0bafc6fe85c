import VeronaFs.Runtime.RegionRcDrop

/-!
# Release of a region with reference counts

`RegionRc::release_internal`.  A trace from the entry point counts off references, and `release_cycles`
traces from the Lins stack without counting.  Every object of the region is released exactly if each
is found by one of the two traces and not by the other.

While a region is closed, `refCount` of the entry point is `entry_point_count`.
-/

namespace VeronaRt.RegionRc

open Foundation

variable {O : Type*} [DecidableEq O]

/-! ## Code -/

/-- The region with its entry point open. -/
def opened (r : RegionRc O) (o : O) : RegionRc O :=
  { r with cls := Function.update r.cls o .openIso }

/-- Open a region. -/
def openRegion (r : RegionRc O) (o : O) : Option (RegionRc O) :=
  if r.cls o = .iso then some (r.opened o) else none

/-- The region with its entry point closed. -/
def closed (r : RegionRc O) (o : O) : RegionRc O :=
  { r with cls := Function.update r.cls o .iso }

/-- Close a region. -/
def closeRegion (r : RegionRc O) (o : O) : Option (RegionRc O) :=
  if r.cls o = .openIso then some (r.closed o) else none

/-- A pop of the first trace of `release_internal`. -/
def releaseStep (trivial : O → Bool) : Dealloc O → O → Option (Dealloc O × List O) :=
  dropStep (fun _ _ => none) trivial false

/-- A pop of `release_cycles`. -/
def releaseCyclesStep (trivial : O → Bool) (s : Dealloc O) (p : O) : Option (Dealloc O × List O) :=
  if p ∉ s.region.allocated then none
  else
    match s.region.cls p with
    | .openIso => some (s, [])
    | .marked => some (s, [])
    | .unmarked =>
      if trivial p then some (⟨s.region.mark p, p :: s.gc, s.subRegions⟩, s.region.fields p)
      else
        some (⟨(s.region.emit (.finalise p)).mark p, p :: s.gc, s.region.finaliser p ++ s.subRegions⟩,
          s.region.fields p)
    | .sccPtr => none
    | .rc => some ({ s with region := s.region.emit (.decref p) }, [])
    | .shared => some ({ s with region := s.region.emit (.release p) }, [])
    | .iso => none
    | .pending => none
    | .nonatomicRc => none

/-- Clean up what the first trace has not found. -/
def releaseCycles (fuel : ℕ) (trivial : O → Bool) (s : Dealloc O) : Option (Dealloc O) :=
  drain (releaseCyclesStep trivial) fuel s s.region.linsStack.reverse

/-- Destruct and deallocate a list of objects.  It uses the memory of a deallocated object if one is
in the list twice. -/
def freeAll (r : RegionRc O) (gc : List O) : Option (RegionRc O) :=
  gc.foldlM (fun r o => if o ∈ r.allocated then some (r.freeObject o) else none) r

/-- Release the region with the entry point `o`: the region, and the entry points of other regions that
are added to the work list. -/
def releaseInternal (fuel : ℕ) (trivial : O → Bool) (r : RegionRc O) (o : O) :
    Option (RegionRc O × List O) :=
  (r.openRegion o).bind fun r => (r.decrefInner o).bind fun r =>
    if r.refCount o ≠ 0 then none
    else
      let s : Dealloc O :=
        if trivial o then ⟨r, [], []⟩ else ⟨r.emit (.finalise o), [], r.finaliser o⟩
      (drain (releaseStep trivial) fuel s (r.fields o)).bind fun s =>
        (releaseCycles fuel trivial s).bind fun s =>
          (freeAll s.region s.gc).bind fun r =>
            (r.closeRegion o).map fun r => (r.freeObject o, s.subRegions)

/-! ## The trace from the Lins stack -/

/-- The object is reached from the Lins stack. -/
def FromLins (r : RegionRc O) (iso x : O) : Prop :=
  r.Inner x ∧ ∃ l ∈ r.linsStack, l ≠ iso ∧ r.Reaches l x

/-- The invariant of `release_cycles`, when `visited` are the objects that it has found. -/
structure Cycling (iso : O) (trivial : O → Bool) (s₀ s : Dealloc O) (stack visited : List O) : Prop where
  /-- The references do not change. -/
  fields_eq : s.region.fields = s₀.region.fields
  /-- The finalisers do not change. -/
  finaliser_eq : s.region.finaliser = s₀.region.finaliser
  /-- No object is deallocated yet. -/
  allocated_eq : s.region.allocated = s₀.region.allocated
  /-- The objects that are found are marked. -/
  cls_eq : ∀ x, s.region.cls x = if x ∈ visited then .marked else s₀.region.cls x
  /-- The objects to deallocate. -/
  gc_eq : s.gc = visited ++ s₀.gc
  /-- No object is found twice. -/
  nodup : visited.Nodup
  /-- What is found is an object of the region. -/
  visited_mem : ∀ x ∈ visited, x ∈ s₀.region.allocated ∧ s₀.region.Inner x ∧ x ≠ iso
  /-- What is found is reached from the Lins stack. -/
  reached : ∀ x, x ∈ visited ∨ x ∈ stack ∧ x ≠ iso → ∃ l ∈ s₀.region.linsStack, l ≠ iso ∧
    s₀.region.Reaches l x
  /-- What is on the Lins stack is found, if it is an object of the region. -/
  lins : ∀ x ∈ s₀.region.linsStack, x ∈ stack ∨
    x ∈ s₀.region.allocated ∧ (s₀.region.Inner x → x ≠ iso → x ∈ visited) ∧
      s₀.region.cls x ≠ .sccPtr ∧ s₀.region.cls x ≠ .iso
  /-- What the objects refer to that are found is found, if it is an object of the region. -/
  closed : ∀ x ∈ visited, ∀ y ∈ s₀.region.fields x, y ∈ stack ∨
    (s₀.region.Inner y → y ≠ iso → y ∈ visited) ∧ s₀.region.cls y ≠ .sccPtr ∧ s₀.region.cls y ≠ .iso
  /-- The objects that are found are finalised. -/
  events_eq : ∃ new, s.region.events = s₀.region.events ++ new ∧
    (∀ x, new.count (.finalise x) = if x ∈ visited ∧ trivial x = false then 1 else 0) ∧
    ∀ x, .destructor x ∉ new ∧ .dealloc x ∉ new ∧ .releaseInternal x ∉ new
  /-- The entry points of regions that are found. -/
  count_eq : ∀ x, s.subRegions.count x =
    s₀.subRegions.count x + (visited.map fun y => (s₀.region.finaliser y).count x).sum

/-- The object is one that `release_cycles` fails at. -/
def Blocks (r : RegionRc O) (x : O) : Prop := x ∉ r.allocated ∨ r.cls x = .sccPtr ∨ r.cls x = .iso

namespace Cycling

variable {iso f : O} {trivial : O → Bool} {s₀ s : Dealloc O} {stack visited : List O}

/-- Something leaves the stack that is not to be visited. -/
theorem skip (event : List (ObjectEvent O)) (h : Cycling iso trivial s₀ s (f :: stack) visited)
    (hf : f ∈ s₀.region.allocated ∧ (s₀.region.Inner f → f ≠ iso → f ∈ visited) ∧
      s₀.region.cls f ≠ .sccPtr ∧ s₀.region.cls f ≠ .iso)
    (hevent : ∀ x, .finalise x ∉ event ∧ .destructor x ∉ event ∧ .dealloc x ∉ event ∧
      .releaseInternal x ∉ event) :
    Cycling iso trivial s₀ { s with region := { s.region with events := s.region.events ++ event } }
      stack visited := by
  refine { h with
    reached := fun x hx => h.reached x (hx.imp_right fun hx => ⟨List.mem_cons_of_mem f hx.1, hx.2⟩)
    lins := fun x hx => ?_
    closed := fun x hx y hy => ?_
    events_eq := ?_ }
  · rcases h.lins x hx with hx | hx
    · rcases List.mem_cons.mp hx with rfl | hx
      · exact Or.inr hf
      · exact Or.inl hx
    · exact Or.inr hx
  · rcases h.closed x hx y hy with hy | hy
    · rcases List.mem_cons.mp hy with rfl | hy
      · exact Or.inr hf.2
      · exact Or.inl hy
    · exact Or.inr hy
  · obtain ⟨new, hnew, hfinalise, hother⟩ := h.events_eq
    refine ⟨new ++ event, ?_, fun x => ?_, fun x => ?_⟩
    · change s.region.events ++ event = _
      rw [hnew, List.append_assoc]
    · rw [List.count_append, hfinalise, List.count_eq_zero.mpr (hevent x).1, Nat.add_zero]
    · obtain ⟨hd, hde, hr⟩ := hother x
      obtain ⟨-, hd', hde', hr'⟩ := hevent x
      simp only [List.mem_append, not_or]
      exact ⟨⟨hd, hd'⟩, ⟨hde, hde'⟩, hr, hr'⟩

/-- An object of the region is visited. -/
theorem visit {r : RegionRc O} {subRegions : List O}
    (h : Cycling iso trivial s₀ s (f :: stack) visited) (hmem : f ∈ s₀.region.allocated)
    (hin : s₀.region.Inner f) (hne : f ≠ iso) (hnew : f ∉ visited)
    (hfields : r.fields = s.region.fields) (hfinaliser : r.finaliser = s.region.finaliser)
    (hallocated : r.allocated = s.region.allocated)
    (hcls : r.cls = Function.update s.region.cls f .marked)
    (hevents : r.events = s.region.events ++ if trivial f then [] else [.finalise f])
    (hregions : ∀ x, subRegions.count x = s.subRegions.count x + (s₀.region.finaliser f).count x) :
    Cycling iso trivial s₀ ⟨r, f :: s.gc, subRegions⟩ (s₀.region.fields f ++ stack) (f :: visited) := by
  obtain ⟨l, hl, hliso, hreach⟩ := h.reached f (Or.inr ⟨List.mem_cons_self, hne⟩)
  have hout : s₀.region.cls f ≠ .sccPtr ∧ s₀.region.cls f ≠ .iso := by
    refine ⟨fun heq => ?_, Shaped.cls_ne_iso (SameObjects.refl _) hin⟩
    rw [Inner, heq] at hin
    cases hin
  have hmore {y : O} (hy : s₀.region.Inner y → y ≠ iso → y ∈ visited) :
      s₀.region.Inner y → y ≠ iso → y ∈ f :: visited := fun hin' hne' =>
    List.mem_cons_of_mem f (hy hin' hne')
  refine ⟨hfields.trans h.fields_eq, hfinaliser.trans h.finaliser_eq, hallocated.trans h.allocated_eq,
    fun x => ?_, ?_, List.nodup_cons.mpr ⟨hnew, h.nodup⟩, fun x hx => ?_, fun x hx => ?_, fun x hx => ?_,
    fun x hx y hy => ?_, ?_, fun x => ?_⟩
  · change r.cls x = _
    rw [hcls, Function.update_apply]
    rcases eq_or_ne x f with rfl | hxf
    · rw [if_pos rfl, if_pos List.mem_cons_self]
    · simp only [h.cls_eq x, List.mem_cons, hxf, false_or, if_false]
  · change f :: s.gc = _
    rw [h.gc_eq]
    rfl
  · rcases List.mem_cons.mp hx with rfl | hx
    · exact ⟨hmem, hin, hne⟩
    · exact h.visited_mem x hx
  · rcases hx with hx | ⟨hx, hx'⟩
    · rcases List.mem_cons.mp hx with rfl | hx
      · exact ⟨l, hl, hliso, hreach⟩
      · exact h.reached x (Or.inl hx)
    · rcases List.mem_append.mp hx with hx | hx
      · exact ⟨l, hl, hliso, hreach.tail hx⟩
      · exact h.reached x (Or.inr ⟨List.mem_cons_of_mem f hx, hx'⟩)
  · rcases h.lins x hx with hx | ⟨hx, hx', hcls'⟩
    · rcases List.mem_cons.mp hx with rfl | hx
      · exact Or.inr ⟨hmem, fun _ _ => List.mem_cons_self, hout⟩
      · exact Or.inl (List.mem_append_right _ hx)
    · exact Or.inr ⟨hx, hmore hx', hcls'⟩
  · rcases List.mem_cons.mp hx with rfl | hx
    · exact Or.inl (List.mem_append_left _ hy)
    · rcases h.closed x hx y hy with hy | ⟨hy, hcls'⟩
      · rcases List.mem_cons.mp hy with rfl | hy
        · exact Or.inr ⟨fun _ _ => List.mem_cons_self, hout⟩
        · exact Or.inl (List.mem_append_right _ hy)
      · exact Or.inr ⟨hmore hy, hcls'⟩
  · obtain ⟨new, hnew', hfinalise, hother⟩ := h.events_eq
    refine ⟨new ++ if trivial f then [] else [.finalise f], ?_, fun x => ?_, fun x => ?_⟩
    · change r.events = _
      rw [hevents, hnew', List.append_assoc]
    · rw [List.count_append, hfinalise]
      rcases eq_or_ne x f with rfl | hxf
      · cases htrivial : trivial x <;> simp [hnew]
      · have hcons : x ∈ f :: visited ↔ x ∈ visited := by simp [hxf]
        have hnone : (if trivial f then [] else [ObjectEvent.finalise f]).count (.finalise x) = 0 := by
          cases trivial f <;> simp [Ne.symm hxf]
        rw [hnone, Nat.add_zero]
        simp only [hcons]
    · obtain ⟨hd, hde, hr⟩ := hother x
      cases trivial f <;> simp [hd, hde, hr]
  · change subRegions.count x = _
    rw [hregions, h.count_eq, List.map_cons, List.sum_cons]
    omega

/-- A pop keeps the invariant, unless it fails. -/
theorem step (hr : Shaped iso s₀.region)
    (htrivial : ∀ x, trivial x = true → s₀.region.finaliser x = [])
    (h : Cycling iso trivial s₀ s (f :: stack) visited) :
    (Blocks s₀.region f → releaseCyclesStep trivial s f = none) ∧
    (¬ Blocks s₀.region f → ∃ s' pushed visited', releaseCyclesStep trivial s f = some (s', pushed) ∧
      Cycling iso trivial s₀ s' (pushed ++ stack) visited' ∧
      (∀ y ∈ pushed, y ∈ s₀.region.fields f ∧ f ∈ visited') ∧
      width s₀.region.fields (s₀.region.allocated \ visited'.toFinset) + pushed.length ≤
        width s₀.region.fields (s₀.region.allocated \ visited.toFinset)) := by
  have hout (hf : f ∈ visited) : s₀.region.cls f ≠ .sccPtr ∧ s₀.region.cls f ≠ .iso := by
    have hin := (h.visited_mem f hf).2.1
    refine ⟨fun heq => ?_, Shaped.cls_ne_iso (SameObjects.refl _) hin⟩
    rw [Inner, heq] at hin
    cases hin
  rw [releaseCyclesStep, h.allocated_eq, h.cls_eq f]
  constructor
  · rintro (hmem | hcls | hcls)
    · rw [if_pos hmem]
    · rw [if_neg fun hf => (hout hf).1 hcls, hcls, ite_self]
    · rw [if_neg fun hf => (hout hf).2 hcls, hcls, ite_self]
  · intro hblocks
    rw [Blocks, not_or, not_or, not_not] at hblocks
    obtain ⟨hmem, hscc, hiso⟩ := hblocks
    have hsame : ({ s with region := { s.region with events := s.region.events ++ [] } } : Dealloc O) =
        s := by rw [List.append_nil]
    rw [if_neg (not_not.mpr hmem)]
    by_cases hvisited : f ∈ visited
    · rw [if_pos hvisited]
      have hskip := h.skip [] ⟨hmem, fun _ _ => hvisited, hscc, hiso⟩ (by simp)
      rw [hsame] at hskip
      exact ⟨s, [], visited, rfl, hskip, fun y hy => absurd hy List.not_mem_nil, le_rfl⟩
    · rw [if_neg hvisited]
      by_cases hin : s₀.region.Inner f
      · rw [hr.cls_eq hmem hin]
        by_cases hfiso : f = iso
        · rw [if_pos hfiso]
          have hskip := h.skip [] ⟨hmem, fun _ hne => absurd hfiso hne, hscc, hiso⟩ (by simp)
          rw [hsame] at hskip
          exact ⟨s, [], visited, rfl, hskip, fun y hy => absurd hy List.not_mem_nil, le_rfl⟩
        · have hfields : s.region.fields f = s₀.region.fields f := congrFun h.fields_eq f
          have hfinaliser : s.region.finaliser f = s₀.region.finaliser f := congrFun h.finaliser_eq f
          have hwidth : width s₀.region.fields (s₀.region.allocated \ (f :: visited).toFinset) +
                (s₀.region.fields f).length ≤
              width s₀.region.fields (s₀.region.allocated \ visited.toFinset) := by
            have hleft : f ∈ s₀.region.allocated \ visited.toFinset :=
              Finset.mem_sdiff.mpr ⟨hmem, fun hx => hvisited (List.mem_toFinset.mp hx)⟩
            rw [List.toFinset_cons, Finset.sdiff_insert]
            exact (width_erase s₀.region.fields hleft).le
          rw [if_neg hfiso]
          cases hf : trivial f with
          | true =>
            simp only [if_true]
            refine ⟨_, _, f :: visited, rfl, ?_, fun y hy => ⟨hfields ▸ hy, List.mem_cons_self⟩,
              hfields ▸ hwidth⟩
            rw [hfields]
            refine h.visit hmem hin hfiso hvisited rfl rfl rfl rfl ?_ fun x => ?_
            · rw [hf, if_pos rfl, List.append_nil]
              rfl
            · rw [htrivial f hf]
              rfl
          | false =>
            simp only [Bool.false_eq_true, if_false]
            refine ⟨_, _, f :: visited, rfl, ?_, fun y hy => ⟨hfields ▸ hy, List.mem_cons_self⟩,
              hfields ▸ hwidth⟩
            rw [hfields]
            refine h.visit hmem hin hfiso hvisited rfl rfl rfl rfl ?_ fun x => ?_
            · rw [hf]
              rfl
            · rw [List.count_append, Nat.add_comm, hfinaliser]
      · have hout' : (s₀.region.cls f).outer = true := Bool.eq_true_of_not_eq_false hin
        have hskip {event : ObjectEvent O} (hevent : ∀ x, event ≠ .finalise x ∧ event ≠ .destructor x ∧
            event ≠ .dealloc x ∧ event ≠ .releaseInternal x) :
            Cycling iso trivial s₀ { s with region := s.region.emit event } stack visited := by
          refine h.skip [event] ⟨hmem, fun hin' => absurd hin' hin, hscc, hiso⟩ fun x => ?_
          obtain ⟨hf, hd, hde, hr⟩ := hevent x
          simp [hf.symm, hd.symm, hde.symm, hr.symm]
        cases hcls : s₀.region.cls f with
        | iso => exact absurd hcls hiso
        | sccPtr => exact absurd hcls hscc
        | rc =>
          exact ⟨_, [], visited, rfl, hskip (by simp), fun y hy => absurd hy List.not_mem_nil, le_rfl⟩
        | shared =>
          exact ⟨_, [], visited, rfl, hskip (by simp), fun y hy => absurd hy List.not_mem_nil, le_rfl⟩
        | unmarked => rw [hcls] at hout'; cases hout'
        | marked => rw [hcls] at hout'; cases hout'
        | pending => rw [hcls] at hout'; cases hout'
        | nonatomicRc => rw [hcls] at hout'; cases hout'
        | openIso => rw [hcls] at hout'; cases hout'

/-- The trace starts with the Lins stack. -/
theorem init (s₀ : Dealloc O) : Cycling iso trivial s₀ s₀ s₀.region.linsStack.reverse [] where
  fields_eq := rfl
  finaliser_eq := rfl
  allocated_eq := rfl
  cls_eq := fun _ => rfl
  gc_eq := rfl
  nodup := List.nodup_nil
  visited_mem := fun _ hx => absurd hx List.not_mem_nil
  reached := fun x hx => by
    obtain ⟨hx, hne⟩ := hx.resolve_left List.not_mem_nil
    exact ⟨x, List.mem_reverse.mp hx, hne, Relation.ReflTransGen.refl⟩
  lins := fun _ hx => Or.inl (List.mem_reverse.mpr hx)
  closed := fun _ hx => absurd hx List.not_mem_nil
  events_eq := ⟨[], by simp, by simp, by simp⟩
  count_eq := fun _ => rfl

/-- In the end what was found is what is reached from the Lins stack, if no object refers to the entry
point. -/
theorem mem_iff (hr : Shaped iso s₀.region) (h : Cycling iso trivial s₀ s [] visited)
    (hiso : ∀ x ∈ s₀.region.allocated, iso ∉ s₀.region.fields x) {x : O} :
    x ∈ visited ↔ FromLins s₀.region iso x := by
  constructor
  · intro hx
    exact ⟨(h.visited_mem x hx).2.1, h.reached x (Or.inl hx)⟩
  · rintro ⟨hin, l, hl, hliso, hreach⟩
    obtain ⟨hmem, hvisited, -⟩ := (h.lins l hl).resolve_left List.not_mem_nil
    have hclosed : ∀ x, (x ∈ s₀.region.allocated ∧ x ≠ iso ∧ (s₀.region.Inner x → x ∈ visited)) →
        ∀ y ∈ s₀.region.fields x,
          y ∈ s₀.region.allocated ∧ y ≠ iso ∧ (s₀.region.Inner y → y ∈ visited) := by
      rintro x ⟨hx, -, hx'⟩ y hy
      have hne : y ≠ iso := fun heq => hiso x hx (heq ▸ hy)
      obtain ⟨hy', -⟩ := (h.closed x (hx' (hr.inner_of_mem_fields hx hy)) y hy).resolve_left
        List.not_mem_nil
      exact ⟨hr.fields_mem x hx y hy, hne, fun hin' => hy' hin' hne⟩
    exact (Foundation.Reaches.mem_of_closed
      (P := fun x => x ∈ s₀.region.allocated ∧ x ≠ iso ∧ (s₀.region.Inner x → x ∈ visited)) hreach
      ⟨hmem, hliso, fun hin' => hvisited hin' hliso⟩ hclosed).2.2 hin

/-- The trace ends if nothing that it comes to makes it fail. -/
theorem total {fuel : ℕ} (hr : Shaped iso s₀.region)
    (htrivial : ∀ x, trivial x = true → s₀.region.finaliser x = [])
    (hlins : ∀ x ∈ s₀.region.linsStack, ¬ Blocks s₀.region x)
    (hfields : ∀ x, FromLins s₀.region iso x → ∀ y ∈ s₀.region.fields x, ¬ Blocks s₀.region y)
    (hfuel : width s₀.region.fields s₀.region.allocated + s₀.region.linsStack.length ≤ fuel) :
    ∃ s visited, releaseCycles fuel trivial s₀ = some s ∧ Cycling iso trivial s₀ s [] visited := by
  have hset {s : Dealloc O} {stack visited : List O} (h : Cycling iso trivial s₀ s stack visited) :
      visited = s.gc.take (s.gc.length - s₀.gc.length) := by
    rw [h.gc_eq, List.length_append, Nat.add_sub_cancel, List.take_left']
    rfl
  have hwidth : width s₀.region.fields
      (s₀.region.allocated \ (s₀.gc.take (s₀.gc.length - s₀.gc.length)).toFinset) +
      s₀.region.linsStack.reverse.length ≤ fuel := by
    rw [Nat.sub_self, List.take_zero, List.toFinset_nil, Finset.sdiff_empty, List.length_reverse]
    exact hfuel
  obtain ⟨s, hs, visited, hend, -⟩ := drain_total
    (I := fun s stack => ∃ visited, Cycling iso trivial s₀ s stack visited ∧
      ∀ y ∈ stack, ¬ Blocks s₀.region y)
    (μ := fun s => width s₀.region.fields
      (s₀.region.allocated \ (s.gc.take (s.gc.length - s₀.gc.length)).toFinset))
    (fun s f stack ⟨visited, hc, hstack⟩ => by
      obtain ⟨s', pushed, visited', hstep, hc', hpushed, hle⟩ :=
        (hc.step hr htrivial).2 (hstack f List.mem_cons_self)
      refine ⟨s', pushed, hstep, ⟨visited', hc', fun y hy => ?_⟩, ?_⟩
      · rcases List.mem_append.mp hy with hy | hy
        · obtain ⟨hy, hf⟩ := hpushed y hy
          exact hfields f ⟨(hc'.visited_mem f hf).2.1, hc'.reached f (Or.inl hf)⟩ y hy
        · exact hstack y (List.mem_cons_of_mem f hy)
      · rw [← hset hc, ← hset hc']
        exact hle)
    ⟨[], init s₀, fun y hy => hlins y (List.mem_reverse.mp hy)⟩ hwidth
  exact ⟨s, visited, hs, hend⟩

/-- A trace that ends has come to nothing that makes it fail. -/
theorem ended {fuel : ℕ} (hr : Shaped iso s₀.region)
    (htrivial : ∀ x, trivial x = true → s₀.region.finaliser x = [])
    (hs : releaseCycles fuel trivial s₀ = some s) : ∃ visited, Cycling iso trivial s₀ s [] visited := by
  refine drain_some (I := fun s stack => ∃ visited, Cycling iso trivial s₀ s stack visited)
    (fun s f stack s' pushed ⟨visited, hc⟩ hstep => ?_) ⟨[], init s₀⟩ hs
  obtain ⟨hblocks, hstep'⟩ := hc.step hr htrivial
  by_cases hf : Blocks s₀.region f
  · rw [hblocks hf] at hstep
    cases hstep
  · obtain ⟨s'', pushed', visited', heq, hc', -⟩ := hstep' hf
    rw [heq] at hstep
    injection hstep with hstep
    injection hstep with hs' hpushed
    subst hs' hpushed
    exact ⟨visited', hc'⟩

end Cycling

/-! ## Deallocation of the objects that were found -/

/-- Objects are deallocated one after the other exactly if they are allocated and none is twice in the
list. -/
theorem freeAll_eq_some {gc : List O} {r r' : RegionRc O} :
    freeAll r gc = some r' ↔
      gc.Nodup ∧ (∀ x ∈ gc, x ∈ r.allocated) ∧ gc.foldl freeObject r = r' := by
  induction gc generalizing r with
  | nil => simp [freeAll]
  | cons x gc ih =>
    rw [freeAll, List.foldlM_cons, List.foldl_cons, List.nodup_cons]
    have hmem {y : O} : y ∈ (r.freeObject x).allocated ↔ y ≠ x ∧ y ∈ r.allocated :=
      Finset.mem_erase
    by_cases hx : x ∈ r.allocated
    · rw [if_pos hx]
      refine Iff.trans (Iff.refl (freeAll (r.freeObject x) gc = some r')) (ih.trans ?_)
      simp only [hmem, List.mem_cons, forall_eq_or_imp]
      constructor
      · rintro ⟨hnodup, hall, hr'⟩
        exact ⟨⟨fun hxgc => (hall x hxgc).1 rfl, hnodup⟩, ⟨hx, fun y hy => (hall y hy).2⟩, hr'⟩
      · rintro ⟨⟨hxgc, hnodup⟩, ⟨-, hall⟩, hr'⟩
        exact ⟨hnodup, fun y hy => ⟨fun heq => hxgc (heq ▸ hy), hall y hy⟩, hr'⟩
    · rw [if_neg hx]
      refine iff_of_false (fun h => by cases h) fun h => hx (h.2.1 x List.mem_cons_self)

/-! ## The release -/

/-- The region when the reference of its owner is given back, with the stacks of the first trace. -/
def unowned (trivial : O → Bool) (r : RegionRc O) (iso : O) : Dealloc O :=
  let r := r.setRefCount iso (r.refCount iso - 1)
  if trivial iso then ⟨r, [], []⟩ else ⟨r.emit (.finalise iso), [], r.finaliser iso⟩

/-- The steps of a release that ends. -/
theorem releaseInternal_eq_some {fuel : ℕ} {trivial : O → Bool} {r : RegionRc O} {iso : O}
    {res : RegionRc O × List O} (hcls : r.cls iso = .openIso) (hmem : iso ∈ r.allocated) :
    releaseInternal fuel trivial (r.closed iso) iso = some res ↔ r.refCount iso - 1 = 0 ∧
      ∃ s₁ s₂ r₃, drain (releaseStep trivial) fuel (unowned trivial r iso) (r.fields iso) = some s₁ ∧
        releaseCycles fuel trivial s₁ = some s₂ ∧ freeAll s₂.region s₂.gc = some r₃ ∧
        r₃.cls iso = .openIso ∧ res = ((r₃.closed iso).freeObject iso, s₂.subRegions) := by
  have hopen : (r.closed iso).openRegion iso = some r := by
    rw [openRegion, if_pos (show (r.closed iso).cls iso = .iso from Function.update_self ..), opened,
      closed]
    simp only [Function.update_idem, ← hcls, Function.update_eq_self]
  have hdecref : r.decrefInner iso = some (r.setRefCount iso (r.refCount iso - 1)) := by
    rw [decrefInner, if_pos]
    simp [hasRefCount, hmem, hcls]
  have hself : (r.setRefCount iso (r.refCount iso - 1)).refCount iso = r.refCount iso - 1 := by
    rw [refCount_setRefCount, if_pos rfl]
  rw [releaseInternal, hopen, Option.bind_some, hdecref, Option.bind_some, hself]
  by_cases hzero : r.refCount iso - 1 = 0
  · rw [if_neg (not_not.mpr hzero), and_iff_right hzero]
    simp only [Option.bind_eq_some_iff, Option.map_eq_some_iff, closeRegion, Option.ite_none_right_eq_some,
      Option.some.injEq]
    constructor
    · rintro ⟨s₁, hs₁, s₂, hs₂, r₃, hr₃, r₄, ⟨hopen, rfl⟩, rfl⟩
      exact ⟨s₁, s₂, r₃, hs₁, hs₂, hr₃, hopen, rfl⟩
    · rintro ⟨s₁, s₂, r₃, hs₁, hs₂, hr₃, hopen, rfl⟩
      exact ⟨s₁, hs₁, s₂, hs₂, r₃, hr₃, _, ⟨hopen, rfl⟩, rfl⟩
  · rw [if_pos hzero]
    exact iff_of_false (fun h => by cases h) fun h => hzero h.1

/-- The condition under which a release ends: the owner has the only reference to the entry point, no
trace comes to what it fails at, and no object is found by both traces. -/
structure Releases (r : RegionRc O) (iso : O) (held : O → ℕ) : Prop where
  /-- The owner has the only reference to the entry point. -/
  alone : r.refCount iso = 1
  /-- What dies with the entry point refers to no immutable object that is not the root of its
  component. -/
  plain : ∀ x, Dies r held iso x → ∀ y ∈ r.fields x, r.cls y ≠ .sccPtr
  /-- The Lins stack has nothing that the second trace fails at. -/
  lins : ∀ x ∈ r.linsStack, ¬ Blocks r x
  /-- What is reached from the Lins stack refers to nothing that the second trace fails at. -/
  cycles : ∀ x, FromLins r iso x → ∀ y ∈ r.fields x, ¬ Blocks r y
  /-- What is reached from the Lins stack does not die with the entry point. -/
  disjoint : ∀ x, FromLins r iso x → ¬ Dies r held iso x

end VeronaRt.RegionRc
