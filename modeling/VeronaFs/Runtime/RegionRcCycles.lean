import VeronaFs.Runtime.RegionRcMark

/-!
# What a collection of cycles leaves

When a candidate has been scanned, no object is red but the ones without a reference from outside of
them, and these are deallocated.  This fails for a candidate that reaches the entry point: `markRed`
traces the entry point, but `restoreGreen` stops at it, as it is no candidate, so that its references
are not added again.  Only the jump stack leads to the entry point again, and the scan leaves it aside
when the candidate itself has a count.  And `deallocReds` fails when a dead object refers to the entry
point.
-/

namespace VeronaRt.RegionRc

open Foundation

variable {O : Type*} {r r' : RegionRc O} {iso o p f : O} {held left : O → ℕ}
  {stack jumpStack : List O} {s : RegionRc O × List O} {fuel : ℕ}

/-- Releasing regions is noted. -/
theorem foldl_releaseInternal (os : List O) (r : RegionRc O) :
    os.foldl (fun r o => r.emit (.releaseInternal o)) r =
      { r with events := r.events ++ os.map .releaseInternal } := by
  induction os generalizing r with
  | nil => simp
  | cons o os ih =>
    rw [List.foldl_cons, ih]
    simp [emit]

variable [DecidableEq O]

/-! ## After the jumps -/

/-- The object is lost with a candidate that reaches it: nothing that leads to it from the candidate is
held outside, or referred to by an object that the candidate does not reach. -/
def Lost (r : RegionRc O) (held : O → ℕ) (p x : O) : Prop :=
  r.Reaches p x ∧ r.Inner x ∧ ∀ y, r.Reaches p y → r.Reaches y x →
    held y = 0 ∧ ∀ z ∈ r.allocated, y ∈ r.fields z → r.Reaches p z

/-- The candidate is scanned, and what is red has no reference from outside of it. -/
structure Settled (r : RegionRc O) (iso : O) (held : O → ℕ) (p : O) (r' : RegionRc O) : Prop where
  /-- Only counts and colours change. -/
  same : SameObjects r r'
  /-- The references of the objects that are not red are counted. -/
  refCount_eq : ∀ y ∈ r.allocated, r.Inner y →
    r'.refCount y = held y + refs r.fields r'.counting y
  /-- The candidate reaches what is red. -/
  red_reaches : ∀ x ∈ r.allocated, r'.colour x = .red → r.Reaches p x
  /-- What is red is an object of the region. -/
  red_inner : ∀ x ∈ r.allocated, r'.colour x = .red → r.Inner x
  /-- Nothing that is red is held outside. -/
  held_eq : ∀ y ∈ r.allocated, r'.colour y = .red → held y = 0
  /-- The entry point is not red. -/
  iso_not_red : r'.colour iso ≠ .red
  /-- What is not red does not refer to what is red. -/
  closed : ∀ x ∈ r.allocated, r'.colour x ≠ .red → ∀ y ∈ r.fields x, r'.colour y ≠ .red
  /-- What the candidate reaches is green, and has a count. -/
  green : ∀ x ∈ r.allocated, r.Inner x → r.Reaches p x → r'.colour x ≠ .red →
    r'.colour x = .green ∧ 0 < r'.refCount x
  /-- The other colours do not change. -/
  colour_eq : ∀ x, ¬ r.Reaches p x → r'.colour x = r.colour x
  /-- What is lost with the candidate is red. -/
  red_of_lost : ∀ x ∈ r.allocated, Lost r held p x → r'.colour x = .red

/-- If a red object has no count that is left, and nothing but the trace of the candidate leads to the
entry point while it is red, the references are settled. -/
theorem Restoring.settled (h : Open iso held r) (hp : p ∈ r.allocated)
    (hm : Marking r held p s []) (hr : Restoring r iso held p s.1.refCount r' [] [])
    (hleft : ∀ y ∈ r.allocated, r'.colour y = .red → s.1.refCount y = 0) :
    Settled r iso held p r' := by
  have hzero {y : O} (hy : y ∈ r.allocated) (hred : r'.colour y = .red) :
      held y = 0 ∧ refs r.fields s.1.counting y = 0 := by
    have heq := hm.refCount_eq y hy (hr.red_inner y hy hred)
    have hcount := hleft y hy hred
    omega
  have hiso : r'.colour iso ≠ .red := fun hred =>
    h.held_iso.ne' (hzero h.iso_mem hred).1
  refine ⟨hr.same, fun y hy hin => ?_, hr.red_reaches, hr.red_inner,
    fun y hy hred => (hzero hy hred).1, hiso, fun x hx hcolour y hy hred => ?_,
    fun x hx hin hx' hcolour => ?_, hr.colour_eq, fun x hx hlost => ?_⟩
  · have heq := hr.refCount_eq y hy hin
    simpa using heq
  · have hy' := h.fields_mem x hx y hy
    by_cases hreach : r.Reaches p x
    · rcases hr.closed x hx hreach hcolour y hy with hne | hmem | rfl
      · exact hne hred
      · exact List.not_mem_nil hmem
      · exact hiso hred
    · have hcounting : x ∈ s.1.counting := by
        rw [mem_counting, hm.same.allocated_eq]
        exact ⟨hx, fun hx' => hreach (hm.red_reaches x hx hx')⟩
      have hpos := refs_pos_iff.mpr ⟨x, hcounting, hy⟩
      have hzero := (hzero hy' hred).2
      omega
  · exact ⟨hr.green x hx hin hx' hcolour, hr.pos x hx hin hx' hcolour⟩
  · obtain ⟨hreach, hin, hlost⟩ := hlost
    by_contra hcolour
    obtain ⟨y, hpy, hyx, hin', hpos⟩ := hr.sourced x hx hin hreach hcolour
    obtain ⟨hheld, hreaches⟩ := hlost y hpy hyx
    rcases (hm.pos_iff h hp (h.mem_of_reaches hp hpy) hin').mp hpos with hpos | ⟨z, hz, hpz, hyz⟩
    · exact hpos.ne' hheld
    · exact hpz (hreaches z hz hyz)

/-- The loop over the jump stack makes the objects on it green that have a count. -/
theorem restoreJumps_spec (h : Open iso held r) (hp : p ∈ r.allocated) (hplain : r.ReachesMutable p)
    (hr : Restoring r iso held p left r' [] []) (hjump : ∀ y ∈ jumpStack, y ∈ r.allocated ∧ r.Inner y)
    (hleft : ∀ y ∈ r.allocated, r'.colour y = .red → y ≠ p → 0 < left y → y ∈ jumpStack)
    (hfuel : width r.fields r.allocated ≤ fuel) :
    ∃ r'', restoreJumps fuel r' jumpStack = some r'' ∧ Restoring r iso held p left r'' [] [] ∧
      ∀ y ∈ r.allocated, r''.colour y = .red → y ≠ p → left y = 0 := by
  induction jumpStack generalizing r' with
  | nil =>
    refine ⟨r', rfl, hr, fun y hy hred hne => ?_⟩
    by_contra hpos
    exact List.not_mem_nil (hleft y hy hred hne (Nat.pos_of_ne_zero hpos))
  | cons q jumpStack ih =>
    obtain ⟨hq, hin⟩ := hjump q List.mem_cons_self
    have hjump' : ∀ y ∈ jumpStack, y ∈ r.allocated ∧ r.Inner y := fun y hy =>
      hjump y (List.mem_cons_of_mem q hy)
    rw [restoreJumps, if_neg (by simp [h.hasRefCount hr.same hq hin])]
    by_cases hred : r'.colour q = .red ∧ 0 < r'.refCount q
    · obtain ⟨r₁, hr₁, hrest, hgreen, hkeep⟩ := hr.restoreGreen_spec h hp hplain hq hred.1 hred.2 hfuel
      rw [if_pos hred, hr₁]
      refine ih hrest hjump' fun y hy hred' hne hpos => ?_
      have hred₀ : r'.colour y = .red := by
        by_contra hne'
        exact hkeep y hne' hred'
      refine (List.mem_cons.mp (hleft y hy hred₀ hne hpos)).resolve_left ?_
      rintro rfl
      exact hgreen hred'
    · rw [if_neg hred]
      refine ih hr hjump' fun y hy hred' hne hpos => ?_
      refine (List.mem_cons.mp (hleft y hy hred' hne hpos)).resolve_left ?_
      rintro rfl
      exact hred ⟨hred', hpos.trans_le (hr.left_le y)⟩

/-! ## Deallocation -/

/-- The object is reached from the entry point, or from one that is held outside. -/
def Rooted (r : RegionRc O) (iso : O) (held : O → ℕ) (x : O) : Prop :=
  ∃ o, (o = iso ∨ 0 < held o) ∧ r.Reaches o x

/-- What is reached from outside is not red. -/
theorem Settled.not_red_of_rooted (h : Open iso held r) (hs : Settled r iso held p r')
    (ho : Rooted r iso held o) : o ∈ r.allocated ∧ r'.colour o ≠ .red := by
  obtain ⟨root, hroot, hreach⟩ := ho
  have hstart : root ∈ r.allocated ∧ r'.colour root ≠ .red := by
    rcases hroot with rfl | hpos
    · exact ⟨h.iso_mem, hs.iso_not_red⟩
    · have hmem := (h.held_mem root hpos).1
      exact ⟨hmem, fun hred => hpos.ne' (hs.held_eq root hmem hred)⟩
  exact Foundation.Reaches.mem_of_closed (P := fun x => x ∈ r.allocated ∧ r'.colour x ≠ .red) hreach
    hstart fun x hx y hy => ⟨h.fields_mem x hx.1 y hy, hs.closed x hx.1 hx.2 y hy⟩

/-- How often the entry point of a region is found at an object, by its finaliser and by its trace. -/
def found (r : RegionRc O) (s x : O) : ℕ := (r.finaliser x).count s + (r.fields x).count s

/-- The invariant of `deallocReds`. -/
structure Freeing (r : RegionRc O) (iso p : O) (r' : RegionRc O) (s : Dealloc O) (stack : List O) :
    Prop where
  /-- The references do not change. -/
  fields_eq : s.region.fields = r.fields
  /-- The finalisers do not change. -/
  finaliser_eq : s.region.finaliser = r.finaliser
  /-- No object is deallocated yet. -/
  allocated_eq : s.region.allocated = r.allocated
  /-- The colours do not change. -/
  colour_eq : s.region.colour = r'.colour
  /-- The counts do not change. -/
  refCount_eq : s.region.refCount = r'.refCount
  /-- The Lins stack does not change. -/
  linsStack_eq : s.region.linsStack = r.linsStack
  /-- The objects to deallocate are marked. -/
  cls_eq : ∀ x, s.region.cls x = if x ∈ s.gc then .marked else r.cls x
  /-- The objects to deallocate are red. -/
  gc_red : ∀ x ∈ s.gc, x ∈ r.allocated ∧ r'.colour x = .red
  /-- No object is to be deallocated twice. -/
  nodup : s.gc.Nodup
  /-- The objects to deallocate are finalised. -/
  events_eq : s.region.events = r'.events ++ s.gc.reverse.map .finalise
  /-- The entry points of regions that are found. -/
  count_eq : ∀ x, r.cls x = .iso → s.subRegions.count x + stack.count x =
    (r.fields p).count x + (s.gc.map (r.found x)).sum
  /-- The entry point is not on the stack. -/
  stack_mem : ∀ y ∈ stack, y ∈ r.allocated ∧ y ≠ iso ∧ (r.Inner y ∨ r.cls y = .iso)
  /-- What is red of the references of the candidate is found. -/
  closed_start : ∀ y ∈ r.fields p, r'.colour y = .red → y ∈ s.gc ∨ y ∈ stack
  /-- What is red of the references of the objects to deallocate is found. -/
  closed : ∀ x ∈ s.gc, ∀ y ∈ r.fields x, r'.colour y = .red → y ∈ s.gc ∨ y ∈ stack

variable {d : Dealloc O}

/-- An object that is not to be deallocated, or already is, leaves the stack. -/
theorem Freeing.skip (hf : Freeing r iso p r' d (f :: stack))
    (h : r'.colour f ≠ .red ∨ f ∈ d.gc) (hin : r.Inner f) : Freeing r iso p r' d stack := by
  have hpop {y : O} (hred : r'.colour y = .red) (hy : y ∈ d.gc ∨ y ∈ f :: stack) :
      y ∈ d.gc ∨ y ∈ stack := by
    rcases hy with hy | hy
    · exact Or.inl hy
    · rcases List.mem_cons.mp hy with rfl | hy
      · exact Or.inl (h.resolve_left fun hne => hne hred)
      · exact Or.inr hy
  exact { hf with
    count_eq := fun x hx => by
      have hne : f ≠ x := fun heq => Shaped.cls_ne_iso (SameObjects.refl r) hin (heq ▸ hx)
      have hcount := hf.count_eq x hx
      rwa [List.count_cons_of_ne hne] at hcount
    stack_mem := fun y hy => hf.stack_mem y (List.mem_cons_of_mem f hy)
    closed_start := fun y hy hred => hpop hred (hf.closed_start y hy hred)
    closed := fun x hx y hy hred => hpop hred (hf.closed x hx y hy hred) }

/-- The entry point of another region is found. -/
theorem Freeing.region (hf : Freeing r iso p r' d (f :: stack)) (hred : r'.colour f ≠ .red) :
    Freeing r iso p r' { d with subRegions := f :: d.subRegions } stack := by
  have hpop {y : O} (hy' : r'.colour y = .red) (hy : y ∈ d.gc ∨ y ∈ f :: stack) :
      y ∈ d.gc ∨ y ∈ stack := by
    refine hy.imp_right fun hy => (List.mem_cons.mp hy).resolve_left ?_
    rintro rfl
    exact hred hy'
  exact { hf with
    count_eq := fun x hx => by
      have hcount := hf.count_eq x hx
      change (f :: d.subRegions).count x + _ = _ + (d.gc.map (r.found x)).sum
      rw [List.count_cons] at hcount ⊢
      omega
    stack_mem := fun y hy => hf.stack_mem y (List.mem_cons_of_mem f hy)
    closed_start := fun y hy hred' => hpop hred' (hf.closed_start y hy hred')
    closed := fun x hx y hy hred' => hpop hred' (hf.closed x hx y hy hred') }

/-- A pop of `deallocReds` keeps the invariant. -/
theorem Freeing.step (h : Open iso held r) (hs : Settled r iso held p r')
    (hplain : r.ReachesMutable p)
    (hrooted : ∀ x ∈ r.allocated, r'.colour x = .red → iso ∉ r.fields x)
    (hf : Freeing r iso p r' d (f :: stack)) :
    ∃ d' pushed, deallocRedsStep d f = some (d', pushed) ∧
      Freeing r iso p r' d' (pushed ++ stack) ∧
      width r.fields (r.allocated \ d'.gc.toFinset) + pushed.length ≤
        width r.fields (r.allocated \ d.gc.toFinset) := by
  obtain ⟨hmem, hne, hmutable⟩ := hf.stack_mem f List.mem_cons_self
  have hmem' : f ∈ d.region.allocated := by
    rw [hf.allocated_eq]
    exact hmem
  have hcls := hf.cls_eq f
  rw [deallocRedsStep, if_neg (not_not.mpr hmem')]
  by_cases hgc : f ∈ d.gc
  · rw [if_pos hgc] at hcls
    rw [hcls]
    obtain ⟨hmem, hred⟩ := hf.gc_red f hgc
    exact ⟨d, [], rfl, hf.skip (Or.inr hgc) (hs.red_inner f hmem hred), le_rfl⟩
  rw [if_neg hgc] at hcls
  rcases hmutable with hin | hiso
  · rw [h.cls_eq hmem hin, if_neg hne] at hcls
    rw [hcls, hf.colour_eq]
    by_cases hred : r'.colour f = .red
    · simp only [if_pos hred]
      have hfields : d.region.fields f = r.fields f := congrFun hf.fields_eq f
      have hfinaliser : d.region.finaliser f = r.finaliser f := congrFun hf.finaliser_eq f
      have hpush {y : O} (hy : y ∈ d.gc ∨ y ∈ f :: stack) :
          y ∈ f :: d.gc ∨ y ∈ d.region.fields f ++ stack := by
        rcases hy with hy | hy
        · exact Or.inl (List.mem_cons_of_mem f hy)
        · rcases List.mem_cons.mp hy with rfl | hy
          · exact Or.inl List.mem_cons_self
          · exact Or.inr (List.mem_append_right _ hy)
      refine ⟨_, _, rfl, ⟨hf.fields_eq, hf.finaliser_eq, hf.allocated_eq, hf.colour_eq, hf.refCount_eq,
        hf.linsStack_eq, fun x => ?_, fun x hx => ?_, List.nodup_cons.mpr ⟨hgc, hf.nodup⟩, ?_, fun x hx => ?_,
        fun y hy => ?_, fun y hy hred' => hpush (hf.closed_start y hy hred'),
        fun x hx y hy hred' => ?_⟩, ?_⟩
      · change Function.update d.region.cls f RegionMD.marked x = _
        simp only [Function.update_apply, List.mem_cons]
        by_cases hxf : x = f
        · simp only [hxf, if_true, true_or]
        · simp only [hxf, if_false, false_or]
          exact hf.cls_eq x
      · rcases List.mem_cons.mp hx with rfl | hx
        · exact ⟨hmem, hred⟩
        · exact hf.gc_red x hx
      · change d.region.events ++ [_] = _
        rw [hf.events_eq, List.reverse_cons, List.map_append, List.append_assoc]
        rfl
      · have hcount := hf.count_eq x hx
        have hne' : f ≠ x := fun heq => Shaped.cls_ne_iso (SameObjects.refl r) hin (heq ▸ hx)
        rw [List.count_cons_of_ne hne'] at hcount
        rw [hfields, hfinaliser, List.count_append, List.count_append, List.map_cons, List.sum_cons,
          found]
        omega
      · rcases List.mem_append.mp hy with hy | hy
        · rw [hfields] at hy
          refine ⟨h.fields_mem f hmem y hy, ?_, hplain y ((hs.red_reaches f hmem hred).tail hy)⟩
          rintro rfl
          exact hrooted f hmem hred hy
        · exact hf.stack_mem y (List.mem_cons_of_mem f hy)
      · rcases List.mem_cons.mp hx with rfl | hx
        · right
          rw [hfields]
          exact List.mem_append_left _ hy
        · exact hpush (hf.closed x hx y hy hred')
      · have hmem'' : f ∈ r.allocated \ d.gc.toFinset :=
          Finset.mem_sdiff.mpr ⟨hmem, fun hx => hgc (List.mem_toFinset.mp hx)⟩
        rw [List.toFinset_cons, Finset.sdiff_insert, hfields]
        exact (width_erase r.fields hmem'').le
    · simp only [if_neg hred]
      exact ⟨d, [], rfl, hf.skip (Or.inl hred) hin, le_rfl⟩
  · rw [hcls, hiso]
    have hred : r'.colour f ≠ .red := fun hred =>
      Shaped.cls_ne_iso (SameObjects.refl r) (hs.red_inner f hmem hred) hiso
    exact ⟨_, [], rfl, hf.region hred, le_rfl⟩

/-- In the end everything that is red is to be deallocated. -/
theorem Freeing.gc_eq (h : Open iso held r) (hs : Settled r iso held p r') (hp : p ∈ r.allocated)
    (hpos : 0 < r.refCount p) (hf : Freeing r iso p r' d []) :
    ∀ y ∈ r.allocated, r'.colour y = .red → y ∈ d.gc := by
  have hnext {x y : O} (hx : x ∈ r.allocated) (hy : y ∈ r.fields x) (hred : r'.colour y = .red)
      (hfound : r'.colour x = .red → x = p ∨ x ∈ d.gc) : y ∈ d.gc := by
    have hx' : r'.colour x = .red := by
      by_contra hne
      exact hs.closed x hx hne y hy hred
    rcases hfound hx' with rfl | hx''
    · exact (hf.closed_start y hy hred).resolve_right List.not_mem_nil
    · exact (hf.closed x hx'' y hy hred).resolve_right List.not_mem_nil
  have hpath {y : O} (hy : r.Reaches p y) :
      y ∈ r.allocated ∧ (r'.colour y = .red → y = p ∨ y ∈ d.gc) :=
    Foundation.Reaches.mem_of_closed
      (P := fun y => y ∈ r.allocated ∧ (r'.colour y = .red → y = p ∨ y ∈ d.gc)) hy
      ⟨hp, fun _ => Or.inl rfl⟩ fun x hx y hy =>
        ⟨h.fields_mem x hx.1 y hy, fun hred => Or.inr (hnext hx.1 hy hred hx.2)⟩
  intro y hy hred
  rcases (hpath (hs.red_reaches y hy hred)).2 hred with rfl | hmem
  · -- The candidate had a reference, which only a red object can hold.
    have hcount := h.refCount_eq y hp (hs.red_inner y hp hred)
    have hheld := hs.held_eq y hp hred
    obtain ⟨x, hx, hyx⟩ := refs_pos_iff.mp (show 0 < refs r.fields r.allocated y by omega)
    exact hnext hx hyx hred fun hx' => (hpath (hs.red_reaches x hx hx')).2 hx'
  · exact hmem

/-- The destruction and deallocation of objects, one after the other. -/
def deallocEvents (os : List O) : List (ObjectEvent O) :=
  os.flatMap fun o => [.destructor o, .dealloc o]

/-- Deallocating a list of objects. -/
theorem foldl_freeObject (os : List O) (r : RegionRc O) :
    (os.foldl freeObject r).allocated = r.allocated \ os.toFinset ∧
    (os.foldl freeObject r).fields = r.fields ∧
    (os.foldl freeObject r).finaliser = r.finaliser ∧ (os.foldl freeObject r).cls = r.cls ∧
    (os.foldl freeObject r).refCount = r.refCount ∧
    (os.foldl freeObject r).colour = r.colour ∧
    (os.foldl freeObject r).linsStack = r.linsStack ∧
    (os.foldl freeObject r).events = r.events ++ deallocEvents os := by
  induction os generalizing r with
  | nil => simp [deallocEvents]
  | cons o os ih =>
    obtain ⟨hallocated, hfields, hfinaliser, hcls, hrefCount, hcolour, hlins, hevents⟩ :=
      ih (freeObject r o)
    rw [List.foldl_cons]
    refine ⟨?_, hfields, hfinaliser, hcls, hrefCount, hcolour, hlins, ?_⟩
    · rw [hallocated, List.toFinset_cons]
      ext x
      simp only [freeObject, emit, Finset.mem_sdiff, Finset.mem_erase, Finset.mem_insert]
      tauto
    · rw [hevents]
      simp [freeObject, emit, deallocEvents]

/-- What is done when the objects of a list are deallocated: they are finalised, then the regions that
were found are released, and then the objects are destructed and deallocated. -/
structure Gone (r : RegionRc O) (p : O) (r' : RegionRc O) (gc subRegions : List O) : Prop where
  /-- No object is deallocated twice. -/
  nodup : gc.Nodup
  /-- The objects that are deallocated. -/
  mem_gc : ∀ x, x ∈ gc ↔ x ∈ r.allocated ∧ x ∉ r'.allocated
  /-- What is done. -/
  events_eq : r'.events = r.events ++
    (gc.reverse.map .finalise ++ subRegions.map .releaseInternal ++ deallocEvents gc)
  /-- The regions that are released. -/
  count_eq : ∀ x, r.cls x = .iso → subRegions.count x =
    if gc = [] then 0 else (r.fields p).count x + (gc.map (r.found x)).sum

/-- Nothing is deallocated. -/
theorem Gone.none {r' : RegionRc O} (hallocated : r'.allocated = r.allocated)
    (hevents : r'.events = r.events) : Gone r p r' [] [] where
  nodup := List.nodup_nil
  mem_gc := fun x => by
    rw [hallocated]
    exact iff_of_false List.not_mem_nil fun hx => hx.2 hx.1
  events_eq := by
    rw [hevents]
    simp [deallocEvents]
  count_eq := fun _ _ => rfl

/-- The deallocation leaves the objects that are not red. -/
theorem deallocReds_spec (h : Open iso held r) (hs : Settled r iso held p r')
    (hp : p ∈ r.allocated) (hplain : r.ReachesMutable p) (hpos : 0 < r.refCount p)
    (hrooted : ∀ x, r.Reaches p x → iso ∈ r.fields x → Rooted r iso held x)
    (hfuel : 2 * width r.fields r.allocated ≤ fuel) :
    ∃ r'', deallocReds fuel r' p = some r'' ∧ r''.allocated = r'.counting ∧
      r''.fields = r.fields ∧ r''.finaliser = r.finaliser ∧ r''.refCount = r'.refCount ∧
      r''.colour = r'.colour ∧ r''.linsStack = r.linsStack ∧
      (∀ x ∈ r''.allocated, r''.cls x = r.cls x) ∧
      ∃ gc subRegions, Gone r p r'' gc subRegions := by
  have hiso : ∀ x ∈ r.allocated, r'.colour x = .red → iso ∉ r.fields x := fun x hx hred hmem =>
    (hs.not_red_of_rooted h (hrooted x (hs.red_reaches x hx hred) hmem)).2 hred
  rw [deallocReds]
  by_cases hred : r'.colour p = .red
  · rw [if_neg (not_not.mpr hred), congrFun hs.same.fields_eq p]
    have hstart : Freeing r iso p r' ⟨r', [], []⟩ (r.fields p) := by
      refine ⟨hs.same.fields_eq, hs.same.finaliser_eq, hs.same.allocated_eq, rfl, rfl,
        hs.same.linsStack_eq, fun x => ?_, fun x hx => ?_, List.nodup_nil, by simp, fun x _ => by simp,
        fun y hy => ⟨h.fields_mem p hp y hy, ?_, ?_⟩, fun y hy _ => Or.inr hy, fun x hx => ?_⟩
      · rw [if_neg List.not_mem_nil]
        exact congrFun hs.same.cls_eq x
      · exact absurd hx List.not_mem_nil
      · rintro rfl
        exact hiso p hp hred hy
      · exact hplain y (Relation.ReflTransGen.single hy)
      · exact absurd hx List.not_mem_nil
    have hwidth : width r.fields (r.allocated \ ([] : List O).toFinset) + (r.fields p).length ≤
        fuel := by
      have herase := width_erase r.fields hp
      rw [List.toFinset_nil, Finset.sdiff_empty]
      omega
    obtain ⟨d, hd, hend⟩ := drain_total (I := Freeing r iso p r')
      (μ := fun d => width r.fields (r.allocated \ d.gc.toFinset))
      (fun d f stack hf => hf.step h hs hplain hiso) hstart hwidth
    rw [hd, Option.map_some, foldl_releaseInternal]
    obtain ⟨hallocated, hfields, hfinaliser, hcls, hrefCount, hcolour, hlins, hevents⟩ :=
      foldl_freeObject d.gc
        { d.region with events := d.region.events ++ d.subRegions.map .releaseInternal }
    have hgc := hend.gc_eq h hs hp hpos
    have hset : r.allocated \ d.gc.toFinset = r'.counting := by
      ext x
      rw [Finset.mem_sdiff, List.mem_toFinset, mem_counting, hs.same.allocated_eq]
      refine and_congr_right fun hx => not_congr ⟨fun hx' => (hend.gc_red x hx').2, hgc x hx⟩
    rw [hend.allocated_eq, hset] at hallocated
    refine ⟨_, rfl, hallocated, ?_, ?_, ?_, ?_, ?_, fun x hx => ?_, d.gc, d.subRegions, hend.nodup,
      fun x => ?_, ?_, fun x hx => ?_⟩
    · rw [hfields, hend.fields_eq]
    · rw [hfinaliser, hend.finaliser_eq]
    · rw [hrefCount, hend.refCount_eq]
    · rw [hcolour, hend.colour_eq]
    · rw [hlins, hend.linsStack_eq]
    · rw [hallocated, ← hset, Finset.mem_sdiff, List.mem_toFinset] at hx
      rw [hcls, hend.cls_eq, if_neg hx.2]
    · rw [hallocated, ← hset, Finset.mem_sdiff, List.mem_toFinset]
      have hmem := fun hx => (hend.gc_red x hx).1
      tauto
    · rw [hevents, hend.events_eq, hs.same.events_eq]
      simp only [List.append_assoc]
    · have hcount := hend.count_eq x hx
      have hmem := hgc p hp hred
      rw [if_neg (List.ne_nil_of_mem hmem)]
      simpa using hcount
  · rw [if_pos hred]
    have hall : r'.allocated = r'.counting := by
      refine (Finset.filter_true_of_mem fun x hx => ?_).symm
      rw [hs.same.allocated_eq] at hx
      intro hx'
      have hclosed : ∀ x, x ∈ r.allocated ∧ r'.colour x ≠ .red → ∀ y ∈ r.fields x,
          y ∈ r.allocated ∧ r'.colour y ≠ .red := fun x hx y hy =>
        ⟨h.fields_mem x hx.1 y hy, hs.closed x hx.1 hx.2 y hy⟩
      exact (Foundation.Reaches.mem_of_closed (hs.red_reaches x hx hx') ⟨hp, hred⟩ hclosed).2 hx'
    exact ⟨r', rfl, hall, hs.same.fields_eq, hs.same.finaliser_eq, rfl, rfl, hs.same.linsStack_eq,
      fun x _ => congrFun hs.same.cls_eq x, [], [], Gone.none hs.same.allocated_eq hs.same.events_eq⟩

/-! ## A scan -/

/-- What the scan of a candidate leaves. -/
structure Scanned (r : RegionRc O) (iso : O) (held : O → ℕ) (p : O) (r' : RegionRc O)
    (jumpStack : List O) : Prop where
  /-- The region is as it is between collections. -/
  isOpen : Open iso held r'
  /-- The references do not change. -/
  fields_eq : r'.fields = r.fields
  /-- The finalisers do not change. -/
  finaliser_eq : r'.finaliser = r.finaliser
  /-- The classes do not change. -/
  cls_eq : ∀ x ∈ r'.allocated, r'.cls x = r.cls x
  /-- The Lins stack does not change. -/
  linsStack_eq : r'.linsStack = r.linsStack
  /-- No object is allocated. -/
  subset : r'.allocated ⊆ r.allocated
  /-- Only what is not reached from outside is deallocated. -/
  not_rooted : ∀ x ∈ r.allocated, x ∉ r'.allocated → ¬ Rooted r iso held x
  /-- Only what is lost with the candidate is deallocated. -/
  lost : ∀ x ∈ r.allocated, x ∉ r'.allocated → Lost r held p x
  /-- No object becomes black. -/
  black : ∀ x ∈ r'.allocated, r.Inner x → r'.colour x = .black → r.colour x = .black
  /-- No object that is left has lost all its references. -/
  pos : ∀ x ∈ r'.allocated, r.Inner x → 0 < r.refCount x → 0 < r'.refCount x
  /-- The jump stack has objects of the region. -/
  jump_mem : ∀ y ∈ jumpStack, y ∈ r'.allocated ∧ r'.Inner y
  /-- What is done to the objects that are deallocated. -/
  gone : ∃ gc subRegions, Gone r p r' gc subRegions

/-- The class of an object that stays does not change. -/
theorem Scanned.inner_iff (hs : Scanned r iso held p r' jumpStack) (ho : o ∈ r'.allocated) :
    r'.Inner o ↔ r.Inner o := by rw [Inner, Inner, hs.cls_eq o ho]

/-- What is red is lost with the candidate. -/
theorem Settled.lost (h : Open iso held r) (hs : Settled r iso held p r') (hp : p ∈ r.allocated)
    (ho : o ∈ r.allocated) (hred : r'.colour o = .red) : Lost r held p o := by
  refine ⟨hs.red_reaches o ho hred, hs.red_inner o ho hred, fun y hy hyo => ?_⟩
  have hmem := h.mem_of_reaches hp hy
  have hy' : r'.colour y = .red := by
    by_contra hne
    exact (Foundation.Reaches.mem_of_closed (P := fun x => x ∈ r.allocated ∧ r'.colour x ≠ .red) hyo
      ⟨hmem, hne⟩ fun x hx z hz => ⟨h.fields_mem x hx.1 z hz, hs.closed x hx.1 hx.2 z hz⟩).2 hred
  refine ⟨hs.held_eq y hmem hy', fun z hz hyz => hs.red_reaches z hz ?_⟩
  by_contra hne
  exact hs.closed z hz hne y hyz hy'

/-- When the red objects are gone, the region is as it is between collections. -/
theorem Settled.scanned (h : Open iso held r) (hs : Settled r iso held p r') (hp : p ∈ r.allocated)
    {r'' : RegionRc O} (hallocated : r''.allocated = r'.counting) (hfields : r''.fields = r.fields)
    (hfinaliser : r''.finaliser = r.finaliser) (hrefCount : r''.refCount = r'.refCount)
    (hcolour : r''.colour = r'.colour) (hlins : r''.linsStack = r.linsStack)
    (hcls : ∀ x ∈ r''.allocated, r''.cls x = r.cls x)
    (hjump : ∀ y ∈ jumpStack, y ∈ r''.allocated ∧ r''.Inner y)
    (hgone : ∃ gc subRegions, Gone r p r'' gc subRegions) : Scanned r iso held p r'' jumpStack := by
  have hmem {x : O} : x ∈ r''.allocated ↔ x ∈ r.allocated ∧ r'.colour x ≠ .red := by
    rw [hallocated, mem_counting, hs.same.allocated_eq]
  have hiso : iso ∈ r''.allocated := hmem.mpr ⟨h.iso_mem, hs.iso_not_red⟩
  have hin {x : O} (hx : x ∈ r''.allocated) : r''.Inner x ↔ r.Inner x := by
    rw [Inner, Inner, hcls x hx]
  have hred {x : O} (hx : x ∈ r.allocated) (hx' : x ∉ r''.allocated) : r'.colour x = .red := by
    by_contra hne
    exact hx' (hmem.mpr ⟨hx, hne⟩)
  have hopen : Open iso held r'' := by
    refine ⟨⟨⟨hiso, ?_, fun o ho hne => ?_, fun o ho f hf => ?_, fun o ho hout => ?_⟩,
      fun o ho ho' => ?_, fun o ho => ?_, fun o ho => ?_⟩, h.held_iso⟩
    · rw [hcls iso hiso, h.cls_iso]
    · rw [hcls o ho]
      exact h.cls_other o (hmem.mp ho).1 hne
    · obtain ⟨ho, hcolour'⟩ := hmem.mp ho
      rw [hfields] at hf
      exact hmem.mpr ⟨h.fields_mem o ho f hf, hs.closed o ho hcolour' f hf⟩
    · rw [hcls o ho] at hout
      rw [hfields]
      exact h.fields_outer o (hmem.mp ho).1 hout
    · rw [hrefCount, hfields, hallocated]
      exact hs.refCount_eq o (hmem.mp ho).1 ((hin ho).mp ho')
    · obtain ⟨ho', hin'⟩ := h.held_mem o ho
      have hmem' : o ∈ r''.allocated :=
        hmem.mpr ⟨ho', fun hred => ho.ne' (hs.held_eq o ho' hred)⟩
      exact ⟨hmem', (hin hmem').mpr hin'⟩
    · rw [hcolour]
      exact (hmem.mp ho).2
  refine ⟨hopen, hfields, hfinaliser, hcls, hlins, fun x hx => (hmem.mp hx).1, fun x hx hx' hroot => ?_,
    fun x hx hx' => hs.lost h hp hx (hred hx hx'), fun x hx hin' hblack => ?_,
    fun x hx hin' hpos => ?_, hjump, hgone⟩
  · exact hx' (hmem.mpr (hs.not_red_of_rooted h hroot))
  · obtain ⟨hx', hcolour'⟩ := hmem.mp hx
    rw [hcolour] at hblack
    by_cases hreach : r.Reaches p x
    · rw [(hs.green x hx' hin' hreach hcolour').1] at hblack
      cases hblack
    · rw [← hs.colour_eq x hreach, hblack]
  · obtain ⟨hx', hcolour'⟩ := hmem.mp hx
    rw [hrefCount]
    by_cases hreach : r.Reaches p x
    · exact (hs.green x hx' hin' hreach hcolour').2
    · have hrefs : refs r.fields r'.counting x = refs r.fields r.allocated x := by
        refine refs_eq_of_subset (fun y hy => ?_) fun y hy hy' hxy => ?_
        · rw [mem_counting, hs.same.allocated_eq] at hy
          exact hy.1
        · rw [mem_counting, hs.same.allocated_eq, not_and, not_not] at hy'
          exact hreach ((hs.red_reaches y hy (hy' hy)).tail hxy)
      rw [hs.refCount_eq x hx' hin', hrefs, ← h.refCount_eq x hx' hin']
      exact hpos

/-- A candidate that reaches the entry point is referred to only by objects that it reaches. -/
def OwnsEntry (r : RegionRc O) (iso : O) (held : O → ℕ) (p : O) : Prop :=
  r.Reaches p iso → held p = 0 ∧ ∀ x ∈ r.allocated, p ∈ r.fields x → r.Reaches p x

/-- A candidate reaches no object that refers to the entry point and is not reached from outside. -/
def EntryRooted (r : RegionRc O) (iso : O) (held : O → ℕ) (p : O) : Prop :=
  ∀ x, r.Reaches p x → iso ∈ r.fields x → Rooted r iso held x

/-- A candidate is scanned. -/
theorem scan_spec (h : Open iso held r) (hp : p ∈ r.allocated) (hin : r.Inner p) (hne : p ≠ iso)
    (hpos : 0 < r.refCount p) (hplain : r.ReachesMutable p) (howns : OwnsEntry r iso held p)
    (hrooted : EntryRooted r iso held p)
    (hjump : ∀ y ∈ jumpStack, y ∈ r.allocated ∧ r.Inner y)
    (hfuel : 2 * width r.fields r.allocated ≤ fuel) :
    ∃ s s', markRed fuel r p jumpStack = some s ∧ scan fuel s.1 p s.2 = some s' ∧
      Scanned r iso held p s'.1 s'.2 ∧ ∀ x, Lost r held p x → x ∉ s'.1.allocated := by
  have hfuel' : width r.fields r.allocated ≤ fuel := by omega
  obtain ⟨s, hs, hm⟩ := markRed_spec h hp hin hne hplain hjump hfuel'
  have hr := hm.restoring h hp
  have hcandidate : s.1.isRcCandidate p = true := by
    rw [h.isRcCandidate hm.same hp hin, decide_eq_true hne]
  have hcounted := h.hasRefCount hm.same hp hin
  refine ⟨s, ?_⟩
  rw [scan, if_neg (by simp [hcounted])]
  by_cases hleft : 0 < s.1.refCount p
  · rw [if_pos ⟨hcandidate, hleft⟩]
    obtain ⟨r', hr', hrest, hgreen, -⟩ := hr.restoreGreen_spec h hp hplain hp hm.red hleft hfuel'
    have hiso : ¬ r.Reaches p iso := by
      intro hreach
      obtain ⟨hheld, hfields⟩ := howns hreach
      have heq := hm.refCount_eq p hp hin
      rw [List.count_nil, hheld] at heq
      obtain ⟨x, hx, hpx⟩ := refs_pos_iff.mp (show 0 < refs r.fields s.1.counting p by omega)
      rw [mem_counting, hm.same.allocated_eq] at hx
      exact hx.2 ((hm.red_iff h hp x hx.1).mpr ⟨hfields x hx.1 hpx, h.inner_of_mem_fields hx.1 hpx⟩)
    have hclosed : ∀ x, x ∈ r.allocated ∧ r.Reaches p x ∧ r'.colour x ≠ .red → ∀ y ∈ r.fields x,
        y ∈ r.allocated ∧ r.Reaches p y ∧ r'.colour y ≠ .red := by
      rintro x ⟨hx, hreach, hcolour⟩ y hy
      refine ⟨h.fields_mem x hx y hy, hreach.tail hy, ?_⟩
      rcases hrest.closed x hx hreach hcolour y hy with hy' | hy' | rfl
      · exact hy'
      · exact absurd hy' List.not_mem_nil
      · exact absurd (hreach.tail hy) hiso
    have hnone : ∀ x ∈ r.allocated, r'.colour x ≠ .red := by
      intro x hx hred
      exact (Foundation.Reaches.mem_of_closed (hrest.red_reaches x hx hred)
        ⟨hp, Relation.ReflTransGen.refl, hgreen⟩ hclosed).2.2 hred
    have hsettled := hrest.settled h hp hm fun y hy hred => absurd hred (hnone y hy)
    have hall : r'.allocated = r'.counting := by
      refine (Finset.filter_true_of_mem fun x hx => ?_).symm
      rw [hrest.same.allocated_eq] at hx
      exact hnone x hx
    rw [hr']
    refine ⟨(r', s.2), hs, rfl, hsettled.scanned h hp hall hrest.same.fields_eq hrest.same.finaliser_eq
      rfl rfl hrest.same.linsStack_eq (fun x _ => congrFun hrest.same.cls_eq x) (fun y hy => ?_)
      ⟨[], [], Gone.none hrest.same.allocated_eq hrest.same.events_eq⟩, fun x hlost => ?_⟩
    · rw [hrest.same.allocated_eq, Inner, hrest.same.cls_eq]
      exact hm.jump_mem y hy
    · have hx := h.mem_of_reaches hp hlost.1
      exact absurd (hsettled.red_of_lost x hx hlost) (hnone x hx)
  · rw [if_neg fun hpos => hleft hpos.2]
    obtain ⟨r', hr', hrest, hzero⟩ := restoreJumps_spec h hp hplain hr hm.jump_mem hm.jump hfuel'
    have hsettled := hrest.settled h hp hm fun y hy hred => by
      by_cases hyp : y = p
      · rw [hyp]
        omega
      · exact hzero y hy hred hyp
    obtain ⟨r'', hr'', hallocated, hfields, hfinaliser, hrefCount, hcolour, hlins, hcls, hgone⟩ :=
      deallocReds_spec h hsettled hp hplain hpos hrooted hfuel
    rw [hr', Option.bind_some, hr'']
    refine ⟨(r'', []), hs, rfl, hsettled.scanned h hp hallocated hfields hfinaliser hrefCount hcolour
      hlins hcls (fun y hy => absurd hy List.not_mem_nil) hgone, fun x hlost hx => ?_⟩
    rw [hallocated, mem_counting] at hx
    exact hx.2 (hsettled.red_of_lost x (h.mem_of_reaches hp hlost.1) hlost)

/-- The loop over the jump stack does nothing if no object is red. -/
theorem restoreJumps_eq (h : Open iso held r)
    (hjump : ∀ y ∈ jumpStack, y ∈ r.allocated ∧ r.Inner y) :
    restoreJumps fuel r jumpStack = some r := by
  induction jumpStack with
  | nil => rfl
  | cons q jumpStack ih =>
    obtain ⟨hq, hin⟩ := hjump q List.mem_cons_self
    rw [restoreJumps, if_neg (by simp [h.hasRefCount (SameObjects.refl r) hq hin]),
      if_neg fun hred => h.not_red q hq hred.1]
    exact ih fun y hy => hjump y (List.mem_cons_of_mem q hy)

/-- Nothing is done for the entry point. -/
theorem scan_iso (fuel : ℕ) (h : Open iso held r)
    (hjump : ∀ y ∈ jumpStack, y ∈ r.allocated ∧ r.Inner y) :
    markRed fuel r iso jumpStack = some (r, jumpStack) ∧
      scan fuel r iso jumpStack = some (r, []) := by
  have hcandidate : r.isRcCandidate iso = false := by
    rw [h.isRcCandidate (SameObjects.refl r) h.iso_mem h.inner_iso]
    simp
  constructor
  · rw [markRed, if_pos hcandidate]
  · rw [scan, if_neg (by simp [hcandidate]), if_neg (by simp [hcandidate]), restoreJumps_eq h hjump,
      Option.bind_some, deallocReds, if_pos (h.not_red iso h.iso_mem)]
    rfl

/-! ## The collection -/

/-- The object is scanned if it is on the Lins stack. -/
def Candidate (r : RegionRc O) (iso p : O) : Prop :=
  p ∈ r.allocated ∧ r.Inner p ∧ p ≠ iso ∧ r.colour p = .black

/-- The condition under which a collection works: no candidate leads it to an immutable or a shared
object, to leave the entry point aside or to deallocate something that refers to the entry point, and
the allocator does not make an object black that is deallocated while it is on the stack. -/
structure Collectable (stale : O → RcColour) (r : RegionRc O) (iso : O) (held : O → ℕ)
    (linsStack : List O) : Prop where
  /-- A candidate reaches no immutable and no shared object. -/
  plain : ∀ p ∈ linsStack, Candidate r iso p → r.ReachesMutable p
  /-- A candidate that reaches the entry point is referred to only by objects that it reaches. -/
  owns : ∀ p ∈ linsStack, Candidate r iso p → OwnsEntry r iso held p
  /-- A candidate reaches no dead object that refers to the entry point. -/
  rooted : ∀ p ∈ linsStack, Candidate r iso p → EntryRooted r iso held p
  /-- A dead object below a candidate that reaches it is not made black. -/
  stale : linsStack.Pairwise fun p q =>
    Candidate r iso p → r.Reaches p q → Rooted r iso held q ∨ stale q ≠ .black

/-- What is reached from outside is still allocated, with the count that it should have, and nothing
else was deallocated. -/
structure Preserved (r : RegionRc O) (iso : O) (held : O → ℕ) (r' : RegionRc O) : Prop where
  /-- The references are the same. -/
  fields_eq : r'.fields = r.fields
  /-- No object is allocated. -/
  subset : r'.allocated ⊆ r.allocated
  /-- What is reached from outside is still allocated. -/
  kept : ∀ x, Rooted r iso held x → x ∈ r'.allocated
  /-- Every count is the number of references from objects and of those held outside. -/
  refCount_eq : ∀ x ∈ r'.allocated, r'.Inner x →
    r'.refCount x = held x + refs r'.fields r'.allocated x
  /-- Only what is not reached from outside is deallocated. -/
  freed : ∀ x ∈ r.allocated, x ∉ r'.allocated → ¬ Rooted r iso held x

variable {stale : O → RcColour} {linsStack : List O}

/-- The condition still holds for the rest of the stack after a scan. -/
theorem Collectable.of_scanned (hc : Collectable stale r iso held (p :: linsStack))
    (hs : Scanned r iso held p r' jumpStack) : Collectable stale r' iso held linsStack := by
  have hcandidate {q : O} (hq : Candidate r' iso q) : Candidate r iso q := by
    have hin := (hs.inner_iff hq.1).mp hq.2.1
    exact ⟨hs.subset hq.1, hin, hq.2.2.1, hs.black q hq.1 hin hq.2.2.2⟩
  have hreaches {x y : O} : r'.Reaches x y ↔ r.Reaches x y := by
    rw [Reaches, Reaches, hs.fields_eq]
  have hrooted {x : O} : Rooted r' iso held x ↔ Rooted r iso held x := by
    simp only [Rooted, hreaches]
  refine ⟨fun q hq hq' x hx => ?_, fun q hq hq' hreach => ?_, fun q hq hq' x hx hmem => ?_, ?_⟩
  · have hx' := hs.isOpen.mem_of_reaches hq'.1 hx
    rw [Inner, hs.cls_eq x hx']
    exact hc.plain q (List.mem_cons_of_mem p hq) (hcandidate hq') x (hreaches.mp hx)
  · obtain ⟨hheld, hfields⟩ :=
      hc.owns q (List.mem_cons_of_mem p hq) (hcandidate hq') (hreaches.mp hreach)
    refine ⟨hheld, fun x hx hmem => hreaches.mpr (hfields x (hs.subset hx) ?_)⟩
    rwa [hs.fields_eq] at hmem
  · rw [hs.fields_eq] at hmem
    exact hrooted.mpr (hc.rooted q (List.mem_cons_of_mem p hq) (hcandidate hq') x
      (hreaches.mp hx) hmem)
  · refine (List.pairwise_cons.mp hc.stale).2.imp fun hpair hq hreach => ?_
    rw [hrooted]
    exact hpair (hcandidate hq) (hreaches.mp hreach)

/-- What is reached from outside is allocated. -/
theorem Open.mem_of_rooted (h : Open iso held r) (ho : Rooted r iso held o) : o ∈ r.allocated := by
  obtain ⟨root, rfl | hpos, hreach⟩ := ho
  · exact h.mem_of_reaches h.iso_mem hreach
  · exact h.mem_of_reaches (h.held_mem root hpos).1 hreach

/-- A scan that does nothing. -/
theorem Open.scanned (h : Open iso held r) (p : O)
    (hjump : ∀ y ∈ jumpStack, y ∈ r.allocated ∧ r.Inner y) :
    Scanned r iso held p r jumpStack where
  isOpen := h
  fields_eq := rfl
  finaliser_eq := rfl
  cls_eq := fun _ _ => rfl
  linsStack_eq := rfl
  subset := Finset.Subset.refl _
  not_rooted := fun _ hx hx' => absurd hx hx'
  lost := fun _ hx hx' => absurd hx hx'
  black := fun _ _ _ hblack => hblack
  pos := fun _ _ _ hpos => hpos
  jump_mem := hjump
  gone := ⟨[], [], Gone.none rfl rfl⟩

/-- What a scan and the rest of the collection preserve. -/
theorem Scanned.preserved {r₁ : RegionRc O} (hs : Scanned r iso held p r₁ jumpStack)
    (hp : Preserved r₁ iso held r') : Preserved r iso held r' := by
  have hrooted {x : O} : Rooted r₁ iso held x ↔ Rooted r iso held x := by
    simp only [Rooted, Reaches, hs.fields_eq]
  refine ⟨hp.fields_eq.trans hs.fields_eq, hp.subset.trans hs.subset,
    fun x hx => hp.kept x (hrooted.mpr hx), hp.refCount_eq, fun x hx hx' hroot => ?_⟩
  by_cases hx₁ : x ∈ r₁.allocated
  · exact hp.freed x hx₁ hx' (hrooted.mpr hroot)
  · exact hs.not_rooted x hx hx₁ hroot

/-- A pop of the Lins stack, with what it leaves of the jump stack. -/
def gcPop (fuel : ℕ) (stale : O → RcColour) (r : RegionRc O) (jumpStack : List O) (p : O) :
    Option (RegionRc O × List O) :=
  if p ∈ r.allocated then
    if r.colour p = .black then
      (markRed fuel r p jumpStack).bind fun s => scan fuel s.1 p s.2
    else some (r, jumpStack)
  else if stale p = .black then none
  else some (r, jumpStack)

/-- The loop is a sequence of pops. -/
theorem gcLoop_cons (r : RegionRc O) (jumpStack : List O) (p : O) (linsStack : List O) :
    gcLoop fuel stale r jumpStack (p :: linsStack) =
      (gcPop fuel stale r jumpStack p).bind fun s => gcLoop fuel stale s.1 s.2 linsStack := by
  rw [gcLoop, gcPop]
  split
  · split
    · rw [Option.bind_assoc]
    · rfl
  · split <;> rfl

/-- A collection that is going on, with what is left of the Lins stack. -/
structure Collecting (fuel : ℕ) (stale : O → RcColour) (iso : O) (held : O → ℕ) (r : RegionRc O)
    (jumpStack linsStack : List O) : Prop where
  /-- The region is as it is between collections. -/
  isOpen : Open iso held r
  /-- The jump stack has objects of the region. -/
  jump_mem : ∀ y ∈ jumpStack, y ∈ r.allocated ∧ r.Inner y
  /-- The objects on the Lins stack that are allocated have references. -/
  live : ∀ p ∈ linsStack, p ∈ r.allocated → r.Inner p ∧ 0 < r.refCount p
  /-- The others are not made black. -/
  not_black : ∀ p ∈ linsStack, p ∉ r.allocated → stale p ≠ .black
  /-- The collection works. -/
  collectable : Collectable stale r iso held linsStack
  /-- The traces end. -/
  le_fuel : 2 * width r.fields r.allocated ≤ fuel

/-- A pop of the Lins stack deallocates what is lost with the candidate, and nothing else. -/
theorem Collecting.pop (h : Collecting fuel stale iso held r jumpStack (p :: linsStack)) :
    ∃ s, gcPop fuel stale r jumpStack p = some s ∧ Scanned r iso held p s.1 s.2 ∧
      (∀ x ∈ r.allocated, x ∉ s.1.allocated ↔ Candidate r iso p ∧ Lost r held p x) ∧
      Collecting fuel stale iso held s.1 s.2 linsStack := by
  have hrest {s : RegionRc O × List O} (hs : Scanned r iso held p s.1 s.2)
      (hfreed : ∀ x ∈ r.allocated, x ∉ s.1.allocated → Candidate r iso p) :
      Collecting fuel stale iso held s.1 s.2 linsStack := by
    refine ⟨hs.isOpen, hs.jump_mem, fun q hq hmem => ?_, fun q hq hmem => ?_,
      h.collectable.of_scanned hs, ?_⟩
    · obtain ⟨hin, hpos⟩ := h.live q (List.mem_cons_of_mem p hq) (hs.subset hmem)
      exact ⟨(hs.inner_iff hmem).mpr hin, hs.pos q hmem hin hpos⟩
    · by_cases hq' : q ∈ r.allocated
      · exact ((List.pairwise_cons.mp h.collectable.stale).1 q hq (hfreed q hq' hmem)
          (hs.lost q hq' hmem).1).resolve_left (hs.not_rooted q hq' hmem)
      · exact h.not_black q (List.mem_cons_of_mem p hq) hq'
    · have hle : width r.fields s.1.allocated ≤ width r.fields r.allocated := width_mono hs.subset
      have hfuel := h.le_fuel
      rw [hs.fields_eq]
      omega
  have hskip {jumpStack' : List O} (hjump : ∀ y ∈ jumpStack', y ∈ r.allocated ∧ r.Inner y)
      (hnot : ¬ Candidate r iso p) : Scanned r iso held p r jumpStack' ∧
        (∀ x ∈ r.allocated, x ∉ r.allocated ↔ Candidate r iso p ∧ Lost r held p x) ∧
        Collecting fuel stale iso held r jumpStack' linsStack := by
    have hs := h.isOpen.scanned p hjump
    exact ⟨hs, fun x hx => iff_of_false (not_not.mpr hx) fun hlost => hnot hlost.1,
      hrest (s := (r, jumpStack')) hs fun x hx hx' => absurd hx hx'⟩
  rw [gcPop]
  by_cases hp : p ∈ r.allocated
  · rw [if_pos hp]
    by_cases hblack : r.colour p = .black
    · rw [if_pos hblack]
      by_cases hiso : p = iso
      · subst hiso
        obtain ⟨hmark, hscan⟩ := scan_iso fuel h.isOpen h.jump_mem
        rw [hmark, Option.bind_some, hscan]
        exact ⟨_, rfl, hskip (fun y hy => absurd hy List.not_mem_nil) fun hcandidate =>
          hcandidate.2.2.1 rfl⟩
      · obtain ⟨hin, hpos⟩ := h.live p List.mem_cons_self hp
        have hcandidate : Candidate r iso p := ⟨hp, hin, hiso, hblack⟩
        obtain ⟨s, s', hmark, hscan, hs, hlost⟩ := scan_spec h.isOpen hp hin hiso hpos
          (h.collectable.plain p List.mem_cons_self hcandidate)
          (h.collectable.owns p List.mem_cons_self hcandidate)
          (h.collectable.rooted p List.mem_cons_self hcandidate) h.jump_mem h.le_fuel
        rw [hmark, Option.bind_some, hscan]
        exact ⟨s', rfl, hs, fun x hx => ⟨fun hx' => ⟨hcandidate, hs.lost x hx hx'⟩,
          fun hx' => hlost x hx'.2⟩, hrest hs fun _ _ _ => hcandidate⟩
    · rw [if_neg hblack]
      exact ⟨_, rfl, hskip h.jump_mem fun hcandidate => hblack hcandidate.2.2.2⟩
  · rw [if_neg hp, if_neg (h.not_black p List.mem_cons_self hp)]
    exact ⟨_, rfl, hskip h.jump_mem fun hcandidate => hp hcandidate.1⟩

/-- The loop over the Lins stack preserves what is reached from outside. -/
theorem gcLoop_spec (h : Collecting fuel stale iso held r jumpStack linsStack) :
    ∃ r', gcLoop fuel stale r jumpStack linsStack = some r' ∧ Preserved r iso held r' := by
  induction linsStack generalizing r jumpStack with
  | nil =>
    exact ⟨_, rfl, rfl, Finset.Subset.refl _, fun x hx => h.isOpen.mem_of_rooted hx,
      h.isOpen.refCount_eq, fun x hx hx' => absurd hx hx'⟩
  | cons p linsStack ih =>
    obtain ⟨s, hs, hscanned, -, hrest⟩ := h.pop
    obtain ⟨r', hr', hpreserved⟩ := ih hrest
    rw [gcLoop_cons, hs]
    exact ⟨r', hr', hscanned.preserved hpreserved⟩

/-- A collection of cycles preserves what is reached from the entry point and from outside, if the
objects on the Lins stack are live and the collection does not go wrong at the entry point. -/
theorem gcCycles_preserved (h : Open iso held r)
    (hlive : ∀ p ∈ r.linsStack, p ∈ r.allocated ∧ r.Inner p ∧ 0 < r.refCount p)
    (hc : Collectable stale r iso held r.linsStack)
    (hfuel : 2 * width r.fields r.allocated ≤ fuel) :
    ∃ r', gcCycles fuel stale r iso = some r' ∧ Preserved r iso held r' := by
  rw [gcCycles, if_pos h.cls_iso]
  exact gcLoop_spec ⟨h, fun y hy => absurd hy List.not_mem_nil, fun p hp _ => (hlive p hp).2,
    fun p hp hp' => absurd (hlive p hp).1 hp', hc, hfuel⟩

/-- A region whose entry point 0 refers to an object 1 that refers back to it, and is on the Lins stack
when `n` references to it are held outside. -/
def entryCycle (n : ℕ) : RegionRc ℕ where
  fields := fun o => if o = 0 then [1] else [0]
  finaliser := fun _ => []
  allocated := {0, 1}
  cls := fun o => if o = 0 then .openIso else .unmarked
  refCount := fun o => if o = 0 then 2 else n + 1
  colour := fun o => if o = 0 then .green else .black
  linsStack := [1]
  regionSize := 2
  events := []

/-- The references that are held outside. -/
def entryHeld (n o : ℕ) : ℕ := if o = 0 then 1 else if o = 1 then n else 0

/-- Every count of the region is right. -/
theorem open_entryCycle (n : ℕ) : Open 0 (entryHeld n) (entryCycle n) := by
  have hmem {o : ℕ} : o ∈ (entryCycle n).allocated ↔ o = 0 ∨ o = 1 := by
    simp [entryCycle]
  have hin (o : ℕ) : (entryCycle n).Inner o := by
    change (if o = 0 then RegionMD.openIso else .unmarked).outer = false
    split <;> rfl
  refine ⟨⟨⟨hmem.mpr (Or.inl rfl), rfl, fun o ho hne => Or.inl ?_, fun o ho f hf => ?_,
    fun o _ hout => ?_⟩, fun o ho _ => ?_, fun o ho => ⟨?_, hin o⟩, fun o ho => ?_⟩, Nat.one_pos⟩
  · exact if_neg hne
  · rcases hmem.mp ho with rfl | rfl
    · exact hmem.mpr (Or.inr (List.mem_singleton.mp hf))
    · exact hmem.mpr (Or.inl (List.mem_singleton.mp hf))
  · rw [hin o] at hout
    cases hout
  · rcases hmem.mp ho with rfl | rfl
    · rfl
    · simp [entryCycle, entryHeld, refs]
  · rw [entryHeld] at ho
    rw [hmem]
    by_contra hne
    rw [not_or] at hne
    rw [if_neg hne.1, if_neg hne.2] at ho
    exact Nat.lt_irrefl 0 ho
  · rcases hmem.mp ho with rfl | rfl <;> simp [entryCycle]

/-- The theorem at a candidate that only the entry point refers to. -/
theorem gcCycles_preserved_entryCycle :
    ∃ r', gcCycles 4 (fun _ => .green) (entryCycle 0) 0 = some r' ∧
      Preserved (entryCycle 0) 0 (entryHeld 0) r' := by
  have hback : (entryCycle 0).Reaches 1 0 := Relation.ReflTransGen.single (by simp [entryCycle])
  have hforth : (entryCycle 0).Reaches 0 1 := Relation.ReflTransGen.single (by simp [entryCycle])
  have hin (o : ℕ) : (entryCycle 0).Inner o := by
    change (if o = 0 then RegionMD.openIso else .unmarked).outer = false
    split <;> rfl
  refine gcCycles_preserved (open_entryCycle 0) (fun p hp => ?_) ⟨fun p _ _ x _ => Or.inl (hin x),
    fun p hp _ _ => ?_, fun p hp _ x hx _ => ?_, List.pairwise_singleton ..⟩ (by decide)
  · obtain rfl := List.mem_singleton.mp hp
    exact ⟨by decide, hin 1, by decide⟩
  · obtain rfl := List.mem_singleton.mp hp
    refine ⟨rfl, fun x hx _ => ?_⟩
    rcases Finset.mem_insert.mp hx with rfl | hx
    · exact hback
    · rw [Finset.mem_singleton.mp hx]
      exact Relation.ReflTransGen.refl
  · obtain rfl := List.mem_singleton.mp hp
    exact ⟨0, Or.inl rfl, hforth.trans hx⟩

/-- When the candidate is also held outside, the reference of the entry point to it is not counted
any more. -/
theorem entryCycle_count_lost :
    ∃ r', gcCycles 10 (fun _ => .green) (entryCycle 1) 0 = some r' ∧
      ¬ Preserved (entryCycle 1) 0 (entryHeld 1) r' := by
  refine ⟨_, rfl, fun h => ?_⟩
  have hcount := h.refCount_eq 1 (by decide) rfl
  exact absurd hcount (by decide)

end VeronaRt.RegionRc
