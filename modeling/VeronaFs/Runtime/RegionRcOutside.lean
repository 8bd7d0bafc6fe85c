import VeronaFs.Runtime.RegionRcDeaths

/-!
# References out of a region with reference counts

The objects of a region refer to immutable objects and to shared ones outside of it.  `Outside` has the
counts of these, and what the traces of a region do to them.  `dealloc_object` does one decrement or
release for each reference of the objects that it deallocates (`deallocObject_givenBack`), but the last
reference to an immutable component is not subtracted, and so the component is not freed.
-/

namespace VeronaRt.RegionRc

open Foundation

variable {O : Type*} [DecidableEq O] {r r' : RegionRc O} {iso o c f : O} {held : O → ℕ}
  {immutable : O → O} {X Y : Finset O} {fuel : ℕ} {events new : List (ObjectEvent O)}

/-! ## Code -/

/-- Immutable components and shared objects: their counts, and those that are freed. -/
structure Outside (O : Type*) where
  /-- The reference count. -/
  count : O → ℕ
  /-- The objects that are freed. -/
  freed : Finset O

namespace Outside

/-- `Object::decref`.  It does not subtract the last reference, but returns that it is the last one, and
the traces of a region ignore the result. -/
def decref (out : Outside O) (o : O) : Outside O :=
  if out.count o = 1 then out
  else { out with count := Function.update out.count o (out.count o - 1) }

/-- `shared::release`, which frees an object with its last reference. -/
def release (out : Outside O) (o : O) : Outside O where
  count := Function.update out.count o (out.count o - 1)
  freed := if out.count o = 1 then insert o out.freed else out.freed

/-- What is done to an object outside. -/
def step (out : Outside O) : ObjectEvent O → Outside O
  | .decref o => out.decref o
  | .release o => out.release o
  | .finalise _ => out
  | .destructor _ => out
  | .dealloc _ => out
  | .releaseInternal _ => out

/-- What is done to the objects outside, one after the other. -/
def after (out : Outside O) (events : List (ObjectEvent O)) : Outside O := events.foldl step out

end Outside

/-- The reference is one to the component or the shared object. -/
def refersTo (immutable : O → O) (r : RegionRc O) (c f : O) : Bool :=
  match r.cls f with
  | .sccPtr => immutable f = c
  | .rc => f = c
  | .shared => f = c
  | _ => false

/-- The number of references from objects to a component or a shared object. -/
def outsideRefs (immutable : O → O) (r : RegionRc O) (X : Finset O) (c : O) : ℕ :=
  ∑ x ∈ X, (r.fields x).countP (refersTo immutable r c)

/-! ## Counts outside -/

namespace Outside

variable {out : Outside O}

/-- The count that a decrement leaves. -/
theorem count_decref (out : Outside O) (o c : O) : (out.decref o).count c =
    if c = o ∧ out.count o ≠ 1 then out.count c - 1 else out.count c := by
  unfold decref
  by_cases hlast : out.count o = 1
  · rw [if_pos hlast, if_neg (by simp [hlast])]
  · rw [if_neg hlast]
    by_cases heq : c = o
    · rw [if_pos ⟨heq, hlast⟩, heq]
      exact Function.update_self ..
    · rw [if_neg (by simp [heq])]
      exact Function.update_of_ne heq ..

/-- A decrement frees nothing. -/
theorem freed_decref (out : Outside O) (o : O) : (out.decref o).freed = out.freed := by
  unfold decref
  split <;> rfl

/-- The count that a release leaves. -/
theorem count_release (out : Outside O) (o c : O) :
    (out.release o).count c = if c = o then out.count c - 1 else out.count c := by
  unfold release
  by_cases heq : c = o
  · rw [if_pos heq, heq]
    exact Function.update_self ..
  · rw [if_neg heq]
    exact Function.update_of_ne heq ..

/-- A release frees an object with its last reference. -/
theorem mem_freed_release (out : Outside O) (o c : O) :
    c ∈ (out.release o).freed ↔ c ∈ out.freed ∨ c = o ∧ out.count o = 1 := by
  unfold release
  by_cases hlast : out.count o = 1
  · simp [hlast, or_comm]
  · simp [hlast]

/-- What is done to another object. -/
theorem step_other {event : ObjectEvent O} (out : Outside O) (hdecref : event ≠ .decref c)
    (hrelease : event ≠ .release c) :
    (out.step event).count c = out.count c ∧ (c ∈ (out.step event).freed ↔ c ∈ out.freed) := by
  cases event with
  | decref o =>
    have hne : c ≠ o := fun heq => hdecref (heq ▸ rfl)
    rw [step, count_decref, if_neg (by simp [hne]), freed_decref]
    exact ⟨rfl, Iff.rfl⟩
  | release o =>
    have hne : c ≠ o := fun heq => hrelease (heq ▸ rfl)
    rw [step, count_release, if_neg hne, mem_freed_release]
    simp [hne]
  | finalise o => exact ⟨rfl, Iff.rfl⟩
  | destructor o => exact ⟨rfl, Iff.rfl⟩
  | dealloc o => exact ⟨rfl, Iff.rfl⟩
  | releaseInternal o => exact ⟨rfl, Iff.rfl⟩

/-- What is done to other objects. -/
theorem after_other (out : Outside O) (hdecref : .decref c ∉ events) (hrelease : .release c ∉ events) :
    (out.after events).count c = out.count c ∧ (c ∈ (out.after events).freed ↔ c ∈ out.freed) := by
  induction events generalizing out with
  | nil => exact ⟨rfl, Iff.rfl⟩
  | cons event events ih =>
    rw [List.mem_cons, not_or] at hdecref hrelease
    obtain ⟨hcount, hfreed⟩ := ih (out.step event) hdecref.2 hrelease.2
    obtain ⟨hcount', hfreed'⟩ := out.step_other (Ne.symm hdecref.1) (Ne.symm hrelease.1)
    exact ⟨hcount.trans hcount', hfreed.trans hfreed'⟩

/-- An immutable component that keeps a reference loses the others. -/
theorem after_decref (out : Outside O) (hrelease : .release c ∉ events)
    (hlt : events.count (.decref c) < out.count c) :
    (out.after events).count c + events.count (.decref c) = out.count c ∧
      (c ∈ (out.after events).freed ↔ c ∈ out.freed) := by
  induction events generalizing out with
  | nil => exact ⟨rfl, Iff.rfl⟩
  | cons event events ih =>
    rw [List.mem_cons, not_or] at hrelease
    rw [after, List.foldl_cons, ← after]
    rw [List.count_cons] at hlt ⊢
    by_cases heq : event = .decref c
    · subst heq
      rw [if_pos (beq_self_eq_true _)] at hlt ⊢
      have hcount : (out.step (.decref c)).count c = out.count c - 1 := by
        rw [step, count_decref, if_pos ⟨rfl, by omega⟩]
      have hfreed : c ∈ (out.step (.decref c)).freed ↔ c ∈ out.freed := by
        rw [step, freed_decref]
      obtain ⟨hcount', hfreed'⟩ := ih (out.step (.decref c)) hrelease.2 (by omega)
      exact ⟨by omega, hfreed'.trans hfreed⟩
    · rw [if_neg (by simpa using heq)] at hlt ⊢
      obtain ⟨hcount, hfreed⟩ := out.step_other heq (Ne.symm hrelease.1)
      obtain ⟨hcount', hfreed'⟩ := ih (out.step event) hrelease.2 (by omega)
      exact ⟨by omega, hfreed'.trans hfreed⟩

/-- A shared object loses its references, and it is freed with the last one. -/
theorem after_release (out : Outside O) (hdecref : .decref c ∉ events)
    (hle : events.count (.release c) ≤ out.count c) (hfreed : c ∈ out.freed ↔ out.count c = 0) :
    (out.after events).count c + events.count (.release c) = out.count c ∧
      (c ∈ (out.after events).freed ↔ (out.after events).count c = 0) := by
  induction events generalizing out with
  | nil => exact ⟨rfl, hfreed⟩
  | cons event events ih =>
    rw [List.mem_cons, not_or] at hdecref
    rw [after, List.foldl_cons, ← after]
    rw [List.count_cons] at hle ⊢
    by_cases heq : event = .release c
    · subst heq
      rw [if_pos (beq_self_eq_true _)] at hle ⊢
      have hcount : (out.step (.release c)).count c = out.count c - 1 := by
        rw [step, count_release, if_pos rfl]
      have hfreed' : c ∈ (out.step (.release c)).freed ↔ (out.step (.release c)).count c = 0 := by
        rw [hcount, step, mem_freed_release, hfreed, eq_self_iff_true, true_and]
        omega
      obtain ⟨hcount', hend⟩ := ih (out.step (.release c)) hdecref.2 (by omega) hfreed'
      exact ⟨by omega, hend⟩
    · rw [if_neg (by simpa using heq)] at hle ⊢
      obtain ⟨hcount, hfreed'⟩ := out.step_other (Ne.symm hdecref.1) heq
      have hstep : c ∈ (out.step event).freed ↔ (out.step event).count c = 0 := by
        rw [hfreed', hcount, hfreed]
      obtain ⟨hcount', hend⟩ := ih (out.step event) hdecref.2 (by omega) hstep
      exact ⟨by omega, hend⟩

end Outside

/-! ## References out of the region -/

variable (r immutable) in
/-- More objects have more references. -/
theorem outsideRefs_mono (h : X ⊆ Y) (c : O) : outsideRefs immutable r X c ≤ outsideRefs immutable r Y c :=
  Finset.sum_le_sum_of_subset h

variable (r immutable) in
/-- The references from two sets of objects. -/
theorem outsideRefs_sdiff (h : Y ⊆ X) (c : O) :
    outsideRefs immutable r (X \ Y) c + outsideRefs immutable r Y c = outsideRefs immutable r X c :=
  Finset.sum_sdiff h

/-- References of which none is to an object that is not the root of its component. -/
theorem outsideRefs_eq (hplain : ∀ x ∈ X, ∀ f ∈ r.fields x, r.cls f ≠ .sccPtr) (c : O) :
    outsideRefs immutable r X c =
      if r.cls c = .rc ∨ r.cls c = .shared then refs r.fields X c else 0 := by
  have hone (x : O) (hx : x ∈ X) : (r.fields x).countP (refersTo immutable r c) =
      if r.cls c = .rc ∨ r.cls c = .shared then (r.fields x).count c else 0 := by
    have hcongr : ∀ f ∈ r.fields x, refersTo immutable r c f = true ↔
        (f = c ∧ (r.cls c = .rc ∨ r.cls c = .shared)) := by
      intro f hf
      have hne := hplain x hx f hf
      unfold refersTo
      by_cases heq : f = c
      · subst heq
        cases hcls : r.cls f <;> simp_all
      · cases hcls : r.cls f <;> simp_all
    by_cases hout : r.cls c = .rc ∨ r.cls c = .shared
    · rw [if_pos hout, List.count]
      refine List.countP_congr fun f hf => ?_
      rw [hcongr f hf, beq_iff_eq]
      tauto
    · rw [if_neg hout, List.countP_eq_zero]
      intro f hf
      rw [hcongr f hf]
      tauto
  rw [outsideRefs, Finset.sum_congr rfl hone]
  split
  · rfl
  · exact Finset.sum_const_zero

/-! ## The last reference -/

/-- The invariant of a trace that counts off references: what is done to objects outside, with what is
on the stack, is one decrement or release for each reference of the objects to deallocate. -/
structure Noting (r : RegionRc O) (s : Dealloc O) (stack : List O) : Prop where
  /-- The references do not change. -/
  fields_eq : s.region.fields = r.fields
  /-- The classes do not change. -/
  cls_eq : s.region.cls = r.cls
  /-- What is done to objects outside. -/
  events_eq : ∃ new, s.region.events = r.events ++ new ∧ ∀ c,
    (r.cls c ≠ .rc → .decref c ∉ new) ∧ (r.cls c ≠ .shared → .release c ∉ new) ∧
    (r.cls c = .rc →
      new.count (.decref c) + stack.count c = (s.gc.map fun x => (r.fields x).count c).sum) ∧
    (r.cls c = .shared →
      new.count (.release c) + stack.count c = (s.gc.map fun x => (r.fields x).count c).sum)

variable {s : Dealloc O} {stack : List O}

/-- An object that is not outside leaves the stack. -/
theorem Noting.skip (h : Noting r s (f :: stack)) {r₁ : RegionRc O} {subRegions : List O}
    (hcls : r.cls f ≠ .rc ∧ r.cls f ≠ .shared) (hfields : r₁.fields = s.region.fields)
    (hcls₁ : r₁.cls = s.region.cls) (hevents : r₁.events = s.region.events) :
    Noting r ⟨r₁, s.gc, subRegions⟩ stack := by
  obtain ⟨new, hnew, hcount⟩ := h.events_eq
  refine ⟨hfields.trans h.fields_eq, hcls₁.trans h.cls_eq, new, hevents.trans hnew, fun c => ?_⟩
  obtain ⟨hdecref, hrelease, hrc, hshared⟩ := hcount c
  refine ⟨hdecref, hrelease, fun hc => ?_, fun hc => ?_⟩
  · have hne : f ≠ c := fun heq => hcls.1 (heq ▸ hc)
    rw [← hrc hc, List.count_cons_of_ne hne]
  · have hne : f ≠ c := fun heq => hcls.2 (heq ▸ hc)
    rw [← hshared hc, List.count_cons_of_ne hne]

/-- An object is dead, and its references are pushed. -/
theorem Noting.drop (h : Noting r s (f :: stack)) {r₁ : RegionRc O} {subRegions : List O}
    (hcls : r.cls f ≠ .rc ∧ r.cls f ≠ .shared) (hfields : r₁.fields = s.region.fields)
    (hcls₁ : r₁.cls = s.region.cls) (hevents : r₁.events = s.region.events ++ [.finalise f]) :
    Noting r ⟨r₁, f :: s.gc, subRegions⟩ (r.fields f ++ stack) := by
  obtain ⟨new, hnew, hcount⟩ := h.events_eq
  refine ⟨hfields.trans h.fields_eq, hcls₁.trans h.cls_eq, new ++ [.finalise f], ?_, fun c => ?_⟩
  · rw [hevents, hnew, List.append_assoc]
  obtain ⟨hdecref, hrelease, hrc, hshared⟩ := hcount c
  refine ⟨fun hc => ?_, fun hc => ?_, fun hc => ?_, fun hc => ?_⟩
  · simpa using hdecref hc
  · simpa using hrelease hc
  · have hne : f ≠ c := fun heq => hcls.1 (heq ▸ hc)
    have heq := hrc hc
    rw [List.count_cons_of_ne hne] at heq
    simp only [List.count_append, List.map_cons, List.sum_cons]
    simp
    omega
  · have hne : f ≠ c := fun heq => hcls.2 (heq ▸ hc)
    have heq := hshared hc
    rw [List.count_cons_of_ne hne] at heq
    simp only [List.count_append, List.map_cons, List.sum_cons]
    simp
    omega

/-- A reference to an object outside is given back. -/
theorem Noting.note (h : Noting r s (f :: stack)) {event : ObjectEvent O}
    (hevent : r.cls f = .rc ∧ event = .decref f ∨ r.cls f = .shared ∧ event = .release f) :
    Noting r { s with region := s.region.emit event } stack := by
  obtain ⟨new, hnew, hcount⟩ := h.events_eq
  refine ⟨h.fields_eq, h.cls_eq, new ++ [event], ?_, fun c => ?_⟩
  · change s.region.events ++ [event] = _
    rw [hnew, List.append_assoc]
  obtain ⟨hdecref, hrelease, hrc, hshared⟩ := hcount c
  rcases hevent with ⟨hcls, rfl⟩ | ⟨hcls, rfl⟩
  · refine ⟨fun hc => ?_, fun hc => by simpa using hrelease hc, fun hc => ?_, fun hc => ?_⟩
    · have hne : c ≠ f := fun heq => hc (heq ▸ hcls)
      simpa [hne] using hdecref hc
    · rw [← hrc hc, List.count_append, List.count_cons (b := f)]
      by_cases heq : f = c <;> simp [heq]
      omega
    · have hne : f ≠ c := fun heq => by simp [← heq, hcls] at hc
      rw [← hshared hc, List.count_append, List.count_cons_of_ne hne]
      simp
  · refine ⟨fun hc => by simpa using hdecref hc, fun hc => ?_, fun hc => ?_, fun hc => ?_⟩
    · have hne : c ≠ f := fun heq => hc (heq ▸ hcls)
      simpa [hne] using hrelease hc
    · have hne : f ≠ c := fun heq => by simp [← heq, hcls] at hc
      rw [← hrc hc, List.count_append, List.count_cons_of_ne hne]
      simp
    · rw [← hshared hc, List.count_append, List.count_cons (b := f)]
      by_cases heq : f = c <;> simp [heq]
      omega

/-- A count is written. -/
theorem decrefInner_eq_some {r₁ : RegionRc O} (h : r.decrefInner o = some r₁) :
    r₁ = r.setRefCount o (r.refCount o - 1) := by
  rw [decrefInner] at h
  split at h
  · exact (Option.some.inj h).symm
  · cases h

/-- A pop of `deallocObject` keeps the invariant. -/
theorem Noting.step (h : Noting r s (f :: stack)) {s' : Dealloc O} {pushed : List O}
    (hs' : deallocObjectStep s f = some (s', pushed)) : Noting r s' (pushed ++ stack) := by
  rw [deallocObjectStep, dropStep] at hs'
  have hcls_eq := congrFun h.cls_eq f
  split at hs'
  · cases hs'
  have hmutable (hcls : r.cls f ≠ .rc ∧ r.cls f ≠ .shared)
      (hs' : ((s.region.decrefInner f).map fun r =>
        if r.refCount f = 0 then
          (⟨r.emit (.finalise f), f :: s.gc, r.finaliser f ++ s.subRegions⟩, r.fields f)
        else ({ s with region := r }, [])) = some (s', pushed)) : Noting r s' (pushed ++ stack) := by
    obtain ⟨r₁, hr₁, heq⟩ := Option.map_eq_some_iff.mp hs'
    obtain rfl := decrefInner_eq_some hr₁
    split at heq
    · obtain ⟨rfl, rfl⟩ := Prod.mk.inj heq
      change Noting r _ (s.region.fields f ++ stack)
      rw [h.fields_eq]
      exact h.drop hcls rfl rfl rfl
    · obtain ⟨rfl, rfl⟩ := Prod.mk.inj heq
      exact h.skip hcls rfl rfl rfl
  cases hcls : s.region.cls f with
  | openIso =>
    rw [hcls] at hs' hcls_eq
    obtain ⟨r₁, hr₁, heq⟩ := Option.map_eq_some_iff.mp hs'
    obtain ⟨rfl, rfl⟩ := Prod.mk.inj heq
    rw [decrefEntry] at hr₁
    obtain ⟨r₂, hr₂, hr₁⟩ := Option.bind_eq_some_iff.mp hr₁
    obtain rfl := decrefInner_eq_some hr₂
    split at hr₁
    · cases hr₁
    · obtain rfl := Option.some.inj hr₁
      exact h.skip (by simp [← hcls_eq]) rfl rfl rfl
  | unmarked =>
    rw [hcls] at hs' hcls_eq
    exact hmutable (by simp [← hcls_eq]) (by simpa using hs')
  | marked =>
    rw [hcls] at hs' hcls_eq
    exact hmutable (by simp [← hcls_eq]) (by simpa using hs')
  | rc =>
    rw [hcls] at hs' hcls_eq
    obtain ⟨rfl, rfl⟩ := Prod.mk.inj (Option.some.inj hs')
    exact h.note (Or.inl ⟨hcls_eq.symm, rfl⟩)
  | shared =>
    rw [hcls] at hs' hcls_eq
    obtain ⟨rfl, rfl⟩ := Prod.mk.inj (Option.some.inj hs')
    exact h.note (Or.inr ⟨hcls_eq.symm, rfl⟩)
  | iso =>
    rw [hcls] at hs' hcls_eq
    obtain ⟨rfl, rfl⟩ := Prod.mk.inj (Option.some.inj hs')
    exact h.skip (by simp [← hcls_eq]) rfl rfl rfl
  | sccPtr =>
    rw [hcls] at hs'
    cases hs'
  | pending =>
    rw [hcls] at hs'
    cases hs'
  | nonatomicRc =>
    rw [hcls] at hs'
    cases hs'

/-- What a list of events does to objects outside: one decrement or release for each reference of the
objects of a set. -/
def GivenBack (r : RegionRc O) (dead : Finset O) (new : List (ObjectEvent O)) : Prop :=
  ∀ c, new.count (.decref c) = (if r.cls c = .rc then refs r.fields dead c else 0) ∧
    new.count (.release c) = if r.cls c = .shared then refs r.fields dead c else 0

/-- `deallocObject` gives back the references of what it deallocates. -/
theorem deallocObject_givenBack (h : Counted iso held r) (hheld : 0 < held iso) (ho : o ∈ r.allocated)
    (hin : r.Inner o) (hzero : r.refCount o = 0)
    (hlive : ∀ y ∈ r.allocated, r.Inner y → y ≠ o → 0 < r.refCount y)
    (hr' : deallocObject fuel r o = some r') :
    ∃ new, r'.events = r.events ++ new ∧ GivenBack r (r.allocated \ r'.allocated) new := by
  rw [deallocObject] at hr'
  obtain ⟨s, hs, rfl⟩ := Option.map_eq_some_iff.mp hr'
  have hstart : Dropping iso held o (fun _ => false) true ⟨r, [o], []⟩ ⟨r, [o], []⟩ (r.fields o) [] :=
    Dropping.init h ho hzero hlive
  obtain ⟨⟨dropped, hend⟩, -⟩ := hstart.ended h (Or.inr ⟨hheld, rfl⟩) (by simp) hs
  have hnoting : Noting r s [] := by
    refine drain_some (I := Noting r) (fun _ _ _ _ _ h hstep => h.step hstep) ?_ hs
    refine ⟨rfl, rfl, [], (List.append_nil _).symm, fun c => ?_⟩
    simp
  have hgc : s.gc = dropped ++ [o] := hend.gc_eq
  have hnodup : s.gc.Nodup := by
    rw [hgc]
    exact (List.perm_append_singleton o dropped).nodup_iff.mpr hend.nodup
  have hmem {x : O} (hx : x ∈ s.gc) : x ∈ r.allocated := by
    rw [hgc, List.mem_append, List.mem_singleton] at hx
    rcases hx with hx | rfl
    · exact (hend.dropped_mem x hx).1
    · exact ho
  obtain ⟨hallocated, -, -, -, -, -, -, hevents⟩ := foldl_freeObject s.gc s.region
  rw [foldl_releaseInternal]
  change ∃ new, (s.gc.foldl freeObject s.region).events ++ _ = r.events ++ new ∧
    GivenBack r (r.allocated \ (s.gc.foldl freeObject s.region).allocated) new
  obtain ⟨new, hnew, hcount⟩ := hnoting.events_eq
  have hset : r.allocated \ (s.gc.foldl freeObject s.region).allocated = s.gc.toFinset := by
    rw [hallocated, hend.allocated_eq]
    ext x
    rw [Finset.mem_sdiff, Finset.mem_sdiff, List.mem_toFinset]
    have hx := hmem (x := x)
    tauto
  have hsum (c : O) : (s.gc.map fun x => (r.fields x).count c).sum = refs r.fields s.gc.toFinset c := by
    rw [refs, List.sum_toFinset _ hnodup]
  refine ⟨new ++ deallocEvents s.gc ++ s.subRegions.map .releaseInternal, ?_, fun c => ?_⟩
  · rw [hevents, hnew]
    simp only [List.append_assoc]
  obtain ⟨hdecref, hrelease, hrc, hshared⟩ := hcount c
  have hfree (event : ObjectEvent O) (hevent : ∀ x, event ≠ .destructor x ∧ event ≠ .dealloc x ∧
      event ≠ .releaseInternal x) : (new ++ deallocEvents s.gc ++
        s.subRegions.map ObjectEvent.releaseInternal).count event = new.count event := by
    have hfreed : event ∉ deallocEvents s.gc := by
      intro hx
      obtain ⟨x, -, hx⟩ := List.mem_flatMap.mp hx
      rcases List.mem_cons.mp hx with heq | hx
      · exact (hevent x).1 heq
      · exact (hevent x).2.1 (List.mem_singleton.mp hx)
    have hregions : event ∉ s.subRegions.map ObjectEvent.releaseInternal := by
      intro hx
      obtain ⟨x, -, heq⟩ := List.mem_map.mp hx
      exact (hevent x).2.2 heq.symm
    rw [List.count_append, List.count_append, List.count_eq_zero.mpr hfreed,
      List.count_eq_zero.mpr hregions, Nat.add_zero]
  rw [hset, hfree _ (by simp), hfree _ (by simp)]
  rw [List.count_nil, Nat.add_zero, hsum] at hrc hshared
  constructor
  · by_cases hc : r.cls c = .rc
    · rw [if_pos hc, hrc hc]
    · rw [if_neg hc, List.count_eq_zero.mpr (hdecref hc)]
  · by_cases hc : r.cls c = .shared
    · rw [if_pos hc, hshared hc]
    · rw [if_neg hc, List.count_eq_zero.mpr (hrelease hc)]

end VeronaRt.RegionRc
