import VeronaFs.Runtime.RegionTraceMark

/-!
# Sweeping a ring

The sweep of a ring keeps the marked objects, in their order, and takes the others out: the trivial ones
are deallocated on the way, the others are linked to a stack and deallocated at the end.
-/

namespace VeronaRt.RegionTrace

open Foundation

variable {O : Type*} {D : Descriptors O} {r r' : RegionTrace O} {x y : O}
  {ring primaryRing : RingKind} {objects done todo : List O} {finish q : Option O} {s s' : Sweep O}
  {fuel : ℕ}

/-! ## Lists of objects -/

/-- The objects of a list that a sweep keeps. -/
def kept (r : RegionTrace O) (l : List O) : List O := l.filter fun x => r.cls x = .marked

/-- The objects of a list that a sweep takes out. -/
def dead (r : RegionTrace O) (l : List O) : List O := l.filter fun x => r.cls x ≠ .marked

/-- What is kept is not taken out. -/
theorem not_mem_dead {l : List O} (hx : x ∈ kept r l) : x ∉ dead r l := by
  intro hx'
  have hmarked := (List.mem_filter.mp hx).2
  have hnot := (List.mem_filter.mp hx').2
  simp only [decide_eq_true_eq] at hmarked hnot
  exact hnot hmarked

/-- What is kept of one more object that is marked. -/
theorem kept_append_marked (h : r.cls x = .marked) : kept r (done ++ [x]) = kept r done ++ [x] := by
  simp [kept, List.filter_append, h]

/-- What is kept of one more object that is not marked. -/
theorem kept_append_dead (h : r.cls x ≠ .marked) : kept r (done ++ [x]) = kept r done := by
  simp [kept, List.filter_append, h]

/-- What is taken out of one more object that is marked. -/
theorem dead_append_marked (h : r.cls x = .marked) : dead r (done ++ [x]) = dead r done := by
  simp [dead, List.filter_append, h]

/-- What is taken out of one more object that is not marked. -/
theorem dead_append_dead (h : r.cls x ≠ .marked) : dead r (done ++ [x]) = dead r done ++ [x] := by
  simp [dead, List.filter_append, h]

/-! ## Taking an object out -/

/-- The pointer to the first object of a ring. -/
def first (ring primaryRing : RingKind) (r : RegionTrace O) : Option O :=
  if ring = primaryRing then r.next r.self else r.nextNotRoot

/-- The event of an object that a sweep takes out. -/
def sweepEvent (ring : RingKind) (x : O) : ObjectEvent O :=
  match ring with
  | .trivialRing => .dealloc x
  | .nonTrivialRing => .finalise x

variable [DecidableEq O]

/-- What a sweep does to an object before it is taken out of the ring. -/
structure Taken (ring : RingKind) (s : Sweep O) (x : O) (s' : Sweep O) : Prop where
  /-- The region is the same. -/
  self_eq : s'.region.self = s.region.self
  /-- The last object that is kept is the same. -/
  prev_eq : s'.prev = s.prev
  /-- The links of the other objects are the same. -/
  next_eq : ∀ y, y ≠ x → s'.region.next y = s.region.next y
  /-- The classes are the same. -/
  cls_eq : s'.region.cls = s.region.cls
  /-- The secondary ring is the same. -/
  nextNotRoot_eq : s'.region.nextNotRoot = s.region.nextNotRoot
  /-- Its last object is the same. -/
  lastNotRoot_eq : s'.region.lastNotRoot = s.region.lastNotRoot
  /-- The additional roots are the same. -/
  additionalEntryPoints_eq : s'.region.additionalEntryPoints = s.region.additionalEntryPoints
  /-- A trivial object is deallocated. -/
  allocated_eq : s'.region.allocated =
    if ring = .trivialRing then s.region.allocated.erase x else s.region.allocated
  /-- What is done to the object. -/
  events_eq : s'.region.events = s.region.events ++ [sweepEvent ring x]
  /-- Another object is pushed. -/
  gc_eq : ring = .nonTrivialRing → s'.gc = some x ∧ s'.region.next x = s.gc

/-- An object of the ring is taken. -/
theorem sweepObject_spec (htrivial : D.isTrivial x = decide (ring = .trivialRing))
    (hcls : s.region.cls x = .unmarked) :
    ∃ s', sweepObject D ring s x = some s' ∧ Taken ring s x s' := by
  cases ring with
  | trivialRing =>
    have htrivial : D.isTrivial x = true := htrivial
    refine ⟨_, if_pos htrivial, rfl, rfl, fun _ _ => rfl, rfl, rfl, rfl, rfl, rfl, rfl, ?_⟩
    rintro ⟨⟩
  | nonTrivialRing =>
    have htrivial : D.isTrivial x = false := htrivial
    refine ⟨_, if_pos htrivial, rfl, rfl, fun y hy => Function.update_of_ne hy _ _, ?_, rfl, rfl, rfl,
      rfl, rfl, fun _ => ⟨rfl, Function.update_self ..⟩⟩
    change Function.update s.region.cls x RegionMD.unmarked = s.region.cls
    rw [← hcls, Function.update_eq_self]

/-- What unlinking an object does. -/
structure Unlinked (ring primaryRing : RingKind) (s : Sweep O) (x : O) (q : Option O) (s' : Sweep O) :
    Prop where
  /-- The region is the same. -/
  self_eq : s'.region.self = s.region.self
  /-- The last object that is kept is the same. -/
  prev_eq : s'.prev = s.prev
  /-- The sweep goes on behind the object. -/
  p_eq : s'.p = q
  /-- The links of the other objects are the same. -/
  next_eq : ∀ y, y ≠ s.prev ∨ ring ≠ primaryRing ∧ y = s.region.self →
    s'.region.next y = s.region.next y
  /-- The link of the last object that is kept. -/
  next_prev : ¬ (ring ≠ primaryRing ∧ s.prev = s.region.self) → s'.region.next s.prev = q
  /-- The classes are the same. -/
  cls_eq : s'.region.cls = s.region.cls
  /-- The first object of the secondary ring. -/
  nextNotRoot_eq : s'.region.nextNotRoot =
    if ring ≠ primaryRing ∧ s.prev = s.region.self then q else s.region.nextNotRoot
  /-- The last object of the secondary ring. -/
  lastNotRoot_eq : s'.region.lastNotRoot =
    if ring ≠ primaryRing ∧ s.region.lastNotRoot = some x then some s.prev else s.region.lastNotRoot
  /-- The additional roots are the same. -/
  additionalEntryPoints_eq : s'.region.additionalEntryPoints = s.region.additionalEntryPoints
  /-- The allocated objects are the same. -/
  allocated_eq : s'.region.allocated = s.region.allocated
  /-- Nothing is done to objects. -/
  events_eq : s'.region.events = s.region.events
  /-- The stack is the same. -/
  gc_eq : s'.gc = s.gc

/-- An object is unlinked. -/
theorem unlink_spec (ring primaryRing : RingKind) (x : O) (q : Option O) (hprev : s.prev ∈ s.region.allocated)
    (hcls : s.region.cls s.prev = .unmarked) :
    ∃ s', unlink ring primaryRing s x q = some s' ∧ Unlinked ring primaryRing s x q s' := by
  rw [unlink]
  by_cases hhead : ring ≠ primaryRing ∧ s.prev = s.region.self
  · rw [if_pos hhead, Option.map_some]
    refine ⟨_, rfl, ?_⟩
    by_cases hlast : s.region.lastNotRoot = some x
    · simp only [hhead.1, hlast, ne_eq, not_false_eq_true, and_self, if_true]
      refine ⟨rfl, rfl, rfl, fun _ _ => rfl, fun h => absurd hhead h, rfl, ?_, ?_, rfl, rfl, rfl, rfl⟩
      · rw [if_pos hhead]
      · rw [if_pos ⟨hhead.1, hlast⟩]
    · simp only [hlast, and_false, if_false]
      refine ⟨rfl, rfl, rfl, fun _ _ => rfl, fun h => absurd hhead h, rfl, ?_, ?_, rfl, rfl, rfl, rfl⟩
      · rw [if_pos hhead]
      · rw [if_neg fun h => hlast h.2]
  · rw [if_neg hhead, setNext, if_pos ⟨hprev, hcls⟩, Option.map_some]
    have hsame : Function.update s.region.cls s.prev RegionMD.unmarked = s.region.cls := by
      rw [← hcls, Function.update_eq_self]
    have hother : ∀ y, y ≠ s.prev ∨ ring ≠ primaryRing ∧ y = s.region.self →
        Function.update s.region.next s.prev q y = s.region.next y := by
      rintro y (hy | ⟨hring, rfl⟩)
      · exact Function.update_of_ne hy _ _
      · refine Function.update_of_ne (fun heq => hhead ⟨hring, heq.symm⟩) _ _
    refine ⟨_, rfl, ?_⟩
    by_cases hlast : ring ≠ primaryRing ∧ s.region.lastNotRoot = some x
    · have hlast' : ring ≠ primaryRing ∧ (s.region.initNext s.prev q).lastNotRoot = some x := hlast
      rw [if_pos hlast']
      refine ⟨rfl, rfl, rfl, hother, fun _ => Function.update_self .., hsame, ?_, ?_, rfl, rfl, rfl,
        rfl⟩
      · rw [if_neg hhead]
        rfl
      · rw [if_pos hlast]
    · have hlast' : ¬ (ring ≠ primaryRing ∧ (s.region.initNext s.prev q).lastNotRoot = some x) := hlast
      rw [if_neg hlast']
      refine ⟨rfl, rfl, rfl, hother, fun _ => Function.update_self .., hsame, ?_, ?_, rfl, rfl, rfl,
        rfl⟩
      · rw [if_neg hhead]
        rfl
      · rw [if_neg hlast]
        rfl

/-! ## The loop -/

/-- A ring before its sweep: the objects lead to `finish`, the entry point or the metadata object. -/
structure Ring (D : Descriptors O) (ring primaryRing : RingKind) (objects : List O)
    (finish : Option O) (r : RegionTrace O) : Prop where
  /-- The objects are different ones. -/
  nodup : (r.self :: objects).Nodup
  /-- The objects are allocated. -/
  allocated : ∀ x ∈ r.self :: objects, x ∈ r.allocated
  /-- The metadata object is not marked. -/
  cls_self : r.cls r.self = .unmarked
  /-- The other objects are mutable. -/
  cls_eq : ∀ x ∈ objects, r.cls x ≠ .marked → r.cls x = .unmarked
  /-- The links. -/
  path : Path r.next objects (first ring primaryRing r) finish
  /-- The last object of the secondary ring, or the metadata object. -/
  last : ring ≠ primaryRing → r.lastNotRoot = some (objects.getLast?.getD r.self)
  /-- The trivial objects are in a ring of their own. -/
  isTrivial : ∀ x ∈ objects, D.isTrivial x = decide (ring = .trivialRing)

/-- The invariant of the loop when it has passed `done` and `todo` is ahead. -/
structure Sweeping (r : RegionTrace O) (ring primaryRing : RingKind) (done todo : List O)
    (finish : Option O) (s : Sweep O) : Prop where
  /-- The region is the same. -/
  self_eq : s.region.self = r.self
  /-- The ring leads along the objects that are kept to the next one. -/
  path_kept : Path s.region.next (kept r done) (first ring primaryRing s.region) s.p
  /-- From there it leads along the objects that are ahead. -/
  path_todo : Path s.region.next todo s.p finish
  /-- The last object that is kept, or the metadata object. -/
  prev_eq : s.prev = (kept r done).getLast?.getD r.self
  /-- The objects behind are not marked. -/
  cls_eq : ∀ x, s.region.cls x = if x ∈ done then .unmarked else r.cls x
  /-- The links of other objects are the same. -/
  next_eq : ∀ x, x ∉ done ++ todo → (x = r.self → ring ≠ primaryRing) →
    s.region.next x = r.next x
  /-- The secondary ring is the same when the primary one is swept. -/
  nextNotRoot_eq : ring = primaryRing → s.region.nextNotRoot = r.nextNotRoot
  /-- The last object of the secondary ring. -/
  lastNotRoot_eq : s.region.lastNotRoot = if ring = primaryRing then r.lastNotRoot
    else some ((kept r done ++ todo).getLast?.getD r.self)
  /-- The additional roots are the same. -/
  additionalEntryPoints_eq : s.region.additionalEntryPoints = r.additionalEntryPoints
  /-- The dead objects of the trivial ring are deallocated. -/
  allocated_eq : s.region.allocated =
    if ring = .trivialRing then r.allocated \ (dead r done).toFinset else r.allocated
  /-- What is done to the dead objects. -/
  events_eq : s.region.events = r.events ++ (dead r done).map (sweepEvent ring)
  /-- The other dead objects are on the stack. -/
  gc_path : ring = .nonTrivialRing → Path s.region.next (dead r done).reverse s.gc none

/-- The loop starts at the first object. -/
theorem Ring.sweeping (h : Ring D ring primaryRing objects finish r) (collect : List O) :
    Sweeping r ring primaryRing [] objects finish
      ⟨r, r.self, first ring primaryRing r, none, collect⟩ := by
  refine ⟨rfl, rfl, h.path, rfl, fun x => ?_, fun x _ _ => rfl, fun _ => rfl, ?_, rfl, ?_, ?_, fun _ => rfl⟩
  · rw [if_neg List.not_mem_nil]
  · split
    · rfl
    · next hring => exact h.last hring
  · simp [dead]
  · simp [dead]

/-- The next object of the loop. -/
theorem Sweeping.cons (h : Ring D ring primaryRing (done ++ x :: todo) finish r)
    (hs : Sweeping r ring primaryRing done (x :: todo) finish s) :
    s.p = some x ∧ x ∉ done ∧ x ∉ todo ∧ x ≠ r.self ∧ s.region.cls x = r.cls x := by
  have hnodup := h.nodup
  simp only [List.nodup_cons, List.nodup_append', List.disjoint_cons_right, List.mem_append,
    List.mem_cons, not_or] at hnodup
  obtain ⟨⟨-, hself, -⟩, -, ⟨htodo, -⟩, hdone, -⟩ := hnodup
  refine ⟨hs.path_todo.1, hdone, htodo, fun heq => hself heq.symm, ?_⟩
  rw [hs.cls_eq, if_neg hdone]

/-- A marked object is kept. -/
theorem Sweeping.keep (h : Ring D ring primaryRing (done ++ x :: todo) finish r)
    (hs : Sweeping r ring primaryRing done (x :: todo) finish s) (hx : r.cls x = .marked) :
    ∃ s', sweepStep D ring primaryRing false s x = some s' ∧
      Sweeping r ring primaryRing (done ++ [x]) todo finish s' := by
  obtain ⟨hp, hdone, htodo, hself, hcls⟩ := hs.cons h
  have hmem : x ∈ s.region.allocated := by
    have hmem := h.allocated x (by simp)
    rw [hs.allocated_eq]
    split
    · refine Finset.mem_sdiff.mpr ⟨hmem, fun hdead => hdone ?_⟩
      exact List.mem_of_mem_filter (List.mem_toFinset.mp hdead)
    · exact hmem
  rw [sweepStep, if_neg (not_not.mpr hmem), hcls, hx]
  refine ⟨_, rfl, hs.self_eq, ?_, hs.path_todo.2, ?_, fun y => ?_, fun y hy => ?_, hs.nextNotRoot_eq,
    ?_, hs.additionalEntryPoints_eq, ?_, ?_, ?_⟩
  · rw [kept_append_marked hx]
    exact Path.append_iff.mpr ⟨s.p, hs.path_kept, hp, rfl⟩
  · simp [kept_append_marked hx]
  · change Function.update s.region.cls x RegionMD.unmarked y = _
    rw [Function.update_apply, hs.cls_eq]
    simp only [List.mem_append, List.mem_singleton]
    by_cases hyx : y = x <;> simp [hyx]
  · refine hs.next_eq y ?_
    simpa using hy
  · rw [kept_append_marked hx, List.append_assoc]
    exact hs.lastNotRoot_eq
  · rw [dead_append_marked hx]
    exact hs.allocated_eq
  · rw [dead_append_marked hx]
    exact hs.events_eq
  · rw [dead_append_marked hx]
    exact hs.gc_path

/-- The last object that is kept is behind, or it is the metadata object. -/
theorem Sweeping.prev_cases (hs : Sweeping r ring primaryRing done todo finish s) :
    (kept r done = [] ∧ s.prev = r.self) ∨
      (kept r done).getLast? = some s.prev ∧ s.prev ∈ kept r done := by
  have hprev := hs.prev_eq
  cases hlast : (kept r done).getLast? with
  | none =>
    rw [hlast] at hprev
    exact Or.inl ⟨List.getLast?_eq_none_iff.mp hlast, hprev⟩
  | some b =>
    rw [hlast] at hprev
    rw [hprev]
    exact Or.inr ⟨rfl, List.mem_of_getLast? hlast⟩

/-- An object is taken out and unlinked. -/
theorem Sweeping.unlink {s₁ s₂ : Sweep O} (h : Ring D ring primaryRing (done ++ x :: todo) finish r)
    (hs : Sweeping r ring primaryRing done (x :: todo) finish s) (hx : r.cls x ≠ .marked)
    (ht : Taken ring s x s₁) (hu : Unlinked ring primaryRing s₁ x (s.region.next x) s₂) :
    Sweeping r ring primaryRing (done ++ [x]) todo finish s₂ := by
  obtain ⟨hp, hdone, htodo, hself, hcls⟩ := hs.cons h
  have hnodup := h.nodup
  simp only [List.nodup_cons, List.nodup_append', List.disjoint_cons_right, List.mem_append,
    List.mem_cons, not_or] at hnodup
  obtain ⟨⟨hself_done, -, hself_todo⟩, hdone_nodup, ⟨-, htodo_nodup⟩, -, hdisj⟩ := hnodup
  have hkept {y : O} (hy : y ∈ kept r done) : y ∈ done := List.mem_of_mem_filter hy
  have hdead {y : O} (hy : y ∈ dead r done) : y ∈ done := List.mem_of_mem_filter hy
  have hprev₁ : s₁.prev = s.prev := ht.prev_eq
  have hself₁ : s₁.region.self = r.self := ht.self_eq.trans hs.self_eq
  have hself₂ : s₂.region.self = r.self := hu.self_eq.trans hself₁
  have hcases := hs.prev_cases
  have hprev_ne {y : O} (hy : y ∉ kept r done) (hy' : y ≠ r.self) : y ≠ s.prev := by
    rcases hcases with ⟨-, heq⟩ | ⟨-, hmem⟩
    · rwa [heq]
    · exact fun heq => hy (heq ▸ hmem)
  have hnext {y : O} (hy : y ≠ x) (hy' : y ≠ s.prev ∨ ring ≠ primaryRing ∧ y = r.self) :
      s₂.region.next y = s.region.next y := by
    rw [hu.next_eq y (by rwa [hprev₁, hself₁]), ht.next_eq y hy]
  have hnext_prev (hhead : ¬ (ring ≠ primaryRing ∧ s.prev = r.self)) :
      s₂.region.next s.prev = s.region.next x := by
    rw [← hprev₁]
    exact hu.next_prev (by rwa [hprev₁, hself₁])
  refine ⟨hself₂, ?_, ?_, ?_, fun y => ?_, fun y hy hyself => ?_, fun hring => ?_, ?_, ?_, ?_, ?_,
    fun hring => ?_⟩
  · rw [kept_append_dead hx, hu.p_eq]
    refine hs.path_kept.relast (hdone_nodup.filter _) (fun b hb hne => ?_) (fun b hb => ?_)
      (fun hnil => ?_) fun hne => ?_
    · refine hnext (fun heq => hdone (heq ▸ hkept hb)) (Or.inl ?_)
      rcases hcases with ⟨hnil, -⟩ | ⟨hlast, -⟩
      · rw [hnil] at hb
        exact absurd hb List.not_mem_nil
      · exact fun heq => hne (heq ▸ hlast)
    · rcases hcases with ⟨hnil, -⟩ | ⟨hlast, hmem⟩
      · rw [hnil] at hb
        cases hb
      · obtain rfl := Option.some.inj (hlast.symm.trans hb)
        exact hnext_prev fun hhead => hself_done (hhead.2 ▸ hkept hmem)
    · have hprev : s.prev = r.self := by
        rcases hcases with ⟨-, heq⟩ | ⟨-, hmem⟩
        · exact heq
        · rw [hnil] at hmem
          exact absurd hmem List.not_mem_nil
      rw [first]
      split
      · next hring =>
        rw [hself₂, ← hprev]
        exact hnext_prev fun hhead => hhead.1 hring
      · next hring =>
        rw [hu.nextNotRoot_eq, if_pos ⟨hring, by rw [hprev₁, hself₁, hprev]⟩]
    · have hmem : s.prev ∈ kept r done := (hcases.resolve_left fun hnil => hne hnil.1).2
      have hprev : s.prev ≠ r.self := fun heq => hself_done (heq ▸ hkept hmem)
      rw [first, first]
      split
      · rw [hself₂, hs.self_eq]
        exact hnext (Ne.symm hself) (Or.inl (Ne.symm hprev))
      · rw [hu.nextNotRoot_eq, if_neg fun hhead => hprev (by rw [← hprev₁, hhead.2, hself₁]),
          ht.nextNotRoot_eq]
  · rw [hu.p_eq]
    refine hs.path_todo.2.congr fun y hy => hnext (fun heq => htodo (heq ▸ hy)) (Or.inl ?_)
    exact hprev_ne (fun hy' => hdisj (hkept hy') hy) fun heq => hself_todo (heq ▸ hy)
  · rw [hu.prev_eq, hprev₁, kept_append_dead hx, hs.prev_eq]
  · rw [hu.cls_eq, ht.cls_eq, hs.cls_eq]
    simp only [List.mem_append, List.mem_singleton]
    by_cases hyx : y = x
    · rw [hyx, h.cls_eq x (by simp) hx]
      simp
    · simp [hyx]
  · simp only [List.mem_append, List.mem_singleton, not_or] at hy
    rw [hnext hy.1.2]
    · exact hs.next_eq y (by simp [hy]) hyself
    · by_cases hyself' : y = r.self
      · exact Or.inr ⟨hyself hyself', hyself'⟩
      · exact Or.inl (hprev_ne (fun hy' => hy.1.1 (hkept hy')) hyself')
  · rw [hu.nextNotRoot_eq, if_neg fun hhead => hhead.1 hring, ht.nextNotRoot_eq,
      hs.nextNotRoot_eq hring]
  · rw [hu.lastNotRoot_eq, ht.lastNotRoot_eq, hs.lastNotRoot_eq, kept_append_dead hx, hprev₁,
      hs.prev_eq]
    by_cases hring : ring = primaryRing
    · simp only [hring, ne_eq, not_true_eq_false, false_and, if_true, if_false]
    · simp only [hring, ne_eq, not_false_eq_true, true_and, if_false, List.getLast?_append]
      cases todo with
      | nil => simp
      | cons t todo =>
        have hlast : (t :: todo).getLast? = some (todo.getLast?.getD t) := List.getLast?_cons
        have hne : todo.getLast?.getD t ≠ x := fun heq =>
          htodo (heq ▸ List.mem_of_getLast? hlast)
        simp [hlast, hne]
  · rw [hu.additionalEntryPoints_eq, ht.additionalEntryPoints_eq, hs.additionalEntryPoints_eq]
  · rw [hu.allocated_eq, ht.allocated_eq, hs.allocated_eq, dead_append_dead hx]
    split
    · ext y
      simp only [Finset.mem_erase, Finset.mem_sdiff, List.mem_toFinset, List.mem_append,
        List.mem_singleton, not_or]
      tauto
    · rfl
  · rw [hu.events_eq, ht.events_eq, hs.events_eq, dead_append_dead hx, List.map_append,
      List.append_assoc]
    rfl
  · obtain ⟨hgc, hgc_next⟩ := ht.gc_eq hring
    rw [dead_append_dead hx, List.reverse_append, hu.gc_eq, hgc]
    refine ⟨rfl, ?_⟩
    have hxprev : x ≠ s.prev := hprev_ne (fun hx' => hdone (hkept hx')) hself
    rw [hu.next_eq x (Or.inl (by rwa [hprev₁])), hgc_next]
    refine (hs.gc_path hring).congr fun y hy => ?_
    have hy := List.mem_reverse.mp hy
    refine hnext (fun heq => hdone (heq ▸ hdead hy)) (Or.inl ?_)
    exact hprev_ne (fun hy' => not_mem_dead hy' hy) fun heq => hself_done (heq ▸ hdead hy)

/-- An object that is not marked is taken out. -/
theorem Sweeping.take (h : Ring D ring primaryRing (done ++ x :: todo) finish r)
    (hs : Sweeping r ring primaryRing done (x :: todo) finish s) (hx : r.cls x ≠ .marked)
    (sweepAll : Bool) :
    ∃ s', sweepStep D ring primaryRing sweepAll s x = some s' ∧
      Sweeping r ring primaryRing (done ++ [x]) todo finish s' := by
  obtain ⟨hp, hdone, htodo, hself, hcls⟩ := hs.cons h
  have hunmarked : r.cls x = .unmarked := h.cls_eq x (by simp) hx
  have hnodup := h.nodup
  rw [List.nodup_cons] at hnodup
  have hkept : ∀ y ∈ kept r done, y ∈ done := fun y hy => List.mem_of_mem_filter hy
  have hdead : ∀ y ∈ dead r done, y ∈ done := fun y hy => List.mem_of_mem_filter hy
  have hprev : s.prev = r.self ∨ s.prev ∈ kept r done :=
    hs.prev_cases.imp And.right And.right
  have hmem {y : O} (hy : y ∈ r.allocated) (hdead : y ∉ dead r done) : y ∈ s.region.allocated := by
    rw [hs.allocated_eq]
    split
    · exact Finset.mem_sdiff.mpr ⟨hy, fun hy' => hdead (List.mem_toFinset.mp hy')⟩
    · exact hy
  have hxmem := hmem (h.allocated x (by simp)) fun hx' => hdone (hdead x hx')
  have hprev_ne : s.prev ≠ x := by
    rcases hprev with heq | hy
    · exact fun heq' => hself (heq'.symm.trans heq)
    · exact fun heq => hdone (hkept x (heq ▸ hy))
  rw [sweepStep, if_neg (not_not.mpr hxmem), hcls, hunmarked]
  obtain ⟨s₁, hs₁, ht⟩ := sweepObject_spec (s := s) (h.isTrivial x (by simp))
    (hcls.trans hunmarked)
  have hprev_mem : s₁.prev ∈ s₁.region.allocated := by
    have hprev_dead : s.prev ∉ dead r done := by
      rcases hprev with heq | hy
      · rw [heq]
        exact fun hy => hnodup.1 (List.mem_append_left _ (hdead _ hy))
      · exact not_mem_dead hy
    have hprev_all : s.prev ∈ r.allocated := by
      rcases hprev with heq | hy
      · rw [heq]
        exact h.allocated r.self List.mem_cons_self
      · exact h.allocated _ (List.mem_cons_of_mem _ (List.mem_append_left _ (hkept _ hy)))
    have hmem' := hmem hprev_all hprev_dead
    rw [ht.prev_eq, ht.allocated_eq]
    split
    · exact Finset.mem_erase.mpr ⟨hprev_ne, hmem'⟩
    · exact hmem'
  have hprev_cls : s₁.region.cls s₁.prev = .unmarked := by
    rw [ht.prev_eq, ht.cls_eq, hs.cls_eq]
    rcases hprev with heq | hy
    · rw [heq, h.cls_self]
      split <;> rfl
    · rw [if_pos (hkept _ hy)]
  obtain ⟨s₂, hs₂, hu⟩ := unlink_spec ring primaryRing x (s.region.next x) hprev_mem hprev_cls
  rw [hs₁]
  exact ⟨s₂, hs₂, hs.unlink h hx ht hu⟩

/-- The loop passes all objects of the ring.  When everything is swept, none of them is marked. -/
theorem Sweeping.loop (h : Ring D ring primaryRing (done ++ todo) finish r)
    (hs : Sweeping r ring primaryRing done todo finish s) (sweepAll : Bool)
    (hall : sweepAll = true → ∀ x ∈ todo, r.cls x ≠ .marked) :
    ∃ s', (∀ fuel, sweepLoop D ring primaryRing sweepAll (fuel + todo.length) s =
      sweepLoop D ring primaryRing sweepAll fuel s') ∧
      Sweeping r ring primaryRing (done ++ todo) [] finish s' := by
  induction todo generalizing done s with
  | nil =>
    refine ⟨s, fun fuel => rfl, ?_⟩
    rwa [List.append_nil]
  | cons x todo ih =>
    obtain ⟨hp, -, -, hself, -⟩ := hs.cons h
    obtain ⟨s₁, hs₁, hnext⟩ : ∃ s', sweepStep D ring primaryRing sweepAll s x = some s' ∧
        Sweeping r ring primaryRing (done ++ [x]) todo finish s' := by
      by_cases hx : r.cls x = .marked
      · cases sweepAll with
        | false => exact hs.keep h hx
        | true => exact absurd hx (hall rfl x List.mem_cons_self)
      · exact hs.take h hx sweepAll
    have hsplit : done ++ x :: todo = done ++ [x] ++ todo := by simp
    rw [hsplit] at h ⊢
    obtain ⟨s', hloop, hend⟩ := ih h hnext fun hsweep y hy => hall hsweep y (List.mem_cons_of_mem x hy)
    refine ⟨s', fun fuel => ?_, hend⟩
    have hne : s.p ≠ some s.region.self := by
      rw [hp, hs.self_eq]
      exact fun heq => hself (Option.some.inj heq)
    rw [List.length_cons, ← Nat.add_assoc, sweepLoop, if_neg hne, hp, Option.bind_some, hs₁,
      Option.bind_some, hloop]

/-- The objects on the stack are destructed and deallocated. -/
theorem gcLoop_spec {l : List O} {h : Option O} (hpath : Path r.next l h none) (hl : l.Nodup)
    (hmem : ∀ x ∈ l, x ∈ r.allocated) (hfuel : l.length ≤ fuel) :
    gcLoop fuel r h = some { r with
      allocated := r.allocated \ l.toFinset
      events := r.events ++ l.flatMap fun q => [.destructor q, .dealloc q] } := by
  induction l generalizing r h fuel with
  | nil =>
    obtain rfl : h = none := hpath
    rw [gcLoop]
    simp
  | cons q l ih =>
    obtain ⟨rfl, hpath⟩ := hpath
    obtain ⟨hq, hl⟩ := List.nodup_cons.mp hl
    obtain ⟨fuel, rfl⟩ := Nat.exists_eq_succ_of_ne_zero
      (Nat.ne_of_gt (Nat.zero_lt_of_lt (Nat.lt_of_lt_of_le (Nat.succ_pos l.length) hfuel)))
    have hmem' : ∀ x ∈ l, x ∈ ((r.emit (.destructor q)).dealloc q).allocated := fun x hx =>
      Finset.mem_erase.mpr ⟨fun heq => hq (heq ▸ hx), hmem x (List.mem_cons_of_mem q hx)⟩
    rw [gcLoop, if_neg (not_not.mpr (hmem q List.mem_cons_self)),
      ih (r := (r.emit (.destructor q)).dealloc q) hpath hl hmem' (Nat.le_of_succ_le_succ hfuel)]
    have hset : (r.allocated.erase q) \ l.toFinset = r.allocated \ (q :: l).toFinset := by
      ext x
      simp only [Finset.mem_sdiff, Finset.mem_erase, List.mem_toFinset, List.mem_cons, not_or]
      tauto
    simp only [dealloc, emit, hset, List.flatMap_cons, List.append_assoc, List.cons_append,
      List.nil_append]

/-! ## A ring -/

/-- What is done to the dead objects of a ring. -/
def ringEvents (ring : RingKind) (l : List O) : List (ObjectEvent O) :=
  match ring with
  | .trivialRing => l.map .dealloc
  | .nonTrivialRing => l.map .finalise ++ l.reverse.flatMap fun q => [.destructor q, .dealloc q]

/-- What the sweep of a ring leaves. -/
structure Swept (r : RegionTrace O) (ring primaryRing : RingKind) (objects : List O)
    (finish : Option O) (r' : RegionTrace O) : Prop where
  /-- The region is the same. -/
  self_eq : r'.self = r.self
  /-- The ring leads along the objects that are kept. -/
  path : Path r'.next (kept r objects) (first ring primaryRing r') finish
  /-- The objects of the ring are not marked. -/
  cls_eq : ∀ x, r'.cls x = if x ∈ objects then .unmarked else r.cls x
  /-- The links of other objects are the same. -/
  next_eq : ∀ x, x ∉ objects → (x = r.self → ring ≠ primaryRing) → r'.next x = r.next x
  /-- The secondary ring is the same when the primary one is swept. -/
  nextNotRoot_eq : ring = primaryRing → r'.nextNotRoot = r.nextNotRoot
  /-- The last object of the secondary ring. -/
  lastNotRoot_eq : r'.lastNotRoot = if ring = primaryRing then r.lastNotRoot
    else some ((kept r objects).getLast?.getD r.self)
  /-- The additional roots are the same. -/
  additionalEntryPoints_eq : r'.additionalEntryPoints = r.additionalEntryPoints
  /-- The dead objects are deallocated. -/
  allocated_eq : r'.allocated = r.allocated \ (dead r objects).toFinset
  /-- What is done to the dead objects. -/
  events_eq : r'.events = r.events ++ ringEvents ring (dead r objects)

/-- A ring ends at the metadata object, or at the entry point that leads to it. -/
def Finish (r : RegionTrace O) (ring primaryRing : RingKind) (objects : List O)
    (finish : Option O) : Prop :=
  ring ≠ primaryRing ∧ finish = some r.self ∨
    ring = primaryRing ∧ ∃ iso, finish = some iso ∧ r.cls iso = .iso ∧ r.next iso = some r.self ∧
      iso ∈ r.allocated ∧ iso ∉ r.self :: objects

/-- When all objects are passed, the loop ends at the metadata object. -/
theorem Sweeping.end_loop (hs : Sweeping r ring primaryRing objects [] finish s)
    (hfinish : Finish r ring primaryRing objects finish) (hfuel : 2 ≤ fuel) :
    ∃ n p, sweepLoop D ring primaryRing false fuel s =
      some { s with region := { s.region with currentMemoryUsed := n }, p := p } := by
  obtain ⟨fuel, rfl⟩ := Nat.exists_eq_add_of_le' hfuel
  have hp : s.p = finish := hs.path_todo
  have hself : (some r.self : Option O) = some s.region.self := by rw [hs.self_eq]
  rcases hfinish with ⟨-, rfl⟩ | ⟨hring, iso, rfl, hcls, hnext, hmem, hout⟩
  · refine ⟨s.region.currentMemoryUsed, s.p, ?_⟩
    rw [sweepLoop, if_pos (hp.trans hself)]
  · rw [List.mem_cons, not_or] at hout
    have hne : s.p ≠ some s.region.self := by
      rw [hp, ← hself]
      exact fun heq => hout.1 (Option.some.inj heq)
    have hmem' : iso ∈ s.region.allocated := by
      rw [hs.allocated_eq]
      split
      · refine Finset.mem_sdiff.mpr ⟨hmem, fun hdead => hout.2 ?_⟩
        exact List.mem_of_mem_filter (List.mem_toFinset.mp hdead)
      · exact hmem
    have hcls' : s.region.cls iso = .iso := by
      rw [hs.cls_eq, if_neg hout.2, hcls]
    have hnext' : s.region.next iso = some s.region.self := by
      rw [hs.next_eq iso (by simpa using hout.2) fun heq => absurd heq hout.1, hnext, hself]
    refine ⟨s.region.currentMemoryUsed + D.size iso, some s.region.self, ?_⟩
    rw [sweepLoop, if_neg hne, hp, Option.bind_some, sweepStep, if_neg (not_not.mpr hmem'), hcls']
    simp only [hnext', ne_eq, not_true_eq_false, if_false, Bool.false_eq_true, Option.bind_some]
    exact if_pos rfl

/-- A ring is swept. -/
theorem sweepRing_spec (h : Ring D ring primaryRing objects finish r)
    (hfinish : Finish r ring primaryRing objects finish) (hfuel : objects.length + 2 ≤ fuel)
    (collect : List O) :
    ∃ r' collect', sweepRing D fuel ring primaryRing false r collect = some (r', collect') ∧
      Swept r ring primaryRing objects finish r' := by
  obtain ⟨fuel, rfl⟩ := Nat.exists_eq_add_of_le' (Nat.le_of_add_right_le hfuel)
  have hstart : (if ring = primaryRing then r.getNext r.self else some r.nextNotRoot) =
      some (first ring primaryRing r) := by
    by_cases hring : ring = primaryRing
    · rw [first, if_pos hring, if_pos hring, getNext,
        if_pos ⟨h.allocated r.self List.mem_cons_self, h.cls_self⟩]
    · rw [first, if_neg hring, if_neg hring]
  obtain ⟨s, hloop, hs⟩ := (h.sweeping collect).loop h false nofun
  rw [List.nil_append] at hs
  obtain ⟨n, p, hend⟩ := hs.end_loop (D := D) hfinish (show 2 ≤ fuel by omega)
  rw [sweepRing, hstart, Option.bind_some, hloop, hend, Option.bind_some]
  have hp : s.p = finish := hs.path_todo
  have hpath := hs.path_kept
  rw [hp] at hpath
  have hcls := hs.cls_eq
  have hnext : ∀ x, x ∉ objects → (x = r.self → ring ≠ primaryRing) →
      s.region.next x = r.next x := fun x hx => hs.next_eq x (by simpa using hx)
  have hlast := hs.lastNotRoot_eq
  rw [List.append_nil] at hlast
  cases ring with
  | trivialRing =>
    exact ⟨_, _, rfl, hs.self_eq, hpath, hcls, hnext, hs.nextNotRoot_eq, hlast,
      hs.additionalEntryPoints_eq, hs.allocated_eq, hs.events_eq⟩
  | nonTrivialRing =>
    have hnodup : (dead r objects).reverse.Nodup :=
      List.nodup_reverse.mpr ((List.nodup_cons.mp h.nodup).2.filter _)
    have hmem : ∀ x ∈ (dead r objects).reverse,
        x ∈ ({ s.region with currentMemoryUsed := n } : RegionTrace O).allocated := by
      intro x hx
      have hallocated : s.region.allocated = r.allocated := hs.allocated_eq
      change x ∈ s.region.allocated
      rw [hallocated]
      exact h.allocated x (List.mem_cons_of_mem _ (List.mem_of_mem_filter (List.mem_reverse.mp hx)))
    have hlength : (dead r objects).reverse.length ≤ fuel + objects.length := by
      rw [List.length_reverse]
      exact (List.length_filter_le ..).trans (Nat.le_add_left ..)
    have hgc := gcLoop_spec (r := { s.region with currentMemoryUsed := n }) (hs.gc_path rfl) hnodup
      hmem hlength
    simp only [hgc, Option.map_some]
    refine ⟨_, _, rfl, hs.self_eq, hpath, hcls, hnext, hs.nextNotRoot_eq, hlast,
      hs.additionalEntryPoints_eq, ?_, ?_⟩
    · have hallocated : s.region.allocated = r.allocated := hs.allocated_eq
      change s.region.allocated \ _ = _
      rw [hallocated, List.toFinset_reverse]
    · have hevents := hs.events_eq
      change s.region.events ++ _ = _
      rw [hevents, List.append_assoc]
      rfl

end VeronaRt.RegionTrace
