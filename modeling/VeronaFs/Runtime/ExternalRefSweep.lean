import VeronaFs.Runtime.ExternalRefRuns

/-!
# External references of dead objects

A sweep removes the entries of the trivial objects that it deallocates, and the release of a region
invalidates all references of its table.  A collection that finds no other garbage with an external
reference leaves the tables valid.
-/

set_option linter.unusedSectionVars false

namespace VeronaRt.ExternalRef

open RegionTrace (Descriptors Rings)

variable {O E : Type*} [DecidableEq O] [DecidableEq E]

namespace World

variable {H : ObjectMap.Hashing O} {w w' : World O E} {dead dead' : O → O → Prop} {self : O}
  {m : Region O E} {i : ℕ}

/-! ## Removing an entry -/

/-- The entries that are left when one is removed. -/
theorem has_eraseAt {map : ObjectMap O (Option E)} {e : ObjectMap.Entry O (Option E)}
    (h : map.WellFormed H) (he : map.Stores i e) (x : O) (v : Option E) :
    (map.eraseAt i).Has x v ↔ map.Has x v ∧ x ≠ e.key := by
  constructor
  · rintro ⟨j, e', he', rfl, rfl⟩
    obtain ⟨hne, he'⟩ := ObjectMap.stores_eraseAt.mp he'
    exact ⟨⟨j, e', he', rfl, rfl⟩, fun heq => hne (h.distinct j i e' e he' he heq)⟩
  · rintro ⟨⟨j, e', he', rfl, rfl⟩, hne⟩
    refine ⟨j, e', ObjectMap.stores_eraseAt.mpr ⟨?_, he'⟩, rfl, rfl⟩
    rintro rfl
    exact hne (congrArg ObjectMap.Entry.key (Option.some.inj (he'.2.symm.trans he.2)))

/-- What the removal of entries leaves as it is. -/
structure SameObjects (w w' : World O E) : Prop where
  /-- The classes. -/
  cls_eq : w'.cls = w.cls
  /-- The links. -/
  next_eq : w'.next = w.next
  /-- The bits. -/
  hasExtRef_eq : w'.hasExtRef = w.hasExtRef
  /-- The kinds. -/
  isTrivial_eq : w'.isTrivial = w.isTrivial
  /-- The allocations. -/
  births_eq : w'.births = w.births
  /-- The objects that references were created for. -/
  created_eq : w'.created = w.created

/-- Nothing is changed. -/
theorem SameObjects.refl (w : World O E) : SameObjects w w := ⟨rfl, rfl, rfl, rfl, rfl, rfl⟩

/-- Two removals. -/
theorem SameObjects.trans {w₁ w₂ w₃ : World O E} (h : SameObjects w₁ w₂) (h' : SameObjects w₂ w₃) :
    SameObjects w₁ w₃ :=
  ⟨h'.cls_eq.trans h.cls_eq, h'.next_eq.trans h.next_eq, h'.hasExtRef_eq.trans h.hasExtRef_eq,
    h'.isTrivial_eq.trans h.isTrivial_eq, h'.births_eq.trans h.births_eq,
    h'.created_eq.trans h.created_eq⟩

/-- What the removal of an entry does. -/
theorem removeRef_eq {e : ObjectMap.Entry O (Option E)} (hm : w.regions self = some m)
    (he : m.externalMap.slots i = some e) (hw' : w.removeRef self i = some w') :
    SameObjects w w' ∧ w'.regions = Function.update w.regions self
      (some { m with externalMap := m.externalMap.eraseAt i }) ∧
    (∀ f, w'.ert f = if e.value = some f then none else w.ert f) ∧
    ∀ f, w'.target f = if e.value = some f then none else w.target f := by
  rw [removeRef, hm, Option.bind_some, he, Option.map_some] at hw'
  obtain rfl := Option.some.inj hw'
  cases hvalue : e.value with
  | none => exact ⟨⟨rfl, rfl, rfl, rfl, rfl, rfl⟩, rfl, fun _ => rfl, fun _ => rfl⟩
  | some e =>
    refine ⟨⟨rfl, rfl, rfl, rfl, rfl, rfl⟩, rfl, fun f => ?_, fun f => ?_⟩ <;>
    · refine (Function.update_apply ..).trans ?_
      simp only [Option.some.injEq, eq_comm (a := f)]
      rfl

/-- The entry of an object that is dead is removed. -/
theorem Consistent.removeRef (h : w.Consistent H dead) (hm : w.regions self = some m)
    {e : ObjectMap.Entry O (Option E)} (he : m.externalMap.Stores i e) (hout : e.key ∉ m.allocated)
    (hw' : w.removeRef self i = some w') :
    w'.Consistent H fun s x => dead s x ∧ ¬ (s = self ∧ x = e.key) := by
  obtain ⟨hsame, hregions, hert, htarget⟩ := removeRef_eq hm he.2 hw'
  obtain ⟨hdead, f, hf, hf_created, hf_ert, -⟩ :=
    h.entry self m e.key e.value hm ⟨i, e, he, rfl, rfl⟩
  have hcases {s : O} {n : Region O E} (hn : w'.regions s = some n) :
      ∃ n₀, w.regions s = some n₀ ∧ n.allocated = n₀.allocated ∧ (w.IsRegion s n₀ → w.IsRegion s n) ∧
        n.externalMap.WellFormed H ∧ ∀ x v, n.externalMap.Has x v ↔
          n₀.externalMap.Has x v ∧ ¬ (s = self ∧ x = e.key) := by
    rw [hregions, Function.update_apply] at hn
    split at hn
    · next heq =>
      obtain rfl := Option.some.inj hn
      rw [heq]
      refine ⟨m, hm, rfl, id, (h.wellFormed self m hm).eraseAt he, fun x v => ?_⟩
      rw [has_eraseAt (h.wellFormed self m hm) he]
      simp
    · next hne =>
      refine ⟨n, hn, rfl, id, h.wellFormed s n hn, fun x v => ?_⟩
      simp [hne]
  have hother {s : O} {x : O} {v : Option E} {n : Region O E} (hn : w.regions s = some n)
      (hx : n.externalMap.Has x v) (hne : ¬ (s = self ∧ x = e.key)) : v ≠ e.value := by
    intro hv
    obtain ⟨-, f', hf', hcreated, hert, -⟩ := h.entry s n x v hn hx
    obtain rfl : f = f' := Option.some.inj (hf.symm.trans (hv.symm.trans hf'))
    refine hne ⟨Option.some.inj (hert.symm.trans hf_ert), ?_⟩
    exact (Prod.mk.inj (Option.some.inj (hcreated.symm.trans hf_created))).1
  have hkey_dead {s : O} {n : Region O E} {x : O} (hn : w.regions s = some n) (hx : x ∈ n.allocated) :
      ¬ (s = self ∧ x = e.key) := by
    rintro ⟨rfl, rfl⟩
    obtain rfl := Option.some.inj (hn.symm.trans hm)
    exact hout hx
  refine ⟨fun s n hn => ?_, fun s n s' n' x hn hn' hx hx' => ?_, fun s n x hn hx => ?_,
    fun s n hn => ?_, fun s n x v hn hx => ?_, fun s n x hn hx => ?_, fun s f' hf' => ?_,
    fun f' x n hf' => ?_, fun s n f' x hn hx hf' => ?_, fun s n v hn hx => ?_⟩
  · obtain ⟨n₀, hn₀, hn_allocated, hn_region, -⟩ := hcases hn
    rw [hn_allocated]
    refine (h.isRegion s n₀ hn₀).imp (fun h₀ => (hn_region h₀).frame fun x _ => ?_)
      fun ⟨hs, hempty⟩ => ⟨⟨hs, fun ⟨hs, hkey⟩ => ?_⟩, hempty⟩
    · rw [hsame.cls_eq, hsame.next_eq, hsame.isTrivial_eq]
      exact ⟨rfl, rfl, rfl⟩
    · rw [hs] at hkey
      exact h.self_out self m e.value hm ⟨i, e, he, hkey.symm, rfl⟩
  · obtain ⟨n₀, hn₀, hn_allocated, -⟩ := hcases hn
    obtain ⟨n₁, hn₁, hn_allocated', -⟩ := hcases hn'
    rw [hn_allocated] at hx
    rw [hn_allocated'] at hx'
    exact h.disjoint s n₀ s' n₁ x hn₀ hn₁ (hx.imp_right And.left) (hx'.imp_right And.left)
  · obtain ⟨n₀, hn₀, hn_allocated, -⟩ := hcases hn
    rw [hn_allocated]
    exact h.dead_out s n₀ x hn₀ hx.1
  · obtain ⟨-, -, -, -, hwf, -⟩ := hcases hn
    exact hwf
  · obtain ⟨n₀, hn₀, hn_allocated, -, -, hhas⟩ := hcases hn
    obtain ⟨hx, hne⟩ := (hhas x v).mp hx
    obtain ⟨hmem, f', rfl, hcreated, hert', htarget'⟩ := h.entry s n₀ x v hn₀ hx
    have hvalue : e.value ≠ some f' := Ne.symm (hother hn₀ hx hne)
    rw [hn_allocated, hsame.created_eq, hsame.births_eq]
    refine ⟨hmem.imp_right fun hmem => ⟨hmem, hne⟩, f', rfl, hcreated, ?_, ?_⟩
    · rw [hert, if_neg hvalue, hert']
    · rw [htarget, if_neg hvalue, htarget']
  · obtain ⟨n₀, hn₀, hn_allocated, -, -, hhas⟩ := hcases hn
    rw [hn_allocated] at hx
    have hne : ¬ (s = self ∧ x = e.key) := hx.elim (hkey_dead hn₀) And.right
    rw [hsame.hasExtRef_eq, h.bit s n₀ x hn₀ (hx.imp_right And.left), ObjectMap.mem_iff_has,
      ObjectMap.mem_iff_has]
    simp only [hhas, hne, not_false_eq_true, and_true]
  · rw [hert] at hf'
    split at hf'
    · cases hf'
    next hvalue =>
    obtain ⟨n, x, hn, hx⟩ := h.ert s f' hf'
    by_cases hs : s = self
    · rw [hs] at hn ⊢
      obtain rfl := Option.some.inj (hn.symm.trans hm)
      refine ⟨_, x, by rw [hregions, Function.update_self], ?_⟩
      refine (has_eraseAt (h.wellFormed self n hm) he x _).mpr ⟨hx, fun heq => hvalue ?_⟩
      obtain ⟨j, e', he', hkey, hv⟩ := hx
      obtain rfl := (h.wellFormed self n hm).distinct j i e' e he' he (hkey.trans heq)
      rw [← hv, Option.some.inj (he'.2.symm.trans he.2)]
    · exact ⟨n, x, by rw [hregions, Function.update_of_ne hs, hn], hx⟩
  · rw [hsame.created_eq] at hf'
    rw [hsame.births_eq]
    exact h.created f' x n hf'
  · obtain ⟨n₀, hn₀, hn_allocated, -, -, hhas⟩ := hcases hn
    rw [hn_allocated] at hx
    rw [hsame.created_eq, hsame.births_eq] at hf'
    exact (hhas x _).mpr ⟨h.kept s n₀ f' x hn₀ hx hf', hkey_dead hn₀ hx⟩
  · obtain ⟨n₀, hn₀, -, -, -, hhas⟩ := hcases hn
    exact h.self_out s n₀ v hn₀ ((hhas s v).mp hx).1

/-- A dead object without the bit has no entry that is to be removed. -/
theorem Consistent.forget (h : w.Consistent H dead) (hsub : ∀ s x, dead' s x → dead s x)
    (hbit : ∀ s m x, w.regions s = some m → dead s x → ¬ dead' s x → w.hasExtRef x = false)
    (hself : ∀ s m, w.regions s = some m → dead s s → m.allocated = ∅ → dead' s s) :
    w.Consistent H dead' := by
  refine ⟨fun s n hn => ?_, fun s n s' n' x hn hn' hx hx' => ?_, fun s n x hn hx => ?_, h.wellFormed,
    fun s n x v hn hx => ?_, fun s n x hn hx => ?_, h.ert, h.created, h.kept, h.self_out⟩
  · exact (h.isRegion s n hn).imp_right fun ⟨hs, hempty⟩ => ⟨hself s n hn hs hempty, hempty⟩
  · exact h.disjoint s n s' n' x hn hn' (hx.imp_right (hsub s x)) (hx'.imp_right (hsub s' x))
  · exact h.dead_out s n x hn (hsub s x hx)
  · obtain ⟨hmem, hv⟩ := h.entry s n x v hn hx
    refine ⟨hmem.imp_right fun hdead => ?_, hv⟩
    by_contra hnot
    have htrue := (h.bit s n x hn (Or.inr hdead)).mpr (ObjectMap.mem_iff_has.mpr ⟨v, hx⟩)
    rw [hbit s n x hn hdead hnot] at htrue
    cases htrue
  · exact h.bit s n x hn (hx.imp_right (hsub s x))

/-- The dead objects are the same. -/
theorem Consistent.congr (h : w.Consistent H dead) (hiff : ∀ s x, dead' s x ↔ dead s x) :
    w.Consistent H dead' := by
  obtain rfl : dead' = dead := funext fun s => funext fun x => propext (hiff s x)
  exact h

/-! ## The events of a sweep -/

/-- What a step on the table of a region leaves of the regions. -/
structure SameRegions (reg : O) (m : Region O E) (w w' : World O E) : Prop where
  /-- The headers. -/
  objects : SameObjects w w'
  /-- The region is still there, with its objects. -/
  allocated : ∃ m', w'.regions reg = some m' ∧ m'.allocated = m.allocated
  /-- The other regions. -/
  others : ∀ s, s ≠ reg → w'.regions s = w.regions s

/-- Nothing is changed. -/
theorem SameRegions.refl (hm : w.regions self = some m) : SameRegions self m w w :=
  ⟨.refl w, ⟨m, hm, rfl⟩, fun _ _ => rfl⟩

/-- Two steps. -/
theorem SameRegions.trans {w₁ w₂ w₃ : World O E} {m' : Region O E} (h : SameRegions self m w₁ w₂)
    (hm' : m'.allocated = m.allocated) (h' : SameRegions self m' w₂ w₃) :
    SameRegions self m w₁ w₃ := by
  obtain ⟨m'', hm'', hallocated⟩ := h'.allocated
  exact ⟨h.objects.trans h'.objects, ⟨m'', hm'', hallocated.trans hm'⟩,
    fun s hs => (h'.others s hs).trans (h.others s hs)⟩

/-- The removal of an entry is a step on the table. -/
theorem sameRegions_removeRef {e : ObjectMap.Entry O (Option E)} (hm : w.regions self = some m)
    (he : m.externalMap.slots i = some e) (hw' : w.removeRef self i = some w') :
    SameRegions self m w w' := by
  obtain ⟨hsame, hregions, -⟩ := removeRef_eq hm he hw'
  refine ⟨hsame, ⟨{ m with externalMap := m.externalMap.eraseAt i }, ?_, rfl⟩, fun s hs => ?_⟩
  · rw [hregions, Function.update_self]
  · rw [hregions, Function.update_of_ne hs]

/-- An object is deallocated. -/
theorem Consistent.sweepRef_dealloc (h : w.Consistent H dead) (hm : w.regions self = some m) {p : O}
    (hout : p ∉ m.allocated) (hw' : w.sweepRef H self (.dealloc p) = some w') :
    SameRegions self m w w' ∧
    w'.Consistent H fun s x => dead s x ∧ ¬ (s = self ∧ x = p ∧ p ≠ self ∧ w.isTrivial p = true) := by
  rw [sweepRef] at hw'
  split at hw'
  · rw [eraseRef, hm, Option.bind_some] at hw'
    obtain ⟨i, hi, hremove⟩ := Option.bind_eq_some_iff.mp hw'
    obtain ⟨e, he, rfl⟩ := ObjectMap.find_some hi
    have hne : e.key ≠ self := fun heq => h.self_out self m e.value hm ⟨i, e, he, heq, rfl⟩
    refine ⟨sameRegions_removeRef hm he.2 hremove, (h.removeRef hm he hout hremove).forget ?_ ?_ ?_⟩
    · rintro s x ⟨hx, hcon⟩
      exact ⟨hx, fun ⟨hs, hkey⟩ => hcon ⟨hs, hkey, hne, ‹_ ∧ _›.1⟩⟩
    · rintro s n x - ⟨hx, hcon⟩ hnot
      exact absurd ⟨hx, fun ⟨hs, hkey, _⟩ => hcon ⟨hs, hkey⟩⟩ hnot
    · rintro s n - ⟨hx, hcon⟩ -
      exact ⟨hx, fun ⟨hs, hkey, _⟩ => hcon ⟨hs, hkey⟩⟩
  · next hskip =>
    obtain rfl := Option.some.inj hw'
    refine ⟨.refl hm, h.forget (fun s x hx => hx.1) (fun s n x hn hx hnot => ?_)
      fun s n hn hs hempty => ⟨hs, ?_⟩⟩
    · obtain ⟨rfl, rfl, -, htrivial⟩ : s = self ∧ x = p ∧ p ≠ self ∧ w.isTrivial p = true := by
        by_contra hcon
        exact hnot ⟨hx, hcon⟩
      exact Bool.eq_false_iff.mpr fun hbit => hskip ⟨htrivial, hbit⟩
    · rintro ⟨rfl, rfl, hne, -⟩
      exact hne rfl

/-- The events of a sweep: the dead objects that are not trivial keep their entries. -/
theorem Consistent.sweepRefs {events : List (ObjectEvent O)} (h : w.Consistent H dead)
    (hm : w.regions self = some m) (hout : ∀ p, .dealloc p ∈ events → p ∉ m.allocated)
    (hw' : events.foldlM (World.sweepRef H self) w = some w') :
    SameRegions self m w w' ∧ w'.Consistent H fun s x => dead s x ∧
      ¬ (s = self ∧ .dealloc x ∈ events ∧ x ≠ self ∧ w.isTrivial x = true) := by
  induction events generalizing w m dead with
  | nil =>
    obtain rfl := Option.some.inj hw'
    refine ⟨.refl hm, ?_⟩
    simpa only [List.not_mem_nil, false_and, and_false, not_false_eq_true, and_true] using h
  | cons event events ih =>
    rw [List.foldlM_cons] at hw'
    obtain ⟨w₁, hw₁, hw'⟩ := Option.bind_eq_some_iff.mp hw'
    obtain ⟨hsame₁, h₁⟩ : SameRegions self m w w₁ ∧ w₁.Consistent H fun s x => dead s x ∧
        ¬ (s = self ∧ .dealloc x = event ∧ x ≠ self ∧ w.isTrivial x = true) := by
      cases event with
      | dealloc p =>
        obtain ⟨hsame, h'⟩ := h.sweepRef_dealloc hm (hout p List.mem_cons_self) hw₁
        refine ⟨hsame, h'.congr fun s x => and_congr_right fun _ => not_congr (and_congr_right fun _ => ?_)⟩
        constructor
        · rintro ⟨hp, hne, htrivial⟩
          obtain rfl := ObjectEvent.dealloc.inj hp
          exact ⟨rfl, hne, htrivial⟩
        · rintro ⟨rfl, hne, htrivial⟩
          exact ⟨rfl, hne, htrivial⟩
      | finalise p =>
        obtain rfl := Option.some.inj hw₁
        exact ⟨.refl hm, by simpa using h⟩
      | destructor p =>
        obtain rfl := Option.some.inj hw₁
        exact ⟨.refl hm, by simpa using h⟩
      | decref p =>
        obtain rfl := Option.some.inj hw₁
        exact ⟨.refl hm, by simpa using h⟩
      | release p =>
        obtain rfl := Option.some.inj hw₁
        exact ⟨.refl hm, by simpa using h⟩
      | releaseInternal p =>
        obtain rfl := Option.some.inj hw₁
        exact ⟨.refl hm, by simpa using h⟩
    obtain ⟨m₁, hm₁, hallocated₁⟩ := hsame₁.allocated
    have hout₁ : ∀ p, .dealloc p ∈ events → p ∉ m₁.allocated := fun p hp => by
      rw [hallocated₁]
      exact hout p (List.mem_cons_of_mem _ hp)
    obtain ⟨hsame, h'⟩ := ih h₁ hm₁ hout₁ hw'
    refine ⟨hsame₁.trans hallocated₁ hsame, h'.congr fun s x => ?_⟩
    rw [hsame₁.objects.isTrivial_eq, List.mem_cons]
    tauto

/-! ## The table of a released region -/

/-- The entries in a list of slots are removed. -/
theorem Consistent.removeRefs {l : List ℕ} (h : w.Consistent H dead) (hm : w.regions self = some m)
    (hempty : m.allocated = ∅) (hnodup : l.Nodup)
    (hl : ∀ i, i ∈ l ↔ ∃ e, m.externalMap.Stores i e)
    (hw' : l.foldlM (fun w i => w.removeRef self i) w = some w') :
    ∃ dead' m', w'.Consistent H dead' ∧ (∀ s x, dead' s x → dead s x) ∧
      w'.regions self = some m' ∧ m'.allocated = ∅ ∧ (∀ x v, ¬ m'.externalMap.Has x v) ∧
      SameRegions self m w w' := by
  induction l generalizing w m dead with
  | nil =>
    obtain rfl := Option.some.inj hw'
    refine ⟨dead, m, h, fun _ _ => id, hm, hempty, ?_, .refl hm⟩
    rintro x v ⟨i, e, he, -⟩
    exact absurd ((hl i).mpr ⟨e, he⟩) List.not_mem_nil
  | cons i l ih =>
    rw [List.foldlM_cons] at hw'
    obtain ⟨w₁, hw₁, hfold⟩ := Option.bind_eq_some_iff.mp hw'
    obtain ⟨e, he⟩ := (hl i).mp List.mem_cons_self
    obtain ⟨hi, hnodup⟩ := List.nodup_cons.mp hnodup
    have hout : e.key ∉ m.allocated := by
      rw [hempty]
      exact Finset.notMem_empty _
    obtain ⟨-, hregions, -⟩ := removeRef_eq hm he.2 hw₁
    let m₁ : Region O E := { m with externalMap := m.externalMap.eraseAt i }
    have hm₁ : w₁.regions self = some m₁ := by
      rw [hregions, Function.update_self]
    have hl₁ : ∀ j, j ∈ l ↔ ∃ e, m₁.externalMap.Stores j e := by
      intro j
      simp only [m₁, ObjectMap.stores_eraseAt, exists_and_left, ← hl, List.mem_cons]
      constructor
      · intro hj
        exact ⟨fun heq => hi (heq ▸ hj), Or.inr hj⟩
      · rintro ⟨hne, hj⟩
        exact hj.resolve_left hne
    obtain ⟨dead', m', h', hsub, hm', hempty', hnone, hsame⟩ :=
      ih (h.removeRef hm he hout hw₁) hm₁ hempty hnodup hl₁ hfold
    exact ⟨dead', m', h', fun s x hx => (hsub s x hx).1, hm', hempty', hnone,
      (sameRegions_removeRef hm he.2 hw₁).trans (show m₁.allocated = m.allocated from rfl) hsame⟩

/-- A region without objects and entries is removed. -/
theorem Consistent.drop (h : w.Consistent H dead) (hm : w.regions self = some m)
    (hempty : m.allocated = ∅) (hnone : ∀ x v, ¬ m.externalMap.Has x v)
    (hdead : ∀ s x, dead s x → s = self) :
    ({ w with regions := Function.update w.regions self none } : World O E).Consistent H
      fun _ _ => False := by
  have hcases {s : O} {n : Region O E} (hn : Function.update w.regions self none s = some n) :
      s ≠ self ∧ w.regions s = some n := by
    rw [Function.update_apply] at hn
    split at hn
    · cases hn
    · next hne => exact ⟨hne, hn⟩
  have hout {s x : O} (hs : s ≠ self) : ¬ dead s x := fun hx => hs (hdead s x hx)
  refine ⟨fun s n hn => Or.inl ?_, fun s n s' n' x hn hn' hx hx' => ?_, fun _ _ _ _ hx => hx.elim,
    fun s n hn => ?_, fun s n x v hn hx => ?_, fun s n x hn hx => ?_, fun s e he => ?_, h.created,
    fun s n e x hn hx he => ?_, fun s n v hn => ?_⟩
  · obtain ⟨hs, hn⟩ := hcases hn
    exact ((h.isRegion s n hn).resolve_right fun hx => hout hs hx.1).frame fun _ _ => ⟨rfl, rfl, rfl⟩
  · obtain ⟨-, hn⟩ := hcases hn
    obtain ⟨-, hn'⟩ := hcases hn'
    exact h.disjoint s n s' n' x hn hn' (Or.inl (hx.resolve_right id)) (Or.inl (hx'.resolve_right id))
  · exact h.wellFormed s n (hcases hn).2
  · obtain ⟨hs, hn⟩ := hcases hn
    obtain ⟨hmem, hv⟩ := h.entry s n x v hn hx
    exact ⟨Or.inl (hmem.resolve_right (hout hs)), hv⟩
  · exact h.bit s n x (hcases hn).2 (Or.inl (hx.resolve_right id))
  · obtain ⟨n, x, hn, hx⟩ := h.ert s e he
    have hs : s ≠ self := by
      rintro rfl
      obtain rfl := Option.some.inj (hn.symm.trans hm)
      exact hnone x _ hx
    exact ⟨n, x, (Function.update_of_ne hs _ _).trans hn, hx⟩
  · exact h.kept s n e x (hcases hn).2 hx he
  · exact h.self_out s n v (hcases hn).2

/-! ## Sweeping a region -/

/-- What a sweep writes back: the objects that are no longer allocated are dead. -/
theorem Consistent.shrink (h : w.Consistent H fun _ _ => False) (hm : w.regions self = some m)
    {r : RegionTrace O} (hself : r.self = self) (hsub : r.allocated ⊆ m.allocated)
    (hregion : (∃ iso prim sec, Rings w.bare iso prim sec r ∧
      ∀ x, x ∈ r.allocated ↔ x ∈ r.self :: iso :: (prim ++ sec)) ∨ r.allocated = ∅)
    (hframe : ∀ x ∉ m.allocated, r.cls x = w.cls x ∧ r.next x = w.next x) :
    (w.write r m.externalMap).Consistent H
      fun s x => s = self ∧ x ∈ m.allocated ∧ x ∉ r.allocated := by
  subst hself
  have hcases {s : O} {n : Region O E} (hn : (w.write r m.externalMap).regions s = some n) :
      s = r.self ∧ n.allocated = r.allocated ∧ n.externalMap = m.externalMap ∨
        s ≠ r.self ∧ w.regions s = some n := by
    change Function.update w.regions r.self (some _) s = some n at hn
    rw [Function.update_apply] at hn
    split at hn
    · next heq =>
      obtain rfl := Option.some.inj hn
      exact Or.inl ⟨heq, rfl, rfl⟩
    · next hne => exact Or.inr ⟨hne, hn⟩
  have hold {s x : O} {n : Region O E} (hn : (w.write r m.externalMap).regions s = some n)
      (hx : x ∈ n.allocated ∨ s = r.self ∧ x ∈ m.allocated ∧ x ∉ r.allocated) :
      ∃ n₀, w.regions s = some n₀ ∧ x ∈ n₀.allocated ∧ n₀.externalMap = n.externalMap := by
    rcases hcases hn with ⟨rfl, hn_allocated, hn_map⟩ | ⟨hs, hn⟩
    · rw [hn_allocated] at hx
      exact ⟨m, hm, hx.elim (fun hx => hsub hx) fun hx => hx.2.1, hn_map.symm⟩
    · exact ⟨n, hn, hx.resolve_right fun hx => hs hx.1, rfl⟩
  have hmap {s : O} {n : Region O E} (hn : (w.write r m.externalMap).regions s = some n) :
      ∃ n₀, w.regions s = some n₀ ∧ n₀.externalMap = n.externalMap ∧
        ∀ x ∈ n₀.allocated, x ∈ n.allocated ∨ s = r.self ∧ x ∈ m.allocated ∧ x ∉ r.allocated := by
    rcases hcases hn with ⟨rfl, hn_allocated, hn_map⟩ | ⟨hs, hn⟩
    · refine ⟨m, hm, hn_map.symm, fun x hx => ?_⟩
      rw [hn_allocated]
      by_cases hx' : x ∈ r.allocated
      · exact Or.inl hx'
      · exact Or.inr ⟨rfl, hx, hx'⟩
    · exact ⟨n, hn, rfl, fun x hx => Or.inl hx⟩
  refine ⟨fun s n hn => ?_, fun s n s' n' x hn hn' hx hx' => ?_, fun s n x hn hx => ?_,
    fun s n hn => ?_, fun s n x v hn hx => ?_, fun s n x hn hx => ?_, fun s e he => ?_, h.created,
    fun s n e x hn hx he => ?_, fun s n v hn hx => ?_⟩
  · by_cases hs : s = r.self
    · subst hs
      rcases hregion with ⟨iso, prim, sec, hrings, hmem⟩ | hempty
      · exact Or.inl (isRegion_write hrings hmem hn)
      · rcases hcases hn with ⟨-, hn_allocated, -⟩ | ⟨hne, -⟩
        · refine Or.inr ⟨⟨rfl, (h.isRegion' hm).self_mem, ?_⟩, hn_allocated.trans hempty⟩
          rw [hempty]
          exact Finset.notMem_empty _
        · exact absurd rfl hne
    · rcases hcases hn with ⟨heq, -⟩ | ⟨-, hn⟩
      · exact absurd heq hs
      · refine Or.inl ((h.isRegion' hn).frame fun x hx => ?_)
        have hx' : x ∉ m.allocated := fun hx' =>
          hs (h.disjoint s n r.self m x hn hm (Or.inl hx) (Or.inl hx'))
        exact ⟨(hframe x hx').1, (hframe x hx').2, rfl⟩
  · obtain ⟨n₀, hn₀, hx, -⟩ := hold hn hx
    obtain ⟨n₁, hn₁, hx', -⟩ := hold hn' hx'
    exact h.disjoint s n₀ s' n₁ x hn₀ hn₁ (Or.inl hx) (Or.inl hx')
  · obtain ⟨rfl, -, hx⟩ := hx
    rcases hcases hn with ⟨-, hn_allocated, -⟩ | ⟨hne, -⟩
    · rwa [hn_allocated]
    · exact absurd rfl hne
  · obtain ⟨n₀, hn₀, hn_map, -⟩ := hmap hn
    rw [← hn_map]
    exact h.wellFormed s n₀ hn₀
  · obtain ⟨n₀, hn₀, hn_map, hn_mem⟩ := hmap hn
    rw [← hn_map] at hx
    obtain ⟨hmem, hv⟩ := h.entry s n₀ x v hn₀ hx
    exact ⟨hn_mem x (hmem.resolve_right id), hv⟩
  · obtain ⟨n₀, hn₀, hx, hn_map⟩ := hold hn hx
    rw [← hn_map]
    exact h.bit s n₀ x hn₀ (Or.inl hx)
  · obtain ⟨n, x, hn, hx⟩ := h.ert s e he
    by_cases hs : s = r.self
    · subst hs
      obtain rfl := Option.some.inj (hn.symm.trans hm)
      exact ⟨_, x, Function.update_self .., hx⟩
    · exact ⟨n, x, (Function.update_of_ne hs _ _).trans hn, hx⟩
  · obtain ⟨n₀, hn₀, hx, hn_map⟩ := hold hn (Or.inl hx)
    rw [← hn_map]
    exact h.kept s n₀ e x hn₀ hx he
  · obtain ⟨n₀, hn₀, hn_map, -⟩ := hmap hn
    rw [← hn_map] at hx
    exact h.self_out s n₀ v hn₀ hx

/-- The objects of a region, and its entry point. -/
theorem IsRegion.entry_eq {entry iso : O} {prim sec : List O}
    (hrings : Rings w.bare iso prim sec (w.view self m))
    (hmem : ∀ x, x ∈ m.allocated ↔ x ∈ self :: iso :: (prim ++ sec)) (hcls : w.cls entry = .iso)
    (hentry : entry ∈ m.allocated) : entry = iso := by
  have hself : w.cls self = .unmarked := hrings.cls_self
  rcases List.mem_cons.mp ((hmem entry).mp hentry) with rfl | hx
  · rw [hcls] at hself
    cases hself
  · refine (List.mem_cons.mp hx).resolve_right fun hx => ?_
    have hunmarked : w.cls entry = .unmarked := hrings.cls_eq entry hx
    rw [hcls] at hunmarked
    cases hunmarked

/-- The number of objects of a region. -/
theorem IsRegion.card_eq {iso : O} {prim sec : List O}
    (hrings : Rings w.bare iso prim sec (w.view self m))
    (hmem : ∀ x, x ∈ m.allocated ↔ x ∈ self :: iso :: (prim ++ sec)) :
    m.allocated = (self :: iso :: (prim ++ sec)).toFinset ∧
      m.allocated.card = prim.length + sec.length + 2 := by
  have hset : m.allocated = (self :: iso :: (prim ++ sec)).toFinset := by
    ext x
    rw [hmem, List.mem_toFinset]
  have hnodup : (self :: iso :: (prim ++ sec)).Nodup := hrings.nodup
  refine ⟨hset, ?_⟩
  rw [hset, List.toFinset_card_of_nodup hnodup]
  simp only [List.length_cons, List.length_append]

/-- The region of an entry point is released. -/
theorem Consistent.releaseRegion (h : w.Consistent H fun _ _ => False) {D : Descriptors O}
    {sizeclass : ℕ → ℕ} {entry : O} {collect collect' : List O}
    (hw' : w.releaseRegion H D sizeclass entry collect = some (w', collect')) :
    w'.Consistent H fun _ _ => False := by
  obtain ⟨⟨self, m⟩, hget, hw'⟩ := Option.bind_eq_some_iff.mp hw'
  obtain ⟨⟨r, collect₁⟩, hr, hw'⟩ := Option.bind_eq_some_iff.mp hw'
  obtain ⟨w₁, hw₁, hw'⟩ := Option.bind_eq_some_iff.mp hw'
  obtain ⟨w₂, hw₂, heq⟩ := Option.map_eq_some_iff.mp hw'
  obtain ⟨rfl, rfl⟩ := Prod.mk.inj heq
  obtain ⟨hcls, -, hm, hentry⟩ := get_eq_some hget
  obtain ⟨iso, prim, sec, hrings, hmem⟩ := h.isRegion' hm
  obtain rfl := IsRegion.entry_eq hrings hmem hcls hentry
  obtain ⟨hset, hcard⟩ := IsRegion.card_eq hrings hmem
  have hrings' : Rings (w.finalisers D) entry prim sec (w.view self m) :=
    hrings.frame rfl (fun x hx => ⟨hrings.allocated x hx, rfl, rfl⟩) rfl rfl rfl (fun _ _ => rfl) nofun
  have hroots : (w.view self m).additionalEntryPoints = [] := by
    rw [RegionTrace.releaseInternal] at hr
    split at hr
    · next hcond => exact hcond.2
    · cases hr
  have hfuel : prim.length + sec.length + 2 ≤ passes D entry m := by
    rw [passes, hcard]
    omega
  obtain ⟨r', collect₂, hr', hreleased⟩ :=
    RegionTrace.releaseInternal_spec hrings' sizeclass hroots hfuel collect
  obtain ⟨rfl, rfl⟩ := Prod.mk.inj (Option.some.inj (hr.symm.trans hr'))
  have hallocated : r.allocated = ∅ := by
    rw [hreleased.allocated_eq]
    change m.allocated \ (self :: entry :: (prim ++ sec)).toFinset = ∅
    rw [hset, Finset.sdiff_self]
  have hself : r.self = self := hreleased.self_eq
  have hshrink := h.shrink hm hself (hallocated ▸ Finset.empty_subset _) (Or.inr hallocated)
    fun x hx => by
      have hx : x ∉ self :: entry :: (prim ++ sec) := fun hx' => hx ((hmem x).mpr hx')
      exact ⟨hreleased.cls_eq x hx, hreleased.next_eq x hx⟩
  have hm₁ : (w.write r m.externalMap).regions self = some (metadata r m.externalMap) := by
    rw [← hself]
    exact Function.update_self ..
  have hempty₁ : (metadata r m.externalMap).allocated = ∅ := hallocated
  obtain ⟨hsame₁, h₁⟩ := hshrink.sweepRefs hm₁ (fun p _ => by
    rw [hempty₁]
    exact Finset.notMem_empty p) hw₁
  obtain ⟨m₂, hm₂, hempty₂⟩ := hsame₁.allocated
  rw [hempty₁] at hempty₂
  rw [deallocTable, hm₂, Option.bind_some] at hw₂
  obtain ⟨hnodup, hvisits⟩ := m₂.externalMap.visits_spec
  obtain ⟨dead', m₃, h₂, hsub, hm₃, hempty₃, hnone, -⟩ := h₁.removeRefs hm₂ hempty₂ hnodup
    (fun i => (hvisits i).trans ObjectMap.mem_occupied) hw₂
  exact h₂.drop hm₃ hempty₃ hnone fun s x hx => (hsub s x hx).1.1

/-- The regions of garbage are released. -/
theorem Consistent.releaseAll {D : Descriptors O} {sizeclass : ℕ → ℕ} {reg : O} {fuel : ℕ}
    {collect : List O} (h : w.Consistent H fun _ _ => False)
    (hw' : w.releaseAll H D sizeclass reg fuel collect = some w') :
    w'.Consistent H fun _ _ => False := by
  induction fuel generalizing w collect with
  | zero =>
    cases collect with
    | nil => exact Option.some.inj hw' ▸ h
    | cons entry collect => cases hw'
  | succ fuel ih =>
    cases collect with
    | nil => exact Option.some.inj hw' ▸ h
    | cons entry collect =>
      rw [World.releaseAll] at hw'
      split at hw'
      · cases hw'
      · obtain ⟨⟨w₁, collect₁⟩, hw₁, hrest⟩ := Option.bind_eq_some_iff.mp hw'
        exact ih (h.releaseRegion hw₁) hrest

/-- The garbage of a region is collected. -/
theorem Consistent.gc (h : w.Consistent H fun _ _ => False) {D : Descriptors O} {sizeclass : ℕ → ℕ}
    {entry : O} {fuel : ℕ} (hlegal : (Op.gc entry D).Legal w) (hspares : (Op.gc entry D).SparesRefs w)
    (hw' : w.gc H D sizeclass fuel entry = some w') : w'.Consistent H fun _ _ => False := by
  obtain ⟨⟨self, m⟩, hget, hw'⟩ := Option.bind_eq_some_iff.mp hw'
  obtain ⟨⟨r, collect⟩, hr, hw'⟩ := Option.bind_eq_some_iff.mp hw'
  obtain ⟨w₁, hw₁, hall⟩ := Option.bind_eq_some_iff.mp hw'
  refine Consistent.releaseAll ?_ hall
  obtain ⟨hcls, hnext, hm, hentry⟩ := get_eq_some hget
  obtain ⟨iso, prim, sec, hrings, hmem⟩ := h.isRegion' hm
  obtain rfl := IsRegion.entry_eq hrings hmem hcls hentry
  obtain ⟨hset, hcard⟩ := IsRegion.card_eq hrings hmem
  have hnodup : (self :: entry :: (prim ++ sec)).Nodup := hrings.nodup
  have hcontains (x : O) : w.Contains self x ↔ x ∈ entry :: (prim ++ sec) := by
    have hin : w.InRegion self x ↔ x ∈ m.allocated :=
      ⟨fun ⟨m', hm', hx⟩ => Option.some.inj (hm'.symm.trans hm) ▸ hx, fun hx => ⟨m, hm, hx⟩⟩
    rw [Contains, hin, hmem, List.mem_cons]
    refine ⟨fun ⟨hx, hne⟩ => hx.resolve_left hne, fun hx => ⟨Or.inr hx, fun heq => ?_⟩⟩
    exact (List.nodup_cons.mp hnodup).1 (heq ▸ hx)
  have hrings' : Rings (w.descriptors D) entry prim sec (w.view self m) := by
    refine hrings.frame rfl (fun x hx => ⟨hrings.allocated x hx, rfl, rfl⟩) rfl rfl rfl
      (fun _ _ => rfl) fun x hx f hf => ?_
    rw [← hcontains]
    exact hlegal self hnext x ((hcontains x).mpr hx) f hf
  have hmark : Foundation.width (w.descriptors D).fields (entry :: (prim ++ sec)).toFinset +
      ((w.descriptors D).fields entry).length + (w.view self m).additionalEntryPoints.length ≤
        passes D entry m := by
    have hle : Foundation.width D.fields (entry :: (prim ++ sec)).toFinset ≤
        Foundation.width D.fields m.allocated := by
      refine Foundation.width_mono fun x hx => ?_
      exact (hmem x).mpr (List.mem_cons_of_mem _ (List.mem_toFinset.mp hx))
    exact (Nat.add_le_add_right (Nat.add_le_add_right hle _) _).trans (Nat.le_add_right _ _)
  have hfuel : prim.length + sec.length + 2 ≤ passes D entry m := by
    rw [passes, hcard]
    omega
  obtain ⟨r', collect', hr', hcollected⟩ := RegionTrace.gc_collected hrings' sizeclass hmark hfuel
  obtain ⟨r'', collect'', hr'', hframed⟩ := RegionTrace.gc_framed hrings' sizeclass hmark hfuel
  obtain ⟨rfl, rfl⟩ := Prod.mk.inj (Option.some.inj (hr.symm.trans hr'))
  obtain ⟨rfl, rfl⟩ := Prod.mk.inj (Option.some.inj (hr.symm.trans hr''))
  obtain ⟨⟨prim', sec', hrings₁, hprim', hsec'⟩, ⟨before, after, hevents, -, -, hdealloc, -, -⟩,
    hallocated⟩ := hcollected
  have hself : r.self = self := hframed.self_eq
  have hlive (x : O) : RegionTrace.Live (w.descriptors D) (w.view self m) entry
      (entry :: (prim ++ sec)) x ↔ m.Live D entry self x := by
    have hfields : (fun x => ((w.descriptors D).fields x).filter fun y => y ∈ entry :: (prim ++ sec)) =
        fun x => (D.fields x).filter fun y => y ∈ m.allocated.erase self := by
      funext x
      refine List.filter_congr fun y _ => decide_eq_decide.mpr ?_
      rw [Finset.mem_erase, ← hcontains, Contains, and_comm]
      exact and_congr_right fun _ => ⟨fun ⟨m', hm', hy⟩ => Option.some.inj (hm'.symm.trans hm) ▸ hy,
        fun hy => ⟨m, hm, hy⟩⟩
    rw [RegionTrace.Live, Region.Live, hfields]
    rfl
  have hdead {x : O} (hx : x ∈ m.allocated) (hx' : x ∉ r.allocated) :
      x ∈ prim ++ sec ∧ ¬ m.Live D entry self x := by
    rw [← hlive]
    by_contra hcon
    exact hx' ((hallocated x).mpr ⟨hx, hcon⟩)
  have hrings₂ : Rings w.bare entry prim' sec' r :=
    hrings₁.frame rfl (fun x hx => ⟨hrings₁.allocated x hx, rfl, rfl⟩) rfl rfl rfl (fun _ _ => rfl) nofun
  have hmem₁ (x : O) : x ∈ r.allocated ↔ x ∈ r.self :: entry :: (prim' ++ sec') := by
    have hlive_entry : RegionTrace.Live (w.descriptors D) (w.view self m) entry
        (entry :: (prim ++ sec)) entry := ⟨entry, Or.inl rfl, Relation.ReflTransGen.refl⟩
    have hkept : x ∈ prim' ++ sec' ↔ x ∈ prim ++ sec ∧ RegionTrace.Live (w.descriptors D)
        (w.view self m) entry (entry :: (prim ++ sec)) x := by
      rw [List.mem_append, hprim', hsec', ← or_and_right, List.mem_append]
    rw [hallocated, hself, List.mem_cons, List.mem_cons, hkept]
    change x ∈ m.allocated ∧ _ ↔ _
    rw [hmem, List.mem_cons, List.mem_cons]
    have hself_out : self ∉ prim ++ sec := fun hx =>
      (List.nodup_cons.mp hnodup).1 (List.mem_cons_of_mem _ hx)
    have hentry_out : entry ∉ prim ++ sec := (List.nodup_cons.mp (List.nodup_cons.mp hnodup).2).1
    constructor
    · rintro ⟨rfl | rfl | hx, hnot⟩
      · exact Or.inl rfl
      · exact Or.inr (Or.inl rfl)
      · exact Or.inr (Or.inr ⟨hx, by_contra fun hnl => hnot ⟨hx, hnl⟩⟩)
    · rintro (rfl | rfl | ⟨hx, hl⟩)
      · exact ⟨Or.inl rfl, fun hx => hself_out hx.1⟩
      · exact ⟨Or.inr (Or.inl rfl), fun hx => hentry_out hx.1⟩
      · exact ⟨Or.inr (Or.inr hx), fun hnot => hnot.2 hl⟩
  have hsub : r.allocated ⊆ m.allocated := fun x hx => ((hallocated x).mp hx).1
  have hshrink := h.shrink hm hself hsub (Or.inl ⟨entry, prim', sec', hrings₂, hmem₁⟩) fun x hx => by
    have hx : x ∉ self :: entry :: (prim ++ sec) := fun hx' => hx ((hmem x).mpr hx')
    have hobjects : x ∉ prim ++ sec := fun hx' =>
      hx (List.mem_cons_of_mem _ (List.mem_cons_of_mem _ hx'))
    refine ⟨hframed.cls_eq x hobjects, hframed.next_eq x fun hx' => hx ?_⟩
    exact (List.mem_cons.mp hx').elim (fun heq => heq ▸ List.mem_cons_self) fun hx' =>
      absurd hx' hobjects
  have hm₁ : (w.write r m.externalMap).regions self = some (metadata r m.externalMap) := by
    rw [← hself]
    exact Function.update_self ..
  have hmem_events (p : O) : .dealloc p ∈ r.events ↔ p ∈ prim ++ sec ∧ ¬ m.Live D entry self p := by
    have hevents : r.events = before ++ after := hevents
    rw [← hlive, hevents, ← List.one_le_count_iff]
    obtain ⟨hone, hzero⟩ := hdealloc p
    by_cases hp : p ∈ prim ++ sec ∧ ¬ RegionTrace.Live (w.descriptors D) (w.view self m) entry
        (entry :: (prim ++ sec)) p
    · exact iff_of_true (hone hp).ge hp
    · exact iff_of_false (by rw [hzero hp]; decide) hp
  obtain ⟨hsame₁, h₁⟩ := hshrink.sweepRefs hm₁ (fun p hp => by
    change p ∉ r.allocated
    rw [hallocated, hlive]
    exact fun hx => hx.2 ((hmem_events p).mp hp)) hw₁
  have hself_mem : self ∈ r.allocated := hself ▸ hrings₂.allocated _ List.mem_cons_self
  refine h₁.forget (fun _ _ => False.elim) (fun s n x _ hx _ => ?_) fun s n _ hx _ => ?_
  · obtain ⟨⟨rfl, hx, hx'⟩, hkept⟩ := hx
    obtain ⟨hobjects, hnot⟩ := hdead hx hx'
    rw [hsame₁.objects.hasExtRef_eq]
    change w.hasExtRef x = false
    have hne : x ≠ s := fun heq => hx' (heq ▸ hself_mem)
    have htrivial : w.isTrivial x = false := Bool.eq_false_iff.mpr fun htrivial =>
      hkept ⟨rfl, (hmem_events x).mpr ⟨hobjects, hnot⟩, hne, htrivial⟩
    refine Bool.eq_false_iff.mpr fun hbit => hnot ?_
    exact hspares s m hnext hm x ((hcontains x).mpr (List.mem_cons_of_mem _ hobjects)) htrivial hbit
  · obtain ⟨⟨rfl, -, hx'⟩, -⟩ := hx
    exact hx' hself_mem

/-! ## Merging -/

/-- What moving the entries in a list of slots does. -/
structure Moved (reg other : O) (m m' : Region O E) (l : List ℕ) (w w' : World O E) : Prop where
  /-- The headers. -/
  objects : SameObjects w w'
  /-- The table that the entries move to. -/
  into : ∃ map, w'.regions reg = some { m with externalMap := map } ∧
    (∀ x v, map.Has x v ↔ m.externalMap.Has x v ∨
      ∃ i ∈ l, ∃ e, m'.externalMap.slots i = some e ∧ e.key = x ∧ e.value = v)
  /-- The table that they move from has null pointers. -/
  from_other : ∃ map, w'.regions other = some { m' with externalMap := map } ∧
    map.capacityShift = m'.externalMap.capacityShift ∧ ∀ i, map.slots i = if i ∈ l then
      (m'.externalMap.slots i).map fun e => { e with value := none } else m'.externalMap.slots i
  /-- The other regions. -/
  others : ∀ s, s ≠ reg → s ≠ other → w'.regions s = w.regions s
  /-- The references have the other table. -/
  ert_eq : ∀ f, ((∃ i ∈ l, ∃ e, m'.externalMap.slots i = some e ∧ e.value = some f) →
      w'.ert f = some reg) ∧
    ((¬ ∃ i ∈ l, ∃ e, m'.externalMap.slots i = some e ∧ e.value = some f) → w'.ert f = w.ert f)
  /-- The objects in the references. -/
  target_eq : w'.target = w.target

/-- The entries in a list of slots are moved. -/
theorem moveRefs_spec {other : O} {m' : Region O E} {l : List ℕ} {depth : ℕ} (hne : self ≠ other)
    (hm : w.regions self = some m) (hm' : w.regions other = some m')
    (hwf : m.externalMap.WellFormed H) (hwf' : ∀ i ∈ l, ∃ e, m'.externalMap.slots i = some e)
    (hdistinct : ∀ i ∈ l, ∀ j ∈ l, ∀ e e', m'.externalMap.slots i = some e →
      m'.externalMap.slots j = some e' → e.key = e'.key → i = j)
    (habsent : ∀ i ∈ l, ∀ e, m'.externalMap.slots i = some e → ¬ m.externalMap.Mem e.key)
    (hnodup : l.Nodup) (hw' : l.foldlM (moveRef H depth self other) w = some w') :
    Moved self other m m' l w w' ∧
      ∀ map, w'.regions self = some { m with externalMap := map } → map.WellFormed H := by
  induction l generalizing w m m' with
  | nil =>
    obtain rfl := Option.some.inj hw'
    refine ⟨⟨.refl w, ⟨m.externalMap, hm, fun x v => ?_⟩, ⟨m'.externalMap, hm', rfl, fun i => ?_⟩,
      fun _ _ _ => rfl, fun f => ⟨?_, fun _ => rfl⟩, rfl⟩, fun map hmap => ?_⟩
    · simp
    · rw [if_neg List.not_mem_nil]
    · rintro ⟨i, hi, -⟩
      exact absurd hi List.not_mem_nil
    · have heq := Option.some.inj (hm.symm.trans hmap)
      rw [heq] at hwf
      exact hwf
  | cons i l ih =>
    rw [List.foldlM_cons] at hw'
    obtain ⟨w₁, hw₁, hfold⟩ := Option.bind_eq_some_iff.mp hw'
    obtain ⟨hi, hnodup⟩ := List.nodup_cons.mp hnodup
    rw [moveRef, hm, Option.bind_some, hm', Option.bind_some] at hw₁
    obtain ⟨entry, hentry, hw₁⟩ := Option.bind_eq_some_iff.mp hw₁
    obtain ⟨e, he, hw₁⟩ := Option.bind_eq_some_iff.mp hw₁
    split at hw₁
    · cases hw₁
    obtain ⟨⟨map₁, unique, index⟩, hinsert, hw₁⟩ := Option.bind_eq_some_iff.mp hw₁
    simp only at hw₁
    split at hw₁
    swap
    · cases hw₁
    obtain ⟨hwf₁, -, -, hhas₁, -⟩ := ObjectMap.insert_inserts depth m.externalMap
      (.new entry.key (some e)) (map₁, unique, index) hwf (habsent i List.mem_cons_self entry hentry)
      rfl hinsert
    have hhas₁ (x : O) (v : Option E) :
        map₁.Has x v ↔ m.externalMap.Has x v ∨ entry.key = x ∧ entry.value = v := by
      rw [he]
      exact hhas₁ x v
    let m₁ : Region O E := { m with externalMap := map₁ }
    let m₁' : Region O E := { m' with externalMap := { m'.externalMap with
      slots := Function.update m'.externalMap.slots i (some { entry with value := none }) } }
    have hsame₁ : SameObjects w w₁ := by
      obtain rfl := Option.some.inj hw₁
      exact ⟨rfl, rfl, rfl, rfl, rfl, rfl⟩
    have hregions₁ : w₁.regions =
        Function.update (Function.update w.regions other (some m₁')) self (some m₁) := by
      obtain rfl := Option.some.inj hw₁
      rfl
    have hert₁ : w₁.ert = Function.update w.ert e (some self) := by
      obtain rfl := Option.some.inj hw₁
      rfl
    have htarget₁ : w₁.target = w.target := by
      obtain rfl := Option.some.inj hw₁
      rfl
    have hm₁ : w₁.regions self = some m₁ := by
      rw [hregions₁, Function.update_self]
    have hm₁' : w₁.regions other = some m₁' := by
      rw [hregions₁, Function.update_of_ne (Ne.symm hne), Function.update_self]
    have hslots {j : ℕ} (hj : j ∈ l) : m₁'.externalMap.slots j = m'.externalMap.slots j :=
      Function.update_of_ne (fun heq : j = i => hi (heq ▸ hj)) _ _
    have habsent₁ : ∀ j ∈ l, ∀ e', m₁'.externalMap.slots j = some e' → ¬ m₁.externalMap.Mem e'.key := by
      intro j hj e' he' hmem
      rw [hslots hj] at he'
      obtain ⟨v, hv⟩ := ObjectMap.mem_iff_has.mp hmem
      rcases (hhas₁ e'.key v).mp hv with hv | ⟨hkey, -⟩
      · exact habsent j (List.mem_cons_of_mem _ hj) e' he' (ObjectMap.mem_iff_has.mpr ⟨v, hv⟩)
      · have heq := hdistinct i List.mem_cons_self j (List.mem_cons_of_mem _ hj) entry e' hentry he' hkey
        exact hi (heq ▸ hj)
    obtain ⟨⟨hsame, ⟨map, hmap, hhas⟩, ⟨map', hmap', hshift, hslots'⟩, hothers, hert, htarget⟩, hwf₂⟩ :=
      ih hm₁ hm₁' hwf₁
        (fun j hj => by rw [hslots hj]; exact hwf' j (List.mem_cons_of_mem _ hj))
        (fun j hj k hk e' e'' => by
          rw [hslots hj, hslots hk]
          exact hdistinct j (List.mem_cons_of_mem _ hj) k (List.mem_cons_of_mem _ hk) e' e'')
        habsent₁ hnodup hfold
    have hmoved (P : ObjectMap.Entry O (Option E) → Prop) :
        (∃ j ∈ l, ∃ e', m₁'.externalMap.slots j = some e' ∧ P e') ↔
          ∃ j ∈ l, ∃ e', m'.externalMap.slots j = some e' ∧ P e' :=
      exists_congr fun j => and_congr_right fun hj => by rw [hslots hj]
    have hfirst (P : ObjectMap.Entry O (Option E) → Prop) :
        (∃ j ∈ i :: l, ∃ e', m'.externalMap.slots j = some e' ∧ P e') ↔
          P entry ∨ ∃ j ∈ l, ∃ e', m'.externalMap.slots j = some e' ∧ P e' := by
      simp only [List.mem_cons, exists_eq_or_imp, hentry, Option.some.injEq, exists_eq_left']
    refine ⟨⟨hsame₁.trans hsame, ⟨map, hmap, fun x v => ?_⟩, ⟨map', hmap', hshift, fun j => ?_⟩,
      fun s hs hs' => ?_, fun f => ⟨fun hf => ?_, fun hf => ?_⟩, htarget.trans htarget₁⟩, hwf₂⟩
    · rw [hhas, hmoved fun e' => e'.key = x ∧ e'.value = v, hfirst fun e' => e'.key = x ∧ e'.value = v,
        ← or_assoc]
      exact or_congr_left (hhas₁ x v)
    · rw [hslots']
      by_cases hj : j ∈ l
      · rw [if_pos hj, if_pos (List.mem_cons_of_mem _ hj), hslots hj]
      · rw [if_neg hj]
        by_cases hji : j = i
        · rw [hji, if_pos List.mem_cons_self, hentry]
          exact Function.update_self ..
        · rw [if_neg fun hj' => (List.mem_cons.mp hj').elim hji hj]
          exact Function.update_of_ne hji _ _
    · rw [hothers s hs hs', hregions₁, Function.update_of_ne hs, Function.update_of_ne hs']
    · rw [hfirst fun e' => e'.value = some f] at hf
      by_cases hrest : ∃ j ∈ l, ∃ e', m'.externalMap.slots j = some e' ∧ e'.value = some f
      · exact (hert f).1 ((hmoved fun e' => e'.value = some f).mpr hrest)
      · have hvalue := hf.resolve_right hrest
        rw [(hert f).2 fun hcon => hrest ((hmoved fun e' => e'.value = some f).mp hcon), hert₁]
        obtain rfl := Option.some.inj (he.symm.trans hvalue)
        exact Function.update_self ..
    · rw [hfirst fun e' => e'.value = some f, not_or] at hf
      rw [(hert f).2 fun hcon => hf.2 ((hmoved fun e' => e'.value = some f).mp hcon), hert₁,
        Function.update_of_ne fun heq : f = e => hf.1 (heq ▸ he)]

/-- A table with null pointers is deallocated. -/
theorem removeRefs_null {l : List ℕ} (hm : w.regions self = some m) (hnodup : l.Nodup)
    (hnull : ∀ i ∈ l, ∀ e, m.externalMap.slots i = some e → e.value = none)
    (hw' : l.foldlM (fun w i => w.removeRef self i) w = some w') :
    SameRegions self m w w' ∧ w'.ert = w.ert ∧ w'.target = w.target := by
  induction l generalizing w m with
  | nil =>
    obtain rfl := Option.some.inj hw'
    exact ⟨.refl hm, rfl, rfl⟩
  | cons i l ih =>
    rw [List.foldlM_cons] at hw'
    obtain ⟨w₁, hw₁, hfold⟩ := Option.bind_eq_some_iff.mp hw'
    obtain ⟨hi, hnodup⟩ := List.nodup_cons.mp hnodup
    obtain ⟨e, he⟩ : ∃ e, m.externalMap.slots i = some e := by
      rw [removeRef, hm, Option.bind_some] at hw₁
      obtain ⟨e, he, -⟩ := Option.map_eq_some_iff.mp hw₁
      exact ⟨e, he⟩
    obtain ⟨-, hregions, hert, htarget⟩ := removeRef_eq hm he hw₁
    have hvalue := hnull i List.mem_cons_self e he
    simp only [hvalue, reduceCtorEq, if_false] at hert htarget
    let m₁ : Region O E := { m with externalMap := m.externalMap.eraseAt i }
    have hm₁ : w₁.regions self = some m₁ := by
      rw [hregions, Function.update_self]
    have hnull₁ : ∀ j ∈ l, ∀ e, m₁.externalMap.slots j = some e → e.value = none := by
      intro j hj e' he'
      refine hnull j (List.mem_cons_of_mem _ hj) e' ?_
      rw [← he']
      exact (Function.update_of_ne (fun heq : j = i => hi (heq ▸ hj)) _ _).symm
    obtain ⟨hsame, hert', htarget'⟩ := ih hm₁ hnodup hnull₁ hfold
    exact ⟨(sameRegions_removeRef hm he hw₁).trans (show m₁.allocated = m.allocated from rfl) hsame,
      hert'.trans (funext hert), htarget'.trans (funext htarget)⟩

/-- Two regions are merged. -/
theorem Consistent.merge (h : w.Consistent H fun _ _ => False) {depth : ℕ} {sizeclass : ℕ → ℕ}
    {into o : O} (hw' : w.merge H depth sizeclass into o = some w') :
    w'.Consistent H fun _ _ => False := by
  obtain ⟨⟨self, m⟩, hget, hw'⟩ := Option.bind_eq_some_iff.mp hw'
  obtain ⟨⟨other, m'⟩, hget', hw'⟩ := Option.bind_eq_some_iff.mp hw'
  simp only at hw'
  split at hw'
  · cases hw'
  next hcond =>
  rw [not_or] at hcond
  obtain ⟨hne, -⟩ := hcond
  obtain ⟨r, hr, hw'⟩ := Option.bind_eq_some_iff.mp hw'
  obtain ⟨w₁, hw₁, hw'⟩ := Option.bind_eq_some_iff.mp hw'
  obtain ⟨w₂, hw₂, rfl⟩ := Option.map_eq_some_iff.mp hw'
  obtain ⟨-, -, hm, -⟩ := get_eq_some hget
  obtain ⟨hcls', -, hm', ho⟩ := get_eq_some hget'
  obtain ⟨iso, prim, sec, hrings, hmem⟩ := h.isRegion' hm
  obtain ⟨iso', prim', sec', hrings', hmem'⟩ := h.isRegion' hm'
  obtain rfl := IsRegion.entry_eq hrings' hmem' hcls' ho
  have hdisj : (self :: iso :: (prim ++ sec)).Disjoint (other :: o :: (prim' ++ sec')) := fun x hx hx' =>
    hne (h.disjoint self m other m' x hm hm' (Or.inl ((hmem x).mpr hx)) (Or.inl ((hmem' x).mpr hx')))
  obtain ⟨r', prim₁, sec₁, hr', hrings₁, hperm, hself, hallocated, hcls, hnext⟩ :=
    RegionTrace.mergeInternal_spec (fun _ => rfl) hrings hrings' rfl rfl hdisj hmem' sizeclass
  obtain rfl := Option.some.inj (hr.symm.trans hr')
  have hself : r.self = self := hself
  have hother_out : other ∉ o :: (prim' ++ sec') := (List.nodup_cons.mp hrings'.nodup).1
  have hnew (x : O) : x ∈ o :: (prim' ++ sec') ↔ x ∈ m'.allocated ∧ x ≠ other := by
    rw [hmem', List.mem_cons (b := other)]
    exact ⟨fun hx => ⟨Or.inr hx, fun heq => hother_out (heq ▸ hx)⟩, fun hx => hx.1.resolve_left hx.2⟩
  have hallocated' (x : O) : x ∈ r.allocated ↔ x ∈ m.allocated ∨ x ∈ m'.allocated ∧ x ≠ other := by
    rw [hallocated, Finset.mem_union, List.mem_toFinset, hnew]
    rfl
  have hself_mem : self ∈ m.allocated := (hmem self).mpr List.mem_cons_self
  have hapart {x : O} (hx : x ∈ m.allocated) : x ∉ m'.allocated := fun hx' =>
    hdisj ((hmem x).mp hx) ((hmem' x).mp hx')
  -- the tables
  let m₀ := metadata r m.externalMap
  have hm₀ : (w.write r m.externalMap).regions self = some m₀ := by
    rw [← hself]
    exact Function.update_self ..
  have hm₀' : (w.write r m.externalMap).regions other = some m' := by
    refine (Function.update_of_ne (fun heq : other = r.self => hne ?_) _ _).trans hm'
    exact (heq.trans hself).symm
  rw [mergeTable, hm₀', Option.bind_some] at hw₁
  obtain ⟨hnodup, hvisits⟩ := m'.externalMap.visits_spec
  have hstores (i : ℕ) : i ∈ m'.externalMap.visits ↔ ∃ e, m'.externalMap.Stores i e :=
    (hvisits i).trans ObjectMap.mem_occupied
  have hwf' := h.wellFormed other m' hm'
  have hlt {i : ℕ} {e : ObjectMap.Entry O (Option E)} (hi : i ∈ m'.externalMap.visits)
      (he : m'.externalMap.slots i = some e) : m'.externalMap.Stores i e := by
    obtain ⟨e', he'⟩ := (hstores i).mp hi
    exact ⟨he'.1, he⟩
  obtain ⟨⟨hsame₁, ⟨map, hmap, hhas⟩, ⟨map', hmap', hshift, hslots⟩, hothers, hert, htarget⟩, hwf₁⟩ :=
    moveRefs_spec (H := H) hne hm₀ hm₀' (h.wellFormed self m hm)
      (fun i hi => (hstores i).mp hi |>.imp fun _ he => he.2)
      (fun i hi j hj e e' he he' => hwf'.distinct i j e e' (hlt hi he) (hlt hj he'))
      (fun i hi e he hmem₀ => by
        obtain ⟨v, hv⟩ := ObjectMap.mem_iff_has.mp hmem₀
        have hx := (h.entry self m e.key v hm hv).1.resolve_right id
        have hx' := (h.entry other m' e.key e.value hm' ⟨i, e, hlt hi he, rfl, rfl⟩).1.resolve_right id
        exact hapart hx hx') hnodup hw₁
  have hmoved (P : ObjectMap.Entry O (Option E) → Prop) :
      (∃ i ∈ m'.externalMap.visits, ∃ e, m'.externalMap.slots i = some e ∧ P e) ↔
        ∃ i e, m'.externalMap.Stores i e ∧ P e := by
    constructor
    · rintro ⟨i, hi, e, he, hP⟩
      exact ⟨i, e, hlt hi he, hP⟩
    · rintro ⟨i, e, he, hP⟩
      exact ⟨i, (hstores i).mpr ⟨e, he⟩, e, he.2, hP⟩
  have hhas (x : O) (v : Option E) : map.Has x v ↔ m.externalMap.Has x v ∨ m'.externalMap.Has x v := by
    rw [hhas, hmoved fun e => e.key = x ∧ e.value = v]
    rfl
  have hert (f : E) : ((∃ x, m'.externalMap.Has x (some f)) → w₁.ert f = some self) ∧
      ((¬ ∃ x, m'.externalMap.Has x (some f)) → w₁.ert f = w.ert f) := by
    have hiff : (∃ i ∈ m'.externalMap.visits, ∃ e, m'.externalMap.slots i = some e ∧
        e.value = some f) ↔ ∃ x, m'.externalMap.Has x (some f) := by
      rw [hmoved fun e => e.value = some f]
      constructor
      · rintro ⟨i, e, he, hv⟩
        exact ⟨e.key, i, e, he, rfl, hv⟩
      · rintro ⟨x, i, e, he, -, hv⟩
        exact ⟨i, e, he, hv⟩
    rw [← hiff]
    exact hert f
  rw [deallocTable, hmap', Option.bind_some] at hw₂
  obtain ⟨hnodup₂, hvisits₂⟩ := map'.visits_spec
  obtain ⟨hsame₂, hert₂, htarget₂⟩ := removeRefs_null hmap' hnodup₂ (fun i hi e he => by
    have he : map'.slots i = some e := he
    rw [hslots] at he
    split at he
    · obtain ⟨e', -, rfl⟩ := Option.map_eq_some_iff.mp he
      rfl
    · next hout =>
      obtain ⟨e', hlt', -⟩ := ObjectMap.mem_occupied.mp ((hvisits₂ i).mp hi)
      rw [ObjectMap.capacity, hshift] at hlt'
      exact absurd ((hstores i).mpr ⟨e, hlt', he⟩) hout) hw₂
  -- the final state
  have hsame : SameObjects (w.write r m.externalMap) w₂ := hsame₁.trans hsame₂.objects
  have hself₂ : w₂.regions self = some { m₀ with externalMap := map } := by
    rw [hsame₂.others self hne, hmap]
  have hwf := hwf₁ map hmap
  have hcases {s : O} {n : Region O E} (hn : Function.update w₂.regions other none s = some n) :
      s = self ∧ n = { m₀ with externalMap := map } ∨ s ≠ self ∧ s ≠ other ∧ w.regions s = some n := by
    rw [Function.update_apply] at hn
    split at hn
    · cases hn
    next hs =>
    by_cases hs' : s = self
    · rw [hs', hself₂] at hn
      exact Or.inl ⟨hs', (Option.some.inj hn).symm⟩
    · rw [hsame₂.others s hs, hothers s hs' hs] at hn
      refine Or.inr ⟨hs', hs, ?_⟩
      rw [← hn]
      exact (Function.update_of_ne (fun heq => hs' (heq.trans hself)) _ _).symm
  have hsplit {x : O} (hx : x ∈ r.allocated) : x ∈ m.allocated ∨ x ∈ m'.allocated :=
    ((hallocated' x).mp hx).imp_right And.left
  have hout {s x : O} {n : Region O E} (hs : s ≠ self) (hs' : s ≠ other) (hn : w.regions s = some n)
      (hx : x ∈ n.allocated) : x ∉ r.allocated := fun hx' => (hsplit hx').elim
    (fun hx' => hs (h.disjoint s n self m x hn hm (Or.inl hx) (Or.inl hx')))
    fun hx' => hs' (h.disjoint s n other m' x hn hm' (Or.inl hx) (Or.inl hx'))
  have hrefs {s x : O} {v : Option E} {n : Region O E} (hn : w.regions s = some n)
      (hx : n.externalMap.Has x v) : ∃ e, v = some e ∧ w₂.created e = some (x, w₂.births x) ∧
        w₂.ert e = some (if s = other then self else s) ∧ w₂.target e = some x := by
    obtain ⟨-, e, rfl, hcreated, hs_ert, hs_target⟩ := h.entry s n x v hn hx
    rw [hsame.created_eq, hsame.births_eq, hert₂, htarget₂, htarget]
    refine ⟨e, rfl, hcreated, ?_, hs_target⟩
    by_cases hs : s = other
    · rw [if_pos hs]
      rw [hs] at hn
      obtain rfl := Option.some.inj (hn.symm.trans hm')
      exact (hert e).1 ⟨x, hx⟩
    · rw [if_neg hs, (hert e).2, hs_ert]
      rintro ⟨y, hy⟩
      obtain ⟨-, e', he', -, hother_ert, -⟩ := h.entry other m' y _ hm' hy
      obtain rfl := Option.some.inj he'
      exact hs (Option.some.inj (hs_ert.symm.trans hother_ert))
  refine ⟨fun s n hn => Or.inl ?_, fun s n s' n' x hn hn' hx hx' => ?_, fun _ _ _ _ hx => hx.elim,
    fun s n hn => ?_, fun s n x v hn hx => ?_, fun s n x hn hx => ?_, fun s e he => ?_,
    fun e x n he => ?_, fun s n e x hn hx he => ?_, fun s n v hn hx => ?_⟩
  · rcases hcases hn with ⟨rfl, rfl⟩ | ⟨hs, hs', hn⟩
    · refine ⟨iso, prim₁, sec₁, hrings₁.frame hself.symm (fun x hx => ?_) rfl rfl rfl (fun x _ => ?_)
        (fun x _ f hf => ?_), fun x => ?_⟩
      · refine ⟨hrings₁.allocated x hx, ?_, ?_⟩
        · exact congrFun hsame.cls_eq x
        · exact congrFun hsame.next_eq x
      · exact congrFun hsame.isTrivial_eq x
      · cases hf
      · change x ∈ r.allocated ↔ _
        rw [hallocated', ← hnew, hmem]
        simp only [List.mem_cons, hperm.mem_iff, List.mem_append]
        rw [or_assoc, or_assoc]
        exact or_congr_right (or_congr_right or_comm)
    · refine (h.isRegion' hn).frame fun x hx => ?_
      have hx' := hout hs hs' hn hx
      have hnot : x ∉ o :: (prim' ++ sec') := fun hcon =>
        hx' ((hallocated' x).mpr (Or.inr ((hnew x).mp hcon)))
      have hx_self : x ≠ self := fun heq => hx' (heq ▸ (hallocated' self).mpr (Or.inl hself_mem))
      refine ⟨?_, ?_, ?_⟩
      · exact (congrFun hsame.cls_eq x).trans (hcls x hnot)
      · exact (congrFun hsame.next_eq x).trans (hnext x hnot hx_self)
      · exact congrFun hsame.isTrivial_eq x
  · have hx := hx.resolve_right id
    have hx' := hx'.resolve_right id
    rcases hcases hn with ⟨rfl, rfl⟩ | ⟨hs, hs', hn⟩ <;>
      rcases hcases hn' with ⟨rfl, rfl⟩ | ⟨ht, ht', hn'⟩
    · rfl
    · exact absurd hx (hout ht ht' hn' hx')
    · exact absurd hx' (hout hs hs' hn hx)
    · exact h.disjoint s n s' n' x hn hn' (Or.inl hx) (Or.inl hx')
  · rcases hcases hn with ⟨rfl, rfl⟩ | ⟨-, -, hn⟩
    · exact hwf
    · exact h.wellFormed s n hn
  · rcases hcases hn with ⟨rfl, rfl⟩ | ⟨hs, hs', hn⟩
    · rcases (hhas x v).mp hx with hx | hx
      · obtain ⟨e, he, hcreated, hs_ert, hs_target⟩ := hrefs hm hx
        rw [if_neg hne] at hs_ert
        refine ⟨Or.inl ((hallocated' x).mpr (Or.inl ?_)), e, he, hcreated, hs_ert, hs_target⟩
        exact (h.entry s m x v hm hx).1.resolve_right id
      · obtain ⟨e, he, hcreated, hs_ert, hs_target⟩ := hrefs hm' hx
        rw [if_pos rfl] at hs_ert
        refine ⟨Or.inl ((hallocated' x).mpr (Or.inr ⟨?_, ?_⟩)), e, he, hcreated, hs_ert, hs_target⟩
        · exact (h.entry other m' x v hm' hx).1.resolve_right id
        · rintro rfl
          exact h.self_out x m' v hm' hx
    · obtain ⟨e, he, hcreated, hs_ert, hs_target⟩ := hrefs hn hx
      rw [if_neg hs'] at hs_ert
      exact ⟨(h.entry s n x v hn hx).1, e, he, hcreated, hs_ert, hs_target⟩
  · have hx := hx.resolve_right id
    change w₂.hasExtRef x = true ↔ _
    rw [hsame.hasExtRef_eq]
    rcases hcases hn with ⟨rfl, rfl⟩ | ⟨-, -, hn⟩
    · rw [ObjectMap.mem_iff_has]
      simp only [hhas, exists_or]
      rw [← ObjectMap.mem_iff_has, ← ObjectMap.mem_iff_has]
      rcases hsplit hx with hx | hx
      · refine (h.bit s m x hm (Or.inl hx)).trans (or_iff_left fun hcon => hapart hx ?_).symm
        obtain ⟨v, hv⟩ := ObjectMap.mem_iff_has.mp hcon
        exact (h.entry other m' x v hm' hv).1.resolve_right id
      · refine (h.bit other m' x hm' (Or.inl hx)).trans (or_iff_right fun hcon => ?_).symm
        obtain ⟨v, hv⟩ := ObjectMap.mem_iff_has.mp hcon
        exact hapart ((h.entry s m x v hm hv).1.resolve_right id) hx
    · exact h.bit s n x hn (Or.inl hx)
  · have he : w₁.ert e = some s := by
      rw [← he]
      exact congrFun hert₂.symm e
    have hself' : Function.update w₂.regions other none self =
        some { m₀ with externalMap := map } := (Function.update_of_ne hne _ _).trans hself₂
    by_cases hmove : ∃ x, m'.externalMap.Has x (some e)
    · obtain ⟨x, hx⟩ := hmove
      obtain rfl := Option.some.inj (((hert e).1 ⟨x, hx⟩).symm.trans he)
      exact ⟨_, x, hself', (hhas x _).mpr (Or.inr hx)⟩
    · rw [(hert e).2 hmove] at he
      obtain ⟨n, x, hn, hx⟩ := h.ert s e he
      by_cases hs : s = self
      · rw [hs] at hn ⊢
        obtain rfl := Option.some.inj (hn.symm.trans hm)
        exact ⟨_, x, hself', (hhas x _).mpr (Or.inl hx)⟩
      · have hs' : s ≠ other := by
          rintro rfl
          obtain rfl := Option.some.inj (hn.symm.trans hm')
          exact hmove ⟨x, hx⟩
        refine ⟨n, x, (Function.update_of_ne hs' _ _).trans ?_, hx⟩
        rw [hsame₂.others s hs', hothers s hs hs', ← hn]
        exact Function.update_of_ne (fun heq => hs (heq.trans hself)) _ _
  · have he : w.created e = some (x, n) := by
      rw [← he]
      exact (congrFun hsame.created_eq e).symm
    change n ≤ w₂.births x
    rw [hsame.births_eq]
    exact h.created e x n he
  · have he : w.created e = some (x, w.births x) := by
      have he : w₂.created e = some (x, w₂.births x) := he
      rw [hsame.created_eq, hsame.births_eq] at he
      exact he
    rcases hcases hn with ⟨rfl, rfl⟩ | ⟨-, -, hn⟩
    · refine (hhas x _).mpr ((hsplit hx).imp (fun hx => ?_) fun hx => ?_)
      · exact h.kept s m e x hm hx he
      · exact h.kept other m' e x hm' hx he
    · exact h.kept s n e x hn hx he
  · rcases hcases hn with ⟨rfl, rfl⟩ | ⟨-, -, hn⟩
    · rcases (hhas s v).mp hx with hx | hx
      · exact h.self_out s m v hm hx
      · exact hapart hself_mem ((h.entry other m' s v hm' hx).1.resolve_right id)
    · exact h.self_out s n v hn hx

end World

/-! ## Runs -/

variable {H : ObjectMap.Hashing O} {sizeclass : ℕ → ℕ} {w : World O E}

/-- Every state is consistent, if no collection finds garbage that has a finaliser or a destructor and
an external reference. -/
theorem Reached.consistent (h : Reached H sizeclass Op.SparesRefs w) :
    w.Consistent H fun _ _ => False := by
  induction h with
  | start hregions hert hcreated =>
    refine ⟨fun s n hn => ?_, fun s n s' n' x hn => ?_, fun s n x hn => ?_, fun s n hn => ?_,
      fun s n x v hn => ?_, fun s n x hn => ?_, fun s e he => ?_, fun e x n he => ?_,
      fun s n e x hn => ?_, fun s n v hn => ?_⟩
    case refine_7 => exact absurd ((hert e).symm.trans he) nofun
    case refine_8 => exact absurd ((hcreated e).symm.trans he) nofun
    all_goals exact absurd ((hregions s).symm.trans hn) nofun
  | @step w w' op _ _ hlegal hspares hw' ih =>
    cases op with
    | create self o isTrivial size =>
      obtain rfl := Option.some.inj hw'
      exact ih.create hlegal.1 hlegal.2.1 hlegal.2.2
    | alloc entry o isTrivial size => exact ih.alloc hlegal hw'
    | createRef self o e => exact ih.createRef hlegal.1 hlegal.2 hw'
    | merge into o => exact ih.merge hw'
    | pushAdditionalRoot entry o => exact ih.pushAdditionalRoot hlegal hw'
    | popAdditionalRoot entry o => exact ih.popAdditionalRoot hw'
    | gc entry D => exact ih.gc hlegal hspares hw'

/-- In every run whose collections find no garbage that has a finaliser or a destructor and an external
reference, a reference is in a region exactly while its object is, and the tables have exactly the
objects with the bit. -/
theorem external_references_valid (h : Reached H sizeclass Op.SparesRefs w) : w.RefsValid :=
  h.consistent.refsValid

/-- A heap without regions and references. -/
def emptyWorld : World ℕ ℕ where
  cls _ := .unmarked
  next _ := none
  hasExtRef _ := false
  isTrivial _ := false
  size _ := 0
  births _ := 0
  regions _ := none
  ert _ := none
  target _ := none
  created _ := none

/-- The hash of an address. -/
def addressHash : ObjectMap.Hashing ℕ where
  hash x := x
  probeMask := 7

/-- Objects without references. -/
def noFields : Descriptors ℕ where
  fields _ := []
  finaliser _ := []
  isTrivial _ := false
  size _ := 16
  immutable x := x

/-- A region with the entry point 1 and the object 2, an external reference to the object, and a
collection. -/
def oneRef (isTrivial : Bool) : Option (World ℕ ℕ) :=
  (((emptyWorld.create 0 1 false 16).alloc 1 2 isTrivial 16).bind fun w =>
    w.createRef addressHash 1 0 2 5).bind fun w => w.gc addressHash noFields id 1 1

/-- The run of one object, when the guard admits its operations. -/
theorem reached_oneRef (isTrivial : Bool) (guard : World ℕ ℕ → Op ℕ ℕ → Prop)
    (hcreate : ∀ w, guard w (.create 0 1 false 16)) (halloc : ∀ w, guard w (.alloc 1 2 isTrivial 16))
    (href : ∀ w, guard w (.createRef 0 2 5))
    (hgc : ∀ w : World ℕ ℕ, w.next 1 = some 0 → (w.regions 0).map Region.allocated = some {0, 1, 2} →
      w.isTrivial 2 = isTrivial → w.hasExtRef 1 = false → guard w (.gc 1 noFields)) :
    ∃ w, Reached addressHash id guard w ∧ oneRef isTrivial = some w := by
  have h₀ : Reached addressHash id guard emptyWorld :=
    .start (fun _ => rfl) (fun _ => rfl) fun _ => rfl
  have h₁ : Reached addressHash id guard (emptyWorld.create 0 1 false 16) :=
    Reached.step (.create 0 1 false 16) 1 h₀ ⟨by decide, nofun, nofun⟩ (hcreate _) rfl
  have hfresh : (emptyWorld.create 0 1 false 16).Fresh 2 := by
    intro self m hm
    change Function.update (fun _ => none) 0 (some _) self = some m at hm
    rw [Function.update_apply] at hm
    split at hm
    · obtain rfl := Option.some.inj hm
      decide
    · cases hm
  have hcheck₂ : ((emptyWorld.create 0 1 false 16).alloc 1 2 isTrivial 16).map (fun w =>
      ((w.regions 0).map Region.allocated, w.created 5)) = some (some {0, 1, 2}, none) := by
    cases isTrivial <;> decide +kernel
  obtain ⟨w₂, hw₂, hcheck₂⟩ := Option.map_eq_some_iff.mp hcheck₂
  have h₂ : Reached addressHash id guard w₂ :=
    Reached.step (.alloc 1 2 isTrivial 16) 1 h₁ hfresh (halloc _) hw₂
  obtain ⟨hregion₂, hcreated₂⟩ := Prod.mk.inj hcheck₂
  obtain ⟨m₂, hm₂, hmem₂⟩ := Option.map_eq_some_iff.mp hregion₂
  have hcheck₃ : (((emptyWorld.create 0 1 false 16).alloc 1 2 isTrivial 16).bind fun w =>
      w.createRef addressHash 1 0 2 5).map (fun w => (w.next 1, (w.regions 0).map Region.allocated,
        w.isTrivial 2, w.hasExtRef 1)) = some (some 0, some {0, 1, 2}, isTrivial, false) := by
    cases isTrivial <;> decide +kernel
  obtain ⟨w₃, hw₃, hcheck₃⟩ := Option.map_eq_some_iff.mp hcheck₃
  rw [hw₂, Option.bind_some] at hw₃
  simp only [Prod.mk.injEq] at hcheck₃
  obtain ⟨hnext₃, hregion₃, htrivial₃, hbit₃⟩ := hcheck₃
  have h₃ : Reached addressHash id guard w₃ := by
    refine Reached.step (.createRef 0 2 5) 1 h₂ ⟨⟨⟨m₂, hm₂, ?_⟩, by decide⟩, hcreated₂⟩ (href _) hw₃
    rw [hmem₂]
    decide
  have hsome : (oneRef isTrivial).isSome := by
    cases isTrivial <;> decide +kernel
  obtain ⟨w₄, hw₄⟩ := Option.isSome_iff_exists.mp hsome
  refine ⟨w₄, ?_, hw₄⟩
  rw [oneRef, hw₂, Option.bind_some, hw₃, Option.bind_some] at hw₄
  exact Reached.step (.gc 1 noFields) 1 h₃ (fun _ _ _ _ => nofun)
    (hgc w₃ hnext₃ hregion₃ htrivial₃ hbit₃) hw₄

/-- The theorem at a run that collects a trivial object with an external reference. -/
theorem external_references_valid_oneRef :
    ∃ w, oneRef true = some w ∧ w.ert 5 = none ∧ w.RefsValid := by
  obtain ⟨w, hreached, hw⟩ := reached_oneRef true Op.SparesRefs (fun _ => trivial) (fun _ => trivial)
    (fun _ => trivial) fun w hnext hregion htrivial hbit self m hself hm x hx hkind hx_bit => by
      obtain rfl := Option.some.inj (hnext.symm.trans hself)
      rw [hm] at hregion
      have hallocated : m.allocated = {0, 1, 2} := Option.some.inj hregion
      obtain ⟨⟨m', hm', hmem⟩, hne⟩ := hx
      obtain rfl := Option.some.inj (hm'.symm.trans hm)
      rw [hallocated] at hmem
      simp only [Finset.mem_insert, Finset.mem_singleton] at hmem
      rcases hmem with rfl | rfl | rfl
      · exact absurd rfl hne
      · rw [hbit] at hx_bit
        cases hx_bit
      · rw [htrivial] at hkind
        cases hkind
  have hert : (oneRef true).map (fun w => w.ert 5) = some none := by decide +kernel
  rw [hw] at hert
  exact ⟨w, hw, Option.some.inj hert, external_references_valid hreached⟩

/-- A reference stays in the region when its object, which has a destructor, is collected. -/
theorem collected_reference_in_region :
    ∃ w : World ℕ ℕ, Reached addressHash id (fun _ _ => True) w ∧ ¬ w.RefsValid := by
  obtain ⟨w, hreached, hw⟩ := reached_oneRef false (fun _ _ => True) (fun _ => trivial)
    (fun _ => trivial) (fun _ => trivial) fun _ _ _ _ _ => trivial
  have hcheck : (oneRef false).map (fun w =>
      (w.ert 5, w.created 5, (w.regions 0).map Region.allocated)) =
        some (some 0, some (2, 1), some {0, 1}) := by decide +kernel
  rw [hw] at hcheck
  have hcheck := Option.some.inj hcheck
  simp only [Prod.mk.injEq] at hcheck
  obtain ⟨hert, hcreated, hregion⟩ := hcheck
  refine ⟨w, hreached, fun hvalid => ?_⟩
  obtain ⟨o, ho, m, hm, hmem⟩ := (hvalid.isIn_iff 0 5).mp hert
  obtain rfl := (Prod.mk.inj (Option.some.inj (hcreated.symm.trans ho))).1
  rw [hm] at hregion
  have hallocated : m.allocated = {0, 1} := Option.some.inj hregion
  rw [hallocated] at hmem
  revert hmem
  decide

end VeronaRt.ExternalRef
