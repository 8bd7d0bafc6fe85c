import VeronaFs.Foundation.Links
import VeronaFs.Runtime.RegionTrace

/-!
# Marking a trace region

The marks are on exactly the objects that the entry point and the additional roots reach through
objects of the region, but for the entry point itself.
-/

namespace VeronaRt.RegionTrace

open Foundation

variable {O : Type*} [DecidableEq O] {D : Descriptors O} {r r' : RegionTrace O} {iso p : O}
  {prim sec stack : List O} {fuel : ℕ}

/-! ## The rings -/

/-- A class of objects that a collection does not follow. -/
def Foreign (cls : RegionMD) : Prop := cls = .iso ∨ cls = .sccPtr ∨ cls = .rc ∨ cls = .shared

/-- The ring invariants: the primary ring leads from the metadata object along `prim` to the entry
point, the secondary ring along `sec`.  All references are to objects of the region, to entry points of
other regions, and to immutable and shared objects. -/
structure Rings (D : Descriptors O) (iso : O) (prim sec : List O) (r : RegionTrace O) : Prop where
  /-- The objects are different ones. -/
  nodup : (r.self :: iso :: (prim ++ sec)).Nodup
  /-- The objects are allocated. -/
  allocated : ∀ x ∈ r.self :: iso :: (prim ++ sec), x ∈ r.allocated
  /-- The metadata object is not marked. -/
  cls_self : r.cls r.self = .unmarked
  /-- The entry point. -/
  cls_iso : r.cls iso = .iso
  /-- The other objects are not marked. -/
  cls_eq : ∀ x ∈ prim ++ sec, r.cls x = .unmarked
  /-- The primary ring. -/
  primary : Path r.next prim (r.next r.self) (some iso)
  /-- The entry point leads back to the metadata object. -/
  next_iso : r.next iso = some r.self
  /-- The secondary ring. -/
  secondary : Path r.next sec r.nextNotRoot (some r.self)
  /-- The last object of the secondary ring, or the metadata object. -/
  last : r.lastNotRoot = some (sec.getLast?.getD r.self)
  /-- The primary ring has the objects that are trivial if and only if the entry point is. -/
  isTrivial_primary : ∀ x ∈ prim, D.isTrivial x = D.isTrivial iso
  /-- The secondary ring has the others. -/
  isTrivial_secondary : ∀ x ∈ sec, D.isTrivial x = !D.isTrivial iso
  /-- The references. -/
  fields_mem : ∀ x ∈ iso :: (prim ++ sec), ∀ f ∈ D.fields x,
    f ∈ iso :: (prim ++ sec) ∨ Foreign (r.cls f)
  /-- The additional roots are objects of the region. -/
  roots_mem : ∀ x ∈ r.additionalEntryPoints, x ∈ iso :: (prim ++ sec)

/-- The object is reached from the entry point or an additional root through objects of the region. -/
def Live (D : Descriptors O) (r : RegionTrace O) (iso : O) (objects : List O) (x : O) : Prop :=
  ∃ o, (o = iso ∨ o ∈ r.additionalEntryPoints) ∧
    Reaches (fun x => (D.fields x).filter fun y => y ∈ objects) o x

/-- What a live object refers to is live. -/
theorem Live.tail {objects : List O} {x y : O} (h : Live D r iso objects x) (hy : y ∈ D.fields x)
    (hobjects : y ∈ objects) : Live D r iso objects y := by
  obtain ⟨o, ho, hreach⟩ := h
  exact ⟨o, ho, hreach.tail (List.mem_filter.mpr ⟨hy, decide_eq_true hobjects⟩)⟩

/-! ## The trace -/

/-- The invariant of `mark`, with the objects of the region. -/
structure Marking (D : Descriptors O) (r : RegionTrace O) (iso : O) (objects : List O)
    (r' : RegionTrace O) (stack : List O) : Prop where
  /-- Only classes and the remembered set change. -/
  same : r' = { r with cls := r'.cls, remembered := r'.remembered }
  /-- Only live objects are marked. -/
  cls_eq : ∀ x, r'.cls x = r.cls x ∨
    r'.cls x = .marked ∧ x ∈ objects ∧ x ≠ iso ∧ Live D r iso objects x
  /-- The objects of the region that are on the stack are live. -/
  stack_live : ∀ y ∈ stack, y ∈ objects → Live D r iso objects y
  /-- The other ones are not followed. -/
  stack_foreign : ∀ y ∈ stack, y ∉ objects → Foreign (r.cls y)
  /-- What a marked object refers to is marked or on the stack. -/
  closed : ∀ x ∈ objects, x = iso ∨ r'.cls x = .marked → ∀ y ∈ D.fields x, y ∈ objects → y ≠ iso →
    r'.cls y = .marked ∨ y ∈ stack
  /-- The additional roots are marked or on the stack. -/
  roots : ∀ y ∈ r.additionalEntryPoints, y ≠ iso → r'.cls y = .marked ∨ y ∈ stack

/-- The objects that are not marked. -/
def unmarkedObjects (objects : List O) (r : RegionTrace O) : Finset O :=
  objects.toFinset.filter fun x => r.cls x = .unmarked

/-- The trace starts with the references of the entry point and the additional roots. -/
theorem Rings.marking (h : Rings D iso prim sec r) :
    Marking D r iso (iso :: (prim ++ sec)) r
      (D.fields iso ++ r.additionalEntryPoints.reverse) := by
  have hcls {x : O} (hx : x ∈ iso :: (prim ++ sec)) : r.cls x ≠ .marked := by
    rcases List.mem_cons.mp hx with rfl | hx
    · rw [h.cls_iso]
      decide
    · rw [h.cls_eq x hx]
      decide
  have hiso : Live D r iso (iso :: (prim ++ sec)) iso := ⟨iso, Or.inl rfl, Relation.ReflTransGen.refl⟩
  refine ⟨rfl, fun x => Or.inl rfl, fun y hy hobjects => ?_, fun y hy hobjects => ?_,
    fun x hx hmarked y hy _ _ => Or.inr ?_, fun y hy _ => Or.inr ?_⟩
  · rcases List.mem_append.mp hy with hy | hy
    · exact hiso.tail hy hobjects
    · exact ⟨y, Or.inr (List.mem_reverse.mp hy), Relation.ReflTransGen.refl⟩
  · rcases List.mem_append.mp hy with hy | hy
    · exact (h.fields_mem iso List.mem_cons_self y hy).resolve_left hobjects
    · exact absurd (h.roots_mem y (List.mem_reverse.mp hy)) hobjects
  · rw [hmarked.resolve_right (hcls hx)] at hy
    exact List.mem_append_left _ hy
  · exact List.mem_append_right _ (List.mem_reverse.mpr hy)

/-- An object leaves the stack. -/
theorem Marking.skip {objects : List O} (hm : Marking D r iso objects r' (p :: stack))
    (hp : r'.cls p = .marked ∨ p = iso ∨ p ∉ objects)
    (hroots : ∀ x ∈ r.additionalEntryPoints, x ∈ objects) :
    Marking D r iso objects r' stack := by
  have hpop {y : O} (hobjects : y ∈ objects) (hne : y ≠ iso)
      (hy : r'.cls y = .marked ∨ y ∈ p :: stack) : r'.cls y = .marked ∨ y ∈ stack := by
    rcases hy with hy | hy
    · exact Or.inl hy
    · rcases List.mem_cons.mp hy with rfl | hy
      · rcases hp with hp | hp | hp
        · exact Or.inl hp
        · exact absurd hp hne
        · exact absurd hobjects hp
      · exact Or.inr hy
  exact { hm with
    stack_live := fun y hy => hm.stack_live y (List.mem_cons_of_mem p hy)
    stack_foreign := fun y hy => hm.stack_foreign y (List.mem_cons_of_mem p hy)
    closed := fun x hx hx' y hy hy' hne => hpop hy' hne (hm.closed x hx hx' y hy hy' hne)
    roots := fun y hy hne => hpop (hroots y hy) hne (hm.roots y hy hne) }

/-- The remembered set does not matter. -/
theorem Marking.remember {objects remembered : List O} (hm : Marking D r iso objects r' stack) :
    Marking D r iso objects { r' with remembered := remembered } stack where
  same := by
    have hsame := hm.same
    rw [hsame]
  cls_eq := hm.cls_eq
  stack_live := hm.stack_live
  stack_foreign := hm.stack_foreign
  closed := hm.closed
  roots := hm.roots

/-- An object that is not marked is marked. -/
theorem Marking.mark (h : Rings D iso prim sec r)
    (hm : Marking D r iso (iso :: (prim ++ sec)) r' (p :: stack)) (hp : p ∈ prim ++ sec)
    (hne : p ≠ iso) :
    Marking D r iso (iso :: (prim ++ sec)) (r'.setClass p .marked) (D.fields p ++ stack) := by
  have hlive := hm.stack_live p List.mem_cons_self (List.mem_cons_of_mem iso hp)
  have hcls (x : O) : (r'.setClass p .marked).cls x = if x = p then .marked else r'.cls x :=
    Function.update_apply ..
  have hpush {y : O} (hy : r'.cls y = .marked ∨ y ∈ p :: stack) :
      (r'.setClass p .marked).cls y = .marked ∨ y ∈ D.fields p ++ stack := by
    rw [hcls]
    rcases hy with hy | hy
    · left
      split
      · rfl
      · exact hy
    · rcases List.mem_cons.mp hy with rfl | hy
      · exact Or.inl (if_pos rfl)
      · exact Or.inr (List.mem_append_right _ hy)
  refine ⟨?_, fun x => ?_, fun y hy hobjects => ?_, fun y hy hobjects => ?_,
    fun x hx hx' y hy hy' hyne => ?_, fun y hy hyne => hpush (hm.roots y hy hyne)⟩
  · have hsame := hm.same
    rw [hsame]
    rfl
  · rw [hcls]
    split
    · next heq =>
      rw [heq]
      exact Or.inr ⟨rfl, List.mem_cons_of_mem iso hp, hne, hlive⟩
    · exact hm.cls_eq x
  · rcases List.mem_append.mp hy with hy | hy
    · exact hlive.tail hy hobjects
    · exact hm.stack_live y (List.mem_cons_of_mem p hy) hobjects
  · rcases List.mem_append.mp hy with hy | hy
    · exact (h.fields_mem p (List.mem_cons_of_mem iso hp) y hy).resolve_left hobjects
    · exact hm.stack_foreign y (List.mem_cons_of_mem p hy) hobjects
  · rw [hcls] at hx'
    by_cases hxp : x = p
    · rw [hxp] at hy
      exact Or.inr (List.mem_append_left _ hy)
    · rw [if_neg hxp] at hx'
      exact hpush (hm.closed x hx hx' y hy hy' hyne)

/-- A pop of `mark` keeps the invariant. -/
theorem Marking.step (h : Rings D iso prim sec r)
    (hm : Marking D r iso (iso :: (prim ++ sec)) r' (p :: stack)) :
    ∃ r'' pushed, markStep D r' p = some (r'', pushed) ∧
      Marking D r iso (iso :: (prim ++ sec)) r'' (pushed ++ stack) ∧
      width D.fields (unmarkedObjects (iso :: (prim ++ sec)) r'') + pushed.length ≤
        width D.fields (unmarkedObjects (iso :: (prim ++ sec)) r') := by
  have hnodup := h.nodup
  rw [List.nodup_cons, List.nodup_cons] at hnodup
  rw [markStep]
  by_cases hp : p ∈ iso :: (prim ++ sec)
  · rcases List.mem_cons.mp hp with rfl | hp'
    · have hiso : r'.cls p = .iso := by
        rcases hm.cls_eq p with hcls | ⟨-, -, hne, -⟩
        · rw [hcls, h.cls_iso]
        · exact absurd rfl hne
      rw [hiso]
      exact ⟨r', [], rfl, hm.skip (Or.inr (Or.inl rfl)) h.roots_mem, le_rfl⟩
    · rcases hm.cls_eq p with hcls | ⟨hcls, -⟩
      · have hne : p ≠ iso := fun heq => hnodup.2.1 (heq ▸ hp')
        rw [h.cls_eq p hp'] at hcls
        rw [hcls]
        refine ⟨_, _, rfl, hm.mark h hp' hne, ?_⟩
        have hmem : p ∈ unmarkedObjects (iso :: (prim ++ sec)) r' :=
          Finset.mem_filter.mpr ⟨List.mem_toFinset.mpr hp, hcls⟩
        have herase : unmarkedObjects (iso :: (prim ++ sec)) (r'.setClass p .marked) =
            (unmarkedObjects (iso :: (prim ++ sec)) r').erase p := by
          ext x
          simp only [unmarkedObjects, Finset.mem_filter, Finset.mem_erase, setClass,
            Function.update_apply]
          by_cases hxp : x = p <;> simp [hxp]
        rw [herase]
        exact (width_erase D.fields hmem).le
      · rw [hcls]
        exact ⟨r', [], rfl, hm.skip (Or.inl hcls) h.roots_mem, le_rfl⟩
  · have hskip := hm.skip (Or.inr (Or.inr hp)) h.roots_mem
    have hcls : r'.cls p = r.cls p := by
      rcases hm.cls_eq p with hcls | ⟨-, hmem, -⟩
      · exact hcls
      · exact absurd hmem hp
    rcases hm.stack_foreign p List.mem_cons_self hp with hf | hf | hf | hf <;> rw [hcls, hf]
    · exact ⟨_, _, rfl, hskip, le_rfl⟩
    · exact ⟨_, _, rfl, hskip.remember, le_rfl⟩
    · exact ⟨_, _, rfl, hskip.remember, le_rfl⟩
    · exact ⟨_, _, rfl, hskip.remember, le_rfl⟩

/-- What `mark` leaves: the marks are on the live objects. -/
structure Marked (D : Descriptors O) (r : RegionTrace O) (iso : O) (prim sec : List O)
    (r' : RegionTrace O) : Prop where
  /-- Only classes and the remembered set change. -/
  same : r' = { r with cls := r'.cls, remembered := r'.remembered }
  /-- The live objects are marked. -/
  cls_live : ∀ x ∈ prim ++ sec, Live D r iso (iso :: (prim ++ sec)) x → r'.cls x = .marked
  /-- The other objects of the rings are not. -/
  cls_dead : ∀ x ∈ prim ++ sec, ¬ Live D r iso (iso :: (prim ++ sec)) x → r'.cls x = .unmarked
  /-- The other classes do not change. -/
  cls_eq : ∀ x, x ∉ prim ++ sec → r'.cls x = r.cls x

/-- `mark` marks the live objects. -/
theorem mark_spec (h : Rings D iso prim sec r)
    (hfuel : width D.fields (iso :: (prim ++ sec)).toFinset + (D.fields iso).length +
      r.additionalEntryPoints.length ≤ fuel) :
    ∃ r', mark D fuel r iso r.additionalEntryPoints.reverse = some r' ∧
      Marked D r iso prim sec r' := by
  have hnodup := h.nodup
  rw [List.nodup_cons, List.nodup_cons] at hnodup
  have hle : width D.fields (unmarkedObjects (iso :: (prim ++ sec)) r) ≤
      width D.fields (iso :: (prim ++ sec)).toFinset := width_mono (Finset.filter_subset ..)
  have hwidth : width D.fields (unmarkedObjects (iso :: (prim ++ sec)) r) +
      (D.fields iso ++ r.additionalEntryPoints.reverse).length ≤ fuel := by
    rw [List.length_append, List.length_reverse]
    omega
  obtain ⟨r', hr', hm⟩ := drain_total (I := Marking D r iso (iso :: (prim ++ sec)))
    (μ := fun r => width D.fields (unmarkedObjects (iso :: (prim ++ sec)) r))
    (fun r' p stack hm => hm.step h) h.marking hwidth
  refine ⟨r', hr', hm.same, fun x hx hlive => ?_, fun x hx hdead => ?_, fun x hx => ?_⟩
  · have hne : x ≠ iso := fun heq => hnodup.2.1 (heq ▸ hx)
    obtain ⟨o, ho, hreach⟩ := hlive
    have hstart : o = iso ∨ r'.cls o = .marked := by
      rcases ho with ho | ho
      · exact Or.inl ho
      · by_cases hoiso : o = iso
        · exact Or.inl hoiso
        · exact Or.inr ((hm.roots o ho hoiso).resolve_right List.not_mem_nil)
    have hmem : o ∈ iso :: (prim ++ sec) := by
      rcases ho with rfl | ho
      · exact List.mem_cons_self
      · exact h.roots_mem o ho
    have hclosed : ∀ x, x ∈ iso :: (prim ++ sec) ∧ (x = iso ∨ r'.cls x = .marked) →
        ∀ y ∈ (D.fields x).filter (fun y => y ∈ iso :: (prim ++ sec)),
          y ∈ iso :: (prim ++ sec) ∧ (y = iso ∨ r'.cls y = .marked) := by
      rintro x ⟨hx, hx'⟩ y hy
      obtain ⟨hy, hy'⟩ := List.mem_filter.mp hy
      have hy' := of_decide_eq_true hy'
      refine ⟨hy', ?_⟩
      by_cases hyiso : y = iso
      · exact Or.inl hyiso
      · exact Or.inr ((hm.closed x hx hx' y hy hy' hyiso).resolve_right List.not_mem_nil)
    exact (Reaches.mem_of_closed
      (P := fun x => x ∈ iso :: (prim ++ sec) ∧ (x = iso ∨ r'.cls x = .marked)) hreach
      ⟨hmem, hstart⟩ hclosed).2.resolve_left hne
  · rcases hm.cls_eq x with hcls | ⟨-, -, -, hlive⟩
    · rw [hcls, h.cls_eq x hx]
    · exact absurd hlive hdead
  · rcases hm.cls_eq x with hcls | ⟨-, hmem, hne, -⟩
    · exact hcls
    · exact absurd ((List.mem_cons.mp hmem).resolve_left hne) hx

end VeronaRt.RegionTrace
