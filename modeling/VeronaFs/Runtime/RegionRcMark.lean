import VeronaFs.Runtime.RegionRc

/-!
# Subtracting and adding references

While a trace subtracts the references of the objects that it makes red, the count of an object is the
number of references to it that are held outside, those of the objects that are not red, and those that
are still on the stack.  While a trace adds them again it is that number without the ones on the stack.
The objects that are not red are the ones whose references are counted.
-/

namespace VeronaRt.RegionRc

open Foundation

variable {O : Type*} {r r' : RegionRc O} {iso o p f : O} {held : O → ℕ}
  {stack jumpStack : List O} {s : RegionRc O × List O} {fuel : ℕ}

/-! ## The region -/

/-- An object is reached through the references of the region. -/
def Reaches (r : RegionRc O) : O → O → Prop := Foundation.Reaches r.fields

/-- The objects whose references are counted. -/
def counting (r : RegionRc O) : Finset O := r.allocated.filter fun o => r.colour o ≠ .red

/-- The objects whose references are counted. -/
theorem mem_counting : o ∈ r.counting ↔ o ∈ r.allocated ∧ r.colour o ≠ .red := Finset.mem_filter

variable [DecidableEq O]

/-- The object is one of the region, and not the entry point of another one, immutable or shared. -/
def Inner (r : RegionRc O) (o : O) : Prop := (r.cls o).outer = false

/-- The classes and references of a region with an open entry point.  The objects of the region may
refer to entry points of other regions, to immutable objects and to shared ones, whose own references
are not part of the region. -/
structure Shaped (iso : O) (r : RegionRc O) : Prop where
  /-- The entry point is allocated. -/
  iso_mem : iso ∈ r.allocated
  /-- The entry point is open. -/
  cls_iso : r.cls iso = .openIso
  /-- The other objects are mutable and not marked, or they are not objects of the region. -/
  cls_other : ∀ o ∈ r.allocated, o ≠ iso → r.cls o = .unmarked ∨ (r.cls o).outer = true
  /-- All references are to objects that are allocated. -/
  fields_mem : ∀ o ∈ r.allocated, ∀ f ∈ r.fields o, f ∈ r.allocated
  /-- Only objects of the region have references. -/
  fields_outer : ∀ o ∈ r.allocated, (r.cls o).outer = true → r.fields o = []

/-- A region between collections, with the references that are held outside: every count is right. -/
structure Counted (iso : O) (held : O → ℕ) (r : RegionRc O) : Prop extends Shaped iso r where
  /-- A count is the number of references from objects and of those held outside. -/
  refCount_eq : ∀ o ∈ r.allocated, r.Inner o → r.refCount o = held o + refs r.fields r.allocated o
  /-- What is held is an object of the region. -/
  held_mem : ∀ o, 0 < held o → o ∈ r.allocated ∧ r.Inner o
  /-- No object is red. -/
  not_red : ∀ o ∈ r.allocated, r.colour o ≠ .red

/-- An open region between collections. -/
structure Open (iso : O) (held : O → ℕ) (r : RegionRc O) : Prop extends Counted iso held r where
  /-- The entry point is held by who has opened the region. -/
  held_iso : 0 < held iso

/-- Two states of a region with the same objects, to which nothing was done. -/
structure SameObjects (r r' : RegionRc O) : Prop where
  /-- The references are the same. -/
  fields_eq : r'.fields = r.fields
  /-- The finalisers are the same. -/
  finaliser_eq : r'.finaliser = r.finaliser
  /-- The allocated objects are the same. -/
  allocated_eq : r'.allocated = r.allocated
  /-- The classes are the same. -/
  cls_eq : r'.cls = r.cls
  /-- The Lins stack is the same. -/
  linsStack_eq : r'.linsStack = r.linsStack
  /-- Nothing was done to an object. -/
  events_eq : r'.events = r.events

omit [DecidableEq O] in
/-- A state has its own objects. -/
theorem SameObjects.refl (r : RegionRc O) : SameObjects r r := ⟨rfl, rfl, rfl, rfl, rfl, rfl⟩

/-- Counts do not matter. -/
theorem SameObjects.setRefCount (h : SameObjects r r') (o : O) (n : ℕ) :
    SameObjects r (r'.setRefCount o n) :=
  ⟨h.fields_eq, h.finaliser_eq, h.allocated_eq, h.cls_eq, h.linsStack_eq, h.events_eq⟩

/-- Colours do not matter. -/
theorem SameObjects.setRcColour (h : SameObjects r r') (o : O) (colour : RcColour) :
    SameObjects r (r'.setRcColour o colour) :=
  ⟨h.fields_eq, h.finaliser_eq, h.allocated_eq, h.cls_eq, h.linsStack_eq, h.events_eq⟩

/-- The colours do not change with a count. -/
@[simp] theorem colour_setRefCount (n : ℕ) : (r.setRefCount o n).colour = r.colour := rfl

/-- The counts do not change the colours. -/
@[simp] theorem counting_setRefCount (n : ℕ) : (r.setRefCount o n).counting = r.counting := rfl

/-- The references of a red object are not counted. -/
theorem counting_setRed : (r.setRcColour o .red).counting = r.counting.erase o := by
  ext x
  rw [Finset.mem_erase, mem_counting, mem_counting]
  simp only [RegionRc.setRcColour, Function.update_apply]
  by_cases hx : x = o <;> simp [hx]

/-- The references of a green object are counted. -/
theorem counting_setGreen (ho : o ∈ r.allocated) :
    (r.setRcColour o .green).counting = insert o r.counting := by
  ext x
  rw [Finset.mem_insert, mem_counting, mem_counting]
  simp only [RegionRc.setRcColour, Function.update_apply]
  by_cases hx : x = o <;> simp [hx, ho]

/-- A count that is written. -/
theorem refCount_setRefCount (n : ℕ) (x : O) :
    (r.setRefCount o n).refCount x = if x = o then n else r.refCount x := Function.update_apply ..

/-- A colour that is written. -/
theorem colour_setRcColour (colour : RcColour) (x : O) :
    (r.setRcColour o colour).colour x = if x = o then colour else r.colour x :=
  Function.update_apply ..

namespace Shaped

omit [DecidableEq O] in
/-- What an object of the region reaches is an object of the region. -/
theorem mem_of_reaches (h : Shaped iso r) (ho : o ∈ r.allocated) (hf : r.Reaches o f) :
    f ∈ r.allocated :=
  Foundation.Reaches.mem_of_closed hf ho h.fields_mem

omit [DecidableEq O] in
/-- The entry point is an object of the region. -/
theorem inner_iso (h : Shaped iso r) : r.Inner iso := by
  rw [Inner, h.cls_iso]
  rfl

/-- The class of an object of the region. -/
theorem cls_eq (h : Shaped iso r) (ho : o ∈ r.allocated) (hin : r.Inner o) :
    r.cls o = if o = iso then .openIso else .unmarked := by
  split
  · next heq => rw [heq, h.cls_iso]
  · next hne => exact (h.cls_other o ho hne).resolve_right (by simp [show _ = false from hin])

/-- The counts of all objects of the region can be read, also in another state with the same
objects. -/
theorem hasRefCount (h : Shaped iso r) (hsame : SameObjects r r') (ho : o ∈ r.allocated)
    (hin : r.Inner o) : r'.hasRefCount o = true := by
  rw [RegionRc.hasRefCount, hsame.allocated_eq, hsame.cls_eq, h.cls_eq ho hin]
  split <;> simp [ho]

/-- The candidates are the objects other than the entry point. -/
theorem isRcCandidate (h : Shaped iso r) (hsame : SameObjects r r') (ho : o ∈ r.allocated)
    (hin : r.Inner o) : r'.isRcCandidate o = decide (o ≠ iso) := by
  rw [RegionRc.isRcCandidate, hsame.cls_eq, h.cls_eq ho hin]
  by_cases heq : o = iso <;> simp [heq]

omit [DecidableEq O] in
/-- No object of the region is a closed entry point. -/
theorem cls_ne_iso (hsame : SameObjects r r') (hin : r.Inner o) : r'.cls o ≠ .iso := by
  rw [hsame.cls_eq]
  intro heq
  rw [Inner, heq] at hin
  cases hin

omit [DecidableEq O] in
/-- What has references is an object of the region. -/
theorem inner_of_mem_fields (h : Shaped iso r) (ho : o ∈ r.allocated) (hf : f ∈ r.fields o) :
    r.Inner o := by
  by_contra hout
  rw [h.fields_outer o ho (Bool.eq_true_of_not_eq_false hout)] at hf
  exact List.not_mem_nil hf

end Shaped

omit [DecidableEq O] in
/-- Where the objects are the same, the region has the same shape. -/
theorem Shaped.of_eq (h : Shaped iso r) (hallocated : r'.allocated = r.allocated)
    (hfields : r'.fields = r.fields) (hcls : r'.cls = r.cls) : Shaped iso r' := by
  obtain ⟨hiso, hclsIso, hother, hmem, houter⟩ := h
  simp only [← hallocated, ← hfields, ← hcls] at *
  exact ⟨hiso, hclsIso, hother, hmem, houter⟩

/-- Where the objects, counts and colours are the same, every count is right. -/
theorem Counted.of_eq (h : Counted iso held r) (hallocated : r'.allocated = r.allocated)
    (hfields : r'.fields = r.fields) (hcls : r'.cls = r.cls) (hcounts : r'.refCount = r.refCount)
    (hcolour : r'.colour = r.colour) : Counted iso held r' := by
  obtain ⟨⟨hiso, hclsIso, hother, hmem, houter⟩, hcount, hheld, hred⟩ := h
  simp only [← hallocated, ← hfields, ← hcls, ← hcounts, ← hcolour, Inner] at *
  exact ⟨⟨hiso, hclsIso, hother, hmem, houter⟩, hcount, hheld, hred⟩

/-- Every count is right when a reference from outside is given back. -/
theorem Counted.decref (h : Counted iso held r) (ho : 0 < held o) :
    Counted iso (Function.update held o (held o - 1)) (r.setRefCount o (r.refCount o - 1)) := by
  have hle (x : O) (hx : 0 < Function.update held o (held o - 1) x) : 0 < held x := by
    rw [Function.update_apply] at hx
    split at hx
    · next heq =>
      rw [heq]
      exact ho
    · exact hx
  refine ⟨⟨h.iso_mem, h.cls_iso, h.cls_other, h.fields_mem, h.fields_outer⟩, fun x hx hin => ?_,
    fun x hx => h.held_mem x (hle x hx), h.not_red⟩
  have hcount := h.refCount_eq x hx hin
  change _ = _ + refs r.fields r.allocated x
  rw [refCount_setRefCount, Function.update_apply]
  split
  · next heq =>
    subst heq
    omega
  · exact hcount

/-! ## Subtracting -/

/-- What the object reaches is an object of the region or the entry point of another one.  The counts
of immutable and of shared objects are not those that a collection of cycles changes. -/
def ReachesMutable (r : RegionRc O) (p : O) : Prop :=
  ∀ x, r.Reaches p x → r.Inner x ∨ r.cls x = .iso

/-- The invariant of `markRed` from a candidate. -/
structure Marking (r : RegionRc O) (held : O → ℕ) (p : O) (s : RegionRc O × List O)
    (stack : List O) : Prop where
  /-- Only counts and colours change. -/
  same : SameObjects r s.1
  /-- The references on the stack are not yet subtracted. -/
  refCount_eq : ∀ y ∈ r.allocated, r.Inner y →
    s.1.refCount y = held y + stack.count y + refs r.fields s.1.counting y
  /-- The candidate reaches what is on the stack. -/
  stack_reaches : ∀ y ∈ stack, r.Reaches p y
  /-- The candidate reaches what is red. -/
  red_reaches : ∀ x ∈ r.allocated, s.1.colour x = .red → r.Reaches p x
  /-- What is red is an object of the region. -/
  red_inner : ∀ x ∈ r.allocated, s.1.colour x = .red → r.Inner x
  /-- The candidate is red. -/
  red : s.1.colour p = .red
  /-- What a red object refers to is red or on the stack, if it is an object of the region. -/
  closed : ∀ x ∈ r.allocated, s.1.colour x = .red → ∀ y ∈ r.fields x, r.Inner y →
    s.1.colour y = .red ∨ y ∈ stack
  /-- The other colours do not change. -/
  colour_eq : ∀ x, ¬ r.Reaches p x → s.1.colour x = r.colour x
  /-- The jump stack has objects of the region. -/
  jump_mem : ∀ y ∈ s.2, y ∈ r.allocated ∧ r.Inner y
  /-- A red object whose count is left is on the jump stack. -/
  jump : ∀ y ∈ r.allocated, s.1.colour y = .red → y ≠ p → 0 < s.1.refCount y → y ∈ s.2

/-- The trace starts with the references of the candidate. -/
theorem Open.marking (h : Open iso held r) (hp : p ∈ r.allocated) (hin : r.Inner p)
    (hjump : ∀ y ∈ jumpStack, y ∈ r.allocated ∧ r.Inner y) :
    Marking r held p (r.setRcColour p .red, jumpStack) (r.fields p) := by
  have hcounting : r.counting = r.allocated :=
    Finset.filter_true_of_mem h.not_red
  have hred {x : O} (hx : x ∈ r.allocated) (hcolour : (r.setRcColour p .red).colour x = .red) :
      x = p := by
    rw [colour_setRcColour] at hcolour
    by_contra hne
    rw [if_neg hne] at hcolour
    exact h.not_red x hx hcolour
  have hp' : (r.setRcColour p .red).colour p = .red := by
    rw [colour_setRcColour, if_pos rfl]
  refine ⟨(SameObjects.refl r).setRcColour p .red, fun y hy hy' => ?_, fun y hy => ?_,
    fun x hx hcolour => ?_, fun x hx hcolour => ?_, hp', fun x hx hcolour y hy _ => Or.inr ?_,
    fun x hx => ?_, hjump, fun y hy hcolour hne => absurd (hred hy hcolour) hne⟩
  · change r.refCount y = _
    have herase := refs_erase r.fields hp y
    rw [h.refCount_eq y hy hy', counting_setRed, hcounting]
    omega
  · exact Foundation.Reaches.tail Relation.ReflTransGen.refl hy
  · rw [hred hx hcolour]
    exact Relation.ReflTransGen.refl
  · rw [hred hx hcolour]
    exact hin
  · rwa [hred hx hcolour] at hy
  · rw [colour_setRcColour, if_neg]
    rintro rfl
    exact hx Relation.ReflTransGen.refl

/-- A pop of `markRed` keeps the invariant. -/
theorem Marking.step (h : Open iso held r) (hp : p ∈ r.allocated) (hin : r.Inner p) (hne : p ≠ iso)
    (hplain : r.ReachesMutable p) (hm : Marking r held p s (f :: stack)) :
    ∃ s' pushed, markRedStep p s f = some (s', pushed) ∧ Marking r held p s' (pushed ++ stack) ∧
      width r.fields s'.1.counting + pushed.length ≤ width r.fields s.1.counting := by
  obtain ⟨r₁, jumpStack⟩ := s
  have hreach : r.Reaches p f := hm.stack_reaches f List.mem_cons_self
  have hf : f ∈ r.allocated := h.mem_of_reaches hp hreach
  have hcandidate : r₁.isRcCandidate p = true := by
    rw [h.isRcCandidate hm.same hp hin, decide_eq_true hne]
  by_cases hcls : r.cls f = .iso
  · -- The entry point of another region.
    have hout : ¬ r.Inner f := fun hin' => Shaped.cls_ne_iso (SameObjects.refl r) hin' hcls
    have hskip {y : O} (hy : r.Inner y) : f ≠ y := fun heq => hout (heq ▸ hy)
    rw [markRedStep, if_pos (Or.inr (by rw [hm.same.cls_eq]; exact hcls))]
    refine ⟨_, _, rfl, { hm with
      refCount_eq := fun y hy hy' => ?_
      stack_reaches := fun y hy => hm.stack_reaches y (List.mem_cons_of_mem f hy)
      closed := fun x hx hcolour y hy hy' => ?_ }, le_rfl⟩
    · have heq := hm.refCount_eq y hy hy'
      rwa [List.count_cons_of_ne (hskip hy')] at heq
    · refine (hm.closed x hx hcolour y hy hy').imp_right fun hmem => ?_
      exact (List.mem_cons.mp hmem).resolve_left (Ne.symm (hskip hy'))
  have hin' : r.Inner f := (hplain f hreach).resolve_right hcls
  have hcount {y : O} (hy : y ∈ r.allocated) (hy' : r.Inner y) :
      (r₁.setRefCount f (r₁.refCount f - 1)).refCount y =
        held y + stack.count y + refs r.fields r₁.counting y := by
    have hbefore := hm.refCount_eq y hy hy'
    rw [List.count_cons] at hbefore
    rw [refCount_setRefCount]
    by_cases hyf : y = f
    · subst hyf
      simp only [beq_self_eq_true, if_true] at hbefore ⊢
      omega
    · have hfy : (f == y) = false := beq_false_of_ne (Ne.symm hyf)
      simp only [hfy, Bool.false_eq_true, if_false] at hbefore
      rw [if_neg hyf]
      omega
  have hle (y : O) : (r₁.setRefCount f (r₁.refCount f - 1)).refCount y ≤ r₁.refCount y := by
    rw [refCount_setRefCount]
    split
    · next heq =>
      rw [heq]
      exact Nat.sub_le ..
    · exact le_rfl
  have hfields : (r₁.setRefCount f (r₁.refCount f - 1)).fields f = r.fields f :=
    congrFun hm.same.fields_eq f
  rw [markRedStep, if_neg (by simp [hcandidate, Shaped.cls_ne_iso hm.same hin']), decrefInner,
    if_pos (h.hasRefCount hm.same hf hin'), Option.map_some]
  simp only [colour_setRefCount]
  by_cases hred : r₁.colour f = .red
  · rw [if_pos hred]
    refine ⟨_, _, rfl, ⟨hm.same.setRefCount .., fun y hy hy' => ?_, ?_, hm.red_reaches, hm.red_inner,
      hm.red, ?_, hm.colour_eq, hm.jump_mem, ?_⟩, le_rfl⟩
    · exact hcount hy hy'
    · exact fun y hy => hm.stack_reaches y (List.mem_cons_of_mem f hy)
    · intro x hx hcolour y hy hy'
      rcases hm.closed x hx hcolour y hy hy' with hy | hy
      · exact Or.inl hy
      · rcases List.mem_cons.mp hy with rfl | hy
        · exact Or.inl hred
        · exact Or.inr hy
    · exact fun y hy hcolour hyp hpos => hm.jump y hy hcolour hyp (hpos.trans_le (hle y))
  · rw [if_neg hred]
    have hfp : f ≠ p := fun heq => hred (heq ▸ hm.red)
    have hmem : f ∈ r₁.counting := by
      rw [mem_counting, hm.same.allocated_eq]
      exact ⟨hf, hred⟩
    refine ⟨_, _, rfl, ⟨(hm.same.setRefCount ..).setRcColour .., fun y hy hy' => ?_, ?_, ?_, ?_, ?_,
      ?_, ?_, ?_, ?_⟩, ?_⟩
    · have herase := refs_erase r.fields hmem y
      rw [counting_setRed, counting_setRefCount, hfields, List.count_append]
      have hy'' := hcount hy hy'
      change (r₁.setRefCount f (r₁.refCount f - 1)).refCount y = _
      omega
    · intro y hy
      rw [hfields] at hy
      rcases List.mem_append.mp hy with hy | hy
      · exact hreach.tail hy
      · exact hm.stack_reaches y (List.mem_cons_of_mem f hy)
    · intro x hx hcolour
      rw [colour_setRcColour] at hcolour
      by_cases hxf : x = f
      · rw [hxf]
        exact hreach
      · rw [if_neg hxf] at hcolour
        exact hm.red_reaches x hx hcolour
    · intro x hx hcolour
      rw [colour_setRcColour] at hcolour
      by_cases hxf : x = f
      · rw [hxf]
        exact hin'
      · rw [if_neg hxf] at hcolour
        exact hm.red_inner x hx hcolour
    · rw [colour_setRcColour, if_neg (Ne.symm hfp)]
      exact hm.red
    · intro x hx hcolour y hy hy'
      rw [colour_setRcColour] at hcolour ⊢
      by_cases hyf : y = f
      · exact Or.inl (if_pos hyf)
      · rw [if_neg hyf, hfields]
        by_cases hxf : x = f
        · exact Or.inr (List.mem_append_left _ (hxf ▸ hy))
        · rw [if_neg hxf] at hcolour
          refine (hm.closed x hx hcolour y hy hy').imp_right fun hy => ?_
          exact List.mem_append_right _ ((List.mem_cons.mp hy).resolve_left hyf)
    · intro x hx
      rw [colour_setRcColour, if_neg fun hxf : x = f => hx (hxf ▸ hreach)]
      exact hm.colour_eq x hx
    · intro y hy
      change y ∈ ite _ _ _ at hy
      split at hy
      · rcases List.mem_cons.mp hy with rfl | hy
        · exact ⟨hf, hin'⟩
        · exact hm.jump_mem y hy
      · exact hm.jump_mem y hy
    · intro y hy hcolour hyp hpos
      change y ∈ ite _ _ _
      rw [colour_setRcColour] at hcolour
      by_cases hyf : y = f
      · subst hyf
        have hleft : 0 < (r₁.setRefCount y (r₁.refCount y - 1)).refCount y := hpos
        rw [if_pos hleft]
        exact List.mem_cons_self
      · rw [if_neg hyf] at hcolour
        have hmem := hm.jump y hy hcolour hyp (hpos.trans_le (hle y))
        split
        · exact List.mem_cons_of_mem f hmem
        · exact hmem
    · rw [counting_setRed, counting_setRefCount, hfields]
      exact (width_erase r.fields hmem).le

/-- `markRed` subtracts the references of everything that the candidate reaches. -/
theorem markRed_spec (h : Open iso held r) (hp : p ∈ r.allocated) (hin : r.Inner p) (hne : p ≠ iso)
    (hplain : r.ReachesMutable p) (hjump : ∀ y ∈ jumpStack, y ∈ r.allocated ∧ r.Inner y)
    (hfuel : width r.fields r.allocated ≤ fuel) :
    ∃ s, markRed fuel r p jumpStack = some s ∧ Marking r held p s [] := by
  have hstart := h.marking hp hin hjump
  have hcandidate : r.isRcCandidate p = true := by
    rw [h.isRcCandidate (SameObjects.refl r) hp hin, decide_eq_true hne]
  have hwidth : width r.fields (r.setRcColour p .red).counting + (r.fields p).length ≤ fuel := by
    have hcounting : r.counting = r.allocated := Finset.filter_true_of_mem h.not_red
    have herase := width_erase r.fields hp
    rw [counting_setRed, hcounting]
    omega
  obtain ⟨s, hs, hm⟩ := drain_total (I := Marking r held p)
    (μ := fun s => width r.fields s.1.counting) (fun s f stack hm => hm.step h hp hin hne hplain) hstart hwidth
  refine ⟨s, ?_, hm⟩
  rw [markRed, if_neg (by simp [hcandidate])]
  exact hs

/-- Every object of the region that the candidate reaches is red, and nothing else. -/
theorem Marking.red_iff (h : Open iso held r) (hp : p ∈ r.allocated) (hm : Marking r held p s []) :
    ∀ x ∈ r.allocated, s.1.colour x = .red ↔ r.Reaches p x ∧ r.Inner x := by
  intro x hx
  refine ⟨fun hred => ⟨hm.red_reaches x hx hred, hm.red_inner x hx hred⟩, fun ⟨hreach, hin⟩ => ?_⟩
  have hclosed : ∀ x, x ∈ r.allocated ∧ (r.Inner x → s.1.colour x = .red) → ∀ y ∈ r.fields x,
      y ∈ r.allocated ∧ (r.Inner y → s.1.colour y = .red) := fun x hx y hy =>
    ⟨h.fields_mem x hx.1 y hy, fun hy' => (hm.closed x hx.1 (hx.2 (h.inner_of_mem_fields hx.1 hy)) y hy
      hy').resolve_right List.not_mem_nil⟩
  exact (Foundation.Reaches.mem_of_closed
    (P := fun x => x ∈ r.allocated ∧ (r.Inner x → s.1.colour x = .red)) hreach
    ⟨hp, fun _ => hm.red⟩ hclosed).2 hin

/-- The counts that are left are those of the objects that are held outside or that an object refers to
which the candidate does not reach. -/
theorem Marking.pos_iff (h : Open iso held r) (hp : p ∈ r.allocated) (hm : Marking r held p s [])
    (hf : f ∈ r.allocated) (hin : r.Inner f) :
    0 < s.1.refCount f ↔ 0 < held f ∨ ∃ z ∈ r.allocated, ¬ r.Reaches p z ∧ f ∈ r.fields z := by
  have hcount := hm.refCount_eq f hf hin
  rw [List.count_nil, Nat.add_zero] at hcount
  rw [hcount, Nat.add_pos_iff_pos_or_pos, refs_pos_iff]
  refine or_congr_right (exists_congr fun z => ?_)
  rw [mem_counting, hm.same.allocated_eq]
  constructor
  · rintro ⟨⟨hz, hcolour⟩, hfz⟩
    exact ⟨hz, fun hreach =>
      hcolour ((hm.red_iff h hp z hz).mpr ⟨hreach, h.inner_of_mem_fields hz hfz⟩), hfz⟩
  · rintro ⟨hz, hreach, hfz⟩
    exact ⟨⟨hz, fun hred => hreach ((hm.red_iff h hp z hz).mp hred).1⟩, hfz⟩

/-! ## Adding -/

/-- The object is reached from one that the candidate reaches, and whose count is left. -/
def Sourced (r : RegionRc O) (p : O) (left : O → ℕ) (x : O) : Prop :=
  ∃ y, r.Reaches p y ∧ r.Reaches y x ∧ r.Inner y ∧ 0 < left y

/-- The invariant of `restoreGreen` when the trace of the candidate `p` has left the counts `left`.  The
references of `owed` are not yet added, and the objects of `pending` not yet made green. -/
structure Restoring (r : RegionRc O) (iso : O) (held : O → ℕ) (p : O) (left : O → ℕ)
    (r' : RegionRc O) (owed pending : List O) : Prop where
  /-- Only counts and colours change. -/
  same : SameObjects r r'
  /-- What is owed is not yet added. -/
  refCount_eq : ∀ y ∈ r.allocated, r.Inner y →
    r'.refCount y + owed.count y = held y + refs r.fields r'.counting y
  /-- The candidate reaches what is owed. -/
  owed_reaches : ∀ y ∈ owed, r.Reaches p y
  /-- The candidate reaches what is red. -/
  red_reaches : ∀ x ∈ r.allocated, r'.colour x = .red → r.Reaches p x
  /-- What is red is an object of the region. -/
  red_inner : ∀ x ∈ r.allocated, r'.colour x = .red → r.Inner x
  /-- What the candidate reaches is red or green. -/
  green : ∀ x ∈ r.allocated, r.Inner x → r.Reaches p x → r'.colour x ≠ .red → r'.colour x = .green
  /-- What a green object refers to is not red, is pending, or is the entry point. -/
  closed : ∀ x ∈ r.allocated, r.Reaches p x → r'.colour x ≠ .red →
    ∀ y ∈ r.fields x, r'.colour y ≠ .red ∨ y ∈ pending ∨ y = iso
  /-- A green object has a reference. -/
  pos : ∀ x ∈ r.allocated, r.Inner x → r.Reaches p x → r'.colour x ≠ .red → 0 < r'.refCount x
  /-- Counts only grow. -/
  left_le : ∀ x, left x ≤ r'.refCount x
  /-- The other colours do not change. -/
  colour_eq : ∀ x, ¬ r.Reaches p x → r'.colour x = r.colour x
  /-- What is owed is reached from an object whose count is left. -/
  owed_sourced : ∀ y ∈ owed, Sourced r p left y
  /-- What is green is reached from an object whose count is left. -/
  sourced : ∀ x ∈ r.allocated, r.Inner x → r.Reaches p x → r'.colour x ≠ .red → Sourced r p left x
  /-- What an object refers to that the candidate does not reach has a count that is left, and so has
  what is held outside. -/
  left_pos : ∀ y ∈ r.allocated, r.Inner y →
    (0 < held y ∨ ∃ z ∈ r.allocated, ¬ r.Reaches p z ∧ y ∈ r.fields z) → 0 < left y

variable {left : O → ℕ}

/-- No reference is added yet. -/
theorem Marking.restoring (h : Open iso held r) (hp : p ∈ r.allocated)
    (hm : Marking r held p s []) : Restoring r iso held p s.1.refCount s.1 [] [] where
  same := hm.same
  refCount_eq := fun y hy hy' => by
    have heq := hm.refCount_eq y hy hy'
    simpa using heq
  owed_reaches := fun y hy => absurd hy List.not_mem_nil
  red_reaches := hm.red_reaches
  red_inner := hm.red_inner
  green := fun x hx hin hreach hcolour => absurd ((hm.red_iff h hp x hx).mpr ⟨hreach, hin⟩) hcolour
  closed := fun x hx hreach hcolour y hy =>
    absurd ((hm.red_iff h hp x hx).mpr ⟨hreach, h.inner_of_mem_fields hx hy⟩) hcolour
  pos := fun x hx hin hreach hcolour => absurd ((hm.red_iff h hp x hx).mpr ⟨hreach, hin⟩) hcolour
  left_le := fun _ => le_rfl
  colour_eq := hm.colour_eq
  owed_sourced := fun y hy => absurd hy List.not_mem_nil
  sourced := fun x hx hin hreach hcolour => absurd ((hm.red_iff h hp x hx).mpr ⟨hreach, hin⟩) hcolour
  left_pos := fun _ hy hin => (hm.pos_iff h hp hy hin).mpr

/-- An object that is not red is not red when another one becomes green. -/
theorem not_red_setGreen {x : O} (hx : r'.colour x ≠ .red) :
    (r'.setRcColour f .green).colour x ≠ .red := by
  rw [colour_setRcColour]
  split
  · decide
  · exact hx

/-- An object that becomes green is not red. -/
theorem not_red_setGreen_self : (r'.setRcColour f .green).colour f ≠ .red := by
  rw [colour_setRcColour, if_pos rfl]
  decide

namespace Restoring

/-- A reference that is owed is added. -/
theorem incref (h : Restoring r iso held p left r' (f :: stack) (f :: stack)) :
    Restoring r iso held p left (r'.setRefCount f (r'.refCount f + 1)) stack (f :: stack) := by
  have hle (y : O) : r'.refCount y ≤ (r'.setRefCount f (r'.refCount f + 1)).refCount y := by
    rw [refCount_setRefCount]
    split
    · next heq =>
      rw [heq]
      exact Nat.le_succ _
    · exact le_rfl
  refine ⟨h.same.setRefCount .., fun y hy hy' => ?_, fun y hy => ?_, h.red_reaches, h.red_inner,
    h.green, h.closed, fun x hx hin hx' hcolour => ?_, fun x => ?_, h.colour_eq,
    fun y hy => h.owed_sourced y (List.mem_cons_of_mem f hy), h.sourced, h.left_pos⟩
  · have hbefore := h.refCount_eq y hy hy'
    rw [List.count_cons] at hbefore
    rw [counting_setRefCount, refCount_setRefCount]
    by_cases hyf : y = f
    · subst hyf
      simp only [beq_self_eq_true, if_true] at hbefore ⊢
      omega
    · have hfy : (f == y) = false := beq_false_of_ne (Ne.symm hyf)
      simp only [hfy, Bool.false_eq_true, if_false] at hbefore
      rw [if_neg hyf]
      omega
  · exact h.owed_reaches y (List.mem_cons_of_mem f hy)
  · exact (h.pos x hx hin hx' hcolour).trans_le (hle x)
  · exact (h.left_le x).trans (hle x)

/-- An object that is not to be made green is not pending. -/
theorem skip {owed : List O} (h : Restoring r iso held p left r' owed (f :: stack))
    (hf : r'.colour f ≠ .red ∨ f = iso) : Restoring r iso held p left r' owed stack := by
  refine { h with closed := fun x hx hx' hcolour y hy => ?_ }
  rcases h.closed x hx hx' hcolour y hy with hy | hy | hy
  · exact Or.inl hy
  · rcases List.mem_cons.mp hy with rfl | hy
    · exact hf.imp_right Or.inr
    · exact Or.inr (Or.inl hy)
  · exact Or.inr (Or.inr hy)

/-- A red object with a count becomes green, and its references are owed. -/
theorem setGreen (h : Restoring r iso held p left r' stack (f :: stack)) (hf : f ∈ r.allocated)
    (hred : r'.colour f = .red) (hpos : 0 < r'.refCount f) (hsourced : Sourced r p left f) :
    Restoring r iso held p left (r'.setRcColour f .green) (r.fields f ++ stack)
      (r.fields f ++ stack) := by
  have hreach := h.red_reaches f hf hred
  have hout : f ∉ r'.counting := fun hmem => (mem_counting.mp hmem).2 hred
  have hf' : f ∈ r'.allocated := h.same.allocated_eq ▸ hf
  have hnotRed {x : O} (hx : (r'.setRcColour f .green).colour x ≠ .red) :
      x = f ∨ r'.colour x ≠ .red := by
    rw [colour_setRcColour] at hx
    by_cases hxf : x = f
    · exact Or.inl hxf
    · exact Or.inr (by rwa [if_neg hxf] at hx)
  refine ⟨h.same.setRcColour .., fun y hy hy' => ?_, fun y hy => ?_, fun x hx hcolour => ?_,
    fun x hx hcolour => ?_, fun x hx hin hx' hcolour => ?_, fun x hx hx' hcolour y hy => ?_,
    fun x hx hin hx' hcolour => ?_, h.left_le, fun x hx => ?_, fun y hy => ?_,
    fun x hx hin hx' hcolour => ?_, h.left_pos⟩
  · have heq := h.refCount_eq y hy hy'
    have hinsert := refs_insert r.fields hout y
    rw [counting_setGreen hf', hinsert, List.count_append]
    change r'.refCount y + _ = _
    omega
  · rcases List.mem_append.mp hy with hy | hy
    · exact hreach.tail hy
    · exact h.owed_reaches y hy
  · refine h.red_reaches x hx ?_
    by_contra hne
    exact not_red_setGreen hne hcolour
  · refine h.red_inner x hx ?_
    by_contra hne
    exact not_red_setGreen hne hcolour
  · rw [colour_setRcColour]
    split
    · rfl
    · next hxf => exact h.green x hx hin hx' ((hnotRed hcolour).resolve_left hxf)
  · rcases hnotRed hcolour with rfl | hx''
    · exact Or.inr (Or.inl (List.mem_append_left _ hy))
    · rcases h.closed x hx hx' hx'' y hy with hy | hy | hy
      · exact Or.inl (not_red_setGreen hy)
      · rcases List.mem_cons.mp hy with rfl | hy
        · exact Or.inl not_red_setGreen_self
        · exact Or.inr (Or.inl (List.mem_append_right _ hy))
      · exact Or.inr (Or.inr hy)
  · rcases hnotRed hcolour with rfl | hx''
    · exact hpos
    · exact h.pos x hx hin hx' hx''
  · rw [colour_setRcColour, if_neg fun hxf : x = f => hx (hxf ▸ hreach)]
    exact h.colour_eq x hx
  · rcases List.mem_append.mp hy with hy | hy
    · obtain ⟨z, hpz, hzf, hz⟩ := hsourced
      exact ⟨z, hpz, hzf.tail hy, hz⟩
    · exact h.owed_sourced y hy
  · rcases hnotRed hcolour with rfl | hx''
    · exact hsourced
    · exact h.sourced x hx hin hx' hx''

/-- What has a count while nothing is owed is reached from an object whose count is left. -/
theorem sourced_of_pos (h : Open iso held r) (hr : Restoring r iso held p left r' [] stack)
    (hf : f ∈ r.allocated) (hin : r.Inner f) (hreach : r.Reaches p f) (hpos : 0 < r'.refCount f) :
    Sourced r p left f := by
  have hself (hleft : 0 < left f) : Sourced r p left f :=
    ⟨f, hreach, Relation.ReflTransGen.refl, hin, hleft⟩
  have hcount := hr.refCount_eq f hf hin
  rw [List.count_nil, Nat.add_zero] at hcount
  rw [hcount, Nat.add_pos_iff_pos_or_pos, refs_pos_iff] at hpos
  rcases hpos with hheld | ⟨z, hz, hfz⟩
  · exact hself (hr.left_pos f hf hin (Or.inl hheld))
  · rw [mem_counting, hr.same.allocated_eq] at hz
    obtain ⟨hz, hcolour⟩ := hz
    by_cases hpz : r.Reaches p z
    · obtain ⟨y, hpy, hyz, hy⟩ := hr.sourced z hz (h.inner_of_mem_fields hz hfz) hpz hcolour
      exact ⟨y, hpy, hyz.tail hfz, hy⟩
    · exact hself (hr.left_pos f hf hin (Or.inr ⟨z, hz, hpz, hfz⟩))

/-- A pop of `restoreGreen` keeps the invariant. -/
theorem step (h : Open iso held r) (hp : p ∈ r.allocated) (hplain : r.ReachesMutable p)
    (hr : Restoring r iso held p left r' (f :: stack) (f :: stack)) :
    ∃ r'' pushed, restoreGreenStep r' f = some (r'', pushed) ∧
      (Restoring r iso held p left r'' (pushed ++ stack) (pushed ++ stack) ∧
        ∀ x, r'.colour x ≠ .red → r''.colour x ≠ .red) ∧
      width r.fields (r.allocated \ r''.counting) + pushed.length ≤
        width r.fields (r.allocated \ r'.counting) := by
  have hreach : r.Reaches p f := hr.owed_reaches f List.mem_cons_self
  have hf : f ∈ r.allocated := h.mem_of_reaches hp hreach
  by_cases hcls : r.cls f = .iso
  · -- The entry point of another region.
    have hout : ¬ r.Inner f := fun hin => Shaped.cls_ne_iso (SameObjects.refl r) hin hcls
    rw [restoreGreenStep, if_pos (by rw [hr.same.cls_eq]; exact hcls)]
    refine ⟨r', [], rfl, ⟨?_, fun _ hx => hx⟩, le_rfl⟩
    refine { hr.skip (Or.inl fun hred => hout (hr.red_inner f hf hred)) with
      refCount_eq := fun y hy hy' => ?_
      owed_reaches := fun y hy => hr.owed_reaches y (List.mem_cons_of_mem f hy)
      owed_sourced := fun y hy => hr.owed_sourced y (List.mem_cons_of_mem f hy) }
    have heq := hr.refCount_eq y hy hy'
    rwa [List.count_cons_of_ne fun heq : f = y => hout (heq ▸ hy')] at heq
  have hin : r.Inner f := (hplain f hreach).resolve_right hcls
  have hnext := hr.incref
  have hpos : 0 < (r'.setRefCount f (r'.refCount f + 1)).refCount f := by
    rw [refCount_setRefCount, if_pos rfl]
    exact Nat.succ_pos _
  have hcandidate : (r'.setRefCount f (r'.refCount f + 1)).isRcCandidate f = decide (f ≠ iso) :=
    h.isRcCandidate hnext.same hf hin
  have hfields : (r'.setRefCount f (r'.refCount f + 1)).fields f = r.fields f :=
    congrFun hnext.same.fields_eq f
  rw [restoreGreenStep, if_neg (Shaped.cls_ne_iso hr.same hin), RegionRc.incref,
    if_pos (h.hasRefCount hr.same hf hin), Option.map_some]
  simp only [hcandidate, colour_setRefCount, decide_eq_true_eq]
  by_cases hgreen : f ≠ iso ∧ r'.colour f ≠ .green
  · rw [if_pos hgreen, hfields]
    have hred : r'.colour f = .red := by
      by_contra hne
      exact hgreen.2 (hr.green f hf hin hreach hne)
    have hmem : f ∈ r.allocated \ r'.counting :=
      Finset.mem_sdiff.mpr ⟨hf, fun hmem => (mem_counting.mp hmem).2 hred⟩
    have hf' : f ∈ (r'.setRefCount f (r'.refCount f + 1)).allocated := by
      rw [hnext.same.allocated_eq]
      exact hf
    refine ⟨_, _, rfl, ⟨hnext.setGreen hf hred hpos (hr.owed_sourced f List.mem_cons_self),
      fun _ => not_red_setGreen⟩, ?_⟩
    rw [counting_setGreen hf', counting_setRefCount, Finset.sdiff_insert]
    exact (width_erase r.fields hmem).le
  · rw [if_neg hgreen]
    refine ⟨_, _, rfl, ⟨hnext.skip ?_, fun _ hx => hx⟩, le_rfl⟩
    by_cases hiso : f = iso
    · exact Or.inr hiso
    · left
      have hcolour : r'.colour f = .green := by
        by_contra hne
        exact hgreen ⟨hiso, hne⟩
      rw [colour_setRefCount, hcolour]
      decide

/-- `restoreGreen` adds the references of a red object, and of all that becomes green. -/
theorem restoreGreen_spec (h : Open iso held r) (hp : p ∈ r.allocated) (hplain : r.ReachesMutable p)
    (hr : Restoring r iso held p left r' [] []) (hf : f ∈ r.allocated) (hred : r'.colour f = .red)
    (hpos : 0 < r'.refCount f) (hfuel : width r.fields r.allocated ≤ fuel) :
    ∃ r'', restoreGreen fuel r' f = some r'' ∧ Restoring r iso held p left r'' [] [] ∧
      r''.colour f ≠ .red ∧ ∀ x, r'.colour x ≠ .red → r''.colour x ≠ .red := by
  have hclosed : ∀ x ∈ r.allocated, r.Reaches p x → r'.colour x ≠ .red →
      ∀ y ∈ r.fields x, r'.colour y ≠ .red ∨ y ∈ [f] ∨ y = iso := fun x hx hx' hcolour y hy =>
    (hr.closed x hx hx' hcolour y hy).imp_right fun hy => Or.inr (hy.resolve_left List.not_mem_nil)
  have hpending : Restoring r iso held p left r' [] [f] := { hr with closed := hclosed }
  have hstart := hpending.setGreen hf hred hpos (hr.sourced_of_pos h hf (hr.red_inner f hf hred)
    (hr.red_reaches f hf hred) hpos)
  rw [List.append_nil] at hstart
  have hwidth : width r.fields (r.allocated \ (r'.setRcColour f .green).counting) +
      (r.fields f).length ≤ fuel := by
    have hf' : f ∈ r'.allocated := by
      rw [hr.same.allocated_eq]
      exact hf
    have hmem : f ∈ r.allocated \ r'.counting :=
      Finset.mem_sdiff.mpr ⟨hf, fun hmem => (mem_counting.mp hmem).2 hred⟩
    rw [counting_setGreen hf', Finset.sdiff_insert, width_erase r.fields hmem]
    exact (width_mono Finset.sdiff_subset).trans hfuel
  obtain ⟨r'', hr'', ⟨hrest, hkeep⟩⟩ := drain_total
    (I := fun r'' stack => Restoring r iso held p left r'' stack stack ∧
      ∀ x, (r'.setRcColour f .green).colour x ≠ .red → r''.colour x ≠ .red)
    (μ := fun r'' => width r.fields (r.allocated \ r''.counting))
    (fun s x stack hs => by
      obtain ⟨s', pushed, hs', ⟨hrest, hkeep⟩, hle⟩ := hs.1.step h hp hplain
      exact ⟨s', pushed, hs', ⟨hrest, fun y hy => hkeep y (hs.2 y hy)⟩, hle⟩)
    ⟨hstart, fun _ hx => hx⟩ hwidth
  refine ⟨r'', ?_, hrest, hkeep f not_red_setGreen_self, fun x hx => hkeep x (not_red_setGreen hx)⟩
  rw [restoreGreen, congrFun hr.same.fields_eq f]
  exact hr''

end Restoring

end VeronaRt.RegionRc
