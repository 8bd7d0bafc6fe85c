import VeronaFs.Runtime.RegionRcOutsideRuns

/-!
# What is popped from the Lins stack

A history of an open region with reference counts, from `create` on: objects are allocated, references
to them are taken, stored and given back, and cycles are collected.  An object that is on the Lins stack
stays there when it is deallocated.  In histories in which no object dies while it is on the stack, every
pointer that `gc_cycles` or `release_cycles` pops is to an object of the region (`popped_allocated`).
-/

namespace VeronaRt.RegionRc

open Foundation

variable {O : Type*} [DecidableEq O] {r r' : RegionRc O} {iso o p q f : O} {held : O → ℕ}
  {stale : O → RcColour} {jumpStack linsStack : List O} {fuel : ℕ}

/-! ## Code -/

/-- Create a region with the entry point `iso`.  The other objects that its objects may refer to are
entry points of other regions, immutable objects and shared ones. -/
def create (others : Finset O) (cls : O → RegionMD) (iso : O) : RegionRc O where
  fields := fun _ => []
  finaliser := fun _ => []
  allocated := insert iso (others.filter fun o => (cls o).outer = true)
  cls := Function.update cls iso .iso
  refCount := fun o => if o = iso then 1 else 0
  colour := fun _ => .green
  linsStack := []
  regionSize := 1
  events := []

/-- Allocate an object. -/
def alloc (r : RegionRc O) (o : O) : RegionRc O :=
  { r with
    fields := Function.update r.fields o []
    finaliser := Function.update r.finaliser o []
    allocated := insert o r.allocated
    cls := Function.update r.cls o .unmarked
    refCount := Function.update r.refCount o 1
    colour := Function.update r.colour o .green
    regionSize := r.regionSize + 1 }

/-- Write the references of an object. -/
def assign (r : RegionRc O) (o : O) (fields finaliser : List O) : RegionRc O :=
  { r with
    fields := Function.update r.fields o fields
    finaliser := Function.update r.finaliser o finaliser }

/-- What is done with an open region. -/
inductive Call (O : Type*) where
  /-- An object is allocated. -/
  | alloc (o : O)
  /-- A reference to an object is taken. -/
  | incref (o : O)
  /-- A reference to an object is given back. -/
  | decref (o : O)
  /-- References are stored in an object, and others are taken out of it. -/
  | assign (o : O) (fields finaliser : List O)
  /-- Cycles are collected. -/
  | gcCycles (stale : O → RcColour)

namespace Call

/-- What the region becomes. -/
def run (fuel : ℕ) (iso : O) (r : RegionRc O) : Call O → Option (RegionRc O)
  | .alloc o => some (r.alloc o)
  | .incref o => r.incref o
  | .decref o => (r.decref fuel o).map Prod.fst
  | .assign o fields finaliser => some (r.assign o fields finaliser)
  | .gcCycles stale => r.gcCycles fuel stale iso

/-- The references that are held outside afterwards. -/
def heldAfter (r : RegionRc O) (held : O → ℕ) : Call O → O → ℕ
  | .alloc o => Function.update held o 1
  | .incref o => Function.update held o (held o + 1)
  | .decref o => Function.update held o (held o - 1)
  | .assign o fields _ => fun y =>
    if (r.cls y).outer then held y else held y + (r.fields o).count y - fields.count y
  | .gcCycles _ => held

/-- The allocator returns a free address, a reference that is given back or stored is held, and the entry
point stays held while the region is open. -/
def Legal (iso : O) (r : RegionRc O) (held : O → ℕ) : Call O → Prop
  | .alloc o => o ∉ r.allocated
  | .incref o => o ∈ r.allocated ∧ r.Inner o
  | .decref o => 0 < held o ∧ (o = iso → 1 < held o)
  | .assign o fields _ => o ∈ r.allocated ∧ r.Inner o ∧ (∀ y ∈ fields, y ∈ r.allocated) ∧
    (∀ y, r.Inner y → fields.count y ≤ held y + (r.fields o).count y) ∧
    fields.count iso < held iso + (r.fields o).count iso
  | .gcCycles _ => True

end Call

/-- The pointers that `gc_cycles` pops, with the state of the region. -/
inductive Pops (fuel : ℕ) (stale : O → RcColour) :
    RegionRc O → List O → List O → RegionRc O → O → Prop
  /-- The next pop. -/
  | here {r : RegionRc O} {jumpStack linsStack : List O} {p : O} :
    Pops fuel stale r jumpStack (p :: linsStack) r p
  /-- A later pop. -/
  | there {r r' : RegionRc O} {jumpStack linsStack : List O} {p q : O} {s : RegionRc O × List O}
    (hs : gcPop fuel stale r jumpStack p = some s) (h : Pops fuel stale s.1 s.2 linsStack r' q) :
    Pops fuel stale r jumpStack (p :: linsStack) r' q

/-- The part of `release_internal` before `release_cycles`. -/
def releaseTrace (fuel : ℕ) (trivial : O → Bool) (r : RegionRc O) (o : O) : Option (Dealloc O) :=
  (r.openRegion o).bind fun r => (r.decrefInner o).bind fun r =>
    if r.refCount o ≠ 0 then none
    else
      let s : Dealloc O :=
        if trivial o then ⟨r, [], []⟩ else ⟨r.emit (.finalise o), [], r.finaliser o⟩
      drain (releaseStep trivial) fuel s (r.fields o)

/-- `release_internal` with its first trace. -/
theorem releaseInternal_eq (fuel : ℕ) (trivial : O → Bool) (r : RegionRc O) (o : O) :
    releaseInternal fuel trivial r o = (releaseTrace fuel trivial r o).bind fun s =>
      (releaseCycles fuel trivial s).bind fun s => (freeAll s.region s.gc).bind fun r =>
        (r.closeRegion o).map fun r => (r.freeObject o, s.subRegions) := by
  rw [releaseInternal, releaseTrace, Option.bind_assoc]
  refine Option.bind_congr fun r₁ _ => ?_
  rw [Option.bind_assoc]
  refine Option.bind_congr fun r₂ _ => ?_
  split <;> rfl

/-! ## Between calls -/

/-- The region is as it is between calls, and the Lins stack has allocated objects. -/
structure Tidy (iso : O) (held : O → ℕ) (r : RegionRc O) : Prop extends Steady iso held r where
  /-- What is on the Lins stack is allocated. -/
  lins_mem : ∀ x ∈ r.linsStack, x ∈ r.allocated

/-- The references that are held of a new region. -/
def heldEntry (iso o : O) : ℕ := if o = iso then 1 else 0

/-- A new region. -/
theorem tidy_create (others : Finset O) (cls : O → RegionMD) (iso : O) :
    Tidy iso (heldEntry iso) ((create others cls iso).opened iso) := by
  set r := (create others cls iso).opened iso
  have hcls (x : O) : r.cls x = if x = iso then .openIso else cls x := by
    change Function.update (Function.update cls iso .iso) iso .openIso x = _
    rw [Function.update_apply, Function.update_apply]
    split <;> rfl
  have hmem {x : O} : x ∈ r.allocated ↔ x = iso ∨ x ∈ others ∧ (cls x).outer = true := by
    change x ∈ insert iso (others.filter fun o => (cls o).outer = true) ↔ _
    rw [Finset.mem_insert, Finset.mem_filter]
  have hin {x : O} (hx : x ∈ r.allocated) (hx' : r.Inner x) : x = iso := by
    by_contra hne
    rw [Inner, hcls, if_neg hne, ((hmem.mp hx).resolve_left hne).2] at hx'
    cases hx'
  have hiso : r.Inner iso := by
    rw [Inner, hcls, if_pos rfl]
    rfl
  refine ⟨⟨⟨⟨⟨hmem.mpr (Or.inl rfl), ?_, fun x hx hne => ?_, fun x _ f hf => absurd hf List.not_mem_nil,
    fun _ _ _ => rfl⟩, fun x hx hx' => ?_, fun x hx => ?_, fun x _ => show RcColour.green ≠ .red by
      decide⟩, ?_⟩, fun x hx hx' => ?_, fun x hx => absurd hx List.not_mem_nil⟩,
    fun x hx => absurd hx List.not_mem_nil⟩
  · rw [hcls, if_pos rfl]
  · rw [hcls, if_neg hne]
    exact Or.inr ((hmem.mp hx).resolve_left hne).2
  · have hrefs : refs r.fields r.allocated x = 0 := by
      by_contra hne
      obtain ⟨y, -, hy⟩ := refs_pos_iff.mp (Nat.pos_of_ne_zero hne)
      exact List.not_mem_nil hy
    rw [hrefs]
    rfl
  · rw [heldEntry] at hx
    by_cases heq : x = iso
    · rw [heq]
      exact ⟨hmem.mpr (Or.inl rfl), hiso⟩
    · rw [if_neg heq] at hx
      cases hx
  · rw [heldEntry, if_pos rfl]
    exact Nat.one_pos
  · rw [hin hx hx']
    change 0 < if iso = iso then 1 else 0
    rw [if_pos rfl]
    exact Nat.one_pos

/-- An object is allocated. -/
theorem Tidy.alloc (h : Tidy iso held r) (ho : o ∉ r.allocated) :
    Tidy iso (Function.update held o 1) (r.alloc o) := by
  have hcls (x : O) : (r.alloc o).cls x = if x = o then .unmarked else r.cls x :=
    Function.update_apply ..
  have hcount (x : O) : (r.alloc o).refCount x = if x = o then 1 else r.refCount x :=
    Function.update_apply ..
  have hmem {x : O} : x ∈ (r.alloc o).allocated ↔ x = o ∨ x ∈ r.allocated := Finset.mem_insert
  have hfields (x : O) : (r.alloc o).fields x = if x = o then [] else r.fields x :=
    Function.update_apply ..
  have hinner {x : O} (hne : x ≠ o) : (r.alloc o).Inner x ↔ r.Inner x := by
    rw [Inner, Inner, hcls, if_neg hne]
  have hne {x : O} (hx : x ∈ r.allocated) : x ≠ o := fun heq => ho (heq ▸ hx)
  have hrefs (y : O) : refs (r.alloc o).fields (r.alloc o).allocated y = refs r.fields r.allocated y := by
    change refs _ (insert o r.allocated) y = _
    rw [refs_insert _ ho, hfields, if_pos rfl, List.count_nil, Nat.zero_add]
    refine Finset.sum_congr rfl fun x hx => ?_
    rw [hfields, if_neg (hne hx)]
  have hnone : held o = 0 := by
    by_contra hheld
    exact ho (h.held_mem o (Nat.pos_of_ne_zero hheld)).1
  have hnone' : refs r.fields r.allocated o = 0 := by
    by_contra hpos
    obtain ⟨x, hx, hox⟩ := refs_pos_iff.mp (Nat.pos_of_ne_zero hpos)
    exact ho (h.fields_mem x hx o hox)
  have hiso := hne h.iso_mem
  refine ⟨⟨⟨⟨⟨hmem.mpr (Or.inr h.iso_mem), ?_, fun x hx hx' => ?_, fun x hx f hf => ?_,
    fun x hx hout => ?_⟩, fun x hx hin => ?_, fun x hx => ?_, fun x hx => ?_⟩, ?_⟩,
    fun x hx hin => ?_, fun x hx hx' => ?_⟩, fun x hx => hmem.mpr (Or.inr (h.lins_mem x hx))⟩
  · rw [hcls, if_neg hiso, h.cls_iso]
  · rw [hcls]
    split
    · exact Or.inl rfl
    · next hne' => exact h.cls_other x ((hmem.mp hx).resolve_left hne') hx'
  · rw [hfields] at hf
    split at hf
    · cases hf
    · next hne' => exact hmem.mpr (Or.inr (h.fields_mem x ((hmem.mp hx).resolve_left hne') f hf))
  · rw [hfields]
    split
    · rfl
    · next hne' =>
      rw [hcls, if_neg hne'] at hout
      exact h.fields_outer x ((hmem.mp hx).resolve_left hne') hout
  · rw [hcount, hrefs, Function.update_apply]
    split
    · next heq => rw [heq, hnone']
    · next hne' => exact h.refCount_eq x ((hmem.mp hx).resolve_left hne') ((hinner hne').mp hin)
  · rw [Function.update_apply] at hx
    split at hx
    · next heq =>
      refine ⟨hmem.mpr (Or.inl heq), ?_⟩
      rw [Inner, hcls, if_pos heq]
      rfl
    · next hne' =>
      obtain ⟨hx, hin⟩ := h.held_mem x hx
      exact ⟨hmem.mpr (Or.inr hx), (hinner hne').mpr hin⟩
  · change Function.update r.colour o .green x ≠ _
    rw [Function.update_apply]
    split
    · decide
    · next hne' => exact h.not_red x ((hmem.mp hx).resolve_left hne')
  · rw [Function.update_of_ne hiso]
    exact h.held_iso
  · rw [hcount]
    split
    · exact Nat.one_pos
    · next hne' => exact h.live x ((hmem.mp hx).resolve_left hne') ((hinner hne').mp hin)
  · have hx'' := h.lins_mem x hx
    exact (hinner (hne hx'')).mpr (h.lins x hx hx'')

/-- A reference is taken. -/
theorem Tidy.incref (h : Tidy iso held r) (hr' : r.incref o = some r') (ho : o ∈ r.allocated)
    (hin : r.Inner o) : Tidy iso (Function.update held o (held o + 1)) r' := by
  rw [RegionRc.incref, if_pos (h.hasRefCount (SameObjects.refl r) ho hin)] at hr'
  obtain rfl := Option.some.inj hr'
  have hheld (x : O) : held x ≤ Function.update held o (held o + 1) x := by
    rw [Function.update_apply]
    split
    · next heq =>
      rw [heq]
      exact Nat.le_succ _
    · exact Nat.le_refl _
  refine ⟨⟨⟨⟨⟨h.iso_mem, h.cls_iso, h.cls_other, h.fields_mem, h.fields_outer⟩, fun x hx hx' => ?_,
    fun x hx => ?_, h.not_red⟩, h.held_iso.trans_le (hheld iso)⟩, fun x hx hx' => ?_, h.lins⟩, h.lins_mem⟩
  · have hcount := h.refCount_eq x hx hx'
    change _ = _ + refs r.fields r.allocated x
    rw [refCount_setRefCount, Function.update_apply]
    split
    · next heq =>
      subst heq
      omega
    · exact hcount
  · rw [Function.update_apply] at hx
    split at hx
    · next heq => exact ⟨heq ▸ ho, heq ▸ hin⟩
    · exact h.held_mem x hx
  · rw [refCount_setRefCount]
    split
    · exact Nat.succ_pos _
    · exact h.live x hx hx'

/-- References are stored and taken out. -/
theorem Tidy.assign {fields finaliser : List O} (h : Tidy iso held r)
    (hlegal : (Call.assign o fields finaliser).Legal iso r held) :
    Tidy iso ((Call.assign o fields finaliser).heldAfter r held) (r.assign o fields finaliser) := by
  obtain ⟨ho, hin, hmem, hle, hiso⟩ := hlegal
  have hfields (x : O) : (r.assign o fields finaliser).fields x = if x = o then fields else r.fields x :=
    Function.update_apply ..
  have hrefs (y : O) : refs (r.assign o fields finaliser).fields r.allocated y + (r.fields o).count y =
      refs r.fields r.allocated y + fields.count y := by
    have hbefore := refs_erase r.fields ho y
    have hafter := refs_erase (r.assign o fields finaliser).fields ho y
    have hrest : refs (r.assign o fields finaliser).fields (r.allocated.erase o) y =
        refs r.fields (r.allocated.erase o) y := by
      refine Finset.sum_congr rfl fun x hx => ?_
      rw [hfields, if_neg (Finset.ne_of_mem_erase hx)]
    rw [hfields, if_pos rfl] at hafter
    omega
  have hheld (y : O) : (Call.assign o fields finaliser).heldAfter r held y =
      if (r.cls y).outer then held y else held y + (r.fields o).count y - fields.count y := rfl
  refine ⟨⟨⟨⟨⟨h.iso_mem, h.cls_iso, h.cls_other, fun x hx f hf => ?_, fun x hx hout => ?_⟩,
    fun x hx hx' => ?_, fun x hx => ?_, h.not_red⟩, ?_⟩, h.live, h.lins⟩, h.lins_mem⟩
  · rw [hfields] at hf
    split at hf
    · exact hmem f hf
    · exact h.fields_mem x hx f hf
  · rw [hfields, if_neg]
    · exact h.fields_outer x hx hout
    · rintro rfl
      change (r.cls x).outer = true at hout
      rw [hin] at hout
      cases hout
  · have hcount := h.refCount_eq x hx hx'
    have hle' := hle x hx'
    have hrefs' := hrefs x
    have hinner : (r.cls x).outer = false := hx'
    rw [hheld, hinner]
    change r.refCount x = _ + refs _ r.allocated x
    simp only [Bool.false_eq_true, if_false]
    omega
  · rw [hheld] at hx
    split at hx
    · exact h.held_mem x hx
    · next hout =>
      have hinner : r.Inner x := Bool.eq_false_of_not_eq_true hout
      rcases Nat.eq_zero_or_pos (held x) with hzero | hpos
      · have hpos : 0 < (r.fields o).count x := by omega
        exact ⟨h.fields_mem o ho x (List.count_pos_iff.mp hpos), hinner⟩
      · exact h.held_mem x hpos
  · have hinner : (r.cls iso).outer = false := h.inner_iso
    rw [hheld, hinner]
    simp only [Bool.false_eq_true, if_false]
    omega

/-- A reference is given back, and nothing that dies with it is on the Lins stack. -/
theorem Tidy.decref (h : Tidy iso held r) (ho : 0 < held o) (hiso : o = iso → 1 < held o)
    (hspares : r.refCount o = 1 → ∀ x ∈ r.linsStack, ¬ Dies r held o x)
    (hfuel : width r.fields r.allocated ≤ fuel) {res : RegionRc O × Bool}
    (hres : decref fuel r o = some res) :
    Tidy iso (Function.update held o (held o - 1)) res.1 := by
  obtain ⟨hmem, hin⟩ := h.held_mem o ho
  rcases Nat.lt_or_ge 1 (r.refCount o) with hlt | hle
  · obtain ⟨res', hres', htallied, hallocated, hlins⟩ :=
      decref_tallied_of_lt h.toSteady ho hiso hlt fuel
    obtain rfl := Option.some.inj (hres.symm.trans hres')
    refine ⟨htallied.toSteady, fun x hx => ?_⟩
    rw [hallocated]
    rcases hlins x hx with rfl | hx
    · exact hmem
    · exact h.lins_mem x hx
  · have hlast : r.refCount o = 1 := Nat.le_antisymm hle (h.live o hmem hin)
    obtain ⟨htallied, hallocated, hlins⟩ :=
      (decref_tallied_of_last h.toSteady ho hiso hlast hfuel).2 res hres
    refine ⟨htallied.toSteady, fun x hx => ?_⟩
    rw [hlins] at hx
    exact (hallocated x).mpr ⟨h.lins_mem x hx, hspares hlast x hx⟩

/-! ## Pops -/

/-- The invariant of `markRed`, as far as what is met is concerned. -/
structure Reddening (r : RegionRc O) (p : O) (s : RegionRc O × List O) (stack : List O) : Prop where
  /-- The references do not change. -/
  fields_eq : s.1.fields = r.fields
  /-- The classes do not change. -/
  cls_eq : s.1.cls = r.cls
  /-- The candidate is red. -/
  red : s.1.colour p = .red
  /-- What is red is an object of the region, and what it refers to is met or on the stack. -/
  closed : ∀ x ∈ r.allocated, s.1.colour x = .red → r.Inner x ∧ ∀ y ∈ r.fields x,
    y ∈ stack ∨ r.cls y = .iso ∨ r.Inner y ∧ s.1.colour y = .red

/-- A pop of `markRed` that succeeds. -/
theorem Reddening.step {s s' : RegionRc O × List O} {stack pushed : List O}
    (h : Reddening r p s (f :: stack)) (hp : r.isRcCandidate p = true)
    (hs' : markRedStep p s f = some (s', pushed)) : Reddening r p s' (pushed ++ stack) := by
  have hcandidate : s.1.isRcCandidate p = true := by
    rwa [isRcCandidate, h.cls_eq]
  rw [markRedStep] at hs'
  split at hs'
  · next hskip =>
    obtain ⟨rfl, rfl⟩ := Prod.mk.inj (Option.some.inj hs')
    have hcls : s.1.cls f = .iso := hskip.resolve_left (by simp [hcandidate])
    rw [h.cls_eq] at hcls
    refine ⟨h.fields_eq, h.cls_eq, h.red, fun x hx hred => ?_⟩
    obtain ⟨hin, hmet⟩ := h.closed x hx hred
    refine ⟨hin, fun y hy => ?_⟩
    rcases hmet y hy with hmem | hmet
    · rcases List.mem_cons.mp hmem with rfl | hmem
      · exact Or.inr (Or.inl hcls)
      · exact Or.inl hmem
    · exact Or.inr hmet
  · obtain ⟨r₁, hr₁, heq⟩ := Option.map_eq_some_iff.mp hs'
    have hcount : s.1.hasRefCount f = true := by
      by_contra hnot
      rw [decrefInner, if_neg hnot] at hr₁
      cases hr₁
    obtain rfl := decrefInner_eq_some hr₁
    have hin : r.Inner f := by
      rw [hasRefCount, h.cls_eq] at hcount
      rw [Inner]
      simp only [Bool.and_eq_true, Bool.or_eq_true, decide_eq_true_eq] at hcount
      rcases hcount.2 with (hcls | hcls) | hcls <;> rw [hcls] <;> rfl
    split at heq
    · next hred =>
      obtain ⟨rfl, rfl⟩ := Prod.mk.inj heq
      refine ⟨h.fields_eq, h.cls_eq, h.red, fun x hx hred' => ?_⟩
      obtain ⟨hin', hmet⟩ := h.closed x hx hred'
      refine ⟨hin', fun y hy => ?_⟩
      rcases hmet y hy with hmem | hmet
      · rcases List.mem_cons.mp hmem with rfl | hmem
        · exact Or.inr (Or.inr ⟨hin, hred⟩)
        · exact Or.inl hmem
      · exact Or.inr hmet
    · obtain ⟨rfl, rfl⟩ := Prod.mk.inj heq
      have hcolour (x : O) : (((s.1.setRefCount f (s.1.refCount f - 1)).setRcColour f .red).colour x =
          .red) ↔ x = f ∨ s.1.colour x = .red := by
        rw [colour_setRcColour, colour_setRefCount]
        by_cases hx : x = f <;> simp [hx]
      refine ⟨h.fields_eq, h.cls_eq, (hcolour p).mpr (Or.inr h.red), fun x hx hred => ?_⟩
      change r.Inner x ∧ ∀ y ∈ r.fields x, y ∈ s.1.fields f ++ stack ∨ _
      rw [h.fields_eq]
      rcases (hcolour x).mp hred with rfl | hred
      · exact ⟨hin, fun y hy => Or.inl (List.mem_append_left _ hy)⟩
      · obtain ⟨hin', hmet⟩ := h.closed x hx hred
        refine ⟨hin', fun y hy => ?_⟩
        rcases hmet y hy with hmem | hmet | ⟨hy', hred'⟩
        · rcases List.mem_cons.mp hmem with rfl | hmem
          · exact Or.inr (Or.inr ⟨hin, (hcolour y).mpr (Or.inl rfl)⟩)
          · exact Or.inl (List.mem_append_right _ hmem)
        · exact Or.inr (Or.inl hmet)
        · exact Or.inr (Or.inr ⟨hy', (hcolour y).mpr (Or.inr hred')⟩)

/-- A candidate from which `markRed` succeeds reaches no immutable and no shared object. -/
theorem reachesMutable_of_markRed (h : Open iso held r) (hp : p ∈ r.allocated) (hin : r.Inner p)
    (hne : p ≠ iso) {s : RegionRc O × List O} (hs : markRed fuel r p jumpStack = some s) :
    r.ReachesMutable p := by
  have hcandidate : r.isRcCandidate p = true := by
    rw [h.isRcCandidate (SameObjects.refl r) hp hin, decide_eq_true hne]
  rw [markRed, if_neg (by simp [hcandidate])] at hs
  have hend : Reddening r p s [] := by
    refine drain_some (I := Reddening r p) (fun _ _ _ _ _ h hstep => h.step hcandidate hstep)
      ⟨rfl, rfl, ?_, fun x hx hred => ?_⟩ hs
    · rw [colour_setRcColour, if_pos rfl]
    · rw [colour_setRcColour] at hred
      split at hred
      · next heq => exact ⟨heq ▸ hin, fun y hy => Or.inl (heq ▸ hy)⟩
      · exact absurd hred (h.not_red x hx)
  intro x hx
  have hmet := Foundation.Reaches.mem_of_closed
    (P := fun x => x ∈ r.allocated ∧ (r.cls x = .iso ∨ r.Inner x ∧ s.1.colour x = .red)) hx
    ⟨hp, Or.inr ⟨hin, hend.red⟩⟩ fun y hy z hz => by
      refine ⟨h.fields_mem y hy.1 z hz, ?_⟩
      rcases hy.2 with hcls | ⟨-, hred⟩
      · exact absurd (h.inner_of_mem_fields hy.1 hz) (by simp [Inner, hcls, RegionMD.outer])
      · exact ((hend.closed y hy.1 hred).2 z hz).resolve_left List.not_mem_nil
  exact hmet.2.symm.imp And.left id

/-- The condition for the pops of a collection, each on the state before it: a candidate that reaches
the entry point owns it, no dead object that it reaches refers to the entry point, and nothing that is
lost with it is further down on the stack. -/
def Orderly (fuel : ℕ) (stale : O → RcColour) (iso : O) (held : O → ℕ) :
    RegionRc O → List O → List O → Prop
  | _, _, [] => True
  | r, jumpStack, p :: linsStack =>
    (Candidate r iso p → OwnsEntry r iso held p ∧ EntryRooted r iso held p ∧
      ∀ q ∈ linsStack, ¬ Lost r held p q) ∧
    ∀ s, gcPop fuel stale r jumpStack p = some s → Orderly fuel stale iso held s.1 s.2 linsStack

/-- A pop that succeeds leaves the region as between calls, and what is on the stack allocated. -/
theorem Steady.pop {s : RegionRc O × List O} (h : Steady iso held r)
    (hjump : ∀ y ∈ jumpStack, y ∈ r.allocated ∧ r.Inner y)
    (hmem : ∀ q ∈ p :: linsStack, q ∈ r.allocated ∧ r.Inner q)
    (hspares : Candidate r iso p → OwnsEntry r iso held p ∧ EntryRooted r iso held p ∧
      ∀ q ∈ linsStack, ¬ Lost r held p q)
    (hfuel : 2 * width r.fields r.allocated ≤ fuel)
    (hs : gcPop fuel stale r jumpStack p = some s) :
    Steady iso held s.1 ∧ (∀ y ∈ s.2, y ∈ s.1.allocated ∧ s.1.Inner y) ∧
      (∀ q ∈ linsStack, q ∈ s.1.allocated ∧ s.1.Inner q) ∧
      2 * width s.1.fields s.1.allocated ≤ fuel := by
  obtain ⟨hp, hin⟩ := hmem p List.mem_cons_self
  have hplain (hcandidate : Candidate r iso p) : r.ReachesMutable p := by
    obtain ⟨-, -, hne, hblack⟩ := hcandidate
    rw [gcPop, if_pos hp, if_pos hblack] at hs
    obtain ⟨s₁, hs₁, -⟩ := Option.bind_eq_some_iff.mp hs
    exact reachesMutable_of_markRed h.toOpen hp hin hne hs₁
  have hcollecting : Collecting fuel stale iso held r jumpStack [p] := by
    refine ⟨h.toOpen, hjump, fun q hq hq' => ?_, fun q hq hq' => ?_,
      ⟨fun q hq hq' => ?_, fun q hq hq' => ?_, fun q hq hq' => ?_, List.pairwise_singleton ..⟩, hfuel⟩
    all_goals obtain rfl := List.mem_singleton.mp hq
    · exact ⟨hin, h.live q hq' hin⟩
    · exact absurd hp hq'
    · exact hplain hq'
    · exact (hspares hq').1
    · exact (hspares hq').2.1
  obtain ⟨s', hs', hscanned, hlost, hrest⟩ := hcollecting.pop
  obtain rfl := Option.some.inj (hs.symm.trans hs')
  have hleft {q : O} (hq : q ∈ linsStack) : q ∈ s.1.allocated := by
    by_contra hfreed
    obtain ⟨hcandidate, hq'⟩ := (hlost q (hmem q (List.mem_cons_of_mem p hq)).1).mp hfreed
    exact (hspares hcandidate).2.2 q hq hq'
  refine ⟨⟨hscanned.isOpen, fun x hx hx' => ?_, fun x hx hx' => ?_⟩, hscanned.jump_mem,
    fun q hq => ⟨hleft hq, ?_⟩, hrest.le_fuel⟩
  · have hx'' := (hscanned.inner_iff hx).mp hx'
    exact hscanned.pos x hx hx'' (h.live x (hscanned.subset hx) hx'')
  · rw [hscanned.linsStack_eq] at hx
    exact (hscanned.inner_iff hx').mpr (h.lins x hx (hscanned.subset hx'))
  · exact (hscanned.inner_iff (hleft hq)).mpr (hmem q (List.mem_cons_of_mem p hq)).2

/-- What an orderly collection pops is allocated. -/
theorem Pops.mem (hpops : Pops fuel stale r jumpStack linsStack r' q) (h : Steady iso held r)
    (hjump : ∀ y ∈ jumpStack, y ∈ r.allocated ∧ r.Inner y)
    (hmem : ∀ q ∈ linsStack, q ∈ r.allocated ∧ r.Inner q)
    (horderly : Orderly fuel stale iso held r jumpStack linsStack)
    (hfuel : 2 * width r.fields r.allocated ≤ fuel) : q ∈ r'.allocated ∧ r'.Inner q := by
  induction hpops with
  | here => exact hmem _ List.mem_cons_self
  | there hs _ ih =>
    obtain ⟨hspares, hrest⟩ := horderly
    obtain ⟨hsteady, hjump', hmem', hfuel'⟩ := h.pop hjump hmem hspares hfuel hs
    exact ih hsteady hjump' hmem' (hrest _ hs) hfuel'

/-- An orderly collection leaves the region as between calls. -/
theorem gcLoop_tidy (h : Steady iso held r) (hjump : ∀ y ∈ jumpStack, y ∈ r.allocated ∧ r.Inner y)
    (hmem : ∀ q ∈ linsStack, q ∈ r.allocated ∧ r.Inner q)
    (horderly : Orderly fuel stale iso held r jumpStack linsStack)
    (hfuel : 2 * width r.fields r.allocated ≤ fuel)
    (hr' : gcLoop fuel stale r jumpStack linsStack = some r') : Tidy iso held r' := by
  induction linsStack generalizing r jumpStack with
  | nil =>
    obtain rfl := Option.some.inj hr'
    refine ⟨⟨⟨h.toCounted.of_eq rfl rfl rfl rfl rfl, h.held_iso⟩, h.live, fun x hx => ?_⟩, fun x hx => ?_⟩
    · exact absurd hx List.not_mem_nil
    · exact absurd hx List.not_mem_nil
  | cons p linsStack ih =>
    rw [gcLoop_cons] at hr'
    obtain ⟨s, hs, hr'⟩ := Option.bind_eq_some_iff.mp hr'
    obtain ⟨hspares, hrest⟩ := horderly
    obtain ⟨hsteady, hjump', hmem', hfuel'⟩ := h.pop hjump hmem hspares hfuel hs
    exact ih hsteady hjump' hmem' (hrest _ hs) hfuel' hr'

/-- The first trace of a release takes nothing from the Lins stack, and deallocates nothing. -/
theorem releaseTrace_spec {trivial : O → Bool} {s : Dealloc O}
    (hs : releaseTrace fuel trivial r o = some s) :
    s.region.linsStack = r.linsStack ∧ s.region.allocated = r.allocated ∧
      s.region.cls = (r.opened o).cls := by
  rw [releaseTrace] at hs
  obtain ⟨r₁, hr₁, hs⟩ := Option.bind_eq_some_iff.mp hs
  obtain ⟨r₂, hr₂, hs⟩ := Option.bind_eq_some_iff.mp hs
  rw [openRegion] at hr₁
  split at hr₁
  swap
  · cases hr₁
  obtain rfl := Option.some.inj hr₁
  obtain rfl := decrefInner_eq_some hr₂
  split at hs
  · cases hs
  have hstep (s : Dealloc O) (f : O) (stack : List O) (s' : Dealloc O) (pushed : List O)
      (h : s.region.linsStack = r.linsStack ∧ s.region.allocated = r.allocated ∧
        s.region.cls = (r.opened o).cls)
      (hs' : releaseStep trivial s f = some (s', pushed)) :
      s'.region.linsStack = r.linsStack ∧ s'.region.allocated = r.allocated ∧
        s'.region.cls = (r.opened o).cls := by
    rw [releaseStep, dropStep] at hs'
    split at hs'
    · cases hs'
    have hmutable (hs' : ((s.region.decrefInner f).map fun r =>
        if r.refCount f = 0 then
          if trivial f then (⟨r, f :: s.gc, s.subRegions⟩, r.fields f)
          else (⟨r.emit (.finalise f), f :: s.gc, r.finaliser f ++ s.subRegions⟩, r.fields f)
        else ({ s with region := r }, [])) = some (s', pushed)) :
        s'.region.linsStack = r.linsStack ∧ s'.region.allocated = r.allocated ∧
          s'.region.cls = (r.opened o).cls := by
      obtain ⟨r₁, hr₁, heq⟩ := Option.map_eq_some_iff.mp hs'
      obtain rfl := decrefInner_eq_some hr₁
      split at heq
      · split at heq <;>
        · obtain ⟨rfl, -⟩ := Prod.mk.inj heq
          exact h
      · obtain ⟨rfl, -⟩ := Prod.mk.inj heq
        exact h
    cases hcls : s.region.cls f <;> rw [hcls] at hs'
    case marked => exact hmutable hs'
    case unmarked => exact hmutable hs'
    case rc =>
      obtain ⟨rfl, -⟩ := Prod.mk.inj (Option.some.inj hs')
      exact h
    case shared =>
      obtain ⟨rfl, -⟩ := Prod.mk.inj (Option.some.inj hs')
      exact h
    case iso =>
      obtain ⟨rfl, -⟩ := Prod.mk.inj (Option.some.inj hs')
      exact h
    all_goals cases hs'
  refine drain_some (I := fun s _ => s.region.linsStack = r.linsStack ∧
    s.region.allocated = r.allocated ∧ s.region.cls = (r.opened o).cls) hstep ?_ hs
  split <;> exact ⟨rfl, rfl, rfl⟩

/-! ## Histories -/

/-- The condition for a call, on the state before it: no object dies that is on the Lins stack, and a
collection is orderly. -/
def Call.Spares (iso : O) (fuel : ℕ) (r : RegionRc O) (held : O → ℕ) : Call O → Prop
  | .alloc _ => True
  | .incref _ => True
  | .decref o => r.refCount o = 1 → ∀ x ∈ r.linsStack, ¬ Dies r held o x
  | .assign _ _ _ => True
  | .gcCycles stale => Orderly fuel stale iso held r [] r.linsStack

/-- A sequence of calls that are legal and meet a condition. -/
inductive History (iso : O) (condition : ℕ → RegionRc O → (O → ℕ) → Call O → Prop) (r₀ : RegionRc O)
    (held₀ : O → ℕ) : RegionRc O → (O → ℕ) → Prop
  /-- Nothing is called. -/
  | refl : History iso condition r₀ held₀ r₀ held₀
  /-- A call. -/
  | step {r r' : RegionRc O} {held : O → ℕ} {call : Call O} {fuel : ℕ}
    (h : History iso condition r₀ held₀ r held) (hlegal : call.Legal iso r held)
    (hcondition : condition fuel r held call) (hfuel : 2 * width r.fields r.allocated ≤ fuel)
    (hrun : call.run fuel iso r = some r') :
    History iso condition r₀ held₀ r' (call.heldAfter r held)

/-- A call that meets the condition keeps the invariant. -/
theorem Tidy.call {call : Call O} (h : Tidy iso held r) (hlegal : call.Legal iso r held)
    (hspares : call.Spares iso fuel r held) (hfuel : 2 * width r.fields r.allocated ≤ fuel)
    (hrun : call.run fuel iso r = some r') : Tidy iso (call.heldAfter r held) r' := by
  cases call with
  | alloc o =>
    obtain rfl := Option.some.inj hrun
    exact h.alloc hlegal
  | incref o => exact h.incref hrun hlegal.1 hlegal.2
  | decref o =>
    obtain ⟨res, hres, rfl⟩ := Option.map_eq_some_iff.mp hrun
    exact h.decref hlegal.1 hlegal.2 hspares (by omega) hres
  | assign o fields finaliser =>
    obtain rfl := Option.some.inj hrun
    exact h.assign hlegal
  | gcCycles stale =>
    change gcCycles fuel stale r iso = some r' at hrun
    rw [gcCycles, if_pos h.cls_iso] at hrun
    exact gcLoop_tidy h.toSteady (fun y hy => absurd hy List.not_mem_nil)
      (fun q hq => ⟨h.lins_mem q hq, h.lins q hq (h.lins_mem q hq)⟩) hspares hfuel hrun

/-- A history whose calls meet the condition keeps the invariant. -/
theorem History.tidy {r₀ : RegionRc O} {held₀ : O → ℕ} (h₀ : Tidy iso held₀ r₀)
    (h : History iso (Call.Spares iso) r₀ held₀ r held) : Tidy iso held r := by
  induction h with
  | refl => exact h₀
  | step _ hlegal hspares hfuel hrun ih => exact ih.call hlegal hspares hfuel hrun

/-- In every history in which no object dies that is on the Lins stack, each pointer that a collection or
the release of the region pops from the stack is to an allocated object of the region. -/
theorem popped_allocated (others : Finset O) (cls : O → RegionMD)
    (h : History iso (Call.Spares iso) ((create others cls iso).opened iso) (heldEntry iso) r held) :
    (∀ fuel stale r' q, 2 * width r.fields r.allocated ≤ fuel →
      (Call.gcCycles stale).Spares iso fuel r held → Pops fuel stale r [] r.linsStack r' q →
      q ∈ r'.allocated ∧ r'.Inner q) ∧
    ∀ fuel trivial s, releaseTrace fuel trivial (r.closed iso) iso = some s →
      ∀ q ∈ s.region.linsStack, q ∈ s.region.allocated ∧ s.region.Inner q := by
  have htidy := h.tidy (tidy_create others cls iso)
  have hmem (q : O) (hq : q ∈ r.linsStack) : q ∈ r.allocated ∧ r.Inner q :=
    ⟨htidy.lins_mem q hq, htidy.lins q hq (htidy.lins_mem q hq)⟩
  refine ⟨fun fuel stale r' q hfuel hspares hpops => ?_, fun fuel trivial s hs q hq => ?_⟩
  · exact hpops.mem htidy.toSteady (fun y hy => absurd hy List.not_mem_nil) hmem hspares hfuel
  · obtain ⟨hlins, hallocated, hcls⟩ := releaseTrace_spec hs
    have hopened : ((r.closed iso).opened iso).cls = r.cls := by
      change Function.update (Function.update r.cls iso .iso) iso .openIso = r.cls
      rw [Function.update_idem, ← h.tidy (tidy_create others cls iso) |>.cls_iso, Function.update_eq_self]
    rw [hlins] at hq
    rw [hallocated, Inner, hcls, hopened]
    exact hmem q hq

/-- A new region with the entry point 0. -/
def newRegion : RegionRc ℕ := (create ∅ (fun _ => .unmarked) 0).opened 0

/-- The region with an object 1 to which a second reference was taken and given back. -/
def candidateRegion : RegionRc ℕ :=
  let r := (newRegion.alloc 1).setRefCount 1 2
  { (r.setRefCount 1 1).setRcColour 1 .black with linsStack := [1] }

/-- The references that are held then. -/
def candidateHeld : ℕ → ℕ :=
  Function.update (Function.update (Function.update (heldEntry 0) 1 1) 1 2) 1 1

/-- The calls that lead to the region. -/
theorem history_candidateRegion {condition : ℕ → RegionRc ℕ → (ℕ → ℕ) → Call ℕ → Prop}
    (halloc : condition 0 newRegion (heldEntry 0) (.alloc 1))
    (hincref : ∀ r held, condition 0 r held (.incref 1))
    (hdecref : ∀ r held, r.refCount 1 = 2 → condition 0 r held (.decref 1)) :
    History 0 condition newRegion (heldEntry 0) candidateRegion candidateHeld := by
  have hnew : History 0 condition newRegion (heldEntry 0) newRegion (heldEntry 0) := .refl
  have hfree : (Call.alloc 1).Legal 0 newRegion (heldEntry 0) := show 1 ∉ newRegion.allocated by decide
  have hone := hnew.step hfree halloc (by decide) rfl
  have htwo := hone.step (show (Call.incref 1).Legal 0 _ _ from ⟨by decide, rfl⟩) (hincref _ _)
    (by decide) rfl
  exact htwo.step (show (Call.decref 1).Legal 0 _ _ from ⟨by decide, by decide⟩) (hdecref _ _ rfl)
    (by decide) rfl

/-- The theorem at an object that is held. -/
theorem popped_allocated_candidateRegion :
    candidateRegion.linsStack = [1] ∧ 1 ∈ candidateRegion.allocated ∧ candidateRegion.Inner 1 := by
  have hnone (x : ℕ) : candidateRegion.fields x = [] := by
    change Function.update (fun _ => []) 1 [] x = []
    rw [Function.update_apply]
    split <;> rfl
  have hreaches (x : ℕ) (hx : candidateRegion.Reaches 1 x) : x = 1 := by
    refine Foundation.Reaches.mem_of_closed (P := fun x => x = 1) hx rfl fun y _ z hz => ?_
    rw [hnone] at hz
    cases hz
  have hhistory : History 0 (Call.Spares 0) ((create ∅ (fun _ => .unmarked) 0).opened 0) (heldEntry 0)
      candidateRegion candidateHeld :=
    history_candidateRegion trivial (fun _ _ => trivial) fun r _ hr hr' => by
      rw [hr] at hr'
      cases hr'
  have hfuel : 2 * width candidateRegion.fields candidateRegion.allocated ≤ 0 := by decide
  refine ⟨rfl, (popped_allocated ∅ (fun _ => .unmarked) hhistory).1 0 (fun _ => .green) _ 1 hfuel
    ⟨fun _ => ⟨fun hreach => ?_, fun x _ hx => ?_, fun q hq => absurd hq List.not_mem_nil⟩,
      fun _ _ => trivial⟩ .here⟩
  · cases hreaches 0 hreach
  · rw [hnone] at hx
    cases hx

/-- When the last reference is given back, the object stays on the stack. -/
theorem dangling_popped :
    ∃ r held, History 0 (fun _ _ _ _ => True) newRegion (heldEntry 0) r held ∧
      Pops 0 (fun _ => .green) r [] r.linsStack r 1 ∧ 1 ∉ r.allocated := by
  have hhistory : History 0 (fun _ _ _ _ => True) newRegion (heldEntry 0) candidateRegion
      candidateHeld :=
    history_candidateRegion trivial (fun _ _ => trivial) fun _ _ _ => trivial
  have hfuel : 2 * width candidateRegion.fields candidateRegion.allocated ≤ 0 := by decide
  have hlast := hhistory.step (show (Call.decref 1).Legal 0 _ _ from ⟨by decide, by decide⟩) trivial
    hfuel rfl
  exact ⟨_, _, hlast, .here, by decide⟩

end VeronaRt.RegionRc
