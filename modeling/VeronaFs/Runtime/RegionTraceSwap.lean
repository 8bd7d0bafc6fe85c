import VeronaFs.Runtime.RegionTraceGrow

/-!
# Iteration and swapping the root in trace regions

`RegionTrace::iterator` and `swap_root_internal`.  An iteration over all objects visits the primary ring
and then the secondary one.  The new root becomes the last object of the primary ring: within the
primary ring by a rotation, from the secondary ring after the two rings have been exchanged.
-/

set_option linter.unusedSectionVars false

namespace VeronaRt.RegionTrace

open Foundation

variable {O : Type*} [DecidableEq O] {D : Descriptors O} {r r' r₁ : RegionTrace O} {iso nroot p b : O}
  {prim sec ring sec' l : List O} {q : Option O}

/-! ## Code -/

/-- The link of an object, whether or not it is marked or an entry point. -/
def getNextAnyMark (r : RegionTrace O) (o : O) : Option (Option O) :=
  if o ∈ r.allocated ∧ (r.cls o = .marked ∨ r.cls o = .unmarked ∨ r.cls o = .pending ∨
      r.cls o = .iso) then some (r.next o) else none

/-- The first object of an iteration. -/
def begin (D : Descriptors O) (type : IteratorType) (r : RegionTrace O) : Option (Option O) :=
  (r.getNext r.self).bind fun q => q.map fun q =>
    let ptr := match type with
      | .trivial => if D.isTrivial q = true then some q else r.nextNotRoot
      | .nonTrivial => if D.isTrivial q = false then some q else r.nextNotRoot
      | .allObjects => some q
    if ptr = some r.self then none else ptr

/-- The next object of an iteration. -/
def advance (type : IteratorType) (r : RegionTrace O) (ptr : O) : Option (Option O) :=
  (r.getNextAnyMark ptr).bind fun q =>
    if q ≠ some r.self then some q
    else match type with
      | .allObjects =>
        if some ptr ≠ r.lastNotRoot ∧ r.nextNotRoot ≠ some r.self then
          if r.cls ptr = .iso then some r.nextNotRoot else none
        else some none
      | .trivial => some none
      | .nonTrivial => some none

/-- The objects that an iteration visits from a pointer on. -/
def visit (type : IteratorType) (r : RegionTrace O) : ℕ → Option O → Option (List O)
  | _, none => some []
  | 0, some _ => none
  | fuel + 1, some ptr =>
    (advance type r ptr).bind fun q => (visit type r fuel q).map fun l => ptr :: l

/-- The objects that an iteration visits. -/
def objects (D : Descriptors O) (type : IteratorType) (fuel : ℕ) (r : RegionTrace O) :
    Option (List O) :=
  (begin D type r).bind (visit type r fuel)

/-- Write the header of an entry point. -/
def initIso (r : RegionTrace O) (o : O) : RegionTrace O :=
  { r with next := Function.update r.next o (some r.self), cls := Function.update r.cls o .iso }

/-- Exchange the rings if the new root is of the other kind.  The result has the last object of the
primary ring. -/
def swapRings (D : Descriptors O) (r : RegionTrace O) (oroot nroot : O) :
    Option (RegionTrace O × O) :=
  if D.isTrivial oroot = D.isTrivial nroot then some (r, oroot)
  else r.lastNotRoot.bind fun last => (r.getNext last).bind fun q =>
    if q ≠ some r.self then none
    else (r.getNext r.self).bind fun t => (r.setNext r.self r.nextNotRoot).map fun r =>
      ({ r with nextNotRoot := t, lastNotRoot := some oroot }.initNext oroot (some r.self), last)

/-- Rotate the primary ring, which ends with `oroot`, so that it ends with `nroot`. -/
def rotateRing (r : RegionTrace O) (oroot nroot : O) : Option (RegionTrace O) :=
  if oroot = nroot then some r
  else (r.getNextAnyMark oroot).bind fun q =>
    if oroot = r.self ∨ q ≠ some r.self then none
    else (r.getNext nroot).bind fun y =>
      if y = some r.self then none
      else (r.getNext r.self).bind fun x => (r.initNext oroot x).setNext r.self y

/-- Make `nroot` the entry point in the place of `oroot`. -/
def swapRootInternal (D : Descriptors O) (fuel : ℕ) (r : RegionTrace O) (oroot nroot : O) :
    Option (RegionTrace O) :=
  (objects D .allObjects fuel r).bind fun l =>
    if nroot ∉ l then none
    else (swapRings D r oroot nroot).bind fun (r, oroot) =>
      (rotateRing r oroot nroot).map fun r => r.initIso nroot

/-! ## Iteration -/

/-- The iteration goes on to the next object of a ring. -/
theorem advance_of_ne (type : IteratorType) (hmem : p ∈ r.allocated)
    (hcls : r.cls p = .unmarked ∨ r.cls p = .iso) (hne : r.next p ≠ some r.self) :
    advance type r p = some (r.next p) := by
  have hget : r.getNextAnyMark p = some (r.next p) :=
    if_pos ⟨hmem, hcls.elim (fun h => .inr (.inl h)) fun h => .inr (.inr (.inr h))⟩
  unfold advance
  rw [hget, Option.bind_some, if_pos hne]

/-- The iteration visits the objects of a path. -/
theorem visit_path (type : IteratorType) (hpath : Path r.next l q (some p))
    (hlive : ∀ x ∈ l, x ∈ r.allocated ∧ (r.cls x = .unmarked ∨ r.cls x = .iso) ∧ x ≠ r.self)
    (hp : p ≠ r.self) (n : ℕ) :
    visit type r (l.length + n) q = (visit type r n (some p)).map fun l' => l ++ l' := by
  induction l generalizing q with
  | nil =>
    obtain rfl : q = some p := hpath
    simp
  | cons a l ih =>
    obtain ⟨rfl, hpath⟩ := hpath
    obtain ⟨hmem, hcls, -⟩ := hlive a List.mem_cons_self
    have hne : r.next a ≠ some r.self := by
      cases l with
      | nil =>
        rw [show r.next a = some p from hpath]
        exact fun heq => hp (Option.some.inj heq)
      | cons b l =>
        rw [hpath.1]
        exact fun heq => (hlive b (by simp)).2.2 (Option.some.inj heq)
    rw [List.length_cons, Nat.succ_add, visit, advance_of_ne type hmem hcls hne, Option.bind_some,
      ih hpath fun x hx => hlive x (List.mem_cons_of_mem a hx)]
    cases visit type r n (some p) <;> rfl

/-- The iteration ends behind an object. -/
theorem visit_last {type : IteratorType} (hend : advance type r p = some none) (n : ℕ) :
    visit type r (n + 1) (some p) = some [p] := by
  rw [visit, hend, Option.bind_some]
  cases n <;> rfl

/-- The end of a ring of the kind that the iteration is over. -/
theorem advance_end {type : IteratorType} (hmem : p ∈ r.allocated)
    (hcls : r.cls p = .unmarked ∨ r.cls p = .iso) (hnext : r.next p = some r.self)
    (hend : type = .allObjects → some p = r.lastNotRoot ∨ r.nextNotRoot = some r.self) :
    advance type r p = some none := by
  have hget : r.getNextAnyMark p = some (r.next p) :=
    if_pos ⟨hmem, hcls.elim (fun h => .inr (.inl h)) fun h => .inr (.inr (.inr h))⟩
  unfold advance
  rw [hget, Option.bind_some, hnext, if_neg (not_not.mpr rfl)]
  cases type with
  | allObjects =>
    refine if_neg fun h => ?_
    exact (hend rfl).elim h.1 h.2
  | _ => rfl

/-- The objects that an iteration visits: the primary ring, the secondary ring or both, one behind the
other. -/
def Visited (D : Descriptors O) (iso : O) (prim sec : List O) : IteratorType → List O
  | .trivial => if D.isTrivial iso = true then prim ++ [iso] else sec
  | .nonTrivial => if D.isTrivial iso = false then prim ++ [iso] else sec
  | .allObjects => prim ++ [iso] ++ sec

/-- The header of an object of a ring. -/
theorem Rings.live (h : Rings D iso prim sec r) {x : O} (hx : x ∈ iso :: (prim ++ sec)) :
    x ∈ r.allocated ∧ (r.cls x = .unmarked ∨ r.cls x = .iso) ∧ x ≠ r.self := by
  refine ⟨h.allocated x (List.mem_cons_of_mem _ hx), ?_, fun heq => ?_⟩
  · rcases List.mem_cons.mp hx with rfl | hx
    · exact .inr h.cls_iso
    · exact .inl (h.cls_eq x hx)
  · exact (List.nodup_cons.mp h.nodup).1 (heq ▸ hx)

/-- The iteration over a secondary ring, to its end. -/
theorem Rings.visit_secondary (h : Rings D iso prim sec r) (type : IteratorType) (n : ℕ) :
    visit type r (sec.length + n) (if r.nextNotRoot = some r.self then none else r.nextNotRoot) =
      some sec := by
  have hlive {x : O} (hx : x ∈ sec) := h.live (List.mem_cons_of_mem iso (List.mem_append_right prim hx))
  have hpath := h.secondary
  have hlast := h.last
  rcases List.eq_nil_or_concat' sec with rfl | ⟨l, tl, rfl⟩
  · have hfirst : r.nextNotRoot = some r.self := hpath
    rw [if_pos hfirst]
    cases n <;> rfl
  · have htl := hlive (x := tl) (by simp)
    obtain ⟨m, hl, hm, hnext⟩ := Path.append_iff.mp hpath
    obtain rfl : m = some tl := hm
    have hne : r.nextNotRoot ≠ some r.self := by
      cases l with
      | nil =>
        rw [show r.nextNotRoot = some tl from hl]
        exact fun heq => htl.2.2 (Option.some.inj heq)
      | cons b l =>
        rw [hl.1]
        exact fun heq => (hlive (x := b) (by simp)).2.2 (Option.some.inj heq)
    have hend : advance type r tl = some none := by
      refine advance_end htl.1 htl.2.1 hnext fun _ => .inl ?_
      rw [hlast]
      simp
    rw [if_neg hne, List.length_append, List.length_singleton, Nat.add_assoc,
      visit_path type hl (fun x hx => hlive (List.mem_append_left _ hx)) htl.2.2,
      Nat.add_comm 1 n, visit_last hend, Option.map_some]

/-- The iteration over the primary ring, to its end or on to the secondary ring. -/
theorem Rings.visit_primary (h : Rings D iso prim sec r) (type : IteratorType) (n : ℕ) :
    visit type r (prim.length + 1 + sec.length + n) (r.next r.self) =
      some (if type = .allObjects then prim ++ [iso] ++ sec else prim ++ [iso]) := by
  have hiso := h.live List.mem_cons_self
  have hget : r.getNextAnyMark iso = some (some r.self) := by
    rw [← h.next_iso]
    exact if_pos ⟨hiso.1, .inr (.inr (.inr h.cls_iso))⟩
  rw [Nat.add_assoc, Nat.add_assoc, visit_path type h.primary
    (fun x hx => h.live (List.mem_cons_of_mem iso (List.mem_append_left sec hx))) hiso.2.2]
  by_cases hmore : type = .allObjects ∧ r.nextNotRoot ≠ some r.self
  · obtain ⟨rfl, hne⟩ := hmore
    -- the step from the entry point to the secondary ring
    have hlast : some iso ≠ r.lastNotRoot := by
      rw [h.last]
      intro heq
      cases hsec : sec.getLast? with
      | none =>
        rw [hsec] at heq
        exact hiso.2.2 (Option.some.inj heq)
      | some x =>
        rw [hsec] at heq
        obtain rfl : iso = x := Option.some.inj heq
        have hnodup := (List.nodup_cons.mp (List.nodup_cons.mp h.nodup).2).1
        exact hnodup (List.mem_append_right prim (List.mem_of_getLast? hsec))
    have hstep : advance .allObjects r iso = some r.nextNotRoot := by
      rw [advance, hget, Option.bind_some, if_neg (not_not.mpr rfl)]
      simp only [if_pos (And.intro hlast hne), if_pos h.cls_iso]
    have hsecondary := h.visit_secondary .allObjects n
    rw [if_neg hne] at hsecondary
    rw [Nat.add_comm 1, visit, hstep, Option.bind_some, hsecondary]
    simp
  · have hend : advance type r iso = some none :=
      advance_end hiso.1 hiso.2.1 h.next_iso fun htype => .inr (by tauto)
    have hsec : type = .allObjects → sec = [] := by
      intro htype
      have hfirst : r.nextNotRoot = some r.self := by tauto
      have hpath := h.secondary
      cases sec with
      | nil => rfl
      | cons b l =>
        have hb := hpath.1
        rw [hfirst] at hb
        exact absurd (Option.some.inj hb).symm (h.live (x := b) (by simp)).2.2
    rw [Nat.add_comm 1, visit_last hend]
    by_cases htype : type = .allObjects
    · simp [htype, hsec htype]
    · simp [htype]

/-- Each iteration ends, and it visits the objects of its kind. -/
theorem objects_spec (h : Rings D iso prim sec r) (type : IteratorType) {fuel : ℕ}
    (hfuel : (prim ++ [iso] ++ sec).length ≤ fuel) :
    objects D type fuel r = some (Visited D iso prim sec type) := by
  obtain ⟨n, rfl⟩ := Nat.exists_eq_add_of_le hfuel
  have hget : r.getNext r.self = some (r.next r.self) :=
    if_pos ⟨h.allocated _ List.mem_cons_self, h.cls_self⟩
  obtain ⟨x, hx, hx_mem⟩ : ∃ x, r.next r.self = some x ∧ x ∈ prim ++ [iso] := by
    have hprimary := h.primary
    cases prim with
    | nil => exact ⟨iso, hprimary, by simp⟩
    | cons p prim => exact ⟨p, hprimary.1, by simp⟩
  have hkind : D.isTrivial x = D.isTrivial iso := by
    rcases List.mem_append.mp hx_mem with hx | hx
    · exact h.isTrivial_primary x hx
    · rw [List.mem_singleton.mp hx]
  have hne : x ≠ r.self := (h.live (x := x) (by
    simp only [List.mem_append, List.mem_cons, List.not_mem_nil, or_false] at hx_mem ⊢
    tauto)).2.2
  have hprimary : ∀ type, visit type r ((prim ++ [iso] ++ sec).length + n) (some x) =
      some (if type = .allObjects then prim ++ [iso] ++ sec else prim ++ [iso]) := by
    intro type
    rw [← hx, List.length_append, List.length_append, List.length_singleton]
    exact h.visit_primary type n
  have hsecondary : ∀ type, visit type r ((prim ++ [iso] ++ sec).length + n)
      (if r.nextNotRoot = some r.self then none else r.nextNotRoot) = some sec := by
    intro type
    have hvisit := h.visit_secondary type (prim.length + 1 + n)
    rwa [show sec.length + (prim.length + 1 + n) = (prim ++ [iso] ++ sec).length + n by
      simp only [List.length_append, List.length_singleton]; omega] at hvisit
  have hself : some x ≠ some r.self := fun heq => hne (Option.some.inj heq)
  unfold objects begin
  rw [hget, Option.bind_some, hx, Option.map_some, Option.bind_some]
  cases type with
  | trivial =>
    simp only [Visited, hkind]
    split
    · next hiso => simpa [hself, hiso] using hprimary .trivial
    · next hiso => exact hsecondary .trivial
  | nonTrivial =>
    simp only [Visited, hkind]
    split
    · next hiso => simpa [hself, hiso] using hprimary .nonTrivial
    · next hiso => exact hsecondary .nonTrivial
  | allObjects => simpa [hself, Visited] using hprimary .allObjects

/-! ## Swapping the root -/

/-- What a new root changes: only the classes of the two roots and links within the region. -/
structure Swapped (r : RegionTrace O) (iso nroot : O) (objects : List O) (r' : RegionTrace O) :
    Prop where
  /-- The region is the same. -/
  self_eq : r'.self = r.self
  /-- The allocated objects are the same. -/
  allocated_eq : r'.allocated = r.allocated
  /-- The classes of the roots are exchanged. -/
  cls_eq : ∀ x, r'.cls x = if x = nroot then .iso else if x = iso then .unmarked else r.cls x
  /-- The links of other objects are the same. -/
  next_eq : ∀ x ∉ objects, x ≠ r.self → r'.next x = r.next x
  /-- The additional roots are the same. -/
  additionalEntryPoints_eq : r'.additionalEntryPoints = r.additionalEntryPoints

/-- The rings with the new root, when the links are those that `swap_root_internal` writes. -/
theorem Swapped.rings {objects : List O} (hs : Swapped r iso nroot objects r')
    (hfields : ∀ x, D.fields x = []) (h : Rings D iso prim sec r) {prim' sec' : List O}
    (hperm : (nroot :: (prim' ++ sec')).Perm (iso :: (prim ++ sec)))
    (hprimary : Path r'.next (prim' ++ [nroot]) (r'.next r.self) (some r.self))
    (hsecondary : Path r'.next sec' r'.nextNotRoot (some r.self))
    (hlast : r'.lastNotRoot = some (sec'.getLast?.getD r.self))
    (hprim : ∀ x ∈ prim', D.isTrivial x = D.isTrivial nroot)
    (hsec : ∀ x ∈ sec', D.isTrivial x = !D.isTrivial nroot) : Rings D nroot prim' sec' r' := by
  have hnodup : (r.self :: nroot :: (prim' ++ sec')).Nodup :=
    (hperm.cons r.self).nodup_iff.mpr h.nodup
  have hmem {x : O} : x ∈ r.self :: nroot :: (prim' ++ sec') ↔ x ∈ r.self :: iso :: (prim ++ sec) :=
    (hperm.cons r.self).mem_iff
  have hself : r.self ∉ nroot :: (prim' ++ sec') := (List.nodup_cons.mp hnodup).1
  have hroot : nroot ∉ prim' ++ sec' := (List.nodup_cons.mp (List.nodup_cons.mp hnodup).2).1
  have hself_iso : r.self ≠ iso := fun heq => (List.nodup_cons.mp h.nodup).1 (heq ▸ List.mem_cons_self)
  obtain ⟨m, hpath, hm, hnext⟩ := Path.append_iff.mp hprimary
  obtain rfl : m = some nroot := hm
  refine ⟨?_, fun x hx => ?_, ?_, ?_, fun x hx => ?_, ?_, ?_, ?_, ?_, hprim, hsec, fun x _ f hf => ?_,
    fun x hx => ?_⟩
  · rw [hs.self_eq]
    exact hnodup
  · rw [hs.self_eq] at hx
    rw [hs.allocated_eq]
    exact h.allocated x (hmem.mp hx)
  · have hself_root : r.self ≠ nroot := fun heq => hself (heq ▸ List.mem_cons_self)
    rw [hs.self_eq, hs.cls_eq, if_neg hself_root, if_neg hself_iso, h.cls_self]
  · rw [hs.cls_eq, if_pos rfl]
  · have hne : x ≠ nroot := fun heq => hroot (heq ▸ hx)
    rw [hs.cls_eq, if_neg hne]
    split
    · rfl
    · next hne =>
      have hx' := hperm.mem_iff.mp (List.mem_cons_of_mem nroot hx)
      exact h.cls_eq x ((List.mem_cons.mp hx').resolve_left hne)
  · rw [hs.self_eq]
    exact hpath
  · rw [hs.self_eq]
    exact hnext
  · rw [hs.self_eq]
    exact hsecondary
  · rw [hs.self_eq]
    exact hlast
  · rw [hfields] at hf
    exact absurd hf List.not_mem_nil
  · rw [hs.additionalEntryPoints_eq] at hx
    exact hperm.mem_iff.mpr (h.roots_mem x hx)

/-- A ring that ends with `b` is rotated. -/
theorem rotateRing_spec {l₁ l₂ : List O} {b : O}
    (hpath : Path r.next (l₁ ++ [nroot] ++ (l₂ ++ [b])) (r.next r.self) (some r.self))
    (hnodup : (r.self :: (l₁ ++ [nroot] ++ (l₂ ++ [b]))).Nodup)
    (hmem : ∀ x ∈ r.self :: (l₁ ++ [nroot] ++ (l₂ ++ [b])), x ∈ r.allocated)
    (hself : r.cls r.self = .unmarked) (hroot : r.cls nroot = .unmarked)
    (hb : r.cls b = .unmarked ∨ r.cls b = .iso) :
    ∃ r', rotateRing r b nroot = some r' ∧
      r' = (r.initNext b (r.next r.self)).initNext r.self (r.next nroot) ∧
      Path (Function.update r'.next nroot (some r.self)) (l₂ ++ [b] ++ (l₁ ++ [nroot]))
        (r'.next r.self) (some r.self) := by
  obtain ⟨hself_out, hring⟩ := List.nodup_cons.mp hnodup
  obtain ⟨hl₁, hl₂, hdisj⟩ := List.nodup_append'.mp hring
  have hb_mem : b ∈ l₁ ++ [nroot] ++ (l₂ ++ [b]) := by simp
  have hroot_mem : nroot ∈ l₁ ++ [nroot] ++ (l₂ ++ [b]) := by simp
  have hb_self : b ≠ r.self := fun heq => hself_out (heq ▸ hb_mem)
  have hroot_self : nroot ≠ r.self := fun heq => hself_out (heq ▸ hroot_mem)
  have hb_root : b ≠ nroot := fun heq => hdisj (a := nroot) (by simp) (by simp [heq])
  obtain ⟨m, h₁, h₂⟩ := Path.append_iff.mp hpath
  obtain ⟨m', -, hm', hm⟩ := Path.append_iff.mp h₁
  obtain rfl : r.next nroot = m := hm
  obtain ⟨m₂, h₂, hm₂, hnext⟩ := Path.append_iff.mp h₂
  have hy : r.next nroot ≠ some r.self := by
    cases l₂ with
    | nil =>
      rw [show r.next nroot = m₂ from h₂, hm₂]
      exact fun heq => hb_self (Option.some.inj heq)
    | cons x l₂ =>
      rw [h₂.1]
      exact fun heq => hself_out (by simp [Option.some.inj heq])
  have hget_b : r.getNextAnyMark b = some (some r.self) := by
    rw [← hnext]
    exact if_pos ⟨hmem b (List.mem_cons_of_mem _ hb_mem),
      hb.elim (fun h => .inr (.inl h)) fun h => .inr (.inr (.inr h))⟩
  have hget_root : r.getNext nroot = some (r.next nroot) :=
    if_pos ⟨hmem nroot (List.mem_cons_of_mem _ hroot_mem), hroot⟩
  have hget_self : r.getNext r.self = some (r.next r.self) :=
    if_pos ⟨hmem _ List.mem_cons_self, hself⟩
  have hcls : (r.initNext b (r.next r.self)).cls r.self = .unmarked :=
    (Function.update_of_ne (Ne.symm hb_self) _ _).trans hself
  refine ⟨_, ?_, rfl, ?_⟩
  · rw [rotateRing, if_neg hb_root, hget_b, Option.bind_some, if_neg (by simp [hb_self]), hget_root,
      Option.bind_some, if_neg hy, hget_self, Option.bind_some]
    exact if_pos ⟨hmem _ List.mem_cons_self, hcls⟩
  · have hself_next : ((r.initNext b (r.next r.self)).initNext r.self (r.next nroot)).next r.self =
        r.next nroot := Function.update_self ..
    have hself_update : Function.update
        ((r.initNext b (r.next r.self)).initNext r.self (r.next nroot)).next nroot (some r.self) r.self =
        r.next nroot := (Function.update_of_ne (Ne.symm hroot_self) _ _).trans hself_next
    have hrotate : ∀ {next'}, next' r.self = r.next nroot →
        Path next' (l₂ ++ [b] ++ (l₁ ++ [nroot])) (next' r.self) (some r.self) →
        Path next' (l₂ ++ [b] ++ (l₁ ++ [nroot])) (r.next nroot) (some r.self) :=
      fun heq hring => heq ▸ hring
    rw [hself_next]
    refine hrotate hself_update (hpath.rotate hring ?_ hself_update (Function.update_self ..)
      fun x hx => ?_)
    · rw [Function.update_of_ne hb_root]
      exact (Function.update_of_ne hb_self _ _).trans (Function.update_self ..)
    · have hx_ring : x ∈ l₁ ++ [nroot] ++ (l₂ ++ [b]) := by
        simp only [List.mem_append] at hx ⊢
        tauto
      have hx_self : x ≠ r.self := fun heq => hself_out (heq ▸ hx_ring)
      have hx_root : x ≠ nroot := by
        rintro rfl
        rcases List.mem_append.mp hx with hx | hx
        · exact (List.nodup_append'.mp hl₁).2.2 hx (List.mem_singleton_self _)
        · exact hdisj (a := x) (by simp) (by simp [hx])
      have hx_b : x ≠ b := by
        rintro rfl
        rcases List.mem_append.mp hx with hx | hx
        · exact hdisj (a := x) (by simp [hx]) (by simp)
        · exact (List.nodup_append'.mp hl₂).2.2 hx (List.mem_singleton_self _)
      rw [Function.update_of_ne hx_root]
      exact (Function.update_of_ne hx_self _ _).trans (Function.update_of_ne hx_b _ _)

/-- The region when the primary ring has the new root: it has the objects of `ring` and then `b`, the
secondary ring those of `sec'`. -/
structure Exchanged (D : Descriptors O) (r : RegionTrace O) (iso nroot : O) (objects ring sec' : List O)
    (b : O) (r' : RegionTrace O) : Prop where
  /-- The region is the same. -/
  self_eq : r'.self = r.self
  /-- The allocated objects are the same. -/
  allocated_eq : r'.allocated = r.allocated
  /-- The class of the old root; it is no longer an entry point when the rings were exchanged. -/
  cls_iso : r'.cls iso = if b = iso then .iso else .unmarked
  /-- The classes of other objects are the same. -/
  cls_eq : ∀ x, x ≠ iso → r'.cls x = r.cls x
  /-- The links of other objects are the same. -/
  next_eq : ∀ x ∉ objects, x ≠ r.self → r'.next x = r.next x
  /-- The additional roots are the same. -/
  additionalEntryPoints_eq : r'.additionalEntryPoints = r.additionalEntryPoints
  /-- The new root is in the primary ring. -/
  mem : nroot ∈ ring ++ [b]
  /-- The primary ring. -/
  primary : Path r'.next (ring ++ [b]) (r'.next r.self) (some r.self)
  /-- The secondary ring. -/
  secondary : Path r'.next sec' r'.nextNotRoot (some r.self)
  /-- The last object of the secondary ring, or the metadata object. -/
  last : r'.lastNotRoot = some (sec'.getLast?.getD r.self)
  /-- The rings have the same objects. -/
  perm : (ring ++ [b] ++ sec').Perm objects
  /-- The primary ring has the objects that are trivial if and only if the new root is. -/
  isTrivial_primary : ∀ x ∈ ring ++ [b], D.isTrivial x = D.isTrivial nroot
  /-- The secondary ring has the others. -/
  isTrivial_secondary : ∀ x ∈ sec', D.isTrivial x = !D.isTrivial nroot

/-- The primary ring with the entry point. -/
theorem Rings.primary_iso (h : Rings D iso prim sec r) :
    Path r.next (prim ++ [iso]) (r.next r.self) (some r.self) :=
  Path.append_iff.mpr ⟨some iso, h.primary, rfl, h.next_iso⟩

/-- The rings are exchanged when the new root is in the secondary one. -/
theorem swapRings_spec (h : Rings D iso prim sec r) (hroot : nroot ∈ prim ++ sec) :
    ∃ r' ring b sec', swapRings D r iso nroot = some (r', b) ∧
      Exchanged D r iso nroot (iso :: (prim ++ sec)) ring sec' b r' := by
  have hperm : (prim ++ [iso] ++ sec).Perm (iso :: (prim ++ sec)) := by
    rw [List.append_assoc]
    exact List.perm_middle
  rcases List.mem_append.mp hroot with hprim | hsec
  · have hkind := h.isTrivial_primary nroot hprim
    refine ⟨r, prim, iso, sec, if_pos hkind.symm, rfl, rfl, ?_, fun _ _ => rfl, fun _ _ _ => rfl, rfl,
      List.mem_append_left _ hprim, h.primary_iso, h.secondary, h.last, hperm, fun x hx => ?_,
      fun x hx => ?_⟩
    · rw [if_pos rfl, h.cls_iso]
    · rcases List.mem_append.mp hx with hx | hx
      · exact (h.isTrivial_primary x hx).trans hkind.symm
      · rw [List.mem_singleton.mp hx, hkind]
    · rw [h.isTrivial_secondary x hx, hkind]
  · have hkind := h.isTrivial_secondary nroot hsec
    obtain ⟨ring, b, rfl⟩ : ∃ ring b, sec = ring ++ [b] := by
      rcases List.eq_nil_or_concat' sec with rfl | hsec'
      · cases hsec
      · exact hsec'
    have hrings := h.nodup
    simp only [List.nodup_cons, List.mem_cons, List.mem_append, List.nodup_append', not_or] at hrings
    obtain ⟨⟨hself_iso, hself_prim, hself_ring, -⟩, ⟨hiso_prim, hiso_ring, hiso_b⟩, -⟩ := hrings
    have hb_iso : b ≠ iso := fun heq => hiso_b.1 heq.symm
    have hb := h.live (x := b) (by simp)
    have hlast : r.lastNotRoot = some b := by
      rw [h.last]
      simp
    obtain ⟨m, -, hm, hnext⟩ := Path.append_iff.mp h.secondary
    obtain rfl : m = some b := hm
    have hself := h.allocated _ List.mem_cons_self
    have hget_b : r.getNext b = some (some r.self) := by
      rw [← hnext]
      exact if_pos ⟨hb.1, h.cls_eq b (by simp)⟩
    have hget_self : r.getNext r.self = some (r.next r.self) := if_pos ⟨hself, h.cls_self⟩
    have hset : r.setNext r.self r.nextNotRoot = some (r.initNext r.self r.nextNotRoot) :=
      if_pos ⟨hself, h.cls_self⟩
    let r' : RegionTrace O :=
      { r.initNext r.self r.nextNotRoot with
        nextNotRoot := r.next r.self, lastNotRoot := some iso }.initNext iso (some r.self)
    have hnext_self : r'.next r.self = r.nextNotRoot :=
      (Function.update_of_ne hself_iso _ _).trans (Function.update_self ..)
    have hnext_eq : ∀ x, x ≠ r.self → r'.next x = r.next x := by
      intro x hx
      by_cases hiso : x = iso
      · rw [hiso, h.next_iso]
        exact Function.update_self ..
      · exact (Function.update_of_ne hiso _ _).trans (Function.update_of_ne hx _ _)
    refine ⟨r', ring, b, prim ++ [iso], ?_, rfl, rfl, ?_, fun x hx => ?_, fun x _ hx => hnext_eq x hx,
      rfl, hsec, ?_, ?_, by simp [r', initNext], ?_, fun x hx => ?_, fun x hx => ?_⟩
    · have hne : ¬ D.isTrivial iso = D.isTrivial nroot := by
        rw [hkind]
        simp
      rw [swapRings, if_neg hne, hlast, Option.bind_some, hget_b, Option.bind_some,
        if_neg (not_not.mpr rfl), hget_self, Option.bind_some, hset]
      rfl
    · rw [if_neg hb_iso]
      exact Function.update_self ..
    · change Function.update (Function.update r.cls r.self .unmarked) iso .unmarked x = _
      rw [Function.update_of_ne hx, Function.update_apply]
      split
      · next heq => rw [heq, h.cls_self]
      · rfl
    · rw [hnext_self]
      exact h.secondary.congr fun x hx =>
        hnext_eq x (h.live (List.mem_cons_of_mem iso (List.mem_append_right prim hx))).2.2
    · refine h.primary_iso.congr fun x hx => hnext_eq x (h.live (x := x) ?_).2.2
      simp only [List.mem_append, List.mem_cons, List.not_mem_nil, or_false] at hx ⊢
      tauto
    · exact List.perm_append_comm.trans hperm
    · rw [h.isTrivial_secondary x hx, hkind]
    · rw [hkind, Bool.not_not]
      rcases List.mem_append.mp hx with hx | hx
      · exact h.isTrivial_primary x hx
      · rw [List.mem_singleton.mp hx]

/-- The last object of the primary ring is the new root. -/
theorem Exchanged.initIso (hx : Exchanged D r iso nroot (iso :: (prim ++ sec)) ring sec' nroot r₁)
    (hfields : ∀ x, D.fields x = []) (h : Rings D iso prim sec r) (hroot : nroot ∈ prim ++ sec) :
    Rings D nroot ring sec' (r₁.initIso nroot) ∧
      (nroot :: (ring ++ sec')).Perm (iso :: (prim ++ sec)) ∧
      Swapped r iso nroot (iso :: (prim ++ sec)) (r₁.initIso nroot) := by
  have hiso_out : iso ∉ prim ++ sec := (List.nodup_cons.mp (List.nodup_cons.mp h.nodup).2).1
  have hroot_mem : nroot ∈ iso :: (prim ++ sec) := List.mem_cons_of_mem _ hroot
  have hroot_iso : nroot ≠ iso := fun heq => hiso_out (heq ▸ hroot)
  have hs : Swapped r iso nroot (iso :: (prim ++ sec)) (r₁.initIso nroot) := by
    refine ⟨hx.self_eq, hx.allocated_eq, fun x => ?_, fun x hout hself => ?_,
      hx.additionalEntryPoints_eq⟩
    · change Function.update r₁.cls nroot .iso x = _
      rw [Function.update_apply]
      split
      · rfl
      · split
        · next heq => rw [heq, hx.cls_iso, if_neg hroot_iso]
        · next hne => exact hx.cls_eq x hne
    · have hne : x ≠ nroot := fun heq => hout (heq ▸ hroot_mem)
      exact (Function.update_of_ne hne _ _).trans (hx.next_eq x hout hself)
  have hperm : (nroot :: (ring ++ sec')).Perm (iso :: (prim ++ sec)) := by
    refine List.Perm.trans ?_ hx.perm
    rw [List.append_assoc]
    exact List.perm_middle.symm
  refine ⟨?_, hperm, hs⟩
  obtain ⟨m, -, hm, hnext⟩ := Path.append_iff.mp hx.primary
  obtain rfl : m = some nroot := hm
  have hkeep : ∀ x, (r₁.initIso nroot).next x = r₁.next x := by
    intro x
    change Function.update r₁.next nroot (some r₁.self) x = _
    rw [Function.update_apply]
    split
    · next heq => rw [heq, hnext, hx.self_eq]
    · rfl
  refine hs.rings hfields h hperm ?_ ?_ hx.last
    (fun x hring => hx.isTrivial_primary x (List.mem_append_left _ hring)) hx.isTrivial_secondary
  · rw [hkeep]
    exact hx.primary.congr fun x _ => hkeep x
  · exact hx.secondary.congr fun x _ => hkeep x

/-- The primary ring is rotated so that the new root is its last object. -/
theorem Exchanged.rotated (hx : Exchanged D r iso nroot (iso :: (prim ++ sec)) ring sec' b r₁)
    (hfields : ∀ x, D.fields x = []) (h : Rings D iso prim sec r) (hroot : nroot ∈ prim ++ sec)
    (hb : b ≠ nroot) : ∃ r₂ prim', rotateRing r₁ b nroot = some r₂ ∧
      Rings D nroot prim' sec' (r₂.initIso nroot) ∧
      (nroot :: (prim' ++ sec')).Perm (iso :: (prim ++ sec)) ∧
      Swapped r iso nroot (iso :: (prim ++ sec)) (r₂.initIso nroot) := by
  have hself_out : r.self ∉ iso :: (prim ++ sec) := (List.nodup_cons.mp h.nodup).1
  have hiso_out : iso ∉ prim ++ sec := (List.nodup_cons.mp (List.nodup_cons.mp h.nodup).2).1
  have hroot_mem : nroot ∈ iso :: (prim ++ sec) := List.mem_cons_of_mem _ hroot
  have hroot_self : nroot ≠ r.self := fun heq => hself_out (heq ▸ hroot_mem)
  have hroot_iso : nroot ≠ iso := fun heq => hiso_out (heq ▸ hroot)
  have hnodup : (r.self :: (ring ++ [b] ++ sec')).Nodup :=
    (hx.perm.cons r.self).nodup_iff.mpr h.nodup
  have hmem {x : O} (hring : x ∈ ring ++ [b] ++ sec') : x ∈ iso :: (prim ++ sec) :=
    hx.perm.mem_iff.mp hring
  have hself_iso : r.self ≠ iso := fun heq => hself_out (heq ▸ List.mem_cons_self)
  have hcls_root : r₁.cls nroot = .unmarked := by
    rw [hx.cls_eq nroot hroot_iso]
    exact h.cls_eq nroot hroot
  have hsec_root : nroot ∉ sec' := fun hsec =>
    (List.nodup_append'.mp (List.nodup_cons.mp hnodup).2).2.2 hx.mem hsec
  obtain ⟨l₁, l₂, rfl⟩ : ∃ l₁ l₂, ring = l₁ ++ nroot :: l₂ := by
    have hring := (List.mem_append.mp hx.mem).resolve_right fun hlast =>
      hb (List.mem_singleton.mp hlast).symm
    exact List.append_of_mem hring
  have hsplit : l₁ ++ nroot :: l₂ ++ [b] = l₁ ++ [nroot] ++ (l₂ ++ [b]) := by simp
  have hring_nodup : (r₁.self :: (l₁ ++ [nroot] ++ (l₂ ++ [b]))).Nodup := by
    rw [← hsplit, hx.self_eq]
    refine hnodup.sublist (List.Sublist.cons_cons _ ?_)
    exact List.sublist_append_left ..
  have hb_mem : b ∈ iso :: (prim ++ sec) := hmem (by simp)
  have hb_self : b ≠ r.self := fun heq => hself_out (heq ▸ hb_mem)
  have hsec_b : b ∉ sec' := fun hsec =>
    (List.nodup_append'.mp (List.nodup_cons.mp hnodup).2).2.2 (by simp) hsec
  have hcls_self : r₁.cls r₁.self = .unmarked := by
    rw [hx.self_eq, hx.cls_eq _ hself_iso, h.cls_self]
  have hcls_b : r₁.cls b = .unmarked ∨ r₁.cls b = .iso := by
    by_cases heq : b = iso
    · right
      have hcls := hx.cls_iso
      rwa [if_pos heq, ← heq] at hcls
    · left
      rw [hx.cls_eq b heq]
      exact h.cls_eq b ((List.mem_cons.mp hb_mem).resolve_left heq)
  have hring_mem : ∀ x ∈ r₁.self :: (l₁ ++ [nroot] ++ (l₂ ++ [b])), x ∈ r₁.allocated := by
    intro x hring
    rw [hx.self_eq, ← hsplit] at hring
    rw [hx.allocated_eq]
    refine h.allocated x ?_
    rcases List.mem_cons.mp hring with rfl | hring
    · exact List.mem_cons_self
    · exact List.mem_cons_of_mem _ (hmem (List.mem_append_left _ hring))
  obtain ⟨r₂, hrotate, hr₂, hpath⟩ := rotateRing_spec (by rw [← hsplit, hx.self_eq]; exact hx.primary)
    hring_nodup hring_mem hcls_self hcls_root hcls_b
  have hself₂ : r₂.self = r.self := by
    rw [hr₂]
    exact hx.self_eq
  have hnext₂ : ∀ x, x ≠ b → x ≠ r.self → r₂.next x = r₁.next x := by
    intro x hxb hself
    rw [hr₂]
    exact (Function.update_of_ne (hx.self_eq ▸ hself) _ _).trans (Function.update_of_ne hxb _ _)
  have hs : Swapped r iso nroot (iso :: (prim ++ sec)) (r₂.initIso nroot) := by
    refine ⟨hself₂, ?_, fun x => ?_, fun x hout hself => ?_, ?_⟩
    · rw [hr₂]
      exact hx.allocated_eq
    · change Function.update r₂.cls nroot .iso x = _
      rw [hr₂, Function.update_apply]
      split
      · rfl
      · change Function.update (Function.update r₁.cls b .unmarked) r₁.self .unmarked x = _
        rw [hx.self_eq, Function.update_apply, Function.update_apply]
        split
        · next heq => rw [heq, if_neg hself_iso, h.cls_self]
        · split
          · next heq =>
            split
            · rfl
            · next hne =>
              rw [heq] at hne ⊢
              exact (h.cls_eq b ((List.mem_cons.mp hb_mem).resolve_left hne)).symm
          · next hne =>
            split
            · next heq => rw [heq, hx.cls_iso, if_neg fun heq' => hne (heq.trans heq'.symm)]
            · next hne' => exact hx.cls_eq x hne'
    · have hne : x ≠ nroot := fun heq => hout (heq ▸ hroot_mem)
      have hne_b : x ≠ b := fun heq => hout (heq ▸ hb_mem)
      exact (Function.update_of_ne hne _ _).trans
        ((hnext₂ x hne_b hself).trans (hx.next_eq x hout hself))
    · rw [hr₂]
      exact hx.additionalEntryPoints_eq
  have hperm : (nroot :: (l₂ ++ [b] ++ l₁ ++ sec')).Perm (iso :: (prim ++ sec)) := by
    refine List.Perm.trans ?_ hx.perm
    rw [hsplit, ← List.cons_append]
    refine List.Perm.append_right _ ?_
    rw [List.append_assoc l₁, List.singleton_append]
    refine (List.Perm.cons nroot List.perm_append_comm).trans ?_
    exact List.perm_middle.symm
  refine ⟨r₂, l₂ ++ [b] ++ l₁, hrotate, ?_, hperm, hs⟩
  refine hs.rings hfields h hperm ?_ ?_ ?_ (fun x hring => hx.isTrivial_primary x ?_)
    hx.isTrivial_secondary
  · rw [List.append_assoc (l₂ ++ [b]), ← hself₂]
    have hnext : (r₂.initIso nroot).next r₂.self = r₂.next r₁.self := by
      rw [hself₂, hx.self_eq]
      exact Function.update_of_ne (Ne.symm hroot_self) _ _
    rw [hnext, hself₂, ← hx.self_eq]
    change Path (Function.update r₂.next nroot (some r₂.self)) _ _ _
    rw [hself₂, ← hx.self_eq]
    exact hpath
  · change Path (Function.update r₂.next nroot (some r₂.self)) sec' r₂.nextNotRoot _
    refine Path.update ?_ hsec_root
    have hfirst : r₂.nextNotRoot = r₁.nextNotRoot := by
      rw [hr₂]
      rfl
    rw [hfirst]
    refine hx.secondary.congr fun x hsec => hnext₂ x (fun heq => hsec_b (heq ▸ hsec)) ?_
    exact fun heq => hself_out (heq ▸ hmem (List.mem_append_right _ hsec))
  · change r₂.lastNotRoot = _
    rw [hr₂]
    exact hx.last
  · simp only [List.mem_append, List.mem_cons, List.not_mem_nil, or_false] at hring ⊢
    tauto

/-- The root is swapped: the rings have the same objects, and the new root is the entry point. -/
theorem swapRootInternal_spec (hfields : ∀ x, D.fields x = []) (h : Rings D iso prim sec r)
    (hroot : nroot ∈ prim ++ sec) {fuel : ℕ} (hfuel : (prim ++ [iso] ++ sec).length ≤ fuel) :
    ∃ r' prim' sec', swapRootInternal D fuel r iso nroot = some r' ∧ Rings D nroot prim' sec' r' ∧
      (nroot :: (prim' ++ sec')).Perm (iso :: (prim ++ sec)) ∧
      Swapped r iso nroot (iso :: (prim ++ sec)) r' := by
  obtain ⟨r₁, ring, b, sec', hswap, hx⟩ := swapRings_spec h hroot
  have hlisted : nroot ∈ prim ++ [iso] ++ sec := by
    simp only [List.mem_append] at hroot ⊢
    tauto
  have hcode : swapRootInternal D fuel r iso nroot =
      (rotateRing r₁ b nroot).map fun r => r.initIso nroot := by
    rw [swapRootInternal, objects_spec h .allObjects hfuel, Option.bind_some, Visited,
      if_neg (not_not.mpr hlisted), hswap, Option.bind_some]
  by_cases hb : b = nroot
  · subst hb
    have hrotate : rotateRing r₁ b b = some r₁ := if_pos rfl
    exact ⟨_, ring, sec', by rw [hcode, hrotate, Option.map_some], hx.initIso hfields h hroot⟩
  · obtain ⟨r₂, prim', hrotate, hrings⟩ := hx.rotated hfields h hroot hb
    exact ⟨_, prim', sec', by rw [hcode, hrotate, Option.map_some], hrings⟩

end VeronaRt.RegionTrace
