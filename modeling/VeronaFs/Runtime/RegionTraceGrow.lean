import VeronaFs.Runtime.RegionTraceMark

/-!
# Allocation and merging in trace regions

`RegionTrace::create`, `alloc` and `merge_internal`.  New objects are inserted behind the metadata
object, in the ring for their kind, and so are both rings of a region that is merged.  The rings of a
region stay rings.
-/

set_option linter.unusedSectionVars false

namespace VeronaRt.RegionTrace

open Foundation

variable {O : Type*} [DecidableEq O] {D D' : Descriptors O} {r r' : RegionTrace O} {iso hd tl : O}
  {prim sec l : List O} {q : Option O}

/-! ## Code -/

/-- A new region with the entry point `o` and the metadata object `self`, in the heap of `cls` and
`next`. -/
def create (D : Descriptors O) (cls : O → RegionMD) (next : O → Option O) (self o : O) :
    RegionTrace O where
  self := self
  allocated := {self, o}
  cls := Function.update (Function.update cls self .unmarked) o .iso
  next := Function.update (Function.update next self (some o)) o (some self)
  nextNotRoot := some self
  lastNotRoot := some self
  currentMemoryUsed := D.size o
  previousMemoryUsed := 0
  additionalEntryPoints := []
  externalReferences := ∅
  remembered := []
  events := []

/-- Insert the objects that are linked from `hd` to `tl` in the ring for their kind, behind the
metadata object. -/
def append (D : Descriptors O) (r : RegionTrace O) (hd tl : O) : Option (RegionTrace O) :=
  (r.getNext r.self).bind fun next => next.bind fun p =>
    if D.isTrivial hd = D.isTrivial p then (r.initNext tl (some p)).setNext r.self (some hd)
    else
      let r := r.initNext tl r.nextNotRoot
      some { r with
        nextNotRoot := some hd
        lastNotRoot := if r.lastNotRoot = some r.self then some tl else r.lastNotRoot }

/-- Allocate the object `o`. -/
def alloc (D : Descriptors O) (r : RegionTrace O) (o : O) : Option (RegionTrace O) :=
  (append D { r with allocated := insert o r.allocated } o o).map fun r => r.useMemory (D.size o)

/-- Move the objects of another region with the entry point `o` to the region. -/
def mergeInternal (D : Descriptors O) (sizeclass : ℕ → ℕ) (r : RegionTrace O) (o : O)
    (other : RegionTrace O) : Option (RegionTrace O) :=
  (other.getNext other.self).bind fun head =>
    let r := { r with allocated := r.allocated ∪ other.allocated.erase other.self }
    (if head = some other.self then some r
      else head.bind fun head => append D r head o).bind fun r =>
    (if other.nextNotRoot = some other.self then some r
      else other.nextNotRoot.bind fun head => other.lastNotRoot.bind fun last =>
        append D r head last).map fun r =>
    { r with
      currentMemoryUsed := r.currentMemoryUsed + other.currentMemoryUsed
      previousMemoryUsed := sizeclass (other.previousMemoryUsed + other.previousMemoryUsed) }

/-! ## The rings -/

/-- The rings stay when the headers of their objects do. -/
theorem Rings.frame (h : Rings D iso prim sec r) (hself : r'.self = r.self)
    (hmem : ∀ x ∈ r.self :: iso :: (prim ++ sec),
      x ∈ r'.allocated ∧ r'.cls x = r.cls x ∧ r'.next x = r.next x)
    (hfirst : r'.nextNotRoot = r.nextNotRoot) (hlast : r'.lastNotRoot = r.lastNotRoot)
    (hroots : r'.additionalEntryPoints = r.additionalEntryPoints)
    (htrivial : ∀ x ∈ iso :: (prim ++ sec), D'.isTrivial x = D.isTrivial x)
    (hfields : ∀ x ∈ iso :: (prim ++ sec), ∀ f ∈ D'.fields x,
      f ∈ iso :: (prim ++ sec) ∨ Foreign (r'.cls f)) :
    Rings D' iso prim sec r' := by
  have hobject {x : O} (hx : x ∈ prim ++ sec) : x ∈ r.self :: iso :: (prim ++ sec) :=
    List.mem_cons_of_mem _ (List.mem_cons_of_mem _ hx)
  have hself_mem : r.self ∈ r.self :: iso :: (prim ++ sec) := List.mem_cons_self
  have hiso_mem : iso ∈ r.self :: iso :: (prim ++ sec) := List.mem_cons_of_mem _ List.mem_cons_self
  refine ⟨?_, fun x hx => ?_, ?_, ?_, fun x hx => ?_, ?_, ?_, ?_, ?_, fun x hx => ?_, fun x hx => ?_,
    hfields, ?_⟩
  · rw [hself]
    exact h.nodup
  · rw [hself] at hx
    exact (hmem x hx).1
  · rw [hself, (hmem _ hself_mem).2.1, h.cls_self]
  · rw [(hmem _ hiso_mem).2.1, h.cls_iso]
  · rw [(hmem x (hobject hx)).2.1, h.cls_eq x hx]
  · rw [hself, (hmem _ hself_mem).2.2]
    exact h.primary.congr fun x hx => (hmem x (hobject (List.mem_append_left _ hx))).2.2
  · rw [(hmem _ hiso_mem).2.2, hself, h.next_iso]
  · rw [hfirst, hself]
    exact h.secondary.congr fun x hx => (hmem x (hobject (List.mem_append_right _ hx))).2.2
  · rw [hlast, hself, h.last]
  · rw [htrivial x (List.mem_cons_of_mem _ (List.mem_append_left _ hx)),
      htrivial iso List.mem_cons_self, h.isTrivial_primary x hx]
  · rw [htrivial x (List.mem_cons_of_mem _ (List.mem_append_right _ hx)),
      htrivial iso List.mem_cons_self, h.isTrivial_secondary x hx]
  · rw [hroots]
    exact h.roots_mem

/-- A new region has the entry point alone. -/
theorem create_rings (hfields : ∀ x, D.fields x = []) (cls : O → RegionMD) (next : O → Option O)
    {self : O} (hne : self ≠ iso) : Rings D iso [] [] (create D cls next self iso) := by
  have hcls : (create D cls next self iso).cls self = .unmarked := by
    change Function.update _ iso _ self = _
    rw [Function.update_of_ne hne, Function.update_self]
  have hnext : (create D cls next self iso).next self = some iso := by
    change Function.update _ iso _ self = _
    rw [Function.update_of_ne hne, Function.update_self]
  refine ⟨?_, fun x hx => ?_, hcls, Function.update_self .., nofun, hnext, Function.update_self ..,
    rfl, rfl, nofun, nofun, fun x _ f hf => ?_, nofun⟩
  · simpa [create] using hne
  · simpa [create] using hx
  · rw [hfields] at hf
    exact absurd hf List.not_mem_nil

/-- What inserting objects leaves of other ones. -/
structure Appended (r : RegionTrace O) (tl : O) (r' : RegionTrace O) : Prop where
  /-- The region is the same. -/
  self_eq : r'.self = r.self
  /-- The allocated objects are the same. -/
  allocated_eq : r'.allocated = r.allocated
  /-- The last of the inserted objects is a mutable one. -/
  cls_eq : r'.cls = Function.update r.cls tl .unmarked
  /-- The links of others are the same. -/
  next_eq : ∀ x, x ≠ tl → x ≠ r.self → r'.next x = r.next x
  /-- The additional roots are the same. -/
  additionalEntryPoints_eq : r'.additionalEntryPoints = r.additionalEntryPoints

/-- What is known of the objects that are linked from `hd` to `tl` and are inserted. -/
structure Segment (D : Descriptors O) (r : RegionTrace O) (objects l : List O) (hd tl : O) (k : Bool) :
    Prop where
  /-- The links. -/
  path : ∃ q, Path r.next (l ++ [tl]) (some hd) q
  /-- The objects are different ones. -/
  nodup : (l ++ [tl]).Nodup
  /-- They are not yet in the region. -/
  out : ∀ x ∈ l ++ [tl], x ∉ objects
  /-- They are allocated. -/
  mem : ∀ x ∈ l ++ [tl], x ∈ r.allocated
  /-- They are mutable, and the last one may be the entry point of another region. -/
  cls_eq : ∀ x ∈ l, r.cls x = .unmarked
  /-- They are of one kind. -/
  kind : ∀ x ∈ l ++ [tl], D.isTrivial x = k

/-- The rings with objects that are inserted, when the links are those that `append` writes. -/
theorem Segment.rings {k : Bool} (hs : Segment D r (r.self :: iso :: (prim ++ sec)) l hd tl k)
    (hfields : ∀ x, D.fields x = []) (h : Rings D iso prim sec r) (ha : Appended r tl r')
    {prim' sec' : List O} (hperm : (prim' ++ sec').Perm (l ++ [tl] ++ (prim ++ sec)))
    (hprimary : Path r'.next prim' (r'.next r.self) (some iso))
    (hsecondary : Path r'.next sec' r'.nextNotRoot (some r.self))
    (hlast : r'.lastNotRoot = some (sec'.getLast?.getD r.self))
    (hprim : ∀ x ∈ prim', x ∈ prim ∨ x ∈ l ++ [tl] ∧ k = D.isTrivial iso)
    (hsec : ∀ x ∈ sec', x ∈ sec ∨ x ∈ l ++ [tl] ∧ k = !D.isTrivial iso) :
    Rings D iso prim' sec' r' := by
  have hmem {x : O} : x ∈ prim' ++ sec' ↔ x ∈ l ++ [tl] ∨ x ∈ prim ++ sec := by
    rw [hperm.mem_iff, List.mem_append (s := l ++ [tl])]
  have htl {x : O} (hx : x ∈ r.self :: iso :: (prim ++ sec)) : x ≠ tl := fun heq =>
    hs.out tl (by simp) (heq ▸ hx)
  have hself_mem : r.self ∈ r.self :: iso :: (prim ++ sec) := List.mem_cons_self
  have hiso_mem : iso ∈ r.self :: iso :: (prim ++ sec) := List.mem_cons_of_mem _ List.mem_cons_self
  have hobject {x : O} (hx : x ∈ prim ++ sec) : x ∈ r.self :: iso :: (prim ++ sec) :=
    List.mem_cons_of_mem _ (List.mem_cons_of_mem _ hx)
  have hcls {x : O} (hx : x ≠ tl) : r'.cls x = r.cls x := by
    rw [ha.cls_eq, Function.update_of_ne hx]
  have hrings := h.nodup
  simp only [List.nodup_cons, List.mem_cons, not_or] at hrings
  obtain ⟨⟨hself_iso, hself⟩, hiso, hnodup⟩ := hrings
  refine ⟨?_, fun x hx => ?_, ?_, ?_, fun x hx => ?_, ?_, ?_, ?_, ?_, fun x hx => ?_, fun x hx => ?_,
    fun x _ f hf => ?_, fun x hx => ?_⟩
  · rw [ha.self_eq]
    have hall : (r.self :: iso :: (l ++ [tl] ++ (prim ++ sec))).Nodup := by
      refine List.nodup_cons.mpr ⟨?_, List.nodup_cons.mpr ⟨?_, ?_⟩⟩
      · rw [List.mem_cons, List.mem_append, not_or, not_or]
        exact ⟨hself_iso, fun hx => hs.out _ hx hself_mem, hself⟩
      · rw [List.mem_append, not_or]
        exact ⟨fun hx => hs.out _ hx hiso_mem, hiso⟩
      · exact hs.nodup.append hnodup fun x hx hx' => hs.out x hx (hobject hx')
    exact ((hperm.cons iso).cons r.self).nodup_iff.mpr hall
  · rw [ha.self_eq, List.mem_cons, List.mem_cons, hmem] at hx
    rw [ha.allocated_eq]
    rcases hx with rfl | rfl | hx | hx
    · exact h.allocated _ hself_mem
    · exact h.allocated _ hiso_mem
    · exact hs.mem x hx
    · exact h.allocated x (hobject hx)
  · rw [ha.self_eq, hcls (htl hself_mem), h.cls_self]
  · rw [hcls (htl hiso_mem), h.cls_iso]
  · by_cases heq : x = tl
    · rw [ha.cls_eq, heq, Function.update_self]
    · rw [hcls heq]
      rcases hmem.mp hx with hx | hx
      · exact hs.cls_eq x ((List.mem_append.mp hx).resolve_right fun hx => heq (List.mem_singleton.mp hx))
      · exact h.cls_eq x hx
  · rw [ha.self_eq]
    exact hprimary
  · rw [ha.next_eq iso (htl hiso_mem) (Ne.symm hself_iso), ha.self_eq, h.next_iso]
  · rw [ha.self_eq]
    exact hsecondary
  · rw [hlast, ha.self_eq]
  · rcases hprim x hx with hx | ⟨hx, hk⟩
    · exact h.isTrivial_primary x hx
    · exact (hs.kind x hx).trans hk
  · rcases hsec x hx with hx | ⟨hx, hk⟩
    · exact h.isTrivial_secondary x hx
    · exact (hs.kind x hx).trans hk
  · rw [hfields] at hf
    exact absurd hf List.not_mem_nil
  · rw [ha.additionalEntryPoints_eq] at hx
    exact (List.mem_cons.mp (h.roots_mem x hx)).elim (fun heq => heq ▸ List.mem_cons_self) fun hx =>
      List.mem_cons_of_mem _ (hmem.mpr (Or.inr hx))

/-- Objects of the kind of the entry point are inserted in the primary ring, others in the secondary
one. -/
theorem append_spec (hfields : ∀ x, D.fields x = []) (h : Rings D iso prim sec r) {k : Bool}
    (hs : Segment D r (r.self :: iso :: (prim ++ sec)) l hd tl k) :
    ∃ r', append D r hd tl = some r' ∧ Appended r tl r' ∧
      (k = D.isTrivial iso → Rings D iso (l ++ [tl] ++ prim) sec r') ∧
      (k ≠ D.isTrivial iso → Rings D iso prim (l ++ [tl] ++ sec) r') := by
  have hrings := h.nodup
  simp only [List.nodup_cons, List.mem_cons, List.mem_append, not_or] at hrings
  obtain ⟨⟨hself_iso, hself_prim, hself_sec⟩, -, -⟩ := hrings
  obtain ⟨q, hpath⟩ := hs.path
  have htl : tl ∉ r.self :: iso :: (prim ++ sec) := hs.out tl (by simp)
  simp only [List.mem_cons, List.mem_append, not_or] at htl
  obtain ⟨htl_self, -, htl_prim, htl_sec⟩ := htl
  have hl : tl ∉ l := fun hx => (List.nodup_append'.mp hs.nodup).2.2 hx (List.mem_singleton_self _)
  have hself_out : r.self ∉ l ++ [tl] := fun hx => hs.out _ hx List.mem_cons_self
  obtain ⟨p, hp, hp_kind⟩ : ∃ p, r.next r.self = some p ∧ D.isTrivial p = D.isTrivial iso := by
    have hprimary := h.primary
    cases prim with
    | nil => exact ⟨iso, hprimary, rfl⟩
    | cons p prim => exact ⟨p, hprimary.1, h.isTrivial_primary p List.mem_cons_self⟩
  have hhd : D.isTrivial hd = k := by
    refine hs.kind hd ?_
    cases l with
    | nil => rw [Option.some.inj hpath.1]; exact List.mem_singleton_self _
    | cons a l => rw [Option.some.inj hpath.1]; exact List.mem_cons_self
  have hcls_self : (r.initNext tl (some p)).cls r.self = .unmarked :=
    (Function.update_of_ne (Ne.symm htl_self) _ _).trans h.cls_self
  have hself_mem : r.self ∈ r.allocated := h.allocated _ List.mem_cons_self
  rw [append, getNext, if_pos ⟨hself_mem, h.cls_self⟩, Option.bind_some, hp, Option.bind_some, hhd,
    hp_kind]
  by_cases hk : k = D.isTrivial iso
  · rw [if_pos hk, setNext, if_pos ⟨hself_mem, hcls_self⟩]
    have ha : Appended r tl ((r.initNext tl (some p)).initNext r.self (some hd)) := by
      refine ⟨rfl, rfl, ?_, fun x hx hx' => ?_, rfl⟩
      · exact Function.update_eq_self_iff.mpr hcls_self.symm
      · exact (Function.update_of_ne hx' _ _).trans (Function.update_of_ne hx _ _)
    refine ⟨_, rfl, ha, fun _ => ?_, fun hne => absurd hk hne⟩
    refine hs.rings hfields h ha ?_ ?_ ?_ ?_ (fun x hx => ?_) fun x hx => Or.inl hx
    · rw [List.append_assoc]
    · have hnext : ((r.initNext tl (some p)).initNext r.self (some hd)).next r.self = some hd :=
        Function.update_self ..
      rw [hnext]
      refine Path.append_iff.mpr ⟨some p, (hpath.renext hl).update hself_out, ?_⟩
      rw [← hp]
      exact (h.primary.update htl_prim).update hself_prim
    · exact (h.secondary.update htl_sec).update hself_sec
    · exact h.last
    · exact (List.mem_append.mp hx).symm.imp_right fun hx => ⟨hx, hk⟩
  · rw [if_neg hk]
    have hk' : k = !D.isTrivial iso := by
      cases k <;> cases hiso : D.isTrivial iso <;> simp [hiso] at hk ⊢
    let r' : RegionTrace O := { r.initNext tl r.nextNotRoot with
      nextNotRoot := some hd
      lastNotRoot := if r.lastNotRoot = some r.self then some tl else r.lastNotRoot }
    have ha : Appended r tl r' := ⟨rfl, rfl, rfl, fun x hx _ => Function.update_of_ne hx _ _, rfl⟩
    refine ⟨r', rfl, ha, fun heq => absurd heq hk, fun _ => ?_⟩
    refine hs.rings hfields h ha ?_ ?_ ?_ ?_ (fun x hx => Or.inl hx) fun x hx => ?_
    · exact List.perm_append_comm_assoc prim (l ++ [tl]) sec
    · have hnext : r'.next r.self = r.next r.self := Function.update_of_ne (Ne.symm htl_self) _ _
      rw [hnext]
      exact h.primary.update htl_prim
    · exact Path.append_iff.mpr ⟨r.nextNotRoot, hpath.renext hl, h.secondary.update htl_sec⟩
    · change (if r.lastNotRoot = some r.self then some tl else r.lastNotRoot) = _
      rw [h.last]
      cases hsec : sec.getLast? with
      | none =>
        rw [List.getLast?_eq_none_iff.mp hsec]
        simp
      | some b =>
        have hb : b ≠ r.self := fun heq => hself_sec (heq ▸ List.mem_of_getLast? hsec)
        rw [List.getLast?_append, hsec]
        simp [hb]
    · exact (List.mem_append.mp hx).symm.imp_right fun hx => ⟨hx, hk'⟩

/-- Objects are inserted in one of the rings. -/
theorem append_rings (hfields : ∀ x, D.fields x = []) (h : Rings D iso prim sec r) {k : Bool}
    (hs : Segment D r (r.self :: iso :: (prim ++ sec)) l hd tl k) :
    ∃ r' prim' sec', append D r hd tl = some r' ∧ Appended r tl r' ∧ Rings D iso prim' sec' r' ∧
      (prim' ++ sec').Perm (l ++ [tl] ++ (prim ++ sec)) := by
  obtain ⟨r', hr', ha, hprim, hsec⟩ := append_spec hfields h hs
  by_cases hk : k = D.isTrivial iso
  · refine ⟨r', _, _, hr', ha, hprim hk, ?_⟩
    rw [List.append_assoc]
  · exact ⟨r', _, _, hr', ha, hsec hk, List.perm_append_comm_assoc prim (l ++ [tl]) sec⟩

/-- The region with new objects: the other ones are as before. -/
structure Grown (r : RegionTrace O) (new : List O) (r' : RegionTrace O) : Prop where
  /-- The region is the same. -/
  self_eq : r'.self = r.self
  /-- The new objects are allocated. -/
  allocated_eq : r'.allocated = r.allocated ∪ new.toFinset
  /-- The classes of other objects are the same. -/
  cls_eq : ∀ x ∉ new, r'.cls x = r.cls x
  /-- Their links are the same. -/
  next_eq : ∀ x ∉ new, x ≠ r.self → r'.next x = r.next x

/-- An object is allocated. -/
theorem alloc_spec (hfields : ∀ x, D.fields x = []) (h : Rings D iso prim sec r) {o : O}
    (ho : o ∉ r.self :: iso :: (prim ++ sec)) :
    ∃ r' prim' sec', alloc D r o = some r' ∧ Rings D iso prim' sec' r' ∧
      (prim' ++ sec').Perm (o :: (prim ++ sec)) ∧ Grown r [o] r' := by
  have h' : Rings D iso prim sec { r with allocated := insert o r.allocated } :=
    h.frame rfl (fun x hx => ⟨Finset.mem_insert_of_mem (h.allocated x hx), rfl, rfl⟩) rfl rfl rfl
      (fun _ _ => rfl) h.fields_mem
  have hs : Segment D { r with allocated := insert o r.allocated } (r.self :: iso :: (prim ++ sec)) []
      o o (D.isTrivial o) := by
    refine ⟨⟨r.next o, rfl, rfl⟩, List.nodup_singleton o, ?_, ?_, nofun, ?_⟩ <;>
      simp only [List.nil_append, List.mem_singleton, forall_eq]
    · exact ho
    · exact Finset.mem_insert_self ..
  obtain ⟨r', prim', sec', hr', ha, hrings, hperm⟩ := append_rings hfields h' hs
  refine ⟨r'.useMemory (D.size o), prim', sec', ?_, ?_, hperm, ha.self_eq, ?_, fun x hx => ?_,
    fun x hx hx' => ?_⟩
  · rw [alloc, hr', Option.map_some]
  · exact hrings.frame rfl (fun x hx => ⟨hrings.allocated x hx, rfl, rfl⟩) rfl rfl rfl (fun _ _ => rfl)
      hrings.fields_mem
  · change r'.allocated = _
    rw [ha.allocated_eq]
    ext x
    simp
  · change r'.cls x = _
    rw [ha.cls_eq, Function.update_of_ne (by simpa using hx)]
  · exact ha.next_eq x (by simpa using hx) hx'

/-- The objects of another region are inserted. -/
theorem mergeInternal_spec (hfields : ∀ x, D.fields x = []) (h : Rings D iso prim sec r)
    {o : O} {prim₂ sec₂ : List O} {other : RegionTrace O} (h₂ : Rings D o prim₂ sec₂ other)
    (hcls : other.cls = r.cls) (hnext : other.next = r.next)
    (hdisj : (r.self :: iso :: (prim ++ sec)).Disjoint (other.self :: o :: (prim₂ ++ sec₂)))
    (hallocated : ∀ x, x ∈ other.allocated ↔ x ∈ other.self :: o :: (prim₂ ++ sec₂))
    (sizeclass : ℕ → ℕ) :
    ∃ r' prim' sec', mergeInternal D sizeclass r o other = some r' ∧ Rings D iso prim' sec' r' ∧
      (prim' ++ sec').Perm (o :: (prim₂ ++ sec₂) ++ (prim ++ sec)) ∧
      Grown r (o :: (prim₂ ++ sec₂)) r' := by
  have hrings₂ := h₂.nodup
  simp only [List.nodup_cons, List.mem_cons, List.mem_append, List.nodup_append', not_or] at hrings₂
  obtain ⟨⟨hself_o, hself_prim, hself_sec⟩, ⟨ho_prim, ho_sec⟩, hprim₂, hsec₂, hdisj₂⟩ := hrings₂
  let r₁ : RegionTrace O := { r with allocated := r.allocated ∪ other.allocated.erase other.self }
  have h₁ : Rings D iso prim sec r₁ :=
    h.frame rfl (fun x hx => ⟨Finset.mem_union_left _ (h.allocated x hx), rfl, rfl⟩) rfl rfl rfl
      (fun _ _ => rfl) h.fields_mem
  have hmem {x : O} (hx : x ∈ o :: (prim₂ ++ sec₂)) : x ∈ r₁.allocated := by
    refine Finset.mem_union_right _ (Finset.mem_erase.mpr ⟨?_, (hallocated x).mpr ?_⟩)
    · exact fun heq => (List.nodup_cons.mp h₂.nodup).1 (heq ▸ hx)
    · exact List.mem_cons_of_mem _ hx
  have hout {x : O} (hx : x ∈ o :: (prim₂ ++ sec₂)) : x ∉ r.self :: iso :: (prim ++ sec) :=
    fun hx' => hdisj hx' (List.mem_cons_of_mem _ hx)
  -- the primary ring, which ends with the entry point
  obtain ⟨head, hhead, hhead_mem⟩ : ∃ head, other.next other.self = some head ∧
      head ∈ prim₂ ++ [o] := by
    have hprimary := h₂.primary
    cases prim₂ with
    | nil => exact ⟨o, hprimary, List.mem_singleton_self _⟩
    | cons p prim₂ => exact ⟨p, hprimary.1, List.mem_cons_self⟩
  have hsub {x : O} (hx : x ∈ prim₂ ++ [o]) : x ∈ o :: (prim₂ ++ sec₂) := by
    rcases List.mem_append.mp hx with hx | hx
    · exact List.mem_cons_of_mem _ (List.mem_append_left _ hx)
    · exact List.mem_singleton.mp hx ▸ List.mem_cons_self
  have hpath : Path r₁.next (prim₂ ++ [o]) (some head) (some other.self) := by
    change Path r.next _ _ _
    rw [← hnext, ← hhead]
    exact Path.append_iff.mpr ⟨some o, h₂.primary, rfl, h₂.next_iso⟩
  have hs₁ : Segment D r₁ (r₁.self :: iso :: (prim ++ sec)) prim₂ head o (D.isTrivial o) := by
    refine ⟨⟨_, hpath⟩, ?_, fun x hx => hout (hsub hx), fun x hx => hmem (hsub hx), fun x hx => ?_,
      fun x hx => ?_⟩
    · refine hprim₂.append (List.nodup_singleton o) fun x hx hx' => ho_prim ?_
      exact List.mem_singleton.mp hx' ▸ hx
    · change r.cls x = _
      rw [← hcls]
      exact h₂.cls_eq x (List.mem_append_left _ hx)
    · rcases List.mem_append.mp hx with hx | hx
      · exact h₂.isTrivial_primary x hx
      · rw [List.mem_singleton.mp hx]
  obtain ⟨r₂, prim₃, sec₃, hr₂, ha₂, hrings, hperm⟩ := append_rings hfields h₁ hs₁
  -- the secondary ring, if it has objects
  obtain ⟨r₃, prim₄, sec₄, hr₃, hrings₄, hperm₄, hself₄, hallocated₄, hcls₄, hnext₄⟩ :
      ∃ r₃ prim₄ sec₄, (if other.nextNotRoot = some other.self then some r₂
          else other.nextNotRoot.bind fun head => other.lastNotRoot.bind fun last =>
            append D r₂ head last) = some r₃ ∧ Rings D iso prim₄ sec₄ r₃ ∧
        (prim₄ ++ sec₄).Perm (sec₂ ++ (prim₃ ++ sec₃)) ∧ r₃.self = r₂.self ∧
        r₃.allocated = r₂.allocated ∧ (∀ x ∉ sec₂, r₃.cls x = r₂.cls x) ∧
        ∀ x ∉ sec₂, x ≠ r₂.self → r₃.next x = r₂.next x := by
    have hsecondary := h₂.secondary
    have hlast := h₂.last
    rcases List.eq_nil_or_concat' sec₂ with rfl | ⟨l, tl, rfl⟩
    · have hfirst : other.nextNotRoot = some other.self := hsecondary
      exact ⟨r₂, prim₃, sec₃, if_pos hfirst, hrings, List.Perm.refl _, rfl, rfl, fun _ _ => rfl,
        fun _ _ _ => rfl⟩
    · rw [List.getLast?_concat, Option.getD_some] at hlast
      obtain ⟨head, hhead, hhead_mem⟩ : ∃ head, other.nextNotRoot = some head ∧ head ∈ l ++ [tl] := by
        cases l with
        | nil => exact ⟨tl, hsecondary.1, List.mem_singleton_self _⟩
        | cons p l => exact ⟨p, hsecondary.1, List.mem_cons_self⟩
      have hsub' {x : O} (hx : x ∈ l ++ [tl]) : x ∈ o :: (prim₂ ++ (l ++ [tl])) :=
        List.mem_cons_of_mem _ (List.mem_append_right _ hx)
      have ho_ne {x : O} (hx : x ∈ l ++ [tl]) : x ≠ o := fun heq => ho_sec (heq ▸ hx)
      have hr_ne {x : O} (hx : x ∈ l ++ [tl]) : x ≠ r.self := fun heq =>
        hout (hsub' hx) (heq ▸ List.mem_cons_self)
      have hobjects {x : O} (hx : x ∈ prim₃ ++ sec₃) :
          x ∈ prim₂ ++ [o] ∨ x ∈ prim ++ sec := List.mem_append.mp (hperm.mem_iff.mp hx)
      have hs₂ : Segment D r₂ (r₂.self :: iso :: (prim₃ ++ sec₃)) l head tl (!D.isTrivial o) := by
        refine ⟨⟨some other.self, ?_⟩, hsec₂, fun x hx hx' => ?_, fun x hx => ?_, fun x hx => ?_,
          fun x hx => h₂.isTrivial_secondary x hx⟩
        · rw [← hhead]
          refine hsecondary.congr fun x hx => ?_
          rw [ha₂.next_eq x (ho_ne hx) (hr_ne hx), hnext]
        · rw [ha₂.self_eq] at hx'
          have hx_out := hout (hsub' hx)
          simp only [List.mem_cons, not_or] at hx' hx_out
          rcases hx' with heq | heq | hx'
          · exact hx_out.1 heq
          · exact hx_out.2.1 heq
          · rcases hobjects hx' with hx' | hx'
            · rcases List.mem_append.mp hx' with hx' | hx'
              · exact hdisj₂ hx' hx
              · exact ho_ne hx (List.mem_singleton.mp hx')
            · exact hx_out.2.2 hx'
        · rw [ha₂.allocated_eq]
          exact hmem (hsub' hx)
        · have hx' := List.mem_append_left [tl] hx
          rw [ha₂.cls_eq, Function.update_of_ne (ho_ne hx')]
          change r.cls x = _
          rw [← hcls]
          exact h₂.cls_eq x (List.mem_append_right _ hx')
      obtain ⟨r₃, prim₄, sec₄, hr₃, ha₃, hrings₄, hperm₄⟩ := append_rings hfields hrings hs₂
      refine ⟨r₃, prim₄, sec₄, ?_, hrings₄, hperm₄, ha₃.self_eq, ha₃.allocated_eq, fun x hx => ?_,
        fun x hx hx' => ?_⟩
      · have hne : head ≠ other.self := fun heq => hself_sec (heq ▸ hhead_mem)
        rw [hhead, if_neg fun heq => hne (Option.some.inj heq), Option.bind_some, hlast,
          Option.bind_some, hr₃]
      · have hne : x ≠ tl := fun heq => hx (by simp [heq])
        rw [ha₃.cls_eq, Function.update_of_ne hne]
      · exact ha₃.next_eq x (fun heq => hx (by simp [heq])) hx'
  have hself₂ : r₂.self = r.self := ha₂.self_eq
  refine ⟨{ r₃ with
    currentMemoryUsed := r₃.currentMemoryUsed + other.currentMemoryUsed
    previousMemoryUsed := sizeclass (other.previousMemoryUsed + other.previousMemoryUsed) }, prim₄, sec₄,
    ?_, ?_, ?_, ⟨hself₄.trans hself₂, ?_, fun x hx => ?_, fun x hx hx' => ?_⟩⟩
  · have hne : head ≠ other.self := fun heq => by
      rcases List.mem_append.mp (heq ▸ hhead_mem) with hx | hx
      · exact hself_prim hx
      · exact hself_o (List.mem_singleton.mp hx)
    have hget : other.getNext other.self = some (some head) := by
      rw [getNext, if_pos ⟨h₂.allocated _ List.mem_cons_self, h₂.cls_self⟩, hhead]
    rw [mergeInternal, hget, Option.bind_some]
    simp only [if_neg fun heq => hne (Option.some.inj heq), Option.bind_some]
    change ((append D r₁ head o).bind fun r => _) = _
    rw [hr₂, Option.bind_some, hr₃, Option.map_some]
  · exact hrings₄.frame rfl (fun x hx => ⟨hrings₄.allocated x hx, rfl, rfl⟩) rfl rfl rfl
      (fun _ _ => rfl) hrings₄.fields_mem
  · refine hperm₄.trans ((hperm.append_left sec₂).trans ?_)
    rw [← List.append_assoc]
    refine List.Perm.append_right _ (List.perm_append_comm.trans ?_)
    rw [← List.cons_append]
    exact (List.perm_append_singleton o prim₂).append_right sec₂
  · have hallocated₁ : r₁.allocated = r.allocated ∪ other.allocated.erase other.self := rfl
    have hself : other.self ∉ o :: (prim₂ ++ sec₂) := (List.nodup_cons.mp h₂.nodup).1
    change r₃.allocated = _
    rw [hallocated₄, ha₂.allocated_eq, hallocated₁]
    ext x
    rw [Finset.mem_union, Finset.mem_union, Finset.mem_erase, hallocated, List.mem_toFinset,
      List.mem_cons]
    refine or_congr_right ⟨fun ⟨hne, hx⟩ => hx.resolve_left hne, fun hx => ⟨fun heq => ?_, Or.inr hx⟩⟩
    exact hself (heq ▸ hx)
  · change r₃.cls x = _
    rw [hcls₄ x fun hx' => hx (List.mem_cons_of_mem _ (List.mem_append_right _ hx')), ha₂.cls_eq,
      Function.update_of_ne fun heq => hx (by simp [heq])]
  · change r₃.next x = _
    rw [hnext₄ x (fun hx' => hx (List.mem_cons_of_mem _ (List.mem_append_right _ hx')))
      (by rwa [hself₂]), ha₂.next_eq x (fun heq => hx (by simp [heq])) hx']

end VeronaRt.RegionTrace
