import VeronaFs.Runtime.ExternalRef
import VeronaFs.Runtime.ObjectMapRuns

/-!
# Runs with external references

The operations of trace regions in any order.  What holds in every state: the regions are rings with
disjoint objects, and the table of a region has exactly the objects with the bit, each with the external
reference that was created for it.
-/

set_option linter.unusedSectionVars false

namespace VeronaRt.ExternalRef

open RegionTrace (Descriptors Rings)

variable {O E : Type*} [DecidableEq O] [DecidableEq E]

/-! ## Operations -/

/-- The operations. -/
inductive Op (O E : Type*)
  /-- Create a region. -/
  | create (self o : O) (isTrivial : Bool) (size : ℕ)
  /-- Allocate an object. -/
  | alloc (entry o : O) (isTrivial : Bool) (size : ℕ)
  /-- Create an external reference. -/
  | createRef (self o : O) (e : E)
  /-- Merge two regions. -/
  | merge (into o : O)
  /-- Push an additional root. -/
  | pushAdditionalRoot (entry o : O)
  /-- Pop an additional root. -/
  | popAdditionalRoot (entry o : O)
  /-- Collect the garbage of a region; the objects have the references of the descriptors. -/
  | gc (entry : O) (D : Descriptors O)

/-- The state after an operation: `fuel` bounds the nested calls of an insertion and the regions that a
collection releases. -/
def Op.apply (H : ObjectMap.Hashing O) (sizeclass : ℕ → ℕ) (fuel : ℕ) (w : World O E) :
    Op O E → Option (World O E)
  | .create self o isTrivial size => some (w.create self o isTrivial size)
  | .alloc entry o isTrivial size => w.alloc entry o isTrivial size
  | .createRef self o e => w.createRef H fuel self o e
  | .merge into o => w.merge H fuel sizeclass into o
  | .pushAdditionalRoot entry o => w.pushAdditionalRoot entry o
  | .popAdditionalRoot entry o => w.popAdditionalRoot entry o
  | .gc entry D => w.gc H D sizeclass fuel entry

/-- The object is reached from the entry point or an additional root through objects of the region. -/
def Region.Live (m : Region O E) (D : Descriptors O) (entry self x : O) : Prop :=
  ∃ o, (o = entry ∨ o ∈ m.additionalEntryPoints) ∧
    Foundation.Reaches (fun x => (D.fields x).filter fun y => y ∈ m.allocated.erase self) o x

namespace World

/-- The address is not in use by a region. -/
def Fresh (w : World O E) (o : O) : Prop := ∀ self m, w.regions self = some m → o ∉ m.allocated

/-- The object is in the region. -/
def InRegion (w : World O E) (self o : O) : Prop := ∃ m, w.regions self = some m ∧ o ∈ m.allocated

/-- The object is in the region, and it is not the metadata object. -/
def Contains (w : World O E) (self o : O) : Prop := w.InRegion self o ∧ o ≠ self

end World

/-- What the callers of an operation provide.  The allocator returns addresses that are not in use, and
the references of an object are to objects of its region, to entry points of other regions, and to
immutable and shared objects. -/
def Op.Legal (w : World O E) : Op O E → Prop
  | .create self o _ _ => self ≠ o ∧ w.Fresh self ∧ w.Fresh o
  | .alloc _ o _ _ => w.Fresh o
  | .createRef self o e => w.Contains self o ∧ w.created e = none
  | .merge _ _ => True
  | .pushAdditionalRoot entry o => ∃ self, w.next entry = some self ∧ w.Contains self o
  | .popAdditionalRoot _ _ => True
  | .gc entry D => ∀ self, w.next entry = some self → ∀ x, w.Contains self x → ∀ f ∈ D.fields x,
      w.Contains self f ∨ RegionTrace.Foreign (w.cls f)

/-- A collection finds no garbage that has a finaliser or a destructor and an external reference. -/
def Op.SparesRefs (w : World O E) : Op O E → Prop
  | .create _ _ _ _ => True
  | .alloc _ _ _ _ => True
  | .createRef _ _ _ => True
  | .merge _ _ => True
  | .pushAdditionalRoot _ _ => True
  | .popAdditionalRoot _ _ => True
  | .gc entry D => ∀ self m, w.next entry = some self → w.regions self = some m →
      ∀ x, w.Contains self x → w.isTrivial x = false → w.hasExtRef x = true →
        m.Live D entry self x

/-- A state that a sequence of operations leads to, from one without regions and references.  The guard
says which operations may be next. -/
inductive Reached (H : ObjectMap.Hashing O) (sizeclass : ℕ → ℕ) (guard : World O E → Op O E → Prop) :
    World O E → Prop
  /-- At first there are no regions and no references. -/
  | start {w : World O E} (hregions : ∀ o, w.regions o = none) (hert : ∀ e, w.ert e = none)
      (hcreated : ∀ e, w.created e = none) : Reached H sizeclass guard w
  /-- An operation that returns. -/
  | step {w w' : World O E} (op : Op O E) (fuel : ℕ) (hw : Reached H sizeclass guard w)
      (hlegal : op.Legal w) (hop : guard w op) (hw' : op.apply H sizeclass fuel w = some w') :
      Reached H sizeclass guard w'

/-! ## The invariant -/

namespace World

/-- The region has the two rings along `prim` and `sec`, and no other objects. -/
def IsRegion (w : World O E) (self : O) (m : Region O E) : Prop :=
  ∃ iso prim sec, Rings w.bare iso prim sec (w.view self m) ∧
    ∀ x, x ∈ m.allocated ↔ x ∈ self :: iso :: (prim ++ sec)

/-- What holds when the sweep of a region is under way: `dead` are the objects that are deallocated and
whose entries are not yet removed. -/
structure Consistent (H : ObjectMap.Hashing O) (w : World O E) (dead : O → O → Prop) : Prop where
  /-- The regions are rings. -/
  isRegion : ∀ self m, w.regions self = some m → w.IsRegion self m ∨ dead self self ∧ m.allocated = ∅
  /-- Regions have different objects. -/
  disjoint : ∀ self m self' m' x, w.regions self = some m → w.regions self' = some m' →
    (x ∈ m.allocated ∨ dead self x) → (x ∈ m'.allocated ∨ dead self' x) → self = self'
  /-- A dead object is not in its region. -/
  dead_out : ∀ self m x, w.regions self = some m → dead self x → x ∉ m.allocated
  /-- The tables are well formed. -/
  wellFormed : ∀ self m, w.regions self = some m → m.externalMap.WellFormed H
  /-- An entry is of an object of the region, with the reference that was created for it. -/
  entry : ∀ self m x v, w.regions self = some m → m.externalMap.Has x v →
    (x ∈ m.allocated ∨ dead self x) ∧ ∃ e, v = some e ∧ w.created e = some (x, w.births x) ∧
      w.ert e = some self ∧ w.target e = some x
  /-- The objects with the bit have an entry. -/
  bit : ∀ self m x, w.regions self = some m → x ∈ m.allocated ∨ dead self x →
    (w.hasExtRef x = true ↔ m.externalMap.Mem x)
  /-- A reference that has a table has an entry in it. -/
  ert : ∀ self e, w.ert e = some self → ∃ m x, w.regions self = some m ∧ m.externalMap.Has x (some e)
  /-- References are created for objects that have been allocated. -/
  created : ∀ e x n, w.created e = some (x, n) → n ≤ w.births x
  /-- A reference that was created for an object has its entry. -/
  kept : ∀ self m e x, w.regions self = some m → x ∈ m.allocated →
    w.created e = some (x, w.births x) → m.externalMap.Has x (some e)
  /-- There is no entry of a metadata object. -/
  self_out : ∀ self m v, w.regions self = some m → ¬ m.externalMap.Has self v

/-- What the tables are for: a reference is in a region exactly while the object that it was created for
is, and a table has exactly one entry of each object of the region with the bit and no other. -/
structure RefsValid (w : World O E) : Prop where
  /-- The table in a reference. -/
  isIn_iff : ∀ self e, w.ert e = some self ↔
    ∃ o, w.created e = some (o, w.births o) ∧ w.InRegion self o
  /-- Each object with the bit has one entry. -/
  entry_unique : ∀ self m x, w.regions self = some m → x ∈ m.allocated → w.hasExtRef x = true →
    ∃! i, i < m.externalMap.capacity ∧ m.externalMap.keyAt i = some x
  /-- There are no other entries. -/
  entry_mem : ∀ self m i x, w.regions self = some m → i < m.externalMap.capacity →
    m.externalMap.keyAt i = some x → x ∈ m.allocated ∧ w.hasExtRef x = true

variable {H : ObjectMap.Hashing O} {w w' : World O E} {dead : O → O → Prop} {self : O} {m : Region O E}

/-- The tables do what they are for. -/
theorem Consistent.refsValid (h : w.Consistent H fun _ _ => False) : w.RefsValid where
  isIn_iff self e := by
    constructor
    · intro he
      obtain ⟨m, x, hm, hx⟩ := h.ert self e he
      obtain ⟨hmem, e', he', hcreated, -⟩ := h.entry self m x _ hm hx
      obtain rfl := Option.some.inj he'
      exact ⟨x, hcreated, m, hm, hmem.resolve_right id⟩
    · rintro ⟨x, hcreated, m, hm, hx⟩
      obtain ⟨-, e', he', -, hert, -⟩ :=
        h.entry self m x _ hm (h.kept self m e x hm hx hcreated)
      obtain rfl := Option.some.inj he'
      exact hert
  entry_unique self m x hm hx hbit := by
    have hwf := h.wellFormed self m hm
    obtain ⟨i, e, he, rfl⟩ := (h.bit self m x hm (Or.inl hx)).mp hbit
    refine ⟨i, ⟨he.1, by rw [ObjectMap.keyAt, he.2]; rfl⟩, fun j ⟨hj, hkey⟩ => ?_⟩
    obtain ⟨e', he', hkey⟩ := Option.map_eq_some_iff.mp hkey
    exact hwf.distinct j i e' e ⟨hj, he'⟩ he hkey
  entry_mem self m i x hm hi hkey := by
    obtain ⟨e, he, rfl⟩ := Option.map_eq_some_iff.mp hkey
    have hx := ((h.entry self m e.key e.value hm ⟨i, e, ⟨hi, he⟩, rfl, rfl⟩).1).resolve_right id
    exact ⟨hx, (h.bit self m e.key hm (Or.inl hx)).mpr ⟨i, e, ⟨hi, he⟩, rfl⟩⟩

/-! ## New objects -/

/-- A region stays one when the headers of its objects do. -/
theorem IsRegion.frame (h : w.IsRegion self m)
    (hsame : ∀ x ∈ m.allocated, w'.cls x = w.cls x ∧ w'.next x = w.next x ∧
      w'.isTrivial x = w.isTrivial x) : w'.IsRegion self m := by
  obtain ⟨iso, prim, sec, hrings, hmem⟩ := h
  refine ⟨iso, prim, sec, hrings.frame rfl (fun x hx => ?_) rfl rfl rfl (fun x hx => ?_) nofun, hmem⟩
  · obtain ⟨hcls, hnext, -⟩ := hsame x ((hmem x).mpr hx)
    exact ⟨(hmem x).mpr hx, hcls, hnext⟩
  · exact (hsame x ((hmem x).mpr (List.mem_cons_of_mem _ hx))).2.2

/-- The metadata object is an object of the region. -/
theorem IsRegion.self_mem (h : w.IsRegion self m) : self ∈ m.allocated := by
  obtain ⟨iso, prim, sec, -, hmem⟩ := h
  exact (hmem self).mpr List.mem_cons_self

/-- A region that is consistent is a region. -/
theorem Consistent.isRegion' (h : w.Consistent H fun _ _ => False) (hm : w.regions self = some m) :
    w.IsRegion self m := (h.isRegion self m hm).resolve_right fun hdead => hdead.1

/-- The region of an entry point. -/
theorem get_eq_some {entry : O} (h : w.get entry = some (self, m)) :
    w.cls entry = .iso ∧ w.next entry = some self ∧ w.regions self = some m ∧
      entry ∈ m.allocated := by
  rw [get] at h
  split at h
  · next hcls =>
    obtain ⟨self', hself, h⟩ := Option.bind_eq_some_iff.mp h
    obtain ⟨m', hm, h⟩ := Option.bind_eq_some_iff.mp h
    split at h
    · next hentry =>
      obtain ⟨rfl, rfl⟩ := Prod.mk.inj (Option.some.inj h)
      exact ⟨hcls, hself, hm, hentry⟩
    · cases h
  · cases h

/-- The state stays consistent when objects are added to a region, or to a new one. -/
theorem Consistent.grow (h : w.Consistent H fun _ _ => False) (new : Finset O) {m' : Region O E}
    (hfresh : ∀ x ∈ new, w.Fresh x) (hregions : w'.regions = Function.update w.regions self (some m'))
    (hregion : w'.IsRegion self m') (hwf : m'.externalMap.WellFormed H)
    (hhas : ∀ x v, m'.externalMap.Has x v ↔ ∃ m, w.regions self = some m ∧ m.externalMap.Has x v)
    (hmem : ∀ x, x ∈ m'.allocated ↔ x ∈ new ∨ w.InRegion self x)
    (hheader : ∀ x, x ∉ m'.allocated →
      w'.cls x = w.cls x ∧ w'.next x = w.next x ∧ w'.isTrivial x = w.isTrivial x)
    (hbit : ∀ x, w'.hasExtRef x = if x ∈ new then false else w.hasExtRef x)
    (hbirths : ∀ x, w'.births x = if x ∈ new then w.births x + 1 else w.births x)
    (hert : w'.ert = w.ert) (htarget : w'.target = w.target) (hcreated : w'.created = w.created) :
    w'.Consistent H fun _ _ => False := by
  have hcases {s : O} {n : Region O E} (hn : w'.regions s = some n) :
      s = self ∧ n = m' ∨ s ≠ self ∧ w.regions s = some n := by
    rw [hregions, Function.update_apply] at hn
    split at hn
    · next heq => exact Or.inl ⟨heq, (Option.some.inj hn).symm⟩
    · next hne => exact Or.inr ⟨hne, hn⟩
  have hat : w'.regions self = some m' := by
    rw [hregions, Function.update_self]
  have hother {s : O} {n : Region O E} (hs : s ≠ self) (hn : w.regions s = some n) :
      w'.regions s = some n := by
    rw [hregions, Function.update_of_ne hs, hn]
  have hout {s : O} {n : Region O E} {x : O} (hs : s ≠ self) (hn : w.regions s = some n)
      (hx : x ∈ n.allocated) : x ∉ m'.allocated := by
    intro hx'
    rcases (hmem x).mp hx' with hx' | ⟨m, hm, hx'⟩
    · exact hfresh x hx' s n hn hx
    · exact hs (h.disjoint s n self m x hn hm (Or.inl hx) (Or.inl hx'))
  have hold {s : O} {n : Region O E} {x : O} (hn : w.regions s = some n) (hx : x ∈ n.allocated) :
      w'.hasExtRef x = w.hasExtRef x ∧ w'.births x = w.births x := by
    have hx' : x ∉ new := fun hx' => hfresh x hx' s n hn hx
    rw [hbit, if_neg hx', hbirths, if_neg hx']
    exact ⟨rfl, rfl⟩
  refine ⟨fun s n hn => Or.inl ?_, fun s n s' n' x hn hn' hx hx' => ?_, fun _ _ _ _ hdead => hdead.elim,
    fun s n hn => ?_, fun s n x v hn hx => ?_, fun s n x hn hx => ?_, fun s e he => ?_,
    fun e x n he => ?_, fun s n e x hn hx he => ?_, fun s n v hn hx => ?_⟩
  · rcases hcases hn with ⟨rfl, rfl⟩ | ⟨hs, hn⟩
    · exact hregion
    · exact (h.isRegion' hn).frame fun x hx => hheader x (hout hs hn hx)
  · have hx := hx.resolve_right id
    have hx' := hx'.resolve_right id
    rcases hcases hn with ⟨rfl, rfl⟩ | ⟨hs, hn⟩ <;> rcases hcases hn' with ⟨rfl, rfl⟩ | ⟨hs', hn'⟩
    · rfl
    · exact absurd hx (hout hs' hn' hx')
    · exact absurd hx' (hout hs hn hx)
    · exact h.disjoint s n s' n' x hn hn' (Or.inl hx) (Or.inl hx')
  · rcases hcases hn with ⟨rfl, rfl⟩ | ⟨-, hn⟩
    · exact hwf
    · exact h.wellFormed s n hn
  · obtain ⟨s₀, n₀, hn₀, hx₀, hs₀⟩ : ∃ s₀ n₀, w.regions s₀ = some n₀ ∧ n₀.externalMap.Has x v ∧
        (s₀ = s ∧ (∀ y ∈ n₀.allocated, y ∈ n.allocated)) := by
      rcases hcases hn with ⟨rfl, rfl⟩ | ⟨-, hn⟩
      · obtain ⟨n₀, hn₀, hx₀⟩ := (hhas x v).mp hx
        exact ⟨s, n₀, hn₀, hx₀, rfl, fun y hy => (hmem y).mpr (Or.inr ⟨n₀, hn₀, hy⟩)⟩
      · exact ⟨s, n, hn, hx, rfl, fun _ hy => hy⟩
    obtain ⟨rfl, hsub⟩ := hs₀
    obtain ⟨hmem₀, e, rfl, hcreated₀, hert₀, htarget₀⟩ := h.entry s₀ n₀ x v hn₀ hx₀
    have hmem₀ := hmem₀.resolve_right id
    refine ⟨Or.inl (hsub x hmem₀), e, rfl, ?_, ?_, ?_⟩
    · rw [hcreated, hcreated₀, (hold hn₀ hmem₀).2]
    · rw [hert, hert₀]
    · rw [htarget, htarget₀]
  · have hx := hx.resolve_right id
    rcases hcases hn with ⟨rfl, rfl⟩ | ⟨-, hn⟩
    · have hmem_iff : n.externalMap.Mem x ↔ ∃ m, w.regions s = some m ∧ m.externalMap.Mem x := by
        rw [ObjectMap.mem_iff_has]
        simp only [hhas, ObjectMap.mem_iff_has]
        exact ⟨fun ⟨v, m, hm, hv⟩ => ⟨m, hm, v, hv⟩, fun ⟨m, hm, v, hv⟩ => ⟨v, m, hm, hv⟩⟩
      rw [hmem_iff]
      rcases (hmem x).mp hx with hx | ⟨m, hm, hx⟩
      · rw [hbit, if_pos hx]
        refine ⟨nofun, fun ⟨m, hm, hx'⟩ => ?_⟩
        obtain ⟨v, hv⟩ := ObjectMap.mem_iff_has.mp hx'
        exact absurd ((h.entry s m x v hm hv).1.resolve_right id) (hfresh x hx s m hm)
      · rw [(hold hm hx).1, h.bit s m x hm (Or.inl hx)]
        exact ⟨fun hx => ⟨m, hm, hx⟩, fun ⟨m', hm', hx⟩ => Option.some.inj (hm'.symm.trans hm) ▸ hx⟩
    · rw [(hold hn hx).1]
      exact h.bit s n x hn (Or.inl hx)
  · rw [hert] at he
    obtain ⟨m, x, hm, hx⟩ := h.ert s e he
    by_cases hs : s = self
    · rw [hs] at hm ⊢
      exact ⟨m', x, hat, (hhas x (some e)).mpr ⟨m, hm, hx⟩⟩
    · exact ⟨m, x, hother hs hm, hx⟩
  · rw [hcreated] at he
    have hle := h.created e x n he
    rw [hbirths]
    split
    · exact Nat.le_succ_of_le hle
    · exact hle
  · rw [hcreated, hbirths] at he
    by_cases hnew : x ∈ new
    · rw [if_pos hnew] at he
      exact absurd (h.created e x _ he) (Nat.not_succ_le_self _)
    · rw [if_neg hnew] at he
      rcases hcases hn with ⟨rfl, rfl⟩ | ⟨-, hn⟩
      · obtain ⟨m, hm, hx⟩ := ((hmem x).mp hx).resolve_left hnew
        exact (hhas x (some e)).mpr ⟨m, hm, h.kept s m e x hm hx he⟩
      · exact h.kept s n e x hn hx he
  · rcases hcases hn with ⟨rfl, rfl⟩ | ⟨-, hn⟩
    · obtain ⟨m, hm, hx⟩ := (hhas s v).mp hx
      exact h.self_out s m v hm hx
    · exact h.self_out s n v hn hx

/-- The view of a region after it was written. -/
theorem isRegion_write {r : RegionTrace O} {iso : O} {prim sec : List O}
    {externalMap : ObjectMap O (Option E)} (hrings : Rings w.bare iso prim sec r)
    (hmem : ∀ x, x ∈ r.allocated ↔ x ∈ r.self :: iso :: (prim ++ sec)) {m : Region O E}
    (hm : (w.write r externalMap).regions r.self = some m) :
    (w.write r externalMap).IsRegion r.self m := by
  have hm' : (w.write r externalMap).regions r.self = some _ := Function.update_self ..
  obtain rfl := Option.some.inj (hm'.symm.trans hm)
  exact ⟨iso, prim, sec, hrings.frame rfl (fun x hx => ⟨hrings.allocated x hx, rfl, rfl⟩) rfl rfl rfl
    (fun _ _ => rfl) nofun, hmem⟩

/-- A region is created. -/
theorem Consistent.create (h : w.Consistent H fun _ _ => False) {o : O} {isTrivial : Bool} {size : ℕ}
    (hne : self ≠ o) (hself : w.Fresh self) (ho : w.Fresh o) :
    (w.create self o isTrivial size).Consistent H fun _ _ => False := by
  have hnone : w.regions self = none := by
    cases hm : w.regions self with
    | none => rfl
    | some m => exact absurd (h.isRegion' hm).self_mem (hself self m hm)
  let w₁ := (w.register self true 0).register o isTrivial size
  let r := RegionTrace.create w₁.bare w₁.cls w₁.next self o
  have hrings : Rings w₁.bare o [] [] r := RegionTrace.create_rings (fun _ => rfl) _ _ hne
  have hmem (x : O) : x ∈ r.allocated ↔ x ∈ ({self, o} : Finset O) := Iff.rfl
  have hin {x : O} (hx : x ∉ r.allocated) : x ≠ self ∧ x ≠ o := by
    simpa [hmem] using hx
  have hempty {x : O} {v : Option E} : ¬ (ObjectMap.create : ObjectMap O (Option E)).Has x v := by
    rintro ⟨i, e, ⟨-, ⟨⟩⟩, -⟩
  refine h.grow {self, o} ?_ rfl ?_ ?_ (fun x v => ?_) (fun x => ?_) (fun x hx => ?_)
    (fun x => ?_) (fun x => ?_) rfl rfl rfl
  · simp only [Finset.mem_insert, Finset.mem_singleton]
    rintro x (rfl | rfl)
    · exact hself
    · exact ho
  · refine isRegion_write (w := w₁) (r := r) hrings (fun x => ?_) (Function.update_self ..)
    simp [r, RegionTrace.create]
  · exact ObjectMap.wellFormed_empty (fun _ _ => rfl) rfl
  · refine iff_of_false hempty ?_
    rintro ⟨m, hm, -⟩
    exact Option.some_ne_none m (hm.symm.trans hnone)
  · refine (hmem x).trans (or_iff_left ?_).symm
    rintro ⟨m, hm, -⟩
    exact Option.some_ne_none m (hm.symm.trans hnone)
  · obtain ⟨hx_self, hx_o⟩ := hin hx
    refine ⟨?_, ?_, ?_⟩
    · exact (Function.update_of_ne hx_o _ _).trans (Function.update_of_ne hx_self _ _)
    · exact (Function.update_of_ne hx_o _ _).trans (Function.update_of_ne hx_self _ _)
    · exact (Function.update_of_ne hx_o _ _).trans (Function.update_of_ne hx_self _ _)
  · change Function.update (Function.update w.hasExtRef self false) o false x = _
    simp only [Function.update_apply, Finset.mem_insert, Finset.mem_singleton]
    by_cases hx_o : x = o <;> by_cases hx_self : x = self <;> simp [hx_o, hx_self]
  · change Function.update (Function.update w.births self (w.births self + 1)) o
      (Function.update w.births self (w.births self + 1) o + 1) x = _
    simp only [Function.update_apply, Finset.mem_insert, Finset.mem_singleton, Ne.symm hne, if_false]
    by_cases hx_o : x = o <;> by_cases hx_self : x = self <;> simp [hx_o, hx_self, hne]

/-- An object is allocated. -/
theorem Consistent.alloc (h : w.Consistent H fun _ _ => False) {entry o : O} {isTrivial : Bool}
    {size : ℕ} (ho : w.Fresh o) (hw' : w.alloc entry o isTrivial size = some w') :
    w'.Consistent H fun _ _ => False := by
  obtain ⟨⟨self, m⟩, hget, hw'⟩ := Option.bind_eq_some_iff.mp hw'
  obtain ⟨r, hr, rfl⟩ := Option.map_eq_some_iff.mp hw'
  obtain ⟨-, -, hm, -⟩ := get_eq_some hget
  let w₁ := w.register o isTrivial size
  have hsame {x : O} (hx : x ∈ m.allocated) : w₁.isTrivial x = w.isTrivial x :=
    Function.update_of_ne (fun heq : x = o => ho self m hm (heq ▸ hx)) _ _
  have hregion : w₁.IsRegion self m :=
    (h.isRegion' hm).frame fun x hx => ⟨rfl, rfl, hsame hx⟩
  obtain ⟨iso, prim, sec, hrings, hmem⟩ := hregion
  have hout : o ∉ self :: iso :: (prim ++ sec) := fun hx => ho self m hm ((hmem o).mpr hx)
  obtain ⟨r', prim', sec', hr', hrings', hperm, hself, hallocated, hcls, hnext⟩ :=
    RegionTrace.alloc_spec (fun _ => rfl) hrings hout
  obtain rfl := Option.some.inj (hr.symm.trans hr')
  have hself : r.self = self := hself
  have hallocated' (x : O) : x ∈ r.allocated ↔ x ∈ m.allocated ∨ x = o := by
    rw [hallocated]
    simp [view, or_comm]
  have hmem' (x : O) : x ∈ r.allocated ↔ x ∈ r.self :: iso :: (prim' ++ sec') := by
    rw [hallocated', hmem, hself]
    simp only [List.mem_cons, hperm.mem_iff]
    tauto
  refine h.grow {o} ?_ (congrArg
    (fun s => Function.update w.regions s (some _)) hself) ?_ (h.wellFormed self m hm) (fun x v => ?_)
    (fun x => ?_) (fun x hx => ?_) (fun x => ?_) (fun x => ?_) rfl rfl rfl
  · simp only [Finset.mem_singleton, forall_eq]
    exact ho
  · rw [← hself]
    exact isRegion_write (w := w₁) hrings' hmem' (Function.update_self ..)
  · exact ⟨fun hx => ⟨m, hm, hx⟩, fun ⟨m', hm', hx⟩ => Option.some.inj (hm'.symm.trans hm) ▸ hx⟩
  · rw [Finset.mem_singleton]
    refine (hallocated' x).trans (or_comm.trans (or_congr_right ?_))
    exact ⟨fun hx => ⟨m, hm, hx⟩, fun ⟨m', hm', hx⟩ => Option.some.inj (hm'.symm.trans hm) ▸ hx⟩
  · have hx : x ∉ r.allocated := hx
    rw [hallocated', not_or] at hx
    have hx_self : x ≠ self := fun heq => hx.1 (heq ▸ (h.isRegion' hm).self_mem)
    exact ⟨hcls x (by simpa using hx.2), hnext x (by simpa using hx.2) hx_self,
      Function.update_of_ne hx.2 _ _⟩
  · change Function.update w.hasExtRef o false x = _
    rw [Function.update_apply]
    simp only [Finset.mem_singleton]
  · change Function.update w.births o (w.births o + 1) x = _
    rw [Function.update_apply]
    simp only [Finset.mem_singleton]
    split
    · next heq => rw [heq]
    · rfl

/-- The metadata of a region changes, but not what the tables depend on. -/
theorem Consistent.setRegion (h : w.Consistent H dead) {m' : Region O E} (hm : w.regions self = some m)
    (hregion : w.IsRegion self m → w.IsRegion self m') (hallocated : m'.allocated = m.allocated)
    (hmap : m'.externalMap = m.externalMap) : (w.setRegion self m').Consistent H dead := by
  have hcases {s : O} {n : Region O E} (hn : (w.setRegion self m').regions s = some n) :
      ∃ n₀, w.regions s = some n₀ ∧ n.allocated = n₀.allocated ∧ n.externalMap = n₀.externalMap ∧
        (w.IsRegion s n₀ → w.IsRegion s n) := by
    change Function.update w.regions self (some m') s = some n at hn
    rw [Function.update_apply] at hn
    split at hn
    · next heq =>
      obtain rfl := Option.some.inj hn
      rw [heq]
      exact ⟨m, hm, hallocated, hmap, hregion⟩
    · exact ⟨n, hn, rfl, rfl, id⟩
  refine ⟨fun s n hn => ?_, fun s n s' n' x hn hn' hx hx' => ?_, fun s n x hn hx => ?_,
    fun s n hn => ?_, fun s n x v hn hx => ?_, fun s n x hn hx => ?_, fun s e he => ?_, h.created,
    fun s n e x hn hx he => ?_, fun s n v hn hx => ?_⟩
  · obtain ⟨n₀, hn₀, hn_allocated, -, hn_region⟩ := hcases hn
    rw [hn_allocated]
    exact (h.isRegion s n₀ hn₀).imp_left fun h₀ =>
      (hn_region h₀).frame fun _ _ => ⟨rfl, rfl, rfl⟩
  · obtain ⟨n₀, hn₀, hn_allocated, -⟩ := hcases hn
    obtain ⟨n₁, hn₁, hn_allocated', -⟩ := hcases hn'
    rw [hn_allocated] at hx
    rw [hn_allocated'] at hx'
    exact h.disjoint s n₀ s' n₁ x hn₀ hn₁ hx hx'
  · obtain ⟨n₀, hn₀, hn_allocated, -⟩ := hcases hn
    rw [hn_allocated]
    exact h.dead_out s n₀ x hn₀ hx
  · obtain ⟨n₀, hn₀, -, hn_map, -⟩ := hcases hn
    rw [hn_map]
    exact h.wellFormed s n₀ hn₀
  · obtain ⟨n₀, hn₀, hn_allocated, hn_map, -⟩ := hcases hn
    rw [hn_map] at hx
    rw [hn_allocated]
    exact h.entry s n₀ x v hn₀ hx
  · obtain ⟨n₀, hn₀, hn_allocated, hn_map, -⟩ := hcases hn
    rw [hn_allocated] at hx
    rw [hn_map]
    exact h.bit s n₀ x hn₀ hx
  · obtain ⟨m₀, x, hm₀, hx⟩ := h.ert s e he
    by_cases hs : s = self
    · rw [hs] at hm₀ ⊢
      obtain rfl := Option.some.inj (hm₀.symm.trans hm)
      exact ⟨m', x, Function.update_self .., hmap ▸ hx⟩
    · exact ⟨m₀, x, (Function.update_of_ne hs _ _).trans hm₀, hx⟩
  · obtain ⟨n₀, hn₀, hn_allocated, hn_map, -⟩ := hcases hn
    rw [hn_allocated] at hx
    rw [hn_map]
    exact h.kept s n₀ e x hn₀ hx he
  · obtain ⟨n₀, hn₀, -, hn_map, -⟩ := hcases hn
    rw [hn_map] at hx
    exact h.self_out s n₀ v hn₀ hx

/-- A region with other additional roots. -/
theorem IsRegion.setRoots (h : w.IsRegion self m) {roots : List O}
    (hroots : ∀ x ∈ roots, x ∈ m.additionalEntryPoints ∨ x ∈ m.allocated ∧ x ≠ self) :
    w.IsRegion self { m with additionalEntryPoints := roots } := by
  obtain ⟨iso, prim, sec, hrings, hmem⟩ := h
  refine ⟨iso, prim, sec, ⟨hrings.nodup, hrings.allocated, hrings.cls_self, hrings.cls_iso,
    hrings.cls_eq, hrings.primary, hrings.next_iso, hrings.secondary, hrings.last,
    hrings.isTrivial_primary, hrings.isTrivial_secondary, nofun, fun x hx => ?_⟩, hmem⟩
  rcases hroots x hx with hx | ⟨hx, hne⟩
  · exact hrings.roots_mem x hx
  · exact (List.mem_cons.mp ((hmem x).mp hx)).resolve_left hne

/-- An additional root is pushed. -/
theorem Consistent.pushAdditionalRoot (h : w.Consistent H fun _ _ => False) {entry o : O}
    (ho : ∃ self, w.next entry = some self ∧ w.Contains self o)
    (hw' : w.pushAdditionalRoot entry o = some w') : w'.Consistent H fun _ _ => False := by
  obtain ⟨⟨self, m⟩, hget, rfl⟩ := Option.map_eq_some_iff.mp hw'
  obtain ⟨-, hself, hm, -⟩ := get_eq_some hget
  obtain ⟨self', hself', ⟨m', hm', hmem⟩, hne⟩ := ho
  obtain rfl := Option.some.inj (hself'.symm.trans hself)
  obtain rfl := Option.some.inj (hm'.symm.trans hm)
  refine h.setRegion hm (fun hregion => hregion.setRoots fun x hx => ?_) rfl rfl
  rcases List.mem_cons.mp hx with rfl | hx
  · exact Or.inr ⟨hmem, hne⟩
  · exact Or.inl hx

/-- An additional root is popped. -/
theorem Consistent.popAdditionalRoot (h : w.Consistent H fun _ _ => False) {entry o : O}
    (hw' : w.popAdditionalRoot entry o = some w') : w'.Consistent H fun _ _ => False := by
  obtain ⟨⟨self, m⟩, hget, hw'⟩ := Option.bind_eq_some_iff.mp hw'
  obtain ⟨-, -, hm, -⟩ := get_eq_some hget
  cases hroots : m.additionalEntryPoints with
  | nil =>
    simp only [hroots] at hw'
    cases hw'
  | cons root roots =>
    simp only [hroots] at hw'
    split at hw'
    · obtain rfl := Option.some.inj hw'
      refine h.setRegion hm (fun hregion => hregion.setRoots fun x hx => Or.inl ?_) rfl rfl
      rw [hroots]
      exact List.mem_cons_of_mem _ hx
    · cases hw'

/-! ## References -/

/-- An external reference is created, or it exists. -/
theorem Consistent.createRef (h : w.Consistent H fun _ _ => False) {depth : ℕ} {o : O} {e : E}
    (ho : w.Contains self o) (he : w.created e = none)
    (hw' : w.createRef H depth self o e = some w') : w'.Consistent H fun _ _ => False := by
  obtain ⟨m, hm, hw'⟩ := Option.bind_eq_some_iff.mp hw'
  obtain ⟨⟨m', hm', ho⟩, hne⟩ := ho
  obtain rfl := Option.some.inj (hm'.symm.trans hm)
  split at hw'
  · cases hw'
  split at hw'
  · obtain ⟨i, -, hw'⟩ := Option.bind_eq_some_iff.mp hw'
    obtain ⟨entry, -, hw'⟩ := Option.bind_eq_some_iff.mp hw'
    obtain ⟨e', -, rfl⟩ := Option.map_eq_some_iff.mp hw'
    exact h
  next hbit =>
  obtain ⟨⟨map, unique, index⟩, hinsert, hw'⟩ := Option.bind_eq_some_iff.mp hw'
  simp only at hw'
  split at hw'
  swap
  · cases hw'
  obtain rfl := Option.some.inj hw'
  have habsent : ¬ m'.externalMap.Mem o := fun hmem =>
    hbit ((h.bit self m' o hm (Or.inl ho)).mpr hmem)
  obtain ⟨hwf, -, -, hhas, -⟩ := ObjectMap.insert_inserts depth m'.externalMap (.new o (some e))
    (map, unique, index) (h.wellFormed self m' hm) habsent rfl hinsert
  have hhas (x : O) (v : Option E) :
      map.Has x v ↔ m'.externalMap.Has x v ∨ o = x ∧ some e = v := hhas x v
  have hcases {s : O} {n : Region O E}
      (hn : Function.update w.regions self (some { m' with externalMap := map }) s = some n) :
      s = self ∧ n = { m' with externalMap := map } ∨ s ≠ self ∧ w.regions s = some n := by
    rw [Function.update_apply] at hn
    split at hn
    · next heq => exact Or.inl ⟨heq, (Option.some.inj hn).symm⟩
    · next hne => exact Or.inr ⟨hne, hn⟩
  have hold {s : O} {n : Region O E}
      (hn : Function.update w.regions self (some { m' with externalMap := map }) s = some n) :
      ∃ n₀, w.regions s = some n₀ ∧ n.allocated = n₀.allocated := by
    rcases hcases hn with ⟨rfl, rfl⟩ | ⟨-, hn⟩
    · exact ⟨m', hm, rfl⟩
    · exact ⟨n, hn, rfl⟩
  have hout {s : O} {n : Region O E} (hs : s ≠ self) (hn : w.regions s = some n) : o ∉ n.allocated :=
    fun ho' => hs (h.disjoint s n self m' o hn hm (Or.inl ho') (Or.inl ho))
  have hcreated {e' : E} {x : O} (hx : w.created e' = some (x, w.births x)) :
      Function.update w.created e (some (o, w.births o)) e' = some (x, w.births x) := by
    rw [Function.update_of_ne, hx]
    rintro rfl
    rw [he] at hx
    cases hx
  have hold_entry {s : O} {n : Region O E} {x : O} {v : Option E} (hn : w.regions s = some n)
      (hx : n.externalMap.Has x v) : (x ∈ n.allocated ∨ False) ∧ ∃ e', v = some e' ∧
        Function.update w.created e (some (o, w.births o)) e' = some (x, w.births x) ∧
        Function.update w.ert e (some self) e' = some s ∧
        Function.update w.target e (some o) e' = some x := by
    obtain ⟨hmem, e', rfl, hcreated', hert, htarget⟩ := h.entry s n x v hn hx
    have hne : e' ≠ e := by
      rintro rfl
      rw [he] at hcreated'
      cases hcreated'
    refine ⟨hmem, e', rfl, hcreated hcreated', ?_, ?_⟩
    · rw [Function.update_of_ne hne, hert]
    · rw [Function.update_of_ne hne, htarget]
  refine ⟨fun s n hn => Or.inl ?_, fun s n s' n' x hn hn' hx hx' => ?_, fun _ _ _ _ hdead => hdead.elim,
    fun s n hn => ?_, fun s n x v hn hx => ?_, fun s n x hn hx => ?_, fun s e' he' => ?_,
    fun e' x n he' => ?_, fun s n e' x hn hx he' => ?_, fun s n v hn hx => ?_⟩
  · rcases hcases hn with ⟨rfl, rfl⟩ | ⟨-, hn⟩
    · exact (h.isRegion' hm).frame fun _ _ => ⟨rfl, rfl, rfl⟩
    · exact (h.isRegion' hn).frame fun _ _ => ⟨rfl, rfl, rfl⟩
  · obtain ⟨n₀, hn₀, hn_allocated⟩ := hold hn
    obtain ⟨n₁, hn₁, hn_allocated'⟩ := hold hn'
    rw [hn_allocated] at hx
    rw [hn_allocated'] at hx'
    exact h.disjoint s n₀ s' n₁ x hn₀ hn₁ hx hx'
  · rcases hcases hn with ⟨rfl, rfl⟩ | ⟨-, hn⟩
    · exact hwf
    · exact h.wellFormed s n hn
  · rcases hcases hn with ⟨rfl, rfl⟩ | ⟨-, hn⟩
    · rcases (hhas x v).mp hx with hx | ⟨rfl, rfl⟩
      · exact hold_entry (n := m') hm hx
      · exact ⟨Or.inl ho, e, rfl, Function.update_self .., Function.update_self ..,
          Function.update_self ..⟩
    · exact hold_entry hn hx
  · change Function.update w.hasExtRef o true x = true ↔ _
    have hx := hx.resolve_right id
    rcases hcases hn with ⟨rfl, rfl⟩ | ⟨hs, hn⟩
    · rw [ObjectMap.mem_iff_has]
      simp only [hhas]
      by_cases hxo : x = o
      · rw [hxo, Function.update_self]
        exact iff_of_true rfl ⟨some e, Or.inr ⟨rfl, rfl⟩⟩
      · rw [Function.update_of_ne hxo, h.bit s m' x hm (Or.inl hx), ObjectMap.mem_iff_has]
        simp only [Ne.symm hxo, false_and, or_false]
    · rw [Function.update_of_ne fun heq : x = o => hout hs hn (heq ▸ hx)]
      exact h.bit s n x hn (Or.inl hx)
  · change Function.update w.ert e (some self) e' = some s at he'
    by_cases hee : e' = e
    · rw [hee, Function.update_self] at he'
      obtain rfl := Option.some.inj he'
      exact ⟨_, o, Function.update_self .., (hhas o _).mpr (Or.inr ⟨rfl, hee ▸ rfl⟩)⟩
    · rw [Function.update_of_ne hee] at he'
      obtain ⟨n, x, hn, hx⟩ := h.ert s e' he'
      by_cases hs : s = self
      · rw [hs] at hn ⊢
        obtain rfl := Option.some.inj (hn.symm.trans hm)
        exact ⟨_, x, Function.update_self .., (hhas x _).mpr (Or.inl hx)⟩
      · exact ⟨n, x, (Function.update_of_ne hs _ _).trans hn, hx⟩
  · change Function.update w.created e (some (o, w.births o)) e' = some (x, n) at he'
    by_cases hee : e' = e
    · rw [hee, Function.update_self] at he'
      obtain ⟨rfl, rfl⟩ := Prod.mk.inj (Option.some.inj he')
      exact le_rfl
    · rw [Function.update_of_ne hee] at he'
      exact h.created e' x n he'
  · change Function.update w.created e (some (o, w.births o)) e' = some (x, w.births x) at he'
    by_cases hee : e' = e
    · rw [hee, Function.update_self] at he'
      obtain ⟨rfl, -⟩ := Prod.mk.inj (Option.some.inj he')
      rcases hcases hn with ⟨rfl, rfl⟩ | ⟨hs, hn⟩
      · exact (hhas o _).mpr (Or.inr ⟨rfl, hee ▸ rfl⟩)
      · exact absurd hx (hout hs hn)
    · rw [Function.update_of_ne hee] at he'
      rcases hcases hn with ⟨rfl, rfl⟩ | ⟨-, hn⟩
      · exact (hhas x _).mpr (Or.inl (h.kept s m' e' x hm hx he'))
      · exact h.kept s n e' x hn hx he'
  · rcases hcases hn with ⟨rfl, rfl⟩ | ⟨-, hn⟩
    · rcases (hhas s v).mp hx with hx | ⟨heq, -⟩
      · exact h.self_out s m' v hm hx
      · exact hne heq
    · exact h.self_out s n v hn hx

end World

end VeronaRt.ExternalRef
