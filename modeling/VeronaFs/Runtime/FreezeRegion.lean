import VeronaFs.Runtime.FreezeSearch
import VeronaFs.Runtime.FreezeSweep

/-!
# Freezing a region

The body of the outer loop of `Freeze::apply` on a trace region that satisfies the ring invariants.
`Rings.In` says that the two rings of a region are in a heap, `Frozen` what the freeze leaves: the
components of the objects that the entry point reaches, each with the references into it, and nothing of
the other objects and of the metadata object.

`freezeRegion_total` is the specification: with enough fuel the freeze comes to its end like this.
-/

set_option linter.unusedSectionVars false

namespace VeronaRt

open Foundation

namespace ObjectHeap

/-- The link in a word. -/
def link (h : ObjectHeap) (o : ObjAddr) : Option ObjAddr := (h o).map Header.address

section

variable {h h' : ObjectHeap} {o r : ObjAddr} {c c' : RegionMD} {w : BitVec 64}

/-- The root depends on the links. -/
theorem rootOf_congr (hscc : h'.getScc = h.getScc) (o : ObjAddr) : h'.rootOf o = h.rootOf o := by
  have hends : ∀ r, h'.EndsAt o r ↔ h.EndsAt o r := fun r => by
    rw [EndsAt, EndsAt, hscc]
  by_cases hr : ∃ r, h.EndsAt o r
  · obtain ⟨r, hr⟩ := hr
    rw [rootOf_eq hr, rootOf_eq ((hends r).mpr hr)]
  · have hr' : ¬ ∃ r, h'.EndsAt o r := fun hr' => hr (hr'.imp fun r => (hends r).mp)
    rw [rootOf, rootOf, dif_neg hr, dif_neg hr']

/-- The link of a mutable object. -/
theorem getNext_eq_link (hc : h.getClass o = some .unmarked) : h.getNext o = h.link o := by
  obtain ⟨bits, hbits⟩ := exists_of_getClass hc
  have hbc : Header.getClass bits = some .unmarked := by rw [← getClass_of_some hbits, hc]
  simp [getNext, link, hbits, hbc]

/-- A write to the word of an object that is no root of others leaves a heap settled. -/
theorem Settled.update (hs : h.Settled) (hc : h.getClass o = some c) (hne : c ≠ .sccPtr)
    (hrc : c ≠ .rc) (hw : Header.getClass w = some c') (hne' : c' ≠ .sccPtr) (hpending : c' ≠ .pending)
    (hnonatomic : c' ≠ .nonatomicRc) : Settled (Function.update h o (some w)) := by
  have hscc : h.getScc o = none := getScc_eq_none (by
    rw [hc]
    exact fun heq => hne (Option.some.inj heq))
  have hwscc : Header.getClass w ≠ some .sccPtr := by
    rw [hw]
    exact fun heq => hne' (Option.some.inj heq)
  intro u bits hu
  by_cases huo : u = o
  · subst huo
    refine ⟨u, c', ?_, by rw [getClass_update_self, hw], hpending, hnonatomic, fun hne => absurd rfl hne⟩
    exact (endsAt_update hscc hwscc).mpr (endsAt_self hc hne)
  · rw [Function.update_of_ne huo] at hu
    obtain ⟨r, d, hends, hd, hp, hn, hroot⟩ := hs u bits hu
    have hro : r ≠ o := by
      rintro rfl
      have hdc := Option.some.inj (hd.symm.trans hc)
      exact hrc (hdc.symm.trans (hroot (Ne.symm huo)))
    refine ⟨r, d, (endsAt_update hscc hwscc).mpr hends, ?_, hp, hn, hroot⟩
    rw [(reads_eq (Function.update_of_ne hro ..)).1, hd]

end

end ObjectHeap

namespace Freeze

open ObjectHeap LinkedObjectStack

/-! ## Rings -/

/-- A region: its metadata object, its entry point and the other objects of its rings. -/
structure Rings where
  /-- The metadata object. -/
  self : ObjAddr
  /-- The entry point, the last object of the primary ring. -/
  entry : ObjAddr
  /-- The objects before it. -/
  primary : List ObjAddr
  /-- The objects of the secondary ring. -/
  secondary : List ObjAddr

/-- The objects of a region. -/
def Rings.objects (R : Rings) : List ObjAddr := R.primary ++ R.entry :: R.secondary

/-- The rings of a region are in the heap, and the references of its objects lead to each other, to
entry points of other regions, to immutable objects and to shared ones. -/
structure Rings.In (D : Descriptors) (h : ObjectHeap) (R : Rings) : Prop where
  /-- It is a trace region. -/
  trace : D.isTraceRegion R.self = true
  /-- The word of the entry point has the metadata object. -/
  entry_word : h R.entry = some (Header.ofAddress R.self .iso)
  /-- The metadata object is mutable. -/
  self_class : h.getClass R.self = some .unmarked
  /-- So are the other objects. -/
  unmarked : ∀ o ∈ R.primary ++ R.secondary, h.getClass o = some .unmarked
  /-- The primary ring. -/
  primary_path : Path h.link (R.primary ++ [R.entry]) (h.link R.self) (some R.self)
  /-- The secondary ring. -/
  secondary_path : Path h.link R.secondary (some (D.nextNotRoot R.self)) (some R.self)
  /-- No object is in the rings twice. -/
  nodup : (R.self :: R.objects).Nodup
  /-- No address is null. -/
  ne_null : null ∉ R.self :: R.objects
  /-- The references of the objects. -/
  fields : ∀ x ∈ R.objects, ∀ y ∈ D.fields x, y ∈ R.objects ∨ ∃ c, h.getClass y = some c ∧ c.outer = true
  /-- The entry points that finalisers add. -/
  finaliser : ∀ x ∈ R.objects, ∀ isos, D.finaliser x = some isos → ∀ q ∈ isos,
    q ∉ R.objects ∧ h.getClass q = some .iso
  /-- The remembered set. -/
  remembered : ∀ o ∈ D.remembered R.self, h.getClass o = some .rc ∨ h.getClass o = some .shared

section

variable {D : Descriptors} {h h' : ObjectHeap} {R : Rings} {s s' : Freeze} {o p q x y : ObjAddr}
  {fuel : ℕ} {done : List (List ObjAddr)} {taken : List (Option ObjAddr × ObjAddr)}

namespace Rings.In

/-- The entry point is an object of the region. -/
theorem entry_mem (R : Rings) : R.entry ∈ R.objects := by simp [objects]

/-- The metadata object is none. -/
theorem self_not_mem (hR : R.In D h) : R.self ∉ R.objects := (List.nodup_cons.mp hR.nodup).1

/-- The class of the entry point. -/
theorem entry_class (hR : R.In D h) : h.getClass R.entry = some .iso := by
  rw [getClass_of_some hR.entry_word, Header.getClass_ofAddress]

/-- The objects are mutable, but for the entry point. -/
theorem mem_cases (R : Rings) (hx : x ∈ R.objects) : x = R.entry ∨ x ∈ R.primary ++ R.secondary := by
  simp only [objects, List.mem_append, List.mem_cons] at hx ⊢
  tauto

/-- An object of the region is in no component. -/
theorem getClass_mem (hR : R.In D h) (hx : x ∈ R.self :: R.objects) :
    h.getClass x = some .iso ∨ h.getClass x = some .unmarked := by
  rcases List.mem_cons.mp hx with rfl | hx
  · exact .inr hR.self_class
  · rcases mem_cases R hx with rfl | hx
    · exact .inl hR.entry_class
    · exact .inr (hR.unmarked x hx)

/-- The start of a freeze: the entry point loses its mark, and the metadata object gets one. -/
theorem started (hR : R.In D h) : ∃ h₁ first h₂, h.getRegion R.entry = some R.self ∧
    h.initNext R.entry R.self = some h₁ ∧ h₁.getNext R.self = some first ∧
    h₁.mark R.self = some h₂ ∧ h.link R.self = some first ∧ h₂.getClass R.self = some .marked ∧
    (∀ x ∈ R.objects, h₂.getClass x = some .unmarked ∧ h₂.link x = h.link x) ∧
    (∀ o ∉ R.self :: R.objects, h₂ o = h o) ∧ h₂.getScc = h.getScc ∧ (h.Settled → h₂.Settled) := by
  have hne : R.self ≠ R.entry := fun heq => hR.self_not_mem (heq ▸ entry_mem R)
  obtain ⟨bits, hbits⟩ := exists_of_getClass hR.self_class
  have hbc : Header.getClass bits = some .unmarked := by rw [← getClass_of_some hbits, hR.self_class]
  let h₁ : ObjectHeap := Function.update h R.entry (some (Header.ofAddress R.self .unmarked))
  let h₂ : ObjectHeap := Function.update h₁ R.self (some (bits ||| RegionMD.marked.value))
  have hself₁ : h₁ R.self = some bits := (Function.update_of_ne hne ..).trans hbits
  have hmarked : Header.getClass (bits ||| RegionMD.marked.value) = some .marked := by
    have hzero := Header.value_of_getClass hbc
    have hand : (bits ||| RegionMD.marked.value) &&& Header.MASK = RegionMD.marked.value := by
      rw [BitVec.and_or_distrib_right, hzero]
      decide
    rw [Header.getClass, hand]
    decide
  have hscc₁ : h₁.getScc = h.getScc :=
    getScc_update (getScc_eq_none (by rw [hR.entry_class]; decide))
      (by rw [Header.getClass_ofAddress]; decide)
  have hself₁c : h₁.getClass R.self = some .unmarked := by rw [getClass_of_some hself₁, hbc]
  have hscc₂ : h₂.getScc = h₁.getScc :=
    getScc_update (getScc_eq_none (by rw [hself₁c]; decide)) (by rw [hmarked]; decide)
  refine ⟨h₁, Header.address bits, h₂, ?_, ?_, ?_, ?_, ?_, ?_, ?_, ?_, ?_, ?_⟩
  · simp [getRegion, hR.entry_word]
  · exact write_of_some hR.entry_word
  · simp [getNext, hself₁, hbc]
  · simp only [mark, hself₁, bind, Option.bind_some, hbc, if_true]
    exact write_of_some hself₁
  · simp [link, hbits]
  · rw [getClass_update_self, hmarked]
  · intro x hx
    have hxs : x ≠ R.self := by
      rintro rfl
      exact hR.self_not_mem hx
    have hword : h₂ x = h₁ x := Function.update_of_ne hxs ..
    rcases mem_cases R hx with rfl | hx'
    · have hword₁ : h₁ R.entry = some (Header.ofAddress R.self .unmarked) := Function.update_self ..
      rw [(reads_eq hword).1, link, link, hword, getClass_of_some hword₁, hword₁, hR.entry_word]
      simp
    · have hxe : x ≠ R.entry := by
        rintro rfl
        have hclass := hR.unmarked _ hx'
        rw [hR.entry_class] at hclass
        cases hclass
      have hword₁ : h₁ x = h x := Function.update_of_ne hxe ..
      rw [(reads_eq hword).1, (reads_eq hword₁).1, link, link, hword, hword₁]
      exact ⟨hR.unmarked x hx', rfl⟩
  · intro o ho
    rw [List.mem_cons, not_or] at ho
    have hoe : o ≠ R.entry := by
      rintro rfl
      exact ho.2 (entry_mem R)
    exact (Function.update_of_ne ho.1 ..).trans (Function.update_of_ne hoe ..)
  · rw [hscc₂, hscc₁]
  · intro hs
    have hs₁ : h₁.Settled := hs.update hR.entry_class (by decide) (by decide)
      (Header.getClass_ofAddress ..) (by decide) (by decide) (by decide)
    exact hs₁.update hself₁c (by decide) (by decide) hmarked (by decide) (by decide) (by decide)

/-- The objects of the region can be searched. -/
theorem searchable (hR : R.In D h) {h₂ : ObjectHeap} (hs₂ : h₂.Settled)
    (hinside : ∀ x ∈ R.objects, h₂.getClass x = some .unmarked)
    (hother : ∀ o ∉ R.self :: R.objects, h₂ o = h o) (hheap : s.heap = h₂) (hpending : s.pending = []) :
    Searchable D R.objects.toFinset s where
  settled := hheap ▸ hs₂
  inside x hx := by
    rw [hheap]
    exact hinside x (List.mem_toFinset.mp hx)
  fields x hx y hy := by
    rw [hheap]
    simp only [List.mem_toFinset] at hx ⊢
    by_cases hyR : y ∈ R.objects
    · exact .inl hyR
    · obtain ⟨c, hc, houter⟩ := (hR.fields x hx y hy).resolve_left hyR
      have hys : y ≠ R.self := by
        rintro rfl
        rw [hR.self_class] at hc
        obtain rfl := Option.some.inj hc
        cases houter
      have hyo : y ∉ R.self :: R.objects := by
        rw [List.mem_cons, not_or]
        exact ⟨hys, hyR⟩
      exact .inr ⟨c, by rw [(reads_eq (hother y hyo)).1, hc], houter⟩
  pending := hpending

end Rings.In

/-! ## Behind the search -/

/-- The objects of a region whose search from `s₀` has come to its end in `s`, with the finished
components and the references that were followed. -/
structure Searched (D : Descriptors) (h : ObjectHeap) (R : Rings) (s₀ s : Freeze)
    (done : List (List ObjAddr)) (taken : List (Option ObjAddr × ObjAddr)) : Prop where
  /-- The rings before the freeze. -/
  rings : R.In D h
  /-- The metadata object was marked. -/
  self_class : s₀.heap.getClass R.self = some .marked
  /-- The objects were mutable, with their links. -/
  objects_class : ∀ x ∈ R.objects, s₀.heap.getClass x = some .unmarked ∧ s₀.heap.link x = h.link x
  /-- Other words were those of before. -/
  other : ∀ o ∉ R.self :: R.objects, s₀.heap o = h o
  /-- The fragments at first. -/
  objects_eq : ∃ first, h.link R.self = some first ∧ s₀.objects = [first, D.nextNotRoot R.self]
  /-- The search has no component on the path. -/
  inv : PathSearch.Inv (· ∈ R.objects.toFinset) D.fields [R.entry] ⟨[], [], done, taken⟩
  /-- The state is that of the search. -/
  searching : Searching R.objects.toFinset s₀ ⟨[], [], done, taken⟩ s

namespace Searched

variable {s₀ : Freeze}

/-- What was found is of the region. -/
theorem mem_objects (hd : Searched D h R s₀ s done taken) (hx : x ∈ done.flatten) : x ∈ R.objects :=
  List.mem_toFinset.mp (hd.inv.inner_of_mem x hx)

/-- What was found is in a component. -/
theorem live_class (hd : Searched D h R s₀ s done taken) (hx : x ∈ done.flatten) :
    s.heap.getClass x = some .nonatomicRc ∨ s.heap.getClass x = some .sccPtr := by
  obtain ⟨C, hC, hxC⟩ := List.mem_flatten.mp hx
  obtain ⟨r, hr, hiff⟩ := hd.searching.finished C hC
  have hxr := (hiff x).mpr hxC
  by_cases hc : s.heap.getClass x = some .sccPtr
  · exact .inr hc
  · obtain rfl := hxr.eq_of_getClass hc
    exact .inl (by rw [getClass_of_some hr, Header.getClass_ofCount])

/-- The word of what was not found is that of before. -/
theorem dead_word (hd : Searched D h R s₀ s done taken) (hx : x ∈ R.objects)
    (hdead : x ∉ done.flatten) : s.heap x = s₀.heap x :=
  hd.searching.unvisited x (List.mem_toFinset.mpr hx) hdead

/-- The metadata object is marked. -/
theorem self_marked (hd : Searched D h R s₀ s done taken) :
    s.heap.getClass R.self = some .marked := by
  have hout : R.self ∉ R.objects.toFinset := fun hmem =>
    hd.rings.self_not_mem (List.mem_toFinset.mp hmem)
  rw [hd.searching.outer_class hout, hd.self_class]

/-- An object outside the region has the class of before. -/
theorem outer_class (hd : Searched D h R s₀ s done taken) (ho : o ∉ R.self :: R.objects) :
    s.heap.getClass o = h.getClass o := by
  have hout : o ∉ R.objects.toFinset := fun hmem =>
    ho (List.mem_cons_of_mem _ (List.mem_toFinset.mp hmem))
  rw [hd.searching.outer_class hout, (reads_eq (hd.other o ho)).1]

/-- What was not found is dead. -/
theorem dead (hd : Searched D h R s₀ s done taken) (hx : x ∈ R.objects) (hdead : x ∉ done.flatten) :
    Dead D s.heap R.self x where
  getClass_eq := by rw [(reads_eq (hd.dead_word hx hdead)).1, (hd.objects_class x hx).1]
  ne_reg := by
    rintro rfl
    exact hd.rings.self_not_mem hx
  ne_null := by
    rintro rfl
    exact hd.rings.ne_null (List.mem_cons_of_mem _ hx)
  isos isos hisos q hq := by
    obtain ⟨hqR, hiso⟩ := hd.rings.finaliser x hx isos hisos q hq
    have hqs : q ≠ R.self := by
      rintro rfl
      rw [hd.rings.self_class] at hiso
      cases hiso
    rw [hd.outer_class (by rw [List.mem_cons, not_or]; exact ⟨hqs, hqR⟩), hiso]

/-- What was found is kept by the sweep. -/
def kept (done : List (List ObjAddr)) (x : ObjAddr) : Bool := decide (x ∈ done.flatten)

/-- The fragments of both rings. -/
def frags (R : Rings) (done : List (List ObjAddr)) : List (List ObjAddr × ObjAddr) :=
  fragments (kept done) R.self (R.primary ++ [R.entry]) ++ fragments (kept done) R.self R.secondary

/-- The primary ring before the search. -/
theorem primary_path (hd : Searched D h R s₀ s done taken) :
    Path s₀.heap.getNext (R.primary ++ [R.entry]) (h.link R.self) (some R.self) := by
  refine hd.rings.primary_path.congr fun x hx => ?_
  have hxR : x ∈ R.objects := by
    simp only [Rings.objects, List.mem_append, List.mem_cons] at hx ⊢
    tauto
  obtain ⟨hc, hlink⟩ := hd.objects_class x hxR
  rw [getNext_eq_link hc, hlink]

/-- The secondary ring before the search. -/
theorem secondary_path (hd : Searched D h R s₀ s done taken) :
    Path s₀.heap.getNext R.secondary (some (D.nextNotRoot R.self)) (some R.self) := by
  refine hd.rings.secondary_path.congr fun x hx => ?_
  have hxR : x ∈ R.objects := by
    simp only [Rings.objects, List.mem_append, List.mem_cons]
    exact .inr (.inr hx)
  obtain ⟨hc, hlink⟩ := hd.objects_class x hxR
  rw [getNext_eq_link hc, hlink]

/-- What was found are the objects that are kept. -/
theorem live_perm (hd : Searched D h R s₀ s done taken) :
    done.flatten.Perm ((R.primary ++ [R.entry]).filter (kept done) ++ R.secondary.filter (kept done)) := by
  have hobjects : R.primary ++ [R.entry] ++ R.secondary = R.objects := by simp [Rings.objects]
  rw [← List.filter_append, hobjects]
  have hnodup : R.objects.Nodup := (List.nodup_cons.mp hd.rings.nodup).2
  refine (List.perm_ext_iff_of_nodup ?_ (hnodup.filter _)).mpr fun x => ?_
  · exact (List.nodup_append'.mp hd.inv.nodup).2.1
  · rw [List.mem_filter, kept, decide_eq_true_eq]
    exact ⟨fun hx => ⟨hd.mem_objects hx, hx⟩, fun hx => hx.2⟩

/-- The stack `objects` has the starts of the fragments. -/
theorem objects_perm (hd : Searched D h R s₀ s done taken) :
    s.objects.Perm ((frags R done).map start) := by
  obtain ⟨first, hfirst, hobjects⟩ := hd.objects_eq
  have hvisited : (⟨[], [], done, taken⟩ : PathSearch.State ObjAddr).visited = done.flatten := rfl
  have hperm := hd.searching.objects
  rw [hvisited, hobjects] at hperm
  have hnext : ∀ x ∈ done.flatten, ∃ y, s₀.heap.getNext x = some y := by
    intro x hx
    have hc := (hd.objects_class x (hd.mem_objects hx)).1
    obtain ⟨bits, hbits⟩ := exists_of_getClass hc
    exact ⟨Header.address bits, by rw [getNext_eq_link hc, link, hbits, Option.map_some]⟩
  have hsome : ∀ l : List ObjAddr, (∀ x ∈ l, ∃ y, s₀.heap.getNext x = some y) →
      (l.filterMap s₀.heap.getNext).map some = l.map s₀.heap.getNext := by
    intro l hl
    induction l with
    | nil => rfl
    | cons x l ih =>
      obtain ⟨y, hy⟩ := hl x List.mem_cons_self
      rw [List.filterMap_cons, hy, List.map_cons, List.map_cons, hy,
        ih fun u hu => hl u (List.mem_cons_of_mem x hu)]
  have hstarts : (frags R done).map (fun f => some (start f)) =
      some first :: ((R.primary ++ [R.entry]).filter (kept done)).map s₀.heap.getNext ++
        some (D.nextNotRoot R.self) :: (R.secondary.filter (kept done)).map s₀.heap.getNext := by
    rw [frags, List.map_append, map_start_fragments hd.primary_path,
      map_start_fragments hd.secondary_path, hfirst]
  have hmap : (s.objects.map some).Perm (((frags R done).map start).map some) := by
    have hleft : (s.objects.map some).Perm
        (done.flatten.map s₀.heap.getNext ++ [some first, some (D.nextNotRoot R.self)]) := by
      have h₁ := hperm.map some
      rw [List.map_append, hsome _ hnext] at h₁
      exact h₁
    have hright : (((frags R done).map start).map some) =
        (frags R done).map (fun f => some (start f)) := by
      rw [List.map_map]
      rfl
    rw [hright, hstarts]
    have hlive := hd.live_perm.map s₀.heap.getNext
    rw [List.map_append] at hlive
    refine (hleft.trans (hlive.append_right _)).trans ?_
    rw [List.append_assoc, List.cons_append]
    refine List.perm_append_comm.trans ?_
    have hswap : ∀ (A B : List (Option ObjAddr)) (u v : Option ObjAddr),
        (B ++ [u, v] ++ A).Perm (u :: (A ++ v :: B)) := by
      intro A B u v
      have h₁ : (B ++ [u, v] ++ A).Perm ([u, v] ++ A ++ B) := by
        rw [List.append_assoc]
        exact List.perm_append_comm
      refine h₁.trans ?_
      rw [List.cons_append, List.cons_append, List.singleton_append, List.cons_append]
      exact (List.perm_middle.symm).cons u
    exact hswap _ _ _ _
  have hback := hmap.filterMap id
  simpa [List.filterMap_map] using hback

/-- The fragments have what was not found. -/
theorem flatMap_frags (R : Rings) (done : List (List ObjAddr)) :
    (frags R done).flatMap Prod.fst = R.objects.filter fun x => !kept done x := by
  have hobjects : R.primary ++ [R.entry] ++ R.secondary = R.objects := by simp [Rings.objects]
  rw [frags, List.flatMap_append, flatMap_fragments, flatMap_fragments, ← List.filter_append, hobjects]

/-- They stop at what was found and at the metadata object. -/
theorem mem_stops (hd : Searched D h R s₀ s done taken) :
    o ∈ (frags R done).map Prod.snd ↔ o ∈ done.flatten ∨ o = R.self := by
  rw [frags, List.map_append, map_snd_fragments, map_snd_fragments]
  have hlive := hd.live_perm.mem_iff (a := o)
  simp only [List.mem_append, List.mem_singleton] at hlive ⊢
  tauto

/-- The number of fragments. -/
theorem length_frags (R : Rings) (done : List (List ObjAddr)) :
    (frags R done).length ≤ R.objects.length + 2 := by
  have hlength : (frags R done).length = ((frags R done).map Prod.snd).length := by
    rw [List.length_map]
  have hprimary := List.length_filter_le (kept done) (R.primary ++ [R.entry])
  have hsecondary := List.length_filter_le (kept done) R.secondary
  rw [hlength, frags, List.map_append, map_snd_fragments, map_snd_fragments, Rings.objects]
  simp only [List.length_append, List.length_cons, List.length_nil] at hprimary ⊢
  omega

/-- What was not found is swept, and the counts of the components get atomic. -/
theorem swept (hd : Searched D h R s₀ s done taken) (hfuel : 2 * R.objects.length + 3 ≤ fuel) :
    ∃ p objects s' order stops, s.objects = p :: objects ∧
      sweepLoop D R.self fuel ⟨s.heap, objects, .nil, s.events⟩ p = some s' ∧ s'.objects = [] ∧
      Sweeping D s.heap s.events order stops s' ∧
      order.Perm (R.objects.filter fun x => !kept done x) ∧
      ∀ o, o ∈ stops ↔ o ∈ done.flatten ∨ o = R.self := by
  have hperm := hd.objects_perm
  obtain ⟨p, objects, hobj⟩ : ∃ p objects, s.objects = p :: objects := by
    refine List.exists_cons_of_ne_nil fun hnil => ?_
    rw [hnil] at hperm
    have hlen := hperm.length_eq
    rw [List.length_map, frags, List.length_append] at hlen
    have hne : (fragments (kept done) R.self R.secondary).length ≠ 0 :=
      fun h => fragments_ne_nil (List.length_eq_zero_iff.mp h)
    simp only [List.length_nil] at hlen
    omega
  obtain ⟨f, hf, hfp⟩ := List.mem_map.mp (hperm.mem_iff.mp (hobj ▸ List.mem_cons_self))
  obtain ⟨frags₁, frags₂, hsplit⟩ := List.append_of_mem hf
  have hfrags : (frags R done).Perm (f :: (frags₁ ++ frags₂)) := by
    rw [hsplit]
    exact List.perm_middle
  have hobjects : objects.Perm ((frags₁ ++ frags₂).map start) := by
    have hcons : (p :: objects).Perm (start f :: (frags₁ ++ frags₂).map start) := by
      rw [← hobj]
      exact hperm.trans (hfrags.map start)
    rw [hfp] at hcons
    exact hcons.cons_inv
  have hmem : ∀ g ∈ f :: (frags₁ ++ frags₂), g ∈ frags R done := fun g hg =>
    hfrags.mem_iff.mpr hg
  have hdead : ∀ g ∈ f :: (frags₁ ++ frags₂), ∀ o ∈ g.1, o ∈ R.objects ∧ o ∉ done.flatten := by
    intro g hg o ho
    have hmem' : o ∈ (frags R done).flatMap Prod.fst := List.mem_flatMap.mpr ⟨g, hmem g hg, ho⟩
    rw [flatMap_frags, List.mem_filter] at hmem'
    exact ⟨hmem'.1, by simpa [kept] using hmem'.2⟩
  have hpath : ∀ g ∈ f :: (frags₁ ++ frags₂), Path s.heap.getNext g.1 (some (start g)) (some g.2) := by
    intro g hg
    have hpath₀ : Path s₀.heap.getNext g.1 (some (start g)) (some g.2) := by
      rcases List.mem_append.mp (hmem g hg) with hg | hg
      · exact path_fragment hd.primary_path hg
      · exact path_fragment hd.secondary_path hg
    refine hpath₀.congr fun x hx => ?_
    obtain ⟨hxR, hxdead⟩ := hdead g hg x hx
    rw [getNext, getNext, hd.dead_word hxR hxdead]
  have hstop : ∀ g ∈ f :: (frags₁ ++ frags₂), Stop s.heap R.self g.2 := by
    intro g hg
    rcases hd.mem_stops.mp (List.mem_map_of_mem (hmem g hg)) with hlive | hself
    · exact (hd.live_class hlive).imp_right .inl
    · exact .inr (.inr ⟨hself, hself ▸ hd.self_marked⟩)
  have hflat : ((f :: (frags₁ ++ frags₂)).flatMap Prod.fst).Perm
      (R.objects.filter fun x => !kept done x) := by
    rw [← flatMap_frags]
    exact (hfrags.flatMap_right _).symm
  have hnodup : ([] ++ (f :: (frags₁ ++ frags₂)).flatMap Prod.fst).Nodup := by
    rw [List.nil_append]
    exact hflat.nodup_iff.mpr ((List.nodup_cons.mp hd.rings.nodup).2.filter _)
  have hinit : Sweeping D s.heap s.events [] [] ⟨s.heap, objects, .nil, s.events⟩ :=
    ⟨stacked_nil, fun o ho => absurd ho List.not_mem_nil, List.nodup_nil, fun o _ => rfl, by simp⟩
  have hlen : ((f :: (frags₁ ++ frags₂)).flatMap Prod.fst).length + ((frags₁ ++ frags₂).length + 1) ≤
      fuel := by
    have h₁ := List.length_filter_le (fun x => !kept done x) R.objects
    have h₂ := length_frags R done
    have h₃ := hfrags.length_eq
    rw [List.length_cons] at h₃
    rw [hflat.length_eq]
    omega
  obtain ⟨k, rfl⟩ := Nat.exists_eq_add_of_le hlen
  obtain ⟨s', order, stops, hloop, hnil, hs', horder, hstops⟩ :=
    sweepLoop_fragments hinit hobjects hpath (fun g hg o ho => hd.dead (hdead g hg o ho).1
      (hdead g hg o ho).2) hstop hnodup k
  rw [hfp] at hloop
  refine ⟨p, objects, s', order, stops, hobj, hloop, hnil, ?_, horder.trans hflat, fun o => ?_⟩
  · rwa [List.nil_append] at hs'
  · rw [hstops, (hfrags.map Prod.snd).symm.mem_iff, hd.mem_stops]
    simp

end Searched

/-! ## The freeze of a region -/

/-- The headers behind the freeze of a region. -/
def behind (h : ObjectHeap) (R : Rings) (done : List (List ObjAddr)) : ObjectHeap := fun o =>
  if o ∈ done.flatten then (h o).map Header.atomic
  else if o ∈ R.self :: R.objects then none
  else h o

/-- A count that gets atomic leaves the links. -/
theorem getScc_atomic (ho : h' o = (h o).map Header.atomic) : h'.getScc o = h.getScc o := by
  cases hbits : h o with
  | none =>
    rw [hbits] at ho
    exact (reads_eq (ho.trans hbits.symm)).2.1
  | some bits =>
    rw [hbits, Option.map_some] at ho
    by_cases hc : Header.getClass bits = some .nonatomicRc
    · have hclass : h.getClass o = some .nonatomicRc := by rw [getClass_of_some hbits, hc]
      have hclass' : h'.getClass o = some .rc := by
        rw [← Header.ofCount_count hc, Header.atomic_ofCount] at ho
        rw [getClass_of_some ho, Header.getClass_ofCount]
      rw [getScc_eq_none (by rw [hclass']; decide), getScc_eq_none (by rw [hclass]; decide)]
    · rw [Header.atomic_of_ne hc] at ho
      exact (reads_eq (ho.trans hbits.symm)).2.1

namespace Searched

variable {s₀ : Freeze}

/-- What is behind the search leads to where it did. -/
theorem getScc_behind (hd : Searched D h R s₀ s done taken) :
    (behind s.heap R done).getScc = s.heap.getScc := by
  funext o
  by_cases hlive : o ∈ done.flatten
  · exact getScc_atomic (if_pos hlive)
  · by_cases ho : o ∈ R.self :: R.objects
    · have hnone : behind s.heap R done o = none := by rw [behind, if_neg hlive, if_pos ho]
      have hclass : s.heap.getClass o ≠ some .sccPtr := by
        rcases List.mem_cons.mp ho with rfl | ho
        · rw [hd.self_marked]
          decide
        · rw [(hd.dead ho hlive).getClass_eq]
          decide
      have hnot : (behind s.heap R done).getClass o ≠ some .sccPtr := by
        rw [getClass, hnone]
        decide
      rw [getScc_eq_none hclass, getScc_eq_none hnot]
    · have hsame : behind s.heap R done o = s.heap o := by rw [behind, if_neg hlive, if_neg ho]
      exact (reads_eq hsame).2.1

/-- The components have atomic counts. -/
theorem finished_behind (hd : Searched D h R s₀ s done taken) {C : List ObjAddr} (hC : C ∈ done) :
    IsFinished (behind s.heap R done) C (taken.countP fun e => PathSearch.Enters C e) .rc := by
  obtain ⟨r, hr, hiff⟩ := hd.searching.finished C hC
  have hends : s.heap.EndsAt r r := endsAt_self (by rw [getClass_of_some hr, Header.getClass_ofCount])
    (by decide)
  have hlive : r ∈ done.flatten := List.mem_flatten.mpr ⟨C, hC, (hiff r).mp hends⟩
  refine ⟨r, ?_, fun o => ?_⟩
  · rw [behind, if_pos hlive, hr, Option.map_some, Header.atomic_ofCount]
  · rw [EndsAt, hd.getScc_behind]
    exact hiff o

/-- The words outside the region are those of the search. -/
theorem behind_of_not_mem (hd : Searched D h R s₀ s done taken) (ho : o ∉ R.self :: R.objects) :
    behind s.heap R done o = s.heap o := by
  have hlive : o ∉ done.flatten := fun hlive => ho (List.mem_cons_of_mem _ (hd.mem_objects hlive))
  rw [behind, if_neg hlive, if_neg ho]

/-- An object outside the region leads to where it did. -/
theorem ends_behind (hd : Searched D h R s₀ s done taken) (hscc : s₀.heap.getScc = h.getScc)
    (ho : o ∉ R.self :: R.objects) {r : ObjAddr} (hr : h.EndsAt o r) :
    EndsAt (behind s.heap R done) o r := by
  have hout : o ∉ R.objects.toFinset := fun hmem =>
    ho (List.mem_cons_of_mem _ (List.mem_toFinset.mp hmem))
  have hr₀ : s₀.heap.EndsAt o r := by rwa [EndsAt, hscc]
  rw [EndsAt, hd.getScc_behind]
  exact hd.searching.outer_ends o hout r hr₀

/-- No component is being built any more. -/
theorem settled_behind (hd : Searched D h R s₀ s done taken) (hs : h.Settled)
    (hscc : s₀.heap.getScc = h.getScc) : Settled (behind s.heap R done) := by
  intro o bits ho
  by_cases hlive : o ∈ done.flatten
  · obtain ⟨C, hC, hoC⟩ := List.mem_flatten.mp hlive
    obtain ⟨r, hr, hiff⟩ := hd.finished_behind hC
    exact ⟨r, .rc, (hiff o).mpr hoC, by rw [getClass_of_some hr, Header.getClass_ofCount], by decide,
      by decide, fun _ => rfl⟩
  · have hout : o ∉ R.self :: R.objects := by
      intro hmem
      rw [behind, if_neg hlive, if_pos hmem] at ho
      cases ho
    have hclass := hd.outer_class hout
    have hbits : ∃ bits, h o = some bits := by
      rw [hd.behind_of_not_mem hout] at ho
      rw [getClass_of_some ho] at hclass
      cases hword : h o with
      | some bits => exact ⟨bits, rfl⟩
      | none =>
        have hnone : s.heap o = none := by
          by_cases hlink : s₀.heap.getClass o = some .sccPtr
          · rw [(reads_eq (hd.other o hout)).1, getClass, hword] at hlink
            cases hlink
          · have hmem : o ∉ R.objects.toFinset := fun hmem =>
              hout (List.mem_cons_of_mem _ (List.mem_toFinset.mp hmem))
            rw [hd.searching.outer_word o hmem hlink, hd.other o hout, hword, Option.map_none]
        rw [hnone] at ho
        cases ho
    obtain ⟨bits', hbits'⟩ := hbits
    obtain ⟨r, c, hends, hc, hpending, hnonatomic, hroot⟩ := hs o bits' hbits'
    have hr : r ∉ R.self :: R.objects := by
      intro hmem
      by_cases hro : r = o
      · exact hout (hro ▸ hmem)
      · rw [hroot hro] at hc
        rcases hd.rings.getClass_mem hmem with hmutable | hmutable <;>
          · rw [hc] at hmutable
            cases hmutable
    refine ⟨r, c, hd.ends_behind hscc hout hends, ?_, hpending, hnonatomic, hroot⟩
    rw [(reads_eq (hd.behind_of_not_mem hr)).1, hd.outer_class hr, hc]

end Searched

/-- What is done to an object of the remembered set. -/
def discardEvent (h : ObjectHeap) (o : ObjAddr) : ObjectEvent ObjAddr :=
  if h.getClass o = some .rc then .decref o else .release o

/-- What is done in the freeze of a region whose objects in `order` were not reached. -/
def collected (D : Descriptors) (h : ObjectHeap) (R : Rings) (order : List ObjAddr) :
    List (ObjectEvent ObjAddr) :=
  order.flatMap (finaliseEvents D) ++ order.reverse.flatMap (deallocEvents D) ++
    (D.remembered R.self).map (discardEvent h) ++ [.dealloc R.self]

/-- The objects of the remembered set are immutable or shared. -/
theorem discard_eq (hclass : ∀ o ∈ D.remembered p, h'.getClass o = h.getClass o)
    (hmem : ∀ o ∈ D.remembered p, h.getClass o = some .rc ∨ h.getClass o = some .shared) :
    discard D h' p = some ((D.remembered p).map (discardEvent h)) := by
  rw [discard]
  generalize D.remembered p = l at hclass hmem ⊢
  induction l with
  | nil => rfl
  | cons o l ih =>
    rw [List.mapM_cons, ih (fun u hu => hclass u (List.mem_cons_of_mem o hu))
      (fun u hu => hmem u (List.mem_cons_of_mem o hu)), hclass o List.mem_cons_self, List.map_cons,
      discardEvent]
    rcases hmem o List.mem_cons_self with hc | hc <;> simp [hc]

/-- The region `R` was frozen in the state `s`, with the state `s'` behind it: the components that were
found and the references that were followed. -/
structure Frozen (D : Descriptors) (R : Rings) (s s' : Freeze) (done : List (List ObjAddr))
    (taken : List (Option ObjAddr × ObjAddr)) : Prop where
  /-- The search has come to its end. -/
  inv : PathSearch.Inv (· ∈ R.objects.toFinset) D.fields [R.entry] ⟨[], [], done, taken⟩
  /-- No component is being built. -/
  settled : s'.heap.Settled
  /-- The components count the references into them. -/
  finished : ∀ C ∈ done, s'.heap.IsFinished C (taken.countP fun e => PathSearch.Enters C e) .rc
  /-- The other objects and the metadata object are gone. -/
  gone : ∀ x ∈ R.self :: R.objects, x ∉ done.flatten → s'.heap x = none
  /-- The objects outside the region count the references to them. -/
  outer_word : ∀ o ∉ R.self :: R.objects, s.heap.getClass o ≠ some .sccPtr →
    s'.heap o = (s.heap o).map (Header.counted (hits s.heap R.objects.toFinset taken o))
  /-- The links outside the region stay links. -/
  outer_linked : ∀ o ∉ R.self :: R.objects, s.heap.getClass o = some .sccPtr →
    s'.heap.getClass o = some .sccPtr
  /-- They lead to where they did. -/
  outer_ends : ∀ o ∉ R.self :: R.objects, ∀ r, s.heap.EndsAt o r → s'.heap.EndsAt o r
  /-- The entry points that were found are to be frozen. -/
  iso : s'.iso = (taken.map Prod.snd).filter
    (fun y => y ∉ R.objects ∧ s.heap.getClass y = some .iso) ++ s.iso
  /-- No part of a ring is left. -/
  objects : s'.objects = []
  /-- Nothing is on the path. -/
  pending : s'.pending = []
  /-- The objects that were found have no external reference. -/
  hasExtRef : ∀ o, s'.hasExtRef o = if o ∈ done.flatten then false else s.hasExtRef o
  /-- The other objects were finalised, destructed and deallocated. -/
  events : ∃ order, order.Perm (R.objects.filter fun x => x ∉ done.flatten) ∧
    s'.events = s.events ++ collected D s.heap R order

/-- An object outside the region has the class of before. -/
theorem Frozen.outer_class (hf : Frozen D R s s' done taken) (ho : o ∉ R.self :: R.objects) :
    s'.heap.getClass o = s.heap.getClass o := by
  by_cases hc : s.heap.getClass o = some .sccPtr
  · rw [hc, hf.outer_linked o ho hc]
  · have hword := hf.outer_word o ho hc
    cases hbits : s.heap o with
    | none => rw [getClass, getClass, hword, hbits, Option.map_none]
    | some bits =>
      rw [hbits, Option.map_some] at hword
      rw [getClass_of_some hword, getClass_of_some hbits, Header.getClass_counted]

/-- The fuel that the freeze of a region needs. -/
def Rings.size (D : Descriptors) (R : Rings) : ℕ :=
  2 ^ 64 + (R.objects.map fun x => (D.fields x).length + 3).sum + 3

/-- The size of a region bounds its objects and their references. -/
theorem Rings.le_size (D : Descriptors) (R : Rings) (hnodup : R.objects.Nodup) :
    2 ^ 64 ≤ R.size D ∧ 2 * R.objects.length + 3 ≤ R.size D ∧
      (∑ x ∈ R.objects.toFinset, ((D.fields x).length + 1)) + 1 ≤ R.size D := by
  have hlength : ∀ l : List ObjAddr,
      2 * l.length + (l.map fun x => (D.fields x).length + 1).sum ≤
        (l.map fun x => (D.fields x).length + 3).sum := by
    intro l
    induction l with
    | nil => simp
    | cons x l ih =>
      simp only [List.length_cons, List.map_cons, List.sum_cons]
      omega
  have hsum := hlength R.objects
  rw [List.sum_toFinset _ hnodup, size]
  omega

namespace Searched

variable {s₀ : Freeze}

/-- The objects of the remembered set are no objects of the region. -/
theorem remembered_not_mem (hd : Searched D h R s₀ s done taken) (ho : o ∈ D.remembered R.self) :
    o ∉ R.self :: R.objects := by
  intro hmem
  rcases hd.rings.remembered o ho with hc | hc <;>
    rcases hd.rings.getClass_mem hmem with hmutable | hmutable <;>
    · rw [hc] at hmutable
      cases hmutable

/-- What was not found is collected, and the metadata object after it. -/
theorem collect (hd : Searched D h R s₀ s done taken) (hfuel : 2 * R.objects.length + 3 ≤ fuel) :
    ∃ (p : ObjAddr) (objects : List ObjAddr) (swept : Sweep) (order : List ObjAddr) (h₁ : ObjectHeap),
      s.objects = p :: objects ∧
      sweepLoop D R.self fuel ⟨s.heap, objects, .nil, s.events⟩ p = some swept ∧ swept.objects = [] ∧
      deallocLoop D fuel swept.heap swept.toDealloc swept.events = some (h₁, s.events ++
        order.flatMap (finaliseEvents D) ++ order.reverse.flatMap (deallocEvents D)) ∧
      discard D h₁ R.self = some ((D.remembered R.self).map (discardEvent h)) ∧
      h₁.dealloc R.self = some (behind s.heap R done) ∧
      order.Perm (R.objects.filter fun x => x ∉ done.flatten) := by
  obtain ⟨p, objects, swept, order, stops, hpop, hsweep, hnil, hsweeping, horder, hstops⟩ :=
    hd.swept hfuel
  have hmem_order : ∀ o, o ∈ order ↔ o ∈ R.objects ∧ o ∉ done.flatten := by
    intro o
    rw [horder.mem_iff, List.mem_filter, kept, Bool.not_eq_true', decide_eq_false_iff_not]
  have hlength : order.reverse.length ≤ fuel := by
    have hsub := (hsweeping.nodup.subperm fun o ho => ((hmem_order o).mp ho).1).length_le
    rw [List.length_reverse]
    omega
  obtain ⟨h₁, hdealloc, hword⟩ := deallocLoop_eq (D := D) swept.events
    hsweeping.stacked (List.nodup_reverse.mpr hsweeping.nodup) hlength
  -- The words behind the loop.
  have hword₁ : ∀ o, o ∉ order →
      h₁ o = if o ∈ stops then (s.heap o).map Header.atomic else s.heap o := by
    intro o ho
    rw [hword, if_neg (fun hmem => ho (List.mem_reverse.mp hmem)), hsweeping.word o ho]
  have houter : ∀ o ∉ R.self :: R.objects, h₁ o = s.heap o := by
    intro o ho
    rw [List.mem_cons, not_or] at ho
    have hstop : o ∉ stops := by
      rw [hstops, not_or]
      exact ⟨fun hmem => ho.2 (hd.mem_objects hmem), ho.1⟩
    rw [hword₁ o fun hmem => ho.2 ((hmem_order o).mp hmem).1, if_neg hstop]
  obtain ⟨bits, hbits⟩ : ∃ bits, h₁ R.self = some bits := by
    obtain ⟨bits, hbits⟩ := exists_of_getClass hd.self_marked
    have hself : R.self ∉ order := fun hmem => hd.rings.self_not_mem ((hmem_order _).mp hmem).1
    rw [hword₁ R.self hself, if_pos ((hstops _).mpr (.inr rfl)), hbits]
    exact ⟨_, rfl⟩
  have hlast : Function.update h₁ R.self none = behind s.heap R done := by
    funext o
    by_cases hos : o = R.self
    · subst hos
      have hlive : R.self ∉ done.flatten := fun hmem => hd.rings.self_not_mem (hd.mem_objects hmem)
      rw [Function.update_self, behind, if_neg hlive, if_pos List.mem_cons_self]
    · rw [Function.update_of_ne hos, behind]
      by_cases hlive : o ∈ done.flatten
      · rw [if_pos hlive, hword₁ o (fun hmem => ((hmem_order o).mp hmem).2 hlive),
          if_pos ((hstops o).mpr (.inl hlive))]
      · by_cases ho : o ∈ R.objects
        · rw [if_neg hlive, if_pos (List.mem_cons_of_mem _ ho), hword,
            if_pos (List.mem_reverse.mpr ((hmem_order o).mpr ⟨ho, hlive⟩))]
        · have hout : o ∉ R.self :: R.objects := by
            rw [List.mem_cons, not_or]
            exact ⟨hos, ho⟩
          rw [if_neg hlive, if_neg hout, houter o hout]
  refine ⟨p, objects, swept, order, h₁, hpop, hsweep, hnil, ?_, ?_, ?_, ?_⟩
  · rw [hdealloc, hsweeping.events_eq]
  · refine discard_eq (fun o ho => ?_) hd.rings.remembered
    rw [(reads_eq (houter o (hd.remembered_not_mem ho))).1, hd.outer_class (hd.remembered_not_mem ho)]
  · rw [ObjectHeap.dealloc, hbits, Option.map_some, hlast]
  · have hkept : (fun x => decide (x ∉ done.flatten)) = fun x => !kept done x := by
      funext x
      rw [kept, decide_not]
    rw [hkept]
    exact horder

/-- What is left after the search, the collection and the deallocation of the metadata object. -/
theorem frozen {t : Freeze} (hd : Searched D h R s₀ s done taken) (hs : h.Settled)
    (hscc : s₀.heap.getScc = h.getScc) {order : List ObjAddr}
    (horder : order.Perm (R.objects.filter fun x => x ∉ done.flatten))
    (ht : t.heap = h ∧ s₀.hasExtRef = t.hasExtRef ∧ s₀.iso = t.iso ∧ s₀.events = t.events) :
    Frozen D R t { s with
      heap := behind s.heap R done
      objects := []
      events := s.events ++ collected D h R order } done taken := by
  obtain ⟨rfl, hext, hiso, hevents⟩ := ht
  have hroot : ∀ o, s₀.heap.rootOf o = t.heap.rootOf o := rootOf_congr hscc
  have hout : ∀ {o}, o ∉ R.self :: R.objects → o ∉ R.objects.toFinset := fun ho hmem =>
    ho (List.mem_cons_of_mem _ (List.mem_toFinset.mp hmem))
  have hclass : ∀ y, s₀.heap.getClass y = some .iso ↔
      y ∉ R.objects ∧ t.heap.getClass y = some .iso := by
    intro y
    by_cases hyR : y ∈ R.objects
    · rw [(hd.objects_class y hyR).1]
      simp [hyR]
    · by_cases hys : y = R.self
      · subst hys
        rw [hd.self_class, hd.rings.self_class]
        simp
      · have hy : y ∉ R.self :: R.objects := by
          rw [List.mem_cons, not_or]
          exact ⟨hys, hyR⟩
        rw [(reads_eq (hd.other y hy)).1]
        simp [hyR]
  constructor
  case inv => exact hd.inv
  case settled => exact hd.settled_behind hs hscc
  case finished => exact fun C hC => hd.finished_behind hC
  case gone =>
    intro x hx hlive
    show behind s.heap R done x = none
    rw [behind, if_neg hlive, if_pos hx]
  case outer_word =>
    intro o ho hc
    have hhits : hits s₀.heap R.objects.toFinset taken o = hits t.heap R.objects.toFinset taken o := by
      simp only [hits, hroot]
    have hc₀ : s₀.heap.getClass o ≠ some .sccPtr := by rwa [(reads_eq (hd.other o ho)).1]
    show behind s.heap R done o = _
    rw [hd.behind_of_not_mem ho, hd.searching.outer_word o (hout ho) hc₀, hd.other o ho, hhits]
  case outer_linked =>
    intro o ho hc
    show (behind s.heap R done).getClass o = _
    rw [(reads_eq (hd.behind_of_not_mem ho)).1, hd.outer_class ho, hc]
  case outer_ends => exact fun o ho r hr => hd.ends_behind hscc ho hr
  case iso =>
    show s.iso = _
    rw [hd.searching.iso, hiso]
    congr 1
    exact List.filter_congr fun y _ => decide_eq_decide.mpr (hclass y)
  case objects => rfl
  case pending => simpa using congrArg List.length hd.searching.pending
  case hasExtRef =>
    intro o
    rw [← hext]
    exact hd.searching.hasExtRef o
  case events => exact ⟨order, horder, by rw [← hevents, ← hd.searching.events]⟩

end Searched

/-- With enough fuel the freeze of a region comes to its end. -/
theorem freezeRegion_total (hs : s.heap.Settled) (hR : R.In D s.heap) (hobjects : s.objects = [])
    (hpending : s.pending = []) (hfuel : R.size D ≤ fuel) :
    ∃ s' done taken, freezeRegion D fuel s R.entry = some s' ∧ Frozen D R s s' done taken := by
  have hnodup : R.objects.Nodup := (List.nodup_cons.mp hR.nodup).2
  obtain ⟨hfuel₁, hfuel₂, hfuel₃⟩ := Rings.le_size D R hnodup
  obtain ⟨h₁, first, h₂, hregion, hinit, hfirst, hmark, hlink, hself, hinside, hother, hscc, hsettled⟩ :=
    hR.started
  let s₀ : Freeze := { s with heap := h₂, objects := first :: D.nextNotRoot R.self :: s.objects }
  have hsearchable : Searchable D R.objects.toFinset s₀ :=
    hR.searchable (hsettled hs) (fun x hx => (hinside x hx).1) hother rfl hpending
  obtain ⟨t, done, taken, hdrain, hinv, hsearching⟩ := search_total hsearchable
    (List.mem_toFinset.mpr (Rings.In.entry_mem R)) (hfuel₁.trans hfuel) (hfuel₃.trans hfuel)
  have hstarts : s₀.objects = [first, D.nextNotRoot R.self] := by
    show first :: D.nextNotRoot R.self :: s.objects = _
    rw [hobjects]
  have hd : Searched D s.heap R s₀ t done taken :=
    ⟨hR, hself, hinside, hother, ⟨first, hlink, hstarts⟩, hinv, hsearching⟩
  obtain ⟨p, objects, swept, order, h₃, hpop, hsweep, hnil, hdealloc, hdiscard, hlast, horder⟩ :=
    hd.collect (hfuel₂.trans hfuel)
  have hfrozen := hd.frozen (t := s) hs hscc horder ⟨rfl, rfl, rfl, rfl⟩
  refine ⟨_, done, taken, ?_, hfrozen⟩
  have hdrain' : Foundation.drain (dfsStep D fuel) fuel
      { s with heap := h₂, objects := first :: D.nextNotRoot R.self :: s.objects } [.pre R.entry] =
        some t := hdrain
  rw [freezeRegion]
  simp only [hregion, hinit, hfirst, hmark, bind, Option.bind_some, hR.trace, not_true_eq_false,
    if_false, hdrain', hpop, hsweep, hdealloc, hdiscard, hlast, hnil, collected, List.append_assoc]

end

end Freeze

end VeronaRt
