import VeronaFs.Runtime.RegionArenaIterator

/-!
# Allocation and merging in arena regions

`RegionArena::alloc_internal` and `merge_internal`.  A small object goes to the last arena, or to a new
one behind it, and a large one to the front of the ring.  In a merge the arenas of the other region are
linked behind the last one, and its ring in front of the other objects of the ring.
-/

namespace VeronaRt.RegionArena

open Foundation

/-- The region has the block: of its metadata object, of a large object or of an arena. -/
def Owns (self : Addr) (objs : List Addr) (id : ℕ) : Prop :=
  id = self.memory ∨ ∃ x ∈ objs, x.memory = id

namespace Heap

variable {w w' w₁ : Heap} {self other root x o hd tl : Addr} {m m' m₂ : Metadata}
  {objs objs' large large' l : List Addr} {arenas arenas' l₁ l₂ : List ArenaObjects}
  {a : ArenaObjects} {arena : Arena} {mem sz : ℕ} {k : Bool} {q : Option Addr}

/-- The header and the descriptor of an object are the same. -/
structure Same (w w' : Heap) (x : Addr) : Prop where
  /-- The class. -/
  cls : w'.cls x = w.cls x
  /-- The link. -/
  next : w'.next x = w.next x
  /-- The kind. -/
  isTrivial : w'.isTrivial x = w.isTrivial x
  /-- The size. -/
  size : w'.size x = w.size x

/-- Nothing has changed. -/
theorem Same.refl (w : Heap) (x : Addr) : w.Same w x := ⟨rfl, rfl, rfl, rfl⟩

/-- Two changes of other objects. -/
theorem Same.trans (h : w.Same w₁ x) (h' : w₁.Same w' x) : w.Same w' x :=
  ⟨h'.cls.trans h.cls, h'.next.trans h.next, h'.isTrivial.trans h.isTrivial, h'.size.trans h.size⟩

/-- A new object leaves the others. -/
theorem Same.register (hne : x ≠ o) (k : Bool) (sz : ℕ) : w.Same (w.register o k sz) x :=
  ⟨rfl, rfl, Function.update_of_ne hne .., Function.update_of_ne hne ..⟩

/-- A link leaves the others. -/
theorem Same.initNext (hne : x ≠ o) (q : Option Addr) : w.Same (w.initNext o q) x :=
  ⟨Function.update_of_ne hne .., Function.update_of_ne hne .., rfl, rfl⟩

/-- The header of an entry point leaves the others. -/
theorem Same.initIso (hne : x ≠ o) (reg : Addr) : w.Same (w.initIso o reg) x :=
  ⟨Function.update_of_ne hne .., Function.update_of_ne hne .., rfl, rfl⟩

/-- The parts of a region stay when its arenas, the descriptors of its objects and the links of its ring
do. -/
theorem Parts.congr (h : w.Parts self m objs arenas large)
    (harena : ∀ a ∈ arenas, w'.arenas a.id = w.arenas a.id)
    (hobject : ∀ x ∈ objs, w'.isTrivial x = w.isTrivial x ∧ w'.size x = w.size x)
    (hcls : w'.cls self = w.cls self) (hnext : ∀ x ∈ self :: large, w'.next x = w.next x) :
    w'.Parts self m objs arenas large :=
  ⟨h.arenaList.frame harena fun a ha x hx => hobject x (h.mem_iff.mpr (.inl ⟨a, ha, hx⟩)), h.ne_nil,
    h.ring.frame hcls hnext fun x hx => (hobject x (h.mem_iff.mpr (.inr hx))).2, h.perm⟩

/-- The parts of a region stay when its arenas and its objects do. -/
theorem Parts.frame (h : w.Parts self m objs arenas large)
    (harena : ∀ a ∈ arenas, w'.arenas a.id = w.arenas a.id)
    (hsame : ∀ x, x = self ∨ x ∈ objs → w.Same w' x) : w'.Parts self m objs arenas large := by
  refine h.congr harena (fun x hx => ?_) (hsame self (.inl rfl)).cls fun x hx => ?_
  · have hx' := hsame x (.inr hx)
    exact ⟨hx'.isTrivial, hx'.size⟩
  · refine (hsame x ?_).next
    exact (List.mem_cons.mp hx).imp_right fun hx => h.mem_iff.mpr (.inr hx)

/-- The entry point stays when the headers of the objects do. -/
theorem Rooted.frame (h : w.Rooted self root objs large) (hsame : ∀ x ∈ objs, w.Same w' x) :
    w'.Rooted self root objs large :=
  ⟨h.mem, (hsame root h.mem).cls.trans h.cls_root, (hsame root h.mem).next.trans h.next_root,
    fun x hx hne => (hsame x hx).cls.trans (h.cls_eq x hx hne), h.last⟩

/-- The class of an object of a region. -/
theorem Rooted.live (h : w.Rooted self root objs large) (hx : x ∈ objs) :
    w.cls x = .unmarked ∨ w.cls x = .iso := by
  by_cases heq : x = root
  · exact .inr (heq ▸ h.cls_root)
  · exact .inl (h.cls_eq x hx heq)

/-! ## The ring -/

/-- The last object of the ring is linked to the metadata object. -/
theorem Ring.next_last (h : w.Ring self m large) (hx : large.getLast? = some x) :
    w.next x = some self := by
  obtain ⟨l, rfl⟩ := List.getLast?_eq_some_iff.mp hx
  obtain ⟨q, -, -, hnext⟩ := Path.append_iff.mp h.path
  exact hnext

/-- The ring closes, as the region asserts. -/
theorem Ring.closed (h : w.Ring self m large)
    (hcls : ∀ x ∈ large, w.cls x = .unmarked ∨ w.cls x = .iso) : w.lastLargeClosed self m := by
  intro last hlast
  have hlast' : large.getLast? = some last := h.last.symm.trans hlast
  have hmem := hcls last (List.mem_of_getLast? hlast')
  rw [← h.next_last hlast']
  exact if_pos (by tauto)

/-- Objects are inserted in the ring. -/
theorem Ring.append (h : w.Ring self m large) (hpath : Path w.next (l ++ [tl]) (some hd) q)
    (hnodup : (l ++ [tl]).Nodup) (hout : ∀ x ∈ l ++ [tl], x ∉ self :: large)
    (hblock : ∀ x ∈ l ++ [tl], x = .block x.memory) (hsize : ∀ x ∈ l ++ [tl], Arena.size < w.size x) :
    ∃ m', w.append self m hd tl = some ((w.initNext tl (w.next self)).initNext self (some hd), m') ∧
      m'.firstArena = m.firstArena ∧ m'.lastArena = m.lastArena ∧
      ((w.initNext tl (w.next self)).initNext self (some hd)).Ring self m' (l ++ [tl] ++ large) := by
  obtain ⟨hself, hlarge⟩ := List.nodup_cons.mp h.nodup
  have htl : tl ∉ self :: large := hout tl (by simp)
  rw [List.mem_cons, not_or] at htl
  obtain ⟨htl_self, htl_large⟩ := htl
  have htl_l : tl ∉ l := fun hx => (List.nodup_append'.mp hnodup).2.2 hx (List.mem_singleton_self _)
  have hself_l : self ∉ l ++ [tl] := fun hx => hout self hx List.mem_cons_self
  have hcls : (w.initNext tl (w.next self)).cls self = .unmarked :=
    (Function.update_of_ne (Ne.symm htl_self) ..).trans h.cls_self
  refine ⟨if m.lastLarge = none then { m with lastLarge := some tl } else m, ?_, ?_, ?_,
    ⟨?_, fun x hx => ?_, fun x hx => ?_, ?_, ?_, Function.update_self ..⟩⟩
  · rw [Heap.append, getNext, if_pos h.cls_self, Option.bind_some, setNext, if_pos hcls, Option.map_some]
  · split <;> rfl
  · split <;> rfl
  · rw [List.nodup_cons, List.mem_append, not_or, List.nodup_append']
    exact ⟨⟨hself_l, hself⟩, hnodup, hlarge, fun x hx hx' => hout x hx (List.mem_cons_of_mem self hx')⟩
  · rcases List.mem_cons.mp hx with rfl | hx
    · exact h.eq_block x List.mem_cons_self
    · rcases List.mem_append.mp hx with hx | hx
      · exact hblock x hx
      · exact h.eq_block x (List.mem_cons_of_mem self hx)
  · rcases List.mem_append.mp hx with hx | hx
    · exact hsize x hx
    · exact h.size_lt x hx
  · have hnext : ((w.initNext tl (w.next self)).initNext self (some hd)).next self = some hd :=
      Function.update_self ..
    rw [hnext]
    exact Path.append_iff.mpr ⟨w.next self, (hpath.renext htl_l).update hself_l,
      (h.path.update htl_large).update hself⟩
  · rw [List.getLast?_append, ← h.last]
    cases hlast : m.lastLarge with
    | none => simp
    | some b => simp [hlast]

/-! ## The arenas -/

/-- An arena stays filled when it is linked to another one. -/
theorem Holds.link (h : w.Holds a) (harena : w.arenas a.id = some arena) (next : Option ℕ) :
    (w.setArena a.id { arena with next := next }).Holds a := by
  obtain ⟨arena', harena', hfilled⟩ := h
  obtain rfl : arena = arena' := Option.some.inj (harena.symm.trans harena')
  exact ⟨_, Function.update_self .., hfilled.tiles_trivial, hfilled.tiles_nonTrivial, hfilled.le,
    hfilled.isTrivial_eq_true, hfilled.isTrivial_eq_false, hfilled.aligned⟩

/-- The arenas of another list are linked behind the last one. -/
theorem ArenaList.link (h : w.ArenaList m (l₁ ++ [a])) (harena : w.arenas a.id = some arena)
    (h₂ : w.ArenaList m₂ l₂) (hne : l₂ ≠ [])
    (hnodup : ((l₁ ++ [a] ++ l₂).map ArenaObjects.id).Nodup) (last : Option Addr) :
    (w.setArena a.id { arena with next := m₂.firstArena }).ArenaList
      ⟨m.firstArena, m₂.lastArena, last⟩ (l₁ ++ [a] ++ l₂) := by
  have hids := hnodup
  rw [List.map_append, List.nodup_append'] at hids
  obtain ⟨hids₁, -, hdisj⟩ := hids
  have hother {b : ArenaObjects} (hb : b ∈ l₂) : b.id ≠ a.id := fun heq =>
    hdisj (List.mem_map_of_mem (List.mem_append_right l₁ (List.mem_singleton_self a)))
      (heq ▸ List.mem_map_of_mem hb)
  have hnext {id : ℕ} (hid : id ≠ a.id) :
      (w.setArena a.id { arena with next := m₂.firstArena }).nextArena id = w.nextArena id := by
    simp only [nextArena, setArena, Function.update_of_ne hid]
  refine ⟨hnodup, ?_, ?_, fun b hb => ?_⟩
  · rw [List.map_append]
    refine Path.append_iff.mpr ⟨m₂.firstArena, ?_, ?_⟩
    · have hpath := h.path
      rw [List.map_append, List.map_singleton] at hpath hids₁ ⊢
      refine hpath.relast hids₁ (fun id _ hlast => hnext ?_) (fun id hlast => ?_) (by simp) fun _ => rfl
      · simpa [eq_comm] using hlast
      · obtain rfl : a.id = id := by simpa using hlast
        simp only [nextArena, setArena, Function.update_self, Option.bind_some]
    · refine h₂.path.congr fun id hid => ?_
      obtain ⟨b, hb, rfl⟩ := List.mem_map.mp hid
      exact hnext (hother hb)
  · rw [List.map_append, List.getLast?_append_of_ne_nil _ (by simpa using hne)]
    exact h₂.last
  · by_cases heq : b.id = a.id
    · have hmem : b ∈ l₁ ++ [a] := (List.mem_append.mp hb).resolve_right fun hb => hother hb heq
      rw [← heq] at harena ⊢
      exact (h.holds b hmem).link harena _
    · have hholds : w.Holds b := (List.mem_append.mp hb).elim (h.holds b) (h₂.holds b)
      exact hholds.frame (Function.update_of_ne heq ..) fun _ _ => ⟨rfl, rfl⟩

/-- The last arena of a list. -/
theorem ArenaList.exists_last (h : w.ArenaList m arenas) {id : ℕ} (hlast : m.lastArena = some id) :
    ∃ l a arena, arenas = l ++ [a] ∧ a.id = id ∧ w.arenas a.id = some arena ∧
      arena.Filled (fun p => w.isTrivial (.slot a.id p)) (fun p => w.size (.slot a.id p)) a.trivial
        a.nonTrivial ∧ arena.next = none := by
  have hid := h.last.symm.trans hlast
  rcases List.eq_nil_or_concat' arenas with rfl | ⟨l, a, rfl⟩
  · simp at hid
  · obtain ⟨arena, harena, hfilled⟩ := h.holds a (by simp)
    refine ⟨l, a, arena, rfl, by simpa using hid, harena, hfilled, ?_⟩
    have hpath := h.path
    rw [List.map_append, Path.append_iff] at hpath
    obtain ⟨q, -, -, hnext⟩ := hpath
    simpa [Foundation.Path, nextArena, harena] using hnext

/-- The list ends, as the region asserts. -/
theorem ArenaList.closed (h : w.ArenaList m arenas) : w.lastArenaClosed m := by
  intro last hlast
  obtain ⟨-, a, arena, -, rfl, harena, -, hnext⟩ := h.exists_last hlast
  rw [nextArena, harena, Option.bind_some, hnext]

/-- A list without a last arena is empty. -/
theorem ArenaList.eq_nil (h : w.ArenaList m arenas) (hlast : m.lastArena = none) :
    arenas = [] ∧ m.firstArena = none := by
  have hnil : arenas = [] := by simpa using (h.last.symm.trans hlast)
  refine ⟨hnil, ?_⟩
  have hpath := h.path
  rwa [hnil] at hpath

/-- A new arena is a list of its own. -/
theorem arenaList_new (w : Heap) (mem : ℕ) (last : Option Addr) :
    (w.setArena mem .new).ArenaList ⟨some mem, some mem, last⟩ [⟨mem, [], []⟩] := by
  refine ⟨List.nodup_singleton mem, ⟨rfl, ?_⟩, rfl, fun b hb => ?_⟩
  · simp only [nextArena, setArena, Function.update_self, Option.bind_some]
    rfl
  · rw [List.mem_singleton.mp hb]
    exact ⟨.new, Function.update_self .., .new _ _⟩

/-- The last arena has space for an object, and the arenas have the objects that they had. -/
theorem ArenaList.ensureArena (h : w.ArenaList m arenas) (hmem : ∀ a ∈ arenas, a.id ≠ mem)
    (hsz : sz ≤ Arena.size) :
    ∃ w' m' l a arena, w.ensureArena m mem sz = some (w', m') ∧ w'.ArenaList m' (l ++ [a]) ∧
      w'.arenas a.id = some arena ∧ sz ≤ arena.nonTrivialBegin - arena.objectsEnd ∧
      (l ++ [a] = arenas ∨ l = arenas ∧ a = ⟨mem, [], []⟩) ∧ m'.lastLarge = m.lastLarge ∧
      (∀ x, w.Same w' x) ∧ w'.regions = w.regions ∧
      ∀ id, id ≠ a.id → (∀ b ∈ arenas, b.id ≠ id) → w'.arenas id = w.arenas id := by
  have hnew (h' : w.ArenaList m arenas) : (w.setArena mem .new).ArenaList m arenas :=
    h'.frame (fun a ha => Function.update_of_ne (hmem a ha) ..) fun _ _ _ _ => ⟨rfl, rfl⟩
  cases hlast : m.lastArena with
  | none =>
    obtain ⟨rfl, -⟩ := h.eq_nil hlast
    refine ⟨_, { m with firstArena := some mem, lastArena := some mem }, [], ⟨mem, [], []⟩, .new, ?_,
      arenaList_new w mem m.lastLarge, Function.update_self .., hsz, .inr ⟨rfl, rfl⟩, rfl,
      fun _ => ⟨rfl, rfl, rfl, rfl⟩, rfl, fun id hid _ => Function.update_of_ne hid ..⟩
    simp only [Heap.ensureArena, hlast]
  | some id =>
    obtain ⟨l, a, arena, rfl, rfl, harena, hfilled, -⟩ := h.exists_last hlast
    have hfree : arena.freeSpace = some (arena.nonTrivialBegin - arena.objectsEnd) :=
      if_pos hfilled.debugInvariant
    have ha : a.id ≠ mem := hmem a (by simp)
    by_cases hlt : arena.nonTrivialBegin - arena.objectsEnd < sz
    · have harena' : (w.setArena mem .new).arenas a.id = some arena :=
        (Function.update_of_ne ha ..).trans harena
      let fresh : ArenaObjects := ⟨mem, [], []⟩
      have hnodup : ((l ++ [a] ++ [fresh]).map ArenaObjects.id).Nodup := by
        rw [List.map_append, List.nodup_append']
        refine ⟨h.nodup, List.nodup_singleton _, fun id hid hid' => ?_⟩
        obtain ⟨b, hb, rfl⟩ := List.mem_map.mp hid
        exact hmem b hb (by simpa using hid')
      have hlinked := (hnew h).link harena' (arenaList_new w mem m.lastLarge) (by simp) hnodup m.lastLarge
      refine ⟨_, { m with lastArena := some mem }, l ++ [a], ⟨mem, [], []⟩, .new, ?_, hlinked, ?_, hsz,
        .inr ⟨rfl, rfl⟩, rfl, fun _ => ⟨rfl, rfl, rfl, rfl⟩, rfl, fun id hid hids => ?_⟩
      · simp only [Heap.ensureArena, hlast, harena, Option.bind_some, hfree, if_pos hlt]
      · exact (Function.update_of_ne (Ne.symm ha) ..).trans (Function.update_self ..)
      · exact (Function.update_of_ne (Ne.symm (hids a (by simp))) ..).trans (Function.update_of_ne hid ..)
    · refine ⟨w, m, l, a, arena, ?_, h, harena, by omega, .inl rfl, rfl, Same.refl w, rfl,
        fun _ _ _ => rfl⟩
      simp only [Heap.ensureArena, hlast, harena, Option.bind_some, hfree, if_neg hlt]

/-- An object is allocated in the last arena. -/
theorem ArenaList.allocSmall (h : w.ArenaList m (l₁ ++ [a])) (harena : w.arenas a.id = some arena)
    (hpos : 0 < sz) (hsz : alignment ∣ sz) (hfree : sz ≤ arena.nonTrivialBegin - arena.objectsEnd)
    (k : Bool) :
    ∃ w' p a', w.allocSmall m k sz = some (w', .slot a.id p) ∧ w'.ArenaList m (l₁ ++ [a']) ∧
      a'.id = a.id ∧ (a'.trivial ++ a'.nonTrivial).Perm (p :: (a.trivial ++ a.nonTrivial)) ∧
      w'.cls (.slot a.id p) = .unmarked ∧ (∀ x, x ≠ .slot a.id p → w.Same w' x) ∧
      w'.regions = w.regions ∧ ∀ id, id ≠ a.id → w'.arenas id = w.arenas id := by
  obtain ⟨arena₀, harena₀, hfilled⟩ := h.holds a (by simp)
  obtain rfl : arena = arena₀ := Option.some.inj (harena.symm.trans harena₀)
  obtain ⟨arena', p, trivial', nonTrivial', halloc, hnext, hfilled', hperm⟩ :=
    hfilled.allocObj hpos hsz hfree k
  let a' : ArenaObjects := ⟨a.id, trivial', nonTrivial'⟩
  let w' := ((w.setArena a.id arena').register (.slot a.id p) k sz).initNext (.slot a.id p) none
  have hlast : m.lastArena = some a.id := by
    rw [h.last]
    simp
  have hids : (l₁ ++ [a']).map ArenaObjects.id = (l₁ ++ [a]).map ArenaObjects.id := by simp [a']
  have hother : ∀ id, id ≠ a.id → w'.arenas id = w.arenas id :=
    fun id hid => Function.update_of_ne hid ..
  have hself : w'.arenas a.id = some arena' := Function.update_self ..
  refine ⟨w', p, a', ?_, ⟨?_, ?_, ?_, fun b hb => ?_⟩, rfl, hperm, Function.update_self ..,
    fun x hx => ?_, rfl, hother⟩
  · simp only [Heap.allocSmall, hlast, Option.bind_some, harena, halloc, Option.map_some]
    rfl
  · rw [hids]
    exact h.nodup
  · rw [hids]
    refine h.path.congr fun id _ => ?_
    by_cases heq : id = a.id
    · rw [heq, nextArena, hself, Option.bind_some, hnext, nextArena, harena, Option.bind_some]
    · rw [nextArena, hother id heq, nextArena]
  · rw [hids]
    exact h.last
  · rcases List.mem_append.mp hb with hb | hb
    · have hne : b.id ≠ a.id := by
        have hnodup := h.nodup
        rw [List.map_append, List.nodup_append'] at hnodup
        exact fun heq => hnodup.2.2 (List.mem_map_of_mem hb) (by simp [heq])
      refine (h.holds b (List.mem_append_left _ hb)).frame (hother _ hne) fun x hx => ?_
      have hx' : x ≠ .slot a.id p := fun heq => hne ((memory_eq hx).symm.trans (heq ▸ rfl))
      exact ⟨Function.update_of_ne hx' .., Function.update_of_ne hx' ..⟩
    · rw [List.mem_singleton.mp hb]
      refine ⟨arena', hself, hfilled'.congr fun r _ => ?_⟩
      by_cases heq : r = p
      · rw [heq, Function.update_self, Function.update_self]
        exact ⟨Function.update_self .., Function.update_self ..⟩
      · have hne : Addr.slot a.id r ≠ .slot a.id p := fun h => heq (Addr.slot.inj h).2
        rw [Function.update_of_ne heq, Function.update_of_ne heq]
        exact ⟨Function.update_of_ne hne .., Function.update_of_ne hne ..⟩
  · have hregister : w.Same ((w.setArena a.id arena').register (.slot a.id p) k sz) x :=
      ⟨rfl, rfl, Function.update_of_ne hx .., Function.update_of_ne hx ..⟩
    exact hregister.trans (.initNext hx none)

/-! ## Allocation -/

/-- What a new object leaves of a region and of the others. -/
structure Added (w : Heap) (reg : Addr) (objs : List Addr) (mem : ℕ) (o : Addr) (w' : Heap) :
    Prop where
  /-- The object is new. -/
  notMem : o ∉ reg :: objs
  /-- It is in a block of the region or in the new one. -/
  memory : o.memory = mem ∨ ∃ x ∈ objs, x.memory = o.memory
  /-- It is not marked. -/
  cls_eq : w'.cls o = .unmarked
  /-- The other objects are the same. -/
  same : ∀ x, x ≠ o → x ≠ reg → w.Same w' x
  /-- The arenas of other regions are the same. -/
  arenas_eq : ∀ id, id ≠ o.memory → (∀ x ∈ objs, x.memory ≠ id) → w'.arenas id = w.arenas id
  /-- The regions are the same. -/
  regions_eq : w'.regions = w.regions

/-- An object is allocated. -/
theorem Parts.allocInternal (h : w.Parts self m objs arenas large) (hmem : ¬ Owns self objs mem)
    (hpos : 0 < sz) (hsz : alignment ∣ sz) (k : Bool) :
    ∃ w' m' o arenas' large', w.allocInternal self m mem k sz = some (w', m', o) ∧
      w'.Parts self m' (o :: objs) arenas' large' ∧ (large' = large ∨ large' = o :: large) ∧
      w.Added self objs mem o w' := by
  rw [Owns, not_or, not_exists] at hmem
  obtain ⟨hmem_self, hmem_objs⟩ := hmem
  have hids : ∀ a ∈ arenas, a.id ≠ mem := by
    rintro a ha rfl
    obtain ⟨x, hx, hid⟩ := h.exists_mem ha
    exact hmem_objs x ⟨hx, hid⟩
  rw [Heap.allocInternal]
  by_cases hlarge : Arena.size < sz
  · -- a large object, at the front of the ring
    have ho : Addr.block mem ∉ self :: objs := by
      intro hx
      rcases List.mem_cons.mp hx with hx | hx
      · exact hmem_self (hx ▸ rfl)
      · exact hmem_objs _ ⟨hx, rfl⟩
    have hne : ∀ x ∈ self :: objs, x ≠ .block mem := fun x hx heq => ho (heq ▸ hx)
    have h₁ : (w.register (.block mem) k sz).Parts self m objs arenas large :=
      h.frame (fun _ _ => rfl) fun x hx => .register (hne x (List.mem_cons.mpr hx)) k sz
    have hpath : Path (w.register (.block mem) k sz).next ([] ++ [.block mem]) (some (.block mem))
        ((w.register (.block mem) k sz).next (.block mem)) := ⟨rfl, rfl⟩
    have hout : ∀ x ∈ [] ++ [Addr.block mem], x ∉ self :: large := by
      intro x hx hx'
      obtain rfl : x = .block mem := by simpa using hx
      exact ho ((List.mem_cons.mp hx').elim (fun heq => heq ▸ List.mem_cons_self)
        fun hx => List.mem_cons_of_mem _ (h.mem_iff.mpr (.inr hx)))
    have hsize : ∀ x ∈ [] ++ [Addr.block mem], Arena.size < (w.register (.block mem) k sz).size x := by
      intro x hx
      obtain rfl : x = .block mem := by simpa using hx
      rwa [show (w.register (.block mem) k sz).size (.block mem) = sz from Function.update_self ..]
    obtain ⟨m', happend, hfirst, hlast, hring⟩ := h₁.ring.append hpath (List.nodup_singleton _) hout
      (by simp [Addr.memory]) hsize
    have hself : self ≠ .block mem := hne self List.mem_cons_self
    refine ⟨_, m', .block mem, arenas, .block mem :: large, ?_, ⟨?_, h.ne_nil, hring, ?_⟩, .inr rfl,
      ho, .inl rfl, ?_, fun x hx hx' => ?_, fun _ _ _ => rfl, rfl⟩
    · rw [if_pos hlarge, happend, Option.map_some]
    · have harenas := h₁.arenaList
      exact ⟨harenas.nodup, by rw [hfirst]; exact harenas.path, hlast.trans harenas.last, harenas.holds⟩
    · exact (h.perm.cons _).trans List.perm_middle.symm
    · exact (Function.update_of_ne (Ne.symm hself) ..).trans (Function.update_self ..)
    · exact (Same.register hx k sz).trans ((Same.initNext hx _).trans (.initNext hx' _))
  · -- a small object, in the last arena
    obtain ⟨w₁, m₁, l, a, arena, hensure, hlist, harena, hfree, hcases, hlast, hsame, hregions, hother⟩ :=
      h.arenaList.ensureArena hids (Nat.le_of_not_lt hlarge)
    obtain ⟨w₂, p, a', hsmall, hlist', hid, hperm, hcls, hsame', hregions', hother'⟩ :=
      hlist.allocSmall harena hpos hsz hfree k
    have hobjects : (l ++ [a]).flatMap ArenaObjects.objects = arenas.flatMap ArenaObjects.objects ∧
        (∀ b ∈ l, b.trivial ++ b.nonTrivial ≠ []) ∧
        (a.id = mem ∨ ∃ x ∈ objs, x.memory = a.id) := by
      rcases hcases with rfl | ⟨rfl, rfl⟩
      · exact ⟨rfl, fun b hb => h.ne_nil b (List.mem_append_left _ hb), .inr (h.exists_mem (by simp))⟩
      · refine ⟨?_, h.ne_nil, .inl rfl⟩
        rw [List.flatMap_append]
        exact List.append_nil _
    obtain ⟨hflat, hne_nil, hmemory⟩ := hobjects
    have hperm_objects : a'.objects.Perm (.slot a.id p :: a.objects) := by
      rw [ArenaObjects.objects, hid]
      exact hperm.map _
    have hperm' : (Addr.slot a.id p :: objs).Perm
        ((l ++ [a']).flatMap ArenaObjects.objects ++ large) := by
      refine (h.perm.cons _).trans ?_
      rw [← hflat, ← List.cons_append, List.flatMap_append, List.flatMap_append, List.flatMap_singleton,
        List.flatMap_singleton]
      refine List.Perm.append_right large (List.perm_middle.symm.trans ?_)
      exact (hperm_objects.symm).append_left _
    have hring : w₂.Ring self m₁ large := by
      have hslot : ∀ x ∈ self :: large, x ≠ .slot a.id p :=
        fun x hx heq => h.ring.notMem (heq ▸ hx)
      have hframe : w₂.Ring self m large := h.ring.frame
        ((hsame self).trans (hsame' self (hslot self List.mem_cons_self))).cls
        (fun x hx => ((hsame x).trans (hsame' x (hslot x hx))).next)
        fun x hx => ((hsame x).trans (hsame' x (hslot x (List.mem_cons_of_mem self hx)))).size
      exact ⟨hframe.nodup, hframe.eq_block, hframe.size_lt, hframe.path, hlast.trans hframe.last,
        hframe.cls_self⟩
    have hparts : w₂.Parts self m₁ (.slot a.id p :: objs) (l ++ [a']) large := by
      refine ⟨hlist', fun b hb => ?_, hring, hperm'⟩
      rcases List.mem_append.mp hb with hb | hb
      · exact hne_nil b hb
      · rw [List.mem_singleton.mp hb]
        exact fun hnil => by simpa [hnil] using hperm.length_eq
    refine ⟨w₂, m₁, .slot a.id p, l ++ [a'], large, ?_, hparts, .inl rfl, ?_, hmemory, hcls,
      fun x hx _ => (hsame x).trans (hsame' x hx), fun id hid hids' => ?_, hregions'.trans hregions⟩
    · simp only [if_neg hlarge, hensure, Option.bind_some, hsmall, Option.map_some]
    · rw [List.mem_cons, not_or]
      exact ⟨fun heq => h.ring.notMem (List.mem_cons.mpr (.inl heq)), (List.nodup_cons.mp hparts.nodup).1⟩
    · rw [hother' id hid, hother id hid fun b hb heq => ?_]
      obtain ⟨x, hx, hxid⟩ := h.exists_mem hb
      exact hids' x hx (hxid.trans heq)

/-! ## Merging -/

/-- The arenas of another region are appended. -/
theorem ArenaList.mergeArenas (h : w.ArenaList m arenas) (h' : w.ArenaList m' arenas')
    (hdisj : ∀ a ∈ arenas, ∀ b ∈ arenas', a.id ≠ b.id) :
    ∃ w' m₂, w.mergeArenas m m' = some (w', m₂) ∧ w'.ArenaList m₂ (arenas ++ arenas') ∧
      m₂.lastLarge = m.lastLarge ∧ (∀ x, w.Same w' x) ∧ w'.regions = w.regions ∧
      ∀ id, (∀ a ∈ arenas, a.id ≠ id) → w'.arenas id = w.arenas id := by
  cases hlast : m.lastArena with
  | none =>
    obtain ⟨rfl, hfirst⟩ := h.eq_nil hlast
    refine ⟨w, { m with firstArena := m'.firstArena, lastArena := m'.lastArena }, ?_,
      ⟨h'.nodup, h'.path, h'.last, h'.holds⟩, rfl, Same.refl w, rfl, fun _ _ => rfl⟩
    simp only [Heap.mergeArenas, hlast, if_pos hfirst]
  | some id =>
    obtain ⟨l, a, arena, rfl, rfl, harena, -, -⟩ := h.exists_last hlast
    by_cases hfirst : m'.firstArena = none
    · have hnil : arenas' = [] := by
        have hpath := h'.path
        rw [hfirst] at hpath
        cases arenas' with
        | nil => rfl
        | cons b l => cases hpath.1
      subst hnil
      refine ⟨w, m, ?_, by rwa [List.append_nil], rfl, Same.refl w, rfl, fun _ _ => rfl⟩
      simp only [Heap.mergeArenas, hlast, if_pos hfirst]
    · have hlast' : m'.lastArena ≠ none := fun hnone => hfirst (h'.eq_nil hnone).2
      have hne : arenas' ≠ [] := by
        rintro rfl
        exact hfirst h'.path
      have hnodup : ((l ++ [a] ++ arenas').map ArenaObjects.id).Nodup := by
        rw [List.map_append, List.nodup_append']
        refine ⟨h.nodup, h'.nodup, fun id hid hid' => ?_⟩
        obtain ⟨b, hb, rfl⟩ := List.mem_map.mp hid
        obtain ⟨c, hc, heq⟩ := List.mem_map.mp hid'
        exact hdisj b hb c hc heq.symm
      refine ⟨_, { m with lastArena := m'.lastArena }, ?_, h.link harena h' hne hnodup m.lastLarge, rfl,
        fun _ => ⟨rfl, rfl, rfl, rfl⟩, rfl, fun id hid => ?_⟩
      · simp only [Heap.mergeArenas, hlast, if_neg hfirst, if_neg hlast', harena, Option.map_some]
      · exact Function.update_of_ne (Ne.symm (hid a (by simp))) ..

/-- The ring of another region is inserted. -/
theorem Ring.mergeRing (h : w.Ring self m large) (h' : w.Ring other m' large')
    (hdisj : ∀ x ∈ other :: large', x ∉ self :: large) :
    ∃ w' m₂, w.mergeRing self m other m' = some (w', m₂) ∧ w'.Ring self m₂ (large' ++ large) ∧
      m₂.firstArena = m.firstArena ∧ m₂.lastArena = m.lastArena ∧
      (∀ x, x ≠ self → large'.getLast? ≠ some x → w.Same w' x) ∧
      (∀ x, large'.getLast? = some x → w'.cls x = .unmarked) ∧ w'.isTrivial = w.isTrivial ∧
      w'.size = w.size ∧ w'.arenas = w.arenas ∧ w'.regions = w.regions := by
  obtain ⟨hother, hlarge⟩ := List.nodup_cons.mp h'.nodup
  rw [Heap.mergeRing, getNext, if_pos h'.cls_self, Option.bind_some]
  rcases List.eq_nil_or_concat' large' with rfl | ⟨l, tl, rfl⟩
  · have hnext : w.next other = some other := h'.path
    exact ⟨w, m, if_pos hnext, h, rfl, rfl, fun x _ _ => Same.refl w x, nofun, rfl, rfl, rfl, rfl⟩
  · obtain ⟨hd, hhd, hhd_mem⟩ : ∃ hd, w.next other = some hd ∧ hd ∈ l ++ [tl] := by
      have hpath := h'.path
      cases l with
      | nil => exact ⟨tl, hpath.1, by simp⟩
      | cons b l => exact ⟨b, hpath.1, by simp⟩
    have hne : hd ≠ other := fun heq => hother (heq ▸ hhd_mem)
    have hpath : Path w.next (l ++ [tl]) (some hd) (some other) := hhd ▸ h'.path
    have hlast : m'.lastLarge = some tl := by
      rw [h'.last]
      simp
    obtain ⟨m₂, happend, hfirst, hlastArena, hring⟩ := h.append hpath hlarge
      (fun x hx => hdisj x (List.mem_cons_of_mem other hx))
      (fun x hx => h'.eq_block x (List.mem_cons_of_mem other hx)) h'.size_lt
    have hself : tl ≠ self := fun heq =>
      hdisj tl (List.mem_cons_of_mem other (by simp)) (heq ▸ List.mem_cons_self)
    refine ⟨_, m₂, ?_, hring, hfirst, hlastArena, fun x hx hx' => ?_, fun x hx => ?_, rfl, rfl, rfl, rfl⟩
    · rw [hhd, if_neg (fun heq => hne (Option.some.inj heq)), Option.bind_some, hlast, Option.bind_some,
        happend]
    · have hx_tl : x ≠ tl := by
        rintro rfl
        exact hx' (by simp)
      exact (Same.initNext hx_tl _).trans (.initNext hx _)
    · obtain rfl : tl = x := by simpa using hx
      exact (Function.update_of_ne hself ..).trans (Function.update_self ..)

/-- A former entry point in an arena gets the class of the other objects, and nothing else changes. -/
theorem clearIso_spec (w : Heap) (o : Addr) : (∀ x, x ≠ o → w.Same (w.clearIso o) x) ∧
    (alignUp (w.size o) ≤ Arena.size → (w.clearIso o).cls o = .unmarked) ∧
    (Arena.size < alignUp (w.size o) → w.clearIso o = w) ∧ (w.clearIso o).isTrivial = w.isTrivial ∧
    (w.clearIso o).size = w.size ∧ (w.clearIso o).arenas = w.arenas ∧
    (w.clearIso o).regions = w.regions := by
  unfold clearIso
  split
  · next hsmall =>
    exact ⟨fun x hx => .initNext hx none, fun _ => Function.update_self .., fun hlarge => by omega, rfl,
      rfl, rfl, rfl⟩
  · next hlarge =>
    exact ⟨fun x _ => Same.refl w x, fun hsmall => absurd hsmall hlarge, fun _ => rfl, rfl, rfl, rfl, rfl⟩

/-- The objects of another region are moved to the region. -/
theorem Parts.mergeInternal (h : w.Parts self m objs arenas large)
    (h' : w.Parts other m' objs' arenas' large') (hroot : w.Rooted self root objs large)
    (hroot' : w.Rooted other o objs' large')
    (hdisj : ∀ id, Owns self objs id → ¬ Owns other objs' id) :
    ∃ w' m₂, w.mergeInternal self m other m' = some (w', m₂) ∧
      (w'.clearIso o).Parts self m₂ (objs ++ objs') (arenas ++ arenas') (large' ++ large) ∧
      (w'.clearIso o).Rooted self root (objs ++ objs') (large' ++ large) ∧
      (∀ x, x ≠ self → x ∉ objs' → w.Same (w'.clearIso o) x) ∧
      (∀ id, (∀ x ∈ objs, x.memory ≠ id) → (w'.clearIso o).arenas id = w.arenas id) ∧
      (w'.clearIso o).regions = w.regions := by
  have hout {x : Addr} (hx : x = other ∨ x ∈ objs') : ¬ (x = self ∨ x ∈ objs) := by
    intro hx'
    refine hdisj x.memory (hx'.imp (congrArg _) fun hx' => ⟨x, hx', rfl⟩) ?_
    exact hx.imp (congrArg _) fun hx => ⟨x, hx, rfl⟩
  have hids : ∀ a ∈ arenas, ∀ b ∈ arenas', a.id ≠ b.id := by
    intro a ha b hb heq
    obtain ⟨x, hx, hxa⟩ := h.exists_mem ha
    obtain ⟨y, hy, hyb⟩ := h'.exists_mem hb
    exact hdisj a.id (.inr ⟨x, hx, hxa⟩) (.inr ⟨y, hy, hyb.trans heq.symm⟩)
  have hrings : ∀ x ∈ other :: large', x ∉ self :: large := by
    intro x hx hx'
    refine hout ((List.mem_cons.mp hx).imp_right fun hx => h'.mem_iff.mpr (.inr hx)) ?_
    exact (List.mem_cons.mp hx').imp_right fun hx => h.mem_iff.mpr (.inr hx)
  obtain ⟨w₁, m₁, hmerge₁, hlist, hlast₁, hsame₁, hregions₁, harenas₁⟩ :=
    h.arenaList.mergeArenas h'.arenaList hids
  have hring₁ : w₁.Ring self m₁ large := by
    have hframe : w₁.Ring self m large := h.ring.frame (hsame₁ self).cls (fun x _ => (hsame₁ x).next)
      fun x _ => (hsame₁ x).size
    exact ⟨hframe.nodup, hframe.eq_block, hframe.size_lt, hframe.path, hlast₁.trans hframe.last,
      hframe.cls_self⟩
  have hring₁' : w₁.Ring other m' large' := h'.ring.frame (hsame₁ other).cls
    (fun x _ => (hsame₁ x).next) fun x _ => (hsame₁ x).size
  obtain ⟨w₂, m₂, hmerge₂, hring₂, hfirst₂, hlast₂, hsame₂, hcls₂, htrivial₂, hsize₂, harenas₂, hregions₂⟩ :=
    hring₁.mergeRing hring₁' hrings
  have hlist₂ : w₂.ArenaList m₂ (arenas ++ arenas') := by
    have hframe : w₂.ArenaList m₁ (arenas ++ arenas') := hlist.frame (fun a _ => by rw [harenas₂])
      fun a _ x _ => ⟨by rw [htrivial₂], by rw [hsize₂]⟩
    exact ⟨hframe.nodup, hfirst₂ ▸ hframe.path, hlast₂.trans hframe.last, hframe.holds⟩
  have hparts₂ : w₂.Parts self m₂ (objs ++ objs') (arenas ++ arenas') (large' ++ large) := by
    refine ⟨hlist₂, fun a ha => (List.mem_append.mp ha).elim (h.ne_nil a) (h'.ne_nil a), hring₂, ?_⟩
    refine (h.perm.append h'.perm).trans ?_
    rw [List.flatMap_append, List.append_assoc, List.append_assoc]
    refine List.Perm.append_left _ ?_
    rw [← List.append_assoc, ← List.append_assoc]
    refine (List.perm_append_comm.append_right _).trans ?_
    rw [List.append_assoc, List.append_assoc]
    exact List.Perm.append_left _ List.perm_append_comm
  -- what has changed so far
  have hsame {x : Addr} (hx : x ≠ self) (hx' : large'.getLast? ≠ some x) : w.Same w₂ x :=
    (hsame₁ x).trans (hsame₂ x hx hx')
  have hsame_objs {x : Addr} (hx : x ∈ objs) : w.Same w₂ x := by
    refine hsame (fun heq => h.self_notMem (heq ▸ hx)) fun hlast => ?_
    exact hout (.inr (h'.mem_iff.mpr (.inr (List.mem_of_getLast? hlast)))) (.inr hx)
  have hself_objs' : self ∉ objs' := fun hx => hout (.inr hx) (.inl rfl)
  have hcls_objs' {x : Addr} (hx : x ∈ objs') (hne : x ≠ o) : w₂.cls x = .unmarked := by
    by_cases hlast : large'.getLast? = some x
    · exact hcls₂ x hlast
    · exact (hsame (fun heq => hself_objs' (heq ▸ hx)) hlast).cls.trans (hroot'.cls_eq x hx hne)
  have hlive : ∀ x ∈ large' ++ large, w₂.cls x = .unmarked ∨ w₂.cls x = .iso := by
    intro x hx
    rcases List.mem_append.mp hx with hx | hx
    · by_cases heq : x = o
      · exact .inl (hcls₂ x (heq ▸ hroot'.last (heq ▸ hx)))
      · exact .inl (hcls_objs' (h'.mem_iff.mpr (.inr hx)) heq)
    · have hx' := h.mem_iff.mpr (.inr hx)
      rw [(hsame_objs hx').cls]
      exact hroot.live hx'
  -- the former entry point
  have hlarge_iff : o ∈ large' ↔ Arena.size < alignUp (w₂.size o) := by
    rw [hsize₂, (hsame₁ o).size]
    exact h'.mem_large_iff hroot'.mem
  obtain ⟨hsame₃, hcls₃, hlarge₃, htrivial₃, hsize₃, harenas₃, hregions₃⟩ := clearIso_spec w₂ o
  have hne_objs {x : Addr} (hx : x ∈ objs) : x ≠ o := fun heq =>
    hout (.inr hroot'.mem) (.inr (heq ▸ hx))
  have hparts₃ : (w₂.clearIso o).Parts self m₂ (objs ++ objs') (arenas ++ arenas')
      (large' ++ large) := by
    by_cases ho : o ∈ large'
    · rw [hlarge₃ (hlarge_iff.mp ho)]
      exact hparts₂
    · have hself : self ≠ o := fun heq => hself_objs' (heq ▸ hroot'.mem)
      refine hparts₂.congr (fun a _ => by rw [harenas₃]) (fun x _ => ⟨by rw [htrivial₃], by rw [hsize₃]⟩)
        (hsame₃ self hself).cls fun x hx => (hsame₃ x ?_).next
      rintro rfl
      rcases List.mem_cons.mp hx with hx | hx
      · exact hself hx.symm
      · rcases List.mem_append.mp hx with hx | hx
        · exact ho hx
        · exact hne_objs (h.mem_iff.mpr (.inr hx)) rfl
  refine ⟨w₂, m₂, ?_, hparts₃, ⟨List.mem_append_left _ hroot.mem, ?_, ?_, fun x hx hne => ?_,
    fun hmem => ?_⟩, fun x hx hx' => ?_, fun id hid => ?_, hregions₃.trans (hregions₂.trans hregions₁)⟩
  · simp only [Heap.mergeInternal, hmerge₁, hmerge₂, Option.bind_some]
    exact if_pos ⟨hlist₂.closed, hring₂.closed hlive⟩
  · rw [(hsame₃ root (hne_objs hroot.mem)).cls, (hsame_objs hroot.mem).cls, hroot.cls_root]
  · rw [(hsame₃ root (hne_objs hroot.mem)).next, (hsame_objs hroot.mem).next, hroot.next_root]
  · rcases List.mem_append.mp hx with hx | hx
    · rw [(hsame₃ x (hne_objs hx)).cls, (hsame_objs hx).cls, hroot.cls_eq x hx hne]
    · by_cases heq : x = o
      · subst heq
        by_cases ho : x ∈ large'
        · rw [hlarge₃ (hlarge_iff.mp ho)]
          exact hcls₂ x (hroot'.last ho)
        · exact hcls₃ (Nat.le_of_not_lt fun hlt => ho (hlarge_iff.mpr hlt))
      · rw [(hsame₃ x heq).cls]
        exact hcls_objs' hx heq
  · have hmem' : root ∈ large := (List.mem_append.mp hmem).resolve_left fun hx =>
      hout (.inr (h'.mem_iff.mpr (.inr hx))) (.inr hroot.mem)
    rw [List.getLast?_append, hroot.last hmem']
    rfl
  · have hlast : large'.getLast? ≠ some x := fun hlast =>
      hx' (h'.mem_iff.mpr (.inr (List.mem_of_getLast? hlast)))
    exact (hsame hx hlast).trans (hsame₃ x fun heq => hx' (heq ▸ hroot'.mem))
  · rw [harenas₃, harenas₂]
    refine harenas₁ id fun a ha heq => ?_
    obtain ⟨x, hx, hxa⟩ := h.exists_mem ha
    exact hid x hx (hxa.trans heq)

end Heap

end VeronaRt.RegionArena
