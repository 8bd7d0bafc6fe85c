import VeronaFs.Foundation.Links
import VeronaFs.Foundation.Tiles
import VeronaFs.Runtime.RegionArena

/-!
# The layout of arena regions

An arena is filled from both ends: its trivial objects are a tiling from the front on, and the others
are a tiling to its end.  `Parts` says of a region that its objects are those of such arenas, which are
in a list, and those of the ring.  An iteration steps through them in this order (`Parts.objects_eq`).
-/

namespace VeronaRt.RegionArena

open Foundation

/-! ## Alignment -/

/-- A multiple of the alignment stays. -/
theorem alignUp_of_dvd {sz : ℕ} (h : alignment ∣ sz) : alignUp sz = sz := by
  obtain ⟨k, rfl⟩ := h
  simp only [alignUp, alignment]
  omega

/-- The size of an object is at most the space that it takes. -/
theorem le_alignUp (sz : ℕ) : sz ≤ alignUp sz := by
  simp only [alignUp, alignment]
  omega

/-- The size of an arena is a multiple of the alignment. -/
theorem alignment_dvd_size : alignment ∣ Arena.size := by decide

/-! ## Arenas -/

/-- The objects of an arena, from both ends. -/
structure Arena.Filled (arena : Arena) (isTrivial : ℕ → Bool) (size : ℕ → ℕ)
    (trivial nonTrivial : List ℕ) : Prop where
  /-- The trivial objects lie behind each other from the front on. -/
  tiles_trivial : Tiles size trivial 0 arena.objectsEnd
  /-- The other objects lie behind each other to the end. -/
  tiles_nonTrivial : Tiles size nonTrivial arena.nonTrivialBegin Arena.size
  /-- The two parts do not overlap. -/
  le : arena.objectsEnd ≤ arena.nonTrivialBegin
  /-- The objects at the front are trivial. -/
  isTrivial_eq_true : ∀ x ∈ trivial, isTrivial x = true
  /-- The objects at the end are not. -/
  isTrivial_eq_false : ∀ x ∈ nonTrivial, isTrivial x = false
  /-- The sizes are multiples of the alignment. -/
  aligned : ∀ x ∈ trivial ++ nonTrivial, alignment ∣ size x

namespace Arena.Filled

variable {arena : Arena} {isTrivial isTrivial' : ℕ → Bool} {size size' : ℕ → ℕ}
  {trivial nonTrivial : List ℕ} {x y sz : ℕ}

/-- An arena without objects. -/
theorem new (isTrivial : ℕ → Bool) (size : ℕ → ℕ) : Filled .new isTrivial size [] [] :=
  ⟨rfl, rfl, Nat.zero_le _, nofun, nofun, nofun⟩

/-- Only the descriptors of its objects matter. -/
theorem congr (h : Filled arena isTrivial size trivial nonTrivial)
    (hsame : ∀ x ∈ trivial ++ nonTrivial, isTrivial' x = isTrivial x ∧ size' x = size x) :
    Filled arena isTrivial' size' trivial nonTrivial := by
  have hleft {x : ℕ} (hx : x ∈ trivial) := hsame x (List.mem_append_left nonTrivial hx)
  have hright {x : ℕ} (hx : x ∈ nonTrivial) := hsame x (List.mem_append_right trivial hx)
  refine ⟨h.tiles_trivial.congr fun x hx => (hleft hx).2,
    h.tiles_nonTrivial.congr fun x hx => (hright hx).2, h.le,
    fun x hx => (hleft hx).1.trans (h.isTrivial_eq_true x hx),
    fun x hx => (hright hx).1.trans (h.isTrivial_eq_false x hx), fun x hx => ?_⟩
  rw [(hsame x hx).2]
  exact h.aligned x hx

/-- The pointers of the arena meet its assertions. -/
theorem debugInvariant (h : Filled arena isTrivial size trivial nonTrivial) :
    arena.debugInvariant := by
  refine ⟨h.le, h.tiles_nonTrivial.le, ?_, ?_⟩
  · exact (h.tiles_trivial.dvd_iff fun x hx => h.aligned x (List.mem_append_left _ hx)).mp
      (Nat.dvd_zero _)
  · exact (h.tiles_nonTrivial.dvd_iff fun x hx => h.aligned x (List.mem_append_right _ hx)).mpr
      alignment_dvd_size

/-- A trivial object ends before the others begin. -/
theorem lt (h : Filled arena isTrivial size trivial nonTrivial) (hx : x ∈ trivial)
    (hy : y ∈ nonTrivial) : x + size x ≤ y := by
  have hx' := (h.tiles_trivial.bounds hx).2.2
  have hy' := (h.tiles_nonTrivial.bounds hy).1
  exact Nat.le_trans hx' (Nat.le_trans h.le hy')

/-- No object is in the arena twice. -/
theorem nodup (h : Filled arena isTrivial size trivial nonTrivial) : (trivial ++ nonTrivial).Nodup := by
  refine List.nodup_append'.mpr ⟨h.tiles_trivial.nodup, h.tiles_nonTrivial.nodup, fun x hx hx' => ?_⟩
  have hpos := (h.tiles_trivial.bounds hx).2.1
  have hlt := h.lt hx hx'
  omega

/-- An object is inside the arena. -/
theorem inside (h : Filled arena isTrivial size trivial nonTrivial) (hx : x ∈ trivial ++ nonTrivial) :
    0 < size x ∧ x + size x ≤ Arena.size := by
  have hbegin := h.tiles_nonTrivial.le
  have hle := h.le
  rcases List.mem_append.mp hx with hx | hx
  · have hx' := (h.tiles_trivial.bounds hx).2
    omega
  · exact (h.tiles_nonTrivial.bounds hx).2

/-- Two objects of the arena are disjoint. -/
theorem disjoint (h : Filled arena isTrivial size trivial nonTrivial) (hx : x ∈ trivial ++ nonTrivial)
    (hy : y ∈ trivial ++ nonTrivial) (hne : x ≠ y) : x + size x ≤ y ∨ y + size y ≤ x := by
  rcases List.mem_append.mp hx with hx | hx <;> rcases List.mem_append.mp hy with hy | hy
  · exact h.tiles_trivial.disjoint hx hy hne
  · exact .inl (h.lt hx hy)
  · exact .inr (h.lt hy hx)
  · exact h.tiles_nonTrivial.disjoint hx hy hne

/-- An object is allocated in an arena with enough space. -/
theorem allocObj (h : Filled arena isTrivial size trivial nonTrivial) (hpos : 0 < sz)
    (hsz : alignment ∣ sz) (hfree : sz ≤ arena.nonTrivialBegin - arena.objectsEnd) (k : Bool) :
    ∃ arena' p trivial' nonTrivial', arena.allocObj k sz = some (arena', p) ∧
      arena'.next = arena.next ∧
      Filled arena' (Function.update isTrivial p k) (Function.update size p sz) trivial' nonTrivial' ∧
      (trivial' ++ nonTrivial').Perm (p :: (trivial ++ nonTrivial)) := by
  obtain ⟨hle, hend, hobjects, hbegin⟩ := h.debugInvariant
  have hspace : arena.freeSpace = some (arena.nonTrivialBegin - arena.objectsEnd) :=
    if_pos h.debugInvariant
  have hfree' : ¬ arena.nonTrivialBegin - arena.objectsEnd < sz := by omega
  -- the new object is none of the others
  have hsame {p : ℕ} (hp : p ∉ trivial ++ nonTrivial) : ∀ x ∈ trivial ++ nonTrivial,
      Function.update isTrivial p k x = isTrivial x ∧ Function.update size p sz x = size x := by
    intro x hx
    have hne : x ≠ p := fun heq => hp (heq ▸ hx)
    exact ⟨Function.update_of_ne hne .., Function.update_of_ne hne ..⟩
  have hout {p : ℕ} (hlo : arena.objectsEnd ≤ p) (hhi : p < arena.nonTrivialBegin) :
      p ∉ trivial ++ nonTrivial := by
    intro hp
    rcases List.mem_append.mp hp with hp | hp
    · have hp' := (h.tiles_trivial.bounds hp).2
      omega
    · have hp' := (h.tiles_nonTrivial.bounds hp).1
      omega
  unfold Arena.allocObj
  rw [hspace, Option.bind_some, if_neg hfree']
  cases k with
  | true =>
    have hp : arena.objectsEnd ∉ trivial ++ nonTrivial := hout (Nat.le_refl _) (by omega)
    have h' := h.congr (hsame hp)
    let arena' : Arena := { arena with objectsEnd := arena.objectsEnd + sz }
    have hinv : arena'.debugInvariant :=
      ⟨show arena.objectsEnd + sz ≤ arena.nonTrivialBegin by omega, hend, Nat.dvd_add hobjects hsz,
        hbegin⟩
    refine ⟨arena', arena.objectsEnd, trivial ++ [arena.objectsEnd], nonTrivial, if_pos hinv, rfl,
      ⟨?_, h'.tiles_nonTrivial, hinv.1, fun x hx => ?_, h'.isTrivial_eq_false, fun x hx => ?_⟩, ?_⟩
    · have htiles := h'.tiles_trivial.concat (by rwa [Function.update_self])
      rwa [Function.update_self] at htiles
    · rcases List.mem_append.mp hx with hx | hx
      · exact h'.isTrivial_eq_true x hx
      · rw [List.mem_singleton.mp hx, Function.update_self]
    · by_cases heq : x = arena.objectsEnd
      · rwa [heq, Function.update_self]
      · exact h'.aligned x (by simpa [heq] using hx)
    · rw [List.append_assoc]
      exact List.perm_middle
  | false =>
    have hp : arena.nonTrivialBegin - sz ∉ trivial ++ nonTrivial := hout (by omega) (by omega)
    have h' := h.congr (hsame hp)
    let arena' : Arena := { arena with nonTrivialBegin := arena.nonTrivialBegin - sz }
    have hinv : arena'.debugInvariant :=
      ⟨show arena.objectsEnd ≤ arena.nonTrivialBegin - sz by omega, Nat.le_trans (Nat.sub_le _ sz) hend,
        hobjects, Nat.dvd_sub hbegin hsz⟩
    refine ⟨arena', arena.nonTrivialBegin - sz, trivial, (arena.nonTrivialBegin - sz) :: nonTrivial,
      if_pos hinv, rfl, ⟨h'.tiles_trivial, ?_, hinv.1, h'.isTrivial_eq_true, fun x hx => ?_,
      fun x hx => ?_⟩, List.perm_middle⟩
    · refine ⟨rfl, by rwa [Function.update_self], ?_⟩
      rw [Function.update_self, Nat.sub_add_cancel (by omega)]
      exact h'.tiles_nonTrivial
    · rcases List.mem_cons.mp hx with rfl | hx
      · rw [Function.update_self]
      · exact h'.isTrivial_eq_false x hx
    · by_cases heq : x = arena.nonTrivialBegin - sz
      · rwa [heq, Function.update_self]
      · exact h'.aligned x (by simpa [heq] using hx)

end Arena.Filled

/-! ## Regions -/

/-- The objects of an arena, by their offsets. -/
structure ArenaObjects where
  /-- The block of the arena. -/
  id : ℕ
  /-- The trivial objects, from the front on. -/
  trivial : List ℕ
  /-- The other objects, to the end. -/
  nonTrivial : List ℕ

/-- The addresses of the objects. -/
def ArenaObjects.objects (a : ArenaObjects) : List Addr :=
  (a.trivial ++ a.nonTrivial).map (.slot a.id)

namespace Heap

/-- The arena has the objects. -/
def Holds (w : Heap) (a : ArenaObjects) : Prop :=
  ∃ arena, w.arenas a.id = some arena ∧
    arena.Filled (fun p => w.isTrivial (.slot a.id p)) (fun p => w.size (.slot a.id p)) a.trivial
      a.nonTrivial

/-- The list of the arenas of a region. -/
structure ArenaList (w : Heap) (m : Metadata) (arenas : List ArenaObjects) : Prop where
  /-- An arena is in the list once. -/
  nodup : (arenas.map ArenaObjects.id).Nodup
  /-- The arenas are linked. -/
  path : Path w.nextArena (arenas.map ArenaObjects.id) m.firstArena none
  /-- The pointer to the last arena. -/
  last : m.lastArena = (arenas.map ArenaObjects.id).getLast?
  /-- The arenas have the objects. -/
  holds : ∀ a ∈ arenas, w.Holds a

/-- The ring of the large objects of a region. -/
structure Ring (w : Heap) (reg : Addr) (m : Metadata) (large : List Addr) : Prop where
  /-- An object is in the ring once, and the metadata object is not one of them. -/
  nodup : (reg :: large).Nodup
  /-- The objects have blocks of their own. -/
  eq_block : ∀ x ∈ reg :: large, x = .block x.memory
  /-- They do not fit in an arena. -/
  size_lt : ∀ x ∈ large, Arena.size < w.size x
  /-- The ring goes through the metadata object. -/
  path : Path w.next large (w.next reg) (some reg)
  /-- The pointer to the last object. -/
  last : m.lastLarge = large.getLast?
  /-- The metadata object is not marked. -/
  cls_self : w.cls reg = .unmarked

/-- The objects of a region are those of its arenas and those of its ring. -/
structure Parts (w : Heap) (reg : Addr) (m : Metadata) (objs : List Addr)
    (arenas : List ArenaObjects) (large : List Addr) : Prop where
  /-- The arenas. -/
  arenaList : w.ArenaList m arenas
  /-- An arena has objects. -/
  ne_nil : ∀ a ∈ arenas, a.trivial ++ a.nonTrivial ≠ []
  /-- The ring. -/
  ring : w.Ring reg m large
  /-- There are no other objects. -/
  perm : objs.Perm (arenas.flatMap ArenaObjects.objects ++ large)

/-- The entry point of a region. -/
structure Rooted (w : Heap) (reg root : Addr) (objs large : List Addr) : Prop where
  /-- It is an object of the region. -/
  mem : root ∈ objs
  /-- It has the class of an entry point. -/
  cls_root : w.cls root = .iso
  /-- It is linked to the metadata object. -/
  next_root : w.next root = some reg
  /-- The other objects are not marked. -/
  cls_eq : ∀ x ∈ objs, x ≠ root → w.cls x = .unmarked
  /-- If it is large, then it is the last object of the ring. -/
  last : root ∈ large → large.getLast? = some root

variable {w w' : Heap} {self root x : Addr} {m : Metadata} {objs large : List Addr}
  {arenas : List ArenaObjects} {a : ArenaObjects}

/-- An arena stays when it and the descriptors of its objects do. -/
theorem Holds.frame (h : w.Holds a) (harena : w'.arenas a.id = w.arenas a.id)
    (hsame : ∀ x ∈ a.objects, w'.isTrivial x = w.isTrivial x ∧ w'.size x = w.size x) :
    w'.Holds a := by
  obtain ⟨arena, ha, hfilled⟩ := h
  exact ⟨arena, harena.trans ha, hfilled.congr fun p hp => hsame _ (List.mem_map_of_mem hp)⟩

/-- The list of the arenas stays when they do. -/
theorem ArenaList.frame (h : w.ArenaList m arenas)
    (harena : ∀ a ∈ arenas, w'.arenas a.id = w.arenas a.id)
    (hsame : ∀ a ∈ arenas, ∀ x ∈ a.objects, w'.isTrivial x = w.isTrivial x ∧ w'.size x = w.size x) :
    w'.ArenaList m arenas := by
  refine ⟨h.nodup, h.path.congr fun id hid => ?_, h.last, fun a ha =>
    (h.holds a ha).frame (harena a ha) (hsame a ha)⟩
  obtain ⟨a, ha, rfl⟩ := List.mem_map.mp hid
  rw [nextArena, harena a ha, nextArena]

/-- The ring stays when the headers of its objects do. -/
theorem Ring.frame (h : w.Ring self m large) (hcls : w'.cls self = w.cls self)
    (hnext : ∀ x ∈ self :: large, w'.next x = w.next x)
    (hsize : ∀ x ∈ large, w'.size x = w.size x) : w'.Ring self m large := by
  refine ⟨h.nodup, h.eq_block, fun x hx => ?_, ?_, h.last, hcls.trans h.cls_self⟩
  · rw [hsize x hx]
    exact h.size_lt x hx
  · rw [hnext self List.mem_cons_self]
    exact h.path.congr fun x hx => hnext x (List.mem_cons_of_mem self hx)

/-- An object of an arena is not one of the ring. -/
theorem Ring.notMem (h : w.Ring self m large) {id p : ℕ} : .slot id p ∉ self :: large :=
  fun hx => nomatch h.eq_block _ hx

/-- The objects of an arena are in its block. -/
theorem memory_eq (hx : x ∈ a.objects) : x.memory = a.id := by
  obtain ⟨p, -, rfl⟩ := List.mem_map.mp hx
  rfl

/-- The objects of an arena are small. -/
theorem Holds.size_le (h : w.Holds a) (hx : x ∈ a.objects) : alignUp (w.size x) ≤ Arena.size := by
  obtain ⟨arena, -, hfilled⟩ := h
  obtain ⟨p, hp, rfl⟩ := List.mem_map.mp hx
  have hinside := (hfilled.inside hp).2
  rw [alignUp_of_dvd (hfilled.aligned p hp)]
  exact Nat.le_trans (Nat.le_add_left ..) hinside

namespace Parts

variable (h : w.Parts self m objs arenas large)

include h

/-- The objects of a region. -/
theorem mem_iff : x ∈ objs ↔ (∃ a ∈ arenas, x ∈ a.objects) ∨ x ∈ large := by
  rw [h.perm.mem_iff, List.mem_append, List.mem_flatMap]

/-- An object of a region is in the ring if it is large, else it is in an arena. -/
theorem mem_large_iff (hx : x ∈ objs) : x ∈ large ↔ Arena.size < alignUp (w.size x) := by
  constructor
  · exact fun hx => Nat.lt_of_lt_of_le (h.ring.size_lt x hx) (le_alignUp _)
  · intro hlt
    rcases h.mem_iff.mp hx with ⟨a, ha, hx⟩ | hx
    · have hle := (h.arenaList.holds a ha).size_le hx
      omega
    · exact hx

/-- An arena has an object. -/
theorem exists_mem (ha : a ∈ arenas) : ∃ x ∈ objs, x.memory = a.id := by
  obtain ⟨p, hp⟩ := List.exists_mem_of_ne_nil _ (h.ne_nil a ha)
  exact ⟨.slot a.id p, h.mem_iff.mpr (.inl ⟨a, ha, List.mem_map_of_mem hp⟩), rfl⟩

/-- The metadata object is none of the objects. -/
theorem self_notMem : self ∉ objs := by
  intro hx
  rcases h.mem_iff.mp hx with ⟨a, ha, hx⟩ | hx
  · obtain ⟨p, -, rfl⟩ := List.mem_map.mp hx
    exact h.ring.notMem List.mem_cons_self
  · exact (List.nodup_cons.mp h.ring.nodup).1 hx

/-- The objects of the arenas are different from each other. -/
theorem nodup : objs.Nodup := by
  rw [h.perm.nodup_iff, List.nodup_append']
  refine ⟨List.nodup_flatMap.mpr ⟨fun a ha => ?_, ?_⟩, (List.nodup_cons.mp h.ring.nodup).2,
    fun x hx hx' => ?_⟩
  · obtain ⟨arena, -, hfilled⟩ := h.arenaList.holds a ha
    exact hfilled.nodup.map fun p q heq => (Addr.slot.inj heq).2
  · refine (List.pairwise_map.mp h.arenaList.nodup).imp fun {a b} hne x hx hx' => ?_
    exact hne ((memory_eq hx).symm.trans (memory_eq hx'))
  · obtain ⟨a, -, hx⟩ := List.mem_flatMap.mp hx
    obtain ⟨p, -, rfl⟩ := List.mem_map.mp hx
    exact h.ring.notMem (List.mem_cons_of_mem self hx')

/-- An object of an arena is inside it. -/
theorem inside {id p : ℕ} (hx : .slot id p ∈ objs) : p + w.size (.slot id p) ≤ Arena.size := by
  rcases h.mem_iff.mp hx with ⟨a, ha, hx⟩ | hx
  · obtain ⟨arena, -, hfilled⟩ := h.arenaList.holds a ha
    obtain ⟨q, hq, heq⟩ := List.mem_map.mp hx
    obtain ⟨rfl, rfl⟩ := Addr.slot.inj heq
    exact (hfilled.inside hq).2
  · exact absurd (List.mem_cons_of_mem self hx) h.ring.notMem

/-- Two objects of an arena are disjoint. -/
theorem disjoint {id p q : ℕ} (hp : .slot id p ∈ objs) (hq : .slot id q ∈ objs) (hne : p ≠ q) :
    p + w.size (.slot id p) ≤ q ∨ q + w.size (.slot id q) ≤ p := by
  have harena {r : ℕ} (hr : .slot id r ∈ objs) :
      ∃ a ∈ arenas, a.id = id ∧ r ∈ a.trivial ++ a.nonTrivial := by
    rcases h.mem_iff.mp hr with ⟨a, ha, hx⟩ | hx
    · obtain ⟨s, hs, heq⟩ := List.mem_map.mp hx
      obtain ⟨rfl, rfl⟩ := Addr.slot.inj heq
      exact ⟨a, ha, rfl, hs⟩
    · exact absurd (List.mem_cons_of_mem self hx) h.ring.notMem
  obtain ⟨a, ha, rfl, hp'⟩ := harena hp
  obtain ⟨b, hb, hid, hq'⟩ := harena hq
  obtain rfl : b = a := List.inj_on_of_nodup_map h.arenaList.nodup hb ha hid
  obtain ⟨arena, -, hfilled⟩ := h.arenaList.holds b ha
  exact hfilled.disjoint hp' hq' hne

end Parts

end Heap

end VeronaRt.RegionArena
