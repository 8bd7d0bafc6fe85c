import Mathlib.Algebra.Order.BigOperators.Group.List
import Mathlib.Algebra.Order.Ring.Nat
import VeronaFs.Runtime.RegionArenaLayout

/-!
# Iteration over arena regions

`RegionArena::iterator`.  In an arena the next object is at the end of the one before it, behind the
last trivial object the iteration goes on with the others, and behind the last arena with the ring.
`Visits` says that an iteration visits the objects of a list on the way from one state to another one;
it holds of the parts of an arena, and so of the arenas and the ring.
-/

namespace VeronaRt.RegionArena.Heap

open Foundation

variable {type : IteratorType} {w : Heap} {self root p : Addr} {m : Metadata}
  {objs large l l₁ l₂ : List Addr} {arenas : List ArenaObjects} {a : ArenaObjects} {arena : Arena}
  {fuel n id b e : ℕ} {trivial nonTrivial : List ℕ} {it it' it₁ it₂ : Iterator} {q : Option Addr}

/-- The iteration visits the objects of the list on the way between the two states. -/
def Visits (type : IteratorType) (w : Heap) (self : Addr) (fuel : ℕ) :
    List Addr → Iterator → Iterator → Prop
  | [], it, it' => it = it'
  | p :: l, it, it' => it.ptr = some p ∧
    ∃ next, w.advance type self fuel it = some next ∧ Visits type w self fuel l next it'

/-- Two ways behind each other. -/
theorem Visits.append (h₁ : w.Visits type self fuel l₁ it it₁)
    (h₂ : w.Visits type self fuel l₂ it₁ it₂) : w.Visits type self fuel (l₁ ++ l₂) it it₂ := by
  induction l₁ generalizing it with
  | nil =>
    obtain rfl : it = it₁ := h₁
    exact h₂
  | cons p l ih =>
    obtain ⟨hp, next, hnext, h₁⟩ := h₁
    exact ⟨hp, next, hnext, ih h₁⟩

/-- An iteration on the way to the end returns its objects. -/
theorem Visits.visit_eq (h : w.Visits type self fuel l it it') (hend : it'.ptr = none)
    (hn : l.length ≤ n) : w.visit type self fuel n it = some l := by
  induction l generalizing it n with
  | nil =>
    obtain rfl : it = it' := h
    obtain ⟨arena, ptr⟩ := it
    obtain rfl : ptr = none := hend
    cases n <;> rfl
  | cons p l ih =>
    obtain ⟨hp, next, hnext, h⟩ := h
    obtain ⟨arena, ptr⟩ := it
    obtain rfl : ptr = some p := hp
    cases n with
    | zero => simp at hn
    | succ n =>
      have hn' : l.length ≤ n := by simpa using hn
      rw [visit, hnext, Option.bind_some, ih h hn', Option.map_some]

/-! ## The ring -/

/-- The iteration is over objects such as this one. -/
def wanted (type : IteratorType) (w : Heap) (o : Addr) : Bool := wants type (w.isTrivial o)

/-- The next object of the kind in the rest of the ring. -/
theorem nextInRing_eq (hpath : Path w.next l (w.next p) (some self))
    (hcls : ∀ x ∈ p :: l, w.cls x = .unmarked ∨ w.cls x = .iso) (hself : self ∉ l)
    (hn : l.length < n) :
    w.nextInRing type self n p = some (l.filter (w.wanted type)).head? := by
  induction l generalizing p n with
  | nil =>
    have hnext : w.next p = some self := hpath
    obtain ⟨n, rfl⟩ := Nat.exists_eq_succ_of_ne_zero (Nat.ne_of_gt hn)
    have hget : w.getNextAnyMark p = some (w.next p) := if_pos (by
      have := hcls p List.mem_cons_self
      tauto)
    rw [nextInRing, hget, Option.bind_some, hnext, Option.bind_some, if_pos rfl]
    rfl
  | cons a l ih =>
    obtain ⟨hnext, hpath⟩ := hpath
    obtain ⟨n, rfl⟩ := Nat.exists_eq_succ_of_ne_zero (Nat.ne_zero_of_lt hn)
    have hget : w.getNextAnyMark p = some (w.next p) := if_pos (by
      have := hcls p List.mem_cons_self
      tauto)
    have hne : a ≠ self := fun heq => hself (heq ▸ List.mem_cons_self)
    have hn' : l.length < n := by simpa using hn
    rw [nextInRing, hget, Option.bind_some, hnext, Option.bind_some, if_neg hne, ← wanted,
      List.filter_cons]
    by_cases hwants : w.wanted type a = true
    · rw [if_pos hwants, if_pos hwants]
      rfl
    · rw [if_neg hwants, if_neg hwants]
      exact ih hpath (fun x hx => hcls x (List.mem_cons_of_mem p hx))
        (fun hmem => hself (List.mem_cons_of_mem a hmem)) hn'

/-- The iteration over the rest of the ring. -/
theorem visits_ring (hpath : Path w.next l (w.next p) (some self))
    (hcls : ∀ x ∈ p :: l, w.cls x = .unmarked ∨ w.cls x = .iso) (hself : self ∉ l)
    (hfuel : l.length < fuel) : w.Visits type self fuel (l.filter (w.wanted type))
      ⟨none, (l.filter (w.wanted type)).head?⟩ ⟨none, none⟩ := by
  induction l generalizing p with
  | nil => rfl
  | cons a l ih =>
    have hcls' : ∀ x ∈ a :: l, w.cls x = .unmarked ∨ w.cls x = .iso :=
      fun x hx => hcls x (List.mem_cons_of_mem p hx)
    have hself' : self ∉ l := fun hmem => hself (List.mem_cons_of_mem a hmem)
    have hfuel' : l.length < fuel := by
      rw [List.length_cons] at hfuel
      omega
    have hrest := ih hpath.2 hcls' hself' hfuel'
    rw [List.filter_cons]
    by_cases hwants : w.wanted type a = true
    · rw [if_pos hwants]
      refine ⟨rfl, _, ?_, hrest⟩
      change (w.nextInRing type self fuel a).map _ = _
      rw [nextInRing_eq hpath.2 hcls' hself' hfuel', Option.map_some]
    · rw [if_neg hwants]
      exact hrest

/-! ## The arenas -/

/-- The iteration over the objects of a part of an arena. -/
theorem visits_tiles {l : List ℕ} (ht : Tiles (fun p => w.size (.slot id p)) l b e) (hl : l ≠ [])
    (hstep : ∀ p ∈ l, p + w.size (.slot id p) ≠ e →
      w.advance type self fuel ⟨some id, some (.slot id p)⟩ =
        some ⟨some id, some (.slot id (p + w.size (.slot id p)))⟩)
    (hend : ∀ p ∈ l, p + w.size (.slot id p) = e →
      w.advance type self fuel ⟨some id, some (.slot id p)⟩ = some it') :
    w.Visits type self fuel (l.map (.slot id)) ⟨some id, some (.slot id b)⟩ it' := by
  induction l generalizing b with
  | nil => exact absurd rfl hl
  | cons c l ih =>
    obtain ⟨rfl, -, ht⟩ := ht
    refine ⟨rfl, ?_⟩
    by_cases hl : l = []
    · subst hl
      exact ⟨it', hend c List.mem_cons_self ht, rfl⟩
    · have hne : c + w.size (.slot id c) ≠ e := fun heq => hl (ht.eq_nil_iff.mpr heq)
      exact ⟨_, hstep c List.mem_cons_self hne, ih ht hl
        (fun p hp => hstep p (List.mem_cons_of_mem c hp))
        fun p hp => hend p (List.mem_cons_of_mem c hp)⟩

/-- A step in an arena. -/
theorem advance_arena (harena : w.arenas id = some arena) (p : ℕ) :
    w.advance type self fuel ⟨some id, some (.slot id p)⟩ =
      (w.nextInArena type id arena p).bind fun q =>
        if q = none then w.initForArenaOrRing type self fuel arena.next else some ⟨some id, q⟩ := by
  simp only [advance, if_true, harena, Option.bind_some]

section

variable (h : arena.Filled (fun p => w.isTrivial (.slot id p)) (fun p => w.size (.slot id p)) trivial
  nonTrivial)

include h

/-- The object behind a trivial one: the next trivial one, or the first of the others if the iteration
is over both. -/
theorem nextInArena_trivial (hwants : wants type true = true) {p : ℕ} (hp : p ∈ trivial) :
    w.nextInArena type id arena p = some (if p + w.size (.slot id p) ≠ arena.objectsEnd then
        some (.slot id (p + w.size (.slot id p)))
      else if wants type false = true ∧ arena.nonTrivialBegin ≠ Arena.size then
        some (.slot id arena.nonTrivialBegin)
      else none) := by
  have hinv := h.debugInvariant
  have hsize := alignUp_of_dvd (h.aligned p (List.mem_append_left _ hp))
  obtain ⟨-, hpos, hle⟩ := h.tiles_trivial.bounds hp
  have hq : 0 < p + w.size (.slot id p) ∧ p + w.size (.slot id p) ≤ arena.objectsEnd :=
    ⟨Nat.add_pos_right p hpos, hle⟩
  unfold nextInArena
  rw [if_pos hinv]
  simp only [hsize]
  cases type with
  | trivial => simp [hq, wants]
  | nonTrivial => simp [wants] at hwants
  | allObjects =>
    obtain ⟨hle', hend, -, -⟩ := hinv
    rw [if_pos (Or.inl hq)]
    by_cases heq : p + w.size (.slot id p) = arena.objectsEnd
    · simp [heq, wants]
    · have hne : p + w.size (.slot id p) ≠ Arena.size := by omega
      simp [heq, hne]

/-- The object behind one of the others. -/
theorem nextInArena_nonTrivial (hwants : wants type false = true) {p : ℕ} (hp : p ∈ nonTrivial) :
    w.nextInArena type id arena p = some (if p + w.size (.slot id p) ≠ Arena.size then
        some (.slot id (p + w.size (.slot id p)))
      else none) := by
  have hinv := h.debugInvariant
  have hsize := alignUp_of_dvd (h.aligned p (List.mem_append_right _ hp))
  obtain ⟨hle, hpos, hend⟩ := h.tiles_nonTrivial.bounds hp
  have hq : arena.nonTrivialBegin < p + w.size (.slot id p) ∧ p + w.size (.slot id p) ≤ Arena.size :=
    ⟨Nat.lt_of_le_of_lt hle (Nat.lt_add_of_pos_right hpos), hend⟩
  unfold nextInArena
  rw [if_pos hinv]
  simp only [hsize]
  cases type with
  | trivial => simp [wants] at hwants
  | nonTrivial => simp [hq]
  | allObjects =>
    obtain ⟨hle', -, -, -⟩ := hinv
    have hne : p + w.size (.slot id p) ≠ arena.objectsEnd := by omega
    simp only [hq, and_self, or_true, if_true, ne_eq, hne, not_false_eq_true, true_and, false_and,
      if_false]

/-- The iteration over the trivial objects of an arena. -/
theorem visits_trivial (harena : w.arenas id = some arena)
    (hnext : w.initForArenaOrRing type self fuel arena.next = some it')
    (hwants : wants type true = true) (hne : trivial ≠ []) :
    w.Visits type self fuel (trivial.map (.slot id)) ⟨some id, some (.slot id 0)⟩
      (if wants type false = true ∧ arena.nonTrivialBegin ≠ Arena.size then
        ⟨some id, some (.slot id arena.nonTrivialBegin)⟩ else it') := by
  refine visits_tiles h.tiles_trivial hne (fun p hp hq => ?_) fun p hp hq => ?_
  · rw [advance_arena harena, nextInArena_trivial h hwants hp, if_pos hq, Option.bind_some,
      if_neg (by simp)]
  · rw [advance_arena harena, nextInArena_trivial h hwants hp, if_neg (not_not.mpr hq),
      Option.bind_some]
    split
    · rw [if_neg (by simp)]
    · rw [if_pos rfl, hnext]

/-- The iteration over the other objects of an arena. -/
theorem visits_nonTrivial (harena : w.arenas id = some arena)
    (hnext : w.initForArenaOrRing type self fuel arena.next = some it')
    (hwants : wants type false = true) (hne : nonTrivial ≠ []) :
    w.Visits type self fuel (nonTrivial.map (.slot id))
      ⟨some id, some (.slot id arena.nonTrivialBegin)⟩ it' := by
  refine visits_tiles h.tiles_nonTrivial hne (fun p hp hq => ?_) fun p hp hq => ?_
  · rw [advance_arena harena, nextInArena_nonTrivial h hwants hp, if_pos hq, Option.bind_some,
      if_neg (by simp)]
  · rw [advance_arena harena, nextInArena_nonTrivial h hwants hp, if_neg (not_not.mpr hq),
      Option.bind_some, if_pos rfl, hnext]

end

/-- The offsets in an arena that an iteration visits. -/
def visited (type : IteratorType) (a : ArenaObjects) : List ℕ :=
  (if wants type true = true then a.trivial else []) ++
    if wants type false = true then a.nonTrivial else []

/-- The iteration from an arena of the list on, to the ring. -/
theorem visits_arenas {head : Option ℕ}
    (hpath : Path w.nextArena (arenas.map ArenaObjects.id) head none)
    (hholds : ∀ a ∈ arenas, w.Holds a) (hne : ∀ a ∈ arenas, a.trivial ++ a.nonTrivial ≠ [])
    (hring : w.nextInRing type self fuel self = some q) (hfuel : arenas.length ≤ fuel)
    (hn : arenas.length ≤ n) :
    ∃ it, (w.firstInArenaList type n head).bind (w.orRing type self fuel) = some it ∧
      w.Visits type self fuel (arenas.flatMap fun a => (visited type a).map (.slot a.id)) it
        ⟨none, q⟩ := by
  induction arenas generalizing head n with
  | nil =>
    obtain rfl : head = none := hpath
    refine ⟨⟨none, q⟩, ?_, rfl⟩
    have hfirst : w.firstInArenaList type n none = some ⟨none, none⟩ := by cases n <;> rfl
    rw [hfirst, Option.bind_some, orRing, if_pos rfl, hring, Option.map_some]
  | cons a l ih =>
    obtain ⟨rfl, hpath⟩ := hpath
    obtain ⟨arena, harena, hfilled⟩ := hholds a List.mem_cons_self
    obtain ⟨n, rfl⟩ := Nat.exists_eq_succ_of_ne_zero (Nat.ne_zero_of_lt hn)
    have hpath' : Path w.nextArena (l.map ArenaObjects.id) arena.next none := by
      rwa [nextArena, harena, Option.bind_some] at hpath
    have hrest {k : ℕ} (hk : l.length ≤ k) := ih hpath'
      (fun b hb => hholds b (List.mem_cons_of_mem a hb)) (fun b hb => hne b (List.mem_cons_of_mem a hb))
      (Nat.le_of_succ_le hfuel) hk
    obtain ⟨it₂, hit₂, hvisits⟩ := hrest (Nat.le_of_succ_le hfuel)
    have htrivial := hfilled.tiles_trivial.eq_nil_iff
    have hnonTrivial := hfilled.tiles_nonTrivial.eq_nil_iff
    have hinv := hfilled.debugInvariant
    have hassert : ¬ (¬ (0 < arena.objectsEnd ∨ arena.nonTrivialBegin < Arena.size) ∨
        ¬ arena.debugInvariant) := by
      have hnil := hne a List.mem_cons_self
      rw [ne_eq, List.append_eq_nil_iff, htrivial, hnonTrivial] at hnil
      have hle := hinv.2.1
      rw [not_or, not_not, not_not]
      exact ⟨by omega, hinv⟩
    -- the objects of this arena, up to the first object behind it
    have hvisited {it : Iterator} (hit : w.Visits type self fuel ((visited type a).map (.slot a.id)) it
        it₂) : w.Visits type self fuel ((a :: l).flatMap fun a => (visited type a).map (.slot a.id)) it
          ⟨none, q⟩ := by
      rw [List.flatMap_cons]
      exact hit.append hvisits
    rw [firstInArenaList, harena, Option.bind_some, if_neg hassert]
    by_cases hfirst : wants type true = true ∧ 0 ≠ arena.objectsEnd
    · rw [if_pos hfirst]
      refine ⟨_, rfl, hvisited ?_⟩
      have hfront := visits_trivial hfilled harena hit₂ hfirst.1 (fun hnil => hfirst.2 (htrivial.mp hnil))
      rw [visited, if_pos hfirst.1, List.map_append]
      refine hfront.append ?_
      by_cases hsecond : wants type false = true ∧ arena.nonTrivialBegin ≠ Arena.size
      · rw [if_pos hsecond, if_pos hsecond.1]
        exact visits_nonTrivial hfilled harena hit₂ hsecond.1 fun hnil => hsecond.2 (hnonTrivial.mp hnil)
      · rw [if_neg hsecond]
        by_cases hwants : wants type false = true
        · have hnil : a.nonTrivial = [] := hnonTrivial.mpr (by tauto)
          rw [if_pos hwants, hnil]
          rfl
        · rw [if_neg hwants]
          rfl
    · rw [if_neg hfirst]
      have hfront : (if wants type true = true then a.trivial else []) = [] := by
        by_cases hwants : wants type true = true
        · rw [if_pos hwants, htrivial]
          tauto
        · exact if_neg hwants
      by_cases hsecond : wants type false = true ∧ arena.nonTrivialBegin ≠ Arena.size
      · rw [if_pos hsecond]
        refine ⟨_, rfl, hvisited ?_⟩
        rw [visited, hfront, List.nil_append, if_pos hsecond.1]
        exact visits_nonTrivial hfilled harena hit₂ hsecond.1 fun hnil => hsecond.2 (hnonTrivial.mp hnil)
      · rw [if_neg hsecond]
        have hback : (if wants type false = true then a.nonTrivial else []) = [] := by
          by_cases hwants : wants type false = true
          · rw [if_pos hwants, hnonTrivial]
            tauto
          · exact if_neg hwants
        have htype : type ≠ .allObjects := by
          rintro rfl
          exact hne a List.mem_cons_self (List.append_eq_nil_iff.mpr ⟨hfront, hback⟩)
        rw [if_neg htype, List.flatMap_cons, visited, hfront, hback]
        exact hrest (Nat.le_of_succ_le_succ hn)

/-! ## Regions -/

/-- The iteration visits the objects of its kind in an arena. -/
theorem Holds.visited_eq (h : w.Holds a) :
    (visited type a).map (.slot a.id) = a.objects.filter (w.wanted type) := by
  obtain ⟨arena, -, hfilled⟩ := h
  have hpart {l : List ℕ} {k : Bool} (hl : ∀ p ∈ l, w.isTrivial (.slot a.id p) = k) :
      (if wants type k = true then l else []).map (.slot a.id) =
        (l.map (.slot a.id)).filter (w.wanted type) := by
    have hkind : ∀ x ∈ l.map (Addr.slot a.id), w.wanted type x = wants type k := by
      intro x hx
      obtain ⟨p, hp, rfl⟩ := List.mem_map.mp hx
      rw [wanted, hl p hp]
    by_cases hwants : wants type k = true
    · rw [if_pos hwants, List.filter_eq_self.mpr fun x hx => (hkind x hx).trans hwants]
    · rw [if_neg hwants, List.filter_eq_nil_iff.mpr fun x hx => by rwa [hkind x hx]]
      rfl
  rw [visited, ArenaObjects.objects, List.map_append, List.map_append, List.filter_append,
    hpart hfilled.isTrivial_eq_true, hpart hfilled.isTrivial_eq_false]

/-- Each iteration ends, and it visits the objects of its kind: those of the arenas, then those of the
ring. -/
theorem Parts.objects_eq (h : w.Parts self m objs arenas large)
    (hcls : ∀ x ∈ large, w.cls x = .unmarked ∨ w.cls x = .iso) (type : IteratorType)
    (hfuel : objs.length < fuel) : w.objects type self m fuel =
      some ((arenas.flatMap ArenaObjects.objects ++ large).filter (w.wanted type)) := by
  have hlength : objs.length = (arenas.flatMap ArenaObjects.objects ++ large).length :=
    h.perm.length_eq
  rw [List.length_append] at hlength
  have harenas : arenas.length ≤ (arenas.flatMap ArenaObjects.objects).length := by
    have hone : ∀ a ∈ arenas, 1 ≤ a.objects.length := by
      intro a ha
      rw [ArenaObjects.objects, List.length_map]
      exact List.length_pos_iff.mpr (h.ne_nil a ha)
    rw [List.length_flatMap]
    calc arenas.length = (arenas.map fun _ => 1).sum := by simp
      _ ≤ (arenas.map fun a => a.objects.length).sum := List.sum_le_sum hone
  obtain ⟨hself, -⟩ := List.nodup_cons.mp h.ring.nodup
  have hlarge : large.length < fuel := by omega
  have hcls' : ∀ x ∈ self :: large, w.cls x = .unmarked ∨ w.cls x = .iso := by
    intro x hx
    rcases List.mem_cons.mp hx with rfl | hx
    · exact .inl h.ring.cls_self
    · exact hcls x hx
  have hring : w.nextInRing type self fuel self = _ := nextInRing_eq h.ring.path hcls' hself hlarge
  obtain ⟨it, hit, hvisits⟩ := visits_arenas (n := fuel) h.arenaList.path h.arenaList.holds
    h.ne_nil hring (by omega) (by omega)
  have hall := hvisits.append (visits_ring h.ring.path hcls' hself hlarge)
  have heq : (arenas.flatMap fun a => (visited type a).map (.slot a.id)) ++
        large.filter (w.wanted type) =
      (arenas.flatMap ArenaObjects.objects ++ large).filter (w.wanted type) := by
    rw [List.filter_append, List.filter_flatMap]
    congr 1
    exact List.flatMap_congr fun a ha => (h.arenaList.holds a ha).visited_eq
  rw [heq] at hall
  rw [Heap.objects, initForArenaOrRing, hit, Option.bind_some]
  refine hall.visit_eq rfl (Nat.le_trans (List.length_filter_le ..) ?_)
  rw [List.length_append]
  omega

end VeronaRt.RegionArena.Heap
