import VeronaFs.Foundation.PathSearch
import VeronaFs.Runtime.Freeze
import VeronaFs.Runtime.FreezeCollapse

/-!
# The search of a freeze

The loop of `Freeze::apply` over its stack is a path-based search (`Foundation.PathSearch`) over the
objects `X` of a region.  `Searching` relates the two: a component on the path is one whose root is
`PENDING`, a finished component one whose root has the references that entered it so far, and the
components outside the region have the references that were followed to them.

`Searching.step` says that a pop of the stack is a step of the search, and `search_total` that the loop
comes to its end, where the components are the strongly connected ones.
-/

set_option linter.unusedSectionVars false

namespace VeronaRt

open Foundation

/-! ## Words outside the region -/

namespace Header

/-- The word of an object outside the region after `k` more references: a count grows. -/
def counted (k : ℕ) (bits : BitVec 64) : BitVec 64 :=
  if getClass bits = some .rc then ofCount (count bits + k) .rc
  else if getClass bits = some .shared then ofCount (count bits + k) .shared
  else bits

/-- Nothing is counted at first. -/
@[simp] theorem counted_zero (bits : BitVec 64) : counted 0 bits = bits := by
  unfold counted
  split
  · next h => exact ofCount_count h
  · split
    · next h => exact ofCount_count h
    · rfl

/-- Counting leaves the class. -/
@[simp] theorem getClass_counted (k : ℕ) (bits : BitVec 64) :
    getClass (counted k bits) = getClass bits := by
  unfold counted
  split
  · next h => rw [getClass_ofCount, h]
  · split
    · next h => rw [getClass_ofCount, h]
    · rfl

/-- One more reference is counted. -/
theorem counted_succ {bits : BitVec 64} (k : ℕ)
    (h : getClass bits = some .rc ∨ getClass bits = some .shared) :
    counted k bits + ONE_RC = counted (k + 1) bits := by
  unfold counted
  rcases h with h | h
  · rw [if_pos h, if_pos h, ofCount_add, Nat.add_assoc]
  · have hne : getClass bits ≠ some .rc := by rw [h]; decide
    rw [if_neg hne, if_pos h, if_neg hne, if_pos h, ofCount_add, Nat.add_assoc]

/-- Other words are not changed. -/
theorem counted_of_ne {bits : BitVec 64} (k : ℕ) (hrc : getClass bits ≠ some .rc)
    (hshared : getClass bits ≠ some .shared) : counted k bits = bits := by
  rw [counted, if_neg hrc, if_neg hshared]

end Header

namespace Freeze

open ObjectHeap

/-! ## The relation -/

/-- The objects `X` of a region can be searched from the state `s₀`. -/
structure Searchable (D : Descriptors) (X : Finset ObjAddr) (s₀ : Freeze) : Prop where
  /-- No component is being built. -/
  settled : s₀.heap.Settled
  /-- The objects of the region are mutable. -/
  inside : ∀ x ∈ X, s₀.heap.getClass x = some .unmarked
  /-- Their references lead to objects of the region, to entry points of other regions, to immutable
  objects and to shared ones. -/
  fields : ∀ x ∈ X, ∀ y ∈ D.fields x, y ∈ X ∨ ∃ c, s₀.heap.getClass y = some c ∧ c.outer = true
  /-- Nothing is on the path. -/
  pending : s₀.pending = []

/-- The number of followed references to the component of `o` outside the region. -/
noncomputable def hits (h₀ : ObjectHeap) (X : Finset ObjAddr)
    (taken : List (Option ObjAddr × ObjAddr)) (o : ObjAddr) : ℕ :=
  taken.countP fun e => e.2 ∉ X ∧ h₀.rootOf e.2 = o

/-- The vertex with which a component starts, the last one of its frames. -/
def head (P : PathSearch.Segment ObjAddr) : Option ObjAddr := P.frames.getLast?.map Prod.fst

/-- The state `s` of the loop, which started in `s₀`, is that of the search `a`. -/
structure Searching (X : Finset ObjAddr) (s₀ : Freeze) (a : PathSearch.State ObjAddr) (s : Freeze) : Prop where
  /-- Links end. -/
  grounded : s.heap.Grounded
  /-- Components are balanced. -/
  balanced : s.heap.Balanced
  /-- The words of objects that were not found are those of before. -/
  unvisited : ∀ x ∈ X, x ∉ a.visited → s.heap x = s₀.heap x
  /-- The components on the path. -/
  level : ∀ C ∈ a.levels, s.heap.IsComponent C .pending
  /-- The finished components have the references that entered them. -/
  finished : ∀ C ∈ a.done, s.heap.IsFinished C (a.taken.countP fun e => PathSearch.Enters C e) .nonatomicRc
  /-- The objects outside the region count the references to them. -/
  outer_word : ∀ o ∉ X, s₀.heap.getClass o ≠ some .sccPtr →
    s.heap o = (s₀.heap o).map (Header.counted (hits s₀.heap X a.taken o))
  /-- The links outside the region stay links. -/
  outer_linked : ∀ o ∉ X, s₀.heap.getClass o = some .sccPtr → s.heap.getClass o = some .sccPtr
  /-- They lead to where they did. -/
  outer_ends : ∀ o ∉ X, ∀ r, s₀.heap.EndsAt o r → s.heap.EndsAt o r
  /-- The stack `pending` has the vertices with which the components start. -/
  pending : s.pending.map some = a.parts.map head
  /-- The stack `objects` has what is behind the objects that were found. -/
  objects : s.objects.Perm (a.visited.filterMap s₀.heap.getNext ++ s₀.objects)
  /-- The stack `iso` has the entry points that were found. -/
  iso : s.iso = (a.taken.map Prod.snd).filter (fun y => s₀.heap.getClass y = some .iso) ++ s₀.iso
  /-- The objects that were found have no external reference. -/
  hasExtRef : ∀ o, s.hasExtRef o = if o ∈ a.visited then false else s₀.hasExtRef o
  /-- Nothing is done to objects. -/
  events : s.events = s₀.events

section

variable {D : Descriptors} {X : Finset ObjAddr} {s₀ s : Freeze} {a a' : PathSearch.State ObjAddr}
  {h' : ObjectHeap} {src : Option ObjAddr} {o p r x y : ObjAddr} {c : RegionMD} {fuel : ℕ}
  {rest : List Visit}

/-- At first nothing is found. -/
theorem Searchable.searching (hs : Searchable D X s₀) (p : ObjAddr) :
    Searching X s₀ (PathSearch.State.init [p]) s₀ where
  grounded := hs.settled.grounded
  balanced := hs.settled.balanced
  unvisited _ _ _ := rfl
  level _ hC := absurd hC List.not_mem_nil
  finished _ hC := absurd hC List.not_mem_nil
  outer_word o _ _ := by
    have hzero : hits s₀.heap X (PathSearch.State.init [p]).taken o = 0 := rfl
    have hid : Header.counted 0 = id := funext Header.counted_zero
    rw [hzero, hid, Option.map_id_fun, id]
  outer_linked _ _ ho := ho
  outer_ends _ _ _ ho := ho
  pending := by rw [hs.pending]; rfl
  objects := List.Perm.refl _
  iso := rfl
  hasExtRef o := by simp [PathSearch.State.init, PathSearch.State.visited, PathSearch.State.levels]
  events := rfl

/-- Another reference to an object that is not of a component. -/
theorem countP_enters_of_not_mem {C : List ObjAddr} {taken : List (Option ObjAddr × ObjAddr)}
    (hy : y ∉ C) : ((src, y) :: taken).countP (fun e => PathSearch.Enters C e) =
      taken.countP fun e => PathSearch.Enters C e :=
  List.countP_cons_of_neg fun h => hy (of_decide_eq_true h).1

/-- Another reference to an object outside the region. -/
theorem hits_cons (h₀ : ObjectHeap) (X : Finset ObjAddr) (src : Option ObjAddr) (y : ObjAddr)
    (taken : List (Option ObjAddr × ObjAddr)) (o : ObjAddr) :
    hits h₀ X ((src, y) :: taken) o =
      hits h₀ X taken o + if y ∉ X ∧ h₀.rootOf y = o then 1 else 0 := by
  rw [hits, hits, List.countP_cons]
  simp only [decide_eq_true_eq]

namespace Searching

/-- The class of an object outside the region stays. -/
theorem outer_class (hr : Searching X s₀ a s) (ho : o ∉ X) :
    s.heap.getClass o = s₀.heap.getClass o := by
  by_cases hc : s₀.heap.getClass o = some .sccPtr
  · rw [hc, hr.outer_linked o ho hc]
  · have hword := hr.outer_word o ho hc
    cases h : s₀.heap o with
    | none => rw [getClass, getClass, hword, h]; rfl
    | some bits =>
      rw [h, Option.map_some] at hword
      rw [getClass_of_some hword, getClass_of_some h, Header.getClass_counted]

/-- Splitting paths does not matter. -/
theorem splits (hr : Searching X s₀ a s) (hs : Searchable D X s₀) (hsplit : Splits s.heap h') :
    Searching X s₀ a { s with heap := h' } where
  grounded := hsplit.grounded hr.grounded
  balanced := hsplit.balanced hr.grounded hr.balanced
  unvisited x hx hxa := by
    have hword := hr.unvisited x hx hxa
    have hclass : s.heap.getClass x = some .unmarked := by rw [(reads_eq hword).1, hs.inside x hx]
    exact (hsplit.unchanged x (by rw [hclass]; decide)).trans hword
  level C hC := (hr.level C hC).splits hsplit hr.grounded
  finished C hC := (hr.finished C hC).splits hsplit hr.grounded (by decide)
  outer_word o ho hc := by
    refine (hsplit.unchanged o ?_).trans (hr.outer_word o ho hc)
    rwa [hr.outer_class ho]
  outer_linked o ho hc := hsplit.linked o (hr.outer_linked o ho hc)
  outer_ends o ho r hor := (hsplit.endsAt_iff hr.grounded).mpr (hr.outer_ends o ho r hor)
  pending := hr.pending
  objects := hr.objects
  iso := hr.iso
  hasExtRef := hr.hasExtRef
  events := hr.events

/-- An object outside the region that is referred to has a root outside the region. -/
theorem outer_root (hr : Searching X s₀ a s) (hs : Searchable D X s₀) (hy : y ∉ X)
    (hc : s₀.heap.getClass y = some c) (houter : c.outer = true) :
    ∃ r d, r ∉ X ∧ s₀.heap.rootOf y = r ∧ s.heap.EndsAt y r ∧ s.heap.getClass r = some d ∧
      s₀.heap.getClass r = some d ∧ (d = .iso ∧ r = y ∨ d = .rc ∨ d = .shared) := by
  obtain ⟨bits, hbits⟩ := exists_of_getClass hc
  obtain ⟨r, d, hends, hd, -, -, hrc⟩ := hs.settled y bits hbits
  have hroot : d = .iso ∧ r = y ∨ d = .rc ∨ d = .shared := by
    by_cases hry : r = y
    · subst hry
      obtain rfl := Option.some.inj (hd.symm.trans hc)
      cases d with
      | iso => exact .inl ⟨rfl, rfl⟩
      | rc => exact .inr (.inl rfl)
      | shared => exact .inr (.inr rfl)
      | sccPtr =>
        have hroot := hs.settled.getClass_root hd hends
        rw [hd] at hroot
        cases hroot
      | unmarked => cases houter
      | marked => cases houter
      | pending => cases houter
      | nonatomicRc => cases houter
      | openIso => cases houter
    · exact .inr (.inl (hrc hry))
  have hrX : r ∉ X := by
    intro hrX
    have hclass := hs.inside r hrX
    rw [hd] at hclass
    obtain rfl := Option.some.inj hclass
    rcases hroot with ⟨h, -⟩ | h | h
    · cases h
    · cases h
    · cases h
  exact ⟨r, d, hrX, rootOf_eq hends, hr.outer_ends y hy r hends, by rw [hr.outer_class hrX, hd], hd,
    hroot⟩

end Searching

/-- Following a reference leaves the vertices with which the components start. -/
theorem heads_eq (hnext : PathSearch.Next a src y a') : a'.parts.map head = a.parts.map head := by
  cases hnext with
  | start => rfl
  | @frame x y l frames =>
    cases frames with
    | nil => rfl
    | cons f frames => rfl

/-! ## References out of the region -/

/-- A reference to the entry point of another region. -/
theorem Searching.push_iso (hr : Searching X s₀ a s) (hi : PathSearch.Inv (· ∈ X) D.fields [p] a)
    (hnext : PathSearch.Next a src y a') (hy : y ∉ X) (hc : s₀.heap.getClass y = some .iso)
    (hroot : s₀.heap.rootOf y = y) : Searching X s₀ a' { s with iso := y :: s.iso } where
  grounded := hr.grounded
  balanced := hr.balanced
  unvisited x hx hxa := hr.unvisited x hx (hnext.visited_eq ▸ hxa)
  level C hC := hr.level C (hnext.levels_eq ▸ hC)
  finished C hC := by
    rw [hnext.done_eq] at hC
    have hyC : y ∉ C := fun hmem => hy (hi.inner_of_mem y
      (List.mem_append_right _ (List.mem_flatten.mpr ⟨C, hC, hmem⟩)))
    rw [hnext.taken_eq, countP_enters_of_not_mem hyC]
    exact hr.finished C hC
  outer_word o ho hoc := by
    have hword := hr.outer_word o ho hoc
    rw [hnext.taken_eq, hits_cons]
    by_cases hoy : o = y
    · subst hoy
      obtain ⟨bits, hbits⟩ := exists_of_getClass hc
      rw [getClass_of_some hbits] at hc
      have hrc : Header.getClass bits ≠ some .rc := by rw [hc]; decide
      have hshared : Header.getClass bits ≠ some .shared := by rw [hc]; decide
      rw [hbits, Option.map_some, Header.counted_of_ne _ hrc hshared] at hword ⊢
      exact hword
    · rw [if_neg (by rw [hroot]; exact fun h => hoy h.2.symm), Nat.add_zero]
      exact hword
  outer_linked := hr.outer_linked
  outer_ends := hr.outer_ends
  pending := by
    rw [heads_eq hnext]
    exact hr.pending
  objects := by
    rw [hnext.visited_eq]
    exact hr.objects
  iso := by
    rw [hnext.taken_eq, List.map_cons, List.filter_cons_of_pos (by simpa using hc), List.cons_append,
      ← hr.iso]
  hasExtRef o := by
    rw [hnext.visited_eq]
    exact hr.hasExtRef o
  events := hr.events

/-- What was found is not referred to from outside the region. -/
theorem not_mem_component (hi : PathSearch.Inv (· ∈ X) D.fields [p] a) {C : List ObjAddr}
    (hC : C ∈ a.levels ∨ C ∈ a.done) (hy : y ∉ X) : y ∉ C := by
  intro hyC
  refine hy (hi.inner_of_mem y (List.mem_append.mpr ?_))
  exact hC.imp (fun hC => List.mem_flatten.mpr ⟨C, hC, hyC⟩) fun hC =>
    List.mem_flatten.mpr ⟨C, hC, hyC⟩

/-- A reference to an immutable or a shared object outside the region. -/
theorem Searching.incref (hr : Searching X s₀ a s)
    (hi : PathSearch.Inv (· ∈ X) D.fields [p] a) (hnext : PathSearch.Next a src y a') (hy : y ∉ X)
    (hroot : s₀.heap.rootOf y = r) (hrX : r ∉ X) (hc : s₀.heap.getClass r = some c)
    (hcount : c = .rc ∨ c = .shared) :
    ∃ h', s.heap.incref r = some h' ∧ Searching X s₀ a' { s with heap := h' } := by
  obtain ⟨bits, hbits⟩ := exists_of_getClass hc
  have hbc : Header.getClass bits = some c := by rw [← getClass_of_some hbits, hc]
  have hne : c ≠ .sccPtr := by rcases hcount with rfl | rfl <;> decide
  have hrs : s₀.heap.getClass r ≠ some .sccPtr := by
    rw [hc]
    exact fun h => hne (Option.some.inj h)
  have hword := hr.outer_word r hrX hrs
  rw [hbits, Option.map_some] at hword
  let k := hits s₀.heap X a.taken r
  have hclass : Header.getClass (Header.counted k bits) = some c := by
    rw [Header.getClass_counted, hbc]
  have hcounted : Header.getClass bits = some .rc ∨ Header.getClass bits = some .shared := by
    rw [hbc]
    exact hcount.imp (congrArg some) (congrArg some)
  let w := Header.counted (k + 1) bits
  have hw : Header.getClass w = some c := by rw [Header.getClass_counted, hbc]
  have hscc : s.heap.getScc r = none := getScc_eq_none (by rwa [hr.outer_class hrX])
  have hwscc : Header.getClass w ≠ some .sccPtr := by
    rw [hw]
    exact fun h => hne (Option.some.inj h)
  have hother : ∀ u, u ≠ r → Function.update s.heap r (some w) u = s.heap u :=
    fun u hu => Function.update_of_ne hu ..
  refine ⟨Function.update s.heap r (some w), ?_, ?_⟩
  · have hor : Header.getClass (Header.counted k bits) = some .rc ∨
        Header.getClass (Header.counted k bits) = some .shared := by
      rw [Header.getClass_counted]
      exact hcounted
    rw [ObjectHeap.incref, hword]
    simp only [bind, Option.bind_some]
    rw [if_pos hor, Header.counted_succ k hcounted, write_of_some hword]
  · refine
      { grounded := ?_, balanced := ?_, unvisited := ?_, level := ?_, finished := ?_, outer_word := ?_
        outer_linked := ?_, outer_ends := ?_, pending := ?_, objects := ?_, iso := ?_
        hasExtRef := ?_, events := hr.events }
    · exact hr.grounded.update hscc (by rw [hr.outer_class hrX, hc]) hw hne (.inl rfl)
    · refine hr.balanced.update hscc hwscc fun h => ?_
      rw [hw] at h
      rcases hcount with rfl | rfl
      · cases h
      · cases h
    · intro x hx hxa
      refine (hother x ?_).trans (hr.unvisited x hx (hnext.visited_eq ▸ hxa))
      rintro rfl
      exact hrX hx
    · intro C hC
      rw [hnext.levels_eq] at hC
      exact (hr.level C hC).update hscc (not_mem_component hi (.inl hC) hrX) (by decide) hwscc
    · intro C hC
      rw [hnext.done_eq] at hC
      rw [hnext.taken_eq, countP_enters_of_not_mem (not_mem_component hi (.inr hC) hy)]
      exact (hr.finished C hC).update hscc (not_mem_component hi (.inr hC) hrX) (by decide) hwscc
    · intro o ho hoc
      rw [hnext.taken_eq, hits_cons, hroot]
      by_cases hor : o = r
      · subst hor
        rw [if_pos ⟨hy, rfl⟩, hbits, Option.map_some]
        exact Function.update_self ..
      · rw [if_neg fun h => hor h.2.symm, Nat.add_zero]
        exact (hother o hor).trans (hr.outer_word o ho hoc)
    · intro o ho hoc
      have hor : o ≠ r := by
        rintro rfl
        exact hrs hoc
      exact (reads_eq (hother o hor)).1.trans (hr.outer_linked o ho hoc)
    · intro o ho u hou
      exact (endsAt_update hscc hwscc).mpr (hr.outer_ends o ho u hou)
    · rw [heads_eq hnext]
      exact hr.pending
    · rw [hnext.visited_eq]
      exact hr.objects
    · have hyiso : ¬ s₀.heap.getClass y = some .iso := by
        intro hiso
        have hry := rootOf_eq (endsAt_self hiso (by decide))
        rw [hroot] at hry
        subst hry
        rw [hc] at hiso
        rcases hcount with rfl | rfl
        · cases hiso
        · cases hiso
      rw [hnext.taken_eq, List.map_cons, List.filter_cons_of_neg (by simpa using hyiso)]
      exact hr.iso
    · intro o
      rw [hnext.visited_eq]
      exact hr.hasExtRef o

/-! ## References inside the region -/

/-- A finished component is left by what happens at the root of another component. -/
theorem root_not_mem (hi : PathSearch.Inv (· ∈ X) D.fields [p] a) {C E : List ObjAddr}
    (hC : C ∈ a.done) (hx : x ∈ C) (hE : E ∈ a.levels ∨ E ∈ a.done) (hne : E ≠ C) : x ∉ E := by
  intro hxE
  rcases hE with hE | hE
  · exact (List.nodup_append'.mp hi.nodup).2.2 (List.mem_flatten.mpr ⟨E, hE, hxE⟩)
      (List.mem_flatten.mpr ⟨C, hC, hx⟩)
  · exact hne ((hi.same_iff hE hC hxE hx).mpr ⟨.refl, .refl⟩)

/-- The source of a reference is not of a finished component. -/
theorem source_not_mem (hi : PathSearch.Inv (· ∈ X) D.fields [p] a)
    (hnext : PathSearch.Next a src y a') {C : List ObjAddr} (hC : C ∈ a.done) :
    ∀ x, src = some x → x ∉ C := by
  rintro x rfl hxC
  obtain ⟨hnone, -⟩ | ⟨u, E, lower, hu, hlevels, huE⟩ := hnext.source hi
  · cases hnone
  · obtain rfl := Option.some.inj hu
    have hdone := (hi.not_mem_of_top hlevels huE).2
    exact hdone (List.mem_flatten.mpr ⟨C, hC, hxC⟩)

/-- A reference to a finished component is counted. -/
theorem Searching.increfNonatomic (hr : Searching X s₀ a s)
    (hi : PathSearch.Inv (· ∈ X) D.fields [p] a) (hX : ∀ x ∈ X, s₀.heap.getClass x = some .unmarked)
    (hnext : PathSearch.Next a src y a') {C : List ObjAddr} (hC : C ∈ a.done) (hy : y ∈ C) :
    ∃ r h', s.heap.EndsAt y r ∧ s.heap.getClass r = some .nonatomicRc ∧
      s.heap.increfNonatomic r = some h' ∧ Searching X s₀ a' { s with heap := h' } := by
  obtain ⟨r, hword, hiff⟩ := hr.finished C hC
  let n := a.taken.countP fun e => PathSearch.Enters C e
  have hclass : s.heap.getClass r = some .nonatomicRc := by
    rw [getClass_of_some hword, Header.getClass_ofCount]
  have hrC : r ∈ C := (hiff r).mp (endsAt_self hclass (by decide))
  have hrX : r ∈ X := hi.inner_of_mem r (List.mem_append_right _ (List.mem_flatten.mpr ⟨C, hC, hrC⟩))
  have hyX : y ∈ X := hi.inner_of_mem y (List.mem_append_right _ (List.mem_flatten.mpr ⟨C, hC, hy⟩))
  have hscc : s.heap.getScc r = none := getScc_eq_none (by rw [hclass]; decide)
  have hwscc : Header.getClass (Header.ofCount (n + 1) .nonatomicRc) ≠ some .sccPtr := by
    rw [Header.getClass_ofCount]
    decide
  have hother : ∀ u, u ≠ r →
      Function.update s.heap r (some (Header.ofCount (n + 1) .nonatomicRc)) u = s.heap u :=
    fun u hu => Function.update_of_ne hu ..
  have hout : ∀ o ∉ X, o ≠ r := by
    rintro o ho rfl
    exact ho hrX
  refine ⟨r, Function.update s.heap r (some (Header.ofCount (n + 1) .nonatomicRc)), (hiff y).mpr hy,
    hclass, ?_, ?_⟩
  · rw [ObjectHeap.increfNonatomic, hword]
    simp only [bind, Option.bind_some, Header.getClass_ofCount, if_true]
    rw [Header.ofCount_add, write_of_some hword]
  · refine
      { grounded := ?_, balanced := ?_, unvisited := ?_, level := ?_, finished := ?_, outer_word := ?_
        outer_linked := ?_, outer_ends := ?_, pending := ?_, objects := ?_, iso := ?_
        hasExtRef := ?_, events := hr.events }
    · exact hr.grounded.update hscc hclass (Header.getClass_ofCount ..) (by decide) (.inl rfl)
    · refine hr.balanced.update hscc hwscc fun h => ?_
      rw [Header.getClass_ofCount] at h
      cases h
    · intro x hx hxa
      refine (hother x ?_).trans (hr.unvisited x hx (hnext.visited_eq ▸ hxa))
      rintro rfl
      rw [hnext.visited_eq] at hxa
      exact hxa (List.mem_append_right _ (List.mem_flatten.mpr ⟨C, hC, hrC⟩))
    · intro E hE
      rw [hnext.levels_eq] at hE
      refine (hr.level E hE).update hscc (fun hrE => ?_) (by decide) hwscc
      exact (List.nodup_append'.mp hi.nodup).2.2 (List.mem_flatten.mpr ⟨E, hE, hrE⟩)
        (List.mem_flatten.mpr ⟨C, hC, hrC⟩)
    · intro E hE
      rw [hnext.done_eq] at hE
      rw [hnext.taken_eq]
      by_cases hEC : E = C
      · subst hEC
        have henters : PathSearch.Enters E (src, y) := ⟨hy, source_not_mem hi hnext hE⟩
        rw [List.countP_cons_of_pos (by simpa using henters)]
        exact ⟨r, Function.update_self .., fun o => (endsAt_update hscc hwscc).trans (hiff o)⟩
      · rw [countP_enters_of_not_mem (root_not_mem hi hC hy (.inr hE) hEC)]
        exact (hr.finished E hE).update hscc (root_not_mem hi hC hrC (.inr hE) hEC) (by decide) hwscc
    · intro o ho hoc
      rw [hnext.taken_eq, hits_cons, if_neg fun h => h.1 hyX, Nat.add_zero]
      exact (hother o (hout o ho)).trans (hr.outer_word o ho hoc)
    · intro o ho hoc
      exact (reads_eq (hother o (hout o ho))).1.trans (hr.outer_linked o ho hoc)
    · intro o ho u hou
      exact (endsAt_update hscc hwscc).mpr (hr.outer_ends o ho u hou)
    · rw [heads_eq hnext]
      exact hr.pending
    · rw [hnext.visited_eq]
      exact hr.objects
    · have hyiso : ¬ s₀.heap.getClass y = some .iso := by
        rw [hX y hyX]
        decide
      rw [hnext.taken_eq, List.map_cons, List.filter_cons_of_neg (by simpa using hyiso)]
      exact hr.iso
    · intro o
      rw [hnext.visited_eq]
      exact hr.hasExtRef o

/-- An object of the region that was not found is its own component. -/
theorem Searching.eq_of_endsAt (hr : Searching X s₀ a s) (hs : Searchable D X s₀) (hy : y ∈ X)
    (hnew : y ∉ a.visited) (ho : s.heap.EndsAt o y) : o = y := by
  by_cases hoX : o ∈ X
  · by_cases hov : o ∈ a.visited
    · obtain ⟨E, hE, hoE⟩ : ∃ E, (E ∈ a.levels ∨ E ∈ a.done) ∧ o ∈ E := by
        rcases List.mem_append.mp hov with h | h
        · obtain ⟨E, hE, hoE⟩ := List.mem_flatten.mp h
          exact ⟨E, .inl hE, hoE⟩
        · obtain ⟨E, hE, hoE⟩ := List.mem_flatten.mp h
          exact ⟨E, .inr hE, hoE⟩
      have hroot : ∃ r, s.heap.EndsAt o r ∧ r ∈ E := by
        rcases hE with hE | hE
        · obtain ⟨r, hclass, hiff⟩ := hr.level E hE
          exact ⟨r, (hiff o).mpr hoE, (hiff r).mp (endsAt_self hclass (by decide))⟩
        · obtain ⟨r, hword, hiff⟩ := hr.finished E hE
          refine ⟨r, (hiff o).mpr hoE, (hiff r).mp (endsAt_self (c := .nonatomicRc) ?_ (by decide))⟩
          rw [getClass_of_some hword, Header.getClass_ofCount]
      obtain ⟨r, hor, hrE⟩ := hroot
      obtain rfl := hor.unique ho
      refine absurd (List.mem_append.mpr ?_) hnew
      exact hE.imp (fun hE => List.mem_flatten.mpr ⟨E, hE, hrE⟩) fun hE =>
        List.mem_flatten.mpr ⟨E, hE, hrE⟩
    · refine (ho.eq_of_getClass ?_).symm
      rw [(reads_eq (hr.unvisited o hoX hov)).1, hs.inside o hoX]
      decide
  · have hends := hr.outer_ends o hoX _ (hs.settled.grounded.endsAt_rootOf o)
    have hroot := hends.unique ho
    have hclass := hs.inside y hy
    by_cases hoc : s₀.heap.getClass o = some .sccPtr
    · have hrc := hs.settled.getClass_root hoc (hs.settled.grounded.endsAt_rootOf o)
      rw [hroot, hclass] at hrc
      cases hrc
    · have hself := (hs.settled.grounded.endsAt_rootOf o).eq_of_getClass hoc
      rw [hroot] at hself
      exact hself.symm

/-- An object of the region that is found is a component on the path. -/
theorem Searching.visit (hr : Searching X s₀ a s) (hs : Searchable D X s₀)
    (hnext : PathSearch.Next a src y a') (hy : y ∈ X) (hnew : y ∉ a.visited) :
    ∃ next h', s.heap.getClass y = some .unmarked ∧ s.heap.getNext y = some next ∧
      s.heap.setPendingRank y 0 = some h' ∧
      Searching X s₀ { a' with parts := ⟨[(y, D.fields y)], [y]⟩ :: a'.parts } { s with
        heap := h'
        hasExtRef := Function.update s.hasExtRef y false
        objects := next :: s.objects
        pending := y :: s.pending } := by
  have hword := hr.unvisited y hy hnew
  have hclass : s.heap.getClass y = some .unmarked := by rw [(reads_eq hword).1, hs.inside y hy]
  obtain ⟨bits, hbits⟩ := exists_of_getClass hclass
  have hbc : Header.getClass bits = some .unmarked := by rw [← getClass_of_some hbits, hclass]
  have hnextOf : s.heap.getNext y = some (Header.address bits) := by
    simp [getNext, hbits, hbc]
  have hnextOf₀ : s₀.heap.getNext y = some (Header.address bits) := by
    rw [← hnextOf, getNext, getNext, hword]
  have hscc : s.heap.getScc y = none := getScc_eq_none (by rw [hclass]; decide)
  let w := Header.ofCount 0 .pending
  have hwc : Header.getClass w = some .pending := Header.getClass_ofCount ..
  have hwscc : Header.getClass w ≠ some .sccPtr := by rw [hwc]; decide
  have hother : ∀ u, u ≠ y → Function.update s.heap y (some w) u = s.heap u :=
    fun u hu => Function.update_of_ne hu ..
  have hvisited : ({ a' with parts := ⟨[(y, D.fields y)], [y]⟩ :: a'.parts } :
      PathSearch.State ObjAddr).visited = y :: a.visited := by
    rw [← hnext.visited_eq]
    rfl
  have hnot : ∀ C, C ∈ a.levels ∨ C ∈ a.done → y ∉ C := by
    intro C hC hyC
    refine hnew (List.mem_append.mpr ?_)
    exact hC.imp (fun hC => List.mem_flatten.mpr ⟨C, hC, hyC⟩) fun hC =>
      List.mem_flatten.mpr ⟨C, hC, hyC⟩
  have hout : ∀ o ∉ X, o ≠ y := by
    rintro o ho rfl
    exact ho hy
  refine ⟨Header.address bits, Function.update s.heap y (some w), hclass, hnextOf, ?_, ?_⟩
  · rw [setPendingRank, if_pos (by decide)]
  · refine
      { grounded := ?_, balanced := ?_, unvisited := ?_, level := ?_, finished := ?_, outer_word := ?_
        outer_linked := ?_, outer_ends := ?_, pending := ?_, objects := ?_, iso := ?_
        hasExtRef := ?_, events := hr.events }
    · exact hr.grounded.update hscc hclass hwc (by decide) (.inr rfl)
    · refine hr.balanced.update hscc hwscc fun _ => ?_
      exact Header.count_ofCount (by decide) _
    · intro x hx hxa
      rw [hvisited, List.mem_cons, not_or] at hxa
      exact (hother x hxa.1).trans (hr.unvisited x hx hxa.2)
    · intro C hC
      rcases List.mem_cons.mp hC with rfl | hC
      · refine ⟨y, by rw [getClass_update_self, hwc], fun o => (endsAt_update hscc hwscc).trans ?_⟩
        rw [List.mem_singleton]
        refine ⟨hr.eq_of_endsAt hs hy hnew, ?_⟩
        rintro rfl
        exact endsAt_self hclass (by decide)
      · have hC : C ∈ a.levels := hnext.levels_eq ▸ hC
        exact (hr.level C hC).update hscc (hnot C (.inl hC)) (by decide) hwscc
    · intro C hC
      have hC : C ∈ a.done := hnext.done_eq ▸ hC
      have htaken : ({ a' with parts := ⟨[(y, D.fields y)], [y]⟩ :: a'.parts } :
          PathSearch.State ObjAddr).taken = (src, y) :: a.taken := hnext.taken_eq
      rw [htaken, countP_enters_of_not_mem (hnot C (.inr hC))]
      exact (hr.finished C hC).update hscc (hnot C (.inr hC)) (by decide) hwscc
    · intro o ho hoc
      have htaken : ({ a' with parts := ⟨[(y, D.fields y)], [y]⟩ :: a'.parts } :
          PathSearch.State ObjAddr).taken = (src, y) :: a.taken := hnext.taken_eq
      rw [htaken, hits_cons, if_neg fun h => h.1 hy, Nat.add_zero]
      exact (hother o (hout o ho)).trans (hr.outer_word o ho hoc)
    · intro o ho hoc
      exact (reads_eq (hother o (hout o ho))).1.trans (hr.outer_linked o ho hoc)
    · intro o ho u hou
      exact (endsAt_update hscc hwscc).mpr (hr.outer_ends o ho u hou)
    · rw [List.map_cons, hr.pending, ← heads_eq hnext]
      rfl
    · rw [hvisited, List.filterMap_cons, hnextOf₀]
      exact hr.objects.cons _
    · have hyiso : ¬ s₀.heap.getClass y = some .iso := by
        rw [hs.inside y hy]
        decide
      have htaken : ({ a' with parts := ⟨[(y, D.fields y)], [y]⟩ :: a'.parts } :
          PathSearch.State ObjAddr).taken = (src, y) :: a.taken := hnext.taken_eq
      rw [htaken, List.map_cons, List.filter_cons_of_neg (by simpa using hyiso)]
      exact hr.iso
    · intro o
      rw [hvisited]
      by_cases hoy : o = y
      · subst hoy
        rw [if_pos List.mem_cons_self]
        exact Function.update_self ..
      · refine (Function.update_of_ne hoy ..).trans ((hr.hasExtRef o).trans ?_)
        simp [hoy]

/-- A step that leaves the objects outside `S`, whose objects have one root, leaves the components
outside `S`. -/
theorem IsComponent.frame {h h' : ObjectHeap} {S C : List ObjAddr} (hg : h.Grounded)
    (hf : Frame h h' S) (hS : ∀ o ∈ S, ∃ r ∈ S, h'.EndsAt o r) (hdisj : ∀ o ∈ C, o ∉ S)
    (hC : h.EndsAt r r ∧ ∀ o, h.EndsAt o r ↔ o ∈ C) (o : ObjAddr) : h'.EndsAt o r ↔ o ∈ C := by
  obtain ⟨hself, hiff⟩ := hC
  have hrS : r ∉ S := hdisj r ((hiff r).mp hself)
  constructor
  · intro ho
    by_cases hoS : o ∈ S
    · obtain ⟨r', hr'S, hr'⟩ := hS o hoS
      obtain rfl := hr'.unique ho
      exact absurd hr'S hrS
    · obtain ⟨n, u, hu⟩ := hg.exists_leads o
      have hou : h.EndsAt o u := ⟨n, hu⟩
      obtain rfl := (hf.ends o hoS u hou).unique ho
      exact (hiff o).mp hou
  · intro ho
    exact hf.ends o (hdisj o ho) r ((hiff o).mpr ho)

/-- A reference back into the path collapses the path. -/
theorem Searching.collapse (hr : Searching X s₀ a s) (hX : ∀ x ∈ X, s₀.heap.getClass x = some .unmarked)
    (hi : PathSearch.Inv (· ∈ X) D.fields [p] a) (hnext : PathSearch.Next a src y a')
    {upper lower : List (PathSearch.Segment ObjAddr)} {P : PathSearch.Segment ObjAddr}
    (hparts : a'.parts = upper ++ P :: lower) (hy : y ∈ P.members) (hfuel : 2 ^ 64 ≤ fuel) :
    ∃ r rank h' pending', s.heap.EndsAt y r ∧ s.heap.getClass r = some .pending ∧
      s.heap.pendingRank r = some rank ∧
      collapseLoop fuel s.heap s.pending r rank = some (h', pending') ∧
      Searching X s₀ { a' with parts := PathSearch.Segment.merge upper P :: lower }
        { s with heap := h', pending := pending' } := by
  have hlevels : a.levels = upper.map PathSearch.Segment.members ++
      P.members :: lower.map PathSearch.Segment.members := by
    rw [← hnext.levels_eq, PathSearch.State.levels, hparts, List.map_append, List.map_cons]
  -- The stack has the vertices with which the components start.
  have hheads : s.pending.map some = upper.map head ++ head P :: lower.map head := by
    rw [hr.pending, ← heads_eq hnext, hparts, List.map_append, List.map_cons]
  obtain ⟨heads, pending₂, hpending, hupper, hrest⟩ := List.map_eq_append_iff.mp hheads
  obtain ⟨q, rest, rfl, hq, hlower⟩ := List.map_eq_cons_iff.mp hrest
  have hmemHead : ∀ Q ∈ a'.parts, ∀ q, head Q = some q → q ∈ Q.members := by
    intro Q hQ q hq
    obtain ⟨f, hf, rfl⟩ := Option.map_eq_some_iff.mp hq
    exact (hnext.frames hi Q hQ).2.subset (List.mem_map_of_mem (List.mem_of_getLast? hf))
  have hqP : q ∈ P.members := hmemHead P (by simp [hparts]) q hq.symm
  have hU : List.Forall₂ (fun u E => u ∈ E ∧ s.heap.IsComponent E .pending) heads
      (upper.map PathSearch.Segment.members) := by
    have hlength : heads.length = upper.length := by
      simpa using congrArg List.length hupper
    refine List.forall₂_iff_get.mpr ⟨by simpa using hlength, fun i hi₁ hi₂ => ?_⟩
    have hi₃ : i < upper.length := by simpa using hi₂
    have hget : head (upper.get ⟨i, hi₃⟩) = some (heads.get ⟨i, hi₁⟩) := by
      have hget := congrArg (fun l => l[i]?) hupper
      simp only [List.getElem?_map] at hget
      rw [List.getElem?_eq_getElem hi₁, List.getElem?_eq_getElem hi₃] at hget
      exact (Option.some.inj hget).symm
    have hmem : upper.get ⟨i, hi₃⟩ ∈ upper := List.get_mem ..
    have hE : (upper.map PathSearch.Segment.members).get ⟨i, hi₂⟩ =
        (upper.get ⟨i, hi₃⟩).members := by simp
    rw [hE]
    refine ⟨hmemHead _ (by rw [hparts]; exact List.mem_append_left _ hmem) _ hget, hr.level _ ?_⟩
    rw [hlevels]
    exact List.mem_append_left _ (List.mem_map_of_mem hmem)
  let S := (upper.map PathSearch.Segment.members).flatten ++ P.members
  have hperm : a.levels.flatten = S ++ (lower.map PathSearch.Segment.members).flatten := by
    rw [hlevels]
    simp [S]
  have hnodup := hi.nodup
  rw [PathSearch.State.visited, hperm, List.append_assoc] at hnodup
  obtain ⟨hnodupS, -, hdisj⟩ := List.nodup_append'.mp hnodup
  obtain ⟨r, hclass, hiff⟩ := hr.level P.members (by rw [hlevels]; simp)
  obtain ⟨rank, hrank⟩ := exists_pendingRank.mpr hclass
  obtain ⟨h', r', hloop, hg', hb', hclass', hends', hframe⟩ :=
    collapseLoop_spec rest hr.grounded hr.balanced hrank hiff hqP hnodupS hU hfuel
  have hSvisited : ∀ o ∈ S, o ∈ a.visited := by
    intro o ho
    rw [PathSearch.State.visited, hperm]
    simp [ho]
  have hroot : ∀ o ∈ S, ∃ u ∈ S, h'.EndsAt o u := fun o ho =>
    ⟨r', (hends' r').mp (endsAt_self hclass' (by decide)), (hends' o).mpr ho⟩
  have hout : ∀ o ∉ X, o ∉ S := fun o ho hoS => ho (hi.inner_of_mem o (hSvisited o hoS))
  have hmerge : (PathSearch.Segment.merge upper P).members = S := by
    simp [PathSearch.Segment.merge, List.flatMap_def, S]
  have hvisited : ({ a' with parts := PathSearch.Segment.merge upper P :: lower } :
      PathSearch.State ObjAddr).visited = a.visited := by
    rw [PathSearch.State.visited, PathSearch.State.levels, List.map_cons, hmerge, List.flatten_cons,
      PathSearch.State.visited, hperm, ← hnext.done_eq]
  have htaken : ({ a' with parts := PathSearch.Segment.merge upper P :: lower } :
      PathSearch.State ObjAddr).taken = (src, y) :: a.taken := hnext.taken_eq
  have hyX : y ∈ X := hi.inner_of_mem y (hSvisited y (List.mem_append_right _ hy))
  refine ⟨r, rank, h', q :: rest, (hiff y).mpr hy, hclass, hrank, by rw [hpending]; exact hloop, ?_⟩
  refine
    { grounded := hg', balanced := hb', unvisited := ?_, level := ?_, finished := ?_, outer_word := ?_
      outer_linked := ?_, outer_ends := ?_, pending := ?_, objects := ?_, iso := ?_
      hasExtRef := ?_, events := hr.events }
  · intro x hx hxa
    rw [hvisited] at hxa
    have hword := hr.unvisited x hx hxa
    refine (hframe.word x (fun hxS => hxa (hSvisited x hxS)) ?_).trans hword
    rw [(reads_eq hword).1, hX x hx]
    decide
  · intro C hC
    rcases List.mem_cons.mp hC with rfl | hC
    · rw [hmerge]
      exact ⟨r', hclass', hends'⟩
    · have hCa : C ∈ a.levels := by
        rw [hlevels]
        exact List.mem_append_right _ (List.mem_cons_of_mem _ hC)
      obtain ⟨u, hu, huiff⟩ := hr.level C hCa
      have hdisjC : ∀ o ∈ C, o ∉ S := fun o ho hoS =>
        hdisj hoS (List.mem_append_left _ (List.mem_flatten.mpr ⟨C, hC, ho⟩))
      have huC : u ∈ C := (huiff u).mp (endsAt_self hu (by decide))
      refine ⟨u, by rw [hframe.getClass_eq (hdisjC u huC), hu], ?_⟩
      exact IsComponent.frame hr.grounded hframe hroot hdisjC ⟨endsAt_self hu (by decide), huiff⟩
  · intro C hC
    have hC : C ∈ a.done := hnext.done_eq ▸ hC
    have hdisjC : ∀ o ∈ C, o ∉ S := fun o ho hoS =>
      hdisj hoS (List.mem_append_right _ (List.mem_flatten.mpr ⟨C, hC, ho⟩))
    have hyC : y ∉ C := fun hyC => hdisjC y hyC (List.mem_append_right _ hy)
    rw [htaken, countP_enters_of_not_mem hyC]
    obtain ⟨u, hu, huiff⟩ := hr.finished C hC
    have huc : s.heap.getClass u = some .nonatomicRc := by
      rw [getClass_of_some hu, Header.getClass_ofCount]
    have huC : u ∈ C := (huiff u).mp (endsAt_self huc (by decide))
    refine ⟨u, ?_, ?_⟩
    · rw [← hu]
      exact hframe.word u (hdisjC u huC) (by rw [huc]; decide)
    · exact IsComponent.frame hr.grounded hframe hroot hdisjC ⟨endsAt_self huc (by decide), huiff⟩
  · intro o ho hoc
    rw [htaken, hits_cons, if_neg fun h => h.1 hyX, Nat.add_zero]
    refine (hframe.word o (hout o ho) ?_).trans (hr.outer_word o ho hoc)
    rwa [hr.outer_class ho]
  · intro o ho hoc
    exact hframe.linked o (hout o ho) (hr.outer_linked o ho hoc)
  · intro o ho u hou
    exact hframe.ends o (hout o ho) u (hr.outer_ends o ho u hou)
  · have hne : P.frames ≠ [] := (hnext.frames hi P (by simp [hparts])).1
    have hlast : head (PathSearch.Segment.merge upper P) = head P := by
      rw [head, head, PathSearch.Segment.merge]
      dsimp only
      rw [List.getLast?_append_of_ne_nil _ hne]
    rw [List.map_cons, List.map_cons, hlast, ← hq, hlower]
  · rw [hvisited]
    exact hr.objects
  · have hyiso : ¬ s₀.heap.getClass y = some .iso := by
      rw [hX y hyX]
      decide
    rw [htaken, List.map_cons, List.filter_cons_of_neg (by simpa using hyiso)]
    exact hr.iso
  · intro o
    rw [hvisited]
    exact hr.hasExtRef o

/-! ## Objects whose references were followed -/

section Post

variable {f : ObjAddr × List ObjAddr} {frames : List (ObjAddr × List ObjAddr)}
  {members todo : List ObjAddr} {parts : List (PathSearch.Segment ObjAddr)}
  {done : List (List ObjAddr)} {taken : List (Option ObjAddr × ObjAddr)}

/-- An object whose component goes on below is left. -/
theorem Searching.leave
    (hr : Searching X s₀ ⟨⟨(x, []) :: f :: frames, members⟩ :: parts, todo, done, taken⟩ s) (fuel : ℕ)
    (hi : PathSearch.Inv (· ∈ X) D.fields [p]
      ⟨⟨(x, []) :: f :: frames, members⟩ :: parts, todo, done, taken⟩) :
    dfsStep D fuel s (.post x) = some (s, []) ∧
      Searching X s₀ ⟨⟨f :: frames, members⟩ :: parts, todo, done, taken⟩ s := by
  have hpending : s.pending.map some = head ⟨f :: frames, members⟩ :: parts.map head := hr.pending
  obtain ⟨q, rest, hq, hhead, -⟩ := List.map_eq_cons_iff.mp hpending
  have hne : x ≠ q := by
    rintro rfl
    obtain ⟨g, hg, hgx⟩ := Option.map_eq_some_iff.mp hhead.symm
    have hsub := hi.frames_sublist _ List.mem_cons_self
    have hnodup : members.Nodup := by
      have hlevels := (List.nodup_append'.mp hi.nodup).1
      exact (List.nodup_append'.mp hlevels).1
    have hframes : (x :: (f :: frames).map Prod.fst).Nodup := hsub.nodup hnodup
    refine (List.nodup_cons.mp hframes).1 ?_
    rw [← hgx]
    exact List.mem_map_of_mem (List.mem_of_getLast? hg)
  refine ⟨?_, { hr with pending := hpending }⟩
  rw [dfsStep, hq]
  simp [hne]

/-- A component whose last object is left is finished. -/
theorem Searching.close
    (hr : Searching X s₀ ⟨⟨[(x, [])], members⟩ :: parts, todo, done, taken⟩ s)
    (hi : PathSearch.Inv (· ∈ X) D.fields [p] ⟨⟨[(x, [])], members⟩ :: parts, todo, done, taken⟩)
    (hs : Searchable D X s₀) (hfuel : 2 ^ 64 ≤ fuel) :
    ∃ s', dfsStep D fuel s (.post x) = some (s', []) ∧
      Searching X s₀ ⟨parts, todo, members :: done, taken⟩ s' := by
  have hpending : s.pending.map some = some x :: parts.map head := hr.pending
  obtain ⟨q, rest, hq, hx, hrest⟩ := List.map_eq_cons_iff.mp hpending
  obtain rfl := Option.some.inj hx
  have hxm : q ∈ members := (hi.frames_sublist _ List.mem_cons_self).subset (by simp)
  obtain ⟨r, hclass, hiff⟩ := hr.level members List.mem_cons_self
  obtain ⟨h₁, hfind, hsplit⟩ := rootAndClass_of_endsAt hr.grounded ((hiff q).mpr hxm) hclass hfuel
  have hr₁ := hr.splits hs hsplit
  have hclass₁ : h₁.getClass r = some .pending := by rw [hsplit.getClass_eq, hclass]
  obtain ⟨bits, hbits⟩ := exists_of_getClass hclass₁
  have hrm : r ∈ members := (hiff r).mp (endsAt_self hclass (by decide))
  have hiff₁ : ∀ o, h₁.EndsAt o r ↔ o ∈ members := fun o =>
    (hsplit.endsAt_iff hr.grounded).trans (hiff o)
  have hlevels : (⟨⟨[(q, [])], members⟩ :: parts, todo, done, taken⟩ :
      PathSearch.State ObjAddr).levels = members :: parts.map PathSearch.Segment.members := rfl
  obtain ⟨hlower, hdone⟩ := hi.not_mem_of_top hlevels hrm
  let w := Header.ofCount 1 .nonatomicRc
  have hwc : Header.getClass w = some .nonatomicRc := Header.getClass_ofCount ..
  have hwscc : Header.getClass w ≠ some .sccPtr := by rw [hwc]; decide
  have hscc : h₁.getScc r = none := getScc_eq_none (by rw [hclass₁]; decide)
  have hrX : r ∈ X := hi.inner_of_mem r (List.mem_append_left _ (by rw [hlevels]; simp [hrm]))
  have hother : ∀ u, u ≠ r → Function.update h₁ r (some w) u = h₁ u :=
    fun u hu => Function.update_of_ne hu ..
  have hout : ∀ o ∉ X, o ≠ r := by
    rintro o ho rfl
    exact ho hrX
  have hvisited : ∀ u, u ∈ (⟨parts, todo, members :: done, taken⟩ : PathSearch.State ObjAddr).visited ↔
      u ∈ (⟨⟨[(q, [])], members⟩ :: parts, todo, done, taken⟩ : PathSearch.State ObjAddr).visited := by
    intro u
    simp only [PathSearch.State.visited, PathSearch.State.levels, List.map_cons, List.flatten_cons,
      List.mem_append]
    tauto
  have hperm : (⟨parts, todo, members :: done, taken⟩ : PathSearch.State ObjAddr).visited.Perm
      (⟨⟨[(q, [])], members⟩ :: parts, todo, done, taken⟩ : PathSearch.State ObjAddr).visited := by
    simp only [PathSearch.State.visited, PathSearch.State.levels, List.map_cons, List.flatten_cons,
      List.append_assoc]
    exact List.perm_append_comm_assoc ..
  refine ⟨{ s with heap := Function.update h₁ r (some w), pending := rest }, ?_, ?_⟩
  · rw [dfsStep, hq]
    simp [hfind, makeNonatomicScc, write_of_some hbits, Header.value_add_one, w]
  · refine
      { grounded := ?_, balanced := ?_, unvisited := ?_, level := ?_, finished := ?_, outer_word := ?_
        outer_linked := ?_, outer_ends := ?_, pending := hrest, objects := ?_, iso := hr.iso
        hasExtRef := ?_, events := hr.events }
    · exact hr₁.grounded.update hscc hclass₁ hwc (by decide) (.inr rfl)
    · refine hr₁.balanced.update hscc hwscc fun h => ?_
      rw [hwc] at h
      cases h
    · intro x hx hxa
      rw [hvisited] at hxa
      refine (hother x ?_).trans (hr₁.unvisited x hx hxa)
      rintro rfl
      exact hxa (List.mem_append_left _ (by rw [hlevels]; simp [hrm]))
    · intro C hC
      refine (hr₁.level C (List.mem_cons_of_mem _ hC)).update hscc (fun hrC => ?_) (by decide) hwscc
      exact hlower (List.mem_flatten.mpr ⟨C, hC, hrC⟩)
    · intro C hC
      rcases List.mem_cons.mp hC with rfl | hC
      · obtain ⟨src, y, hfilter, -⟩ := hi.entered [] C _ hlevels
        have hone : taken.countP (fun e => PathSearch.Enters C e) = 1 := by
          rw [List.countP_eq_length_filter]
          exact congrArg List.length hfilter
        refine ⟨r, ?_, fun o => (endsAt_update hscc hwscc).trans (hiff₁ o)⟩
        have htaken : (⟨parts, todo, C :: done, taken⟩ : PathSearch.State ObjAddr).taken = taken := rfl
        rw [htaken, hone]
        exact Function.update_self ..
      · refine (hr₁.finished C hC).update hscc (fun hrC => ?_) (by decide) hwscc
        exact hdone (List.mem_flatten.mpr ⟨C, hC, hrC⟩)
    · intro o ho hoc
      exact (hother o (hout o ho)).trans (hr₁.outer_word o ho hoc)
    · intro o ho hoc
      exact (reads_eq (hother o (hout o ho))).1.trans (hr₁.outer_linked o ho hoc)
    · intro o ho u hou
      exact (endsAt_update hscc hwscc).mpr (hr₁.outer_ends o ho u hou)
    · exact hr.objects.trans ((hperm.filterMap _).symm.append_right _)
    · intro o
      simp only [hvisited]
      exact hr.hasExtRef o

end Post

/-! ## The loop -/

/-- The search was started at the entry point, which is of the region. -/
theorem mem_fields_or_start (hi : PathSearch.Inv (· ∈ X) D.fields [p] a) (hp : p ∈ X)
    (hs : Searchable D X s₀) (hnext : PathSearch.Next a src y a') :
    y ∈ X ∨ ∃ c, s₀.heap.getClass y = some c ∧ c.outer = true := by
  have hmem := hnext.mem_fields hi
  cases src with
  | none =>
    rw [List.mem_singleton.mp hmem]
    exact .inl hp
  | some x => exact hs.fields x (hi.inner_of_mem x (hnext.source_visited hi)) y hmem

/-- A pop of a reference out of the region. -/
theorem Searching.step_outer (hr : Searching X s₀ a s) (hs : Searchable D X s₀)
    (hi : PathSearch.Inv (· ∈ X) D.fields [p] a) (hnext : PathSearch.Next a src y a') (hy : y ∉ X)
    (hc : s₀.heap.getClass y = some c) (houter : c.outer = true) (hfuel : 2 ^ 64 ≤ fuel) :
    ∃ s', dfsStep D fuel s (.pre y) = some (s', []) ∧ Searching X s₀ a' s' := by
  obtain ⟨r, d, hrX, hroot, hends, hd, hd₀, hcases⟩ := hr.outer_root hs hy hc houter
  obtain ⟨h₁, hfind, hsplit⟩ := rootAndClass_of_endsAt hr.grounded hends hd hfuel
  have hr₁ := hr.splits hs hsplit
  rcases hcases with ⟨rfl, rfl⟩ | rfl | rfl
  · refine ⟨_, ?_, hr₁.push_iso hi hnext hy hd₀ hroot⟩
    simp [dfsStep, hfind]
  · obtain ⟨h', hincref, hr'⟩ := hr₁.incref hi hnext hy hroot hrX hd₀ (.inl rfl)
    refine ⟨_, ?_, hr'⟩
    have hincref : h₁.incref r = some h' := hincref
    simp [dfsStep, hfind, hincref]
  · obtain ⟨h', hincref, hr'⟩ := hr₁.incref hi hnext hy hroot hrX hd₀ (.inr rfl)
    refine ⟨_, ?_, hr'⟩
    have hincref : h₁.incref r = some h' := hincref
    simp [dfsStep, hfind, hincref]

/-- A pop of a reference to an object on the path. -/
theorem Searching.step_back (hr : Searching X s₀ a s) (hs : Searchable D X s₀)
    (hi : PathSearch.Inv (· ∈ X) D.fields [p] a) (hnext : PathSearch.Next a src y a')
    {upper lower : List (PathSearch.Segment ObjAddr)} {P : PathSearch.Segment ObjAddr}
    (hparts : a'.parts = upper ++ P :: lower) (hy : y ∈ P.members) (hfuel : 2 ^ 64 ≤ fuel) :
    ∃ s', dfsStep D fuel s (.pre y) = some (s', []) ∧
      Searching X s₀ { a' with parts := PathSearch.Segment.merge upper P :: lower } s' := by
  have hmem : P.members ∈ a.levels := by
    rw [← hnext.levels_eq, PathSearch.State.levels, hparts]
    simp
  obtain ⟨r, hclass, hiff⟩ := hr.level P.members hmem
  obtain ⟨h₁, hfind, hsplit⟩ := rootAndClass_of_endsAt hr.grounded ((hiff y).mpr hy) hclass hfuel
  obtain ⟨r', rank, h', pending', hends, -, hrank, hloop, hr'⟩ :=
    (hr.splits hs hsplit).collapse hs.inside hi hnext hparts hy hfuel
  obtain rfl : r' = r := hends.unique ((hsplit.endsAt_iff hr.grounded).mpr ((hiff y).mpr hy))
  refine ⟨_, ?_, hr'⟩
  have hrank : h₁.pendingRank r' = some rank := hrank
  have hloop : collapseLoop fuel h₁ s.pending r' rank = some (h', pending') := hloop
  simp [dfsStep, hfind, hrank, hloop]

/-- A pop of a reference to an object of a finished component. -/
theorem Searching.step_finished (hr : Searching X s₀ a s) (hs : Searchable D X s₀)
    (hi : PathSearch.Inv (· ∈ X) D.fields [p] a) (hnext : PathSearch.Next a src y a')
    {C : List ObjAddr} (hC : C ∈ a.done) (hy : y ∈ C) (hfuel : 2 ^ 64 ≤ fuel) :
    ∃ s', dfsStep D fuel s (.pre y) = some (s', []) ∧ Searching X s₀ a' s' := by
  obtain ⟨r, hword, hiff⟩ := hr.finished C hC
  have hclass : s.heap.getClass r = some .nonatomicRc := by
    rw [getClass_of_some hword, Header.getClass_ofCount]
  obtain ⟨h₁, hfind, hsplit⟩ := rootAndClass_of_endsAt hr.grounded ((hiff y).mpr hy) hclass hfuel
  obtain ⟨r', h', hends, -, hincref, hr'⟩ :=
    (hr.splits hs hsplit).increfNonatomic hi hs.inside hnext hC hy
  obtain rfl : r' = r := hends.unique ((hsplit.endsAt_iff hr.grounded).mpr ((hiff y).mpr hy))
  refine ⟨_, ?_, hr'⟩
  have hincref : h₁.increfNonatomic r' = some h' := hincref
  simp [dfsStep, hfind, hincref]

/-- A pop of a reference to an object that was not found. -/
theorem Searching.step_visit (hr : Searching X s₀ a s) (fuel : ℕ) (hs : Searchable D X s₀)
    (hnext : PathSearch.Next a src y a') (hy : y ∈ X) (hnew : y ∉ a.visited) :
    ∃ s', dfsStep D fuel s (.pre y) = some (s', (D.fields y).map .pre ++ [.post y]) ∧
      Searching X s₀ { a' with parts := ⟨[(y, D.fields y)], [y]⟩ :: a'.parts } s' := by
  obtain ⟨next, h', hclass, hget, hset, hr'⟩ := hr.visit hs hnext hy hnew
  refine ⟨_, ?_, hr'⟩
  have hfind : rootAndClass fuel s.heap y = some (y, .unmarked, s.heap) :=
    rootAndClass_of_ne hclass (by decide)
  simp [dfsStep, hfind, hget, hset]

/-- A pop of the stack is a step of the search. -/
theorem Searching.step (hr : Searching X s₀ a s) (hs : Searchable D X s₀)
    (hi : PathSearch.Inv (· ∈ X) D.fields [p] a) (hp : p ∈ X) (hfuel : 2 ^ 64 ≤ fuel) {e : Visit}
    (hstack : a.stack .pre .post = e :: rest) :
    ∃ s' pushed a', dfsStep D fuel s e = some (s', pushed) ∧
      PathSearch.Step (· ∈ X) D.fields a a' ∧ Searching X s₀ a' s' ∧
      a'.stack .pre .post = pushed ++ rest ∧
      a'.budget D.fields X + pushed.length ≤ a.budget D.fields X := by
  obtain ⟨src, y, a', rfl, hnext, hrest⟩ | ⟨x, frames, members, parts, rfl, hparts⟩ :=
    hi.stack_cons hstack
  · have hbudget : a'.budget D.fields X = a.budget D.fields X :=
      PathSearch.State.budget_congr fun x => by rw [hnext.visited_eq]
    by_cases hyX : y ∈ X
    · by_cases hvisited : y ∈ a.visited
      · rcases List.mem_append.mp hvisited with hlevel | hdone
        · obtain ⟨C, hC, hyC⟩ := List.mem_flatten.mp hlevel
          rw [← hnext.levels_eq] at hC
          obtain ⟨P, hP, rfl⟩ := List.mem_map.mp hC
          obtain ⟨upper, lower, hparts⟩ := List.append_of_mem hP
          obtain ⟨s', hstep, hr'⟩ := hr.step_back hs hi hnext hparts hyC hfuel
          have hback : PathSearch.Step (· ∈ X) D.fields a
              { a' with parts := PathSearch.Segment.merge upper P :: lower } :=
            .back hnext hparts hyC
          have hframes : ({ a' with parts := PathSearch.Segment.merge upper P :: lower } :
              PathSearch.State ObjAddr).frames = a'.frames := by
            rw [PathSearch.State.frames, PathSearch.State.frames, hparts]
            simp [PathSearch.Segment.merge]
          have hfound : ∀ x, x ∈ ({ a' with parts := PathSearch.Segment.merge upper P :: lower } :
              PathSearch.State ObjAddr).visited ↔ x ∈ a'.visited := by
            intro x
            simp only [PathSearch.State.visited, PathSearch.State.levels, hparts,
              PathSearch.Segment.merge, List.map_cons, List.map_append, List.flatten_cons,
              List.flatten_append, List.flatMap_def, List.append_assoc]
          refine ⟨s', [], _, hstep, hback, hr', ?_, ?_⟩
          · rw [List.nil_append, ← hrest, PathSearch.State.stack, hframes, PathSearch.State.stack]
          · rw [PathSearch.State.budget_congr hfound, hbudget]
            exact le_rfl
        · obtain ⟨C, hC, hyC⟩ := List.mem_flatten.mp hdone
          obtain ⟨s', hstep, hr'⟩ := hr.step_finished hs hi hnext hC hyC hfuel
          exact ⟨s', [], a', hstep, .finished hnext hdone, hr', hrest, hbudget.le⟩
      · obtain ⟨s', hstep, hr'⟩ := hr.step_visit fuel hs hnext hyX hvisited
        refine ⟨s', _, _, hstep, .visit hnext hyX hvisited, hr', ?_, ?_⟩
        · rw [← hrest]
          simp [PathSearch.State.stack, PathSearch.State.frames]
        · have hpay : ({ a' with parts := ⟨[(y, D.fields y)], [y]⟩ :: a'.parts } :
              PathSearch.State ObjAddr).budget D.fields X + _ = _ :=
            PathSearch.State.budget_visit hyX hvisited fun x => by
              rw [← hnext.visited_eq]
              simp [PathSearch.State.visited, PathSearch.State.levels]
          rw [List.length_append, List.length_map, List.length_singleton]
          exact hpay.le
    · obtain ⟨c, hc, houter⟩ := (mem_fields_or_start hi hp hs hnext).resolve_left hyX
      obtain ⟨s', hstep, hr'⟩ := hr.step_outer hs hi hnext hyX hc houter hfuel
      exact ⟨s', [], a', hstep, .outer hnext hyX, hr', hrest, hbudget.le⟩
  · obtain ⟨_, todo, done, taken⟩ := a
    obtain rfl : _ = _ := hparts
    cases frames with
    | nil =>
      obtain ⟨s', hstep, hr'⟩ := hr.close hi hs hfuel
      refine ⟨s', [], _, hstep, .close, hr', ?_, ?_⟩
      · simpa [PathSearch.State.stack, PathSearch.State.frames] using hstack
      · refine (PathSearch.State.budget_congr fun u => ?_).le
        simp only [PathSearch.State.visited, PathSearch.State.levels, List.map_cons,
          List.flatten_cons, List.mem_append]
        tauto
    | cons f frames =>
      obtain ⟨hstep, hr'⟩ := hr.leave fuel hi
      refine ⟨s, [], _, hstep, .leave, hr', ?_, ?_⟩
      · simpa [PathSearch.State.stack, PathSearch.State.frames] using hstack
      · exact (PathSearch.State.budget_congr fun u => Iff.rfl).le

/-- The loop comes to its end, and the search then has no component on the path. -/
theorem search_total (hs : Searchable D X s₀) (hp : p ∈ X) (hfuel : 2 ^ 64 ≤ fuel)
    (hwidth : (∑ x ∈ X, ((D.fields x).length + 1)) + 1 ≤ fuel) :
    ∃ s done taken, drain (dfsStep D fuel) fuel s₀ [.pre p] = some s ∧
      PathSearch.Inv (· ∈ X) D.fields [p] ⟨[], [], done, taken⟩ ∧
      Searching X s₀ ⟨[], [], done, taken⟩ s := by
  let I (n : ℕ) (s : Freeze) (stack : List Visit) : Prop := ∃ a, PathSearch.Inv (· ∈ X) D.fields [p] a ∧
    Searching X s₀ a s ∧ a.stack .pre .post = stack ∧ a.budget D.fields X ≤ n
  have hstep : ∀ n s e stack, I n s (e :: stack) → ∃ n' s' pushed,
      dfsStep D fuel s e = some (s', pushed) ∧ I n' s' (pushed ++ stack) ∧ n' + pushed.length ≤ n := by
    rintro n s e stack ⟨a, hi, hr, hstack, hn⟩
    obtain ⟨s', pushed, a', hpop, hstep, hr', hstack', hbudget⟩ := hr.step hs hi hp hfuel hstack
    exact ⟨_, s', pushed, hpop, ⟨a', hstep.inv hi, hr', hstack', le_rfl⟩, hbudget.trans hn⟩
  have hinit : I (∑ x ∈ X, ((D.fields x).length + 1)) s₀ [.pre p] := by
    refine ⟨_, PathSearch.inv_init _ _ [p], hs.searching p, rfl, ?_⟩
    exact Finset.sum_le_sum_of_subset (Finset.filter_subset ..)
  obtain ⟨n, s, hdrain, a, hi, hr, hstack, -⟩ := drain_budget hstep hinit hwidth
  obtain ⟨parts, todo, done, taken⟩ := a
  have hparts : parts = [] := by
    cases parts with
    | nil => rfl
    | cons P parts =>
      have hne := hi.frames_ne P List.mem_cons_self
      obtain ⟨f, frames, hf⟩ := List.exists_cons_of_ne_nil hne
      simp [PathSearch.State.stack, PathSearch.State.frames, hf] at hstack
  subst hparts
  have htodo : todo = [] := by
    simpa [PathSearch.State.stack, PathSearch.State.frames] using hstack
  subst htodo
  exact ⟨s, done, taken, hdrain, hi, hr⟩

end

end Freeze

end VeronaRt
