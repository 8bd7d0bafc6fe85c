import VeronaFs.Runtime.ImmutableComponent

/-!
# Freeing components

The loops of `Immutable::free`.  `sccLoop_total` goes through a component: as its objects reach each
other all of them are found.  `Freeing` is the invariant of the outer loop, with the components that are
in use, the ones on the stack `dfs` and those that were freed, and `freeLoop_total` says that it comes to
its end.
-/

set_option linter.unusedSectionVars false

namespace VeronaRt.Immutable

open Foundation ObjectHeap LinkedObjectStack Foundation.Ledger

section

variable {D : Descriptors} {h₀ h' : ObjectHeap} {Cs alive waiting freed : List (List ObjAddr)}
  {V S L C : List ObjAddr} {left rest base : List (Option ObjAddr × ObjAddr)} {o r u v w x y : ObjAddr}
  {s : Immutable} {fuel n : ℕ}

/-! ## The objects of a component -/

/-- An object of the component goes from one stack to the other. -/
theorem Visiting.move (hv : Visiting h₀ Cs alive waiting freed V left v (w :: S) L s)
    (hCs : Cs.flatten.Nodup) (hnull : null ∉ Cs.flatten) :
    ∃ scc heap fl, s.scc.pop s.heap = some (w, scc) ∧ s.fl.push s.heap w = some (heap, fl) ∧
      Visiting h₀ Cs alive waiting freed V left v S (w :: L)
        { s with heap := heap, scc := scc, fl := fl } := by
  have hwmem : w ∈ v :: (w :: S ++ L) := by simp
  have hwc := hv.found w hwmem
  have hwV := hv.mem_of_found hwmem
  obtain ⟨bits, hbits⟩ := exists_of_getClass hwc
  have hVCs : V ∈ Cs := hv.mem_components (by simp)
  have hwCs : w ∈ Cs.flatten := List.mem_flatten.mpr ⟨V, hVCs, hwV⟩
  have hnodup := hv.nodup
  rw [List.cons_append] at hnodup
  have hperm : (v :: w :: (S ++ L)).Perm (w :: v :: (S ++ L)) := List.Perm.swap ..
  have hwnot : w ∉ v :: (S ++ L) := (List.nodup_cons.mp (hperm.nodup_iff.mp hnodup)).1
  have hwS : w ∉ S := fun hmem => hwnot (by simp [hmem])
  have hwL : w ∉ L := fun hmem => hwnot (by simp [hmem])
  obtain ⟨scc, hpop, hscc⟩ := hv.scc.pop
  obtain ⟨hpush, hstacked⟩ := hv.fl.push hbits (fun heq => hnull (heq ▸ hwCs)) hwL
  have hword : Header.getClass (Header.ofAddress s.fl.header .unmarked) = some .unmarked :=
    Header.getClass_ofAddress ..
  generalize Header.ofAddress s.fl.header .unmarked = word at hpush hstacked hword
  have hlink : s.heap.getScc w = none := getScc_eq_none (by rw [hwc]; decide)
  have hne : Header.getClass word ≠ some .sccPtr := by rw [hword]; decide
  have hends : ∀ {o t}, EndsAt (Function.update s.heap w (some word)) o t ↔ s.heap.EndsAt o t :=
    endsAt_update hlink hne
  have hother : ∀ {o}, o ≠ w → Function.update s.heap w (some word) o = s.heap o := fun ho =>
    Function.update_of_ne ho ..
  obtain ⟨hVa, hVw, hVf⟩ := hv.not_mem_other hCs hwV
  have hmove : ∀ x, x ∈ v :: (S ++ w :: L) ↔ x ∈ v :: (w :: S ++ L) := by
    intro x
    simp only [List.mem_cons, List.mem_append, List.cons_append]
    tauto
  refine ⟨scc, _, _, hpop, hpush, ?_⟩
  constructor
  case perm => exact hv.perm
  case grounded => exact hv.grounded.update hlink hwc hword (by decide) (.inl rfl)
  case counted => exact fun E hE => (hv.counted E hE).update hlink (hVa E hE) (by decide) hne
  case pos => exact hv.pos
  case zero => exact hv.zero
  case dfs =>
    obtain ⟨tops, htops, hroots⟩ := hv.dfs
    refine ⟨tops, htops.congr fun t ht => hother ?_, hroots.congr fun _ _ _ _ _ _ => hends⟩
    rintro rfl
    obtain ⟨E, hE, hiff⟩ := hroots.exists_mem ht
    exact hVw E hE ((hiff t).mp (endsAt_self hwc (by decide)))
  case gone =>
    intro E hE x hx
    refine (hother ?_).trans (hv.gone E hE x hx)
    rintro rfl
    exact hVf E hE hx
  case outside =>
    intro o ho hc
    refine (hother ?_).trans (hv.outside o ho hc)
    rintro rfl
    exact ho hwCs
  case ends =>
    intro o
    rw [hv.ends o]
    exact exists_congr fun t => and_congr (hmove t).symm hends.symm
  case found =>
    intro x hx
    by_cases hxw : x = w
    · rw [hxw]
      exact getClass_update_self.trans hword
    · exact (reads_eq (hother hxw)).1.trans (hv.found x ((hmove x).mp hx))
  case nodup =>
    refine (List.Perm.nodup_iff ?_).mpr hv.nodup
    exact (List.perm_middle).cons v
  case scc =>
    refine hscc.congr fun x hx => hother ?_
    rintro rfl
    exact hwS hx
  case fl => exact hstacked

/-- The references of a component whose objects `L` were traced, and those of the others. -/
def remaining (D : Descriptors) (V : List ObjAddr) (v : ObjAddr) (L : List ObjAddr) :
    List (Option ObjAddr × ObjAddr) :=
  PathSearch.sourced D.fields (V.filter fun x => x ∉ v :: L)

/-- The next object is traced. -/
theorem untraced_perm (hV : V.Nodup) (hw : w ∈ V) (hnot : w ∉ v :: L) :
    (V.filter fun x => x ∉ v :: L).Perm (w :: V.filter fun x => x ∉ v :: w :: L) := by
  have hmem : w ∉ V.filter fun x => x ∉ v :: w :: L := by
    rw [List.mem_filter]
    simp
  refine (List.perm_ext_iff_of_nodup (hV.filter _) (List.nodup_cons.mpr ⟨hmem, hV.filter _⟩)).mpr
    fun x => ?_
  simp only [List.mem_cons, not_or] at hnot
  simp only [List.mem_filter, List.mem_cons, not_or, decide_eq_true_eq]
  constructor
  · rintro ⟨hx, hxv, hxL⟩
    by_cases hxw : x = w
    · exact .inl hxw
    · exact .inr ⟨hx, hxv, hxw, hxL⟩
  · rintro (rfl | ⟨hx, hxv, -, hxL⟩)
    · exact ⟨hw, hnot⟩
    · exact ⟨hx, hxv, hxL⟩

/-- The references of the next object are among them. -/
theorem remaining_perm (hV : V.Nodup) (hw : w ∈ V) (hnot : w ∉ v :: L) :
    (remaining D V v L).Perm ((D.fields w).map (Prod.mk (some w)) ++ remaining D V v (w :: L)) :=
  (untraced_perm hV hw hnot).flatMap_right _

/-- The top of the stack `scc` was not traced. -/
theorem Visiting.top_not_mem (hv : Visiting h₀ Cs alive waiting freed V left v (w :: S) L s) :
    w ∈ V ∧ w ∉ v :: L := by
  have hperm : (v :: w :: (S ++ L)).Perm (w :: v :: (S ++ L)) := List.Perm.swap ..
  have hnot := (List.nodup_cons.mp (hperm.nodup_iff.mp hv.nodup)).1
  refine ⟨hv.mem_of_found (by simp), ?_⟩
  simp only [List.mem_cons, List.mem_append, not_or] at hnot ⊢
  exact ⟨hnot.1, hnot.2.2⟩

/-- The loop goes through the objects of the component that are found, `order` in this order. -/
theorem sccLoop_total (hv : Visiting h₀ Cs alive waiting freed V left v S L s) (hCs : Cs.flatten.Nodup)
    (hnull : null ∉ Cs.flatten) (hfuel : 2 ^ 64 ≤ fuel) (hV : V.Nodup)
    (hleft : left.Perm (remaining D V v L ++ base)) (hbound : left.length < 2 ^ 60)
    (hfields : ∀ x ∈ V, ∀ y ∈ D.fields x, Known h₀ Cs y)
    (hclosed : ∀ x ∈ v :: L, ∀ y ∈ D.fields x, y ∈ V → y ∈ v :: (S ++ L))
    (hn : (V.filter fun x => x ∉ v :: L).length ≤ n) :
    ∃ (s' : Immutable) (alive' waiting' : List (List ObjAddr)) (order : List ObjAddr),
      sccLoop D fuel n s = some s' ∧
      Visiting h₀ Cs alive' waiting' freed V (remaining D V v (order.reverse ++ L) ++ base) v []
        (order.reverse ++ L) s' ∧
      (∀ x ∈ v :: (order.reverse ++ L), ∀ y ∈ D.fields x, y ∈ V → y ∈ v :: (order.reverse ++ L)) ∧
      s'.events = s.events ++ releaseEvents Cs (order.flatMap D.fields) ∧ s'.total = s.total := by
  induction n generalizing alive waiting S L s left with
  | zero =>
    have hS : S = [] := by
      cases S with
      | nil => rfl
      | cons w S =>
        obtain ⟨hwV, hwnot⟩ := hv.top_not_mem
        have hmem : w ∈ V.filter fun x => x ∉ v :: L := List.mem_filter.mpr ⟨hwV, decide_eq_true hwnot⟩
        rw [List.length_eq_zero_iff.mp (Nat.le_zero.mp hn)] at hmem
        cases hmem
    subst hS
    have hempty := hv.scc.empty_eq
    refine ⟨s, alive, waiting, [], ?_, hv.congr_left fun C _ => count_perm hleft.symm, hclosed,
      (List.append_nil _).symm, rfl⟩
    rw [sccLoop, hempty]
    rfl
  | succ n ih =>
    cases S with
    | nil =>
      have hempty := hv.scc.empty_eq
      refine ⟨s, alive, waiting, [], ?_, hv.congr_left fun C _ => count_perm hleft.symm, hclosed,
        (List.append_nil _).symm, rfl⟩
      rw [sccLoop, hempty]
      rfl
    | cons w S =>
      obtain ⟨hwV, hwnot⟩ := hv.top_not_mem
      obtain ⟨scc, heap, fl, hpop, hpush, hv₁⟩ := hv.move hCs hnull
      have hremaining := remaining_perm (D := D) hV hwV hwnot
      have hperm : left.Perm ((D.fields w).map (Prod.mk (some w)) ++ (remaining D V v (w :: L) ++ base)) := by
        rw [← List.append_assoc]
        exact hleft.trans (hremaining.append_right base)
      have hv₂ := hv₁.congr_left fun C _ => count_perm hperm.symm
      obtain ⟨s₃, alive₃, waiting₃, S₃, hfold, hv₃, hsub₃, hfound₃, hevents₃, htotal₃⟩ :=
        hv₂.foldRefs hCs hnull hfuel (by rwa [← hperm.length_eq]) hwV (hfields w hwV)
      have hmono : ∀ {x}, x ∈ v :: (w :: S ++ L) → x ∈ v :: (S₃ ++ w :: L) := by
        intro x hx
        simp only [List.cons_append, List.mem_cons, List.mem_append] at hx ⊢
        rcases hx with hx | hx | hx | hx
        · exact .inl hx
        · exact .inr (.inr (.inl hx))
        · exact .inr (.inl (hsub₃ x hx))
        · exact .inr (.inr (.inr hx))
      have hclosed₃ : ∀ x ∈ v :: w :: L, ∀ y ∈ D.fields x, y ∈ V → y ∈ v :: (S₃ ++ w :: L) := by
        intro x hx y hy hyV
        by_cases hxw : x = w
        · exact hfound₃ y (hxw ▸ hy) hyV
        · refine hmono (hclosed x ?_ y hy hyV)
          simp only [List.mem_cons] at hx ⊢
          tauto
      have hn₃ : (V.filter fun x => x ∉ v :: w :: L).length ≤ n := by
        have hlen := (untraced_perm hV hwV hwnot).length_eq
        rw [List.length_cons] at hlen
        omega
      have hbound₃ : (remaining D V v (w :: L) ++ base).length < 2 ^ 60 := by
        have hlen := hperm.length_eq
        rw [List.length_append] at hlen
        omega
      obtain ⟨s', alive', waiting', order, hloop, hv', hclosed', hevents', htotal'⟩ :=
        ih hv₃ (List.Perm.refl _) hbound₃ hclosed₃ hn₃
      have hempty := hv.scc.empty_eq
      refine ⟨s', alive', waiting', w :: order, ?_, ?_, ?_, ?_, htotal'.trans htotal₃⟩
      · rw [sccLoop, hempty]
        simp only [List.isEmpty_cons, Bool.false_eq_true, if_false, hpop, hpush, follow, hfold, bind,
          Option.bind_some, hloop]
      · rw [List.reverse_cons, List.append_assoc, List.singleton_append]
        exact hv'
      · rw [List.reverse_cons, List.append_assoc, List.singleton_append]
        exact hclosed'
      · rw [hevents', hevents₃, List.append_assoc, ← releaseEvents_append, List.flatMap_cons]

/-! ## Deallocation -/

/-- What is done to an object that is deallocated. -/
def dropEvents (D : Descriptors) (w : ObjAddr) : List (ObjectEvent ObjAddr) :=
  (if D.hasDestructor w then [.destructor w] else []) ++ [.dealloc w]

/-- An object is deallocated. -/
theorem drop_eq {bits : BitVec 64} (hw : s.heap w = some bits) : drop D s w = some { s with
    heap := Function.update s.heap w none
    events := s.events ++ dropEvents D w
    total := s.total + D.size w } := by
  rw [drop, ObjectHeap.dealloc, hw, Option.map_some, Option.map_some, dropEvents, List.append_assoc]

/-- The objects on a stack are deallocated. -/
theorem flLoop_total {l : List ObjAddr} (hfl : Stacked s.heap s.fl l) (hnodup : l.Nodup)
    (hn : l.length ≤ n) :
    ∃ heap fl, flLoop D n s = some { s with
        heap := heap
        fl := fl
        events := s.events ++ l.flatMap (dropEvents D)
        total := s.total + (l.map D.size).sum } ∧
      fl.header = null ∧ ∀ o, heap o = if o ∈ l then none else s.heap o := by
  induction l generalizing s n with
  | nil =>
    have hempty := hfl.empty_eq
    refine ⟨s.heap, s.fl, ?_, hfl, fun o => (if_neg List.not_mem_nil).symm⟩
    have hsame : s = { s with
        heap := s.heap
        fl := s.fl
        events := s.events ++ ([] : List ObjAddr).flatMap (dropEvents D)
        total := s.total + (([] : List ObjAddr).map D.size).sum } := by simp
    rw [← hsame]
    cases n with
    | zero =>
      rw [flLoop, hempty]
      rfl
    | succ n =>
      rw [flLoop, hempty]
      rfl
  | cons w l ih =>
    obtain ⟨n, rfl⟩ := Nat.exists_eq_add_of_le' (Nat.le_of_add_left_le hn)
    obtain ⟨hw, hnodup⟩ := List.nodup_cons.mp hnodup
    have hempty := hfl.empty_eq
    obtain ⟨bits, hbits⟩ := exists_of_getClass (hfl.getClass List.mem_cons_self)
    obtain ⟨fl, hpop, hfl'⟩ := hfl.pop
    have hother : ∀ o, o ≠ w → Function.update s.heap w none o = s.heap o := fun o ho =>
      Function.update_of_ne ho ..
    have hfl'' : Stacked (Function.update s.heap w none) fl l := hfl'.congr fun o ho => hother o (by
      rintro rfl
      exact hw ho)
    obtain ⟨heap, fl', hloop, hnull, hheap⟩ := ih (s := { s with
      fl := fl
      heap := Function.update s.heap w none
      events := s.events ++ dropEvents D w
      total := s.total + D.size w }) hfl'' hnodup (by simpa using hn)
    refine ⟨heap, fl', ?_, hnull, fun o => ?_⟩
    · rw [flLoop, hempty]
      simp only [List.isEmpty_cons, Bool.false_eq_true, if_false, hpop, bind, Option.bind_some]
      rw [drop_eq (s := { s with fl := fl }) hbits, Option.bind_some, hloop]
      simp only [List.flatMap_cons, List.map_cons, List.sum_cons, List.append_assoc, Nat.add_assoc]
    · rw [hheap]
      by_cases how : o = w
      · subst how
        simp
      · have hmem : o ∈ w :: l ↔ o ∈ l := by simp [how]
        show (if o ∈ l then none else Function.update s.heap w none o) = _
        rw [hother o how]
        simp only [hmem]

/-- Objects without links that are gone are not missed. -/
theorem getScc_gone {h : ObjectHeap} {l : List ObjAddr} (hl : ∀ o ∈ l, h.getScc o = none)
    (hgone : ∀ o, h' o = if o ∈ l then none else h o) : h'.getScc = h.getScc := by
  funext o
  by_cases ho : o ∈ l
  · rw [hl o ho]
    refine getScc_eq_none ?_
    rw [getClass, hgone, if_pos ho]
    decide
  · exact (reads_eq (by rw [hgone, if_neg ho])).2.1

/-! ## The outer loop -/

/-- What is done to the objects of a component, which are deallocated in this order. -/
def componentEvents (D : Descriptors) (Cs : List (List ObjAddr)) (objects : List ObjAddr) :
    List (ObjectEvent ObjAddr) :=
  releaseEvents Cs (objects.reverse.flatMap D.fields) ++ objects.flatMap (runFinaliser D) ++
    objects.flatMap (dropEvents D)

/-- The outer loop of `free` has freed components, with their objects in the order in which they were
deallocated. -/
structure Freeing (D : Descriptors) (h₀ : ObjectHeap) (Cs : List (List ObjAddr)) (roots : List ObjAddr)
    (alive waiting freed orders : List (List ObjAddr)) (s : Immutable) : Prop where
  /-- These are all components. -/
  perm : (alive ++ waiting ++ freed).Perm Cs
  /-- Links end. -/
  grounded : s.heap.Grounded
  /-- The components in use count the references into them. -/
  counted : ∀ C ∈ alive, s.heap.IsFinished C
    (count (references D.fields roots (alive ++ waiting).flatten) C) .rc
  /-- There is one at least. -/
  pos : ∀ C ∈ alive, 1 ≤ count (references D.fields roots (alive ++ waiting).flatten) C
  /-- There is none into the others. -/
  zero : ∀ C ∈ waiting ++ freed, count (references D.fields roots (alive ++ waiting).flatten) C = 0
  /-- The roots of the components to free are on a stack. -/
  dfs : ∃ tops, Stacked s.heap s.dfs tops ∧ Roots s.heap tops waiting
  /-- The objects of the components that were freed are gone. -/
  gone : ∀ C ∈ freed, ∀ x ∈ C, s.heap x = none
  /-- Other words are those of before. -/
  outside : ∀ o ∉ Cs.flatten, h₀.getClass o ≠ some .sccPtr → s.heap o = h₀ o
  /-- The other stacks are empty. -/
  scc : s.scc.header = null
  /-- Both of them. -/
  fl : s.fl.header = null
  /-- The objects of the components that were freed. -/
  ordered : List.Forall₂ List.Perm orders freed
  /-- What was done, the last component first. -/
  events : s.events = orders.reverse.flatMap (componentEvents D Cs)
  /-- The size of what was deallocated. -/
  total : s.total = (orders.flatten.map D.size).sum

/-- The references of the next component, those of its root first. -/
theorem references_perm {roots : List ObjAddr} (hV : V.Nodup) (hv : v ∈ V) :
    (references D.fields roots (alive ++ V :: waiting).flatten).Perm
      ((D.fields v).map (Prod.mk (some v)) ++
        (remaining D V v [] ++ references D.fields roots (alive ++ waiting).flatten)) := by
  have hroot : V.Perm (v :: V.filter fun x => x ∉ [v]) := by
    refine (List.perm_ext_iff_of_nodup hV (List.nodup_cons.mpr ⟨by simp, hV.filter _⟩)).mpr fun x => ?_
    simp only [List.mem_cons, List.mem_filter, List.not_mem_nil, or_false, decide_eq_true_eq]
    constructor
    · intro hx
      by_cases hxv : x = v
      · exact .inl hxv
      · exact .inr ⟨hx, hxv⟩
    · rintro (rfl | ⟨hx, -⟩)
      · exact hv
      · exact hx
  have hflatten : ((alive ++ V :: waiting).flatten).Perm
      ((v :: V.filter fun x => x ∉ [v]) ++ (alive ++ waiting).flatten) := by
    refine (List.perm_middle.flatten).trans ?_
    rw [List.flatten_cons]
    exact hroot.append_right _
  have hsourced : (PathSearch.sourced D.fields (alive ++ V :: waiting).flatten).Perm
      ((D.fields v).map (Prod.mk (some v)) ++
        (remaining D V v [] ++ PathSearch.sourced D.fields (alive ++ waiting).flatten)) := by
    refine (hflatten.flatMap_right _).trans ?_
    rw [List.flatMap_append, List.flatMap_cons, List.append_assoc]
    rfl
  rw [references, references]
  refine (hsourced.append_left _).trans ?_
  refine List.perm_append_comm.trans ?_
  rw [List.append_assoc, List.append_assoc]
  refine List.Perm.append_left _ (List.Perm.append_left _ ?_)
  exact List.perm_append_comm

section

variable {roots : List ObjAddr} {orders : List (List ObjAddr)}

/-- The root of the next component was found. -/
theorem Freeing.start (hs : Freeing D h₀ Cs roots alive (V :: waiting) freed orders s)
    (hCs : Cs.flatten.Nodup) :
    ∃ v dfs, s.dfs.pop s.heap = some (v, dfs) ∧ v ∈ V ∧
      (references D.fields roots (alive ++ V :: waiting).flatten).Perm
        ((D.fields v).map (Prod.mk (some v)) ++
          (remaining D V v [] ++ references D.fields roots (alive ++ waiting).flatten)) ∧
      Visiting h₀ Cs alive waiting freed V
        ((D.fields v).map (Prod.mk (some v)) ++
          (remaining D V v [] ++ references D.fields roots (alive ++ waiting).flatten)) v [] []
        { s with dfs := dfs } := by
  obtain ⟨tops, htops, hroots⟩ := hs.dfs
  obtain ⟨v, tops, rfl⟩ : ∃ v tops', tops = v :: tops' := by
    cases hroots with
    | cons => exact ⟨_, _, rfl⟩
  obtain ⟨hiff, hroots⟩ := List.forall₂_cons.mp hroots
  obtain ⟨dfs, hpop, htops'⟩ := htops.pop
  have hvc : s.heap.getClass v = some .unmarked := htops.getClass List.mem_cons_self
  have hvV : v ∈ V := (hiff v).mp (endsAt_self hvc (by decide))
  have hVCs : V ∈ Cs := hs.perm.mem_iff.mp (by simp)
  have hV : V.Nodup := (List.nodup_flatten.mp hCs).1 V hVCs
  have hperm : (references D.fields roots (alive ++ V :: waiting).flatten).Perm _ :=
    references_perm hV hvV
  refine ⟨v, dfs, hpop, hvV, hperm, ?_⟩
  have hcount : ∀ C, count ((D.fields v).map (Prod.mk (some v)) ++
      (remaining D V v [] ++ references D.fields roots (alive ++ waiting).flatten)) C =
        count (references D.fields roots (alive ++ V :: waiting).flatten) C := fun C =>
    count_perm hperm.symm
  constructor
  case perm =>
    refine List.Perm.trans ?_ hs.perm
    rw [List.append_assoc, List.append_assoc, List.cons_append]
    exact List.Perm.append_left _ List.perm_middle
  case grounded => exact hs.grounded
  case counted =>
    intro C hC
    rw [hcount]
    exact hs.counted C hC
  case pos =>
    intro C hC
    rw [hcount]
    exact hs.pos C hC
  case zero =>
    intro C hC
    rw [hcount]
    refine hs.zero C ?_
    simp only [List.mem_append, List.mem_cons] at hC ⊢
    tauto
  case dfs => exact ⟨tops, htops', hroots⟩
  case gone => exact hs.gone
  case outside => exact hs.outside
  case ends =>
    intro o
    simp only [List.append_nil, List.mem_singleton, exists_eq_left]
    exact (hiff o).symm
  case found =>
    intro x hx
    simp only [List.append_nil, List.mem_singleton] at hx
    exact hx ▸ hvc
  case nodup => simp
  case scc => exact hs.scc
  case fl => exact hs.fl

/-- A component whose objects were all found is deallocated. -/
theorem Visiting.freeing {objects : List ObjAddr}
    (hv : Visiting h₀ Cs alive waiting freed V left v [] L s) (hCs : Cs.flatten.Nodup) (s' : Immutable)
    (hleft : ∀ C, count left C = count (references D.fields roots (alive ++ waiting).flatten) C)
    (hmem : ∀ x, x ∈ V ↔ x ∈ v :: L) (hgone : ∀ o, s'.heap o = if o ∈ V then none else s.heap o)
    (hdfs : s'.dfs = s.dfs) (hscc : s'.scc = s.scc) (hfl : s'.fl.header = null)
    (hobjects : objects.Perm V) (hordered : List.Forall₂ List.Perm orders freed)
    (hevents : s'.events = orders.reverse.flatMap (componentEvents D Cs) ++ componentEvents D Cs objects)
    (htotal : s'.total = (orders.flatten.map D.size).sum + (objects.map D.size).sum) :
    Freeing D h₀ Cs roots alive waiting (V :: freed) (objects :: orders) s' := by
  have hlinks : s'.heap.getScc = s.heap.getScc := getScc_gone (fun o ho => getScc_eq_none (by
    rw [hv.found o (by simpa using (hmem o).mp ho)]
    decide)) hgone
  have hends : ∀ {o r}, s'.heap.EndsAt o r ↔ s.heap.EndsAt o r := by
    intro o r
    rw [EndsAt, hlinks]
    rfl
  have hother : ∀ {o}, o ∉ V → s'.heap o = s.heap o := fun ho => by rw [hgone, if_neg ho]
  have hendsV : ∀ {o r}, r ∈ V → s.heap.EndsAt o r → o ∈ V := fun hr ho =>
    (hv.ends _).mpr ⟨_, by simpa using (hmem _).mp hr, ho⟩
  have hstack : ∀ {st l}, Stacked s.heap st l → (∀ x ∈ l, x ∉ V) → Stacked s'.heap st l :=
    fun hst hl => hst.congr fun x hx => hother (hl x hx)
  constructor
  case perm => exact hv.perm
  case grounded =>
    intro o bits ho
    have hoV : o ∉ V := by
      intro hoV
      rw [hgone, if_pos hoV] at ho
      cases ho
    rw [hother hoV] at ho
    obtain ⟨n, r, c, hleads, hc, hroot⟩ := hv.grounded o bits ho
    have hrV : r ∉ V := fun hrV => hoV (hendsV hrV ⟨n, hleads⟩)
    exact ⟨n, r, c, hlinks ▸ hleads, by rw [(reads_eq (hother hrV)).1, hc], hroot⟩
  case counted =>
    intro C hC
    rw [← hleft]
    obtain ⟨t, htC, ht, -, hiff⟩ := (hv.counted C hC).exists_root (by decide)
    have htV : t ∉ V := fun htV => (hv.not_mem_other hCs htV).1 C hC htC
    exact ⟨t, (hother htV).trans ht, fun o => hends.trans (hiff o)⟩
  case pos =>
    intro C hC
    rw [← hleft]
    exact hv.pos C hC
  case zero =>
    intro C hC
    rw [← hleft]
    exact hv.zero C hC
  case dfs =>
    obtain ⟨tops, htops, hroots⟩ := hv.dfs
    rw [hdfs]
    refine ⟨tops, hstack htops fun x hx hxV => ?_, hroots.congr fun _ _ _ _ _ _ => hends⟩
    obtain ⟨C, hC, hiff⟩ := hroots.exists_mem hx
    have hxC := (hiff x).mp (endsAt_self (htops.getClass hx) (by decide))
    exact (hv.not_mem_other hCs hxV).2.1 C hC hxC
  case gone =>
    refine List.forall_mem_cons.mpr ⟨fun x hx => by rw [hgone, if_pos hx], fun C hC x hx => ?_⟩
    have hxV : x ∉ V := fun hxV => (hv.not_mem_other hCs hxV).2.2 C hC hx
    rw [hother hxV, hv.gone C hC x hx]
  case outside =>
    intro o ho hc
    have hoV : o ∉ V := fun hoV => ho (List.mem_flatten.mpr ⟨V, hv.mem_components (by simp), hoV⟩)
    rw [hother hoV, hv.outside o ho hc]
  case scc =>
    rw [hscc]
    exact hv.scc
  case fl => exact hfl
  case ordered => exact .cons hobjects hordered
  case events => rw [hevents, List.reverse_cons, List.flatMap_append, List.flatMap_singleton]
  case total =>
    rw [htotal, List.flatten_cons, List.map_append, List.sum_append, Nat.add_comm]

/-- The next component is freed. -/
theorem Freeing.step (hs : Freeing D h₀ Cs roots alive (V :: waiting) freed orders s)
    (hCs : Components D.fields Cs) (hnull : null ∉ Cs.flatten)
    (hfields : ∀ x ∈ Cs.flatten, ∀ y ∈ D.fields x, Known h₀ Cs y) (hfuel : 2 ^ 64 ≤ fuel)
    (hbound : (references D.fields roots (alive ++ V :: waiting).flatten).length < 2 ^ 60) :
    ∃ v dfs s' alive' waiting' objects, s.dfs.pop s.heap = some (v, dfs) ∧
      freeComponent D fuel { s with dfs := dfs } v = some s' ∧
      Freeing D h₀ Cs roots alive' waiting' (V :: freed) (objects :: orders) s' := by
  obtain ⟨v, dfs, hpop, hvV, hperm, hstart⟩ := hs.start hCs.nodup
  have hVCs : V ∈ Cs := hs.perm.mem_iff.mp (by simp)
  have hV : V.Nodup := (List.nodup_flatten.mp hCs.nodup).1 V hVCs
  have hknown : ∀ x ∈ V, ∀ y ∈ D.fields x, Known h₀ Cs y := fun x hx =>
    hfields x (List.mem_flatten.mpr ⟨V, hVCs, hx⟩)
  have hlength := hperm.length_eq
  obtain ⟨base, hbase⟩ : ∃ base, base = references D.fields roots (alive ++ waiting).flatten := ⟨_, rfl⟩
  rw [← hbase] at hstart hlength
  obtain ⟨s₁, alive₁, waiting₁, S₁, hfold, hv₁, -, hfound₁, hevents₁, htotal₁⟩ :=
    hstart.foldRefs hCs.nodup hnull hfuel (by rwa [← hlength]) hvV (hknown v hvV)
  have hclosed₁ : ∀ x ∈ [v], ∀ y ∈ D.fields x, y ∈ V → y ∈ v :: (S₁ ++ []) := by
    intro x hx y hy
    obtain rfl := List.mem_singleton.mp hx
    exact hfound₁ y hy
  have hVlength : V.length ≤ 2 ^ 64 := length_le_of_nodup hV
  obtain ⟨s₂, alive₂, waiting₂, order, hloop, hv₂, hclosed₂, hevents₂, htotal₂⟩ :=
    sccLoop_total (n := fuel) hv₁ hCs.nodup hnull hfuel hV (List.Perm.refl _) (by
      rw [List.length_append] at hlength
      omega) hknown hclosed₁ ((List.length_filter_le ..).trans (hVlength.trans hfuel))
  rw [List.append_nil] at hv₂ hclosed₂
  -- As its objects reach each other all of them were found.
  have hmem : ∀ x, x ∈ V ↔ x ∈ v :: order.reverse := by
    intro x
    refine ⟨fun hx => ?_, fun hx => hv₂.mem_of_found hx⟩
    have hpath := hCs.strong V hVCs v hvV x hx
    clear hx
    induction hpath with
    | refl => exact List.mem_cons_self
    | tail _ hstep ih => exact hclosed₂ _ ih _ hstep.1 hstep.2
  have hnodup : (v :: order.reverse).Nodup := hv₂.nodup
  have hobjects : (order.reverse ++ [v]).Perm V := by
    refine List.perm_append_comm.trans ?_
    rw [List.singleton_append]
    exact (List.perm_ext_iff_of_nodup hnodup hV).mpr fun x => (hmem x).symm
  have hremaining : remaining D V v order.reverse = [] := by
    have hnil : V.filter (fun x => x ∉ v :: order.reverse) = [] :=
      List.filter_eq_nil_iff.mpr fun x hx => by
        simpa only [decide_eq_true_eq, not_not] using (hmem x).mp hx
    rw [remaining, hnil]
    rfl
  rw [hremaining, List.nil_append] at hv₂
  have horder : order.reverse.length ≤ fuel := by
    have hlen := hobjects.length_eq
    rw [List.length_append] at hlen
    omega
  have htoList := hv₂.fl.toList horder
  obtain ⟨heap, fl, hflLoop, hflnull, hheap⟩ := flLoop_total (D := D)
    (s := { s₂ with events := s₂.events ++ (order.reverse ++ [v]).flatMap (runFinaliser D) })
    hv₂.fl (List.nodup_cons.mp hnodup).2 horder
  obtain ⟨bits, hbits⟩ : ∃ bits, heap v = some bits := by
    rw [hheap, if_neg (List.nodup_cons.mp hnodup).1]
    exact exists_of_getClass (hv₂.found v (by simp))
  have hgone : ∀ o, Function.update heap v none o = if o ∈ V then none else s₂.heap o := by
    intro o
    by_cases hov : o = v
    · rw [hov, Function.update_self, if_pos hvV]
    · have hiff : o ∈ V ↔ o ∈ order.reverse := by
        rw [hmem, List.mem_cons]
        exact ⟨fun h => h.resolve_left hov, .inr⟩
      rw [Function.update_of_ne hov, hheap]
      simp only [hiff]
  have hcount : ∀ C, count base C = count (references D.fields roots (alive₂ ++ waiting₂).flatten) C := by
    intro C
    have hall : (alive₂ ++ waiting₂ ++ V :: freed).Perm (alive ++ waiting ++ V :: freed) :=
      hv₂.perm.trans hstart.perm.symm
    have hsame : (alive₂ ++ waiting₂).Perm (alive ++ waiting) := (List.perm_append_right_iff _).mp hall
    rw [hbase]
    exact count_perm (List.Perm.append_left _ (hsame.flatten.flatMap_right _).symm)
  refine ⟨v, dfs, { s₂ with
    heap := Function.update heap v none
    fl := fl
    events := s₂.events ++ (order.reverse ++ [v]).flatMap (runFinaliser D) ++
      order.reverse.flatMap (dropEvents D) ++ dropEvents D v
    total := s₂.total + (order.reverse.map D.size).sum + D.size v }, alive₂, waiting₂,
    order.reverse ++ [v], hpop, ?_, ?_⟩
  · rw [freeComponent, follow, hfold]
    simp only [bind, Option.bind_some, hloop, htoList, hflLoop]
    exact drop_eq hbits
  · refine hv₂.freeing hCs.nodup _ hcount hmem hgone rfl rfl hflnull hobjects hs.ordered ?_ ?_
    · simp only [hevents₂, hevents₁, hs.events, componentEvents, List.reverse_append, List.reverse_reverse,
        List.reverse_singleton, List.singleton_append, List.flatMap_cons, List.flatMap_append,
        List.flatMap_nil, List.append_nil, releaseEvents_append, List.append_assoc]
    · simp only [htotal₂, htotal₁, hs.total, List.map_append, List.sum_append, List.map_singleton,
        List.sum_singleton, Nat.add_assoc]

/-- The outer loop comes to its end. -/
theorem freeLoop_total (hs : Freeing D h₀ Cs roots alive waiting freed orders s)
    (hCs : Components D.fields Cs) (hnull : null ∉ Cs.flatten)
    (hfields : ∀ x ∈ Cs.flatten, ∀ y ∈ D.fields x, Known h₀ Cs y) (hfuel : 2 ^ 64 ≤ fuel)
    (hbound : (references D.fields roots (alive ++ waiting).flatten).length < 2 ^ 60)
    (hn : (alive ++ waiting).length ≤ n) :
    ∃ s' alive' freed' orders', freeLoop D fuel n s = some s' ∧
      Freeing D h₀ Cs roots alive' [] freed' orders' s' := by
  induction n generalizing alive waiting freed orders s with
  | zero =>
    obtain ⟨rfl, rfl⟩ := List.append_eq_nil_iff.mp (List.length_eq_zero_iff.mp (Nat.le_zero.mp hn))
    obtain ⟨tops, htops, hroots⟩ := hs.dfs
    obtain rfl := List.forall₂_nil_right_iff.mp hroots
    refine ⟨s, [], freed, orders, ?_, hs⟩
    rw [freeLoop, htops.empty_eq]
    rfl
  | succ n ih =>
    cases waiting with
    | nil =>
      obtain ⟨tops, htops, hroots⟩ := hs.dfs
      obtain rfl := List.forall₂_nil_right_iff.mp hroots
      refine ⟨s, alive, freed, orders, ?_, hs⟩
      rw [freeLoop, htops.empty_eq]
      rfl
    | cons V waiting =>
      obtain ⟨v, dfs, s₁, alive₁, waiting₁, objects, hpop, hcomponent, hs₁⟩ :=
        hs.step hCs hnull hfields hfuel hbound
      have hall : (alive₁ ++ waiting₁ ++ V :: freed).Perm (alive ++ waiting ++ V :: freed) := by
        refine hs₁.perm.trans (hs.perm.symm.trans ?_)
        rw [List.append_assoc, List.append_assoc, List.cons_append]
        exact List.Perm.append_left _ List.perm_middle.symm
      have hsame : (alive₁ ++ waiting₁).Perm (alive ++ waiting) := (List.perm_append_right_iff _).mp hall
      have hn₁ : (alive₁ ++ waiting₁).length ≤ n := by
        rw [hsame.length_eq]
        simp only [List.length_append, List.length_cons] at hn ⊢
        omega
      have hbound₁ : (references D.fields roots (alive₁ ++ waiting₁).flatten).length < 2 ^ 60 := by
        have hsub : ((alive ++ waiting).flatten).Sublist (alive ++ V :: waiting).flatten :=
          ((List.Sublist.refl alive).append (List.sublist_cons_self V waiting)).flatten
        have hle := (hsub.flatMap fun x => (D.fields x).map (Prod.mk (some x))).length_le
        have heq := (hsame.flatten.flatMap_right fun x => (D.fields x).map (Prod.mk (some x))).length_eq
        rw [references, List.length_append, PathSearch.sourced] at hbound ⊢
        omega
      obtain ⟨s', alive', freed', orders', hloop, hs'⟩ := ih hs₁ hbound₁ hn₁
      refine ⟨s', alive', freed', orders', ?_, hs'⟩
      obtain ⟨tops, htops, hroots⟩ := hs.dfs
      have hempty := htops.empty_eq
      obtain ⟨t, tops, rfl⟩ : ∃ t tops', tops = t :: tops' := by
        cases hroots with
        | cons => exact ⟨_, _, rfl⟩
      rw [freeLoop, hempty]
      simp only [List.isEmpty_cons, Bool.false_eq_true, if_false, hpop, hcomponent, bind,
        Option.bind_some, hloop]

end

end

end VeronaRt.Immutable
