import VeronaFs.Runtime.ImmutableFree

/-!
# Runs of acquires and releases

`Immutables` says that a heap has the components of a list, each with the count of the references into
it: those of immutable objects and those that are held.  An acquire of an object that is reached and a
release of a reference that is held keep it, and in every run an object is there exactly if a reference
that is held reaches it.
-/

set_option linter.unusedSectionVars false

namespace VeronaRt.Immutable

open Foundation ObjectHeap LinkedObjectStack Foundation.Ledger

/-- The heap has the components `Cs` of immutable objects, and `held` are the references to them that are
held elsewhere. -/
structure Immutables (D : Descriptors) (h : ObjectHeap) (Cs : List (List ObjAddr)) (held : List ObjAddr) :
    Prop where
  /-- They are the strongly connected components. -/
  components : Components D.fields Cs
  /-- No address is null. -/
  ne_null : null ∉ Cs.flatten
  /-- Links end. -/
  grounded : h.Grounded
  /-- The components count the references into them. -/
  counted : ∀ C ∈ Cs, h.IsFinished C (count (references D.fields held Cs.flatten) C) .rc
  /-- There is one at least. -/
  pos : ∀ C ∈ Cs, 1 ≤ count (references D.fields held Cs.flatten) C
  /-- References lead to immutable objects and to shared ones. -/
  fields : ∀ x ∈ Cs.flatten, ∀ y ∈ D.fields x, Known h Cs y
  /-- The references that are held are to immutable objects. -/
  held_mem : ∀ y ∈ held, y ∈ Cs.flatten
  /-- The counts fit. -/
  bound : (references D.fields held Cs.flatten).length < 2 ^ 60

section

variable {D : Descriptors} {h h' : ObjectHeap} {Cs : List (List ObjAddr)} {held : List ObjAddr}
  {C : List ObjAddr} {o r x y : ObjAddr} {fuel : ℕ}

/-- A reference that is held is one that counts. -/
theorem references_cons (D : Descriptors) (o : ObjAddr) (held vertices : List ObjAddr) :
    references D.fields (o :: held) vertices = (none, o) :: references D.fields held vertices := rfl

/-- It enters the component of its object. -/
theorem enters_held : PathSearch.Enters C (none, o) ↔ o ∈ C :=
  ⟨fun h => h.1, fun h => ⟨h, fun _ hx => by cases hx⟩⟩

namespace Immutables

/-- All objects are reached. -/
theorem reached (hi : Immutables D h Cs held) (hx : x ∈ Cs.flatten) :
    ∃ y ∈ held, PathSearch.Connects (· ∈ Cs.flatten) D.fields y x := by
  obtain ⟨y, hy, -, hyx⟩ := (hi.components.mem_iff (List.Subset.refl Cs) hi.pos
    fun C hC hnot => absurd hC hnot).mp hx
  exact ⟨y, hy, hyx⟩

/-- Splitting paths does not matter. -/
theorem splits (hi : Immutables D h Cs held) (hs : Splits h h') : Immutables D h' Cs held :=
  { hi with
    grounded := hs.grounded hi.grounded
    counted := fun C hC => (hi.counted C hC).splits hs hi.grounded (by decide)
    fields := fun x hx y hy => (hi.fields x hx y hy).imp_right fun hy' =>
      ⟨hy'.1, by rw [hs.getClass_eq, hy'.2]⟩ }

/-- The root of an immutable object. -/
theorem immutable_total (hi : Immutables D h Cs held) (hfuel : 2 ^ 64 ≤ fuel) (hC : C ∈ Cs) (ho : o ∈ C) :
    ∃ r h', immutable fuel h o = some (r, h') ∧ Immutables D h' Cs held ∧ r ∈ C ∧
      h' r = some (Header.ofCount (count (references D.fields held Cs.flatten) C) .rc) ∧
      (∀ u, EndsAt h' u r ↔ u ∈ C) ∧ ∀ u, h.getClass u ≠ some .sccPtr → h' u = h u := by
  obtain ⟨r, -, -, hrc, hiff⟩ := (hi.counted C hC).exists_root (by decide)
  obtain ⟨h', hroot, hsplits⟩ :=
    rootAndClass_of_endsAt hi.grounded ((hiff o).mpr ho) hrc hfuel
  have hi' := hi.splits hsplits
  obtain ⟨t, htC, ht, -, htiff⟩ := (hi'.counted C hC).exists_root (by decide)
  have hrt : t = r := by
    have hends := (hsplits.endsAt_iff hi.grounded).mpr ((hiff o).mpr ho)
    exact ((htiff o).mpr ho).unique hends
  subst hrt
  refine ⟨t, h', ?_, hi', htC, ht, htiff, hsplits.unchanged⟩
  rw [immutable, hroot]
  simp

/-- A write to the root of a component. -/
theorem other_finished (hi : Immutables D h Cs held) {word : BitVec 64} {n : ℕ} {E : List ObjAddr}
    (hC : C ∈ Cs) (hrC : r ∈ C) (hrc : h.getClass r = some .rc)
    (hword : Header.getClass word ≠ some .sccPtr) (hE : E ∈ Cs) (hne : E ≠ C)
    (hfinished : h.IsFinished E n .rc) : IsFinished (Function.update h r (some word)) E n .rc :=
  hfinished.update (getScc_eq_none (by rw [hrc]; decide))
    (fun hrE => hne (hi.components.eq_of_mem hE hC hrE hrC)) (by decide) hword

end Immutables

/-! ## Acquire -/

/-- An immutable object is acquired. -/
theorem acquire_total (hi : Immutables D h Cs held) (hfuel : 2 ^ 64 ≤ fuel) (ho : o ∈ Cs.flatten)
    (hbound : (references D.fields (o :: held) Cs.flatten).length < 2 ^ 60) :
    ∃ h', acquire fuel h o = some h' ∧ Immutables D h' Cs (o :: held) ∧
      ∀ u ∉ Cs.flatten, h.getClass u ≠ some .sccPtr → h' u = h u := by
  obtain ⟨C, hC, hoC⟩ := List.mem_flatten.mp ho
  obtain ⟨r, h₁, himm, hi₁, hrC, hr, hiff, hsame⟩ := hi.immutable_total hfuel hC hoC
  have hrc : h₁.getClass r = some .rc := by rw [getClass_of_some hr, Header.getClass_ofCount]
  obtain ⟨n, hn⟩ : ∃ n, count (references D.fields held Cs.flatten) C = n := ⟨_, rfl⟩
  rw [hn] at hr
  have hword : Header.getClass (Header.ofCount (n + 1) .rc) = some .rc := Header.getClass_ofCount ..
  have hne : Header.getClass (Header.ofCount (n + 1) .rc) ≠ some .sccPtr := by rw [hword]; decide
  have hscc : h₁.getScc r = none := getScc_eq_none (by rw [hrc]; decide)
  have hincref : h₁.incref r = some (Function.update h₁ r (some (Header.ofCount (n + 1) .rc))) := by
    rw [incref, hr]
    simp only [bind, Option.bind_some, Header.getClass_ofCount, true_or, if_true, Header.ofCount_add]
    exact write_of_some hr
  refine ⟨_, by rw [acquire, himm]; exact hincref, ?_, fun u hu hc => ?_⟩
  · constructor
    case components => exact hi.components
    case ne_null => exact hi.ne_null
    case grounded => exact hi₁.grounded.update hscc hrc hword (by decide) (.inl rfl)
    case counted =>
      intro E hE
      rw [references_cons]
      by_cases hEC : E = C
      · subst hEC
        rw [count_cons_of_enters (enters_held.mpr hoC), hn]
        exact ⟨r, Function.update_self .., fun u => (endsAt_update hscc hne).trans (hiff u)⟩
      · have hoE : o ∉ E := fun hoE => hEC (hi.components.eq_of_mem hE hC hoE hoC)
        rw [count_cons_of_not fun henters => hoE henters.1]
        exact hi₁.other_finished hC hrC hrc hne hE hEC (hi₁.counted E hE)
    case pos =>
      intro E hE
      rw [references_cons, count_cons]
      exact (hi.pos E hE).trans (Nat.le_add_right ..)
    case fields =>
      intro x hx y hy
      refine (hi₁.fields x hx y hy).imp_right fun hy' => ⟨hy'.1, ?_⟩
      have hyr : y ≠ r := by
        rintro rfl
        exact hy'.1 (List.mem_flatten.mpr ⟨C, hC, hrC⟩)
      rw [(reads_eq (Function.update_of_ne hyr ..)).1, hy'.2]
    case held_mem => exact List.forall_mem_cons.mpr ⟨ho, hi.held_mem⟩
    case bound => exact hbound
  · have hur : u ≠ r := by
      rintro rfl
      exact hu (List.mem_flatten.mpr ⟨C, hC, hrC⟩)
    rw [Function.update_of_ne hur, hsame u hc]

/-! ## Release -/

/-- What a release leaves. -/
structure Released (D : Descriptors) (h h' : ObjectHeap) (Cs : List (List ObjAddr)) (held : List ObjAddr)
    (alive freed orders : List (List ObjAddr)) (events : List (ObjectEvent ObjAddr)) (total : ℕ) :
    Prop where
  /-- These are all components. -/
  perm : (alive ++ freed).Perm Cs
  /-- The components in use. -/
  immutables : Immutables D h' alive held
  /-- There is no reference into the others. -/
  zero : ∀ C ∈ freed, count (references D.fields held alive.flatten) C = 0
  /-- They are gone. -/
  gone : ∀ C ∈ freed, ∀ x ∈ C, h' x = none
  /-- Other words are those of before. -/
  outside : ∀ u ∉ Cs.flatten, h.getClass u ≠ some .sccPtr → h' u = h u
  /-- The objects of the components that were freed, in the order in which they were deallocated. -/
  ordered : List.Forall₂ List.Perm orders freed
  /-- What was done. -/
  events_eq : events = orders.reverse.flatMap (componentEvents D Cs)
  /-- The size of what was deallocated. -/
  total_eq : total = (orders.flatten.map D.size).sum

/-- A reference is released. -/
theorem references_erase (ho : o ∈ held) (vertices : List ObjAddr) :
    (references D.fields held vertices).Perm
      ((none, o) :: references D.fields (held.erase o) vertices) := by
  have hperm := (List.perm_cons_erase ho).map (Prod.mk (none : Option ObjAddr))
  exact hperm.append_right _

/-- There are not more components than addresses. -/
theorem Immutables.length_le (hi : Immutables D h Cs held) : Cs.length ≤ 2 ^ 64 := by
  have hne : ∀ C ∈ Cs, 1 ≤ C.length := by
    intro C hC
    obtain ⟨r, hrC, -⟩ := (hi.counted C hC).exists_root (by decide)
    exact List.length_pos_of_mem hrC
  have hsum : Cs.length ≤ (Cs.map List.length).sum := by
    have hle := List.card_nsmul_le_sum (Cs.map List.length) 1 fun n hn => by
      obtain ⟨C, hC, rfl⟩ := List.mem_map.mp hn
      exact hne C hC
    simpa using hle
  rw [← List.length_flatten] at hsum
  exact hsum.trans (length_le_of_nodup hi.components.nodup)

/-- When the loop has come to its end the components that are left are exact. -/
theorem Freeing.released {s : Immutable} {alive freed orders : List (List ObjAddr)}
    (hs : Freeing D h Cs held alive [] freed orders s) (hcomponents : Components D.fields Cs)
    (hnull : null ∉ Cs.flatten) (hfields : ∀ x ∈ Cs.flatten, ∀ y ∈ D.fields x, Known h Cs y)
    (hheld : ∀ y ∈ held, y ∈ Cs.flatten) (hbound : (references D.fields held Cs.flatten).length < 2 ^ 60) :
    Released D h s.heap Cs held alive freed orders s.events s.total := by
  have hperm : (alive ++ freed).Perm Cs := by simpa using hs.perm
  have hcounted := hs.counted
  have hpos := hs.pos
  have hzero := hs.zero
  rw [List.append_nil] at hcounted hpos hzero
  rw [List.nil_append] at hzero
  have hnodup : (alive.flatten ++ freed.flatten).Nodup := by
    rw [← List.flatten_append]
    exact hperm.flatten.nodup_iff.mpr hcomponents.nodup
  have hsub : alive ⊆ Cs := fun C hC => hperm.mem_iff.mp (List.mem_append_left _ hC)
  have hmem : ∀ {x}, x ∈ alive.flatten → x ∈ Cs.flatten := fun hx =>
    hperm.flatten.mem_iff.mp (by rw [List.flatten_append]; exact List.mem_append_left _ hx)
  have hnull' : ∀ {x}, x ∈ Cs.flatten → (∀ E ∈ freed, x ∉ E) → x ∈ alive.flatten := by
    intro x hx hfreed
    have hx' := hperm.flatten.mem_iff.mpr hx
    rw [List.flatten_append] at hx'
    refine (List.mem_append.mp hx').resolve_right fun hx' => ?_
    obtain ⟨E, hE, hxE⟩ := List.mem_flatten.mp hx'
    exact hfreed E hE hxE
  -- No reference that counts leads to a component that was freed.
  have hnone : ∀ E ∈ freed, ∀ e ∈ references D.fields held alive.flatten, ¬ PathSearch.Enters E e := by
    intro E hE e he henters
    have hone := one_le_count he henters
    rw [hzero E hE] at hone
    omega
  refine ⟨hperm, ⟨?_, ?_, hs.grounded, hcounted, hpos, fun x hx y hy => ?_, fun y hy => ?_, ?_⟩, hzero,
    hs.gone, hs.outside, hs.ordered, hs.events, hs.total⟩
  · exact hcomponents.mono (List.nodup_append'.mp hnodup).1 hsub
  · exact fun hmem' => hnull (hmem hmem')
  · rcases hfields x (hmem hx) y hy with hyCs | ⟨hyCs, hshared⟩
    · refine .inl (hnull' hyCs fun E hE hyE => ?_)
      refine hnone E hE (some x, y) (mem_references.mpr (.inr ⟨x, hx, y, hy, rfl⟩)) ⟨hyE, ?_⟩
      intro u hu hxE
      obtain rfl := Option.some.inj hu
      exact (List.nodup_append'.mp hnodup).2.2 hx (List.mem_flatten.mpr ⟨E, hE, hxE⟩)
    · refine .inr ⟨fun hmem' => hyCs (hmem hmem'), ?_⟩
      rw [(reads_eq (hs.outside y hyCs (by rw [hshared]; decide))).1, hshared]
  · refine hnull' (hheld y hy) fun E hE hyE => ?_
    exact hnone E hE (none, y) (mem_references.mpr (.inl ⟨y, hy, rfl⟩)) (enters_held.mpr hyE)
  · have hsubl : alive.flatten.Sublist (alive ++ freed).flatten := by
      rw [List.flatten_append]
      exact List.sublist_append_left ..
    have hle := (hsubl.flatMap fun x => (D.fields x).map (Prod.mk (some x))).length_le
    have heq := (hperm.flatten.flatMap_right fun x => (D.fields x).map (Prod.mk (some x))).length_eq
    rw [references, List.length_append, PathSearch.sourced] at hbound ⊢
    omega

/-- A reference that is held is released: the components that no other reference reaches are freed. -/
theorem release_total (hi : Immutables D h Cs held) (hfuel : 2 ^ 64 ≤ fuel) (ho : o ∈ held) :
    ∃ h' events total alive freed orders, release D fuel h o = some (h', events, total) ∧
      Released D h h' Cs (held.erase o) alive freed orders events total := by
  obtain ⟨C, hC, hoC⟩ := List.mem_flatten.mp (hi.held_mem o ho)
  obtain ⟨r, h₁, himm, hi₁, hrC, hr, hiff, hsame⟩ := hi.immutable_total hfuel hC hoC
  have hrc : h₁.getClass r = some .rc := by rw [getClass_of_some hr, Header.getClass_ofCount]
  have hscc : h₁.getScc r = none := getScc_eq_none (by rw [hrc]; decide)
  have hrCs : r ∈ Cs.flatten := List.mem_flatten.mpr ⟨C, hC, hrC⟩
  have hperm := references_erase (D := D) ho Cs.flatten
  have hcount : ∀ E, count (references D.fields held Cs.flatten) E =
      count ((none, o) :: references D.fields (held.erase o) Cs.flatten) E := fun E => count_perm hperm
  have hother : ∀ E ∈ Cs, E ≠ C → count (references D.fields held Cs.flatten) E =
      count (references D.fields (held.erase o) Cs.flatten) E := by
    intro E hE hEC
    have hoE : o ∉ E := fun hoE => hEC (hi.components.eq_of_mem hE hC hoE hoC)
    rw [hcount, count_cons_of_not fun henters => hoE henters.1]
  have hheld : ∀ y ∈ held.erase o, y ∈ Cs.flatten := fun y hy => hi.held_mem y (List.mem_of_mem_erase hy)
  have hbound : (references D.fields (held.erase o) Cs.flatten).length < 2 ^ 60 := by
    have hlength := hperm.length_eq
    rw [List.length_cons] at hlength
    have hlt := hi.bound
    omega
  rw [hcount, count_cons_of_enters (enters_held.mpr hoC)] at hr
  obtain ⟨n, hn⟩ : ∃ n, count (references D.fields (held.erase o) Cs.flatten) C = n := ⟨_, rfl⟩
  rw [hn] at hr
  cases n with
  | succ n =>
    -- Other references are left.
    have hlt : n + 2 < 2 ^ 60 := by
      have hle : count (references D.fields held Cs.flatten) C ≤ _ := List.countP_le_length ..
      rw [hcount, count_cons_of_enters (enters_held.mpr hoC), hn] at hle
      have hlt := hi.bound
      omega
    have hword : Header.getClass (Header.ofCount (n + 1) .rc) = some .rc := Header.getClass_ofCount ..
    have hne : Header.getClass (Header.ofCount (n + 1) .rc) ≠ some .sccPtr := by rw [hword]; decide
    refine ⟨Function.update h₁ r (some (Header.ofCount (n + 1) .rc)), [], 0, Cs, [], [], ?_, ?_⟩
    · rw [release, himm]
      simp only [bind, Option.bind_some, decref_succ (.inl rfl) hlt hr, Bool.false_eq_true, if_false]
    · refine ⟨by simp, ⟨hi.components, hi.ne_null, ?_, fun E hE => ?_, fun E hE => ?_, fun x hx y hy => ?_,
        hheld, hbound⟩, fun _ hC => absurd hC List.not_mem_nil, fun _ hC => absurd hC List.not_mem_nil,
        fun u hu hc => ?_, .nil, rfl, rfl⟩
      · exact hi₁.grounded.update hscc hrc hword (by decide) (.inl rfl)
      · by_cases hEC : E = C
        · subst hEC
          rw [hn]
          exact ⟨r, Function.update_self .., fun u => (endsAt_update hscc hne).trans (hiff u)⟩
        · rw [← hother E hE hEC]
          exact hi₁.other_finished hC hrC hrc hne hE hEC (hi₁.counted E hE)
      · by_cases hEC : E = C
        · rw [hEC, hn]
          omega
        · rw [← hother E hE hEC]
          exact hi.pos E hE
      · refine (hi₁.fields x hx y hy).imp_right fun hy' => ⟨hy'.1, ?_⟩
        have hyr : y ≠ r := by
          rintro rfl
          exact hy'.1 hrCs
        rw [(reads_eq (Function.update_of_ne hyr ..)).1, hy'.2]
      · have hur : u ≠ r := by
          rintro rfl
          exact hu hrCs
        rw [Function.update_of_ne hur, hsame u hc]
  | zero =>
    -- This was the last one.
    obtain ⟨t, h₂, himm₂, hi₂, htC, ht, htiff, hsame₂⟩ := hi₁.immutable_total hfuel hC hrC
    have hr₂ : h₂ r = h₁ r := hsame₂ r (by rw [hrc]; decide)
    have hrc₂ : h₂.getClass r = some .rc := by rw [(reads_eq hr₂).1, hrc]
    have hrt : t = r := ((htiff r).mpr hrC).eq_of_getClass (by rw [hrc₂]; decide)
    subst hrt
    obtain ⟨before, after, hCs⟩ := List.append_of_mem hC
    have hnullr : t ≠ null := fun heq => hi.ne_null (heq ▸ hrCs)
    obtain ⟨hpush, hstacked⟩ := stacked_nil.push (hr₂.trans hr) hnullr List.not_mem_nil
    have hword : Header.getClass (Header.ofAddress LinkedObjectStack.nil.header .unmarked) =
        some .unmarked := Header.getClass_ofAddress ..
    generalize Header.ofAddress LinkedObjectStack.nil.header .unmarked = word at hpush hstacked hword
    have hne : Header.getClass word ≠ some .sccPtr := by rw [hword]; decide
    have hscc₂ : h₂.getScc t = none := getScc_eq_none (by rw [hrc₂]; decide)
    have hall : (before ++ after ++ [C]).Perm Cs := by
      rw [hCs, List.append_assoc]
      exact List.Perm.append_left _ List.perm_append_comm
    have hnot : C ∉ before ++ after := by
      intro hmem
      have hnodup := hall.flatten.nodup_iff.mpr hi.components.nodup
      rw [List.flatten_append] at hnodup
      exact (List.nodup_append'.mp hnodup).2.2 (List.mem_flatten.mpr ⟨C, hmem, htC⟩) (by simpa using htC)
    have hreferences : ∀ E, count (references D.fields (held.erase o) (before ++ after ++ [C]).flatten) E =
        count (references D.fields (held.erase o) Cs.flatten) E := fun E =>
      count_perm ((hall.flatten.flatMap_right _).append_left _)
    have hstart : Freeing D h Cs (held.erase o) (before ++ after) [C] [] []
        ⟨Function.update h₂ t (some word), ⟨t⟩, .nil, .nil, [], 0⟩ := by
      constructor
      case perm => rwa [List.append_nil]
      case grounded => exact hi₂.grounded.update hscc₂ hrc₂ hword (by decide) (.inr rfl)
      case counted =>
        intro E hE
        have hECs : E ∈ Cs := hall.mem_iff.mp (List.mem_append_left _ hE)
        have hEC : E ≠ C := fun heq => hnot (heq ▸ hE)
        rw [hreferences, ← hother E hECs hEC]
        exact hi₂.other_finished hC htC hrc₂ hne hECs hEC (hi₂.counted E hECs)
      case pos =>
        intro E hE
        have hECs : E ∈ Cs := hall.mem_iff.mp (List.mem_append_left _ hE)
        rw [hreferences, ← hother E hECs fun heq => hnot (heq ▸ hE)]
        exact hi.pos E hECs
      case zero =>
        intro E hE
        rw [List.append_nil, List.mem_singleton] at hE
        rw [hreferences, hE, hn]
      case dfs => exact ⟨[t], hstacked, .cons (fun u => (endsAt_update hscc₂ hne).trans (htiff u)) .nil⟩
      case gone => exact fun _ hE => absurd hE List.not_mem_nil
      case outside =>
        intro u hu hc
        have hut : u ≠ t := by
          rintro rfl
          exact hu hrCs
        have hc₁ : h₁.getClass u ≠ some .sccPtr := by rwa [(reads_eq (hsame u hc)).1]
        exact (Function.update_of_ne hut ..).trans ((hsame₂ u hc₁).trans (hsame u hc))
      case scc => rfl
      case fl => rfl
      case ordered => exact .nil
      case events => rfl
      case total => rfl
    have hlength := ((hall.flatten.flatMap_right fun x => (D.fields x).map (Prod.mk (some x))).append_left
      ((held.erase o).map (Prod.mk none))).length_eq
    obtain ⟨s', alive, freed, orders, hloop, hs'⟩ := freeLoop_total (n := fuel) hstart hi.components
      hi.ne_null hi.fields hfuel
      (hlength.trans_lt hbound) (hall.length_eq.trans_le (hi.length_le.trans hfuel))
    refine ⟨s'.heap, s'.events, s'.total, alive, freed, orders, ?_,
      hs'.released hi.components hi.ne_null hi.fields hheld hbound⟩
    rw [release, himm]
    simp only [bind, Option.bind_some, decref_one (.inl rfl) hr, if_true, free, himm₂, ne_eq,
      not_true_eq_false, if_false, hpush, hloop]

end

end VeronaRt.Immutable
