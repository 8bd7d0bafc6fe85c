import VeronaFs.Foundation.Fragments
import VeronaFs.Runtime.Freeze
import VeronaFs.Runtime.FreezeCollapse

/-!
# The sweep of a freeze

After the search `Freeze::apply` goes through the objects of the region by the fragments of its two
rings: the objects that were not reached are finalised and put on a stack, the roots of components get
atomic counts.  Then the objects on the stack are destructed and deallocated.

`Sweeping` says what the loop has done so far, `sweepLoop_fragments` that it goes through all fragments,
in whatever order their starts are on the stack `objects`.
-/

set_option linter.unusedSectionVars false

namespace VeronaRt

open Foundation

/-- The word of a root after its count was made atomic. -/
def Header.atomic (bits : BitVec 64) : BitVec 64 :=
  if Header.getClass bits = some .nonatomicRc then bits &&& ~~~Header.MASK ||| RegionMD.rc.value
  else bits

/-- Other words are not changed. -/
theorem Header.atomic_of_ne {bits : BitVec 64} (h : Header.getClass bits ≠ some .nonatomicRc) :
    Header.atomic bits = bits := if_neg h

/-- A count that is made atomic is atomic. -/
theorem Header.atomic_ofCount (n : ℕ) :
    Header.atomic (Header.ofCount n .nonatomicRc) = Header.ofCount n .rc := by
  rw [Header.atomic, if_pos (Header.getClass_ofCount ..), Header.ofCount_atomic]

namespace Freeze

open ObjectHeap LinkedObjectStack

/-- What is done to an object when it is finalised. -/
def finaliseEvents (D : Descriptors) (p : ObjAddr) : List (ObjectEvent ObjAddr) :=
  match D.finaliser p with
  | none => []
  | some isos => .finalise p :: isos.map .releaseInternal

/-- What is done to an object when it is deallocated. -/
def deallocEvents (D : Descriptors) (p : ObjAddr) : List (ObjectEvent ObjAddr) :=
  (if D.hasDestructor p then [.destructor p] else []) ++ [.dealloc p]

/-- An object of the region `reg` that was not reached. -/
structure Dead (D : Descriptors) (h : ObjectHeap) (reg p : ObjAddr) : Prop where
  /-- It is mutable. -/
  getClass_eq : h.getClass p = some .unmarked
  /-- It is not the metadata object. -/
  ne_reg : p ≠ reg
  /-- Its address is not null. -/
  ne_null : p ≠ null
  /-- Its finaliser adds entry points of other regions. -/
  isos : ∀ isos, D.finaliser p = some isos → ∀ q ∈ isos, h.getClass q = some .iso

/-- An object at which a fragment of a ring of the region `reg` stops. -/
def Stop (h : ObjectHeap) (reg p : ObjAddr) : Prop :=
  h.getClass p = some .nonatomicRc ∨ h.getClass p = some .sccPtr ∨
    p = reg ∧ h.getClass p = some .marked

/-- The sweep that started with the heap `h` has finalised the objects `swept`, in this order, and come
to the stops `stops`. -/
structure Sweeping (D : Descriptors) (h : ObjectHeap) (events : List (ObjectEvent ObjAddr))
    (swept stops : List ObjAddr) (s : Sweep) : Prop where
  /-- The objects are on the stack. -/
  stacked : Stacked s.heap s.toDealloc swept.reverse
  /-- They were mutable. -/
  mutable : ∀ o ∈ swept, h.getClass o = some .unmarked
  /-- No object is finalised twice. -/
  nodup : swept.Nodup
  /-- The words of other objects. -/
  word : ∀ o ∉ swept, s.heap o = if o ∈ stops then (h o).map Header.atomic else h o
  /-- What was done. -/
  events_eq : s.events = events ++ swept.flatMap (finaliseEvents D)

variable {D : Descriptors} {h : ObjectHeap} {events : List (ObjectEvent ObjAddr)}
  {swept stops : List ObjAddr} {s : Sweep} {reg o p q u : ObjAddr} {c : RegionMD}

namespace Sweeping

/-- The word of an object without a count that is not atomic. -/
theorem word_eq (hs : Sweeping D h events swept stops s) (ho : o ∉ swept)
    (hc : h.getClass o ≠ some .nonatomicRc) : s.heap o = h o := by
  rw [hs.word o ho]
  split
  · cases hword : h o with
    | none => rfl
    | some bits =>
      rw [getClass_of_some hword] at hc
      rw [Option.map_some, Header.atomic_of_ne hc]
  · rfl

/-- An object of another class than the mutable ones was not finalised. -/
theorem not_mem (hs : Sweeping D h events swept stops s) (hc : h.getClass o ≠ some .unmarked) :
    o ∉ swept := fun ho => hc (hs.mutable o ho)

/-- An object that was not reached is finalised. -/
theorem push (hs : Sweeping D h events swept stops s) (hp : Dead D h reg p) (hnew : p ∉ swept)
    (k : ℕ) : ∃ s', Sweeping D h events (swept ++ [p]) stops s' ∧ s'.objects = s.objects ∧
      ∀ next, h.getNext p = some next → sweepLoop D reg (k + 1) s p = sweepLoop D reg k s' next := by
  have hword : s.heap p = h p := hs.word_eq hnew (by rw [hp.getClass_eq]; decide)
  have hclass : s.heap.getClass p = some .unmarked := by rw [(reads_eq hword).1, hp.getClass_eq]
  obtain ⟨bits, hbits⟩ := exists_of_getClass hclass
  have hout : p ∉ swept.reverse := fun hmem => hnew (List.mem_reverse.mp hmem)
  obtain ⟨hpush, hstacked⟩ := hs.stacked.push hbits hp.ne_null hout
  have hfinalise : finalise D s.heap p = some (finaliseEvents D p) := by
    rw [finalise, finaliseEvents]
    cases hfin : D.finaliser p with
    | none => rfl
    | some isos =>
      refine if_pos fun q hq => ?_
      have hq' := hp.isos isos hfin q hq
      rw [(reads_eq (hs.word_eq (hs.not_mem (by rw [hq']; decide)) (by rw [hq']; decide))).1, hq']
  refine ⟨⟨Function.update s.heap p (some (Header.ofAddress s.toDealloc.header .unmarked)), s.objects,
    ⟨p⟩, s.events ++ finaliseEvents D p⟩, ?_, rfl, fun next hnext => ?_⟩
  · refine ⟨?_, ?_, ?_, ?_, ?_⟩
    · rw [List.reverse_append, List.reverse_singleton, List.singleton_append]
      exact hstacked
    · intro o ho
      rcases List.mem_append.mp ho with ho | ho
      · exact hs.mutable o ho
      · rw [List.mem_singleton.mp ho, hp.getClass_eq]
    · exact List.nodup_append'.mpr ⟨hs.nodup, List.nodup_singleton p,
        fun o ho hop => hnew (List.mem_singleton.mp hop ▸ ho)⟩
    · intro o ho
      rw [List.mem_append, List.mem_singleton, not_or] at ho
      exact (Function.update_of_ne ho.2 ..).trans (hs.word o ho.1)
    · dsimp only
      rw [hs.events_eq, List.flatMap_append, List.append_assoc, List.flatMap_singleton]
  · have hnext' : s.heap.getNext p = some next := by
      rw [← hnext, getNext, getNext, hword]
    rw [sweepLoop]
    simp only [hclass, hnext', hfinalise, hpush, bind, Option.bind_some, if_neg hp.ne_reg]

/-- A run of objects that were not reached is finalised. -/
theorem finaliseRun {l : List ObjAddr} (hs : Sweeping D h events swept stops s)
    (hpath : Path h.getNext l (some p) (some u)) (hdead : ∀ o ∈ l, Dead D h reg o)
    (hnodup : (swept ++ l).Nodup) (k : ℕ) :
    ∃ s', Sweeping D h events (swept ++ l) stops s' ∧ s'.objects = s.objects ∧
      sweepLoop D reg (l.length + k) s p = sweepLoop D reg k s' u := by
  induction l generalizing swept s p with
  | nil =>
    obtain rfl := Option.some.inj (show some p = some u from hpath)
    refine ⟨s, by rwa [List.append_nil], rfl, ?_⟩
    rw [List.length_nil, Nat.zero_add]
  | cons x l ih =>
    obtain ⟨hx, hpath⟩ := hpath
    obtain rfl := Option.some.inj hx
    have hnew : p ∉ swept := fun hp => (List.nodup_append'.mp hnodup).2.2 hp List.mem_cons_self
    obtain ⟨next, hnext⟩ : ∃ next, h.getNext p = some next := by
      cases l with
      | nil => exact ⟨u, hpath⟩
      | cons y l => exact ⟨y, hpath.1⟩
    rw [hnext] at hpath
    obtain ⟨s₁, hs₁, hobjects₁, hloop₁⟩ :=
      hs.push (hdead p List.mem_cons_self) hnew (l.length + k)
    have hnodup₁ : (swept ++ [p] ++ l).Nodup := by
      rwa [List.append_assoc, List.singleton_append]
    obtain ⟨s', hs', hobjects', hloop'⟩ :=
      ih hs₁ hpath (fun o ho => hdead o (List.mem_cons_of_mem p ho)) hnodup₁
    refine ⟨s', ?_, hobjects'.trans hobjects₁, ?_⟩
    · rwa [List.append_assoc, List.singleton_append] at hs'
    · rw [List.length_cons, Nat.add_right_comm, hloop₁ next hnext, hloop']

/-- The part of the rings that comes next. -/
def nextPart (D : Descriptors) (reg : ObjAddr) (k : ℕ) (s : Sweep) : Option Sweep :=
  match s.objects with
  | [] => some s
  | p :: objects => sweepLoop D reg k { s with objects := objects } p

/-- At a stop the loop goes on with the next part. -/
theorem passStop (hs : Sweeping D h events swept stops s) (hstop : Stop h reg u) (k : ℕ) :
    ∃ s', Sweeping D h events swept (u :: stops) s' ∧ s'.objects = s.objects ∧
      sweepLoop D reg (k + 1) s u = nextPart D reg k s' := by
  have hnot : u ∉ swept := by
    refine hs.not_mem ?_
    rcases hstop with h | h | ⟨-, h⟩ <;> rw [h] <;> decide
  have hmore : ∀ s' : Sweep, s'.toDealloc = s.toDealloc → s'.events = s.events →
      (∀ o, o ≠ u → s'.heap o = s.heap o) → s'.heap u = (h u).map Header.atomic →
      Sweeping D h events swept (u :: stops) s' := by
    intro s' htop hevents hother hword
    refine ⟨?_, hs.mutable, hs.nodup, ?_, by rw [hevents, hs.events_eq]⟩
    · rw [htop]
      refine hs.stacked.congr fun o ho => hother o ?_
      rintro rfl
      exact hnot (List.mem_reverse.mp ho)
    · intro o ho
      by_cases hos : o = u
      · rw [hos, if_pos List.mem_cons_self, hword]
      · rw [hother o hos, hs.word o ho]
        simp [hos]
  have hsame : h.getClass u ≠ some .nonatomicRc → s.heap u = (h u).map Header.atomic := by
    intro hc
    rw [hs.word_eq hnot hc]
    cases hword : h u with
    | none => rfl
    | some bits =>
      rw [getClass_of_some hword] at hc
      rw [Option.map_some, Header.atomic_of_ne hc]
  rcases hstop with hc | hc | ⟨rfl, hc⟩
  · obtain ⟨bits, hbits⟩ := exists_of_getClass hc
    have hbc : Header.getClass bits = some .nonatomicRc := by rw [← getClass_of_some hbits, hc]
    by_cases hold : u ∈ stops
    · have hword : s.heap u = (h u).map Header.atomic := by rw [hs.word u hnot, if_pos hold]
      have hclass : s.heap.getClass u = some .rc := by
        rw [hbits, Option.map_some, ← Header.ofCount_count hbc, Header.atomic_ofCount] at hword
        rw [getClass_of_some hword, Header.getClass_ofCount]
      refine ⟨s, hmore s rfl rfl (fun _ _ => rfl) hword, rfl, ?_⟩
      rw [sweepLoop]
      simp only [hclass, bind, Option.bind_some]
      rfl
    · have hword : s.heap u = some bits := by rw [hs.word u hnot, if_neg hold, hbits]
      have hclass : s.heap.getClass u = some .nonatomicRc := by rw [getClass_of_some hword, hbc]
      have hatomic : bits &&& ~~~Header.MASK ||| RegionMD.rc.value = Header.atomic bits := by
        rw [Header.atomic, if_pos hbc]
      have hmake : s.heap.makeAtomic u =
          some (Function.update s.heap u (some (Header.atomic bits))) := by
        rw [makeAtomic, hword]
        simp only [bind, Option.bind_some, hbc, if_true, hatomic]
        exact write_of_some hword
      refine ⟨{ s with heap := Function.update s.heap u (some (Header.atomic bits)) },
        hmore _ rfl rfl (fun o ho => Function.update_of_ne ho ..) ?_, rfl, ?_⟩
      · rw [hbits, Option.map_some]
        exact Function.update_self ..
      · rw [sweepLoop]
        simp only [hclass, hmake, bind, Option.bind_some]
        rfl
  · have hclass : s.heap.getClass u = some .sccPtr := by
      rw [(reads_eq (hs.word_eq hnot (by rw [hc]; decide))).1, hc]
    refine ⟨s, hmore s rfl rfl (fun _ _ => rfl) (hsame (by rw [hc]; decide)), rfl, ?_⟩
    rw [sweepLoop]
    simp only [hclass, bind, Option.bind_some]
    rfl
  · have hclass : s.heap.getClass u = some .marked := by
      rw [(reads_eq (hs.word_eq hnot (by rw [hc]; decide))).1, hc]
    refine ⟨s, hmore s rfl rfl (fun _ _ => rfl) (hsame (by rw [hc]; decide)), rfl, ?_⟩
    rw [sweepLoop]
    simp only [hclass, bind, Option.bind_some, if_true]
    rfl

end Sweeping

/-- The loop goes through all fragments, whatever the order of their starts. -/
theorem sweepLoop_fragments {frags : List (List ObjAddr × ObjAddr)} {f : List ObjAddr × ObjAddr}
    (hs : Sweeping D h events swept stops s) (hobjects : s.objects.Perm (frags.map start))
    (hpath : ∀ g ∈ f :: frags, Path h.getNext g.1 (some (start g)) (some g.2))
    (hdead : ∀ g ∈ f :: frags, ∀ o ∈ g.1, Dead D h reg o)
    (hstop : ∀ g ∈ f :: frags, Stop h reg g.2)
    (hnodup : (swept ++ (f :: frags).flatMap Prod.fst).Nodup) (k : ℕ) :
    ∃ s' order stops', sweepLoop D reg
        (((f :: frags).flatMap Prod.fst).length + (frags.length + 1) + k) s (start f) = some s' ∧
      s'.objects = [] ∧ Sweeping D h events (swept ++ order) stops' s' ∧
      order.Perm ((f :: frags).flatMap Prod.fst) ∧
      ∀ o, o ∈ stops' ↔ o ∈ stops ∨ o ∈ (f :: frags).map Prod.snd := by
  obtain ⟨n, hn⟩ : ∃ n, frags.length = n := ⟨_, rfl⟩
  induction n generalizing frags f swept stops s with
  | zero =>
    obtain rfl := List.length_eq_zero_iff.mp hn
    have hmem : f ∈ [f] := List.mem_singleton_self f
    have hfst : ([f].flatMap Prod.fst) = f.1 := List.flatMap_singleton ..
    rw [hfst] at hnodup ⊢
    obtain ⟨s₁, hs₁, hobjects₁, hloop₁⟩ :=
      hs.finaliseRun (hpath f hmem) (hdead f hmem) hnodup (k + 1)
    obtain ⟨s₂, hs₂, hobjects₂, hloop₂⟩ := hs₁.passStop (hstop f hmem) k
    have hnil : s₂.objects = [] := by
      rw [hobjects₂, hobjects₁]
      exact List.perm_nil.mp hobjects
    refine ⟨s₂, f.1, f.2 :: stops, ?_, hnil, hs₂, List.Perm.refl _, fun o => ?_⟩
    · have hfuel : f.1.length + ([] : List (List ObjAddr × ObjAddr)).length.succ + k =
          f.1.length + (k + 1) := by
        rw [List.length_nil]
        omega
      rw [hfuel, hloop₁, hloop₂, Sweeping.nextPart, hnil]
    · simp [or_comm]
  | succ n ih =>
    have hmem : f ∈ f :: frags := List.mem_cons_self
    have hflat : (f :: frags).flatMap Prod.fst = f.1 ++ frags.flatMap Prod.fst := List.flatMap_cons
    have hnodup₁ : (swept ++ f.1).Nodup := by
      rw [hflat, ← List.append_assoc] at hnodup
      exact (List.nodup_append'.mp hnodup).1
    -- The next start is that of some fragment.
    obtain ⟨u, objects, hobj⟩ : ∃ u objects, s.objects = u :: objects := by
      refine List.exists_cons_of_ne_nil fun hnil => ?_
      have hlen := hobjects.length_eq
      rw [hnil, List.length_map, hn] at hlen
      simp at hlen
    obtain ⟨g, hg, hug⟩ := List.mem_map.mp (hobjects.mem_iff.mp (hobj ▸ List.mem_cons_self))
    obtain ⟨frags₁, frags₂, rfl⟩ := List.append_of_mem hg
    have hperm : (frags₁ ++ g :: frags₂).Perm (g :: (frags₁ ++ frags₂)) := List.perm_middle
    have hobjects' : objects.Perm ((frags₁ ++ frags₂).map start) := by
      have hcons : (u :: objects).Perm (start g :: (frags₁ ++ frags₂).map start) := by
        rw [← hobj]
        exact hobjects.trans (hperm.map start)
      rw [hug] at hcons
      exact hcons.cons_inv
    have hsub : ∀ g' ∈ g :: (frags₁ ++ frags₂), g' ∈ f :: (frags₁ ++ g :: frags₂) := fun g' hg' =>
      List.mem_cons_of_mem f (hperm.mem_iff.mpr hg')
    have hlen : (frags₁ ++ frags₂).length = n := by
      have hlen := hperm.length_eq
      rw [hn, List.length_cons] at hlen
      omega
    have hflatPerm : ((frags₁ ++ g :: frags₂).flatMap Prod.fst).Perm
        ((g :: (frags₁ ++ frags₂)).flatMap Prod.fst) := hperm.flatMap_right _
    have hnodup₂ : (swept ++ f.1 ++ (g :: (frags₁ ++ frags₂)).flatMap Prod.fst).Nodup := by
      rw [hflat, ← List.append_assoc] at hnodup
      exact (hflatPerm.append_left _).nodup_iff.mp hnodup
    let m := ((g :: (frags₁ ++ frags₂)).flatMap Prod.fst).length + ((frags₁ ++ frags₂).length + 1) + k
    obtain ⟨s₁, hs₁, hobjects₁, hloop₁⟩ := hs.finaliseRun (hpath f hmem) (hdead f hmem) hnodup₁ (m + 1)
    obtain ⟨s₂, hs₂, hobjects₂, hloop₂⟩ := hs₁.passStop (hstop f hmem) m
    have hs₂' : Sweeping D h events (swept ++ f.1) (f.2 :: stops) { s₂ with objects := objects } :=
      { hs₂ with }
    obtain ⟨s', order, stops', hloop', hnil, hs', horder, hstops'⟩ :=
      ih hs₂' hobjects' (fun g' hg' => hpath g' (hsub g' hg')) (fun g' hg' => hdead g' (hsub g' hg'))
        (fun g' hg' => hstop g' (hsub g' hg')) hnodup₂ hlen
    refine ⟨s', f.1 ++ order, stops', ?_, hnil, ?_, ?_, fun o => ?_⟩
    · have hfuel : ((f :: (frags₁ ++ g :: frags₂)).flatMap Prod.fst).length +
          ((frags₁ ++ g :: frags₂).length + 1) + k = f.1.length + (m + 1) := by
        rw [hflat, List.length_append, hflatPerm.length_eq, hperm.length_eq, List.length_cons]
        omega
      rw [hfuel, hloop₁, hloop₂, Sweeping.nextPart, hobjects₂, hobjects₁, hobj, ← hug]
      exact hloop'
    · rwa [List.append_assoc] at hs'
    · rw [hflat]
      exact (horder.trans hflatPerm.symm).append_left _
    · have hmap : o ∈ (frags₁ ++ g :: frags₂).map Prod.snd ↔
          o ∈ (g :: (frags₁ ++ frags₂)).map Prod.snd := (hperm.map Prod.snd).mem_iff
      rw [hstops', List.mem_cons, List.map_cons (l := frags₁ ++ g :: frags₂), List.mem_cons, hmap]
      tauto

/-! ## Deallocation -/

/-- The loop destructs and deallocates the objects on the stack. -/
theorem deallocLoop_eq (events : List (ObjectEvent ObjAddr)) {st : LinkedObjectStack}
    {l : List ObjAddr} {fuel : ℕ} (hst : Stacked h st l) (hnodup : l.Nodup) (hfuel : l.length ≤ fuel) :
    ∃ h', deallocLoop D fuel h st events = some (h', events ++ l.flatMap (deallocEvents D)) ∧
      ∀ o, h' o = if o ∈ l then none else h o := by
  induction l generalizing h st events fuel with
  | nil =>
    have hempty := hst.empty_eq
    refine ⟨h, ?_, fun o => (if_neg List.not_mem_nil).symm⟩
    cases fuel with
    | zero => rw [deallocLoop, hempty]; simp
    | succ fuel => rw [deallocLoop, hempty]; simp
  | cons q l ih =>
    obtain ⟨fuel, rfl⟩ := Nat.exists_eq_add_of_le' (Nat.le_of_add_left_le hfuel)
    obtain ⟨hq, hnodup⟩ := List.nodup_cons.mp hnodup
    have hempty := hst.empty_eq
    obtain ⟨bits, hbits⟩ := exists_of_getClass (hst.getClass List.mem_cons_self)
    obtain ⟨st', hpop, hst'⟩ := hst.pop
    have hother : ∀ o, o ≠ q → Function.update h q none o = h o := fun o ho =>
      Function.update_of_ne ho ..
    have hst'' : Stacked (Function.update h q none) st' l := hst'.congr fun o ho => hother o (by
      rintro rfl
      exact hq ho)
    obtain ⟨h', hloop, hword⟩ := ih (events ++ deallocEvents D q) hst'' hnodup
      (by simpa using hfuel)
    have hdealloc : h.dealloc q = some (Function.update h q none) := by
      rw [ObjectHeap.dealloc, hbits, Option.map_some]
    refine ⟨h', ?_, fun o => ?_⟩
    · rw [deallocLoop, hempty]
      simp only [List.isEmpty_cons, hpop, hdealloc, bind, Option.bind_some]
      rw [List.flatMap_cons, ← List.append_assoc, ← hloop, deallocEvents, List.append_assoc]
      rfl
    · by_cases hoq : o = q
      · subst hoq
        simp [hword, hq]
      · simp [hword, hoq]

end Freeze

end VeronaRt
