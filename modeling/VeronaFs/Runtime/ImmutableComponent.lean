import VeronaFs.Foundation.Ledger
import VeronaFs.Runtime.HeapComponents
import VeronaFs.Runtime.Immutable

/-!
# The references of a component

The body of the outer loop of `Immutable::free` goes through the objects of a component.  `Visiting` is
its invariant: `left` are the references that still count, `S` and `L` are the objects on the stacks `scc`
and `fl`.  The components of the list `alive` have the count of the references in `left`, those of
`waiting` are on the stack `dfs`, and the headers of those of `freed` are gone.

`Visiting.classify` is the step: a reference does not count any more.  It may lead to an object of the
component that was not found yet, or be the last one to another component.
-/

set_option linter.unusedSectionVars false

namespace VeronaRt

open Foundation

namespace ObjectHeap

variable {h h' : ObjectHeap} {o r t w : ObjAddr} {bits : BitVec 64} {c : RegionMD}

/-! ## Objects without links -/

/-- An object that loses its link. -/
theorem getScc_cut (hbits : Header.getClass bits = some .unmarked) :
    getScc (Function.update h w (some bits)) = Function.update h.getScc w none := by
  funext o
  by_cases ho : o = w
  · subst ho
    rw [Function.update_self]
    refine getScc_eq_none ?_
    rw [getClass_update_self, hbits]
    decide
  · rw [Function.update_of_ne ho]
    exact (reads_eq (Function.update_of_ne ho ..)).2.1

/-- It is the end of its links now, and of those that led by it. -/
theorem EndsAt.cut (ho : h.EndsAt o r) (w : ObjAddr) (hbits : Header.getClass bits = some .unmarked) :
    EndsAt (Function.update h w (some bits)) o w ∨ EndsAt (Function.update h w (some bits)) o r := by
  obtain ⟨n, hn⟩ := ho
  rcases hn.cut w with ⟨m, hm⟩ | hr
  · exact .inl ⟨m, by rwa [getScc_cut hbits]⟩
  · exact .inr ⟨n, by rwa [getScc_cut hbits]⟩

/-- Other ends are those of before. -/
theorem EndsAt.of_cut (hw : h.EndsAt w r) (hbits : Header.getClass bits = some .unmarked)
    (ho : EndsAt (Function.update h w (some bits)) o t) : h.EndsAt o (if t = w then r else t) := by
  obtain ⟨m, hm⟩ := hw
  obtain ⟨n, hn⟩ := ho
  rw [getScc_cut hbits] at hn
  exact hm.of_cut hn

/-- Links still end. -/
theorem Grounded.cut (hg : h.Grounded) (hw : h w ≠ none) (hbits : Header.getClass bits = some .unmarked) :
    Grounded (Function.update h w (some bits)) := by
  intro o word ho
  obtain ⟨word', ho'⟩ : ∃ word', h o = some word' := by
    by_cases how : o = w
    · exact Option.ne_none_iff_exists'.mp (how ▸ hw)
    · exact ⟨word, by rw [← ho, Function.update_of_ne how]⟩
  obtain ⟨n, r, c, hleads, hc, hroot⟩ := hg o word' ho'
  have hself : getClass (Function.update h w (some bits)) w = some .unmarked := by
    rw [getClass_update_self, hbits]
  rw [getScc_cut hbits]
  rcases hleads.cut w with ⟨m, hm⟩ | hr
  · exact ⟨m, w, .unmarked, hm, hself, fun _ => rfl⟩
  · by_cases hrw : r = w
    · exact ⟨n, w, .unmarked, hrw ▸ hr, hself, fun _ => rfl⟩
    · exact ⟨n, r, c, hr, by rw [(reads_eq (Function.update_of_ne hrw ..)).1, hc], hroot⟩

end ObjectHeap

namespace Immutable

open ObjectHeap LinkedObjectStack Foundation.Ledger

/-! ## The invariant -/

/-- The objects are the roots of the components. -/
def Roots (h : ObjectHeap) : List ObjAddr → List (List ObjAddr) → Prop :=
  List.Forall₂ fun r C => ∀ o, h.EndsAt o r ↔ o ∈ C

/-- Only the links to the roots matter. -/
theorem Roots.congr {h h' : ObjectHeap} {tops : List ObjAddr} {Cs : List (List ObjAddr)}
    (hr : Roots h tops Cs)
    (hends : ∀ r ∈ tops, ∀ C ∈ Cs, (∀ o, h.EndsAt o r ↔ o ∈ C) → ∀ o, h'.EndsAt o r ↔ h.EndsAt o r) :
    Roots h' tops Cs := by
  induction hr with
  | nil => exact .nil
  | @cons r C tops Cs hiff _ ih =>
    have hrest := ih fun r' hr' C' hC' =>
      hends r' (List.mem_cons_of_mem r hr') C' (List.mem_cons_of_mem C hC')
    exact .cons (fun o => (hends r List.mem_cons_self C List.mem_cons_self hiff o).trans (hiff o)) hrest

/-- Each root has its component. -/
theorem Roots.exists_mem {h : ObjectHeap} {tops : List ObjAddr} {Cs : List (List ObjAddr)}
    (hr : Roots h tops Cs) {r : ObjAddr} (hmem : r ∈ tops) :
    ∃ C ∈ Cs, ∀ o, h.EndsAt o r ↔ o ∈ C := by
  induction hr with
  | nil => cases hmem
  | @cons r' C tops Cs hiff _ ih =>
    rcases List.mem_cons.mp hmem with rfl | hmem
    · exact ⟨C, List.mem_cons_self, hiff⟩
    · obtain ⟨E, hE, hiffE⟩ := ih hmem
      exact ⟨E, List.mem_cons_of_mem C hE, hiffE⟩

/-- The state of the loop over the objects of the component `V` with the root `v`. -/
structure Visiting (h₀ : ObjectHeap) (Cs alive waiting freed : List (List ObjAddr)) (V : List ObjAddr)
    (left : List (Option ObjAddr × ObjAddr)) (v : ObjAddr) (S L : List ObjAddr) (s : Immutable) :
    Prop where
  /-- These are all components. -/
  perm : (alive ++ waiting ++ V :: freed).Perm Cs
  /-- Links end. -/
  grounded : s.heap.Grounded
  /-- The components in use count the references into them. -/
  counted : ∀ C ∈ alive, s.heap.IsFinished C (count left C) .rc
  /-- There is one at least. -/
  pos : ∀ C ∈ alive, 1 ≤ count left C
  /-- There is none into the others. -/
  zero : ∀ C ∈ waiting ++ V :: freed, count left C = 0
  /-- The roots of the components to free are on a stack. -/
  dfs : ∃ tops, Stacked s.heap s.dfs tops ∧ Roots s.heap tops waiting
  /-- The objects of the components that were freed are gone. -/
  gone : ∀ C ∈ freed, ∀ x ∈ C, s.heap x = none
  /-- Other words are those of before. -/
  outside : ∀ o ∉ Cs.flatten, h₀.getClass o ≠ some .sccPtr → s.heap o = h₀ o
  /-- The links of the objects of the component end at those that were found. -/
  ends : ∀ o, o ∈ V ↔ ∃ r ∈ v :: (S ++ L), s.heap.EndsAt o r
  /-- These have no links. -/
  found : ∀ x ∈ v :: (S ++ L), s.heap.getClass x = some .unmarked
  /-- No object is found twice. -/
  nodup : (v :: (S ++ L)).Nodup
  /-- The objects whose references were not followed. -/
  scc : Stacked s.heap s.scc S
  /-- The objects whose references were followed. -/
  fl : Stacked s.heap s.fl L

section

variable {h₀ h' : ObjectHeap} {Cs alive waiting freed : List (List ObjAddr)} {V S L C : List ObjAddr}
  {left rest : List (Option ObjAddr × ObjAddr)} {o r u v w x : ObjAddr} {s : Immutable} {fuel n : ℕ}

/-! ## References -/

/-- An object of a component or a shared one. -/
def Known (h₀ : ObjectHeap) (Cs : List (List ObjAddr)) (w : ObjAddr) : Prop :=
  w ∈ Cs.flatten ∨ w ∉ Cs.flatten ∧ h₀.getClass w = some .shared

/-- What is done for a reference. -/
def releaseEvents (Cs : List (List ObjAddr)) (l : List ObjAddr) : List (ObjectEvent ObjAddr) :=
  (l.filter fun w => w ∉ Cs.flatten).map .release

/-- Nothing for a reference to a component. -/
theorem releaseEvents_of_mem (hw : w ∈ Cs.flatten) : releaseEvents Cs [w] = [] := by
  rw [releaseEvents, List.filter_cons_of_neg (by simpa only [decide_eq_true_eq, not_not] using hw)]
  rfl

/-- A release for a reference to a shared object. -/
theorem releaseEvents_of_not_mem (hw : w ∉ Cs.flatten) : releaseEvents Cs [w] = [.release w] := by
  rw [releaseEvents, List.filter_cons_of_pos (by simpa only [decide_eq_true_eq] using hw)]
  rfl

/-- References behind each other. -/
theorem releaseEvents_append (Cs : List (List ObjAddr)) (l l' : List ObjAddr) :
    releaseEvents Cs (l ++ l') = releaseEvents Cs l ++ releaseEvents Cs l' := by
  rw [releaseEvents, List.filter_append, List.map_append]
  rfl

namespace Visiting

/-- Only the counts of the references matter. -/
theorem congr_left (hv : Visiting h₀ Cs alive waiting freed V left v S L s)
    (hcount : ∀ C ∈ Cs, count rest C = count left C) :
    Visiting h₀ Cs alive waiting freed V rest v S L s := by
  have hmem : ∀ {C}, C ∈ alive ++ waiting ++ V :: freed → C ∈ Cs := fun hC => hv.perm.mem_iff.mp hC
  have hother : ∀ {C}, C ∈ waiting ++ V :: freed → C ∈ Cs := fun hC => hmem (by
    rw [List.append_assoc]
    exact List.mem_append_right _ hC)
  have halive : ∀ {C}, C ∈ alive → C ∈ Cs := fun hC => hmem (by simp [hC])
  exact { hv with
    counted := fun C hC => by rw [hcount C (halive hC)]; exact hv.counted C hC
    pos := fun C hC => by rw [hcount C (halive hC)]; exact hv.pos C hC
    zero := fun C hC => by rw [hcount C (hother hC)]; exact hv.zero C hC }

/-- Splitting paths does not matter. -/
theorem splits (hv : Visiting h₀ Cs alive waiting freed V left v S L s) (hs : Splits s.heap h') :
    Visiting h₀ Cs alive waiting freed V left v S L { s with heap := h' } := by
  have hends : ∀ {o r}, EndsAt h' o r ↔ s.heap.EndsAt o r := hs.endsAt_iff hv.grounded
  have hsame : ∀ {o}, s.heap.getClass o ≠ some .sccPtr → h' o = s.heap o := hs.unchanged _
  have hstack : ∀ {st l}, Stacked s.heap st l → Stacked h' st l := fun hst =>
    hst.congr fun o ho => hsame (by rw [hst.getClass ho]; decide)
  constructor
  case perm => exact hv.perm
  case grounded => exact hs.grounded hv.grounded
  case counted => exact fun C hC => (hv.counted C hC).splits hs hv.grounded (by decide)
  case pos => exact hv.pos
  case zero => exact hv.zero
  case dfs =>
    obtain ⟨tops, hstacked, htops⟩ := hv.dfs
    exact ⟨tops, hstack hstacked, htops.congr fun _ _ _ _ _ _ => hends⟩
  case gone =>
    intro C hC x hx
    have hnone := hv.gone C hC x hx
    show h' x = none
    rw [hsame (by rw [getClass, hnone]; decide), hnone]
  case outside =>
    intro o ho hc
    have hword := hv.outside o ho hc
    show h' o = h₀ o
    rw [hsame (by rwa [(reads_eq hword).1]), hword]
  case ends =>
    intro o
    rw [hv.ends o]
    exact exists_congr fun r => and_congr_right fun _ => hends.symm
  case found =>
    intro x hx
    show h'.getClass x = _
    rw [hs.getClass_eq, hv.found x hx]
  case nodup => exact hv.nodup
  case scc => exact hstack hv.scc
  case fl => exact hstack hv.fl

/-- What was found is of the component. -/
theorem mem_of_found (hv : Visiting h₀ Cs alive waiting freed V left v S L s) (hx : x ∈ v :: (S ++ L)) :
    x ∈ V :=
  (hv.ends x).mpr ⟨x, hx, endsAt_self (hv.found x hx) (by decide)⟩

/-- An object of the component is of no other one. -/
theorem not_mem_other (hv : Visiting h₀ Cs alive waiting freed V left v S L s) (hCs : Cs.flatten.Nodup)
    (hx : x ∈ V) : (∀ C ∈ alive, x ∉ C) ∧ (∀ C ∈ waiting, x ∉ C) ∧ ∀ C ∈ freed, x ∉ C := by
  have hnodup := hv.perm.flatten.nodup_iff.mpr hCs
  simp only [List.flatten_append, List.flatten_cons, List.nodup_append', List.disjoint_left,
    List.mem_append, List.mem_flatten, not_exists, not_and, forall_exists_index, and_imp] at hnodup
  refine ⟨fun C hC hxC => ?_, fun C hC hxC => ?_, fun C hC hxC => ?_⟩
  · exact hnodup.2.2 (.inl ⟨C, hC, hxC⟩) (.inl hx)
  · exact hnodup.2.2 (.inr ⟨C, hC, hxC⟩) (.inl hx)
  · exact hnodup.2.1.2.2 hx C hC hxC

/-- All components are of the list. -/
theorem mem_components (hv : Visiting h₀ Cs alive waiting freed V left v S L s)
    (hC : C ∈ alive ∨ C ∈ waiting ∨ C = V ∨ C ∈ freed) : C ∈ Cs := by
  refine hv.perm.mem_iff.mp ?_
  simp only [List.mem_append, List.mem_cons]
  tauto

/-- A reference that enters no component does not count. -/
theorem skip {e : Option ObjAddr × ObjAddr}
    (hv : Visiting h₀ Cs alive waiting freed V (e :: rest) v S L s)
    (he : ∀ C ∈ Cs, ¬ PathSearch.Enters C e) : Visiting h₀ Cs alive waiting freed V rest v S L s :=
  hv.congr_left fun C hC => (count_cons_of_not (he C hC)).symm

/-! ## Objects of the component -/

/-- An object of the component that was not found is put on the stack. -/
theorem push (hv : Visiting h₀ Cs alive waiting freed V left v S L s) (hCs : Cs.flatten.Nodup)
    (hnull : null ∉ Cs.flatten) (hw : w ∈ V) (hnew : w ∉ v :: (S ++ L)) :
    ∃ heap scc, s.scc.push s.heap w = some (heap, scc) ∧
      Visiting h₀ Cs alive waiting freed V left v (w :: S) L { s with heap := heap, scc := scc } := by
  obtain ⟨r, hr, hwr⟩ := (hv.ends w).mp hw
  have hclass : s.heap.getClass w = some .sccPtr := by
    by_contra hc
    exact hnew (hwr.eq_of_getClass hc ▸ hr)
  obtain ⟨bits, hbits⟩ := exists_of_getClass hclass
  have hwCs : w ∈ Cs.flatten := List.mem_flatten.mpr ⟨V, hv.mem_components (by simp), hw⟩
  have hwnull : w ≠ null := fun heq => hnull (heq ▸ hwCs)
  have hnewS : w ∉ S := fun hmem => hnew (List.mem_cons_of_mem _ (List.mem_append_left _ hmem))
  have hnewL : w ∉ L := fun hmem => hnew (List.mem_cons_of_mem _ (List.mem_append_right _ hmem))
  obtain ⟨hpush, hstacked⟩ := hv.scc.push hbits hwnull hnewS
  have hword : Header.getClass (Header.ofAddress s.scc.header .unmarked) = some .unmarked :=
    Header.getClass_ofAddress ..
  generalize Header.ofAddress s.scc.header .unmarked = word at hpush hstacked hword
  obtain ⟨hVa, hVw, hVf⟩ := hv.not_mem_other hCs hw
  -- Only the ends of objects of the component change.
  have hends : ∀ {t}, t ≠ w → t ≠ r → ∀ o,
      EndsAt (Function.update s.heap w (some word)) o t ↔ s.heap.EndsAt o t := by
    intro t htw htr o
    constructor
    · intro ho
      have ho' := hwr.of_cut hword ho
      rwa [if_neg htw] at ho'
    · intro ho
      rcases ho.cut w hword with hcut | hcut
      · have ho' := hwr.of_cut hword hcut
        rw [if_pos rfl] at ho'
        exact absurd (ho.unique ho') htr
      · exact hcut
  have hrV : r ∈ V := hv.mem_of_found hr
  have hother : ∀ {o}, o ≠ w → Function.update s.heap w (some word) o = s.heap o := fun ho =>
    Function.update_of_ne ho ..
  refine ⟨_, _, hpush, ?_⟩
  constructor
  case perm => exact hv.perm
  case grounded => exact hv.grounded.cut (by rw [hbits]; simp) hword
  case counted =>
    intro C hC
    obtain ⟨t, htC, ht, -, hiff⟩ := (hv.counted C hC).exists_root (by decide)
    have htw : t ≠ w := by
      rintro rfl
      exact hVa C hC htC
    have htr : t ≠ r := by
      rintro rfl
      exact (hv.not_mem_other hCs hrV).1 C hC htC
    exact ⟨t, by rw [← ht]; exact hother htw, fun o => (hends htw htr o).trans (hiff o)⟩
  case pos => exact hv.pos
  case zero => exact hv.zero
  case dfs =>
    obtain ⟨tops, htops, hall⟩ := hv.dfs
    have htop : ∀ t ∈ tops, t ≠ w ∧ t ≠ r := by
      intro t ht
      obtain ⟨C, hC, hiff⟩ := hall.exists_mem ht
      have htC : t ∈ C := (hiff t).mp (endsAt_self (htops.getClass ht) (by decide))
      refine ⟨?_, ?_⟩
      · rintro rfl
        exact hVw C hC htC
      · rintro rfl
        exact (hv.not_mem_other hCs hrV).2.1 C hC htC
    exact ⟨tops, htops.congr fun t ht => hother (htop t ht).1,
      hall.congr fun t ht _ _ _ => hends (htop t ht).1 (htop t ht).2⟩
  case gone =>
    intro C hC x hx
    have hxw : x ≠ w := by
      rintro rfl
      exact hVf C hC hx
    exact (hother hxw).trans (hv.gone C hC x hx)
  case outside =>
    intro o ho hc
    have how : o ≠ w := by
      rintro rfl
      exact ho hwCs
    exact (hother how).trans (hv.outside o ho hc)
  case ends =>
    intro o
    constructor
    · intro ho
      obtain ⟨t, ht, hot⟩ := (hv.ends o).mp ho
      rcases hot.cut w hword with hcut | hcut
      · exact ⟨w, by simp, hcut⟩
      · refine ⟨t, ?_, hcut⟩
        simp only [List.cons_append, List.mem_cons] at ht ⊢
        tauto
    · rintro ⟨t, ht, hot⟩
      have ho := hwr.of_cut hword hot
      by_cases htw : t = w
      · rw [if_pos htw] at ho
        exact (hv.ends o).mpr ⟨r, hr, ho⟩
      · rw [if_neg htw] at ho
        refine (hv.ends o).mpr ⟨t, ?_, ho⟩
        simp only [List.cons_append, List.mem_cons] at ht ⊢
        tauto
  case found =>
    intro x hx
    by_cases hxw : x = w
    · rw [hxw]
      exact getClass_update_self.trans hword
    · have hx' : x ∈ v :: (S ++ L) := by
        simp only [List.cons_append, List.mem_cons] at hx ⊢
        tauto
      exact (reads_eq (hother hxw)).1.trans (hv.found x hx')
  case nodup =>
    have hperm : (v :: (w :: S ++ L)).Perm (w :: v :: (S ++ L)) := List.Perm.swap ..
    exact hperm.nodup_iff.mpr (List.nodup_cons.mpr ⟨hnew, hv.nodup⟩)
  case scc => exact hstacked
  case fl =>
    refine hv.fl.congr fun x hx => hother ?_
    rintro rfl
    exact hnewL hx

/-! ## References to other components -/

/-- A write to the root of another component in use. -/
theorem touch (hv : Visiting h₀ Cs alive waiting freed V left v S L s) (hCs : Cs.flatten.Nodup)
    {word : BitVec 64} (hC : C ∈ alive) (hrC : r ∈ C) (hrc : s.heap.getClass r = some .rc)
    (hword : Header.getClass word = some .rc ∨ Header.getClass word = some .unmarked)
    {alive' waiting' : List (List ObjAddr)} {dfs : LinkedObjectStack}
    (hperm : (alive' ++ waiting' ++ V :: freed).Perm Cs)
    (hcounted : ∀ E ∈ alive',
      IsFinished (Function.update s.heap r (some word)) E (count rest E) .rc ∧ 1 ≤ count rest E)
    (hzero : ∀ E ∈ waiting' ++ V :: freed, count rest E = 0)
    (hdfs : ∃ tops, Stacked (Function.update s.heap r (some word)) dfs tops ∧
      Roots (Function.update s.heap r (some word)) tops waiting') :
    Visiting h₀ Cs alive' waiting' freed V rest v S L
      { s with heap := Function.update s.heap r (some word), dfs := dfs } := by
  have hscc : s.heap.getScc r = none := getScc_eq_none (by rw [hrc]; decide)
  have hne : Header.getClass word ≠ some .sccPtr := by
    rcases hword with h | h <;> rw [h] <;> decide
  have hrCs : r ∈ Cs.flatten := List.mem_flatten.mpr ⟨C, hv.mem_components (.inl hC), hrC⟩
  have hother : ∀ {o}, o ≠ r → Function.update s.heap r (some word) o = s.heap o := fun ho =>
    Function.update_of_ne ho ..
  have hrfound : ∀ x ∈ v :: (S ++ L), x ≠ r := by
    rintro x hx rfl
    exact (hv.not_mem_other hCs (hv.mem_of_found hx)).1 C hC hrC
  constructor
  case perm => exact hperm
  case grounded =>
    rcases hword with h | h
    · exact hv.grounded.update hscc hrc h (by decide) (.inl rfl)
    · exact hv.grounded.update hscc hrc h (by decide) (.inr rfl)
  case counted => exact fun E hE => (hcounted E hE).1
  case pos => exact fun E hE => (hcounted E hE).2
  case zero => exact hzero
  case dfs => exact hdfs
  case gone =>
    intro E hE x hx
    have hxr : x ≠ r := by
      rintro rfl
      have hclass : s.heap.getClass x = none := by rw [getClass, hv.gone E hE x hx]; rfl
      rw [hrc] at hclass
      cases hclass
    exact (hother hxr).trans (hv.gone E hE x hx)
  case outside =>
    intro o ho hc
    have hor : o ≠ r := by
      rintro rfl
      exact ho hrCs
    exact (hother hor).trans (hv.outside o ho hc)
  case ends =>
    intro o
    rw [hv.ends o]
    exact exists_congr fun t => and_congr_right fun _ => (endsAt_update hscc hne).symm
  case found => exact fun x hx => (reads_eq (hother (hrfound x hx))).1.trans (hv.found x hx)
  case nodup => exact hv.nodup
  case scc => exact hv.scc.congr fun x hx => hother (hrfound x (by simp [hx]))
  case fl => exact hv.fl.congr fun x hx => hother (hrfound x (by simp [hx]))

/-- A component in use is none of the others. -/
theorem perm_of_alive (hv : Visiting h₀ Cs alive waiting freed V left v S L s) (hCs : Cs.flatten.Nodup)
    {before after : List (List ObjAddr)} (halive : alive = before ++ C :: after) (hx : x ∈ C) :
    (before ++ after ++ (C :: waiting) ++ V :: freed).Perm Cs ∧
      (∀ E ∈ before ++ after, x ∉ E) ∧ ∀ E ∈ waiting ++ V :: freed, x ∉ E := by
  have hperm : (before ++ after ++ (C :: waiting) ++ V :: freed).Perm Cs := by
    refine List.Perm.trans ?_ hv.perm
    rw [halive]
    refine List.Perm.append_right _ ?_
    rw [List.append_assoc, List.append_assoc]
    exact (List.perm_middle).append_left _
  have hnodup : (C :: (before ++ after ++ (waiting ++ V :: freed))).flatten.Nodup := by
    refine (List.Perm.flatten ?_).nodup_iff.mp hCs
    refine hperm.symm.trans ?_
    rw [List.append_assoc, List.cons_append]
    exact List.perm_middle
  rw [List.flatten_cons] at hnodup
  have hdisj := (List.nodup_append'.mp hnodup).2.2 hx
  refine ⟨hperm, fun E hE hxE => hdisj ?_, fun E hE hxE => hdisj ?_⟩
  · exact List.mem_flatten.mpr ⟨E, List.mem_append_left _ hE, hxE⟩
  · exact List.mem_flatten.mpr ⟨E, List.mem_append_right _ hE, hxE⟩

/-- The last reference to another component. -/
theorem lastReference {e : Option ObjAddr × ObjAddr}
    (hv : Visiting h₀ Cs alive waiting freed V (e :: rest) v S L s) (hCs : Cs.flatten.Nodup)
    (hnull : null ∉ Cs.flatten) {before after : List (List ObjAddr)} (halive : alive = before ++ C :: after)
    (he : PathSearch.Enters C e) (hr : s.heap.EndsAt e.2 r) (hzero : count rest C = 0) :
    ∃ heap dfs, s.heap.decref r = some (true, s.heap) ∧ s.dfs.push s.heap r = some (heap, dfs) ∧
      Visiting h₀ Cs (before ++ after) (C :: waiting) freed V rest v S L
        { s with heap := heap, dfs := dfs } := by
  have hC : C ∈ alive := by rw [halive]; simp
  obtain ⟨t, htC, ht, htc, hiff⟩ := (hv.counted C hC).exists_root (by decide)
  obtain rfl := ((hiff e.2).mpr he.1).unique hr
  obtain ⟨hperm, hothers, hrest⟩ := hv.perm_of_alive hCs halive he.1
  have hskip : ∀ E, e.2 ∉ E → count (e :: rest) E = count rest E := fun E hE =>
    count_cons_of_not fun h => hE h.1
  have hone : count (e :: rest) C = 1 := by rw [count_cons_of_enters he, hzero]
  rw [hone] at ht
  have htnull : t ≠ null := by
    rintro rfl
    exact hnull (List.mem_flatten.mpr ⟨C, hv.mem_components (.inl hC), htC⟩)
  obtain ⟨tops, htops, hroots⟩ := hv.dfs
  obtain ⟨-, ht₁, ht₂⟩ := hv.perm_of_alive hCs halive htC
  have htopsnot : t ∉ tops := by
    intro hmem
    have hclass := htops.getClass hmem
    rw [htc] at hclass
    cases hclass
  obtain ⟨hpush, hstacked⟩ := htops.push ht htnull htopsnot
  have hword : Header.getClass (Header.ofAddress s.dfs.header .unmarked) = some .unmarked :=
    Header.getClass_ofAddress ..
  generalize Header.ofAddress s.dfs.header .unmarked = word at hpush hstacked hword
  have hscc : s.heap.getScc t = none := getScc_eq_none (by rw [htc]; decide)
  have hne : Header.getClass word ≠ some .sccPtr := by rw [hword]; decide
  refine ⟨_, _, decref_one (.inl rfl) ht, hpush, ?_⟩
  refine hv.touch hCs hC htC htc (.inr hword) hperm (fun E hE => ?_) (fun E hE => ?_) ?_
  · have hE' : E ∈ alive := by
      rw [halive]
      simp only [List.mem_append, List.mem_cons] at hE ⊢
      tauto
    rw [← hskip E (hothers E hE)]
    exact ⟨(hv.counted E hE').update hscc (ht₁ E hE) (by decide) hne, hv.pos E hE'⟩
  · rw [List.cons_append] at hE
    rcases List.mem_cons.mp hE with rfl | hE
    · exact hzero
    · rw [← hskip E (hrest E hE)]
      exact hv.zero E hE
  · exact ⟨t :: tops, hstacked, .cons (fun o => (endsAt_update hscc hne).trans (hiff o))
      (hroots.congr fun _ _ _ _ _ _ => endsAt_update hscc hne)⟩

/-- Another reference to another component. -/
theorem moreReferences {e : Option ObjAddr × ObjAddr}
    (hv : Visiting h₀ Cs alive waiting freed V (e :: rest) v S L s) (hCs : Cs.flatten.Nodup)
    (hbound : (e :: rest).length < 2 ^ 60) (hC : C ∈ alive) (he : PathSearch.Enters C e)
    (hr : s.heap.EndsAt e.2 r) (hpos : 1 ≤ count rest C) :
    ∃ heap, s.heap.decref r = some (false, heap) ∧
      Visiting h₀ Cs alive waiting freed V rest v S L { s with heap := heap } := by
  obtain ⟨before, after, halive⟩ := List.append_of_mem hC
  obtain ⟨t, htC, ht, htc, hiff⟩ := (hv.counted C hC).exists_root (by decide)
  obtain rfl := ((hiff e.2).mpr he.1).unique hr
  obtain ⟨-, hothers, hrest⟩ := hv.perm_of_alive hCs halive he.1
  have hskip : ∀ E, e.2 ∉ E → count (e :: rest) E = count rest E := fun E hE =>
    count_cons_of_not fun h => hE h.1
  obtain ⟨k, hk⟩ := Nat.exists_eq_add_of_le' hpos
  have hcount : count (e :: rest) C = k + 2 := by rw [count_cons_of_enters he, hk]
  have hlt : k + 2 < 2 ^ 60 := by
    rw [← hcount]
    exact (List.countP_le_length ..).trans_lt hbound
  rw [hcount] at ht
  obtain ⟨-, ht₁, -⟩ := hv.perm_of_alive hCs halive htC
  obtain ⟨tops, htops, hroots⟩ := hv.dfs
  have hword : Header.getClass (Header.ofCount (k + 1) .rc) = some .rc := Header.getClass_ofCount ..
  have hscc : s.heap.getScc t = none := getScc_eq_none (by rw [htc]; decide)
  have hne : Header.getClass (Header.ofCount (k + 1) .rc) ≠ some .sccPtr := by rw [hword]; decide
  refine ⟨_, decref_succ (.inl rfl) hlt ht, ?_⟩
  show Visiting h₀ Cs alive waiting freed V rest v S L
    { s with heap := Function.update s.heap t _, dfs := s.dfs }
  refine hv.touch hCs hC htC htc (.inl hword) hv.perm (fun E hE => ?_) (fun E hE => ?_) ?_
  · by_cases hxE : e.2 ∈ E
    · have hEC : E = C := by
        have hE' := hE
        rw [halive] at hE'
        rcases List.mem_append.mp hE' with hE' | hE'
        · exact absurd hxE (hothers E (List.mem_append_left _ hE'))
        · rcases List.mem_cons.mp hE' with rfl | hE'
          · rfl
          · exact absurd hxE (hothers E (List.mem_append_right _ hE'))
      subst hEC
      refine ⟨⟨t, ?_, fun o => (endsAt_update hscc hne).trans (hiff o)⟩, hpos⟩
      rw [Function.update_self, hk]
    · have htE : t ∉ E := by
        intro htE
        have hE' := hE
        rw [halive] at hE'
        rcases List.mem_append.mp hE' with hE' | hE'
        · exact ht₁ E (List.mem_append_left _ hE') htE
        · rcases List.mem_cons.mp hE' with rfl | hE'
          · exact hxE he.1
          · exact ht₁ E (List.mem_append_right _ hE') htE
      rw [← hskip E hxE]
      exact ⟨(hv.counted E hE).update hscc htE (by decide) hne, hv.pos E hE⟩
  · rw [← hskip E (hrest E hE)]
    exact hv.zero E hE
  · refine ⟨tops, htops.congr fun x hx => Function.update_of_ne ?_ .., hroots.congr fun _ _ _ _ _ _ =>
      endsAt_update hscc hne⟩
    rintro rfl
    have hclass := htops.getClass hx
    rw [htc] at hclass
    cases hclass

/-! ## A reference -/

/-- A reference is dropped. -/
theorem classify (hv : Visiting h₀ Cs alive waiting freed V ((some u, w) :: rest) v S L s)
    (hCs : Cs.flatten.Nodup) (hnull : null ∉ Cs.flatten) (hfuel : 2 ^ 64 ≤ fuel)
    (hbound : ((some u, w) :: rest).length < 2 ^ 60) (hu : u ∈ V) (hw : Known h₀ Cs w) :
    ∃ s' alive' waiting' S', sccClassify fuel s w = some s' ∧
      Visiting h₀ Cs alive' waiting' freed V rest v S' L s' ∧ (∀ x ∈ S, x ∈ S') ∧
      (w ∈ V → w ∈ v :: (S' ++ L)) ∧ s'.events = s.events ++ releaseEvents Cs [w] ∧
      s'.total = s.total := by
  have huV : ∀ E ∈ Cs, u ∈ E → E = V := by
    intro E hE huE
    obtain ⟨ha, hwt, hf⟩ := hv.not_mem_other hCs hu
    have hmem := hv.perm.mem_iff.mpr hE
    simp only [List.mem_append, List.mem_cons] at hmem
    rcases hmem with (hE | hE) | rfl | hE
    · exact absurd huE (ha E hE)
    · exact absurd huE (hwt E hE)
    · rfl
    · exact absurd huE (hf E hE)
  rcases hw with hwCs | ⟨hwCs, hshared⟩
  · have hevents := releaseEvents_of_mem hwCs
    obtain ⟨C, hC, hwC⟩ := List.mem_flatten.mp hwCs
    have hmem := hv.perm.mem_iff.mpr hC
    by_cases hCV : C = V
    · -- The reference leads to an object of the component.
      subst hCV
      have hskip := hv.skip fun E hE henters => by
        have hEC := huV E hE
        have hwE : w ∈ E := henters.1
        have hE' := hv.perm.mem_iff.mpr hE
        obtain ⟨ha, hwt, hf⟩ := hv.not_mem_other hCs hwC
        simp only [List.mem_append, List.mem_cons] at hE'
        rcases hE' with (hE' | hE') | rfl | hE'
        · exact ha E hE' hwE
        · exact hwt E hE' hwE
        · exact henters.2 u rfl hu
        · exact hf E hE' hwE
      obtain ⟨r, hr, hwr⟩ := (hskip.ends w).mp hwC
      obtain ⟨h₁, hroot, hsplits⟩ := rootAndClass_of_endsAt hskip.grounded hwr (hskip.found r hr) hfuel
      have hv₁ := hskip.splits hsplits
      by_cases hwr' : w = r
      · subst hwr'
        refine ⟨_, alive, waiting, S, ?_, hv₁, fun _ hx => hx, fun _ => hr, by simp [hevents], rfl⟩
        rw [sccClassify, hroot]
        simp
      · have hnew : w ∉ v :: (S ++ L) := by
          intro hfound
          exact hwr' (hwr.eq_of_getClass (by rw [hskip.found w hfound]; decide)).symm
        obtain ⟨heap, scc, hpush, hv₂⟩ := hv₁.push hCs hnull hwC hnew
        refine ⟨_, alive, waiting, w :: S, ?_, hv₂, fun x hx => List.mem_cons_of_mem w hx,
          fun _ => by simp, by simp [hevents], rfl⟩
        rw [sccClassify, hroot]
        simp only [bind, Option.bind_some, if_pos hwr', ne_eq]
        rw [show s.scc.push h₁ w = some (heap, scc) from hpush]
        rfl
    · -- The reference leads to another component, so that one is in use.
      have huC : u ∉ C := fun huC => hCV (huV C hC huC)
      have henters : PathSearch.Enters C (some u, w) :=
        ⟨hwC, fun x hx => Option.some.inj hx ▸ huC⟩
      have hone : 1 ≤ count ((some u, w) :: rest) C := one_le_count List.mem_cons_self henters
      have halive : C ∈ alive := by
        by_contra hnot
        have hzero : C ∈ waiting ++ V :: freed := by
          simp only [List.mem_append, List.mem_cons] at hmem ⊢
          tauto
        rw [hv.zero C hzero] at hone
        omega
      have hwV : w ∈ V → w ∈ v :: (S ++ L) := fun hwV =>
        absurd hwC ((hv.not_mem_other hCs hwV).1 C halive)
      obtain ⟨r, -, -, hrc, hiff⟩ := (hv.counted C halive).exists_root (by decide)
      have hwr := (hiff w).mpr hwC
      obtain ⟨h₁, hroot, hsplits⟩ := rootAndClass_of_endsAt hv.grounded hwr hrc hfuel
      have hv₁ := hv.splits hsplits
      have hwr₁ : EndsAt h₁ w r := (hsplits.endsAt_iff hv.grounded).mpr hwr
      by_cases hzero : count rest C = 0
      · obtain ⟨before, after, hsplit⟩ := List.append_of_mem halive
        obtain ⟨heap, dfs, hdecref, hpush, hv₂⟩ :=
          hv₁.lastReference hCs hnull hsplit henters hwr₁ hzero
        refine ⟨_, before ++ after, C :: waiting, S, ?_, hv₂, fun _ hx => hx, hwV, by simp [hevents], rfl⟩
        rw [sccClassify, hroot]
        simp only [bind, Option.bind_some]
        rw [show h₁.decref r = some (true, h₁) from hdecref]
        simp only [Option.bind_some, if_true]
        rw [show s.dfs.push h₁ r = some (heap, dfs) from hpush]
        rfl
      · obtain ⟨heap, hdecref, hv₂⟩ :=
          hv₁.moreReferences hCs hbound halive henters hwr₁ (Nat.one_le_iff_ne_zero.mpr hzero)
        refine ⟨_, alive, waiting, S, ?_, hv₂, fun _ hx => hx, hwV, by simp [hevents], rfl⟩
        rw [sccClassify, hroot]
        simp only [bind, Option.bind_some]
        rw [show h₁.decref r = some (false, heap) from hdecref]
        simp
  · -- The reference leads to a shared object.
    have hevents := releaseEvents_of_not_mem hwCs
    have hskip := hv.skip fun E hE henters => hwCs (List.mem_flatten.mpr ⟨E, hE, henters.1⟩)
    have hclass : s.heap.getClass w = some .shared := by
      rw [(reads_eq (hv.outside w hwCs (by rw [hshared]; decide))).1, hshared]
    obtain ⟨h₁, hroot, hsplits⟩ :=
      rootAndClass_of_endsAt hskip.grounded (endsAt_self hclass (by decide)) hclass hfuel
    have hv₁ := hskip.splits hsplits
    refine ⟨{ s with heap := h₁, events := s.events ++ [.release w] }, alive, waiting, S, ?_, { hv₁ with },
      fun _ hx => hx, fun hwV => ?_, by rw [hevents], rfl⟩
    · rw [sccClassify, hroot]
      simp
    · exact absurd (List.mem_flatten.mpr ⟨V, hv.mem_components (by simp), hwV⟩) hwCs

/-! ## All references of an object -/

/-- The references of an object are dropped. -/
theorem foldRefs {l : List ObjAddr}
    (hv : Visiting h₀ Cs alive waiting freed V (l.map (Prod.mk (some u)) ++ rest) v S L s)
    (hCs : Cs.flatten.Nodup) (hnull : null ∉ Cs.flatten) (hfuel : 2 ^ 64 ≤ fuel)
    (hbound : (l.map (Prod.mk (some u)) ++ rest).length < 2 ^ 60) (hu : u ∈ V)
    (hl : ∀ w ∈ l, Known h₀ Cs w) :
    ∃ s' alive' waiting' S', l.foldlM (sccClassify fuel) s = some s' ∧
      Visiting h₀ Cs alive' waiting' freed V rest v S' L s' ∧ (∀ x ∈ S, x ∈ S') ∧
      (∀ w ∈ l, w ∈ V → w ∈ v :: (S' ++ L)) ∧ s'.events = s.events ++ releaseEvents Cs l ∧
      s'.total = s.total := by
  induction l generalizing alive waiting S s with
  | nil =>
    exact ⟨s, alive, waiting, S, rfl, hv, fun _ hx => hx, fun _ hw => absurd hw List.not_mem_nil,
      (List.append_nil _).symm, rfl⟩
  | cons w l ih =>
    rw [List.map_cons, List.cons_append] at hv hbound
    obtain ⟨s₁, alive₁, waiting₁, S₁, hclassify, hv₁, hsub₁, hfound₁, hevents₁, htotal₁⟩ :=
      hv.classify hCs hnull hfuel hbound hu (hl w List.mem_cons_self)
    obtain ⟨s', alive', waiting', S', hfold, hv', hsub', hfound', hevents', htotal'⟩ :=
      ih hv₁ (Nat.lt_of_succ_lt hbound) fun x hx => hl x (List.mem_cons_of_mem w hx)
    have hmono : ∀ {x}, x ∈ v :: (S₁ ++ L) → x ∈ v :: (S' ++ L) := by
      intro x hx
      simp only [List.mem_cons, List.mem_append] at hx ⊢
      exact hx.imp_right fun hx => hx.imp_left (hsub' x)
    refine ⟨s', alive', waiting', S', ?_, hv', fun x hx => hsub' x (hsub₁ x hx), ?_, ?_,
      htotal'.trans htotal₁⟩
    · rw [List.foldlM_cons, hclassify]
      exact hfold
    · intro x hx hxV
      rcases List.mem_cons.mp hx with rfl | hx
      · exact hmono (hfound₁ hxV)
      · exact hfound' x hx hxV
    · rw [hevents', hevents₁, List.append_assoc, ← releaseEvents_append]
      rfl

end Visiting

end

end Immutable

end VeronaRt
