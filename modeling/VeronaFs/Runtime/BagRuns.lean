import Mathlib.Data.List.DropRight
import VeronaFs.Runtime.Bag

/-!
# Bags keep their elements

The cells in use of a bag are those of its elements and the holes, and the holes are threaded from the
first one.  An iterator steps through the cells in use from the last one and yields those that are no
holes.
-/

namespace VeronaRt

open Foundation

/-! ## The borrowed bit -/

/-- A word with the bit set has it set. -/
theorem isMarked_markEmpty (w : ℕ) : isMarked (markEmpty w) = true := by
  have hone : (w ||| 1) % 2 = 1 := Nat.or_mod_two_eq_one.mpr (Or.inr rfl)
  rw [isMarked, markEmpty, hone]
  rfl

/-- The bit is set and cleared. -/
theorem clearMark_markEmpty {w : ℕ} (hw : w % 2 = 0) : clearMark (markEmpty w) = w := by
  have hhalf : (w ||| 1) / 2 = w / 2 := by
    rw [Nat.or_div_two]
    exact Nat.or_zero _
  rw [clearMark, markEmpty, hhalf]
  omega

namespace BagLayout

variable {B : BagLayout}

/-- A block has a cell. -/
theorem one_lt : 1 < B.itemCount := B.fits

/-- An element has a byte. -/
theorem size_pos : 0 < B.size := Nat.mul_pos (by decide) B.pos

/-- An address has the lowest bit clear. -/
theorem address_mod_two (o : Option ℕ) : B.address o % 2 = 0 := by
  cases o with
  | none => rfl
  | some p =>
    have hsize : B.size * p = 2 * (4 * B.words * p) := by
      rw [size, ← Nat.mul_assoc, ← Nat.mul_assoc]
    rw [address, hsize, Nat.mul_mod_right]

/-- The pointer of the address of a pointer that is not the number zero. -/
theorem pointer_address {o : Option ℕ} (ho : ∀ p, o = some p → p ≠ 0) : B.pointer (B.address o) = o := by
  cases o with
  | none => rfl
  | some p =>
    have hpos : B.size * p ≠ 0 := Nat.mul_ne_zero B.size_pos.ne' (ho p rfl)
    obtain ⟨w, hw⟩ := Nat.exists_eq_succ_of_ne_zero hpos
    rw [address, hw]
    change some ((w + 1) / B.size) = some p
    rw [← Nat.succ_eq_add_one, ← hw, Nat.mul_div_cancel_left p B.size_pos]

end BagLayout

namespace Bag

variable {σ β : Type} {B : BagLayout} {ops : BlockAlloc σ (CellBlock (BagElem β))} {ok : σ → Prop}
  {own : σ → ℕ → Option (CellBlock (BagElem β))} {fresh : σ → ℕ → Prop}
  {content content' : ℕ → Option (CellBlock (BagElem β))} {bag bag' : Bag σ} {s : σ}
  {z k p q a fuel index index' : ℕ} {bs bs' holes L : List ℕ} {item e : BagElem β}
  {m : ℕ → Option (BagElem β)} {nextFree : Option ℕ}

/-! ## The cells of a bag -/

/-- Each hole has the address of the next one with the lowest bit set. -/
def Threaded (B : BagLayout) (content : ℕ → Option (CellBlock (BagElem β))) : List ℕ → Prop
  | [] => True
  | p :: holes => (∃ e, cellAt B.itemCount content p = some e ∧
      e.object = markEmpty (B.address holes.head?)) ∧ Threaded B content holes

/-- Holes that do not change stay threaded. -/
theorem Threaded.congr (h : Threaded B content holes)
    (hcell : ∀ q ∈ holes, cellAt B.itemCount content' q = cellAt B.itemCount content q) :
    Threaded B content' holes := by
  induction holes with
  | nil => trivial
  | cons p holes ih =>
    obtain ⟨⟨e, he, hobject⟩, hrest⟩ := h
    exact ⟨⟨e, (hcell p List.mem_cons_self).trans he, hobject⟩,
      ih hrest fun q hq => hcell q (List.mem_cons_of_mem p hq)⟩

/-- A hole has the lowest bit set. -/
theorem Threaded.exists_marked (h : Threaded B content holes) (hp : p ∈ holes) :
    ∃ e, cellAt B.itemCount content p = some e ∧ isMarked e.object = true := by
  induction holes with
  | nil => exact absurd hp List.not_mem_nil
  | cons q holes ih =>
    obtain ⟨⟨e, he, hobject⟩, hrest⟩ := h
    rcases List.mem_cons.mp hp with rfl | hp
    · exact ⟨e, he, by rw [hobject, isMarked_markEmpty]⟩
    · exact ih hrest hp

/-- A bag with the elements `m` by their pointers, and with the holes. -/
structure Holds (B : BagLayout) (content : ℕ → Option (CellBlock (BagElem β))) (z : ℕ) (bs : List ℕ)
    (k : ℕ) (holes : List ℕ) (m : ℕ → Option (BagElem β)) (index : ℕ) (nextFree : Option ℕ) :
    Prop where
  /-- The blocks are a chain with the last cell that was taken. -/
  chain : BlockChain (belowOf content) B.itemCount z bs k index
  /-- The first hole. -/
  nextFree_eq : nextFree = holes.head?
  /-- The holes are different. -/
  nodup : holes.Nodup
  /-- The holes are threaded. -/
  threaded : Threaded B content holes
  /-- A cell in use without an element is a hole. -/
  mem_holes : ∀ p, p ∈ holes ↔ p ∈ cells B.itemCount bs k ∧ m p = none
  /-- An element is in a cell in use. -/
  mem_cells : ∀ p e, m p = some e → p ∈ cells B.itemCount bs k
  /-- An element is stored, and it has the lowest bit clear. -/
  stored : ∀ p e, m p = some e → cellAt B.itemCount content p = some e ∧ e.object % 2 = 0

namespace Holds

variable (h : Holds B content z bs k holes m index nextFree)
include h

/-- A hole is in a cell in use. -/
theorem hole_mem_cells (hp : p ∈ holes) : p ∈ cells B.itemCount bs k := ((h.mem_holes p).mp hp).1

/-- A cell in use is in no first slot. -/
theorem slot_ne_zero (hp : p ∈ cells B.itemCount bs k) : p % B.itemCount ≠ 0 :=
  (block_of_mem_cells h.chain.lt hp).2

/-- A cell in use is in a block. -/
theorem block_ne_none (hp : p ∈ cells B.itemCount bs k) : content (p / B.itemCount) ≠ none := by
  obtain ⟨block, hblock⟩ := exists_block_of_mem_cells h.chain.linked h.chain.lt hp
  exact Option.ne_none_iff_exists'.mpr ⟨block, hblock⟩

/-- The lowest bit of a cell in use says whether it is a hole. -/
theorem exists_object (hp : p ∈ cells B.itemCount bs k) :
    ∃ e, cellAt B.itemCount content p = some e ∧ isMarked e.object = (m p).isNone := by
  cases hm : m p with
  | none => exact h.threaded.exists_marked ((h.mem_holes p).mpr ⟨hp, hm⟩)
  | some e =>
    obtain ⟨he, hobject⟩ := h.stored p e hm
    exact ⟨e, he, by rw [isMarked, hobject]; rfl⟩

/-- An element is put into a new cell when there is no hole. -/
theorem extend (hholes : holes = [])
    (hchain : BlockChain (belowOf content') B.itemCount z bs' k' index')
    (hcells : cells B.itemCount bs' k' = index' :: cells B.itemCount bs k)
    (hnot : index' ∉ cells B.itemCount bs k) (hnew : cellAt B.itemCount content' index' = some item)
    (hframe : ∀ q ∈ cells B.itemCount bs k,
      cellAt B.itemCount content' q = cellAt B.itemCount content q)
    (hitem : item.object % 2 = 0) :
    m index' = none ∧
      Holds B content' z bs' k' holes (Function.update m index' (some item)) index' nextFree := by
  have hnone : m index' = none := by
    by_contra hm
    obtain ⟨e, he⟩ := Option.ne_none_iff_exists'.mp hm
    exact hnot (h.mem_cells index' e he)
  refine ⟨hnone, hchain, h.nextFree_eq, h.nodup, ?_, fun p => ?_, fun p e he => ?_, fun p e he => ?_⟩
  · rw [hholes]
    trivial
  · rw [h.mem_holes, hcells, List.mem_cons, Function.update_apply]
    by_cases hp : p = index'
    · simp [hp, hnot]
    · simp [hp]
  · rw [Function.update_apply] at he
    rw [hcells]
    split at he
    · next hp => exact hp ▸ List.mem_cons_self
    · exact List.mem_cons_of_mem _ (h.mem_cells p e he)
  · rw [Function.update_apply] at he
    split at he
    · next hp =>
      obtain rfl := Option.some.inj he
      exact ⟨hp ▸ hnew, hitem⟩
    · obtain ⟨hcell, hobject⟩ := h.stored p e he
      exact ⟨(hframe p (h.mem_cells p e he)).trans hcell, hobject⟩

end Holds

/-! ## Insertions and removals -/

/-- The state of a bag with the elements `m`, whose cells in use are those in `seen`. -/
def Bags (B : BagLayout) (ok : σ → Prop) (own : σ → ℕ → Option (CellBlock (BagElem β))) (z : ℕ)
    (seen : List ℕ) (m : ℕ → Option (BagElem β)) (bag : Bag σ) : Prop :=
  ok bag.alloc ∧ ∃ bs k holes, Holds B (own bag.alloc) z bs k holes m bag.index bag.nextFree ∧
    ∀ p, p ∈ seen ↔ p ∈ cells B.itemCount bs k

variable {seen : List ℕ}

/-- A new bag has no elements. -/
theorem Bags.init (hok : ok s) : Bags B ok own z [] (fun _ => none) (Bag.init B z s) := by
  refine ⟨hok, [], B.itemCount - 1, [], ⟨BlockChain.nil B.one_lt, rfl, List.nodup_nil, trivial,
    fun p => ?_, fun p e he => ?_, fun p e he => ?_⟩, fun p => ?_⟩
  · simp [cells]
  · cases he
  · cases he
  · simp [cells]

section Operations

variable (hops : ops.Lawful ok own fresh z)
include hops

/-- An insertion fills the first hole, and only without holes it takes a new cell. -/
theorem Bags.insert_spec (h : Bags B ok own z seen m bag) (hfresh : fresh bag.alloc a)
    (hitem : item.object % 2 = 0) : ∃ p bag', insert B ops item a bag = some (p, bag') ∧
      m p = none ∧ (p ∉ seen → ∀ q ∈ seen, m q ≠ none) ∧
      Bags B ok own z (p :: seen) (Function.update m p (some item)) bag' := by
  obtain ⟨hok, bs, k, holes, hholds, hseen⟩ := h
  cases holes with
  | nil =>
    have hfree : bag.nextFree = none := hholds.nextFree_eq
    have hlive (q : ℕ) (hq : q ∈ seen) : m q ≠ none := fun hm =>
      List.not_mem_nil ((hholds.mem_holes q).mpr ⟨(hseen q).mp hq, hm⟩)
    have hlast : isLastBlockElem B bag.index = decide (k = B.itemCount - 1) := by
      rw [isLastBlockElem, hholds.chain.mod_eq]
    by_cases hk : k = B.itemCount - 1
    · rw [decide_eq_true hk] at hlast
      obtain ⟨b, s₁, s₂, s₃, halloc, hprev, hstore, hok', hchain, hcells, hnot, hnew, hframe, -⟩ :=
        storeCell_push hops hok hholds.chain hk hfresh item
      obtain ⟨hnone, hholds'⟩ := hholds.extend rfl hchain hcells hnot hnew hframe hitem
      refine ⟨B.itemCount * b + 1, ⟨B.itemCount * b + 1, bag.nextFree, s₃⟩, ?_, hnone, fun _ => hlive,
        hok', _, _, _, hholds', fun p => ?_⟩
      · simp only [insert, insertSlow, hfree, hlast, if_true, halloc, hprev, hstore,
          Option.bind_eq_bind, Option.bind_some]
      · rw [hcells, List.mem_cons, List.mem_cons, hseen]
    · rw [decide_eq_false hk] at hlast
      have hlt : k + 1 < B.itemCount := by
        have hlt := hholds.chain.lt
        omega
      obtain ⟨s', hstore, hok', hchain, hcells, hnot, hnew, hframe, -⟩ :=
        storeCell_up hops hok hholds.chain hlt item
      obtain ⟨hnone, hholds'⟩ := hholds.extend rfl hchain hcells hnot hnew hframe hitem
      refine ⟨bag.index + 1, ⟨bag.index + 1, bag.nextFree, s'⟩, ?_, hnone, fun _ => hlive, hok', _, _,
        _, hholds', fun p => ?_⟩
      · simp only [insert, hfree, hlast, Bool.false_eq_true, if_false, hstore, Option.bind_eq_bind,
          Option.bind_some]
      · rw [hcells, List.mem_cons, List.mem_cons, hseen]
  | cons cur holes =>
    have hfree : bag.nextFree = some cur := hholds.nextFree_eq
    have hcur := hholds.hole_mem_cells List.mem_cons_self
    have hslot := hholds.slot_ne_zero hcur
    have hnone := ((hholds.mem_holes cur).mp List.mem_cons_self).2
    obtain ⟨hcurNot, hnodup⟩ := List.nodup_cons.mp hholds.nodup
    obtain ⟨⟨e, he, hobject⟩, hthreaded⟩ := hholds.threaded
    obtain ⟨s', hstore, hok', hcell, hbelow, -⟩ :=
      storeCell_spec hops hok hslot (hholds.block_ne_none hcur) item
    have hload : loadHole B ops bag.alloc cur = some (markEmpty (B.address holes.head?)) := by
      rw [loadHole, loadCell_eq hops hok hslot he, Option.map_some, hobject]
    have hnext : B.pointer (clearMark (markEmpty (B.address holes.head?))) = holes.head? := by
      rw [clearMark_markEmpty (B.address_mod_two _)]
      refine B.pointer_address fun p hp hzero => ?_
      have hmem := hholds.hole_mem_cells (List.mem_cons_of_mem cur (List.mem_of_mem_head? hp))
      have hslot := hholds.slot_ne_zero hmem
      rw [hzero, Nat.zero_mod] at hslot
      exact hslot rfl
    have hcells (q : ℕ) (hq : q ∈ cells B.itemCount bs k) (hne : q ≠ cur) :
        cellAt B.itemCount (own s') q = cellAt B.itemCount (own bag.alloc) q := by
      rw [hcell q (hholds.slot_ne_zero hq), if_neg hne]
    refine ⟨cur, ⟨bag.index, holes.head?, s'⟩, ?_, hnone, fun hnot => absurd ((hseen cur).mpr hcur) hnot,
      hok', bs, k, holes, ⟨?_, rfl, hnodup, ?_, fun p => ?_, fun p e' he' => ?_, fun p e' he' => ?_⟩,
      fun p => ?_⟩
    · simp only [insert, hfree, hload, hstore, isMarked_markEmpty, if_true, hnext,
        Option.bind_eq_bind, Option.bind_some]
    · change BlockChain (belowOf (own s')) _ _ _ _ _
      rw [hbelow]
      exact hholds.chain
    · refine hthreaded.congr fun q hq => hcells q ?_ ?_
      · exact hholds.hole_mem_cells (List.mem_cons_of_mem cur hq)
      · rintro rfl
        exact hcurNot hq
    · rw [Function.update_apply]
      by_cases hp : p = cur
      · simp [hp, hcurNot]
      · have hmem := hholds.mem_holes p
        rw [List.mem_cons] at hmem
        simpa [hp] using hmem
    · rw [Function.update_apply] at he'
      split at he'
      · next hp => exact hp ▸ hcur
      · exact hholds.mem_cells p e' he'
    · rw [Function.update_apply] at he'
      split at he'
      · next hp =>
        obtain rfl := Option.some.inj he'
        exact ⟨by rw [hp]; exact (hcell cur hslot).trans (if_pos rfl), hitem⟩
      · next hp =>
        obtain ⟨hstored, hobject'⟩ := hholds.stored p e' he'
        exact ⟨(hcells p (hholds.mem_cells p e' he') hp).trans hstored, hobject'⟩
    · rw [List.mem_cons, hseen]
      exact ⟨fun hp => hp.elim (fun hp => hp ▸ hcur) id, Or.inr⟩

/-- A removal leaves a hole. -/
theorem Bags.remove_spec (h : Bags B ok own z seen m bag) (hp : m p = some e) :
    ∃ bag', remove B ops p bag = some bag' ∧
      Bags B ok own z seen (Function.update m p none) bag' := by
  obtain ⟨hok, bs, k, holes, hholds, hseen⟩ := h
  have hmem := hholds.mem_cells p e hp
  have hslot := hholds.slot_ne_zero hmem
  obtain ⟨hstored, -⟩ := hholds.stored p e hp
  obtain ⟨s', hstore, hok', hcell, hbelow, -⟩ := storeCell_spec hops hok hslot
    (hholds.block_ne_none hmem) { e with object := markEmpty (B.address bag.nextFree) }
  have hcells (q : ℕ) (hq : q ∈ cells B.itemCount bs k) (hne : q ≠ p) :
      cellAt B.itemCount (own s') q = cellAt B.itemCount (own bag.alloc) q := by
    rw [hcell q (hholds.slot_ne_zero hq), if_neg hne]
  have hnot : p ∉ holes := fun hhole =>
    Option.some_ne_none e (hp.symm.trans ((hholds.mem_holes p).mp hhole).2)
  refine ⟨⟨bag.index, some p, s'⟩, ?_, hok', bs, k, p :: holes, ⟨?_, rfl,
    List.nodup_cons.mpr ⟨hnot, hholds.nodup⟩, ⟨⟨_, (hcell p hslot).trans (if_pos rfl), ?_⟩, ?_⟩,
    fun q => ?_, fun q e' he' => ?_, fun q e' he' => ?_⟩, hseen⟩
  · simp only [remove, storeHole, loadCell_eq hops hok hslot hstored, hstore, Option.bind_eq_bind,
      Option.bind_some]
  · change BlockChain (belowOf (own s')) _ _ _ _ _
    rw [hbelow]
    exact hholds.chain
  · rw [hholds.nextFree_eq]
  · refine hholds.threaded.congr fun q hq => hcells q (hholds.hole_mem_cells hq) ?_
    rintro rfl
    exact hnot hq
  · rw [List.mem_cons, hholds.mem_holes, Function.update_apply]
    by_cases hq : q = p
    · simp [hq, hmem]
    · simp [hq]
  · rw [Function.update_apply] at he'
    split at he'
    · cases he'
    · exact hholds.mem_cells q e' he'
  · rw [Function.update_apply] at he'
    split at he'
    · cases he'
    · next hq =>
      obtain ⟨hstored', hobject⟩ := hholds.stored q e' he'
      exact ⟨(hcells q (hholds.mem_cells q e' he') hq).trans hstored', hobject⟩

end Operations

/-! ## Iteration -/

/-- The cells that are left to an iterator at a pointer. -/
def Walk (B : BagLayout) (content : ℕ → Option (CellBlock (BagElem β))) (z p : ℕ) (L : List ℕ) :
    Prop :=
  ∃ bs k, BlockChain (belowOf content) B.itemCount z bs k p ∧ cells B.itemCount bs k = L

/-- At the end no cell is left. -/
theorem Walk.eq_nullIndex_iff (h : Walk B content z p L) : p = nullIndex B z ↔ L = [] := by
  obtain ⟨bs, k, hchain, rfl⟩ := h
  rw [nullIndex, hchain.eq_lastSlot_iff, hchain.cells_eq_nil_iff]

/-- The elements behind the first ones with a property are among those with the other. -/
theorem filter_dropWhile_not {α : Type} (f : α → Bool) (l : List α) :
    (l.dropWhile f).filter (fun x => !f x) = l.filter fun x => !f x := by
  induction l with
  | nil => rfl
  | cons x l ih =>
    rw [List.dropWhile_cons]
    by_cases hx : f x = true
    · rw [if_pos hx, ih, List.filter_cons_of_neg (by simp [hx])]
    · rw [if_neg hx]

section Iteration

variable (hops : ops.Lawful ok own fresh z) (hok : ok s)
include hops hok

/-- A step goes to the next cell. -/
theorem Walk.step_spec (h : Walk B (own s) z p (q :: L)) :
    q = p ∧ ∃ p', step B ops s p = some p' ∧ Walk B (own s) z p' L := by
  obtain ⟨bs, k, hchain, hcells⟩ := h
  cases bs with
  | nil => cases hcells
  | cons b bs =>
    rw [hchain.cells_eq] at hcells
    obtain ⟨rfl, hrest⟩ := List.cons.inj hcells
    refine ⟨rfl, ?_⟩
    have hpos := hchain.pos
    have hfirst : isFirstBlockElem B (p - 1) = decide (k = 1) := by
      rw [isFirstBlockElem, hchain.pred_mod_eq]
      simp only [decide_eq_decide]
      omega
    by_cases hk : k = 1
    · subst hk
      obtain ⟨prev, hprev, htail⟩ := hchain.tail
      have hblock : getBlock B (p - 1) = b := by
        rw [hchain.ptr_eq]
        exact Nat.mul_div_cancel_left b (Nat.zero_lt_of_lt B.one_lt)
      refine ⟨prev, ?_, bs, B.itemCount - 1, htail, hrest⟩
      simp only [step, hfirst, decide_true, if_true, hblock, loadPrev_eq hops hok hprev]
    · refine ⟨p - 1, ?_, b :: bs, k - 1, hchain.down (List.cons_ne_nil b bs) (by omega), hrest⟩
      simp only [step, hfirst, hk, decide_false, Bool.false_eq_true, if_false]

omit hops hok in
/-- The lowest bits of the cells say which ones are holes. -/
def Marks (B : BagLayout) (ops : BlockAlloc σ (CellBlock (BagElem β))) (s : σ)
    (m : ℕ → Option (BagElem β)) (L : List ℕ) : Prop :=
  ∀ q ∈ L, ∃ w, loadHole B ops s q = some w ∧ isMarked w = (m q).isNone

/-- The holes are skipped. -/
theorem Walk.nextNonEmpty_spec (h : Walk B (own s) z p L) (hmarks : Marks B ops s m L)
    (hfuel : L.length < fuel) : ∃ p', nextNonEmpty B ops z s fuel p = some p' ∧
      Walk B (own s) z p' (L.dropWhile fun q => (m q).isNone) := by
  obtain ⟨fuel, rfl⟩ := Nat.exists_eq_succ_of_ne_zero (Nat.ne_of_gt (Nat.zero_lt_of_lt hfuel))
  induction L generalizing p fuel with
  | nil => exact ⟨p, if_pos (h.eq_nullIndex_iff.mpr rfl), h⟩
  | cons q L ih =>
    have hnull : p ≠ nullIndex B z := fun hp => List.cons_ne_nil q L (h.eq_nullIndex_iff.mp hp)
    obtain ⟨rfl, p', hstep, hwalk⟩ := h.step_spec hops hok
    obtain ⟨w, hload, hmarked⟩ := hmarks q List.mem_cons_self
    rw [nextNonEmpty, if_neg hnull, List.dropWhile_cons]
    by_cases hq : (m q).isNone = true
    · rw [List.length_cons] at hfuel
      obtain ⟨fuel, rfl⟩ := Nat.exists_eq_succ_of_ne_zero (show fuel ≠ 0 by omega)
      obtain ⟨p'', hnext, hwalk'⟩ := ih hwalk (fun r hr => hmarks r (List.mem_cons_of_mem q hr)) fuel
        (by omega)
      rw [if_pos hq]
      refine ⟨p'', ?_, hwalk'⟩
      simp only [hload, hmarked, hq, if_true, hstep, hnext, Option.bind_eq_bind, Option.bind_some]
    · rw [if_neg hq]
      refine ⟨q, ?_, h⟩
      simp only [hload, hmarked, hq, Bool.false_eq_true, if_false, Option.bind_eq_bind,
        Option.bind_some]

/-- An iterator goes to the next element. -/
theorem Walk.nextPosition_spec (h : Walk B (own s) z p (q :: L)) (hmarks : Marks B ops s m L)
    (hfuel : L.length < fuel) : ∃ p', nextPosition B ops z s fuel p = some p' ∧
      Walk B (own s) z p' (L.dropWhile fun q => (m q).isNone) := by
  obtain ⟨-, p', hstep, hwalk⟩ := h.step_spec hops hok
  obtain ⟨p'', hnext, hwalk'⟩ := hwalk.nextNonEmpty_spec hops hok hmarks hfuel
  refine ⟨p'', ?_, hwalk'⟩
  simp only [nextPosition, hstep, hnext, Option.bind_eq_bind, Option.bind_some]
  by_cases hnull : p'' = nullIndex B z
  · rw [if_pos hnull]
  · rw [if_neg hnull]
    -- The iterator stops at an element, so the assertion holds.
    obtain ⟨r, L', hL'⟩ := List.exists_cons_of_ne_nil (mt hwalk'.eq_nullIndex_iff.mpr hnull)
    have hr : (m r).isNone = false := by
      have hhead := List.head_dropWhile_not (fun q => (m q).isNone) (l := L)
        (by rw [hL']; exact List.cons_ne_nil r L')
      simpa [hL'] using hhead
    have hmem : r ∈ L := by
      have hsub := (List.dropWhile_suffix (l := L) fun q => (m q).isNone).subset
      exact hsub (hL' ▸ List.mem_cons_self)
    obtain ⟨w, hload, hmarked⟩ := hmarks r hmem
    rw [hL'] at hwalk'
    obtain ⟨rfl, -⟩ := hwalk'.step_spec hops hok
    simp only [hload, hmarked, hr, Bool.false_eq_true, if_false, Option.bind_some]

/-- An iterator at an element yields the elements in the cells that are left. -/
theorem Walk.iterateFrom_spec (h : Walk B (own s) z p L) (hmarks : Marks B ops s m L)
    (hhead : L.dropWhile (fun q => (m q).isNone) = L) (hfuel : L.length < fuel) :
    iterateFrom B ops z s fuel p = some (L.filter fun q => !(m q).isNone) := by
  induction fuel generalizing p L with
  | zero => exact absurd hfuel (Nat.not_lt_zero _)
  | succ fuel ih =>
    rw [iterateFrom]
    cases L with
    | nil => exact if_pos (h.eq_nullIndex_iff.mpr rfl)
    | cons q L =>
      have hnull : p ≠ nullIndex B z := fun hp => List.cons_ne_nil q L (h.eq_nullIndex_iff.mp hp)
      obtain ⟨rfl, -⟩ := h.step_spec hops hok
      have hq : (m q).isNone = false := by
        rw [List.dropWhile_cons] at hhead
        by_contra hnone
        rw [if_pos (by simpa using hnone)] at hhead
        have hle := (List.dropWhile_suffix (l := L) fun q => (m q).isNone).length_le
        rw [hhead, List.length_cons] at hle
        omega
      have hrest : Marks B ops s m L := fun r hr => hmarks r (List.mem_cons_of_mem q hr)
      have hle := (List.dropWhile_suffix (l := L) fun q => (m q).isNone).length_le
      rw [List.length_cons] at hfuel
      have hfuel' : L.length < fuel := by omega
      obtain ⟨p', hnext, hwalk⟩ := h.nextPosition_spec hops hok hrest hfuel'
      have hiterate := ih hwalk
        (fun r hr => hrest r ((List.dropWhile_suffix fun q => (m q).isNone).subset hr))
        (List.dropWhile_idempotent ..) (by omega)
      rw [if_neg hnull]
      simp only [hnext, hiterate, Option.bind_eq_bind, Option.bind_some, filter_dropWhile_not]
      rw [List.filter_cons_of_pos (by simp [hq])]

end Iteration

/-! ## Runs -/

/-- The sequences of insertions and removals from a state of the allocator: the pointers that
insertions returned, the elements by their pointers, and the bag.  An element has the lowest bit of
its first word clear, and one is removed through the pointer to it. -/
inductive Run (B : BagLayout) (ops : BlockAlloc σ (CellBlock (BagElem β))) (fresh : σ → ℕ → Prop)
    (z : ℕ) (s : σ) : List ℕ → (ℕ → Option (BagElem β)) → Bag σ → Prop
  /-- A new bag. -/
  | init : Run B ops fresh z s [] (fun _ => none) (Bag.init B z s)
  /-- An insertion.  If the allocator needs a new block, it is at the address `a`. -/
  | insert {seen : List ℕ} {m : ℕ → Option (BagElem β)} {bag bag' : Bag σ} {item : BagElem β} {a p : ℕ}
      (h : Run B ops fresh z s seen m bag) (hfresh : fresh bag.alloc a) (hitem : item.object % 2 = 0)
      (hinsert : insert B ops item a bag = some (p, bag')) :
      Run B ops fresh z s (p :: seen) (Function.update m p (some item)) bag'
  /-- A removal. -/
  | remove {seen : List ℕ} {m : ℕ → Option (BagElem β)} {bag bag' : Bag σ} {e : BagElem β} {p : ℕ}
      (h : Run B ops fresh z s seen m bag) (hp : m p = some e)
      (hremove : remove B ops p bag = some bag') :
      Run B ops fresh z s seen (Function.update m p none) bag'

/-- The bag has the elements `m`, and the pointers in `seen` were returned. -/
structure IsBag (B : BagLayout) (ops : BlockAlloc σ (CellBlock (BagElem β))) (fresh : σ → ℕ → Prop)
    (z : ℕ) (seen : List ℕ) (m : ℕ → Option (BagElem β)) (bag : Bag σ) : Prop where
  /-- An element is at its pointer. -/
  load_eq : ∀ p e, m p = some e → loadCell ops B.itemCount bag.alloc p = some e
  /-- An insertion returns a pointer without an element, and one that was never returned only if all
  that were have their elements. -/
  insert_eq : ∀ item a, fresh bag.alloc a → item.object % 2 = 0 →
    ∃ p bag', insert B ops item a bag = some (p, bag') ∧ m p = none ∧
      (p ∉ seen → ∀ q ∈ seen, m q ≠ none)
  /-- An element is removed. -/
  remove_eq : ∀ p e, m p = some e → ∃ bag', remove B ops p bag = some bag'
  /-- An iteration yields the pointer of each element once, and no other. -/
  iterate_eq : ∃ ps, ps.Nodup ∧ (∀ p, p ∈ ps ↔ m p ≠ none) ∧
    ∃ n, ∀ fuel ≥ n, iterate B ops z fuel bag = some ps

/-- The state of a bag has its elements. -/
theorem Bags.isBag (hops : ops.Lawful ok own fresh z) (h : Bags B ok own z seen m bag) :
    IsBag B ops fresh z seen m bag where
  load_eq p e hp := by
    obtain ⟨hok, bs, k, holes, hholds, -⟩ := h
    exact loadCell_eq hops hok (hholds.slot_ne_zero (hholds.mem_cells p e hp)) (hholds.stored p e hp).1
  insert_eq item a hfresh hitem := by
    obtain ⟨p, bag', hinsert, hnone, hlive, -⟩ := h.insert_spec hops hfresh hitem
    exact ⟨p, bag', hinsert, hnone, hlive⟩
  remove_eq p e hp := by
    obtain ⟨bag', hremove, -⟩ := h.remove_spec hops hp
    exact ⟨bag', hremove⟩
  iterate_eq := by
    obtain ⟨hok, bs, k, holes, hholds, -⟩ := h
    have hwalk : Walk B (own bag.alloc) z bag.index (cells B.itemCount bs k) :=
      ⟨bs, k, hholds.chain, rfl⟩
    have hmarks : Marks B ops bag.alloc m (cells B.itemCount bs k) := by
      intro q hq
      obtain ⟨e, he, hmarked⟩ := hholds.exists_object hq
      exact ⟨e.object, by rw [loadHole, loadCell_eq hops hok (hholds.slot_ne_zero hq) he]; rfl, hmarked⟩
    refine ⟨(cells B.itemCount bs k).filter fun q => !(m q).isNone,
      (nodup_cells hholds.chain.lt hholds.chain.linked.nodup).filter _, fun p => ?_,
      (cells B.itemCount bs k).length + 1, fun fuel hfuel => ?_⟩
    · rw [List.mem_filter]
      constructor
      · rintro ⟨-, hp⟩ hnone
        simp [hnone] at hp
      · intro hp
        obtain ⟨e, he⟩ := Option.ne_none_iff_exists'.mp hp
        exact ⟨hholds.mem_cells p e he, by simp [he]⟩
    · have hle := (List.dropWhile_suffix (l := cells B.itemCount bs k) fun q => (m q).isNone).length_le
      obtain ⟨p', hnext, hwalk'⟩ := hwalk.nextNonEmpty_spec hops hok hmarks hfuel
      have hleft : ((cells B.itemCount bs k).dropWhile fun q => (m q).isNone).length < fuel := by omega
      have hiterate := hwalk'.iterateFrom_spec hops hok
        (fun r hr => hmarks r ((List.dropWhile_suffix fun q => (m q).isNone).subset hr))
        (List.dropWhile_idempotent ..) hleft
      simp only [iterate, hnext, hiterate, Option.bind_eq_bind, Option.bind_some, filter_dropWhile_not]

/-- Every run keeps the state of a bag. -/
theorem Run.bags (hops : ops.Lawful ok own fresh z) (hok : ok s) (h : Run B ops fresh z s seen m bag) :
    Bags B ok own z seen m bag := by
  induction h with
  | init => exact Bags.init hok
  | insert _ hfresh hitem hinsert ih =>
    obtain ⟨p, bag', hinsert', -, -, hbags⟩ := ih.insert_spec hops hfresh hitem
    obtain ⟨rfl, rfl⟩ := Prod.mk.inj (Option.some.inj (hinsert.symm.trans hinsert'))
    exact hbags
  | remove _ hp hremove ih =>
    obtain ⟨bag', hremove', hbags⟩ := ih.remove_spec hops hp
    obtain rfl := Option.some.inj (hremove.symm.trans hremove')
    exact hbags

/-- After every sequence of insertions and removals, of elements with the lowest bit of their first
words clear: each element is at the pointer that its insertion returned, an iteration yields the
elements once each and no hole, and a new cell is taken only when there is no hole. -/
theorem bag_isBag (B : BagLayout) {z : ℕ} {bag : Bag (BlockHeap (CellBlock (BagElem β)))}
    (h : Run B (heapAlloc .uninit) (HeapFresh z) z .empty seen m bag) :
    IsBag B (heapAlloc .uninit) (HeapFresh z) z seen m bag := by
  have hheap := heapAlloc_lawful (CellBlock.uninit (ε := BagElem β)) z
  exact (h.bags hheap ⟨.empty, rfl⟩).isBag hheap

/-- The hole of a removed element is filled first. -/
theorem bag_isBag_hole : ∃ (p : ℕ) (bag : Bag (BlockHeap (CellBlock (BagElem ℕ)))),
    ∀ item a, HeapFresh 1 bag.alloc a → item.object % 2 = 0 →
      ∃ bag', insert .bagElem (heapAlloc .uninit) item a bag = some (p, bag') := by
  have hinit : Run .bagElem (heapAlloc (.uninit : CellBlock (BagElem ℕ))) (HeapFresh 1) 1 .empty []
      (fun _ => none) (Bag.init .bagElem 1 .empty) := .init
  have heven : (⟨8, 123⟩ : BagElem ℕ).object % 2 = 0 := rfl
  have hinserted := hinit.insert (a := 5) ⟨rfl, by decide⟩ heven rfl
  have hremoved := hinserted.remove (Function.update_self ..) rfl
  obtain ⟨m, bag, hm, hrun⟩ : ∃ m bag, m (BagLayout.bagElem.itemCount * 5 + 1) = none ∧
      Run .bagElem (heapAlloc (.uninit : CellBlock (BagElem ℕ))) (HeapFresh 1) 1 .empty
        [BagLayout.bagElem.itemCount * 5 + 1] m bag := ⟨_, _, Function.update_self .., hremoved⟩
  refine ⟨BagLayout.bagElem.itemCount * 5 + 1, bag, fun item a hfresh hitem => ?_⟩
  obtain ⟨p, bag', hinsert, -, hlive⟩ := (bag_isBag .bagElem hrun).insert_eq item a hfresh hitem
  have hp : p = BagLayout.bagElem.itemCount * 5 + 1 := by
    by_contra hne
    exact hlive (by simpa using hne) _ List.mem_cons_self hm
  exact ⟨bag', hp ▸ hinsert⟩

end Bag

end VeronaRt
