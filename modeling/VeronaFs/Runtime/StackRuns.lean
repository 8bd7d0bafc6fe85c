import VeronaFs.Runtime.Stack

/-!
# Stacks are last in, first out

The elements of a stack are those of the cells of a chain of blocks.  The operations keep this for
every allocator that keeps what the stack owns; the allocator of a heap is one, and so is the pool of
one block above such an allocator.
-/

namespace VeronaRt

open Foundation

namespace StackThin

variable {σ α : Type} {ops : BlockAlloc σ (CellBlock α)} {ok : σ → Prop}
  {own : σ → ℕ → Option (CellBlock α)} {fresh : σ → ℕ → Prop}
  {content : ℕ → Option (CellBlock α)} {st : StackThin σ} {s : σ} {z k p a b fuel : ℕ}
  {bs : List ℕ} {item x : α} {l : List α}

/-! ## The elements of the blocks -/

/-- The pointer `p` is the top of a stack with the elements `l`, in blocks that are the contents. -/
structure Holds (content : ℕ → Option (CellBlock α)) (z : ℕ) (bs : List ℕ) (k : ℕ) (l : List α)
    (p : ℕ) : Prop where
  /-- The blocks are a chain with the pointer. -/
  chain : BlockChain (belowOf content) pointerCount z bs k p
  /-- There is no other block. -/
  owned : ∀ b, content b ≠ none → b ∈ bs
  /-- The elements are those of the cells in use. -/
  items : (cells pointerCount bs k).map (cellAt pointerCount content) = l.map some

namespace Holds

variable (h : Holds content z bs k l p)
include h

/-- The pointer is that of the empty stack exactly if there is no element. -/
theorem eq_nullIndex_iff : p = nullIndex z ↔ l = [] := by
  rw [nullIndex, h.chain.eq_lastSlot_iff, ← h.chain.cells_eq_nil_iff, ← List.map_eq_nil_iff (l := l),
    ← h.items, List.map_eq_nil_iff]

/-- The pointer below is to no cell of the block exactly if it is to the first one. -/
theorem isEmpty_pred : isEmpty (p - 1) = decide (k = 1) := by
  have hpos := h.chain.pos
  rw [isEmpty, h.chain.pred_mod_eq]
  simp only [decide_eq_decide]
  omega

/-- The pointer is to the last cell of a full block. -/
theorem isFull_eq : isFull p = decide (k = pointerCount - 1) := by
  rw [isFull, h.chain.mod_eq]

/-- A stack with an element has a block. -/
theorem exists_block (hl : l ≠ []) : ∃ b bs', bs = b :: bs' := by
  refine List.exists_cons_of_ne_nil fun hbs => hl ?_
  rw [← h.eq_nullIndex_iff]
  exact h.chain.eq_lastSlot_iff.mpr hbs

end Holds

/-- The top element and those below it. -/
theorem Holds.items_cons (h : Holds content z (b :: bs) k (x :: l) p) :
    cellAt pointerCount content p = some x ∧
    (cells pointerCount (b :: bs) (k - 1)).map (cellAt pointerCount content) = l.map some := by
  have hitems := h.items
  rw [h.chain.cells_eq, List.map_cons, List.map_cons] at hitems
  exact List.cons.inj hitems

/-! ## The operations -/

/-- The state of a stack with the elements `l`. -/
def Stacks (ok : σ → Prop) (own : σ → ℕ → Option (CellBlock α)) (z : ℕ) (l : List α)
    (st : StackThin σ) : Prop :=
  ok st.alloc ∧ ∃ bs k, Holds (own st.alloc) z bs k l st.index

section Operations

variable (hops : ops.Lawful ok own fresh z)

/-- A new stack has no elements. -/
theorem Stacks.init (hok : ok s) (hown : own s = fun _ => none) :
    Stacks ok own z [] (StackThin.init z s) := by
  refine ⟨hok, [], pointerCount - 1, BlockChain.nil (by decide), fun b hb => ?_, rfl⟩
  change own s b ≠ none at hb
  rw [hown] at hb
  exact absurd rfl hb

/-- A stack is empty exactly if it has no elements. -/
theorem Stacks.empty_iff (h : Stacks ok own z l st) : st.empty z = true ↔ l = [] := by
  obtain ⟨-, bs, k, hholds⟩ := h
  rw [empty, decide_eq_true_iff, hholds.eq_nullIndex_iff]

/-- A stack with an element is not empty. -/
theorem Stacks.empty_cons (h : Stacks ok own z (x :: l) st) : st.empty z = false := by
  rw [← Bool.not_eq_true, h.empty_iff]
  exact List.cons_ne_nil x l

include hops in
/-- The top element is the first one. -/
theorem Stacks.peek_eq (h : Stacks ok own z (x :: l) st) : peek ops z st = some x := by
  have hempty := h.empty_cons
  obtain ⟨hok, bs, k, hholds⟩ := h
  obtain ⟨b, bs, rfl⟩ := hholds.exists_block (List.cons_ne_nil x l)
  rw [peek, hempty]
  have hslot : st.index % pointerCount ≠ 0 := by
    rw [hholds.chain.mod_eq]
    exact hholds.chain.pos.ne'
  exact loadCell_eq hops hok hslot hholds.items_cons.1

include hops in
/-- A pop returns the first element. -/
theorem Stacks.pop_spec (h : Stacks ok own z (x :: l) st) :
    ∃ st', pop ops z st = some (x, st') ∧ Stacks ok own z l st' := by
  have hempty := h.empty_cons
  have hpeek := h.peek_eq hops
  obtain ⟨hok, bs, k, hholds⟩ := h
  obtain ⟨b, bs, rfl⟩ := hholds.exists_block (List.cons_ne_nil x l)
  have hpred := hholds.isEmpty_pred
  obtain ⟨-, hitems⟩ := hholds.items_cons
  by_cases hk : k = 1
  · -- The element is the only one of its block.
    subst hk
    have htop : getBlock st.index = b := hholds.chain.div_eq
    obtain ⟨prev, s', hbelow, hdealloc, hok', hchain, hframe, hown⟩ :=
      dealloc_top hops hok hholds.chain
    have hload := loadPrev_eq hops hok hbelow
    refine ⟨⟨prev, s'⟩, ?_, hok', bs, pointerCount - 1, hchain, fun b' hb' => ?_, ?_⟩
    · simp only [pop, popSlow, hempty, hpred, hpeek, htop, hload, hdealloc, decide_true, if_true,
        Bool.false_eq_true, if_false, Option.bind_eq_bind, Option.bind_some]
    · obtain ⟨hne, hb'⟩ := hown b' hb'
      exact List.mem_of_ne_of_mem hne (hholds.owned b' hb')
    · rw [List.map_congr_left hframe]
      exact hitems
  · have hpos := hholds.chain.pos
    refine ⟨{ st with index := st.index - 1 }, ?_, hok, b :: bs, k - 1,
      hholds.chain.down (List.cons_ne_nil b bs) (by omega), hholds.owned, hitems⟩
    simp only [pop, hempty, hpred, hpeek, hk, decide_false, Bool.false_eq_true, if_false,
      Option.bind_eq_bind, Option.bind_some]

include hops in
/-- A push puts the element before the others. -/
theorem Stacks.push_spec (h : Stacks ok own z l st) (hfresh : fresh st.alloc a) (item : α) :
    ∃ st', push ops item a st = some st' ∧ Stacks ok own z (item :: l) st' := by
  obtain ⟨hok, bs, k, hholds⟩ := h
  have hfull := hholds.isFull_eq
  by_cases hk : k = pointerCount - 1
  · -- The top block is full, or there is none.
    rw [decide_eq_true hk] at hfull
    obtain ⟨b, s₁, s₂, s₃, halloc, hprev, hstore, hok', hchain, hcells, -, hnew, hframe, hown⟩ :=
      storeCell_push hops hok hholds.chain hk hfresh item
    refine ⟨⟨pointerCount * b + 1, s₃⟩, ?_, hok', b :: bs, 1, hchain, fun b' hb' => ?_, ?_⟩
    · simp only [push, pushSlow, hfull, if_true, halloc, hprev, hstore, Option.bind_eq_bind,
        Option.bind_some]
    · rcases hown b' hb' with rfl | hb'
      · exact List.mem_cons_self
      · exact List.mem_cons_of_mem b (hholds.owned b' hb')
    · rw [hcells, List.map_cons, List.map_cons, hnew, List.map_congr_left hframe, hholds.items]
  · rw [decide_eq_false hk] at hfull
    have hlt : k + 1 < pointerCount := by
      have hlt := hholds.chain.lt
      omega
    obtain ⟨s', hstore, hok', hchain, hcells, -, hnew, hframe, hown⟩ :=
      storeCell_up hops hok hholds.chain hlt item
    refine ⟨⟨st.index + 1, s'⟩, ?_, hok', bs, k + 1, hchain, fun b' hb' => ?_, ?_⟩
    · simp only [push, hfull, Bool.false_eq_true, if_false, hstore, Option.bind_eq_bind,
        Option.bind_some]
    · exact hholds.owned b' (mt (hown b').mpr hb')
    · rw [hcells, List.map_cons, List.map_cons, hnew, List.map_congr_left hframe, hholds.items]

/-! ## Traversals -/

include hops in
/-- The elements of a block are visited from the top. -/
theorem forallBlock_spec (hok : ok s) (hk : k < pointerCount) (hpos : 0 < k) (hfuel : k ≤ fuel)
    (hitems : (cells pointerCount (b :: bs) k).map (cellAt pointerCount (own s)) = l.map some) :
    ∃ l₁ l₂, l = l₁ ++ l₂ ∧
      forallBlock ops s fuel (pointerCount * b + k) = some (l₁, pointerCount * b) ∧
      (cells pointerCount bs (pointerCount - 1)).map (cellAt pointerCount (own s)) = l₂.map some := by
  induction fuel generalizing k l with
  | zero => omega
  | succ fuel ih =>
    obtain ⟨k, rfl⟩ := Nat.exists_eq_succ_of_ne_zero hpos.ne'
    rw [cells_succ, List.map_cons] at hitems
    cases l with
    | nil => cases hitems
    | cons x l =>
    obtain ⟨hx, hrest⟩ := List.cons.inj hitems
    have hslot : (pointerCount * b + (k + 1)) % pointerCount ≠ 0 := by
      rw [block_mod hk]
      exact Nat.succ_ne_zero k
    have hload := loadCell_eq hops hok hslot hx
    have hpred : pointerCount * b + k.succ - 1 = pointerCount * b + k := rfl
    rw [forallBlock, hpred]
    have hlast : isEmpty (pointerCount * b + k) = decide (k = 0) := by
      rw [isEmpty, block_mod (Nat.lt_of_succ_lt hk)]
    rcases Nat.eq_zero_or_pos k with rfl | hpos
    · rw [decide_eq_true rfl] at hlast
      refine ⟨[x], l, rfl, ?_, hrest⟩
      simp only [hload, hlast, if_true, Option.bind_eq_bind, Option.bind_some]
      rfl
    · obtain ⟨l₁, l₂, rfl, hblock, hbelow⟩ := ih (Nat.lt_of_succ_lt hk) hpos (by omega) hrest
      refine ⟨x :: l₁, l₂, rfl, ?_, hbelow⟩
      simp only [hload, hlast, hpos.ne', decide_false, Bool.false_eq_true, if_false, hblock,
        Option.bind_eq_bind, Option.bind_some]

include hops in
/-- The elements of a chain are visited from the top. -/
theorem forallFrom_spec (hok : ok s) (hfuel : bs.length < fuel)
    (h : BlockChain (belowOf (own s)) pointerCount z bs k p)
    (hitems : (cells pointerCount bs k).map (cellAt pointerCount (own s)) = l.map some) :
    forallFrom ops z s fuel p = some l := by
  obtain ⟨fuel, rfl⟩ := Nat.exists_eq_succ_of_ne_zero (Nat.ne_of_gt (Nat.zero_lt_of_lt hfuel))
  induction bs generalizing k l p fuel with
  | nil =>
    have hnil : l = [] := List.map_eq_nil_iff.mp hitems.symm
    have hnull : p = nullIndex z := h.eq_lastSlot_iff.mpr rfl
    rw [forallFrom, if_pos hnull, hnil]
  | cons b bs ih =>
    have hnull : p ≠ nullIndex z := fun hp => List.cons_ne_nil b bs (h.eq_lastSlot_iff.mp hp)
    obtain ⟨l₁, l₂, rfl, hblock, hbelow⟩ := forallBlock_spec hops hok h.lt h.pos h.lt.le hitems
    obtain ⟨prev, hprev, hchain⟩ := h.tail
    have hp : p = pointerCount * b + k := h.ptr_eq
    have hdiv : getBlock (pointerCount * b) = b := Nat.mul_div_cancel_left b (by decide)
    rw [List.length_cons] at hfuel
    obtain ⟨fuel, rfl⟩ := Nat.exists_eq_succ_of_ne_zero (show fuel ≠ 0 by omega)
    have hrest := ih hchain hbelow fuel (by omega)
    rw [forallFrom, if_neg hnull]
    simp only [hp, hblock, hdiv, loadPrev_eq hops hok hprev, hrest, Option.bind_eq_bind,
      Option.bind_some]

include hops in
/-- The blocks of a chain are deallocated. -/
theorem deallocFrom_spec (hok : ok s) (hfuel : bs.length < fuel)
    (h : Linked (belowOf (own s)) pointerCount z bs) (howned : ∀ b, own s b ≠ none → b ∈ bs) :
    ∃ s', deallocFrom ops z fuel s (topBlock z bs) = some s' ∧ ok s' ∧ ∀ b, own s' b = none := by
  obtain ⟨fuel, rfl⟩ := Nat.exists_eq_succ_of_ne_zero (Nat.ne_of_gt (Nat.zero_lt_of_lt hfuel))
  induction bs generalizing s fuel with
  | nil =>
    refine ⟨s, if_pos rfl, hok, fun b => ?_⟩
    by_contra hb
    exact List.not_mem_nil (howned b hb)
  | cons b bs ih =>
    have hchain : BlockChain (belowOf (own s)) pointerCount z (b :: bs) 1 (pointerCount * b + 1) :=
      ⟨h, rfl, Nat.one_pos, by decide, fun hnil => absurd hnil (List.cons_ne_nil b bs)⟩
    obtain ⟨prev, s₁, hbelow, hdealloc, hok₁, htail, -, hown₁⟩ := dealloc_top hops hok hchain
    rw [List.length_cons] at hfuel
    obtain ⟨fuel, rfl⟩ := Nat.exists_eq_succ_of_ne_zero (show fuel ≠ 0 by omega)
    obtain ⟨s', hloop, hok', hown'⟩ := ih hok₁ htail.linked (fun b' hb' => by
      obtain ⟨hne, hb'⟩ := hown₁ b' hb'
      exact List.mem_of_ne_of_mem hne (howned b' hb')) fuel (by omega)
    refine ⟨s', ?_, hok', hown'⟩
    have htop : topBlock z (b :: bs) = b := rfl
    have hprev : getBlock prev = topBlock z bs := htail.div_eq
    rw [htop, deallocFrom, if_neg h.1]
    simp only [loadPrev_eq hops hok hbelow, hprev, hdealloc, hloop, Option.bind_eq_bind,
      Option.bind_some]

end Operations

/-! ## Runs -/

/-- The sequences of pushes and pops from a state of the allocator, with the list of the elements that
were pushed and not popped, the last one first.  A stack is popped only when this is not empty. -/
inductive Run (ops : BlockAlloc σ (CellBlock α)) (fresh : σ → ℕ → Prop) (z : ℕ) (s : σ) :
    List α → StackThin σ → Prop
  /-- A new stack. -/
  | init : Run ops fresh z s [] (StackThin.init z s)
  /-- A push.  If the allocator needs a new block, it is at the address `a`. -/
  | push {l : List α} {st st' : StackThin σ} {item : α} {a : ℕ} (h : Run ops fresh z s l st)
      (hfresh : fresh st.alloc a) (hpush : push ops item a st = some st') :
      Run ops fresh z s (item :: l) st'
  /-- A pop. -/
  | pop {l : List α} {st st' : StackThin σ} {x item : α} (h : Run ops fresh z s (x :: l) st)
      (hpop : pop ops z st = some (item, st')) : Run ops fresh z s l st'

/-- The stack behaves as the list `l`: it is empty exactly if the list is, it returns the first
element, it takes a new one, and a traversal visits the elements of the list in their order. -/
structure Lifo (ops : BlockAlloc σ (CellBlock α)) (fresh : σ → ℕ → Prop) (z : ℕ) (l : List α)
    (st : StackThin σ) : Prop where
  /-- The test for the empty stack. -/
  empty_iff : st.empty z = true ↔ l = []
  /-- The top element is the first one. -/
  peek_eq : ∀ x l', l = x :: l' → peek ops z st = some x
  /-- A pop returns the first element. -/
  pop_eq : ∀ x l', l = x :: l' → ∃ st', pop ops z st = some (x, st')
  /-- A push finishes. -/
  push_eq : ∀ item a, fresh st.alloc a → ∃ st', push ops item a st = some st'
  /-- A traversal visits the elements. -/
  forAll_eq : ∃ n, ∀ fuel ≥ n, forAll ops z fuel st = some l

/-- The state of a stack behaves as its list. -/
theorem Stacks.lifo (hops : ops.Lawful ok own fresh z) (h : Stacks ok own z l st) :
    Lifo ops fresh z l st where
  empty_iff := h.empty_iff
  peek_eq x l' hl := (hl ▸ h).peek_eq hops
  pop_eq x l' hl := by
    subst hl
    obtain ⟨st', hpop, -⟩ := h.pop_spec hops
    exact ⟨st', hpop⟩
  push_eq item a hfresh := by
    obtain ⟨st', hpush, -⟩ := h.push_spec hops hfresh item
    exact ⟨st', hpush⟩
  forAll_eq := by
    obtain ⟨hok, bs, k, hholds⟩ := h
    exact ⟨bs.length + 1, fun fuel hfuel =>
      forallFrom_spec hops hok hfuel hholds.chain hholds.items⟩

/-- The blocks of a stack are deallocated, then the allocator owns none for it. -/
theorem Stacks.dealloc_spec (hops : ops.Lawful ok own fresh z) (h : Stacks ok own z l st) :
    ∃ n, ∀ fuel ≥ n, ∃ s', dealloc ops z fuel st = some s' ∧ ok s' ∧ ∀ b, own s' b = none := by
  obtain ⟨hok, bs, k, hholds⟩ := h
  have htop : getBlock st.index = topBlock z bs := hholds.chain.div_eq
  refine ⟨bs.length + 1, fun fuel hfuel => ?_⟩
  rw [dealloc, htop]
  exact deallocFrom_spec hops hok hfuel hholds.chain.linked hholds.owned

/-- Every run keeps the state of a stack. -/
theorem Run.stacks (hops : ops.Lawful ok own fresh z) (hok : ok s) (hown : own s = fun _ => none)
    (h : Run ops fresh z s l st) : Stacks ok own z l st := by
  induction h with
  | init => exact Stacks.init hok hown
  | push _ hfresh hpush ih =>
    obtain ⟨st', hpush', hstacks⟩ := ih.push_spec hops hfresh _
    obtain rfl := Option.some.inj (hpush.symm.trans hpush')
    exact hstacks
  | pop _ hpop ih =>
    obtain ⟨st', hpop', hstacks⟩ := ih.pop_spec hops
    obtain ⟨-, rfl⟩ := Prod.mk.inj (Option.some.inj (hpop.symm.trans hpop'))
    exact hstacks

end StackThin

/-! ## The pool of one block -/

section Backup

variable {σ γ : Type} {ops : BlockAlloc σ γ} {ok : σ → Prop} {own : σ → ℕ → Option γ}
  {fresh : σ → ℕ → Prop} {z : ℕ}

/-- The block that is kept back is one of the allocator below. -/
def BackupOk (ok : σ → Prop) (own : σ → ℕ → Option γ) (s : BackupAlloc σ) : Prop :=
  ok s.underlying ∧ ∀ b, s.backup = some b → ∃ c, own s.underlying b = some c

/-- The user owns the blocks that are not kept back. -/
def backupOwn (own : σ → ℕ → Option γ) (s : BackupAlloc σ) (b : ℕ) : Option γ :=
  if s.backup = some b then none else own s.underlying b

/-- An owned block is not kept back. -/
theorem backupOwn_eq_some {s : BackupAlloc σ} {b : ℕ} {c : γ} :
    backupOwn own s b = some c ↔ s.backup ≠ some b ∧ own s.underlying b = some c := by
  rw [backupOwn]
  split <;> simp_all

/-- The pool above an allocator keeps what the user owns. -/
theorem backupAlloc_lawful (hops : ops.Lawful ok own fresh z) :
    (backupAlloc ops).Lawful (BackupOk ok own) (backupOwn own) (fun s => fresh s.underlying) z where
  notMem {s} hok := by
    rw [backupOwn, hops.notMem hok.1, ite_self]
  read_eq {s b c} hok hb := hops.read_eq hok.1 (backupOwn_eq_some.mp hb).2
  write_spec {s b c} hok hb c' := by
    obtain ⟨hne, hb⟩ := backupOwn_eq_some.mp hb
    obtain ⟨s', hwrite, hok', hown⟩ := hops.write_spec hok.1 hb c'
    refine ⟨{ s with underlying := s' }, ?_, ⟨hok', fun b' hb' => ?_⟩, ?_⟩
    · simp only [backupAlloc, hwrite, Option.bind_eq_bind, Option.bind_some]
    · obtain ⟨c'', hc''⟩ := hok.2 b' hb'
      have hb'b : b' ≠ b := by
        rintro rfl
        exact hne hb'
      exact ⟨c'', by rw [hown, Function.update_of_ne hb'b, hc'']⟩
    · funext b'
      simp only [backupOwn, hown, Function.update_apply]
      by_cases hb'b : b' = b
      · rw [if_pos hb'b, if_pos hb'b, if_neg (by rwa [hb'b])]
      · rw [if_neg hb'b, if_neg hb'b]
  alloc_spec {s a} hok hfresh := by
    cases hbackup : s.backup with
    | some b =>
      obtain ⟨c, hc⟩ := hok.2 b hbackup
      refine ⟨b, c, { s with backup := none }, by simp only [backupAlloc, hbackup],
        ⟨hok.1, fun b' hb' => by cases hb'⟩, by simp [backupOwn, hbackup], ?_⟩
      funext b'
      simp only [backupOwn, hbackup, Function.update_apply, Option.some.injEq, reduceCtorEq, if_false]
      by_cases hb'b : b' = b
      · rw [if_pos hb'b, hb'b, hc]
      · rw [if_neg hb'b, if_neg (Ne.symm hb'b)]
    | none =>
      obtain ⟨b, c, s', halloc, hok', hb, hown⟩ := hops.alloc_spec hok.1 hfresh
      refine ⟨b, c, { s with underlying := s' }, ?_, ⟨hok', fun b' hb' => ?_⟩, ?_, ?_⟩
      · simp only [backupAlloc, hbackup, halloc, Option.bind_eq_bind, Option.bind_some]
      · exact absurd (hbackup.symm.trans hb') (Option.some_ne_none b').symm
      · simp [backupOwn, hbackup, hb]
      · funext b'
        simp only [backupOwn, hbackup, hown, reduceCtorEq, if_false, Function.update_apply]
  dealloc_spec {s b c} hok hb := by
    obtain ⟨hne, hb⟩ := backupOwn_eq_some.mp hb
    cases hbackup : s.backup with
    | none =>
      refine ⟨{ s with backup := some b }, by simp only [backupAlloc, hbackup],
        ⟨hok.1, fun b' hb' => ?_⟩, ?_⟩
      · obtain rfl := Option.some.inj hb'
        exact ⟨c, hb⟩
      · funext b'
        simp only [backupOwn, hbackup, Function.update_apply, Option.some.injEq, reduceCtorEq, if_false]
        by_cases hb'b : b' = b
        · rw [if_pos hb'b, if_pos hb'b.symm]
        · rw [if_neg hb'b, if_neg (Ne.symm hb'b)]
    | some kept =>
      obtain ⟨s', hdealloc, hok', hown⟩ := hops.dealloc_spec hok.1 hb
      have hkept : kept ≠ b := by
        rintro rfl
        exact hne hbackup
      refine ⟨{ s with underlying := s' }, ?_, ⟨hok', fun b' hb' => ?_⟩, ?_⟩
      · simp only [backupAlloc, hbackup, hdealloc, Option.bind_eq_bind, Option.bind_some]
      · obtain rfl := Option.some.inj (hbackup.symm.trans hb')
        obtain ⟨c', hc'⟩ := hok.2 kept hbackup
        exact ⟨c', by rw [hown, Function.update_of_ne hkept, hc']⟩
      · funext b'
        simp only [backupOwn, hbackup, hown, Function.update_apply]
        by_cases hb'b : b' = b
        · rw [if_pos hb'b, if_pos hb'b, ite_self]
        · rw [if_neg hb'b, if_neg hb'b]

/-- The destructor of the pool leaves the allocator below without a block. -/
theorem BackupAlloc.destroy_spec (hops : ops.Lawful ok own fresh z) {s : BackupAlloc σ}
    (hok : BackupOk ok own s) (hown : ∀ b, backupOwn own s b = none) :
    ∃ s', BackupAlloc.destroy ops s = some s' ∧ ok s' ∧ ∀ b, own s' b = none := by
  cases hbackup : s.backup with
  | none =>
    refine ⟨s.underlying, by simp only [BackupAlloc.destroy, hbackup], hok.1, fun b => ?_⟩
    simpa [backupOwn, hbackup] using hown b
  | some kept =>
    obtain ⟨c, hc⟩ := hok.2 kept hbackup
    obtain ⟨s', hdealloc, hok', hown'⟩ := hops.dealloc_spec hok.1 hc
    refine ⟨s', by simp only [BackupAlloc.destroy, hbackup, hdealloc], hok', fun b => ?_⟩
    rw [hown', Function.update_apply]
    split
    · rfl
    · next hne =>
      have hb := hown b
      rwa [backupOwn, if_neg (by rw [hbackup]; exact fun h => hne (Option.some.inj h).symm)] at hb

end Backup

/-! ## The result -/

/-- Every sequence of pushes and pops, on a `StackThin` and on a `Stack` with its pool of one block:
the stack behaves as a list that is last in, first out, no operation accesses a deallocated block, and
at the end every block that was allocated is deallocated exactly once. -/
theorem stack_lifo {α : Type} (z : ℕ) :
    (∀ (l : List α) (st : StackThin (BlockHeap (CellBlock α))),
      StackThin.Run (heapAlloc .uninit) (HeapFresh z) z .empty l st →
      StackThin.Lifo (heapAlloc .uninit) (HeapFresh z) z l st ∧
      ∃ n, ∀ fuel ≥ n, ∃ h, st.dealloc (heapAlloc .uninit) z fuel = some h ∧
        h.freed.Perm (List.range h.allocations)) ∧
    ∀ (l : List α) (st : StackThin (BackupAlloc (BlockHeap (CellBlock α)))),
      StackThin.Run (backupAlloc (heapAlloc .uninit)) (fun s => HeapFresh z s.underlying) z
        ⟨none, .empty⟩ l st →
      StackThin.Lifo (backupAlloc (heapAlloc .uninit)) (fun s => HeapFresh z s.underlying) z l st ∧
      ∃ n, ∀ fuel ≥ n, ∃ h, stackDestroy (heapAlloc .uninit) z fuel st = some h ∧
        h.freed.Perm (List.range h.allocations) := by
  have hheap := heapAlloc_lawful (CellBlock.uninit (ε := α)) z
  have hpool := backupAlloc_lawful hheap
  have hempty : HeapOk z (BlockHeap.empty (γ := CellBlock α)) := ⟨.empty, rfl⟩
  constructor
  · intro l st hrun
    have hstacks := hrun.stacks hheap hempty rfl
    refine ⟨hstacks.lifo hheap, ?_⟩
    obtain ⟨n, hn⟩ := hstacks.dealloc_spec hheap
    refine ⟨n, fun fuel hfuel => ?_⟩
    obtain ⟨h, hdealloc, hok, hnone⟩ := hn fuel hfuel
    exact ⟨h, hdealloc, hok.sound.freed_perm hnone⟩
  · intro l st hrun
    have hstacks := hrun.stacks hpool ⟨hempty, fun b hb => by cases hb⟩ rfl
    refine ⟨hstacks.lifo hpool, ?_⟩
    obtain ⟨n, hn⟩ := hstacks.dealloc_spec hpool
    refine ⟨n, fun fuel hfuel => ?_⟩
    obtain ⟨s, hdealloc, hok, hnone⟩ := hn fuel hfuel
    obtain ⟨h, hdestroy, hok', hnone'⟩ := BackupAlloc.destroy_spec hheap hok hnone
    refine ⟨h, ?_, hok'.sound.freed_perm hnone'⟩
    simp only [stackDestroy, hdealloc, hdestroy, Option.bind_eq_bind, Option.bind_some]

/-- The first push needs a block, and its element is popped. -/
theorem stack_lifo_push :
    (∃ st st' : StackThin (BlockHeap (CellBlock ℕ)),
      st.pop (heapAlloc .uninit) 1 = some (7, st')) ∧
    ∃ st st' : StackThin (BackupAlloc (BlockHeap (CellBlock ℕ))),
      st.pop (backupAlloc (heapAlloc .uninit)) 1 = some (7, st') := by
  have hthin : StackThin.Run (heapAlloc (.uninit : CellBlock ℕ)) (HeapFresh 1) 1 .empty [] _ := .init
  have hpool : StackThin.Run (backupAlloc (heapAlloc (.uninit : CellBlock ℕ)))
    (fun s => HeapFresh 1 s.underlying) 1 ⟨none, .empty⟩ [] _ := .init
  exact ⟨⟨_, ((stack_lifo 1).1 _ _ (hthin.push (a := 5) ⟨rfl, by decide⟩ rfl)).1.pop_eq 7 [] rfl⟩,
    _, ((stack_lifo 1).2 _ _ (hpool.push (a := 5) ⟨rfl, by decide⟩ rfl)).1.pop_eq 7 [] rfl⟩

end VeronaRt
