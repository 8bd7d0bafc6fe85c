import Mathlib.Data.BitVec
import Mathlib.Data.Set.Function
import Mathlib.Order.Defs.Unbundled
import VeronaFs.Foundation.Feistel
import VeronaFs.Runtime.BehaviourCore

/-!
# The order of cowns under systematic testing

`Scramble` permutes 64-bit numbers with eight round keys, and `BehaviourCore::schedule` sorts the
slots of a behaviour by the permuted numbers of their cowns.  The loop of `perm` keeps two halves of
32 bits in words of 64 bits; it is a Feistel network on the halves (`perm_eq`), so it is a bijection
for all keys.  The numbers come from a counter that is reset when a run of the scheduler is over and
its objects are gone, so no two objects in use share one, and the order is a strict total order.
-/

namespace VeronaRt

open Foundation

/-! ## The permutation -/

/-- A scrambler with its round keys. -/
structure Scramble where
  /-- The round keys. -/
  keys : Vector (BitVec 64) 8

namespace Scramble

/-- The number of bits of a half. -/
def PTR_HALF_SHIFT : ℕ := 32

/-- The bits of the bottom half. -/
def MASK_BOTTOM : BitVec 64 := (1 <<< PTR_HALF_SHIFT) - 1

/-- One round on the words `l` and `r`. -/
def round (s : BitVec 64 × BitVec 64) (key : BitVec 64) : BitVec 64 × BitVec 64 :=
  let nl := s.2 ^^^ (s.1 * key)
  (nl &&& MASK_BOTTOM, s.1)

/-- `Scramble::perm`. -/
def perm (k : Scramble) (p : BitVec 64) : BitVec 64 :=
  let s := k.keys.toList.foldl round (p &&& MASK_BOTTOM, p >>> PTR_HALF_SHIFT)
  s.1 + (s.2 <<< PTR_HALF_SHIFT)

/-! ## The network behind it -/

/-- The halves of a word. -/
def halves (p : BitVec 64) : BitVec 32 × BitVec 32 :=
  (p.setWidth 32, (p >>> PTR_HALF_SHIFT).setWidth 32)

/-- The word with the given halves. -/
def join (h : BitVec 32 × BitVec 32) : BitVec 64 :=
  h.1.setWidth 64 + (h.2.setWidth 64 <<< PTR_HALF_SHIFT)

/-- Two halves as the loop keeps them, each in a word. -/
def widen (h : BitVec 32 × BitVec 32) : BitVec 64 × BitVec 64 :=
  (h.1.setWidth 64, h.2.setWidth 64)

/-- Masking a word leaves its bottom half. -/
theorem and_maskBottom (x : BitVec 64) : x &&& MASK_BOTTOM = (x.setWidth 32).setWidth 64 := by
  refine BitVec.eq_of_toNat_eq ?_
  have hmask : MASK_BOTTOM.toNat = 2 ^ 32 - 1 := rfl
  rw [BitVec.toNat_and, hmask, Nat.and_two_pow_sub_one_eq_mod, BitVec.toNat_setWidth,
    BitVec.toNat_setWidth]
  omega

/-- The loop starts with the halves of its argument. -/
theorem widen_halves (p : BitVec 64) :
    widen (halves p) = (p &&& MASK_BOTTOM, p >>> PTR_HALF_SHIFT) := by
  have htop : ((p >>> PTR_HALF_SHIFT).setWidth 32).setWidth 64 = p >>> PTR_HALF_SHIFT := by
    refine BitVec.eq_of_toNat_eq ?_
    simp only [BitVec.toNat_setWidth, BitVec.toNat_ushiftRight, PTR_HALF_SHIFT,
      Nat.shiftRight_eq_div_pow]
    omega
  rw [widen, halves, htop, and_maskBottom]

/-- A word has the halves it is cut into. -/
theorem join_halves (p : BitVec 64) : join (halves p) = p := by
  refine BitVec.eq_of_toNat_eq ?_
  simp only [join, halves, PTR_HALF_SHIFT, BitVec.toNat_add, BitVec.toNat_shiftLeft,
    BitVec.toNat_setWidth, BitVec.toNat_ushiftRight, Nat.shiftLeft_eq, Nat.shiftRight_eq_div_pow]
  omega

/-- A word is cut into the halves it has. -/
theorem halves_join (h : BitVec 32 × BitVec 32) : halves (join h) = h := by
  refine Prod.ext (BitVec.eq_of_toNat_eq ?_) (BitVec.eq_of_toNat_eq ?_) <;>
  · simp only [join, halves, PTR_HALF_SHIFT, BitVec.toNat_add, BitVec.toNat_shiftLeft,
      BitVec.toNat_setWidth, BitVec.toNat_ushiftRight, Nat.shiftLeft_eq, Nat.shiftRight_eq_div_pow]
    omega

/-- What a round does to the half that it reads. -/
def mix (key : BitVec 64) (l : BitVec 32) : BitVec 32 := l * key.setWidth 32

/-- A round keeps the halves in range and is a round of the network on them. -/
theorem round_widen (h : BitVec 32 × BitVec 32) (key : BitVec 64) :
    round (widen h) key = widen (Feistel.round (· ^^^ ·) (mix key) h) := by
  have hbottom : (h.2.setWidth 64 ^^^ h.1.setWidth 64 * key).setWidth 32 =
      h.2 ^^^ h.1 * key.setWidth 32 := by
    rw [BitVec.setWidth_xor, BitVec.setWidth_mul _ _ (by decide), BitVec.setWidth_setWidth_of_le _
      (by decide), BitVec.setWidth_setWidth_of_le _ (by decide), BitVec.setWidth_eq,
      BitVec.setWidth_eq]
  simp only [round, widen, and_maskBottom, hbottom, Feistel.round, mix]

/-- Combining twice with the same half changes nothing. -/
theorem xor_xor_cancel (a b : BitVec 32) : a ^^^ b ^^^ b = a := by
  rw [BitVec.xor_assoc, BitVec.xor_self, BitVec.xor_zero]

/-- The loop is the network on the halves. -/
theorem foldl_round (keys : List (BitVec 64)) (h : BitVec 32 × BitVec 32) :
    keys.foldl round (widen h) =
      widen (Feistel.network xor_xor_cancel (keys.map mix) h) := by
  induction keys generalizing h with
  | nil => rfl
  | cons key keys ih =>
    rw [List.foldl_cons, round_widen, ih]
    rfl

/-- The halves of a word as a bijection. -/
def halvesEquiv : BitVec 64 ≃ BitVec 32 × BitVec 32 where
  toFun := halves
  invFun := join
  left_inv := join_halves
  right_inv := halves_join

/-- The network of a scrambler on words. -/
def network (k : Scramble) : Equiv.Perm (BitVec 64) :=
  (halvesEquiv.trans (Feistel.network xor_xor_cancel (k.keys.toList.map mix))).trans
    halvesEquiv.symm

/-- `perm` is its network. -/
theorem perm_eq (k : Scramble) (p : BitVec 64) : k.perm p = k.network p := by
  have hloop := foldl_round k.keys.toList (halves p)
  rw [widen_halves] at hloop
  rw [perm, hloop]
  rfl

/-- Whatever the round keys are, `perm` is a bijection. -/
theorem perm_bijective (k : Scramble) : Function.Bijective k.perm := by
  have heq : k.perm = k.network := funext k.perm_eq
  rw [heq]
  exact k.network.bijective

example : (Scramble.mk (Vector.replicate 8 1)).perm 1 = 0x100000000 := by decide

end Scramble

/-! ## The numbers of the objects -/

/-- What the runtime knows about its objects under systematic testing. -/
structure ObjectIds (O : Type*) where
  /-- `id_source`: the number of the next object. -/
  idSource : BitVec 64
  /-- The objects that were registered and not deallocated. -/
  live : Set O
  /-- `sys_id`, the number in the header of an object. -/
  sysId : O → BitVec 64

namespace ObjectIds

variable {O : Type*}

/-- The objects after `reset_ids`, at the start of a run of the scheduler. -/
def reset (sysId : O → BitVec 64) : ObjectIds O := ⟨0, ∅, sysId⟩

/-- `register_object`. -/
def registerObject [DecidableEq O] (s : ObjectIds O) (o : O) : ObjectIds O where
  idSource := s.idSource + 1
  live := insert o s.live
  sysId := Function.update s.sysId o s.idSource

/-- `dealloc`. -/
def dealloc (s : ObjectIds O) (o : O) : ObjectIds O := { s with live := s.live \ {o} }

/-- `Object::id`. -/
def id (k : Scramble) (s : ObjectIds O) (o : O) : BitVec 64 := k.perm (s.sysId o)

/-- The order of cowns in `BehaviourCore::schedule`. -/
def Before (k : Scramble) (s : ObjectIds O) (a b : O) : Prop := s.id k a > s.id k b

/-- `compare`, the order of the slots. -/
def compare (k : Scramble) (s : ObjectIds O) {count : ℕ} (slots : Fin count → O)
    (i j : Fin count) : Prop :=
  s.Before k (slots i) (slots j)

variable [DecidableEq O]

/-- The numbers after an object was registered. -/
theorem sysId_registerObject (s : ObjectIds O) (o : O) :
    (s.registerObject o).sysId = Function.update s.sysId o s.idSource := rfl

/-- The states of a run of the scheduler in which `n` objects were registered so far. -/
inductive Run : ℕ → ObjectIds O → Prop
  /-- The numbers were reset. -/
  | reset (sysId : O → BitVec 64) : Run 0 (.reset sysId)
  /-- An object is registered. -/
  | register {n : ℕ} {s : ObjectIds O} {o : O} (h : Run n s) (ho : o ∉ s.live) :
      Run (n + 1) (s.registerObject o)
  /-- An object is deallocated. -/
  | dealloc {n : ℕ} {s : ObjectIds O} (h : Run n s) (o : O) : Run n (s.dealloc o)

/-- The objects in use have the numbers that `serial` gives them, each its own. -/
structure Numbered (serial : O → ℕ) (n : ℕ) (s : ObjectIds O) : Prop where
  /-- The counter. -/
  idSource : s.idSource = BitVec.ofNat 64 n
  /-- The numbers were given out. -/
  lt : ∀ o ∈ s.live, serial o < n
  /-- The headers have them. -/
  sysId : ∀ o ∈ s.live, s.sysId o = BitVec.ofNat 64 (serial o)
  /-- No two objects share a number. -/
  injOn : Set.InjOn serial s.live

/-- In every run the objects are numbered. -/
theorem Run.numbered {n : ℕ} {s : ObjectIds O} (h : s.Run n) : ∃ serial, Numbered serial n s := by
  induction h with
  | reset sysId =>
    exact ⟨fun _ => 0, rfl, fun _ ho => absurd ho (Set.notMem_empty _),
      fun _ ho => absurd ho (Set.notMem_empty _), Set.injOn_empty _⟩
  | @register n s o h ho ih =>
    obtain ⟨serial, hnum⟩ := ih
    have hne : ∀ x ∈ s.live, x ≠ o := fun x hx heq => ho (heq ▸ hx)
    refine ⟨Function.update serial o n, ?_, ?_, ?_, ?_⟩
    · rw [registerObject, hnum.idSource, BitVec.ofNat_add]
      rfl
    · rintro x (rfl | hx)
      · rw [Function.update_self]
        exact Nat.lt_succ_self n
      · rw [Function.update_of_ne (hne x hx)]
        exact (hnum.lt x hx).trans (Nat.lt_succ_self n)
    · rintro x (rfl | hx)
      · rw [sysId_registerObject, Function.update_self, Function.update_self, hnum.idSource]
      · rw [sysId_registerObject, Function.update_of_ne (hne x hx), Function.update_of_ne (hne x hx),
          hnum.sysId x hx]
    · have hold : ∀ x ∈ s.live, Function.update serial o n x = serial x :=
        fun x hx => Function.update_of_ne (hne x hx) _ _
      rintro x (rfl | hx) y (rfl | hy) heq
      · rfl
      · rw [Function.update_self, hold y hy] at heq
        exact absurd heq.symm (hnum.lt y hy).ne
      · rw [Function.update_self, hold x hx] at heq
        exact absurd heq (hnum.lt x hx).ne
      · rw [hold x hx, hold y hy] at heq
        exact hnum.injOn hx hy heq
  | @dealloc n s h o ih =>
    obtain ⟨serial, hnum⟩ := ih
    exact ⟨serial, hnum.idSource, fun x hx => hnum.lt x hx.1, fun x hx => hnum.sysId x hx.1,
      hnum.injOn.mono Set.sdiff_subset⟩

/-- As long as the counter has not come round, no two objects in use share a number. -/
theorem Run.sysId_injOn {n : ℕ} {s : ObjectIds O} (h : s.Run n) (hn : n ≤ 2 ^ 64) :
    Set.InjOn s.sysId s.live := by
  obtain ⟨serial, hnum⟩ := h.numbered
  intro x hx y hy heq
  have hlt : ∀ o ∈ s.live, serial o < 2 ^ 64 := fun o ho => (hnum.lt o ho).trans_le hn
  rw [hnum.sysId x hx, hnum.sysId y hy] at heq
  have hnat := congrArg BitVec.toNat heq
  rw [BitVec.toNat_ofNat, BitVec.toNat_ofNat, Nat.mod_eq_of_lt (hlt x hx),
    Nat.mod_eq_of_lt (hlt y hy)] at hnat
  exact hnum.injOn hx hy hnat

omit [DecidableEq O] in
/-- Objects with their own numbers have their own permuted numbers. -/
theorem id_injOn {s : ObjectIds O} (k : Scramble) (h : Set.InjOn s.sysId s.live) :
    Set.InjOn (s.id k) s.live :=
  fun _ hx _ hy heq => h hx hy (k.perm_bijective.injective heq)

/-! ## The order -/

omit [DecidableEq O] in
/-- Distinct values are in a strict total order. -/
theorem strictTotalOrder_of_injective {ι : Type*} {f : ι → BitVec 64} (hf : Function.Injective f) :
    IsStrictTotalOrder ι fun a b => f a > f b where
  irrefl a := BitVec.lt_irrefl (f a)
  trans a b c hab hbc := BitVec.lt_trans hbc hab
  trichotomous a b hab hba := by
    rw [gt_iff_lt, BitVec.not_lt] at hab hba
    exact hf (BitVec.le_antisymm hab hba)

/-- Whatever the round keys are, `perm` is a bijection, and the order of its values is a strict total
order on all numbers.  In every run of the scheduler it is one on the objects in use, and so `compare`
is one on slots with distinct cowns. -/
theorem schedule_order (k : Scramble) :
    Function.Bijective k.perm ∧
      IsStrictTotalOrder (BitVec 64) (fun i j => k.perm i > k.perm j) ∧
      ∀ {n : ℕ} {s : ObjectIds O}, s.Run n → n ≤ 2 ^ 64 →
        (IsStrictTotalOrder s.live fun a b => s.Before k a b) ∧
        ∀ {count : ℕ} (slots : Fin count → O), (∀ i, slots i ∈ s.live) →
          Function.Injective slots → IsStrictTotalOrder (Fin count) (s.compare k slots) := by
  refine ⟨k.perm_bijective, strictTotalOrder_of_injective k.perm_bijective.injective, ?_⟩
  intro n s hrun hn
  have hinj : Set.InjOn (s.id k) s.live := id_injOn k (hrun.sysId_injOn hn)
  refine ⟨strictTotalOrder_of_injective (Set.injOn_iff_injective.mp hinj), ?_⟩
  intro count slots hlive hslots
  have hids : Function.Injective fun i => s.id k (slots i) :=
    fun i j heq => hslots (hinj (hlive i) (hlive j) heq)
  exact strictTotalOrder_of_injective hids

/-- Two cowns, registered one after the other. -/
theorem schedule_order_two :
    IsStrictTotalOrder (((ObjectIds.reset fun _ : ℕ => 0).registerObject 0).registerObject 1).live
      fun a b => (((ObjectIds.reset fun _ : ℕ => 0).registerObject 0).registerObject 1).Before
        ⟨Vector.replicate 8 1⟩ a b := by
  have hfirst : (((ObjectIds.reset fun _ : ℕ => 0).registerObject 0)).Run 1 :=
    .register (.reset _) (Set.notMem_empty 0)
  have hrun : (((ObjectIds.reset fun _ : ℕ => 0).registerObject 0).registerObject 1).Run 2 := by
    refine .register hfirst ?_
    rintro (h | h)
    · cases h
    · exact h
  exact ((schedule_order ⟨Vector.replicate 8 1⟩).2.2 hrun (by decide)).1

/-- The linear order of the objects in use by their permuted numbers. -/
@[reducible] def linearOrder (k : Scramble) (s : ObjectIds O) (h : Set.InjOn s.sysId s.live) :
    LinearOrder s.live :=
  LinearOrder.lift' (fun o : s.live => (s.id k o).toNat)
    fun _ _ heq => Set.injOn_iff_injective.mp (id_injOn k h) (BitVec.eq_of_toNat_eq heq)

omit [DecidableEq O] in
/-- In this order `schedule` acquires the cowns of a behaviour, so any two behaviours acquire the
cowns that they share in the same order. -/
theorem order_before {β : Type*} (k : Scramble) {s : ObjectIds O} (h : Set.InjOn s.sysId s.live)
    (P : Behaviours β s.live) (b : β) :
    letI := linearOrder k s h
    (P.order b).Pairwise fun a c : s.live => s.Before k a c := by
  let _ := linearOrder k s h
  refine ((P.pairwise_order b).and (P.nodup_order b)).imp fun {a c} hac => ?_
  obtain ⟨hle, hne⟩ := hac
  have hle : (s.id k c).toNat ≤ (s.id k a).toNat := hle
  have hne : (s.id k c).toNat ≠ (s.id k a).toNat := fun heq =>
    hne (Subtype.ext (id_injOn k h a.2 c.2 (BitVec.eq_of_toNat_eq heq.symm)))
  exact BitVec.lt_def.mpr (lt_of_le_of_ne hle hne)

end ObjectIds

end VeronaRt
