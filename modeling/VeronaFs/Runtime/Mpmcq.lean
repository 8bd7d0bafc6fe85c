import Mathlib.Data.Finset.Basic
import Mathlib.Logic.Relation
import VeronaFs.Foundation.Calls
import VeronaFs.Foundation.Deque

/-!
# The scheduler queue

`MPMCQ` in atomic steps.  `enqueue` exchanges the back of the queue and links its node in a later
step, so that the list is in pieces while such stores are pending; `enqueue_front` and `dequeue`
change the front with a store-conditional, which fails when the front was changed since it was read,
and may fail for no reason.

The cell at the front has a version that every store-conditional changes.  A caller may only enqueue
a node that it owns: one that is in no queue, or that it got from `dequeue`.
-/

namespace VeronaRt.Mpmcq

open Foundation

/-! ## Code -/

/-- The queue and its nodes. -/
structure Queue where
  /-- `next_in_queue` of every node. -/
  next : ℕ → Option ℕ
  /-- `back`. -/
  back : ℕ
  /-- The node in `front`. -/
  front : ℕ
  /-- The version of `front`. -/
  version : ℕ
  /-- The number of store-conditionals so far. -/
  attempts : ℕ
  /-- The nodes that a caller may enqueue. -/
  owned : ℕ → Bool

/-- Where a call is. -/
inductive Pc
  /-- `enqueue`: the store of the null pointer. -/
  | enqueueNull (node : ℕ)
  /-- `enqueue`: the exchange. -/
  | enqueueExchange (node : ℕ)
  /-- `enqueue`: the assertion. -/
  | enqueueAssert (b node : ℕ)
  /-- `enqueue`: the store of the link. -/
  | enqueueLink (b node : ℕ)
  /-- `enqueue_front`: the read of `front`. -/
  | frontRead (node : ℕ)
  /-- `enqueue_front`: the store of the link. -/
  | frontStore (node ptr version : ℕ)
  /-- `enqueue_front`: the store-conditional. -/
  | frontCond (node ptr version : ℕ)
  /-- `dequeue`: the read of `front`. -/
  | dequeueRead
  /-- `dequeue`: the load of the link. -/
  | dequeueNext (fnt version : ℕ)
  /-- `dequeue`: the store-conditional. -/
  | dequeueCond (fnt version next : ℕ)
  /-- `dequeue`: the node is returned. -/
  | dequeueReturn (fnt : ℕ)
deriving DecidableEq, Repr

/-- The effect of a step.  An exchange is a push at the back, a store-conditional that succeeds is a
push or a pop at the front. -/
abbrev Effect := Calls.Effect Queue Pc (Deque.Op ℕ)

/-- `store_conditional`: `weak k` says that the `k`-th one fails for no reason. -/
def storeConditional (weak : ℕ → Bool) (q : Queue) (version node : ℕ) (success : Option Pc)
    (event : Deque.Op ℕ) (failure : Pc) : Effect :=
  if q.version = version ∧ weak q.attempts = false then
    ⟨{ q with front := node, version := q.version + 1, attempts := q.attempts + 1 }, success, [event]⟩
  else ⟨{ q with attempts := q.attempts + 1 }, some failure, []⟩

/-- The next step of a call. -/
def code (weak : ℕ → Bool) : Pc → Queue → Option Effect
  | .enqueueNull node, q =>
    some ⟨{ q with next := Function.update q.next node none }, some (.enqueueExchange node), []⟩
  | .enqueueExchange node, q =>
    some ⟨{ q with back := node }, some (.enqueueAssert q.back node), [.pushBack node]⟩
  | .enqueueAssert b node, q =>
    if q.next b = none then some ⟨q, some (.enqueueLink b node), []⟩ else none
  | .enqueueLink b node, q =>
    some ⟨{ q with next := Function.update q.next b (some node) }, none, []⟩
  | .frontRead node, q => some ⟨q, some (.frontStore node q.front q.version), []⟩
  | .frontStore node ptr version, q =>
    some ⟨{ q with next := Function.update q.next node (some ptr) },
      some (.frontCond node ptr version), []⟩
  | .frontCond node _ version, q =>
    some (storeConditional weak q version node none (.pushFront node)
      (.frontStore node q.front q.version))
  | .dequeueRead, q => some ⟨q, some (.dequeueNext q.front q.version), []⟩
  | .dequeueNext fnt version, q =>
    match q.next fnt with
    | none => some ⟨q, none, []⟩
    | some next => some ⟨q, some (.dequeueCond fnt version next), []⟩
  | .dequeueCond fnt version next, q =>
    some (storeConditional weak q version next (some (.dequeueReturn fnt)) (.pop fnt)
      (.dequeueNext q.front q.version))
  | .dequeueReturn fnt, q => some ⟨{ q with owned := Function.update q.owned fnt true }, none, []⟩

/-- A new call: a node that is enqueued is owned by the caller. -/
def starts (q : Queue) : Pc → Queue → Prop
  | .enqueueNull node, q' | .frontRead node, q' =>
    q.owned node = true ∧ q' = { q with owned := Function.update q.owned node false }
  | .dequeueRead, q' => q' = q
  | .enqueueExchange _, _ | .enqueueAssert _ _, _ | .enqueueLink _ _, _ | .frontStore _ _ _, _
  | .frontCond _ _ _, _ | .dequeueNext _ _, _ | .dequeueCond _ _ _, _ | .dequeueReturn _, _ => False

/-- The calls on one queue. -/
def calls (weak : ℕ → Bool) : Calls Queue Pc (Deque.Op ℕ) where
  starts := starts
  code := code weak

/-- A new queue with its token. -/
def init (token : ℕ) : Calls.Config Queue Pc where
  state :=
    { next := fun _ => none, back := token, front := token, version := 0, attempts := 0
      owned := fun node => decide (node ≠ token) }
  calls := 0

/-! ## What is in the queue -/

/-- The nodes that were inserted and not yet dequeued. -/
def inside (token : ℕ) (tr : List (Deque.Op ℕ)) : Finset ℕ :=
  tr.foldl (fun S x => match x with
    | .pushBack node | .pushFront node => insert node S
    | .pop node => S.erase node) {token}

/-- The call will link `node` behind another node. -/
def Pc.Links (node : ℕ) (p : Pc) : Prop :=
  ∃ b, p = .enqueueAssert b node ∨ p = .enqueueLink b node

/-- `node` is at the end of links from `start`. -/
def Linked (q : Queue) (start node : ℕ) : Prop :=
  Relation.ReflTransGen (fun a b => q.next a = some b) start node

/-! ## The invariant -/

/-- One if the call owns the node. -/
@[simp] def Pc.owns (node : ℕ) : Pc → ℕ
  | .enqueueNull n | .enqueueExchange n | .frontRead n | .frontStore n _ _ | .frontCond n _ _
  | .dequeueReturn n => if n = node then 1 else 0
  | .enqueueAssert _ _ | .enqueueLink _ _ | .dequeueRead | .dequeueNext _ _ | .dequeueCond _ _ _ => 0

/-- One if the call will link a node behind `b`. -/
@[simp] def Pc.links (b : ℕ) : Pc → ℕ
  | .enqueueAssert c _ | .enqueueLink c _ => if c = b then 1 else 0
  | .enqueueNull _ | .enqueueExchange _ | .frontRead _ | .frontStore _ _ _ | .frontCond _ _ _
  | .dequeueReturn _ | .dequeueRead | .dequeueNext _ _ | .dequeueCond _ _ _ => 0

/-- One if the call will link `node` behind `b`. -/
@[simp] def Pc.linksTo (b node : ℕ) : Pc → ℕ
  | .enqueueAssert c n | .enqueueLink c n => if c = b ∧ n = node then 1 else 0
  | .enqueueNull _ | .enqueueExchange _ | .frontRead _ | .frontStore _ _ _ | .frontCond _ _ _
  | .dequeueReturn _ | .dequeueRead | .dequeueNext _ _ | .dequeueCond _ _ _ => 0

/-- The front as it was read is an old one or the present one. -/
def Read (q : Queue) (ptr version : ℕ) : Prop :=
  version ≤ q.version ∧ (version = q.version → q.front = ptr)

/-- What a call relies on. -/
@[simp] def Pc.Relies (items : List ℕ) (q : Queue) : Pc → Prop
  | .enqueueExchange node => q.next node = none
  | .enqueueAssert b node | .enqueueLink b node => Adjacent items b node ∧ q.next b = none
  | .frontStore _ ptr version | .dequeueNext ptr version => Read q ptr version
  | .frontCond node ptr version => Read q ptr version ∧ q.next node = some ptr
  | .dequeueCond fnt version next =>
    Read q fnt version ∧ (version = q.version → q.next fnt = some next)
  | .enqueueNull _ | .frontRead _ | .dequeueRead | .dequeueReturn _ => True

/-- The nodes `items` are in the queue, in this order, and each is linked to the next one or will be
by a call in progress. -/
structure Holds (items : List ℕ) (q : Queue) (cs : Multiset Pc) : Prop where
  /-- No node is there twice. -/
  nodup : items.Nodup
  /-- The first node. -/
  front_eq : items.head? = some q.front
  /-- The last node. -/
  back_eq : items.getLast? = some q.back
  /-- Nothing is behind the last node. -/
  last_null : q.next q.back = none
  /-- Each node is linked to the next one, or a store is pending. -/
  linked : ∀ a b, Adjacent items a b →
    q.next a = some b ∨ q.next a = none ∧ 0 < Calls.total (Pc.linksTo a b) cs
  /-- At most one store to a node is pending. -/
  links_le : ∀ a, Calls.total (Pc.links a) cs ≤ 1
  /-- A node is in the queue, or a call owns it, or a caller does. -/
  owner : ∀ node, Calls.total (Pc.owns node) cs + (if q.owned node then 1 else 0) +
    (if node ∈ items then 1 else 0) = 1
  /-- Each call finds what it relies on. -/
  relies : ∀ p ∈ cs, p.Relies items q

section Relies

variable {items : List ℕ} {q : Queue} {r : Pc} {node b : ℕ}

/-- The link of a node that is neither in the queue nor owned by the call is written. -/
theorem Pc.Relies.store {v : Option ℕ} (h : r.Relies items q) (hnot : node ∉ items)
    (hfront : q.front ∈ items) (hr : r.owns node = 0) :
    r.Relies items { q with next := Function.update q.next node v } := by
  cases r <;> simp only [Relies, owns, Read, Function.update_apply] at h hr ⊢ <;>
    grind [Adjacent.left_mem]

/-- The link of a node in the queue that was null is written. -/
theorem Pc.Relies.link {v : Option ℕ} (h : r.Relies items q) (hb : q.next b = none)
    (hlinks : r.links b = 0) (hr : r.owns b = 0) :
    r.Relies items { q with next := Function.update q.next b v } := by
  cases r <;> simp only [Relies, links, owns, Read, Function.update_apply] at h hlinks hr ⊢ <;>
    grind

/-- A node is pushed at the back. -/
theorem Pc.Relies.pushBack (h : r.Relies items q) :
    r.Relies (items ++ [node]) { q with back := node } := by
  cases r <;> simp only [Relies, Read, adjacent_concat] at h ⊢ <;> grind

/-- A node is pushed at the front. -/
theorem Pc.Relies.pushFront {k : ℕ} (h : r.Relies items q) :
    r.Relies (node :: items)
      { q with front := node, version := q.version + 1, attempts := k } := by
  cases r <;> simp only [Relies, Read, adjacent_cons] at h ⊢ <;> grind

/-- The first node is popped. -/
theorem Pc.Relies.pop {k m f : ℕ} (h : r.Relies (f :: items) q) (hf : q.next f = some b) :
    r.Relies items { q with front := m, version := q.version + 1, attempts := k } := by
  cases r <;> simp only [Relies, Read, adjacent_cons] at h ⊢ <;> grind

/-- A store-conditional failed. -/
theorem Pc.Relies.fail {k : ℕ} (h : r.Relies items q) : r.Relies items { q with attempts := k } := by
  cases r <;> exact h

end Relies

namespace Holds

variable {items : List ℕ} {q q' : Queue} {p p' : Pc} {rest cs : Multiset Pc} {node b : ℕ}

/-- A node that a call owns is not in the queue. -/
theorem not_mem_of_owns (h : Holds items q (p ::ₘ rest)) (hp : p.owns node = 1) : node ∉ items := by
  have howner := h.owner node
  rw [Calls.total_cons, hp] at howner
  intro hmem
  rw [if_pos hmem] at howner
  omega

/-- A node that a call owns is owned by no other one. -/
theorem owns_eq_zero (h : Holds items q (p ::ₘ rest)) (hp : p.owns node = 1) {r : Pc}
    (hr : r ∈ rest) : r.owns node = 0 := by
  have howner := h.owner node
  have hle := Calls.le_total (w := Pc.owns node) hr
  rw [Calls.total_cons, hp] at howner
  omega

/-- The front is in the queue. -/
theorem front_mem (h : Holds items q cs) : q.front ∈ items := List.mem_of_head? h.front_eq

/-- The back is in the queue. -/
theorem back_mem (h : Holds items q cs) : q.back ∈ items := List.mem_of_getLast? h.back_eq

/-- A call in progress other than the one that takes a step. -/
theorem relies_rest (h : Holds items q (p ::ₘ rest)) {r : Pc} (hr : r ∈ rest) : r.Relies items q :=
  h.relies r (Multiset.mem_cons_of_mem hr)

/-- A step that changes no pointer. -/
theorem pass (p' : Pc) (h : Holds items q (p ::ₘ rest)) (howns : ∀ n, p'.owns n = p.owns n)
    (hlinks : ∀ a, p'.links a = p.links a) (hto : ∀ a b, p'.linksTo a b = p.linksTo a b)
    (hrelies : p'.Relies items q) : Holds items q (p' ::ₘ rest) where
  nodup := h.nodup
  front_eq := h.front_eq
  back_eq := h.back_eq
  last_null := h.last_null
  linked a b hab := by
    rw [Calls.total_cons, hto, ← Calls.total_cons]
    exact h.linked a b hab
  links_le a := by
    rw [Calls.total_cons, hlinks, ← Calls.total_cons]
    exact h.links_le a
  owner n := by
    rw [Calls.total_cons, howns, ← Calls.total_cons]
    exact h.owner n
  relies r hr := by
    rcases Multiset.mem_cons.mp hr with rfl | hr
    · exact hrelies
    · exact h.relies_rest hr

/-- A store to the link of a node that the call owns. -/
theorem store {v : Option ℕ} (p' : Pc) (h : Holds items q (p ::ₘ rest)) (hp : p.owns node = 1)
    (howns : ∀ n, p'.owns n = p.owns n) (hlinks : ∀ a, p'.links a = p.links a)
    (hto : ∀ a b, p'.linksTo a b = p.linksTo a b)
    (hrelies : p'.Relies items { q with next := Function.update q.next node v }) :
    Holds items { q with next := Function.update q.next node v } (p' ::ₘ rest) := by
  have hnot := h.not_mem_of_owns hp
  have hother {a : ℕ} (ha : a ∈ items) : Function.update q.next node v a = q.next a :=
    Function.update_of_ne (fun han : a = node => hnot (han ▸ ha)) _ _
  refine ⟨h.nodup, h.front_eq, h.back_eq, ?_, fun a b hab => ?_, fun a => ?_, fun n => ?_,
    fun r hr => ?_⟩
  · change Function.update q.next node v q.back = none
    rw [hother h.back_mem]
    exact h.last_null
  · change Function.update q.next node v a = some b ∨ Function.update q.next node v a = none ∧ _
    rw [hother hab.left_mem, Calls.total_cons, hto, ← Calls.total_cons]
    exact h.linked a b hab
  · rw [Calls.total_cons, hlinks, ← Calls.total_cons]
    exact h.links_le a
  · rw [Calls.total_cons, howns, ← Calls.total_cons]
    exact h.owner n
  · rcases Multiset.mem_cons.mp hr with rfl | hr
    · exact hrelies
    · exact (h.relies_rest hr).store hnot h.front_mem (h.owns_eq_zero hp hr)

/-- No store behind the back is pending. -/
theorem links_back (h : Holds items q cs) : Calls.total (Pc.links q.back) cs = 0 := by
  refine Calls.total_eq_zero.mpr fun r hr => ?_
  have hrelies := h.relies r hr
  have hlast {n : ℕ} (hadj : Adjacent items q.back n) : False := hadj.ne_last h.nodup h.back_eq
  cases r <;> simp only [Pc.links, Pc.Relies] at hrelies ⊢ <;> grind

/-- The exchange of `enqueue`. -/
theorem exchange (h : Holds items q (.enqueueExchange node ::ₘ rest)) :
    Holds (items ++ [node]) { q with back := node } (.enqueueAssert q.back node ::ₘ rest) := by
  have hnot : node ∉ items := h.not_mem_of_owns (by simp)
  have hnull : q.next node = none := h.relies _ (Multiset.mem_cons_self ..)
  have hback := h.links_back
  rw [Calls.total_cons, Pc.links, Nat.zero_add] at hback
  refine ⟨List.nodup_append'.mpr ⟨h.nodup, List.nodup_singleton node, by simpa using hnot⟩, ?_, ?_,
    hnull, fun a b hab => ?_, fun a => ?_, fun n => ?_, fun r hr => ?_⟩
  · change (items ++ [node]).head? = some q.front
    rw [List.head?_append, h.front_eq, Option.some_or]
  · simp
  · rcases adjacent_concat.mp hab with hab | ⟨ha, rfl⟩
    · have hlinked := h.linked a b hab
      simp only [Calls.total_cons, Pc.linksTo, Nat.zero_add] at hlinked ⊢
      exact hlinked.imp_right fun hnone => ⟨hnone.1, by omega⟩
    · obtain rfl := Option.some.inj (h.back_eq.symm.trans ha)
      refine Or.inr ⟨h.last_null, ?_⟩
      simp only [Calls.total_cons, Pc.linksTo, and_self, if_true]
      omega
  · have hle := h.links_le a
    simp only [Calls.total_cons, Pc.links] at hle ⊢
    split
    · next heq =>
      rw [← heq, hback]
    · omega
  · have howner := h.owner n
    simp only [Calls.total_cons, Pc.owns, List.mem_append, List.mem_singleton] at howner ⊢
    grind
  · rcases Multiset.mem_cons.mp hr with rfl | hr
    · exact ⟨adjacent_concat.mpr (Or.inr ⟨h.back_eq, rfl⟩), h.last_null⟩
    · exact (h.relies_rest hr).pushBack

/-- The store of the link of `enqueue`. -/
theorem link (h : Holds items q (.enqueueLink b node ::ₘ rest)) :
    Holds items { q with next := Function.update q.next b (some node) } rest := by
  obtain ⟨hadj, hnull⟩ := h.relies _ (Multiset.mem_cons_self ..)
  have hlinks := h.links_le b
  rw [Calls.total_cons, Pc.links, if_pos rfl] at hlinks
  refine ⟨h.nodup, h.front_eq, h.back_eq, ?_, fun a c hac => ?_, fun a => ?_, fun n => ?_,
    fun r hr => ?_⟩
  · change Function.update q.next b (some node) q.back = none
    have hne : q.back ≠ b := fun hback => hadj.ne_last h.nodup (hback ▸ h.back_eq)
    rw [Function.update_of_ne hne]
    exact h.last_null
  · change Function.update q.next b (some node) a = some c ∨
      Function.update q.next b (some node) a = none ∧ _
    rcases eq_or_ne a b with rfl | hab
    · rw [Function.update_self, hac.right_unique h.nodup hadj]
      exact Or.inl rfl
    · rw [Function.update_of_ne hab]
      have hlinked := h.linked a c hac
      have hne : ¬ (b = a ∧ node = c) := fun heq => hab heq.1.symm
      simpa only [Calls.total_cons, Pc.linksTo, if_neg hne, Nat.zero_add] using hlinked
  · have hle := h.links_le a
    rw [Calls.total_cons] at hle
    omega
  · simpa using h.owner n
  · have hzero : r.links b = 0 := by
      have hle := Calls.le_total (w := Pc.links b) hr
      omega
    have howns : r.owns b = 0 := by
      have howner := h.owner b
      have hle := Calls.le_total (w := Pc.owns b) hr
      rw [Calls.total_cons, if_pos hadj.left_mem] at howner
      omega
    exact (h.relies_rest hr).link hnull hzero howns

/-- The store-conditional of `enqueue_front` succeeds. -/
theorem pushFront {ptr : ℕ} (k : ℕ) (h : Holds items q (.frontCond node ptr q.version ::ₘ rest)) :
    Holds (node :: items) { q with front := node, version := q.version + 1, attempts := k } rest := by
  have hnot : node ∉ items := h.not_mem_of_owns (by simp)
  obtain ⟨⟨-, hread⟩, hnext⟩ := h.relies _ (Multiset.mem_cons_self ..)
  have hfront : q.front = ptr := hread rfl
  refine ⟨List.nodup_cons.mpr ⟨hnot, h.nodup⟩, rfl, ?_, h.last_null, fun a b hab => ?_, fun a => ?_,
    fun n => ?_, fun r hr => (h.relies_rest hr).pushFront⟩
  · change (node :: items).getLast? = some q.back
    rw [List.getLast?_cons, h.back_eq]
    rfl
  · rcases adjacent_cons.mp hab with ⟨rfl, hb⟩ | hab
    · left
      change q.next node = some b
      rw [hnext, ← hfront]
      exact h.front_eq.symm.trans hb
    · simpa using h.linked a b hab
  · simpa using h.links_le a
  · have howner := h.owner n
    simp only [Calls.total_cons, Pc.owns, List.mem_cons] at howner ⊢
    grind

/-- The store-conditional of `dequeue` succeeds. -/
theorem pop {fnt next : ℕ} (k : ℕ) (h : Holds items q (.dequeueCond fnt q.version next ::ₘ rest)) :
    ∃ items', items = fnt :: items' ∧
      Holds items' { q with front := next, version := q.version + 1, attempts := k }
        (.dequeueReturn fnt ::ₘ rest) := by
  obtain ⟨⟨-, hread⟩, hnext⟩ := h.relies _ (Multiset.mem_cons_self ..)
  obtain rfl : q.front = fnt := hread rfl
  have hnext : q.next q.front = some next := hnext rfl
  obtain ⟨items, rfl⟩ : ∃ l, items = q.front :: l := by
    cases items with
    | nil => cases h.front_eq
    | cons a l => exact ⟨l, congrArg (· :: l) (Option.some.inj h.front_eq)⟩
  cases items with
  | nil =>
    have hback : q.front = q.back := Option.some.inj h.back_eq
    have hnull := h.last_null
    rw [← hback, hnext] at hnull
    cases hnull
  | cons c l =>
    obtain ⟨hnot, hnodup⟩ := List.nodup_cons.mp h.nodup
    have hc : next = c := by
      rcases h.linked q.front c (adjacent_head c l) with hlink | ⟨hnull, -⟩
      · exact Option.some.inj (hnext.symm.trans hlink)
      · rw [hnext] at hnull
        cases hnull
    refine ⟨c :: l, rfl, hnodup, congrArg some hc.symm, ?_, h.last_null, fun a b hab => ?_,
      fun a => ?_, fun n => ?_, fun r hr => ?_⟩
    · have hback := h.back_eq
      rwa [List.getLast?_cons_cons] at hback
    · simpa using h.linked a b (adjacent_cons.mpr (Or.inr hab))
    · simpa using h.links_le a
    · have howner := h.owner n
      simp only [Calls.total_cons, Pc.owns, List.mem_cons] at howner hnot ⊢
      grind
    · rcases Multiset.mem_cons.mp hr with rfl | hr
      · trivial
      · exact (h.relies_rest hr).pop hnext

/-- A store-conditional fails. -/
theorem fail (k : ℕ) (h : Holds items q cs) : Holds items { q with attempts := k } cs where
  nodup := h.nodup
  front_eq := h.front_eq
  back_eq := h.back_eq
  last_null := h.last_null
  linked := h.linked
  links_le := h.links_le
  owner := h.owner
  relies r hr := (h.relies r hr).fail

/-- A call that owns no node and has no store pending returns. -/
theorem leave (h : Holds items q (p ::ₘ rest)) (howns : ∀ n, p.owns n = 0)
    (hlinks : ∀ a, p.links a = 0) (hto : ∀ a b, p.linksTo a b = 0) : Holds items q rest where
  nodup := h.nodup
  front_eq := h.front_eq
  back_eq := h.back_eq
  last_null := h.last_null
  linked a b hab := by
    have hlinked := h.linked a b hab
    rwa [Calls.total_cons, hto, Nat.zero_add] at hlinked
  links_le a := by
    have hle := h.links_le a
    rwa [Calls.total_cons, hlinks, Nat.zero_add] at hle
  owner n := by
    have howner := h.owner n
    rwa [Calls.total_cons, howns, Nat.zero_add] at howner
  relies r hr := h.relies_rest hr

/-- A dequeued node is handed to the caller. -/
theorem handOver (h : Holds items q (.dequeueReturn node ::ₘ rest)) :
    Holds items { q with owned := Function.update q.owned node true } rest where
  nodup := h.nodup
  front_eq := h.front_eq
  back_eq := h.back_eq
  last_null := h.last_null
  linked a b hab := by simpa using h.linked a b hab
  links_le a := by simpa using h.links_le a
  owner n := by
    have howner := h.owner n
    simp only [Calls.total_cons, Pc.owns, Function.update_apply] at howner ⊢
    grind
  relies r hr := by
    have hr' := h.relies_rest hr
    cases r <;> exact hr'

/-- A call on a node that the caller owns starts. -/
theorem startOn (h : Holds items q rest) (howned : q.owned node = true)
    (howns : ∀ n, p.owns n = if node = n then 1 else 0) (hlinks : ∀ a, p.links a = 0)
    (hto : ∀ a b, p.linksTo a b = 0) (hrelies : p.Relies items q) :
    Holds items { q with owned := Function.update q.owned node false } (p ::ₘ rest) where
  nodup := h.nodup
  front_eq := h.front_eq
  back_eq := h.back_eq
  last_null := h.last_null
  linked a b hab := by
    rw [Calls.total_cons, hto, Nat.zero_add]
    exact h.linked a b hab
  links_le a := by
    rw [Calls.total_cons, hlinks, Nat.zero_add]
    exact h.links_le a
  owner n := by
    have howner := h.owner n
    simp only [Calls.total_cons, howns, Function.update_apply] at howner ⊢
    grind
  relies r hr := by
    rcases Multiset.mem_cons.mp hr with rfl | hr
    · cases r <;> exact hrelies
    · have hr' := h.relies r hr
      cases r <;> exact hr'

end Holds

/-! ## Steps -/

/-- The history of the queue and what is in it. -/
def Inv (token : ℕ) (tr : List (Deque.Op ℕ)) (c : Calls.Config Queue Pc) : Prop :=
  ∃ items, Deque.History [token] tr items ∧ Holds items c.state c.calls

section Steps

variable {weak : ℕ → Bool} {token : ℕ} {tr : List (Deque.Op ℕ)} {items : List ℕ} {q q' : Queue}
  {p : Pc} {rest : Multiset Pc}

/-- A call starts. -/
theorem Holds.startStep (h : Holds items q rest) (hstart : starts q p q') :
    Holds items q' (p ::ₘ rest) := by
  cases p with
  | enqueueNull node =>
    obtain ⟨howned, rfl⟩ := hstart
    exact h.startOn howned (by simp) (by simp) (by simp) trivial
  | frontRead node =>
    obtain ⟨howned, rfl⟩ := hstart
    exact h.startOn howned (by simp) (by simp) (by simp) trivial
  | dequeueRead =>
    obtain rfl := hstart
    refine ⟨h.nodup, h.front_eq, h.back_eq, h.last_null, by simpa using h.linked,
      by simpa using h.links_le, by simpa using h.owner, fun r hr => ?_⟩
    rcases Multiset.mem_cons.mp hr with rfl | hr
    · trivial
    · exact h.relies r hr
  | enqueueExchange | enqueueAssert | enqueueLink | frontStore | frontCond | dequeueNext | dequeueCond
  | dequeueReturn => exact hstart.elim

/-- The next step of a call does not fail, and it is an operation on the queue or none. -/
theorem Holds.codeStep (weak : ℕ → Bool) (h : Holds items q (p ::ₘ rest)) :
    ∃ e items', code weak p q = some e ∧ Deque.History items e.events items' ∧
      Holds items' e.state (Calls.resume e.next rest) := by
  cases p with
  | enqueueNull node =>
    exact ⟨_, items, rfl, rfl, h.store (.enqueueExchange node) (by simp) (by simp) (by simp)
      (by simp) (Function.update_self ..)⟩
  | enqueueExchange node =>
    have hnot : node ∉ items := h.not_mem_of_owns (by simp)
    exact ⟨_, items ++ [node], rfl, ⟨_, ⟨hnot, rfl⟩, rfl⟩, h.exchange⟩
  | enqueueAssert b node =>
    obtain ⟨hadj, hnull⟩ := h.relies _ (Multiset.mem_cons_self ..)
    refine ⟨_, items, if_pos hnull, rfl, ?_⟩
    exact h.pass (.enqueueLink b node) (by simp) (by simp) (by simp) ⟨hadj, hnull⟩
  | enqueueLink b node => exact ⟨_, items, rfl, rfl, h.link⟩
  | frontRead node =>
    exact ⟨_, items, rfl, rfl, h.pass (.frontStore node q.front q.version) (by simp) (by simp)
      (by simp) ⟨le_rfl, fun _ => rfl⟩⟩
  | frontStore node ptr version =>
    have hread := h.relies _ (Multiset.mem_cons_self ..)
    exact ⟨_, items, rfl, rfl, h.store (.frontCond node ptr version) (by simp) (by simp)
      (by simp) (by simp) ⟨hread, Function.update_self ..⟩⟩
  | frontCond node ptr version =>
    by_cases hsucc : q.version = version ∧ weak q.attempts = false
    · obtain ⟨rfl, -⟩ := id hsucc
      have hnot : node ∉ items := h.not_mem_of_owns (by simp)
      refine ⟨_, node :: items, congrArg some (if_pos hsucc), ⟨_, ⟨hnot, rfl⟩, rfl⟩, ?_⟩
      exact h.pushFront _
    · refine ⟨_, items, congrArg some (if_neg hsucc), rfl, ?_⟩
      exact (h.fail _).pass (.frontStore node q.front q.version) (by simp) (by simp) (by simp)
        ⟨le_rfl, fun _ => rfl⟩
  | dequeueRead =>
    exact ⟨_, items, rfl, rfl, h.pass (.dequeueNext q.front q.version) (by simp) (by simp)
      (by simp) ⟨le_rfl, fun _ => rfl⟩⟩
  | dequeueNext fnt version =>
    have hread := h.relies _ (Multiset.mem_cons_self ..)
    cases hnext : q.next fnt with
    | none =>
      refine ⟨⟨q, none, []⟩, items, by rw [code, hnext], rfl, ?_⟩
      exact h.leave (by simp) (by simp) (by simp)
    | some next =>
      refine ⟨⟨q, some (.dequeueCond fnt version next), []⟩, items, by rw [code, hnext], rfl, ?_⟩
      exact h.pass _ (by simp) (by simp) (by simp) ⟨hread, fun _ => hnext⟩
  | dequeueCond fnt version next =>
    by_cases hsucc : q.version = version ∧ weak q.attempts = false
    · obtain ⟨rfl, -⟩ := id hsucc
      obtain ⟨items', rfl, hholds⟩ := h.pop (q.attempts + 1)
      exact ⟨_, items', congrArg some (if_pos hsucc), ⟨_, rfl, rfl⟩, hholds⟩
    · refine ⟨_, items, congrArg some (if_neg hsucc), rfl, ?_⟩
      exact (h.fail _).pass (.dequeueNext q.front q.version) (by simp) (by simp) (by simp)
        ⟨le_rfl, fun _ => rfl⟩
  | dequeueReturn fnt => exact ⟨_, items, rfl, rfl, h.handOver⟩

/-- The invariant holds of a new queue. -/
theorem inv_init (token : ℕ) : Inv token [] (init token) := by
  refine ⟨[token], rfl, List.nodup_singleton token, rfl, rfl, rfl,
    fun a b hab => absurd hab not_adjacent_singleton, fun a => Nat.zero_le _, fun n => ?_,
    fun p hp => absurd hp (Multiset.notMem_zero p)⟩
  rcases eq_or_ne n token with rfl | hn
  · simp [init]
  · simp [init, hn]

/-- The invariant holds of every run. -/
theorem inv_of_run {c : Calls.Config Queue Pc} (hrun : (calls weak).Run (init token) tr c) :
    Inv token tr c := by
  refine hrun.invariant (inv_init token) fun tr c es c' hinv hstep => ?_
  obtain ⟨items, hhistory, hholds⟩ := hinv
  cases hstep with
  | start hstart =>
    rw [List.append_nil]
    exact ⟨items, hhistory, hholds.startStep hstart⟩
  | code hcode =>
    obtain ⟨e, items', he, hevents, hholds'⟩ := hholds.codeStep weak
    obtain rfl := Option.some.inj (he.symm.trans hcode)
    exact ⟨items', Deque.history_append.mpr ⟨items, hhistory, hevents⟩, hholds'⟩

/-- The nodes in the queue are those of its history. -/
theorem mem_inside_iff (h : Deque.History [token] tr items) (node : ℕ) :
    node ∈ inside token tr ↔ node ∈ items := by
  have hgen : ∀ (tr : List (Deque.Op ℕ)) (l : List ℕ) (S : Finset ℕ), l.Nodup →
      (∀ n, n ∈ S ↔ n ∈ l) → Deque.History l tr items →
      (node ∈ tr.foldl (fun S x => match x with
        | .pushBack node | .pushFront node => insert node S
        | .pop node => S.erase node) S ↔ node ∈ items) := by
    intro tr
    induction tr with
    | nil =>
      rintro l S - hS rfl
      exact hS node
    | cons x tr ih =>
      rintro l S hl hS ⟨l₁, hstep, h⟩
      refine ih l₁ _ (hstep.nodup hl) (fun n => ?_) h
      cases x with
      | pushBack a =>
        obtain ⟨-, rfl⟩ := hstep
        simp [hS, or_comm]
      | pushFront a =>
        obtain ⟨-, rfl⟩ := hstep
        simp [hS]
      | pop a =>
        obtain rfl : l = a :: l₁ := hstep
        have hnot := (List.nodup_cons.mp hl).1
        simp only [Finset.mem_erase, hS, List.mem_cons]
        grind
  exact hgen tr [token] {token} (List.nodup_singleton token) (by simp) h

/-! ## The pieces of the list -/

/-- A list of which each link is there or pending is covered by the pieces. -/
theorem linked_or_pending {cs : Multiset Pc} {a x : ℕ} {l : List ℕ}
    (hlinked : ∀ b c, Adjacent (a :: l) b c → q.next b = some c ∨ ∃ p ∈ cs, p.Links c)
    (hx : x ∈ a :: l) : Linked q a x ∨ ∃ p ∈ cs, ∃ m, p.Links m ∧ Linked q m x := by
  induction l generalizing a with
  | nil =>
    obtain rfl := List.mem_singleton.mp hx
    exact Or.inl .refl
  | cons c l ih =>
    rcases List.mem_cons.mp hx with rfl | hx
    · exact Or.inl .refl
    · rcases ih (fun b d hbd => hlinked b d (adjacent_cons.mpr (Or.inr hbd))) hx with hcx | hpending
      · rcases hlinked a c (adjacent_head c l) with hac | ⟨p, hp, hlinks⟩
        · exact Or.inl (.head hac hcx)
        · exact Or.inr ⟨p, hp, c, hlinks, hcx⟩
      · exact Or.inr hpending

/-- What a node in the queue is linked to is in the queue. -/
theorem Holds.mem_of_linked {cs : Multiset Pc} {a x : ℕ} (h : Holds items q cs) (ha : a ∈ items)
    (hax : Linked q a x) : x ∈ items := by
  induction hax with
  | refl => exact ha
  | @tail b c _ hbc ih =>
    rcases last_or_adjacent ih with hlast | ⟨d, hbd⟩
    · obtain rfl := Option.some.inj (h.back_eq.symm.trans hlast)
      rw [h.last_null] at hbc
      cases hbc
    · rcases h.linked b d hbd with hlink | ⟨hnull, -⟩
      · obtain rfl := Option.some.inj (hlink.symm.trans hbc)
        exact hbd.right_mem
      · rw [hnull] at hbc
        cases hbc

/-- The nodes in the queue are those linked from the front and those behind a pending store. -/
theorem Holds.mem_iff {cs : Multiset Pc} (h : Holds items q cs) (node : ℕ) : node ∈ items ↔
    Linked q q.front node ∨ ∃ p ∈ cs, ∃ m, p.Links m ∧ Linked q m node := by
  constructor
  · intro hmem
    obtain ⟨l, rfl⟩ : ∃ l, items = q.front :: l := by
      cases items with
      | nil => cases h.front_eq
      | cons a l => exact ⟨l, congrArg (· :: l) (Option.some.inj h.front_eq)⟩
    refine linked_or_pending (fun b c hbc => ?_) hmem
    refine (h.linked b c hbc).imp_right fun hpending => ?_
    obtain ⟨p, hp, hlinks⟩ := Calls.exists_of_total_pos hpending.2
    refine ⟨p, hp, b, ?_⟩
    cases p <;> simp only [Pc.linksTo] at hlinks <;> grind
  · rintro (hfront | ⟨p, hp, m, ⟨b, hlinks⟩, hm⟩)
    · exact h.mem_of_linked h.front_mem hfront
    · have hrelies := h.relies p hp
      have hadj : Adjacent items b m := by rcases hlinks with rfl | rfl <;> exact hrelies.1
      exact h.mem_of_linked hadj.right_mem hm

/-! ## The results -/

/-- In every run on one queue a node is dequeued once for each insertion, the nodes in the queue are
those linked from the front and those behind a pending store, what is enqueued leaves in the order of
the exchanges, and no assertion fails. -/
theorem queue_correct (weak : ℕ → Bool) (token : ℕ) {tr : List (Deque.Op ℕ)}
    {c : Calls.Config Queue Pc} (hrun : (calls weak).Run (init token) tr c) :
    (∀ node t₁ t₂ t₃, tr = t₁ ++ .pop node :: t₂ ++ .pop node :: t₃ → ∃ x ∈ t₂, x.Pushes node) ∧
    (∀ node t₁ t₂, tr = t₁ ++ .pop node :: t₂ → node = token ∨ ∃ x ∈ t₁, x.Pushes node) ∧
    (∀ node, node ∈ inside token tr ↔ Linked c.state c.state.front node ∨
      ∃ p ∈ c.calls, ∃ m, p.Links m ∧ Linked c.state m node) ∧
    (∀ a b t₁ t₂ t₃ t₄, tr = t₁ ++ .pushBack a :: t₂ ++ .pushBack b :: t₃ ++ .pop b :: t₄ →
      .pop a ∈ t₂ ++ t₃) ∧
    ∀ p ∈ c.calls, (code weak p c.state).isSome := by
  obtain ⟨items, hhistory, hholds⟩ := inv_of_run hrun
  have htoken := List.nodup_singleton token
  refine ⟨fun node t₁ t₂ t₃ htr => ?_, fun node t₁ t₂ htr => ?_, fun node => ?_,
    fun a b t₁ t₂ t₃ t₄ htr => ?_, fun p hp => ?_⟩
  · exact (htr ▸ hhistory).pushed_between htoken
  · exact (htr ▸ hhistory).pushed_before.imp_left List.mem_singleton.mp
  · rw [mem_inside_iff hhistory]
    exact hholds.mem_iff node
  · exact (htr ▸ hhistory).fifo htoken
  · obtain ⟨rest, hrest⟩ := Multiset.exists_cons_of_mem hp
    obtain ⟨e, -, he, -⟩ := (hrest ▸ hholds).codeStep weak
    exact Option.isSome_of_eq_some he

/-- A node is enqueued and the token dequeued. -/
theorem queue_correct_token : ∃ c : Calls.Config Queue Pc,
    (1 ∈ inside 0 [.pushBack 1, .pop 0] ↔ Linked c.state c.state.front 1 ∨
      ∃ p ∈ c.calls, ∃ m, p.Links m ∧ Linked c.state m 1) := by
  have hrun : (calls fun _ => false).Run (init 0) [] ⟨(init 0).state, 0⟩ := .nil
  have howned : (calls fun _ => false).starts (init 0).state (.enqueueNull 1)
      { (init 0).state with owned := Function.update (init 0).state.owned 1 false } := ⟨rfl, rfl⟩
  have henqueue := ((((hrun.start howned).next rfl).next rfl).next rfl).return rfl
  have hread (q : Queue) : (calls fun _ => false).starts q .dequeueRead q := rfl
  have hdequeue := ((((henqueue.start (hread _)).next rfl).next rfl).next rfl).return rfl
  exact ⟨_, (queue_correct (fun _ => false) 0 hdequeue).2.2.1 1⟩

end Steps

end VeronaRt.Mpmcq
