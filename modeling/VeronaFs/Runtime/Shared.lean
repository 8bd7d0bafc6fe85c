import VeronaFs.Foundation.Calls

/-!
# The references of a shared object

`Shared` with the strong count of `Object` and its own weak count, in atomic steps.  The last
decrement of the strong count is followed by a compare-exchange to `FINISHED_RC`; a promotion of a
weak reference between the two revives the object.  The state also lists the references that are
owned and not in use by a call: every call uses references that it was given, and gives them back
when it returns.

The payload of the strong count is a natural number: references are owned by somebody, so there are
never as many as the word can hold.
-/

namespace VeronaRt.Shared

open Foundation

/-! ## Code -/

/-- The strong count: the word of the header without `SHARED`. -/
inductive Rc
  /-- The count, below `FINISHED_RC`. -/
  | live (n : ℕ)
  /-- `FINISHED_RC`, and the increments of promotions that fail. -/
  | finished (k : ℕ)
deriving DecidableEq, Repr

/-- A shared object, with the references that nobody uses at the moment. -/
structure Object where
  /-- `rc`. -/
  rc : Rc
  /-- `weak_count`. -/
  weakCount : ℕ
  /-- The strong references that are owned. -/
  strongRefs : ℕ
  /-- The weak references that are owned. -/
  weakRefs : ℕ
deriving DecidableEq, Repr

/-- The references that a call of `weak_acquire` is made with. -/
inductive Holder
  /-- A strong reference. -/
  | strong
  /-- A weak reference. -/
  | weak
  /-- The weak reference of a promotion and the strong one that it has just obtained. -/
  | promotion
deriving DecidableEq, Repr

/-- Where a call is. -/
inductive Pc
  /-- `acquire`. -/
  | acquire
  /-- `decref_shared`: the assertions. -/
  | decrefAssert
  /-- `decref_shared`: the subtraction. -/
  | decref
  /-- `decref_shared`: the compare-exchange. -/
  | finish
  /-- `queue_collect` is called. -/
  | queueCollect
  /-- `collect`, at once or from the list of the thread. -/
  | collect
  /-- `weak_release`. -/
  | weakRelease
  /-- `dealloc`. -/
  | dealloc
  /-- `weak_acquire`: the assertion. -/
  | weakAssert (h : Holder)
  /-- `weak_acquire`: the addition. -/
  | weakAcquire (h : Holder)
  /-- `acquire_strong_from_weak`: the addition. -/
  | promote
  /-- `acquire_strong_from_weak`: the store after a failure. -/
  | restore
deriving DecidableEq, Repr

/-- What is observed. -/
inductive Event
  /-- A call of `queue_collect`. -/
  | queueCollect
  /-- The collection of the object. -/
  | collect
  /-- The deallocation of the object. -/
  | dealloc
  /-- The decision of a promotion, which obtains a strong reference or does not. -/
  | promoted (ok : Bool)
deriving DecidableEq, Repr

namespace Object

/-- Give references back to their owner. -/
@[simp, grind =] def giveBack (o : Object) (strong weak : ℕ) : Object :=
  { o with strongRefs := o.strongRefs + strong, weakRefs := o.weakRefs + weak }

/-- The end of `weak_acquire`: the references it was made with and a weak one. -/
@[simp, grind =] def weakAcquired (o : Object) : Holder → Object
  | .strong => o.giveBack 1 1
  | .weak => o.giveBack 0 2
  | .promotion => o.giveBack 1 1

end Object

/-- The effect of a step. -/
abbrev Effect := Calls.Effect Object Pc Event

/-- `acquire`. -/
def acquire (o : Object) : Option Effect :=
  match o.rc with
  | .live n => some ⟨{ o with rc := .live (n + 1) }.giveBack 2 0, none, []⟩
  | .finished k => some ⟨{ o with rc := .finished (k + 1) }.giveBack 2 0, none, []⟩

/-- The assertions of `decref_shared`. -/
def decrefAssert (o : Object) : Option Effect :=
  match o.rc with
  | .live (_ + 1) => some ⟨o, some .decref, []⟩
  | _ => none

/-- The subtraction of `decref_shared`. -/
def decref (o : Object) : Option Effect :=
  match o.rc with
  | .live 1 => some ⟨{ o with rc := .live 0 }, some .finish, []⟩
  | .live (n + 1) => some ⟨{ o with rc := .live n }, none, []⟩
  | _ => none

/-- The compare-exchange of `decref_shared`, and what `release` does with its results. -/
def finish (o : Object) : Option Effect :=
  if o.rc = .live 0 then some ⟨{ o with rc := .finished 0 }, some .queueCollect, []⟩
  else some ⟨o, some .weakRelease, []⟩

/-- `weak_release`. -/
def weakRelease (o : Object) : Option Effect :=
  match o.weakCount with
  | 0 => none
  | 1 => some ⟨{ o with weakCount := 0 }, some .dealloc, []⟩
  | n + 2 => some ⟨{ o with weakCount := n + 1 }, none, []⟩

/-- The assertion of `weak_acquire`. -/
def weakAssert (h : Holder) (o : Object) : Option Effect :=
  if 0 < o.weakCount then some ⟨o, some (.weakAcquire h), []⟩ else none

/-- The addition of `weak_acquire`. -/
def weakAcquire (h : Holder) (o : Object) : Option Effect :=
  some ⟨{ o with weakCount := o.weakCount + 1 }.weakAcquired h, none, []⟩

/-- The addition of `acquire_strong_from_weak`. -/
def promote (o : Object) : Option Effect :=
  match o.rc with
  | .live 0 => some ⟨{ o with rc := .live 1 }, some (.weakAssert .promotion), [.promoted true]⟩
  | .live (n + 1) => some ⟨{ o with rc := .live (n + 2) }.giveBack 1 1, none, [.promoted true]⟩
  | .finished k => some ⟨{ o with rc := .finished (k + 1) }, some .restore, [.promoted false]⟩

/-- The next step of a call. -/
def code : Pc → Object → Option Effect
  | .acquire, o => acquire o
  | .decrefAssert, o => decrefAssert o
  | .decref, o => decref o
  | .finish, o => finish o
  | .queueCollect, o => some ⟨o, some .collect, [.queueCollect]⟩
  | .collect, o => some ⟨o, some .weakRelease, [.collect]⟩
  | .weakRelease, o => weakRelease o
  | .dealloc, o => some ⟨o, none, [.dealloc]⟩
  | .weakAssert h, o => weakAssert h o
  | .weakAcquire h, o => weakAcquire h o
  | .promote, o => promote o
  | .restore, o => some ⟨{ o with rc := .finished 0 }.giveBack 0 1, none, []⟩

/-- The calls of the interface: each takes the reference that it uses from its owner. -/
inductive Starts (o : Object) : Pc → Object → Prop
  /-- `acquire` with a strong reference. -/
  | acquire {n : ℕ} (h : o.strongRefs = n + 1) : Starts o .acquire { o with strongRefs := n }
  /-- `release` of a strong reference. -/
  | release {n : ℕ} (h : o.strongRefs = n + 1) : Starts o .decrefAssert { o with strongRefs := n }
  /-- `weak_acquire` with a strong reference. -/
  | weakAcquireStrong {n : ℕ} (h : o.strongRefs = n + 1) :
      Starts o (.weakAssert .strong) { o with strongRefs := n }
  /-- `weak_acquire` with a weak reference. -/
  | weakAcquireWeak {n : ℕ} (h : o.weakRefs = n + 1) :
      Starts o (.weakAssert .weak) { o with weakRefs := n }
  /-- `weak_release` of a weak reference. -/
  | weakRelease {n : ℕ} (h : o.weakRefs = n + 1) : Starts o .weakRelease { o with weakRefs := n }
  /-- `acquire_strong_from_weak` with a weak reference. -/
  | promote {n : ℕ} (h : o.weakRefs = n + 1) : Starts o .promote { o with weakRefs := n }

/-- All calls on one shared object. -/
def system : Calls Object Pc Event where
  starts := Starts
  code := code

/-- A new object: one strong reference, and the weak count that belongs to the strong one. -/
def new : Calls.Config Object Pc := ⟨⟨.live 1, 1, 1, 0⟩, 0⟩

/-! ## References in use -/

/-- The strong references with which `weak_acquire` is called. -/
@[simp, grind =] def Holder.strongRefs : Holder → ℕ
  | .strong => 1
  | .weak => 0
  | .promotion => 1

/-- The weak references with which `weak_acquire` is called. -/
@[simp, grind =] def Holder.weakRefs : Holder → ℕ
  | .strong => 0
  | .weak => 1
  | .promotion => 1

/-- The part of the weak count that stands for these weak references.  A promotion from zero owes one
for the strong reference that it has revived. -/
@[simp, grind =] def Holder.weakCounts : Holder → ℕ
  | .strong => 0
  | .weak => 1
  | .promotion => 0

/-- The strong references that a call uses. -/
@[simp, grind =] def Pc.strong : Pc → ℕ
  | .acquire => 1
  | .decrefAssert => 1
  | .decref => 1
  | .weakAssert h => h.strongRefs
  | .weakAcquire h => h.strongRefs
  | .finish | .queueCollect | .collect | .weakRelease | .dealloc | .promote | .restore => 0

/-- The weak references that a call uses. -/
@[simp, grind =] def Pc.weak : Pc → ℕ
  | .weakAssert h => h.weakRefs
  | .weakAcquire h => h.weakRefs
  | .promote => 1
  | .restore => 1
  | .acquire | .decrefAssert | .decref | .finish | .queueCollect | .collect | .weakRelease
  | .dealloc => 0

/-- The part of the weak count that a call will release or leave to a reference.  A release that took
the strong count to zero has one in hand. -/
@[simp, grind =] def Pc.weakCounts : Pc → ℕ
  | .finish => 1
  | .queueCollect => 1
  | .collect => 1
  | .weakRelease => 1
  | .weakAssert h => h.weakCounts
  | .weakAcquire h => h.weakCounts
  | .promote => 1
  | .restore => 1
  | .acquire | .decrefAssert | .decref | .dealloc => 0

/-- A call at the program counter `q`, as a number. -/
@[simp, grind =] def Pc.at (q p : Pc) : ℕ := if p = q then 1 else 0

/-- The strong count that is not finished. -/
@[simp, grind =] def Rc.count : Rc → ℕ
  | .live n => n
  | .finished _ => 0

/-- The weak count that belongs to the strong references: it is there while the strong count is
positive. -/
@[simp, grind =] def Rc.weakCounts : Rc → ℕ
  | .live n => if n = 0 then 0 else 1
  | .finished _ => 0

/-- The strong count was finished, as a number. -/
@[simp, grind =] def Rc.ended : Rc → ℕ
  | .live _ => 0
  | .finished _ => 1

end VeronaRt.Shared
