import VeronaFs.Foundation.Adjacent
import VeronaFs.Runtime.BehaviourCore

/-!
# The protocol of the chains

What the calls of `schedule` and the runs do to the chains, without their program counters: a
behaviour enters the chain of a cown, links itself behind its predecessor, finishes its acquire phase,
marks its slots ready, resolves its own count and, when it has run, leaves its chains.  `Step` has one
rule for each of these, and the ledger records what no single step can see: who stands in a chain, who
still has to be resolved for which cown, and in which order the acquire phases were finished.
`Consistent` connects the two and is kept by every step.
-/

set_option linter.unusedSectionVars false

namespace VeronaRt

open Foundation

/-! ## States and steps -/

/-- How far a behaviour is in `schedule`. -/
structure Acquire (β κ : Type*) where
  /-- The cowns whose last slot is not exchanged yet. -/
  toExchange : List κ
  /-- The slot behind which the behaviour has to link itself. -/
  follows : Option (κ × β)
  /-- The acquire phase is over. -/
  acquired : Bool
  /-- The slots that are not ready yet. -/
  toReady : List κ
  /-- The count that the call still has to resolve. -/
  owes : ℕ

/-- How far a behaviour is in `release_all`. -/
structure Release (β κ : Type*) where
  /-- The cowns whose slots are not released yet. -/
  toRelease : List κ
  /-- The behaviour that is to be resolved for a cown. -/
  resolves : Option (κ × β)

/-- The chains and the progress of all behaviours. -/
structure Protocol (β κ : Type*) where
  /-- The behaviour of the last slot of a cown. -/
  lastSlot : κ → Option β
  /-- The status of the slots. -/
  status : β → κ → Status β
  /-- The sum of the counts that were resolved. -/
  resolved : β → ℕ
  /-- The progress in `schedule`. -/
  acquire : β → Acquire β κ
  /-- The progress in `release_all`. -/
  release : β → Release β κ

namespace Protocol

variable {β κ : Type*} [DecidableEq β] [LinearOrder κ]

/-- A store to the last slot of `c`. -/
def setLast (a : Protocol β κ) (c : κ) (last : Option β) : Protocol β κ :=
  { a with lastSlot := Function.update a.lastSlot c last }

/-- A store to the status of the slot of `b` for `c`. -/
def setStatus (a : Protocol β κ) (b : β) (c : κ) (st : Status β) : Protocol β κ :=
  { a with status := Function.update a.status b (Function.update (a.status b) c st) }

/-- Progress of `b` in `schedule`. -/
def setAcquire (a : Protocol β κ) (b : β) (q : Acquire β κ) : Protocol β κ :=
  { a with acquire := Function.update a.acquire b q }

/-- Progress of `b` in `release_all`. -/
def setRelease (a : Protocol β κ) (b : β) (q : Release β κ) : Protocol β κ :=
  { a with release := Function.update a.release b q }

/-- The count `n` is resolved for `b`. -/
def resolve (a : Protocol β κ) (b : β) (n : ℕ) : Protocol β κ :=
  { a with resolved := Function.update a.resolved b (a.resolved b + n) }

/-- All counts of `b` are resolved. -/
def Started (P : Behaviours β κ) (a : Protocol β κ) (b : β) : Prop :=
  a.resolved b = (P.cowns b).length + 1

/-- What a behaviour does to the chains. -/
inductive Step (P : Behaviours β κ) : Protocol β κ → Protocol β κ → Prop
  /-- `b` enters the empty chain of `c`. -/
  | enterFree {a : Protocol β κ} {b : β} {c : κ} {rest ready : List κ} {n : ℕ}
      (hb : a.acquire b = ⟨c :: rest, none, false, ready, n⟩) (hlast : a.lastSlot c = none) :
      Step P a ((a.setLast c (some b)).setAcquire b ⟨rest, none, false, ready, n + 1⟩)
  /-- `b` enters the chain of `c` behind `p`. -/
  | enterBehind {a : Protocol β κ} {b p : β} {c : κ} {rest ready : List κ} {n : ℕ}
      (hb : a.acquire b = ⟨c :: rest, none, false, ready, n⟩) (hlast : a.lastSlot c = some p) :
      Step P a ((a.setLast c (some b)).setAcquire b ⟨rest, some (c, p), false, ready, n⟩)
  /-- `b` links itself behind `p`, which is ready. -/
  | link {a : Protocol β κ} {b p : β} {c : κ} {rest ready : List κ} {n : ℕ}
      (hb : a.acquire b = ⟨rest, some (c, p), false, ready, n⟩) (hready : a.status p c ≠ .wait) :
      Step P a ((a.setStatus p c (.behaviour b)).setAcquire b ⟨rest, none, false, ready, n⟩)
  /-- `b` has entered all its chains. -/
  | finish {a : Protocol β κ} {b : β} {ready : List κ} {n : ℕ}
      (hb : a.acquire b = ⟨[], none, false, ready, n⟩) :
      Step P a (a.setAcquire b ⟨[], none, true, ready, n⟩)
  /-- `b` marks its slot for `c`. -/
  | ready {a : Protocol β κ} {b : β} {c : κ} {rest : List κ} {n : ℕ}
      (hb : a.acquire b = ⟨[], none, true, c :: rest, n⟩) (hn : n ≠ 0) :
      Step P a ((a.setStatus b c .ready).setAcquire b ⟨[], none, true, rest, n⟩)
  /-- `b` resolves its own count. -/
  | resolveOwn {a : Protocol β κ} {b : β} {n : ℕ}
      (hb : a.acquire b = ⟨[], none, true, [], n⟩) (hn : n ≠ 0) :
      Step P a ((a.resolve b n).setAcquire b ⟨[], none, true, [], 0⟩)
  /-- `b` has run and leaves the chain of `c`, in which nobody follows. -/
  | leave {a : Protocol β κ} {b : β} {c : κ} {rest : List κ}
      (hb : a.release b = ⟨c :: rest, none⟩) (hstarted : a.Started P b)
      (hlast : a.lastSlot c = some b) :
      Step P a ((a.setLast c none).setRelease b ⟨rest, none⟩)
  /-- `b` has run and leaves the chain of `c` to `b'`, which follows. -/
  | pass {a : Protocol β κ} {b b' : β} {c : κ} {rest : List κ}
      (hb : a.release b = ⟨c :: rest, none⟩) (hstarted : a.Started P b)
      (hstatus : a.status b c = .behaviour b') :
      Step P a (a.setRelease b ⟨rest, some (c, b')⟩)
  /-- `b` resolves the behaviour that followed it. -/
  | resolveNext {a : Protocol β κ} {b b' : β} {c : κ} {rest : List κ}
      (hb : a.release b = ⟨rest, some (c, b')⟩) :
      Step P a ((a.resolve b' 1).setRelease b ⟨rest, none⟩)

end Protocol

/-! ## Reading the fields -/

namespace Protocol

variable {β κ : Type*} [DecidableEq β] [LinearOrder κ]

variable (a : Protocol β κ) (b b' : β) (c c' : κ) (last : Option β) (st : Status β)
  (q : Acquire β κ) (r : Release β κ) (n : ℕ)

@[simp, grind =] theorem lastSlot_setLast :
    (a.setLast c last).lastSlot c' = if c' = c then last else a.lastSlot c' :=
  Function.update_apply ..

@[simp, grind =] theorem status_setLast : (a.setLast c last).status b c' = a.status b c' := rfl

@[simp, grind =] theorem resolved_setLast : (a.setLast c last).resolved b = a.resolved b := rfl

@[simp, grind =] theorem acquire_setLast : (a.setLast c last).acquire b = a.acquire b := rfl

@[simp, grind =] theorem release_setLast : (a.setLast c last).release b = a.release b := rfl

@[simp, grind =] theorem lastSlot_setStatus : (a.setStatus b c st).lastSlot c' = a.lastSlot c' :=
  rfl

@[simp, grind =] theorem status_setStatus : (a.setStatus b c st).status b' c' =
    if b' = b ∧ c' = c then st else a.status b' c' := by
  change Function.update a.status b _ b' c' = _
  by_cases hb : b' = b
  · subst hb
    simp [Function.update_apply]
  · simp [hb]

@[simp, grind =] theorem resolved_setStatus : (a.setStatus b c st).resolved b' = a.resolved b' :=
  rfl

@[simp, grind =] theorem acquire_setStatus : (a.setStatus b c st).acquire b' = a.acquire b' := rfl

@[simp, grind =] theorem release_setStatus : (a.setStatus b c st).release b' = a.release b' := rfl

@[simp, grind =] theorem lastSlot_setAcquire : (a.setAcquire b q).lastSlot c = a.lastSlot c := rfl

@[simp, grind =] theorem status_setAcquire : (a.setAcquire b q).status b' c = a.status b' c := rfl

@[simp, grind =] theorem resolved_setAcquire : (a.setAcquire b q).resolved b' = a.resolved b' := rfl

@[simp, grind =] theorem acquire_setAcquire :
    (a.setAcquire b q).acquire b' = if b' = b then q else a.acquire b' :=
  Function.update_apply ..

@[simp, grind =] theorem release_setAcquire : (a.setAcquire b q).release b' = a.release b' := rfl

@[simp, grind =] theorem lastSlot_setRelease : (a.setRelease b r).lastSlot c = a.lastSlot c := rfl

@[simp, grind =] theorem status_setRelease : (a.setRelease b r).status b' c = a.status b' c := rfl

@[simp, grind =] theorem resolved_setRelease : (a.setRelease b r).resolved b' = a.resolved b' := rfl

@[simp, grind =] theorem acquire_setRelease : (a.setRelease b r).acquire b' = a.acquire b' := rfl

@[simp, grind =] theorem release_setRelease :
    (a.setRelease b r).release b' = if b' = b then r else a.release b' :=
  Function.update_apply ..

@[simp, grind =] theorem lastSlot_resolve : (a.resolve b n).lastSlot c = a.lastSlot c := rfl

@[simp, grind =] theorem status_resolve : (a.resolve b n).status b' c = a.status b' c := rfl

@[simp, grind =] theorem resolved_resolve :
    (a.resolve b n).resolved b' = if b' = b then a.resolved b + n else a.resolved b' :=
  Function.update_apply ..

@[simp, grind =] theorem acquire_resolve : (a.resolve b n).acquire b' = a.acquire b' := rfl

@[simp, grind =] theorem release_resolve : (a.resolve b n).release b' = a.release b' := rfl

end Protocol

/-! ## The ledger -/

/-- What the steps have done so far. -/
structure Ledger (β κ : Type*) where
  /-- The behaviours in the chain of a cown, the first one holding it. -/
  queue : κ → List β
  /-- The cowns for which a behaviour still has to be resolved by another one. -/
  due : β → List κ
  /-- The behaviours whose acquire phase is over, in the order in which they finished it. -/
  finished : List β

variable {β κ : Type*} [DecidableEq β] [LinearOrder κ]

/-! ## Changes of the ledger -/

namespace Ledger

/-- `b` enters the chain of `c`. -/
def enter (g : Ledger β κ) (b : β) (c : κ) : Ledger β κ :=
  { g with queue := Function.update g.queue c (g.queue c ++ [b]) }

/-- The cown `c` is no longer due for `b`. -/
def settle (g : Ledger β κ) (b : β) (c : κ) : Ledger β κ :=
  { g with due := Function.update g.due b ((g.due b).erase c) }

/-- `b` finishes its acquire phase. -/
def finish (g : Ledger β κ) (b : β) : Ledger β κ := { g with finished := g.finished ++ [b] }

/-- The head of the chain of `c` leaves it. -/
def leave (g : Ledger β κ) (c : κ) : Ledger β κ :=
  { g with queue := Function.update g.queue c (g.queue c).tail }

variable (g : Ledger β κ) (b b' : β) (c c' : κ)

@[simp, grind =] theorem queue_enter :
    (g.enter b c).queue c' = if c' = c then g.queue c ++ [b] else g.queue c' :=
  Function.update_apply ..

@[simp, grind =] theorem due_enter : (g.enter b c).due b' = g.due b' := rfl

@[simp, grind =] theorem finished_enter : (g.enter b c).finished = g.finished := rfl

@[simp, grind =] theorem queue_settle : (g.settle b c).queue c' = g.queue c' := rfl

@[simp, grind =] theorem due_settle :
    (g.settle b c).due b' = if b' = b then (g.due b).erase c else g.due b' :=
  Function.update_apply ..

@[simp, grind =] theorem finished_settle : (g.settle b c).finished = g.finished := rfl

@[simp, grind =] theorem queue_finish : (g.finish b).queue c = g.queue c := rfl

@[simp, grind =] theorem due_finish : (g.finish b).due b' = g.due b' := rfl

@[simp, grind =] theorem finished_finish : (g.finish b).finished = g.finished ++ [b] := rfl

@[simp, grind =] theorem queue_leave :
    (g.leave c).queue c' = if c' = c then (g.queue c).tail else g.queue c' :=
  Function.update_apply ..

@[simp, grind =] theorem due_leave : (g.leave c).due b = g.due b := rfl

@[simp, grind =] theorem finished_leave : (g.leave c).finished = g.finished := rfl

variable {g c c'} in
/-- Leaving keeps the order of the others. -/
theorem before_leave {x y : β} (h : Before ((g.leave c).queue c') x y) :
    Before (g.queue c') x y := by
  rw [queue_leave] at h
  split at h
  · next hc => exact hc ▸ h.trans (List.tail_sublist _)
  · exact h

end Ledger

/-! ## The invariant -/

/-- The progress of `b` in `schedule` fits its cowns. -/
structure Acquire.Shaped (P : Behaviours β κ) (b : β) (q : Acquire β κ) : Prop where
  /-- The exchanges follow the order. -/
  exchange : q.toExchange <:+ P.order b
  /-- The cown of the slot to be linked is the last exchanged one. -/
  follows : ∀ c p, q.follows = some (c, p) → c :: q.toExchange <:+ P.order b
  /-- After the acquire phase everything is exchanged and linked. -/
  acquired : q.acquired = true → q.toExchange = [] ∧ q.follows = none
  /-- During the acquire phase no slot is ready. -/
  acquiring : q.acquired = false → q.toReady = P.cowns b
  /-- The slots become ready in their order. -/
  ready : q.toReady <:+ P.cowns b
  /-- The own count is resolved at the end. -/
  owes : q.owes = 0 → q.acquired = true ∧ q.toReady = []

/-- The progress of each behaviour fits its cowns. -/
structure Protocol.Shaped (P : Behaviours β κ) (a : Protocol β κ) : Prop where
  /-- The progress in `schedule`. -/
  acquire : ∀ b, (a.acquire b).Shaped P b
  /-- The slots are released in their order. -/
  release : ∀ b, (a.release b).toRelease <:+ P.cowns b
  /-- Only a behaviour that has run leaves its chains. -/
  started : ∀ b, ¬ a.Started P b →
    (a.release b).toRelease = P.cowns b ∧ (a.release b).resolves = none

/-- The slots represent the chains. -/
structure Protocol.Chained (P : Behaviours β κ) (a : Protocol β κ) (g : Ledger β κ) : Prop where
  /-- The last slot is the one of the last behaviour. -/
  lastSlot : ∀ c, a.lastSlot c = (g.queue c).getLast?
  /-- A behaviour is in a chain once. -/
  nodup : ∀ c, (g.queue c).Nodup
  /-- A behaviour is in a chain from its exchange to its release. -/
  mem_queue : ∀ c b, b ∈ g.queue c ↔ c ∈ P.cowns b ∧ c ∉ (a.acquire b).toExchange ∧
    c ∈ (a.release b).toRelease
  /-- A slot is waiting until it is ready. -/
  wait : ∀ b, ∀ c ∈ P.cowns b, (a.status b c = .wait ↔ c ∈ (a.acquire b).toReady)
  /-- The slot to be linked is the one of the neighbour. -/
  follows : ∀ b c p, (a.acquire b).follows = some (c, p) → Adjacent (g.queue c) p b
  /-- A link is to the neighbour, which has linked itself. -/
  behaviour : ∀ c p b, p ∈ g.queue c → a.status p c = .behaviour b →
    Adjacent (g.queue c) p b ∧ ∀ p', (a.acquire b).follows ≠ some (c, p')
  /-- A behaviour is linked or has to link itself. -/
  linked : ∀ c p b, Adjacent (g.queue c) p b →
    (a.acquire b).follows = some (c, p) ∨ a.status p c = .behaviour b

/-- The counts add up. -/
structure Protocol.Accounted (P : Behaviours β κ) (a : Protocol β κ) (g : Ledger β κ) : Prop where
  /-- A cown is due once. -/
  nodup : ∀ b, (g.due b).Nodup
  /-- A cown is due until the exchange finds its chain empty or the behaviour in front resolves. -/
  mem_due : ∀ b c, c ∈ g.due b ↔ c ∈ P.cowns b ∧ (c ∈ (a.acquire b).toExchange ∨
    (∃ p, Adjacent (g.queue c) p b) ∨ ∃ p, (a.release p).resolves = some (c, b))
  /-- A behaviour that is being resolved is at the head of the chain. -/
  head : ∀ p c b, (a.release p).resolves = some (c, b) → (g.queue c).head? = some b
  /-- It is resolved by one behaviour only. -/
  unique : ∀ p p' c b, (a.release p).resolves = some (c, b) →
    (a.release p').resolves = some (c, b) → p = p'
  /-- What is resolved, due and owed is one more than the number of slots. -/
  sum : ∀ b, a.resolved b + (g.due b).length + (a.acquire b).owes = (P.cowns b).length + 1

/-- The acquire phases are ordered. -/
structure Protocol.Ordered (a : Protocol β κ) (g : Ledger β κ) : Prop where
  /-- A behaviour finishes once. -/
  nodup : g.finished.Nodup
  /-- The finished behaviours are those whose acquire phase is over. -/
  mem_finished : ∀ b, b ∈ g.finished ↔ (a.acquire b).acquired = true
  /-- Whoever stands before a linked behaviour has finished. -/
  linked : ∀ c p b, Before (g.queue c) p b → (∀ p', (a.acquire b).follows ≠ some (c, p')) →
    p ∈ g.finished
  /-- Whoever stands before a finished behaviour finished before it. -/
  finished : ∀ c p b, Before (g.queue c) p b → b ∈ g.finished → Before g.finished p b

/-- The state and the ledger fit. -/
structure Protocol.Consistent (P : Behaviours β κ) (a : Protocol β κ) (g : Ledger β κ) : Prop where
  /-- The progress fits the cowns. -/
  shaped : a.Shaped P
  /-- The slots represent the chains. -/
  chained : a.Chained P g
  /-- The counts add up. -/
  accounted : a.Accounted P g
  /-- The acquire phases are ordered. -/
  ordered : a.Ordered g

end VeronaRt
