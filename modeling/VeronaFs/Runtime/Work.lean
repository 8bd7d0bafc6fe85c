import VeronaFs.Runtime.Epoch
import VeronaFs.Runtime.Mpmcq

/-!
# Deallocating work items

A `dequeue` runs in an `Epoch`, as it reads the link of an item that other threads may pop and
deallocate at any time.  It stores its local epoch in the item that it pops, and `Work::dealloc` frees
an item at once only if the global epoch is none of the three from there on.  A dequeue that has read
the item as the front was inside its `Epoch` when the item was popped, and as long as it stays there the
global epoch advances at most once, so it stays among the three.

The calls are those of one queue.  What the other queues do with an item that is not in this one is a
step of its own, and so is every other use of its memory.
-/

namespace VeronaRt.Work

open Foundation Mpmcq

/-! ## Code -/

/-- `GlobalEpoch::is_outdated`. -/
def isOutdated (globalEpoch e : ℕ) : Bool :=
  (List.range 3).all fun i => Epoch.incEpochBy e i ≠ globalEpoch

/-- A call on the queue. -/
structure Call where
  /-- Where it is. -/
  pc : Pc
  /-- The local epoch of a `dequeue`, which is inside an `Epoch`. -/
  epoch : Option ℕ
  /-- The items that a `dequeue` has read as the front. -/
  seen : List ℕ

/-- The queue, the epochs and the items. -/
structure World where
  /-- The queue. -/
  queue : Queue
  /-- The calls in progress. -/
  calls : Multiset Call
  /-- The global epoch. -/
  globalEpoch : ℕ
  /-- `epoch_when_popped`, or none for `NO_EPOCH_SET`. -/
  epochWhenPopped : ℕ → Option ℕ

/-- `Work::dealloc` takes the immediate branch. -/
def World.outdated (w : World) (item : ℕ) : Bool :=
  match w.epochWhenPopped item with
  | none => true
  | some e => isOutdated w.globalEpoch e

/-- The call goes on at `pc`. -/
def Call.goOn (call : Call) (pc : Pc) : Call where
  pc := pc
  epoch := call.epoch
  seen := match pc with
    | .dequeueNext fnt _ => fnt :: call.seen
    | _ => call.seen

/-- What the owner of an item writes over its link. -/
def overwrite (q : Queue) (item : ℕ) (v : Option ℕ) : Queue :=
  { q with next := Function.update q.next item v }

/-- The world after a step of a call: a `dequeue` that returns an item has stored its epoch in it, at
the place of the link, where `asPointer` reads it as a pointer. -/
def World.step (asPointer : Option ℕ → Option ℕ) (w : World) (call : Call) (rest : Multiset Call)
    (e : Effect) : World :=
  let calls := Calls.resume (e.next.map call.goOn) rest
  match call.pc with
  | .dequeueReturn fnt =>
    { w with
      queue := overwrite e.state fnt (asPointer call.epoch)
      calls
      epochWhenPopped := Function.update w.epochWhenPopped fnt call.epoch }
  | _ => { w with queue := e.state, calls }

/-- A thread inside an `Epoch` may have this local epoch: it is the global one or its predecessor. -/
def World.Local (w : World) (e : ℕ) : Prop :=
  e < Epoch.epochs ∧ (e = w.globalEpoch ∨ Epoch.incEpochBy e 1 = w.globalEpoch)

/-- The steps. -/
inductive Step (weak : ℕ → Bool) (asPointer : Option ℕ → Option ℕ) : World → World → Prop
  /-- `enqueue` or `enqueue_front` is called. -/
  | enqueue {w : World} {p : Pc} {q : Queue} (hp : p ≠ .dequeueRead) (h : starts w.queue p q) :
      Step weak asPointer w { w with queue := q, calls := ⟨p, none, []⟩ ::ₘ w.calls }
  /-- `dequeue` is called and is inside its `Epoch`. -/
  | dequeue {w : World} {e : ℕ} (he : w.Local e) :
      Step weak asPointer w { w with calls := ⟨.dequeueRead, some e, []⟩ ::ₘ w.calls }
  /-- A call takes its next step. -/
  | code {w : World} {call : Call} {rest : Multiset Call} {e : Effect}
      (hcalls : w.calls = call ::ₘ rest) (h : code weak call.pc w.queue = some e) :
      Step weak asPointer w (w.step asPointer call rest e)
  /-- The global epoch is advanced, which no thread inside an `Epoch` holds up. -/
  | advance {w : World} (h : ∀ call ∈ w.calls, ∀ e, call.epoch = some e → e = w.globalEpoch) :
      Step weak asPointer w { w with globalEpoch := Epoch.incEpochBy w.globalEpoch 1 }
  /-- The item was in another queue and a `dequeue` there has popped it. -/
  | elsewhere {w : World} {item e : ℕ} (howned : w.queue.owned item = true) (he : w.Local e) :
      Step weak asPointer w { w with
        queue := overwrite w.queue item (asPointer (some e))
        epochWhenPopped := Function.update w.epochWhenPopped item (some e) }
  /-- The link of the item is written in another queue. -/
  | write {w : World} {item : ℕ} {v : Option ℕ} (howned : w.queue.owned item = true) :
      Step weak asPointer w { w with queue := overwrite w.queue item v }
  /-- The item is deallocated, at once or when no call in progress has read it, and a new one is
  allocated there. -/
  | reuse {w : World} {item : ℕ} {v : Option ℕ} (howned : w.queue.owned item = true)
      (h : w.outdated item = true ∨ ∀ call ∈ w.calls, item ∉ call.seen) :
      Step weak asPointer w { w with
        queue := overwrite w.queue item v
        epochWhenPopped := Function.update w.epochWhenPopped item none }

/-- A new queue in the epoch `e`. -/
def init (token e : ℕ) : World where
  queue := (Mpmcq.init token).state
  calls := 0
  globalEpoch := e
  epochWhenPopped _ := none

/-- The states that the steps reach. -/
def Reachable (weak : ℕ → Bool) (asPointer : Option ℕ → Option ℕ) (w : World) : Prop :=
  ∃ token e, e < Epoch.epochs ∧ Relation.ReflTransGen (Step weak asPointer) (init token e) w

/-! ## The window of three epochs -/

/-- The item was popped in an epoch that is recent for a dequeue with this local epoch. -/
def Recent (globalEpoch : ℕ) (localEpoch : Option ℕ) (e : ℕ) : Prop :=
  if localEpoch = some globalEpoch then e = globalEpoch ∨ Epoch.incEpochBy e 1 = globalEpoch
  else e = globalEpoch ∨ Epoch.incEpochBy e 1 = globalEpoch ∨ Epoch.incEpochBy e 2 = globalEpoch

/-- Two increments. -/
theorem incEpochBy_one_one (e : ℕ) :
    Epoch.incEpochBy (Epoch.incEpochBy e 1) 1 = Epoch.incEpochBy e 2 := by
  simp only [Epoch.incEpochBy, Nat.mod_add_mod]

/-- The epochs are more than one. -/
theorem incEpochBy_one_ne (e : ℕ) : Epoch.incEpochBy e 1 ≠ e := by
  unfold Epoch.incEpochBy Epoch.epochs
  omega

/-- An epoch that is recent for some dequeue is not outdated. -/
theorem Recent.not_outdated {globalEpoch e : ℕ} {localEpoch : Option ℕ}
    (h : Recent globalEpoch localEpoch e) (he : e < Epoch.epochs) :
    isOutdated globalEpoch e = false := by
  have hzero : Epoch.incEpochBy e 0 = e := Nat.mod_eq_of_lt he
  have hcases : e = globalEpoch ∨ Epoch.incEpochBy e 1 = globalEpoch ∨
      Epoch.incEpochBy e 2 = globalEpoch := by
    unfold Recent at h
    split at h
    · exact h.imp_right Or.inl
    · exact h
  rw [isOutdated, Bool.eq_false_iff, Ne, List.all_eq_true]
  intro hall
  rcases hcases with h | h | h
  · exact absurd (hzero.trans h) (by simpa using hall 0 (by simp))
  · exact absurd h (by simpa using hall 1 (by simp))
  · exact absurd h (by simpa using hall 2 (by simp))

/-- The epoch of a thread that is inside an `Epoch` now is recent. -/
theorem World.Local.recent {w : World} {e : ℕ} (h : w.Local e) (localEpoch : Option ℕ) :
    Recent w.globalEpoch localEpoch e := by
  unfold Recent
  split
  · exact h.2
  · exact h.2.imp_right Or.inl

/-- A dequeue that does not hold up the advance keeps what is recent. -/
theorem Recent.advance {globalEpoch e : ℕ} (h : Recent globalEpoch (some globalEpoch) e) :
    Recent (Epoch.incEpochBy globalEpoch 1) (some globalEpoch) e := by
  rw [Recent, if_pos rfl] at h
  rw [Recent, if_neg]
  · rcases h with rfl | h
    · exact .inr (.inl rfl)
    · refine .inr (.inr ?_)
      rw [← h, incEpochBy_one_one]
  · intro heq
    exact incEpochBy_one_ne globalEpoch (Option.some.inj heq).symm

/-! ## The invariant -/

/-- A store to the link of an item that no call owns and that is not in the queue. -/
theorem holds_overwrite {items : List ℕ} {q : Queue} {cs : Multiset Pc} {item : ℕ} {v : Option ℕ}
    (h : Holds items q cs) (howned : q.owned item = true) : Holds items (overwrite q item v) cs := by
  have howner := h.owner item
  rw [howned, if_pos rfl] at howner
  have hnot : item ∉ items := by
    intro hmem
    rw [if_pos hmem] at howner
    omega
  have hother {a : ℕ} (ha : a ∈ items) : Function.update q.next item v a = q.next a :=
    Function.update_of_ne (fun han : a = item => hnot (han ▸ ha)) _ _
  refine ⟨h.nodup, h.front_eq, h.back_eq, ?_, fun a b hab => ?_, h.links_le, h.owner,
    fun r hr => ?_⟩
  · change Function.update q.next item v q.back = none
    rw [hother h.back_mem]
    exact h.last_null
  · change Function.update q.next item v a = some b ∨ Function.update q.next item v a = none ∧ _
    rw [hother hab.left_mem]
    exact h.linked a b hab
  · have hzero : r.owns item = 0 := by
      have hle := Calls.le_total (w := Pc.owns item) hr
      omega
    exact (h.relies r hr).store hnot h.front_mem hzero

/-- The front is owned by nobody. -/
theorem front_not_owned {items : List ℕ} {q : Queue} {cs : Multiset Pc} (h : Holds items q cs) :
    q.owned q.front = false := by
  have howner := h.owner q.front
  rw [if_pos h.front_mem] at howner
  by_contra howned
  rw [if_pos (by simpa using howned)] at howner
  omega

/-- The item that a call is about to return. -/
def returned : Pc → Option ℕ
  | .dequeueReturn fnt => some fnt
  | _ => none

/-- The program counter of a `dequeue`. -/
def Dequeues : Pc → Prop
  | .dequeueRead => True
  | .dequeueNext _ _ => True
  | .dequeueCond _ _ _ => True
  | .dequeueReturn _ => True
  | _ => False

/-- A store-conditional gives no item away and reads the front when it fails. -/
theorem storeConditional_spec (weak : ℕ → Bool) (q : Queue) (version node : ℕ) (success : Option Pc)
    (event : Deque.Op ℕ) (failure : Pc) :
    (storeConditional weak q version node success event failure).state.owned = q.owned ∧
    ((storeConditional weak q version node success event failure).next = success ∨
      (storeConditional weak q version node success event failure).next = some failure) := by
  unfold storeConditional
  split
  · exact ⟨rfl, .inl rfl⟩
  · exact ⟨rfl, .inr rfl⟩

/-- What a step of a call owns and reads. -/
theorem code_spec {weak : ℕ → Bool} {p : Pc} {q : Queue} {e : Effect}
    (h : code weak p q = some e) :
    (∀ item, e.state.owned item = true → q.owned item = true ∨ returned p = some item) ∧
    ∀ p', e.next = some p' → (Dequeues p' ↔ Dequeues p) ∧
      ∀ fnt version, p' = .dequeueNext fnt version → fnt = q.front := by
  cases p with
  | enqueueAssert b node =>
    simp only [code, Option.ite_none_right_eq_some, Option.some.injEq] at h
    obtain ⟨-, rfl⟩ := h
    exact ⟨fun _ hown => .inl hown, by rintro _ ⟨⟩; exact ⟨Iff.rfl, by simp⟩⟩
  | dequeueNext fnt version =>
    cases hnext : q.next fnt with
    | none =>
      simp only [code, hnext, Option.some.injEq] at h
      subst h
      exact ⟨fun _ hown => .inl hown, by rintro _ ⟨⟩⟩
    | some next =>
      simp only [code, hnext, Option.some.injEq] at h
      subst h
      exact ⟨fun _ hown => .inl hown, by rintro _ ⟨⟩; exact ⟨Iff.rfl, by simp⟩⟩
  | frontCond node ptr version =>
    simp only [code, Option.some.injEq] at h
    subst h
    obtain ⟨hown, hnext⟩ := storeConditional_spec weak q version node none (.pushFront node)
      (.frontStore node q.front q.version)
    refine ⟨fun item hitem => .inl (hown ▸ hitem), fun p' hp' => ?_⟩
    rcases hnext with hnext | hnext
    · rw [hnext] at hp'
      cases hp'
    · rw [hnext] at hp'
      cases hp'
      exact ⟨Iff.rfl, by simp⟩
  | dequeueCond fnt version next =>
    simp only [code, Option.some.injEq] at h
    subst h
    obtain ⟨hown, hnext⟩ := storeConditional_spec weak q version next (some (.dequeueReturn fnt))
      (.pop fnt) (.dequeueNext q.front q.version)
    refine ⟨fun item hitem => .inl (hown ▸ hitem), fun p' hp' => ?_⟩
    rcases hnext with hnext | hnext
    · rw [hnext] at hp'
      cases hp'
      exact ⟨Iff.rfl, by simp⟩
    · rw [hnext] at hp'
      cases hp'
      exact ⟨Iff.rfl, by rintro f v ⟨⟩; rfl⟩
  | dequeueRead =>
    simp only [code, Option.some.injEq] at h
    subst h
    exact ⟨fun _ hown => .inl hown, by rintro _ ⟨⟩; exact ⟨Iff.rfl, by rintro f v ⟨⟩; rfl⟩⟩
  | dequeueReturn fnt =>
    simp only [code, Option.some.injEq] at h
    subst h
    refine ⟨fun item hown => ?_, by rintro _ ⟨⟩⟩
    by_cases hitem : item = fnt
    · exact .inr (congrArg some hitem.symm)
    · exact .inl (by simpa [Function.update_of_ne hitem] using hown)
  | enqueueLink b node =>
    simp only [code, Option.some.injEq] at h
    subst h
    exact ⟨fun _ hown => .inl hown, by rintro _ ⟨⟩⟩
  | _ =>
    simp only [code, Option.some.injEq] at h
    subst h
    exact ⟨fun _ hown => .inl hown, by rintro _ ⟨⟩; exact ⟨Iff.rfl, by simp⟩⟩

/-- What holds in all reachable states. -/
structure Good (w : World) : Prop where
  /-- The queue. -/
  holds : ∃ items, Holds items w.queue (w.calls.map Call.pc)
  /-- A dequeue holds the global epoch or its predecessor. -/
  inside : ∀ call ∈ w.calls, ∀ e, call.epoch = some e → w.Local e
  /-- A dequeue has an epoch, and only a dequeue has read items. -/
  dequeues : ∀ call ∈ w.calls, (Dequeues call.pc → call.epoch ≠ none) ∧
    (¬ Dequeues call.pc → call.seen = [])
  /-- The stored epochs are below the bound. -/
  bounded : ∀ item e, w.epochWhenPopped item = some e → e < Epoch.epochs
  /-- An item that a dequeue has read and that is out of the queue again was popped recently. -/
  recent : ∀ call ∈ w.calls, ∀ item ∈ call.seen, w.queue.owned item = true →
    ∃ e, w.epochWhenPopped item = some e ∧ Recent w.globalEpoch call.epoch e

namespace Good

variable {weak : ℕ → Bool} {asPointer : Option ℕ → Option ℕ} {w w' : World}

/-- An item that was deallocated at once is known to no dequeue in progress. -/
theorem not_seen (h : Good w) {item : ℕ} (howned : w.queue.owned item = true)
    (hout : w.outdated item = true) : ∀ call ∈ w.calls, item ∉ call.seen := by
  intro call hcall hseen
  obtain ⟨e, he, hrecent⟩ := h.recent call hcall item hseen howned
  rw [World.outdated, he] at hout
  have hnot := hrecent.not_outdated (h.bounded item e he)
  dsimp only at hout
  rw [hnot] at hout
  cases hout

/-- A new call that has read nothing. -/
theorem start (h : Good w) {call : Call} {q : Queue}
    (hholds : ∃ items, Holds items q ((call ::ₘ w.calls).map Call.pc))
    (howned : ∀ item, q.owned item = true → w.queue.owned item = true) (hseen : call.seen = [])
    (hlocal : ∀ e, call.epoch = some e → w.Local e) (hepoch : Dequeues call.pc → call.epoch ≠ none) :
    Good { w with queue := q, calls := call ::ₘ w.calls } := by
  refine ⟨hholds, fun c hc => ?_, fun c hc => ?_, h.bounded, fun c hc item hitem hown => ?_⟩
  · rcases Multiset.mem_cons.mp hc with rfl | hc
    · exact hlocal
    · exact h.inside c hc
  · rcases Multiset.mem_cons.mp hc with rfl | hc
    · exact ⟨hepoch, fun _ => hseen⟩
    · exact h.dequeues c hc
  · rcases Multiset.mem_cons.mp hc with rfl | hc
    · rw [hseen] at hitem
      cases hitem
    · exact h.recent c hc item hitem (howned item hown)

/-- The fields after a step of a call. -/
theorem step_fields (asPointer : Option ℕ → Option ℕ) (w : World) (call : Call) (rest : Multiset Call) (e : Effect) :
    (w.step asPointer call rest e).calls = Calls.resume (e.next.map call.goOn) rest ∧
    (w.step asPointer call rest e).globalEpoch = w.globalEpoch ∧
    (w.step asPointer call rest e).queue.owned = e.state.owned ∧
    ∀ item, (w.step asPointer call rest e).epochWhenPopped item =
      if returned call.pc = some item then call.epoch else w.epochWhenPopped item := by
  unfold World.step
  cases hpc : call.pc with
  | dequeueReturn fnt =>
    refine ⟨rfl, rfl, rfl, fun item => ?_⟩
    simp only [returned, Option.some.injEq, Function.update_apply, eq_comm]
  | _ => exact ⟨rfl, rfl, rfl, fun item => (if_neg (by simp [returned])).symm⟩

/-- The queue after a step of a call. -/
theorem step_holds {items : List ℕ} {cs : Multiset Pc} (w : World) {call : Call}
    (rest : Multiset Call) {e : Effect} (hcode : Mpmcq.code weak call.pc w.queue = some e)
    (h : Holds items e.state cs) : Holds items (w.step asPointer call rest e).queue cs := by
  unfold World.step
  cases hpc : call.pc with
  | dequeueReturn fnt =>
    rw [hpc] at hcode
    simp only [Mpmcq.code, Option.some.injEq] at hcode
    subst hcode
    exact holds_overwrite h (Function.update_self ..)
  | _ => exact h

/-- A step of a call. -/
theorem code (h : Good w) {call : Call} {rest : Multiset Call} {e : Effect}
    (hcalls : w.calls = call ::ₘ rest) (hcode : Mpmcq.code weak call.pc w.queue = some e) :
    Good (w.step asPointer call rest e) := by
  obtain ⟨items, hitems⟩ := h.holds
  rw [hcalls, Multiset.map_cons] at hitems
  obtain ⟨e', items', he', -, hholds⟩ := hitems.codeStep weak
  obtain rfl : e = e' := Option.some.inj (hcode.symm.trans he')
  obtain ⟨hcalls', hglobal, howned, hpopped⟩ := step_fields asPointer w call rest e
  obtain ⟨hgives, hnext⟩ := code_spec hcode
  have hold : call ∈ w.calls := by
    rw [hcalls]
    exact Multiset.mem_cons_self ..
  have hrest : ∀ c ∈ rest, c ∈ w.calls := by
    rw [hcalls]
    exact fun c hc => Multiset.mem_cons_of_mem hc
  have hmem : ∀ c ∈ (w.step asPointer call rest e).calls,
      (∃ p', e.next = some p' ∧ c = call.goOn p') ∨ c ∈ rest := by
    rw [hcalls']
    intro c hc
    cases hnone : e.next with
    | none =>
      rw [hnone] at hc
      exact .inr hc
    | some p' =>
      rw [hnone] at hc
      rcases Multiset.mem_cons.mp hc with rfl | hc
      · exact .inl ⟨p', rfl, rfl⟩
      · exact .inr hc
  have hlocal : ∀ E, w.Local E → (w.step asPointer call rest e).Local E := by
    intro E hE
    unfold World.Local
    rw [hglobal]
    exact hE
  refine ⟨⟨items', ?_⟩, fun c hc E hE => ?_, fun c hc => ?_, fun item E hE => ?_,
    fun c hc item hitem hown => ?_⟩
  · have hmap : (w.step asPointer call rest e).calls.map Call.pc =
        Calls.resume e.next (rest.map Call.pc) := by
      rw [hcalls']
      cases e.next with
      | none => rfl
      | some p' => exact Multiset.map_cons ..
    rw [hmap]
    exact step_holds w rest hcode hholds
  · rcases hmem c hc with ⟨p', -, rfl⟩ | hc
    · exact hlocal E (h.inside call hold E hE)
    · exact hlocal E (h.inside c (hrest c hc) E hE)
  · rcases hmem c hc with ⟨p', hp', rfl⟩ | hc
    · obtain ⟨hepoch, hseen⟩ := h.dequeues call hold
      refine ⟨fun hdeq => hepoch ((hnext p' hp').1.mp hdeq), fun hdeq => ?_⟩
      have hnil := hseen fun hdeq' => hdeq ((hnext p' hp').1.mpr hdeq')
      cases p' with
      | dequeueNext fnt version => exact absurd trivial hdeq
      | _ => exact hnil
    · exact h.dequeues c (hrest c hc)
  · rw [hpopped] at hE
    split at hE
    · exact (h.inside call hold E hE).1
    · exact h.bounded item E hE
  · rw [howned] at hown
    rw [hpopped, hglobal]
    by_cases hret : returned call.pc = some item
    · -- the item is returned by this step
      have hdeq : Dequeues call.pc := by
        cases hpc : call.pc with
        | dequeueReturn fnt => trivial
        | _ =>
          rw [hpc] at hret
          cases hret
      obtain ⟨E, hE⟩ := Option.ne_none_iff_exists'.mp ((h.dequeues call hold).1 hdeq)
      rw [if_pos hret]
      exact ⟨E, hE, (h.inside call hold E hE).recent _⟩
    · rw [if_neg hret]
      have hown' := (hgives item hown).resolve_right hret
      rcases hmem c hc with ⟨p', hp', rfl⟩ | hc
      · -- a front that is read now is owned by nobody
        have hseen : item ∈ call.seen := by
          cases p' with
          | dequeueNext fnt version =>
            refine (List.mem_cons.mp hitem).resolve_left fun hfnt => ?_
            rw [hfnt, (hnext _ hp').2 fnt version rfl, front_not_owned hitems] at hown'
            cases hown'
          | _ => exact hitem
        exact h.recent call hold item hseen hown'
      · exact h.recent c (hrest c hc) item hitem hown'

/-- Every step keeps it. -/
theorem step (h : Good w) (hstep : Step weak asPointer w w') : Good w' := by
  cases hstep with
  | @enqueue p q hp hstart =>
    obtain ⟨items, hitems⟩ := h.holds
    refine h.start ⟨items, ?_⟩ ?_ rfl (by simp) ?_
    · rw [Multiset.map_cons]
      exact hitems.startStep hstart
    · intro item howned
      cases p with
      | enqueueNull node =>
        obtain ⟨-, rfl⟩ := hstart
        by_cases hitem : item = node
        · simp [hitem] at howned
        · simpa [Function.update_of_ne hitem] using howned
      | frontRead node =>
        obtain ⟨-, rfl⟩ := hstart
        by_cases hitem : item = node
        · simp [hitem] at howned
        · simpa [Function.update_of_ne hitem] using howned
      | dequeueRead => exact absurd rfl hp
      | _ => exact hstart.elim
    · intro hdeq
      cases p with
      | dequeueRead => exact absurd rfl hp
      | dequeueNext | dequeueCond | dequeueReturn => exact hstart.elim
      | _ => exact hdeq.elim
  | dequeue he =>
    obtain ⟨items, hitems⟩ := h.holds
    refine h.start (q := w.queue) ⟨items, ?_⟩ (fun _ hown => hown) rfl ?_ (by simp)
    · rw [Multiset.map_cons]
      exact hitems.startStep rfl
    · rintro e ⟨⟩
      exact he
  | code hcalls hcode => exact h.code hcalls hcode
  | advance hall =>
    refine ⟨h.holds, fun c hc e hepoch => ?_, h.dequeues, h.bounded,
      fun c hc item hitem hown => ?_⟩
    · obtain rfl := hall c hc e hepoch
      exact ⟨(h.inside c hc _ hepoch).1, .inr rfl⟩
    · obtain ⟨e, he, hrecent⟩ := h.recent c hc item hitem hown
      obtain ⟨E, hE⟩ : ∃ E, c.epoch = some E := by
        refine Option.ne_none_iff_exists'.mp ((h.dequeues c hc).1 ?_)
        by_contra hdeq
        rw [(h.dequeues c hc).2 hdeq] at hitem
        cases hitem
      obtain rfl := hall c hc E hE
      rw [hE] at hrecent ⊢
      exact ⟨e, he, hrecent.advance⟩
  | @elsewhere item e howned he =>
    obtain ⟨items, hitems⟩ := h.holds
    refine ⟨⟨items, holds_overwrite hitems howned⟩, h.inside, h.dequeues, fun x e' hx => ?_,
      fun c hc x hx hown => ?_⟩
    · dsimp only at hx
      rw [Function.update_apply] at hx
      split at hx
      · cases hx
        exact he.1
      · exact h.bounded x e' hx
    · dsimp only
      by_cases hxi : x = item
      · subst hxi
        exact ⟨e, Function.update_self .., he.recent _⟩
      · rw [Function.update_of_ne hxi]
        exact h.recent c hc x hx hown
  | @write item v howned =>
    obtain ⟨items, hitems⟩ := h.holds
    exact ⟨⟨items, holds_overwrite hitems howned⟩, h.inside, h.dequeues, h.bounded, h.recent⟩
  | @reuse item v howned hsafe =>
    obtain ⟨items, hitems⟩ := h.holds
    have hnot : ∀ call ∈ w.calls, item ∉ call.seen := by
      rcases hsafe with hout | hnot
      · exact h.not_seen howned hout
      · exact hnot
    refine ⟨⟨items, holds_overwrite hitems howned⟩, h.inside, h.dequeues, fun x e' hx => ?_,
      fun c hc x hx hown => ?_⟩
    · dsimp only at hx
      rw [Function.update_apply] at hx
      split at hx
      · cases hx
      · exact h.bounded x e' hx
    · have hxi : x ≠ item := by
        rintro rfl
        exact hnot c hc hx
      dsimp only
      rw [Function.update_of_ne hxi]
      exact h.recent c hc x hx hown

end Good

section Runs

variable {weak : ℕ → Bool} {asPointer : Option ℕ → Option ℕ} {w : World}

/-- It holds of a new queue. -/
theorem good_init {token e : ℕ} : Good (init token e) where
  holds := by
    obtain ⟨items, -, hitems⟩ := inv_init token
    exact ⟨items, hitems⟩
  inside c hc := absurd hc (Multiset.notMem_zero c)
  dequeues c hc := absurd hc (Multiset.notMem_zero c)
  bounded item e he := by cases he
  recent c hc := absurd hc (Multiset.notMem_zero c)

/-- It holds in all reachable states. -/
theorem Reachable.good (h : Reachable weak asPointer w) : Good w := by
  obtain ⟨token, e, -, hsteps⟩ := h
  induction hsteps with
  | refl => exact good_init
  | tail _ hstep ih => exact ih.step hstep

/-- When `dealloc` frees an item at once, no `dequeue` that has read it as the front is still inside its
`Epoch`. -/
theorem dealloc_unseen (h : Reachable weak asPointer w) {item : ℕ}
    (howned : w.queue.owned item = true) (hout : w.outdated item = true) :
    ∀ call ∈ w.calls, item ∉ call.seen :=
  h.good.not_seen howned hout

/-- A run of steps goes on. -/
theorem Reachable.tail {w' : World} (h : Reachable weak asPointer w)
    (hstep : Step weak asPointer w w') : Reachable weak asPointer w' := by
  obtain ⟨token, e, he, hsteps⟩ := h
  exact ⟨token, e, he, hsteps.tail hstep⟩

/-- The only call in progress takes a step. -/
theorem Reachable.alone (h : Reachable weak asPointer w) (call : Call) (e : Effect)
    (hcalls : w.calls = {call}) (hcode : code weak call.pc w.queue = some e) :
    Reachable weak asPointer (w.step asPointer call 0 e) :=
  h.tail (.code hcalls hcode)

end Runs

/-- The token was popped three epochs ago, and a `dequeue` is reading the next item. -/
theorem dealloc_unseen_token : ∃ w, Reachable (fun _ => false) id w ∧
    w.epochWhenPopped 0 = some 0 ∧ w.globalEpoch = 3 ∧ w.calls = {⟨.dequeueNext 1 1, some 3, [1]⟩} ∧
    ∀ call ∈ w.calls, 0 ∉ call.seen := by
  have hinit : Reachable (fun _ => false) id (init 0 0) := ⟨0, 0, by decide, .refl⟩
  have hstart := hinit.tail (.enqueue (p := .enqueueNull 1) (by decide) ⟨rfl, rfl⟩)
  have hexchange := hstart.alone ⟨.enqueueNull 1, none, []⟩ _ rfl rfl
  have hassert := hexchange.alone ⟨.enqueueExchange 1, none, []⟩ _ rfl rfl
  have hlink := hassert.alone ⟨.enqueueAssert 0 1, none, []⟩ _ rfl rfl
  have henqueued := hlink.alone ⟨.enqueueLink 0 1, none, []⟩ _ rfl rfl
  have hdequeue := henqueued.tail (.dequeue (e := 0) ⟨by decide, .inl rfl⟩)
  have hnext := hdequeue.alone ⟨.dequeueRead, some 0, []⟩ _ rfl rfl
  have hcond := hnext.alone ⟨.dequeueNext 0 0, some 0, [0]⟩ _ rfl rfl
  have hreturn := hcond.alone ⟨.dequeueCond 0 0 1, some 0, [0]⟩ _ rfl rfl
  have hpop := hreturn.alone ⟨.dequeueReturn 0, some 0, [0]⟩ _ rfl rfl
  have hadvance := ((hpop.tail (.advance fun _ hc => absurd hc (Multiset.notMem_zero _))).tail
    (.advance fun _ hc => absurd hc (Multiset.notMem_zero _))).tail
    (.advance fun _ hc => absurd hc (Multiset.notMem_zero _))
  have hread := (hadvance.tail (.dequeue (e := 3) ⟨by decide, .inl rfl⟩)).alone
    ⟨.dequeueRead, some 3, []⟩ _ rfl rfl
  exact ⟨_, hread, rfl, rfl, rfl, dealloc_unseen hread rfl rfl⟩

end VeronaRt.Work
