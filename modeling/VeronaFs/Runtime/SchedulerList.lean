import VeronaFs.Foundation.Links

/-!
# The list of scheduler threads

`SchedulerList` keeps the active threads and the free ones in two instances of `DLList`.  Both link the
threads through the same fields, so a thread may only be in one of them.

`Represents` says which lists the pointers stand for.  Every operation does to them what it should, with
its own checks of the list passed.
-/

set_option linter.unusedSectionVars false

namespace VeronaRt

open Foundation

/-! ## Code -/

/-- The fields of the threads that `DLList` uses. -/
structure DLLinks (T : Type*) where
  /-- The thread behind. -/
  next : T → Option T
  /-- The thread before. -/
  prev : T → Option T

/-- A `DLList`. -/
structure DLList (T : Type*) where
  /-- Its first element. -/
  head : Option T
  /-- Its last one. -/
  tail : Option T

namespace DLList

variable {T : Type*} [DecidableEq T]

/-- `DLList::insert_back`. -/
def insertBack (k : DLLinks T) (d : DLList T) (item : T) : DLLinks T × DLList T :=
  let prev := Function.update k.prev item d.tail
  let next := Function.update k.next item none
  match d.tail with
  | some t => (⟨Function.update next t (some item), prev⟩, ⟨d.head, some item⟩)
  | none => (⟨next, prev⟩, ⟨some item, some item⟩)

/-- `DLList::remove`. -/
def remove (k : DLLinks T) (d : DLList T) (item : T) : DLLinks T × DLList T :=
  let prev := writeAt k.prev (k.next item) (k.prev item)
  let tail := if k.next item = none then k.prev item else d.tail
  let next := writeAt k.next (prev item) (k.next item)
  let head := if prev item = none then k.next item else d.head
  (⟨next, prev⟩, ⟨head, tail⟩)

/-- `debug_check_contains` comes to the element, and no assertion of `debug_check` fails. -/
def DebugCheckContains (k : DLLinks T) (d : DLList T) (item : T) : Prop :=
  ∃ l, Chain k.next k.prev d.head l ∧ item ∈ l

/-- `debug_check_not_contains` comes to the end without the element. -/
def DebugCheckNotContains (k : DLLinks T) (d : DLList T) (item : T) : Prop :=
  ∃ l, Chain k.next k.prev d.head l ∧ item ∉ l

end DLList

namespace SchedulerList

/-- The lists of a `SchedulerList`. -/
inductive Name
  /-- The active threads. -/
  | active
  /-- The free ones. -/
  | free
deriving DecidableEq, Repr

/-- A `SchedulerList` and the fields of the threads. -/
structure State (T : Type*) where
  /-- The fields. -/
  links : DLLinks T
  /-- The lists. -/
  lists : Name → DLList T

/-- What is called, each with the lock of the lists. -/
inductive Op (T : Type*)
  /-- `add`. -/
  | add (name : Name) (thread : T)
  /-- `pop_or_null`. -/
  | pop (name : Name)
  /-- `move_active_to_free`. -/
  | moveActiveToFree (thread : T)
deriving DecidableEq, Repr

variable {T : Type*} [DecidableEq T]

namespace Op

/-- `add_active`. -/
def addActive (thread : T) : Op T := .add .active thread

/-- `add_free`. -/
def addFree (thread : T) : Op T := .add .free thread

/-- `pop_active`. -/
def popActive : Op T := .pop .active

/-- `pop_free`. -/
def popFree : Op T := .pop .free

end Op

namespace State

/-- At the start. -/
def initial : State T := ⟨⟨fun _ => none, fun _ => none⟩, fun _ => ⟨none, none⟩⟩

/-- `insert_back` on one of the lists. -/
def insertBack (s : State T) (name : Name) (t : T) : State T :=
  let r := (s.lists name).insertBack s.links t
  ⟨r.1, Function.update s.lists name r.2⟩

/-- `remove` on one of them. -/
def remove (s : State T) (name : Name) (t : T) : State T :=
  let r := (s.lists name).remove s.links t
  ⟨r.1, Function.update s.lists name r.2⟩

/-- `pop_or_null`. -/
def popOrNull (s : State T) (name : Name) : State T × Option T :=
  match (s.lists name).head with
  | some t => (s.remove name t, some t)
  | none => (s, none)

/-- A call, with what it returns. -/
def exec (s : State T) : Op T → State T × Option T
  | .add name t => (s.insertBack name t, none)
  | .pop name => s.popOrNull name
  | .moveActiveToFree t => ((s.remove .active t).insertBack .free t, none)

/-- The checks of a call. -/
def Asserts (s : State T) : Op T → Prop
  | .add name t => (s.lists name).DebugCheckNotContains s.links t
  | .pop name => ∀ t, (s.lists name).head = some t → (s.lists name).DebugCheckContains s.links t
  | .moveActiveToFree t => (s.lists .active).DebugCheckContains s.links t ∧
      ((s.remove .active t).lists .free).DebugCheckNotContains (s.remove .active t).links t

/-- Calls one after the other, with what they return. -/
def run : State T → List (Op T) → State T × List (Option T)
  | s, [] => (s, [])
  | s, op :: ops => (((s.exec op).1.run ops).1, (s.exec op).2 :: ((s.exec op).1.run ops).2)

/-- The checks of all of them. -/
def AssertsAll : State T → List (Op T) → Prop
  | _, [] => True
  | s, op :: ops => s.Asserts op ∧ (s.exec op).1.AssertsAll ops

/-- `dealloc_list`, with the threads that it deletes. -/
def deallocList (name : Name) : ℕ → State T → Option (State T × List T)
  | 0, _ => none
  | fuel + 1, s =>
    match (s.lists name).head with
    | none => some (s, [])
    | some t => (deallocList name fuel (s.remove name t)).map fun r => (r.1, t :: r.2)

/-- `dealloc_lists`. -/
def deallocLists (fuel : ℕ) (s : State T) : Option (State T × List T) :=
  (s.deallocList .active fuel).bind fun r =>
    (r.1.deallocList .free fuel).map fun r' => (r'.1, r.2 ++ r'.2)

end State

/-! ## The lists -/

/-- A call does this to the lists. -/
def Op.apply (A : Name → List T) : Op T → (Name → List T) × Option T
  | .add name t => (Function.update A name (A name ++ [t]), none)
  | .pop name => (Function.update A name (A name).tail, (A name).head?)
  | .moveActiveToFree t =>
      (Function.update (Function.update A .active ((A .active).erase t)) .free (A .free ++ [t]), none)

/-- A call that the caller may make: a thread is added that is in no list, or an active one is moved. -/
def Op.Legal (A : Name → List T) : Op T → Prop
  | .add _ t => ∀ name, t ∉ A name
  | .pop _ => True
  | .moveActiveToFree t => t ∈ A .active

/-- Calls one after the other. -/
def applyAll : (Name → List T) → List (Op T) → (Name → List T) × List (Option T)
  | A, [] => (A, [])
  | A, op :: ops =>
      ((applyAll (op.apply A).1 ops).1, (op.apply A).2 :: (applyAll (op.apply A).1 ops).2)

/-- Each of them may be made. -/
def LegalAll : (Name → List T) → List (Op T) → Prop
  | _, [] => True
  | A, op :: ops => op.Legal A ∧ LegalAll (op.apply A).1 ops

/-- A `DLList` stands for a list. -/
structure Holds (k : DLLinks T) (d : DLList T) (l : List T) : Prop where
  /-- Its elements are linked. -/
  chain : Chain k.next k.prev d.head l
  /-- The tail is the last one. -/
  tail : d.tail = l.getLast?
  /-- There are no two of the same. -/
  nodup : l.Nodup

/-- The pointers stand for the lists. -/
structure Represents (s : State T) (A : Name → List T) : Prop where
  /-- Each list is held. -/
  holds : ∀ name, Holds s.links (s.lists name) (A name)
  /-- No thread is in both. -/
  apart : ∀ name name' t, t ∈ A name → t ∈ A name' → name = name'

section

variable {k k' : DLLinks T} {d : DLList T} {l l₁ l₂ : List T} {t x : T} {s : State T}
  {A : Name → List T} {name name' : Name}

/-! ## One list -/

/-- Only the fields of its elements matter. -/
theorem Holds.congr (h : Holds k d l) (hnext : ∀ x ∈ l, k'.next x = k.next x)
    (hprev : ∀ x ∈ l, k'.prev x = k.prev x) : Holds k' d l :=
  ⟨h.chain.congr hnext hprev, h.tail, h.nodup⟩

/-- A new last element. -/
theorem Holds.insertBack (h : Holds k d l) (ht : t ∉ l) :
    Holds (d.insertBack k t).1 (d.insertBack k t).2 (l ++ [t]) := by
  have hnodup : (l ++ [t]).Nodup := by
    rw [List.nodup_append_comm]
    exact List.nodup_cons.mpr ⟨ht, h.nodup⟩
  rcases List.eq_nil_or_concat' l with rfl | ⟨l, a, rfl⟩
  · have htail : d.tail = none := h.tail
    rw [DLList.insertBack, htail]
    exact ⟨⟨rfl, Function.update_self .., Function.update_self ..⟩, rfl, hnodup⟩
  · have htail : d.tail = some a := by
      rw [h.tail]
      simp
    have hne : ∀ x ∈ l ++ [a], x ≠ t := by
      rintro x hx rfl
      exact ht hx
    have hold : Chain (Function.update k.next t none) (Function.update k.prev t none) d.head
        (l ++ [a]) :=
      h.chain.congr (fun x hx => Function.update_of_ne (hne x hx) none k.next)
        fun x hx => Function.update_of_ne (hne x hx) none k.prev
    have hnew : Chain (Function.update k.next t none) (Function.update k.prev t none) (some t) [t] :=
      ⟨rfl, Function.update_self .., Function.update_self ..⟩
    have hboth := hold.attach hnew hnodup
    rw [writeAt, Function.update_idem] at hboth
    rw [DLList.insertBack, htail]
    exact ⟨hboth, by simp, hnodup⟩

/-- Other threads keep their fields. -/
theorem insertBack_of_ne (h : Holds k d l) (hx : x ∉ l) (hxt : x ≠ t) :
    (d.insertBack k t).1.next x = k.next x ∧ (d.insertBack k t).1.prev x = k.prev x := by
  cases htail : d.tail with
  | none =>
    rw [DLList.insertBack, htail]
    exact ⟨Function.update_of_ne hxt .., Function.update_of_ne hxt ..⟩
  | some a =>
    have ha : x ≠ a := by
      rintro rfl
      exact hx (List.mem_of_getLast? (h.tail.symm.trans htail))
    rw [DLList.insertBack, htail]
    exact ⟨(Function.update_of_ne ha ..).trans (Function.update_of_ne hxt ..),
      Function.update_of_ne hxt ..⟩

/-- The links of an element, and the back pointer that `remove` reads. -/
theorem Holds.links_eq (h : Holds k d (l₁ ++ t :: l₂)) :
    k.prev t = l₁.getLast? ∧ k.next t = l₂.head? ∧
      writeAt k.prev (k.next t) (k.prev t) t = k.prev t := by
  have hprev := h.chain.prev_eq
  have hnext := h.chain.next_eq
  refine ⟨hprev, hnext, ?_⟩
  cases hn : k.next t with
  | none => rfl
  | some b =>
    refine Function.update_of_ne ?_ ..
    rintro rfl
    have hmem : t ∈ l₂ := List.mem_of_head? (hnext.symm.trans hn)
    exact (List.nodup_cons.mp (List.nodup_append'.mp h.nodup).2.1).1 hmem

/-- An element is removed. -/
theorem Holds.remove (h : Holds k d (l₁ ++ t :: l₂)) :
    Holds (d.remove k t).1 (d.remove k t).2 (l₁ ++ l₂) := by
  obtain ⟨hprev, hnext, hread⟩ := h.links_eq
  have hnodup : (l₁ ++ l₂).Nodup :=
    h.nodup.sublist (List.Sublist.append_left (List.sublist_cons_self t l₂) l₁)
  rw [DLList.remove, hread]
  refine ⟨?_, ?_, hnodup⟩
  · rcases List.eq_nil_or_concat' l₁ with rfl | ⟨l, b, rfl⟩
    · have hnone : k.prev t = none := hprev
      rw [hnone]
      exact h.chain.pop h.nodup
    · have hsome : k.prev t = some b := by
        rw [hprev]
        simp
      rw [hsome]
      exact h.chain.unlink h.nodup
  · cases l₂ with
    | nil =>
      have hnone : k.next t = none := hnext
      rw [if_pos hnone, hprev, List.append_nil]
    | cons b l₂ =>
      have hsome : k.next t ≠ none := by
        rw [hnext]
        exact Option.some_ne_none b
      rw [if_neg hsome, h.tail]
      simp

/-- Other threads keep their fields. -/
theorem remove_of_ne (h : Holds k d (l₁ ++ t :: l₂)) (hx : x ∉ l₁ ++ t :: l₂) :
    (d.remove k t).1.next x = k.next x ∧ (d.remove k t).1.prev x = k.prev x := by
  obtain ⟨hprev, hnext, hread⟩ := h.links_eq
  rw [DLList.remove, hread]
  constructor
  · show writeAt k.next (k.prev t) (k.next t) x = k.next x
    cases hp : k.prev t with
    | none => rfl
    | some b =>
      refine Function.update_of_ne ?_ ..
      rintro rfl
      exact hx (List.mem_append_left _ (List.mem_of_getLast? (hprev.symm.trans hp)))
  · show writeAt k.prev (k.next t) (k.prev t) x = k.prev x
    cases hn : k.next t with
    | none => rfl
    | some b =>
      refine Function.update_of_ne ?_ ..
      rintro rfl
      have hmem : x ∈ l₂ := List.mem_of_head? (hnext.symm.trans hn)
      exact hx (List.mem_append_right _ (List.mem_cons_of_mem t hmem))

/-! ## Both lists -/

namespace Represents

/-- At the start there are no threads. -/
theorem initial : Represents (State.initial : State T) fun _ => [] :=
  ⟨fun _ => ⟨rfl, rfl, List.nodup_nil⟩, fun _ _ _ h => absurd h List.not_mem_nil⟩

/-- A thread is added to a list. -/
theorem insertBack (h : Represents s A) (ht : ∀ name, t ∉ A name) :
    Represents (s.insertBack name t) (Function.update A name (A name ++ [t])) := by
  have hmem : ∀ n x, x ∈ Function.update A name (A name ++ [t]) n ↔ x ∈ A n ∨ x = t ∧ n = name := by
    intro n x
    by_cases hn : n = name
    · subst hn
      rw [Function.update_self, List.mem_append, List.mem_singleton]
      simp
    · rw [Function.update_of_ne hn]
      simp [hn]
  refine ⟨fun n => ?_, fun n n' x hx hx' => ?_⟩
  · by_cases hn : n = name
    · subst hn
      rw [State.insertBack, Function.update_self]
      have hnew := (h.holds n).insertBack (ht n)
      rw [← Function.update_self n ((s.lists n).insertBack s.links t).2 s.lists] at hnew
      exact hnew
    · rw [State.insertBack, Function.update_of_ne hn]
      have hold : Holds ((s.lists name).insertBack s.links t).1 (s.lists n) (A n) := by
        have hkeep : ∀ x ∈ A n, _ := fun x hx => insertBack_of_ne (t := t) (h.holds name)
          (fun hx' => hn (h.apart n name x hx hx')) fun hxt => ht n (hxt ▸ hx)
        exact (h.holds n).congr (fun x hx => (hkeep x hx).1) fun x hx => (hkeep x hx).2
      rw [← Function.update_of_ne hn ((s.lists name).insertBack s.links t).2 s.lists] at hold
      exact hold
  · rw [hmem] at hx hx'
    rcases hx with hx | ⟨rfl, rfl⟩
    · rcases hx' with hx' | ⟨rfl, rfl⟩
      · exact h.apart n n' x hx hx'
      · exact absurd hx (ht n)
    · rcases hx' with hx' | ⟨-, rfl⟩
      · exact absurd hx' (ht n')
      · rfl

/-- A thread is removed from its list. -/
theorem remove (h : Represents s A) (hA : A name = l₁ ++ t :: l₂) :
    Represents (s.remove name t) (Function.update A name (l₁ ++ l₂)) := by
  have hheld : Holds s.links (s.lists name) (l₁ ++ t :: l₂) := hA ▸ h.holds name
  have hmem : ∀ n x, x ∈ Function.update A name (l₁ ++ l₂) n → x ∈ A n := by
    intro n x hx
    by_cases hn : n = name
    · subst hn
      rw [Function.update_self] at hx
      rw [hA]
      exact (List.Sublist.append_left (List.sublist_cons_self t l₂) l₁).subset hx
    · rw [Function.update_of_ne hn] at hx
      exact hx
  refine ⟨fun n => ?_, fun n n' x hx hx' => h.apart n n' x (hmem n x hx) (hmem n' x hx')⟩
  by_cases hn : n = name
  · subst hn
    rw [State.remove, Function.update_self]
    have hnew := hheld.remove
    rw [← Function.update_self n ((s.lists n).remove s.links t).2 s.lists] at hnew
    exact hnew
  · rw [State.remove, Function.update_of_ne hn]
    have hold : Holds ((s.lists name).remove s.links t).1 (s.lists n) (A n) := by
      have hkeep : ∀ x ∈ A n, _ := fun x hx => remove_of_ne hheld
        fun hx' => hn (h.apart n name x hx (hA ▸ hx'))
      exact (h.holds n).congr (fun x hx => (hkeep x hx).1) fun x hx => (hkeep x hx).2
    rw [← Function.update_of_ne hn ((s.lists name).remove s.links t).2 s.lists] at hold
    exact hold

/-- The head of a list. -/
theorem head_eq (h : Represents s A) (name : Name) : (s.lists name).head = (A name).head? :=
  (h.holds name).chain.head_eq

/-- An element is in its list. -/
theorem debugCheckContains (h : Represents s A) (ht : t ∈ A name) :
    (s.lists name).DebugCheckContains s.links t := ⟨A name, (h.holds name).chain, ht⟩

/-- Another thread is not. -/
theorem debugCheckNotContains (h : Represents s A) (ht : t ∉ A name) :
    (s.lists name).DebugCheckNotContains s.links t := ⟨A name, (h.holds name).chain, ht⟩

/-- Every call that may be made does to the lists what it should. -/
theorem exec {op : Op T} (h : Represents s A) (hop : op.Legal A) :
    s.Asserts op ∧ (s.exec op).2 = (op.apply A).2 ∧ Represents (s.exec op).1 (op.apply A).1 := by
  cases op with
  | add name t => exact ⟨h.debugCheckNotContains (hop name), rfl, h.insertBack hop⟩
  | pop name =>
    have hhead := h.head_eq name
    refine ⟨fun t ht => h.debugCheckContains (List.mem_of_head? (hhead.symm.trans ht)), ?_⟩
    cases hA : A name with
    | nil =>
      rw [hA] at hhead
      have hnone : (s.lists name).head = none := hhead
      have hsame : Function.update A name (A name).tail = A := by
        rw [hA]
        exact (congrArg (Function.update A name) hA.symm).trans (Function.update_eq_self name A)
      rw [State.exec, State.popOrNull, hnone, Op.apply, hsame, hA]
      exact ⟨rfl, h⟩
    | cons t l =>
      rw [hA] at hhead
      have hsome : (s.lists name).head = some t := hhead
      rw [State.exec, State.popOrNull, hsome, Op.apply, hA]
      exact ⟨rfl, h.remove (show A name = [] ++ t :: l from hA)⟩
  | moveActiveToFree t =>
    obtain ⟨l₁, l₂, hA⟩ := List.append_of_mem hop
    have hnodup := (h.holds .active).nodup
    rw [hA] at hnodup
    have ht₁ : t ∉ l₁ := fun ht => (List.nodup_append'.mp hnodup).2.2 ht List.mem_cons_self
    have ht₂ : t ∉ l₂ := (List.nodup_cons.mp (List.nodup_append'.mp hnodup).2.1).1
    have herase : (A .active).erase t = l₁ ++ l₂ := by
      rw [hA, List.erase_append_right _ ht₁, List.erase_cons_head]
    have hremoved := h.remove hA
    have hnot : ∀ name, t ∉ Function.update A .active (l₁ ++ l₂) name := by
      intro name ht
      cases name with
      | active =>
        rw [Function.update_self] at ht
        exact (List.mem_append.mp ht).elim ht₁ ht₂
      | free =>
        have hne : Name.free = Name.active := h.apart .free .active t ht hop
        cases hne
    have hadded : Represents ((s.remove .active t).insertBack .free t) _ := hremoved.insertBack hnot
    rw [Op.apply, herase]
    exact ⟨⟨h.debugCheckContains hop, hremoved.debugCheckNotContains (hnot .free)⟩, rfl, hadded⟩

/-- So do calls one after the other. -/
theorem run {ops : List (Op T)} (h : Represents s A) (hops : LegalAll A ops) :
    s.AssertsAll ops ∧ (s.run ops).2 = (applyAll A ops).2 ∧
      Represents (s.run ops).1 (applyAll A ops).1 := by
  induction ops generalizing s A with
  | nil => exact ⟨trivial, rfl, h⟩
  | cons op ops ih =>
    obtain ⟨hop, hops⟩ := hops
    obtain ⟨hassert, hresult, hnext⟩ := h.exec hop
    obtain ⟨hasserts, hresults, hend⟩ := ih hnext hops
    refine ⟨⟨hassert, hasserts⟩, ?_, hend⟩
    rw [State.run, applyAll, hresult, hresults]

/-- All threads of a list are deleted. -/
theorem deallocList {fuel : ℕ} (h : Represents s A) (hfuel : (A name).length < fuel) :
    ∃ s', s.deallocList name fuel = some (s', A name) ∧ Represents s' (Function.update A name []) := by
  induction fuel generalizing s A with
  | zero => cases hfuel
  | succ fuel ih =>
    have hhead := h.head_eq name
    cases hA : A name with
    | nil =>
      rw [hA] at hhead
      have hnone : (s.lists name).head = none := hhead
      rw [State.deallocList, hnone, ← hA, Function.update_eq_self]
      exact ⟨s, rfl, h⟩
    | cons t l =>
      rw [hA] at hhead hfuel
      have hsome : (s.lists name).head = some t := hhead
      have hremoved := h.remove (show A name = [] ++ t :: l from hA)
      have hl : Function.update A name l name = l := Function.update_self ..
      have hlength : (Function.update A name l name).length < fuel := by
        rw [hl]
        exact Nat.lt_of_succ_lt_succ hfuel
      obtain ⟨s', hs', hrep⟩ := ih hremoved hlength
      rw [List.nil_append, hl] at hs'
      rw [List.nil_append, Function.update_idem] at hrep
      refine ⟨s', ?_, hrep⟩
      rw [State.deallocList, hsome]
      show (State.deallocList name fuel (s.remove name t)).map _ = _
      rw [hs']
      rfl

end Represents

/-! ## Results -/

/-- Whatever calls are made, as long as a thread is only added when it is in no list and moved when it
is active, no check fails, and the lists and results are those of the calls. -/
theorem run_represents {ops : List (Op T)} (hops : LegalAll (fun _ => []) ops) :
    State.initial.AssertsAll ops ∧ (State.initial.run ops).2 = (applyAll (fun _ => []) ops).2 ∧
      Represents (State.initial.run ops).1 (applyAll (fun _ => []) ops).1 :=
  Represents.initial.run hops

/-- Some calls: a thread that was popped from the free list is activated and moved back. -/
def someCalls : List (Op ℕ) := [.addFree 1, .popFree, .addActive 1, .moveActiveToFree 1]

/-- They may be made. -/
theorem someCalls_legal : LegalAll (fun _ => []) someCalls := by
  refine And.intro ?_ (And.intro trivial (And.intro ?_ (And.intro ?_ trivial)))
  · exact fun _ => List.not_mem_nil
  · intro name
    cases name
    · exact List.not_mem_nil
    · exact List.not_mem_nil
  · exact List.mem_singleton.mpr rfl

/-- The thread is popped once. -/
theorem run_represents_someCalls : (State.initial.run someCalls).2 = [none, some 1, none, none] :=
  (run_represents someCalls_legal).2.1

/-- At the end all threads of the lists are deleted, each once, and both lists are empty. -/
theorem deallocLists_run {ops : List (Op T)} {fuel : ℕ} (hops : LegalAll (fun _ => []) ops)
    (hfuel : ∀ name, ((applyAll (fun _ => []) ops).1 name).length < fuel) :
    ∃ s', (State.initial.run ops).1.deallocLists fuel =
        some (s', (applyAll (fun _ => []) ops).1 .active ++ (applyAll (fun _ => []) ops).1 .free) ∧
      ((applyAll (fun _ => []) ops).1 .active ++ (applyAll (fun _ => []) ops).1 .free).Nodup ∧
      ∀ name, (s'.lists name).head = none := by
  have hrep := (Represents.initial.run hops).2.2
  generalize (State.initial.run ops).1 = s at hrep ⊢
  generalize (applyAll (fun _ => []) ops).1 = A at hrep hfuel ⊢
  obtain ⟨s₁, hs₁, hrep₁⟩ := hrep.deallocList (hfuel .active)
  have hfree : Function.update A .active [] .free = A .free :=
    Function.update_of_ne (fun h => by cases h) ..
  have hlength : (Function.update A .active [] .free).length < fuel := by
    rw [hfree]
    exact hfuel .free
  obtain ⟨s₂, hs₂, hrep₂⟩ := hrep₁.deallocList hlength
  rw [hfree] at hs₂
  refine ⟨s₂, ?_, ?_, fun name => ?_⟩
  · rw [State.deallocLists, hs₁, Option.bind_some, hs₂]
    rfl
  · refine List.nodup_append'.mpr
      ⟨(hrep.holds .active).nodup, (hrep.holds .free).nodup, fun t ht ht' => ?_⟩
    have hne : Name.active = Name.free := hrep.apart .active .free t ht ht'
    cases hne
  · rw [hrep₂.head_eq]
    cases name
    · rfl
    · rfl

/-- The thread of the calls is deleted once. -/
theorem deallocLists_run_someCalls :
    ∃ s', (State.initial.run someCalls).1.deallocLists 2 = some (s', [1]) ∧ [1].Nodup ∧
      ∀ name, (s'.lists name).head = none := by
  refine deallocLists_run someCalls_legal fun name => ?_
  cases name
  · exact Nat.zero_lt_two
  · exact Nat.one_lt_two

end

end SchedulerList

end VeronaRt
