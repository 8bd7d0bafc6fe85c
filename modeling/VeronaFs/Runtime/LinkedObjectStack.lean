import VeronaFs.Foundation.Links
import VeronaFs.Runtime.HeaderOps

/-!
# Stacks in object headers

`LinkedObjectStack`: a stack of objects that are linked through the first words of their headers, so
that it needs no memory of its own.  A push overwrites the word of an object, whatever it was.

`Stacked h s l` says that the stack `s` has the objects `l`, the top first.  A push adds an object that
is not in the stack, a pop removes the top, and words of other objects do not matter.
-/

namespace VeronaRt

open Foundation

/-- A stack of objects, by the address of its top. -/
structure LinkedObjectStack where
  /-- The top, or a null pointer. -/
  header : ObjAddr

namespace LinkedObjectStack

/-! ## Code -/

/-- The null pointer. -/
def null : ObjAddr := ⟨0, rfl⟩

/-- A stack without objects. -/
def nil : LinkedObjectStack := ⟨null⟩

/-- `empty`. -/
def empty (s : LinkedObjectStack) : Bool := s.header = null

/-- `pop`. -/
def pop (h : ObjectHeap) (s : LinkedObjectStack) : Option (ObjAddr × LinkedObjectStack) :=
  if s.empty then none else (h.getNextAnyMark s.header).map fun next => (s.header, ⟨next⟩)

/-- `push`. -/
def push (h : ObjectHeap) (s : LinkedObjectStack) (value : ObjAddr) :
    Option (ObjectHeap × LinkedObjectStack) :=
  (h.initNext value s.header).map fun h => (h, ⟨value⟩)

/-- `forall`: the objects in the order of the stack. -/
def toList (h : ObjectHeap) : ℕ → LinkedObjectStack → Option (List ObjAddr)
  | 0, s => if s.empty then some [] else none
  | fuel + 1, s =>
    if s.empty then some []
    else (pop h s).bind fun r => (toList h fuel r.2).map fun l => r.1 :: l

/-! ## The objects of a stack -/

/-- The stack has the objects of a list, the top first. -/
def Stacked (h : ObjectHeap) : LinkedObjectStack → List ObjAddr → Prop
  | s, [] => s.header = null
  | s, o :: l => s.header = o ∧ o ≠ null ∧ ∃ next, h o = some (Header.ofAddress next .unmarked) ∧
      Stacked h ⟨next⟩ l

variable {h h' : ObjectHeap} {s s' : LinkedObjectStack} {l : List ObjAddr} {o : ObjAddr}
  {bits : BitVec 64}

/-- The stack without objects. -/
theorem stacked_nil : Stacked h nil [] := rfl

/-- Only the words of its objects matter. -/
theorem Stacked.congr (hs : Stacked h s l) (hh : ∀ o ∈ l, h' o = h o) : Stacked h' s l := by
  induction l generalizing s with
  | nil => exact hs
  | cons o l ih =>
    obtain ⟨htop, hne, next, hword, hrest⟩ := hs
    refine ⟨htop, hne, next, ?_, ih hrest fun u hu => hh u (List.mem_cons_of_mem o hu)⟩
    rw [hh o List.mem_cons_self, hword]

/-- The stack is empty exactly if it has no objects. -/
theorem Stacked.empty_eq (hs : Stacked h s l) : s.empty = l.isEmpty := by
  cases l with
  | nil => exact decide_eq_true hs
  | cons o l => exact decide_eq_false (hs.1 ▸ hs.2.1)

/-- The objects of a stack are mutable. -/
theorem Stacked.getClass (hs : Stacked h s l) (ho : o ∈ l) : h.getClass o = some .unmarked := by
  induction l generalizing s with
  | nil => cases ho
  | cons u l ih =>
    obtain ⟨-, -, next, hword, hrest⟩ := hs
    rcases List.mem_cons.mp ho with rfl | ho
    · rw [ObjectHeap.getClass_of_some hword, Header.getClass_ofAddress]
    · exact ih hrest ho

/-- A pop gives the top. -/
theorem Stacked.pop (hs : Stacked h s (o :: l)) :
    ∃ s', LinkedObjectStack.pop h s = some (o, s') ∧ Stacked h s' l := by
  have hempty := hs.empty_eq
  obtain ⟨htop, -, next, hword, hrest⟩ := hs
  refine ⟨⟨next⟩, ?_, hrest⟩
  have hnext : h.getNextAnyMark o = some next := by
    simp [ObjectHeap.getNextAnyMark, hword, ObjectHeap.anyMark]
  rw [LinkedObjectStack.pop, hempty, htop, hnext]
  rfl

/-- A push adds an object that is not in the stack. -/
theorem Stacked.push (hs : Stacked h s l) (ho : h o = some bits) (hne : o ≠ null) (hol : o ∉ l) :
    LinkedObjectStack.push h s o =
        some (Function.update h o (some (Header.ofAddress s.header .unmarked)), ⟨o⟩) ∧
      Stacked (Function.update h o (some (Header.ofAddress s.header .unmarked))) ⟨o⟩ (o :: l) := by
  constructor
  · rw [LinkedObjectStack.push, ObjectHeap.initNext, ObjectHeap.write_of_some ho, Option.map_some]
  · refine ⟨rfl, hne, s.header, Function.update_self .., hs.congr fun u hu => ?_⟩
    refine Function.update_of_ne ?_ ..
    rintro rfl
    exact hol hu

/-- `forall` visits the objects of a stack. -/
theorem Stacked.toList {fuel : ℕ} (hs : Stacked h s l) (hfuel : l.length ≤ fuel) :
    LinkedObjectStack.toList h fuel s = some l := by
  induction l generalizing s fuel with
  | nil =>
    have hempty := hs.empty_eq
    cases fuel with
    | zero => rw [LinkedObjectStack.toList, hempty]; rfl
    | succ fuel => rw [LinkedObjectStack.toList, hempty]; rfl
  | cons o l ih =>
    obtain ⟨fuel, rfl⟩ := Nat.exists_eq_add_of_le' (Nat.le_of_add_left_le hfuel)
    have hempty := hs.empty_eq
    obtain ⟨s', hpop, hrest⟩ := hs.pop
    rw [LinkedObjectStack.toList, hempty, hpop]
    have hrest' := ih hrest (by simpa using hfuel)
    simp [hrest']

end LinkedObjectStack

end VeronaRt
