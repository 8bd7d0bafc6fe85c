import Mathlib.Data.List.Basic
import Mathlib.Data.List.Nodup
import Mathlib.Logic.Function.Basic

/-!
# Linked lists

`Path next l h q` says that the pointer `h` leads along the elements of `l` to the pointer `q`.

In a doubly linked list `Seg next prev l p h q` says this, and that the back pointers lead from each
element to the one before it, from the first to `p`.  A `Chain` is a whole list: it ends in a null
pointer at both sides.

The lemmas say how they compose and what a write to one pointer does to them.
-/

namespace Foundation

variable {α : Type*}

/-! ## Singly linked lists -/

/-- From the pointer `h` along `l` to the pointer `q`. -/
def Path (next : α → Option α) : List α → Option α → Option α → Prop
  | [], h, q => h = q
  | a :: l, h, q => h = some a ∧ Path next l (next a) q

namespace Path

variable {next next' : α → Option α} {l l₁ l₂ : List α} {a : α} {h q q' v : Option α}

/-- Two paths behind each other. -/
theorem append_iff :
    Path next (l₁ ++ l₂) h q ↔ ∃ m, Path next l₁ h m ∧ Path next l₂ m q := by
  induction l₁ generalizing h with
  | nil => simp [Path]
  | cons a l ih =>
    simp only [List.cons_append, Path, ih]
    constructor
    · rintro ⟨hh, m, h₁, h₂⟩
      exact ⟨m, ⟨hh, h₁⟩, h₂⟩
    · rintro ⟨m, ⟨hh, h₁⟩, h₂⟩
      exact ⟨hh, m, h₁, h₂⟩

/-- The pointers of other elements do not matter. -/
theorem congr (hp : Path next l h q) (hnext : ∀ a ∈ l, next' a = next a) : Path next' l h q := by
  induction l generalizing h with
  | nil => exact hp
  | cons a l ih =>
    refine ⟨hp.1, ?_⟩
    rw [hnext a List.mem_cons_self]
    exact ih hp.2 fun b hb => hnext b (List.mem_cons_of_mem a hb)

variable [DecidableEq α]

/-- A write to the pointer of another element. -/
theorem update (hp : Path next l h q) (ha : a ∉ l) : Path (Function.update next a v) l h q :=
  hp.congr fun b hb => Function.update_of_ne (fun hba : b = a => ha (hba ▸ hb)) _ _

/-- The pointer of the last element is written. -/
theorem renext (hp : Path next (l ++ [a]) h q) (ha : a ∉ l) :
    Path (Function.update next a q') (l ++ [a]) h q' := by
  obtain ⟨m, h₁, hm, -⟩ := append_iff.mp hp
  exact append_iff.mpr ⟨m, h₁.update ha, hm, Function.update_self ..⟩

/-- The list ends in another pointer when that of its last element is written, or the one to the list
if it has no element. -/
theorem relast {h' : Option α} (hp : Path next l h q) (hl : l.Nodup)
    (hnext : ∀ b ∈ l, l.getLast? ≠ some b → next' b = next b)
    (hlast : ∀ b, l.getLast? = some b → next' b = q') (hnil : l = [] → h' = q')
    (hhead : l ≠ [] → h' = h) : Path next' l h' q' := by
  rcases List.eq_nil_or_concat' l with rfl | ⟨l, b, rfl⟩
  · exact hnil rfl
  · rw [hhead (by simp)]
    have hb : b ∉ l := fun hmem => (List.nodup_append'.mp hl).2.2 hmem (by simp)
    refine (hp.renext hb).congr fun c hc => ?_
    rcases List.mem_append.mp hc with hc | hc
    · have hcb : c ≠ b := fun heq => hb (heq ▸ hc)
      rw [Function.update_of_ne hcb]
      exact hnext c (List.mem_append_left _ hc) (by simpa using fun heq => hcb heq.symm)
    · rw [List.mem_singleton.mp hc, Function.update_self]
      exact hlast b (by simp)

/-- A ring through `c` is rotated: the element `a` becomes the last one. -/
theorem rotate {b c : α} (hp : Path next (l₁ ++ [a] ++ (l₂ ++ [b])) (next c) (some c))
    (hl : (l₁ ++ [a] ++ (l₂ ++ [b])).Nodup) (hb : next' b = next c) (hc : next' c = next a)
    (ha : next' a = some c) (hnext : ∀ x ∈ l₁ ++ l₂, next' x = next x) :
    Path next' (l₂ ++ [b] ++ (l₁ ++ [a])) (next' c) (some c) := by
  obtain ⟨hl₁, hl₂, -⟩ := List.nodup_append'.mp hl
  obtain ⟨m, h₁, h₂⟩ := append_iff.mp hp
  obtain ⟨m', h₁', hm', hm⟩ := append_iff.mp h₁
  obtain rfl : next a = m := hm
  refine append_iff.mpr ⟨next c, ?_, ?_⟩
  · refine h₂.relast hl₂ (fun x hx hlast => hnext x ?_) (fun x hx => ?_) (by simp) fun _ => hc
    · refine List.mem_append_right _ ((List.mem_append.mp hx).resolve_right fun hx => hlast ?_)
      simp [List.mem_singleton.mp hx]
    · obtain rfl : b = x := by simpa using hx
      exact hb
  · refine h₁.relast hl₁ (fun x hx hlast => hnext x ?_) (fun x hx => ?_) (by simp) fun _ => rfl
    · refine List.mem_append_left _ ((List.mem_append.mp hx).resolve_right fun hx => hlast ?_)
      simp [List.mem_singleton.mp hx]
    · obtain rfl : a = x := by simpa using hx
      exact ha

end Path

/-! ## Doubly linked lists -/

/-- From the pointer `h` along `l` to the pointer `q`, and back from the first element to `p`. -/
def Seg (next prev : α → Option α) : List α → Option α → Option α → Option α → Prop
  | [], _, h, q => h = q
  | a :: l, p, h, q => h = some a ∧ prev a = p ∧ Seg next prev l (some a) (next a) q

/-- A list whose first element is at the pointer `h`. -/
def Chain (next prev : α → Option α) (h : Option α) (l : List α) : Prop :=
  Seg next prev l none h none

/-- Write `v` to the pointer of the element at `h`, if there is one. -/
def writeAt [DecidableEq α] (f : α → Option α) (h v : Option α) : α → Option α :=
  match h with
  | some b => Function.update f b v
  | none => f

namespace Seg

variable {next prev next' prev' : α → Option α} {l l₁ l₂ : List α} {a b : α}
  {p p' h q q' v : Option α}

/-- A segment without elements. -/
@[simp] theorem nil_iff : Seg next prev [] p h q ↔ h = q := Iff.rfl

/-- A segment with a first element. -/
@[simp] theorem cons_iff : Seg next prev (a :: l) p h q ↔
    h = some a ∧ prev a = p ∧ Seg next prev l (some a) (next a) q := Iff.rfl

/-- The last element of a list with a first one. -/
theorem getLast?_cons_or : (a :: l).getLast?.or p = l.getLast?.or (some a) := by
  rw [List.getLast?_cons]
  cases l.getLast? <;> rfl

/-- Two segments behind each other. -/
theorem append_iff : Seg next prev (l₁ ++ l₂) p h q ↔
    ∃ m, Seg next prev l₁ p h m ∧ Seg next prev l₂ (l₁.getLast?.or p) m q := by
  induction l₁ generalizing p h with
  | nil => simp
  | cons a l ih =>
    rw [List.cons_append, cons_iff, ih, getLast?_cons_or]
    simp only [cons_iff]
    constructor
    · rintro ⟨hh, hp, m, h₁, h₂⟩
      exact ⟨m, ⟨hh, hp, h₁⟩, h₂⟩
    · rintro ⟨m, ⟨hh, hp, h₁⟩, h₂⟩
      exact ⟨hh, hp, m, h₁, h₂⟩

/-- The pointers of other elements do not matter. -/
theorem congr (hs : Seg next prev l p h q) (hnext : ∀ a ∈ l, next' a = next a)
    (hprev : ∀ a ∈ l, prev' a = prev a) : Seg next' prev' l p h q := by
  induction l generalizing p h with
  | nil => exact hs
  | cons a l ih =>
    obtain ⟨hh, hp, hs⟩ := hs
    refine ⟨hh, (hprev a List.mem_cons_self).trans hp, ?_⟩
    rw [hnext a List.mem_cons_self]
    exact ih hs (fun b hb => hnext b (List.mem_cons_of_mem a hb))
      fun b hb => hprev b (List.mem_cons_of_mem a hb)

/-- A segment determines its elements. -/
theorem ext (h₁ : Seg next prev l₁ p h none) (h₂ : Seg next prev l₂ p h none) : l₁ = l₂ := by
  induction l₁ generalizing p h l₂ with
  | nil =>
    obtain rfl : h = none := h₁
    cases l₂ with
    | nil => rfl
    | cons b l₂ => cases h₂.1
  | cons a l₁ ih =>
    obtain ⟨rfl, hp, h₁⟩ := h₁
    cases l₂ with
    | nil => cases h₂
    | cons b l₂ =>
      obtain ⟨hb, -, h₂⟩ := h₂
      obtain rfl := Option.some.inj hb
      obtain rfl : p = prev a := hp.symm
      rw [ih h₁ h₂]

/-- The pointer to a whole list is that to its first element. -/
theorem head_eq (hs : Seg next prev l p h none) : h = l.head? := by
  cases l with
  | nil => exact hs
  | cons a l => exact hs.1

variable [DecidableEq α]

/-- A write to the forward pointer of another element. -/
theorem update_next (hs : Seg next prev l p h q) (ha : a ∉ l) :
    Seg (Function.update next a v) prev l p h q := by
  refine hs.congr (fun b hb => ?_) fun _ _ => rfl
  exact Function.update_of_ne (fun hba : b = a => ha (hba ▸ hb)) _ _

/-- A write to the back pointer of another element. -/
theorem update_prev (hs : Seg next prev l p h q) (ha : a ∉ l) :
    Seg next (Function.update prev a v) l p h q := by
  refine hs.congr (fun _ _ => rfl) fun b hb => ?_
  exact Function.update_of_ne (fun hba : b = a => ha (hba ▸ hb)) _ _

/-- A write to the back pointer of an element that is not of the list. -/
theorem writeAt_prev {g : Option α} (hs : Seg next prev l p h q) (hg : ∀ a, g = some a → a ∉ l) :
    Seg next (writeAt prev g v) l p h q := by
  cases g with
  | none => exact hs
  | some a => exact hs.update_prev (hg a rfl)

/-- The back pointer of the first element is written. -/
theorem reprev (hs : Seg next prev l p h none) (hl : l.Nodup) :
    Seg next (writeAt prev h p') l p' h none := by
  cases l with
  | nil =>
    obtain rfl : h = none := hs
    rfl
  | cons a l =>
    obtain ⟨rfl, -, hs⟩ := hs
    exact ⟨rfl, Function.update_self .., hs.update_prev (List.nodup_cons.mp hl).1⟩

/-- The forward pointer of the last element is written. -/
theorem renext (hs : Seg next prev (l ++ [a]) p h q) (ha : a ∉ l) :
    Seg (Function.update next a q') prev (l ++ [a]) p h q' := by
  obtain ⟨m, h₁, hm, hp, -⟩ := append_iff.mp hs
  exact append_iff.mpr ⟨m, h₁.update_next ha, hm, hp, Function.update_self ..⟩

end Seg

namespace Chain

variable {next prev : α → Option α} {l l₁ l₂ : List α} {a b : α} {h h₂ : Option α}

/-- Only the pointers of the elements matter. -/
theorem congr {next' prev' : α → Option α} (hc : Chain next prev h l)
    (hnext : ∀ a ∈ l, next' a = next a) (hprev : ∀ a ∈ l, prev' a = prev a) :
    Chain next' prev' h l := Seg.congr hc hnext hprev

/-- The pointer to a list is that to its first element. -/
theorem head_eq (hc : Chain next prev h l) : h = l.head? := Seg.head_eq hc

/-- The element before an element of the list. -/
theorem prev_eq (hc : Chain next prev h (l₁ ++ a :: l₂)) : prev a = l₁.getLast? := by
  obtain ⟨m, -, -, hp, -⟩ := Seg.append_iff.mp hc
  simpa using hp

/-- The element behind an element of the list. -/
theorem next_eq (hc : Chain next prev h (l₁ ++ a :: l₂)) : next a = l₂.head? := by
  obtain ⟨m, -, -, -, hs⟩ := Seg.append_iff.mp hc
  exact hs.head_eq

variable [DecidableEq α]

/-- A new first element. -/
theorem push (hc : Chain next prev h l) (hl : l.Nodup) (ha : a ∉ l) (hp : prev a = none) :
    Chain (Function.update next a h) (writeAt prev h (some a)) (some a) (a :: l) := by
  refine ⟨rfl, ?_, ?_⟩
  · cases hh : h with
    | none => exact hp
    | some b =>
      have hb : b ∈ l := List.mem_of_head? (hc.head_eq.symm.trans hh)
      exact (Function.update_of_ne (fun hab : a = b => ha (hab ▸ hb)) _ _).trans hp
  · rw [Function.update_self]
    exact (Seg.reprev hc hl).update_next ha

/-- The first element is removed. -/
theorem pop (hc : Chain next prev h (a :: l)) (hl : (a :: l).Nodup) :
    Chain next (writeAt prev (next a) none) (next a) l :=
  Seg.reprev hc.2.2 (List.nodup_cons.mp hl).2

/-- An element behind the first is removed. -/
theorem unlink (hc : Chain next prev h (l₁ ++ [b] ++ a :: l₂)) (hl : (l₁ ++ [b] ++ a :: l₂).Nodup) :
    Chain (Function.update next b (next a)) (writeAt prev (next a) (some b)) h
      (l₁ ++ [b] ++ l₂) := by
  obtain ⟨hl₁, hl₂, hdisj⟩ := List.nodup_append'.mp hl
  obtain ⟨m, h₁, hm, hp, h₂⟩ := Seg.append_iff.mp hc
  have hb : b ∉ l₁ := fun h => (List.nodup_append'.mp hl₁).2.2 h (by simp)
  have hbl₂ : b ∉ l₂ := fun h => hdisj (a := b) (by simp) (by simp [h])
  refine Seg.append_iff.mpr ⟨next a, ?_, ?_⟩
  · refine (h₁.renext hb).writeAt_prev fun c hc hmem => ?_
    have hcl : c ∈ l₂ := List.mem_of_head? (h₂.head_eq.symm.trans hc)
    exact hdisj hmem (List.mem_cons_of_mem a hcl)
  · have hlast : (l₁ ++ [b]).getLast?.or none = some b := by simp
    rw [hlast]
    exact (Seg.reprev h₂ (List.nodup_cons.mp hl₂).2).update_next hbl₂

/-- A list is attached to another one. -/
theorem attach (hc : Chain next prev h (l₁ ++ [a])) (hc₂ : Chain next prev h₂ l₂)
    (hl : (l₁ ++ [a] ++ l₂).Nodup) :
    Chain (Function.update next a h₂) (writeAt prev h₂ (some a)) h (l₁ ++ [a] ++ l₂) := by
  obtain ⟨hl₁, hl₂, hdisj⟩ := List.nodup_append'.mp hl
  have ha : a ∉ l₁ := fun h => (List.nodup_append'.mp hl₁).2.2 h (by simp)
  have hal₂ : a ∉ l₂ := fun h => hdisj (a := a) (by simp) h
  refine Seg.append_iff.mpr ⟨h₂, ?_, ?_⟩
  · refine (Seg.renext hc ha).writeAt_prev fun c hc hmem => ?_
    exact hdisj hmem (List.mem_of_head? (hc₂.head_eq.symm.trans hc))
  · have hlast : (l₁ ++ [a]).getLast?.or none = some a := by simp
    rw [hlast]
    exact (Seg.reprev hc₂ hl₂).update_next hal₂

end Chain

end Foundation
