import Mathlib.Algebra.BigOperators.Group.Multiset.Basic
import Mathlib.Algebra.Order.BigOperators.Group.Multiset

/-!
# Concurrent calls

Any number of calls run on a shared state in atomic steps.  The code of a call is a function from
its program counter and the state to what its next step does; `none` is an assertion that fails.
Calls with the same program counter behave alike, so a configuration has the multiset of the program
counters of the calls in progress.

A run lists the events of its steps.  `Calls.Run.invariant` is the induction over a run, and
`Calls.total` adds a number for each call in progress: many invariants say that such a total is the
value of a counter.
-/

namespace Foundation

/-- What one step of a call does. -/
structure Calls.Effect (σ π ε : Type*) where
  /-- The state it leaves. -/
  state : σ
  /-- The program counter after it, or `none` when the call returns. -/
  next : Option π
  /-- What can be observed of it. -/
  events : List ε

/-- Calls with program counters `π` on states `σ`, with events `ε`. -/
structure Calls (σ π ε : Type*) where
  /-- A call that starts at a program counter, and what this does to the state. -/
  starts : σ → π → σ → Prop
  /-- The next step of a call. -/
  code : π → σ → Option (Calls.Effect σ π ε)

/-- A state with the calls in progress. -/
structure Calls.Config (σ π : Type*) where
  /-- The shared state. -/
  state : σ
  /-- The program counters of the calls in progress. -/
  calls : Multiset π

namespace Calls

variable {σ π ε : Type*}

/-- The calls in progress after a step to `next`. -/
def resume (next : Option π) (rest : Multiset π) : Multiset π :=
  match next with
  | some p => p ::ₘ rest
  | none => rest

/-- A call that returned is not in progress. -/
@[simp, grind =] theorem resume_none (rest : Multiset π) : resume none rest = rest := rfl

/-- A call that goes on is in progress. -/
@[simp, grind =] theorem resume_some (p : π) (rest : Multiset π) : resume (some p) rest = p ::ₘ rest := rfl

variable (C : Calls σ π ε)

/-- One step: a call starts, or a call in progress takes its next step. -/
inductive Step : Config σ π → List ε → Config σ π → Prop
  /-- A call starts. -/
  | start {s s' : σ} {p : π} {rest : Multiset π} (h : C.starts s p s') :
      Step ⟨s, rest⟩ [] ⟨s', p ::ₘ rest⟩
  /-- A call takes its next step. -/
  | code {s : σ} {p : π} {e : Effect σ π ε} {rest : Multiset π} (h : C.code p s = some e) :
      Step ⟨s, p ::ₘ rest⟩ e.events ⟨e.state, resume e.next rest⟩

/-- The runs from a configuration, with their events. -/
inductive Run (c₀ : Config σ π) : List ε → Config σ π → Prop
  /-- The empty run. -/
  | nil : Run c₀ [] c₀
  /-- A run and one more step. -/
  | snoc {tr es : List ε} {c c' : Config σ π} (hrun : Run c₀ tr c) (hstep : C.Step c es c') :
      Run c₀ (tr ++ es) c'

variable {C}

/-- What holds of the empty run and is kept by every step holds of every run. -/
theorem Run.invariant {c₀ : Config σ π} {P : List ε → Config σ π → Prop} (hnil : P [] c₀)
    (hsnoc : ∀ tr c es c', P tr c → C.Step c es c' → P (tr ++ es) c') {tr : List ε}
    {c : Config σ π} (hrun : C.Run c₀ tr c) : P tr c := by
  induction hrun with
  | nil => exact hnil
  | snoc _ hstep ih => exact hsnoc _ _ _ _ ih hstep

/-- A run of one step. -/
theorem Run.single {c c' : Config σ π} {es : List ε} (h : C.Step c es c') : C.Run c es c' := by
  have hrun : C.Run c ([] ++ es) c' := Run.nil.snoc h
  rwa [List.nil_append] at hrun

/-- Runs compose. -/
theorem Run.append {c₀ c₁ c₂ : Config σ π} {tr₁ tr₂ : List ε} (h₁ : C.Run c₀ tr₁ c₁)
    (h₂ : C.Run c₁ tr₂ c₂) : C.Run c₀ (tr₁ ++ tr₂) c₂ := by
  induction h₂ with
  | nil => rwa [List.append_nil]
  | snoc _ hstep ih =>
    rw [← List.append_assoc]
    exact ih.snoc hstep

/-- An event belongs to a step of a call in progress. -/
theorem Step.exists_code {c c' : Config σ π} {es : List ε} (h : C.Step c es c') (hes : es ≠ []) :
    ∃ p e, p ∈ c.calls ∧ C.code p c.state = some e ∧ e.events = es := by
  cases h with
  | start => exact absurd rfl hes
  | @code s p e rest hcode => exact ⟨p, e, Multiset.mem_cons_self p rest, hcode, rfl⟩

/-- A run and the start of a call. -/
theorem Run.start {c₀ : Config σ π} {tr : List ε} {s s' : σ} {p : π} {rest : Multiset π}
    (hrun : C.Run c₀ tr ⟨s, rest⟩) (h : C.starts s p s') : C.Run c₀ tr ⟨s', p ::ₘ rest⟩ := by
  have hnext : C.Run c₀ (tr ++ []) ⟨s', p ::ₘ rest⟩ := hrun.snoc (.start h)
  rwa [List.append_nil] at hnext

/-- A run and a step of a call that goes on. -/
theorem Run.next {c₀ : Config σ π} {tr es : List ε} {s s' : σ} {p q : π} {rest : Multiset π}
    (hrun : C.Run c₀ tr ⟨s, p ::ₘ rest⟩) (h : C.code p s = some ⟨s', some q, es⟩) :
    C.Run c₀ (tr ++ es) ⟨s', q ::ₘ rest⟩ := hrun.snoc (.code h)

/-- A run and the last step of a call. -/
theorem Run.return {c₀ : Config σ π} {tr es : List ε} {s s' : σ} {p : π} {rest : Multiset π}
    (hrun : C.Run c₀ tr ⟨s, p ::ₘ rest⟩) (h : C.code p s = some ⟨s', none, es⟩) :
    C.Run c₀ (tr ++ es) ⟨s', rest⟩ := hrun.snoc (.code h)

/-- A run, taken apart at an event, when no step has more than one. -/
theorem Run.split (hone : ∀ p s e, C.code p s = some e → e.events.length ≤ 1)
    {c₀ c : Config σ π} {tr₁ tr₂ : List ε} {x : ε} (hrun : C.Run c₀ (tr₁ ++ x :: tr₂) c) :
    ∃ c₁ c₂, C.Run c₀ tr₁ c₁ ∧ C.Step c₁ [x] c₂ ∧ C.Run c₂ tr₂ c := by
  generalize htr : tr₁ ++ x :: tr₂ = tr at hrun
  induction hrun generalizing tr₂ with
  | nil => simp at htr
  | @snoc tr es c c' hrun hstep ih =>
    have hlen : es.length ≤ 1 := by
      cases hstep with
      | start => simp
      | code h => exact hone _ _ _ h
    rcases List.eq_nil_or_concat tr₂ with rfl | ⟨tr₂, y, rfl⟩
    · match es, hlen with
      | [], _ =>
        rw [List.append_nil] at htr
        obtain ⟨c₁, c₂, h₁, h₂, h₃⟩ := ih htr
        exact ⟨c₁, c₂, h₁, h₂, h₃.snoc hstep⟩
      | [y], _ =>
        obtain ⟨rfl, hxy⟩ := List.append_inj' htr rfl
        obtain rfl := (List.cons.inj hxy).1
        exact ⟨c, c', hrun, hstep, .nil⟩
    · match es, hlen with
      | [], _ =>
        rw [List.append_nil] at htr
        obtain ⟨c₁, c₂, h₁, h₂, h₃⟩ := ih htr
        exact ⟨c₁, c₂, h₁, h₂, by simpa using h₃.snoc hstep⟩
      | [z], _ =>
        have hlast : (tr₁ ++ x :: tr₂) ++ [y] = tr ++ [z] := by
          rw [← htr]
          simp
        obtain ⟨hinit, hyz⟩ := List.append_inj' hlast rfl
        obtain rfl := (List.cons.inj hyz).1
        obtain ⟨c₁, c₂, h₁, h₂, h₃⟩ := ih hinit
        exact ⟨c₁, c₂, h₁, h₂, by simpa using h₃.snoc hstep⟩

/-! ## Guarded runs -/

variable (C) in
/-- The runs in which every step of a call meets `G`, a condition on the state before the step, on
the call and on the others in progress. -/
inductive GuardedRun (G : σ → π → Multiset π → Prop) (c₀ : Config σ π) : List ε → Config σ π → Prop
  /-- The empty run. -/
  | nil : GuardedRun G c₀ [] c₀
  /-- A call starts. -/
  | start {tr : List ε} {s s' : σ} {p : π} {rest : Multiset π} (hrun : GuardedRun G c₀ tr ⟨s, rest⟩)
      (h : C.starts s p s') : GuardedRun G c₀ tr ⟨s', p ::ₘ rest⟩
  /-- A call takes its next step. -/
  | code {tr : List ε} {s : σ} {p : π} {e : Effect σ π ε} {rest : Multiset π}
      (hrun : GuardedRun G c₀ tr ⟨s, p ::ₘ rest⟩) (hguard : G s p rest) (h : C.code p s = some e) :
      GuardedRun G c₀ (tr ++ e.events) ⟨e.state, resume e.next rest⟩

/-- What holds at the start and is kept by every step that meets the condition holds of every guarded
run. -/
theorem GuardedRun.invariant {G : σ → π → Multiset π → Prop} {c₀ : Config σ π}
    {P : σ → Multiset π → Prop} (hnil : P c₀.state c₀.calls)
    (hstart : ∀ s s' p rest, P s rest → C.starts s p s' → P s' (p ::ₘ rest))
    (hcode : ∀ s p e rest, P s (p ::ₘ rest) → G s p rest → C.code p s = some e →
      P e.state (resume e.next rest)) {tr : List ε} {c : Config σ π}
    (hrun : C.GuardedRun G c₀ tr c) : P c.state c.calls := by
  induction hrun with
  | nil => exact hnil
  | start _ h ih => exact hstart _ _ _ _ ih h
  | code _ hguard h ih => exact hcode _ _ _ _ ih hguard h

/-! ## Totals -/

/-- The sum of `w` over the calls in progress. -/
def total (w : π → ℕ) (cs : Multiset π) : ℕ := (cs.map w).sum

/-- Nothing is in progress. -/
@[simp, grind =] theorem total_zero (w : π → ℕ) : total w 0 = 0 := rfl

/-- One call more. -/
@[simp, grind =] theorem total_cons (w : π → ℕ) (p : π) (cs : Multiset π) :
    total w (p ::ₘ cs) = w p + total w cs := by
  simp [total]

/-- A call after its step. -/
@[simp] theorem total_resume (w : π → ℕ) (next : Option π) (cs : Multiset π) :
    total w (resume next cs) = (next.map w).getD 0 + total w cs := by
  cases next <;> simp

/-- A call in progress counts in the total. -/
theorem le_total {w : π → ℕ} {p : π} {cs : Multiset π} (h : p ∈ cs) : w p ≤ total w cs := by
  obtain ⟨rest, rfl⟩ := Multiset.exists_cons_of_mem h
  simp

/-- The total is zero when no call counts. -/
theorem total_eq_zero {w : π → ℕ} {cs : Multiset π} : total w cs = 0 ↔ ∀ p ∈ cs, w p = 0 := by
  induction cs using Multiset.induction_on with
  | empty => simp
  | cons p cs ih => simp [ih]

/-- A larger number for every call gives a larger total. -/
theorem total_le_total {w w' : π → ℕ} (h : ∀ p, w p ≤ w' p) (cs : Multiset π) :
    total w cs ≤ total w' cs := by
  induction cs using Multiset.induction_on with
  | empty => simp
  | cons p cs ih =>
    simp only [total_cons]
    exact Nat.add_le_add (h p) ih

/-- A total that is not zero has a call that counts. -/
theorem exists_of_total_pos {w : π → ℕ} {cs : Multiset π} (h : 0 < total w cs) :
    ∃ p ∈ cs, 0 < w p := by
  by_contra hno
  push Not at hno
  have hzero : total w cs = 0 := total_eq_zero.mpr fun p hp => Nat.le_zero.mp (hno p hp)
  omega

/-! ## Calls that return -/

variable (C) in
/-- A call in progress takes a step. -/
def CodeStep (c c' : Config σ π) : Prop :=
  ∃ p e rest, c.calls = p ::ₘ rest ∧ C.code p c.state = some e ∧
    c' = ⟨e.state, resume e.next rest⟩

/-- When every step of a call lowers its rank, the calls in progress return, in every order of their
steps. -/
theorem wellFounded_codeStep (rank : π → ℕ)
    (hrank : ∀ p s e, C.code p s = some e → ∀ q, e.next = some q → rank q < rank p) :
    WellFounded fun c' c => C.CodeStep c c' := by
  refine Subrelation.wf (r := InvImage (· < ·) fun c => total (fun p => rank p + 1) c.calls) ?_
    (InvImage.wf _ Nat.lt_wfRel.wf)
  rintro c' c ⟨p, e, rest, hcalls, hcode, rfl⟩
  have hnext := hrank p c.state e hcode
  simp only [InvImage, hcalls, total_cons, total_resume]
  cases hq : e.next with
  | none => simp
  | some q =>
    have hlt := hnext q hq
    simp only [Option.map_some, Option.getD_some]
    omega

end Calls

end Foundation
