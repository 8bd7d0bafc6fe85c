import Mathlib.Data.List.Basic
import Mathlib.Logic.Hydra
import Mathlib.Logic.Relation
import Mathlib.Tactic.Abel

/-!
# Systems of behaviours over cowns

A *behaviour* names the cowns it needs and carries a body.  Behaviours are kept in the order in
which they were scheduled; a behaviour may run as soon as no earlier pending behaviour shares a cown
with it, so behaviours on a common cown run in the order of their scheduling and all others in any
order.  The body runs to its end on the state, may send replies and may schedule further behaviours.

The body of a behaviour that schedules a `when` with a repeated cown never ends, because the
behaviour waits for its own slot: such a step does not exist.  The same holds of a body that fails.

Nothing here depends on what the behaviours do.  `System.Run` describes any interleaving, and
`System.Settles` the runs without new requests that go on until no behaviour can run.
-/

namespace Boc

/-- What the body of a behaviour does: the state it leaves, the behaviours it schedules in this
order, and the replies it sends. -/
structure Effect (σ β ρ : Type*) where
  /-- The state after the body. -/
  state : σ
  /-- The behaviours scheduled by the body, in the order of their `when`. -/
  spawned : List β
  /-- The replies sent by the body. -/
  replies : List ρ

/-- A system of behaviours `β` over cowns `κ`, with states `σ`, requests `ι`, replies `ρ` and
failures `φ`. -/
structure System (κ σ β ι ρ φ : Type*) where
  /-- The cowns a behaviour is scheduled on. -/
  cowns : β → List κ
  /-- The body of a behaviour. -/
  body : β → σ → Except φ (Effect σ β ρ)
  /-- The handler of a request, executed by the dispatcher. -/
  handle : ι → σ → Except φ (Effect σ β ρ)

/-- A configuration: the state, the pending behaviours in scheduling order, the replies sent. -/
structure Config (σ β ρ : Type*) where
  /-- The contents of all cowns. -/
  state : σ
  /-- The behaviours that were scheduled and have not run, oldest first. -/
  pending : List β
  /-- The replies sent so far. -/
  replies : List ρ

/-- A step is the handling of a request by the dispatcher, or the run of a pending behaviour. -/
inductive Label (ι β : Type*) where
  /-- The dispatcher executes the handler of the request `i`. -/
  | request (i : ι)
  /-- A scheduler thread executes the pending behaviour `b`. -/
  | run (b : β)

namespace System

variable {κ σ β ι ρ φ : Type*} (S : System κ σ β ι ρ φ)

/-- The body of `b` runs to its end on `s` with effect `e`: it does not fail, and no `when` in it
has a repeated cown. -/
structure Runs (b : β) (s : σ) (e : Effect σ β ρ) : Prop where
  /-- The body ends without a failure. -/
  body_eq : S.body b s = .ok e
  /-- Every scheduled behaviour names pairwise distinct cowns. -/
  nodup : ∀ t ∈ e.spawned, (S.cowns t).Nodup

/-- The handler of `i` runs to its end on `s` with effect `e`. -/
structure Handles (i : ι) (s : σ) (e : Effect σ β ρ) : Prop where
  /-- The handler ends without a failure. -/
  handle_eq : S.handle i s = .ok e
  /-- Every scheduled behaviour names pairwise distinct cowns. -/
  nodup : ∀ t ∈ e.spawned, (S.cowns t).Nodup

/-- The behaviours `pre` hold no cown of `b`. -/
def FreeOf (pre : List β) (b : β) : Prop := ∀ t ∈ pre, (S.cowns t).Disjoint (S.cowns b)

/-- One step of the system. -/
inductive Step : Config σ β ρ → Label ι β → Config σ β ρ → Prop
  /-- The dispatcher handles a request at any time. -/
  | request {s : σ} {pending : List β} {rs : List ρ} {i : ι} {e : Effect σ β ρ}
      (hrun : S.Handles i s e) :
      Step ⟨s, pending, rs⟩ (.request i) ⟨e.state, pending ++ e.spawned, rs ++ e.replies⟩
  /-- A pending behaviour runs once no earlier one shares a cown with it. -/
  | run {s : σ} {pre post : List β} {rs : List ρ} {b : β} {e : Effect σ β ρ}
      (hfree : S.FreeOf pre b) (hrun : S.Runs b s e) :
      Step ⟨s, pre ++ b :: post, rs⟩ (.run b)
        ⟨e.state, pre ++ post ++ e.spawned, rs ++ e.replies⟩

/-- The finite runs from a configuration, with the labels of their steps in order. -/
inductive Run (c₀ : Config σ β ρ) : List (Label ι β) → Config σ β ρ → Prop
  /-- The empty run. -/
  | nil : Run c₀ [] c₀
  /-- A run and one more step. -/
  | snoc {tr : List (Label ι β)} {c c' : Config σ β ρ} {l : Label ι β}
      (hrun : Run c₀ tr c) (hstep : S.Step c l c') : Run c₀ (tr ++ [l]) c'

variable {S}

/-- What holds of the empty run and is kept by every step holds of every run. -/
theorem Run.invariant {c₀ : Config σ β ρ} {P : List (Label ι β) → Config σ β ρ → Prop}
    (hnil : P [] c₀)
    (hsnoc : ∀ tr c l c', P tr c → S.Step c l c' → P (tr ++ [l]) c')
    {tr : List (Label ι β)} {c : Config σ β ρ} (hrun : S.Run c₀ tr c) : P tr c := by
  induction hrun with
  | nil => exact hnil
  | snoc _ hstep ih => exact hsnoc _ _ _ _ ih hstep

/-- Runs compose. -/
theorem Run.append {c₀ c₁ c₂ : Config σ β ρ} {tr₁ tr₂ : List (Label ι β)} (h₁ : S.Run c₀ tr₁ c₁)
    (h₂ : S.Run c₁ tr₂ c₂) : S.Run c₀ (tr₁ ++ tr₂) c₂ := by
  induction h₂ with
  | nil => simpa using h₁
  | snoc _ hstep ih =>
    rw [← List.append_assoc]
    exact ih.snoc hstep

/-- The oldest pending behaviour can run whenever its body runs to its end. -/
theorem Step.head {s : σ} {b : β} {post : List β} {rs : List ρ} {e : Effect σ β ρ}
    (hrun : S.Runs b s e) :
    S.Step ⟨s, b :: post, rs⟩ (.run b) ⟨e.state, post ++ e.spawned, rs ++ e.replies⟩ := by
  have hstep : S.Step ⟨s, [] ++ b :: post, rs⟩ (.run b)
      ⟨e.state, [] ++ post ++ e.spawned, rs ++ e.replies⟩ :=
    .run (fun _ ht => absurd ht List.not_mem_nil) hrun
  exact hstep

/-! ## Runs without new requests -/

variable (S) in
/-- A step that runs some pending behaviour. -/
def RunStep (c c' : Config σ β ρ) : Prop := ∃ b, S.Step c (.run b) c'

variable (S) in
/-- `c'` is reached from `c` by running pending behaviours only, and no behaviour can run in `c'`:
the end of an execution of what is pending in `c`, with nothing interleaved. -/
def Settles (c c' : Config σ β ρ) : Prop :=
  Relation.ReflTransGen S.RunStep c c' ∧ ∀ c'', ¬ S.RunStep c' c''

/-- Nothing runs when nothing is pending. -/
theorem not_runStep_nil {s : σ} {rs : List ρ} {c' : Config σ β ρ} :
    ¬ S.RunStep ⟨s, [], rs⟩ c' := by
  rintro ⟨b, h⟩
  generalize hc : (⟨s, [], rs⟩ : Config σ β ρ) = c at h
  generalize hl : (Label.run b : Label ι β) = l at h
  cases h with
  | request => cases hl
  | run => simp at hc

/-- With a single pending behaviour the next step runs it. -/
theorem runStep_singleton {s : σ} {b : β} {rs : List ρ} {c' : Config σ β ρ} :
    S.RunStep ⟨s, [b], rs⟩ c' ↔
      ∃ e, S.Runs b s e ∧ c' = ⟨e.state, e.spawned, rs ++ e.replies⟩ := by
  constructor
  · rintro ⟨b', h⟩
    generalize hc : (⟨s, [b], rs⟩ : Config σ β ρ) = c at h
    generalize hl : (Label.run b' : Label ι β) = l at h
    cases h with
    | request => cases hl
    | @run s' pre post rs' b'' e _ hrun =>
      obtain ⟨rfl, hp, rfl⟩ := Config.mk.inj hc
      obtain ⟨rfl, rfl, rfl⟩ : pre = [] ∧ b = b'' ∧ post = [] := by
        cases pre with
        | nil => simpa using hp
        | cons a pre => simp at hp
      exact ⟨e, hrun, by simp⟩
  · rintro ⟨e, hrun, rfl⟩
    have hstep : S.Step ⟨s, [b], rs⟩ (.run b) ⟨e.state, [] ++ e.spawned, rs ++ e.replies⟩ :=
      .head hrun
    exact ⟨b, by simpa using hstep⟩

/-- With nothing pending an execution is over. -/
theorem settles_nil {s : σ} {rs : List ρ} {c' : Config σ β ρ} :
    S.Settles ⟨s, [], rs⟩ c' ↔ c' = ⟨s, [], rs⟩ := by
  constructor
  · rintro ⟨h, -⟩
    rcases h.cases_head with rfl | ⟨c₁, hstep, -⟩
    · rfl
    · exact absurd hstep not_runStep_nil
  · rintro rfl
    exact ⟨.refl, fun _ => not_runStep_nil⟩

/-- A single pending behaviour whose body runs to its end is executed next. -/
theorem settles_singleton {s : σ} {b : β} {rs : List ρ} {e : Effect σ β ρ} {c' : Config σ β ρ}
    (hrun : S.Runs b s e) :
    S.Settles ⟨s, [b], rs⟩ c' ↔ S.Settles ⟨e.state, e.spawned, rs ++ e.replies⟩ c' := by
  have hstep : S.RunStep ⟨s, [b], rs⟩ ⟨e.state, e.spawned, rs ++ e.replies⟩ :=
    runStep_singleton.mpr ⟨e, hrun, rfl⟩
  constructor
  · rintro ⟨h, hfinal⟩
    rcases h.cases_head with rfl | ⟨c₁, hstep₁, hrest⟩
    · exact absurd hstep (hfinal _)
    · obtain ⟨e', hrun', rfl⟩ := runStep_singleton.mp hstep₁
      obtain rfl : e = e' := Except.ok.inj (hrun.body_eq.symm.trans hrun'.body_eq)
      exact ⟨hrest, hfinal⟩
  · rintro ⟨h, hfinal⟩
    exact ⟨h.head hstep, hfinal⟩

/-- A single pending behaviour whose body does not run to its end stays pending for ever. -/
theorem settles_stuck {s : σ} {b : β} {rs : List ρ} {c' : Config σ β ρ}
    (hrun : ∀ e, ¬ S.Runs b s e) : S.Settles ⟨s, [b], rs⟩ c' ↔ c' = ⟨s, [b], rs⟩ := by
  have hstep : ∀ c'', ¬ S.RunStep ⟨s, [b], rs⟩ c'' := by
    intro c'' h
    obtain ⟨e, he, -⟩ := runStep_singleton.mp h
    exact hrun e he
  constructor
  · rintro ⟨h, -⟩
    rcases h.cases_head with rfl | ⟨c₁, hstep₁, -⟩
    · rfl
    · exact absurd hstep₁ (hstep _)
  · rintro rfl
    exact ⟨.refl, hstep⟩

/-- A single pending behaviour is executed or stays pending for ever. -/
theorem Settles.singleton_cases {s : σ} {b : β} {rs : List ρ} {c' : Config σ β ρ}
    (h : S.Settles ⟨s, [b], rs⟩ c') :
    (c' = ⟨s, [b], rs⟩ ∧ ∀ e, ¬ S.Runs b s e) ∨
      ∃ e, S.Runs b s e ∧ S.Settles ⟨e.state, e.spawned, rs ++ e.replies⟩ c' := by
  by_cases hrun : ∃ e, S.Runs b s e
  · obtain ⟨e, he⟩ := hrun
    exact .inr ⟨e, he, (settles_singleton he).mp h⟩
  · simp only [not_exists] at hrun
    exact .inl ⟨(settles_stuck hrun).mp h, hrun⟩

/-- What every step of a pending behaviour keeps holds at the end of an execution. -/
theorem Settles.invariant {P : Config σ β ρ → Prop} {c c' : Config σ β ρ} (h : S.Settles c c')
    (hstep : ∀ c c', P c → S.RunStep c c' → P c') (h0 : P c) : P c' := by
  obtain ⟨hrun, -⟩ := h
  induction hrun with
  | refl => exact h0
  | tail _ hlast ih => exact hstep _ _ ih hlast

/-- At the end of an execution the oldest pending behaviour, if there is one, cannot run. -/
theorem Settles.head_stuck {c c' : Config σ β ρ} (h : S.Settles c c') {b : β} {post : List β}
    (hp : c'.pending = b :: post) (e : Effect σ β ρ) : ¬ S.Runs b c'.state e := by
  intro hrun
  obtain ⟨s, pending, rs⟩ := c'
  obtain rfl : pending = b :: post := hp
  exact h.2 _ ⟨b, Step.head hrun⟩

/-- An execution of what is pending is a run. -/
theorem Settles.exists_run {c c' : Config σ β ρ} (h : S.Settles c c') :
    ∃ tr, S.Run c tr c' ∧ ∀ l ∈ tr, ∃ b, l = .run b := by
  obtain ⟨hrun, -⟩ := h
  induction hrun with
  | refl => exact ⟨[], .nil, by simp⟩
  | tail _ hlast ih =>
    obtain ⟨tr, htr, hall⟩ := ih
    obtain ⟨b, hb⟩ := hlast
    refine ⟨tr ++ [.run b], htr.snoc hb, fun l hl => ?_⟩
    rcases List.mem_append.mp hl with hl | hl
    · exact hall l hl
    · exact ⟨b, List.mem_singleton.mp hl⟩

/-- `c'` is the end of the execution of the request `i` alone, from the state `s` with nothing
pending: its handler and every behaviour that comes from it have run as far as they can. -/
inductive Serves (S : System κ σ β ι ρ φ) (s : σ) (i : ι) : Config σ β ρ → Prop
  /-- The handler runs to its end and what it scheduled is executed. -/
  | run {e : Effect σ β ρ} {c' : Config σ β ρ} (hrun : S.Handles i s e)
      (hend : S.Settles ⟨e.state, e.spawned, e.replies⟩ c') : Serves S s i c'
  /-- The handler does not run to its end. -/
  | fail (hfail : ∀ e, ¬ S.Handles i s e) : Serves S s i ⟨s, [], []⟩

/-- The execution of a request whose handler runs to its end. -/
theorem serves_iff {s : σ} {i : ι} {e : Effect σ β ρ} (hrun : S.Handles i s e)
    {c' : Config σ β ρ} :
    S.Serves s i c' ↔ S.Settles ⟨e.state, e.spawned, e.replies⟩ c' := by
  constructor
  · rintro (⟨hrun', hend⟩ | hfail)
    · obtain rfl : e = _ := Except.ok.inj (hrun.handle_eq.symm.trans hrun'.handle_eq)
      exact hend
    · exact absurd hrun (hfail e)
  · exact fun hend => .run hrun hend

/-- The execution of a request whose handler does not run to its end. -/
theorem serves_fail {s : σ} {i : ι} (hfail : ∀ e, ¬ S.Handles i s e) {c' : Config σ β ρ} :
    S.Serves s i c' ↔ c' = ⟨s, [], []⟩ := by
  constructor
  · rintro (⟨hrun, -⟩ | -)
    · exact absurd hrun (hfail _)
    · rfl
  · rintro rfl
    exact .fail hfail

/-- The execution of a request whose handler only schedules `b`. -/
theorem Serves.scheduled_cases {s : σ} {i : ι} {b : β} {c' : Config σ β ρ}
    (h : S.Serves s i c') (hhandle : S.handle i s = .ok ⟨s, [b], []⟩) (hb : (S.cowns b).Nodup) :
    (c' = ⟨s, [b], []⟩ ∧ ∀ e, ¬ S.Runs b s e) ∨
      ∃ e, S.Runs b s e ∧ S.Settles ⟨e.state, e.spawned, e.replies⟩ c' := by
  have hrun : S.Handles i s ⟨s, [b], []⟩ := ⟨hhandle, by simpa using hb⟩
  rw [serves_iff hrun] at h
  simpa using h.singleton_cases

/-- The execution of a request that the handler answers itself. -/
theorem Serves.answered {s : σ} {i : ι} {rs : List ρ} {c' : Config σ β ρ}
    (h : S.Serves s i c') (hhandle : S.handle i s = .ok ⟨s, [], rs⟩) : c' = ⟨s, [], rs⟩ := by
  have hrun : S.Handles i s ⟨s, [], rs⟩ := ⟨hhandle, by simp⟩
  rw [serves_iff hrun] at h
  exact settles_nil.mp h

/-- The execution of a request whose handler fails. -/
theorem Serves.failed {s : σ} {i : ι} {c' : Config σ β ρ} {x : φ}
    (h : S.Serves s i c') (hhandle : S.handle i s = .error x) : c' = ⟨s, [], []⟩ := by
  refine (serves_fail fun e he => ?_).mp h
  rw [he.handle_eq] at hhandle
  cases hhandle

/-- The requests of a history are served one at a time from the state `s₀`, each in a state that
meets `ok` with it, and each to the end of its execution with nothing left pending.  A history lists
the requests with their replies. -/
inductive Serial (S : System κ σ β ι ρ φ) (ok : σ → ι → Prop) (s₀ : σ) :
    List (ι × List ρ) → σ → Prop
  /-- Nothing was requested. -/
  | nil : Serial S ok s₀ [] s₀
  /-- One more request is served. -/
  | snoc {h : List (ι × List ρ)} {s s' : σ} {i : ι} {rs : List ρ} (hserial : Serial S ok s₀ h s)
      (hok : ok s i) (hserve : S.Serves s i ⟨s', [], rs⟩) : Serial S ok s₀ (h ++ [(i, rs)]) s'

/-- What holds at the start and is kept by every request holds after every history. -/
theorem Serial.invariant {ok : σ → ι → Prop} {s₀ : σ} {P : List (ι × List ρ) → σ → Prop}
    (hnil : P [] s₀)
    (hsnoc : ∀ h s i s' rs, P h s → ok s i → S.Serves s i ⟨s', [], rs⟩ → P (h ++ [(i, rs)]) s')
    {h : List (ι × List ρ)} {s : σ} (hserial : S.Serial ok s₀ h s) : P h s := by
  induction hserial with
  | nil => exact hnil
  | snoc _ hok hserve ih => exact hsnoc _ _ _ _ _ ih hok hserve

/-! ## The behaviours an execution schedules -/

variable (S) in
/-- In the execution of what is pending in `c` a body schedules the behaviour `t`, whether or not it
can be scheduled. -/
def Issues (c : Config σ β ρ) (t : β) : Prop :=
  ∃ c' pre b post e, Relation.ReflTransGen S.RunStep c c' ∧ c'.pending = pre ++ b :: post ∧
    S.FreeOf pre b ∧ S.body b c'.state = .ok e ∧ t ∈ e.spawned

variable (S) in
/-- In the execution of the request `i` alone its handler or a body schedules the behaviour `t`,
whether or not it can be scheduled. -/
def IssuesAlone (s : σ) (i : ι) (t : β) : Prop :=
  ∃ e, S.handle i s = .ok e ∧ (t ∈ e.spawned ∨
    S.Handles i s e ∧ S.Issues ⟨e.state, e.spawned, e.replies⟩ t)

/-- Nothing is scheduled when nothing is pending. -/
theorem not_issues_nil {s : σ} {rs : List ρ} {t : β} : ¬ S.Issues ⟨s, [], rs⟩ t := by
  rintro ⟨c', pre, b, post, e, hrun, hpending, -⟩
  rcases hrun.cases_head with rfl | ⟨c₁, hstep, -⟩
  · simp at hpending
  · exact not_runStep_nil hstep

/-- What a single pending behaviour schedules. -/
theorem issues_singleton {s : σ} {b : β} {rs : List ρ} {t : β} :
    S.Issues ⟨s, [b], rs⟩ t ↔ ∃ e, S.body b s = .ok e ∧ (t ∈ e.spawned ∨
      S.Runs b s e ∧ S.Issues ⟨e.state, e.spawned, rs ++ e.replies⟩ t) := by
  constructor
  · rintro ⟨c', pre, b', post, e, hrun, hpending, hfree, hbody, ht⟩
    rcases hrun.cases_head with rfl | ⟨c₁, hstep, hrest⟩
    · obtain ⟨rfl, rfl, rfl⟩ : pre = [] ∧ b = b' ∧ post = [] := by
        cases pre with
        | nil => simpa using hpending
        | cons a pre => simp at hpending
      exact ⟨e, hbody, .inl ht⟩
    · obtain ⟨e₁, he₁, rfl⟩ := runStep_singleton.mp hstep
      exact ⟨e₁, he₁.body_eq, .inr ⟨he₁, c', pre, b', post, e, hrest, hpending, hfree, hbody, ht⟩⟩
  · rintro ⟨e, hbody, ht | ⟨hrun, c', pre, b', post, e', hrest, hpending, hfree, hbody', ht⟩⟩
    · exact ⟨_, [], b, [], e, .refl, rfl, by simp [FreeOf], hbody, ht⟩
    · exact ⟨c', pre, b', post, e', hrest.head (runStep_singleton.mpr ⟨e, hrun, rfl⟩), hpending,
        hfree, hbody', ht⟩

/-- What holds of the pending behaviours, and whose bodies only schedule behaviours of which it
holds, holds of everything that is scheduled. -/
theorem Issues.invariant {P : β → Prop} {c : Config σ β ρ} {t : β} (h : S.Issues c t)
    (hbody : ∀ b s e, P b → S.body b s = .ok e → ∀ t ∈ e.spawned, P t)
    (h0 : ∀ b ∈ c.pending, P b) : P t := by
  obtain ⟨c', pre, b, post, e, hrun, hpending, -, hb, ht⟩ := h
  have hall : ∀ b ∈ c'.pending, P b := by
    clear hpending hb
    induction hrun with
    | refl => exact h0
    | @tail c₁ c₂ _ hstep ih =>
      obtain ⟨b₁, hstep⟩ := hstep
      generalize hl : (Label.run b₁ : Label ι β) = l at hstep
      cases hstep with
      | request => cases hl
      | @run s pre post rs b₂ e hfree hrun =>
        intro b hb
        simp only [List.mem_append] at hb
        rcases hb with (hb | hb) | hb
        · exact ih b (by simp [hb])
        · exact ih b (by simp [hb])
        · exact hbody _ _ _ (ih b₂ (by simp)) hrun.body_eq b hb
  exact hbody b _ e (hall b (by rw [hpending]; simp)) hb t ht

/-! ## Termination -/

/-- When behaviours only schedule behaviours of a smaller rank, every execution of what is pending
ends: a step replaces one pending rank by finitely many smaller ones. -/
theorem wellFounded_runStep (rank : β → ℕ)
    (hrank : ∀ b s e, S.body b s = .ok e → ∀ t ∈ e.spawned, rank t < rank b) :
    WellFounded fun c' c => S.RunStep c c' := by
  let ranks : Config σ β ρ → Multiset ℕ := fun c => ↑(c.pending.map rank)
  refine Subrelation.wf (r := InvImage (Relation.CutExpand (· < ·)) ranks) ?_
    (InvImage.wf ranks (wellFounded_lt (α := ℕ)).cutExpand)
  rintro c' c ⟨b, hstep⟩
  generalize hl : (Label.run b : Label ι β) = l at hstep
  cases hstep with
  | request => cases hl
  | @run s pre post rs b e _ hrun =>
    refine ⟨↑(e.spawned.map rank), rank b, ?_, ?_⟩
    · intro n hn
      obtain ⟨t, ht, rfl⟩ := List.mem_map.mp (Multiset.mem_coe.mp hn)
      exact hrank b s e hrun.body_eq t ht
    · simp only [ranks, List.map_append, List.map_cons, ← Multiset.coe_add, ← Multiset.cons_coe,
        ← Multiset.singleton_add]
      abel

/-- Under the same condition every configuration has an end of its execution. -/
theorem exists_settles (rank : β → ℕ)
    (hrank : ∀ b s e, S.body b s = .ok e → ∀ t ∈ e.spawned, rank t < rank b)
    (c : Config σ β ρ) : ∃ c', S.Settles c c' := by
  induction c using (wellFounded_runStep rank hrank).induction with
  | _ c ih =>
    by_cases hnext : ∃ c₁, S.RunStep c c₁
    · obtain ⟨c₁, hstep⟩ := hnext
      obtain ⟨c', hrun, hfinal⟩ := ih c₁ hstep
      exact ⟨c', hrun.head hstep, hfinal⟩
    · exact ⟨c, .refl, fun c₁ h => hnext ⟨c₁, h⟩⟩

/-- Under the same condition the execution of a request alone ends. -/
theorem exists_serves (rank : β → ℕ)
    (hrank : ∀ b s e, S.body b s = .ok e → ∀ t ∈ e.spawned, rank t < rank b) (s : σ) (i : ι) :
    ∃ c', S.Serves s i c' := by
  by_cases h : ∃ e, S.Handles i s e
  · obtain ⟨e, he⟩ := h
    obtain ⟨c', hc'⟩ := exists_settles rank hrank ⟨e.state, e.spawned, e.replies⟩
    exact ⟨c', .run he hc'⟩
  · exact ⟨_, .fail fun e he => h ⟨e, he⟩⟩

end System

end Boc
