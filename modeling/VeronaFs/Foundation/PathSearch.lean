import Mathlib.Algebra.Order.Ring.Nat
import Mathlib.Data.List.Count
import VeronaFs.Foundation.Trace

/-!
# Path-based search for strongly connected components

A search follows the references of a graph depth first from some starts.  The components that are not
finished lie on the path: each has its vertices and, for those whose references are still followed,
a frame with the references that are left.  A reference back into a component on the path unites all
components above it.  A component whose last frame has no reference left is finished.

`Inv` is the invariant of the search, and `Step.inv` its step lemma.  When the search has come to its
end, the finished components are the strongly connected components of what the starts reach
(`Inv.mem_done_iff`, `Inv.same_iff`), and the references that the search took into a component are those
from outside (`Inv.countP_taken`).
-/

set_option linter.unusedSectionVars false

namespace Foundation.PathSearch

variable {α : Type*}

/-- A component on the path. -/
structure Segment (α : Type*) where
  /-- The vertices whose references are followed, the deepest first, with the references left. -/
  frames : List (α × List α)
  /-- Its vertices. -/
  members : List α

/-- A state of the search. -/
structure State (α : Type*) where
  /-- The components on the path, the deepest first. -/
  parts : List (Segment α)
  /-- The starts that are left. -/
  todo : List α
  /-- The finished components, the last first. -/
  done : List (List α)
  /-- The references that were followed, with their sources. -/
  taken : List (Option α × α)

/-- The vertices of the components on the path. -/
def State.levels (s : State α) : List (List α) := s.parts.map Segment.members

/-- The frames of the components on the path. -/
def State.frames (s : State α) : List (α × List α) := s.parts.flatMap Segment.frames

/-- The vertices that were found. -/
def State.visited (s : State α) : List α := s.levels.flatten ++ s.done.flatten

/-- Several components of the path as one. -/
def Segment.merge (upper : List (Segment α)) (P : Segment α) : Segment α where
  frames := upper.flatMap Segment.frames ++ P.frames
  members := upper.flatMap Segment.members ++ P.members

/-- The next reference is that to `y`: the state behind it. -/
inductive Next : State α → Option α → α → State α → Prop
  /-- A reference of the deepest vertex. -/
  | frame {x y : α} {l : List α} {frames : List (α × List α)} {members : List α}
      {parts : List (Segment α)} {todo : List α} {done : List (List α)} {taken : List (Option α × α)} :
      Next ⟨⟨(x, y :: l) :: frames, members⟩ :: parts, todo, done, taken⟩ (some x) y
        ⟨⟨(x, l) :: frames, members⟩ :: parts, todo, done, (some x, y) :: taken⟩
  /-- A start. -/
  | start {y : α} {todo : List α} {done : List (List α)} {taken : List (Option α × α)} :
      Next ⟨[], y :: todo, done, taken⟩ none y ⟨[], todo, done, (none, y) :: taken⟩

/-- A step of the search in the graph of the vertices that are `inner`. -/
inductive Step (inner : α → Prop) (fields : α → List α) : State α → State α → Prop
  /-- A vertex that is found. -/
  | visit {s s' : State α} {src : Option α} {y : α} (hnext : Next s src y s') (hy : inner y)
      (hnew : y ∉ s.visited) :
      Step inner fields s { s' with parts := ⟨[(y, fields y)], [y]⟩ :: s'.parts }
  /-- A reference back into the path. -/
  | back {s s' : State α} {src : Option α} {y : α} {upper lower : List (Segment α)} {P : Segment α}
      (hnext : Next s src y s') (hparts : s'.parts = upper ++ P :: lower) (hy : y ∈ P.members) :
      Step inner fields s { s' with parts := Segment.merge upper P :: lower }
  /-- A reference to a finished component. -/
  | finished {s s' : State α} {src : Option α} {y : α} (hnext : Next s src y s')
      (hy : y ∈ s.done.flatten) : Step inner fields s s'
  /-- A reference out of the graph. -/
  | outer {s s' : State α} {src : Option α} {y : α} (hnext : Next s src y s') (hy : ¬ inner y) :
      Step inner fields s s'
  /-- All references of a vertex were followed, but its component goes on below. -/
  | leave {x : α} {f : α × List α} {frames : List (α × List α)} {members : List α}
      {parts : List (Segment α)} {todo : List α} {done : List (List α)} {taken : List (Option α × α)} :
      Step inner fields ⟨⟨(x, []) :: f :: frames, members⟩ :: parts, todo, done, taken⟩
        ⟨⟨f :: frames, members⟩ :: parts, todo, done, taken⟩
  /-- A component is finished. -/
  | close {x : α} {members : List α} {parts : List (Segment α)} {todo : List α} {done : List (List α)}
      {taken : List (Option α × α)} :
      Step inner fields ⟨⟨[(x, [])], members⟩ :: parts, todo, done, taken⟩
        ⟨parts, todo, members :: done, taken⟩

/-- The references from a source that are left. -/
def State.left [DecidableEq α] (s : State α) : Option α → List α
  | none => s.todo
  | some x => (s.frames.filter fun f => f.1 = x).flatMap Prod.snd

/-- A reference enters a set of vertices. -/
def Enters (C : List α) (e : Option α × α) : Prop := e.2 ∈ C ∧ ∀ x, e.1 = some x → x ∉ C

/-- `Enters` is decidable. -/
instance [DecidableEq α] (C : List α) : DecidablePred (Enters C) := fun e =>
  inferInstanceAs (Decidable (e.2 ∈ C ∧ ∀ x ∈ e.1, x ∉ C))

/-- A reference inside the graph. -/
def Inside (inner : α → Prop) (fields : α → List α) (x y : α) : Prop := y ∈ fields x ∧ inner y

/-- Following references inside the graph leads from one vertex to the other. -/
abbrev Connects (inner : α → Prop) (fields : α → List α) : α → α → Prop :=
  Relation.ReflTransGen (Inside inner fields)

/-- The vertices of a list reach each other. -/
def Strong (inner : α → Prop) (fields : α → List α) (C : List α) : Prop :=
  ∀ x ∈ C, ∀ y ∈ C, Connects inner fields x y

/-- The invariant of a search from `starts`. -/
structure Inv [DecidableEq α] (inner : α → Prop) (fields : α → List α) (starts : List α)
    (s : State α) : Prop where
  /-- No vertex is found twice. -/
  nodup : s.visited.Nodup
  /-- A component on the path has a frame. -/
  frames_ne : ∀ P ∈ s.parts, P.frames ≠ []
  /-- The frames of a component are those of some of its vertices. -/
  frames_sublist : ∀ P ∈ s.parts, (P.frames.map Prod.fst).Sublist P.members
  /-- What is found is of the graph. -/
  inner_of_mem : ∀ x ∈ s.visited, inner x
  /-- What is found is reached. -/
  reached : ∀ x ∈ s.visited, ∃ y ∈ starts, inner y ∧ Connects inner fields y x
  /-- The starts are followed or left. -/
  count_start : ∀ y, s.taken.count (none, y) + s.todo.count y = starts.count y
  /-- The references of a vertex that is found are followed or left. -/
  count_mem : ∀ x ∈ s.visited, ∀ y,
    s.taken.count (some x, y) + (s.left (some x)).count y = (fields x).count y
  /-- References are followed from vertices that are found. -/
  source_mem : ∀ x y, (some x, y) ∈ s.taken → x ∈ s.visited
  /-- References are followed to vertices that are found then. -/
  target_mem : ∀ e ∈ s.taken, inner e.2 → e.2 ∈ s.visited
  /-- The references of a finished component lead to it or to one finished before. -/
  closed : ∀ C older, C :: older <:+ s.done → ∀ x ∈ C, ∀ y ∈ fields x, inner y →
    y ∈ C ∨ y ∈ older.flatten
  /-- The references on the path that were followed do not lead down. -/
  upward : ∀ upper C lower, s.levels = upper ++ C :: lower → ∀ x ∈ C, ∀ y, (some x, y) ∈ s.taken →
    inner y → y ∈ upper.flatten ∨ y ∈ C ∨ y ∈ s.done.flatten
  /-- One reference was followed into each component on the path, from the one below. -/
  entered : ∀ upper C lower, s.levels = upper ++ C :: lower → ∃ src y,
    s.taken.filter (fun e => Enters C e) = [(src, y)] ∧
      (src = none ∧ lower = [] ∨ ∃ x D rest, src = some x ∧ lower = D :: rest ∧ x ∈ D)
  /-- The components on the path are strongly connected. -/
  strong : ∀ C ∈ s.levels, Strong inner fields C
  /-- So are the finished ones. -/
  strong_done : ∀ C ∈ s.done, Strong inner fields C

/-! ## Paths -/

section Paths

variable {inner outer : α → Prop} {fields : α → List α} {x y : α}

/-- In a larger graph there are more paths. -/
theorem connects_mono (h : ∀ z, inner z → outer z) (hxy : Connects inner fields x y) :
    Connects outer fields x y :=
  hxy.lift id fun _ v huv => ⟨huv.1, h v huv.2⟩

/-- Vertices of a component reach each other inside of it if it has all vertices between them. -/
theorem Strong.inside {C : List α} (hC : Strong inner fields C)
    (hall : ∀ x ∈ C, ∀ z, Connects inner fields x z → Connects inner fields z x → z ∈ C) :
    Strong (· ∈ C) fields C := by
  intro x hx y hy
  have hpath := hC x hx y hy
  have hback := hC y hy x hx
  clear hy
  induction hpath with
  | refl => exact .refl
  | @tail u v hxu huv ih =>
    exact (ih (hback.head huv)).tail ⟨huv.1, hall x hx v (hxu.tail huv) hback⟩

/-- A path into a part of the graph enters it. -/
theorem exists_entering {C : List α} (hxy : Connects inner fields x y) (hx : x ∉ C) (hy : y ∈ C) :
    ∃ u v, Connects inner fields x u ∧ u ∉ C ∧ v ∈ fields u ∧ v ∈ C := by
  induction hxy with
  | refl => exact absurd hy hx
  | @tail u v hxu huv ih =>
    by_cases hu : u ∈ C
    · exact ih hu
    · exact ⟨u, v, hxu, hu, huv.1, hy⟩

variable {rank : α → ℕ}

/-- If no reference leads up, no path does. -/
theorem rank_le_of_connects (hrank : ∀ u v, inner u → Inside inner fields u v → rank v ≤ rank u)
    (hx : inner x) (hxy : Connects inner fields x y) : inner y ∧ rank y ≤ rank x := by
  induction hxy with
  | refl => exact ⟨hx, le_rfl⟩
  | tail _ huv ih => exact ⟨huv.2, (hrank _ _ ih.1 huv).trans ih.2⟩

/-- If no reference leads up, vertices that reach each other have the same rank, and reach each other
by vertices of this rank. -/
theorem connects_of_rank (hrank : ∀ u v, inner u → Inside inner fields u v → rank v ≤ rank u)
    (hx : inner x) (hxy : Connects inner fields x y) (hyx : Connects inner fields y x) :
    rank y = rank x ∧ Connects (fun z => inner z ∧ rank z = rank x) fields x y := by
  induction hxy with
  | refl => exact ⟨rfl, .refl⟩
  | @tail u v hxu huv ih =>
    obtain ⟨hu, hpath⟩ := ih (hyx.head huv)
    have hinner := (rank_le_of_connects hrank hx hxu).1
    have hle : rank v ≤ rank u := hrank u v hinner huv
    have hge : rank x ≤ rank v := (rank_le_of_connects hrank huv.2 hyx).2
    have hv : rank v = rank x := by omega
    exact ⟨hv, hpath.tail ⟨huv.1, huv.2, hv⟩⟩

end Paths

/-! ## The next reference -/

section

variable [DecidableEq α] {inner : α → Prop} {fields : α → List α} {starts : List α} {s s' : State α}
  {src : Option α} {x y z : α}

namespace Next

/-- The components on the path are the same. -/
theorem levels_eq (h : Next s src y s') : s'.levels = s.levels := by
  cases h with
  | frame => rfl
  | start => rfl

/-- The finished components are the same. -/
theorem done_eq (h : Next s src y s') : s'.done = s.done := by
  cases h with
  | frame => rfl
  | start => rfl

/-- What is found is the same. -/
theorem visited_eq (h : Next s src y s') : s'.visited = s.visited := by
  rw [State.visited, h.levels_eq, h.done_eq, State.visited]

/-- The reference is followed. -/
theorem taken_eq (h : Next s src y s') : s'.taken = (src, y) :: s.taken := by
  cases h with
  | frame => rfl
  | start => rfl

/-- A start that is followed is not left. -/
theorem count_todo (h : Next s src y s') (z : α) :
    s'.taken.count (none, z) + s'.todo.count z = s.taken.count (none, z) + s.todo.count z := by
  cases h with
  | frame => simp
  | start =>
    rw [List.count_cons, List.count_cons]
    simp only [beq_iff_eq, Prod.mk.injEq, true_and]
    omega

/-- A reference that is followed is not left. -/
theorem count_left (h : Next s src y s') (x z : α) :
    s'.taken.count (some x, z) + (s'.left (some x)).count z =
      s.taken.count (some x, z) + (s.left (some x)).count z := by
  cases h with
  | start => simp [State.left, State.frames]
  | @frame u y l frames members parts =>
    by_cases hux : u = x
    · subst hux
      simp only [State.left, State.frames, List.flatMap_cons, List.cons_append, List.filter_cons,
        decide_true, if_true, List.count_append, List.count_cons, beq_iff_eq, Prod.mk.injEq, true_and]
      omega
    · simp [State.left, State.frames, hux]

/-- The frames stay those of vertices of their components. -/
theorem frames (h : Next s src y s') (hi : Inv inner fields starts s) :
    ∀ P ∈ s'.parts, P.frames ≠ [] ∧ (P.frames.map Prod.fst).Sublist P.members := by
  intro P hP
  cases h with
  | start => cases hP
  | @frame x y l frames members =>
    rcases List.mem_cons.mp hP with rfl | hP
    · exact ⟨by simp, hi.frames_sublist ⟨(x, y :: l) :: frames, members⟩ List.mem_cons_self⟩
    · have hP' := List.mem_cons_of_mem (⟨(x, y :: l) :: frames, members⟩ : Segment α) hP
      exact ⟨hi.frames_ne P hP', hi.frames_sublist P hP'⟩

/-- A reference that is followed was left. -/
theorem mem_left (h : Next s src y s') : y ∈ s.left src := by
  cases h with
  | start => exact List.mem_cons_self
  | frame => simp [State.left, State.frames]

/-- The source of a reference is of the uppermost component, or there is none. -/
theorem source (h : Next s src y s') (hi : Inv inner fields starts s) :
    src = none ∧ s.levels = [] ∨ ∃ x C lower, src = some x ∧ s.levels = C :: lower ∧ x ∈ C := by
  cases h with
  | start => exact .inl ⟨rfl, rfl⟩
  | @frame x y l frames members parts =>
    refine .inr ⟨x, members, parts.map Segment.members, rfl, rfl, ?_⟩
    exact (hi.frames_sublist _ List.mem_cons_self).subset (by simp)

/-- The source of a reference was found. -/
theorem source_visited (h : Next s (some x) y s') (hi : Inv inner fields starts s) :
    x ∈ s.visited := by
  obtain ⟨hnone, -⟩ | ⟨u, C, lower, hu, hlevels, hmem⟩ := h.source hi
  · cases hnone
  · obtain rfl := Option.some.inj hu
    rw [State.visited, hlevels]
    simp [hmem]

/-- The target of a reference is a start or it is among the references of its source. -/
theorem mem_fields (h : Next s src y s') (hi : Inv inner fields starts s) :
    match src with
    | none => y ∈ starts
    | some x => y ∈ fields x := by
  have hleft := h.mem_left
  cases src with
  | none =>
    have hcount := hi.count_start y
    have hpos : 0 < s.todo.count y := List.count_pos_iff.mpr hleft
    exact List.count_pos_iff.mp (by omega)
  | some x =>
    have hcount := hi.count_mem x (h.source_visited hi) y
    have hpos : 0 < (s.left (some x)).count y := List.count_pos_iff.mpr hleft
    exact List.count_pos_iff.mp (by omega)

end Next

/-! ## Steps -/

/-- A part of a list with a first element. -/
theorem cons_eq_append {C D : List α} {levels upper lower : List (List α)}
    (h : C :: levels = upper ++ D :: lower) :
    upper = [] ∧ D = C ∧ lower = levels ∨ ∃ upper', upper = C :: upper' ∧
      levels = upper' ++ D :: lower := by
  cases upper with
  | nil =>
    obtain ⟨rfl, rfl⟩ := List.cons.inj h
    exact .inl ⟨rfl, rfl, rfl⟩
  | cons E upper' =>
    obtain ⟨rfl, rfl⟩ := List.cons.inj h
    exact .inr ⟨upper', rfl, rfl⟩

/-- A reference to a finished component or out of the graph. -/
theorem Next.inv (h : Next s src y s') (hi : Inv inner fields starts s)
    (hlevels : y ∉ s.levels.flatten) (hy : inner y → y ∈ s.done.flatten) :
    Inv inner fields starts s' where
  nodup := by
    rw [h.visited_eq]
    exact hi.nodup
  frames_ne P hP := (h.frames hi P hP).1
  frames_sublist P hP := (h.frames hi P hP).2
  inner_of_mem x hx := hi.inner_of_mem x (h.visited_eq ▸ hx)
  reached x hx := hi.reached x (h.visited_eq ▸ hx)
  count_start z := by rw [h.count_todo, hi.count_start]
  count_mem x hx z := by rw [h.count_left, hi.count_mem x (h.visited_eq ▸ hx)]
  source_mem x z hz := by
    rw [h.taken_eq, List.mem_cons] at hz
    rw [h.visited_eq]
    rcases hz with hz | hz
    · obtain ⟨rfl, rfl⟩ := Prod.mk.inj hz
      exact h.source_visited hi
    · exact hi.source_mem x z hz
  target_mem e he hinner := by
    rw [h.taken_eq, List.mem_cons] at he
    rw [h.visited_eq]
    rcases he with rfl | he
    · exact List.mem_append_right _ (hy hinner)
    · exact hi.target_mem e he hinner
  closed C older hC := hi.closed C older (h.done_eq ▸ hC)
  upward upper C lower hC x hx z hz hinner := by
    rw [h.levels_eq] at hC
    rw [h.taken_eq, List.mem_cons] at hz
    rw [h.done_eq]
    rcases hz with hz | hz
    · obtain ⟨-, rfl⟩ := Prod.mk.inj hz
      exact .inr (.inr (hy hinner))
    · exact hi.upward upper C lower hC x hx z hz hinner
  entered upper C lower hC := by
    rw [h.levels_eq] at hC
    have hnot : ¬ Enters C (src, y) := by
      intro henters
      refine hlevels ?_
      rw [hC]
      simp [henters.1]
    rw [h.taken_eq, List.filter_cons_of_neg (by simpa using hnot)]
    exact hi.entered upper C lower hC
  strong C hC := hi.strong C (h.levels_eq ▸ hC)
  strong_done C hC := hi.strong_done C (h.done_eq ▸ hC)

/-- A vertex that is found is a component of its own. -/
theorem inv_visit (h : Next s src y s') (hi : Inv inner fields starts s) (hy : inner y)
    (hnew : y ∉ s.visited) :
    Inv inner fields starts { s' with parts := ⟨[(y, fields y)], [y]⟩ :: s'.parts } := by
  have hlevels : ({ s' with parts := ⟨[(y, fields y)], [y]⟩ :: s'.parts } : State α).levels =
      [y] :: s.levels := by rw [← h.levels_eq]; rfl
  have hvisited : ({ s' with parts := ⟨[(y, fields y)], [y]⟩ :: s'.parts } : State α).visited =
      y :: s.visited := by
    rw [State.visited, hlevels, State.visited, ← h.done_eq]
    rfl
  have hfresh : ∀ src' : Option α, (src', y) ∉ s.taken := fun src' hmem =>
    hnew (hi.target_mem _ hmem hy)
  have hsource : ∀ z, (some y, z) ∉ s.taken := fun z hmem => hnew (hi.source_mem y z hmem)
  have hsrc : src ≠ some y := by
    rintro rfl
    exact hnew (h.source_visited hi)
  have hleft : ∀ x, ({ s' with parts := ⟨[(y, fields y)], [y]⟩ :: s'.parts } : State α).left (some x) =
      (if y = x then fields y else []) ++ s'.left (some x) := by
    intro x
    by_cases hyx : y = x
    · simp [State.left, State.frames, hyx]
    · simp [State.left, State.frames, hyx]
  have hleft_new : s'.left (some y) = [] := by
    refine List.flatMap_eq_nil_iff.mpr fun f hf => ?_
    obtain ⟨hf, hfy⟩ := List.mem_filter.mp hf
    obtain ⟨P, hP, hfP⟩ := List.mem_flatMap.mp hf
    have hmem : f.1 ∈ P.members := (h.frames hi P hP).2.subset (List.mem_map_of_mem hfP)
    rw [of_decide_eq_true hfy] at hmem
    refine absurd ?_ hnew
    rw [← h.visited_eq]
    exact List.mem_append_left _ (List.mem_flatten.mpr ⟨_, List.mem_map_of_mem hP, hmem⟩)
  refine
    { nodup := ?_, frames_ne := ?_, frames_sublist := ?_, inner_of_mem := ?_, reached := ?_,
      count_start := ?_, count_mem := ?_, source_mem := ?_, target_mem := ?_, closed := ?_,
      upward := ?_, entered := ?_, strong := ?_, strong_done := ?_ }
  · rw [hvisited]
    exact List.nodup_cons.mpr ⟨hnew, hi.nodup⟩
  · intro P hP
    rcases List.mem_cons.mp hP with rfl | hP
    · simp
    · exact (h.frames hi P hP).1
  · intro P hP
    rcases List.mem_cons.mp hP with rfl | hP
    · simp
    · exact (h.frames hi P hP).2
  · intro x hx
    rw [hvisited, List.mem_cons] at hx
    rcases hx with rfl | hx
    · exact hy
    · exact hi.inner_of_mem x hx
  · intro x hx
    rw [hvisited, List.mem_cons] at hx
    rcases hx with rfl | hx
    · have hmem := h.mem_fields hi
      cases src with
      | none => exact ⟨x, hmem, hy, .refl⟩
      | some u =>
        obtain ⟨r, hr, hr', hru⟩ := hi.reached u (h.source_visited hi)
        exact ⟨r, hr, hr', hru.tail ⟨hmem, hy⟩⟩
    · exact hi.reached x hx
  · intro z
    exact (h.count_todo z).trans (hi.count_start z)
  · intro x hx z
    rw [hleft, List.count_append]
    rw [hvisited, List.mem_cons] at hx
    have hcount := h.count_left x z
    by_cases hyx : y = x
    · subst hyx
      rw [if_pos rfl, hleft_new]
      have hzero : s'.taken.count (some y, z) = 0 := by
        rw [h.taken_eq, List.count_eq_zero, List.mem_cons, not_or]
        exact ⟨fun heq => hsrc (Prod.mk.inj heq).1.symm, hsource z⟩
      simp [hzero]
    · have hx := hx.resolve_left fun heq => hyx heq.symm
      rw [if_neg hyx, List.count_nil, Nat.zero_add, hcount, hi.count_mem x hx]
  · intro x z hz
    rw [hvisited, List.mem_cons]
    have hz : (some x, z) ∈ s'.taken := hz
    rw [h.taken_eq, List.mem_cons] at hz
    rcases hz with hz | hz
    · obtain ⟨rfl, rfl⟩ := Prod.mk.inj hz
      exact .inr (h.source_visited hi)
    · exact .inr (hi.source_mem x z hz)
  · intro e he hinner
    rw [hvisited, List.mem_cons]
    have he : e ∈ s'.taken := he
    rw [h.taken_eq, List.mem_cons] at he
    rcases he with rfl | he
    · exact .inl rfl
    · exact .inr (hi.target_mem e he hinner)
  · intro C older hC
    exact hi.closed C older (h.done_eq ▸ hC)
  · intro upper C lower hC x hx z hz hinner
    rw [hlevels] at hC
    have hz : (some x, z) ∈ s'.taken := hz
    rw [h.taken_eq, List.mem_cons] at hz
    have hdone : ({ s' with parts := ⟨[(y, fields y)], [y]⟩ :: s'.parts } : State α).done = s.done :=
      h.done_eq
    rw [hdone]
    obtain ⟨rfl, rfl, rfl⟩ | ⟨upper, rfl, hC'⟩ := cons_eq_append hC
    · rw [List.mem_singleton] at hx
      subst hx
      rcases hz with hz | hz
      · exact absurd (Prod.mk.inj hz).1.symm hsrc
      · exact absurd hz (hsource z)
    · rcases hz with hz | hz
      · obtain ⟨-, rfl⟩ := Prod.mk.inj hz
        exact .inl (by simp)
      · rcases hi.upward upper C lower hC' x hx z hz hinner with hz | hz
        · exact .inl (by simp [hz])
        · exact .inr hz
  · intro upper C lower hC
    rw [hlevels] at hC
    have htaken : ({ s' with parts := ⟨[(y, fields y)], [y]⟩ :: s'.parts } : State α).taken =
      (src, y) :: s.taken := h.taken_eq
    rw [htaken]
    obtain ⟨rfl, rfl, rfl⟩ | ⟨upper, rfl, hC'⟩ := cons_eq_append hC
    · refine ⟨src, y, ?_, ?_⟩
      · have henters : Enters [y] (src, y) := by
          refine ⟨List.mem_singleton_self y, fun x hx hmem => hsrc ?_⟩
          rw [List.mem_singleton] at hmem
          rw [← hmem]
          exact hx
        rw [List.filter_cons_of_pos (by simpa using henters)]
        have hnil : s.taken.filter (fun e => Enters [y] e) = [] := by
          refine List.filter_eq_nil_iff.mpr fun e he henters => ?_
          have he2 : e.2 = y := List.mem_singleton.mp (of_decide_eq_true henters).1
          exact hfresh e.1 (he2 ▸ he)
        rw [hnil]
      · obtain ⟨hnone, hnil⟩ | ⟨x, D, rest, hx, hlev, hmem⟩ := h.source hi
        · exact .inl ⟨hnone, hnil⟩
        · exact .inr ⟨x, D, rest, hx, hlev, hmem⟩
    · have hnot : ¬ Enters C (src, y) := by
        intro henters
        refine hnew (List.mem_append_left _ ?_)
        rw [hC']
        simp [henters.1]
      rw [List.filter_cons_of_neg (by simpa using hnot)]
      exact hi.entered upper C lower hC'
  · intro C hC
    rw [hlevels, List.mem_cons] at hC
    rcases hC with rfl | hC
    · intro x hx z hz
      rw [List.mem_singleton.mp hx, List.mem_singleton.mp hz]
    · exact hi.strong C hC
  · intro C hC
    exact hi.strong_done C (h.done_eq ▸ hC)

section Levels

variable {C D : List α} {U L : List (List α)}

/-- A vertex of the components above the place of `L` is of one of them. -/
theorem exists_level (hx : x ∈ U.flatten ++ C) :
    ∃ upper E rest, U ++ C :: L = upper ++ E :: (rest ++ L) ∧ x ∈ E ∧
      (∀ z, z ∈ upper.flatten ++ E → z ∈ U.flatten ++ C) ∧ (rest = [] ∧ E = C ∨ ∃ F rest',
        rest = F :: rest' ∧ ∀ z ∈ F, z ∈ U.flatten ++ C) := by
  rcases List.mem_append.mp hx with hx | hx
  · obtain ⟨E, hE, hxE⟩ := List.mem_flatten.mp hx
    obtain ⟨upper, rest, rfl⟩ := List.append_of_mem hE
    refine ⟨upper, E, rest ++ [C], by simp, hxE, fun z hz => ?_, .inr ?_⟩
    · simp only [List.flatten_append, List.flatten_cons, List.mem_append] at hz ⊢
      tauto
    · cases rest with
      | nil => exact ⟨C, [], rfl, fun z hz => List.mem_append_right _ hz⟩
      | cons F rest =>
        refine ⟨F, rest ++ [C], rfl, fun z hz => ?_⟩
        simp [hz]
  · exact ⟨U, C, [], rfl, hx, fun z hz => hz, .inl ⟨rfl, rfl⟩⟩

/-- The vertices of a component on the path reach those above. -/
theorem Inv.connects_up (hi : Inv inner fields starts s) (hlevels : s.levels = U ++ C :: L)
    (hx : x ∈ C) (hz : z ∈ U.flatten ++ C) : Connects inner fields x z := by
  induction U using List.reverseRecOn generalizing C L x with
  | nil => exact hi.strong C (by simp [hlevels]) x hx z hz
  | append_singleton U D ih =>
    have hlevels' : s.levels = U ++ D :: (C :: L) := by rw [hlevels]; simp
    by_cases hzC : z ∈ C
    · exact hi.strong C (by simp [hlevels]) x hx z hzC
    · have hz : z ∈ U.flatten ++ D := by
        simp only [List.flatten_append, List.flatten_cons, List.flatten_nil, List.append_nil,
          List.mem_append] at hz ⊢
        tauto
      obtain ⟨src, y, hfilter, hsrc⟩ := hi.entered U D (C :: L) hlevels'
      have hmem : (src, y) ∈ s.taken.filter (fun e => Enters D e) := by
        rw [hfilter]
        exact List.mem_singleton_self _
      obtain ⟨htaken, henters⟩ := List.mem_filter.mp hmem
      have hy : y ∈ D := (of_decide_eq_true henters).1
      obtain ⟨-, hnil⟩ | ⟨u, Q, rest, rfl, hQ, hu⟩ := hsrc
      · cases hnil
      · obtain ⟨rfl, -⟩ := List.cons.inj hQ
        have huC : Connects inner fields x u := hi.strong C (by simp [hlevels]) x hx u hu
        have hvisited : ∀ v ∈ D, v ∈ s.visited := fun v hv =>
          List.mem_append_left _ (by rw [hlevels']; simp [hv])
        have hsource : u ∈ s.visited := hi.source_mem u y htaken
        have hcount := hi.count_mem u hsource y
        have hpos : 0 < s.taken.count (some u, y) := List.count_pos_iff.mpr htaken
        have hfield : y ∈ fields u := List.count_pos_iff.mp (by omega)
        have hstep : Connects inner fields x y :=
          huC.tail ⟨hfield, hi.inner_of_mem y (hvisited y hy)⟩
        exact hstep.trans (ih hlevels' hy hz)

/-- A reference back into the path makes the components above strongly connected. -/
theorem Inv.strong_merge (hi : Inv inner fields starts s) (h : Next s src y s')
    (hlevels : s.levels = U ++ C :: L) (hy : y ∈ C) : Strong inner fields (U.flatten ++ C) := by
  obtain ⟨-, hnil⟩ | ⟨x₀, D, lower, rfl, hD, hx₀⟩ := h.source hi
  · rw [hnil] at hlevels
    simp at hlevels
  · have hback : Connects inner fields x₀ y := by
      refine .single ⟨?_, hi.inner_of_mem y ?_⟩
      · exact h.mem_fields hi
      · exact List.mem_append_left _ (by rw [hlevels]; simp [hy])
    have htop : ∀ x ∈ U.flatten ++ C, Connects inner fields x x₀ := by
      intro x hx
      obtain ⟨upper, E, rest, heq, hxE, -⟩ := exists_level (L := L) hx
      rw [heq] at hlevels
      refine hi.connects_up hlevels hxE ?_
      rw [hlevels] at hD
      cases upper with
      | nil =>
        obtain ⟨rfl, -⟩ := List.cons.inj hD
        simpa using hx₀
      | cons F upper =>
        obtain ⟨rfl, -⟩ := List.cons.inj hD
        simp [hx₀]
    intro x hx z hz
    exact ((htop x hx).trans hback).trans (hi.connects_up hlevels hy hz)

/-- A vertex is in one of the components on the path only. -/
theorem Inv.not_mem_of_mem (hi : Inv inner fields starts s) {upper lower : List (List α)}
    (hlevels : s.levels = upper ++ C :: lower) (hx : x ∈ C) :
    x ∉ upper.flatten ∧ x ∉ lower.flatten ∧ x ∉ s.done.flatten := by
  have hnodup := hi.nodup
  rw [State.visited, hlevels] at hnodup
  simp only [List.flatten_append, List.flatten_cons, List.nodup_append', List.disjoint_left,
    List.mem_append] at hnodup
  obtain ⟨⟨-, ⟨-, -, hlower⟩, hupper⟩, -, hdone⟩ := hnodup
  exact ⟨fun h => hupper h (.inl hx), hlower hx, hdone (.inr (.inl hx))⟩

/-- A vertex of the last component on the path is in no other one. -/
theorem Inv.not_mem_of_top (hi : Inv inner fields starts s) {lower : List (List α)}
    (hlevels : s.levels = C :: lower) (hx : x ∈ C) : x ∉ lower.flatten ∧ x ∉ s.done.flatten := by
  have hlevels' : s.levels = [] ++ C :: lower := hlevels
  exact (hi.not_mem_of_mem hlevels' hx).2

/-- The references that enter the united component are those that entered its lowest one. -/
theorem Inv.enters_merge (hi : Inv inner fields starts s) (hlevels : s.levels = U ++ C :: L)
    {e : Option α × α} (he : e ∈ s.taken) : Enters (U.flatten ++ C) e ↔ Enters C e := by
  obtain ⟨src, y⟩ := e
  constructor
  · rintro ⟨hy, hsrc⟩
    obtain ⟨upper, E, rest, heq, hyE, hsub, hrest⟩ := exists_level (L := L) hy
    rw [heq] at hlevels
    have henters : Enters E (src, y) := by
      refine ⟨hyE, fun x hx hxE => hsrc x hx (hsub x ?_)⟩
      exact List.mem_append_right _ hxE
    obtain ⟨-, rfl⟩ | ⟨F, rest', rfl, hF⟩ := hrest
    · exact henters
    · obtain ⟨src', y', hfilter, hsource⟩ := hi.entered upper E _ hlevels
      have hmem : (src, y) ∈ s.taken.filter (fun e => Enters E e) :=
        List.mem_filter.mpr ⟨he, decide_eq_true henters⟩
      rw [hfilter, List.mem_singleton] at hmem
      obtain ⟨rfl, rfl⟩ := Prod.mk.inj hmem
      obtain ⟨-, hnil⟩ | ⟨x, Q, rest'', rfl, hQ, hx⟩ := hsource
      · cases hnil
      · obtain ⟨rfl, -⟩ := List.cons.inj hQ
        exact absurd (hF x hx) (hsrc x rfl)
  · rintro ⟨hy, hsrc⟩
    refine ⟨List.mem_append_right _ hy, ?_⟩
    rintro x rfl hx
    have hxU : x ∈ U.flatten := (List.mem_append.mp hx).resolve_right (hsrc x rfl)
    obtain ⟨E, hE, hxE⟩ := List.mem_flatten.mp hxU
    obtain ⟨upper, rest, rfl⟩ := List.append_of_mem hE
    have hlevels' : s.levels = upper ++ E :: (rest ++ C :: L) := by rw [hlevels]; simp
    have hyv : y ∈ s.visited := List.mem_append_left _ (by rw [hlevels]; simp [hy])
    obtain ⟨hyU, -, hydone⟩ := hi.not_mem_of_mem hlevels hy
    simp only [List.flatten_append, List.flatten_cons, List.mem_append, not_or] at hyU
    rcases hi.upward upper E _ hlevels' x hxE y he (hi.inner_of_mem y hyv) with hy' | hy' | hy'
    · exact hyU.1 hy'
    · exact hyU.2.1 hy'
    · exact hydone hy'

/-- The frames of the united component are those of some of its vertices. -/
theorem sublist_merge {upper : List (Segment α)} {P : Segment α}
    (h : ∀ Q ∈ upper ++ [P], (Q.frames.map Prod.fst).Sublist Q.members) :
    ((Segment.merge upper P).frames.map Prod.fst).Sublist (Segment.merge upper P).members := by
  rw [Segment.merge, List.map_append, List.map_flatMap]
  refine List.Sublist.append ?_ (h P (by simp))
  induction upper with
  | nil => exact List.Sublist.slnil
  | cons Q upper ih =>
    rw [List.flatMap_cons, List.flatMap_cons]
    refine (h Q List.mem_cons_self).append (ih fun R hR => h R ?_)
    exact List.mem_cons_of_mem Q hR

/-- A reference back into the path unites the components above. -/
theorem inv_back {upper lower : List (Segment α)} {P : Segment α} (h : Next s src y s')
    (hi : Inv inner fields starts s) (hparts : s'.parts = upper ++ P :: lower)
    (hy : y ∈ P.members) :
    Inv inner fields starts { s' with parts := Segment.merge upper P :: lower } := by
  have hlevels : s.levels = upper.map Segment.members ++ P.members :: lower.map Segment.members := by
    rw [← h.levels_eq, State.levels, hparts, List.map_append, List.map_cons]
  have hmerge : (Segment.merge upper P).members = (upper.map Segment.members).flatten ++ P.members := by
    simp [Segment.merge, List.flatMap_def]
  have hlevels' : ({ s' with parts := Segment.merge upper P :: lower } : State α).levels =
      ((upper.map Segment.members).flatten ++ P.members) :: lower.map Segment.members := by
    rw [State.levels, List.map_cons, hmerge]
  have hvisited : ({ s' with parts := Segment.merge upper P :: lower } : State α).visited = s.visited := by
    rw [State.visited, hlevels', State.visited, hlevels, ← h.done_eq]
    simp
  have hframes : ({ s' with parts := Segment.merge upper P :: lower } : State α).frames = s'.frames := by
    rw [State.frames, State.frames, hparts]
    simp [Segment.merge]
  have hleft : ∀ x, ({ s' with parts := Segment.merge upper P :: lower } : State α).left (some x) =
      s'.left (some x) := by
    intro x
    rw [State.left, hframes, State.left]
  have hP : ∀ Q, Q ∈ upper ++ P :: lower → Q ∈ s'.parts := fun Q hQ => hparts ▸ hQ
  have hyv : y ∈ s.visited := List.mem_append_left _ (by rw [hlevels]; simp [hy])
  obtain ⟨-, hylower, hydone⟩ := hi.not_mem_of_mem hlevels hy
  refine
    { nodup := ?_, frames_ne := ?_, frames_sublist := ?_, inner_of_mem := ?_, reached := ?_,
      count_start := ?_, count_mem := ?_, source_mem := ?_, target_mem := ?_, closed := ?_,
      upward := ?_, entered := ?_, strong := ?_, strong_done := ?_ }
  · rw [hvisited]
    exact hi.nodup
  · intro Q hQ
    rcases List.mem_cons.mp hQ with rfl | hQ
    · have hne := (h.frames hi P (hP P (by simp))).1
      simp [Segment.merge, hne]
    · exact (h.frames hi Q (hP Q (by simp [hQ]))).1
  · intro Q hQ
    rcases List.mem_cons.mp hQ with rfl | hQ
    · refine sublist_merge fun R hR => (h.frames hi R (hP R ?_)).2
      simp only [List.mem_append, List.mem_singleton] at hR
      rcases hR with hR | rfl
      · simp [hR]
      · simp
    · exact (h.frames hi Q (hP Q (by simp [hQ]))).2
  · rw [hvisited]
    exact hi.inner_of_mem
  · rw [hvisited]
    exact hi.reached
  · intro z
    exact (h.count_todo z).trans (hi.count_start z)
  · intro x hx z
    rw [hvisited] at hx
    rw [hleft]
    exact (h.count_left x z).trans (hi.count_mem x hx z)
  · intro x z hz
    have hz : (some x, z) ∈ s'.taken := hz
    rw [hvisited]
    rw [h.taken_eq, List.mem_cons] at hz
    rcases hz with hz | hz
    · obtain ⟨rfl, rfl⟩ := Prod.mk.inj hz
      exact h.source_visited hi
    · exact hi.source_mem x z hz
  · intro e he hinner
    have he : e ∈ s'.taken := he
    rw [hvisited]
    rw [h.taken_eq, List.mem_cons] at he
    rcases he with rfl | he
    · exact hyv
    · exact hi.target_mem e he hinner
  · intro C older hC
    exact hi.closed C older (h.done_eq ▸ hC)
  · intro upper' C lower' hC x hx z hz hinner
    have hz : (some x, z) ∈ s'.taken := hz
    have hdone : ({ s' with parts := Segment.merge upper P :: lower } : State α).done = s.done := h.done_eq
    rw [hdone]
    rw [hlevels'] at hC
    rw [h.taken_eq, List.mem_cons] at hz
    obtain ⟨rfl, rfl, rfl⟩ | ⟨upper', rfl, hC'⟩ := cons_eq_append hC
    · rcases hz with hz | hz
      · obtain ⟨-, rfl⟩ := Prod.mk.inj hz
        exact .inr (.inl (List.mem_append_right _ hy))
      · obtain ⟨upper', E, rest, heq, hxE, hsub, -⟩ := exists_level (L := lower.map Segment.members) hx
        rw [heq] at hlevels
        rcases hi.upward upper' E _ hlevels x hxE z hz hinner with hz | hz | hz
        · exact .inr (.inl (hsub z (List.mem_append_left _ hz)))
        · exact .inr (.inl (hsub z (List.mem_append_right _ hz)))
        · exact .inr (.inr hz)
    · rcases hz with hz | hz
      · obtain ⟨-, rfl⟩ := Prod.mk.inj hz
        exact .inl (by simp [hy])
      · have hold : s.levels = (upper.map Segment.members ++ P.members :: upper') ++ C :: lower' := by
          rw [hlevels, hC']
          simp
        rcases hi.upward _ C lower' hold x hx z hz hinner with hz | hz
        · refine .inl ?_
          simp only [List.flatten_append, List.flatten_cons, List.mem_append] at hz ⊢
          tauto
        · exact .inr hz
  · intro upper' C lower' hC
    have htaken : ({ s' with parts := Segment.merge upper P :: lower } : State α).taken =
      (src, y) :: s.taken := h.taken_eq
    rw [htaken]
    rw [hlevels'] at hC
    obtain ⟨rfl, rfl, rfl⟩ | ⟨upper', rfl, hC'⟩ := cons_eq_append hC
    · have hnot : ¬ Enters ((upper.map Segment.members).flatten ++ P.members) (src, y) := by
        rintro ⟨-, hsrc⟩
        obtain ⟨-, hnil⟩ | ⟨x, D, rest, rfl, hD, hx⟩ := h.source hi
        · rw [hnil] at hlevels
          simp at hlevels
        · refine hsrc x rfl ?_
          rw [hlevels] at hD
          cases upper with
          | nil =>
            obtain ⟨rfl, -⟩ := List.cons.inj hD
            simpa using hx
          | cons Q upper =>
            obtain ⟨rfl, -⟩ := List.cons.inj hD
            simp [hx]
      rw [List.filter_cons_of_neg (by simpa using hnot)]
      have hfilter : s.taken.filter (fun e => Enters ((upper.map Segment.members).flatten ++ P.members) e) =
          s.taken.filter (fun e => Enters P.members e) := by
        refine List.filter_congr fun e he => ?_
        exact decide_eq_decide.mpr (hi.enters_merge hlevels he)
      rw [hfilter]
      exact hi.entered _ P.members _ hlevels
    · have hold : s.levels = (upper.map Segment.members ++ P.members :: upper') ++ C :: lower' := by
        rw [hlevels, hC']
        simp
      have hnot : ¬ Enters C (src, y) := by
        intro henters
        refine hylower ?_
        rw [hC']
        simp [henters.1]
      rw [List.filter_cons_of_neg (by simpa using hnot)]
      exact hi.entered _ C lower' hold
  · intro C hC
    rw [hlevels', List.mem_cons] at hC
    rcases hC with rfl | hC
    · exact hi.strong_merge h hlevels hy
    · exact hi.strong C (by rw [hlevels]; simp [hC])
  · intro C hC
    exact hi.strong_done C (h.done_eq ▸ hC)

end Levels

section Frames

variable {f : α × List α} {frames : List (α × List α)} {members : List α} {parts : List (Segment α)}
  {todo : List α} {done : List (List α)} {taken : List (Option α × α)}

/-- A vertex without references left can be forgotten. -/
theorem inv_leave
    (hi : Inv inner fields starts ⟨⟨(x, []) :: f :: frames, members⟩ :: parts, todo, done, taken⟩) :
    Inv inner fields starts ⟨⟨f :: frames, members⟩ :: parts, todo, done, taken⟩ := by
  have hleft : ∀ u,
      (⟨⟨f :: frames, members⟩ :: parts, todo, done, taken⟩ : State α).left (some u) =
        (⟨⟨(x, []) :: f :: frames, members⟩ :: parts, todo, done, taken⟩ : State α).left (some u) := by
    intro u
    by_cases hxu : x = u
    · simp [State.left, State.frames, List.filter_cons, hxu]
    · simp [State.left, State.frames, List.filter_cons, hxu]
  refine { hi with
    frames_ne := ?_
    frames_sublist := ?_
    count_mem := fun u hu z => ?_ }
  · intro P hP
    rcases List.mem_cons.mp hP with rfl | hP
    · simp
    · exact hi.frames_ne P (List.mem_cons_of_mem _ hP)
  · intro P hP
    rcases List.mem_cons.mp hP with rfl | hP
    · have hsub := hi.frames_sublist _ List.mem_cons_self
      exact (List.sublist_cons_self x _).trans hsub
    · exact hi.frames_sublist P (List.mem_cons_of_mem _ hP)
  · rw [hleft]
    exact hi.count_mem u hu z

/-- A component without references left is finished. -/
theorem inv_close (hi : Inv inner fields starts ⟨⟨[(x, [])], members⟩ :: parts, todo, done, taken⟩) :
    Inv inner fields starts ⟨parts, todo, members :: done, taken⟩ := by
  have hvisited : ∀ u, u ∈ (⟨parts, todo, members :: done, taken⟩ : State α).visited ↔
      u ∈ (⟨⟨[(x, [])], members⟩ :: parts, todo, done, taken⟩ : State α).visited := by
    intro u
    simp only [State.visited, State.levels, List.map_cons, List.flatten_cons, List.mem_append]
    tauto
  have hlevels : (⟨⟨[(x, [])], members⟩ :: parts, todo, done, taken⟩ : State α).levels =
      members :: parts.map Segment.members := rfl
  have hleft : ∀ u, (⟨⟨[(x, [])], members⟩ :: parts, todo, done, taken⟩ : State α).left (some u) =
      (⟨parts, todo, members :: done, taken⟩ : State α).left (some u) := by
    intro u
    by_cases hxu : x = u
    · simp [State.left, State.frames, hxu]
    · simp [State.left, State.frames, hxu]
  refine
    { nodup := ?_
      frames_ne := fun P hP => hi.frames_ne P (List.mem_cons_of_mem _ hP)
      frames_sublist := fun P hP => hi.frames_sublist P (List.mem_cons_of_mem _ hP)
      inner_of_mem := fun u hu => hi.inner_of_mem u ((hvisited u).mp hu)
      reached := fun u hu => hi.reached u ((hvisited u).mp hu)
      count_start := hi.count_start
      count_mem := fun u hu z => ?_
      source_mem := fun u z hz => (hvisited u).mpr (hi.source_mem u z hz)
      target_mem := fun e he hinner => (hvisited e.2).mpr (hi.target_mem e he hinner)
      closed := ?_
      upward := ?_
      entered := ?_
      strong := fun C hC => hi.strong C (List.mem_cons_of_mem _ hC)
      strong_done := ?_ }
  · have hperm : (⟨parts, todo, members :: done, taken⟩ : State α).visited.Perm
        (⟨⟨[(x, [])], members⟩ :: parts, todo, done, taken⟩ : State α).visited := by
      simp only [State.visited, State.levels, List.map_cons, List.flatten_cons, List.append_assoc]
      exact (List.perm_append_comm_assoc ..)
    exact hperm.nodup_iff.mpr hi.nodup
  · rw [← hleft]
    exact hi.count_mem u ((hvisited u).mp hu) z
  · intro C older hC u hu z hz hinner
    rcases List.suffix_cons_iff.mp hC with heq | hC
    · obtain ⟨rfl, rfl⟩ := List.cons.inj heq
      have huv : u ∈ (⟨⟨[(x, [])], C⟩ :: parts, todo, older, taken⟩ : State α).visited := by
        simp [State.visited, State.levels, hu]
      have hnil : (⟨⟨[(x, [])], C⟩ :: parts, todo, older, taken⟩ : State α).left (some u) = [] := by
        refine List.flatMap_eq_nil_iff.mpr fun f hf => ?_
        obtain ⟨hf, hfu⟩ := List.mem_filter.mp hf
        obtain ⟨P, hP, hfP⟩ := List.mem_flatMap.mp hf
        rcases List.mem_cons.mp hP with rfl | hP
        · rw [List.mem_singleton.mp hfP]
        · have hmem : f.1 ∈ P.members :=
            (hi.frames_sublist P (List.mem_cons_of_mem _ hP)).subset (List.mem_map_of_mem hfP)
          rw [of_decide_eq_true hfu] at hmem
          have hlower := (hi.not_mem_of_top hlevels hu).1
          exact absurd (List.mem_flatten.mpr ⟨_, List.mem_map_of_mem hP, hmem⟩) hlower
      have hcount := hi.count_mem u huv z
      rw [hnil, List.count_nil, Nat.add_zero] at hcount
      have hpos : 0 < (fields u).count z := List.count_pos_iff.mpr hz
      have htaken : (some u, z) ∈ taken := List.count_pos_iff.mp (by rw [hcount]; exact hpos)
      rcases hi.upward [] C _ hlevels u hu z htaken hinner with hz | hz
      · cases hz
      · exact hz
    · exact hi.closed C older hC u hu z hz hinner
  · intro upper C lower hC u hu z hz hinner
    have hold : (⟨⟨[(x, [])], members⟩ :: parts, todo, done, taken⟩ : State α).levels =
        (members :: upper) ++ C :: lower := by
      rw [hlevels, List.cons_append, ← hC]
      rfl
    rcases hi.upward (members :: upper) C lower hold u hu z hz hinner with hz | hz | hz
    · rw [List.flatten_cons, List.mem_append] at hz
      rcases hz with hz | hz
      · exact .inr (.inr (by simp [hz]))
      · exact .inl hz
    · exact .inr (.inl hz)
    · exact .inr (.inr (by simp [hz]))
  · intro upper C lower hC
    refine hi.entered (members :: upper) C lower ?_
    rw [hlevels, List.cons_append, ← hC]
    rfl
  · intro C hC
    rcases List.mem_cons.mp hC with rfl | hC
    · exact hi.strong C List.mem_cons_self
    · exact hi.strong_done C hC

end Frames

/-- A step keeps the invariant. -/
theorem Step.inv (hs : Step inner fields s s') (hi : Inv inner fields starts s) :
    Inv inner fields starts s' := by
  cases hs with
  | visit hnext hy hnew => exact inv_visit hnext hi hy hnew
  | back hnext hparts hy => exact inv_back hnext hi hparts hy
  | finished hnext hy =>
    refine hnext.inv hi (fun hlevels => ?_) fun _ => hy
    exact (List.nodup_append'.mp hi.nodup).2.2 hlevels hy
  | outer hnext hy =>
    exact hnext.inv hi (fun hlevels => hy (hi.inner_of_mem _ (List.mem_append_left _ hlevels)))
      fun hinner => absurd hinner hy
  | leave => exact inv_leave hi
  | close => exact inv_close hi

/-- The search from some starts. -/
def State.init (starts : List α) : State α := ⟨[], starts, [], []⟩

/-- At first nothing is found. -/
theorem inv_init (inner : α → Prop) (fields : α → List α) (starts : List α) :
    Inv inner fields starts (State.init starts) where
  nodup := List.nodup_nil
  frames_ne _ hP := absurd hP List.not_mem_nil
  frames_sublist _ hP := absurd hP List.not_mem_nil
  inner_of_mem _ hx := absurd hx List.not_mem_nil
  reached _ hx := absurd hx List.not_mem_nil
  count_start _ := by simp [State.init]
  count_mem _ hx := absurd hx List.not_mem_nil
  source_mem _ _ hz := absurd hz List.not_mem_nil
  target_mem _ he := absurd he List.not_mem_nil
  closed C older hC := absurd (List.suffix_nil.mp hC) (List.cons_ne_nil C older)
  upward upper C lower hC := by simp [State.init, State.levels] at hC
  entered upper C lower hC := by simp [State.init, State.levels] at hC
  strong _ hC := absurd hC List.not_mem_nil
  strong_done _ hC := absurd hC List.not_mem_nil

/-! ## The stack -/

section Stack

variable {β : Type*} {pre post : α → β} {b : β} {rest : List β}

/-- The stack of a search: the references left of each frame, with a mark for its vertex below them. -/
def State.stack (pre post : α → β) (s : State α) : List β :=
  (s.frames.flatMap fun f => f.2.map pre ++ [post f.1]) ++ s.todo.map pre

/-- What is popped off the stack is the next reference or the mark of a vertex without references
left. -/
theorem Inv.stack_cons (hi : Inv inner fields starts s) (hstack : s.stack pre post = b :: rest) :
    (∃ src y s', b = pre y ∧ Next s src y s' ∧ s'.stack pre post = rest) ∨
      ∃ x frames members parts, b = post x ∧ s.parts = ⟨(x, []) :: frames, members⟩ :: parts := by
  obtain ⟨parts, todo, done, taken⟩ := s
  cases parts with
  | nil =>
    cases todo with
    | nil => simp [State.stack, State.frames] at hstack
    | cons y todo =>
      obtain ⟨rfl, rfl⟩ : pre y = b ∧ todo.map pre = rest := by
        simpa [State.stack, State.frames] using hstack
      exact .inl ⟨none, y, _, rfl, .start, by simp [State.stack, State.frames]⟩
  | cons P parts =>
    obtain ⟨frames, members⟩ := P
    cases frames with
    | nil => exact absurd rfl (hi.frames_ne _ List.mem_cons_self)
    | cons f frames =>
      obtain ⟨x, l⟩ := f
      cases l with
      | nil =>
        refine .inr ⟨x, frames, members, parts, ?_, rfl⟩
        simp only [State.stack, State.frames, List.flatMap_cons, List.cons_append, List.map_nil,
          List.nil_append] at hstack
        exact (List.cons.inj hstack).1.symm
      | cons y l =>
        refine .inl ⟨some x, y, _, ?_, .frame, ?_⟩
        · simp only [State.stack, State.frames, List.flatMap_cons, List.cons_append,
            List.map_cons] at hstack
          exact (List.cons.inj hstack).1.symm
        · simp only [State.stack, State.frames, List.flatMap_cons, List.cons_append,
            List.map_cons] at hstack ⊢
          exact (List.cons.inj hstack).2

/-- What the vertices that are not found can still push. -/
def State.budget (fields : α → List α) (X : Finset α) (s : State α) : ℕ :=
  ∑ x ∈ X with x ∉ s.visited, ((fields x).length + 1)

/-- The budget depends on what was found. -/
theorem State.budget_congr {X : Finset α} {s s' : State α} (h : ∀ x, x ∈ s'.visited ↔ x ∈ s.visited) :
    s'.budget fields X = s.budget fields X := by
  rw [State.budget, State.budget]
  simp only [h]

/-- A vertex that is found pays for its references. -/
theorem State.budget_visit {X : Finset α} {y : α} {s s' : State α} (hy : y ∈ X) (hnew : y ∉ s.visited)
    (hvisited : ∀ x, x ∈ s'.visited ↔ x = y ∨ x ∈ s.visited) :
    s'.budget fields X + ((fields y).length + 1) = s.budget fields X := by
  have hset : (X.filter fun x => x ∉ s'.visited) = (X.filter fun x => x ∉ s.visited).erase y := by
    ext x
    simp only [Finset.mem_filter, Finset.mem_erase, hvisited]
    tauto
  rw [State.budget, State.budget, hset]
  exact Finset.sum_erase_add _ _ (Finset.mem_filter.mpr ⟨hy, hnew⟩)

end Stack

/-! ## The end of the search -/

section End

variable {C D : List α}

/-- What a finished component reaches is finished with it or was before. -/
theorem Inv.connects_older (hi : Inv inner fields starts s) {older : List (List α)}
    (hC : C :: older <:+ s.done) (hx : x ∈ C ∨ x ∈ older.flatten)
    (h : Connects inner fields x y) : y ∈ C ∨ y ∈ older.flatten := by
  induction h with
  | refl => exact hx
  | @tail u v _ huv ih =>
    rcases ih with hu | hu
    · exact hi.closed C older hC u hu v huv.1 huv.2
    · obtain ⟨D, hD, huD⟩ := List.mem_flatten.mp hu
      obtain ⟨newer, older', rfl⟩ := List.append_of_mem hD
      have hsuffix : D :: older' <:+ s.done :=
        List.IsSuffix.trans ⟨C :: newer, by simp⟩ hC
      refine .inr ?_
      rcases hi.closed D older' hsuffix u huD v huv.1 huv.2 with hv | hv
      · simp [hv]
      · simp only [List.flatten_append, List.flatten_cons, List.mem_append]
        exact .inr (.inr hv)

/-- Two vertices of finished components that reach each other are of the same component. -/
theorem Inv.same_of_connects (hi : Inv inner fields starts s) (hC : C ∈ s.done) (hD : D ∈ s.done)
    (hx : x ∈ C) (hy : y ∈ D) (hxy : Connects inner fields x y) (hyx : Connects inner fields y x) :
    C = D := by
  obtain ⟨newer, older, hdone⟩ := List.append_of_mem hC
  have hnodup : s.done.flatten.Nodup := (List.nodup_append'.mp hi.nodup).2.1
  rw [hdone] at hD
  rcases List.mem_append.mp hD with hD | hD
  · obtain ⟨newer, between, rfl⟩ := List.append_of_mem hD
    have hsuffix : C :: older <:+ s.done := ⟨newer ++ D :: between, by rw [hdone]⟩
    have hy' := hi.connects_older hsuffix (.inl hx) hxy
    rw [hdone] at hnodup
    simp only [List.flatten_append, List.flatten_cons, List.nodup_append', List.disjoint_left,
      List.mem_append] at hnodup
    exact absurd hy' (hnodup.2.2 (.inr (.inl hy)))
  · rcases List.mem_cons.mp hD with rfl | hD
    · rfl
    · obtain ⟨between, older, rfl⟩ := List.append_of_mem hD
      have hsuffix : D :: older <:+ s.done := ⟨newer ++ C :: between, by rw [hdone]; simp⟩
      have hx' := hi.connects_older hsuffix (.inl hy) hyx
      rw [hdone] at hnodup
      simp only [List.flatten_append, List.flatten_cons, List.nodup_append', List.disjoint_left,
        List.mem_append] at hnodup
      rcases hx' with hx' | hx'
      · exact absurd (.inr (.inl hx')) (hnodup.2.1.2.2 hx)
      · exact absurd (.inr (.inr hx')) (hnodup.2.1.2.2 hx)

/-- Two vertices of finished components are of the same one exactly if they reach each other. -/
theorem Inv.same_iff (hi : Inv inner fields starts s) (hC : C ∈ s.done) (hD : D ∈ s.done)
    (hx : x ∈ C) (hy : y ∈ D) :
    C = D ↔ Connects inner fields x y ∧ Connects inner fields y x := by
  constructor
  · rintro rfl
    exact ⟨hi.strong_done C hC x hx y hy, hi.strong_done C hC y hy x hx⟩
  · rintro ⟨hxy, hyx⟩
    exact hi.same_of_connects hC hD hx hy hxy hyx

variable {done : List (List α)} {taken : List (Option α × α)}

/-- At the end the vertices of finished components are those that the starts reach. -/
theorem Inv.mem_done_iff (hi : Inv inner fields starts ⟨[], [], done, taken⟩) :
    x ∈ done.flatten ↔ ∃ y ∈ starts, inner y ∧ Connects inner fields y x := by
  constructor
  · exact hi.reached x
  · rintro ⟨y, hy, hinner, hyx⟩
    have hcount := hi.count_start y
    rw [List.count_nil, Nat.add_zero] at hcount
    have hpos : 0 < starts.count y := List.count_pos_iff.mpr hy
    have htaken : (none, y) ∈ taken := List.count_pos_iff.mp (by rw [hcount]; exact hpos)
    have hmem : y ∈ done.flatten := hi.target_mem _ htaken hinner
    obtain ⟨C, hC, hyC⟩ := List.mem_flatten.mp hmem
    obtain ⟨newer, older, hdone⟩ := List.append_of_mem hC
    have hsuffix : C :: older <:+ done := ⟨newer, hdone.symm⟩
    rw [hdone]
    simp only [List.flatten_append, List.flatten_cons, List.mem_append]
    exact .inr (hi.connects_older hsuffix (.inl hyC) hyx)

/-- The references of some vertices, with their sources. -/
def sourced (fields : α → List α) (vertices : List α) : List (Option α × α) :=
  vertices.flatMap fun x => (fields x).map (Prod.mk (some x))

/-- How often a reference with its source is among those of some vertices. -/
theorem count_sourced {vertices : List α} (hnodup : vertices.Nodup) (x z : α) :
    (sourced fields vertices).count (some x, z) = if x ∈ vertices then (fields x).count z else 0 := by
  have hmap : ∀ v, ((fields v).map (Prod.mk (some v))).count (some x, z) =
      if v = x then (fields x).count z else 0 := by
    intro v
    split
    · next hv =>
      subst hv
      exact List.count_map_of_injective _ _ (Prod.mk_right_injective _) z
    · next hv =>
      refine List.count_eq_zero.mpr fun hmem => hv ?_
      obtain ⟨w, -, heq⟩ := List.mem_map.mp hmem
      exact Option.some.inj (Prod.mk.inj heq).1
  induction vertices with
  | nil => rfl
  | cons v vertices ih =>
    obtain ⟨hv, hnodup⟩ := List.nodup_cons.mp hnodup
    have hcons : sourced fields (v :: vertices) =
        (fields v).map (Prod.mk (some v)) ++ sourced fields vertices := List.flatMap_cons
    rw [hcons, List.count_append, hmap, ih hnodup]
    by_cases hvx : v = x
    · subst hvx
      simp [hv]
    · have hxv : x ≠ v := fun heq => hvx heq.symm
      simp [hvx, hxv]

/-- At the end the references that were followed are the starts and the references of all vertices
that were found. -/
theorem Inv.taken_perm (hi : Inv inner fields starts ⟨[], [], done, taken⟩) :
    taken.Perm (starts.map (Prod.mk none) ++ sourced fields done.flatten) := by
  have hnodup : done.flatten.Nodup := (List.nodup_append'.mp hi.nodup).2.1
  rw [List.perm_iff_count]
  rintro ⟨src, z⟩
  rw [List.count_append]
  cases src with
  | none =>
    have hcount : taken.count (none, z) = starts.count z := hi.count_start z
    have hzero : (sourced fields done.flatten).count (none, z) = 0 := by
      refine List.count_eq_zero.mpr fun hmem => ?_
      obtain ⟨x, -, hx⟩ := List.mem_flatMap.mp hmem
      obtain ⟨w, -, heq⟩ := List.mem_map.mp hx
      cases (Prod.mk.inj heq).1
    rw [hcount, hzero, List.count_map_of_injective _ _ (Prod.mk_right_injective _)]
    rfl
  | some x =>
    have hzero : (starts.map (Prod.mk (none : Option α))).count (some x, z) = 0 := by
      refine List.count_eq_zero.mpr fun hmem => ?_
      obtain ⟨w, -, heq⟩ := List.mem_map.mp hmem
      cases (Prod.mk.inj heq).1
    rw [hzero, Nat.zero_add, count_sourced hnodup]
    split
    · next hx =>
      have hcount := hi.count_mem x hx z
      simpa [State.left, State.frames] using hcount
    · next hx =>
      exact List.count_eq_zero.mpr fun hmem => hx (hi.source_mem x z hmem)

/-- How many references with some property were followed. -/
theorem Inv.countP_taken (hi : Inv inner fields starts ⟨[], [], done, taken⟩)
    (p : Option α × α → Bool) :
    taken.countP p = starts.countP (fun y => p (none, y)) +
      (done.flatten.map fun x => (fields x).countP fun y => p (some x, y)).sum := by
  rw [hi.taken_perm.countP_eq, List.countP_append, List.countP_map, sourced, List.countP_flatMap]
  simp only [Function.comp_def, List.countP_map]

end End

end

end Foundation.PathSearch
