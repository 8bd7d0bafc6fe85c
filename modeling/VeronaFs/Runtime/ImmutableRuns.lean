import VeronaFs.Runtime.ImmutableRelease

/-!
# Runs of acquires and releases

A thread holds references to immutable objects, acquires objects that it reaches and releases references
that it holds.  `run_total` says what any sequence of these leaves: no assertion fails, an object is
there exactly if a reference that is held reaches it, and the others were finalised, destructed and
deallocated once, component by component.

`Released.andThen` puts two releases together: the components that the second one frees come behind those
of the first one.
-/

set_option linter.unusedSectionVars false

namespace VeronaRt.Immutable

open Foundation ObjectHeap Foundation.Ledger

/-- What a thread does with its references. -/
inductive Action where
  /-- An object is acquired. -/
  | acquire (o : ObjAddr)
  /-- A reference is released. -/
  | release (o : ObjAddr)

/-- The heap and what was done to objects. -/
structure Outcome where
  /-- The words of the headers. -/
  heap : ObjectHeap
  /-- What was done. -/
  events : List (ObjectEvent ObjAddr)
  /-- The size of what was deallocated. -/
  total : ℕ

/-- An acquire or a release. -/
def Action.apply (D : Descriptors) (fuel : ℕ) (s : Outcome) : Action → Option Outcome
  | .acquire o => (Immutable.acquire fuel s.heap o).map fun h => { s with heap := h }
  | .release o => (Immutable.release D fuel s.heap o).map fun (h, events, total) =>
      ⟨h, s.events ++ events, s.total + total⟩

/-- Acquires and releases behind each other. -/
def run (D : Descriptors) (fuel : ℕ) (s : Outcome) (actions : List Action) : Option Outcome :=
  actions.foldlM (Action.apply D fuel) s

/-- The references that are held afterwards. -/
def Action.held (held : List ObjAddr) : Action → List ObjAddr
  | .acquire o => o :: held
  | .release o => held.erase o

/-- A reference that is held reaches the object. -/
def Reached (D : Descriptors) (Cs : List (List ObjAddr)) (held : List ObjAddr) (x : ObjAddr) : Prop :=
  ∃ y ∈ held, PathSearch.Connects (· ∈ Cs.flatten) D.fields y x

/-- Acquires are of objects that are reached, releases of references that are held. -/
def Legal (D : Descriptors) (Cs : List (List ObjAddr)) : List ObjAddr → List Action → Prop
  | _, [] => True
  | held, .acquire o :: actions =>
    Reached D Cs held o ∧ (references D.fields (o :: held) Cs.flatten).length < 2 ^ 60 ∧
      Legal D Cs (o :: held) actions
  | held, .release o :: actions => o ∈ held ∧ Legal D Cs (held.erase o) actions

section

variable {D : Descriptors} {h₀ h h' : ObjectHeap} {Cs alive alive' freed freed' : List (List ObjAddr)}
  {orders orders' : List (List ObjAddr)} {held : List ObjAddr} {o x : ObjAddr}
  {events events' : List (ObjectEvent ObjAddr)} {total total' fuel : ℕ}

/-! ## Steps -/

namespace Released

/-- Before anything is released. -/
theorem refl (hi : Immutables D h Cs held) : Released D h h Cs held Cs [] [] [] 0 :=
  ⟨by simp, hi, fun _ hC => absurd hC List.not_mem_nil, fun _ hC => absurd hC List.not_mem_nil,
    fun _ _ _ => rfl, .nil, rfl, rfl⟩

/-- The objects in use are objects. -/
theorem subset (hr : Released D h₀ h Cs held alive freed orders events total) (hx : x ∈ alive.flatten) :
    x ∈ Cs.flatten :=
  hr.perm.flatten.mem_iff.mp (by rw [List.flatten_append]; exact List.mem_append_left _ hx)

/-- The objects are in use or gone. -/
theorem mem_or_gone (hr : Released D h₀ h Cs held alive freed orders events total) (hx : x ∈ Cs.flatten) :
    x ∈ alive.flatten ∨ h x = none := by
  have hx' := hr.perm.flatten.mem_iff.mpr hx
  rw [List.flatten_append] at hx'
  refine (List.mem_append.mp hx').imp_right fun hx' => ?_
  obtain ⟨E, hE, hxE⟩ := List.mem_flatten.mp hx'
  exact hr.gone E hE x hxE

/-- An object in use is there. -/
theorem ne_none (hi : Immutables D h alive held) (hx : x ∈ alive.flatten) : h x ≠ none := by
  obtain ⟨C, hC, hxC⟩ := List.mem_flatten.mp hx
  obtain ⟨r, -, hr, -, hiff⟩ := (hi.counted C hC).exists_root (by decide)
  intro hnone
  have hrx : r = x := ((hiff x).mpr hxC).eq_of_getClass (by rw [getClass, hnone]; decide)
  rw [hrx, hnone] at hr
  cases hr

/-- The objects in use are those that are reached. -/
theorem mem_alive_iff (hr : Released D h₀ h Cs held alive freed orders events total)
    (hCs : Components D.fields Cs) : x ∈ alive.flatten ↔ Reached D Cs held x := by
  have hsub : alive ⊆ Cs := fun C hC => hr.perm.mem_iff.mp (List.mem_append_left _ hC)
  rw [hCs.mem_iff hsub hr.immutables.pos fun C hC hnot => ?_]
  · constructor
    · rintro ⟨y, hy, -, hyx⟩
      exact ⟨y, hy, hyx⟩
    · rintro ⟨y, hy, hyx⟩
      exact ⟨y, hy, hr.subset (hr.immutables.held_mem y hy), hyx⟩
  · exact hr.zero C ((List.mem_append.mp (hr.perm.mem_iff.mpr hC)).resolve_left hnot)

/-- The references to shared objects are the same ones. -/
theorem componentEvents_eq (hr : Released D h₀ h Cs held alive freed orders events total)
    {objects : List ObjAddr} (hobjects : ∀ x ∈ objects, x ∈ alive.flatten) :
    componentEvents D alive objects = componentEvents D Cs objects := by
  have hfilter : releaseEvents alive (objects.reverse.flatMap D.fields) =
      releaseEvents Cs (objects.reverse.flatMap D.fields) := by
    rw [releaseEvents, releaseEvents]
    refine congrArg (List.map ObjectEvent.release) (List.filter_congr fun y hy => ?_)
    obtain ⟨x, hx, hy⟩ := List.mem_flatMap.mp hy
    have hiff : y ∈ alive.flatten ↔ y ∈ Cs.flatten := by
      refine ⟨hr.subset, fun hyCs => ?_⟩
      refine (hr.immutables.fields x (hobjects x (List.mem_reverse.mp hx)) y hy).resolve_right ?_
      rintro ⟨hnot, hshared⟩
      rw [getClass, (hr.mem_or_gone hyCs).resolve_left hnot] at hshared
      cases hshared
    simp only [hiff]
  rw [componentEvents, componentEvents, hfilter]

/-- Another release. -/
theorem andThen (hr : Released D h₀ h Cs held alive freed orders events total)
    (hr' : Released D h h' alive (held.erase o) alive' freed' orders' events' total') :
    Released D h₀ h' Cs (held.erase o) alive' (freed' ++ freed) (orders' ++ orders) (events ++ events')
      (total + total') := by
  have hgone : ∀ {u}, (∃ E ∈ freed, u ∈ E) → u ∉ alive.flatten := by
    rintro u ⟨E, hE, huE⟩ hu
    exact ne_none hr.immutables hu (hr.gone E hE u huE)
  constructor
  case perm =>
    refine List.Perm.trans ?_ hr.perm
    rw [← List.append_assoc]
    exact hr'.perm.append_right freed
  case immutables => exact hr'.immutables
  case zero =>
    intro C hC
    rcases List.mem_append.mp hC with hC | hC
    · exact hr'.zero C hC
    · -- References that are left are among those of before.
      refine Nat.eq_zero_of_le_zero (Nat.not_lt.mp fun hlt => ?_)
      obtain ⟨e, he, henters⟩ := exists_of_count hlt
      refine absurd (one_le_count (mem_references.mpr ?_) henters) (by rw [hr.zero C hC]; decide)
      rcases mem_references.mp he with ⟨y, hy, rfl⟩ | ⟨u, hu, y, hy, rfl⟩
      · exact .inl ⟨y, List.mem_of_mem_erase hy, rfl⟩
      · exact .inr ⟨u, hr'.subset hu, y, hy, rfl⟩
  case gone =>
    intro C hC u hu
    rcases List.mem_append.mp hC with hC | hC
    · exact hr'.gone C hC u hu
    · have hnone := hr.gone C hC u hu
      rw [hr'.outside u (hgone ⟨C, hC, hu⟩) (by rw [getClass, hnone]; decide), hnone]
  case outside =>
    intro u hu hc
    have hsame := hr.outside u hu hc
    rw [hr'.outside u (fun hmem => hu (hr.subset hmem)) (by rw [(reads_eq hsame).1]; exact hc), hsame]
  case ordered => exact List.rel_append hr'.ordered hr.ordered
  case events_eq =>
    have hsame : ∀ l ∈ orders', componentEvents D alive l = componentEvents D Cs l := by
      intro l hl
      obtain ⟨i, hi, rfl⟩ := List.getElem_of_mem hl
      have hlen := hr'.ordered.length_eq
      have hperm := hr'.ordered.get hi (hlen ▸ hi)
      refine hr.componentEvents_eq fun x hx => ?_
      have hxfreed : x ∈ freed'.get ⟨i, hlen ▸ hi⟩ := hperm.mem_iff.mp hx
      have hmem : x ∈ (alive' ++ freed').flatten := by
        rw [List.flatten_append]
        exact List.mem_append_right _ (List.mem_flatten.mpr ⟨_, List.get_mem .., hxfreed⟩)
      exact hr'.perm.flatten.mem_iff.mp hmem
    rw [List.reverse_append, List.flatMap_append, ← hr.events_eq, hr'.events_eq]
    refine congrArg (events ++ ·) (List.flatMap_congr fun l hl => ?_)
    exact hsame l (List.mem_reverse.mp hl)
  case total_eq =>
    rw [List.flatten_append, List.map_append, List.sum_append, ← hr.total_eq, ← hr'.total_eq,
      Nat.add_comm]

/-- An acquire. -/
theorem acquire (hr : Released D h₀ h Cs held alive freed orders events total)
    (hi : Immutables D h' alive (o :: held)) (ho : o ∈ alive.flatten)
    (hsame : ∀ u ∉ alive.flatten, h.getClass u ≠ some .sccPtr → h' u = h u) :
    Released D h₀ h' Cs (o :: held) alive freed orders events total := by
  have hgone : ∀ E ∈ freed, ∀ u ∈ E, u ∉ alive.flatten := fun E hE u huE hu =>
    ne_none hr.immutables hu (hr.gone E hE u huE)
  refine { hr with immutables := hi, zero := fun C hC => ?_, gone := fun C hC u hu => ?_,
                   outside := fun u hu hc => ?_ }
  · rw [references_cons, count_cons_of_not fun henters => hgone C hC o henters.1 ho]
    exact hr.zero C hC
  · have hnone := hr.gone C hC u hu
    rw [hsame u (hgone C hC u hu) (by rw [getClass, hnone]; decide), hnone]
  · have hword := hr.outside u hu hc
    rw [hsame u (fun hmem => hu (hr.subset hmem)) (by rw [(reads_eq hword).1]; exact hc), hword]

end Released

/-! ## Runs -/

/-- The references that a run leaves. -/
def heldAfter (held : List ObjAddr) (actions : List Action) : List ObjAddr :=
  actions.foldl Action.held held

/-- A step of a run. -/
theorem Released.step {action : Action} {actions : List Action}
    (hr : Released D h₀ h Cs held alive freed orders events total) (hCs : Components D.fields Cs)
    (hfuel : 2 ^ 64 ≤ fuel) (hl : Legal D Cs held (action :: actions)) :
    ∃ s alive' freed' orders', action.apply D fuel ⟨h, events, total⟩ = some s ∧
      Released D h₀ s.heap Cs (action.held held) alive' freed' orders' s.events s.total ∧
      Legal D Cs (action.held held) actions := by
  cases action with
  | acquire o =>
    obtain ⟨hreached, hbound, hl⟩ := hl
    have ho := (hr.mem_alive_iff hCs).mpr hreached
    have hle : (references D.fields (o :: held) alive.flatten).length ≤
        (references D.fields (o :: held) Cs.flatten).length := by
      have hsub : alive.flatten.Sublist (alive ++ freed).flatten := by
        rw [List.flatten_append]
        exact List.sublist_append_left ..
      have hle := (hsub.flatMap fun x => (D.fields x).map (Prod.mk (some x))).length_le
      have heq := (hr.perm.flatten.flatMap_right fun x => (D.fields x).map (Prod.mk (some x))).length_eq
      rw [references, references, List.length_append, List.length_append, PathSearch.sourced,
        PathSearch.sourced]
      omega
    obtain ⟨h₁, hacquire, hi, hsame⟩ := acquire_total hr.immutables hfuel ho (hle.trans_lt hbound)
    exact ⟨⟨h₁, events, total⟩, alive, freed, orders, by rw [Action.apply, hacquire]; rfl,
      hr.acquire hi ho hsame, hl⟩
  | release o =>
    obtain ⟨ho, hl⟩ := hl
    obtain ⟨h₁, events₁, total₁, alive₁, freed₁, orders₁, hrelease, hr₁⟩ :=
      release_total hr.immutables hfuel ho
    exact ⟨⟨h₁, events ++ events₁, total + total₁⟩, alive₁, freed₁ ++ freed, orders₁ ++ orders,
      by rw [Action.apply, hrelease]; rfl, hr.andThen hr₁, hl⟩

/-- A run. -/
theorem Released.run {actions : List Action}
    (hr : Released D h₀ h Cs held alive freed orders events total) (hCs : Components D.fields Cs)
    (hfuel : 2 ^ 64 ≤ fuel) (hl : Legal D Cs held actions) :
    ∃ s alive' freed' orders', run D fuel ⟨h, events, total⟩ actions = some s ∧
      Released D h₀ s.heap Cs (heldAfter held actions) alive' freed' orders' s.events s.total := by
  induction actions generalizing h held alive freed orders events total with
  | nil => exact ⟨_, alive, freed, orders, rfl, hr⟩
  | cons action actions ih =>
    obtain ⟨s, alive₁, freed₁, orders₁, happly, hr₁, hl₁⟩ := hr.step hCs hfuel hl
    obtain ⟨s', alive', freed', orders', hrun, hr'⟩ := ih hr₁ hl₁
    refine ⟨s', alive', freed', orders', ?_, hr'⟩
    rw [Immutable.run, List.foldlM_cons, happly]
    exact hrun

end

/-! ## A ring and a reference to it -/

section

variable {D : Descriptors} {h : ObjectHeap} {Cs : List (List ObjAddr)} {held : List ObjAddr} {fuel : ℕ}

end

end VeronaRt.Immutable
