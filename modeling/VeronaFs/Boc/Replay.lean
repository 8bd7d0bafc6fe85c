import VeronaFs.Boc.System

/-!
# Deferred effects

A pending behaviour that only updates the contents of its cowns can be read as an update that has
been issued and not yet carried out.  `replay` carries out, in scheduling order, all the updates a
list of pending behaviours holds for one cown.  Running a behaviour that no earlier one shares a
cown with does not change what is replayed (`replay_run`), whatever the order of execution: the
replayed contents of a cown depend on the order of scheduling alone.
-/

namespace Boc

variable {κ β ν : Type*}

/-- The contents of the cown `k` once the updates of the behaviours in `l` have been carried out,
oldest first. -/
def replay (update : β → κ → ν → ν) (l : List β) (k : κ) (v : ν) : ν :=
  l.foldl (fun v b => update b k v) v

variable {update : β → κ → ν → ν}

/-- Nothing is replayed for an empty list. -/
@[simp] theorem replay_nil (k : κ) (v : ν) : replay update [] k v = v := rfl

/-- The oldest behaviour is replayed first. -/
@[simp] theorem replay_cons (b : β) (l : List β) (k : κ) (v : ν) :
    replay update (b :: l) k v = replay update l k (update b k v) := rfl

/-- A list is replayed after the one before it. -/
@[simp] theorem replay_append (l₁ l₂ : List β) (k : κ) (v : ν) :
    replay update (l₁ ++ l₂) k v = replay update l₂ k (replay update l₁ k v) := by
  simp [replay, List.foldl_append]

/-- Behaviours that do not update `k` leave its contents. -/
theorem replay_eq_self {l : List β} {k : κ} (h : ∀ b ∈ l, ∀ v, update b k v = v) (v : ν) :
    replay update l k v = v := by
  induction l generalizing v with
  | nil => rfl
  | cons b l ih =>
    rw [replay_cons, h b List.mem_cons_self]
    exact ih (fun t ht => h t (List.mem_cons_of_mem _ ht)) v

/-- What every update in the list keeps is kept by the replay. -/
theorem replay_induction {P : ν → Prop} {l : List β} {k : κ}
    (h : ∀ b ∈ l, ∀ v, P v → P (update b k v)) {v : ν} (hv : P v) : P (replay update l k v) := by
  induction l generalizing v with
  | nil => exact hv
  | cons b l ih =>
    exact ih (fun t ht => h t (List.mem_cons_of_mem _ ht)) (h b List.mem_cons_self v hv)

/-- A behaviour updates at most the cowns it names. -/
def LocalUpdate (cowns : β → List κ) (update : β → κ → ν → ν) : Prop :=
  ∀ b k, k ∉ cowns b → ∀ v, update b k v = v

/-- Carrying out the update of a behaviour ahead of earlier ones that share no cown with it leaves
every replayed content as it was. -/
theorem replay_run {cowns : β → List κ} (hlocal : LocalUpdate cowns update) {pre post : List β}
    {b : β} (hfree : ∀ t ∈ pre, (cowns t).Disjoint (cowns b)) (k : κ) (v : ν) :
    replay update (pre ++ post) k (update b k v) = replay update (pre ++ b :: post) k v := by
  by_cases hk : k ∈ cowns b
  · have hpre : ∀ t ∈ pre, ∀ w, update t k w = w := fun t ht w =>
      hlocal t k (fun hkt => hfree t ht hkt hk) w
    simp only [replay_append, replay_cons, replay_eq_self hpre]
  · simp only [replay_append, replay_cons, hlocal b k hk]

/-! ## What a behaviour finds when its turn comes -/

/-- Every behaviour of the list finds contents with the property `P` when those before it have been
carried out. -/
def AtTurn (update : β → κ → ν → ν) (P : β → (κ → ν) → Prop) : List β → (κ → ν) → Prop
  | [], _ => True
  | b :: l, v => P b v ∧ AtTurn update P l fun k => update b k (v k)

/-- A property of the contents a behaviour finds that only looks at its own cowns. -/
def LocalProp (cowns : β → List κ) (P : β → (κ → ν) → Prop) : Prop :=
  ∀ b v v', (∀ k ∈ cowns b, v k = v' k) → P b v → P b v'

variable {P : β → (κ → ν) → Prop} {cowns : β → List κ}

/-- The second part of a list finds what the first part leaves. -/
theorem atTurn_append {l₁ l₂ : List β} {v : κ → ν} :
    AtTurn update P (l₁ ++ l₂) v ↔
      AtTurn update P l₁ v ∧ AtTurn update P l₂ fun k => replay update l₁ k (v k) := by
  induction l₁ generalizing v with
  | nil => simp [AtTurn]
  | cons b l ih => simp only [List.cons_append, AtTurn, ih, replay_cons, and_assoc]

/-- A property that holds of every contents holds at every turn. -/
theorem atTurn_of_forall {l : List β} (h : ∀ b ∈ l, ∀ v, P b v) (v : κ → ν) :
    AtTurn update P l v := by
  induction l generalizing v with
  | nil => trivial
  | cons b l ih =>
    exact ⟨h b List.mem_cons_self v, ih (fun t ht => h t (List.mem_cons_of_mem _ ht)) _⟩

/-- When nothing in the list updates, all find the same contents. -/
theorem atTurn_of_const {l : List β} {v : κ → ν} (hconst : ∀ b ∈ l, ∀ k w, update b k w = w)
    (h : ∀ b ∈ l, P b v) : AtTurn update P l v := by
  induction l with
  | nil => trivial
  | cons b l ih =>
    refine ⟨h b List.mem_cons_self, ?_⟩
    simp only [hconst b List.mem_cons_self]
    exact ih (fun t ht => hconst t (List.mem_cons_of_mem _ ht))
      fun t ht => h t (List.mem_cons_of_mem _ ht)

/-- Only the contents of the cowns named in the list matter. -/
theorem atTurn_congr (hlocal : LocalProp cowns P) {l : List β} {v v' : κ → ν}
    (h : ∀ b ∈ l, ∀ k ∈ cowns b, v k = v' k) (hv : AtTurn update P l v) :
    AtTurn update P l v' := by
  induction l generalizing v v' with
  | nil => trivial
  | cons b l ih =>
    refine ⟨hlocal b v v' (h b List.mem_cons_self) hv.1, ih ?_ hv.2⟩
    intro t ht k hk
    rw [h t (List.mem_cons_of_mem _ ht) k hk]

/-- Running a behaviour ahead of earlier ones that share no cown with it leaves what the others
find at their turn. -/
theorem atTurn_run (hupdate : LocalUpdate cowns update) (hlocal : LocalProp cowns P)
    {pre post : List β} {b : β} (hfree : ∀ t ∈ pre, (cowns t).Disjoint (cowns b)) {v : κ → ν}
    (hv : AtTurn update P (pre ++ b :: post) v) :
    AtTurn update P (pre ++ post) fun k => update b k (v k) := by
  induction pre generalizing v with
  | nil => exact hv.2
  | cons t pre ih =>
    have htb : (cowns t).Disjoint (cowns b) := hfree t List.mem_cons_self
    refine ⟨hlocal t v _ (fun k hk => ?_) hv.1, ?_⟩
    · exact (hupdate b k (fun hkb => htb hk hkb) _).symm
    · have hcomm : (fun k => update t k (update b k (v k))) =
          fun k => update b k (update t k (v k)) := by
        funext k
        by_cases hk : k ∈ cowns b
        · have hkt : k ∉ cowns t := fun hkt => htb hkt hk
          rw [hupdate t k hkt, hupdate t k hkt]
        · rw [hupdate b k hk, hupdate b k hk]
      rw [hcomm]
      exact ih (fun t' ht' => hfree t' (List.mem_cons_of_mem _ ht')) hv.2

/-- A behaviour that shares no cown with earlier ones finds now what it finds at its turn. -/
theorem atTurn_enabled (hupdate : LocalUpdate cowns update) (hlocal : LocalProp cowns P)
    {pre post : List β} {b : β} (hfree : ∀ t ∈ pre, (cowns t).Disjoint (cowns b)) {v : κ → ν}
    (hv : AtTurn update P (pre ++ b :: post) v) : P b v := by
  refine hlocal b _ v (fun k hk => ?_) (atTurn_append.mp hv).2.1
  exact replay_eq_self (fun t ht w => hupdate t k (fun hkt => hfree t ht hkt hk) w) _

end Boc
