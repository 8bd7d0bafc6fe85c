import VeronaFs.Runtime.Mpmcq

/-!
# Nothing old

`nothing_old` loads `back` and then `front` of a queue that changes in between, and compares them.  The
comment promises that all nodes that were enqueued before the call have been dequeued when it returns
true, except for the token.  So they have, but for one: the node that was at the back.  It need not be the
token, since a call of `dequeue` may take the token while `nothing_old` runs; then the node at the back
comes to the front and stays in the queue.
-/

namespace VeronaRt.Mpmcq

open Foundation

/-- `nothing_old`, with the queue when `back` is loaded and the queue when `front` is. -/
def nothingOld (atBack atFront : Queue) : Bool := atBack.back = atFront.front

/-- A call of `nothing_old` in a run: it begins, it loads `back`, and it loads `front` and returns. -/
structure Observes (weak : ℕ → Bool) (token : ℕ) (tr₀ tr₁ tr₂ : List (Deque.Op ℕ))
    (c₀ c₁ c₂ : Calls.Config Queue Pc) : Prop where
  /-- The run until the call begins. -/
  begins : (calls weak).Run (init token) tr₀ c₀
  /-- The run until `back` is loaded. -/
  loadsBack : (calls weak).Run c₀ tr₁ c₁
  /-- The run until `front` is loaded. -/
  loadsFront : (calls weak).Run c₁ tr₂ c₂

/-- The node is in the queue, and the call that inserted it has linked it. -/
def Inserted (token : ℕ) (tr : List (Deque.Op ℕ)) (c : Calls.Config Queue Pc) (node : ℕ) : Prop :=
  node ∈ inside token tr ∧ ∀ p ∈ c.calls, ¬ p.Links node

variable {weak : ℕ → Bool} {token : ℕ} {tr₀ tr₁ tr₂ : List (Deque.Op ℕ)}
  {c₀ c₁ c₂ : Calls.Config Queue Pc}

namespace Observes

/-- The nodes in the queue when the call begins, when it loads `back` and when it loads `front`. -/
theorem histories (h : Observes weak token tr₀ tr₁ tr₂ c₀ c₁ c₂) :
    ∃ l₀ l₁ l₂, Deque.History [token] tr₀ l₀ ∧ Deque.History l₀ tr₁ l₁ ∧ Deque.History l₁ tr₂ l₂ ∧
      l₁.Nodup ∧ l₁.getLast? = some c₁.state.back ∧ l₂.head? = some c₂.state.front := by
  obtain ⟨l₂, hhistory₂, hholds₂⟩ := inv_of_run ((h.begins.append h.loadsBack).append h.loadsFront)
  obtain ⟨l₁, hhistory₁, hholds₁⟩ := inv_of_run (h.begins.append h.loadsBack)
  obtain ⟨l₁', hto₁, htr₂⟩ := Deque.history_append.mp hhistory₂
  obtain rfl := hto₁.eq hhistory₁
  obtain ⟨l₀, htr₀, htr₁⟩ := Deque.history_append.mp hhistory₁
  exact ⟨l₀, l₁', l₂, htr₀, htr₁, htr₂, hholds₁.nodup, hholds₁.back_eq, hholds₂.front_eq⟩

/-- When the call returns true, every node but the one at the back has been dequeued. -/
theorem popped_of_ne (h : Observes weak token tr₀ tr₁ tr₂ c₀ c₁ c₂)
    (htrue : nothingOld c₁.state c₂.state = true) {node : ℕ} (hnode : node ∈ inside token tr₀)
    (hne : node ≠ c₁.state.back) : .pop node ∈ tr₁ ++ tr₂ := by
  obtain ⟨l₀, l₁, l₂, htr₀, htr₁, htr₂, hnodup, hlast, hfirst⟩ := h.histories
  have hsame : c₁.state.back = c₂.state.front := of_decide_eq_true htrue
  rw [← hsame] at hfirst
  by_contra hno
  rw [List.mem_append, not_or] at hno
  have hmem : node ∈ l₁ := htr₁.mem ((mem_inside_iff htr₀ node).mp hnode) hno.1
  exact hno.2 (htr₂.popped_of_before hnodup (before_getLast hmem hlast hne) hfirst)

/-- When the call returns true and the token was in the queue between the loads, the token was at the
back. -/
theorem back_eq_token (h : Observes weak token tr₀ tr₁ tr₂ c₀ c₁ c₂)
    (htrue : nothingOld c₁.state c₂.state = true) (htoken : token ∈ inside token (tr₀ ++ tr₁))
    (hkept : .pop token ∉ tr₂) : c₁.state.back = token := by
  obtain ⟨l₀, l₁, l₂, htr₀, htr₁, htr₂, hnodup, hlast, hfirst⟩ := h.histories
  have hsame : c₁.state.back = c₂.state.front := of_decide_eq_true htrue
  rw [← hsame] at hfirst
  by_contra hne
  have hmem : token ∈ l₁ := (mem_inside_iff (Deque.history_append.mpr ⟨l₀, htr₀, htr₁⟩) token).mp htoken
  exact hkept (htr₂.popped_of_before hnodup (before_getLast hmem hlast (Ne.symm hne)) hfirst)

end Observes

/-- When `nothing_old` returns true, all nodes other than the token that were inserted before it began
have been dequeued, exactly if this is so of the node that was at the back: it is the token, or it was not
yet inserted, or it has been dequeued since.  It is the token if the token is in the queue when `back` is
loaded and is not dequeued before `front` is. -/
theorem nothingOld_popped_iff (h : Observes weak token tr₀ tr₁ tr₂ c₀ c₁ c₂)
    (htrue : nothingOld c₁.state c₂.state = true) :
    ((∀ node ≠ token, Inserted token tr₀ c₀ node → .pop node ∈ tr₁ ++ tr₂) ↔
      c₁.state.back = token ∨ ¬ Inserted token tr₀ c₀ c₁.state.back ∨
        .pop c₁.state.back ∈ tr₁ ++ tr₂) ∧
    (token ∈ inside token (tr₀ ++ tr₁) → .pop token ∉ tr₂ → c₁.state.back = token) := by
  refine ⟨⟨fun hall => ?_, fun hcond node hnode hinserted => ?_⟩, h.back_eq_token htrue⟩
  · by_contra hno
    push Not at hno
    exact hno.2.2 (hall c₁.state.back hno.1 hno.2.1)
  · rcases eq_or_ne node c₁.state.back with rfl | hne
    · rcases hcond with htoken | hnot | hpopped
      · exact absurd htoken hnode
      · exact absurd hinserted hnot
      · exact hpopped
    · exact h.popped_of_ne htrue hinserted.1 hne

/-! ## Runs -/

/-- No store-conditional fails for no reason. -/
def strong : ℕ → Bool := fun _ => false

/-- The theorem at a queue from which the only node is dequeued between the loads. -/
theorem nothingOld_popped_front : ∃ c₀ c₂, Observes strong 0 [.pushFront 1] [] [.pop 1] c₀ c₀ c₂ ∧
    nothingOld c₀.state c₂.state = true ∧ .pop 1 ∈ [] ++ [Deque.Op.pop 1] := by
  have hrun : (calls strong).Run (init 0) [] ⟨(init 0).state, 0⟩ := .nil
  have howned : (calls strong).starts (init 0).state (.frontRead 1)
      { (init 0).state with owned := Function.update (init 0).state.owned 1 false } := ⟨rfl, rfl⟩
  have henqueue := (((hrun.start howned).next rfl).next rfl).return rfl
  have hread (q : Queue) : (calls strong).starts q .dequeueRead q := rfl
  have hhere {tr : List (Deque.Op ℕ)} {c : Calls.Config Queue Pc} (_ : (calls strong).Run (init 0) tr c) :
      (calls strong).Run c [] c := .nil
  have hdequeue := (((((hhere henqueue).start (hread _)).next rfl).next rfl).next rfl).return rfl
  have hobserves : Observes strong 0 [.pushFront 1] [] [.pop 1] _ _ _ := ⟨henqueue, .nil, hdequeue⟩
  refine ⟨_, _, hobserves, rfl, ?_⟩
  refine ((nothingOld_popped_iff hobserves rfl).1.mpr (Or.inl rfl)) 1 (by decide) ⟨by decide, ?_⟩
  exact fun p hp => absurd hp (Multiset.notMem_zero p)

/-- The token is dequeued between the loads, and the node behind it stays. -/
theorem nothingOld_token_popped : ∃ c₀ c₂, Observes strong 0 [.pushBack 1] [] [.pop 0] c₀ c₀ c₂ ∧
    Linked c₀.state c₀.state.front 0 ∧ nothingOld c₀.state c₂.state = true ∧
      Inserted 0 [.pushBack 1] c₀ 1 ∧ .pop 1 ∉ [] ++ [Deque.Op.pop 0] := by
  have hrun : (calls strong).Run (init 0) [] ⟨(init 0).state, 0⟩ := .nil
  have howned : (calls strong).starts (init 0).state (.enqueueNull 1)
      { (init 0).state with owned := Function.update (init 0).state.owned 1 false } := ⟨rfl, rfl⟩
  have henqueue := ((((hrun.start howned).next rfl).next rfl).next rfl).return rfl
  have hread (q : Queue) : (calls strong).starts q .dequeueRead q := rfl
  have hhere {tr : List (Deque.Op ℕ)} {c : Calls.Config Queue Pc} (_ : (calls strong).Run (init 0) tr c) :
      (calls strong).Run c [] c := .nil
  have hdequeue := (((((hhere henqueue).start (hread _)).next rfl).next rfl).next rfl).return rfl
  refine ⟨_, _, ⟨henqueue, .nil, hdequeue⟩, .refl, rfl, ⟨by decide, ?_⟩, by decide⟩
  exact fun p hp => absurd hp (Multiset.notMem_zero p)

end VeronaRt.Mpmcq
