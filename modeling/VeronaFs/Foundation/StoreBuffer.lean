import Mathlib.Data.List.Basic

/-!
# Store buffers

The stores of a thread reach the memory in their order, but later.  Until then the thread itself reads
them and other threads do not.  A store is anything that changes the memory: `write` says how.
-/

namespace Foundation

/-- A memory with the stores of a thread that are still to reach it, the oldest first. -/
structure StoreBuffer (σ α : Type*) where
  /-- What other threads read. -/
  memory : σ
  /-- The stores that are still to reach the memory. -/
  pending : List α
deriving DecidableEq, Repr

namespace StoreBuffer

variable {σ α : Type*} (write : σ → α → σ) {b b' : StoreBuffer σ α} {a : α}

/-- What the thread itself reads. -/
def view (b : StoreBuffer σ α) : σ := b.pending.foldl write b.memory

/-- The thread makes a store. -/
def store (b : StoreBuffer σ α) (a : α) : StoreBuffer σ α := { b with pending := b.pending ++ [a] }

/-- The oldest store reaches the memory. -/
def drain (b : StoreBuffer σ α) : Option (StoreBuffer σ α) :=
  match b.pending with
  | [] => none
  | a :: pending => some ⟨write b.memory a, pending⟩

/-- All stores reach the memory. -/
def flush (b : StoreBuffer σ α) : StoreBuffer σ α := ⟨b.view write, []⟩

/-- Another thread makes a store. -/
def put (b : StoreBuffer σ α) (a : α) : StoreBuffer σ α := { b with memory := write b.memory a }

variable {write}

/-- The thread reads what it stored. -/
@[simp] theorem view_store : (b.store a).view write = write (b.view write) a := by
  simp only [view, store, List.foldl_append, List.foldl_cons, List.foldl_nil]

/-- The thread reads the same when its stores have reached the memory. -/
@[simp] theorem view_flush : (b.flush write).view write = b.view write := rfl

/-- The thread reads the same when its oldest store reaches the memory. -/
theorem view_drain (h : b.drain write = some b') : b'.view write = b.view write := by
  obtain ⟨memory, pending⟩ := b
  cases pending with
  | nil => cases h
  | cons a pending =>
    obtain rfl := Option.some.inj h
    rfl

/-- The oldest store is written and no longer pending. -/
theorem drain_some (h : b.drain write = some b') :
    ∃ a, b.pending = a :: b'.pending ∧ b'.memory = write b.memory a := by
  obtain ⟨memory, pending⟩ := b
  cases pending with
  | nil => cases h
  | cons a pending =>
    obtain rfl := Option.some.inj h
    exact ⟨a, rfl, rfl⟩

/-- What no pending store changes is the same for the thread as for others. -/
theorem view_congr {β : Type*} {f : σ → β} (h : ∀ a ∈ b.pending, ∀ s, f (write s a) = f s) :
    f (b.view write) = f b.memory := by
  obtain ⟨memory, pending⟩ := b
  induction pending generalizing memory with
  | nil => rfl
  | cons a pending ih =>
    have hrest := ih (write memory a) fun a' ha' => h a' (List.mem_cons_of_mem a ha')
    exact hrest.trans (h a List.mem_cons_self memory)

/-- What a store of another thread does not change the thread reads as before. -/
theorem view_put {β : Type*} {f : σ → β}
    (h : ∀ s s' : σ, f s = f s' → ∀ a' ∈ b.pending, f (write s a') = f (write s' a'))
    (ha : f (write b.memory a) = f b.memory) : f ((b.put write a).view write) = f (b.view write) := by
  obtain ⟨memory, pending⟩ := b
  have hfold (l : List α) (hl : l ⊆ pending) (s s' : σ) (hs : f s = f s') :
      f (l.foldl write s) = f (l.foldl write s') := by
    induction l generalizing s s' with
    | nil => exact hs
    | cons a' l ih =>
      rw [List.foldl_cons, List.foldl_cons]
      exact ih (fun x hx => hl (List.mem_cons_of_mem a' hx)) _ _
        (h s s' hs a' (hl List.mem_cons_self))
  exact hfold pending (List.Subset.refl pending) _ _ ha

end StoreBuffer

end Foundation
