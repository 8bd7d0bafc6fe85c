import Mathlib

/-!
# Ordered maps

`StdMap` is the ordered finite map behind `std::map` and, where no order is observed,
`std::unordered_map`: an extensional tree map over a lawful order.  Its operations are those of the
standard library (`insertIfNew` is `insert` and `emplace`, `insert` is `operator[] =`); this module
adds the reading lemmas with equality of keys in place of their comparison, the entries from a key
on, and counts and sums over all entries.
-/

namespace Foundation

/-- A finite map ordered by its keys. -/
abbrev StdMap (α : Type*) (β : Type*) [Ord α] := Std.ExtTreeMap α β compare

namespace StdMap

open Std

variable {α β γ : Type*} [Ord α] [TransOrd α] [LawfulEqOrd α] [DecidableEq α]

/-- Reading after an assignment. -/
theorem get?_insert (m : StdMap α β) (k a : α) (v : β) :
    (m.insert k v)[a]? = if k = a then some v else m[a]? := by
  simp only [ExtTreeMap.getElem?_insert, Std.compare_eq_iff_eq]

/-- Reading after the insertion of an entry that may exist already. -/
theorem get?_insertIfNew (m : StdMap α β) (k a : α) (v : β) :
    (m.insertIfNew k v)[a]? = if k = a ∧ m[k]? = none then some v else m[a]? := by
  rw [ExtTreeMap.getElem?_insertIfNew]
  simp only [Std.compare_eq_iff_eq, ← ExtTreeMap.isSome_getElem?_iff_mem]
  cases m[k]? <;> simp

/-- Reading after a removal. -/
theorem get?_erase (m : StdMap α β) (k a : α) :
    (m.erase k)[a]? = if k = a then none else m[a]? := by
  simp only [ExtTreeMap.getElem?_erase, Std.compare_eq_iff_eq]

/-- A map that has no entry for the key is not changed by its removal. -/
theorem erase_of_get?_eq_none {m : StdMap α β} {k : α} (h : m[k]? = none) : m.erase k = m := by
  refine ExtTreeMap.ext_getElem? fun a => ?_
  rw [get?_erase]
  split
  · next hka => rw [← hka, h]
  · rfl

/-- Inserting a new entry is assigning it. -/
theorem insertIfNew_of_get?_eq_none {m : StdMap α β} {k : α} (h : m[k]? = none) (v : β) :
    m.insertIfNew k v = m.insert k v := by
  refine ExtTreeMap.ext_getElem? fun a => ?_
  rw [get?_insertIfNew, get?_insert]
  simp [h]

/-- Inserting an entry under a key that exists changes nothing. -/
theorem insertIfNew_of_get?_eq_some {m : StdMap α β} {k : α} {w : β} (h : m[k]? = some w) (v : β) :
    m.insertIfNew k v = m := by
  refine ExtTreeMap.ext_getElem? fun a => ?_
  rw [get?_insertIfNew]
  simp [h]

/-! ## The entries from a key on -/

/-- The entries from the upper bound of `k` to the end, in order. -/
def afterKey [LT α] [DecidableLT α] (m : StdMap α β) (k : α) : List (α × β) :=
  m.toList.filter fun e => k < e.1

omit [DecidableEq α] in
/-- The entries after `k` are the entries with a larger key. -/
theorem mem_afterKey [LT α] [DecidableLT α] {m : StdMap α β} {k a : α} {v : β} :
    (a, v) ∈ afterKey m k ↔ k < a ∧ m[a]? = some v := by
  simp [afterKey, ExtTreeMap.mem_toList_iff_getElem?_eq_some, and_comm]

/-! ## Counts and sums over the entries -/

omit [DecidableEq α] [LawfulEqOrd α] in
/-- The entries of a map have no repetition. -/
theorem nodup_toList (m : StdMap α β) : m.toList.Nodup := by
  refine List.Pairwise.imp ?_ m.distinct_keys_toList
  rintro ⟨a, v⟩ ⟨b, w⟩ hab heq
  exact hab (by simp [(Prod.mk.inj heq).1])

/-- After an assignment the entries are the new one and those of the other keys. -/
theorem toList_insert_perm (m : StdMap α β) (k : α) (v : β) :
    (m.insert k v).toList.Perm ((k, v) :: (m.erase k).toList) := by
  refine (List.perm_ext_iff_of_nodup (nodup_toList _) ?_).mpr ?_
  · refine List.nodup_cons.mpr ⟨?_, nodup_toList _⟩
    simp [ExtTreeMap.mem_toList_iff_getElem?_eq_some]
  · rintro ⟨a, w⟩
    simp only [ExtTreeMap.mem_toList_iff_getElem?_eq_some, List.mem_cons, get?_insert, get?_erase,
      Prod.mk.injEq]
    by_cases hka : k = a
    · subst hka
      simp [eq_comm]
    · simp [hka, Ne.symm hka]

/-- A map with an entry for `k` has that entry and those of the other keys. -/
theorem toList_perm_erase {m : StdMap α β} {k : α} {v : β} (h : m[k]? = some v) :
    m.toList.Perm ((k, v) :: (m.erase k).toList) := by
  have hm : (m.erase k).insert k v = m := by
    refine ExtTreeMap.ext_getElem? fun a => ?_
    rw [get?_insert, get?_erase]
    by_cases hka : k = a
    · simp [← hka, h]
    · simp [hka]
  have hperm := toList_insert_perm (m.erase k) k v
  rwa [hm, erase_of_get?_eq_none (by rw [get?_erase]; simp)] at hperm

/-- The sum of `f` over all entries. -/
def sumOf (m : StdMap α β) (f : α → β → ℕ) : ℕ := (m.toList.map fun e => f e.1 e.2).sum

/-- The sum over all entries, with that of an existing key split off. -/
theorem sumOf_eq_add_erase {m : StdMap α β} {k : α} {v : β} (h : m[k]? = some v) (f : α → β → ℕ) :
    sumOf m f = f k v + sumOf (m.erase k) f := by
  simpa [sumOf] using ((toList_perm_erase h).map fun e => f e.1 e.2).sum_eq

/-- The sum over all entries after an assignment. -/
theorem sumOf_insert (m : StdMap α β) (k : α) (v : β) (f : α → β → ℕ) :
    sumOf (m.insert k v) f = f k v + sumOf (m.erase k) f := by
  simpa [sumOf] using ((toList_insert_perm m k v).map fun e => f e.1 e.2).sum_eq

omit [DecidableEq α] in
/-- The sum over all entries is zero exactly when every term is. -/
theorem sumOf_eq_zero_iff {m : StdMap α β} {f : α → β → ℕ} :
    sumOf m f = 0 ↔ ∀ k v, m[k]? = some v → f k v = 0 := by
  simp only [sumOf, List.sum_eq_zero_iff, List.mem_map, Prod.exists, forall_exists_index, and_imp,
    ExtTreeMap.mem_toList_iff_getElem?_eq_some]
  exact ⟨fun h k v hkv => h _ k v hkv rfl, fun h _ k v hkv hn => hn ▸ h k v hkv⟩

/-- Each term is at most the sum. -/
theorem le_sumOf {m : StdMap α β} {k : α} {v : β} (h : m[k]? = some v) (f : α → β → ℕ) :
    f k v ≤ sumOf m f := by
  rw [sumOf_eq_add_erase h]
  exact Nat.le_add_right _ _

end StdMap

end Foundation
