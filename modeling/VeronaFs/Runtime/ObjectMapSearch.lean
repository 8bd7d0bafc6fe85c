import Mathlib.Data.List.Nodup
import Mathlib.Data.List.Range
import VeronaFs.Runtime.ObjectMap

/-!
# Iteration and search in an object map

An iterator visits the occupied slots in their order.  In a well-formed map a search finds the slot of
every key that is there, since no entry is further from the slot of its hash than the bound.
-/

namespace VeronaRt.ObjectMap

variable {K V : Type*} {H : Hashing K} {m : ObjectMap K V} {i j k index fuel : ℕ} {key : K}
  {e : Entry K V}

/-! ## Slots -/

/-- There is a slot. -/
theorem capacity_pos (m : ObjectMap K V) : 0 < m.capacity := Nat.two_pow_pos _

/-- The slot behind another one, in a circle. -/
theorem following_eq (hi : i < m.capacity) : m.following i = (i + 1) % m.capacity := by
  rw [following]
  split
  · next h => rw [h, Nat.mod_self]
  · exact (Nat.mod_eq_of_lt (by omega)).symm

/-- The slot behind another one is a slot. -/
theorem following_lt (hi : i < m.capacity) : m.following i < m.capacity := by
  rw [following_eq hi]
  exact Nat.mod_lt _ m.capacity_pos

/-- The slot at a distance from the one behind. -/
theorem following_add (hi : i < m.capacity) (t : ℕ) :
    (m.following i + t) % m.capacity = (i + (t + 1)) % m.capacity := by
  rw [following_eq hi, Nat.mod_add_mod]
  congr 1
  omega

/-- The slot of the hash is a slot. -/
theorem home_lt (H : Hashing K) (m : ObjectMap K V) (key : K) : m.home H key < m.capacity :=
  Nat.mod_lt _ m.capacity_pos

/-- An occupied slot. -/
theorem mem_occupied : i ∈ m.occupied ↔ ∃ e, m.Stores i e := by
  rw [occupied, Finset.mem_filter, Finset.mem_range, Option.isSome_iff_exists]
  simp only [Stores, exists_and_left]

/-! ## Iteration -/

/-- An increment leads to the next occupied slot, or behind the last one. -/
theorem advance_spec (hfuel : m.capacity ≤ index + fuel) (hindex : index < m.capacity) :
    index < m.advance fuel index ∧ m.advance fuel index ≤ m.capacity ∧
    (∀ k, index < k → k < m.advance fuel index → k ∉ m.occupied) ∧
    (m.advance fuel index < m.capacity → m.advance fuel index ∈ m.occupied) := by
  induction fuel generalizing index with
  | zero => omega
  | succ fuel ih =>
    rw [advance]
    split
    · next hlt =>
      split
      · next hsome =>
        refine ⟨by omega, by omega, fun k hk hk' => by omega, fun _ => ?_⟩
        exact Finset.mem_filter.mpr ⟨Finset.mem_range.mpr hlt, hsome⟩
      · next hnone =>
        obtain ⟨hgt, hle, hskip, hocc⟩ := ih (by omega) hlt
        refine ⟨by omega, hle, fun k hk hk' => ?_, hocc⟩
        rcases Nat.lt_or_ge (index + 1) k with hk₁ | hk₁
        · exact hskip k hk₁ hk'
        · obtain rfl : k = index + 1 := by omega
          exact fun hmem => hnone (Finset.mem_filter.mp hmem).2
    · exact ⟨by omega, by omega, fun k hk hk' => by omega, fun h => by omega⟩

/-- The slots that are visited from an occupied one on. -/
theorem visitsFrom_spec (hfuel : m.capacity < index + fuel) (hle : index ≤ m.capacity)
    (hocc : index < m.capacity → index ∈ m.occupied) :
    (m.visitsFrom fuel index).Nodup ∧
      ∀ i, i ∈ m.visitsFrom fuel index ↔ index ≤ i ∧ i ∈ m.occupied := by
  induction fuel generalizing index with
  | zero => omega
  | succ fuel ih =>
    rw [visitsFrom]
    split
    · next heq =>
      refine ⟨List.nodup_nil, fun i => iff_of_false List.not_mem_nil fun ⟨hi, hmem⟩ => ?_⟩
      have hlt := Finset.mem_range.mp (Finset.mem_filter.mp hmem).1
      omega
    · next hne =>
      have hlt : index < m.capacity := by omega
      obtain ⟨hgt, hle', hskip, hocc'⟩ :=
        advance_spec (show m.capacity ≤ index + m.capacity by omega) hlt
      obtain ⟨hnodup, hmem⟩ := ih (by omega) hle' hocc'
      refine ⟨List.nodup_cons.mpr ⟨fun h => ?_, hnodup⟩, fun i => ?_⟩
      · have hle := ((hmem index).mp h).1
        omega
      · rw [List.mem_cons, hmem]
        constructor
        · rintro (rfl | ⟨hi, hmem⟩)
          · exact ⟨le_rfl, hocc hlt⟩
          · exact ⟨by omega, hmem⟩
        · rintro ⟨hi, hmem⟩
          rcases Nat.lt_or_ge i (m.advance m.capacity index) with hlt' | hge
          · rcases hi.eq_or_lt with rfl | hi
            · exact Or.inl rfl
            · exact absurd hmem (hskip i hi hlt')
          · exact Or.inr ⟨hge, hmem⟩

/-- An iteration visits every occupied slot once. -/
theorem visits_spec (m : ObjectMap K V) :
    m.visits.Nodup ∧ ∀ i, i ∈ m.visits ↔ i ∈ m.occupied := by
  have hpos := m.capacity_pos
  have hbegin : m.begin ≤ m.capacity ∧ (m.begin < m.capacity → m.begin ∈ m.occupied) ∧
      ∀ k < m.begin, k ∉ m.occupied := by
    rw [begin]
    split
    · next hsome =>
      refine ⟨by omega, fun h => Finset.mem_filter.mpr ⟨Finset.mem_range.mpr h, hsome⟩,
        fun k hk => absurd hk (Nat.not_lt_zero k)⟩
    · next hnone =>
      obtain ⟨-, hle, hskip, hocc⟩ :=
        advance_spec (show m.capacity ≤ 0 + m.capacity by omega) hpos
      refine ⟨hle, hocc, fun k hk => ?_⟩
      rcases Nat.eq_zero_or_pos k with rfl | hk₀
      · exact fun hmem => hnone (Finset.mem_filter.mp hmem).2
      · exact hskip k hk₀ hk
  obtain ⟨hle, hocc, hskip⟩ := hbegin
  obtain ⟨hnodup, hmem⟩ :=
    visitsFrom_spec (show m.capacity < m.begin + (m.capacity + 1) by omega) hle hocc
  refine ⟨hnodup, fun i => ?_⟩
  rw [visits, hmem]
  refine and_iff_right_of_imp fun hi => ?_
  by_contra hlt
  exact hskip i (by omega) hi

/-- The number of visits is the number of occupied slots. -/
theorem length_visits (m : ObjectMap K V) : m.visits.length = m.occupied.card := by
  obtain ⟨hnodup, hmem⟩ := m.visits_spec
  rw [← List.toFinset_card_of_nodup hnodup]
  congr 1
  ext i
  rw [List.mem_toFinset, hmem]

/-! ## Search -/

section Search

variable [DecidableEq K]

/-- A slot that a search finds stores the key. -/
theorem findLoop_some (h : m.findLoop key fuel index = some i) (hindex : index < m.capacity) :
    i < m.capacity ∧ m.keyAt i = some key := by
  induction fuel generalizing index with
  | zero => cases h
  | succ fuel ih =>
    rw [findLoop] at h
    split at h
    · next hkey =>
      obtain rfl := Option.some.inj h
      exact ⟨hindex, hkey⟩
    · exact ih h (following_lt hindex)

/-- A search finds a key that is within its range. -/
theorem findLoop_isSome {t : ℕ} (ht : t < fuel) (hindex : index < m.capacity)
    (hkey : m.keyAt ((index + t) % m.capacity) = some key) :
    (m.findLoop key fuel index).isSome := by
  induction fuel generalizing index t with
  | zero => omega
  | succ fuel ih =>
    rw [findLoop]
    split
    · rfl
    · next hne =>
      cases t with
      | zero =>
        rw [Nat.add_zero, Nat.mod_eq_of_lt hindex] at hkey
        exact absurd hkey hne
      | succ t =>
        refine ih (Nat.lt_of_succ_lt_succ ht) (following_lt hindex) ?_
        rwa [following_add hindex]

/-- A search finds the slot of a key. -/
theorem find_some (h : m.find H key = some i) : ∃ e, m.Stores i e ∧ e.key = key := by
  obtain ⟨hlt, hkey⟩ := findLoop_some h (home_lt H m key)
  obtain ⟨e, he, hkey⟩ := Option.map_eq_some_iff.mp hkey
  exact ⟨e, ⟨hlt, he⟩, hkey⟩

/-- In a well-formed map a search finds a key exactly if it is there. -/
theorem WellFormed.find_isSome (h : WellFormed H m) : (m.find H key).isSome ↔ m.Mem key := by
  constructor
  · intro hsome
    obtain ⟨i, hi⟩ := Option.isSome_iff_exists.mp hsome
    obtain ⟨e, he⟩ := find_some hi
    exact ⟨i, e, he⟩
  · rintro ⟨i, e, he, rfl⟩
    refine findLoop_isSome (Nat.lt_succ_of_le (h.probe_le i e he)) (home_lt H m e.key) ?_
    rw [home, Nat.mod_add_mod, h.home_add i e he, keyAt, he.2]
    rfl

/-- In a well-formed map a search finds the slot of a key that is there. -/
theorem WellFormed.find_eq (h : WellFormed H m) (he : m.Stores i e) :
    m.find H e.key = some i := by
  obtain ⟨j, hj⟩ := Option.isSome_iff_exists.mp (h.find_isSome.mpr ⟨i, e, he, rfl⟩)
  obtain ⟨e', he', hkey⟩ := find_some hj
  rw [hj, h.distinct j i e' e he' he hkey]

end Search

end VeronaRt.ObjectMap
