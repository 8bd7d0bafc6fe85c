import VeronaFs.Runtime.ObjectMapSearch

/-!
# Insertion of a new key

The loop of `insert` carries an entry that is in no slot: the new one, or one that had to make way.
It stops at an empty slot, of which there is one before it comes back to where it started, or it runs
out of probe indices, and then the carried entry is inserted after a resize.  All the entries of a
well-formed map stay, and the new one is added.
-/

namespace VeronaRt.ObjectMap

variable {K V : Type*} {H : Hashing K} {m m' : ObjectMap K V} {i j k index fuel probeLen : ℕ}
  {key : K} {e e' entry : Entry K V} {iterIndex : Option ℕ}

/-! ## Placing an entry -/

/-- The number of slots is that before. -/
@[simp] theorem capacity_placeEntry :
    (m.placeEntry entry index probeLen).capacity = m.capacity := rfl

/-- The entries after one was placed. -/
theorem stores_placeEntry (hindex : index < m.capacity) :
    (m.placeEntry entry index probeLen).Stores i e ↔
      i = index ∧ e = { entry with probe := probeLen } ∨ i ≠ index ∧ m.Stores i e := by
  rw [Stores, placeEntry, Stores]
  simp only [Function.update_apply]
  rcases eq_or_ne i index with rfl | hi
  · simp only [if_pos, Option.some.injEq, true_and, ne_eq, not_true_eq_false, false_and, or_false]
    exact ⟨fun h => h.2.symm, fun h => ⟨hindex, h.symm⟩⟩
  · simp only [hi, false_and, ne_eq, not_false_eq_true, true_and, false_or]
    rfl

/-- The occupied slots after an entry was placed. -/
theorem occupied_placeEntry (hindex : index < m.capacity) :
    (m.placeEntry entry index probeLen).occupied = Insert.insert index m.occupied := by
  ext i
  rw [Finset.mem_insert, mem_occupied, mem_occupied]
  simp only [stores_placeEntry hindex]
  rcases eq_or_ne i index with rfl | hi
  · simp
  · simp [hi]

/-- The pairs in the map after an entry was placed. -/
theorem has_placeEntry (hindex : index < m.capacity) {v : V} :
    (m.placeEntry entry index probeLen).Has key v ↔ (entry.key = key ∧ entry.value = v) ∨
      ∃ i e, i ≠ index ∧ m.Stores i e ∧ e.key = key ∧ e.value = v := by
  simp only [Has, stores_placeEntry hindex]
  constructor
  · rintro ⟨i, e, ⟨rfl, rfl⟩ | ⟨hi, he⟩, hkey, hvalue⟩
    · exact Or.inl ⟨hkey, hvalue⟩
    · exact Or.inr ⟨i, e, hi, he, hkey, hvalue⟩
  · rintro (⟨hkey, hvalue⟩ | ⟨i, e, hi, he, hkey, hvalue⟩)
    · exact ⟨index, _, Or.inl ⟨rfl, rfl⟩, hkey, hvalue⟩
    · exact ⟨i, e, Or.inr ⟨hi, he⟩, hkey, hvalue⟩

/-- A well-formed map has its entries at their distances. -/
theorem WellFormed.placed (h : WellFormed H m) : Placed H m :=
  ⟨h.home_add, h.probe_le, h.probe_le_mask, h.filled_eq⟩

/-- The entries stay at their distances when one is placed at its own. -/
theorem Placed.placeEntry {n : ℕ} (h : Placed H m) (hindex : index < m.capacity)
    (hhome : (H.hash entry.key + probeLen) % m.capacity = index) (hmask : probeLen ≤ H.probeMask)
    (hn : n = (m.placeEntry entry index probeLen).occupied.card) :
    Placed H { m.placeEntry entry index probeLen with filledSlots := n } := by
  have hstores {i : ℕ} {e : Entry K V}
      (he : Stores { m.placeEntry entry index probeLen with filledSlots := n } i e) :
      i = index ∧ e = { entry with probe := probeLen } ∨ i ≠ index ∧ m.Stores i e :=
    (stores_placeEntry hindex).mp he
  refine ⟨fun i e he => ?_, fun i e he => ?_, fun i e he => ?_, hn⟩
  · rcases hstores he with ⟨rfl, rfl⟩ | ⟨hi, he⟩
    · exact hhome
    · exact h.home_add i e he
  · change e.probe ≤ if m.longestProbe < probeLen then probeLen else m.longestProbe
    rcases hstores he with ⟨rfl, rfl⟩ | ⟨hi, he⟩
    · change probeLen ≤ _
      split <;> omega
    · have hle := h.probe_le i e he
      split <;> omega
  · rcases hstores he with ⟨rfl, rfl⟩ | ⟨hi, he⟩
    · exact hmask
    · exact h.probe_le_mask i e he

/-- A map stays well formed when an entry is placed at its distance from the slot of its hash. -/
theorem WellFormed.placeEntry {n : ℕ} (h : WellFormed H m) (hindex : index < m.capacity)
    (habsent : ∀ i e, i ≠ index → m.Stores i e → e.key ≠ entry.key)
    (hhome : (H.hash entry.key + probeLen) % m.capacity = index) (hmask : probeLen ≤ H.probeMask)
    (hmarked : entry.marked = false)
    (hn : n = (m.placeEntry entry index probeLen).occupied.card) :
    WellFormed H { m.placeEntry entry index probeLen with filledSlots := n } := by
  have hstores {i : ℕ} {e : Entry K V}
      (he : Stores { m.placeEntry entry index probeLen with filledSlots := n } i e) :
      i = index ∧ e = { entry with probe := probeLen } ∨ i ≠ index ∧ m.Stores i e :=
    (stores_placeEntry hindex).mp he
  obtain ⟨hhome', hprobe, hmask', hfilled⟩ := h.placed.placeEntry hindex hhome hmask hn
  refine ⟨fun i j e e' he he' hkey => ?_, hhome', hprobe, hmask', fun i e he => ?_, hfilled⟩
  · rcases hstores he with ⟨hi, hei⟩ | ⟨hi, hei⟩ <;> rcases hstores he' with ⟨hj, hej⟩ | ⟨hj, hej⟩
    · exact hi.trans hj.symm
    · exact absurd (hkey.symm.trans (congrArg Entry.key hei)) (habsent j e' hj hej)
    · exact absurd (hkey.trans (congrArg Entry.key hej)) (habsent i e hi hei)
    · exact h.distinct i j e e' hei hej hkey
  · rcases hstores he with ⟨rfl, rfl⟩ | ⟨hi, he⟩
    · exact hmarked
    · exact h.unmarked i e he

/-! ## The loop -/

/-- The loop carries an entry that is in no slot: there is an empty slot ahead, and the new key, once
it is placed, is behind. -/
structure Carrying (H : Hashing K) (key : K) (m : ObjectMap K V) (entry : Entry K V)
    (index probeLen : ℕ) (iterIndex : Option ℕ) (fuel : ℕ) : Prop where
  /-- The map. -/
  wellFormed : WellFormed H m
  /-- The entry is in no slot. -/
  absent : ¬ m.Mem entry.key
  /-- The entry is not marked. -/
  unmarked : entry.marked = false
  /-- The slot is at its distance from the one of the hash. -/
  index_eq : (H.hash entry.key + probeLen) % m.capacity = index
  /-- The slots ahead are not yet visited. -/
  fuel_le : fuel ≤ m.capacity
  /-- One of them is empty. -/
  hole : ∃ t < fuel, m.slots ((index + t) % m.capacity) = none
  /-- The new key is carried, or it is in a slot that is not ahead. -/
  iter : iterIndex = none ∧ entry.key = key ∨ ∃ j, iterIndex = some j ∧
    (∃ e, m.Stores j e ∧ e.key = key) ∧ ∀ t < fuel, (index + t) % m.capacity ≠ j

/-- What the loop leaves of a map with `n` entries, when `C` are the pairs in it and the carried
one. -/
def Outcome.Keeps (H : Hashing K) (key : K) (C : K → V → Prop) (n shift : ℕ) : Outcome K V → Prop
  | .updated _ _ => False
  | .placed m i => WellFormed H m ∧ m.capacityShift = shift ∧ m.filledSlots = n + 1 ∧
    (∀ k v, m.Has k v ↔ C k v) ∧ ∃ e, m.Stores i e ∧ e.key = key
  | .exhausted m e => WellFormed H m ∧ m.capacityShift = shift ∧ m.filledSlots = n ∧ ¬ m.Mem e.key ∧
    e.marked = false ∧ ∀ k v, C k v ↔ m.Has k v ∨ e.key = k ∧ e.value = v

namespace Carrying

/-- The slot is one of the map. -/
theorem index_lt (h : Carrying H key m entry index probeLen iterIndex fuel) :
    index < m.capacity := by
  rw [← h.index_eq]
  exact Nat.mod_lt _ m.capacity_pos

/-- The slot is ahead. -/
theorem fuel_pos (h : Carrying H key m entry index probeLen iterIndex fuel) : 0 < fuel := by
  obtain ⟨t, ht, -⟩ := h.hole
  omega

/-- The slot of the new key is not ahead. -/
theorem iter_ne (h : Carrying H key m entry index probeLen iterIndex fuel) (hj : iterIndex = some j)
    {t : ℕ} (ht : t < fuel) : (index + t) % m.capacity ≠ j := by
  rcases h.iter with ⟨hnone, -⟩ | ⟨j', hj', -, hne⟩
  · rw [hnone] at hj
    cases hj
  · obtain rfl := Option.some.inj (hj.symm.trans hj')
    exact hne t ht

/-- The entry in the slot does not have the new key. -/
theorem key_ne (h : Carrying H key m entry index probeLen iterIndex fuel)
    (he : m.slots index = some e) : e.key ≠ key := by
  have hstores : m.Stores index e := ⟨h.index_lt, he⟩
  rcases h.iter with ⟨-, hkey⟩ | ⟨j, hj, ⟨e', he', hkey⟩, hne⟩
  · rw [← hkey]
    exact fun heq => h.absent ⟨index, e, hstores, heq⟩
  · intro heq
    have hsame := h.wellFormed.distinct index j e e' hstores he' (heq.trans hkey.symm)
    have hahead := hne 0 h.fuel_pos
    rw [Nat.add_zero, Nat.mod_eq_of_lt h.index_lt] at hahead
    exact hahead hsame

/-- An empty slot is filled. -/
theorem placed (h : Carrying H key m entry index probeLen iterIndex fuel)
    (hmask : probeLen ≤ H.probeMask) (hslot : m.slots index = none) :
    (Outcome.placed { m.placeEntry entry index probeLen with filledSlots := m.filledSlots + 1 }
      (iterIndex.getD index)).Keeps H key
      (fun k v => m.Has k v ∨ entry.key = k ∧ entry.value = v) m.filledSlots m.capacityShift := by
  have hlt := h.index_lt
  have hempty : index ∉ m.occupied := fun hmem => by
    obtain ⟨e, -, he⟩ := mem_occupied.mp hmem
    rw [hslot] at he
    cases he
  have hne {i : ℕ} {e : Entry K V} (he : m.Stores i e) : i ≠ index := fun hi =>
    hempty (hi ▸ mem_occupied.mpr ⟨e, he⟩)
  refine ⟨h.wellFormed.placeEntry hlt (fun i e _ he hkey => h.absent ⟨i, e, he, hkey⟩) h.index_eq
    hmask h.unmarked ?_, rfl, rfl, fun k v => ?_, ?_⟩
  · rw [occupied_placeEntry hlt, Finset.card_insert_of_notMem hempty, h.wellFormed.filled_eq]
  · refine (has_placeEntry hlt).trans ?_
    rw [or_comm]
    refine or_congr ⟨fun ⟨i, e, _, he⟩ => ⟨i, e, he⟩, fun ⟨i, e, he, hkv⟩ => ?_⟩ Iff.rfl
    exact ⟨i, e, hne he, he, hkv⟩
  · rcases h.iter with ⟨hnone, hkey⟩ | ⟨j, hj, ⟨e, he, hkey⟩, -⟩
    · rw [hnone]
      exact ⟨_, (stores_placeEntry hlt).mpr (Or.inl ⟨rfl, rfl⟩), hkey⟩
    · rw [hj]
      exact ⟨e, (stores_placeEntry hlt).mpr (Or.inr ⟨hne he, he⟩), hkey⟩

/-- The hole is still ahead behind an occupied slot. -/
theorem hole_following (h : Carrying H key m entry index probeLen iterIndex (fuel + 1))
    (hslot : m.slots index ≠ none) :
    ∃ t < fuel, m.slots ((m.following index + t) % m.capacity) = none := by
  obtain ⟨t, ht, hnone⟩ := h.hole
  cases t with
  | zero =>
    rw [Nat.add_zero, Nat.mod_eq_of_lt h.index_lt] at hnone
    exact absurd hnone hslot
  | succ t =>
    refine ⟨t, Nat.lt_of_succ_lt_succ ht, ?_⟩
    rwa [following_add h.index_lt]

/-- An occupied slot is passed. -/
theorem pass (h : Carrying H key m entry index probeLen iterIndex (fuel + 1))
    (hslot : m.slots index = some e) :
    Carrying H key m entry (m.following index) (probeLen + 1) iterIndex fuel where
  wellFormed := h.wellFormed
  absent := h.absent
  unmarked := h.unmarked
  index_eq := by
    rw [following_eq h.index_lt, ← h.index_eq, Nat.mod_add_mod, Nat.add_assoc]
  fuel_le := Nat.le_of_succ_le h.fuel_le
  hole := h.hole_following (by simp [hslot])
  iter := by
    refine h.iter.imp_right fun ⟨j, hj, he, hne⟩ => ⟨j, hj, he, fun t ht => ?_⟩
    rw [following_add h.index_lt]
    exact hne (t + 1) (Nat.succ_lt_succ ht)

/-- A slot ahead is another one. -/
theorem ahead_ne (h : Carrying H key m entry index probeLen iterIndex (fuel + 1)) {t : ℕ}
    (ht : t < fuel) : (index + (t + 1)) % m.capacity ≠ index := by
  have hlt := h.index_lt
  have hle := h.fuel_le
  rcases Nat.lt_or_ge (index + (t + 1)) m.capacity with hsmall | hbig
  · rw [Nat.mod_eq_of_lt hsmall]
    omega
  · rw [Nat.mod_eq_sub_mod hbig, Nat.mod_eq_of_lt (by omega)]
    omega

/-- The entry takes the slot of another one, which is carried from there. -/
theorem swap (h : Carrying H key m entry index probeLen iterIndex (fuel + 1))
    (hmask : probeLen ≤ H.probeMask) (hslot : m.slots index = some e) :
    Carrying H key (m.placeEntry entry index probeLen) e (m.following index) (e.probe + 1)
      (some (iterIndex.getD index)) fuel := by
  have hlt := h.index_lt
  have hstores : m.Stores index e := ⟨hlt, hslot⟩
  have hocc : index ∈ m.occupied := mem_occupied.mpr ⟨e, hstores⟩
  refine ⟨?_, ?_, h.wellFormed.unmarked index e hstores, ?_, Nat.le_of_succ_le h.fuel_le, ?_, ?_⟩
  · refine h.wellFormed.placeEntry hlt (fun i e _ he hkey => h.absent ⟨i, e, he, hkey⟩) h.index_eq
      hmask h.unmarked ?_
    rw [occupied_placeEntry hlt, Finset.insert_eq_of_mem hocc]
    exact h.wellFormed.filled_eq
  · rintro ⟨i, e', he', hkey⟩
    rcases (stores_placeEntry hlt).mp he' with ⟨-, rfl⟩ | ⟨hi, he'⟩
    · exact h.absent ⟨index, e, hstores, hkey.symm⟩
    · exact hi (h.wellFormed.distinct i index e' e he' hstores hkey)
  · rw [capacity_placeEntry, following_eq hlt, ← Nat.add_assoc, ← Nat.mod_add_mod,
      h.wellFormed.home_add index e hstores]
  · obtain ⟨t, ht, hnone⟩ := h.hole_following (by simp [hslot])
    refine ⟨t, ht, ?_⟩
    rw [following_add hlt] at hnone
    rw [capacity_placeEntry, following_add hlt, placeEntry]
    change Function.update m.slots index _ _ = none
    rw [Function.update_of_ne (h.ahead_ne ht)]
    exact hnone
  · right
    rcases h.iter with ⟨hnone, hkey⟩ | ⟨j, hj, ⟨e', he', hkey⟩, hne⟩
    · rw [hnone]
      refine ⟨index, rfl, ⟨_, (stores_placeEntry hlt).mpr (Or.inl ⟨rfl, rfl⟩), hkey⟩, fun t ht => ?_⟩
      rw [capacity_placeEntry, following_add hlt]
      exact h.ahead_ne ht
    · have hji : j ≠ index := fun hji => by
        have hahead := hne 0 (Nat.succ_pos fuel)
        rw [Nat.add_zero, Nat.mod_eq_of_lt hlt] at hahead
        exact hahead hji.symm
      rw [hj]
      refine ⟨j, rfl, ⟨e', (stores_placeEntry hlt).mpr (Or.inr ⟨hji, he'⟩), hkey⟩, fun t ht => ?_⟩
      rw [capacity_placeEntry, following_add hlt]
      exact hne (t + 1) (Nat.succ_lt_succ ht)

/-- The pairs in the map and the carried one are the same after a swap. -/
theorem has_swap (h : Carrying H key m entry index probeLen iterIndex fuel)
    (hslot : m.slots index = some e) (k : K) (v : V) :
    (m.placeEntry entry index probeLen).Has k v ∨ e.key = k ∧ e.value = v ↔
      m.Has k v ∨ entry.key = k ∧ entry.value = v := by
  rw [has_placeEntry h.index_lt]
  constructor
  · rintro ((hentry | ⟨i, e', -, he'⟩) | he)
    · exact Or.inr hentry
    · exact Or.inl ⟨i, e', he'⟩
    · exact Or.inl ⟨index, e, ⟨h.index_lt, hslot⟩, he⟩
  · rintro (⟨i, e', he', hkv⟩ | hentry)
    · rcases eq_or_ne i index with rfl | hi
      · obtain rfl := Option.some.inj (hslot.symm.trans he'.2)
        exact Or.inr hkv
      · exact Or.inl (Or.inr ⟨i, e', hi, he', hkv⟩)
    · exact Or.inl (Or.inl hentry)

end Carrying

/-- The loop inserts a key that is not in the map, or it stops with an entry to insert. -/
theorem insertLoop_spec [DecidableEq K]
    (h : Carrying H key m entry index probeLen iterIndex fuel) :
    ∃ o, insertLoop H key fuel m entry index probeLen iterIndex = some o ∧
      o.Keeps H key (fun k v => m.Has k v ∨ entry.key = k ∧ entry.value = v) m.filledSlots
        m.capacityShift := by
  induction fuel generalizing m entry index probeLen iterIndex with
  | zero => exact absurd h.fuel_pos (Nat.lt_irrefl 0)
  | succ fuel ih =>
    rw [insertLoop]
    by_cases hlong : H.probeMask < probeLen
    · rw [if_pos hlong]
      exact ⟨_, rfl, h.wellFormed, rfl, rfl, h.absent, h.unmarked, fun _ _ => Iff.rfl⟩
    · rw [if_neg hlong]
      cases hslot : m.slots index with
      | none =>
        simp only [h.unmarked, Bool.false_eq_true, if_false]
        exact ⟨_, rfl, h.placed (Nat.le_of_not_lt hlong) hslot⟩
      | some e =>
        simp only [if_neg (h.key_ne hslot)]
        by_cases hswap : e.probe < probeLen
        · rw [if_pos hswap]
          obtain ⟨o, ho, hkeeps⟩ := ih (h.swap (Nat.le_of_not_lt hlong) hslot)
          refine ⟨o, ho, ?_⟩
          simp only [h.has_swap hslot] at hkeeps
          exact hkeeps
        · rw [if_neg hswap]
          exact ih (h.pass hslot)

/-! ## The order of the probe indices -/

/-- An insertion of any key reaches its slot. -/
def RobinHood (H : Hashing K) (m : ObjectMap K V) : Prop := ∀ key, Reaches H m key

/-- The carried entry passed only slots whose entries do not have to make way. -/
def Passed (H : Hashing K) (m : ObjectMap K V) (key : K) (probeLen : ℕ) : Prop :=
  ∀ d < probeLen, ∃ e, m.slots ((H.hash key + d) % m.capacity) = some e ∧ d ≤ e.probe

/-- A slot that has passed stays passed when a larger probe index is placed somewhere. -/
theorem passed_placeEntry (h : Passed H m key probeLen)
    (hslot : ∀ e, m.slots index = some e → e.probe ≤ k) :
    Passed H (m.placeEntry entry index k) key probeLen := by
  intro d hd
  obtain ⟨e, he, hle⟩ := h d hd
  change ∃ e, Function.update m.slots index _ ((H.hash key + d) % m.capacity) = some e ∧ d ≤ e.probe
  rcases eq_or_ne ((H.hash key + d) % m.capacity) index with heq | hne
  · rw [heq, Function.update_self]
    rw [heq] at he
    exact ⟨_, rfl, hle.trans (hslot e he)⟩
  · rw [Function.update_of_ne hne]
    exact ⟨e, he, hle⟩

/-- Placing an entry keeps the order. -/
theorem RobinHood.placeEntry (h : RobinHood H m) (hindex : index < m.capacity)
    (hpassed : Passed H m entry.key probeLen)
    (hslot : ∀ e, m.slots index = some e → e.probe ≤ probeLen) :
    RobinHood H (m.placeEntry entry index probeLen) := by
  rintro key i e he rfl
  rcases (stores_placeEntry hindex).mp he with ⟨-, rfl⟩ | ⟨-, he⟩
  · exact passed_placeEntry hpassed hslot
  · exact passed_placeEntry (h e.key i e he rfl) hslot

/-- The loop keeps the order. -/
theorem insertLoop_robinHood [DecidableEq K] {o : Outcome K V}
    (h : Carrying H key m entry index probeLen iterIndex fuel) (hrobin : RobinHood H m)
    (hpassed : Passed H m entry.key probeLen)
    (ho : insertLoop H key fuel m entry index probeLen iterIndex = some o) :
    ∀ m' i, o = .placed m' i → RobinHood H m' := by
  induction fuel generalizing m entry index probeLen iterIndex with
  | zero => cases ho
  | succ fuel ih =>
    rw [insertLoop] at ho
    by_cases hlong : H.probeMask < probeLen
    · rw [if_pos hlong] at ho
      obtain rfl := Option.some.inj ho
      rintro m' i ⟨⟩
    · rw [if_neg hlong] at ho
      cases hslot : m.slots index with
      | none =>
        simp only [hslot, h.unmarked, Bool.false_eq_true, if_false] at ho
        obtain rfl := Option.some.inj ho
        rintro m' i ⟨⟩
        exact hrobin.placeEntry h.index_lt hpassed (by simp [hslot])
      | some e =>
        simp only [hslot, if_neg (h.key_ne hslot)] at ho
        by_cases hswap : e.probe < probeLen
        · rw [if_pos hswap] at ho
          have hle : ∀ e', m.slots index = some e' → e'.probe ≤ probeLen := fun e' he' => by
            obtain rfl := Option.some.inj (hslot.symm.trans he')
            exact hswap.le
          refine ih (h.swap (Nat.le_of_not_lt hlong) hslot) (hrobin.placeEntry h.index_lt hpassed hle)
            (fun d hd => ?_) ho
          rcases Nat.lt_or_ge d e.probe with hd' | hd'
          · exact passed_placeEntry (hrobin e.key index e ⟨h.index_lt, hslot⟩ rfl) hle d hd'
          · obtain rfl : d = e.probe := by omega
            refine ⟨{ entry with probe := probeLen }, ?_, hswap.le⟩
            rw [capacity_placeEntry, h.wellFormed.home_add index e ⟨h.index_lt, hslot⟩]
            exact Function.update_self ..
        · rw [if_neg hswap] at ho
          refine ih (h.pass hslot) hrobin (fun d hd => ?_) ho
          rcases Nat.lt_or_ge d probeLen with hd' | hd'
          · exact hpassed d hd'
          · obtain rfl : d = probeLen := by omega
            rw [h.index_eq]
            exact ⟨e, hslot, Nat.le_of_not_lt hswap⟩

/-! ## A key that is there -/

/-- The loop stops at the slot of a key that it reaches. -/
theorem insertLoop_updated [DecidableEq K] {d : ℕ} (entry : Entry K V) (hfuel : d < fuel)
    (hindex : index = (H.hash key + probeLen) % m.capacity)
    (hkey : m.keyAt ((H.hash key + (probeLen + d)) % m.capacity) = some key)
    (hmask : probeLen + d ≤ H.probeMask)
    (hpassed : ∀ d' < probeLen + d,
      ∃ e, m.slots ((H.hash key + d') % m.capacity) = some e ∧ d' ≤ e.probe) :
    ∃ i < m.capacity, m.keyAt i = some key ∧
      insertLoop H key fuel m entry index probeLen none = some (.updated m i) := by
  have hindex_lt : index < m.capacity := hindex ▸ Nat.mod_lt _ m.capacity_pos
  induction d generalizing fuel index probeLen with
  | zero =>
    obtain ⟨fuel, rfl⟩ := Nat.exists_eq_succ_of_ne_zero (Nat.ne_of_gt hfuel)
    rw [Nat.add_zero, ← hindex] at hkey
    obtain ⟨e, he, hekey⟩ := Option.map_eq_some_iff.mp hkey
    refine ⟨index, hindex_lt, hkey, ?_⟩
    rw [insertLoop, if_neg (by omega)]
    simp only [he, if_pos hekey, Option.getD_none]
  | succ d ih =>
    obtain ⟨fuel, rfl⟩ := Nat.exists_eq_succ_of_ne_zero (Nat.ne_of_gt (Nat.zero_lt_of_lt hfuel))
    obtain ⟨e, he, hle⟩ := hpassed probeLen (by omega)
    rw [← hindex] at he
    rw [insertLoop, if_neg (by omega)]
    simp only [he]
    by_cases hekey : e.key = key
    · refine ⟨index, hindex_lt, ?_, by rw [if_pos hekey, Option.getD_none]⟩
      rw [keyAt, he, Option.map_some, hekey]
    · rw [if_neg hekey, if_neg (Nat.not_lt.mpr hle)]
      have hnext : m.following index = (H.hash key + (probeLen + 1)) % m.capacity := by
        rw [following_eq hindex_lt, hindex, Nat.mod_add_mod, Nat.add_assoc]
      have hsum : probeLen + 1 + d = probeLen + (d + 1) := by omega
      refine ih (Nat.lt_of_succ_lt_succ hfuel) hnext ?_ (by omega) ?_ (following_lt hindex_lt)
      · rwa [hsum]
      · rwa [hsum]

/-! ## Resizing -/

/-- An insertion of a key that is not in the map adds it. -/
def Inserts (H : Hashing K)
    (insert : ObjectMap K V → Entry K V → Option (ObjectMap K V × Bool × ℕ)) : Prop :=
  ∀ m entry r, WellFormed H m → ¬ m.Mem entry.key → entry.marked = false → insert m entry = some r →
    WellFormed H r.1 ∧ m.capacityShift ≤ r.1.capacityShift ∧ r.1.filledSlots = m.filledSlots + 1 ∧
    (∀ k v, r.1.Has k v ↔ m.Has k v ∨ entry.key = k ∧ entry.value = v) ∧ r.2.1 = true ∧
    (∃ e, r.1.Stores r.2.2 e ∧ e.key = entry.key) ∧ (RobinHood H m → RobinHood H r.1)

/-- A key is in the map with some value. -/
theorem mem_iff_has : m.Mem key ↔ ∃ v, m.Has key v :=
  ⟨fun ⟨i, e, he, hkey⟩ => ⟨e.value, i, e, he, hkey, rfl⟩, fun ⟨_, i, e, he, hkey, _⟩ => ⟨i, e, he, hkey⟩⟩

/-- Inserting a list of new keys adds them. -/
theorem Inserts.foldlM {insert : ObjectMap K V → Entry K V → Option (ObjectMap K V × Bool × ℕ)}
    (hins : Inserts H insert) {es : List (Entry K V)} (h : WellFormed H m)
    (hnodup : (es.map Entry.key).Nodup) (habsent : ∀ e ∈ es, ¬ m.Mem e.key)
    (hfold : es.foldlM (fun m e => (insert m (Entry.new e.key e.value)).map Prod.fst) m = some m') :
    WellFormed H m' ∧ m.capacityShift ≤ m'.capacityShift ∧
    m'.filledSlots = m.filledSlots + es.length ∧
    (∀ k v, m'.Has k v ↔ m.Has k v ∨ ∃ e ∈ es, e.key = k ∧ e.value = v) ∧
    (RobinHood H m → RobinHood H m') := by
  induction es generalizing m with
  | nil =>
    obtain rfl := Option.some.inj hfold
    exact ⟨h, le_rfl, rfl, by simp, id⟩
  | cons e es ih =>
    rw [List.foldlM_cons] at hfold
    obtain ⟨m₁, hm₁, hfold⟩ := Option.bind_eq_some_iff.mp hfold
    obtain ⟨r, hr, rfl⟩ := Option.map_eq_some_iff.mp hm₁
    obtain ⟨hwf, hshift, hfilled, hhas, -, -, hrobin⟩ :=
      hins m (Entry.new e.key e.value) r h (habsent e List.mem_cons_self) rfl hr
    rw [List.map_cons, List.nodup_cons] at hnodup
    have habsent' : ∀ e' ∈ es, ¬ r.1.Mem e'.key := by
      intro e' he' hmem
      obtain ⟨v, hv⟩ := mem_iff_has.mp hmem
      rcases (hhas e'.key v).mp hv with hv | ⟨hkey, -⟩
      · exact habsent e' (List.mem_cons_of_mem e he') (mem_iff_has.mpr ⟨v, hv⟩)
      · exact hnodup.1 (List.mem_map.mpr ⟨e', he', hkey.symm⟩)
    obtain ⟨hwf', hshift', hfilled', hhas', hrobin'⟩ := ih hwf hnodup.2 habsent' hfold
    refine ⟨hwf', hshift.trans hshift', ?_, fun k v => ?_, fun hm => hrobin' (hrobin hm)⟩
    · rw [hfilled', hfilled, List.length_cons]
      omega
    · rw [hhas', hhas, or_assoc]
      refine or_congr_right ?_
      simp only [List.mem_cons, exists_eq_or_imp]
      rfl

/-- The entries of a map, in the order of their slots. -/
theorem entries_spec (h : WellFormed H m) :
    ((m.visits.filterMap m.slots).map Entry.key).Nodup ∧
    (m.visits.filterMap m.slots).length = m.filledSlots ∧
    ∀ e, e ∈ m.visits.filterMap m.slots ↔ ∃ i, m.Stores i e := by
  obtain ⟨hnodup, hmem⟩ := m.visits_spec
  have hstores {i : ℕ} (hi : i ∈ m.visits) : ∃ e, m.Stores i e := mem_occupied.mp ((hmem i).mp hi)
  refine ⟨?_, ?_, fun e => ?_⟩
  · rw [List.map_filterMap, List.nodup_iff_pairwise_ne, List.pairwise_filterMap]
    refine (List.nodup_iff_pairwise_ne.mp hnodup).imp_of_mem fun {i j} hi hj hne k hk k' hk' => ?_
    obtain ⟨e, he, rfl⟩ := Option.map_eq_some_iff.mp hk
    obtain ⟨e', he', rfl⟩ := Option.map_eq_some_iff.mp hk'
    obtain ⟨-, hlt, -⟩ := hstores hi
    obtain ⟨-, hlt', -⟩ := hstores hj
    exact fun hkey => hne (h.distinct i j e e' ⟨hlt, he⟩ ⟨hlt', he'⟩ hkey)
  · rw [h.filled_eq, ← m.length_visits, List.filterMap_length_eq_length]
    intro i hi
    obtain ⟨e, -, he⟩ := hstores hi
    rw [he]
    rfl
  · rw [List.mem_filterMap]
    constructor
    · rintro ⟨i, hi, he⟩
      obtain ⟨e', hlt, -⟩ := hstores hi
      exact ⟨i, hlt, he⟩
    · rintro ⟨i, he⟩
      exact ⟨i, (hmem i).mpr (mem_occupied.mpr ⟨e, he⟩), he.2⟩

/-- A map without entries is well formed. -/
theorem wellFormed_empty (hslots : ∀ i < m.capacity, m.slots i = none) (hfilled : m.filledSlots = 0) :
    WellFormed H m := by
  have hnone {i : ℕ} {e : Entry K V} (he : m.Stores i e) : False := by
    have hslot := he.2
    rw [hslots i he.1] at hslot
    cases hslot
  refine ⟨fun i j e e' he => (hnone he).elim, fun i e he => (hnone he).elim,
    fun i e he => (hnone he).elim, fun i e he => (hnone he).elim, fun i e he => (hnone he).elim, ?_⟩
  rw [hfilled, eq_comm, Finset.card_eq_zero, Finset.eq_empty_iff_forall_notMem]
  intro i hi
  obtain ⟨e, he⟩ := mem_occupied.mp hi
  exact hnone he

/-- A map without entries has no key whose slot an insertion would miss. -/
theorem robinHood_empty (hslots : ∀ i, m.slots i = none) : RobinHood H m := by
  intro key i e he
  have hslot := he.2
  rw [hslots] at hslot
  cases hslot

/-- A resize keeps all pairs, and in the larger map an insertion reaches every key. -/
theorem resize_spec {insert : ObjectMap K V → Entry K V → Option (ObjectMap K V × Bool × ℕ)}
    (hins : Inserts H insert) (h : WellFormed H m) (hresize : m.resize insert = some m') :
    WellFormed H m' ∧ m.capacityShift < m'.capacityShift ∧ m'.filledSlots = m.filledSlots ∧
    (∀ k v, m'.Has k v ↔ m.Has k v) ∧ RobinHood H m' := by
  obtain ⟨hnodup, hlength, hmem⟩ := entries_spec h
  rw [resize] at hresize
  set fresh : ObjectMap K V :=
    { slots := fun _ => none, filledSlots := 0, capacityShift := m.capacityShift + 1
      longestProbe := 0 }
  have habsent {k : K} : ¬ fresh.Mem k := by
    rintro ⟨i, e, ⟨-, ⟨⟩⟩, -⟩
  obtain ⟨hwf, hshift, hfilled, hhas, hrobin⟩ :=
    hins.foldlM (wellFormed_empty (fun _ _ => rfl) rfl) hnodup (fun _ _ => habsent) hresize
  refine ⟨hwf, hshift, ?_, fun k v => ?_, hrobin (robinHood_empty fun _ => rfl)⟩
  · rw [hfilled, hlength]
    exact Nat.zero_add _
  · rw [hhas, or_iff_right fun hk => habsent (mem_iff_has.mpr ⟨v, hk⟩)]
    simp only [hmem, Has]
    exact ⟨fun ⟨e, ⟨i, he⟩, hkv⟩ => ⟨i, e, he, hkv⟩, fun ⟨i, e, he, hkv⟩ => ⟨e, ⟨i, he⟩, hkv⟩⟩

/-! ## Insertion -/

/-- There are at most as many entries as slots. -/
theorem occupied_subset (m : ObjectMap K V) : m.occupied ⊆ Finset.range m.capacity :=
  Finset.filter_subset ..

/-- A map that is not full has an empty slot ahead of every slot. -/
theorem exists_hole (h : Placed H m) (hfull : m.filledSlots < m.capacity)
    (hindex : index < m.capacity) :
    ∃ t < m.capacity, m.slots ((index + t) % m.capacity) = none := by
  have hcard : m.occupied.card < (Finset.range m.capacity).card := by
    rwa [← h.filled_eq, Finset.card_range]
  obtain ⟨i, hi, hempty⟩ := Finset.exists_mem_notMem_of_card_lt_card hcard
  rw [Finset.mem_range] at hi
  have hnone : m.slots i = none := by
    by_contra hsome
    refine hempty (Finset.mem_filter.mpr ⟨Finset.mem_range.mpr hi, ?_⟩)
    exact Option.isSome_iff_ne_none.mpr hsome
  refine ⟨(i + (m.capacity - index)) % m.capacity, Nat.mod_lt _ m.capacity_pos, ?_⟩
  have hsum : index + (i + (m.capacity - index)) = i + m.capacity := by omega
  rw [Nat.add_mod_mod, hsum, Nat.add_mod_right, Nat.mod_eq_of_lt hi]
  exact hnone

/-- The loop starts with the new entry. -/
theorem carrying_start (h : WellFormed H m) (hfull : m.filledSlots < m.capacity)
    (habsent : ¬ m.Mem entry.key) (hmarked : entry.marked = false) :
    Carrying H entry.key m entry (m.home H entry.key) 0 none m.capacity where
  wellFormed := h
  absent := habsent
  unmarked := hmarked
  index_eq := rfl
  fuel_le := le_rfl
  hole := exists_hole h.placed hfull (home_lt H m entry.key)
  iter := Or.inl ⟨rfl, rfl⟩

/-- A full map is resized first. -/
theorem makeRoom_spec {insert : ObjectMap K V → Entry K V → Option (ObjectMap K V × Bool × ℕ)}
    (hins : Inserts H insert) (h : WellFormed H m)
    (hroom : (if m.size = m.capacity then m.resize insert else some m) = some m') :
    WellFormed H m' ∧ m.capacityShift ≤ m'.capacityShift ∧ m'.filledSlots = m.filledSlots ∧
    m'.filledSlots < m'.capacity ∧ (∀ k v, m'.Has k v ↔ m.Has k v) ∧
    (m.size = m.capacity ∨ RobinHood H m → RobinHood H m') ∧
    (m.size ≠ m.capacity → m' = m) := by
  have hle : m.filledSlots ≤ m.capacity := by
    rw [h.filled_eq]
    exact (Finset.card_le_card m.occupied_subset).trans_eq (Finset.card_range _)
  split at hroom
  · next hfull =>
    obtain ⟨hwf, hshift, hfilled, hhas, hrobin⟩ := resize_spec hins h hroom
    have hfull' : m.filledSlots = m.capacity := hfull
    refine ⟨hwf, hshift.le, hfilled, ?_, hhas, fun _ => hrobin, fun hne => absurd hfull hne⟩
    rw [hfilled, hfull']
    exact Nat.pow_lt_pow_right Nat.one_lt_two hshift
  · next hfull =>
    obtain rfl := Option.some.inj hroom
    have hne : m.filledSlots ≠ m.capacity := hfull
    exact ⟨h, le_rfl, rfl, by omega, fun _ _ => Iff.rfl, fun hor => hor.resolve_left hfull,
      fun _ => rfl⟩

/-- What an insertion returns after its loop. -/
def finishInsert [DecidableEq K] (H : Hashing K) (depth : ℕ) (key : K) :
    Outcome K V → Option (ObjectMap K V × Bool × ℕ)
  | .updated m index => some (m, false, index)
  | .placed m index => some (m, true, index)
  | .exhausted m swapped => (m.resize (insert H depth)).bind fun m =>
      (insert H depth m swapped).bind fun r =>
        if r.1.keyAt r.2.2 = some key then some (r.1, true, r.2.2)
        else some (r.1, true, (r.1.find H key).getD r.1.capacity)

/-- An insertion makes room, runs its loop and finishes. -/
theorem insert_succ [DecidableEq K] (depth : ℕ) (m : ObjectMap K V) (entry : Entry K V) :
    insert H (depth + 1) m entry =
      (if m.size = m.capacity then m.resize (insert H depth) else some m).bind fun m₁ =>
        (insertLoop H entry.key m₁.capacity m₁ entry (m₁.home H entry.key) 0 none).bind
          (finishInsert H depth entry.key) := by
  rw [insert]
  split
  · rfl
  · rfl

/-- The steps of an insertion that returns. -/
theorem insert_some [DecidableEq K] {depth : ℕ} {r : ObjectMap K V × Bool × ℕ}
    (hr : insert H (depth + 1) m entry = some r) :
    ∃ m₁ o, (if m.size = m.capacity then m.resize (insert H depth) else some m) = some m₁ ∧
      insertLoop H entry.key m₁.capacity m₁ entry (m₁.home H entry.key) 0 none = some o ∧
      match o with
      | .updated m₂ i => r = (m₂, false, i)
      | .placed m₂ i => r = (m₂, true, i)
      | .exhausted m₂ swapped => ∃ m₃ r₃, m₂.resize (insert H depth) = some m₃ ∧
          insert H depth m₃ swapped = some r₃ ∧ r.1 = r₃.1 ∧ r.2.1 = true ∧
          r.2.2 = if r₃.1.keyAt r₃.2.2 = some entry.key then r₃.2.2
            else (r₃.1.find H entry.key).getD r₃.1.capacity := by
  rw [insert_succ] at hr
  obtain ⟨m₁, hm₁, hbind⟩ := Option.bind_eq_some_iff.mp hr
  obtain ⟨o, ho, hbind⟩ := Option.bind_eq_some_iff.mp hbind
  refine ⟨m₁, o, hm₁, ho, ?_⟩
  cases o with
  | updated m₂ i => exact (Option.some.inj hbind).symm
  | placed m₂ i => exact (Option.some.inj hbind).symm
  | exhausted m₂ swapped =>
    obtain ⟨m₃, hm₃, hbind⟩ := Option.bind_eq_some_iff.mp hbind
    obtain ⟨r₃, hr₃, hbind⟩ := Option.bind_eq_some_iff.mp hbind
    refine ⟨m₃, r₃, hm₃, hr₃, ?_⟩
    split at hbind
    · next hkey =>
      obtain rfl := Option.some.inj hbind
      exact ⟨rfl, rfl, (if_pos hkey).symm⟩
    · next hkey =>
      obtain rfl := Option.some.inj hbind
      exact ⟨rfl, rfl, (if_neg hkey).symm⟩

/-- Every insertion of a new key that returns adds it. -/
theorem insert_inserts [DecidableEq K] (depth : ℕ) : Inserts (V := V) H (insert H depth) := by
  induction depth with
  | zero => rintro m entry r - - - ⟨⟩
  | succ depth ih =>
    intro m entry r h habsent hmarked hr
    obtain ⟨m₁, o, hm₁, ho, hout⟩ := insert_some hr
    obtain ⟨hwf, hshift, hfilled, hroom, hhas, hrobin, -⟩ := makeRoom_spec ih h hm₁
    have habsent₁ : ¬ m₁.Mem entry.key := fun hmem => habsent <| by
      obtain ⟨v, hv⟩ := mem_iff_has.mp hmem
      exact mem_iff_has.mpr ⟨v, (hhas _ v).mp hv⟩
    have hstart := carrying_start hwf hroom habsent₁ hmarked
    obtain ⟨o', ho', hkeeps⟩ := insertLoop_spec hstart
    obtain rfl := Option.some.inj (ho'.symm.trans ho)
    cases o' with
    | updated m₂ i => exact hkeeps.elim
    | placed m₂ i =>
      obtain ⟨hwf₂, hshift₂, hfilled₂, hhas₂, hat⟩ := hkeeps
      obtain rfl := hout
      refine ⟨hwf₂, hshift.trans hshift₂.ge, ?_, fun k v => ?_, rfl, hat, fun hm => ?_⟩
      · rw [hfilled₂, hfilled]
      · exact (hhas₂ k v).trans (or_congr_left (hhas k v))
      · exact insertLoop_robinHood hstart (hrobin (Or.inr hm)) (fun d hd => absurd hd d.not_lt_zero)
          ho m₂ i rfl
    | exhausted m₂ swapped =>
      obtain ⟨hwf₂, hshift₂, hfilled₂, habsent₂, hmarked₂, hhas₂⟩ := hkeeps
      obtain ⟨m₃, ⟨m₄, new, index⟩, hm₃, hr₃, hmap, htrue, hindex⟩ := hout
      obtain ⟨hwf₃, hshift₃, hfilled₃, hhas₃, hrobin₃⟩ := resize_spec ih hwf₂ hm₃
      have habsent₃ : ¬ m₃.Mem swapped.key := fun hmem => habsent₂ <| by
        obtain ⟨v, hv⟩ := mem_iff_has.mp hmem
        exact mem_iff_has.mpr ⟨v, (hhas₃ _ v).mp hv⟩
      obtain ⟨hwf₄, hshift₄, hfilled₄, hhas₄, -, hat, hrobin₄⟩ :=
        ih m₃ swapped (m₄, new, index) hwf₃ habsent₃ hmarked₂ hr₃
      have hpairs (k : K) (v : V) : m₄.Has k v ↔ m.Has k v ∨ entry.key = k ∧ entry.value = v := by
        rw [hhas₄, hhas₃]
        exact (hhas₂ k v).symm.trans (or_congr_left (hhas k v))
      rw [hmap]
      refine ⟨hwf₄, ?_, ?_, hpairs, htrue, ?_, fun _ => hrobin₄ hrobin₃⟩
      · exact (hshift.trans hshift₂.ge).trans (hshift₃.le.trans hshift₄)
      · rw [hfilled₄, hfilled₃, hfilled₂, hfilled]
      · rw [hindex]
        split
        · next hkey =>
          obtain ⟨e, he, hekey⟩ := Option.map_eq_some_iff.mp hkey
          obtain ⟨_, hlt, -⟩ := hat
          exact ⟨e, ⟨hlt.1, he⟩, hekey⟩
        · obtain ⟨i, e, he, hkey, -⟩ := (hpairs entry.key entry.value).mpr (Or.inr ⟨rfl, rfl⟩)
          rw [← hkey, hwf₄.find_eq he]
          exact ⟨e, he, rfl⟩

end VeronaRt.ObjectMap
