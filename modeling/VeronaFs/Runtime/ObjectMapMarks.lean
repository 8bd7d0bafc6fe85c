import Mathlib.Algebra.Order.BigOperators.Group.Finset
import VeronaFs.Runtime.ObjectMapRuns

/-!
# Marks in an object map

While entries are marked, an insertion that meets a hole can store a key a second time, and one that
makes entries make way moves their marks.  What an insertion does is told by the slots before it: it
finds the key, it comes to an empty slot with the entry it carries then, or it runs out of probe
indices.  In the first two cases the number of slots with a key and a mark changes by the new entry.
-/

set_option linter.unusedSectionVars false

namespace VeronaRt.ObjectMap

variable {K V : Type*} [DecidableEq K] {H : Hashing K} {m m' m₀ : ObjectMap K V}
  {i j index fuel probeLen : ℕ} {key k : K} {b : Bool} {e e' entry : Entry K V}
  {iterIndex : Option ℕ} {x : Option (Entry K V)}

/-! ## How often a key is stored -/

/-- A slot counts for a key and a mark. -/
def slotTally (key : K) (marked : Bool) : Option (Entry K V) → ℕ
  | none => 0
  | some e => if e.key = key ∧ e.marked = marked then 1 else 0

/-- A slot counts for a key with one of the marks. -/
theorem slotTally_both (key : K) (e : Entry K V) :
    slotTally key true (some e) + slotTally key false (some e) =
      if e.key = key then 1 else 0 := by
  by_cases hkey : e.key = key <;> cases hmarked : e.marked <;> simp [slotTally, hkey, hmarked]

/-- The number of slots that store the key with the mark. -/
def tally (m : ObjectMap K V) (key : K) (marked : Bool) : ℕ :=
  ∑ i ∈ Finset.range m.capacity, slotTally key marked (m.slots i)

/-- The number of slots that store the key. -/
def copies (m : ObjectMap K V) (key : K) : ℕ := m.tally key true + m.tally key false

/-- The tally after one slot was changed. -/
theorem tally_update (hslots : m'.slots = Function.update m.slots i x) (hi : i < m.capacity)
    (hshift : m'.capacityShift = m.capacityShift) (key : K) (b : Bool) :
    m'.tally key b + slotTally key b (m.slots i) = m.tally key b + slotTally key b x := by
  have hmem : i ∈ Finset.range m.capacity := Finset.mem_range.mpr hi
  have hcap : m'.capacity = m.capacity := by rw [capacity, capacity, hshift]
  have hrest : ∑ j ∈ (Finset.range m.capacity).erase i, slotTally key b (m'.slots j) =
      ∑ j ∈ (Finset.range m.capacity).erase i, slotTally key b (m.slots j) := by
    refine Finset.sum_congr rfl fun j hj => ?_
    rw [hslots, Function.update_of_ne (Finset.ne_of_mem_erase hj)]
  rw [tally, tally, hcap, ← Finset.add_sum_erase _ _ hmem, ← Finset.add_sum_erase _ _ hmem, hrest,
    hslots, Function.update_self]
  omega

/-- A slot that stores a key with a mark. -/
theorem tally_pos : 0 < m.tally key b ↔ ∃ i e, m.Stores i e ∧ e.key = key ∧ e.marked = b := by
  rw [tally, Finset.sum_pos_iff]
  constructor
  · rintro ⟨i, hi, hpos⟩
    cases hslot : m.slots i with
    | none =>
      rw [hslot] at hpos
      exact absurd hpos (Nat.lt_irrefl 0)
    | some e =>
      rw [hslot, slotTally] at hpos
      split at hpos
      · next hkey => exact ⟨i, e, ⟨Finset.mem_range.mp hi, hslot⟩, hkey⟩
      · exact absurd hpos (Nat.lt_irrefl 0)
  · rintro ⟨i, e, ⟨hi, he⟩, hkey⟩
    refine ⟨i, Finset.mem_range.mpr hi, ?_⟩
    rw [he, slotTally, if_pos hkey]
    exact Nat.one_pos

/-- A key that is stored once with a mark is stored once. -/
theorem tally_eq_one (he : m.Stores i e) (hkey : e.key = key) (hmarked : e.marked = b)
    (hone : ∀ j e', m.Stores j e' → e'.key = key → e'.marked = b → j = i) : m.tally key b = 1 := by
  rw [tally, Finset.sum_eq_single_of_mem i (Finset.mem_range.mpr he.1), he.2, slotTally,
    if_pos ⟨hkey, hmarked⟩]
  intro j hj hne
  cases hslot : m.slots j with
  | none => rfl
  | some e' =>
    rw [slotTally, if_neg]
    exact fun hboth => hne (hone j e' ⟨Finset.mem_range.mp hj, hslot⟩ hboth.1 hboth.2)

/-- Two slots that store a key with a mark are one if they count as one. -/
theorem eq_of_tally_le (hle : m.tally key b ≤ 1) (hi : m.Stores i e) (hj : m.Stores j e')
    (hkey : e.key = key ∧ e.marked = b) (hkey' : e'.key = key ∧ e'.marked = b) : i = j := by
  by_contra hne
  have hsub : ({i, j} : Finset ℕ) ⊆ Finset.range m.capacity := by
    intro x hx
    rcases Finset.mem_insert.mp hx with rfl | hx
    · exact Finset.mem_range.mpr hi.1
    · exact Finset.mem_range.mpr (Finset.mem_singleton.mp hx ▸ hj.1)
  have hsum := Finset.sum_le_sum_of_subset (f := fun i => slotTally key b (m.slots i)) hsub
  rw [Finset.sum_pair hne, hi.2, hj.2, slotTally, slotTally, if_pos hkey, if_pos hkey'] at hsum
  exact absurd (hsum.trans hle) (by decide)

/-- In a well-formed map no entry counts as marked. -/
theorem WellFormed.tally_true (h : WellFormed H m) (key : K) : m.tally key true = 0 := by
  by_contra hne
  obtain ⟨i, e, he, -, hmarked⟩ := tally_pos.mp (Nat.pos_of_ne_zero hne)
  rw [h.unmarked i e he] at hmarked
  cases hmarked

/-- In a well-formed map a key counts once. -/
theorem WellFormed.copies_mem (h : WellFormed H m) (hmem : m.Mem key) : m.copies key = 1 := by
  obtain ⟨i, e, he, hkey⟩ := hmem
  rw [copies, h.tally_true, Nat.zero_add]
  refine tally_eq_one he hkey (h.unmarked i e he) fun j e' he' hkey' _ => ?_
  exact h.distinct j i e' e he' he (hkey'.trans hkey.symm)

/-- A key that is not in the map does not count. -/
theorem copies_not_mem (hmem : ¬ m.Mem key) : m.copies key = 0 := by
  have hzero (b : Bool) : m.tally key b = 0 := by
    by_contra hne
    obtain ⟨i, e, he, hkey, -⟩ := tally_pos.mp (Nat.pos_of_ne_zero hne)
    exact hmem ⟨i, e, he, hkey⟩
  rw [copies, hzero, hzero]

/-! ## The mark bit -/

/-- The entries after a mark bit was changed. -/
theorem stores_setMark : (m.setMark i b).Stores j e ↔
    j ≠ i ∧ m.Stores j e ∨ j = i ∧ ∃ e', m.Stores i e' ∧ e = { e' with marked := b } := by
  rw [Stores, setMark, Stores]
  simp only [Function.update_apply]
  rcases eq_or_ne j i with rfl | hj
  · simp only [if_pos, ne_eq, not_true_eq_false, false_and, false_or, true_and, Stores,
      Option.map_eq_some_iff]
    constructor
    · rintro ⟨hlt, e', he', rfl⟩
      exact ⟨e', ⟨hlt, he'⟩, rfl⟩
    · rintro ⟨e', ⟨hlt, he'⟩, rfl⟩
      exact ⟨hlt, e', he', rfl⟩
  · simp only [hj, if_false, ne_eq, not_false_eq_true, true_and, false_and, or_false]
    rfl

/-- The entries stay at their distances when a mark bit is changed. -/
theorem Placed.setMark (h : Placed H m) : Placed H (m.setMark i b) := by
  have hback {j : ℕ} {e : Entry K V} (he : (m.setMark i b).Stores j e) :
      ∃ e', m.Stores j e' ∧ e'.key = e.key ∧ e'.probe = e.probe := by
    rcases stores_setMark.mp he with ⟨-, he⟩ | ⟨rfl, e', he', rfl⟩
    · exact ⟨e, he, rfl, rfl⟩
    · exact ⟨e', he', rfl, rfl⟩
  refine ⟨fun j e he => ?_, fun j e he => ?_, fun j e he => ?_, ?_⟩
  · obtain ⟨e', he', hkey, hprobe⟩ := hback he
    rw [← hkey, ← hprobe]
    exact h.home_add j e' he'
  · obtain ⟨e', he', -, hprobe⟩ := hback he
    rw [← hprobe]
    exact h.probe_le j e' he'
  · obtain ⟨e', he', -, hprobe⟩ := hback he
    rw [← hprobe]
    exact h.probe_le_mask j e' he'
  · have hocc : (m.setMark i b).occupied = m.occupied := by
      ext j
      rw [mem_occupied, mem_occupied]
      constructor
      · rintro ⟨e, he⟩
        obtain ⟨e', he', -⟩ := hback he
        exact ⟨e', he'⟩
      · rintro ⟨e, he⟩
        rcases eq_or_ne j i with rfl | hj
        · exact ⟨_, stores_setMark.mpr (Or.inr ⟨rfl, e, he, rfl⟩)⟩
        · exact ⟨e, stores_setMark.mpr (Or.inl ⟨hj, he⟩)⟩
    rw [hocc]
    exact h.filled_eq

/-- The tally after a mark bit was changed. -/
theorem tally_setMark (he : m.Stores i e) (key : K) (c : Bool) :
    (m.setMark i b).tally key c + slotTally key c (some e) =
      m.tally key c + slotTally key c (some { e with marked := b }) := by
  have hslots : (m.setMark i b).slots = Function.update m.slots i (some { e with marked := b }) := by
    rw [setMark, he.2, Option.map_some]
  have hsum := tally_update hslots he.1 rfl key c
  rwa [he.2] at hsum

/-- A key is stored as often after a mark bit was changed. -/
theorem copies_setMark (he : m.Stores i e) (key : K) : (m.setMark i b).copies key = m.copies key := by
  have htrue := tally_setMark (b := b) he key true
  have hfalse := tally_setMark (b := b) he key false
  have hold := slotTally_both key e
  have hnew : slotTally key true (some { e with marked := b }) +
      slotTally key false (some { e with marked := b }) = if e.key = key then 1 else 0 :=
    slotTally_both key _
  rw [copies, copies]
  omega

/-- A key is stored once less after one of its entries was removed. -/
theorem copies_eraseAt (he : m.Stores i e) (key : K) :
    (m.eraseAt i).copies key + (if e.key = key then 1 else 0) = m.copies key := by
  have htally (b : Bool) : (m.eraseAt i).tally key b + slotTally key b (some e) = m.tally key b := by
    have hslots : (m.eraseAt i).slots = Function.update m.slots i none := rfl
    have hsum := tally_update hslots he.1 rfl key b
    rwa [he.2] at hsum
  have htrue := htally true
  have hfalse := htally false
  have hboth := slotTally_both key e
  rw [copies, copies]
  omega

/-! ## Where an insertion stops -/

/-- How the search for a slot stops. -/
inductive Stop (K V : Type*)
  /-- The key is found, before or after an entry had to make way. -/
  | found (swapped : Bool) (e : Entry K V)
  /-- An empty slot is there for the entry that is carried. -/
  | empty (carried : Entry K V)
  /-- The largest probe index is reached. -/
  | exhausted

/-- The slots from one on tell where the search stops. -/
def stopLoop (H : Hashing K) (m : ObjectMap K V) (key : K) :
    ℕ → Entry K V → ℕ → ℕ → Bool → Option (Stop K V)
  | 0, _, _, _, _ => none
  | fuel + 1, carried, index, probeLen, swapped =>
    if H.probeMask < probeLen then some .exhausted
    else
      match m.slots index with
      | none => some (.empty carried)
      | some e =>
        if e.key = key then some (.found swapped e)
        else if e.probe < probeLen then
          stopLoop H m key fuel e (m.following index) (e.probe + 1) true
        else stopLoop H m key fuel carried (m.following index) (probeLen + 1) swapped

/-- Where the search for the slot of an entry stops. -/
def stop (H : Hashing K) (m : ObjectMap K V) (entry : Entry K V) : Option (Stop K V) :=
  m.stopLoop H entry.key m.capacity entry (m.home H entry.key) 0 false

/-- The search stops at the empty slot ahead, or before it. -/
theorem stopLoop_some {carried : Entry K V} {swapped : Bool} (hindex : index < m.capacity)
    (hole : ∃ t < fuel, m.slots ((index + t) % m.capacity) = none) :
    ∃ s, m.stopLoop H key fuel carried index probeLen swapped = some s := by
  induction fuel generalizing carried index probeLen swapped with
  | zero =>
    obtain ⟨t, ht, -⟩ := hole
    exact absurd ht t.not_lt_zero
  | succ fuel ih =>
    rw [stopLoop]
    split
    · exact ⟨_, rfl⟩
    · cases hslot : m.slots index with
      | none => exact ⟨_, rfl⟩
      | some e =>
        have hnext : ∃ t < fuel, m.slots ((m.following index + t) % m.capacity) = none := by
          obtain ⟨t, ht, hnone⟩ := hole
          cases t with
          | zero =>
            rw [Nat.add_zero, Nat.mod_eq_of_lt hindex, hslot] at hnone
            cases hnone
          | succ t =>
            refine ⟨t, Nat.lt_of_succ_lt_succ ht, ?_⟩
            rwa [following_add hindex]
        simp only
        split
        · exact ⟨_, rfl⟩
        · split
          · exact ih (following_lt hindex) hnext
          · exact ih (following_lt hindex) hnext

/-! ## The loop -/

/-- The loop of an insertion into `m₀` carries an entry.  Nothing has changed in the slots ahead, and
the keys and marks in the map and of the carried entry are those of `m₀` and of the new entry. -/
structure Moving (H : Hashing K) (new : Entry K V) (m₀ m : ObjectMap K V) (entry : Entry K V)
    (index probeLen : ℕ) (iterIndex : Option ℕ) (fuel : ℕ) : Prop where
  /-- The entries. -/
  placed : Placed H m
  /-- The number of slots. -/
  shift_eq : m.capacityShift = m₀.capacityShift
  /-- The slot is at its distance from the one of the hash. -/
  index_eq : (H.hash entry.key + probeLen) % m₀.capacity = index
  /-- The slots ahead are not yet visited. -/
  fuel_le : fuel ≤ m₀.capacity
  /-- The slots ahead. -/
  ahead : ∀ t < fuel, m.slots ((index + t) % m₀.capacity) = m₀.slots ((index + t) % m₀.capacity)
  /-- The keys and marks. -/
  tally_eq : ∀ k b, m.tally k b + slotTally k b (some entry) =
    m₀.tally k b + slotTally k b (some new)
  /-- The new entry is carried, or it is in a slot that is not ahead. -/
  iter : iterIndex = none ∧ m = m₀ ∧ entry = new ∨ ∃ j, iterIndex = some j ∧
    (∃ e, m.Stores j e ∧ e.key = new.key ∧ e.marked = new.marked) ∧
    ∀ t < fuel, (index + t) % m₀.capacity ≠ j

/-- What the loop of an insertion into `m` does where its search stops. -/
def Stop.Leads (H : Hashing K) (new : Entry K V) (m : ObjectMap K V) (o : Option (Outcome K V)) :
    Stop K V → Prop
  | .found swapped e => swapped = false → ∃ i, o = some (.updated m i) ∧ m.Stores i e ∧ e.key = new.key
  | .empty carried => carried.marked = false → ∃ m' i, o = some (.placed m' i) ∧ Placed H m' ∧
    m'.capacityShift = m.capacityShift ∧
    (∀ k b, m'.tally k b = m.tally k b + slotTally k b (some new)) ∧
    ∃ e, m'.Stores i e ∧ e.key = new.key ∧ e.marked = new.marked
  | .exhausted => ∃ m' e, o = some (.exhausted m' e)

namespace Moving

variable {new : Entry K V}

/-- The capacity is that of the map before. -/
theorem capacity_eq (h : Moving H new m₀ m entry index probeLen iterIndex fuel) :
    m.capacity = m₀.capacity := by rw [capacity, capacity, h.shift_eq]

/-- The slot is one of the map. -/
theorem index_lt (h : Moving H new m₀ m entry index probeLen iterIndex fuel) :
    index < m₀.capacity := by
  rw [← h.index_eq]
  exact Nat.mod_lt _ m₀.capacity_pos

/-- The slot is that of the map before. -/
theorem slot_eq (h : Moving H new m₀ m entry index probeLen iterIndex (fuel + 1)) :
    m.slots index = m₀.slots index := by
  have hslot := h.ahead 0 (Nat.succ_pos fuel)
  rwa [Nat.add_zero, Nat.mod_eq_of_lt h.index_lt] at hslot

/-- A slot ahead is another one. -/
theorem ahead_ne (h : Moving H new m₀ m entry index probeLen iterIndex (fuel + 1)) {t : ℕ}
    (ht : t < fuel) : (index + (t + 1)) % m₀.capacity ≠ index := by
  have hlt := h.index_lt
  have hle := h.fuel_le
  rcases Nat.lt_or_ge (index + (t + 1)) m₀.capacity with hsmall | hbig
  · rw [Nat.mod_eq_of_lt hsmall]
    omega
  · rw [Nat.mod_eq_sub_mod hbig, Nat.mod_eq_of_lt (by omega)]
    omega

/-- The slot of the new key is another one. -/
theorem iter_ne (h : Moving H new m₀ m entry index probeLen iterIndex (fuel + 1))
    (hne : ∀ t < fuel + 1, (index + t) % m₀.capacity ≠ j) : j ≠ index := fun hj => by
  have hahead := hne 0 (Nat.succ_pos fuel)
  rw [Nat.add_zero, Nat.mod_eq_of_lt h.index_lt] at hahead
  exact hahead hj.symm

/-- An occupied slot is passed. -/
theorem pass (h : Moving H new m₀ m entry index probeLen iterIndex (fuel + 1)) :
    Moving H new m₀ m entry (m₀.following index) (probeLen + 1) iterIndex fuel where
  placed := h.placed
  shift_eq := h.shift_eq
  index_eq := by rw [following_eq h.index_lt, ← h.index_eq, Nat.mod_add_mod, Nat.add_assoc]
  fuel_le := Nat.le_of_succ_le h.fuel_le
  ahead := by
    intro t ht
    rw [following_add h.index_lt]
    exact h.ahead (t + 1) (Nat.succ_lt_succ ht)
  tally_eq := h.tally_eq
  iter := by
    refine h.iter.imp_right fun ⟨j, hj, he, hne⟩ => ⟨j, hj, he, fun t ht => ?_⟩
    rw [following_add h.index_lt]
    exact hne (t + 1) (Nat.succ_lt_succ ht)

/-- The keys and marks when the entry is placed in the slot. -/
theorem tally_placeEntry (h : Moving H new m₀ m entry index probeLen iterIndex fuel) (k : K)
    (b : Bool) : (m.placeEntry entry index probeLen).tally k b + slotTally k b (m.slots index) =
      m₀.tally k b + slotTally k b (some new) := by
  rw [← h.tally_eq]
  have hslots : (m.placeEntry entry index probeLen).slots =
      Function.update m.slots index (some { entry with probe := probeLen }) := rfl
  exact tally_update hslots (h.capacity_eq ▸ h.index_lt) rfl k b

/-- The entry takes the slot of another one, which is carried from there. -/
theorem swap (h : Moving H new m₀ m entry index probeLen iterIndex (fuel + 1))
    (hmask : probeLen ≤ H.probeMask) (hslot : m₀.slots index = some e) :
    Moving H new m₀ (m.placeEntry entry index probeLen) e (m₀.following index) (e.probe + 1)
      (some (iterIndex.getD index)) fuel := by
  have hlt := h.index_lt
  have hlt' : index < m.capacity := h.capacity_eq ▸ hlt
  have hstores : m.Stores index e := ⟨hlt', h.slot_eq.trans hslot⟩
  have hindex : (H.hash entry.key + probeLen) % m.capacity = index := by
    rw [h.capacity_eq]
    exact h.index_eq
  refine ⟨h.placed.placeEntry hlt' hindex hmask ?_, h.shift_eq, ?_, Nat.le_of_succ_le h.fuel_le,
    fun t ht => ?_, fun k b => ?_, Or.inr ⟨iterIndex.getD index, rfl, ?_⟩⟩
  · rw [occupied_placeEntry hlt', Finset.insert_eq_of_mem (mem_occupied.mpr ⟨e, hstores⟩)]
    exact h.placed.filled_eq
  · rw [following_eq hlt, ← Nat.add_assoc, ← Nat.mod_add_mod, ← h.capacity_eq,
      h.placed.home_add index e hstores]
  · rw [following_add hlt, ← h.ahead (t + 1) (Nat.succ_lt_succ ht)]
    exact Function.update_of_ne (h.ahead_ne ht) ..
  · have hsum := h.tally_placeEntry k b
    rwa [hstores.2] at hsum
  · rcases h.iter with ⟨hnone, -, hentry⟩ | ⟨j, hj, ⟨e', he', hkey⟩, hne⟩
    · rw [hnone, hentry]
      refine ⟨⟨_, (stores_placeEntry hlt').mpr (Or.inl ⟨rfl, rfl⟩), rfl, rfl⟩, fun t ht => ?_⟩
      rw [following_add hlt]
      exact h.ahead_ne ht
    · rw [hj]
      refine ⟨⟨e', (stores_placeEntry hlt').mpr (Or.inr ⟨h.iter_ne hne, he'⟩), hkey⟩, fun t ht => ?_⟩
      rw [following_add hlt]
      exact hne (t + 1) (Nat.succ_lt_succ ht)

/-- An empty slot is filled. -/
theorem fill (h : Moving H new m₀ m entry index probeLen iterIndex (fuel + 1))
    (hmask : probeLen ≤ H.probeMask) (hslot : m₀.slots index = none) :
    Placed H { m.placeEntry entry index probeLen with filledSlots := m.filledSlots + 1 } ∧
    (∀ k b, (m.placeEntry entry index probeLen).tally k b =
      m₀.tally k b + slotTally k b (some new)) ∧
    ∃ e, (m.placeEntry entry index probeLen).Stores (iterIndex.getD index) e ∧ e.key = new.key ∧
      e.marked = new.marked := by
  have hlt' : index < m.capacity := h.capacity_eq ▸ h.index_lt
  have hslot' : m.slots index = none := h.slot_eq.trans hslot
  have hindex : (H.hash entry.key + probeLen) % m.capacity = index := by
    rw [h.capacity_eq]
    exact h.index_eq
  have hempty : index ∉ m.occupied := fun hmem => by
    obtain ⟨e, -, he⟩ := mem_occupied.mp hmem
    rw [hslot'] at he
    cases he
  refine ⟨h.placed.placeEntry hlt' hindex hmask ?_, fun k b => ?_, ?_⟩
  · rw [occupied_placeEntry hlt', Finset.card_insert_of_notMem hempty, h.placed.filled_eq]
  · have hsum := h.tally_placeEntry k b
    rwa [hslot'] at hsum
  · rcases h.iter with ⟨hnone, -, hentry⟩ | ⟨j, hj, ⟨e', he', hkey⟩, hne⟩
    · rw [hnone, hentry]
      exact ⟨_, (stores_placeEntry hlt').mpr (Or.inl ⟨rfl, rfl⟩), rfl, rfl⟩
    · rw [hj]
      exact ⟨e', (stores_placeEntry hlt').mpr (Or.inr ⟨h.iter_ne hne, he'⟩), hkey⟩

end Moving

/-- The loop does what the place where its search stops tells. -/
theorem insertLoop_leads {new : Entry K V} {s : Stop K V}
    (h : Moving H new m₀ m entry index probeLen iterIndex fuel)
    (hs : m₀.stopLoop H new.key fuel entry index probeLen iterIndex.isSome = some s) :
    s.Leads H new m₀ (insertLoop H new.key fuel m entry index probeLen iterIndex) := by
  induction fuel generalizing m entry index probeLen iterIndex with
  | zero => cases hs
  | succ fuel ih =>
    have hfollowing : m.following index = m₀.following index := by
      rw [following, following, h.capacity_eq]
    rw [stopLoop] at hs
    rw [insertLoop]
    by_cases hlong : H.probeMask < probeLen
    · rw [if_pos hlong] at hs ⊢
      obtain rfl := Option.some.inj hs
      exact ⟨m, entry, rfl⟩
    · rw [if_neg hlong] at hs ⊢
      rw [h.slot_eq]
      cases hslot : m₀.slots index with
      | none =>
        rw [hslot] at hs
        obtain rfl := Option.some.inj hs
        intro hmarked
        obtain ⟨hplaced, htally, he⟩ := h.fill (Nat.le_of_not_lt hlong) hslot
        simp only [hmarked, Bool.false_eq_true, if_false]
        exact ⟨_, _, rfl, hplaced, h.shift_eq, htally, he⟩
      | some e =>
        rw [hslot] at hs
        simp only at hs ⊢
        by_cases hkey : e.key = new.key
        · rw [if_pos hkey] at hs ⊢
          obtain rfl := Option.some.inj hs
          intro hswapped
          rcases h.iter with ⟨hnone, rfl, -⟩ | ⟨j, hj, -⟩
          · rw [hnone]
            exact ⟨index, rfl, ⟨h.index_lt, hslot⟩, hkey⟩
          · rw [hj] at hswapped
            cases hswapped
        · rw [if_neg hkey] at hs ⊢
          rw [hfollowing]
          by_cases hswap : e.probe < probeLen
          · rw [if_pos hswap] at hs ⊢
            exact ih (h.swap (Nat.le_of_not_lt hlong) hslot) hs
          · rw [if_neg hswap] at hs ⊢
            exact ih h.pass hs

/-- The loop starts with the new entry. -/
theorem moving_start (h : Placed H m) (entry : Entry K V) :
    Moving H entry m m entry (m.home H entry.key) 0 none m.capacity where
  placed := h
  shift_eq := rfl
  index_eq := rfl
  fuel_le := le_rfl
  ahead := fun _ _ => rfl
  tally_eq := fun _ _ => rfl
  iter := Or.inl ⟨rfl, rfl, rfl⟩

/-- An insertion into a map that is not full stops somewhere, and does there what is told. -/
theorem insertLoop_stop (h : Placed H m) (hroom : m.size ≠ m.capacity) (entry : Entry K V) :
    ∃ s, m.stop H entry = some s ∧ s.Leads H entry m
      (insertLoop H entry.key m.capacity m entry (m.home H entry.key) 0 none) := by
  have hle : m.filledSlots ≤ m.capacity := by
    rw [h.filled_eq]
    exact (Finset.card_le_card m.occupied_subset).trans_eq (Finset.card_range _)
  have hne : m.filledSlots ≠ m.capacity := hroom
  obtain ⟨s, hs⟩ := stopLoop_some (home_lt H m entry.key)
    (exists_hole h (by omega) (home_lt H m entry.key))
  exact ⟨s, hs, insertLoop_leads (moving_start h entry) hs⟩

end VeronaRt.ObjectMap
