import VeronaFs.Runtime.ObjectMapInsert

/-!
# An object map is a set of keys

The map after any sequence of insertions, removals and clears holds the keys that the same operations
give as a finite set, as long as every insertion of a key that is there finds its slot.  A removal
leaves a hole, and an insertion that meets the hole or an entry with a smaller probe index before the
slot of its key stores the key a second time.
-/

namespace VeronaRt.ObjectMap

variable {K V : Type*} {H : Hashing K} {m m' : ObjectMap K V} {i : ℕ} {key : K} {e entry : Entry K V}

/-! ## Insertion of a key that is there -/

/-- An insertion finds the slot of the key: every slot before it, from the one of the hash on, holds an
entry that does not have to make way. -/
def FindsKey (H : Hashing K) (m : ObjectMap K V) (key : K) : Prop :=
  ∃ d < m.capacity, d ≤ H.probeMask ∧ m.keyAt ((H.hash key + d) % m.capacity) = some key ∧
    ∀ d' < d, ∃ e, m.slots ((H.hash key + d') % m.capacity) = some e ∧ d' ≤ e.probe

/-- An insertion that reaches the slot of its key finds it. -/
theorem Reaches.findsKey (hreach : Reaches H m key) (h : WellFormed H m) (hmem : m.Mem key) :
    FindsKey H m key := by
  obtain ⟨i, e, he, rfl⟩ := hmem
  have hle : e.probe % m.capacity ≤ e.probe := Nat.mod_le ..
  have hmask := h.probe_le_mask i e he
  refine ⟨e.probe % m.capacity, Nat.mod_lt _ m.capacity_pos, by omega, ?_, fun d hd => ?_⟩
  · rw [Nat.add_mod_mod, h.home_add i e he, keyAt, he.2]
    rfl
  · exact hreach i e he rfl d (by omega)

/-- The same for a key that may be absent, and for a full map. -/
theorem WellFormed.findsKey (h : WellFormed H m)
    (hreach : m.Mem key → m.size = m.capacity ∨ Reaches H m key) (hmem : m.Mem key) :
    m.size = m.capacity ∨ FindsKey H m key :=
  (hreach hmem).imp_right fun hr => hr.findsKey h hmem

/-- An insertion that finds its key changes no pair. -/
theorem insert_present [DecidableEq K] {depth : ℕ} {r : ObjectMap K V × Bool × ℕ}
    (h : WellFormed H m) (hmem : m.Mem entry.key)
    (hfind : m.size = m.capacity ∨ FindsKey H m entry.key)
    (hr : insert H (depth + 1) m entry = some r) :
    WellFormed H r.1 ∧ r.2.1 = false ∧ r.1.filledSlots = m.filledSlots ∧
    (∀ k v, r.1.Has k v ↔ m.Has k v) ∧ ∃ e, r.1.Stores r.2.2 e ∧ e.key = entry.key := by
  obtain ⟨m₁, o, hm₁, ho, hout⟩ := insert_some hr
  obtain ⟨hwf, -, hfilled, -, hhas, hrobin, hsame⟩ := makeRoom_spec (insert_inserts depth) h hm₁
  have hfind₁ : FindsKey H m₁ entry.key := by
    by_cases hfull : m.size = m.capacity
    · refine (hrobin (Or.inl hfull) entry.key).findsKey hwf ?_
      obtain ⟨v, hv⟩ := mem_iff_has.mp hmem
      exact mem_iff_has.mpr ⟨v, (hhas _ v).mpr hv⟩
    · rw [hsame hfull]
      exact hfind.resolve_left hfull
  obtain ⟨d, hd, hmask, hkey, hpassed⟩ := hfind₁
  have hstart : m₁.home H entry.key = (H.hash entry.key + 0) % m₁.capacity := rfl
  obtain ⟨j, hlt, hjkey, hj⟩ := insertLoop_updated entry hd hstart (by rwa [Nat.zero_add])
    (by omega) (by rwa [Nat.zero_add])
  obtain rfl := Option.some.inj (hj.symm.trans ho)
  obtain rfl := hout
  obtain ⟨e', he', hkey'⟩ := Option.map_eq_some_iff.mp hjkey
  exact ⟨hwf, rfl, hfilled, hhas, e', ⟨hlt, he'⟩, hkey'⟩

/-! ## Removal -/

/-- The keys of a map in its slots. -/
theorem mem_iff_keyAt : m.Mem key ↔ ∃ i < m.capacity, m.keyAt i = some key := by
  constructor
  · rintro ⟨i, e, ⟨hlt, he⟩, rfl⟩
    exact ⟨i, hlt, by rw [keyAt, he]; rfl⟩
  · rintro ⟨i, hlt, hkey⟩
    obtain ⟨e, he, rfl⟩ := Option.map_eq_some_iff.mp hkey
    exact ⟨i, e, ⟨hlt, he⟩, rfl⟩

/-- The entries after one was removed. -/
theorem stores_eraseAt {j : ℕ} : (m.eraseAt i).Stores j e ↔ j ≠ i ∧ m.Stores j e := by
  rw [Stores, eraseAt, Stores]
  simp only [Function.update_apply]
  rcases eq_or_ne j i with rfl | hj
  · simp
  · simp only [hj, if_false, ne_eq, not_false_eq_true, true_and]
    rfl

/-- The entries stay at their distances when one is removed. -/
theorem Placed.eraseAt (h : Placed H m) (he : m.Stores i e) : Placed H (m.eraseAt i) := by
  refine ⟨fun j e hj => ?_, fun j e hj => ?_, fun j e hj => ?_, ?_⟩
  · exact h.home_add j e (stores_eraseAt.mp hj).2
  · exact h.probe_le j e (stores_eraseAt.mp hj).2
  · exact h.probe_le_mask j e (stores_eraseAt.mp hj).2
  · have hocc : (m.eraseAt i).occupied = m.occupied.erase i := by
      ext j
      simp only [Finset.mem_erase, mem_occupied, stores_eraseAt, exists_and_left]
    have hmem : i ∈ m.occupied := mem_occupied.mpr ⟨e, he⟩
    rw [hocc, Finset.card_erase_of_mem hmem, ← h.filled_eq]
    rfl

/-- A map stays well formed when an entry is removed. -/
theorem WellFormed.eraseAt (h : WellFormed H m) (he : m.Stores i e) :
    WellFormed H (m.eraseAt i) := by
  obtain ⟨hhome, hprobe, hmask, hfilled⟩ := h.placed.eraseAt he
  refine ⟨fun j j' e e' hj hj' => ?_, hhome, hprobe, hmask, fun j e hj => ?_, hfilled⟩
  · exact h.distinct j j' e e' (stores_eraseAt.mp hj).2 (stores_eraseAt.mp hj').2
  · exact h.unmarked j e (stores_eraseAt.mp hj).2

/-- A removal keeps a map well formed and removes the key. -/
theorem erase_spec [DecidableEq K] (h : WellFormed H m) (key : K) :
    WellFormed H (m.erase H key).1 ∧ ∀ k, (m.erase H key).1.Mem k ↔ k ≠ key ∧ m.Mem k := by
  rw [erase]
  cases hfind : m.find H key with
  | none =>
    refine ⟨h, fun k => (and_iff_right_of_imp fun hk hkey => ?_).symm⟩
    have hsome := h.find_isSome.mpr (hkey ▸ hk)
    rw [hfind] at hsome
    cases hsome
  | some i =>
    obtain ⟨e, he, hkey⟩ := find_some hfind
    refine ⟨h.eraseAt he, fun k => ?_⟩
    simp only [Mem, stores_eraseAt]
    constructor
    · rintro ⟨j, e', ⟨hj, he'⟩, rfl⟩
      exact ⟨fun heq => hj (h.distinct j i e' e he' he (heq.trans hkey.symm)), j, e', he', rfl⟩
    · rintro ⟨hk, j, e', he', rfl⟩
      refine ⟨j, e', ⟨fun hj => hk ?_, he'⟩, rfl⟩
      subst hj
      obtain rfl := Option.some.inj (he'.2.symm.trans he.2)
      exact hkey

/-- Removing the entries of a list of slots. -/
theorem foldl_eraseAt (is : List ℕ) (m : ObjectMap K V) :
    (is.foldl eraseAt m).capacityShift = m.capacityShift ∧
    (is.foldl eraseAt m).filledSlots = m.filledSlots - is.length ∧
    ∀ i, (is.foldl eraseAt m).slots i = if i ∈ is then none else m.slots i := by
  induction is generalizing m with
  | nil => exact ⟨rfl, rfl, fun i => by simp⟩
  | cons j is ih =>
    obtain ⟨hshift, hfilled, hslots⟩ := ih (m.eraseAt j)
    have hone : (m.eraseAt j).filledSlots = m.filledSlots - 1 := rfl
    have hslot (i : ℕ) : (m.eraseAt j).slots i = if i = j then none else m.slots i :=
      Function.update_apply ..
    rw [List.foldl_cons]
    refine ⟨hshift, ?_, fun i => ?_⟩
    · rw [hfilled, hone, List.length_cons]
      omega
    · simp only [hslots, hslot, List.mem_cons]
      by_cases hi : i ∈ is <;> simp only [hi, or_true, or_false, if_true, if_false]

/-- Nothing is left when the entries of all visited slots are removed. -/
theorem eraseAll_spec (h : Placed H m) :
    (∀ i < m.capacity, (m.visits.foldl eraseAt m).slots i = none) ∧
    (m.visits.foldl eraseAt m).filledSlots = 0 := by
  obtain ⟨-, hfilled, hslots⟩ := foldl_eraseAt m.visits m
  refine ⟨fun i hi => ?_, by rw [hfilled, length_visits, h.filled_eq, Nat.sub_self]⟩
  rw [hslots]
  split
  · rfl
  · next hout =>
    by_contra hsome
    refine hout ((m.visits_spec.2 i).mpr (Finset.mem_filter.mpr ⟨Finset.mem_range.mpr hi, ?_⟩))
    exact Option.isSome_iff_ne_none.mpr hsome

/-- A cleared map is well formed and has no key. -/
theorem clear_spec (h : Placed H m) (skipDeallocate : Bool) :
    WellFormed H (m.clear skipDeallocate) ∧ ∀ k, ¬ (m.clear skipDeallocate).Mem k := by
  obtain ⟨hshift, -, -⟩ := foldl_eraseAt m.visits m
  obtain ⟨hempty, hzero⟩ := eraseAll_spec h
  have hall : ∀ i < (m.clear skipDeallocate).capacity, (m.clear skipDeallocate).slots i = none := by
    intro i hi
    rw [clear] at hi ⊢
    split at hi
    · next hreset =>
      rw [if_pos hreset]
    · next hkeep =>
      rw [if_neg hkeep]
      refine hempty i ?_
      rw [capacity, ← hshift]
      exact hi
  have hfilled' : (m.clear skipDeallocate).filledSlots = 0 := by
    rw [clear]
    split <;> exact hzero
  refine ⟨wellFormed_empty hall hfilled', fun k => ?_⟩
  rintro ⟨i, e, ⟨hlt, he⟩, -⟩
  rw [hall i hlt] at he
  cases he

/-- An insertion of a key that is not there, or that it finds, adds the key. -/
theorem insert_wellFormed [DecidableEq K] {depth : ℕ} {r : ObjectMap K V × Bool × ℕ}
    (h : WellFormed H m) (hfind : m.Mem entry.key → m.size = m.capacity ∨ FindsKey H m entry.key)
    (hmarked : entry.marked = false) (hr : insert H depth m entry = some r) :
    WellFormed H r.1 ∧ (∀ k, r.1.Mem k ↔ m.Mem k ∨ entry.key = k) ∧
    (r.2.1 = true ↔ ¬ m.Mem entry.key) ∧ ∃ e, r.1.Stores r.2.2 e ∧ e.key = entry.key := by
  cases depth with
  | zero => cases hr
  | succ depth =>
    by_cases hmem : m.Mem entry.key
    · obtain ⟨hwf, hnew, -, hhas, hat⟩ := insert_present h hmem (hfind hmem) hr
      refine ⟨hwf, fun k => ?_, by simp only [hnew, hmem, not_true_eq_false, Bool.false_eq_true], hat⟩
      rw [or_iff_left_of_imp fun hk => hk ▸ hmem, mem_iff_has, mem_iff_has]
      exact exists_congr (hhas k)
    · obtain ⟨hwf, -, -, hhas, hnew, hat, -⟩ :=
        insert_inserts (depth + 1) m entry r h hmem hmarked hr
      refine ⟨hwf, fun k => ?_, by simp only [hnew, hmem, not_false_eq_true], hat⟩
      rw [mem_iff_has, mem_iff_has]
      simp only [hhas, exists_or, exists_and_left, exists_eq', and_true]

/-! ## Runs -/

/-- The operations. -/
inductive Op (K V : Type*)
  /-- Insert a key with a value. -/
  | insert (key : K) (value : V)
  /-- Remove a key. -/
  | erase (key : K)
  /-- Remove all keys. -/
  | clear (skipDeallocate : Bool)

section Runs

variable [DecidableEq K]

/-- The map after an operation. -/
def Op.apply (H : Hashing K) (depth : ℕ) (m : ObjectMap K V) : Op K V → Option (ObjectMap K V)
  | .insert key value => (ObjectMap.insert H depth m (Entry.new key value)).map Prod.fst
  | .erase key => some (m.erase H key).1
  | .clear skipDeallocate => some (m.clear skipDeallocate)

/-- The keys after an operation: what it is for. -/
def Op.keys (S : Finset K) : Op K V → Finset K
  | .insert key _ => Insert.insert key S
  | .erase key => S.erase key
  | .clear _ => ∅

/-- A map that a sequence of operations leads to, with the keys that are inserted and not removed
since.  The guard says which operations may be next. -/
inductive Reached (H : Hashing K) (guard : ObjectMap K V → Op K V → Prop) :
    ObjectMap K V → Finset K → Prop
  /-- A new map. -/
  | create : Reached H guard create ∅
  /-- An operation that returns. -/
  | step {m : ObjectMap K V} {S : Finset K} {op : Op K V} {depth : ℕ} {m' : ObjectMap K V}
    (hm : Reached H guard m S) (hop : guard m op) (hm' : op.apply H depth m = some m') :
    Reached H guard m' (op.keys S)

/-- An insertion of a key that is there comes when the map is full, and resizes it, or it reaches the
slot of the key. -/
def Op.FindsSlot (H : Hashing K) (m : ObjectMap K V) : Op K V → Prop
  | .insert key _ => m.Mem key → m.size = m.capacity ∨ Reaches H m key
  | .erase _ => True
  | .clear _ => True

/-- An insertion of a key that is there comes when the map is full, and resizes it, or it finds the
key. -/
def Op.MeetsKey (H : Hashing K) (m : ObjectMap K V) : Op K V → Prop
  | .insert key _ => m.Mem key → m.size = m.capacity ∨ FindsKey H m key
  | .erase _ => True
  | .clear _ => True

omit [DecidableEq K] in
/-- An operation that finds its slot meets its key. -/
theorem Op.FindsSlot.meetsKey {op : Op K V} (hslot : op.FindsSlot H m) (h : WellFormed H m) :
    op.MeetsKey H m := by
  cases op with
  | insert key value => exact h.findsKey hslot
  | erase key => trivial
  | clear skipDeallocate => trivial

/-- The map holds a set of keys. -/
structure Represents (H : Hashing K) (m : ObjectMap K V) (S : Finset K) : Prop where
  /-- No two slots have one key. -/
  distinct : ∀ i < m.capacity, ∀ j < m.capacity, ∀ k, m.keyAt i = some k → m.keyAt j = some k → i = j
  /-- The size is the number of keys. -/
  size_eq : m.size = S.card
  /-- A search finds exactly the keys. -/
  find_iff : ∀ k, (m.find H k).isSome ↔ k ∈ S
  /-- A search finds the slot of its key. -/
  find_key : ∀ k i, m.find H k = some i → m.keyAt i = some k
  /-- An iteration visits no key twice. -/
  visits_nodup : (m.visits.map m.keyAt).Nodup
  /-- An iteration visits exactly the keys. -/
  visits_iff : ∀ x, x ∈ m.visits.map m.keyAt ↔ ∃ k ∈ S, x = some k

/-- An operation that meets its key keeps the map well formed, with the keys that it is for. -/
theorem Op.apply_spec {op : Op K V} {depth : ℕ} {S : Finset K} (h : WellFormed H m)
    (hS : ∀ k, m.Mem k ↔ k ∈ S) (hmeets : op.MeetsKey H m) (hm' : op.apply H depth m = some m') :
    WellFormed H m' ∧ ∀ k, m'.Mem k ↔ k ∈ op.keys S := by
  cases op with
  | insert key value =>
    obtain ⟨r, hr, rfl⟩ := Option.map_eq_some_iff.mp hm'
    simp only [Op.keys, Finset.mem_insert, ← hS]
    have hfind : m.Mem (Entry.new key value).key →
        m.size = m.capacity ∨ FindsKey H m (Entry.new key value).key := hmeets
    obtain ⟨hwf, hmem, -, -⟩ := insert_wellFormed h hfind rfl hr
    refine ⟨hwf, fun k => ?_⟩
    rw [hmem, or_comm, eq_comm]
    rfl
  | erase key =>
    obtain rfl := Option.some.inj hm'
    obtain ⟨hwf, hmem⟩ := erase_spec h key
    refine ⟨hwf, fun k => ?_⟩
    rw [hmem, Op.keys, Finset.mem_erase, hS]
  | clear skipDeallocate =>
    obtain rfl := Option.some.inj hm'
    obtain ⟨hwf, hmem⟩ := clear_spec h.placed skipDeallocate
    exact ⟨hwf, fun k => iff_of_false (hmem k) (Finset.notMem_empty k)⟩

/-- A well-formed map with the keys of a set holds the set. -/
theorem WellFormed.represents {S : Finset K} (h : WellFormed H m) (hS : ∀ k, m.Mem k ↔ k ∈ S) :
    Represents H m S := by
  have hdistinct : ∀ i < m.capacity, ∀ j < m.capacity, ∀ k, m.keyAt i = some k →
      m.keyAt j = some k → i = j := by
    intro i hi j hj k hik hjk
    obtain ⟨e, he, rfl⟩ := Option.map_eq_some_iff.mp hik
    obtain ⟨e', he', hkey⟩ := Option.map_eq_some_iff.mp hjk
    exact h.distinct i j e e' ⟨hi, he⟩ ⟨hj, he'⟩ hkey.symm
  obtain ⟨hnodup, hvisits⟩ := m.visits_spec
  have hkey {i : ℕ} (hi : i ∈ m.visits) : i < m.capacity ∧ ∃ k, m.keyAt i = some k := by
    obtain ⟨e, hlt, he⟩ := mem_occupied.mp ((hvisits i).mp hi)
    exact ⟨hlt, e.key, by rw [keyAt, he]; rfl⟩
  have hnodup' : (m.visits.map m.keyAt).Nodup := by
    refine hnodup.map_on fun i hi j hj heq => ?_
    obtain ⟨hlt, k, hk⟩ := hkey hi
    exact hdistinct i hlt j (hkey hj).1 k hk (heq ▸ hk)
  have hmem : ∀ x, x ∈ m.visits.map m.keyAt ↔ ∃ k ∈ S, x = some k := by
    intro x
    rw [List.mem_map]
    constructor
    · rintro ⟨i, hi, rfl⟩
      obtain ⟨hlt, k, hk⟩ := hkey hi
      exact ⟨k, (hS k).mp (mem_iff_keyAt.mpr ⟨i, hlt, hk⟩), hk⟩
    · rintro ⟨k, hk, rfl⟩
      obtain ⟨i, e, he, rfl⟩ := (hS k).mpr hk
      exact ⟨i, (hvisits i).mpr (mem_occupied.mpr ⟨e, he⟩), by rw [keyAt, he.2]; rfl⟩
  refine ⟨hdistinct, ?_, fun k => h.find_isSome.trans (hS k), fun k i hi => ?_, hnodup', hmem⟩
  · have hset : (m.visits.map m.keyAt).toFinset = S.map ⟨some, Option.some_injective K⟩ := by
      ext x
      rw [List.mem_toFinset, hmem, Finset.mem_map]
      exact exists_congr fun k => and_congr_right fun _ => eq_comm
    rw [size, h.filled_eq, ← length_visits, ← List.length_map (f := m.keyAt),
      ← List.toFinset_card_of_nodup hnodup', hset, Finset.card_map]
  · obtain ⟨e, he, rfl⟩ := find_some hi
    rw [keyAt, he.2]
    rfl

/-- Every reached map is well formed, if every insertion of a key that is there meets it. -/
theorem Reached.wellFormed {guard : ObjectMap K V → Op K V → Prop} {S : Finset K}
    (hguard : ∀ m op, WellFormed H m → guard m op → op.MeetsKey H m) (h : Reached H guard m S) :
    WellFormed H m ∧ ∀ k, m.Mem k ↔ k ∈ S := by
  induction h with
  | create =>
    refine ⟨wellFormed_empty (fun _ _ => rfl) rfl, fun k => iff_of_false ?_ (Finset.notMem_empty k)⟩
    rintro ⟨i, e, ⟨-, ⟨⟩⟩, -⟩
  | step hm hop hm' ih => exact Op.apply_spec ih.1 ih.2 (hguard _ _ ih.1 hop) hm'

/-- A map holds the keys that are inserted and not removed since, after every sequence of operations
in which every insertion of a key that is there finds its slot. -/
theorem map_represents_keys {S : Finset K} (h : Reached H (Op.FindsSlot H) m S) :
    Represents H m S := by
  obtain ⟨hwf, hS⟩ := h.wellFormed fun m op hm hop => hop.meetsKey hm
  exact hwf.represents hS

/-- A hash that gives every key the first slot. -/
def sameSlot : Hashing ℕ where
  hash := fun _ => 0
  probeMask := 7

/-- The theorem at a key that is inserted twice and found where it is. -/
theorem map_represents_keys_twice :
    ∃ m : ObjectMap ℕ Unit, Reached sameSlot (Op.FindsSlot sameSlot) m {1} ∧
      Represents sameSlot m {1} := by
  have h₁ : Reached sameSlot (Op.FindsSlot sameSlot) _ _ :=
    Reached.step Reached.create (by rintro ⟨_, _, ⟨-, ⟨⟩⟩, -⟩)
      (rfl : Op.apply sameSlot 1 create (Op.insert 1 ()) = some _)
  have h₂ := h₁.step
    (by
      refine fun _ => Or.inr ?_
      rintro i e ⟨hi, he⟩ hkey d hd
      have hprobe : ∀ i < 8, ∀ e ∈ (create.placeEntry (Entry.new 1 ()) 0 0).slots i, e.probe = 0 := by
        decide
      have hzero := hprobe i hi e he
      omega)
    (rfl : Op.apply sameSlot 1 _ (Op.insert 1 ()) = some _)
  exact ⟨_, h₂, map_represents_keys h₂⟩

/-- A key that is inserted behind another one, and again when that one is removed, is stored twice. -/
theorem reinserted_key_twice :
    ∃ (m : ObjectMap ℕ Unit) (S : Finset ℕ), Reached sameSlot (fun _ _ => True) m S ∧
      ¬ Represents sameSlot m S := by
  have h₁ : Reached sameSlot (fun _ _ => True) _ _ := Reached.step Reached.create trivial
    (rfl : Op.apply sameSlot 1 create (Op.insert 1 ()) = some _)
  have h₂ := h₁.step trivial (rfl : Op.apply sameSlot 1 _ (Op.insert 2 ()) = some _)
  have h₃ := h₂.step trivial (rfl : Op.apply sameSlot 1 _ (Op.erase 1) = some _)
  have h₄ := h₃.step trivial (rfl : Op.apply sameSlot 1 _ (Op.insert 2 ()) = some _)
  exact ⟨_, _, h₄, fun h => absurd h.size_eq (by decide)⟩

end Runs

end VeronaRt.ObjectMap
