import Mathlib.Data.Set.Function
import VeronaFs.Runtime.ObjectMapMarks

/-!
# What an insertion stores

The comment of `insert` says that the result tells whether the key is new, and that an existing entry is
updated.  But the update assigns to the entry that is handed over, so the map keeps its value; and an
insertion that does not find a key that is there stores it again, or drops an entry that had to make way.
In all other cases an insertion does what the comment says (`insert_inserted_iff`), over any number of
resizes.
-/

namespace VeronaRt.ObjectMap

variable {K V : Type*} [DecidableEq K] {H : Hashing K} {m m₀ m' : ObjectMap K V}
  {i index probeLen fuel : ℕ} {iterIndex : Option ℕ} {key : K} {value : V} {entry new : Entry K V}
  {depth : ℕ} {r : ObjectMap K V × Bool × ℕ}

/-- What an insertion is for. -/
structure Inserted (H : Hashing K) (m : ObjectMap K V) (key : K) (value : V)
    (r : ObjectMap K V × Bool × ℕ) : Prop where
  /-- The result tells whether the key is new. -/
  new_iff : r.2.1 = true ↔ ¬ m.Mem key
  /-- A search finds the slot that is returned. -/
  find_eq : r.1.find H key = some r.2.2
  /-- The slot holds the key with the value. -/
  value_eq : ∃ e, r.1.Stores r.2.2 e ∧ e.key = key ∧ e.value = value
  /-- The other keys keep their values. -/
  others : ∀ k ≠ key, ∀ v, r.1.Has k v ↔ m.Has k v

/-! ## A key that is not found -/

/-- When the loop meets the new key, it has moved nothing and found the key, or an entry that had to make
way is in no slot any more. -/
theorem insertLoop_meets
    (h : Moving H new m₀ m entry index probeLen iterIndex fuel)
    (hcarried : iterIndex ≠ none → entry.key ≠ new.key)
    (ho : insertLoop H new.key fuel m entry index probeLen iterIndex = some (.updated m' i)) :
    (iterIndex = none ∧ ∃ d < fuel, probeLen + d ≤ H.probeMask ∧
      m₀.keyAt ((index + d) % m₀.capacity) = some new.key ∧
      ∀ d' < d, ∃ e, m₀.slots ((index + d') % m₀.capacity) = some e ∧ probeLen + d' ≤ e.probe) ∨
    ∃ lost : Entry K V, lost.key ≠ new.key ∧ ∀ k b, m'.tally k b + slotTally k b (some lost) =
      m₀.tally k b + slotTally k b (some new) := by
  induction fuel generalizing m entry index probeLen iterIndex with
  | zero => cases ho
  | succ fuel ih =>
    have hhere : (index + 0) % m₀.capacity = index := Nat.mod_eq_of_lt h.index_lt
    have hfollowing : m.following index = m₀.following index := by
      rw [following, following, h.capacity_eq]
    rw [insertLoop] at ho
    by_cases hlong : H.probeMask < probeLen
    · rw [if_pos hlong] at ho
      cases ho
    · rw [if_neg hlong, h.slot_eq] at ho
      cases hslot : m₀.slots index with
      | none =>
        rw [hslot] at ho
        simp only at ho
        split at ho
        · cases ho
        · cases ho
      | some e =>
        rw [hslot] at ho
        simp only at ho
        by_cases hkey : e.key = new.key
        · rw [if_pos hkey] at ho
          cases ho
          rcases h.iter with ⟨hnone, -, -⟩ | ⟨j, hj, -⟩
          · refine Or.inl ⟨hnone, 0, Nat.succ_pos fuel, Nat.le_of_not_lt hlong, ?_,
              fun d hd => absurd hd d.not_lt_zero⟩
            rw [hhere, keyAt, hslot, Option.map_some, hkey]
          · exact Or.inr ⟨entry, hcarried (by simp [hj]), h.tally_eq⟩
        · rw [if_neg hkey, hfollowing] at ho
          by_cases hswap : e.probe < probeLen
          · rw [if_pos hswap] at ho
            rcases ih (h.swap (Nat.le_of_not_lt hlong) hslot) (fun _ => hkey) ho with
              ⟨hnone, -⟩ | hlost
            · cases hnone
            · exact Or.inr hlost
          · rw [if_neg hswap] at ho
            refine (ih h.pass hcarried ho).imp_left ?_
            rintro ⟨hnone, d, hd, hmask, hfound, hpassed⟩
            rw [following_add h.index_lt] at hfound
            refine ⟨hnone, d + 1, Nat.succ_lt_succ hd, by omega, hfound, fun d' hd' => ?_⟩
            cases d' with
            | zero =>
              rw [hhere]
              exact ⟨e, hslot, Nat.le_of_not_lt hswap⟩
            | succ d' =>
              obtain ⟨e', he', hle⟩ := hpassed d' (Nat.lt_of_succ_lt_succ hd')
              rw [following_add h.index_lt] at he'
              exact ⟨e', he', by omega⟩

/-- The entry that is in no slot any more was in the map. -/
theorem WellFormed.lost_key {lost : Entry K V} (h : WellFormed H m) (hne : lost.key ≠ new.key)
    (htally : ∀ k b, m'.tally k b + slotTally k b (some lost) =
      m.tally k b + slotTally k b (some new)) : m.Mem lost.key ∧ ¬ m'.Mem lost.key := by
  have hlost := slotTally_both lost.key lost
  have hnew := slotTally_both lost.key new
  rw [if_pos rfl] at hlost
  rw [if_neg hne.symm] at hnew
  have htrue := htally lost.key true
  have hfalse := htally lost.key false
  have hcopies : m'.copies lost.key + 1 = m.copies lost.key := by
    rw [copies, copies]
    omega
  have hmem : m.Mem lost.key := by
    by_contra habsent
    rw [copies_not_mem habsent] at hcopies
    omega
  rw [h.copies_mem hmem, copies] at hcopies
  refine ⟨hmem, ?_⟩
  rintro ⟨i, e, he, hkey⟩
  have hpos : 0 < m'.tally lost.key e.marked := tally_pos.mpr ⟨i, e, he, hkey, rfl⟩
  cases hmarked : e.marked <;> rw [hmarked] at hpos <;> omega

/-- An insertion that keeps all other keys and tells that its key is there has found it. -/
theorem Inserted.findsKey (hins : Inserted H m key value r) (h : WellFormed H m) (hmem : m.Mem key)
    (hr : insert H depth m (Entry.new key value) = some r) :
    m.size = m.capacity ∨ FindsKey H m key := by
  by_cases hfull : m.size = m.capacity
  · exact Or.inl hfull
  right
  have hold : r.2.1 = false := Bool.eq_false_iff.mpr fun htrue => hins.new_iff.mp htrue hmem
  cases depth with
  | zero => cases hr
  | succ depth =>
    obtain ⟨m₁, o, hm₁, ho, hout⟩ := insert_some hr
    rw [if_neg hfull] at hm₁
    obtain rfl := Option.some.inj hm₁
    cases o with
    | placed m₂ i =>
      obtain rfl := hout
      cases hold
    | exhausted m₂ swapped =>
      obtain ⟨-, -, -, -, -, htrue, -⟩ := hout
      rw [hold] at htrue
      cases htrue
    | updated m₂ i =>
      obtain rfl := hout
      rcases insertLoop_meets (moving_start h.placed _) (fun hne => absurd rfl hne) ho with
        ⟨-, d, hd, hmask, hfound, hpassed⟩ | ⟨lost, hne, htally⟩
      · simp only [home, Nat.mod_add_mod, Nat.zero_add] at hfound hmask hpassed
        exact ⟨d, hd, hmask, hfound, hpassed⟩
      · obtain ⟨hlost, hgone⟩ := h.lost_key hne htally
        obtain ⟨v, hv⟩ := mem_iff_has.mp hlost
        exact absurd (mem_iff_has.mpr ⟨v, (hins.others lost.key hne v).mpr hv⟩) hgone

/-- An insertion does what it is for exactly if its key is new, or it finds the key with the value. -/
theorem WellFormed.inserted_iff (h : WellFormed H m)
    (hr : insert H depth m (Entry.new key value) = some r) : Inserted H m key value r ↔
      (m.Mem key → m.Has key value ∧ (m.size = m.capacity ∨ FindsKey H m key)) := by
  have hstored {e : Entry K V} {v : V} (hwf : WellFormed H r.1) (he : r.1.Stores r.2.2 e)
      (hkey : e.key = key) (hhas : r.1.Has key v) : r.1.find H key = some r.2.2 ∧ e.value = v := by
    obtain ⟨i, e', he', hkey', hvalue⟩ := hhas
    obtain rfl := hwf.distinct i r.2.2 e' e he' he (hkey'.trans hkey.symm)
    obtain rfl := Option.some.inj (he'.2.symm.trans he.2)
    exact ⟨hkey ▸ hwf.find_eq he, hvalue⟩
  cases depth with
  | zero => cases hr
  | succ depth =>
    constructor
    · intro hins hmem
      have hfind := hins.findsKey h hmem hr
      obtain ⟨-, -, -, hhas, -⟩ := insert_present h hmem hfind hr
      obtain ⟨e, he, hkey, hvalue⟩ := hins.value_eq
      exact ⟨(hhas key value).mp ⟨r.2.2, e, he, hkey, hvalue⟩, hfind⟩
    · intro hcond
      by_cases hmem : m.Mem key
      · obtain ⟨hvalue, hfind⟩ := hcond hmem
        obtain ⟨hwf, hold, -, hhas, e, he, hkey⟩ := insert_present h hmem hfind hr
        obtain ⟨hfinds, hval⟩ := hstored hwf he hkey ((hhas key value).mpr hvalue)
        refine ⟨?_, hfinds, ⟨e, he, hkey, hval⟩, fun k _ v => hhas k v⟩
        simp only [hold, hmem, not_true_eq_false, Bool.false_eq_true]
      · obtain ⟨hwf, -, -, hhas, hnew, ⟨e, he, hkey⟩, -⟩ :=
          insert_inserts (depth + 1) m (Entry.new key value) r h hmem rfl hr
        obtain ⟨hfinds, hval⟩ := hstored hwf he hkey ((hhas key value).mpr (Or.inr ⟨rfl, rfl⟩))
        refine ⟨?_, hfinds, ⟨e, he, hkey, hval⟩, fun k hk v => ?_⟩
        · simp only [hnew, hmem, not_false_eq_true]
        · refine (hhas k v).trans (or_iff_left fun hnew => hk hnew.1.symm)

/-! ## An insertion returns -/

/-- The hashes give the keys of a set different slots. -/
def Apart (H : Hashing K) (T : Finset K) (shift : ℕ) : Prop :=
  ∀ k ∈ T, ∀ k' ∈ T, H.hash k % 2 ^ shift = H.hash k' % 2 ^ shift → k = k'

/-- The keys of a well-formed map are from a set, and the map has enough slots. -/
structure Within (H : Hashing K) (T : Finset K) (shift : ℕ) (m : ObjectMap K V) : Prop where
  /-- The map. -/
  wellFormed : WellFormed H m
  /-- The keys. -/
  keys : ∀ k, m.Mem k → k ∈ T
  /-- The number of slots. -/
  shift_le : shift ≤ m.capacityShift

/-- Insertions of new keys return in the maps with enough slots and a property, and keep it. -/
def Returns (H : Hashing K) (T : Finset K) (shift : ℕ) (P : ObjectMap K V → Prop)
    (insert : ObjectMap K V → Entry K V → Option (ObjectMap K V × Bool × ℕ)) : Prop :=
  ∀ m entry, Within H T shift m → P m → entry.key ∈ T → ¬ m.Mem entry.key → entry.marked = false →
    ∃ r, insert m entry = some r ∧ P r.1

/-- All entries are in the slots of their hashes. -/
def AtHome (m : ObjectMap K V) : Prop := ∀ i e, m.Stores i e → e.probe = 0

variable {T : Finset K} {shift : ℕ} {P : ObjectMap K V → Prop}
  {insert : ObjectMap K V → Entry K V → Option (ObjectMap K V × Bool × ℕ)}

omit [DecidableEq K] in
/-- With more slots the keys stay apart. -/
theorem Apart.mono {shift' : ℕ} (h : Apart H T shift) (hle : shift ≤ shift') : Apart H T shift' := by
  intro k hk k' hk' heq
  have hdvd : 2 ^ shift ∣ 2 ^ shift' := Nat.pow_dvd_pow 2 hle
  refine h k hk k' hk' ?_
  rw [← Nat.mod_mod_of_dvd _ hdvd, heq, Nat.mod_mod_of_dvd _ hdvd]

omit [DecidableEq K] in
/-- Keys with different hashes are apart in a map with enough slots. -/
theorem exists_apart (hinj : Set.InjOn H.hash T) : ∃ shift, Apart H T shift := by
  refine ⟨T.sup H.hash, fun k hk k' hk' heq => hinj hk hk' ?_⟩
  have hlt {k : K} (hk : k ∈ T) : H.hash k < 2 ^ T.sup H.hash :=
    (Finset.le_sup hk).trans_lt Nat.lt_two_pow_self
  rwa [Nat.mod_eq_of_lt (hlt hk), Nat.mod_eq_of_lt (hlt hk')] at heq

/-- An insertion returns when its parts do. -/
theorem insert_returns_of {m₁ : ObjectMap K V} {o : Outcome K V}
    (hm₁ : (if m.size = m.capacity then m.resize (ObjectMap.insert H depth) else some m) = some m₁)
    (ho : insertLoop H entry.key m₁.capacity m₁ entry (m₁.home H entry.key) 0 none = some o)
    (hretry : ∀ m₂ swapped, o = .exhausted m₂ swapped → ∃ m₃ r₃,
      m₂.resize (ObjectMap.insert H depth) = some m₃ ∧
        ObjectMap.insert H depth m₃ swapped = some r₃) :
    ∃ r, ObjectMap.insert H (depth + 1) m entry = some r := by
  rw [insert_succ, hm₁, Option.bind_some, ho, Option.bind_some]
  cases o with
  | updated m₂ i => exact ⟨_, rfl⟩
  | placed m₂ i => exact ⟨_, rfl⟩
  | exhausted m₂ swapped =>
    obtain ⟨m₃, r₃, hm₃, hr₃⟩ := hretry m₂ swapped rfl
    simp only [finishInsert, hm₃, hr₃, Option.bind_some]
    split
    · exact ⟨_, rfl⟩
    · exact ⟨_, rfl⟩

/-- In a map whose keys are apart an insertion finds the slot of the hash empty. -/
theorem Apart.returns (h : Apart H T shift) :
    Returns (V := V) H T shift AtHome (ObjectMap.insert H (depth + 1)) := by
  intro m entry hm hhome hentry habsent hmarked
  have hlt := home_lt H m entry.key
  have hempty : m.slots (m.home H entry.key) = none := by
    by_contra hne
    obtain ⟨e, he⟩ := Option.ne_none_iff_exists'.mp hne
    have hstores : m.Stores (m.home H entry.key) e := ⟨hlt, he⟩
    have hadd := hm.wellFormed.home_add _ e hstores
    rw [hhome _ e hstores, Nat.add_zero] at hadd
    have hkey := h.mono hm.shift_le e.key (hm.keys _ ⟨_, e, hstores, rfl⟩) entry.key hentry hadd
    exact habsent ⟨_, e, hstores, hkey⟩
  have hroom : m.size ≠ m.capacity := by
    intro hfull
    have hall := Finset.eq_of_subset_of_card_le m.occupied_subset
      (by rw [Finset.card_range, ← hm.wellFormed.filled_eq]; exact hfull.ge)
    have hmem := hall ▸ Finset.mem_range.mpr hlt
    obtain ⟨e, -, he⟩ := mem_occupied.mp hmem
    rw [hempty] at he
    cases he
  have hloop : insertLoop H entry.key m.capacity m entry (m.home H entry.key) 0 none =
      some (.placed { m.placeEntry entry (m.home H entry.key) 0 with
        filledSlots := m.filledSlots + 1 } (m.home H entry.key)) := by
    obtain ⟨fuel, hfuel⟩ := Nat.exists_eq_succ_of_ne_zero (Nat.ne_of_gt m.capacity_pos)
    rw [hfuel, insertLoop, if_neg (Nat.not_lt_zero _), hempty]
    simp only [hmarked, Bool.false_eq_true, if_false, Option.getD_none]
    rfl
  obtain ⟨r, hr⟩ : ∃ r, ObjectMap.insert H (depth + 1) m entry = some r :=
    insert_returns_of (if_neg hroom) hloop (fun m₂ swapped ho => by cases ho)
  refine ⟨r, hr, ?_⟩
  obtain ⟨m₁, o, hm₁, ho, hout⟩ := insert_some hr
  rw [if_neg hroom] at hm₁
  obtain rfl := Option.some.inj hm₁
  obtain rfl := Option.some.inj (hloop.symm.trans ho)
  obtain rfl := hout
  intro i e he
  rcases (stores_placeEntry hlt).mp he with ⟨-, rfl⟩ | ⟨-, he⟩
  · rfl
  · exact hhome i e he

omit [DecidableEq K] in
/-- The entries of a list are inserted. -/
theorem Returns.foldlM (hret : Returns H T shift P insert) (hins : Inserts H insert)
    {es : List (Entry K V)} (h : Within H T shift m) (hP : P m) (hT : ∀ e ∈ es, e.key ∈ T)
    (hnodup : (es.map Entry.key).Nodup) (habsent : ∀ e ∈ es, ¬ m.Mem e.key) :
    ∃ m', es.foldlM (fun m e => (insert m (Entry.new e.key e.value)).map Prod.fst) m = some m' ∧
      P m' := by
  induction es generalizing m with
  | nil => exact ⟨m, rfl, hP⟩
  | cons e es ih =>
    have he := hT e List.mem_cons_self
    have hnew := habsent e List.mem_cons_self
    obtain ⟨r, hr, hP'⟩ := hret m (Entry.new e.key e.value) h hP he hnew rfl
    obtain ⟨hwf, hshift, -, hhas, -, -, -⟩ :=
      hins m (Entry.new e.key e.value) r h.wellFormed hnew rfl hr
    have hmem {k : K} (hk : r.1.Mem k) : m.Mem k ∨ e.key = k := by
      obtain ⟨v, hv⟩ := mem_iff_has.mp hk
      exact ((hhas k v).mp hv).imp (fun hv => mem_iff_has.mpr ⟨v, hv⟩) fun hkey => hkey.1
    rw [List.map_cons, List.nodup_cons] at hnodup
    have hwithin : Within H T shift r.1 := by
      refine ⟨hwf, fun k hk => ?_, h.shift_le.trans hshift⟩
      rcases hmem hk with hk | rfl
      · exact h.keys k hk
      · exact he
    obtain ⟨m', hm', hP''⟩ := ih hwithin hP' (fun e' he' => hT e' (List.mem_cons_of_mem e he'))
      hnodup.2 fun e' he' hk => by
        rcases hmem hk with hk | hkey
        · exact habsent e' (List.mem_cons_of_mem e he') hk
        · exact hnodup.1 (List.mem_map.mpr ⟨e', he', hkey.symm⟩)
    refine ⟨m', ?_, hP''⟩
    rw [List.foldlM_cons, hr]
    exact hm'

omit [DecidableEq K] in
/-- A resize returns. -/
theorem Returns.resize (hret : Returns H T shift P insert) (hins : Inserts H insert)
    (h : WellFormed H m) (hkeys : ∀ k, m.Mem k → k ∈ T) (hshift : shift ≤ m.capacityShift + 1)
    (hP : ∀ fresh : ObjectMap K V, (∀ i, fresh.slots i = none) → P fresh) :
    ∃ m', m.resize insert = some m' ∧ Within H T shift m' ∧ P m' := by
  obtain ⟨hnodup, -, hmem⟩ := entries_spec h
  let fresh : ObjectMap K V :=
    { slots := fun _ => none, filledSlots := 0, capacityShift := m.capacityShift + 1
      longestProbe := 0 }
  have habsent {k : K} : ¬ fresh.Mem k := by
    rintro ⟨i, e, ⟨-, ⟨⟩⟩, -⟩
  have hfresh : Within H T shift fresh :=
    ⟨wellFormed_empty (fun _ _ => rfl) rfl, fun k hk => absurd hk habsent, hshift⟩
  obtain ⟨m', hm', hP'⟩ := hret.foldlM hins hfresh (hP fresh fun _ => rfl)
    (fun e he => by
      obtain ⟨i, hi⟩ := (hmem e).mp he
      exact hkeys e.key ⟨i, e, hi, rfl⟩) hnodup (fun _ _ => habsent)
  have hresize : m.resize insert = some m' := hm'
  obtain ⟨hwf, hlt, -, hhas, -⟩ := resize_spec hins h hresize
  refine ⟨m', hresize, ⟨hwf, fun k hk => ?_, hshift.trans hlt⟩, hP'⟩
  obtain ⟨v, hv⟩ := mem_iff_has.mp hk
  exact hkeys k (mem_iff_has.mpr ⟨v, (hhas k v).mp hv⟩)

/-- An insertion returns if the ones into maps with more slots do. -/
theorem Returns.insert_returns (hret : Returns H T shift P (ObjectMap.insert H depth))
    (h : WellFormed H m) (hkeys : ∀ k, m.Mem k → k ∈ T) (hshift : shift ≤ m.capacityShift + 1)
    (hP : ∀ fresh : ObjectMap K V, (∀ i, fresh.slots i = none) → P fresh) (hentry : entry.key ∈ T)
    (hmarked : entry.marked = false)
    (hfind : m.Mem entry.key → m.size = m.capacity ∨ FindsKey H m entry.key) :
    ∃ r, ObjectMap.insert H (depth + 1) m entry = some r := by
  have hins := insert_inserts (V := V) (H := H) depth
  obtain ⟨m₁, hm₁⟩ : ∃ m₁, (if m.size = m.capacity then m.resize (ObjectMap.insert H depth)
      else some m) = some m₁ := by
    split
    · obtain ⟨m', hm', -⟩ := hret.resize hins h hkeys hshift hP
      exact ⟨m', hm'⟩
    · exact ⟨m, rfl⟩
  obtain ⟨hwf, hle, -, hroom, hhas, hrobin, hsame⟩ := makeRoom_spec hins h hm₁
  have hmem {k : K} : m₁.Mem k ↔ m.Mem k := by
    rw [mem_iff_has, mem_iff_has]
    exact exists_congr (hhas k)
  by_cases hthere : m.Mem entry.key
  · have hfind₁ : FindsKey H m₁ entry.key := by
      by_cases hfull : m.size = m.capacity
      · exact (hrobin (Or.inl hfull) entry.key).findsKey hwf (hmem.mpr hthere)
      · rw [hsame hfull]
        exact (hfind hthere).resolve_left hfull
    obtain ⟨d, hd, hmask, hkey, hpassed⟩ := hfind₁
    have hstart : m₁.home H entry.key = (H.hash entry.key + 0) % m₁.capacity := rfl
    obtain ⟨j, -, -, hj⟩ := insertLoop_updated entry hd hstart (by rwa [Nat.zero_add]) (by omega)
      (by rwa [Nat.zero_add])
    exact insert_returns_of hm₁ hj fun m₂ swapped ho => by cases ho
  · have hstart := carrying_start hwf hroom (fun hk => hthere (hmem.mp hk)) hmarked
    obtain ⟨o, ho, hkeeps⟩ := insertLoop_spec hstart
    refine insert_returns_of hm₁ ho fun m₂ swapped hout => ?_
    obtain rfl := hout
    obtain ⟨hwf₂, hshift₂, -, habsent₂, hmarked₂, hhas₂⟩ := hkeeps
    have hkeys₂ {k : K} {v : V} (hk : m₂.Has k v ∨ swapped.key = k ∧ swapped.value = v) : k ∈ T := by
      rcases (hhas₂ k v).mpr hk with hk | ⟨rfl, -⟩
      · exact hkeys k (mem_iff_has.mpr ⟨v, (hhas k v).mp hk⟩)
      · exact hentry
    have hswapped : swapped.key ∈ T := hkeys₂ (Or.inr ⟨rfl, rfl⟩)
    obtain ⟨m₃, hm₃, hwithin, hP₃⟩ := hret.resize hins hwf₂
      (fun k hk => by
        obtain ⟨v, hv⟩ := mem_iff_has.mp hk
        exact hkeys₂ (Or.inl hv)) (by omega) hP
    have habsent₃ : ¬ m₃.Mem swapped.key := fun hk => habsent₂ <| by
      obtain ⟨v, hv⟩ := mem_iff_has.mp hk
      exact mem_iff_has.mpr ⟨v, ((resize_spec hins hwf₂ hm₃).2.2.2.1 _ v).mp hv⟩
    obtain ⟨r₃, hr₃, -⟩ := hret m₃ swapped hwithin hP₃ hswapped habsent₃ hmarked₂
    exact ⟨m₃, r₃, hm₃, hr₃⟩

/-- The more slots are missing until the keys are apart, the deeper are the calls. -/
theorem Apart.insert_returns (hapart : Apart H T shift) (n : ℕ) (h : WellFormed H m)
    (hkeys : ∀ k, m.Mem k → k ∈ T) (hshift : shift ≤ m.capacityShift + n + 1)
    (hentry : entry.key ∈ T) (hmarked : entry.marked = false)
    (hfind : m.Mem entry.key → m.size = m.capacity ∨ FindsKey H m entry.key) :
    ∃ r, ObjectMap.insert H (n + 2) m entry = some r := by
  induction n generalizing m entry with
  | zero =>
    refine hapart.returns.insert_returns h hkeys hshift (fun fresh hslots i e he => ?_) hentry hmarked
      hfind
    have hslot := he.2
    rw [hslots] at hslot
    cases hslot
  | succ n ih =>
    have hret : Returns (V := V) H T (shift - (n + 1)) (fun _ => True)
        (ObjectMap.insert H (n + 2)) := by
      intro m entry hm _ hentry habsent hmarked
      have hle := hm.shift_le
      obtain ⟨r, hr⟩ := ih hm.wellFormed hm.keys (by omega) hentry hmarked fun hk => absurd hk habsent
      exact ⟨r, hr, trivial⟩
    exact hret.insert_returns h hkeys (by omega) (fun _ _ => trivial) hentry hmarked hfind

/-! ## Runs -/

/-- After every sequence of operations in which every insertion of a key that is there meets it, an
insertion does what it is for exactly if its key is new, or it finds the key with the value.  It returns
if the hashes of the keys differ and it finds its key. -/
theorem insert_inserted_iff {S : Finset K} (h : Reached H (Op.MeetsKey H) m S) (key : K) (value : V) :
    (∀ depth r, ObjectMap.insert H depth m (Entry.new key value) = some r →
      (Inserted H m key value r ↔
        (m.Mem key → m.Has key value ∧ (m.size = m.capacity ∨ FindsKey H m key)))) ∧
    (Set.InjOn H.hash (Insert.insert key S : Finset K) →
      (m.Mem key → m.size = m.capacity ∨ FindsKey H m key) →
      ∃ depth r, ObjectMap.insert H depth m (Entry.new key value) = some r) := by
  obtain ⟨hwf, hS⟩ := h.wellFormed fun _ _ _ hop => hop
  refine ⟨fun depth r hr => hwf.inserted_iff hr, fun hinj hfind => ?_⟩
  obtain ⟨shift, hapart⟩ := exists_apart hinj
  have hkeys (k : K) (hk : m.Mem k) : k ∈ Insert.insert key S :=
    Finset.mem_insert_of_mem ((hS k).mp hk)
  have hkey : (Entry.new key value).key ∈ Insert.insert key S := Finset.mem_insert_self key S
  obtain ⟨r, hr⟩ := hapart.insert_returns shift hwf hkeys (by omega) hkey rfl hfind
  exact ⟨shift + 2, r, hr⟩

/-- The theorem at a new map. -/
theorem insert_inserted_new :
    ∃ r, ObjectMap.insert sameSlot 1 (create : ObjectMap ℕ Bool) (Entry.new 1 true) = some r ∧
      Inserted sameSlot create 1 true r := by
  refine ⟨_, rfl, ((insert_inserted_iff Reached.create 1 true).1 1 _ rfl).mpr ?_⟩
  rintro ⟨i, e, ⟨-, ⟨⟩⟩, -⟩

/-- A key that is inserted again with another value keeps the old one. -/
theorem reinserted_value_kept : ∃ (m : ObjectMap ℕ Bool) (S : Finset ℕ)
    (r : ObjectMap ℕ Bool × Bool × ℕ), Reached sameSlot (fun _ _ => True) m S ∧
      ObjectMap.insert sameSlot 1 m (Entry.new 1 false) = some r ∧ r.1.Has 1 true ∧
      ¬ Inserted sameSlot m 1 false r := by
  have h₁ : Reached sameSlot (fun _ _ => True) _ _ := Reached.step Reached.create trivial
    (rfl : Op.apply sameSlot 1 create (Op.insert 1 true) = some _)
  refine ⟨_, _, _, h₁, rfl, ⟨0, _, ⟨by decide, rfl⟩, rfl, rfl⟩, fun hins => ?_⟩
  obtain ⟨e, he, -, hvalue⟩ := hins.value_eq
  obtain rfl := Option.some.inj he.2
  cases hvalue

end VeronaRt.ObjectMap
