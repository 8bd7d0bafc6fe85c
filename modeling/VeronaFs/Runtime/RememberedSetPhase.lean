import VeronaFs.Runtime.RememberedSet

/-!
# A marking phase of the remembered set

Each entry of the set stands for one reference that the set counts, so marking and sweeping change no
count of the references from elsewhere.  As long as no call of `mark` loses a mark or an entry, the
marked entries are those of the marked objects, one for each, and the sweep leaves exactly these.
-/

namespace VeronaRt.RememberedSet

open ObjectMap

variable {K : Type*} [DecidableEq K] {H : Hashing K} {s s' : RememberedSet K} {M : Finset K}
  {o : K} {i : ℕ} {depth : ℕ}

/-! ## References from elsewhere -/

/-- The references to an object that the set does not count. -/
def outside (s : RememberedSet K) (o : K) : ℤ := s.rc o - s.hashSet.copies o

/-- The counts after a reference was counted. -/
theorem incref_rc (s : RememberedSet K) (o k : K) :
    (s.incref o).rc k = s.rc k + if o = k then 1 else 0 := by
  change Function.update s.rc o _ k = _
  rw [Function.update_apply]
  by_cases hk : k = o
  · rw [if_pos hk, if_pos hk.symm, hk]
  · rw [if_neg hk, if_neg fun hk' => hk hk'.symm, add_zero]

/-- The counts after a reference was counted off. -/
theorem decref_rc (s : RememberedSet K) (o k : K) :
    (s.decref o).rc k = s.rc k - if o = k then 1 else 0 := by
  change Function.update s.rc o _ k = _
  rw [Function.update_apply]
  by_cases hk : k = o
  · rw [if_pos hk, if_pos hk.symm, hk]
  · rw [if_neg hk, if_neg fun hk' => hk hk'.symm, sub_zero]

/-! ## Marking -/

/-- What holds while a set is marked that was `s₀` before. -/
structure Phase (H : Hashing K) (s₀ s : RememberedSet K) (M : Finset K) : Prop where
  /-- The entries. -/
  placed : Placed H s.hashSet
  /-- The references from elsewhere. -/
  outside_eq : ∀ k, s.outside k = s₀.outside k
  /-- The marked entries. -/
  tally_eq : ∀ k, s.hashSet.tally k true = if k ∈ M then 1 else 0
  /-- Nothing has changed until an object is marked. -/
  start_eq : M = ∅ → s = s₀

/-- Where no entry is marked, no object is. -/
theorem Phase.eq_empty {s₀ : RememberedSet K} (h : Phase H s₀ s M) (hnone : NoneMarked s.hashSet) :
    M = ∅ := by
  refine Finset.eq_empty_of_forall_notMem fun k hk => ?_
  have hpos : 0 < s.hashSet.tally k true := by
    rw [h.tally_eq, if_pos hk]
    exact Nat.one_pos
  obtain ⟨i, e, he, -, hmarked⟩ := tally_pos.mp hpos
  rw [hnone i e he] at hmarked
  cases hmarked

/-- An object that has no marked entry is not marked. -/
theorem Phase.not_mem {s₀ : RememberedSet K} (h : Phase H s₀ s M) (hnot : NotMarked s.hashSet o) :
    o ∉ M := by
  intro ho
  have hpos : 0 < s.hashSet.tally o true := by
    rw [h.tally_eq, if_pos ho]
    exact Nat.one_pos
  obtain ⟨i, e, he, hkey, hmarked⟩ := tally_pos.mp hpos
  rw [hnot i e he hkey] at hmarked
  cases hmarked

/-- The phase goes on when an unmarked entry of an object that is not marked is marked. -/
theorem Phase.mark_entry {s₀ : RememberedSet K} {e : Entry K Unit} (h : Phase H s₀ s M)
    (s' : RememberedSet K)
    (he : s'.hashSet.Stores i e) (hkey : e.key = o) (hmarked : e.marked = false) (ho : o ∉ M)
    (hplaced : Placed H s'.hashSet) (houtside : ∀ k, s'.outside k = s.outside k)
    (htally : ∀ k, s'.hashSet.tally k true = s.hashSet.tally k true) :
    Phase H s₀ { s' with hashSet := s'.hashSet.mark i } (Insert.insert o M) where
  placed := hplaced.setMark
  outside_eq := by
    intro k
    rw [← h.outside_eq, ← houtside, outside, outside]
    change _ - (((s'.hashSet.setMark i true).copies k : ℕ) : ℤ) = _
    rw [copies_setMark he]
  tally_eq := by
    intro k
    have hset := tally_setMark (b := true) he k true
    have hold := (htally k).trans (h.tally_eq k)
    change (s'.hashSet.setMark i true).tally k true = _
    simp only [slotTally, hkey, hmarked, Bool.false_eq_true, and_false, if_false, and_true,
      Finset.mem_insert] at hset ⊢
    rcases eq_or_ne o k with rfl | hk
    · rw [if_neg ho] at hold
      rw [if_pos rfl] at hset
      rw [if_pos (Or.inl rfl)]
      omega
    · rw [if_neg hk] at hset
      simp only [hk.symm, false_or]
      omega
  start_eq := fun hempty => absurd hempty (Finset.insert_ne_empty o M)

/-- The phase starts with an insertion into a well-formed set. -/
theorem Phase.mark_first (h : WellFormed H s.hashSet)
    (hreach : s.hashSet.Mem o → s.hashSet.size = s.hashSet.capacity ∨ Reaches H s.hashSet o)
    (hmark : s.mark H depth o = some s') (hphase : Phase H s s ∅) : Phase H s s' {o} := by
  obtain ⟨⟨m, new, i⟩, hr, rfl⟩ := Option.map_eq_some_iff.mp hmark
  obtain ⟨hwf, hmem, hnew, e, he, hkey⟩ := insert_wellFormed h (h.findsKey hreach) rfl hr
  have htally (k : K) : m.tally k true = s.hashSet.tally k true :=
    (hwf.tally_true k).trans (h.tally_true k).symm
  have hkeep := hphase.mark_entry { (if new then s.incref o else s) with hashSet := m } he
    hkey (hwf.unmarked i e he) (Finset.notMem_empty o) hwf.placed (fun k => ?_) htally
  · exact hkeep
  have hcopies (k : K) : (m.copies k : ℤ) = s.hashSet.copies k +
      if new = true ∧ o = k then 1 else 0 := by
    by_cases hk : s.hashSet.Mem k
    · rw [hwf.copies_mem ((hmem k).mpr (Or.inl hk)), h.copies_mem hk, if_neg, add_zero]
      rintro ⟨htrue, rfl⟩
      exact hnew.mp htrue hk
    · rcases eq_or_ne o k with rfl | hne
      · rw [hwf.copies_mem ((hmem o).mpr (Or.inr rfl)), copies_not_mem hk, if_pos ⟨hnew.mpr hk, rfl⟩]
        rfl
      · rw [copies_not_mem hk, copies_not_mem, if_neg fun hboth => hne hboth.2]
        · rfl
        · exact fun hk' => ((hmem k).mp hk').elim hk hne
  rw [outside, outside, hcopies]
  cases new with
  | false => simp
  | true =>
    simp only [if_true, true_and]
    rw [incref_rc]
    omega

/-- A safe call of `mark` keeps the phase going. -/
theorem Phase.mark {s₀ : RememberedSet K} (hwf : WellFormed H s₀.hashSet) (h : Phase H s₀ s M)
    (ho : MarkSafe H s.hashSet o) (hmark : s.mark H depth o = some s') :
    Phase H s₀ s' (Insert.insert o M) := by
  obtain ⟨⟨m, new, i⟩, hr, heq⟩ := Option.map_eq_some_iff.mp hmark
  cases depth with
  | zero => cases hr
  | succ depth =>
    rw [MarkSafe] at ho
    split at ho
    · -- The set is full, and the resize finds it as it was before the phase.
      next hfull =>
      obtain rfl := h.eq_empty ho
      obtain rfl := h.start_eq rfl
      exact Phase.mark_first hwf (fun _ => Or.inl hfull) hmark h
    · next hroom =>
      obtain ⟨stop, hstop, hleads⟩ := insertLoop_stop h.placed hroom (Entry.new o ())
      rw [hstop] at ho
      obtain ⟨m₁, out, hm₁, hout, hres⟩ := insert_some hr
      rw [if_neg hroom] at hm₁
      obtain rfl := Option.some.inj hm₁
      cases stop with
      | found swapped e =>
        obtain ⟨hswapped, hnot⟩ := ho
        obtain ⟨j, hj, he, hkey⟩ := hleads hswapped
        obtain rfl := Option.some.inj (hj.symm.trans hout)
        injection hres with hm hres
        injection hres with hnew hi
        subst hm hnew hi
        cases hmarked : e.marked with
        | false =>
          rw [← heq]
          exact h.mark_entry s he hkey hmarked (h.not_mem (hnot hmarked)) h.placed (fun _ => rfl)
            (fun _ => rfl)
        | true =>
          -- The entry is marked already.
          have hmem : o ∈ M := by
            by_contra hmem
            have hzero := h.tally_eq o
            have hpos : 0 < s.hashSet.tally o true := tally_pos.mpr ⟨i, e, he, hkey, hmarked⟩
            rw [if_neg hmem] at hzero
            omega
          have hsame : s.hashSet.mark i = s.hashSet := by
            rw [ObjectMap.mark, setMark, he.2, Option.map_some, ← hmarked, ← he.2,
              Function.update_eq_self]
          have hs' : s' = s := by
            rw [← heq]
            change { s with hashSet := s.hashSet.mark i } = s
            rw [hsame]
          rw [hs', Finset.insert_eq_of_mem hmem]
          exact h
      | empty carried =>
        obtain ⟨hcarried, hnot⟩ := ho
        obtain ⟨m', j, hj, hplaced, -, htally, e, he, hkey, hmarked⟩ := hleads hcarried
        obtain rfl := Option.some.inj (hj.symm.trans hout)
        injection hres with hm hres
        injection hres with hnew hi
        subst hm hnew hi
        rw [← heq]
        refine h.mark_entry { s.incref o with hashSet := m } he hkey hmarked (h.not_mem hnot)
          hplaced (fun k => ?_) (fun k => ?_)
        · have hcopies : m.copies k = s.hashSet.copies k + if o = k then 1 else 0 := by
            have hboth := slotTally_both k (Entry.new o ())
            have hnew : (if (Entry.new o ()).key = k then 1 else 0) = if o = k then 1 else 0 := rfl
            rw [copies, copies, htally, htally]
            omega
          rw [outside, outside]
          change (s.incref o).rc k - ((m.copies k : ℕ) : ℤ) = _
          rw [hcopies, incref_rc]
          split <;> push_cast <;> omega
        · rw [htally, slotTally, if_neg (fun hboth => Bool.false_ne_true hboth.2), add_zero]
      | exhausted =>
        obtain rfl := h.eq_empty ho.1
        obtain rfl := h.start_eq rfl
        exact Phase.mark_first hwf (fun hmem => absurd hmem ho.2) hmark h

/-- Every phase from a well-formed set keeps what it is to keep. -/
theorem Marking.phase {s₀ : RememberedSet K} (hwf : WellFormed H s₀.hashSet)
    (h : Marking H (Call.Safe H) s₀ M s) : Phase H s₀ s M := by
  induction h with
  | start =>
    refine ⟨hwf.placed, fun _ => rfl, fun k => ?_, fun _ => rfl⟩
    rw [hwf.tally_true, if_neg (Finset.notMem_empty k)]
  | mark _ ho hmark ih => exact ih.mark hwf ho hmark

/-! ## The sweep -/

/-- What the sweep leaves of a slot. -/
def swept : Option (Entry K Unit) → Option (Entry K Unit)
  | none => none
  | some e => if e.marked then some { e with marked := false } else none

/-- One slot of the sweep. -/
theorem sweepAt_spec (h : Placed H s.hashSet) (hi : i < s.hashSet.capacity) :
    Placed H (s.sweepAt i).hashSet ∧
    (s.sweepAt i).hashSet.capacityShift = s.hashSet.capacityShift ∧
    (s.sweepAt i).hashSet.slots = Function.update s.hashSet.slots i (swept (s.hashSet.slots i)) ∧
    ∀ k, (s.sweepAt i).outside k = s.outside k := by
  cases hslot : s.hashSet.slots i with
  | none =>
    have hsame : s.sweepAt i = s := by rw [sweepAt, hslot]
    rw [hsame]
    refine ⟨h, rfl, ?_, fun _ => rfl⟩
    rw [swept, ← hslot, Function.update_eq_self]
  | some e =>
    have he : s.hashSet.Stores i e := ⟨hi, hslot⟩
    rw [sweepAt, hslot]
    simp only [swept]
    split
    · refine ⟨h.setMark, rfl, ?_, fun k => ?_⟩
      · rw [unmark, setMark, hslot]
        rfl
      · rw [outside, outside, unmark, copies_setMark he]
    · refine ⟨h.eraseAt he, rfl, rfl, fun k => ?_⟩
      have hcopies := copies_eraseAt he k
      have hrc := s.decref_rc e.key k
      change (s.decref e.key).rc k - (((s.hashSet.eraseAt i).copies k : ℕ) : ℤ) =
        s.rc k - ((s.hashSet.copies k : ℕ) : ℤ)
      split at hcopies
      · next hk =>
        rw [if_pos hk] at hrc
        omega
      · next hk =>
        rw [if_neg hk] at hrc
        omega

/-- The slots of a list are swept. -/
theorem foldl_sweepAt_spec (is : List ℕ) (hnodup : is.Nodup) (h : Placed H s.hashSet)
    (his : ∀ i ∈ is, i < s.hashSet.capacity) :
    Placed H (is.foldl sweepAt s).hashSet ∧
    (is.foldl sweepAt s).hashSet.capacityShift = s.hashSet.capacityShift ∧
    (∀ i, (is.foldl sweepAt s).hashSet.slots i =
      if i ∈ is then swept (s.hashSet.slots i) else s.hashSet.slots i) ∧
    ∀ k, (is.foldl sweepAt s).outside k = s.outside k := by
  induction is generalizing s with
  | nil => exact ⟨h, rfl, fun i => by simp, fun _ => rfl⟩
  | cons j is ih =>
    obtain ⟨hj, hnodup⟩ := List.nodup_cons.mp hnodup
    obtain ⟨hplaced, hshift, hslots, houtside⟩ := sweepAt_spec h (his j List.mem_cons_self)
    have hlt : ∀ i ∈ is, i < (s.sweepAt j).hashSet.capacity := by
      intro i hi
      rw [capacity, hshift]
      exact his i (List.mem_cons_of_mem j hi)
    obtain ⟨hplaced', hshift', hslots', houtside'⟩ := ih hnodup hplaced hlt
    rw [List.foldl_cons]
    refine ⟨hplaced', hshift'.trans hshift, fun i => ?_, fun k => (houtside' k).trans (houtside k)⟩
    rw [hslots', hslots, Function.update_apply]
    rcases eq_or_ne i j with rfl | hne
    · rw [if_neg hj, if_pos rfl, if_pos List.mem_cons_self]
    · simp only [List.mem_cons, hne, false_or, if_false]

/-- The sweep after a phase leaves exactly the marked objects. -/
theorem Phase.sweep {s₀ : RememberedSet K} (h : Phase H s₀ s M) :
    WellFormed H s.sweep.hashSet ∧ (∀ k, s.sweep.hashSet.Mem k ↔ k ∈ M) ∧
    ∀ k, s.sweep.outside k = s₀.outside k := by
  obtain ⟨hnodup, hvisits⟩ := s.hashSet.visits_spec
  have hlt : ∀ i ∈ s.hashSet.visits, i < s.hashSet.capacity := fun i hi =>
    Finset.mem_range.mp (s.hashSet.occupied_subset ((hvisits i).mp hi))
  obtain ⟨hplaced, hshift, hslots, houtside⟩ := foldl_sweepAt_spec _ hnodup h.placed hlt
  have hcap : s.sweep.hashSet.capacity = s.hashSet.capacity := by
    rw [capacity, capacity]
    exact congrArg (2 ^ ·) hshift
  have hstores {i : ℕ} {e : Entry K Unit} : s.sweep.hashSet.Stores i e ↔
      ∃ e', s.hashSet.Stores i e' ∧ e'.marked = true ∧ e = { e' with marked := false } := by
    rw [Stores, hcap, RememberedSet.sweep, hslots]
    constructor
    · rintro ⟨hi, he⟩
      split at he
      · cases hslot : s.hashSet.slots i with
        | none =>
          rw [hslot] at he
          cases he
        | some e' =>
          rw [hslot, swept] at he
          split at he
          · next hmarked => exact ⟨e', ⟨hi, hslot⟩, hmarked, (Option.some.inj he).symm⟩
          · cases he
      · next hout => exact absurd ((hvisits i).mpr (mem_occupied.mpr ⟨e, hi, he⟩)) hout
    · rintro ⟨e', he', hmarked, rfl⟩
      refine ⟨he'.1, ?_⟩
      rw [if_pos ((hvisits i).mpr (mem_occupied.mpr ⟨e', he'⟩)), he'.2, swept, if_pos hmarked]
  refine ⟨⟨fun i j e e' he he' hkey => ?_, hplaced.home_add, hplaced.probe_le, hplaced.probe_le_mask,
    fun i e he => ?_, hplaced.filled_eq⟩, fun k => ?_, fun k => ?_⟩
  · obtain ⟨d, hd, hmarked, rfl⟩ := hstores.mp he
    obtain ⟨d', hd', hmarked', rfl⟩ := hstores.mp he'
    have hle : s.hashSet.tally d.key true ≤ 1 := by
      rw [h.tally_eq]
      split <;> omega
    exact eq_of_tally_le hle hd hd' ⟨rfl, hmarked⟩ ⟨hkey.symm, hmarked'⟩
  · obtain ⟨d, -, -, rfl⟩ := hstores.mp he
    rfl
  · have hpos : 0 < s.hashSet.tally k true ↔ k ∈ M := by
      rw [h.tally_eq]
      split
      · next hk => simp only [hk, Nat.one_pos]
      · next hk => simp only [hk, Nat.lt_irrefl]
    rw [← hpos, tally_pos, Mem]
    simp only [hstores]
    constructor
    · rintro ⟨i, _, ⟨e, he, hmarked, rfl⟩, hkey⟩
      exact ⟨i, e, he, hkey, hmarked⟩
    · rintro ⟨i, e, he, hkey, hmarked⟩
      exact ⟨i, _, ⟨e, he, hmarked, rfl⟩, hkey⟩
  · exact (houtside k).trans (h.outside_eq k)

/-! ## Runs -/

/-- The entries of a list of slots are discarded. -/
theorem foldl_discardAt_hashSet (release : Bool) (is : List ℕ) (s : RememberedSet K)
    (hnodup : is.Nodup) (his : ∀ i ∈ is, (s.hashSet.slots i).isSome) :
    (is.foldl (discardAt release) s).hashSet = is.foldl eraseAt s.hashSet := by
  induction is generalizing s with
  | nil => rfl
  | cons i is ih =>
    obtain ⟨hi, hnodup⟩ := List.nodup_cons.mp hnodup
    have hone : (s.discardAt release i).hashSet = s.hashSet.eraseAt i := by
      obtain ⟨e, he⟩ := Option.isSome_iff_exists.mp (his i List.mem_cons_self)
      rw [discardAt, he]
      cases release <;> rfl
    rw [List.foldl_cons, List.foldl_cons, ih _ hnodup, hone]
    intro j hj
    rw [hone]
    change (Function.update s.hashSet.slots i none j).isSome
    rw [Function.update_of_ne fun heq : j = i => hi (heq ▸ hj)]
    exact his j (List.mem_cons_of_mem i hj)

/-- Every set that is reached with safe calls is well formed. -/
theorem Reached.wellFormed (h : Reached H (Call.Safe H) s) : WellFormed H s.hashSet := by
  induction h with
  | create rc => exact wellFormed_empty (fun _ _ => rfl) rfl
  | count _ _ ih => exact ih
  | @insert s s' transfer o depth _ ho hs' ih =>
    obtain ⟨r, hr, rfl⟩ := Option.map_eq_some_iff.mp hs'
    have hsame : (if transfer = .noTransfer then s.incref o else s).hashSet = s.hashSet := by
      split <;> rfl
    rw [hsame] at hr
    have hkeep : (if r.2.1 = false ∧ transfer = .yesTransfer then
        decref { (if transfer = .noTransfer then s.incref o else s) with hashSet := r.1 } o
        else { (if transfer = .noTransfer then s.incref o else s) with hashSet := r.1 }).hashSet =
        r.1 := by
      split <;> rfl
    simp only [hkeep]
    have hreach : s.hashSet.Mem (Entry.new o ()).key →
        s.hashSet.size = s.hashSet.capacity ∨ Reaches H s.hashSet (Entry.new o ()).key := ho
    exact (insert_wellFormed ih (ih.findsKey hreach) rfl hr).1
  | sweep _ hm ih => exact (hm.phase ih).sweep.1
  | @discard s _ release ih =>
    obtain ⟨hnodup, hvisits⟩ := s.hashSet.visits_spec
    have hsome : ∀ i ∈ s.hashSet.visits, (s.hashSet.slots i).isSome := fun i hi =>
      (Finset.mem_filter.mp ((hvisits i).mp hi)).2
    obtain ⟨hempty, hzero⟩ := eraseAll_spec ih.placed
    have hfold := foldl_discardAt_hashSet release _ s hnodup hsome
    obtain ⟨hshift, -, -⟩ := foldl_eraseAt s.hashSet.visits s.hashSet
    have hwf : WellFormed H (s.hashSet.visits.foldl (discardAt release) s).hashSet := by
      rw [hfold]
      refine wellFormed_empty (fun i hi => hempty i ?_) hzero
      rwa [capacity, hshift] at hi
    exact (clear_spec hwf.placed false).1

/-- What a marking phase with its sweep makes of a set. -/
structure Kept (H : Hashing K) (s s' : RememberedSet K) (M : Finset K) : Prop where
  /-- The members are the marked objects, each once. -/
  represents : Represents H s'.hashSet M
  /-- No entry is marked. -/
  unmarked : NoneMarked s'.hashSet
  /-- An object that was added has one more reference. -/
  added : ∀ o ∈ M, ¬ s.hashSet.Mem o → s'.rc o = s.rc o + 1
  /-- An object that was dropped has one less. -/
  dropped : ∀ o ∉ M, s.hashSet.Mem o → s'.rc o = s.rc o - 1
  /-- The other objects have as many as before. -/
  same : ∀ o, (o ∈ M ↔ s.hashSet.Mem o) → s'.rc o = s.rc o

/-- The sweep after a marking phase leaves the marked objects, unmarked, and counts one reference for
each, in every run whose insertions find their object and whose calls of `mark` lose no mark and no
entry.  Such a call returns unless the set has to grow, which needs a hash that spreads the objects. -/
theorem marking_phase_keeps_marked (hs : Reached H (Call.Safe H) s)
    (hm : Marking H (Call.Safe H) s M s') :
    Kept H s s'.sweep M ∧ ∀ o depth, Call.Safe H s'.hashSet (.mark o) →
      s'.hashSet.size ≠ s'.hashSet.capacity →
      s'.hashSet.stop H (Entry.new o ()) ≠ some .exhausted →
      ∃ s'', s'.mark H (depth + 1) o = some s'' := by
  have hwf := hs.wellFormed
  have hphase := hm.phase hwf
  obtain ⟨hwf', hmem, houtside⟩ := hphase.sweep
  have hrc (o : K) : s'.sweep.rc o = s.rc o - s.hashSet.copies o + s'.sweep.hashSet.copies o := by
    have heq := houtside o
    rw [outside, outside] at heq
    omega
  refine ⟨⟨hwf'.represents hmem, hwf'.unmarked, fun o ho hnot => ?_, fun o ho hold => ?_,
    fun o hiff => ?_⟩, fun o depth hsafe hroom hstop => ?_⟩
  · rw [hrc, hwf'.copies_mem ((hmem o).mpr ho), copies_not_mem hnot]
    omega
  · rw [hrc, copies_not_mem (fun hk => ho ((hmem o).mp hk)), hwf.copies_mem hold]
    omega
  · by_cases ho : o ∈ M
    · rw [hrc, hwf'.copies_mem ((hmem o).mpr ho), hwf.copies_mem (hiff.mp ho)]
      omega
    · rw [hrc, copies_not_mem (fun hk => ho ((hmem o).mp hk)),
        copies_not_mem (fun hk => ho (hiff.mpr hk))]
      omega
  · obtain ⟨stop, hstop', hleads⟩ := insertLoop_stop hphase.placed hroom (Entry.new o ())
    have hsafe' : MarkSafe H s'.hashSet o := hsafe
    rw [MarkSafe, if_neg hroom, hstop'] at hsafe'
    have hinsert : ∃ r, s'.hashSet.insert H (depth + 1) (Entry.new o ()) = some r := by
      rw [ObjectMap.insert, if_neg hroom]
      cases stop with
      | found swapped e =>
        obtain ⟨j, hj, -⟩ := hleads hsafe'.1
        simp [hj]
      | empty carried =>
        obtain ⟨m', j, hj, -⟩ := hleads hsafe'.1
        simp [hj]
      | exhausted => exact absurd hstop' hstop
    obtain ⟨r, hr⟩ := hinsert
    rw [RememberedSet.mark, hr]
    exact ⟨_, rfl⟩

/-- A hash that gives every object a slot of its own. -/
def ownSlot : Hashing ℕ where
  hash := id
  probeMask := 7

/-- The theorem for a new set in which one object is marked. -/
theorem marking_phase_keeps_marked_one :
    ∃ s' : RememberedSet ℕ, Marking ownSlot (Call.Safe ownSlot) (create fun _ => 1) {1} s' ∧
      Kept ownSlot (create fun _ => 1) s'.sweep {1} := by
  have hsafe : Call.Safe ownSlot (create fun _ : ℕ => 1).hashSet (.mark 1) :=
    ⟨rfl, by rintro _ _ ⟨-, ⟨⟩⟩⟩
  have hmark : Marking ownSlot (Call.Safe ownSlot) (create fun _ => 1) (Insert.insert 1 ∅) _ :=
    Marking.start.mark hsafe (rfl : mark ownSlot 1 (create fun _ => 1) 1 = some _)
  exact ⟨_, hmark, (marking_phase_keeps_marked (Reached.create _) hmark).1⟩

/-- Marking a list of objects is a phase. -/
theorem marking_foldlM {guard : ObjectMap K Unit → Call K → Prop} (hguard : ∀ m c, guard m c)
    (os : List K) {s₀ : RememberedSet K} (h : Marking H guard s₀ M s)
    (hs' : os.foldlM (mark H depth) s = some s') : ∃ M', Marking H guard s₀ M' s' ∧
      M' = M ∪ os.toFinset := by
  induction os generalizing s M with
  | nil =>
    obtain rfl := Option.some.inj hs'
    exact ⟨M, h, by simp⟩
  | cons o os ih =>
    rw [List.foldlM_cons] at hs'
    obtain ⟨s₁, hs₁, hs'⟩ := Option.bind_eq_some_iff.mp hs'
    obtain ⟨M', hM', heq⟩ := ih (h.mark (hguard _ _) hs₁) hs'
    refine ⟨M', hM', ?_⟩
    rw [heq, List.toFinset_cons, Finset.insert_union, Finset.union_insert]

/-- The ninth object that is marked makes a new set grow, and the sweep drops the eight others. -/
theorem marks_lost_in_resize :
    ∃ (s : RememberedSet ℕ) (M : Finset ℕ) (s' : RememberedSet ℕ),
      Reached ownSlot (fun _ _ => True) s ∧ Marking ownSlot (fun _ _ => True) s M s' ∧
      ¬ Kept ownSlot s s'.sweep M := by
  have hsize : ((List.range 9).foldlM (mark ownSlot 2) (create fun _ => 1)).map
      (fun s' => s'.sweep.hashSet.size) = some 1 := by decide +kernel
  obtain ⟨s', hs', hone⟩ := Option.map_eq_some_iff.mp hsize
  obtain ⟨M, hM, rfl⟩ := marking_foldlM (fun _ _ => trivial) _ Marking.start hs'
  refine ⟨create fun _ => 1, _, s', Reached.create _, hM, fun hkept => ?_⟩
  have hcard := hkept.represents.size_eq
  rw [hone] at hcard
  exact absurd hcard (by decide)

end VeronaRt.RememberedSet
