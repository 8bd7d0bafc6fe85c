import VeronaFs.FileSystem.Assignments

/-!
# The blocks of a file

`FileSystem::truncate` and `FileSystem::my_fallocate` create missing blocks in a loop over positions
that are `BLOCK_SIZE` apart, and `truncate` looks for the blocks to be released from a block id on.
This file says which block ids these loops meet, when their counters overflow, and which entries the
block map has afterwards.  The number of blocks in the attributes follows the map through writes and
reservations but not through truncations.
-/

namespace VeronaFs

open Boc Foundation

/-! ## The ids a loop visits -/

/-- A loop that counts from `i` in steps of `BLOCK_SIZE` while it is below `stop` comes to the block
`k`. -/
def Visits (i stop k : ℤ) : Prop :=
  ∃ j : ℕ, i + j * BLOCK_SIZE < stop ∧ (i + j * BLOCK_SIZE).tdiv BLOCK_SIZE = k

/-- A loop visits the block of its counter and then those of the rest. -/
theorem visits_iff {i stop : ℤ} (hi : i < stop) (k : ℤ) :
    Visits i stop k ↔ k = i.tdiv BLOCK_SIZE ∨ Visits (i + BLOCK_SIZE) stop k := by
  constructor
  · rintro ⟨j, hlt, heq⟩
    cases j with
    | zero => exact .inl (by simpa using heq.symm)
    | succ j =>
      right
      refine ⟨j, ?_, ?_⟩
      · push_cast at hlt
        linarith
      · rw [← heq]
        congr 1
        push_cast
        ring
  · rintro (rfl | ⟨j, hlt, heq⟩)
    · exact ⟨0, by simpa using hi, by simp⟩
    · refine ⟨j + 1, ?_, ?_⟩
      · push_cast
        linarith
      · rw [← heq]
        congr 1
        push_cast
        ring

/-- A loop that is over visits nothing. -/
theorem not_visits {i stop : ℤ} (hi : ¬ i < stop) (k : ℤ) : ¬ Visits i stop k := by
  have hB : (BLOCK_SIZE : ℤ) = 4096 := rfl
  rintro ⟨j, hlt, -⟩
  rw [hB] at hlt
  omega

/-- A loop from a position that is not negative visits as many blocks as there are steps. -/
theorem visits_iff_le {i stop : ℤ} (hi : 0 ≤ i) (k : ℤ) : Visits i stop k ↔
    i < stop ∧ i / BLOCK_SIZE ≤ k ∧ k ≤ i / BLOCK_SIZE + (stop - 1 - i) / BLOCK_SIZE := by
  have hB : (BLOCK_SIZE : ℤ) = 4096 := rfl
  constructor
  · rintro ⟨j, hlt, rfl⟩
    rw [hB] at hlt
    rw [Int.tdiv_eq_ediv_of_nonneg (by rw [hB]; omega), hB]
    omega
  · rintro ⟨hlt, hle, hge⟩
    refine ⟨(k - i / BLOCK_SIZE).toNat, ?_, ?_⟩
    · rw [hB] at hle hge ⊢
      omega
    · rw [Int.tdiv_eq_ediv_of_nonneg (by rw [hB]; omega)]
      rw [hB] at hle ⊢
      omega

namespace File

/-! ## Creating missing blocks -/

/-- `f'` is `f` with a block at each of the ids. -/
structure Ensures (ids : ℤ → Prop) (f f' : File) : Prop extends Grows ids f f' where
  /-- The blocks exist. -/
  present : ∀ k, ids k → f'.inode.dataBlocks[k]? ≠ none
  /-- The map does not shrink. -/
  size_le : f.inode.dataBlocks.size ≤ f'.inode.dataBlocks.size
  /-- The map grows when a block was missing. -/
  of_size_eq : f'.inode.dataBlocks.size = f.inode.dataBlocks.size →
    ∀ k, ids k → f.inode.dataBlocks[k]? ≠ none

variable {ids ids' : ℤ → Prop} {f f' f'' : File}

/-- Nothing has to be created for no ids. -/
theorem Ensures.refl (f : File) (hids : ∀ k, ¬ ids k) : Ensures ids f f where
  toGrows := .refl ids f
  present k hk := absurd hk (hids k)
  size_le := le_rfl
  of_size_eq _ k hk := absurd hk (hids k)

/-- The same holds for equivalent ids. -/
theorem Ensures.iff (h : Ensures ids f f') (hids : ∀ k, ids' k ↔ ids k) : Ensures ids' f f' where
  toGrows := h.toGrows.mono fun k hk => (hids k).mpr hk
  present k hk := h.present k ((hids k).mp hk)
  size_le := h.size_le
  of_size_eq heq k hk := h.of_size_eq heq k ((hids k).mp hk)

/-- Blocks are created for some ids and then for others. -/
theorem Ensures.trans (h : Ensures ids f f') (h' : Ensures ids' f' f'') :
    Ensures (fun k => ids k ∨ ids' k) f f'' where
  toGrows := (h.toGrows.mono fun _ => .inl).trans (h'.toGrows.mono fun _ => .inr)
  present k hk := by
    rcases hk with hk | hk
    · obtain ⟨a, ha⟩ := Option.ne_none_iff_exists'.mp (h.present k hk)
      rw [h'.kept k a ha]
      exact Option.some_ne_none a
    · exact h'.present k hk
  size_le := h.size_le.trans h'.size_le
  of_size_eq heq := by
    have hsize : f'.inode.dataBlocks.size = f.inode.dataBlocks.size :=
      le_antisymm (heq ▸ h'.size_le) h.size_le
    have hold := h.of_size_eq hsize
    rintro k (hk | hk)
    · exact hold k hk
    · obtain ⟨a, ha⟩ := Option.ne_none_iff_exists'.mp (h'.of_size_eq (heq.trans hsize.symm) k hk)
      rcases h.fresh k a ha with hkept | ⟨-, hid, -⟩
      · rw [hkept]
        exact Option.some_ne_none a
      · exact hold k hid

/-- The attributes do not matter. -/
theorem Ensures.of_inode (h : Ensures ids f f') {g : File}
    (hmap : g.inode.dataBlocks = f'.inode.dataBlocks) (hblocks : g.blocks = f'.blocks)
    (hreads : g.reads = f'.reads) : Ensures ids f g where
  toGrows := h.toGrows.congr rfl rfl rfl hmap hblocks hreads
  present := hmap ▸ h.present
  size_le := hmap ▸ h.size_le
  of_size_eq := hmap ▸ h.of_size_eq

/-- When no block is missing the map stays. -/
theorem Ensures.map_eq (h : Ensures ids f f') (hall : ∀ k, ids k → f.inode.dataBlocks[k]? ≠ none) :
    f'.inode.dataBlocks = f.inode.dataBlocks := by
  refine Std.ExtTreeMap.ext_getElem? fun k => ?_
  cases hk : f.inode.dataBlocks[k]? with
  | some a => exact h.kept k a hk
  | none =>
    cases hk' : f'.inode.dataBlocks[k]? with
    | none => rfl
    | some a =>
      rcases h.fresh k a hk' with hold | ⟨-, hid, -⟩
      · rw [hk] at hold
        cases hold
      · exact absurd hk (hall k hid)

/-- The map has the size it had exactly when no block was missing. -/
theorem Ensures.size_eq_iff (h : Ensures ids f f') :
    f'.inode.dataBlocks.size = f.inode.dataBlocks.size ↔
      ∀ k, ids k → f.inode.dataBlocks[k]? ≠ none :=
  ⟨h.of_size_eq, fun hall => by rw [h.map_eq hall]⟩

/-- The number of entries after a block was created. -/
theorem size_emplaceBlock (f : File) (blockId : ℤ) :
    (f.emplaceBlock blockId).inode.dataBlocks.size =
      if f.inode.dataBlocks[blockId]? = none then f.inode.dataBlocks.size + 1
      else f.inode.dataBlocks.size := by
  simp only [emplaceBlock]
  cases hk : f.inode.dataBlocks[blockId]? with
  | none =>
    rw [StdMap.insertIfNew_of_get?_eq_none hk, Std.ExtTreeMap.size_insert, if_neg, if_pos rfl]
    rw [Std.ExtTreeMap.contains_eq_isSome_getElem?, hk]
    exact Bool.false_ne_true
  | some a => rw [StdMap.insertIfNew_of_get?_eq_some hk, if_neg (Option.some_ne_none a)]

/-- A round of a loop that creates missing blocks. -/
theorem ensureBlock_ensures (f : File) (blockId : ℤ) : Ensures (· = blockId) f
    (if f.inode.dataBlocks[blockId]? = none then f.allocateSpace blockId else f) := by
  by_cases hk : f.inode.dataBlocks[blockId]? = none
  · rw [if_pos hk]
    have hsize := f.size_emplaceBlock blockId
    rw [if_pos hk] at hsize
    refine ⟨f.emplaceBlock_grows blockId, ?_, ?_, ?_⟩
    · rintro k rfl
      simp [allocateSpace, emplaceBlock]
    · simp only [allocateSpace, hsize]
      omega
    · intro heq
      simp only [allocateSpace, hsize] at heq
      omega
  · rw [if_neg hk]
    exact ⟨.refl _ f, by rintro k rfl; exact hk, le_rfl, by rintro - k rfl; exact hk⟩

/-- The growing loop of `truncate` creates the blocks it visits. -/
theorem growLoop_ensures {newsize i : ℤ} (h : f.growLoop newsize i = .ok f') :
    Ensures (Visits i newsize) f f' := by
  fun_induction growLoop f newsize i with
  | case1 => cases h
  | case2 f i hi blockId f₁ f₂ hov ih =>
    have h₁ : Ensures (· = blockId) f f₁ := f.ensureBlock_ensures blockId
    have h₂ : Ensures (· = blockId) f f₂ := h₁.of_inode rfl rfl rfl
    exact (h₂.trans (ih h)).iff (visits_iff hi)
  | case3 f i hi =>
    rw [← Except.ok.inj h]
    exact .refl f (not_visits hi)

/-- The loop of `my_fallocate` creates the blocks it visits. -/
theorem fallocateLoop_ensures {i stop : ℤ} (h : f.fallocateLoop i stop = .ok f') :
    Ensures (Visits i stop) f f' := by
  fun_induction fallocateLoop f i stop with
  | case1 => cases h
  | case2 f i hi blockId f₁ hov ih =>
    have h₁ : Ensures (· = blockId) f f₁ := f.ensureBlock_ensures blockId
    exact (h₁.trans (ih h)).iff (visits_iff hi)
  | case3 f i hi =>
    rw [← Except.ok.inj h]
    exact .refl f (not_visits hi)

/-! ## Truncation -/

/-- The block ids that the growing loop of `truncate` computes. -/
def growIds (newsize i : ℤ) : List ℤ :=
  if i < newsize then
    i.tdiv BLOCK_SIZE :: if 2 ^ 31 ≤ i + BLOCK_SIZE then [] else growIds newsize (i + BLOCK_SIZE)
  else []
termination_by (newsize - i).toNat
decreasing_by
  have : (0 : ℤ) < BLOCK_SIZE := by decide
  omega

/-- The block ids that `truncate` computes: the one after which a cut releases the blocks, or those
of the growing loop. -/
def truncateIds (f : File) (newsize : ℤ) : List ℤ :=
  if f.st.stSize = newsize then []
  else if newsize = 0 then []
  else if newsize < f.st.stSize then [newsize.tdiv BLOCK_SIZE]
  else growIds newsize 0

/-- The growing loop computes ids of blocks of the grown file. -/
theorem growIds_bounds {newsize i id : ℤ} (hi : 0 ≤ i) (h : id ∈ growIds newsize i) :
    0 ≤ id ∧ id ≤ (newsize - 1) / BLOCK_SIZE := by
  have hB : (BLOCK_SIZE : ℤ) = 4096 := rfl
  fun_induction growIds newsize i with
  | case1 i hlt ih =>
    rcases List.mem_cons.mp h with rfl | h
    · rw [Int.tdiv_eq_ediv_of_nonneg hi, hB]
      omega
    · split at h
      · cases h
      · exact ih (by rw [hB]; omega) h
  | case2 => cases h

/-- `truncate` runs to its end without an overflow of its counter, the block ids it computes are
those of blocks below the new size, and after growth every block below the new size exists. -/
structure TruncatesSafely (f : File) (newsize : ℤ) : Prop where
  /-- It ends, and growth leaves no block missing. -/
  ends : ∃ f' tasks, f.truncate newsize = .ok (f', tasks) ∧ (f.st.stSize < newsize →
    ∀ p, 0 ≤ p → p < newsize → f'.inode.dataBlocks[p / (BLOCK_SIZE : ℤ)]? ≠ none)
  /-- The block ids are those of blocks of the new size. -/
  ids : ∀ id ∈ f.truncateIds newsize, 0 ≤ id ∧ id ≤ (newsize - 1) / BLOCK_SIZE

/-- A truncation is safe exactly when it changes nothing, cuts everything, cuts inside a block, or
grows the file to a size from which the counter can take one more step. -/
theorem truncatesSafely_iff (f : File) (newsize : ℤ) : f.TruncatesSafely newsize ↔
    newsize = f.st.stSize ∨ newsize = 0 ∨
      (0 < newsize ∧ newsize < f.st.stSize ∧ newsize % BLOCK_SIZE ≠ 0) ∨
      (f.st.stSize < newsize ∧ newsize ≤ 2 ^ 31 - BLOCK_SIZE) := by
  have hB : (BLOCK_SIZE : ℤ) = 4096 := rfl
  by_cases hsame : f.st.stSize = newsize
  · refine iff_of_true ⟨⟨f, [], if_pos hsame, fun hlt => absurd hlt (by omega)⟩, ?_⟩
      (.inl hsame.symm)
    rw [truncateIds, if_pos hsame]
    simp
  by_cases hzero : newsize = 0
  · refine iff_of_true ⟨⟨_, _, (if_neg hsame).trans (if_pos hzero), fun _ p h0 hp => ?_⟩, ?_⟩
      (.inr (.inl hzero))
    · omega
    · rw [truncateIds, if_neg hsame, if_pos hzero]
      simp
  by_cases hcut : newsize < f.st.stSize
  · have hids : f.truncateIds newsize = [newsize.tdiv BLOCK_SIZE] := by
      rw [truncateIds, if_neg hsame, if_neg hzero, if_pos hcut]
    constructor
    · intro h
      have hid := h.ids (newsize.tdiv BLOCK_SIZE) (by rw [hids]; exact List.mem_singleton.mpr rfl)
      rw [hB] at hid ⊢
      by_cases hpos : 0 < newsize
      · rw [Int.tdiv_eq_ediv_of_nonneg hpos.le] at hid
        refine .inr (.inr (.inl ⟨hpos, hcut, ?_⟩))
        omega
      · omega
    · rintro (h | h | ⟨hpos, -, hmod⟩ | h)
      · omega
      · omega
      · refine ⟨⟨_, _, (if_neg hsame).trans ((if_neg hzero).trans (if_pos hcut)),
          fun hlt => absurd hlt (by omega)⟩, ?_⟩
        rw [hids]
        intro id hid
        rw [List.mem_singleton.mp hid, Int.tdiv_eq_ediv_of_nonneg hpos.le]
        rw [hB] at hmod ⊢
        omega
      · omega
  · have hlt : f.st.stSize < newsize := by omega
    have hok := truncate_ok_iff (f := f) (n := newsize)
    constructor
    · intro h
      obtain ⟨f', tasks, htrunc, -⟩ := h.ends
      have hno := hok.mp ⟨_, htrunc⟩
      exact .inr (.inr (.inr ⟨hlt, by omega⟩))
    · intro h
      have hle : newsize ≤ 2 ^ 31 - BLOCK_SIZE := by omega
      obtain ⟨⟨f', tasks⟩, htrunc⟩ := hok.mpr (by omega)
      refine ⟨⟨f', tasks, htrunc, fun _ p h0 hp => ?_⟩, ?_⟩
      · have hgrow : f.growLoop newsize 0 = .ok f' := by
          unfold truncate at htrunc
          rw [if_neg hsame, if_neg hzero, if_neg hcut] at htrunc
          obtain ⟨f₁, hgrow, heq⟩ := bind_eq_ok.mp htrunc
          obtain ⟨rfl, -⟩ := Prod.mk.inj (Except.ok.inj heq)
          exact hgrow
        refine (growLoop_ensures hgrow).present _ ((visits_iff_le le_rfl _).mpr ?_)
        rw [hB]
        omega
      · rw [truncateIds, if_neg hsame, if_neg hzero, if_neg hcut]
        exact fun id hid => growIds_bounds le_rfl hid

end File

/-- A file is not grown safely to two gigabytes, although `setattr` accepts that size. -/
theorem not_truncatesSafely_twoGigabytes :
    ¬ (File.make 3 (initStat 3 0 1 1 4096 0o644 true)).TruncatesSafely (2 ^ 31) := by
  intro h
  obtain ⟨f', tasks, htrunc, -⟩ := h.ends
  exact File.truncate_ok_iff.mp ⟨_, htrunc⟩ ⟨by decide, by decide⟩

/-! ## Reserving blocks -/

namespace File

/-- The blocks of the range exist, blocks that existed keep their contents, and no block outside the
range is new. -/
structure Reserved (f f' : File) (offset length : ℤ) : Prop where
  /-- The blocks of the range exist. -/
  present : ∀ p, offset ≤ p → p < offset + length →
    f'.inode.dataBlocks[p / (BLOCK_SIZE : ℤ)]? ≠ none
  /-- Entries are kept. -/
  kept : ∀ (k : ℤ) (a : ℕ), f.inode.dataBlocks[k]? = some a → f'.inode.dataBlocks[k]? = some a
  /-- Blocks are kept as they are. -/
  contents : f.blocks <+: f'.blocks
  /-- New entries are for blocks of the range. -/
  only : ∀ k, f'.inode.dataBlocks[k]? ≠ none → f.inode.dataBlocks[k]? = none →
    ∃ p, offset ≤ p ∧ p < offset + length ∧ p / (BLOCK_SIZE : ℤ) = k

/-- `my_fallocate` reserves a range exactly when its counter does not step past the largest `off_t`
and either the last block of the range is as many blocks after the first as the length alone tells, or
the last block exists already. -/
theorem fallocate_reserved_iff (f : File) (req : ℕ) {offset length : ℤ} (hoffset : 0 ≤ offset)
    (hlength : 0 < length) (hend : offset + length < 2 ^ 63) :
    (∃ e, f.fallocate req offset length = .ok e ∧ f.Reserved e.state offset length ∧
        e.spawned = []) ↔
      offset + ((length - 1) / BLOCK_SIZE + 1) * BLOCK_SIZE < 2 ^ 63 ∧
        (offset / BLOCK_SIZE + (length - 1) / BLOCK_SIZE = (offset + length - 1) / BLOCK_SIZE ∨
          f.inode.dataBlocks[(offset + length - 1) / (BLOCK_SIZE : ℤ)]? ≠ none) := by
  have hB : (BLOCK_SIZE : ℤ) = 4096 := rfl
  have hover : FallocateOverflows offset length ↔
      ¬ offset + ((length - 1) / BLOCK_SIZE + 1) * BLOCK_SIZE < 2 ^ 63 := by
    rw [hB]
    constructor
    · rintro ⟨k, hlt, hle⟩
      rw [hB] at hlt hle
      omega
    · intro hno
      refine ⟨((length - 1) / 4096).toNat, ?_, ?_⟩ <;> rw [hB] <;> omega
  have hloop := fallocateLoop_ok_iff f offset (offset + length)
  by_cases hno : FallocateOverflows offset length
  · refine iff_of_false ?_ fun h => hover.mp hno h.1
    rintro ⟨e, he, -⟩
    obtain ⟨f₁, hf₁, -⟩ := bind_eq_ok.mp he
    exact hloop.mp ⟨f₁, hf₁⟩ hno
  · obtain ⟨f₁, hf₁⟩ := hloop.mpr hno
    have hensures := fallocateLoop_ensures hf₁
    have hlen : offset + length - 1 - offset = length - 1 := by omega
    have hvisits : ∀ k, Visits offset (offset + length) k ↔ offset < offset + length ∧
        offset / BLOCK_SIZE ≤ k ∧ k ≤ offset / BLOCK_SIZE + (length - 1) / BLOCK_SIZE := by
      intro k
      rw [visits_iff_le hoffset, hlen]
    obtain ⟨ext, hblocks, -⟩ := hensures.appended
    have hbody : f.fallocate req offset length = .ok ⟨{ f₁ with inode.iSt := { f₁.st with
        stSize := max f₁.st.stSize (offset + length)
        stBlocks := f₁.inode.dataBlocks.size } }, [], [.err req 0]⟩ := by
      simp only [fallocate, hf₁, bind, Except.bind]
    constructor
    · rintro ⟨e, he, hres, -⟩
      obtain rfl := Except.ok.inj (hbody.symm.trans he)
      refine ⟨not_not.mp fun h => hno (hover.mpr h), ?_⟩
      by_contra hlast
      obtain ⟨hne, hmissing⟩ := not_or.mp hlast
      obtain ⟨a, ha⟩ := Option.ne_none_iff_exists'.mp
        (hres.present (offset + length - 1) (by omega) (by omega))
      rcases hensures.fresh _ a ha with hold | ⟨-, hid, -⟩
      · rw [hold] at hmissing
        exact hmissing (Option.some_ne_none a)
      · have hbound := ((hvisits _).mp hid).2.2
        rw [hB] at hbound hne
        omega
    · rintro ⟨-, hlast⟩
      refine ⟨_, hbody, ⟨fun p hp hp' => ?_, hensures.kept, ⟨ext, hblocks.symm⟩,
        fun k hk hnone => ?_⟩, rfl⟩
      · by_cases hvisited : p / (BLOCK_SIZE : ℤ) ≤ offset / BLOCK_SIZE + (length - 1) / BLOCK_SIZE
        · refine hensures.present _ ((hvisits _).mpr ⟨by omega, ?_, hvisited⟩)
          rw [hB]
          omega
        · have hp_last : p / (BLOCK_SIZE : ℤ) = (offset + length - 1) / BLOCK_SIZE := by
            rw [hB] at hvisited ⊢
            omega
          rcases hlast with heq | hpresent
          · rw [hp_last, heq] at hvisited
            exact absurd le_rfl hvisited
          · rw [hp_last]
            obtain ⟨a, ha⟩ := Option.ne_none_iff_exists'.mp hpresent
            rw [hensures.kept _ a ha]
            exact Option.some_ne_none a
      · obtain ⟨a, ha⟩ := Option.ne_none_iff_exists'.mp hk
        rcases hensures.fresh k a ha with hold | ⟨-, hid, -⟩
        · rw [hold] at hnone
          cases hnone
        · obtain ⟨-, hle, hge⟩ := (hvisits k).mp hid
          refine ⟨max offset (k * BLOCK_SIZE), le_max_left _ _, ?_, ?_⟩ <;> rw [hB] at hle hge ⊢ <;>
            omega

end File

/-- The first block of an empty file is reserved. -/
theorem fallocate_reserved_firstBlock :
    ∃ e, (File.make 3 (initStat 3 0 1 1 4096 0o644 true)).fallocate 0 0 4096 = .ok e ∧
      (File.make 3 (initStat 3 0 1 1 4096 0o644 true)).Reserved e.state 0 4096 ∧
      e.spawned = [] :=
  (File.fallocate_reserved_iff _ 0 (by decide) (by decide) (by decide)).mpr
    ⟨by decide, .inl (by decide)⟩

/-- Two bytes around the end of the first block of an empty file are not reserved. -/
theorem fallocate_not_reserved_twoBytes :
    ¬ ∃ e, (File.make 3 (initStat 3 0 1 1 4096 0o644 true)).fallocate 0 4095 2 = .ok e ∧
      (File.make 3 (initStat 3 0 1 1 4096 0o644 true)).Reserved e.state 4095 2 ∧
      e.spawned = [] := by
  rintro ⟨e, he, hres, -⟩
  obtain ⟨f₁, hf₁, heq⟩ := bind_eq_ok.mp he
  obtain rfl := Except.ok.inj heq
  have hensures := File.fallocateLoop_ensures hf₁
  obtain ⟨a, ha⟩ := Option.ne_none_iff_exists'.mp (hres.present 4096 (by decide) (by decide))
  rcases hensures.fresh _ a ha with hold | ⟨-, hid, -⟩
  · simp [File.make] at hold
  · have hbound := ((visits_iff_le (by decide) _).mp hid).2.2
    revert hbound
    decide

/-! ## The number of blocks -/

namespace File

/-- The number of blocks in the attributes is the number of entries of the block map. -/
def Counted (f : File) : Prop := f.st.stBlocks = f.inode.dataBlocks.size

/-- A truncation to the size leaves the number of blocks right: it empties a map only when that is
empty already, and it grows the file only where no block is missing. -/
structure CountsAt (f : File) (newsize : ℤ) : Prop where
  /-- Nothing is taken out of the map. -/
  clear : newsize = 0 → f.st.stSize ≠ 0 → f.inode.dataBlocks.size = 0
  /-- Nothing is put into the map. -/
  grow : f.st.stSize < newsize →
    ∀ p, 0 ≤ p → p < newsize → f.inode.dataBlocks[p / (BLOCK_SIZE : ℤ)]? ≠ none

/-- The requests that leave the number of blocks right. -/
def KeepsCount (f : File) : FileRequest → Prop
  | .setattr r => r.SetsSize f.st → f.CountsAt r.attr.stSize
  | .openFile r => VeronaFs.access f.st (openMode r.flags) r.uid r.gid = .ok 0 →
      r.flags &&& O_TRUNC ≠ 0 → f.CountsAt 0
  | _ => True

variable {f f' : File}

/-- The block of a write is counted when it is created. -/
theorem Counted.blockFor (h : f.Counted) (blockId : ℤ) : (f.blockFor blockId).1.Counted := by
  unfold File.blockFor
  cases hk : f.inode.dataBlocks[blockId]? with
  | some a => exact h
  | none =>
    have hone := f.size_emplaceBlock blockId
    rw [if_pos hk] at hone
    have hpresent : (f.emplaceBlock blockId).inode.dataBlocks[blockId]? ≠ none := by
      simp [emplaceBlock]
    have htwo := (f.emplaceBlock blockId).size_emplaceBlock blockId
    rw [if_neg hpresent, hone] at htwo
    have hst : ((f.emplaceBlock blockId).allocateSpace blockId).st.stBlocks =
        f.inode.dataBlocks.size := h
    simp only [Counted, hst]
    simp only [allocateSpace, htwo]
    push_cast
    exact min_self _

/-- The loop of a write counts the blocks it creates. -/
theorem Counted.writeLoop (h : f.Counted) (offset : ℤ) (data : List UInt8)
    (bytesWritten remaining : ℕ) (vec : List Wrapper) :
    (f.writeLoop offset data bytesWritten remaining vec).1.Counted := by
  fun_induction File.writeLoop f offset data bytesWritten remaining vec with
  | case1 => exact h
  | case2 f bytesWritten remaining vec hrem pos blockId blockOffset fa bytesToWrite ih =>
    exact ih (h.blockFor blockId)

/-- A write keeps the count. -/
theorem Counted.write (h : f.Counted) (w : WriteReq) : (f.write w).1.Counted := by
  have htouch : Counted { f with
      inode.iSt := { f.st with
        stCtime := w.now, stMtime := w.now
        stSize := max f.st.stSize (cOff (w.off + w.data.length)) } } := h
  exact htouch.writeLoop w.off w.data 0 w.data.length []

/-- A truncation keeps the count exactly when it leaves the map. -/
theorem truncate_counted_iff (h : f.Counted) {newsize : ℤ} {tasks : List FileTask}
    (htrunc : f.truncate newsize = .ok (f', tasks)) : f'.Counted ↔ f.CountsAt newsize := by
  have hB : (BLOCK_SIZE : ℤ) = 4096 := rfl
  have hst := congrArg Stat.stBlocks (truncate_st htrunc)
  have hblocks : f'.st.stBlocks = f.inode.dataBlocks.size := hst.trans h
  have hcounted : f'.Counted ↔ f'.inode.dataBlocks.size = f.inode.dataBlocks.size := by
    unfold Counted
    rw [hblocks]
    omega
  rw [hcounted]
  unfold truncate at htrunc
  split_ifs at htrunc with hsame hzero hcut
  · obtain ⟨rfl, -⟩ := Prod.mk.inj (Except.ok.inj htrunc)
    exact iff_of_true rfl ⟨fun h0 hne => absurd (hsame.trans h0) hne,
      fun hlt => absurd hsame hlt.ne⟩
  · obtain ⟨rfl, -⟩ := Prod.mk.inj (Except.ok.inj htrunc)
    constructor
    · intro hsize
      exact ⟨fun _ _ => hsize.symm, fun _ p h0 hp => by omega⟩
    · intro hcounts
      exact (hcounts.clear hzero (hzero ▸ hsame)).symm
  · obtain ⟨rfl, -⟩ := Prod.mk.inj (Except.ok.inj htrunc)
    refine iff_of_true ?_ ⟨fun h0 => absurd h0 hzero, fun hlt => by omega⟩
    rw [freeWalk_eq]
    rfl
  · obtain ⟨f₁, hgrow, htrunc⟩ := bind_eq_ok.mp htrunc
    obtain ⟨rfl, -⟩ := Prod.mk.inj (Except.ok.inj htrunc)
    rw [(growLoop_ensures hgrow).size_eq_iff]
    constructor
    · intro hall
      refine ⟨fun h0 => absurd h0 hzero, fun _ p h0 hp => hall _ ((visits_iff_le le_rfl _).mpr ?_)⟩
      rw [hB]
      omega
    · intro hcounts k hk
      obtain ⟨hpos, hle, hge⟩ := (visits_iff_le le_rfl _).mp hk
      have hp := hcounts.grow (by omega) (k * BLOCK_SIZE) (by rw [hB] at hle ⊢; omega)
        (by rw [hB] at hge ⊢; omega)
      rwa [Int.mul_ediv_cancel _ (by decide)] at hp

/-- The behaviour of a request keeps the count exactly when the request does. -/
theorem inodeBody_counted_iff (h : f.Counted) {q : FileRequest} {e : Effect File FileTask Reply}
    (he : f.inodeBody q = .ok e) : e.state.Counted ↔ f.KeepsCount q := by
  cases q with
  | write w =>
    obtain rfl := Except.ok.inj he
    exact iff_of_true (h.write w) trivial
  | read r =>
    obtain rfl := Except.ok.inj he
    refine iff_of_true ?_ trivial
    unfold Counted
    rw [File.st, (f.read_inode r).1]
    exact h
  | setattr r =>
    have he : f.setattr r = .ok e := he
    by_cases hrefused : r.Refused f.st
    · obtain ⟨ret, heq⟩ := setattr_of_refused hrefused
      obtain rfl := Except.ok.inj (heq.symm.trans he)
      refine iff_of_true ?_ fun hsets => ?_
      · exact (setattrFields_sameShape r f.st).blocks.trans h
      · rcases hrefused with hfields | ⟨-, hno⟩
        · exact absurd hsets.fields hfields
        · exact absurd ⟨hsets.allowed, hsets.le⟩ hno
    · have hfields : r.FieldsAllowed f.st := by
        by_contra hnot
        exact hrefused (.inl hnot)
      by_cases hsize : r.has FUSE_SET_ATTR_SIZE
      · have hallowed : r.SizeAllowed f.st ∧ r.attr.stSize ≤ 2199023255552 := by
          by_contra hnot
          exact hrefused (.inr ⟨hsize, hnot⟩)
        obtain ⟨clearMode, f₂, tasks, htrunc, rfl⟩ := setattr_of_size hrefused hsize he
        have hcounted : Counted { f with inode.iSt := r.newStat f.st } := h
        have hiff := truncate_counted_iff hcounted htrunc
        have hsets : r.SetsSize f.st := ⟨hsize, hfields, hallowed.1, hallowed.2⟩
        refine Iff.trans (Iff.trans Iff.rfl hiff) ?_
        exact ⟨fun hc _ => ⟨hc.clear, hc.grow⟩, fun hk => ⟨(hk hsets).clear, (hk hsets).grow⟩⟩
      · obtain ⟨clearMode, heq⟩ := setattr_of_no_size hrefused hsize
        obtain rfl := Except.ok.inj (heq.symm.trans he)
        exact iff_of_true h fun hsets => absurd hsets.size hsize
  | openFile r =>
    obtain ⟨ret, hret, he⟩ := bind_eq_ok.mp he
    by_cases hzero : ret ≠ 0
    · rw [if_pos hzero] at he
      obtain rfl := Except.ok.inj he
      refine iff_of_true h fun hok => ?_
      rw [hret] at hok
      exact absurd (Except.ok.inj hok) hzero
    · rw [if_neg hzero] at he
      simp only at he
      by_cases htr : r.flags &&& O_TRUNC ≠ 0
      · rw [if_pos htr] at he
        obtain ⟨⟨f₁, tasks⟩, htrunc, he⟩ := bind_eq_ok.mp he
        obtain rfl := Except.ok.inj he
        have hiff := truncate_counted_iff h htrunc
        have hok : VeronaFs.access f.st (openMode r.flags) r.uid r.gid = .ok 0 := by
          rw [hret, not_not.mp hzero]
        exact Iff.trans (Iff.trans Iff.rfl hiff) ⟨fun hc _ _ => hc, fun hk => hk hok htr⟩
      · rw [if_neg htr] at he
        obtain rfl := Except.ok.inj he
        exact iff_of_true h fun _ ht => absurd ht htr
  | fallocate req mode offset length =>
    obtain ⟨f₁, -, he⟩ := bind_eq_ok.mp he
    obtain rfl := Except.ok.inj he
    exact iff_of_true rfl trivial
  | opendir req flags uid gid fi =>
    refine iff_of_true ?_ trivial
    simp only [inodeBody] at he
    split at he
    · obtain ⟨ret, -, he⟩ := bind_eq_ok.mp he
      split at he <;>
      · obtain rfl := Except.ok.inj he
        exact h
    · obtain rfl := Except.ok.inj he
      exact h
  | access req mask uid gid =>
    obtain ⟨ret, -, he⟩ := bind_eq_ok.mp he
    obtain rfl := Except.ok.inj he
    exact iff_of_true h trivial

end File

/-- A step of the system that runs at most a behaviour on the inode that leaves the number of blocks
right. -/
def CountStep (c c' : FileConfig) : Prop :=
  ∃ l, fileSystem.Step c l c' ∧ ∀ q, l = .run (.inode q) → c.state.KeepsCount q

/-- One such step keeps the count. -/
theorem CountStep.counted {c c' : FileConfig} (h : CountStep c c') (hc : c.state.Counted) :
    c'.state.Counted := by
  obtain ⟨l, hstep, hkeeps⟩ := h
  cases hstep with
  | @request f pending rs q e hrun =>
    have hhandle : f.handleRequest q = e := Except.ok.inj hrun.handle_eq
    rw [f.handleRequest_eq q] at hhandle
    rw [← hhandle]
    exact hc
  | @run f pre post rs t e hfree hrun =>
    have hbody : File.body t f = .ok e := hrun.body_eq
    by_cases ht : ∃ q, t = .inode q
    · obtain ⟨q, rfl⟩ := ht
      exact (File.inodeBody_counted_iff hc hbody).mpr (hkeeps q rfl)
    · have hblock := File.body_blockStep (fun q hq => ht ⟨q, hq⟩) hbody
      unfold File.Counted
      rw [File.st, hblock.inode_eq]
      exact hc

/-- In every run, with any interleaving of the requests and the behaviours, whose steps leave the
number of blocks right, `st_blocks` is the number of entries of `data_blocks` in every state; and a
behaviour on the inode keeps it so exactly when it meets that condition. -/
theorem blocks_counted {c₀ c : FileConfig} (h₀ : c₀.state.Counted)
    (hrun : Relation.ReflTransGen CountStep c₀ c) :
    c.state.Counted ∧ ∀ q e, c.state.inodeBody q = .ok e →
      (e.state.Counted ↔ c.state.KeepsCount q) := by
  have hcounted : c.state.Counted := by
    induction hrun with
    | refl => exact h₀
    | tail _ hstep ih => exact hstep.counted ih
  exact ⟨hcounted, fun q e he => File.inodeBody_counted_iff hcounted he⟩

/-- The blocks of an empty file are counted after a write of two bytes. -/
theorem blocks_counted_twoBytes : (emptyFile.write twoBytes).1.Counted := by
  have hwf : emptyFile.WF := ⟨by simp [emptyFile, File.make], by simp [emptyFile, File.make]⟩
  have hruns := emptyFile.runs_inode (q := .write twoBytes) hwf rfl
  have hstep : CountStep ⟨emptyFile, [.inode (.write twoBytes)], []⟩
      ⟨(emptyFile.write twoBytes).1, [] ++ (emptyFile.write twoBytes).2,
        [] ++ [.write twoBytes.req twoBytes.data.length]⟩ :=
    ⟨_, System.Step.head hruns, by rintro q hq; cases hq; trivial⟩
  have hempty : emptyFile.Counted := rfl
  exact (blocks_counted hempty (Relation.ReflTransGen.single hstep)).1

/-- A file that is extended by one byte has a block that is not counted. -/
theorem blocks_not_counted_extend : ∃ c, emptyFile.Counted ∧ fileSystem.Step
    ⟨emptyFile, [.inode (.setattr (rootTruncate 1))], []⟩ (.run (.inode (.setattr (rootTruncate 1)))) c ∧
      ¬ c.state.Counted := by
  have hwf : emptyFile.WF := ⟨by simp [emptyFile, File.make], by simp [emptyFile, File.make]⟩
  obtain ⟨f', tasks, st, hruns, -⟩ := runs_rootTruncate hwf (by decide) (n := 1) (by decide)
  refine ⟨_, rfl, System.Step.head hruns, fun hcounted => ?_⟩
  have hbody : emptyFile.inodeBody (.setattr (rootTruncate 1)) = .ok ⟨f', tasks, [.attr 0 st]⟩ :=
    hruns.body_eq
  have hempty : emptyFile.Counted := rfl
  have hkeeps := (File.inodeBody_counted_iff hempty hbody).mp hcounted
  have hsets : (rootTruncate 1).SetsSize emptyFile.st := by
    refine ⟨by decide, ⟨fun _ => .inl rfl, fun _ => .inl rfl, fun _ => .inl rfl, fun _ => .inl rfl,
      fun _ => .inl rfl⟩, .inl rfl, by decide⟩
  exact (hkeeps hsets).grow (by decide) 0 le_rfl (by decide) (by simp [emptyFile, File.make])

end VeronaFs
