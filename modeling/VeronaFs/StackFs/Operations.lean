import VeronaFs.StackFs.Table

/-!
# The functions of the inode table

Each function that changes the table keeps its invariant and finishes without touching freed memory:
the split and the merge of buckets change no stored node, an insertion adds one and a removal takes
one away.  A lookup finds the nodes with the key and no others.
-/

namespace StackFs

open Foundation

variable {d d' : LoData} {L : ℕ → List ℕ} {l₁ l₂ : List ℕ} {a i fuel : ℕ}

/-! ## The size of the array -/

namespace Table

/-- The array has an even number of cells in each half. -/
theorem size_facts (h : Table d L) :
    2 ∣ d.hashTable.size ∧ 2 ∣ d.hashTable.size / 2 ∧ 0 < d.hashTable.size / 2 / 2 := by
  obtain ⟨k, hk⟩ := h.size_eq
  have hpos : 0 < 2 ^ k := Nat.two_pow_pos k
  rw [hk, hashTableMinSize]
  omega

/-- A bucket behind the array is empty. -/
theorem eq_nil (h : Table d L) (hi : d.hashTable.size ≤ i) : L i = [] := by
  refine List.eq_nil_iff_forall_not_mem.mpr fun a ha => ?_
  obtain ⟨node, hnode⟩ := LoData.exists_node (h.live i a ha)
  have hhome := (h.mem_iff i a).mp ha
  rw [LoData.home_of_node hnode, Option.some.injEq] at hhome
  have hlt : nameHash d.hashTable node.ino node.name < d.hashTable.size :=
    NodeTable.slot_lt (by have := h.size_facts; omega)
  omega

/-- The state with another hash table over the same nodes. -/
theorem congr {t : NodeTable} (h : Table d L)
    (harray : ∀ i < t.size, i < d.hashTable.size ∧
      t.array i = d.hashTable.array i ∨ t.array i = none ∧ L i = [])
    (hslot : ∀ x, t.slot x = d.hashTable.slot x) (huse : t.use = d.hashTable.use)
    (hsplit : t.split ≤ t.size / 2) (hsize : ∃ k, t.size = hashTableMinSize * 2 ^ k) :
    Table { d with hashTable := t } L where
  toBuckets := h.toBuckets.congr harray (fun _ _ _ => rfl) (fun _ _ _ => rfl) h.live
  mem_iff i a := by
    have hhome : ({ d with hashTable := t } : LoData).home a = d.home a :=
      LoData.home_congr rfl hslot
    rw [hhome]
    exact h.mem_iff i a
  use_eq := huse.trans h.use_eq
  split_le := hsplit
  size_eq := hsize

end Table

/-! ## Splitting -/

/-- Doubling the table keeps the invariant. -/
theorem Table.resize (h : Table d L) (hsplit : d.hashTable.split = d.hashTable.size / 2) :
    Table { d with hashTable := hashTableResize d.hashTable } L := by
  have hpos : 0 < d.hashTable.size / 2 := by have := h.size_facts; omega
  refine h.congr (fun i hi => ?_) (fun x => NodeTable.slot_resize hpos hsplit) rfl
    (Nat.zero_le _) ?_
  · rcases Nat.lt_or_ge i d.hashTable.size with hlt | hge
    · exact Or.inl ⟨hlt, if_pos hlt⟩
    · exact Or.inr ⟨if_neg (Nat.not_lt.mpr hge), h.eq_nil hge⟩
  · obtain ⟨k, hk⟩ := h.size_eq
    refine ⟨k + 1, ?_⟩
    rw [hashTableResize, hk, Nat.pow_succ, Nat.mul_assoc]

/-- The split of a bucket keeps the invariant and the nodes. -/
theorem remapHashTable_spec (h : Table d L) :
    ∃ d' L', remapHashTable d = some d' ∧ Table d' L' ∧ d'.content = d.content := by
  by_cases hfull : d.hashTable.split = d.hashTable.size / 2
  · exact ⟨d, L, if_pos hfull, h, rfl⟩
  · have hlt : d.hashTable.split < d.hashTable.size / 2 := lt_of_le_of_ne h.split_le hfull
    set hash := d.hashTable.split with hhash
    set d₁ : LoData := { d with hashTable := { d.hashTable with split := hash + 1 } } with hd₁
    have hbuckets : Buckets d₁ L := h.toBuckets.congr (fun i hi => Or.inl ⟨hi, rfl⟩)
      (fun _ _ _ => rfl) (fun _ _ _ => rfl) h.live
    have hkept (i a : ℕ) (ha : a ∉ L hash) : a ∈ L i ↔ d₁.home a = some i := by
      have hhome : d₁.home a = d.home a := by
        have hne : d.home a ≠ some hash := fun hh => ha ((h.mem_iff hash a).mpr hh)
        rw [LoData.home, LoData.home] at *
        cases hc : d.content a with
        | none =>
          have hc' : d₁.content a = none := hc
          rw [hc']
          rfl
        | some node =>
          have hc' : d₁.content a = some node := hc
          rw [hc, Option.map_some, Ne, Option.some.injEq] at hne
          rw [hc', Option.map_some, Option.map_some, nameHash_eq, nameHash_eq]
          exact congrArg some (NodeTable.slot_split hne)
      rw [hhome]
      exact h.mem_iff i a
    obtain ⟨d₂, L₂, hloop, hsettled, hrel⟩ := remapLoop_spec hbuckets
      (show hash < d.hashTable.size by omega) (show L hash = [] ++ L hash from rfl) (Nat.lt_succ_of_le hbuckets.length_le) hkept
    have htable : Table d₂ L₂ := {
      toSettled := hsettled
      use_eq := hrel.use.trans (h.use_eq.trans hrel.nodes_size.symm)
      split_le := by
        rw [hrel.split, hrel.size]
        exact hlt
      size_eq := by
        rw [hrel.size]
        exact h.size_eq }
    rw [refAfter_nil] at hloop
    have hstep : remapHashTable d = if d₂.hashTable.split = d₂.hashTable.size / 2 then
        some { d₂ with hashTable := hashTableResize d₂.hashTable } else some d₂ := by
      rw [remapHashTable]
      simp only [← hhash, if_neg hfull]
      rw [hloop]
      rfl
    rw [hstep]
    by_cases hlast : d₂.hashTable.split = d₂.hashTable.size / 2
    · exact ⟨_, L₂, if_pos hlast, htable.resize hlast, hrel.content⟩
    · exact ⟨_, L₂, if_neg hlast, htable, hrel.content⟩

/-! ## Insertion -/

/-- A node as it is allocated. -/
def LoInode.fresh (a : ℕ) (st : Stat) (fullpath : List UInt8) : LoInode where
  next := none
  prev := none
  name := fullpath
  ino := st.ino
  dev := st.dev
  loIno := a
  nlookup := 0

section Insert

variable {st : Stat} {fullpath : List UInt8}

/-- The buckets of the nodes after the content of one address was changed. -/
theorem LoData.home_update {o : Option LoInode} (b : ℕ)
    (hcontent : d'.content = Function.update d.content a o)
    (hslot : ∀ x, d'.hashTable.slot x = d.hashTable.slot x) :
    d'.home b = if b = a then o.map fun node => nameHash d.hashTable node.ino node.name
      else d.home b := by
  have hhash (node : LoInode) : nameHash d'.hashTable node.ino node.name =
      nameHash d.hashTable node.ino node.name := hslot _
  rw [home, home, hcontent, Function.update_apply]
  simp only [hhash]
  split <;> rfl

/-- The nodes after an allocation. -/
theorem LoData.getElem?_calloc (d : LoData) (a : ℕ) (st : Stat) (fullpath : List UInt8) (b : ℕ) :
    (d.calloc a st fullpath).nodes[b]? =
      if a = b then some (LoInode.fresh a st fullpath) else d.nodes[b]? :=
  StdMap.get?_insert ..

/-- What is stored after an allocation. -/
theorem LoData.content_calloc (d : LoData) (a : ℕ) :
    (d.calloc a st fullpath).content =
      Function.update d.content a (some (LoInode.fresh a st fullpath)) := by
  funext b
  rw [content, getElem?_calloc, Function.update_apply]
  rcases eq_or_ne a b with rfl | hab
  · rw [if_pos rfl, if_pos rfl]
    rfl
  · rw [if_neg hab, if_neg hab.symm]
    rfl

/-- An address without a node is in no bucket. -/
theorem Table.not_mem_of_none (h : Table d L) (ha : d.nodes[a]? = none) (j : ℕ) : a ∉ L j := by
  intro hmem
  obtain ⟨node, hnode⟩ := LoData.exists_node (h.live j a hmem)
  rw [ha] at hnode
  cases hnode

/-- An insertion of a new node keeps the invariant and adds the node. -/
theorem insertToHashTable_spec (h : Table d L) (ha : d.nodes[a]? = none) (st : Stat)
    (fullpath : List UInt8) :
    ∃ d' L', insertToHashTable (d.calloc a st fullpath) a = some d' ∧ Table d' L' ∧
      d'.content = Function.update d.content a (some (LoInode.fresh a st fullpath)) := by
  have hnot := h.not_mem_of_none ha
  have hsize := h.size_facts
  set d₁ := d.calloc a st fullpath with hd₁
  have hnodes (b : ℕ) := d.getElem?_calloc a st fullpath b
  have hnode : d₁.nodeAt a = some (LoInode.fresh a st fullpath) := (hnodes a).trans (if_pos rfl)
  have hother {i b : ℕ} (hb : b ∈ L i) : d₁.nodes[b]? = d.nodes[b]? :=
    (hnodes b).trans (if_neg fun hab : a = b => hnot i (hab ▸ hb))
  have hlive₁ : a ∈ d₁.nodes :=
    Std.ExtTreeMap.isSome_getElem?_iff_mem.mp (Option.isSome_of_eq_some hnode)
  have hbuckets : Buckets d₁ L := by
    refine h.toBuckets.congr (fun i hi => Or.inl ⟨hi, rfl⟩) (fun i b hb => ?_) (fun i b hb => ?_)
      fun i b hb => ?_
    · rw [LoData.next, LoData.next, hother hb]
    · rw [LoData.prev, LoData.prev, hother hb]
    · rw [← Std.ExtTreeMap.isSome_getElem?_iff_mem, hother hb, Std.ExtTreeMap.isSome_getElem?_iff_mem]
      exact h.live i b hb
  set hash := nameHash d₁.hashTable st.ino fullpath with hhash
  have hlt : hash < d₁.hashTable.size :=
    NodeTable.slot_lt (show 0 < d.hashTable.size by omega)
  have hpush := hbuckets.push hlt hlive₁ hnot (LoData.prev_of_node hnode)
  set head := d₁.hashTable.array hash with hhead
  set d₂ := d₁.putNext a head with hd₂
  set d₃ := d₂.putPrevOf head (some a) with hd₃
  set d₄ := d₃.putBucket hash (some a) with hd₄
  have hrel : Relinks d₁ d₄ := (Relinks.putNext.trans Relinks.putPrevOf).trans Relinks.putBucket
  have hcontent : d₄.content = Function.update d.content a (some (LoInode.fresh a st fullpath)) :=
    hrel.content.trans (LoData.content_calloc d a)
  have htable : Table { d₄ with hashTable := { d₄.hashTable with use := d₄.hashTable.use + 1 } }
      (Function.update L hash (a :: L hash)) := {
    toBuckets := hpush.congr (fun i hi => Or.inl ⟨hi, rfl⟩) (fun _ _ _ => rfl) (fun _ _ _ => rfl)
      hpush.live
    mem_iff := by
      intro i b
      have hslot (x : ℕ) : d₄.hashTable.slot x = d.hashTable.slot x := by
        simp only [NodeTable.slot, hrel.size, hrel.split]
        rfl
      have hhome := LoData.home_update b hcontent hslot
      change _ ↔ d₄.home b = some i
      rw [hhome, Function.update_apply]
      rcases eq_or_ne b a with rfl | hba
      · rw [if_pos rfl, Option.map_some, Option.some.injEq]
        rcases eq_or_ne i hash with rfl | hi
        · rw [if_pos rfl]
          exact iff_of_true List.mem_cons_self rfl
        · rw [if_neg hi]
          exact iff_of_false (hnot i) fun hh => hi hh.symm
      · rw [if_neg hba, ← h.mem_iff i b]
        split
        · next hi => simp [hba, hi]
        · rfl
    use_eq := by
      have hsize₁ : d₁.nodes.size = d.nodes.size + 1 := by
        rw [hd₁, LoData.calloc, Std.ExtTreeMap.size_insert, if_neg]
        simpa using ha
      have huse : d₄.hashTable.use = d.hashTable.use := hrel.use
      change d₄.hashTable.use + 1 = d₄.nodes.size
      rw [huse, hrel.nodes_size, hsize₁, h.use_eq]
    split_le := by
      change d₄.hashTable.split ≤ d₄.hashTable.size / 2
      rw [hrel.split, hrel.size]
      exact h.split_le
    size_eq := by
      change ∃ k, d₄.hashTable.size = hashTableMinSize * 2 ^ k
      rw [hrel.size]
      exact h.size_eq }
  have hstep : insertToHashTable d₁ a =
      if d₄.hashTable.size / 2 ≤ d₄.hashTable.use + 1 then
        remapHashTable { d₄ with hashTable := { d₄.hashTable with use := d₄.hashTable.use + 1 } }
      else some { d₄ with hashTable := { d₄.hashTable with use := d₄.hashTable.use + 1 } } := by
    have hbucket : d₁.bucket hash = some head := LoData.bucket_eq hlt
    have hset₂ : d₁.setNext a head = some d₂ := LoData.setNext_eq hlive₁
    have hbucket₂ : d₂.bucket hash = some head := LoData.bucket_eq hlt
    have hset₃ : d₂.setPrevOf head (some a) = some d₃ := by
      refine LoData.setPrevOf_eq fun b hb => ?_
      exact LoData.mem_putNext.mpr (hbuckets.live hash b (hbuckets.array_mem hlt hb))
    have hset₄ : d₃.setBucket hash (some a) = some d₄ := by
      refine LoData.setBucket_eq ?_
      rwa [hd₃, LoData.hashTable_putPrevOf]
    have hhash' : nameHash d₁.hashTable (LoInode.fresh a st fullpath).ino
      (LoInode.fresh a st fullpath).name = hash := rfl
    simp only [insertToHashTable, Option.bind_eq_bind, hnode, hhash', hbucket, hset₂, hbucket₂, hset₃,
      hset₄, Option.bind_some]
  rw [hstep]
  split
  · obtain ⟨d', L', hd', htable', hcontent'⟩ := remapHashTable_spec htable
    exact ⟨d', L', hd', htable', hcontent'.trans hcontent⟩
  · exact ⟨_, _, rfl, htable, hcontent⟩

end Insert

/-! ## Merging -/

/-- Halving the table keeps the invariant. -/
theorem Table.reduce (h : Table d L) (hsplit : d.hashTable.split = 0) :
    Table { d with hashTable := hashTableReduce d.hashTable } L := by
  obtain ⟨hdvd, hdvd', hpos⟩ := h.size_facts
  rw [hashTableReduce]
  split
  · exact h
  · next hmin =>
    refine h.congr (fun i hi => Or.inl ⟨?_, rfl⟩) (fun x => NodeTable.slot_halve hpos hdvd hsplit) rfl
      le_rfl ?_
    · have hi' : i < d.hashTable.size / 2 := hi
      omega
    · obtain ⟨k, hk⟩ := h.size_eq
      cases k with
      | zero =>
        rw [hk, pow_zero, mul_one] at hmin
        simp [hashTableMinSize] at hmin
      | succ k =>
        refine ⟨k, ?_⟩
        change d.hashTable.size / 2 = _
        rw [hk, pow_succ, ← mul_assoc, Nat.mul_div_cancel _ Nat.two_pos]

/-- Following a bucket leads to its null pointer and its last node. -/
theorem lastRef_spec (h : Buckets d L) (hi : i < d.hashTable.size) (hL : L i = l₁ ++ l₂)
    (hfuel : l₂.length < fuel) :
    lastRef d fuel (refAfter i l₁) l₁.getLast? = some (refAfter i (L i), (L i).getLast?) := by
  induction l₂ generalizing fuel l₁ with
  | nil =>
    obtain ⟨fuel, rfl⟩ := Nat.exists_eq_succ_of_ne_zero (Nat.ne_of_gt hfuel)
    have hread : d.read (refAfter i l₁) = some none := h.read_refAfter hi hL
    have hl₁ : L i = l₁ := hL.trans (List.append_nil l₁)
    rw [hl₁]
    simp only [lastRef, hread, Option.bind_eq_bind, Option.bind_some]
  | cons a l₂ ih =>
    obtain ⟨fuel, rfl⟩ := Nat.exists_eq_succ_of_ne_zero (Nat.ne_of_gt (Nat.zero_lt_of_lt hfuel))
    have hread : d.read (refAfter i l₁) = some (some a) := h.read_refAfter hi hL
    have hrest := ih (hL.trans (List.append_cons ..)) (Nat.lt_of_succ_lt_succ hfuel)
    rw [refAfter_concat, List.getLast?_append, List.getLast?_singleton, Option.some_or] at hrest
    simp only [lastRef, hread, Option.bind_eq_bind, Option.bind_some]
    exact hrest

/-- The state in which the split of bucket `s` is undone, before its upper half is attached. -/
def LoData.unsplit (d : LoData) (s : ℕ) : LoData :=
  { d with hashTable := { d.hashTable with split := s } }

/-- The state after the bucket of `upper` was attached to the bucket `l` below it. -/
def LoData.merged (d : LoData) (s upper : ℕ) (l : List ℕ) : LoData :=
  (((d.unsplit s).put (refAfter s l) (some upper)).putPrev upper l.getLast?).putBucket
    (s + d.hashTable.size / 2) none

section Merge

variable {s upper : ℕ}

/-- The attachment changes pointers only. -/
theorem Relinks.merged (s upper : ℕ) (l₁ : List ℕ) : Relinks (d.unsplit s) (d.merged s upper l₁) :=
  (Relinks.put.trans Relinks.putPrev).trans Relinks.putBucket

/-- The buckets of the nodes after one bucket was merged. -/
theorem Table.home_unsplit (h : Table d L) (hs : d.hashTable.split = s + 1) (b : ℕ) :
    (d.unsplit s).home b =
      if d.home b = some (s + d.hashTable.size / 2) then some s else d.home b := by
  have hcontent : (d.unsplit s).content b = d.content b := rfl
  rw [LoData.home, LoData.home, hcontent]
  cases d.content b with
  | none => rfl
  | some node =>
    simp only [Option.map_some, nameHash_eq, Option.some.injEq, LoData.unsplit]
    rw [NodeTable.slot_merge h.size_facts.1 hs h.split_le]
    split <;> rfl

/-- The buckets as lists are those of the table that was split. -/
theorem Table.unsplit (h : Table d L) : Buckets (d.unsplit s) L :=
  h.toBuckets.congr (fun _ hi => Or.inl ⟨hi, rfl⟩) (fun _ _ _ => rfl) (fun _ _ _ => rfl) h.live

/-- Merging an empty bucket keeps the invariant. -/
theorem Table.merge_nil (h : Table d L) (hs : d.hashTable.split = s + 1)
    (hnil : L (s + d.hashTable.size / 2) = []) : Table (d.unsplit s) L where
  toBuckets := h.unsplit
  mem_iff i b := by
    have hb : d.home b ≠ some (s + d.hashTable.size / 2) := fun hb => by
      have hmem := (h.mem_iff _ b).mpr hb
      rw [hnil] at hmem
      cases hmem
    rw [h.home_unsplit hs, if_neg hb]
    exact h.mem_iff i b
  use_eq := h.use_eq
  split_le := by
    have hsplit := h.split_le
    change s ≤ d.hashTable.size / 2
    omega
  size_eq := h.size_eq

/-- Merging a bucket keeps the invariant. -/
theorem Table.merge (h : Table d L) (hs : d.hashTable.split = s + 1)
    (harray : d.hashTable.array (s + d.hashTable.size / 2) = some upper) :
    Table (d.merged s upper (L s)) (Function.update
      (Function.update L (s + d.hashTable.size / 2) []) s (L s ++ L (s + d.hashTable.size / 2))) := by
  have hsplit := h.split_le
  have hsize := h.size_facts
  have hrel := Relinks.merged (d := d) s upper (L s)
  have hhome (b : ℕ) := h.home_unsplit hs b
  generalize hup : s + d.hashTable.size / 2 = up at *
  have hne : s ≠ up := by omega
  have hlow : s < (d.unsplit s).hashTable.size := by
    change s < d.hashTable.size
    omega
  have hupper : up < (d.unsplit s).hashTable.size := by
    change up < d.hashTable.size
    omega
  constructor
  · constructor
    · have hattach := h.unsplit.attach hlow hupper hne harray
      rw [LoData.merged, hup]
      exact hattach
    · intro i b
      rw [hrel.home_eq, hhome]
      have hmem := h.mem_iff i b
      rcases eq_or_ne i s with rfl | hi
      · rw [Function.update_self, List.mem_append, hmem, h.mem_iff up b]
        split <;> simp_all
      · rw [Function.update_of_ne hi]
        rcases eq_or_ne i up with rfl | hiu
        · rw [Function.update_self]
          split <;> simp_all
        · rw [Function.update_of_ne hiu, hmem]
          split
          · next hb => simp [hb, Ne.symm hi, Ne.symm hiu]
          · rfl
  · exact hrel.use.trans (h.use_eq.trans hrel.nodes_size.symm)
  · rw [hrel.split, hrel.size]
    change s ≤ d.hashTable.size / 2
    omega
  · rw [hrel.size]
    exact h.size_eq

end Merge

/-- The merge of buckets keeps the invariant and the nodes. -/
theorem remergeLoop_spec (iter : ℕ) (h : Table d L) :
    ∃ d' L', remergeLoop iter d = some d' ∧ Table d' L' ∧ d'.content = d.content := by
  induction iter generalizing d with
  | zero => exact ⟨d, L, rfl, h, rfl⟩
  | succ iter ih =>
    by_cases hzero : d.hashTable.split = 0
    · exact ⟨d, L, if_pos hzero, h, rfl⟩
    · obtain ⟨s, hs⟩ := Nat.exists_eq_succ_of_ne_zero hzero
      have hsplit := h.split_le
      have hsize := h.size_facts
      have hsub : d.hashTable.split - 1 = s := by omega
      have hlow : s < (d.unsplit s).hashTable.size := by
        change s < d.hashTable.size
        omega
      have hup : s + d.hashTable.size / 2 < (d.unsplit s).hashTable.size := by
        change s + d.hashTable.size / 2 < d.hashTable.size
        omega
      have hbucket : (d.unsplit s).bucket (s + d.hashTable.size / 2) =
        some (d.hashTable.array (s + d.hashTable.size / 2)) := LoData.bucket_eq hup
      have hbuckets : Buckets (d.unsplit s) L := h.unsplit
      have hstep : remergeLoop (iter + 1) d =
          (d.hashTable.array (s + d.hashTable.size / 2)).elim (remergeLoop iter (d.unsplit s))
            fun upper => some (d.merged s upper (L s)) := by
        rw [remergeLoop, if_neg hzero]
        simp only [hsub]
        rw [LoData.unsplit] at hbucket
        simp only [hbucket, Option.bind_eq_bind, Option.bind_some]
        cases harray : d.hashTable.array (s + d.hashTable.size / 2) with
        | none => rfl
        | some upper =>
          have hlast := lastRef_spec hbuckets hlow (show _ = [] ++ _ from rfl)
            (Nat.lt_succ_of_le hbuckets.length_le)
          have hwrite := LoData.write_eq (v := some upper)
            (hbuckets.valid_refAfter hlow (List.append_nil (L s)).symm)
          have hrel := Relinks.put (d := d.unsplit s) (r := refAfter s (L s)) (v := some upper)
          have hset := LoData.setPrev_eq (v := (L s).getLast?)
            (hrel.mem_iff.mpr (hbuckets.live _ upper (hbuckets.array_mem hup harray)))
          have hclear : (((d.unsplit s).put (refAfter s (L s)) (some upper)).putPrev upper
              (L s).getLast?).setBucket (s + d.hashTable.size / 2) none =
              some (d.merged s upper (L s)) :=
            LoData.setBucket_eq (by rwa [LoData.hashTable_putPrev, hrel.size])
          rw [refAfter_nil, List.getLast?_nil] at hlast
          rw [LoData.unsplit] at hlast hwrite hset hclear
          simp only [hlast, hwrite, hset, Option.bind_some]
          exact hclear
      rw [hstep]
      cases harray : d.hashTable.array (s + d.hashTable.size / 2) with
      | none =>
        have hnil : L (s + d.hashTable.size / 2) = [] :=
          List.head?_eq_none_iff.mp ((hbuckets.chain _ hup).head_eq.symm.trans harray)
        exact ih (h.merge_nil hs hnil)
      | some upper => exact ⟨_, _, rfl, h.merge hs harray, (Relinks.merged _ _ _).content⟩

/-- Merging after a removal keeps the invariant and the nodes. -/
theorem remergeHashTable_spec (h : Table d L) :
    ∃ d' L', remergeHashTable d = some d' ∧ Table d' L' ∧ d'.content = d.content := by
  rw [remergeHashTable]
  by_cases hsplit : d.hashTable.split = 0
  · rw [if_pos hsplit]
    exact remergeLoop_spec 8 (h.reduce hsplit)
  · rw [if_neg hsplit]
    exact remergeLoop_spec 8 h

/-! ## Removal -/

/-- The state after a node was unlinked from bucket `i`, where the nodes `l` are before it. -/
def LoData.unlinked (d : LoData) (i : ℕ) (l : List ℕ) (a : ℕ) : LoData :=
  (d.put (refAfter i l) (d.next a)).putPrevOf (d.next a) (d.prev a)

/-- The state after a node was freed. -/
def LoData.freed (d : LoData) (a : ℕ) : LoData where
  hashTable := { d.hashTable with use := d.hashTable.use - 1 }
  nodes := d.nodes.erase a

/-- What is stored after a node was freed. -/
theorem LoData.content_freed (d : LoData) (a : ℕ) :
    (d.freed a).content = Function.update d.content a none := by
  funext b
  rw [content, freed, StdMap.get?_erase, Function.update_apply]
  rcases eq_or_ne a b with rfl | hab
  · rw [if_pos rfl, if_pos rfl]
    rfl
  · rw [if_neg hab, if_neg hab.symm]
    rfl

/-- Freeing an unlinked node keeps the invariant. -/
theorem Table.freed (h : Table d L) (hi : i < d.hashTable.size) (hL : L i = l₁ ++ a :: l₂) :
    Table ((d.unlinked i l₁ a).freed a) (Function.update L i (l₁ ++ l₂)) := by
  have haL : a ∈ L i := by simp [hL]
  have hnodup := h.nodup i
  rw [hL] at hnodup
  have ha : a ∉ l₁ ++ l₂ := (List.nodup_middle.mp hnodup).notMem
  have hrel : Relinks d (d.unlinked i l₁ a) := Relinks.put.trans Relinks.putPrevOf
  have hdetach : Buckets (d.unlinked i l₁ a) (Function.update L i (l₁ ++ l₂)) := h.detach hi hL
  have hnot (j : ℕ) : a ∉ Function.update L i (l₁ ++ l₂) j := by
    rcases eq_or_ne j i with rfl | hj
    · rwa [Function.update_self]
    · rw [Function.update_of_ne hj]
      exact h.not_mem haL hj
  have hother {j b : ℕ} (hb : b ∈ Function.update L i (l₁ ++ l₂) j) :
      ((d.unlinked i l₁ a).freed a).nodes[b]? = (d.unlinked i l₁ a).nodes[b]? := by
    have hab : a ≠ b := fun hab => hnot j (hab ▸ hb)
    rw [LoData.freed, StdMap.get?_erase, if_neg hab]
  have hcontent : ((d.unlinked i l₁ a).freed a).content = Function.update d.content a none :=
    (LoData.content_freed _ a).trans (congrArg (Function.update · a none) hrel.content)
  have hslot (x : ℕ) : ((d.unlinked i l₁ a).freed a).hashTable.slot x = d.hashTable.slot x := by
    simp only [NodeTable.slot, LoData.freed, hrel.size, hrel.split]
  have hlive : a ∈ (d.unlinked i l₁ a).nodes := hrel.mem_iff.mpr (h.live i a haL)
  constructor
  · constructor
    · refine hdetach.congr (fun j hj => Or.inl ⟨hj, rfl⟩) (fun j b hb => ?_) (fun j b hb => ?_)
        fun j b hb => ?_
      · rw [LoData.next, LoData.next, hother hb]
      · rw [LoData.prev, LoData.prev, hother hb]
      · rw [← Std.ExtTreeMap.isSome_getElem?_iff_mem, hother hb,
          Std.ExtTreeMap.isSome_getElem?_iff_mem]
        exact hdetach.live j b hb
    · intro j b
      rw [LoData.home_update b hcontent hslot]
      rcases eq_or_ne b a with rfl | hba
      · rw [if_pos rfl, Option.map_none]
        exact iff_of_false (hnot j) (by simp)
      · rw [if_neg hba, ← h.mem_iff j b]
        rcases eq_or_ne j i with rfl | hj
        · simp [hL, hba]
        · rw [Function.update_of_ne hj]
  · change (d.unlinked i l₁ a).hashTable.use - 1 = ((d.unlinked i l₁ a).nodes.erase a).size
    rw [hrel.use, h.use_eq, Std.ExtTreeMap.size_erase, hrel.nodes_size,
      if_pos (Std.ExtTreeMap.contains_iff_mem.mpr hlive)]
  · change (d.unlinked i l₁ a).hashTable.split ≤ (d.unlinked i l₁ a).hashTable.size / 2
    rw [hrel.split, hrel.size]
    exact h.split_le
  · change ∃ k, (d.unlinked i l₁ a).hashTable.size = hashTableMinSize * 2 ^ k
    rw [hrel.size]
    exact h.size_eq

/-- The removal of a live node keeps the invariant and takes the node away. -/
theorem deleteFromHashTable_spec (h : Table d L) (ha : a ∈ d.nodes) :
    ∃ d' L', deleteFromHashTable d a = some d' ∧ Table d' L' ∧
      d'.content = Function.update d.content a none := by
  obtain ⟨node, hnode⟩ := LoData.exists_node ha
  have hsize := h.size_facts
  set i := nameHash d.hashTable node.ino node.name with hidef
  have hi : i < d.hashTable.size := NodeTable.slot_lt (show 0 < d.hashTable.size by omega)
  have haL : a ∈ L i := (h.mem_iff i a).mpr (LoData.home_of_node hnode)
  obtain ⟨l₁, l₂, hL⟩ := List.append_of_mem haL
  have htable := h.freed hi hL
  have hrel : Relinks d (d.unlinked i l₁ a) := Relinks.put.trans Relinks.putPrevOf
  have hcontent : ((d.unlinked i l₁ a).freed a).content = Function.update d.content a none :=
    (LoData.content_freed _ a).trans (congrArg (Function.update · a none) hrel.content)
  have hchain := h.chain i hi
  rw [hL] at hchain
  have hnodeAt : d.nodeAt a = some node := hnode
  have hnext : d.next a = node.next := LoData.next_of_node hnode
  have hprev : node.prev = l₁.getLast? := (LoData.prev_of_node hnode).symm.trans hchain.prev_eq
  have hnextLive : ∀ b, node.next = some b → b ∈ d.nodes := fun b hb =>
    h.next_live hi haL (hnext.trans hb)
  have hstep : deleteFromHashTable d a =
      if ((d.unlinked i l₁ a).freed a).hashTable.use <
          ((d.unlinked i l₁ a).freed a).hashTable.size / 4 then
        remergeHashTable ((d.unlinked i l₁ a).freed a)
      else some ((d.unlinked i l₁ a).freed a) := by
    cases l₁ using List.reverseRecOn with
    | nil =>
      have hset := LoData.setPrevOf_eq (v := none) hnextLive
      have hclear : (d.putPrevOf node.next none).setBucket i node.next =
          some (d.unlinked i [] a) := by
        have hsame : d.unlinked i [] a = (d.putPrevOf node.next none).putBucket i node.next := by
          rw [LoData.unlinked, refAfter_nil, hnext, LoData.prev_of_node hnode, hprev]
          cases node.next <;> rfl
        rw [hsame]
        exact LoData.setBucket_eq (by rwa [LoData.hashTable_putPrevOf])
      have hhash : nameHash d.hashTable node.ino node.name = i := rfl
      simp only [deleteFromHashTable, Option.bind_eq_bind, hnodeAt, Option.bind_some, hprev,
        List.getLast?_nil, hset, hhash, hclear]
      rfl
    | append_singleton l b =>
      have hb : b ∈ d.nodes := h.live i b (by simp [hL])
      have hprev' : node.prev = some b := by
        rw [hprev, List.getLast?_append, List.getLast?_singleton, Option.some_or]
      have hset := LoData.setNext_eq (v := node.next) hb
      have hback : (d.putNext b node.next).setPrevOf node.next (some b) =
          some (d.unlinked i (l ++ [b]) a) := by
        rw [LoData.unlinked, refAfter_concat, hnext, LoData.prev_of_node hnode, hprev']
        exact LoData.setPrevOf_eq fun c hc => LoData.mem_putNext.mpr (hnextLive c hc)
      simp only [deleteFromHashTable, Option.bind_eq_bind, hnodeAt, Option.bind_some, hprev', hset,
        hback]
      rfl
  rw [hstep]
  split
  · obtain ⟨d', L', hd', htable', hcontent'⟩ := remergeHashTable_spec htable
    exact ⟨d', L', hd', htable', hcontent'.trans hcontent⟩
  · exact ⟨_, _, rfl, htable, hcontent⟩

end StackFs
