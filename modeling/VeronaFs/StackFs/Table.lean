import VeronaFs.StackFs.Buckets

/-!
# The table between two requests

`Table d L` is the invariant of the inode table: its buckets are the lists `L`, every live node is
in the bucket that its hash gives and in no other, and the counts are right.  Each function of the
table keeps it, and says what it does to the stored nodes, `LoData.content`; where the nodes are
linked is not visible in that.
-/

namespace StackFs

open Foundation

/-! ## The bucket of a hash value -/

namespace NodeTable

/-- The bucket of a hash value. -/
def slot (t : NodeTable) (x : ℕ) : ℕ :=
  let hash := x % t.size
  let oldhash := hash % (t.size / 2)
  if t.split ≤ oldhash then oldhash else hash

variable {t : NodeTable} {x s : ℕ}

/-- The bucket is in the array. -/
theorem slot_lt (ht : 0 < t.size) : t.slot x < t.size := by
  have hx : x % t.size < t.size := Nat.mod_lt x ht
  have hold : x % t.size % (t.size / 2) ≤ x % t.size := Nat.mod_le ..
  simp only [slot]
  split <;> omega

/-- No node is in the upper half while no bucket is split. -/
theorem slot_lt_half (ht : 0 < t.size / 2) (hsplit : t.split = 0) : t.slot x < t.size / 2 := by
  simp only [slot, hsplit, Nat.zero_le, if_true]
  exact Nat.mod_lt _ ht

/-- Doubling a table of which all buckets are split moves no node. -/
theorem slot_resize (ht : 0 < t.size / 2) (hsplit : t.split = t.size / 2) :
    (hashTableResize t).slot x = t.slot x := by
  have hold : x % t.size % (t.size / 2) < t.size / 2 := Nat.mod_lt _ ht
  have hmod : x % (t.size * 2) % t.size = x % t.size :=
    Nat.mod_mod_of_dvd x (Dvd.intro 2 rfl)
  have hhalf : t.size * 2 / 2 = t.size := Nat.mul_div_cancel _ Nat.two_pos
  simp only [slot, hashTableResize, hhalf, hmod, Nat.zero_le, if_true]
  rw [if_neg (by omega)]

/-- Halving a table without a split bucket moves no node. -/
theorem slot_halve (ht : 0 < t.size / 2 / 2) (hdvd : 2 ∣ t.size) (hsplit : t.split = 0) :
    ({ t with size := t.size / 2, split := t.size / 2 / 2 } : NodeTable).slot x = t.slot x := by
  have hmod : x % t.size % (t.size / 2) = x % (t.size / 2) :=
    Nat.mod_mod_of_dvd x (Nat.div_dvd_of_dvd hdvd)
  have hold : x % (t.size / 2) % (t.size / 2 / 2) < t.size / 2 / 2 := Nat.mod_lt _ ht
  simp only [slot, hsplit, hmod, Nat.zero_le, if_true]
  rw [if_neg (by omega)]

/-- Splitting a bucket moves nodes of this bucket only. -/
theorem slot_split (hx : t.slot x ≠ t.split) :
    ({ t with split := t.split + 1 } : NodeTable).slot x = t.slot x := by
  simp only [slot] at hx ⊢
  split_ifs at hx ⊢ <;> omega

/-- Merging a bucket moves the nodes of its upper half. -/
theorem slot_merge (hdvd : 2 ∣ t.size) (hs : t.split = s + 1) (hsplit : t.split ≤ t.size / 2) :
    ({ t with split := s } : NodeTable).slot x =
      if t.slot x = s + t.size / 2 then s else t.slot x := by
  have hx : x % t.size < t.size := Nat.mod_lt x (by omega)
  have hold : x % t.size % (t.size / 2) < t.size / 2 := Nat.mod_lt _ (by omega)
  have hcase : x % t.size = x % t.size % (t.size / 2) ∨
      x % t.size = x % t.size % (t.size / 2) + t.size / 2 := by
    rcases Nat.lt_or_ge (x % t.size) (t.size / 2) with hlt | hge
    · exact Or.inl (Nat.mod_eq_of_lt hlt).symm
    · have hmod : x % t.size % (t.size / 2) = x % t.size - t.size / 2 := by
        rw [Nat.mod_eq_sub_mod hge]
        exact Nat.mod_eq_of_lt (by omega)
      exact Or.inr (by omega)
  simp only [slot, hs]
  generalize x % t.size % (t.size / 2) = old at *
  split_ifs <;> omega

end NodeTable

/-- The hash of a path. -/
theorem nameHash_eq (t : NodeTable) (ino : UInt64) (fullpath : List UInt8) :
    nameHash t ino fullpath =
      t.slot (fullpath.foldl (fun hash c => hash * 31 + c.toUInt64) ino).toNat := rfl

/-- The bucket of a live node. -/
def LoData.home (d : LoData) (a : ℕ) : Option ℕ :=
  (d.content a).map fun node => nameHash d.hashTable node.ino node.name

/-! ## The invariant -/

/-- The buckets are the lists `L`, and every live node is in its bucket. -/
structure Settled (d : LoData) (L : ℕ → List ℕ) : Prop extends Buckets d L where
  /-- A node is in its bucket and in no other. -/
  mem_iff : ∀ i a, a ∈ L i ↔ d.home a = some i

/-- The invariant of the table. -/
structure Table (d : LoData) (L : ℕ → List ℕ) : Prop extends Settled d L where
  /-- The count. -/
  use_eq : d.hashTable.use = d.nodes.size
  /-- Only the lower half is split. -/
  split_le : d.hashTable.split ≤ d.hashTable.size / 2
  /-- The array was doubled and halved. -/
  size_eq : ∃ k, d.hashTable.size = hashTableMinSize * 2 ^ k

section Reading

variable {d d' : LoData} {L : ℕ → List ℕ} {l : List ℕ} {a i : ℕ}

/-- A live node has a bucket. -/
theorem LoData.home_of_node {node : LoInode} (ha : d.nodes[a]? = some node) :
    d.home a = some (nameHash d.hashTable node.ino node.name) := by
  rw [home, content, ha]
  rfl

/-- An address without a node has no bucket. -/
theorem LoData.home_of_none (ha : d.nodes[a]? = none) : d.home a = none := by
  rw [home, content, ha]
  rfl

/-- A live node. -/
theorem LoData.exists_node (ha : a ∈ d.nodes) : ∃ node, d.nodes[a]? = some node :=
  Option.isSome_iff_exists.mp (Std.ExtTreeMap.isSome_getElem?_iff_mem.mpr ha)

/-- The bucket of a node depends on the table and on what is stored. -/
theorem LoData.home_congr (hcontent : d'.content a = d.content a)
    (hslot : ∀ x, d'.hashTable.slot x = d.hashTable.slot x) : d'.home a = d.home a := by
  rw [home, home, hcontent]
  cases d.content a with
  | none => rfl
  | some node => exact congrArg some (hslot _)

/-- A change of pointers moves no node. -/
theorem Relinks.home_eq (h : Relinks d d') : d'.home a = d.home a := by
  refine LoData.home_congr (congrFun h.content a) fun x => ?_
  simp only [NodeTable.slot, h.size, h.split]

/-- Live nodes that are all different are not more than there are. -/
theorem LoData.length_le (hl : l.Nodup) (hlive : ∀ a ∈ l, a ∈ d.nodes) : l.length ≤ d.nodes.size := by
  rw [← Std.ExtTreeMap.length_keys]
  exact (hl.subperm fun a ha => Std.ExtTreeMap.mem_keys.mpr (hlive a ha)).length_le

/-- A bucket is not longer than there are nodes. -/
theorem Buckets.length_le (h : Buckets d L) : (L i).length ≤ d.nodes.size :=
  LoData.length_le (h.nodup i) (h.live i)

end Reading

/-! ## Splitting a bucket -/

section Split

variable {d d' : LoData} {L : ℕ → List ℕ} {kept rest : List ℕ} {a i hash newhash fuel : ℕ}
  {v : Option ℕ}

/-- The buckets of another table with the same nodes in them. -/
theorem Buckets.congr (h : Buckets d L)
    (harray : ∀ i < d'.hashTable.size, i < d.hashTable.size ∧
      d'.hashTable.array i = d.hashTable.array i ∨ d'.hashTable.array i = none ∧ L i = [])
    (hnext : ∀ i, ∀ a ∈ L i, d'.next a = d.next a) (hprev : ∀ i, ∀ a ∈ L i, d'.prev a = d.prev a)
    (hlive : ∀ i, ∀ a ∈ L i, a ∈ d'.nodes) : Buckets d' L := by
  refine ⟨fun i hi => ?_, h.nodup, h.disjoint, hlive⟩
  rcases harray i hi with ⟨hi, harray⟩ | ⟨harray, hL⟩
  · rw [harray]
    exact (h.chain i hi).congr (hnext i) (hprev i)
  · rw [harray, hL]
    rfl

/-- The back pointer of a node that is in no bucket is written. -/
theorem Buckets.putPrev (h : Buckets d L) (ha : a ∈ d.nodes) (hnot : ∀ j, a ∉ L j) :
    Buckets (d.putPrev a v) L := by
  refine h.congr (fun i hi => Or.inl ⟨hi, rfl⟩) (fun i b hb => ?_) (fun i b hb => ?_) fun i b hb => ?_
  · rw [LoData.next_putPrev]
  · rw [LoData.prev_putPrev ha]
    have hba : b ≠ a := fun hba => hnot i (hba ▸ hb)
    exact Function.update_of_ne hba _ _
  · exact LoData.mem_putPrev.mpr (h.live i b hb)

/-- The pointers of a node. -/
theorem LoData.next_of_node {node : LoInode} (ha : d.nodes[a]? = some node) :
    d.next a = node.next := by rw [next, ha]; rfl

/-- The pointers of a node. -/
theorem LoData.prev_of_node {node : LoInode} (ha : d.nodes[a]? = some node) :
    d.prev a = node.prev := by rw [prev, ha]; rfl

/-- The state after a node was moved from behind `kept` to another bucket. -/
def LoData.moved (d : LoData) (hash : ℕ) (kept : List ℕ) (a newhash : ℕ) : LoData :=
  let d := ((d.put (refAfter hash kept) (d.next a)).putPrevOf (d.next a) (d.prev a)).putPrev a none
  ((d.putNext a (d.hashTable.array newhash)).putPrevOf (d.hashTable.array newhash)
    (some a)).putBucket newhash (some a)

/-- The move changes pointers only. -/
theorem Relinks.moved (hash : ℕ) (kept : List ℕ) (a newhash : ℕ) :
    Relinks d (d.moved hash kept a newhash) :=
  ((((Relinks.put.trans Relinks.putPrevOf).trans Relinks.putPrev).trans Relinks.putNext).trans
    Relinks.putPrevOf).trans Relinks.putBucket

/-- The buckets after the move. -/
theorem Buckets.moved (h : Buckets d L) (hhash : hash < d.hashTable.size)
    (hnew : newhash < d.hashTable.size) (hne : newhash ≠ hash) (hL : L hash = kept ++ a :: rest) :
    Buckets (d.moved hash kept a newhash)
      (Function.update (Function.update L hash (kept ++ rest)) newhash (a :: L newhash)) := by
  have haL : a ∈ L hash := by simp [hL]
  have ha : a ∉ kept ++ rest := by
    have hnodup := h.nodup hash
    rw [hL] at hnodup
    exact fun hmem => (List.nodup_middle.mp hnodup).notMem hmem
  have hnot (j : ℕ) : a ∉ Function.update L hash (kept ++ rest) j := by
    rcases eq_or_ne j hash with rfl | hj
    · rwa [Function.update_self]
    · rw [Function.update_of_ne hj]
      exact h.not_mem haL hj
  have hlive := h.live hash a haL
  have hdetached := h.detach hhash hL
  have hrel := (Relinks.put (d := d) (r := refAfter hash kept) (v := d.next a)).trans
    (Relinks.putPrevOf (p := d.next a) (v := d.prev a))
  have hfree := hdetached.putPrev (v := none) (hrel.mem_iff.mpr hlive) hnot
  have hrel' := hrel.trans (Relinks.putPrev (a := a) (v := none))
  have hpush := hfree.push (i := newhash) (by rwa [hrel'.size]) (hrel'.mem_iff.mpr hlive) hnot
    (by rw [LoData.prev_putPrev (hrel.mem_iff.mpr hlive), Function.update_self])
  rwa [Function.update_of_ne hne] at hpush

/-- One step of the loop moves the node. -/
theorem remapLoop_moved {node : LoInode} (h : Buckets d L) (hhash : hash < d.hashTable.size)
    (hnew : newhash < d.hashTable.size) (hne : newhash ≠ hash) (hL : L hash = kept ++ a :: rest)
    (hnode : d.nodes[a]? = some node)
    (hnewhash : nameHash d.hashTable node.ino node.name = newhash) :
    remapLoop hash (fuel + 1) (refAfter hash kept) d =
      remapLoop hash fuel (refAfter hash kept) (d.moved hash kept a newhash) := by
  have haL : a ∈ L hash := by simp [hL]
  have hlive := h.live hash a haL
  have hvalid := h.valid_refAfter hhash hL
  have hdetached := h.detach hhash hL
  set d₁ := d.put (refAfter hash kept) (d.next a) with hd₁
  have hrel : Relinks d d₁ := Relinks.put
  have hnext : ∀ b, d.next a = some b → b ∈ d₁.nodes := fun b hb =>
    hrel.mem_iff.mpr (h.next_live hhash haL hb)
  set d₂ := d₁.putPrevOf (d.next a) (d.prev a) with hd₂
  have hrel₂ : Relinks d d₂ := hrel.trans Relinks.putPrevOf
  set d₃ := d₂.putPrev a none with hd₃
  have hrel₃ : Relinks d d₃ := hrel₂.trans Relinks.putPrev
  have hnew₃ : newhash < d₃.hashTable.size := by rwa [hrel₃.size]
  have hhead : ∀ b, d₃.hashTable.array newhash = some b →
      b ∈ (d₃.putNext a (d₃.hashTable.array newhash)).nodes := by
    intro b hb
    have hmem := hdetached.array_mem (i := newhash) hnew₃ hb
    exact LoData.mem_putNext.mpr (LoData.mem_putPrev.mpr (hdetached.live newhash b hmem))
  have hread : d.read (refAfter hash kept) = some (some a) := h.read_refAfter hhash hL
  have hwrite : d.write (refAfter hash kept) node.next = some d₁ := by
    rw [← LoData.next_of_node hnode]
    exact LoData.write_eq hvalid
  have hread₁ : d₁.read (refAfter hash kept) = some (d.next a) := LoData.read_put hvalid
  have hset₂ : d₁.setPrevOf (d.next a) node.prev = some d₂ := by
    rw [← LoData.prev_of_node hnode]
    exact LoData.setPrevOf_eq hnext
  have hset₃ : d₂.setPrev a none = some d₃ := LoData.setPrev_eq (hrel₂.mem_iff.mpr hlive)
  have hbucket : d₃.bucket newhash = some (d₃.hashTable.array newhash) := LoData.bucket_eq hnew₃
  have hset₄ := LoData.setNext_eq (v := d₃.hashTable.array newhash) (hrel₃.mem_iff.mpr hlive)
  set d₄ := d₃.putNext a (d₃.hashTable.array newhash) with hd₄
  have hbucket₄ : d₄.bucket newhash = some (d₃.hashTable.array newhash) := LoData.bucket_eq hnew₃
  have hset₅ := LoData.setPrevOf_eq (v := some a) hhead
  have hset₆ : (d₄.putPrevOf (d₃.hashTable.array newhash) (some a)).setBucket newhash (some a) =
      some (d.moved hash kept a newhash) := by
    refine LoData.setBucket_eq ?_
    rwa [LoData.hashTable_putPrevOf]
  have hnodeAt : d.nodeAt a = some node := hnode
  simp only [remapLoop, Option.bind_eq_bind, hread, hnodeAt, hnewhash, hne, hwrite, hread₁, hset₂,
    hset₃, hbucket, hset₄, hbucket₄, hset₅, hset₆, Option.bind_some, ne_eq, not_false_eq_true,
    if_true]

/-- The loop moves the rest of the bucket to where it belongs. -/
theorem remapLoop_spec (h : Buckets d L) (hhash : hash < d.hashTable.size)
    (hL : L hash = kept ++ rest) (hfuel : rest.length < fuel)
    (hkept : ∀ i a, a ∉ rest → (a ∈ L i ↔ d.home a = some i)) :
    ∃ d' L', remapLoop hash fuel (refAfter hash kept) d = some d' ∧ Settled d' L' ∧
      Relinks d d' := by
  induction rest generalizing fuel d L kept with
  | nil =>
    obtain ⟨fuel, rfl⟩ := Nat.exists_eq_succ_of_ne_zero (Nat.ne_of_gt hfuel)
    refine ⟨d, L, ?_, ⟨h, fun i a => hkept i a List.not_mem_nil⟩, Relinks.refl d⟩
    rw [remapLoop, h.read_refAfter hhash hL]
    rfl
  | cons a rest ih =>
    obtain ⟨fuel, rfl⟩ := Nat.exists_eq_succ_of_ne_zero (Nat.ne_of_gt (Nat.zero_lt_of_lt hfuel))
    have hfuel' : rest.length < fuel := Nat.lt_of_succ_lt_succ hfuel
    have haL : a ∈ L hash := by simp [hL]
    obtain ⟨node, hnode⟩ := LoData.exists_node (h.live hash a haL)
    have hhome := LoData.home_of_node hnode
    by_cases hne : nameHash d.hashTable node.ino node.name = hash
    · have hstep : remapLoop hash (fuel + 1) (refAfter hash kept) d =
          remapLoop hash fuel (refAfter hash (kept ++ [a])) d := by
        have hread : d.read (refAfter hash kept) = some (some a) := h.read_refAfter hhash hL
        have hnodeAt : d.nodeAt a = some node := hnode
        simp only [remapLoop, Option.bind_eq_bind, hread, hnodeAt, Option.bind_some, hne, ne_eq,
          not_true_eq_false, if_false, refAfter_concat]
      rw [hstep]
      refine ih h hhash (hL.trans (List.append_cons ..)) hfuel' fun i b hb => ?_
      rcases eq_or_ne b a with rfl | hba
      · rw [hhome, hne, Option.some.injEq]
        exact ⟨fun hbi => h.disjoint hash i b haL hbi, fun hi => hi ▸ haL⟩
      · exact hkept i b (by simp [hba, hb])
    · have hnew : nameHash d.hashTable node.ino node.name < d.hashTable.size :=
        NodeTable.slot_lt (Nat.zero_lt_of_lt hhash)
      rw [remapLoop_moved h hhash hnew hne hL hnode rfl]
      generalize nameHash d.hashTable node.ino node.name = newhash at hne hnew hhome ⊢
      have hrel := Relinks.moved (d := d) hash kept a newhash
      have hmoved := h.moved hhash hnew hne hL
      have hL' : Function.update (Function.update L hash (kept ++ rest)) newhash (a :: L newhash)
          hash = kept ++ rest := by
        rw [Function.update_of_ne (Ne.symm hne), Function.update_self]
      have hkept' (i b : ℕ) (hb : b ∉ rest) :
          b ∈ Function.update (Function.update L hash (kept ++ rest)) newhash (a :: L newhash) i ↔
            (d.moved hash kept a newhash).home b = some i := by
        rw [hrel.home_eq]
        rcases eq_or_ne b a with rfl | hba
        · rw [hhome, Option.some.injEq]
          constructor
          · intro hbi
            exact hmoved.disjoint newhash i b (by simp) hbi
          · rintro rfl
            simp
        · rw [← hkept i b (by simp [hba, hb])]
          rcases eq_or_ne i newhash with rfl | hin
          · simp [hba]
          · rcases eq_or_ne i hash with rfl | hih
            · simp [hin, hL, hba]
            · simp [hin, hih]
      obtain ⟨d', L', hd', hsettled, hrel'⟩ := ih hmoved (by rwa [hrel.size]) hL' hfuel' hkept'
      exact ⟨d', L', hd', hsettled, hrel.trans hrel'⟩

end Split

end StackFs
