import VeronaFs.StackFs.Operations

/-!
# The table over all sequences of requests

Lookups find a node exactly if one with the key is live, and every request of the kernel keeps the
invariant of the table and finishes, whatever splits, doublings, merges and halvings it starts.
-/

namespace StackFs

open Foundation

variable {d d' : LoData} {L : ℕ → List ℕ} {l₁ l₂ : List ℕ} {a i fuel : ℕ} {st : Stat}
  {fullpath : List UInt8}

/-! ## Lookups -/

/-- What the node at an address is found by. -/
def LoData.keyAt (d : LoData) (a : ℕ) : Option Key := d.nodes[a]?.map LoInode.key

/-- The search of a bucket finds its first node with the key. -/
theorem lookupFrom_spec (h : Table d L) (key : Key) (hi : i < d.hashTable.size)
    (hL : L i = l₁ ++ l₂) (hfuel : l₂.length ≤ fuel) :
    lookupFrom d key fuel l₂.head? = some (l₂.find? fun a => d.keyAt a = some key) := by
  induction l₂ generalizing fuel l₁ with
  | nil => cases fuel <;> rfl
  | cons a l₂ ih =>
    obtain ⟨fuel, rfl⟩ := Nat.exists_eq_succ_of_ne_zero (Nat.ne_of_gt (Nat.zero_lt_of_lt hfuel))
    obtain ⟨node, hnode⟩ := LoData.exists_node (h.live i a (by simp [hL]))
    have hchain := h.chain i hi
    rw [hL] at hchain
    have hnodeAt : d.nodeAt a = some node := hnode
    have hnext : node.next = l₂.head? := (LoData.next_of_node hnode).symm.trans hchain.next_eq
    have hkey : d.keyAt a = some node.key := by rw [LoData.keyAt, hnode]; rfl
    have hrest := ih (hL.trans (List.append_cons ..)) (Nat.le_of_succ_le_succ hfuel)
    rw [List.find?_cons, hkey]
    simp only [List.head?_cons, lookupFrom, hnodeAt, Option.bind_eq_bind, Option.bind_some,
      Option.some.injEq, hnext, hrest]
    by_cases hk : node.key = key <;> simp [hk]

/-- A lookup finds the first node of its bucket with the key. -/
theorem lookupLoInode_eq (h : Table d L) :
    lookupLoInode d st fullpath = some ((L (nameHash d.hashTable st.ino fullpath)).find?
      fun a => d.keyAt a = some ⟨st.ino, st.dev, fullpath⟩) := by
  have hsize := h.size_facts
  have hi : nameHash d.hashTable st.ino fullpath < d.hashTable.size :=
    NodeTable.slot_lt (show 0 < d.hashTable.size by omega)
  rw [lookupLoInode]
  simp only [LoData.bucket_eq hi, Option.bind_eq_bind, Option.bind_some, (h.chain _ hi).head_eq]
  exact lookupFrom_spec h _ hi (show _ = [] ++ _ from rfl) h.length_le

/-- A node with the key is in the bucket of the key. -/
theorem Table.mem_of_keyAt (h : Table d L) (ha : d.keyAt a = some ⟨st.ino, st.dev, fullpath⟩) :
    a ∈ L (nameHash d.hashTable st.ino fullpath) := by
  obtain ⟨node, hnode, hkey⟩ := Option.map_eq_some_iff.mp ha
  rw [LoInode.key, Key.mk.injEq] at hkey
  obtain ⟨hino, -, hname⟩ := hkey
  rw [h.mem_iff, LoData.home_of_node hnode, hino, hname]

/-- A lookup finds a node with the key exactly if one is live. -/
theorem lookupLoInode_spec (h : Table d L) (st : Stat) (fullpath : List UInt8) :
    ∃ inode, lookupLoInode d st fullpath = some inode ∧
    (∀ a, inode = some a → d.keyAt a = some ⟨st.ino, st.dev, fullpath⟩) ∧
    (inode.isSome ↔ ∃ a, d.keyAt a = some ⟨st.ino, st.dev, fullpath⟩) := by
  refine ⟨_, lookupLoInode_eq h, fun a ha => ?_, ?_⟩
  · simpa using List.find?_some ha
  · rw [List.find?_isSome]
    constructor
    · rintro ⟨a, -, ha⟩
      exact ⟨a, by simpa using ha⟩
    · rintro ⟨a, ha⟩
      exact ⟨a, h.mem_of_keyAt ha, by simpa using ha⟩

/-! ## Counts -/

/-- The state with another count of a node. -/
def LoData.putCount (d : LoData) (a : ℕ) (g : UInt64 → UInt64) : LoData :=
  { d with nodes := d.nodes.modify a fun node => { node with nlookup := g node.nlookup } }

/-- A change of the count of a node. -/
theorem LoData.getElem?_putCount (d : LoData) (a : ℕ) (g : UInt64 → UInt64) (b : ℕ) :
    (d.putCount a g).nodes[b]? =
      if a = b then d.nodes[b]?.map fun node => { node with nlookup := g node.nlookup }
      else d.nodes[b]? :=
  LoData.getElem?_modify ..

/-- A change of a count is not a change of the table. -/
theorem Table.putCount (h : Table d L) (g : UInt64 → UInt64) : Table (d.putCount a g) L := by
  have hmem (b : ℕ) : b ∈ (d.putCount a g).nodes ↔ b ∈ d.nodes := Std.ExtTreeMap.mem_modify
  constructor
  · constructor
    · refine h.toBuckets.congr (fun i hi => Or.inl ⟨hi, rfl⟩) (fun i b hb => ?_) (fun i b hb => ?_)
        fun i b hb => (hmem b).mpr (h.live i b hb)
      · rw [LoData.next, LoData.next, LoData.getElem?_putCount]
        split
        · cases d.nodes[b]? <;> rfl
        · rfl
      · rw [LoData.prev, LoData.prev, LoData.getElem?_putCount]
        split
        · cases d.nodes[b]? <;> rfl
        · rfl
    · intro i b
      have hhome : (d.putCount a g).home b = d.home b := by
        rw [LoData.home, LoData.home, LoData.content, LoData.content, LoData.getElem?_putCount]
        split
        · cases d.nodes[b]? <;> rfl
        · rfl
      rw [hhome]
      exact h.mem_iff i b
  · exact h.use_eq.trans Std.ExtTreeMap.size_modify.symm
  · exact h.split_le
  · exact h.size_eq

/-- A change of the count of a live node. -/
theorem LoData.modify_count (ha : a ∈ d.nodes) (g : UInt64 → UInt64) :
    (d.modify a fun node => { node with nlookup := g node.nlookup }) = some (d.putCount a g) :=
  if_pos ha

/-! ## Requests -/

/-- A live address is one where a node is stored. -/
theorem LoData.mem_iff_content : a ∈ d.nodes ↔ (d.content a).isSome := by
  rw [content, Option.isSome_map, Std.ExtTreeMap.isSome_getElem?_iff_mem]

/-- What is stored after a change of a count. -/
theorem LoData.content_putCount (d : LoData) (a : ℕ) (g : UInt64 → UInt64) :
    (d.putCount a g).content = Function.update d.content a
      ((d.content a).map fun node => { node with nlookup := g node.nlookup }) := by
  funext b
  rw [content, getElem?_putCount, Function.update_apply]
  rcases eq_or_ne a b with rfl | hab
  · rw [if_pos rfl, if_pos rfl, content]
    cases d.nodes[a]? <;> rfl
  · rw [if_neg hab, if_neg hab.symm]
    rfl

/-- A new node that is handed out once. -/
def LoInode.handedOut (a : ℕ) (st : Stat) (fullpath : List UInt8) : LoInode :=
  { LoInode.fresh a st fullpath with nlookup := 1 }

/-- An insertion of a new node that is handed out once keeps the invariant. -/
theorem insert_lookedUp_spec (h : Table d L) (ha : d.nodes[a]? = none) (st : Stat)
    (fullpath : List UInt8) :
    ∃ d₁ d' L', insertToHashTable (d.calloc a st fullpath) a = some d₁ ∧
      d₁.lookedUp a = some d' ∧ Table d' L' ∧
      d'.content = Function.update d.content a (some (LoInode.handedOut a st fullpath)) := by
  obtain ⟨d₁, L₁, hinsert, htable, hcontent⟩ :=
    insertToHashTable_spec h ha st fullpath
  have hstored : d₁.content a = some (LoInode.fresh a st fullpath) := by
    rw [hcontent, Function.update_self]
  have hlive : a ∈ d₁.nodes := LoData.mem_iff_content.mpr (Option.isSome_of_eq_some hstored)
  refine ⟨d₁, _, L₁, hinsert, LoData.modify_count hlive (· + 1), htable.putCount _, ?_⟩
  rw [LoData.content_putCount, hstored, hcontent, Function.update_idem]
  rfl

/-- A lookup of a path hands out a node with its key, or a new one if there is none. -/
theorem findLoInode_spec (h : Table d L) (ha : d.nodes[a]? = none) (st : Stat)
    (fullpath : List UInt8) :
    ∃ d' L' inode, findLoInode d a st fullpath = some (d', inode) ∧ Table d' L' ∧
      (lookupLoInode d st fullpath = some (some inode) ∧ inode ∈ d.nodes ∧
          d' = d.putCount inode (· + 1) ∨
        lookupLoInode d st fullpath = some none ∧ inode = a ∧
          d'.content = Function.update d.content a (some (LoInode.handedOut a st fullpath))) := by
  obtain ⟨found, hlookup, hkey, -⟩ := lookupLoInode_spec h st fullpath
  cases found with
  | some inode =>
    have hlive : inode ∈ d.nodes := by
      rw [← Std.ExtTreeMap.isSome_getElem?_iff_mem, ← Option.isSome_map (f := LoInode.key)]
      exact Option.isSome_of_eq_some (hkey inode rfl)
    refine ⟨_, L, inode, ?_, h.putCount (· + 1), Or.inl ⟨hlookup, hlive, rfl⟩⟩
    simp only [findLoInode, hlookup, Option.bind_eq_bind, Option.bind_some, LoData.lookedUp,
      LoData.modify_count hlive (· + 1)]
  | none =>
    obtain ⟨d₁, d', L', hinsert, hlookedUp, htable, hcontent⟩ :=
      insert_lookedUp_spec h ha st fullpath
    refine ⟨d', L', a, ?_, htable, Or.inr ⟨hlookup, rfl, hcontent⟩⟩
    simp only [findLoInode, hlookup, Option.bind_eq_bind, Option.bind_some, hinsert, hlookedUp]

/-- A request that the kernel may send finishes and keeps the invariant. -/
theorem Op.exec_spec (op : Op) (h : Table d L) (hop : op.Allowed d) :
    ∃ d' L', op.exec d = some d' ∧ Table d' L' := by
  cases op with
  | lookup a st fullpath =>
    obtain ⟨d', L', inode, hfind, htable, hcase⟩ :=
      findLoInode_spec h hop st fullpath
    have hlive : inode ∈ d'.nodes := by
      rcases hcase with ⟨-, hlive, rfl⟩ | ⟨-, rfl, hcontent⟩
      · exact Std.ExtTreeMap.mem_modify.mpr hlive
      · rw [LoData.mem_iff_content, hcontent, Function.update_self]
        rfl
    obtain ⟨node, hnode⟩ := LoData.exists_node hlive
    have hnodeAt : d'.nodeAt inode = some node := hnode
    refine ⟨d', L', ?_, htable⟩
    simp only [exec, stackfsLlLookup, Option.bind_eq_bind, hfind, hnodeAt, Option.bind_some,
      Option.map_some]
  | create a st fullpath =>
    obtain ⟨d₁, d', L', hinsert, hlookedUp, htable, hcontent⟩ :=
      insert_lookedUp_spec h hop st fullpath
    have hlive : a ∈ d'.nodes := by
      rw [LoData.mem_iff_content, hcontent, Function.update_self]
      rfl
    obtain ⟨node, hnode⟩ := LoData.exists_node hlive
    have hnodeAt : d'.nodeAt a = some node := hnode
    refine ⟨d', L', ?_, htable⟩
    simp only [exec, stackfsLlCreate, Option.bind_eq_bind, hinsert, hlookedUp, hnodeAt,
      Option.bind_some, Option.map_some]
  | mkdir a st fullpath =>
    obtain ⟨d₁, d', L', hinsert, hlookedUp, htable, hcontent⟩ :=
      insert_lookedUp_spec h hop st fullpath
    have hlive : a ∈ d'.nodes := by
      rw [LoData.mem_iff_content, hcontent, Function.update_self]
      rfl
    obtain ⟨node, hnode⟩ := LoData.exists_node hlive
    have hnodeAt : d'.nodeAt a = some node := hnode
    refine ⟨d', L', ?_, htable⟩
    simp only [exec, stackfsLlMkdir, Option.bind_eq_bind, hinsert, hlookedUp, hnodeAt,
      Option.bind_some, Option.map_some]
  | forget inode nlookup =>
    obtain ⟨node, hnode, hle⟩ := hop
    have hnodeAt : d.nodeAt inode = some node := hnode
    have hlive : inode ∈ d.nodes := Std.ExtTreeMap.isSome_getElem?_iff_mem.mp
      (Option.isSome_of_eq_some hnode)
    have hmodify := LoData.modify_count hlive (· - nlookup)
    have htable := h.putCount (a := inode) (· - nlookup)
    have hlive' : inode ∈ (d.putCount inode (· - nlookup)).nodes :=
      Std.ExtTreeMap.mem_modify.mpr hlive
    simp only [exec, forgetInode, Option.bind_eq_bind, hnodeAt, Option.bind_some, hle, if_true,
      hmodify]
    split
    · obtain ⟨d', L', hdelete, htable', -⟩ := deleteFromHashTable_spec htable hlive'
      exact ⟨d', L', hdelete, htable'⟩
    · exact ⟨_, L, rfl, htable⟩

/-- The invariant holds at the start. -/
theorem Table.init : Table LoData.init fun _ => [] where
  chain _ _ := rfl
  nodup _ := List.nodup_nil
  disjoint _ _ _ ha := absurd ha List.not_mem_nil
  live _ _ ha := absurd ha List.not_mem_nil
  mem_iff i a := by
    rw [LoData.home_of_none (show LoData.init.nodes[a]? = none from Std.ExtTreeMap.getElem?_empty)]
    simp
  use_eq := rfl
  split_le := Nat.zero_le _
  size_eq := ⟨0, rfl⟩

/-- The invariant holds after every sequence of requests. -/
theorem Reachable.table (h : Reachable d) : ∃ L, Table d L := by
  induction h with
  | init => exact ⟨_, Table.init⟩
  | @exec d d' op _ hallowed hexec ih =>
    obtain ⟨L, htable⟩ := ih
    obtain ⟨d'', L', hexec', htable'⟩ := op.exec_spec htable hallowed
    rw [hexec] at hexec'
    obtain rfl := Option.some.inj hexec'
    exact ⟨L', htable'⟩

/-- After every sequence of requests the table is well formed: each bucket is a doubly linked list of
the live nodes with its hash, the counts are right, a lookup finds a node exactly if one with the key
is live, and the next request finishes without a fault. -/
theorem table_wellFormed (h : Reachable d) :
    (∃ L : ℕ → List ℕ,
      (∀ i < d.hashTable.size, Chain d.next d.prev (d.hashTable.array i) (L i) ∧ (L i).Nodup ∧
        ∀ a ∈ L i, ∃ node, d.nodes[a]? = some node ∧
          nameHash d.hashTable node.ino node.name = i) ∧
      ∀ a node, d.nodes[a]? = some node →
        nameHash d.hashTable node.ino node.name < d.hashTable.size ∧
        a ∈ L (nameHash d.hashTable node.ino node.name)) ∧
    d.hashTable.use = d.nodes.size ∧ d.hashTable.split ≤ d.hashTable.size / 2 ∧
    (∀ st fullpath, ∃ inode, lookupLoInode d st fullpath = some inode ∧
      (∀ a, inode = some a → d.keyAt a = some ⟨st.ino, st.dev, fullpath⟩) ∧
      (inode.isSome ↔ ∃ a, d.keyAt a = some ⟨st.ino, st.dev, fullpath⟩)) ∧
    ∀ op : Op, op.Allowed d → ∃ d', op.exec d = some d' := by
  obtain ⟨L, htable⟩ := h.table
  have hsize := htable.size_facts
  refine ⟨⟨L, fun i hi => ⟨htable.chain i hi, htable.nodup i, fun a ha => ?_⟩,
    fun a node hnode => ⟨?_, ?_⟩⟩, htable.use_eq, htable.split_le,
    lookupLoInode_spec htable, fun op hop => ?_⟩
  · obtain ⟨node, hnode⟩ := LoData.exists_node (htable.live i a ha)
    have hhome := (htable.mem_iff i a).mp ha
    rw [LoData.home_of_node hnode, Option.some.injEq] at hhome
    exact ⟨node, hnode, hhome⟩
  · exact NodeTable.slot_lt (show 0 < d.hashTable.size by omega)
  · exact (htable.mem_iff _ a).mpr (LoData.home_of_node hnode)
  · obtain ⟨d', -, hexec, -⟩ := op.exec_spec htable hop
    exact ⟨d', hexec⟩

/-- The table after a file was looked up. -/
theorem table_wellFormed_lookup : ∃ d, (Op.lookup 4096 ⟨7, 1⟩ [47, 97]).exec LoData.init = some d ∧
    d.hashTable.use = d.nodes.size := by
  have hallowed : (Op.lookup 4096 ⟨7, 1⟩ [47, 97]).Allowed LoData.init :=
    Std.ExtTreeMap.getElem?_empty
  obtain ⟨d, hexec⟩ := (table_wellFormed Reachable.init).2.2.2.2 _ hallowed
  have hreach : Reachable d := Reachable.init.exec hallowed hexec
  exact ⟨d, hexec, (table_wellFormed hreach).2.1⟩

end StackFs
