import VeronaFs.StackFs.NodeTable

/-!
# The buckets of the inode table

`Buckets d L` says that bucket `i` of `d` is the doubly linked list `L i` of live nodes and that no
node is in two buckets.  It is about pointers only; `Relinks d d'` says that a step changed nothing
but pointers.  Three steps of the program change a bucket: a node is detached from it, a node is
pushed to its front, another bucket is attached to its end.
-/

namespace StackFs

open Foundation

/-! ## Pointers -/

namespace LoData

/-- The forward pointers of the nodes. -/
def next (d : LoData) (a : ℕ) : Option ℕ := d.nodes[a]?.bind LoInode.next

/-- The back pointers of the nodes. -/
def prev (d : LoData) (a : ℕ) : Option ℕ := d.nodes[a]?.bind LoInode.prev

/-- The state with another forward pointer. -/
def putNext (d : LoData) (a : ℕ) (v : Option ℕ) : LoData :=
  { d with nodes := d.nodes.modify a fun node => { node with next := v } }

/-- The state with another back pointer. -/
def putPrev (d : LoData) (a : ℕ) (v : Option ℕ) : LoData :=
  { d with nodes := d.nodes.modify a fun node => { node with prev := v } }

/-- The state with another back pointer of the node behind a pointer. -/
def putPrevOf (d : LoData) (p v : Option ℕ) : LoData :=
  match p with
  | none => d
  | some a => d.putPrev a v

/-- The state with another first node of a bucket. -/
def putBucket (d : LoData) (i : ℕ) (v : Option ℕ) : LoData :=
  { d with hashTable := { d.hashTable with array := Function.update d.hashTable.array i v } }

/-- The state with another value of a pointer. -/
def put (d : LoData) : Ref → Option ℕ → LoData
  | .bucket i, v => d.putBucket i v
  | .next a, v => d.putNext a v

variable {d : LoData} {a b i : ℕ} {v p : Option ℕ}

/-- A write to a live node. -/
theorem setNext_eq (ha : a ∈ d.nodes) : d.setNext a v = some (d.putNext a v) := if_pos ha

/-- A write to a live node. -/
theorem setPrev_eq (ha : a ∈ d.nodes) : d.setPrev a v = some (d.putPrev a v) := if_pos ha

/-- A write to the node behind a pointer. -/
theorem setPrevOf_eq (hp : ∀ a, p = some a → a ∈ d.nodes) :
    d.setPrevOf p v = some (d.putPrevOf p v) := by
  cases p with
  | none => rfl
  | some a => exact setPrev_eq (hp a rfl)

/-- A write to the array. -/
theorem setBucket_eq (hi : i < d.hashTable.size) : d.setBucket i v = some (d.putBucket i v) :=
  if_pos hi

/-- A read of the array. -/
theorem bucket_eq (hi : i < d.hashTable.size) : d.bucket i = some (d.hashTable.array i) := if_pos hi

/-- Which nodes are live. -/
@[simp] theorem mem_putNext : b ∈ (d.putNext a v).nodes ↔ b ∈ d.nodes :=
  Std.ExtTreeMap.mem_modify

/-- Which nodes are live. -/
@[simp] theorem mem_putPrev : b ∈ (d.putPrev a v).nodes ↔ b ∈ d.nodes :=
  Std.ExtTreeMap.mem_modify

/-- Which nodes are live. -/
@[simp] theorem mem_putPrevOf : b ∈ (d.putPrevOf p v).nodes ↔ b ∈ d.nodes := by
  cases p with
  | none => rfl
  | some a => exact mem_putPrev

/-- Which nodes are live. -/
@[simp] theorem mem_putBucket : b ∈ (d.putBucket i v).nodes ↔ b ∈ d.nodes := Iff.rfl

/-- Reading a node of which a field was written. -/
theorem getElem?_modify (d : LoData) (f : LoInode → LoInode) :
    (d.nodes.modify a f)[b]? = if a = b then d.nodes[b]?.map f else d.nodes[b]? := by
  rw [Std.ExtTreeMap.getElem?_modify]
  simp only [Std.compare_eq_iff_eq]
  by_cases hab : a = b
  · rw [if_pos hab, if_pos hab, hab]
  · rw [if_neg hab, if_neg hab]

/-- The forward pointers after a write. -/
@[simp] theorem next_putNext (ha : a ∈ d.nodes) :
    (d.putNext a v).next = Function.update d.next a v := by
  funext b
  obtain ⟨node, hnode⟩ := Option.isSome_iff_exists.mp (Std.ExtTreeMap.isSome_getElem?_iff_mem.mpr ha)
  rw [next, putNext, getElem?_modify, Function.update_apply]
  rcases eq_or_ne a b with rfl | hab
  · simp [hnode]
  · simp [hab, hab.symm, next]

/-- The back pointers after a write of a forward pointer. -/
@[simp] theorem prev_putNext : (d.putNext a v).prev = d.prev := by
  funext b
  rw [prev, putNext, getElem?_modify]
  split
  · cases hb : d.nodes[b]? <;> simp [prev, hb]
  · rfl

/-- The back pointers after a write. -/
@[simp] theorem prev_putPrev (ha : a ∈ d.nodes) :
    (d.putPrev a v).prev = Function.update d.prev a v := by
  funext b
  obtain ⟨node, hnode⟩ := Option.isSome_iff_exists.mp (Std.ExtTreeMap.isSome_getElem?_iff_mem.mpr ha)
  rw [prev, putPrev, getElem?_modify, Function.update_apply]
  rcases eq_or_ne a b with rfl | hab
  · simp [hnode]
  · simp [hab, hab.symm, prev]

/-- The forward pointers after a write of a back pointer. -/
@[simp] theorem next_putPrev : (d.putPrev a v).next = d.next := by
  funext b
  rw [next, putPrev, getElem?_modify]
  split
  · cases hb : d.nodes[b]? <;> simp [next, hb]
  · rfl

/-- The back pointers after a write. -/
@[simp] theorem prev_putPrevOf (hp : ∀ a, p = some a → a ∈ d.nodes) :
    (d.putPrevOf p v).prev = writeAt d.prev p v := by
  cases p with
  | none => rfl
  | some a => exact prev_putPrev (hp a rfl)

/-- The forward pointers after a write of a back pointer. -/
@[simp] theorem next_putPrevOf : (d.putPrevOf p v).next = d.next := by
  cases p with
  | none => rfl
  | some a => exact next_putPrev

/-- The forward pointers after a write to the array. -/
@[simp] theorem next_putBucket : (d.putBucket i v).next = d.next := rfl

/-- The back pointers after a write to the array. -/
@[simp] theorem prev_putBucket : (d.putBucket i v).prev = d.prev := rfl

/-- The table after a write to a node. -/
@[simp] theorem hashTable_putNext : (d.putNext a v).hashTable = d.hashTable := rfl

/-- The table after a write to a node. -/
@[simp] theorem hashTable_putPrev : (d.putPrev a v).hashTable = d.hashTable := rfl

/-- The table after a write to a node. -/
@[simp] theorem hashTable_putPrevOf : (d.putPrevOf p v).hashTable = d.hashTable := by
  cases p <;> rfl

/-- The array after a write. -/
@[simp] theorem hashTable_putBucket : (d.putBucket i v).hashTable =
    { d.hashTable with array := Function.update d.hashTable.array i v } := rfl

end LoData

/-! ## Steps that change pointers only -/

/-- A node without its pointers. -/
def LoInode.unlinked (node : LoInode) : LoInode := { node with next := none, prev := none }

/-- What is stored under an address, pointers aside. -/
def LoData.content (d : LoData) (a : ℕ) : Option LoInode := d.nodes[a]?.map LoInode.unlinked

/-- The step from `d` to `d'` changed pointers only. -/
structure Relinks (d d' : LoData) : Prop where
  /-- The nodes. -/
  content : d'.content = d.content
  /-- Their number. -/
  nodes_size : d'.nodes.size = d.nodes.size
  /-- The count of the table. -/
  use : d'.hashTable.use = d.hashTable.use
  /-- The number of buckets. -/
  size : d'.hashTable.size = d.hashTable.size
  /-- The next bucket to split. -/
  split : d'.hashTable.split = d.hashTable.split

namespace Relinks

variable {d d' d'' : LoData} {a i : ℕ} {v p : Option ℕ}

/-- No step. -/
theorem refl (d : LoData) : Relinks d d := ⟨rfl, rfl, rfl, rfl, rfl⟩

/-- The step backwards. -/
theorem symm (h : Relinks d d') : Relinks d' d :=
  ⟨h.content.symm, h.nodes_size.symm, h.use.symm, h.size.symm, h.split.symm⟩

/-- Two steps. -/
theorem trans (h : Relinks d d') (h' : Relinks d' d'') : Relinks d d'' :=
  ⟨h'.content.trans h.content, h'.nodes_size.trans h.nodes_size, h'.use.trans h.use,
    h'.size.trans h.size, h'.split.trans h.split⟩

/-- A write to a field of a node that is a pointer. -/
theorem modify {f : LoInode → LoInode} (hf : ∀ node, (f node).unlinked = node.unlinked) :
    Relinks d { d with nodes := d.nodes.modify a f } := by
  refine ⟨?_, Std.ExtTreeMap.size_modify, rfl, rfl, rfl⟩
  funext b
  rw [LoData.content, LoData.content, LoData.getElem?_modify]
  split
  · cases d.nodes[b]? <;> simp [hf]
  · rfl

/-- A write to a forward pointer. -/
theorem putNext : Relinks d (d.putNext a v) := modify fun _ => rfl

/-- A write to a back pointer. -/
theorem putPrev : Relinks d (d.putPrev a v) := modify fun _ => rfl

/-- A write to the back pointer of the node behind a pointer. -/
theorem putPrevOf : Relinks d (d.putPrevOf p v) := by
  cases p with
  | none => exact refl d
  | some a => exact putPrev

/-- A write to the array. -/
theorem putBucket : Relinks d (d.putBucket i v) := ⟨rfl, rfl, rfl, rfl, rfl⟩

/-- A write to a pointer. -/
theorem put {r : Ref} : Relinks d (d.put r v) := by
  cases r with
  | bucket i => exact putBucket
  | next a => exact putNext

/-- The live nodes stay live. -/
theorem mem_iff (h : Relinks d d') : a ∈ d'.nodes ↔ a ∈ d.nodes := by
  have hsome (d : LoData) : (d.content a).isSome = true ↔ a ∈ d.nodes := by
    rw [LoData.content, Option.isSome_map, Std.ExtTreeMap.isSome_getElem?_iff_mem]
  rw [← hsome, ← hsome, h.content]

end Relinks

/-! ## The buckets -/

/-- Bucket `i` is the list `L i` of live nodes, and no node is in two buckets. -/
structure Buckets (d : LoData) (L : ℕ → List ℕ) : Prop where
  /-- Each bucket is doubly linked. -/
  chain : ∀ i < d.hashTable.size, Chain d.next d.prev (d.hashTable.array i) (L i)
  /-- A node is in a bucket once. -/
  nodup : ∀ i, (L i).Nodup
  /-- A node is in one bucket. -/
  disjoint : ∀ i j a, a ∈ L i → a ∈ L j → i = j
  /-- The nodes are live. -/
  live : ∀ i, ∀ a ∈ L i, a ∈ d.nodes

/-- The pointer behind the nodes `l` of bucket `i`. -/
def refAfter (i : ℕ) (l : List ℕ) : Ref :=
  match l.getLast? with
  | none => .bucket i
  | some b => .next b

/-- The pointer behind one more node. -/
@[simp] theorem refAfter_concat (i : ℕ) (l : List ℕ) (a : ℕ) : refAfter i (l ++ [a]) = .next a := by
  simp [refAfter]

/-- The pointer before the first node. -/
@[simp] theorem refAfter_nil (i : ℕ) : refAfter i [] = .bucket i := rfl

/-- The pointer is in the array or in a live node. -/
def Ref.Valid (d : LoData) : Ref → Prop
  | .bucket i => i < d.hashTable.size
  | .next a => a ∈ d.nodes

/-- A write to a pointer. -/
theorem LoData.write_eq {d : LoData} {r : Ref} {v : Option ℕ} (hr : r.Valid d) :
    d.write r v = some (d.put r v) := by
  cases r with
  | bucket i => exact LoData.setBucket_eq hr
  | next a => exact LoData.setNext_eq hr

/-- Reading a pointer that was written. -/
theorem LoData.read_put {d : LoData} {r : Ref} {v : Option ℕ} (hr : r.Valid d) :
    (d.put r v).read r = some v := by
  cases r with
  | bucket i =>
    have hi : i < (d.putBucket i v).hashTable.size := hr
    rw [LoData.put, LoData.read, LoData.bucket_eq hi]
    exact congrArg some (Function.update_self ..)
  | next a =>
    obtain ⟨node, hnode⟩ :=
      Option.isSome_iff_exists.mp (Std.ExtTreeMap.isSome_getElem?_iff_mem.mpr hr)
    rw [LoData.put, LoData.read, LoData.nodeAt, LoData.putNext, LoData.getElem?_modify,
      if_pos rfl, hnode]
    rfl

namespace Buckets

variable {d d' : LoData} {L : ℕ → List ℕ} {l l₁ l₂ : List ℕ} {a b i j : ℕ} {p : Option ℕ}

/-- One bucket is changed, and no pointer of the nodes of another one. -/
theorem frame (h : Buckets d L) (hrel : Relinks d d')
    (hchain : i < d.hashTable.size → Chain d'.next d'.prev (d'.hashTable.array i) l)
    (hnodup : l.Nodup) (hlive : ∀ c ∈ l, c ∈ d.nodes) (hdisj : ∀ j, j ≠ i → ∀ c ∈ l, c ∉ L j)
    (hother : ∀ j, j ≠ i → d'.hashTable.array j = d.hashTable.array j)
    (hnext : ∀ j, j ≠ i → ∀ c ∈ L j, d'.next c = d.next c)
    (hprev : ∀ j, j ≠ i → ∀ c ∈ L j, d'.prev c = d.prev c) :
    Buckets d' (Function.update L i l) := by
  have hmem {j c : ℕ} (hc : c ∈ Function.update L i l j) : (j = i ∧ c ∈ l) ∨ (j ≠ i ∧ c ∈ L j) := by
    rcases eq_or_ne j i with rfl | hji
    · rw [Function.update_self] at hc
      exact Or.inl ⟨rfl, hc⟩
    · rw [Function.update_of_ne hji] at hc
      exact Or.inr ⟨hji, hc⟩
  constructor
  · intro j hj
    rw [hrel.size] at hj
    rcases eq_or_ne j i with rfl | hji
    · rw [Function.update_self]
      exact hchain hj
    · rw [Function.update_of_ne hji, hother j hji]
      exact (h.chain j hj).congr (hnext j hji) (hprev j hji)
  · intro j
    rcases eq_or_ne j i with rfl | hji
    · rwa [Function.update_self]
    · rw [Function.update_of_ne hji]
      exact h.nodup j
  · intro j k c hj hk
    rcases hmem hj with ⟨hji, hjl⟩ | ⟨hji, hjL⟩ <;> rcases hmem hk with ⟨hki, hkl⟩ | ⟨hki, hkL⟩
    · exact hji.trans hki.symm
    · exact absurd hkL (hdisj k hki c hjl)
    · exact absurd hjL (hdisj j hji c hkl)
    · exact h.disjoint j k c hjL hkL
  · intro j c hc
    rw [hrel.mem_iff]
    rcases hmem hc with ⟨-, hc⟩ | ⟨-, hc⟩
    · exact hlive c hc
    · exact h.live j c hc

/-- A node of one bucket is in no other. -/
theorem not_mem (h : Buckets d L) (ha : a ∈ L i) (hji : j ≠ i) : a ∉ L j :=
  fun haj => hji (h.disjoint j i a haj ha)

/-- The next node is of the same bucket. -/
theorem next_mem (h : Buckets d L) (hi : i < d.hashTable.size) (hl : L i = l₁ ++ a :: l₂)
    (hb : d.next a = some b) : b ∈ l₂ := by
  have hchain := h.chain i hi
  rw [hl] at hchain
  exact List.mem_of_head? (hchain.next_eq.symm.trans hb)

/-- The next node is live. -/
theorem next_live (h : Buckets d L) (hi : i < d.hashTable.size) (ha : a ∈ L i)
    (hb : d.next a = some b) : b ∈ d.nodes := by
  obtain ⟨l₁, l₂, hl⟩ := List.append_of_mem ha
  have hmem : b ∈ l₂ := h.next_mem hi hl hb
  exact h.live i b (by simp [hl, hmem])

/-- The pointer behind a part of the bucket can be accessed. -/
theorem valid_refAfter (h : Buckets d L) (hi : i < d.hashTable.size) (hl : L i = l₁ ++ l₂) :
    (refAfter i l₁).Valid d := by
  cases l₁ using List.reverseRecOn with
  | nil => exact hi
  | append_singleton l b =>
    rw [refAfter_concat]
    exact h.live i b (by simp [hl])

/-- The pointer behind a part of the bucket leads to the rest. -/
theorem read_refAfter (h : Buckets d L) (hi : i < d.hashTable.size) (hl : L i = l₁ ++ l₂) :
    d.read (refAfter i l₁) = some l₂.head? := by
  have hchain := h.chain i hi
  rw [hl] at hchain
  cases l₁ using List.reverseRecOn with
  | nil =>
    rw [refAfter_nil, LoData.read, LoData.bucket_eq hi]
    exact congrArg some hchain.head_eq
  | append_singleton l b =>
    rw [List.append_assoc] at hchain
    obtain ⟨node, hnode⟩ := Option.isSome_iff_exists.mp
      (Std.ExtTreeMap.isSome_getElem?_iff_mem.mpr (h.live i b (by simp [hl])))
    have hnext : d.next b = l₂.head? := hchain.next_eq
    rw [LoData.next, hnode] at hnext
    rw [refAfter_concat, LoData.read, LoData.nodeAt, hnode]
    exact congrArg some hnext

/-- A node of another bucket is not the one behind a pointer into this bucket. -/
theorem writeAt_other (h : Buckets d L) (hp : ∀ b, p = some b → b ∈ L i) (hji : j ≠ i)
    (ha : a ∈ L j) (f : ℕ → Option ℕ) (v : Option ℕ) : writeAt f p v a = f a := by
  cases p with
  | none => rfl
  | some b =>
    have hab : a ≠ b := fun hab => h.not_mem (hp b rfl) hji (hab ▸ ha)
    exact Function.update_of_ne hab _ _

/-- A node is detached from its bucket. -/
theorem detach (h : Buckets d L) (hi : i < d.hashTable.size) (hl : L i = l₁ ++ a :: l₂) :
    Buckets ((d.put (refAfter i l₁) (d.next a)).putPrevOf (d.next a) (d.prev a))
      (Function.update L i (l₁ ++ l₂)) := by
  have hchain := h.chain i hi
  have hnodup := h.nodup i
  rw [hl] at hchain hnodup
  have hsub {c : ℕ} (hc : c ∈ l₁ ++ l₂) : c ∈ L i := by
    rw [hl]
    simp only [List.mem_append, List.mem_cons] at hc ⊢
    exact hc.imp_right Or.inr
  have hnext : ∀ b, d.next a = some b → b ∈ L i := fun b hb => by
    simp [hl, h.next_mem hi hl hb]
  have hlive : ∀ b, d.next a = some b → b ∈ (d.put (refAfter i l₁) (d.next a)).nodes :=
    fun b hb => Relinks.put.mem_iff.mpr (h.live i b (hnext b hb))
  have hnodup' : (l₁ ++ l₂).Nodup :=
    hnodup.sublist (List.Sublist.append (List.Sublist.refl l₁) (List.sublist_cons_self a l₂))
  have hrel := (Relinks.put (d := d) (r := refAfter i l₁) (v := d.next a)).trans
    (Relinks.putPrevOf (p := d.next a) (v := d.prev a))
  cases l₁ using List.reverseRecOn with
  | nil =>
    have hprev : d.prev a = none := hchain.prev_eq
    rw [refAfter_nil, LoData.put] at hlive hrel ⊢
    refine h.frame hrel (fun _ => ?_) hnodup' (fun c hc => h.live i c (hsub hc))
      (fun j hji c hc => h.not_mem (hsub hc) hji) (fun j hji => ?_) (fun j hji c hc => ?_)
      fun j hji c hc => ?_
    · simp only [LoData.next_putPrevOf, LoData.prev_putPrevOf hlive, LoData.hashTable_putPrevOf,
        LoData.hashTable_putBucket, Function.update_self, LoData.next_putBucket,
        LoData.prev_putBucket, hprev]
      exact hchain.pop hnodup
    · rw [LoData.hashTable_putPrevOf]
      exact Function.update_of_ne hji _ _
    · rw [LoData.next_putPrevOf, LoData.next_putBucket]
    · rw [LoData.prev_putPrevOf hlive, LoData.prev_putBucket]
      exact h.writeAt_other hnext hji hc _ _
  | append_singleton l b =>
    have hb : b ∈ L i := hsub (by simp)
    have hbn : b ∈ d.nodes := h.live i b hb
    have hprev : d.prev a = some b := by simpa using hchain.prev_eq
    rw [refAfter_concat, LoData.put] at hlive hrel ⊢
    refine h.frame hrel (fun _ => ?_) hnodup' (fun c hc => h.live i c (hsub hc))
      (fun j hji c hc => h.not_mem (hsub hc) hji) (fun j hji => ?_) (fun j hji c hc => ?_)
      fun j hji c hc => ?_
    · rw [LoData.next_putPrevOf, LoData.prev_putPrevOf hlive, LoData.hashTable_putPrevOf,
        LoData.next_putNext hbn, LoData.prev_putNext, hprev]
      exact hchain.unlink hnodup
    · rw [LoData.hashTable_putPrevOf, LoData.hashTable_putNext]
    · rw [LoData.next_putPrevOf, LoData.next_putNext hbn]
      have hcb : c ≠ b := fun hcb => h.not_mem hb hji (hcb ▸ hc)
      exact Function.update_of_ne hcb _ _
    · rw [LoData.prev_putPrevOf hlive, LoData.prev_putNext]
      exact h.writeAt_other hnext hji hc _ _

/-- The first node of a bucket. -/
theorem array_mem (h : Buckets d L) (hi : i < d.hashTable.size) (hb : d.hashTable.array i = some b) :
    b ∈ L i :=
  List.mem_of_head? ((h.chain i hi).head_eq.symm.trans hb)

/-- A node that is in no bucket is pushed to the front of one. -/
theorem push (h : Buckets d L) (hi : i < d.hashTable.size) (ha : a ∈ d.nodes) (hnot : ∀ j, a ∉ L j)
    (hprev : d.prev a = none) :
    Buckets (((d.putNext a (d.hashTable.array i)).putPrevOf (d.hashTable.array i) (some a)).putBucket
      i (some a)) (Function.update L i (a :: L i)) := by
  have hlive : ∀ b, d.hashTable.array i = some b → b ∈ (d.putNext a (d.hashTable.array i)).nodes :=
    fun b hb => LoData.mem_putNext.mpr (h.live i b (h.array_mem hi hb))
  refine h.frame ((Relinks.putNext.trans Relinks.putPrevOf).trans Relinks.putBucket) (fun _ => ?_)
    (List.nodup_cons.mpr ⟨hnot i, h.nodup i⟩) (fun c hc => ?_) (fun j hji c hc => ?_)
    (fun j hji => ?_) (fun j hji c hc => ?_) fun j hji c hc => ?_
  · simp only [LoData.next_putBucket, LoData.prev_putBucket, LoData.hashTable_putBucket,
      LoData.next_putPrevOf, LoData.prev_putPrevOf hlive, LoData.next_putNext ha,
      LoData.prev_putNext, Function.update_self]
    exact (h.chain i hi).push (h.nodup i) (hnot i) hprev
  · rcases List.mem_cons.mp hc with rfl | hc
    · exact ha
    · exact h.live i c hc
  · rcases List.mem_cons.mp hc with rfl | hc
    · exact hnot j
    · exact h.not_mem hc hji
  · rw [LoData.hashTable_putBucket, LoData.hashTable_putPrevOf]
    exact Function.update_of_ne hji _ _
  · rw [LoData.next_putBucket, LoData.next_putPrevOf, LoData.next_putNext ha]
    have hca : c ≠ a := fun hca => hnot j (hca ▸ hc)
    exact Function.update_of_ne hca _ _
  · rw [LoData.prev_putBucket, LoData.prev_putPrevOf hlive, LoData.prev_putNext]
    exact h.writeAt_other (fun b hb => h.array_mem hi hb) hji hc _ _

/-- A bucket is dropped. -/
theorem drop (h : Buckets d L) : Buckets (d.putBucket j none) (Function.update L j []) := by
  refine h.frame Relinks.putBucket (fun _ => ?_) List.nodup_nil (fun c hc => ?_) (fun k _ c hc => ?_)
    (fun k hkj => Function.update_of_ne hkj _ _) (fun _ _ _ _ => rfl) fun _ _ _ _ => rfl
  · exact Function.update_self ..
  · exact absurd hc List.not_mem_nil
  · exact absurd hc List.not_mem_nil

/-- A bucket is attached to another one. -/
theorem attach (h : Buckets d L) (hi : i < d.hashTable.size) (hj : j < d.hashTable.size)
    (hij : i ≠ j) (hl : d.hashTable.array j = some a) :
    Buckets (((d.put (refAfter i (L i)) (some a)).putPrev a (L i).getLast?).putBucket j none)
      (Function.update (Function.update L j []) i (L i ++ L j)) := by
  have ha : a ∈ L j := h.array_mem hj hl
  have han : a ∈ (d.put (refAfter i (L i)) (some a)).nodes := Relinks.put.mem_iff.mpr (h.live j a ha)
  have hother {k c : ℕ} (hki : k ≠ i) (hc : c ∈ Function.update L j [] k) : k ≠ j ∧ c ∈ L k := by
    rcases eq_or_ne k j with rfl | hkj
    · rw [Function.update_self] at hc
      exact absurd hc List.not_mem_nil
    · exact ⟨hkj, by rwa [Function.update_of_ne hkj] at hc⟩
  have hchain := h.chain i hi
  have hchain' := h.chain j hj
  have hnodup : (L i ++ L j).Nodup := List.nodup_append'.mpr
    ⟨h.nodup i, h.nodup j, fun c hci hcj => hij (h.disjoint i j c hci hcj)⟩
  have hrel := (Relinks.putBucket (d := d) (i := j) (v := none)).symm.trans
    (((Relinks.put (d := d) (r := refAfter i (L i)) (v := some a)).trans
      (Relinks.putPrev (a := a) (v := (L i).getLast?))).trans
      (Relinks.putBucket (i := j) (v := none)))
  have hmem {k c : ℕ} (hki : k ≠ i) (hc : c ∈ L i ++ L j) : c ∉ Function.update L j [] k := by
    intro hck
    obtain ⟨hkj, hck⟩ := hother hki hck
    rcases List.mem_append.mp hc with hc | hc
    · exact h.not_mem hc hki hck
    · exact h.not_mem hc hkj hck
  have hlive : ∀ c ∈ L i ++ L j, c ∈ (d.putBucket j none).nodes := fun c hc =>
    (List.mem_append.mp hc).elim (h.live i c) (h.live j c)
  have hprev {k c : ℕ} (hki : k ≠ i) (hc : c ∈ Function.update L j [] k) : c ≠ a := by
    obtain ⟨hkj, hck⟩ := hother hki hc
    exact fun hca => h.not_mem ha hkj (hca ▸ hck)
  cases hLi : L i using List.reverseRecOn with
  | nil =>
    rw [hLi] at hchain hnodup hrel han hmem hlive
    rw [refAfter_nil, LoData.put] at han hrel ⊢
    refine h.drop.frame hrel (fun _ => ?_) hnodup hlive (fun k hki c hc => hmem hki hc)
      (fun k hki => ?_) (fun k hki c hc => ?_) fun k hki c hc => ?_
    · simp only [LoData.next_putBucket, LoData.prev_putBucket, LoData.hashTable_putBucket,
        LoData.next_putPrev, LoData.prev_putPrev han, LoData.hashTable_putPrev,
        Function.update_of_ne hij, Function.update_self]
      rw [hl] at hchain'
      exact Seg.reprev hchain' (h.nodup j)
    · simp only [LoData.hashTable_putBucket, LoData.hashTable_putPrev]
      rw [Function.update_comm hij, Function.update_of_ne hki]
    · rw [LoData.next_putBucket, LoData.next_putPrev, LoData.next_putBucket, LoData.next_putBucket]
    · rw [LoData.prev_putBucket, LoData.prev_putPrev han, LoData.prev_putBucket]
      exact Function.update_of_ne (hprev hki hc) _ _
  | append_singleton l b =>
    have hb : b ∈ L i := by simp [hLi]
    have hbn : b ∈ d.nodes := h.live i b hb
    rw [hLi] at hchain hnodup hrel han hmem hlive
    rw [refAfter_concat, LoData.put] at han hrel ⊢
    refine h.drop.frame hrel (fun _ => ?_) hnodup hlive (fun k hki c hc => hmem hki hc)
      (fun k hki => ?_) (fun k hki c hc => ?_) fun k hki c hc => ?_
    · simp only [LoData.next_putBucket, LoData.prev_putBucket, LoData.hashTable_putBucket,
        LoData.next_putPrev, LoData.prev_putPrev han, LoData.hashTable_putPrev,
        LoData.next_putNext hbn, LoData.prev_putNext, LoData.hashTable_putNext,
        Function.update_of_ne hij, List.getLast?_append, List.getLast?_singleton, Option.some_or]
      rw [hl] at hchain'
      exact hchain.attach hchain' hnodup
    · rfl
    · have hcb : c ≠ b := fun hcb => h.not_mem hb hki (hcb ▸ (hother hki hc).2)
      rw [LoData.next_putBucket, LoData.next_putPrev, LoData.next_putNext hbn]
      exact Function.update_of_ne hcb _ _
    · rw [LoData.prev_putBucket, LoData.prev_putPrev han, LoData.prev_putNext]
      exact Function.update_of_ne (hprev hki hc) _ _

end Buckets

end StackFs
