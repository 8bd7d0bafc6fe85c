import VeronaFs.StackFs.Lookups

/-!
# Two nodes of one file

`find_lo_inode` searches the table and inserts in one locked section, so a lookup inserts no second
node of a file.  `create` and `mkdir` insert without a search.  They reach the table after a call of
the file system below and a `stat`, and between these a lookup of the same path may have inserted its
node; or an inode number was reused for a path whose node the kernel did not forget yet.

The file system below is a part of the state, and the inode numbers that it assigns are any.
-/

namespace StackFs

open Foundation

/-! ## Requests above the file system below -/

/-- A file of the file system below. -/
structure LowerFile where
  /-- What `stat` says. -/
  st : Stat
  /-- Whether it is a directory. -/
  directory : Bool
deriving DecidableEq, Repr

/-- The state of StackFS with the files of the file system below. -/
structure Stacked where
  /-- The state of StackFS. -/
  session : Session
  /-- The file at each path. -/
  lower : List UInt8 → Option LowerFile

/-- Where a request is. -/
inductive Request where
  /-- `lookup`: `stat`. -/
  | lookup (fullpath : List UInt8)
  /-- `create`: `creat`.  A new file gets the attributes `st`, without them it is refused. -/
  | create (st : Option Stat) (fullpath : List UInt8)
  /-- `mkdir`: the call of the same name.  A new directory gets the attributes `st`, without them it is
  refused. -/
  | mkdir (st : Option Stat) (fullpath : List UInt8)
  /-- `create`, `mkdir`: `stat` of the new file. -/
  | created (fullpath : List UInt8)
  /-- `unlink`: the call of the same name. -/
  | unlink (fullpath : List UInt8)
  /-- What follows on the table. -/
  | table (pc : Pc)
deriving DecidableEq, Repr

namespace Stacked

/-- A new file of the file system below. -/
def make (s : Stacked) (fullpath : List UInt8) (file : LowerFile) : Stacked :=
  { s with lower := Function.update s.lower fullpath (some file) }

/-- A file of the file system below is removed. -/
def remove (s : Stacked) (fullpath : List UInt8) : Stacked :=
  { s with lower := Function.update s.lower fullpath none }

end Stacked

/-- A request starts with its call of the file system below, a forget on the table. -/
def Request.starts (s : Stacked) : Request → Stacked → Prop
  | .lookup _, s' | .create _ _, s' | .mkdir _ _, s' | .unlink _, s' => s' = s
  | .table (.assertCount a n), s' =>
    StackFs.starts s.session (.assertCount a n) s'.session ∧ s'.lower = s.lower
  | .created _, _ | .table _, _ => False

/-- The next step of a request. -/
def Request.code (alloc : Allocator) :
    Request → Stacked → Option (Calls.Effect Stacked Request Empty)
  | .lookup fullpath, s =>
    some ⟨s, (s.lower fullpath).map fun file => .table (.find file.st fullpath), []⟩
  | .create st fullpath, s =>
    match s.lower fullpath, st with
    -- An existing file is truncated, a directory is refused.
    | some file, _ => some ⟨s, if file.directory then none else some (.created fullpath), []⟩
    | none, some st => some ⟨s.make fullpath ⟨st, false⟩, some (.created fullpath), []⟩
    | none, none => some ⟨s, none, []⟩
  | .mkdir st fullpath, s =>
    match s.lower fullpath, st with
    | none, some st => some ⟨s.make fullpath ⟨st, true⟩, some (.created fullpath), []⟩
    | _, _ => some ⟨s, none, []⟩
  | .created fullpath, s =>
    some ⟨s, (s.lower fullpath).map fun file => .table (.insert file.st fullpath), []⟩
  | .unlink fullpath, s =>
    match s.lower fullpath with
    | some ⟨_, false⟩ => some ⟨s.remove fullpath, none, []⟩
    | _ => some ⟨s, none, []⟩
  | .table pc, s => do
    let e ← StackFs.code alloc pc s.session
    some ⟨{ s with session := e.state }, e.next.map .table, []⟩

/-- The requests of the session threads above a file system. -/
def stackedRequests (alloc : Allocator) : Calls Stacked Request Empty where
  starts := Request.starts
  code := Request.code alloc

/-- The start, above an empty file system. -/
def Stacked.init : Calls.Config Stacked Request where
  state := { session := Session.init.state, lower := fun _ => none }
  calls := 0

/-! ## Keys -/

/-- No two nodes have the same inode number, device and path. -/
def KeysUnique (d : LoData) : Prop := ∀ a b key, d.keyAt a = some key → d.keyAt b = some key → a = b

/-- What the locked section of `create` and `mkdir` inserts a node of. -/
def Pc.inserted : Pc → Option Key
  | .insert st fullpath => some ⟨st.ino, st.dev, fullpath⟩
  | .find _ _ | .reply _ | .incRead _ | .incWrite _ _ | .assertCount _ _ | .subRead _ _
  | .subWrite _ _ _ | .test _ | .delete _ => none

/-- What the next step of a request inserts a node of, without a search. -/
def Request.inserted : Request → Option Key
  | .table pc => pc.inserted
  | .lookup _ | .create _ _ | .mkdir _ _ | .created _ | .unlink _ => none

/-- No node has the key that the step inserts. -/
def NewKey (s : Stacked) (p : Request) (_rest : Multiset Request) : Prop :=
  ∀ key, p.inserted = some key → ∀ a, s.session.data.keyAt a ≠ some key

variable {d d' : LoData} {L : ℕ → List ℕ} {a : ℕ} {key : Key} {alloc : Allocator}

/-- The key is part of what is stored. -/
theorem LoData.keyAt_eq (d : LoData) : d.keyAt = fun a => (d.content a).map LoInode.key := by
  funext a
  rw [keyAt, content, Option.map_map]
  rfl

/-- The keys after the content of an address was changed. -/
theorem LoData.keyAt_update {o : Option LoInode}
    (hcontent : d'.content = Function.update d.content a o) :
    d'.keyAt = Function.update d.keyAt a (o.map LoInode.key) := by
  rw [keyAt_eq, keyAt_eq, hcontent]
  funext b
  rw [Function.update_apply, Function.update_apply]
  split <;> rfl

/-- A change of a count changes no key. -/
theorem LoData.keyAt_putCount (d : LoData) (a : ℕ) (g : UInt64 → UInt64) :
    (d.putCount a g).keyAt = d.keyAt := by
  funext b
  rw [keyAt, keyAt, getElem?_putCount]
  split
  · rw [Option.map_map]
    rfl
  · rfl

/-- A free address has no key. -/
theorem LoData.keyAt_of_none (ha : d.nodes[a]? = none) : d.keyAt a = none := by
  rw [keyAt, ha]
  rfl

/-- A removal leaves the keys unique. -/
theorem KeysUnique.erase (h : KeysUnique d) (hkeys : d'.keyAt = Function.update d.keyAt a none) :
    KeysUnique d' := by
  intro b c key hb hc
  rw [hkeys, Function.update_apply] at hb hc
  split at hb
  · cases hb
  · split at hc
    · cases hc
    · exact h b c key hb hc

/-- An insertion leaves the keys unique exactly if its key is new. -/
theorem KeysUnique.insert_iff (h : KeysUnique d) (ha : d.keyAt a = none)
    (hkeys : d'.keyAt = Function.update d.keyAt a (some key)) :
    KeysUnique d' ↔ ∀ b, d.keyAt b ≠ some key := by
  have hself : d'.keyAt a = some key := by rw [hkeys, Function.update_self]
  constructor
  · intro hunique b hb
    have hne : b ≠ a := by
      rintro rfl
      rw [ha] at hb
      cases hb
    have hother : d'.keyAt b = some key := by rw [hkeys, Function.update_of_ne hne, hb]
    exact hne (hunique b a key hother hself)
  · intro hnew b c k hb hc
    rw [hkeys, Function.update_apply] at hb hc
    split at hb <;> split at hc
    · subst b c
      rfl
    · exact absurd (hc.trans hb.symm) (hnew c)
    · exact absurd (hb.trans hc.symm) (hnew b)
    · exact h b c k hb hc

/-! ## Steps -/

/-- What a step on the table does to the keys. -/
theorem code_keyAt {s : Session} {p : Pc} {e : Calls.Effect Session Pc Empty} (h : Table s.data L)
    (hcode : code alloc p s = some e) :
    (∃ L', Table e.state.data L') ∧
    (p.inserted = none ∧ e.state.data.keyAt = s.data.keyAt ∨
      (∃ a, p.inserted = none ∧ e.state.data.keyAt = Function.update s.data.keyAt a none) ∨
      ∃ a key, s.data.keyAt a = none ∧
        e.state.data.keyAt = Function.update s.data.keyAt a (some key) ∧
        (p.inserted = some key ∨ p.inserted = none ∧ ∀ b, s.data.keyAt b ≠ some key)) := by
  have hfresh := alloc.fresh s.allocations s.data
  cases p with
  | find st fullpath =>
    obtain ⟨d', L', inode, hfind, htable, hcase⟩ := findLoInode_spec h hfresh st fullpath
    simp only [code, hfind, Option.bind_eq_bind, Option.bind_some, Option.some.injEq] at hcode
    subst hcode
    refine ⟨⟨L', htable⟩, ?_⟩
    rcases hcase with ⟨-, -, rfl⟩ | ⟨hnone, rfl, hcontent⟩
    · exact Or.inl ⟨rfl, LoData.keyAt_putCount ..⟩
    · obtain ⟨found, hlookup, -, hsome⟩ := lookupLoInode_spec h st fullpath
      obtain rfl := Option.some.inj (hnone.symm.trans hlookup)
      refine Or.inr (Or.inr ⟨_, ⟨st.ino, st.dev, fullpath⟩, LoData.keyAt_of_none hfresh,
        LoData.keyAt_update hcontent, Or.inr ⟨rfl, fun b hb => ?_⟩⟩)
      exact Bool.false_ne_true (hsome.mpr ⟨b, hb⟩)
  | insert st fullpath =>
    obtain ⟨d', L', hinsert, htable, hcontent⟩ := insertToHashTable_spec h hfresh st fullpath
    simp only [code, hinsert, Option.bind_eq_bind, Option.bind_some, Option.some.injEq] at hcode
    subst hcode
    exact ⟨⟨L', htable⟩, Or.inr (Or.inr ⟨_, _, LoData.keyAt_of_none hfresh,
      LoData.keyAt_update hcontent, Or.inl rfl⟩)⟩
  | delete a =>
    simp only [code, Option.bind_eq_bind] at hcode
    obtain ⟨d', hdelete, hcode⟩ := Option.bind_eq_some_iff.mp hcode
    obtain rfl := Option.some.inj hcode
    have hlive : a ∈ s.data.nodes := by
      obtain ⟨node, hnode, -⟩ := Option.bind_eq_some_iff.mp hdelete
      exact Std.ExtTreeMap.isSome_getElem?_iff_mem.mp (Option.isSome_of_eq_some hnode)
    obtain ⟨d₁, L', hdelete', htable, hcontent⟩ := deleteFromHashTable_spec h hlive
    obtain rfl := Option.some.inj (hdelete.symm.trans hdelete')
    exact ⟨⟨L', htable⟩, Or.inr (Or.inl ⟨a, rfl, LoData.keyAt_update hcontent⟩)⟩
  | incWrite a v =>
    simp only [code, Option.bind_eq_bind] at hcode
    obtain ⟨d', hmodify, hcode⟩ := Option.bind_eq_some_iff.mp hcode
    obtain rfl := Option.some.inj hcode
    obtain ⟨-, hput⟩ := Option.ite_none_right_eq_some.mp hmodify
    obtain rfl : s.data.putCount a (fun _ => v + 1) = d' := Option.some.inj hput
    have htable := h.putCount (a := a) fun _ => v + 1
    exact ⟨⟨L, htable⟩, Or.inl ⟨rfl, LoData.keyAt_putCount ..⟩⟩
  | subWrite a n v =>
    simp only [code, Option.bind_eq_bind] at hcode
    obtain ⟨d', hmodify, hcode⟩ := Option.bind_eq_some_iff.mp hcode
    obtain rfl := Option.some.inj hcode
    obtain ⟨-, hput⟩ := Option.ite_none_right_eq_some.mp hmodify
    obtain rfl : s.data.putCount a (fun _ => v - n) = d' := Option.some.inj hput
    have htable := h.putCount (a := a) fun _ => v - n
    exact ⟨⟨L, htable⟩, Or.inl ⟨rfl, LoData.keyAt_putCount ..⟩⟩
  | reply a | incRead a | assertCount a n | subRead a n | test a =>
    obtain ⟨node, -, hcode⟩ := Option.bind_eq_some_iff.mp hcode
    have hdata : e.state.data = s.data := by
      grind
    rw [hdata]
    exact ⟨⟨L, h⟩, Or.inl ⟨rfl, rfl⟩⟩

/-- A step on the table leaves the keys unique exactly if it inserts no key that a node has. -/
theorem KeysUnique.code_iff {s : Session} {p : Pc} {e : Calls.Effect Session Pc Empty}
    (htable : Table s.data L) (h : KeysUnique s.data) (hcode : code alloc p s = some e) :
    KeysUnique e.state.data ↔ ∀ key, p.inserted = some key → ∀ a, s.data.keyAt a ≠ some key := by
  obtain ⟨-, ⟨hp, hkeys⟩ | ⟨a, hp, hkeys⟩ | ⟨a, key, ha, hkeys, hp⟩⟩ := code_keyAt htable hcode
  · have hunique : KeysUnique e.state.data := by
      intro a b key
      rw [hkeys]
      exact h a b key
    simp [hp, hunique]
  · simp [hp, h.erase hkeys]
  · rw [h.insert_iff ha hkeys]
    rcases hp with hp | ⟨hp, hnew⟩
    · simp [hp]
    · simp [hp, hnew]

/-- A step of a request is one on the table, or leaves the table alone. -/
theorem Request.code_session {s : Stacked} {p : Request} {e : Calls.Effect Stacked Request Empty}
    (hcode : p.code alloc s = some e) :
    p.inserted = none ∧ e.state.session = s.session ∨
      ∃ pc e', p = .table pc ∧ StackFs.code alloc pc s.session = some e' ∧
        e.state.session = e'.state := by
  cases p with
  | table pc =>
    obtain ⟨e', he', hcode⟩ := Option.bind_eq_some_iff.mp hcode
    obtain rfl := Option.some.inj hcode
    exact Or.inr ⟨pc, e', rfl, he', rfl⟩
  | lookup fullpath | created fullpath =>
    obtain rfl := Option.some.inj hcode
    exact Or.inl ⟨rfl, rfl⟩
  | create st fullpath | mkdir st fullpath | unlink fullpath =>
    refine Or.inl ⟨rfl, ?_⟩
    simp only [code] at hcode
    split at hcode <;>
    · obtain rfl := Option.some.inj hcode
      rfl

/-- The table is well formed and its keys are unique. -/
structure UniqueTable (d : LoData) : Prop where
  /-- The table is well formed. -/
  table : ∃ L, Table d L
  /-- No two nodes have the same key. -/
  unique : KeysUnique d

/-- A step of a request keeps the table well formed, and its keys unique exactly if the step inserts no
key that a node has. -/
theorem UniqueTable.code_iff {s : Stacked} {p : Request} {e : Calls.Effect Stacked Request Empty}
    (rest : Multiset Request) (h : UniqueTable s.session.data) (hcode : p.code alloc s = some e) :
    (∃ L, Table e.state.session.data L) ∧
      (KeysUnique e.state.session.data ↔ NewKey s p rest) := by
  obtain ⟨L, htable⟩ := h.table
  rcases Request.code_session hcode with ⟨hp, hsession⟩ | ⟨pc, e', rfl, hpc, hsession⟩
  · rw [hsession]
    exact ⟨h.table, by simp [NewKey, hp, h.unique]⟩
  · rw [hsession]
    exact ⟨(code_keyAt htable hpc).1, h.unique.code_iff htable hpc⟩

/-! ## Runs -/

/-- The keys are unique at the start. -/
theorem UniqueTable.init : UniqueTable LoData.init where
  table := ⟨_, Table.init⟩
  unique a b key ha := by
    rw [LoData.keyAt_of_none Std.ExtTreeMap.getElem?_empty] at ha
    cases ha

/-- A request that starts leaves the table alone. -/
theorem Request.starts_data {s s' : Stacked} {p : Request} (h : Request.starts s p s') :
    s'.session.data = s.session.data := by
  cases p with
  | lookup _ | create _ _ | mkdir _ _ | unlink _ => rw [show s' = s from h]
  | created _ => exact h.elim
  | table pc =>
    cases pc with
    | assertCount a n =>
      obtain ⟨⟨-, -, hsession⟩, -⟩ := h
      rw [hsession]
    | _ => exact h.elim

/-- In every run in which no creation inserts a key that a node has, no two nodes have the same inode
number, device and path; and the next step keeps this exactly if it meets the condition too. -/
theorem keys_unique (alloc : Allocator) {tr : List Empty} {c : Calls.Config Stacked Request}
    (h : (stackedRequests alloc).GuardedRun NewKey Stacked.init tr c) :
    KeysUnique c.state.session.data ∧ ∀ p e rest, c.calls = p ::ₘ rest →
      (stackedRequests alloc).code p c.state = some e →
      (KeysUnique e.state.session.data ↔ NewKey c.state p rest) := by
  have hinv : UniqueTable c.state.session.data := by
    refine h.invariant (P := fun s _ => UniqueTable s.session.data) UniqueTable.init
      (fun s s' p rest hs hstart => ?_) fun s p e rest hs hguard hcode => ?_
    · rw [Request.starts_data hstart]
      exact hs
    · have hstep := hs.code_iff rest hcode
      exact ⟨hstep.1, hstep.2.mpr hguard⟩
  exact ⟨hinv.unique, fun p e rest _ hcode => (hinv.code_iff rest hcode).2⟩

/-- The locked section of `create` and `mkdir`. -/
theorem Request.code_insert (alloc : Allocator) {s : Stacked} {st : Stat} {fullpath : List UInt8}
    (ha : alloc.addr s.session.allocations s.session.data = a)
    (hinsert : insertToHashTable (s.session.data.calloc a st fullpath) a = some d) :
    (Request.table (.insert st fullpath)).code alloc s =
      some ⟨{ s with session :=
        { s.session with data := d, allocations := s.session.allocations + 1 } },
        some (.table (.incRead a)), []⟩ := by
  simp only [Request.code, StackFs.code, ha, hinsert, Option.bind_eq_bind, Option.bind_some,
    Option.map_some]

/-- `stat` of a file that `create` or `mkdir` made. -/
theorem Request.code_created (alloc : Allocator) (s : Stacked) (fullpath : List UInt8) (file : LowerFile) :
    (Request.created fullpath).code alloc (s.make fullpath file) =
      some ⟨s.make fullpath file, some (.table (.insert file.st fullpath)), []⟩ := by
  simp [Request.code, Stacked.make]

/-- The first creation inserts a new key. -/
theorem keys_unique_created : ∃ d, KeysUnique d ∧ ∃ a, d.keyAt a = some ⟨7, 1, [47, 97]⟩ := by
  have hfresh := Allocator.last.fresh 0 LoData.init
  obtain ⟨d, L, hinsert, -, hcontent⟩ := insertToHashTable_spec Table.init hfresh ⟨7, 1⟩ [47, 97]
  have hcode := Request.code_insert Allocator.last
    (s := Stacked.init.state.make [47, 97] ⟨⟨7, 1⟩, false⟩) rfl hinsert
  have hcreate : (Request.create (some ⟨7, 1⟩) [47, 97]).code Allocator.last Stacked.init.state =
      some ⟨Stacked.init.state.make [47, 97] ⟨⟨7, 1⟩, false⟩, some (.created [47, 97]), []⟩ := rfl
  have hstat := Request.code_created Allocator.last Stacked.init.state [47, 97]
    ⟨⟨7, 1⟩, false⟩
  have hstart : (stackedRequests Allocator.last).starts Stacked.init.state
      (.create (some ⟨7, 1⟩) [47, 97]) Stacked.init.state := rfl
  have hnew : NewKey (Stacked.init.state.make [47, 97] ⟨⟨7, 1⟩, false⟩)
      (.table (.insert ⟨7, 1⟩ [47, 97])) 0 := fun key _ a ha => by
    have hnone : LoData.init.keyAt a = none := LoData.keyAt_of_none Std.ExtTreeMap.getElem?_empty
    cases hnone.symm.trans ha
  have hrun : (stackedRequests Allocator.last).GuardedRun NewKey Stacked.init []
      ⟨Stacked.init.state, .create (some ⟨7, 1⟩) [47, 97] ::ₘ 0⟩ := .start .nil hstart
  have hquiet (s : Stacked) (p : Request) (hp : p.inserted = none) : NewKey s p 0 := by
    simp [NewKey, hp]
  have hcreated := hrun.code (hquiet _ _ rfl) hcreate
  have hstatted := hcreated.code (hquiet _ _ rfl) hstat
  have hinserted := hstatted.code hnew hcode
  refine ⟨_, (keys_unique Allocator.last hinserted).1, Allocator.last.addr 0 LoData.init, ?_⟩
  change d.keyAt _ = _
  rw [LoData.keyAt_update hcontent, Function.update_self]
  rfl

/-- A file is created, removed and created again with the same inode number, before the kernel forgets
the first node. -/
theorem created_again : ¬ ∀ (alloc : Allocator) (tr : List Empty) (c : Calls.Config Stacked Request),
    (stackedRequests alloc).Run Stacked.init tr c → KeysUnique c.state.session.data := by
  intro hall
  set a := Allocator.last.addr 0 LoData.init with ha
  have hfresh : LoData.init.nodes[a]? = none := Allocator.last.fresh 0 LoData.init
  obtain ⟨d, L, hinsert, htable, hcontent⟩ := insertToHashTable_spec Table.init hfresh ⟨7, 1⟩ [47, 97]
  have hstored : d.content a = some (LoInode.fresh a ⟨7, 1⟩ [47, 97]) := by
    rw [hcontent, Function.update_self]
  obtain ⟨node, hnode, hunlinked⟩ := LoData.exists_nodeAt hstored
  have hzero : node.nlookup = 0 := congrArg LoInode.nlookup hunlinked
  have hlo : node.loIno = a := congrArg LoInode.loIno hunlinked
  have hlive := LoData.mem_iff_content.mpr (Option.isSome_of_eq_some hstored)
  have hmodify := LoData.modify_count hlive fun _ => 0 + 1
  -- The node is handed out once.
  set d₁ := d.putCount a fun _ => 0 + 1 with hd₁
  have htable₁ : Table d₁ L := htable.putCount _
  have hnode₁ : d₁.nodeAt a = some { node with nlookup := 0 + 1 } := by
    have hnodes : d.nodes[a]? = some node := hnode
    rw [LoData.nodeAt, LoData.getElem?_putCount, if_pos rfl, hnodes]
    rfl
  have hfresh₁ := Allocator.last.fresh 1 d₁
  obtain ⟨d₂, L₂, hinsert₂, -, hcontent₂⟩ := insertToHashTable_spec htable₁ hfresh₁ ⟨7, 1⟩ [47, 97]
  have hcreate (s : Stacked) (hs : s.lower [47, 97] = none) :
      (Request.create (some ⟨7, 1⟩) [47, 97]).code Allocator.last s =
        some ⟨s.make [47, 97] ⟨⟨7, 1⟩, false⟩, some (.created [47, 97]), []⟩ := by
    simp only [Request.code, hs]
  have hstat (s : Stacked) := Request.code_created Allocator.last s [47, 97] ⟨⟨7, 1⟩, false⟩
  have hread (s : Stacked) (hs : s.session.data = d) :
      (Request.table (.incRead a)).code Allocator.last s =
        some ⟨s, some (.table (.incWrite a 0)), []⟩ := by
    simp only [Request.code, code, hs, hnode, hzero, Option.bind_eq_bind, Option.bind_some,
      Option.map_some]
  have hwrite (s : Stacked) (hs : s.session.data = d) :
      (Request.table (.incWrite a 0)).code Allocator.last s = some ⟨{ s with session :=
        { s.session with data := d₁, granted := bump s.session.granted a 1 } },
        some (.table (.reply a)), []⟩ := by
    simp only [Request.code, code, hs, hmodify, Option.bind_eq_bind, Option.bind_some,
      Option.map_some]
  have hreply (s : Stacked) (hs : s.session.data = d₁) :
      (Request.table (.reply a)).code Allocator.last s = some ⟨{ s with session :=
        { s.session with sent := bump s.session.sent a 1 } }, none, []⟩ := by
    simp only [Request.code, code, hs, hnode₁, hlo, Option.bind_eq_bind, Option.bind_some,
      Option.map_none]
  have hunlink (s : Stacked) (hs : s.lower [47, 97] = some ⟨⟨7, 1⟩, false⟩) :
      (Request.unlink [47, 97]).code Allocator.last s = some ⟨s.remove [47, 97], none, []⟩ := by
    simp only [Request.code, hs]
  have hbegin : (stackedRequests Allocator.last).Run Stacked.init [] ⟨Stacked.init.state, 0⟩ := .nil
  have hstart (s : Stacked) : (stackedRequests Allocator.last).starts s
      (.create (some ⟨7, 1⟩) [47, 97]) s := rfl
  have hremove (s : Stacked) :
      (stackedRequests Allocator.last).starts s (.unlink [47, 97]) s := rfl
  have hmade := ((hbegin.start (hstart _)).next (hcreate Stacked.init.state rfl)).next
    (hstat _)
  have hinserted := hmade.next (Request.code_insert _ ha.symm hinsert)
  have hcreated := ((hinserted.next (hread _ rfl)).next (hwrite _ rfl)).return (hreply _ rfl)
  have hmadeFile : (Stacked.init.state.make [47, 97] ⟨⟨7, 1⟩, false⟩).lower [47, 97] =
      some ⟨⟨7, 1⟩, false⟩ := by
    simp [Stacked.make]
  obtain ⟨s, hrun, hdata, hcount, hfile⟩ : ∃ s : Stacked,
      (stackedRequests Allocator.last).Run Stacked.init [] ⟨s, 0⟩ ∧ s.session.data = d₁ ∧
      s.session.allocations = 1 ∧ s.lower [47, 97] = some ⟨⟨7, 1⟩, false⟩ :=
    ⟨_, hcreated, rfl, rfl, hmadeFile⟩
  have hnone : (s.remove [47, 97]).lower [47, 97] = none := by simp [Stacked.remove]
  have hremoved := (hrun.start (hremove s)).return (hunlink s hfile)
  have hagain := ((hremoved.start (hstart _)).next (hcreate _ hnone)).next (hstat _)
  have haddr : Allocator.last.addr s.session.allocations s.session.data =
      Allocator.last.addr 1 d₁ := by rw [hdata, hcount]
  have hsecondNode : insertToHashTable (s.session.data.calloc (Allocator.last.addr 1 d₁) ⟨7, 1⟩
      [47, 97]) (Allocator.last.addr 1 d₁) = some d₂ := by rw [hdata, hinsert₂]
  have hunique : KeysUnique d₂ := hall _ _ _ (hagain.next (Request.code_insert _ haddr hsecondNode))
  have hfirst₁ : d₁.keyAt a = some ⟨7, 1, [47, 97]⟩ := by
    rw [LoData.keyAt_putCount, LoData.keyAt_update hcontent, Function.update_self]
    rfl
  have hne : a ≠ Allocator.last.addr 1 d₁ := by
    intro heq
    have hnone := LoData.keyAt_of_none hfresh₁
    rw [← heq, hfirst₁] at hnone
    cases hnone
  have hfirst : d₂.keyAt a = some ⟨7, 1, [47, 97]⟩ := by
    rw [LoData.keyAt_update hcontent₂, Function.update_of_ne hne, hfirst₁]
  have hsecond : d₂.keyAt (Allocator.last.addr 1 d₁) = some ⟨7, 1, [47, 97]⟩ := by
    rw [LoData.keyAt_update hcontent₂, Function.update_self]
    rfl
  exact hne (hunique a _ _ hfirst hsecond)

end StackFs
