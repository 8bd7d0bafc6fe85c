import VeronaFs.Foundation.CString
import VeronaFs.StackFs.Duplicates

/-!
# Full paths

Each request with a name allocates a buffer of `PATH_MAX` bytes and concatenates the path of the
parent, a slash and the name in it.  The bound of the last concatenation is the size of the buffer,
not the space that is left.  The path of a new node is stored, and it is the path of a parent later.
-/

namespace StackFs

open Foundation

/-! ## The code -/

/-- The longest path with its zero byte, `PATH_MAX`. -/
def pathMax : ℕ := 4096

/-- The longest name without its zero byte, `NAME_MAX`. -/
def nameMax : ℕ := 255

/-- The path of a node, or of the root directory for the inode number of the root. -/
def loName (root : List UInt8) (d : LoData) : Option ℕ → Option (List UInt8)
  | none => some root
  | some ino => (d.nodeAt ino).map LoInode.name

/-- Concatenate the path of the parent, a slash and a name in a buffer. -/
def constructFullPath (root : List UInt8) (d : LoData) (ino : Option ℕ) (fpath path : List UInt8) :
    Option (List UInt8) := do
  let fpath ← strcpy fpath (← loName root d ino)
  let fpath ← strncat fpath [47] 1
  strncat fpath path pathMax

/-- The requests with the name of a file that stays or comes into being. -/
inductive NameOp where
  /-- A lookup. -/
  | lookup
  /-- The creation of a file. -/
  | create
  /-- The creation of a directory. -/
  | mkdir
deriving DecidableEq, Repr

/-- The part of a request behind the calls of the file system below. -/
def NameOp.op (a : ℕ) (st : Stat) (fullpath : List UInt8) : NameOp → Op
  | lookup => .lookup a st fullpath
  | create => .create a st fullpath
  | mkdir => .mkdir a st fullpath

/-- A request for a name in a parent, with the buffer as it was allocated, the address of a new node
and the attributes of the file, or none if the file system below refuses the path. -/
def nameRequest (root : List UInt8) (d : LoData) (kind : NameOp) (a : ℕ) (parent : Option ℕ)
    (name buf : List UInt8) (st : Option Stat) : Option LoData := do
  let fullPath ← constructFullPath root d parent buf name
  match st with
  | none => some d
  | some st => (kind.op a st (cString fullPath)).exec d

/-- The states that some sequence of such requests leads to. -/
inductive ReachedByName (root : List UInt8) : LoData → Prop
  /-- The start. -/
  | init : ReachedByName root LoData.init
  /-- One more request. -/
  | request {d d' : LoData} {kind : NameOp} {a : ℕ} {parent : Option ℕ} {name buf : List UInt8}
      {st : Option Stat} (h : ReachedByName root d) (hzero : 0 ∉ name)
      (hname : name.length ≤ nameMax) (hbuf : buf.length = pathMax) (ha : d.nodes[a]? = none)
      (hrequest : nameRequest root d kind a parent name buf st = some d') : ReachedByName root d'

variable {root path name buf fullpath : List UInt8} {d d' : LoData} {L : ℕ → List ℕ} {a : ℕ}
  {parent : Option ℕ} {st : Stat} {kind : NameOp}

/-! ## One concatenation -/

/-- The concatenation stays in the buffer exactly if the path and the name, with a slash and a zero
byte, are not longer. -/
theorem constructFullPath_spec (hparent : loName root d parent = some path) (hpath : 0 ∉ path)
    (hzero : 0 ∉ name) (hname : name.length ≤ nameMax) (hbuf : buf.length = pathMax) :
    (pathMax < path.length + name.length + 2 → constructFullPath root d parent buf name = none) ∧
    (path.length + name.length + 2 ≤ pathMax →
      ∃ buf', constructFullPath root d parent buf name = some buf' ∧
        cString buf' = path ++ 47 :: name) := by
  have htake : name.take pathMax = name := List.take_of_length_le (hname.trans (by decide))
  have hslash : (0 : UInt8) ∉ [47] := by decide
  have hcopy := strcpy_spec hpath buf
  by_cases hfirst : path.length < buf.length
  · obtain ⟨buf₁, hcopied, hlen₁, hstring₁⟩ := hcopy.2 hfirst
    have hcat := hstring₁.strncat_spec hslash 1
    by_cases hsecond : path.length + 1 < buf.length
    · obtain ⟨buf₂, hcat₁, hlen₂, hstring₂⟩ := hcat.2 (by rw [hlen₁]; exact hsecond)
      have hcat' := hstring₂.strncat_spec hzero pathMax
      have hsum : (path ++ List.take 1 [47]).length + (name.take pathMax).length =
          path.length + 1 + name.length := by
        rw [htake]
        simp
      rw [hsum, htake, hlen₂, hlen₁, hbuf] at hcat'
      have heq : constructFullPath root d parent buf name = strncat buf₂ name pathMax := by
        simp only [constructFullPath, hparent, hcopied, hcat₁, Option.bind_eq_bind, Option.bind_some]
      rw [heq]
      refine ⟨fun hlt => hcat'.1 (by omega), fun hle => ?_⟩
      obtain ⟨buf₃, hcat₂, -, hstring₃⟩ := hcat'.2 (by omega)
      refine ⟨buf₃, hcat₂, ?_⟩
      rw [hstring₃.cString_eq]
      simp
    · have hnone : strncat buf₁ [47] 1 = none := hcat.1 (by simp; omega)
      refine ⟨fun _ => ?_, fun hle => absurd hle (by omega)⟩
      simp only [constructFullPath, hparent, hcopied, hnone, Option.bind_eq_bind, Option.bind_some,
        Option.bind_none]
  · have hnone : strcpy buf path = none := hcopy.1 (Nat.not_lt.mp hfirst)
    refine ⟨fun _ => ?_, fun hle => absurd hle (by omega)⟩
    simp only [constructFullPath, hparent, hnone, Option.bind_eq_bind, Option.bind_some,
      Option.bind_none]

/-! ## Stored paths -/

/-- The paths of the nodes. -/
theorem loName_some {ino : ℕ} (h : loName root d (some ino) = some path) :
    ∃ key, d.keyAt ino = some key ∧ key.path = path := by
  obtain ⟨node, hnode, rfl⟩ := Option.map_eq_some_iff.mp h
  have hnodes : d.nodes[ino]? = some node := hnode
  exact ⟨node.key, by rw [LoData.keyAt, hnodes]; rfl, rfl⟩

/-- A request on the table changes no key, or adds the one of the new node. -/
theorem NameOp.exec_keyAt (h : Table d L) (ha : d.nodes[a]? = none)
    (hexec : (kind.op a st fullpath).exec d = some d') :
    d'.keyAt = d.keyAt ∨ d'.keyAt = Function.update d.keyAt a (some ⟨st.ino, st.dev, fullpath⟩) := by
  cases kind with
  | lookup =>
    obtain ⟨d₁, L₁, inode, hfind, -, hcase⟩ := findLoInode_spec h ha st fullpath
    obtain ⟨⟨d₂, loIno⟩, hlookup, rfl⟩ := Option.map_eq_some_iff.mp hexec
    simp only [stackfsLlLookup, hfind, Option.bind_eq_bind, Option.bind_some] at hlookup
    obtain ⟨node, -, hpair⟩ := Option.bind_eq_some_iff.mp hlookup
    obtain ⟨rfl, -⟩ := Prod.mk.inj (Option.some.inj hpair)
    rcases hcase with ⟨-, -, rfl⟩ | ⟨-, rfl, hcontent⟩
    · exact Or.inl (LoData.keyAt_putCount ..)
    · exact Or.inr (LoData.keyAt_update hcontent)
  | create =>
    obtain ⟨d₁, d₂, L', hinsert, hlookedUp, -, hcontent⟩ := insert_lookedUp_spec h ha st fullpath
    obtain ⟨⟨d₃, loIno⟩, hcreate, rfl⟩ := Option.map_eq_some_iff.mp hexec
    simp only [stackfsLlCreate, hinsert, hlookedUp, Option.bind_eq_bind, Option.bind_some] at hcreate
    obtain ⟨node, -, hpair⟩ := Option.bind_eq_some_iff.mp hcreate
    obtain ⟨rfl, -⟩ := Prod.mk.inj (Option.some.inj hpair)
    exact Or.inr (LoData.keyAt_update hcontent)
  | mkdir =>
    obtain ⟨d₁, d₂, L', hinsert, hlookedUp, -, hcontent⟩ := insert_lookedUp_spec h ha st fullpath
    obtain ⟨⟨d₃, loIno⟩, hmkdir, rfl⟩ := Option.map_eq_some_iff.mp hexec
    simp only [stackfsLlMkdir, hinsert, hlookedUp, Option.bind_eq_bind, Option.bind_some] at hmkdir
    obtain ⟨node, -, hpair⟩ := Option.bind_eq_some_iff.mp hmkdir
    obtain ⟨rfl, -⟩ := Prod.mk.inj (Option.some.inj hpair)
    exact Or.inr (LoData.keyAt_update hcontent)

/-- The table is well formed, and no stored path has a zero byte. -/
structure PathTable (d : LoData) : Prop where
  /-- The table is well formed. -/
  table : ∃ L, Table d L
  /-- The paths are strings. -/
  zero_notMem : ∀ a key, d.keyAt a = some key → 0 ∉ key.path

/-- The path of a parent is a string. -/
theorem PathTable.zero_notMem_loName (h : PathTable d) (hroot : 0 ∉ root)
    (hparent : loName root d parent = some path) : 0 ∉ path := by
  cases parent with
  | none =>
    obtain rfl := Option.some.inj hparent
    exact hroot
  | some ino =>
    obtain ⟨key, hkey, rfl⟩ := loName_some hparent
    exact h.zero_notMem ino key hkey

/-- What the requests keep. -/
theorem ReachedByName.pathTable (h : ReachedByName root d) : PathTable d := by
  induction h with
  | init =>
    refine ⟨⟨_, Table.init⟩, fun a key hkey => ?_⟩
    rw [LoData.keyAt_of_none Std.ExtTreeMap.getElem?_empty] at hkey
    cases hkey
  | @request d d' kind a parent name buf st _ hzero hname hbuf ha hrequest ih =>
    obtain ⟨fullPath, hconstruct, hrequest⟩ := Option.bind_eq_some_iff.mp hrequest
    cases st with
    | none =>
      obtain rfl := Option.some.inj hrequest
      exact ih
    | some st =>
      obtain ⟨L, htable⟩ := ih.table
      have hallowed : (kind.op a st (cString fullPath)).Allowed d := by cases kind <;> exact ha
      obtain ⟨d'', L', hexec, htable'⟩ := Op.exec_spec _ htable hallowed
      obtain rfl := Option.some.inj (hexec.symm.trans hrequest)
      refine ⟨⟨L', htable'⟩, fun b key hb => ?_⟩
      rcases NameOp.exec_keyAt htable ha hexec with hkeys | hkeys
      · rw [hkeys] at hb
        exact ih.zero_notMem b key hb
      · rw [hkeys, Function.update_apply] at hb
        split at hb
        · obtain rfl := Option.some.inj hb
          exact zero_notMem_cString fullPath
        · exact ih.zero_notMem b key hb

/-- In every state that lookups and creations of files and directories lead to, for every parent and
every name: all that `construct_full_path` writes is in its buffer exactly if the path of the parent
and the name, with a slash and a zero byte, have at most `PATH_MAX` bytes. -/
theorem constructFullPath_isSome_iff (hroot : 0 ∉ root) (h : ReachedByName root d)
    (hparent : loName root d parent = some path) (hzero : 0 ∉ name) (hname : name.length ≤ nameMax)
    (hbuf : buf.length = pathMax) :
    (constructFullPath root d parent buf name).isSome ↔
      path.length + name.length + 2 ≤ pathMax := by
  have hpath := h.pathTable.zero_notMem_loName hroot hparent
  have hspec := constructFullPath_spec hparent hpath hzero hname hbuf
  constructor
  · intro hsome
    by_contra hlt
    rw [hspec.1 (Nat.lt_of_not_le hlt)] at hsome
    cases hsome
  · intro hle
    obtain ⟨buf', hconstruct, -⟩ := hspec.2 hle
    rw [hconstruct]
    rfl

/-- A name in the root directory. -/
theorem constructFullPath_root :
    (constructFullPath [47, 114] LoData.init none (List.replicate pathMax 0) [97]).isSome :=
  (constructFullPath_isSome_iff (by decide) .init rfl (by decide) (by decide)
    List.length_replicate).mpr (by decide)

/-! ## A deep directory -/

/-- A name of the longest length. -/
theorem zero_notMem_longestName : (0 : UInt8) ∉ List.replicate nameMax 97 := by
  rw [List.mem_replicate]
  exact fun h => absurd h.2 (by decide)

/-- Directories with names of the longest length, each in the one before. -/
theorem exists_deep (k : ℕ) (hk : k ≤ 15) : ∃ d parent path, ReachedByName [47, 114] d ∧
    loName [47, 114] d parent = some path ∧ path.length = 2 + 256 * k := by
  induction k with
  | zero => exact ⟨LoData.init, none, [47, 114], .init, rfl, rfl⟩
  | succ k ih =>
    obtain ⟨d, parent, path, hreached, hparent, hlen⟩ := ih (by omega)
    have hinv := hreached.pathTable
    obtain ⟨L, htable⟩ := hinv.table
    have hname : (List.replicate nameMax (97 : UInt8)).length ≤ nameMax :=
      (List.length_replicate ..).le
    have hbuf : (List.replicate pathMax (0 : UInt8)).length = pathMax := List.length_replicate
    obtain ⟨buf, hconstruct, hstring⟩ := (constructFullPath_spec hparent
      (hinv.zero_notMem_loName (by decide) hparent) zero_notMem_longestName hname hbuf).2 (by
        rw [List.length_replicate, hlen, nameMax, pathMax]
        omega)
    have ha := Allocator.last.fresh 0 d
    obtain ⟨d₁, d', L', hinsert, hlookedUp, htable', hcontent⟩ :=
      insert_lookedUp_spec htable ha ⟨k.toUInt64, 1⟩ (cString buf)
    have hstored : d'.content (Allocator.last.addr 0 d) =
        some (LoInode.handedOut (Allocator.last.addr 0 d) ⟨k.toUInt64, 1⟩ (cString buf)) := by
      rw [hcontent, Function.update_self]
    obtain ⟨node, hnode, hunlinked⟩ := LoData.exists_nodeAt hstored
    have hnodeName : node.name = cString buf := congrArg LoInode.name hunlinked
    have hrequest : nameRequest [47, 114] d .mkdir (Allocator.last.addr 0 d) parent
        (List.replicate nameMax 97) (List.replicate pathMax 0) (some ⟨k.toUInt64, 1⟩) = some d' := by
      simp only [nameRequest, hconstruct, NameOp.op, Op.exec, stackfsLlMkdir, hinsert, hlookedUp,
        hnode, Option.bind_eq_bind, Option.bind_some, Option.map_some]
    refine ⟨d', some (Allocator.last.addr 0 d), cString buf,
      hreached.request zero_notMem_longestName hname hbuf ha hrequest, ?_, ?_⟩
    · rw [loName, hnode, Option.map_some, hnodeName]
    · rw [hstring, List.length_append, hlen, List.length_cons, List.length_replicate, nameMax]
      omega

/-- In the sixteenth directory of this kind a name of the longest length is written behind the end of
the buffer. -/
theorem constructFullPath_overflows : ¬ ∀ (root : List UInt8) (d : LoData) (parent : Option ℕ)
    (path name buf : List UInt8), 0 ∉ root → ReachedByName root d →
    loName root d parent = some path → 0 ∉ name → name.length ≤ nameMax → buf.length = pathMax →
    (constructFullPath root d parent buf name).isSome := by
  intro hall
  obtain ⟨d, parent, path, hreached, hparent, hlen⟩ := exists_deep 15 le_rfl
  have hname : (List.replicate nameMax (97 : UInt8)).length ≤ nameMax :=
    (List.length_replicate ..).le
  have hbuf : (List.replicate pathMax (0 : UInt8)).length = pathMax := List.length_replicate
  have hsome := hall _ d parent path _ _ (by decide) hreached hparent zero_notMem_longestName hname hbuf
  have hnone := (constructFullPath_spec hparent (hreached.pathTable.zero_notMem_loName
    (by decide) hparent) zero_notMem_longestName hname hbuf).1 (by
      rw [List.length_replicate, hlen, nameMax, pathMax]
      omega)
  rw [hnone] at hsome
  cases hsome

end StackFs
