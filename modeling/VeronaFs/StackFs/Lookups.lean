import VeronaFs.Foundation.Calls
import VeronaFs.StackFs.Requests

/-!
# Lookup counts

The session threads of StackFS run lookups, creations and forgets at the same time.  The table is
locked while a node is searched, inserted or deleted, but `create` and `mkdir` increment `nlookup`
behind their locked section, and a forget checks, lowers and tests it before its own.  The steps are
the locked sections and the single accesses to `nlookup`.

The state counts, for each inode number, the replies that were granted by an increment, the replies
that were sent, and the forgets that were sent by the kernel and applied.
-/

namespace StackFs

open Foundation

/-! ## Code -/

/-- An allocator: the address that `calloc` returns next is free. -/
structure Allocator where
  /-- The address of the `k`-th allocation. -/
  addr : ℕ → LoData → ℕ
  /-- No node is there. -/
  fresh : ∀ k d, d.nodes[addr k d]? = none

/-- The file system and the counts of what was sent. -/
structure Session where
  /-- The table. -/
  data : LoData
  /-- The number of allocations. -/
  allocations : ℕ
  /-- The replies that were granted by an increment. -/
  granted : ℕ → ℕ
  /-- The replies that were sent. -/
  sent : ℕ → ℕ
  /-- The replies that the kernel gave back by forgets. -/
  givenBack : ℕ → ℕ
  /-- The replies that forgets subtracted. -/
  forgotten : ℕ → ℕ

/-- Where a request is. -/
inductive Pc where
  /-- `lookup`: the locked section of `find_lo_inode`. -/
  | find (st : Stat) (fullpath : List UInt8)
  /-- `lookup`, `create`, `mkdir`: the reply with `lo_ino` of the node. -/
  | reply (a : ℕ)
  /-- `create`, `mkdir`: the locked section. -/
  | insert (st : Stat) (fullpath : List UInt8)
  /-- `create`, `mkdir`: `nlookup` is read. -/
  | incRead (a : ℕ)
  /-- `create`, `mkdir`: `nlookup` is written. -/
  | incWrite (a : ℕ) (v : UInt64)
  /-- `forget`: the assertion. -/
  | assertCount (a : ℕ) (n : UInt64)
  /-- `forget`: `nlookup` is read. -/
  | subRead (a : ℕ) (n : UInt64)
  /-- `forget`: `nlookup` is written. -/
  | subWrite (a : ℕ) (n v : UInt64)
  /-- `forget`: `nlookup` is tested. -/
  | test (a : ℕ)
  /-- `forget`: the locked section of `delete_from_hash_table`. -/
  | delete (a : ℕ)
deriving DecidableEq, Repr

/-- One more at an inode number. -/
def bump (f : ℕ → ℕ) (a n : ℕ) : ℕ → ℕ := Function.update f a (f a + n)

/-- A new request.  The kernel gives back replies that it got and did not give back yet. -/
def starts (s : Session) : Pc → Session → Prop
  | .find _ _, s' | .insert _ _, s' => s' = s
  | .assertCount a n, s' => 0 < n ∧ s.givenBack a + n.toNat ≤ s.sent a ∧
      s' = { s with givenBack := bump s.givenBack a n.toNat }
  | .reply _, _ | .incRead _, _ | .incWrite _ _, _ | .subRead _ _, _ | .subWrite _ _ _, _
  | .test _, _ | .delete _, _ => False

/-- The next step of a request. -/
def code (alloc : Allocator) : Pc → Session → Option (Calls.Effect Session Pc Empty)
  | .find st fullpath, s => do
    let a := alloc.addr s.allocations s.data
    let (d, inode) ← findLoInode s.data a st fullpath
    some ⟨{ s with data := d, allocations := s.allocations + 1, granted := bump s.granted inode 1 },
      some (.reply inode), []⟩
  | .reply a, s => do
    let node ← s.data.nodeAt a
    some ⟨{ s with sent := bump s.sent node.loIno 1 }, none, []⟩
  | .insert st fullpath, s => do
    let a := alloc.addr s.allocations s.data
    let d ← insertToHashTable (s.data.calloc a st fullpath) a
    some ⟨{ s with data := d, allocations := s.allocations + 1 }, some (.incRead a), []⟩
  | .incRead a, s => do
    let node ← s.data.nodeAt a
    some ⟨s, some (.incWrite a node.nlookup), []⟩
  | .incWrite a v, s => do
    let d ← s.data.modify a fun node => { node with nlookup := v + 1 }
    some ⟨{ s with data := d, granted := bump s.granted a 1 }, some (.reply a), []⟩
  | .assertCount a n, s => do
    let node ← s.data.nodeAt a
    if n ≤ node.nlookup then some ⟨s, some (.subRead a n), []⟩ else none
  | .subRead a n, s => do
    let node ← s.data.nodeAt a
    some ⟨s, some (.subWrite a n node.nlookup), []⟩
  | .subWrite a n v, s => do
    let d ← s.data.modify a fun node => { node with nlookup := v - n }
    some ⟨{ s with data := d, forgotten := bump s.forgotten a n.toNat }, some (.test a), []⟩
  | .test a, s => do
    let node ← s.data.nodeAt a
    some ⟨s, if node.nlookup = 0 then some (.delete a) else none, []⟩
  | .delete a, s => do
    let d ← deleteFromHashTable s.data a
    some ⟨{ s with data := d }, none, []⟩

/-- The requests of the session threads. -/
def requests (alloc : Allocator) : Calls Session Pc Empty where
  starts := starts
  code := code alloc

/-- The start. -/
def Session.init : Calls.Config Session Pc where
  state :=
    { data := LoData.init, allocations := 0, granted := fun _ => 0, sent := fun _ => 0
      givenBack := fun _ => 0, forgotten := fun _ => 0 }
  calls := 0

/-! ## What holds of a state -/

/-- The counts are right, no request faults at its next step, and what was handed out is live. -/
structure Counted (alloc : Allocator) (c : Calls.Config Session Pc) : Prop where
  /-- The count of a node is the replies granted less the forgets applied. -/
  nlookup_eq : ∀ a node, c.state.data.nodes[a]? = some node →
    node.nlookup.toNat + c.state.forgotten a = c.state.granted a
  /-- No assertion fails, and no request accesses a freed node. -/
  runs : ∀ p ∈ c.calls, (code alloc p c.state).isSome
  /-- A node is freed only when the difference is zero. -/
  live_of_lt : ∀ a, c.state.forgotten a < c.state.granted a → a ∈ c.state.data.nodes
  /-- What the kernel got and did not give back is live. -/
  live_of_sent : ∀ a, c.state.givenBack a < c.state.sent a → a ∈ c.state.data.nodes

/-! ## The condition -/

/-- The request read the count of the node and has not yet written it back, or it tested the count to
be zero and has not yet deleted the node. -/
def Pc.holds (a : ℕ) : Pc → Prop
  | .incWrite b _ | .subWrite b _ _ | .delete b => b = a
  | .find _ _ | .reply _ | .insert _ _ | .incRead _ | .assertCount _ _ | .subRead _ _
  | .test _ => False

/-- The request will access the count of the node again, not covered by a reply that the kernel has
or gives back. -/
def Pc.uses (a : ℕ) : Pc → Prop
  | .incRead b | .incWrite b _ | .test b | .delete b => b = a
  | .find _ _ | .reply _ | .insert _ _ | .assertCount _ _ | .subRead _ _ | .subWrite _ _ _ => False

/-- The step does not change a count between two accesses of another request, deletes no node that
another request uses, and no count overflows. -/
def Undisturbed (s : Session) (p : Pc) (rest : Multiset Pc) : Prop :=
  match p with
  | .find st fullpath => ∀ a, lookupLoInode s.data st fullpath = some (some a) →
      (∀ q ∈ rest, ¬ q.holds a) ∧ ∀ node, s.data.nodes[a]? = some node → node.nlookup + 1 ≠ 0
  | .incWrite a v => (∀ q ∈ rest, ¬ q.holds a) ∧ v + 1 ≠ 0
  | .subWrite a _ _ => ∀ q ∈ rest, ¬ q.holds a
  | .delete a => ∀ q ∈ rest, ¬ q.uses a
  | .reply _ | .insert _ _ | .incRead _ | .assertCount _ _ | .subRead _ _ | .test _ => True

/-! ## The invariant -/

/-- The replies that the request has still to send for the inode number. -/
@[simp] def Pc.replies (a : ℕ) : Pc → ℕ
  | .reply b => if b = a then 1 else 0
  | .find _ _ | .insert _ _ | .incRead _ | .incWrite _ _ | .assertCount _ _ | .subRead _ _
  | .subWrite _ _ _ | .test _ | .delete _ => 0

/-- What the request has still to subtract from the count of the node. -/
@[simp] def Pc.pending (a : ℕ) : Pc → ℕ
  | .assertCount b n | .subRead b n | .subWrite b n _ => if b = a then n.toNat else 0
  | .find _ _ | .reply _ | .insert _ _ | .incRead _ | .incWrite _ _ | .test _ | .delete _ => 0

/-- What a request relies on. -/
@[simp] def Pc.Relies (d : LoData) : Pc → Prop
  | .incRead a | .test a => ∃ node, d.content a = some node
  | .incWrite a v => ∃ node, d.content a = some node ∧ node.nlookup = v
  | .subWrite a n v => 0 < n ∧ ∃ node, d.content a = some node ∧ node.nlookup = v
  | .delete a => ∃ node, d.content a = some node ∧ node.nlookup = 0
  | .assertCount _ n | .subRead _ n => 0 < n
  | .find _ _ | .reply _ | .insert _ _ => True

/-- The invariant of the session threads. -/
structure Balanced (s : Session) (cs : Multiset Pc) : Prop where
  /-- The table is well formed. -/
  table : ∃ L, Table s.data L
  /-- The inode number of a node is its address. -/
  loIno_eq : ∀ a node, s.data.content a = some node → node.loIno = a
  /-- The count of a node. -/
  nlookup_eq : ∀ a node, s.data.content a = some node →
    node.nlookup.toNat + s.forgotten a = s.granted a
  /-- A free address has no outstanding reply. -/
  free_eq : ∀ a, s.data.content a = none → s.forgotten a = s.granted a
  /-- The replies that were granted were sent or will be. -/
  granted_eq : ∀ a, s.granted a = s.sent a + Calls.total (Pc.replies a) cs
  /-- What the kernel gave back was subtracted or will be. -/
  givenBack_eq : ∀ a, s.givenBack a = s.forgotten a + Calls.total (Pc.pending a) cs
  /-- The kernel gives back what it got. -/
  givenBack_le : ∀ a, s.givenBack a ≤ s.sent a
  /-- Each request finds what it relies on. -/
  relies : ∀ p ∈ cs, p.Relies s.data

variable {alloc : Allocator} {s s' : Session} {p q : Pc} {rest : Multiset Pc} {d : LoData} {a : ℕ}

/-- A change of a count that the request does not hold. -/
theorem Pc.Relies.update {d' : LoData} {node : LoInode} (h : q.Relies d) (hq : ¬ q.holds a)
    (hcontent : d'.content = Function.update d.content a (some node)) : q.Relies d' := by
  cases q <;> simp only [Relies, holds, hcontent, Function.update_apply] at * <;> grind

/-- The deletion of a node that the request does not use. -/
theorem Pc.Relies.delete {d' : LoData} (h : q.Relies d) (hq : ¬ q.uses a) (hpending : q.pending a = 0)
    (hcontent : d'.content = Function.update d.content a none) : q.Relies d' := by
  cases q <;>
    simp only [Relies, uses, pending, hcontent, Function.update_apply, UInt64.lt_iff_toNat_lt,
      UInt64.toNat_zero] at * <;>
    grind

/-- The insertion of a new node. -/
theorem Pc.Relies.insert {d' : LoData} {node : LoInode} (h : q.Relies d) (ha : d.content a = none)
    (hcontent : d'.content = Function.update d.content a (some node)) : q.Relies d' := by
  cases q <;> simp only [Relies, hcontent, Function.update_apply] at * <;> grind

/-- One more at an inode number. -/
@[simp] theorem bump_apply (f : ℕ → ℕ) (a n b : ℕ) : bump f a n b = f b + if a = b then n else 0 := by
  rw [bump, Function.update_apply]
  rcases eq_or_ne b a with rfl | hba
  · simp
  · simp [hba, hba.symm]

/-- What is stored at a live address. -/
theorem LoData.content_of_nodeAt {node : LoInode} (h : d.nodeAt a = some node) :
    d.content a = some node.unlinked := by
  have hnode : d.nodes[a]? = some node := h
  rw [content, hnode]
  rfl

/-- Nothing is stored at a free address. -/
theorem LoData.content_of_none (h : d.nodes[a]? = none) : d.content a = none := by
  rw [content, h]
  rfl

/-- A node is stored at a live address. -/
theorem LoData.exists_nodeAt {node : LoInode} (h : d.content a = some node) :
    ∃ node₀, d.nodeAt a = some node₀ ∧ node₀.unlinked = node :=
  Option.map_eq_some_iff.mp h

namespace Balanced

/-- No address has more forgets than replies. -/
theorem forgotten_le (h : Balanced s rest) (a : ℕ) : s.forgotten a ≤ s.granted a := by
  have hgranted := h.granted_eq a
  have hback := h.givenBack_eq a
  have hle := h.givenBack_le a
  omega

/-- A node with an outstanding reply is live. -/
theorem exists_content (h : Balanced s rest) (hlt : s.forgotten a < s.granted a) :
    ∃ node, s.data.content a = some node := by
  cases hc : s.data.content a with
  | some node => exact ⟨node, rfl⟩
  | none =>
    have hfree := h.free_eq a hc
    omega

/-- The node of a pending reply is live. -/
theorem content_of_reply (h : Balanced s (.reply a ::ₘ rest)) : ∃ node, s.data.content a = some node := by
  have hgranted := h.granted_eq a
  have hback := h.givenBack_eq a
  have hle := h.givenBack_le a
  simp only [Calls.total_cons, Pc.replies, if_true] at hgranted
  exact h.exists_content (by omega)

/-- A forget has not more to subtract than the node counts. -/
theorem content_of_pending (h : Balanced s (p ::ₘ rest)) (hp : 0 < p.pending a) :
    ∃ node, s.data.content a = some node ∧ p.pending a ≤ node.nlookup.toNat := by
  have hgranted := h.granted_eq a
  have hback := h.givenBack_eq a
  have hle := h.givenBack_le a
  simp only [Calls.total_cons] at hback
  obtain ⟨node, hnode⟩ := h.exists_content (a := a) (by omega)
  have hcount := h.nlookup_eq a node hnode
  exact ⟨node, hnode, by omega⟩

/-- A new request. -/
theorem startStep (h : Balanced s rest) (hstart : starts s p s') : Balanced s' (p ::ₘ rest) := by
  cases p with
  | find st fullpath =>
    obtain rfl := hstart
    exact { h with
      granted_eq := by simpa using h.granted_eq
      givenBack_eq := by simpa using h.givenBack_eq
      relies := by simpa using h.relies }
  | insert st fullpath =>
    obtain rfl := hstart
    exact { h with
      granted_eq := by simpa using h.granted_eq
      givenBack_eq := by simpa using h.givenBack_eq
      relies := by simpa using h.relies }
  | assertCount a n =>
    obtain ⟨hn, hle, rfl⟩ := hstart
    refine ⟨h.table, h.loIno_eq, h.nlookup_eq, h.free_eq, ?_, fun b => ?_, fun b => ?_, ?_⟩
    · simpa using h.granted_eq
    · have hback := h.givenBack_eq b
      simp only [bump_apply, Calls.total_cons, Pc.pending]
      omega
    · have hb := h.givenBack_le b
      simp only [bump_apply]
      split
      · next hab => exact hab ▸ hle
      · exact hb
    · simpa [hn] using h.relies
  | reply | incRead | incWrite | subRead | subWrite | test | delete => exact hstart.elim

/-- A step that changes nothing but where the request is. -/
theorem pass {next : Option Pc} (h : Balanced s (p ::ₘ rest))
    (hreplies : ∀ a, ((next.map (Pc.replies a)).getD 0) = p.replies a)
    (hpending : ∀ a, ((next.map (Pc.pending a)).getD 0) = p.pending a)
    (hrelies : ∀ q ∈ next, q.Relies s.data) : Balanced s (Calls.resume next rest) where
  table := h.table
  loIno_eq := h.loIno_eq
  nlookup_eq := h.nlookup_eq
  free_eq := h.free_eq
  granted_eq a := by
    rw [Calls.total_resume, hreplies, ← Calls.total_cons]
    exact h.granted_eq a
  givenBack_eq a := by
    rw [Calls.total_resume, hpending, ← Calls.total_cons]
    exact h.givenBack_eq a
  givenBack_le := h.givenBack_le
  relies q hq := by
    cases next with
    | none => exact h.relies q (Multiset.mem_cons_of_mem hq)
    | some r =>
      rcases Multiset.mem_cons.mp hq with rfl | hq
      · exact hrelies q rfl
      · exact h.relies q (Multiset.mem_cons_of_mem hq)

/-- A step that stores a node, grants `i` replies for it and subtracts `j`. -/
theorem store {i j : ℕ} {node : LoInode} (h : Balanced s (p ::ₘ rest))
    (htable : ∃ L, Table s'.data L)
    (hcontent : s'.data.content = Function.update s.data.content a (some node))
    (hlo : node.loIno = a)
    (hgranted : ∀ b, s'.granted b = s.granted b + if a = b then i else 0)
    (hforgotten : ∀ b, s'.forgotten b = s.forgotten b + if a = b then j else 0)
    (hsent : s'.sent = s.sent) (hback : s'.givenBack = s.givenBack)
    (hcount : node.nlookup.toNat + (s.forgotten a + j) = s.granted a + i)
    (hreplies : ∀ b, q.replies b = p.replies b + if a = b then i else 0)
    (hpending : ∀ b, p.pending b = q.pending b + if a = b then j else 0)
    (hrelies : ∀ r ∈ q ::ₘ rest, r.Relies s'.data) : Balanced s' (q ::ₘ rest) where
  table := htable
  loIno_eq b node' hb := by
    rw [hcontent, Function.update_apply] at hb
    split at hb
    · next hba => rw [← Option.some.inj hb, hlo, hba]
    · exact h.loIno_eq b node' hb
  nlookup_eq b node' hb := by
    rw [hcontent, Function.update_apply] at hb
    rw [hgranted, hforgotten]
    split at hb
    · next hba =>
      rw [← Option.some.inj hb, hba, if_pos rfl, if_pos rfl]
      exact hcount
    · next hba =>
      rw [if_neg (Ne.symm hba), if_neg (Ne.symm hba)]
      exact h.nlookup_eq b node' hb
  free_eq b hb := by
    rw [hcontent, Function.update_apply] at hb
    split at hb
    · cases hb
    · next hba =>
      rw [hgranted, hforgotten, if_neg (Ne.symm hba), if_neg (Ne.symm hba)]
      exact h.free_eq b hb
  granted_eq b := by
    have hb := h.granted_eq b
    rw [Calls.total_cons] at hb ⊢
    rw [hgranted, hsent, hreplies]
    omega
  givenBack_eq b := by
    have hb := h.givenBack_eq b
    rw [Calls.total_cons] at hb ⊢
    rw [hforgotten, hback, hb, hpending]
    omega
  givenBack_le b := by
    rw [hsent, hback]
    exact h.givenBack_le b
  relies := hrelies

/-- A reply is sent. -/
theorem send (h : Balanced s (.reply a ::ₘ rest)) :
    Balanced { s with sent := bump s.sent a 1 } rest where
  table := h.table
  loIno_eq := h.loIno_eq
  nlookup_eq := h.nlookup_eq
  free_eq := h.free_eq
  granted_eq b := by
    have hb := h.granted_eq b
    simp only [Calls.total_cons, Pc.replies] at hb
    simp only [bump_apply]
    omega
  givenBack_eq b := by simpa using h.givenBack_eq b
  givenBack_le b := by
    have hb := h.givenBack_le b
    simp only [bump_apply]
    omega
  relies q hq := h.relies q (Multiset.mem_cons_of_mem hq)

/-- A node without outstanding replies is deleted. -/
theorem remove {L : ℕ → List ℕ} (h : Balanced s (.delete a ::ₘ rest)) (htable : Table d L)
    (hcontent : d.content = Function.update s.data.content a none)
    (hguard : Undisturbed s (.delete a) rest) : Balanced { s with data := d } rest := by
  obtain ⟨node, hnode, hzero⟩ := h.relies (.delete a) (Multiset.mem_cons_self ..)
  have hcount := h.nlookup_eq a node hnode
  rw [hzero, UInt64.toNat_zero] at hcount
  refine ⟨⟨L, htable⟩, fun b node' hb => ?_, fun b node' hb => ?_, fun b hb => ?_,
    by simpa using h.granted_eq, by simpa using h.givenBack_eq, h.givenBack_le, fun q hq => ?_⟩
  · simp only [hcontent, Function.update_apply] at hb
    split at hb
    · cases hb
    · exact h.loIno_eq b node' hb
  · simp only [hcontent, Function.update_apply] at hb
    split at hb
    · cases hb
    · exact h.nlookup_eq b node' hb
  · simp only [hcontent, Function.update_apply] at hb
    split at hb
    · next hba =>
      rw [hba]
      change s.forgotten a = s.granted a
      omega
    · exact h.free_eq b hb
  · have hpending : q.pending a = 0 := by
      have hback := h.givenBack_eq a
      have hgranted := h.granted_eq a
      have hle := h.givenBack_le a
      have hq' := Calls.le_total (w := Pc.pending a) hq
      rw [Calls.total_cons] at hback
      omega
    exact (h.relies q (Multiset.mem_cons_of_mem hq)).delete (hguard q hq) hpending hcontent

/-- A count that does not overflow. -/
theorem toNat_add_one {v : UInt64} (hv : v + 1 ≠ 0) : (v + 1).toNat = v.toNat + 1 := by
  have hne : (v + 1).toNat ≠ 0 := fun h => hv (UInt64.toNat_inj.mp h)
  have hlt := v.toNat_lt
  rw [UInt64.toNat_add, UInt64.toNat_one] at hne ⊢
  omega

/-- The next step of a request is one without a fault, and it keeps the invariant if it meets the
condition. -/
theorem codeStep (alloc : Allocator) (h : Balanced s (p ::ₘ rest)) : ∃ e, code alloc p s = some e ∧
    (Undisturbed s p rest → Balanced e.state (Calls.resume e.next rest)) := by
  obtain ⟨L, htable⟩ := h.table
  have hrest (q : Pc) (hq : q ∈ rest) : q.Relies s.data := h.relies q (Multiset.mem_cons_of_mem hq)
  have hrelies := h.relies p (Multiset.mem_cons_self ..)
  cases p with
  | find st fullpath =>
    obtain ⟨d, L', inode, hfind, htable', hcase⟩ := findLoInode_spec htable
      (alloc.fresh s.allocations s.data) st fullpath
    refine ⟨_, by simp only [code, hfind, Option.bind_eq_bind, Option.bind_some]; rfl,
      fun hguard => ?_⟩
    rcases hcase with ⟨hlookup, hlive, rfl⟩ | ⟨-, rfl, hcontent⟩
    · obtain ⟨hfree, hover⟩ := hguard inode hlookup
      obtain ⟨node₀, hnode₀⟩ := LoData.exists_node hlive
      have hnode : s.data.content inode = some node₀.unlinked := LoData.content_of_nodeAt hnode₀
      have hcontent := LoData.content_putCount s.data inode (· + 1)
      rw [hnode, Option.map_some] at hcontent
      have hcount : node₀.nlookup.toNat + s.forgotten inode = s.granted inode :=
        h.nlookup_eq inode node₀.unlinked hnode
      have hadd := toNat_add_one (hover node₀ hnode₀)
      have hlo : node₀.loIno = inode := h.loIno_eq inode node₀.unlinked hnode
      refine h.store (i := 1) (j := 0) ⟨L', htable'⟩ hcontent hlo (bump_apply _ _ _) (by simp) rfl rfl
        ?_ (by simp) (by simp) fun r hr => ?_
      · change (node₀.nlookup + 1).toNat + _ = _
        omega
      · rcases Multiset.mem_cons.mp hr with rfl | hr
        · trivial
        · exact (hrest r hr).update (hfree r hr) hcontent
    · have hnone := LoData.content_of_none (alloc.fresh s.allocations s.data)
      have hfree := h.free_eq _ hnone
      refine h.store (i := 1) (j := 0) ⟨L', htable'⟩ hcontent rfl (bump_apply _ _ _) (by simp) rfl rfl
        ?_ (by simp) (by simp) fun r hr => ?_
      · change 1 + _ = _
        omega
      · rcases Multiset.mem_cons.mp hr with rfl | hr
        · trivial
        · exact (hrest r hr).insert hnone hcontent
  | reply a =>
    obtain ⟨node, hnode⟩ := h.content_of_reply
    obtain ⟨node₀, hnode₀, rfl⟩ := LoData.exists_nodeAt hnode
    have hlo : node₀.loIno = a := h.loIno_eq a node₀.unlinked hnode
    refine ⟨_, by simp only [code, hnode₀, hlo, Option.bind_eq_bind, Option.bind_some]; rfl,
      fun _ => h.send⟩
  | insert st fullpath =>
    have hfresh := alloc.fresh s.allocations s.data
    obtain ⟨d, L', hinsert, htable', hcontent⟩ :=
      insertToHashTable_spec htable hfresh st fullpath
    have hnone := LoData.content_of_none hfresh
    have hfree := h.free_eq _ hnone
    refine ⟨_, by simp only [code, hinsert, Option.bind_eq_bind, Option.bind_some]; rfl, fun _ => ?_⟩
    refine h.store (i := 0) (j := 0) ⟨L', htable'⟩ hcontent rfl (by simp) (by simp) rfl rfl ?_
      (by simp) (by simp) fun r hr => ?_
    · change 0 + _ = _
      omega
    · rcases Multiset.mem_cons.mp hr with rfl | hr
      · exact ⟨_, (congrFun hcontent _).trans (Function.update_self ..)⟩
      · exact (hrest r hr).insert hnone hcontent
  | incRead a =>
    obtain ⟨node, hnode⟩ := hrelies
    obtain ⟨node₀, hnode₀, rfl⟩ := LoData.exists_nodeAt hnode
    refine ⟨_, by simp only [code, hnode₀, Option.bind_eq_bind, Option.bind_some]; rfl, fun _ => ?_⟩
    refine h.pass (by simp) (by simp) fun q hq => ?_
    obtain rfl := Option.mem_some.mp hq
    exact ⟨_, hnode, rfl⟩
  | incWrite a v =>
    obtain ⟨node, hnode, rfl⟩ := hrelies
    have hlive := LoData.mem_iff_content.mpr (Option.isSome_of_eq_some hnode)
    have hmodify := LoData.modify_count hlive fun _ => node.nlookup + 1
    have hcontent := LoData.content_putCount s.data a fun _ => node.nlookup + 1
    rw [hnode, Option.map_some] at hcontent
    refine ⟨_, by simp only [code, hmodify, Option.bind_eq_bind, Option.bind_some]; rfl,
      fun hguard => ?_⟩
    have hcount := h.nlookup_eq a node hnode
    have hadd := toNat_add_one hguard.2
    have hlo := h.loIno_eq a node hnode
    have htable' := htable.putCount (a := a) fun _ => node.nlookup + 1
    refine h.store (i := 1) (j := 0) ⟨L, htable'⟩ hcontent hlo (bump_apply _ _ _) (by simp) rfl rfl
      ?_ (by simp) (by simp) fun r hr => ?_
    · change (node.nlookup + 1).toNat + _ = _
      omega
    · rcases Multiset.mem_cons.mp hr with rfl | hr
      · trivial
      · exact (hrest r hr).update (hguard.1 r hr) hcontent
  | assertCount a n =>
    have hn : 0 < n.toNat := UInt64.lt_iff_toNat_lt.mp hrelies
    obtain ⟨node, hnode, hle⟩ := h.content_of_pending (a := a) (by simpa using hn)
    obtain ⟨node₀, hnode₀, rfl⟩ := LoData.exists_nodeAt hnode
    rw [Pc.pending, if_pos rfl] at hle
    have hle' : n ≤ node₀.nlookup := UInt64.le_iff_toNat_le.mpr hle
    refine ⟨_, by simp only [code, hnode₀, hle', if_true, Option.bind_eq_bind, Option.bind_some]; rfl,
      fun _ => ?_⟩
    refine h.pass (by simp) (by simp) fun q hq => ?_
    obtain rfl := Option.mem_some.mp hq
    exact hrelies
  | subRead a n =>
    have hn : 0 < n.toNat := UInt64.lt_iff_toNat_lt.mp hrelies
    obtain ⟨node, hnode, hle⟩ := h.content_of_pending (a := a) (by simpa using hn)
    obtain ⟨node₀, hnode₀, rfl⟩ := LoData.exists_nodeAt hnode
    refine ⟨_, by simp only [code, hnode₀, Option.bind_eq_bind, Option.bind_some]; rfl, fun _ => ?_⟩
    refine h.pass (by simp) (by simp) fun q hq => ?_
    obtain rfl := Option.mem_some.mp hq
    exact ⟨hrelies, _, hnode, rfl⟩
  | subWrite a n v =>
    obtain ⟨hn, node, hnode, rfl⟩ := hrelies
    have hn' : 0 < n.toNat := UInt64.lt_iff_toNat_lt.mp hn
    obtain ⟨node', hnode', hle⟩ := h.content_of_pending (a := a) (by simpa using hn')
    obtain rfl := Option.some.inj (hnode.symm.trans hnode')
    have hle' : n.toNat ≤ node.nlookup.toNat := by simpa using hle
    have hlive := LoData.mem_iff_content.mpr (Option.isSome_of_eq_some hnode)
    have hmodify := LoData.modify_count hlive fun _ => node.nlookup - n
    have hcontent := LoData.content_putCount s.data a fun _ => node.nlookup - n
    rw [hnode, Option.map_some] at hcontent
    refine ⟨_, by simp only [code, hmodify, Option.bind_eq_bind, Option.bind_some]; rfl,
      fun hguard => ?_⟩
    have hcount := h.nlookup_eq a node hnode
    have hsub := UInt64.toNat_sub_of_le node.nlookup n (UInt64.le_iff_toNat_le.mpr hle')
    have hlo := h.loIno_eq a node hnode
    have htable' := htable.putCount (a := a) fun _ => node.nlookup - n
    refine h.store (i := 0) (j := n.toNat) ⟨L, htable'⟩ hcontent hlo (by simp) (bump_apply _ _ _)
      rfl rfl ?_ (by simp) (by simp) fun r hr => ?_
    · change (node.nlookup - n).toNat + _ = _
      omega
    · rcases Multiset.mem_cons.mp hr with rfl | hr
      · exact ⟨_, (congrFun hcontent _).trans (Function.update_self ..)⟩
      · exact (hrest r hr).update (hguard r hr) hcontent
  | test a =>
    obtain ⟨node, hnode⟩ := hrelies
    obtain ⟨node₀, hnode₀, rfl⟩ := LoData.exists_nodeAt hnode
    refine ⟨_, by simp only [code, hnode₀, Option.bind_eq_bind, Option.bind_some]; rfl, fun _ => ?_⟩
    refine h.pass (fun b => ?_) (fun b => ?_) fun q hq => ?_
    · split <;> simp
    · split <;> simp
    · split at hq
      · next hzero =>
        obtain rfl := Option.mem_some.mp hq
        exact ⟨_, hnode, hzero⟩
      · cases hq
  | delete a =>
    obtain ⟨node, hnode, hzero⟩ := hrelies
    have hlive := LoData.mem_iff_content.mpr (Option.isSome_of_eq_some hnode)
    obtain ⟨d, L', hdelete, htable', hcontent⟩ := deleteFromHashTable_spec htable hlive
    exact ⟨_, by simp only [code, hdelete, Option.bind_eq_bind, Option.bind_some]; rfl,
      fun hguard => h.remove htable' hcontent hguard⟩

end Balanced

/-! ## The results -/

/-- The invariant holds at the start. -/
theorem Balanced.init : Balanced Session.init.state Session.init.calls := by
  have hnone (a : ℕ) : Session.init.state.data.content a = none :=
    LoData.content_of_none Std.ExtTreeMap.getElem?_empty
  refine ⟨⟨_, Table.init⟩, fun a node ha => ?_, fun a node ha => ?_, fun _ _ => rfl, fun _ => rfl,
    fun _ => rfl, fun _ => le_rfl, fun p hp => absurd hp (Multiset.notMem_zero p)⟩
  · rw [hnone] at ha
    cases ha
  · rw [hnone] at ha
    cases ha

/-- The invariant gives what holds of a state. -/
theorem Balanced.counted {cs : Multiset Pc} (h : Balanced s cs) : Counted alloc ⟨s, cs⟩ := by
  refine ⟨fun a node ha => ?_, fun p hp => ?_, fun a hlt => ?_, fun a hlt => ?_⟩
  · exact h.nlookup_eq a node.unlinked (LoData.content_of_nodeAt ha)
  · obtain ⟨rest, rfl⟩ := Multiset.exists_cons_of_mem hp
    obtain ⟨e, he, -⟩ := h.codeStep alloc
    exact Option.isSome_of_eq_some he
  · obtain ⟨node, hnode⟩ := h.exists_content hlt
    exact LoData.mem_iff_content.mpr (Option.isSome_of_eq_some hnode)
  · have hgranted := h.granted_eq a
    have hback := h.givenBack_eq a
    obtain ⟨node, hnode⟩ := h.exists_content (a := a) (by change s.givenBack a < s.sent a at hlt; omega)
    exact LoData.mem_iff_content.mpr (Option.isSome_of_eq_some hnode)

/-- In every run whose steps disturb no other request the counts are right, no request faults, and a
node is freed only when every reply for it was given back. -/
theorem nlookup_counted (alloc : Allocator) {tr : List Empty} {c : Calls.Config Session Pc}
    (h : (requests alloc).GuardedRun Undisturbed Session.init tr c) : Counted alloc c := by
  refine Balanced.counted (h.invariant Balanced.init (fun s s' p rest hs hstart => ?_)
    fun s p e rest hs hguard hcode => ?_)
  · exact hs.startStep hstart
  · obtain ⟨e', he', hnext⟩ := hs.codeStep alloc
    obtain rfl := Option.some.inj (he'.symm.trans hcode)
    exact hnext hguard

/-- An allocator that returns an address behind all nodes. -/
def Allocator.last : Allocator where
  addr _ d := d.nodes.keys.sum + 1
  fresh _ d := by
    rw [← Option.not_isSome_iff_eq_none, Std.ExtTreeMap.isSome_getElem?_iff_mem,
      ← Std.ExtTreeMap.mem_keys]
    intro hmem
    have hle := List.le_sum_of_mem hmem
    omega

/-- Nothing is found at the start. -/
theorem lookupLoInode_init (st : Stat) (fullpath : List UInt8) :
    lookupLoInode LoData.init st fullpath = some none := lookupLoInode_eq Table.init

/-- The first lookup of a file hands out a new node. -/
theorem code_find_init (alloc : Allocator) (st : Stat) (fullpath : List UInt8) :
    ∃ d L a, Table d L ∧
      d.content = Function.update LoData.init.content a (some (LoInode.handedOut a st fullpath)) ∧
      code alloc (.find st fullpath) Session.init.state =
        some ⟨{ Session.init.state with data := d, allocations := 1, granted := bump (fun _ => 0) a 1 },
          some (.reply a), []⟩ := by
  obtain ⟨d, L, inode, hfind, htable, hcase⟩ := findLoInode_spec Table.init
    (alloc.fresh 0 LoData.init) st fullpath
  rcases hcase with ⟨hlookup, -, -⟩ | ⟨-, rfl, hcontent⟩
  · rw [lookupLoInode_init] at hlookup
    cases hlookup
  · refine ⟨d, L, _, htable, hcontent, ?_⟩
    have hinit : Session.init.state.data = LoData.init := rfl
    have hcount : Session.init.state.allocations = 0 := rfl
    simp only [code, hinit, hcount, hfind, Option.bind_eq_bind, Option.bind_some]
    rfl

/-- The first lookup of a file. -/
theorem nlookup_counted_find : ∃ c : Calls.Config Session Pc,
    Counted Allocator.last c ∧ ∃ a, c.state.granted a = 1 := by
  obtain ⟨d, L, a, -, -, hcode⟩ := code_find_init Allocator.last ⟨7, 1⟩ [47, 97]
  have hguard : Undisturbed Session.init.state (.find ⟨7, 1⟩ [47, 97]) 0 := fun b hb => by
    have hnone := lookupLoInode_init ⟨7, 1⟩ [47, 97]
    cases hnone.symm.trans hb
  have hstart : (requests Allocator.last).starts Session.init.state (.find ⟨7, 1⟩ [47, 97])
      Session.init.state := rfl
  have hrun : (requests Allocator.last).GuardedRun Undisturbed Session.init []
      ⟨Session.init.state, .find ⟨7, 1⟩ [47, 97] ::ₘ 0⟩ := .start .nil hstart
  exact ⟨_, nlookup_counted Allocator.last (hrun.code hguard hcode), a, by simp⟩

/-- A lookup behind the test of a forget: the node is freed while the lookup replies with it. -/
theorem not_counted_find_before_delete : ¬ ∀ (alloc : Allocator) (tr : List Empty)
    (c : Calls.Config Session Pc), (requests alloc).Run Session.init tr c → Counted alloc c := by
  intro hall
  obtain ⟨d, L, a, htable, hcontent, hfind⟩ := code_find_init Allocator.last ⟨7, 1⟩ [47, 97]
  have hinit (b : ℕ) : LoData.init.content b = none :=
    LoData.content_of_none Std.ExtTreeMap.getElem?_empty
  have hnode : d.content a = some (LoInode.handedOut a ⟨7, 1⟩ [47, 97]) := by
    rw [hcontent, Function.update_self]
  obtain ⟨node, hnodeAt, hunlinked⟩ := LoData.exists_nodeAt hnode
  have hlo : node.loIno = a := congrArg LoInode.loIno hunlinked
  have hone : node.nlookup = 1 := congrArg LoInode.nlookup hunlinked
  have hlive := LoData.mem_iff_content.mpr (Option.isSome_of_eq_some hnode)
  -- The forget subtracts the reply and finds no other.
  set d₁ := d.putCount a fun _ => 0 with hd₁
  have htable₁ : Table d₁ L := htable.putCount _
  have hcontent₁ := LoData.content_putCount d a fun _ => 0
  rw [hnode, Option.map_some] at hcontent₁
  have hnode₁ : d₁.content a = some { LoInode.handedOut a ⟨7, 1⟩ [47, 97] with nlookup := 0 } := by
    rw [hcontent₁, Function.update_self]
  obtain ⟨node₁, hnodeAt₁, hunlinked₁⟩ := LoData.exists_nodeAt hnode₁
  have hzero : node₁.nlookup = 0 := congrArg LoInode.nlookup hunlinked₁
  have hmodify := LoData.modify_count hlive fun _ => 0
  -- The second lookup finds the node.
  have hkey : d₁.keyAt a = some ⟨7, 1, [47, 97]⟩ := by
    have hnodes : d₁.nodes[a]? = some node₁ := hnodeAt₁
    have hsame : node₁.key = node₁.unlinked.key := rfl
    rw [LoData.keyAt, hnodes, Option.map_some, hsame, hunlinked₁]
    rfl
  obtain ⟨d₂, L₂, inode, hfind₂, htable₂, hcase⟩ := findLoInode_spec htable₁
    (Allocator.last.fresh 1 d₁) ⟨7, 1⟩ [47, 97]
  have hfound : inode = a ∧ a ∈ d₂.nodes := by
    rcases hcase with ⟨-, hinode, rfl⟩ | ⟨hnone, -⟩
    · have heq : inode = a := by
        by_contra hne
        rw [LoData.mem_iff_content, hcontent₁, Function.update_of_ne hne, hcontent,
          Function.update_of_ne hne, hinit] at hinode
        cases hinode
      subst heq
      exact ⟨rfl, Std.ExtTreeMap.mem_modify.mpr hinode⟩
    · obtain ⟨found, hlookup, -, hsome⟩ :=
        lookupLoInode_spec htable₁ ⟨7, 1⟩ [47, 97]
      obtain rfl := Option.some.inj (hnone.symm.trans hlookup)
      cases hsome.mpr ⟨a, hkey⟩
  obtain ⟨rfl, hlive₂⟩ := hfound
  obtain ⟨d₃, L₃, hdelete, -, hcontent₃⟩ := deleteFromHashTable_spec htable₂ hlive₂
  have hreply (s : Session) (hs : s.data = d) : code Allocator.last (.reply inode) s =
      some ⟨{ s with sent := bump s.sent inode 1 }, none, []⟩ := by
    simp only [code, hs, hnodeAt, hlo, Option.bind_eq_bind, Option.bind_some]
  have hassert (s : Session) (hs : s.data = d) : code Allocator.last (.assertCount inode 1) s =
      some ⟨s, some (.subRead inode 1), []⟩ := by
    simp only [code, hs, hnodeAt, hone, Option.bind_eq_bind, Option.bind_some]
    rfl
  have hread (s : Session) (hs : s.data = d) : code Allocator.last (.subRead inode 1) s =
      some ⟨s, some (.subWrite inode 1 1), []⟩ := by
    simp only [code, hs, hnodeAt, hone, Option.bind_eq_bind, Option.bind_some]
  have hwrite (s : Session) (hs : s.data = d) : code Allocator.last (.subWrite inode 1 1) s =
      some ⟨{ s with data := d₁, forgotten := bump s.forgotten inode 1 }, some (.test inode), []⟩ := by
    have hsub : (1 : UInt64) - 1 = 0 := rfl
    simp only [code, hs, hsub, hmodify, Option.bind_eq_bind, Option.bind_some]
    rfl
  have htest (s : Session) (hs : s.data = d₁) : code Allocator.last (.test inode) s =
      some ⟨s, some (.delete inode), []⟩ := by
    simp only [code, hs, hnodeAt₁, hzero, if_true, Option.bind_eq_bind, Option.bind_some]
  have hagain (s : Session) (hs : s.data = d₁) (hk : s.allocations = 1) :
      code Allocator.last (.find ⟨7, 1⟩ [47, 97]) s = some
        ⟨{ s with data := d₂, allocations := 1 + 1, granted := bump s.granted inode 1 },
          some (.reply inode), []⟩ := by
    simp only [code, hs, hk, hfind₂, Option.bind_eq_bind, Option.bind_some]
  have hfree (s : Session) (hs : s.data = d₂) : code Allocator.last (.delete inode) s =
      some ⟨{ s with data := d₃ }, none, []⟩ := by
    simp only [code, hs, hdelete, Option.bind_eq_bind, Option.bind_some]
  have hstart : (requests Allocator.last).Run Session.init [] ⟨Session.init.state, 0⟩ := .nil
  have hbegin (s : Session) :
      (requests Allocator.last).starts s (.find ⟨7, 1⟩ [47, 97]) s := rfl
  have hfound := (hstart.start (hbegin _)).next hfind
  have hlookup := hfound.return (hreply _ rfl)
  have hback (s : Session) (hs : s.givenBack inode + 1 ≤ s.sent inode) :
      (requests Allocator.last).starts s (.assertCount inode 1)
        { s with givenBack := bump s.givenBack inode 1 } := ⟨by decide, hs, rfl⟩
  have hchecked := ((hlookup.start (hback _ (by simp [Session.init]))).next (hassert _ rfl)).next (hread _ rfl)
  have htested := (hchecked.next (hwrite _ rfl)).next (htest _ rfl)
  have hlast := (htested.start (hbegin _)).next (hagain _ rfl rfl)
  rw [Multiset.cons_swap] at hlast
  have hcounted := hall _ _ _ (hlast.return (hfree _ rfl))
  have hfreed : inode ∈ d₃.nodes := hcounted.live_of_lt inode (by simp [Session.init])
  rw [LoData.mem_iff_content, hcontent₃, Function.update_self] at hfreed
  cases hfreed

end StackFs
