import VeronaFs.Foundation.LinkChain
import VeronaFs.Runtime.Header

/-!
# Components as a union-find structure

The objects of a strongly connected component are linked by `SCC_PTR` words to the object that knows
about the component.  `root_and_class` follows the links from an object and lets every object on the
way skip its parent; `Freeze` unites the components on its path and keeps in the word of a `PENDING`
root how long the chains to it can be.

A step that reads a header that does not exist or fails an assertion gives `none`, and so does a loop
that runs out of fuel.
-/

namespace VeronaRt

open Foundation

/-- The first words of the headers of the objects. -/
abbrev ObjectHeap := ObjAddr → Option (BitVec 64)

/-- The classes at which the assertion of `root_and_class` expects the links to end. -/
def RegionMD.isSccRoot : RegionMD → Bool
  | .rc => true
  | .nonatomicRc => true
  | .pending => true
  | .unmarked => true
  | _ => false

namespace ObjectHeap

/-! ## Code -/

/-- `get_class`. -/
def getClass (h : ObjectHeap) (o : ObjAddr) : Option RegionMD := (h o).bind Header.getClass

/-- `get_scc`. -/
def getScc (h : ObjectHeap) (o : ObjAddr) : Option ObjAddr := do
  let bits ← h o
  if Header.getClass bits = some .sccPtr then some (Header.address bits) else none

/-- `set_scc`. -/
def setScc (h : ObjectHeap) (o p : ObjAddr) : ObjectHeap :=
  Function.update h o (some (Header.ofAddress p .sccPtr))

/-- `pending_rank`. -/
def pendingRank (h : ObjectHeap) (o : ObjAddr) : Option ℕ := do
  let bits ← h o
  if Header.getClass bits = some .pending then some (Header.count bits) else none

/-- `set_pending_rank`. -/
def setPendingRank (h : ObjectHeap) (o : ObjAddr) (rank : ℕ) : Option ObjectHeap :=
  if rank < 128 then some (Function.update h o (some (Header.ofCount rank .pending))) else none

/-- The loop of `root_and_class`. -/
def splitLoop : ℕ → ObjectHeap → ObjAddr → ObjAddr → Option (ObjAddr × RegionMD × ObjectHeap)
  | 0, _, _, _ => none
  | fuel + 1, h, curr, parent => do
    let c ← h.getClass parent
    if c = .sccPtr then
      let grandParent ← h.getScc parent
      splitLoop fuel (h.setScc curr grandParent) parent grandParent
    else if c.isSccRoot then some (parent, c, h)
    else none

/-- `root_and_class`: the root and its class. -/
def rootAndClass (fuel : ℕ) (h : ObjectHeap) (this : ObjAddr) :
    Option (ObjAddr × RegionMD × ObjectHeap) := do
  let c ← h.getClass this
  match c with
  | .sccPtr =>
    let parent ← h.getScc this
    splitLoop fuel h this parent
  | c => some (this, c, h)

/-- The body of the loop in `Freeze::apply` that unites the component of `r` with that of `p`. -/
def unite (h : ObjectHeap) (r : ObjAddr) (rank : ℕ) (p : ObjAddr) :
    Option (ObjectHeap × ObjAddr × ℕ) := do
  let pRank ← h.pendingRank p
  if pRank ≤ rank then
    let h := h.setScc p r
    if pRank = rank then
      let h ← h.setPendingRank r (rank + 1)
      some (h, r, rank + 1)
    else some (h, r, rank)
  else some (h.setScc r p, p, pRank)

/-- The loop in `Freeze::apply` that collapses the path, with the stack `pending`. -/
def collapseLoop (fuel : ℕ) :
    ObjectHeap → List ObjAddr → ObjAddr → ℕ → Option (ObjectHeap × List ObjAddr)
  | _, [], _, _ => none
  | h, q :: pending, r, rank => do
    let (p, c, h) ← rootAndClass fuel h q
    if r = p then some (h, q :: pending)
    else if c = .pending then
      let (h, r, rank) ← h.unite r rank p
      collapseLoop fuel h pending r rank
    else none

/-- `Freeze::apply` at a reference to the object `q` whose component is on the path. -/
def collapse (fuel : ℕ) (h : ObjectHeap) (pending : List ObjAddr) (q : ObjAddr) :
    Option (ObjectHeap × List ObjAddr) := do
  let (r, c, h) ← rootAndClass fuel h q
  if c = .pending then
    let rank ← h.pendingRank r
    collapseLoop fuel h pending r rank
  else none

/-! ## Reading lemmas -/

section Reading

variable {h : ObjectHeap} {o p u : ObjAddr} {c : RegionMD} {k rank : ℕ}

/-- An object has a link exactly if its class is `SCC_PTR`. -/
theorem exists_getScc : (∃ p, h.getScc o = some p) ↔ h.getClass o = some .sccPtr := by
  unfold getScc getClass
  cases h o with
  | none => simp
  | some bits => simp

/-- An object of another class has no link. -/
theorem getScc_eq_none (hc : h.getClass o ≠ some .sccPtr) : h.getScc o = none := by
  by_contra hne
  exact hc (exists_getScc.mp (Option.ne_none_iff_exists'.mp hne))

/-- An object with a link has the class. -/
theorem getClass_of_getScc (ho : h.getScc o = some p) : h.getClass o = some .sccPtr :=
  exists_getScc.mp ⟨p, ho⟩

/-- An object has a rank exactly if it is `PENDING`. -/
theorem exists_pendingRank : (∃ k, h.pendingRank o = some k) ↔ h.getClass o = some .pending := by
  unfold pendingRank getClass
  cases h o with
  | none => simp
  | some bits => simp

/-- An object with a rank is `PENDING`. -/
theorem getClass_of_pendingRank (ho : h.pendingRank o = some k) : h.getClass o = some .pending :=
  exists_pendingRank.mp ⟨k, ho⟩

/-- Two heaps with the same word for an object. -/
theorem reads_eq {h' : ObjectHeap} (ho : h' o = h o) :
    h'.getClass o = h.getClass o ∧ h'.getScc o = h.getScc o ∧
      h'.pendingRank o = h.pendingRank o := by
  simp only [getClass, getScc, pendingRank, ho, and_self]

/-- The word of another object. -/
theorem setScc_of_ne (hu : u ≠ o) : h.setScc o p u = h u := Function.update_of_ne hu ..

/-- The class of an object that was linked. -/
theorem getClass_setScc : (h.setScc o p).getClass o = some .sccPtr := by
  simp [getClass, setScc]

/-- The links after an object was linked. -/
theorem getScc_setScc : (h.setScc o p).getScc = Function.update h.getScc o (some p) := by
  funext u
  by_cases hu : u = o
  · subst hu
    simp [getScc, setScc]
  · rw [Function.update_of_ne hu, (reads_eq (setScc_of_ne hu)).2.1]

/-- The heap after a rank was set. -/
theorem setPendingRank_eq_some {h' : ObjectHeap} (ho : h.setPendingRank o rank = some h') :
    rank < 128 ∧ h' = Function.update h o (some (Header.ofCount rank .pending)) := by
  unfold setPendingRank at ho
  split at ho
  · next hlt => exact ⟨hlt, (Option.some.inj ho).symm⟩
  · cases ho

/-- What is read after a rank was set. -/
theorem reads_setPendingRank {h' : ObjectHeap} (ho : h.setPendingRank o rank = some h') :
    h'.pendingRank o = some rank ∧ ∀ u, u ≠ o → h' u = h u := by
  obtain ⟨hlt, rfl⟩ := setPendingRank_eq_some ho
  refine ⟨?_, fun u hu => Function.update_of_ne hu ..⟩
  simp [pendingRank, Header.count_ofCount (show rank < 2 ^ 60 by omega)]

end Reading

/-! ## Splitting paths -/

/-- `h'` is `h` after some objects skipped parents: the ends of all chains are the same, no chain is
longer, and only words with links changed. -/
structure Splits (h h' : ObjectHeap) : Prop where
  /-- The words without a link are the same. -/
  unchanged : ∀ o, h.getClass o ≠ some .sccPtr → h' o = h o
  /-- The objects with a link have one. -/
  linked : ∀ o, h.getClass o = some .sccPtr → h'.getClass o = some .sccPtr
  /-- The chains. -/
  leads : ∀ {n o r}, Leads h.getScc n o r → ∃ m ≤ n, Leads h'.getScc m o r

namespace Splits

variable {h h' h'' : ObjectHeap} {o r : ObjAddr} {n : ℕ}

/-- Nothing has changed. -/
theorem refl (h : ObjectHeap) : Splits h h :=
  ⟨fun _ _ => rfl, fun _ ho => ho, fun ho => ⟨_, le_rfl, ho⟩⟩

/-- The classes are the same. -/
theorem getClass_eq (hs : Splits h h') (o : ObjAddr) : h'.getClass o = h.getClass o := by
  by_cases ho : h.getClass o = some .sccPtr
  · rw [ho, hs.linked o ho]
  · exact (reads_eq (hs.unchanged o ho)).1

/-- One split after another. -/
theorem trans (hs : Splits h h') (hs' : Splits h' h'') : Splits h h'' where
  unchanged o ho := by
    rw [hs'.unchanged o (by rwa [hs.getClass_eq]), hs.unchanged o ho]
  linked o ho := hs'.linked o (hs.linked o ho)
  leads ho := by
    obtain ⟨m, hle, hm⟩ := hs.leads ho
    obtain ⟨k, hle', hk⟩ := hs'.leads hm
    exact ⟨k, hle'.trans hle, hk⟩

/-- One object skips its parent. -/
theorem setScc {x y z : ObjAddr} (hx : h.getScc x = some y) (hy : h.getScc y = some z) :
    Splits h (h.setScc x z) where
  unchanged o ho := by
    refine setScc_of_ne ?_
    rintro rfl
    exact ho (getClass_of_getScc hx)
  linked o ho := by
    by_cases hox : o = x
    · rw [hox, getClass_setScc]
    · rw [(reads_eq (setScc_of_ne hox)).1, ho]
  leads ho := by
    rw [getScc_setScc]
    exact ho.split hx hy

end Splits

/-! ## The loop -/

/-- With fuel for a chain of links the loop comes to its end. -/
theorem splitLoop_eq {fuel n : ℕ} {h : ObjectHeap} {curr parent r : ObjAddr} {c : RegionMD}
    (hcurr : h.getScc curr = some parent) (hleads : Leads h.getScc n parent r)
    (hc : h.getClass r = some c) (hroot : c.isSccRoot = true) (hfuel : n < fuel) :
    ∃ h', splitLoop fuel h curr parent = some (r, c, h') ∧ Splits h h' := by
  induction fuel generalizing n h curr parent with
  | zero => omega
  | succ fuel ih =>
    cases hleads with
    | root hnone =>
      have hne : c ≠ .sccPtr := by
        rintro rfl
        cases hroot
      refine ⟨h, ?_, .refl h⟩
      simp [splitLoop, hc, hne, hroot]
    | @step n _ grandParent _ hparent hgrand =>
      have hsplit : Splits h (h.setScc curr grandParent) := .setScc hcurr hparent
      have hne : parent ≠ curr := (Leads.step hcurr (.step hparent hgrand)).ne_of_link hcurr
      obtain ⟨m, hle, hm⟩ := hsplit.leads hgrand
      have hnext : (h.setScc curr grandParent).getScc parent = some grandParent := by
        rw [(reads_eq (setScc_of_ne hne)).2.1, hparent]
      obtain ⟨h', hloop, hsplit'⟩ :=
        ih hnext hm (by rwa [hsplit.getClass_eq]) (by omega)
      refine ⟨h', ?_, hsplit.trans hsplit'⟩
      simp [splitLoop, getClass_of_getScc hparent, hparent, hloop]

/-- More fuel does not change the result of the loop. -/
theorem splitLoop_mono {fuel fuel' : ℕ} {h : ObjectHeap} {curr parent : ObjAddr}
    {x : ObjAddr × RegionMD × ObjectHeap} (hle : fuel ≤ fuel')
    (hloop : splitLoop fuel h curr parent = some x) : splitLoop fuel' h curr parent = some x := by
  induction fuel generalizing fuel' h curr parent with
  | zero => cases hloop
  | succ fuel ih =>
    obtain ⟨fuel', rfl⟩ : ∃ k, fuel' = k + 1 := ⟨fuel' - 1, by omega⟩
    rw [splitLoop] at hloop ⊢
    cases hc : h.getClass parent with
    | none => simp [hc] at hloop
    | some c =>
      simp only [hc, bind, Option.bind_some] at hloop ⊢
      by_cases hscc : c = .sccPtr
      · rw [if_pos hscc] at hloop ⊢
        cases hg : h.getScc parent with
        | none => simp [hg] at hloop
        | some grandParent =>
          simp only [hg, Option.bind_some] at hloop ⊢
          exact ih (by omega) hloop
      · rw [if_neg hscc] at hloop ⊢
        exact hloop

/-! ## The root of an object -/

/-- Following the links from `o` ends at `r`. -/
def EndsAt (h : ObjectHeap) (o r : ObjAddr) : Prop := ∃ n, Leads h.getScc n o r

/-- Every object has a class, and links end at a class that `root_and_class` expects. -/
def Grounded (h : ObjectHeap) : Prop :=
  ∀ o bits, h o = some bits →
    ∃ n r c, Leads h.getScc n o r ∧ h.getClass r = some c ∧ (0 < n → c.isSccRoot = true)

section Root

variable {h h' : ObjectHeap} {o r : ObjAddr} {c : RegionMD} {fuel : ℕ}

/-- Every chain ends. -/
theorem Grounded.exists_leads (hg : h.Grounded) (o : ObjAddr) : ∃ n r, Leads h.getScc n o r := by
  cases ho : h o with
  | none =>
    refine ⟨0, o, .root (getScc_eq_none ?_)⟩
    simp [getClass, ho]
  | some bits =>
    obtain ⟨n, r, -, hleads, -⟩ := hg o bits ho
    exact ⟨n, r, hleads⟩

/-- It is enough that the chains of all objects end at a class that `root_and_class` expects. -/
theorem grounded_of_isSccRoot (hends : ∀ o bits, h o = some bits →
    ∃ r c, h.EndsAt o r ∧ h.getClass r = some c ∧ c.isSccRoot = true) : h.Grounded := by
  intro o bits ho
  obtain ⟨r, c, ⟨n, hn⟩, hc, hroot⟩ := hends o bits ho
  exact ⟨n, r, c, hn, hc, fun _ => hroot⟩

/-- An object has one end. -/
theorem EndsAt.unique {s : ObjAddr} (hr : h.EndsAt o r) (hs : h.EndsAt o s) : r = s := by
  obtain ⟨n, hr⟩ := hr
  obtain ⟨m, hs⟩ := hs
  exact (hr.unique hs).2

/-- An object with a class is there. -/
theorem exists_of_getClass (ho : h.getClass o = some c) : ∃ bits, h o = some bits := by
  cases hbits : h o with
  | none => simp [getClass, hbits] at ho
  | some bits => exact ⟨bits, rfl⟩

/-- The root of an object without a link. -/
theorem rootAndClass_of_ne (hc : h.getClass o = some c) (hne : c ≠ .sccPtr) :
    rootAndClass fuel h o = some (o, c, h) := by
  cases c with
  | sccPtr => exact absurd rfl hne
  | _ => simp [rootAndClass, hc]

/-- The root of an object with a link. -/
theorem rootAndClass_of_link {parent : ObjAddr} (ho : h.getScc o = some parent) :
    rootAndClass fuel h o = splitLoop fuel h o parent := by
  simp [rootAndClass, getClass_of_getScc ho, ho]

/-- With enough fuel `root_and_class` returns the end of the object and its class. -/
theorem rootAndClass_eq (hg : h.Grounded) {bits : BitVec 64} (ho : h o = some bits) :
    ∃ n r c h', Leads h.getScc n o r ∧ h.getClass r = some c ∧ Splits h h' ∧
      ∀ fuel ≥ n, rootAndClass fuel h o = some (r, c, h') := by
  obtain ⟨n, r, c, hleads, hc, hroot⟩ := hg o bits ho
  cases hleads with
  | root hnone =>
    refine ⟨0, o, c, h, .root hnone, hc, .refl h, fun fuel _ => rootAndClass_of_ne hc ?_⟩
    rintro rfl
    obtain ⟨p, hp⟩ := exists_getScc.mpr hc
    rw [hnone] at hp
    cases hp
  | @step n _ parent _ hparent hrest =>
    obtain ⟨h', hloop, hsplit⟩ :=
      splitLoop_eq hparent hrest hc (hroot (Nat.succ_pos n)) (Nat.lt_succ_self n)
    refine ⟨n + 1, r, c, h', .step hparent hrest, hc, hsplit, fun fuel hfuel => ?_⟩
    rw [rootAndClass_of_link hparent]
    exact splitLoop_mono hfuel hloop

/-- More fuel does not change the result. -/
theorem rootAndClass_mono {fuel' : ℕ} {x : ObjAddr × RegionMD × ObjectHeap} (hle : fuel ≤ fuel')
    (hx : rootAndClass fuel h o = some x) : rootAndClass fuel' h o = some x := by
  cases hc : h.getClass o with
  | none => simp [rootAndClass, hc] at hx
  | some c =>
    by_cases hscc : c = .sccPtr
    · obtain ⟨parent, hparent⟩ := exists_getScc.mpr (hscc ▸ hc)
      rw [rootAndClass_of_link hparent] at hx ⊢
      exact splitLoop_mono hle hx
    · rw [rootAndClass_of_ne hc hscc] at hx ⊢
      exact hx

/-- Whatever `root_and_class` returns is the end of the object and its class. -/
theorem rootAndClass_spec (hg : h.Grounded) (hx : rootAndClass fuel h o = some (r, c, h')) :
    h.EndsAt o r ∧ h.getClass r = some c ∧ Splits h h' := by
  obtain ⟨bits, ho⟩ : ∃ bits, h o = some bits := by
    cases hc : h.getClass o with
    | none => simp [rootAndClass, hc] at hx
    | some c => exact exists_of_getClass hc
  obtain ⟨n, r', c', h'', hleads, hc, hsplit, heq⟩ := rootAndClass_eq hg ho
  have hmax := rootAndClass_mono (le_max_left fuel n) hx
  rw [heq _ (le_max_right fuel n)] at hmax
  obtain ⟨rfl, rfl, rfl⟩ : r' = r ∧ c' = c ∧ h'' = h' := by simpa using hmax
  exact ⟨⟨n, hleads⟩, hc, hsplit⟩

end Root

/-! ## Ranks -/

/-- A chain to a `PENDING` root is no longer than its rank. -/
def Ranked (h : ObjectHeap) : Prop :=
  ∀ ⦃n o r k⦄, Leads h.getScc n o r → h.pendingRank r = some k → n ≤ k

section Rank

variable {h h' : ObjectHeap} {o p r : ObjAddr} {k a b : ℕ}

/-- Links do not come back to an object. -/
theorem Grounded.not_cycle (hg : h.Grounded) (o : ObjAddr) :
    ¬ Relation.TransGen (LinksTo h.getScc) o o := by
  obtain ⟨n, r, hleads⟩ := hg.exists_leads o
  exact hleads.not_cycle

/-- Splitting paths leaves the ranks. -/
theorem Splits.pendingRank_eq (hs : Splits h h') (o : ObjAddr) :
    h'.pendingRank o = h.pendingRank o := by
  by_cases ho : h.getClass o = some .sccPtr
  · have hnone : ∀ h₁ : ObjectHeap, h₁.getClass o = some .sccPtr → h₁.pendingRank o = none := by
      intro h₁ h₁o
      by_contra hne
      obtain ⟨k, hk⟩ := Option.ne_none_iff_exists'.mp hne
      rw [getClass_of_pendingRank hk] at h₁o
      cases h₁o
    rw [hnone h ho, hnone h' (hs.linked o ho)]
  · exact (reads_eq (hs.unchanged o ho)).2.2

/-- Splitting paths keeps the ends of all objects. -/
theorem Splits.endsAt_iff (hs : Splits h h') (hg : h.Grounded) :
    h'.EndsAt o r ↔ h.EndsAt o r := by
  have hkeeps : ∀ {s}, h.EndsAt o s → h'.EndsAt o s := by
    rintro s ⟨n, hn⟩
    obtain ⟨m, -, hm⟩ := hs.leads hn
    exact ⟨m, hm⟩
  refine ⟨fun hr => ?_, hkeeps⟩
  obtain ⟨n, s, hn⟩ := hg.exists_leads o
  rw [hr.unique (hkeeps ⟨n, hn⟩)]
  exact ⟨n, hn⟩

/-- Splitting paths keeps the ends of links. -/
theorem Splits.grounded (hs : Splits h h') (hg : h.Grounded) : h'.Grounded := by
  intro o bits ho
  obtain ⟨bits', ho⟩ : ∃ bits', h o = some bits' := by
    by_cases hc : h.getClass o = some .sccPtr
    · exact exists_of_getClass hc
    · exact ⟨bits, by rw [← hs.unchanged o hc, ho]⟩
  obtain ⟨n, r, c, hleads, hc, hroot⟩ := hg o bits' ho
  obtain ⟨m, hle, hm⟩ := hs.leads hleads
  exact ⟨m, r, c, hm, by rw [hs.getClass_eq, hc], fun hpos => hroot (by omega)⟩

/-- Splitting paths keeps the bounds of the chains. -/
theorem Splits.ranked (hs : Splits h h') (hg : h.Grounded) (hk : h.Ranked) : h'.Ranked := by
  intro n o r k hleads hrank
  obtain ⟨m, s, hm⟩ := hg.exists_leads o
  obtain ⟨m', hle, hm'⟩ := hs.leads hm
  obtain ⟨rfl, rfl⟩ := hleads.unique hm'
  exact hle.trans (hk hm (by rw [← hs.pendingRank_eq, hrank]))

/-- A `PENDING` object has no link. -/
theorem getScc_of_pendingRank (ho : h.pendingRank o = some k) : h.getScc o = none := by
  refine getScc_eq_none ?_
  rw [getClass_of_pendingRank ho]
  decide

/-- `h'` is `h` after the `PENDING` root `p` was attached to the `PENDING` root `r`, whose rank was
`b` and is `k` now. -/
structure Attached (h h' : ObjectHeap) (p r : ObjAddr) (a b k : ℕ) : Prop where
  /-- The roots are distinct. -/
  ne : p ≠ r
  /-- The rank of the root that is attached. -/
  rank_attached : h.pendingRank p = some a
  /-- The rank of the other root before. -/
  rank_before : h.pendingRank r = some b
  /-- The rank of the other root afterwards. -/
  rank_after : h'.pendingRank r = some k
  /-- The new link. -/
  link : h'.getScc = Function.update h.getScc p (some r)
  /-- The words of the other objects are the same. -/
  other : ∀ u, u ≠ p → u ≠ r → h' u = h u
  /-- The rank grows if the ranks were equal. -/
  grows : k = b ∧ a < b ∨ k = b + 1 ∧ a = b

namespace Attached

variable {n : ℕ} {u s : ObjAddr}

/-- The chains to the root that was attached get longer, the others stay. -/
theorem leads (ha : Attached h h' p r a b k) (hu : Leads h.getScc n u s) :
    s = p ∧ Leads h'.getScc (n + 1) u r ∨ s ≠ p ∧ Leads h'.getScc n u s := by
  rw [ha.link]
  by_cases hs : s = p
  · exact .inl ⟨hs, (hs ▸ hu).attach (getScc_of_pendingRank ha.rank_before) ha.ne⟩
  · exact .inr ⟨hs, hu.attach_of_ne (getScc_of_pendingRank ha.rank_attached) hs⟩

/-- The objects are the same. -/
theorem exists_before {bits : BitVec 64} (ha : Attached h h' p r a b k) (ho : h' o = some bits) :
    ∃ bits', h o = some bits' := by
  by_cases hop : o = p
  · exact hop ▸ exists_of_getClass (getClass_of_pendingRank ha.rank_attached)
  · by_cases hor : o = r
    · exact hor ▸ exists_of_getClass (getClass_of_pendingRank ha.rank_before)
    · exact ⟨bits, by rw [← ha.other o hop hor, ho]⟩

/-- Links still end. -/
theorem grounded (ha : Attached h h' p r a b k) (hg : h.Grounded) : h'.Grounded := by
  intro o bits ho
  have hclass : h'.getClass r = some .pending := getClass_of_pendingRank ha.rank_after
  obtain ⟨bits', ho⟩ := ha.exists_before ho
  obtain ⟨n, s, c, hn, hc, hroot⟩ := hg o bits' ho
  obtain ⟨hs, hn⟩ | ⟨hs, hn⟩ := ha.leads hn
  · exact ⟨n + 1, r, .pending, hn, hclass, fun _ => rfl⟩
  · by_cases hsr : s = r
    · exact ⟨n, r, .pending, hsr ▸ hn, hclass, fun _ => rfl⟩
    · exact ⟨n, s, c, hn, by rw [(reads_eq (ha.other s hs hsr)).1, hc], hroot⟩

/-- The ranks still bound the chains. -/
theorem ranked (ha : Attached h h' p r a b k) (hg : h.Grounded) (hk : h.Ranked) : h'.Ranked := by
  intro n o s j ho hj
  have hgrows := ha.grows
  obtain ⟨m, s', hm⟩ := hg.exists_leads o
  obtain ⟨hs, hm'⟩ | ⟨hs, hm'⟩ := ha.leads hm
  · obtain ⟨rfl, rfl⟩ := ho.unique hm'
    obtain rfl := Option.some.inj (ha.rank_after.symm.trans hj)
    have hle := hk hm (hs ▸ ha.rank_attached)
    omega
  · obtain ⟨rfl, rfl⟩ := ho.unique hm'
    by_cases hsr : s = r
    · subst hsr
      obtain rfl := Option.some.inj (ha.rank_after.symm.trans hj)
      have hle := hk hm ha.rank_before
      omega
    · exact hk hm (by rw [← (reads_eq (ha.other s hs hsr)).2.2, hj])

end Attached

/-- Uniting two components attaches one of the roots to the other, the new root. -/
theorem unite_attached {rank rank' : ℕ} {r' : ObjAddr} (hne : r ≠ p)
    (hrank : h.pendingRank r = some rank) (hu : h.unite r rank p = some (h', r', rank')) :
    (∃ a, r' = r ∧ Attached h h' p r a rank rank') ∨ ∃ b, r' = p ∧ Attached h h' r p rank b rank' := by
  unfold unite at hu
  cases hp : h.pendingRank p with
  | none => simp [hp] at hu
  | some pRank =>
    have hset : ∀ {u v j}, u ≠ v → h.pendingRank v = some j →
        (h.setScc u v).pendingRank v = some j := by
      intro u v j huv hv
      rw [(reads_eq (setScc_of_ne huv.symm)).2.2, hv]
    simp only [hp, bind, Option.bind_some] at hu
    by_cases hle : pRank ≤ rank
    · rw [if_pos hle] at hu
      by_cases heq : pRank = rank
      · subst heq
        rw [if_pos rfl] at hu
        cases hset' : (h.setScc p r).setPendingRank r (pRank + 1) with
        | none => simp [hset'] at hu
        | some h₂ =>
          obtain ⟨rfl, rfl, rfl⟩ : h₂ = h' ∧ r = r' ∧ pRank + 1 = rank' := by simpa [hset'] using hu
          obtain ⟨hafter, hother⟩ := reads_setPendingRank hset'
          refine .inl ⟨pRank, rfl, hne.symm, hp, hrank, hafter, ?_, fun u hup hur => ?_, .inr ⟨rfl, rfl⟩⟩
          · rw [← getScc_setScc]
            funext u
            by_cases hur : u = r
            · rw [hur, getScc_of_pendingRank hafter, getScc_of_pendingRank (hset hne.symm hrank)]
            · exact (reads_eq (hother u hur)).2.1
          · rw [hother u hur, setScc_of_ne hup]
      · rw [if_neg heq] at hu
        obtain ⟨rfl, rfl, rfl⟩ : h.setScc p r = h' ∧ r = r' ∧ rank = rank' := by simpa using hu
        exact .inl ⟨pRank, rfl, hne.symm, hp, hrank, hset hne.symm hrank, getScc_setScc,
          fun u hup _ => setScc_of_ne hup, .inl ⟨rfl, by omega⟩⟩
    · rw [if_neg hle] at hu
      obtain ⟨rfl, rfl, rfl⟩ : h.setScc r p = h' ∧ p = r' ∧ pRank = rank' := by simpa using hu
      exact .inr ⟨pRank, rfl, hne, hrank, hp, hset hne hp, getScc_setScc,
        fun u hur _ => setScc_of_ne hur, .inl ⟨rfl, by omega⟩⟩

/-- After a union the rank in hand is that of the new root. -/
theorem unite_pendingRank {rank rank' : ℕ} {r' : ObjAddr} (hne : r ≠ p)
    (hrank : h.pendingRank r = some rank) (hu : h.unite r rank p = some (h', r', rank')) :
    h'.pendingRank r' = some rank' := by
  obtain ⟨a, rfl, ha⟩ | ⟨b, rfl, ha⟩ := unite_attached hne hrank hu
  · exact ha.rank_after
  · exact ha.rank_after

end Rank

end ObjectHeap

end VeronaRt
