import VeronaFs.Runtime.HeaderOps

/-!
# Components of a heap

The objects of a component are those whose links end at its root.  `IsComponent h C c` says that the
objects of `C` are a component of the heap `h` whose root has the class `c`, `IsFinished h C n c` that the
root has the count `n` too.  A heap is `Settled` when no component is being built and links end at a
count.
-/

set_option linter.unusedSectionVars false

namespace VeronaRt

open Foundation

namespace ObjectHeap

/-- No component is being built, and links end at a count. -/
def Settled (h : ObjectHeap) : Prop :=
  ∀ o bits, h o = some bits → ∃ r c, h.EndsAt o r ∧ h.getClass r = some c ∧
    c ≠ .pending ∧ c ≠ .nonatomicRc ∧ (r ≠ o → c = .rc)

variable {h h' h'' : ObjectHeap} {o p q r s u : ObjAddr} {c : RegionMD} {fuel n rank : ℕ}
  {C E S S' : List ObjAddr} {w : BitVec 64}

/-! ## Lengths of chains -/

/-- Some number of links lead from an object to the end of a chain if more links do. -/
theorem exists_leads_of_le (hn : Leads h.getScc n o r) {k : ℕ} (hk : k ≤ n) :
    ∃ u, Leads h.getScc k u r := by
  induction hn with
  | @root r hr =>
    obtain rfl := Nat.le_zero.mp hk
    exact ⟨r, .root hr⟩
  | @step n x y r hx hy ih =>
    rcases Nat.of_le_succ hk with hk | rfl
    · exact ih hk
    · exact ⟨x, .step hx hy⟩

/-- A chain has less links than there are addresses. -/
theorem length_lt (hn : Leads h.getScc n o r) : n < 2 ^ 64 := by
  choose f hf using fun k : Fin (n + 1) => exists_leads_of_le hn (Nat.le_of_lt_succ k.isLt)
  have hinj : Function.Injective f := by
    intro i j hij
    have hi := hf i
    rw [hij] at hi
    exact Fin.ext (hi.unique (hf j)).1
  have hle : (Set.range f).ncard ≤ 2 ^ 64 := ncard_le _
  rw [← Set.image_univ, Set.ncard_image_of_injective _ hinj, Set.ncard_univ, Nat.card_fin] at hle
  exact hle

/-- There are not more objects than addresses. -/
theorem length_le_of_nodup {l : List ObjAddr} (hl : l.Nodup) : l.length ≤ 2 ^ 64 := by
  have hle := ncard_le (l.toFinset : Set ObjAddr)
  rwa [Set.ncard_coe_finset, List.toFinset_card_of_nodup hl] at hle

/-- With fuel for all addresses `root_and_class` returns the root and its class. -/
theorem rootAndClass_of_endsAt (hg : h.Grounded) (ho : h.EndsAt o r) (hr : h.getClass r = some c)
    (hfuel : 2 ^ 64 ≤ fuel) : ∃ h', rootAndClass fuel h o = some (r, c, h') ∧ Splits h h' := by
  obtain ⟨bits, hbits⟩ := ho.exists_word hr
  obtain ⟨n, r', c', h', hleads, hc', hsplit, hfind⟩ := rootAndClass_eq hg hbits
  obtain rfl : r' = r := EndsAt.unique ⟨n, hleads⟩ ho
  obtain rfl := Option.some.inj (hc'.symm.trans hr)
  exact ⟨h', hfind fuel ((length_lt hleads).le.trans hfuel), hsplit⟩

/-! ## Roots -/

/-- The end of the links of an object. -/
noncomputable def rootOf (h : ObjectHeap) (o : ObjAddr) : ObjAddr :=
  @dite ObjAddr (∃ r, h.EndsAt o r) (Classical.propDecidable _) (fun hr => hr.choose) fun _ => o

/-- The root is the end of the links. -/
theorem rootOf_eq (ho : h.EndsAt o r) : h.rootOf o = r := by
  have hr : ∃ r, h.EndsAt o r := ⟨r, ho⟩
  rw [rootOf, dif_pos hr]
  exact hr.choose_spec.unique ho

/-- If links end they end at the root. -/
theorem Grounded.endsAt_rootOf (hg : h.Grounded) (o : ObjAddr) : h.EndsAt o (h.rootOf o) := by
  obtain ⟨n, r, hn⟩ := hg.exists_leads o
  rw [rootOf_eq ⟨n, hn⟩]
  exact ⟨n, hn⟩

/-- An object of another class than `SCC_PTR` is its own root. -/
theorem endsAt_self (hc : h.getClass o = some c) (hne : c ≠ .sccPtr) : h.EndsAt o o := by
  refine ⟨0, .root (getScc_eq_none ?_)⟩
  rw [hc]
  exact fun heq => hne (Option.some.inj heq)

/-- An object without a link is its own root only. -/
theorem EndsAt.eq_of_getClass (ho : h.EndsAt o r) (hc : h.getClass o ≠ some .sccPtr) : r = o := by
  obtain ⟨n, hn⟩ := ho
  exact (hn.of_root (getScc_eq_none hc)).2

/-! ## Components -/

/-- The objects of `C` are those of a component whose root has the class `c`. -/
def IsComponent (h : ObjectHeap) (C : List ObjAddr) (c : RegionMD) : Prop :=
  ∃ r, h.getClass r = some c ∧ ∀ o, h.EndsAt o r ↔ o ∈ C

/-- Splitting paths leaves the components. -/
theorem IsComponent.splits (hC : h.IsComponent C c) (hs : Splits h h') (hg : h.Grounded) :
    h'.IsComponent C c := by
  obtain ⟨r, hr, hiff⟩ := hC
  exact ⟨r, by rw [hs.getClass_eq, hr], fun o => (hs.endsAt_iff hg).trans (hiff o)⟩

/-! ## The collapse of the path -/

/-! ## Finished components -/

/-- In a settled heap links end. -/
theorem Settled.grounded (hs : h.Settled) : h.Grounded := by
  intro o bits ho
  obtain ⟨r, c, ⟨n, hn⟩, hc, -, -, hrc⟩ := hs o bits ho
  refine ⟨n, r, c, hn, hc, fun hpos => ?_⟩
  have hne : r ≠ o := by
    rintro rfl
    have hzero := (hn.of_root hn.link_end).1
    omega
  rw [hrc hne]
  rfl

/-- In a settled heap no component is on the path. -/
theorem Settled.balanced (hs : h.Settled) : h.Balanced := by
  intro r k hk
  have hclass := getClass_of_pendingRank hk
  obtain ⟨bits, hbits⟩ := exists_of_getClass hclass
  obtain ⟨r', c, hends, hc, hpending, -⟩ := hs r bits hbits
  obtain rfl : r' = r := hends.eq_of_getClass (by rw [hclass]; decide)
  exact absurd (Option.some.inj (hc.symm.trans hclass)) hpending

/-- In a settled heap links end at a count. -/
theorem Settled.getClass_root (hs : h.Settled) (ho : h.getClass o = some .sccPtr)
    (hr : h.EndsAt o r) : h.getClass r = some .rc := by
  obtain ⟨bits, hbits⟩ := exists_of_getClass ho
  obtain ⟨r', c, hends, hc, -, -, hrc⟩ := hs o bits hbits
  obtain rfl := hends.unique hr
  have hne : r' ≠ o := by
    rintro rfl
    obtain ⟨n, hn⟩ := hr
    obtain ⟨p, hp⟩ := exists_getScc.mpr ho
    rw [hn.link_end] at hp
    cases hp
  rw [hc, hrc hne]

/-- A write to a word without a link leaves the components of other objects. -/
theorem IsComponent.update (hC : h.IsComponent C c) (hr : h.getScc r = none) (hrC : r ∉ C)
    (hc : c ≠ .sccPtr) (hw : Header.getClass w ≠ some .sccPtr) :
    IsComponent (Function.update h r (some w)) C c := by
  obtain ⟨s, hs, hiff⟩ := hC
  have hsC : s ∈ C := (hiff s).mp (endsAt_self hs hc)
  have hne : s ≠ r := by
    rintro rfl
    exact hrC hsC
  refine ⟨s, ?_, fun o => (endsAt_update hr hw).trans (hiff o)⟩
  rw [(reads_eq (Function.update_of_ne hne ..)).1, hs]

/-- A finished component with a count. -/
def IsFinished (h : ObjectHeap) (C : List ObjAddr) (n : ℕ) (c : RegionMD) : Prop :=
  ∃ r, h r = some (Header.ofCount n c) ∧ ∀ o, h.EndsAt o r ↔ o ∈ C

/-- Splitting paths leaves finished components. -/
theorem IsFinished.splits (hC : h.IsFinished C n c) (hs : Splits h h') (hg : h.Grounded)
    (hc : c ≠ .sccPtr) : h'.IsFinished C n c := by
  obtain ⟨r, hr, hiff⟩ := hC
  refine ⟨r, ?_, fun o => (hs.endsAt_iff hg).trans (hiff o)⟩
  rw [hs.unchanged r, hr]
  rw [getClass_of_some hr, Header.getClass_ofCount]
  exact fun heq => hc (Option.some.inj heq)

/-- A write to a word without a link leaves finished components of other objects. -/
theorem IsFinished.update (hC : h.IsFinished C n c) (hr : h.getScc r = none) (hrC : r ∉ C)
    (hc : c ≠ .sccPtr) (hw : Header.getClass w ≠ some .sccPtr) :
    IsFinished (Function.update h r (some w)) C n c := by
  obtain ⟨s, hs, hiff⟩ := hC
  have hsC : s ∈ C := by
    refine (hiff s).mp (endsAt_self (c := c) ?_ hc)
    rw [getClass_of_some hs, Header.getClass_ofCount]
  have hne : s ≠ r := by
    rintro rfl
    exact hrC hsC
  exact ⟨s, by rw [Function.update_of_ne hne, hs], fun o => (endsAt_update hr hw).trans (hiff o)⟩

/-- The root of a finished component. -/
theorem IsFinished.exists_root (hC : h.IsFinished C n c) (hc : c ≠ .sccPtr) :
    ∃ r ∈ C, h r = some (Header.ofCount n c) ∧ h.getClass r = some c ∧ ∀ o, h.EndsAt o r ↔ o ∈ C := by
  obtain ⟨r, hr, hiff⟩ := hC
  have hclass : h.getClass r = some c := by rw [getClass_of_some hr, Header.getClass_ofCount]
  exact ⟨r, (hiff r).mp (endsAt_self hclass hc), hr, hclass, hiff⟩

/-! ## Small heaps -/
/-- Multiples of 16 are aligned. -/
theorem cell_aligned (n : ℕ) : BitVec.ofNat 64 n <<< Header.SHIFT &&& Header.MASK = 0#64 :=
  Header.shiftLeft_and_mask _

/-- The object at a small address, a multiple of 16. -/
def cell (n : ℕ) : ObjAddr := ⟨BitVec.ofNat 64 n <<< Header.SHIFT, cell_aligned n⟩

/-- The heap with some words. -/
def ofWords (words : List (ObjAddr × BitVec 64)) : ObjectHeap := fun o => words.lookup o

/-- Its words are in the list. -/
theorem mem_of_ofWords {words : List (ObjAddr × BitVec 64)} (ho : ofWords words o = some w) :
    (o, w) ∈ words := by
  obtain ⟨l₁, l₂, hwords, -⟩ := List.lookup_eq_some_iff.mp ho
  rw [hwords]
  simp

end ObjectHeap

end VeronaRt
