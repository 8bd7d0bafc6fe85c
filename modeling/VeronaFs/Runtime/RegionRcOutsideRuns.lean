import VeronaFs.Runtime.RegionRcOutside

/-!
# Counts of objects outside over runs

A run of `decref` and `gc_cycles` on an open region.  In runs in which the traces meet no immutable
object that they do not handle and no immutable component loses its last reference, the count of each
object outside decreases by one for each reference from an object that is deallocated
(`outside_accounted`).
-/

namespace VeronaRt.RegionRc

open Foundation

variable {O : Type*} [DecidableEq O] {r r' : RegionRc O} {iso o c f : O} {held : O → ℕ}
  {immutable : O → O} {X : Finset O} {fuel : ℕ} {new : List (ObjectEvent O)}

/-! ## Code -/

/-- A region, the references to its objects that are held outside, and the objects outside. -/
structure World (O : Type*) where
  /-- The region. -/
  region : RegionRc O
  /-- The number of references to an object that are held outside. -/
  held : O → ℕ
  /-- Immutable components and shared objects. -/
  outside : Outside O

/-- What is called for an open region. -/
inductive Op (O : Type*) where
  /-- A reference to an object is given back. -/
  | decref (o : O)
  /-- Cycles are collected. -/
  | gcCycles (stale : O → RcColour)

namespace Op

/-- What the region becomes. -/
def run (fuel : ℕ) (iso : O) (r : RegionRc O) : Op O → Option (RegionRc O)
  | .decref o => (r.decref fuel o).map Prod.fst
  | .gcCycles stale => r.gcCycles fuel stale iso

/-- The references that are held afterwards. -/
def heldAfter (held : O → ℕ) : Op O → O → ℕ
  | .decref o => Function.update held o (held o - 1)
  | .gcCycles _ => held

/-- An operation, with what it does to the objects outside. -/
def apply (fuel : ℕ) (iso : O) (op : Op O) (w : World O) : Option (World O) :=
  (op.run fuel iso w.region).map fun r =>
    ⟨r, op.heldAfter w.held, w.outside.after (r.events.drop w.region.events.length)⟩

end Op

/-! ## A step -/

/-- The region is as it is between calls. -/
structure Steady (iso : O) (held : O → ℕ) (r : RegionRc O) : Prop extends Open iso held r where
  /-- Every object has references. -/
  live : ∀ x ∈ r.allocated, r.Inner x → 0 < r.refCount x
  /-- The Lins stack has objects of the region. -/
  lins : ∀ x ∈ r.linsStack, x ∈ r.allocated → r.Inner x

/-- What a step leaves. -/
structure Tallied (iso : O) (held : O → ℕ) (r r' : RegionRc O) : Prop extends Steady iso held r' where
  /-- The references do not change. -/
  fields_eq : r'.fields = r.fields
  /-- No object is allocated. -/
  subset : r'.allocated ⊆ r.allocated
  /-- The classes do not change. -/
  cls_eq : ∀ x ∈ r'.allocated, r'.cls x = r.cls x
  /-- What is done to objects outside. -/
  events_eq : ∃ new, r'.events = r.events ++ new ∧ GivenBack r (r.allocated \ r'.allocated) new

/-- A reference that is given back, and not the last one. -/
theorem decref_tallied_of_lt (h : Steady iso held r) (ho : 0 < held o) (hiso : o = iso → 1 < held o)
    (hlt : 1 < r.refCount o) (fuel : ℕ) :
    ∃ res, decref fuel r o = some res ∧
      Tallied iso (Function.update held o (held o - 1)) r res.1 ∧ res.1.allocated = r.allocated ∧
      ∀ x ∈ res.1.linsStack, x = o ∨ x ∈ r.linsStack := by
  obtain ⟨hmem, hin⟩ := h.held_mem o ho
  have hcounted := h.toCounted.decref ho
  have hheld : 0 < Function.update held o (held o - 1) iso := by
    rw [Function.update_apply]
    split
    · next heq =>
      have hheld := hiso heq.symm
      omega
    · exact h.held_iso
  set r₀ := r.setRefCount o (r.refCount o - 1)
  have hcount : r₀.refCount o = r.refCount o - 1 := by rw [refCount_setRefCount, if_pos rfl]
  have hdecref : decref fuel r o = if r₀.colour o ≠ .black then
      some ({ r₀.setRcColour o .black with linsStack := o :: r₀.linsStack }, false)
      else some (r₀, false) := by
    rw [decref, decrefInner, if_pos (h.hasRefCount (SameObjects.refl r) hmem hin), Option.bind_some]
    have hleft : r₀.refCount o ≠ 0 := by omega
    exact if_neg hleft
  have htallied {r' : RegionRc O} (hr' : Counted iso (Function.update held o (held o - 1)) r')
      (hfields : r'.fields = r.fields) (hallocated : r'.allocated = r.allocated)
      (hcls : r'.cls = r.cls) (hcounts : r'.refCount = r₀.refCount)
      (hlins' : ∀ x ∈ r'.linsStack, x = o ∨ x ∈ r.linsStack) (hevents : r'.events = r.events) :
      Tallied iso (Function.update held o (held o - 1)) r r' := by
    refine ⟨⟨⟨hr', hheld⟩, fun x hx hx' => ?_, fun x hx hx' => ?_⟩, hfields, hallocated.subset,
      fun x _ => congrFun hcls x, [], by rw [hevents, List.append_nil], fun c => ?_⟩
    · rw [hallocated] at hx
      rw [Inner, hcls] at hx'
      rw [hcounts, refCount_setRefCount]
      split
      · omega
      · exact h.live x hx hx'
    · rw [Inner, hcls]
      rcases hlins' x hx with rfl | hx
      · exact hin
      · exact h.lins x hx (hallocated ▸ hx')
    · rw [hallocated, Finset.sdiff_self]
      simp [refs]
  rw [hdecref]
  by_cases hblack : r₀.colour o ≠ .black
  · rw [if_pos hblack]
    refine ⟨_, rfl, htallied ⟨⟨hcounted.iso_mem, hcounted.cls_iso, hcounted.cls_other,
      hcounted.fields_mem, hcounted.fields_outer⟩, hcounted.refCount_eq, hcounted.held_mem,
      fun x hx => ?_⟩ rfl rfl rfl rfl (fun x hx => List.mem_cons.mp hx) rfl, rfl,
      fun x hx => List.mem_cons.mp hx⟩
    change (r₀.setRcColour o .black).colour x ≠ .red
    rw [colour_setRcColour]
    split
    · decide
    · exact hcounted.not_red x hx
  · rw [if_neg hblack]
    exact ⟨_, rfl, htallied hcounted rfl rfl rfl rfl (fun x hx => Or.inr hx) rfl, rfl,
      fun x hx => Or.inr hx⟩

/-- The last reference is given back. -/
theorem decref_tallied_of_last (h : Steady iso held r) (ho : 0 < held o)
    (hiso : o = iso → 1 < held o) (hlast : r.refCount o = 1)
    (hfuel : width r.fields r.allocated ≤ fuel) :
    ((∃ res, decref fuel r o = some res) ↔
      ∀ x, Dies r held o x → ∀ y ∈ r.fields x, r.cls y ≠ .sccPtr) ∧
    ∀ res, decref fuel r o = some res →
      Tallied iso (Function.update held o (held o - 1)) r res.1 ∧
      (∀ x, x ∈ res.1.allocated ↔ x ∈ r.allocated ∧ ¬ Dies r held o x) ∧
      res.1.linsStack = r.linsStack := by
  obtain ⟨hmem, hin⟩ := h.held_mem o ho
  have hcounted := h.toCounted.decref ho
  have hne : o ≠ iso := by
    intro heq
    have hheld := hiso heq
    have hcount := h.refCount_eq o hmem hin
    omega
  set r₀ := r.setRefCount o (r.refCount o - 1)
  set held₀ := Function.update held o (held o - 1)
  have hheld (y : O) (hy : y ≠ o) : held₀ y = held y := Function.update_of_ne hy ..
  have hheld_iso : 0 < held₀ iso := by
    rw [hheld iso (Ne.symm hne)]
    exact h.held_iso
  have hzero : r₀.refCount o = 0 := by
    rw [refCount_setRefCount, if_pos rfl, hlast]
  have hdecref : decref fuel r o = (deallocObject fuel r₀ o).map fun r => (r, true) := by
    rw [decref, decrefInner, if_pos (h.hasRefCount (SameObjects.refl r) hmem hin), Option.bind_some]
    exact if_pos hzero
  have hdies (x : O) : Dies r₀ held₀ o x ↔ Dies r held o x :=
    ⟨fun hx => hx.congr rfl rfl rfl fun y hy => (hheld y hy).symm,
      fun hx => hx.congr rfl rfl rfl hheld⟩
  have hlive₀ : ∀ y ∈ r₀.allocated, r₀.Inner y → y ≠ o → 0 < r₀.refCount y := by
    intro y hy hy' hyo
    rw [refCount_setRefCount, if_neg hyo]
    exact h.live y hy hy'
  obtain ⟨hends, hspec⟩ := deallocObject_spec hcounted hheld_iso hmem hin hne hzero hlive₀ hfuel
  simp only [hdies] at hends
  constructor
  · refine Iff.trans ?_ hends
    rw [hdecref]
    constructor
    · rintro ⟨res, hres⟩
      obtain ⟨r', hr', -⟩ := Option.map_eq_some_iff.mp hres
      exact ⟨r', hr'⟩
    · rintro ⟨r', hr'⟩
      exact ⟨_, Option.map_eq_some_iff.mpr ⟨r', hr', rfl⟩⟩
  intro res hres
  rw [hdecref] at hres
  obtain ⟨r', hr', rfl⟩ := Option.map_eq_some_iff.mp hres
  have hd := hspec r' hr'
  refine ⟨⟨⟨⟨hd.counted, hheld_iso⟩, hd.pos, fun x hx hx' => ?_⟩, hd.fields_eq,
    fun x hx => ((hd.allocated_iff x).mp hx).1, fun x _ => congrFun hd.cls_eq x,
    deallocObject_givenBack (r := r₀) hcounted hheld_iso hmem hin hzero hlive₀ hr'⟩, fun x => ?_,
    hd.linsStack_eq⟩
  · change r'.Inner x
    rw [Inner, hd.cls_eq]
    exact h.lins x (hd.linsStack_eq ▸ hx) ((hd.allocated_iff x).mp hx').1
  · rw [← hdies]
    exact hd.allocated_iff x

/-- What a collection of cycles leaves, when no candidate reaches an object outside. -/
structure Collected (iso : O) (held : O → ℕ) (r r' : RegionRc O) : Prop where
  /-- The region is as it is between collections. -/
  isOpen : Open iso held r'
  /-- The references do not change. -/
  fields_eq : r'.fields = r.fields
  /-- No object is allocated. -/
  subset : r'.allocated ⊆ r.allocated
  /-- The classes do not change. -/
  cls_eq : ∀ x ∈ r'.allocated, r'.cls x = r.cls x
  /-- Every object has references. -/
  live : ∀ x ∈ r'.allocated, r'.Inner x → 0 < r'.refCount x
  /-- The Lins stack is empty. -/
  linsStack_eq : r'.linsStack = []
  /-- What is deallocated does not refer to objects outside. -/
  dead : ∀ x ∈ r.allocated, x ∉ r'.allocated → ∀ y ∈ r.fields x, r.Inner y ∨ r.cls y = .iso
  /-- Nothing is done to objects outside. -/
  events_eq : ∃ new, r'.events = r.events ++ new ∧ ∀ c, .decref c ∉ new ∧ .release c ∉ new

/-- The loop over the Lins stack does nothing to objects outside. -/
theorem gcLoop_collected {stale : O → RcColour} {jumpStack linsStack : List O}
    (h : Collecting fuel stale iso held r jumpStack linsStack)
    (hlive : ∀ x ∈ r.allocated, r.Inner x → 0 < r.refCount x) :
    ∃ r', gcLoop fuel stale r jumpStack linsStack = some r' ∧ Collected iso held r r' := by
  induction linsStack generalizing r jumpStack with
  | nil =>
    exact ⟨_, rfl, ⟨h.isOpen.toCounted.of_eq rfl rfl rfl rfl rfl, h.isOpen.held_iso⟩, rfl,
      Finset.Subset.refl _, fun _ _ => rfl, hlive, rfl, fun x hx hx' => absurd hx hx', [],
      (List.append_nil _).symm, by simp⟩
  | cons p linsStack ih =>
    obtain ⟨s, hs, hscanned, hfreed, hrest⟩ := h.pop
    obtain ⟨r', hr', hc⟩ := ih hrest fun x hx hin => by
      have hin' := (hscanned.inner_iff hx).mp hin
      exact hscanned.pos x hx hin' (hlive x (hscanned.subset hx) hin')
    rw [gcLoop_cons, hs]
    refine ⟨r', hr', hc.isOpen, hc.fields_eq.trans hscanned.fields_eq,
      hc.subset.trans hscanned.subset, fun x hx => ?_, hc.live, hc.linsStack_eq,
      fun x hx hx' y hy => ?_, ?_⟩
    · rw [hc.cls_eq x hx, hscanned.cls_eq x (hc.subset hx)]
    · by_cases hleft : x ∈ s.1.allocated
      · have hy' : y ∈ s.1.fields x := by rwa [hscanned.fields_eq]
        have hmem := hscanned.isOpen.fields_mem x hleft y hy'
        have hout := hc.dead x hleft hx' y hy'
        rwa [Inner, hscanned.cls_eq y hmem] at hout
      · obtain ⟨hcandidate, hlost⟩ := (hfreed x hx).mp hleft
        exact h.collectable.plain p List.mem_cons_self hcandidate y (hlost.1.tail hy)
    · obtain ⟨new, hnew, hnone⟩ := hc.events_eq
      obtain ⟨gc, subRegions, hgone⟩ := hscanned.gone
      refine ⟨_, by rw [hnew, hgone.events_eq, List.append_assoc], fun c => ?_⟩
      have hdealloc : .decref c ∉ deallocEvents gc ∧ .release c ∉ deallocEvents gc := by
        simp [deallocEvents]
      have hc' := hnone c
      simp [hdealloc, hc']

/-- What refers to objects of the region and to other regions only does not refer to objects outside. -/
theorem refs_of_dead
    (h : ∀ x ∈ r.allocated, x ∉ r'.allocated → ∀ y ∈ r.fields x, r.Inner y ∨ r.cls y = .iso)
    (hcls : r.cls c = .rc ∨ r.cls c = .shared) :
    refs r.fields (r.allocated \ r'.allocated) c = 0 := by
  by_contra hne
  obtain ⟨x, hx, hc⟩ := refs_pos_iff.mp (Nat.pos_of_ne_zero hne)
  rw [Finset.mem_sdiff] at hx
  have hout := h x hx.1 hx.2 c hc
  rw [Inner] at hout
  rcases hcls with hcls | hcls <;> simp [hcls, RegionMD.outer] at hout

/-- A collection of cycles gives back nothing. -/
theorem gcCycles_tallied {stale : O → RcColour} (h : Steady iso held r)
    (hstale : ∀ p ∈ r.linsStack, p ∉ r.allocated → stale p ≠ .black)
    (hcollectable : Collectable stale r iso held r.linsStack)
    (hfuel : 2 * width r.fields r.allocated ≤ fuel) :
    ∃ r', gcCycles fuel stale r iso = some r' ∧ Tallied iso held r r' ∧
      ∀ x ∈ r.allocated, x ∉ r'.allocated → ∀ y ∈ r.fields x, r.Inner y ∨ r.cls y = .iso := by
  have hcollecting : Collecting fuel stale iso held r [] r.linsStack :=
    ⟨h.toOpen, fun y hy => absurd hy List.not_mem_nil,
      fun p hp hp' => ⟨h.lins p hp hp', h.live p hp' (h.lins p hp hp')⟩, hstale, hcollectable, hfuel⟩
  obtain ⟨r', hr', hc⟩ := gcLoop_collected hcollecting h.live
  rw [gcCycles, if_pos h.cls_iso]
  obtain ⟨new, hnew, hnone⟩ := hc.events_eq
  refine ⟨r', hr', ⟨⟨hc.isOpen, hc.live, fun x hx => ?_⟩, hc.fields_eq, hc.subset, hc.cls_eq, new, hnew,
    fun c => ?_⟩, hc.dead⟩
  · rw [hc.linsStack_eq] at hx
    cases hx
  rw [List.count_eq_zero.mpr (hnone c).1, List.count_eq_zero.mpr (hnone c).2]
  constructor
  · split
    · next hcls => rw [refs_of_dead hc.dead (Or.inl hcls)]
    · rfl
  · split
    · next hcls => rw [refs_of_dead hc.dead (Or.inr hcls)]
    · rfl

/-! ## Runs -/

namespace Op

/-- A reference that is given back is held, and the entry point stays held while the region is open. -/
def Legal (iso : O) (held : O → ℕ) : Op O → Prop
  | .decref o => 0 < held o ∧ (o = iso → 1 < held o)
  | .gcCycles _ => True

/-- With the last reference to an object nothing dies that refers to an immutable object that is not the
root of its component, and no component loses its last reference.  A collection works, and its
candidates reach no object outside. -/
def Spares (iso : O) (w : World O) : Op O → Prop
  | .decref o => w.region.refCount o = 1 → ∃ dead : Finset O,
      (∀ x, x ∈ dead ↔ Dies w.region w.held o x) ∧
      (∀ x ∈ dead, ∀ y ∈ w.region.fields x, w.region.cls y ≠ .sccPtr) ∧
      ∀ c, w.region.cls c = .rc → 0 < refs w.region.fields dead c →
        refs w.region.fields dead c < w.outside.count c
  | .gcCycles stale => Collectable stale w.region iso w.held w.region.linsStack ∧
      ∀ p ∈ w.region.linsStack, p ∉ w.region.allocated → stale p ≠ .black

end Op

/-- A sequence of `decref` and `gc_cycles` that spares the objects outside. -/
inductive Run (iso : O) (w₀ : World O) : World O → Prop
  /-- Nothing is called. -/
  | refl : Run iso w₀ w₀
  /-- A call. -/
  | step {w w' : World O} {op : Op O} {fuel : ℕ} (h : Run iso w₀ w) (hlegal : op.Legal iso w.held)
    (hspares : op.Spares iso w) (hfuel : 2 * width w.region.fields w.region.allocated ≤ fuel)
    (hop : op.apply fuel iso w = some w') : Run iso w₀ w'

/-- The count of an object outside decreases by one for each reference to it, or to its component, from
an object that is deallocated, and it is freed with its last reference. -/
structure Accounted (immutable : O → O) (w₀ w : World O) : Prop where
  /-- The counts. -/
  count_eq : ∀ c, w.outside.count c +
    outsideRefs immutable w₀.region (w₀.region.allocated \ w.region.allocated) c = w₀.outside.count c
  /-- What is freed. -/
  freed_iff : ∀ c, c ∈ w.outside.freed ↔ c ∈ w₀.outside.freed ∨
    0 < outsideRefs immutable w₀.region (w₀.region.allocated \ w.region.allocated) c ∧
      w.outside.count c = 0

/-- The objects outside that the objects of a region refer to are not freed, and have counts. -/
def Referenced (immutable : O → O) (w : World O) : Prop :=
  ∀ c, 0 < outsideRefs immutable w.region w.region.allocated c →
    outsideRefs immutable w.region w.region.allocated c ≤ w.outside.count c ∧ c ∉ w.outside.freed

variable {w₀ w w' : World O} {op : Op O}

/-- What a call does to the region, and which references it gives back. -/
theorem Steady.call (h : Steady iso w.held w.region) (hlegal : op.Legal iso w.held) (hspares : op.Spares iso w)
    (hfuel : 2 * width w.region.fields w.region.allocated ≤ fuel) :
    ∃ r', op.run fuel iso w.region = some r' ∧ Tallied iso (op.heldAfter w.held) w.region r' ∧
      (∀ x ∈ w.region.allocated, x ∉ r'.allocated → ∀ y ∈ w.region.fields x,
        w.region.cls y ≠ .sccPtr) ∧
      ∀ c, w.region.cls c = .rc →
        0 < refs w.region.fields (w.region.allocated \ r'.allocated) c →
        refs w.region.fields (w.region.allocated \ r'.allocated) c < w.outside.count c := by
  cases op with
  | decref o =>
    obtain ⟨ho, hiso⟩ := hlegal
    obtain ⟨hmem, hin⟩ := h.held_mem o ho
    rcases Nat.lt_or_ge 1 (w.region.refCount o) with hlt | hle
    · obtain ⟨res, hres, htallied, hallocated, -⟩ := decref_tallied_of_lt h ho hiso hlt fuel
      refine ⟨res.1, by rw [Op.run, hres]; rfl, htallied, fun x hx hx' => ?_, fun c _ hpos => ?_⟩
      · exact absurd (hallocated ▸ hx) hx'
      · rw [hallocated, Finset.sdiff_self] at hpos
        exact absurd hpos (Nat.lt_irrefl 0)
    · have hlast : w.region.refCount o = 1 := Nat.le_antisymm hle (h.live o hmem hin)
      obtain ⟨dead, hdead, hplain, hrefs⟩ := hspares hlast
      have hfuel' : width w.region.fields w.region.allocated ≤ fuel := by omega
      obtain ⟨hends, hspec⟩ := decref_tallied_of_last h ho hiso hlast hfuel'
      obtain ⟨res, hres⟩ := hends.mpr fun x hx => hplain x ((hdead x).mpr hx)
      obtain ⟨htallied, hallocated, -⟩ := hspec res hres
      have hset : w.region.allocated \ res.1.allocated = dead := by
        ext x
        have hx := hallocated x
        have hmem' : Dies w.region w.held o x → x ∈ w.region.allocated := by
          rintro (_ | ⟨hx, -, -, -⟩)
          · exact hmem
          · exact hx
        rw [Finset.mem_sdiff, hdead]
        tauto
      refine ⟨res.1, by rw [Op.run, hres]; rfl, htallied, fun x hx hx' => ?_, ?_⟩
      · exact hplain x (hset ▸ Finset.mem_sdiff.mpr ⟨hx, hx'⟩)
      · rwa [hset]
  | gcCycles stale =>
    obtain ⟨hcollectable, hstale⟩ := hspares
    obtain ⟨r', hr', htallied, hdead⟩ :=
      gcCycles_tallied h hstale hcollectable hfuel
    refine ⟨r', hr', htallied, fun x hx hx' y hy hcls => ?_, fun c hcls hpos => ?_⟩
    · have hout := hdead x hx hx' y hy
      simp [Inner, hcls, RegionMD.outer] at hout
    · rw [refs_of_dead hdead (Or.inl hcls)] at hpos
      exact absurd hpos (Nat.lt_irrefl 0)

/-! ## Counts over runs -/

/-- The references that a call gives back are those to roots of components and to shared objects. -/
theorem GivenBack.after {dead : Finset O} (h : GivenBack r dead new) (out : Outside O) {n : ℕ}
    (hn : n = if r.cls c = .rc ∨ r.cls c = .shared then refs r.fields dead c else 0)
    (hle : 0 < n → n ≤ out.count c ∧ c ∉ out.freed)
    (hlast : r.cls c = .rc → 0 < n → n < out.count c) :
    (out.after new).count c + n = out.count c ∧
      (c ∈ (out.after new).freed ↔ c ∈ out.freed ∨ 0 < n ∧ (out.after new).count c = 0) := by
  obtain ⟨hdecref, hrelease⟩ := h c
  rcases Nat.eq_zero_or_pos n with rfl | hpos
  · have hnone : new.count (.decref c) = 0 ∧ new.count (.release c) = 0 := by
      rw [hdecref, hrelease]
      split at hn
      · rw [← hn]
        simp
      · next hcls =>
        rw [not_or] at hcls
        rw [if_neg hcls.1, if_neg hcls.2]
        exact ⟨rfl, rfl⟩
    obtain ⟨hcount, hfreed⟩ := out.after_other (List.count_eq_zero.mp hnone.1)
      (List.count_eq_zero.mp hnone.2)
    rw [hcount, hfreed]
    simp
  · obtain ⟨hle, hfreed⟩ := hle hpos
    by_cases hrc : r.cls c = .rc
    · rw [if_pos hrc] at hdecref
      rw [if_pos (Or.inl hrc)] at hn
      rw [if_neg (by simp [hrc]), List.count_eq_zero] at hrelease
      have hlt := hlast hrc hpos
      obtain ⟨hcount, hfreed'⟩ := out.after_decref hrelease (by omega)
      rw [hfreed', or_iff_left fun hzero => by omega]
      exact ⟨by omega, Iff.rfl⟩
    · have hshared : r.cls c = .shared := by
        by_contra hne
        rw [if_neg (not_or.mpr ⟨hrc, hne⟩)] at hn
        omega
      rw [if_neg hrc, List.count_eq_zero] at hdecref
      rw [if_pos hshared] at hrelease
      rw [if_pos (Or.inr hshared)] at hn
      obtain ⟨hcount, hfreed'⟩ := out.after_release hdecref (by omega)
        (iff_of_false hfreed fun hzero => by omega)
      rw [hfreed', or_iff_right hfreed, and_iff_right hpos]
      exact ⟨by omega, Iff.rfl⟩

/-- What a run leaves. -/
structure Spared (immutable : O → O) (iso : O) (w₀ w : World O) : Prop where
  /-- The region is as it is between calls. -/
  steady : Steady iso w.held w.region
  /-- The references do not change. -/
  fields_eq : w.region.fields = w₀.region.fields
  /-- No object is allocated. -/
  subset : w.region.allocated ⊆ w₀.region.allocated
  /-- The classes do not change. -/
  cls_eq : ∀ x ∈ w.region.allocated, w.region.cls x = w₀.region.cls x
  /-- The references that are gone are given back. -/
  accounted : Accounted immutable w₀ w

/-- The references from objects that are left are those of the region as it was. -/
theorem Spared.outsideRefs_eq (h : Spared immutable iso w₀ w) (hX : X ⊆ w.region.allocated) (c : O) :
    outsideRefs immutable w₀.region X c = outsideRefs immutable w.region X c := by
  refine Finset.sum_congr rfl fun x hx => ?_
  rw [h.fields_eq]
  refine List.countP_congr fun f hf => ?_
  have hmem := h.steady.fields_mem x (hX hx) f (by rwa [h.fields_eq])
  rw [refersTo, refersTo, h.cls_eq f hmem]

/-- A call keeps the invariant. -/
theorem Spared.call (href : Referenced immutable w₀) (h : Spared immutable iso w₀ w)
    (hlegal : op.Legal iso w.held) (hspares : op.Spares iso w)
    (hfuel : 2 * width w.region.fields w.region.allocated ≤ fuel) :
    ∃ w', op.apply fuel iso w = some w' ∧ Spared immutable iso w₀ w' := by
  obtain ⟨r', hr', ht, hplain, hlast⟩ := h.steady.call hlegal hspares hfuel
  obtain ⟨new, hnew, hback⟩ := ht.events_eq
  have hdrop : r'.events.drop w.region.events.length = new := by rw [hnew, List.drop_left]
  rw [Op.apply, hr', Option.map_some, hdrop]
  refine ⟨_, rfl, ht.toSteady, ht.fields_eq.trans h.fields_eq,
    ht.subset.trans h.subset, fun x hx => ?_, ?_⟩
  · rw [← h.cls_eq x (ht.subset hx)]
    exact ht.cls_eq x hx
  have hdead : ∀ x ∈ w.region.allocated \ r'.allocated, ∀ f ∈ w.region.fields x,
      w.region.cls f ≠ .sccPtr := fun x hx =>
    hplain x (Finset.mem_sdiff.mp hx).1 (Finset.mem_sdiff.mp hx).2
  have hall (c : O) : (w.outside.after new).count c +
      outsideRefs immutable w₀.region (w₀.region.allocated \ r'.allocated) c = w₀.outside.count c ∧
      (c ∈ (w.outside.after new).freed ↔ c ∈ w₀.outside.freed ∨
        0 < outsideRefs immutable w₀.region (w₀.region.allocated \ r'.allocated) c ∧
          (w.outside.after new).count c = 0) := by
    have hsum : outsideRefs immutable w₀.region (w₀.region.allocated \ r'.allocated) c =
        outsideRefs immutable w₀.region (w₀.region.allocated \ w.region.allocated) c +
          outsideRefs immutable w.region (w.region.allocated \ r'.allocated) c := by
      have hwhole := outsideRefs_sdiff w₀.region immutable h.subset c
      have hwhole' := outsideRefs_sdiff w₀.region immutable (ht.subset.trans h.subset) c
      have hpart := outsideRefs_sdiff w₀.region immutable ht.subset c
      rw [← h.outsideRefs_eq Finset.sdiff_subset]
      omega
    have hle := outsideRefs_sdiff w₀.region immutable h.subset c
    have hle' := outsideRefs_mono w₀.region immutable
      (Finset.sdiff_subset (s := w.region.allocated) (t := r'.allocated)) c
    rw [h.outsideRefs_eq Finset.sdiff_subset] at hle'
    have hcount := h.accounted.count_eq c
    have hfreed := h.accounted.freed_iff c
    have hbound := href c
    set n := outsideRefs immutable w.region (w.region.allocated \ r'.allocated) c with hn
    rw [RegionRc.outsideRefs_eq hdead] at hn
    obtain ⟨hcount', hfreed'⟩ := hback.after w.outside hn (fun hpos => by
      obtain ⟨hbound, hnot⟩ := hbound (by omega)
      refine ⟨by omega, fun hmem => ?_⟩
      rcases hfreed.mp hmem with hmem | ⟨-, hzero⟩
      · exact hnot hmem
      · omega) (fun hrc hpos => by
        rw [if_pos (Or.inl hrc)] at hn
        rw [hn] at hpos ⊢
        exact hlast c hrc hpos)
    rw [hsum]
    refine ⟨by omega, ?_⟩
    rw [hfreed', hfreed, or_assoc]
    refine or_congr_right ?_
    omega
  exact ⟨fun c => (hall c).1, fun c => (hall c).2⟩

/-- A run that spares objects outside accounts for all references. -/
theorem Run.spared (hsteady : Steady iso w₀.held w₀.region) (href : Referenced immutable w₀) (h : Run iso w₀ w) :
    Spared immutable iso w₀ w := by
  induction h with
  | refl =>
    have hnone (c : O) :
        outsideRefs immutable w₀.region (w₀.region.allocated \ w₀.region.allocated) c = 0 := by
      rw [Finset.sdiff_self]
      rfl
    refine ⟨hsteady, rfl, Finset.Subset.refl _, fun _ _ => rfl, fun c => ?_, fun c => ?_⟩
    · rw [hnone, Nat.add_zero]
    · rw [hnone]
      simp
  | step _ hlegal hspares hfuel hop ih =>
    obtain ⟨w', hw', hspared⟩ := ih.call href hlegal hspares hfuel
    rw [hw'] at hop
    obtain rfl := Option.some.inj hop
    exact hspared

/-- In every run in which no call lets something die that refers to an immutable object other than the
root of its component or has the last reference to a component, and in which the collections work and
their candidates reach no object outside, the counts outside are right, and every further call that
spares the objects outside returns. -/
theorem outside_accounted (immutable : O → O) (hsteady : Steady iso w₀.held w₀.region)
    (href : Referenced immutable w₀) (hrun : Run iso w₀ w) :
    Accounted immutable w₀ w ∧
      ∀ (op : Op O) (fuel : ℕ), op.Legal iso w.held → op.Spares iso w →
        2 * width w.region.fields w.region.allocated ≤ fuel → ∃ w', op.apply fuel iso w = some w' := by
  have hspared := hrun.spared hsteady href
  refine ⟨hspared.accounted, fun op fuel hlegal hspares hfuel => ?_⟩
  obtain ⟨w', hw', -⟩ := hspared.call href hlegal hspares hfuel
  exact ⟨w', hw'⟩

/-- A region with the entry point 0 and an object 1 that is held outside, and refers to an immutable
component 2 and to a shared object 3. -/
def referringObject : RegionRc ℕ where
  fields := fun o => if o = 1 then [2, 3] else []
  finaliser := fun _ => []
  allocated := {0, 1, 2, 3}
  cls := fun o => if o = 0 then .openIso else if o = 1 then .unmarked else if o = 2 then .rc else .shared
  refCount := fun _ => 1
  colour := fun _ => .green
  linsStack := []
  regionSize := 2
  events := []

/-- The region, when the component has `n` references. -/
def referringWorld (n : ℕ) : World ℕ where
  region := referringObject
  held := heldOnce
  outside := ⟨fun c => if c = 2 then n else if c = 3 then 1 else 0, ∅⟩

/-- The objects of the region are 0 and 1. -/
theorem inner_referringObject {o : ℕ} (ho : o ∈ referringObject.allocated)
    (hin : referringObject.Inner o) : o = 0 ∨ o = 1 := by
  have hmem : o = 0 ∨ o = 1 ∨ o = 2 ∨ o = 3 := by simpa [referringObject] using ho
  rcases hmem with rfl | rfl | rfl | rfl
  · exact Or.inl rfl
  · exact Or.inr rfl
  · cases hin
  · cases hin

/-- Every count of the region is right. -/
theorem steady_referringObject : Steady 0 heldOnce referringObject := by
  have hrefs (o : ℕ) (ho : o = 0 ∨ o = 1) : refs referringObject.fields referringObject.allocated o = 0 := by
    rcases ho with rfl | rfl <;> rfl
  have hmem {o : ℕ} : o ∈ referringObject.allocated ↔ o = 0 ∨ o = 1 ∨ o = 2 ∨ o = 3 := by
    simp [referringObject]
  have hfields {o f : ℕ} (hf : f ∈ referringObject.fields o) : o = 1 ∧ (f = 2 ∨ f = 3) := by
    change f ∈ (if o = 1 then [2, 3] else []) at hf
    split at hf
    · next heq => exact ⟨heq, by simpa using hf⟩
    · cases hf
  refine ⟨⟨⟨⟨hmem.mpr (Or.inl rfl), rfl, fun o ho hne => ?_, fun o ho f hf => ?_, fun o ho hout => ?_⟩,
    fun o ho ho' => ?_, fun o ho => ?_, fun o _ => show RcColour.green ≠ .red by decide⟩, Nat.one_pos⟩,
    fun _ _ _ => Nat.one_pos, fun x hx => absurd hx List.not_mem_nil⟩
  · rcases hmem.mp ho with rfl | rfl | rfl | rfl
    · exact absurd rfl hne
    · exact Or.inl rfl
    · exact Or.inr rfl
    · exact Or.inr rfl
  · exact hmem.mpr (Or.inr (Or.inr (hfields hf).2))
  · by_contra hne
    obtain ⟨f, hf⟩ := List.exists_mem_of_ne_nil _ hne
    obtain ⟨rfl, -⟩ := hfields hf
    cases hout
  · change 1 = heldOnce o + refs referringObject.fields referringObject.allocated o
    rw [hrefs o (inner_referringObject ho ho'), heldOnce, if_pos (inner_referringObject ho ho')]
  · change 0 < heldOnce o at ho
    rw [heldOnce] at ho
    split at ho
    · next heq =>
      refine ⟨hmem.mpr (by omega), ?_⟩
      rcases heq with rfl | rfl <;> rfl
    · cases ho

/-- The region refers to the component and the shared object once. -/
theorem outsideRefs_referringObject (c : ℕ) :
    outsideRefs id referringObject referringObject.allocated c = if c = 2 ∨ c = 3 then 1 else 0 := by
  have hone : outsideRefs id referringObject referringObject.allocated c =
      [2, 3].countP (refersTo id referringObject c) := by
    rw [outsideRefs, Finset.sum_eq_single_of_mem 1 (by decide)]
    · rfl
    · intro x _ hne
      have hnone : referringObject.fields x = [] := if_neg hne
      rw [hnone, List.countP_nil]
  have htwo : refersTo id referringObject c 2 = decide (2 = c) := rfl
  have hthree : refersTo id referringObject c 3 = decide (3 = c) := rfl
  rw [hone, List.countP_cons, List.countP_singleton, htwo, hthree]
  rcases eq_or_ne c 2 with rfl | hne
  · rfl
  · rcases eq_or_ne c 3 with rfl | hne'
    · rfl
    · simp [hne, hne', hne.symm, hne'.symm]

/-- What the region refers to has counts, and is not freed. -/
theorem referenced_referringWorld (n : ℕ) (hn : 0 < n) : Referenced id (referringWorld n) := by
  intro c hpos
  change 0 < outsideRefs id referringObject referringObject.allocated c at hpos
  change outsideRefs id referringObject referringObject.allocated c ≤ _ ∧ _
  rw [outsideRefs_referringObject] at hpos ⊢
  refine ⟨?_, Finset.notMem_empty c⟩
  change _ ≤ if c = 2 then n else if c = 3 then 1 else 0
  split at hpos
  · next heq =>
    rcases heq with rfl | rfl
    · exact show 1 ≤ n from hn
    · exact show 1 ≤ 1 from Nat.le_refl 1
  · cases hpos

/-- The theorem at the last reference to the object, when the component has another reference. -/
theorem outside_accounted_referringWorld :
    ∃ w, (Op.decref 1).apply 4 0 (referringWorld 2) = some w ∧ w.region.allocated = {0, 2, 3} ∧
      w.outside.count 2 = 1 ∧ w.outside.freed = {3} ∧ Accounted id (referringWorld 2) w := by
  have hdies (x : ℕ) : x ∈ ({1} : Finset ℕ) ↔ Dies referringObject heldOnce 1 x := by
    rw [Finset.mem_singleton]
    refine ⟨fun heq => heq ▸ .self, fun hx => ?_⟩
    rcases hx with _ | ⟨hx, hin, hzero, -⟩
    · rfl
    · rw [heldOnce, if_pos (inner_referringObject hx hin)] at hzero
      cases hzero
  have hlegal : (Op.decref 1).Legal 0 (referringWorld 2).held :=
    ⟨show 0 < heldOnce 1 by decide, by decide⟩
  have hspares : (Op.decref 1).Spares 0 (referringWorld 2) := by
    refine fun _ => ⟨{1}, hdies, fun x hx y hy => ?_, fun c hrc hpos => ?_⟩
    · rw [Finset.mem_singleton.mp hx] at hy
      change y ∈ [2, 3] at hy
      rcases List.mem_cons.mp hy with rfl | hy
      · exact show RegionMD.rc ≠ .sccPtr by decide
      · rw [List.mem_singleton.mp hy]
        exact show RegionMD.shared ≠ .sccPtr by decide
    · obtain ⟨x, hx, hc⟩ := refs_pos_iff.mp hpos
      rw [Finset.mem_singleton.mp hx] at hc
      change c ∈ [2, 3] at hc
      rcases List.mem_cons.mp hc with rfl | hc
      · exact show 1 < 2 by decide
      · rw [List.mem_singleton.mp hc] at hrc
        cases hrc
  exact ⟨_, rfl, by decide, rfl, by decide,
    (outside_accounted id steady_referringObject (referenced_referringWorld 2 (by decide))
      (Run.refl.step hlegal hspares (show 2 * 2 ≤ 4 by decide) rfl)).1⟩

/-- When the component has no other reference, its count stays, and it is not freed. -/
theorem referringWorld_not_accounted :
    Steady 0 heldOnce referringObject ∧ Referenced id (referringWorld 1) ∧
      (Op.decref 1).Legal 0 (referringWorld 1).held ∧
      ∃ w, (Op.decref 1).apply 4 0 (referringWorld 1) = some w ∧ w.region.allocated = {0, 2, 3} ∧
        w.outside.count 2 = 1 ∧ w.outside.freed = {3} ∧ ¬ Accounted id (referringWorld 1) w := by
  refine ⟨steady_referringObject, referenced_referringWorld 1 (by decide),
    ⟨show 0 < heldOnce 1 by decide, by decide⟩, _, rfl, by decide, rfl, by decide, fun h => ?_⟩
  exact absurd (h.count_eq 2) (by decide)

/-- A candidate that refers to objects outside is not collected. -/
example : gcCycles 4 (fun _ => .green)
    { referringObject with colour := fun o => if o = 1 then .black else .green, linsStack := [1] } 0 =
    none := rfl

end VeronaRt.RegionRc
