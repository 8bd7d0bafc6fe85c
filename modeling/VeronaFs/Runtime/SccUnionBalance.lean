import Mathlib.Data.BitVec
import Mathlib.Data.Set.Card
import VeronaFs.Runtime.SccUnionRuns

/-!
# Balanced components

A `PENDING` root of rank `k` that was built by unions has at least `2 ^ k` objects (`Balanced`), as
a rank grows only where two components of this rank are united.  There are fewer objects than the
assertion on ranks allows for, so it never fails, and `Freeze` comes to the end of every collapse
(`collapse_total`).
-/

namespace VeronaRt

open Foundation

namespace ObjectHeap

/-- The objects whose chains end at `r`. -/
def component (h : ObjectHeap) (r : ObjAddr) : Set ObjAddr := { o | h.EndsAt o r }

/-- A `PENDING` root of rank `k` has at least `2 ^ k` objects. -/
def Balanced (h : ObjectHeap) : Prop :=
  ∀ r k, h.pendingRank r = some k → 2 ^ k ≤ (h.component r).ncard

/-- There are finitely many words. -/
instance : Finite (BitVec 64) := .of_equiv _ BitVec.equivFin.toEquiv.symm

/-- There are at most `2 ^ 64` objects. -/
theorem ncard_le (s : Set ObjAddr) : s.ncard ≤ 2 ^ 64 := by
  calc s.ncard ≤ (Set.univ : Set ObjAddr).ncard := Set.ncard_le_ncard s.subset_univ
    _ = Nat.card ObjAddr := Set.ncard_univ _
    _ ≤ Nat.card (BitVec 64) := Nat.card_le_card_of_injective _ Subtype.val_injective
    _ = Nat.card (Fin (2 ^ 64)) := Nat.card_congr BitVec.equivFin.toEquiv
    _ = 2 ^ 64 := Nat.card_fin _

variable {h h' : ObjectHeap} {fuel rank k a b : ℕ} {o p q r s : ObjAddr} {pending : List ObjAddr}

/-- The next rank passes the assertion. -/
theorem Balanced.lt (hb : h.Balanced) (hr : h.pendingRank r = some k) : k + 1 < 128 := by
  have hle := (hb r k hr).trans (ncard_le _)
  have hk : k ≤ 64 := (Nat.pow_le_pow_iff_right (by decide)).mp hle
  omega

/-- Splitting paths keeps the components. -/
theorem Splits.balanced (hs : Splits h h') (hg : h.Grounded) (hb : h.Balanced) : h'.Balanced := by
  intro r k hk
  have hcomp : h'.component r = h.component r := Set.ext fun o => hs.endsAt_iff hg
  rw [hcomp]
  exact hb r k (by rw [← hs.pendingRank_eq, hk])

/-- The ends after a root was attached to another one. -/
theorem Attached.endsAt_iff (ha : Attached h h' p r a b k) (hg : h.Grounded) :
    h'.EndsAt o s ↔ s = r ∧ h.EndsAt o p ∨ s ≠ p ∧ h.EndsAt o s := by
  have hkeeps : ∀ {t}, h.EndsAt o t → t = p ∧ h'.EndsAt o r ∨ t ≠ p ∧ h'.EndsAt o t := by
    rintro t ⟨n, hn⟩
    obtain ⟨ht, hn⟩ | ⟨ht, hn⟩ := ha.leads hn
    · exact .inl ⟨ht, n + 1, hn⟩
    · exact .inr ⟨ht, n, hn⟩
  constructor
  · intro hs
    obtain ⟨n, t, hn⟩ := hg.exists_leads o
    have ht : h.EndsAt o t := ⟨n, hn⟩
    obtain ⟨rfl, hr⟩ | ⟨hne, ht'⟩ := hkeeps ht
    · exact .inl ⟨hs.unique hr, ht⟩
    · obtain rfl := hs.unique ht'
      exact .inr ⟨hne, ht⟩
  · rintro (⟨rfl, hp⟩ | ⟨hne, hs⟩)
    · obtain ⟨-, hr⟩ | ⟨hne, -⟩ := hkeeps hp
      · exact hr
      · exact absurd rfl hne
    · obtain ⟨hp, -⟩ | ⟨-, hs⟩ := hkeeps hs
      · exact absurd hp hne
      · exact hs

/-- The other root gets the objects of the one that is attached. -/
theorem Attached.balanced (ha : Attached h h' p r a b k) (hg : h.Grounded) (hb : h.Balanced) :
    h'.Balanced := by
  intro s j hj
  by_cases hsr : s = r
  · subst hsr
    obtain rfl := Option.some.inj (ha.rank_after.symm.trans hj)
    have hcomp : h'.component s = h.component p ∪ h.component s := by
      ext o
      rw [Set.mem_union]
      exact (ha.endsAt_iff hg).trans (by simp [component, ha.ne.symm])
    have hdisj : Disjoint (h.component p) (h.component s) :=
      Set.disjoint_left.mpr fun o hp hs => ha.ne (EndsAt.unique hp hs)
    have hp := hb p a ha.rank_attached
    have hs := hb s b ha.rank_before
    rw [hcomp, Set.ncard_union_eq hdisj]
    obtain ⟨rfl, -⟩ | ⟨rfl, rfl⟩ := ha.grows
    · omega
    · rw [pow_succ]
      omega
  · have hsp : s ≠ p := by
      rintro rfl
      have hnone := getScc_of_pendingRank hj
      rw [ha.link, Function.update_self] at hnone
      cases hnone
    have hcomp : h'.component s = h.component s := by
      ext o
      exact (ha.endsAt_iff hg).trans (by simp [component, hsr, hsp])
    rw [hcomp]
    exact hb s j (by rw [← (reads_eq (ha.other s hsp hsr)).2.2, hj])

/-- Any number of steps keep the components balanced. -/
theorem Run.balanced (hrun : Run h h') (hg : h.Grounded) (hb : h.Balanced) : h'.Balanced := by
  induction hrun with
  | refl => exact hb
  | tail hrun hs ih =>
    have hg' := Run.grounded hrun hg
    obtain hsplit | ⟨p, r, a, b, k, ha⟩ := hs.cases hg'
    · exact hsplit.balanced hg' ih
    · exact ha.balanced hg' ih

/-! ## Collapses come to their end -/

/-- A union of two `PENDING` roots comes to its end. -/
theorem unite_total (hb : h.Balanced) (hrank : h.pendingRank r = some rank)
    (hp : h.pendingRank p = some k) : ∃ x, h.unite r rank p = some x := by
  have hlt := hb.lt hrank
  by_cases hle : k ≤ rank
  · by_cases heq : k = rank
    · exact ⟨_, by simp [unite, hp, heq, setPendingRank, hlt]; rfl⟩
    · exact ⟨_, by simp [unite, hp, hle, heq]; rfl⟩
  · exact ⟨_, by simp [unite, hp, hle]; rfl⟩

/-- The component of `o` is on the path: its root is `PENDING`. -/
def OnPath (h : ObjectHeap) (o : ObjAddr) : Prop :=
  ∃ r, h.EndsAt o r ∧ h.getClass r = some .pending

/-- An object whose chain ends at an object is there. -/
theorem EndsAt.exists_word {c : RegionMD} (ho : h.EndsAt o r) (hc : h.getClass r = some c) :
    ∃ bits, h o = some bits := by
  obtain ⟨n, hn⟩ := ho
  cases hn with
  | root => exact exists_of_getClass hc
  | step hlink => exact exists_of_getClass (getClass_of_getScc hlink)

/-- Splitting paths leaves the components on the path there. -/
theorem Splits.onPath (hs : Splits h h') (hg : h.Grounded) (ho : h.OnPath o) : h'.OnPath o := by
  obtain ⟨t, ht, hc⟩ := ho
  exact ⟨t, (hs.endsAt_iff hg).mpr ht, by rw [hs.getClass_eq, hc]⟩

/-- Attaching a root leaves the components on the path there. -/
theorem Attached.onPath (ha : Attached h h' p r a b k) (hg : h.Grounded) (ho : h.OnPath o) :
    h'.OnPath o := by
  obtain ⟨t, ht, hc⟩ := ho
  by_cases htp : t = p
  · exact ⟨r, (ha.endsAt_iff hg).mpr (.inl ⟨rfl, htp ▸ ht⟩), getClass_of_pendingRank ha.rank_after⟩
  · refine ⟨t, (ha.endsAt_iff hg).mpr (.inr ⟨htp, ht⟩), ?_⟩
    by_cases htr : t = r
    · exact htr ▸ getClass_of_pendingRank ha.rank_after
    · rw [(reads_eq (ha.other t htp htr)).1, hc]

/-- The loop comes to its end if all entries of the stack are on the path and one of them belongs to
the component in hand. -/
theorem collapseLoop_total (hg : h.Grounded) (hb : h.Balanced) (hrank : h.pendingRank r = some rank)
    (hpending : ∀ o ∈ pending, h.OnPath o) (hmem : ∃ o ∈ pending, h.EndsAt o r) :
    ∃ n x, ∀ fuel ≥ n, collapseLoop fuel h pending r rank = some x := by
  induction pending generalizing h r rank with
  | nil =>
    obtain ⟨o, ho, -⟩ := hmem
    cases ho
  | cons q pending ih =>
    obtain ⟨p, hp, hc⟩ := hpending q List.mem_cons_self
    obtain ⟨bits, hq⟩ := hp.exists_word hc
    obtain ⟨n₁, p', c, h₁, hleads, hc', hsplit, hfind⟩ := rootAndClass_eq hg hq
    obtain rfl : p' = p := EndsAt.unique ⟨n₁, hleads⟩ hp
    obtain rfl := Option.some.inj (hc'.symm.trans hc)
    by_cases hrp : r = p'
    · exact ⟨n₁, (h₁, q :: pending), fun fuel hfuel => by simp [collapseLoop, hfind fuel hfuel, hrp]⟩
    · have hg₁ : h₁.Grounded := hsplit.grounded hg
      have hrank₁ : h₁.pendingRank r = some rank := by rw [hsplit.pendingRank_eq, hrank]
      obtain ⟨k, hk⟩ := exists_pendingRank.mpr hc
      have hk₁ : h₁.pendingRank p' = some k := by rw [hsplit.pendingRank_eq, hk]
      have hb₁ : h₁.Balanced := hsplit.balanced hg hb
      obtain ⟨⟨h₂, r₂, rank₂⟩, hunite⟩ := unite_total hb₁ hrank₁ hk₁
      have hrun : Run h₁ h₂ := .single (.unite hrp hrank₁ hunite)
      have hrank₂ := unite_pendingRank hrp hrank₁ hunite
      have hpath₁ : ∀ o ∈ pending, h₁.OnPath o :=
        fun o ho => hsplit.onPath hg (hpending o (List.mem_cons_of_mem q ho))
      have hmem₁ : ∃ o ∈ pending, h₁.EndsAt o r := by
        obtain ⟨o, ho, hor⟩ := hmem
        rcases List.mem_cons.mp ho with rfl | ho
        · exact absurd (hor.unique hp) hrp
        · exact ⟨o, ho, (hsplit.endsAt_iff hg).mpr hor⟩
      have hnext : (∀ o ∈ pending, h₂.OnPath o) ∧ ∃ o ∈ pending, h₂.EndsAt o r₂ := by
        obtain ⟨o, ho, hor⟩ := hmem₁
        obtain ⟨a, rfl, ha⟩ | ⟨b, rfl, ha⟩ := unite_attached hrp hrank₁ hunite
        · exact ⟨fun o ho => ha.onPath hg₁ (hpath₁ o ho),
            o, ho, (ha.endsAt_iff hg₁).mpr (.inr ⟨hrp, hor⟩)⟩
        · exact ⟨fun o ho => ha.onPath hg₁ (hpath₁ o ho),
            o, ho, (ha.endsAt_iff hg₁).mpr (.inl ⟨rfl, hor⟩)⟩
      obtain ⟨n₂, x, hx⟩ := ih (Run.grounded hrun hg₁) (Run.balanced hrun hg₁ hb₁) hrank₂
        hnext.1 hnext.2
      refine ⟨max n₁ n₂, x, fun fuel hfuel => ?_⟩
      simp only [collapseLoop, hfind fuel (by omega), bind, Option.bind_some, if_neg hrp, if_true,
        hunite, hx fuel (by omega)]

/-- At a reference to an object whose component is on the path `Freeze` comes to the end of the
collapse, without a failed assertion. -/
theorem collapse_total (hg : h.Grounded) (hb : h.Balanced) (hq : h.EndsAt q r)
    (hr : h.getClass r = some .pending) (hpending : ∀ o ∈ pending, h.OnPath o)
    (hmem : ∃ o ∈ pending, h.EndsAt o r) :
    ∃ n x, ∀ fuel ≥ n, collapse fuel h pending q = some x := by
  obtain ⟨bits, hbits⟩ := hq.exists_word hr
  obtain ⟨n₁, r', c, h₁, hleads, hc, hsplit, hfind⟩ := rootAndClass_eq hg hbits
  obtain rfl : r' = r := EndsAt.unique ⟨n₁, hleads⟩ hq
  obtain rfl := Option.some.inj (hc.symm.trans hr)
  obtain ⟨k, hk⟩ := exists_pendingRank.mpr hr
  have hk₁ : h₁.pendingRank r' = some k := by rw [hsplit.pendingRank_eq, hk]
  have hpath₁ : ∀ o ∈ pending, h₁.OnPath o := fun o ho => hsplit.onPath hg (hpending o ho)
  have hmem₁ : ∃ o ∈ pending, h₁.EndsAt o r' := by
    obtain ⟨o, ho, hor⟩ := hmem
    exact ⟨o, ho, (hsplit.endsAt_iff hg).mpr hor⟩
  obtain ⟨n₂, x, hx⟩ :=
    collapseLoop_total (hsplit.grounded hg) (hsplit.balanced hg hb) hk₁ hpath₁ hmem₁
  refine ⟨max n₁ n₂, x, fun fuel hfuel => ?_⟩
  simp only [collapse, hfind fuel (by omega), bind, Option.bind_some, if_true, hk₁,
    hx fuel (by omega)]

end ObjectHeap

end VeronaRt
