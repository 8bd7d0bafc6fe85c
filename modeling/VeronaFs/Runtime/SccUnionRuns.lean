import VeronaFs.Runtime.SccUnion

/-!
# Finds and unions

The union-find structure under any sequence of calls of `root_and_class` and of unions by `Freeze`.
All chains keep ending, and a chain to a `PENDING` root is never longer than its rank.
-/

namespace VeronaRt

open Foundation

namespace ObjectHeap

/-! ## Steps -/

/-- One step: a call of `root_and_class`, or a union by `Freeze` of the component of a `PENDING` root
whose rank it has in hand with another one. -/
inductive Step : ObjectHeap → ObjectHeap → Prop
  /-- `root_and_class`. -/
  | find {fuel : ℕ} {h h' : ObjectHeap} {o r : ObjAddr} {c : RegionMD}
      (hfind : rootAndClass fuel h o = some (r, c, h')) : Step h h'
  /-- A union. -/
  | unite {h h' : ObjectHeap} {r r' p : ObjAddr} {rank rank' : ℕ} (hne : r ≠ p)
      (hrank : h.pendingRank r = some rank) (hunite : h.unite r rank p = some (h', r', rank')) :
      Step h h'

/-- The heaps after any number of steps. -/
abbrev Run : ObjectHeap → ObjectHeap → Prop := Relation.ReflTransGen Step

variable {h h' : ObjectHeap} {fuel rank : ℕ} {q r : ObjAddr} {pending rest : List ObjAddr}

/-- A step is a split of paths, or it attaches a root to another one. -/
theorem Step.cases (hs : Step h h') (hg : h.Grounded) :
    Splits h h' ∨ ∃ p r a b k, Attached h h' p r a b k := by
  cases hs with
  | find hfind => exact .inl (rootAndClass_spec hg hfind).2.2
  | unite hne hrank hunite =>
    obtain ⟨a, -, ha⟩ | ⟨b, -, ha⟩ := unite_attached hne hrank hunite
    · exact .inr ⟨_, _, _, _, _, ha⟩
    · exact .inr ⟨_, _, _, _, _, ha⟩

/-- After a step links still end. -/
theorem Step.grounded (hs : Step h h') (hg : h.Grounded) : h'.Grounded := by
  obtain hsplit | ⟨p, r, a, b, k, ha⟩ := hs.cases hg
  · exact hsplit.grounded hg
  · exact ha.grounded hg

/-- After a step the ranks still bound the chains. -/
theorem Step.ranked (hs : Step h h') (hg : h.Grounded) (hk : h.Ranked) : h'.Ranked := by
  obtain hsplit | ⟨p, r, a, b, k, ha⟩ := hs.cases hg
  · exact hsplit.ranked hg hk
  · exact ha.ranked hg hk

/-- After any number of steps links still end. -/
theorem Run.grounded (hrun : Run h h') (hg : h.Grounded) : h'.Grounded := by
  induction hrun with
  | refl => exact hg
  | tail _ hs ih => exact hs.grounded ih

/-- After any number of steps the ranks still bound the chains. -/
theorem Run.ranked (hrun : Run h h') (hg : h.Grounded) (hk : h.Ranked) : h'.Ranked := by
  induction hrun with
  | refl => exact hk
  | tail hrun hs ih => exact hs.ranked (Run.grounded hrun hg) ih

/-- The loop that collapses the path consists of finds and unions. -/
theorem collapseLoop_run (hg : h.Grounded) (hrank : h.pendingRank r = some rank)
    (hloop : collapseLoop fuel h pending r rank = some (h', rest)) : Run h h' := by
  induction pending generalizing h r rank with
  | nil => cases hloop
  | cons q pending ih =>
    rw [collapseLoop] at hloop
    cases hfind : rootAndClass fuel h q with
    | none => simp [hfind] at hloop
    | some x =>
      obtain ⟨p, c, h₁⟩ := x
      have hstep : Step h h₁ := .find hfind
      have hg₁ : h₁.Grounded := hstep.grounded hg
      have hrank₁ : h₁.pendingRank r = some rank := by
        rw [(rootAndClass_spec hg hfind).2.2.pendingRank_eq, hrank]
      simp only [hfind, bind, Option.bind_some] at hloop
      by_cases hrp : r = p
      · rw [if_pos hrp] at hloop
        obtain ⟨rfl, -⟩ : h₁ = h' ∧ q :: pending = rest := by simpa using hloop
        exact .single hstep
      · rw [if_neg hrp] at hloop
        by_cases hc : c = .pending
        · rw [if_pos hc] at hloop
          cases hunite : h₁.unite r rank p with
          | none => simp [hunite] at hloop
          | some y =>
            obtain ⟨h₂, r₂, rank₂⟩ := y
            simp only [hunite, Option.bind_some] at hloop
            have hstep₂ : Step h₁ h₂ := .unite hrp hrank₁ hunite
            have hrank₂ := unite_pendingRank hrp hrank₁ hunite
            exact .head hstep (.head hstep₂ (ih (hstep₂.grounded hg₁) hrank₂ hloop))
        · rw [if_neg hc] at hloop
          cases hloop

/-- What `Freeze` does at a reference to a component on the path consists of finds and unions. -/
theorem collapse_run (hg : h.Grounded)
    (hcollapse : collapse fuel h pending q = some (h', rest)) : Run h h' := by
  rw [collapse] at hcollapse
  cases hfind : rootAndClass fuel h q with
  | none => simp [hfind] at hcollapse
  | some x =>
    obtain ⟨r, c, h₁⟩ := x
    have hstep : Step h h₁ := .find hfind
    simp only [hfind, bind, Option.bind_some] at hcollapse
    by_cases hc : c = .pending
    · rw [if_pos hc] at hcollapse
      cases hrank : h₁.pendingRank r with
      | none => simp [hrank] at hcollapse
      | some rank =>
        simp only [hrank, Option.bind_some] at hcollapse
        exact .head hstep (collapseLoop_run (hstep.grounded hg) hrank hcollapse)
    · rw [if_neg hc] at hcollapse
      cases hcollapse

/-- `root_and_class` comes to its end on every heap whose links end at a class that it expects: it
returns the end of the object with its class, keeps the ends of all objects and leaves the words
without a link.  Any number of such calls and of unions keep all chains free of cycles and, if they
end at a `PENDING` root, no longer than its rank. -/
theorem rootAndClass_runs :
    (∀ (h : ObjectHeap) (o : ObjAddr) (bits : BitVec 64), h.Grounded → h o = some bits →
      ∃ r c h', (∃ n, ∀ fuel ≥ n, rootAndClass fuel h o = some (r, c, h')) ∧
        h.EndsAt o r ∧ h.getClass r = some c ∧ (∀ u s, h'.EndsAt u s ↔ h.EndsAt u s) ∧
        ∀ u, h.getClass u ≠ some .sccPtr → h' u = h u) ∧
    ∀ (h h' : ObjectHeap), h.Grounded → Run h h' →
      h'.Grounded ∧ (∀ o, ¬ Relation.TransGen (LinksTo h'.getScc) o o) ∧
        (h.Ranked → h'.Ranked) := by
  constructor
  · intro h o bits hg ho
    obtain ⟨n, r, c, h', hleads, hc, hsplit, hfind⟩ := rootAndClass_eq hg ho
    exact ⟨r, c, h', ⟨n, hfind⟩, ⟨n, hleads⟩, hc, fun _ _ => hsplit.endsAt_iff hg, hsplit.unchanged⟩
  · intro h h' hg hrun
    have hg' : h'.Grounded := Run.grounded hrun hg
    exact ⟨hg', hg'.not_cycle, Run.ranked hrun hg⟩

/-- The object at 16 is linked to that at 32, and this one to the `PENDING` root at 48. -/
def chain : ObjectHeap := fun o =>
  if o.1 = 16 then some (Header.ofAddress ⟨32, rfl⟩ .sccPtr)
  else if o.1 = 32 then some (Header.ofAddress ⟨48, rfl⟩ .sccPtr)
  else if o.1 = 48 then some (Header.ofCount 2 .pending)
  else none

/-- The links of `chain` end at its root. -/
theorem chain_leads : Leads chain.getScc 0 ⟨48, rfl⟩ ⟨48, rfl⟩ ∧
    Leads chain.getScc 1 ⟨32, rfl⟩ ⟨48, rfl⟩ ∧ Leads chain.getScc 2 ⟨16, rfl⟩ ⟨48, rfl⟩ := by
  have h₀ : Leads chain.getScc 0 ⟨48, rfl⟩ ⟨48, rfl⟩ := .root (by decide)
  have h₁ : Leads chain.getScc 1 ⟨32, rfl⟩ ⟨48, rfl⟩ := .step (by decide) h₀
  exact ⟨h₀, h₁, .step (by decide) h₁⟩

/-- The links of `chain` end. -/
theorem chain_grounded : chain.Grounded := by
  obtain ⟨h₀, h₁, h₂⟩ := chain_leads
  have hclass : chain.getClass ⟨48, rfl⟩ = some .pending := by decide
  refine grounded_of_isSccRoot ?_
  rintro ⟨o, ho⟩ bits hbits
  unfold chain at hbits
  dsimp only at hbits
  split_ifs at hbits with h16 h32 h48
  · subst h16
    exact ⟨_, _, ⟨2, h₂⟩, hclass, rfl⟩
  · subst h32
    exact ⟨_, _, ⟨1, h₁⟩, hclass, rfl⟩
  · subst h48
    exact ⟨_, _, ⟨0, h₀⟩, hclass, rfl⟩

/-- The rank in `chain` bounds its links. -/
theorem chain_ranked : chain.Ranked := by
  obtain ⟨h₀, h₁, h₂⟩ := chain_leads
  intro n o r k hleads hk
  have hr : r = ⟨48, rfl⟩ ∧ k = 2 := by
    obtain ⟨r, hr⟩ := r
    have hrank : chain.pendingRank ⟨48, rfl⟩ = some 2 := by decide
    by_cases h48 : r = 48
    · subst h48
      exact ⟨rfl, Option.some.inj (hk.symm.trans hrank)⟩
    · have hnone := getClass_of_pendingRank hk
      unfold getClass chain at hnone
      dsimp only at hnone
      rw [if_neg h48] at hnone
      split_ifs at hnone
      · simp at hnone
      · simp at hnone
      · simp at hnone
  obtain ⟨rfl, rfl⟩ := hr
  obtain ⟨o, ho⟩ := o
  by_cases h16 : o = 16
  · subst h16
    exact (hleads.unique h₂).1.le
  · by_cases h32 : o = 32
    · subst h32
      exact (hleads.unique h₁).1.le.trans (by decide)
    · have hnone : chain.getScc ⟨o, ho⟩ = none := by
        refine getScc_eq_none fun hc => ?_
        unfold getClass chain at hc
        dsimp only at hc
        rw [if_neg h16, if_neg h32] at hc
        split_ifs at hc
        · simp at hc
        · simp at hc
      exact (hleads.of_root hnone).1.le.trans (Nat.zero_le 2)

/-- `root_and_class` of the first object of `chain` comes to its end, and the rank still bounds the
links afterwards. -/
theorem rootAndClass_runs_chain :
    ∃ r c h' n, rootAndClass n chain ⟨16, rfl⟩ = some (r, c, h') ∧ chain.EndsAt ⟨16, rfl⟩ r ∧
      h'.Grounded ∧ h'.Ranked := by
  obtain ⟨r, c, h', ⟨n, hfind⟩, hends, -⟩ :=
    rootAndClass_runs.1 chain ⟨16, rfl⟩ _ chain_grounded rfl
  have hrun : Run chain h' := .single (.find (hfind n le_rfl))
  obtain ⟨hg, -, hk⟩ := rootAndClass_runs.2 chain h' chain_grounded hrun
  exact ⟨r, c, h', n, hfind n le_rfl, hends, hg, hk chain_ranked⟩

end ObjectHeap

end VeronaRt
