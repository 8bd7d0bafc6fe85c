import VeronaFs.Runtime.HeapComponents

/-!
# The collapse of the path

`Frame` says what a step of a search leaves: the objects outside some set keep their ends and, if they
have no link, their words.

`collapseLoop_spec` is the specification of the loop in `Freeze::apply` that collapses the path: the
components above the one that is found again become one component with it.
-/

namespace VeronaRt

open Foundation

namespace ObjectHeap

variable {h h' h'' : ObjectHeap} {o p q r s u : ObjAddr} {c : RegionMD} {fuel n rank : ℕ}
  {C E S S' : List ObjAddr}

/-- A step leaves the objects outside `S`. -/
structure Frame (h h' : ObjectHeap) (S : List ObjAddr) : Prop where
  /-- The ends of their links. -/
  ends : ∀ o ∉ S, ∀ r, h.EndsAt o r → h'.EndsAt o r
  /-- The words without a link. -/
  word : ∀ o ∉ S, h.getClass o ≠ some .sccPtr → h' o = h o
  /-- The links. -/
  linked : ∀ o ∉ S, h.getClass o = some .sccPtr → h'.getClass o = some .sccPtr

/-- Splitting paths leaves all objects. -/
theorem Splits.frame (hs : Splits h h') (hg : h.Grounded) (S : List ObjAddr) : Frame h h' S where
  ends _ _ _ ho := (hs.endsAt_iff hg).mpr ho
  word o _ := hs.unchanged o
  linked o _ := hs.linked o

namespace Frame

/-- The classes of the objects stay. -/
theorem getClass_eq (hf : Frame h h' S) (ho : o ∉ S) : h'.getClass o = h.getClass o := by
  by_cases hc : h.getClass o = some .sccPtr
  · rw [hc, hf.linked o ho hc]
  · exact (reads_eq (hf.word o ho hc)).1

/-- A step that leaves more objects. -/
theorem mono (hf : Frame h h' S) (hsub : ∀ o ∈ S, o ∈ S') : Frame h h' S' where
  ends o ho := hf.ends o fun hS => ho (hsub o hS)
  word o ho := hf.word o fun hS => ho (hsub o hS)
  linked o ho := hf.linked o fun hS => ho (hsub o hS)

/-- Two steps. -/
theorem trans (hf : Frame h h' S) (hf' : Frame h' h'' S) : Frame h h'' S where
  ends o ho r hr := hf'.ends o ho r (hf.ends o ho r hr)
  word o ho hc := by
    rw [hf'.word o ho (by rwa [hf.getClass_eq ho]), hf.word o ho hc]
  linked o ho hc := hf'.linked o ho (hf.linked o ho hc)

end Frame

/-- After a union the objects of both components end at the new root, and the rest stays. -/
theorem unite_spec {k : ℕ} (hg : h.Grounded) (hb : h.Balanced) (hne : r ≠ p)
    (hrank : h.pendingRank r = some rank) (hp : h.pendingRank p = some k) :
    ∃ h' r' rank', h.unite r rank p = some (h', r', rank') ∧ h'.Grounded ∧ h'.Balanced ∧
      h'.pendingRank r' = some rank' ∧ (∀ o, h'.EndsAt o r' ↔ h.EndsAt o p ∨ h.EndsAt o r) ∧
      (∀ s, s ≠ p → s ≠ r → h' s = h s ∧ ∀ o, h'.EndsAt o s ↔ h.EndsAt o s) := by
  obtain ⟨⟨h', r', rank'⟩, hunite⟩ := unite_total hb hrank hp
  have hrun : Run h h' := .single (.unite hne hrank hunite)
  refine ⟨h', r', rank', hunite, Run.grounded hrun hg, Run.balanced hrun hg hb,
    unite_pendingRank hne hrank hunite, ?_⟩
  obtain ⟨a, rfl, ha⟩ | ⟨b, rfl, ha⟩ := unite_attached hne hrank hunite
  · refine ⟨fun o => ?_, fun s hsp hsr => ⟨ha.other s hsp hsr, fun o => ?_⟩⟩
    · exact (ha.endsAt_iff hg).trans (by simp [hne])
    · exact (ha.endsAt_iff hg).trans (by simp [hsp, hsr])
  · refine ⟨fun o => ?_, fun s hsp hsr => ⟨ha.other s hsr hsp, fun o => ?_⟩⟩
    · exact (ha.endsAt_iff hg).trans (by simp [hne.symm, or_comm])
    · exact (ha.endsAt_iff hg).trans (by simp [hsp, hsr])

/-- The loop unites the components of the path down to that of the root in hand. -/
theorem collapseLoop_spec {U : List (List ObjAddr)} {heads : List ObjAddr} (rest : List ObjAddr)
    (hg : h.Grounded) (hb : h.Balanced) (hrank : h.pendingRank r = some rank)
    (hC : ∀ o, h.EndsAt o r ↔ o ∈ C) (hq : q ∈ C) (hnodup : (U.flatten ++ C).Nodup)
    (hU : List.Forall₂ (fun u E => u ∈ E ∧ h.IsComponent E .pending) heads U)
    (hfuel : 2 ^ 64 ≤ fuel) :
    ∃ h' r', collapseLoop fuel h (heads ++ q :: rest) r rank = some (h', q :: rest) ∧
      h'.Grounded ∧ h'.Balanced ∧ h'.getClass r' = some .pending ∧
      (∀ o, h'.EndsAt o r' ↔ o ∈ U.flatten ++ C) ∧ Frame h h' (U.flatten ++ C) := by
  have hr : h.getClass r = some .pending := getClass_of_pendingRank hrank
  induction U generalizing h r rank C heads with
  | nil =>
    cases hU
    obtain ⟨h', hfind, hsplit⟩ := rootAndClass_of_endsAt hg ((hC q).mpr hq) hr hfuel
    refine ⟨h', r, ?_, hsplit.grounded hg, hsplit.balanced hg hb, by rw [hsplit.getClass_eq, hr],
      fun o => ?_, hsplit.frame hg _⟩
    · rw [List.nil_append, collapseLoop, hfind]
      simp
    · exact (hsplit.endsAt_iff hg).trans (by simp [hC])
  | cons E U ih =>
    obtain ⟨u, heads, ⟨huE, p, hp, hE⟩, hrest, rfl⟩ := List.forall₂_cons_right_iff.mp hU
    obtain ⟨h₁, hfind, hsplit⟩ := rootAndClass_of_endsAt hg ((hE u).mpr huE) hp hfuel
    have hg₁ := hsplit.grounded hg
    have hrp : r ≠ p := by
      rintro rfl
      have huC : u ∈ C := (hC u).mp ((hE u).mpr huE)
      simp only [List.flatten_cons, List.append_assoc] at hnodup
      exact (List.nodup_append'.mp hnodup).2.2 huE (List.mem_append_right _ huC)
    obtain ⟨k, hk⟩ := exists_pendingRank.mpr hp
    obtain ⟨h₂, r₂, rank₂, hunite, hg₂, hb₂, hrank₂, hends₂, hother₂⟩ :=
      unite_spec hg₁ (hsplit.balanced hg hb) hrp ((hsplit.pendingRank_eq r).trans hrank)
        (by rw [hsplit.pendingRank_eq, hk])
    have hC₂ : ∀ o, h₂.EndsAt o r₂ ↔ o ∈ E ++ C := by
      intro o
      rw [hends₂, hsplit.endsAt_iff hg, hsplit.endsAt_iff hg, hE, hC, List.mem_append]
    have hperm : (U.flatten ++ (E ++ C)).Perm ((E :: U).flatten ++ C) := by
      rw [List.flatten_cons, List.append_assoc]
      exact List.perm_append_comm_assoc ..
    have hnodup₂ : (U.flatten ++ (E ++ C)).Nodup := hperm.nodup_iff.mpr hnodup
    have houtside : ∀ s F, (∀ o, h.EndsAt o s ↔ o ∈ F) → h.getClass s = some .pending →
        F ∈ U → s ≠ p ∧ s ≠ r := by
      intro s F hF hs hmem
      have hsF : s ∈ F := (hF s).mp (endsAt_self hs (by decide))
      have hsU : s ∈ U.flatten := List.mem_flatten.mpr ⟨F, hmem, hsF⟩
      have hdisj := (List.nodup_append'.mp hnodup₂).2.2 hsU
      rw [List.mem_append] at hdisj
      refine ⟨?_, ?_⟩
      · rintro rfl
        exact hdisj (.inl ((hE s).mp (endsAt_self hs (by decide))))
      · rintro rfl
        exact hdisj (.inr ((hC s).mp (endsAt_self hs (by decide))))
    have hU₂ : List.Forall₂ (fun u E => u ∈ E ∧ h₂.IsComponent E .pending) heads U := by
      refine List.forall₂_iff_zip.mpr ⟨hrest.length_eq, fun {v F} hvF => ?_⟩
      obtain ⟨hvF', s, hs, hF⟩ := (List.forall₂_iff_zip.mp hrest).2 hvF
      obtain ⟨hsp, hsr⟩ := houtside s F hF hs (List.of_mem_zip hvF).2
      refine ⟨hvF', s, ?_, fun o => ?_⟩
      · rw [(reads_eq (hother₂ s hsp hsr).1).1, hsplit.getClass_eq, hs]
      · rw [(hother₂ s hsp hsr).2, hsplit.endsAt_iff hg, hF]
    obtain ⟨h', r', hloop, hg', hb', hr', hends', hframe'⟩ :=
      ih hg₂ hb₂ hrank₂ hC₂ (List.mem_append_right E hq) hnodup₂ hU₂ (getClass_of_pendingRank hrank₂)
    have hmem : ∀ o, o ∈ U.flatten ++ (E ++ C) ↔ o ∈ (E :: U).flatten ++ C := fun o => hperm.mem_iff
    refine ⟨h', r', ?_, hg', hb', hr', fun o => (hends' o).trans (hmem o), ?_⟩
    · rw [List.cons_append, collapseLoop, hfind]
      simp only [bind, Option.bind_some, if_neg hrp, if_true, hunite]
      exact hloop
    · have hframe₂ : Frame h₁ h₂ ((E :: U).flatten ++ C) := by
        have hpE : p ∈ E := (hE p).mp (endsAt_self hp (by decide))
        have hrC : r ∈ C := (hC r).mp (endsAt_self hr (by decide))
        have hnot : ∀ o ∉ (E :: U).flatten ++ C, o ∉ E ∧ o ∉ C := by
          intro o ho
          simp only [List.flatten_cons, List.mem_append, not_or] at ho
          exact ⟨ho.1.1, ho.2⟩
        have hword : ∀ o ∉ (E :: U).flatten ++ C, h₂ o = h₁ o := by
          intro o ho
          refine (hother₂ o ?_ ?_).1
          · rintro rfl
            exact (hnot o ho).1 hpE
          · rintro rfl
            exact (hnot o ho).2 hrC
        refine ⟨fun o ho s hs => ?_, fun o ho _ => hword o ho, fun o ho hc => ?_⟩
        · have hs' := (hsplit.endsAt_iff hg).mp hs
          refine ((hother₂ s ?_ ?_).2 o).mpr hs
          · rintro rfl
            exact (hnot o ho).1 ((hE o).mp hs')
          · rintro rfl
            exact (hnot o ho).2 ((hC o).mp hs')
        · rw [(reads_eq (hword o ho)).1, hc]
      exact ((hsplit.frame hg _).trans hframe₂).trans (hframe'.mono fun o => (hmem o).mp)

end ObjectHeap

end VeronaRt
