import VeronaFs.Runtime.RegionArenaGrow

/-!
# Swapping the root of arena regions

`RegionArena::swap_root_internal`.  A new root that is large becomes the last object of the ring: if it
is not there yet, then the ring is rotated.  A small one stays in its arena, and so does the old one.
-/

namespace VeronaRt.RegionArena.Heap

open Foundation

variable {w w' w₁ : Heap} {self root nroot x last : Addr} {m m' : Metadata}
  {objs large l₁ l₂ : List Addr} {arenas : List ArenaObjects} {q : Option Addr} {fuel : ℕ}

/-- What a new root changes: headers of the region. -/
structure Swapped (w : Heap) (reg : Addr) (objs : List Addr) (w' : Heap) : Prop where
  /-- The headers of other objects are the same. -/
  same : ∀ x, x ≠ reg → x ∉ objs → w.Same w' x
  /-- The kinds of objects are the same. -/
  isTrivial_eq : w'.isTrivial = w.isTrivial
  /-- The sizes of objects are the same. -/
  size_eq : w'.size = w.size
  /-- The arenas are the same. -/
  arenas_eq : w'.arenas = w.arenas
  /-- The regions are the same. -/
  regions_eq : w'.regions = w.regions

/-- Two changes of a region. -/
theorem Swapped.trans (h : w.Swapped self objs w₁) (h' : w₁.Swapped self objs w') :
    w.Swapped self objs w' :=
  ⟨fun x hx hx' => (h.same x hx hx').trans (h'.same x hx hx'), h'.isTrivial_eq.trans h.isTrivial_eq,
    h'.size_eq.trans h.size_eq, h'.arenas_eq.trans h.arenas_eq, h'.regions_eq.trans h.regions_eq⟩

/-- A link in the header of an object of the region. -/
theorem Swapped.initNext (hx : x = self ∨ x ∈ objs) (q : Option Addr) :
    w.Swapped self objs (w.initNext x q) := by
  refine ⟨fun y hy hy' => .initNext (fun heq => ?_) q, rfl, rfl, rfl, rfl⟩
  exact hx.elim (fun hx => hy (heq.trans hx)) fun hx => hy' (heq ▸ hx)

/-- The header of an entry point. -/
theorem Swapped.initIso (hx : x ∈ objs) : w.Swapped self objs (w.initIso x self) := by
  refine ⟨fun y _ hy => .initIso (fun heq => ?_) self, rfl, rfl, rfl, rfl⟩
  exact hy (heq ▸ hx)

/-- The parts of the region after a change of headers. -/
theorem Swapped.parts (hs : w.Swapped self objs w') (h : w.Parts self m objs arenas large)
    {large' : List Addr} (hperm : large'.Perm large) (hfirst : m'.firstArena = m.firstArena)
    (hlast : m'.lastArena = m.lastArena) (hlarge : m'.lastLarge = large'.getLast?)
    (hcls : w'.cls self = .unmarked) (hpath : Path w'.next large' (w'.next self) (some self)) :
    w'.Parts self m' objs arenas large' := by
  have hlist : w'.ArenaList m arenas := h.arenaList.frame (fun a _ => by rw [hs.arenas_eq])
    fun _ _ x _ => ⟨by rw [hs.isTrivial_eq], by rw [hs.size_eq]⟩
  refine ⟨⟨hlist.nodup, hfirst ▸ hlist.path, hlast.trans hlist.last, hlist.holds⟩, h.ne_nil,
    ⟨?_, fun x hx => ?_, fun x hx => ?_, hpath, hlarge, hcls⟩, h.perm.trans ?_⟩
  · exact (hperm.cons self).nodup_iff.mpr h.ring.nodup
  · exact h.ring.eq_block x ((hperm.cons self).mem_iff.mp hx)
  · rw [hs.size_eq]
    exact h.ring.size_lt x (hperm.mem_iff.mp hx)
  · exact hperm.symm.append_left _

/-- The new root is in an arena, or it is the last object of the ring already. -/
theorem Parts.replaceRoot (h : w.Parts self m objs arenas large)
    (hr : w.Rooted self root objs large) (hmem : nroot ∈ objs) (hne : root ≠ nroot)
    (hq : root ∈ large → q = w.next root) (hlast : nroot ∈ large → large.getLast? = some nroot) :
    ((w.initNext root q).initIso nroot self).Parts self m objs arenas large ∧
      ((w.initNext root q).initIso nroot self).Rooted self nroot objs large ∧
      w.Swapped self objs ((w.initNext root q).initIso nroot self) := by
  let w' := (w.initNext root q).initIso nroot self
  have hs : w.Swapped self objs w' := (Swapped.initNext (.inr hr.mem) q).trans (.initIso hmem)
  have hself {x : Addr} (hx : x ∈ objs) : self ≠ x := fun heq => h.self_notMem (heq ▸ hx)
  have hsame {x : Addr} (hx : x ≠ root) (hx' : x ≠ nroot) : w.Same w' x :=
    (Same.initNext hx q).trans (.initIso hx' self)
  have hnext : ∀ x ∈ self :: large, w'.next x = w.next x := by
    intro x hx
    by_cases hx_new : x = nroot
    · subst hx_new
      have hx' : x ∈ large := (List.mem_cons.mp hx).resolve_left (Ne.symm (hself hmem))
      rw [h.ring.next_last (hlast hx')]
      exact Function.update_self ..
    · refine (Function.update_of_ne hx_new ..).trans ?_
      by_cases hx_old : x = root
      · subst hx_old
        have hx' : x ∈ large := (List.mem_cons.mp hx).resolve_left (Ne.symm (hself hr.mem))
        exact (Function.update_self ..).trans (hq hx')
      · exact Function.update_of_ne hx_old ..
  have hcls : w'.cls self = .unmarked := (hsame (hself hr.mem) (hself hmem)).cls.trans h.ring.cls_self
  refine ⟨hs.parts h (List.Perm.refl _) rfl rfl h.ring.last hcls ?_, ⟨hmem, Function.update_self ..,
    Function.update_self .., fun x hx hx_new => ?_, hlast⟩, hs⟩
  · rw [hnext self List.mem_cons_self]
    exact h.ring.path.congr fun x hx => hnext x (List.mem_cons_of_mem self hx)
  · refine (Function.update_of_ne hx_new ..).trans ?_
    by_cases hx_old : x = root
    · rw [hx_old]
      exact Function.update_self ..
    · exact (Function.update_of_ne hx_old ..).trans (hr.cls_eq x hx hx_old)

/-- The new root is in the ring, and it is not the last object yet. -/
theorem Parts.rotateRing (h : w.Parts self m objs arenas large) (hcls : ∀ x ∈ objs, x ≠ last →
    w.cls x = .unmarked) (hmem : nroot ∈ large) (hlast : large.getLast? = some last)
    (hne : last ≠ nroot) :
    ∃ w' m' large', w.rotateRing self m nroot = some (w', m') ∧
      (w'.initIso nroot self).Parts self m' objs arenas large' ∧
      (w'.initIso nroot self).Rooted self nroot objs large' ∧
      w.Swapped self objs (w'.initIso nroot self) := by
  obtain ⟨l, rfl⟩ := List.getLast?_eq_some_iff.mp hlast
  have hl : nroot ∈ l := (List.mem_append.mp hmem).resolve_right fun hx =>
    hne (List.mem_singleton.mp hx).symm
  obtain ⟨l₁, l₂, rfl⟩ := List.append_of_mem hl
  have hsplit : l₁ ++ nroot :: l₂ ++ [last] = l₁ ++ [nroot] ++ (l₂ ++ [last]) := by simp
  have hperm : (l₂ ++ [last] ++ (l₁ ++ [nroot])).Perm (l₁ ++ nroot :: l₂ ++ [last]) := by
    rw [hsplit]
    exact List.perm_append_comm
  have hlast' : (l₂ ++ [last] ++ (l₁ ++ [nroot])).getLast? = some nroot := by
    rw [← List.append_assoc, List.getLast?_concat]
  have hobjs {x : Addr} (hx : x ∈ l₁ ++ nroot :: l₂ ++ [last]) : x ∈ objs := h.mem_iff.mpr (.inr hx)
  have hmem_last := hobjs (List.mem_of_getLast? hlast)
  have hself {x : Addr} (hx : x ∈ objs) : self ≠ x := fun heq => h.self_notMem (heq ▸ hx)
  have hnodup := (List.nodup_cons.mp h.ring.nodup).2
  let w₂ := (w.initNext last (w.next self)).initNext self (w.next nroot)
  have hcls₁ : (w.initNext last (w.next self)).cls self = .unmarked :=
    (Function.update_of_ne (hself hmem_last) ..).trans h.ring.cls_self
  have hs : w.Swapped self objs (w₂.initIso nroot self) :=
    ((Swapped.initNext (.inr hmem_last) _).trans (.initNext (.inl rfl) _)).trans (.initIso (hobjs hmem))
  have hsame {x : Addr} (hx : x ∈ objs) (hx_last : x ≠ last) (hx_new : x ≠ nroot) :
      w.Same (w₂.initIso nroot self) x :=
    ((Same.initNext hx_last _).trans (.initNext (Ne.symm (hself hx)) _)).trans (.initIso hx_new self)
  have hcls_self : (w₂.initIso nroot self).cls self = .unmarked :=
    (Function.update_of_ne (hself (hobjs hmem)) ..).trans (Function.update_self ..)
  have hpath : Path (w₂.initIso nroot self).next (l₂ ++ [last] ++ (l₁ ++ [nroot]))
      ((w₂.initIso nroot self).next self) (some self) := by
    have hring := h.ring.path
    have hnodup' := hnodup
    rw [hsplit] at hring hnodup'
    refine hring.rotate hnodup' ?_ ?_ (Function.update_self ..) fun x hx => ?_
    · exact (Function.update_of_ne hne ..).trans
        ((Function.update_of_ne (Ne.symm (hself hmem_last)) ..).trans (Function.update_self ..))
    · exact (Function.update_of_ne (hself (hobjs hmem)) ..).trans (Function.update_self ..)
    · obtain ⟨hfront, -, hdisj⟩ := List.nodup_append'.mp hnodup
      have hx' : x ∈ l₁ ++ nroot :: l₂ := by
        simp only [List.mem_append, List.mem_cons] at hx ⊢
        tauto
      refine (hsame (hobjs (List.mem_append_left _ hx')) ?_ ?_).next
      · exact fun heq => hdisj hx' (List.mem_singleton.mpr heq)
      · rintro rfl
        have hnot := (List.nodup_middle.mp hfront)
        exact (List.nodup_cons.mp hnot).1 hx
  refine ⟨w₂, { m with lastLarge := some nroot }, l₂ ++ [last] ++ (l₁ ++ [nroot]), ?_,
    hs.parts h hperm rfl rfl hlast'.symm hcls_self hpath, ⟨hobjs hmem, Function.update_self ..,
    Function.update_self .., fun x hx hx_new => ?_, fun _ => hlast'⟩, hs⟩
  · have hcls_new := hcls nroot (hobjs hmem) (Ne.symm hne)
    rw [Heap.rotateRing, getNext, if_pos h.ring.cls_self, Option.bind_some, getNext, if_pos hcls_new,
      Option.bind_some, h.ring.last, hlast, Option.bind_some, setNext, if_pos hcls₁, Option.map_some]
  · refine (Function.update_of_ne hx_new ..).trans
      ((Function.update_of_ne (Ne.symm (hself hx)) ..).trans ?_)
    by_cases hx_last : x = last
    · rw [hx_last]
      exact Function.update_self ..
    · exact (Function.update_of_ne hx_last ..).trans (hcls x hx hx_last)

/-- The entry point of a region is swapped. -/
theorem Parts.swapRootInternal (h : w.Parts self m objs arenas large)
    (hr : w.Rooted self root objs large) (hmem : nroot ∈ objs) (hne : root ≠ nroot)
    (hfuel : objs.length < fuel) :
    ∃ w' m' large', w.swapRootInternal self m fuel root nroot = some (w', m') ∧
      w'.Parts self m' objs arenas large' ∧ w'.Rooted self nroot objs large' ∧
      w.Swapped self objs w' := by
  have hlive : ∀ x ∈ large, w.cls x = .unmarked ∨ w.cls x = .iso :=
    fun x hx => hr.live (h.mem_iff.mpr (.inr hx))
  have hobjects := h.objects_eq hlive .allObjects hfuel
  have hfound : nroot ∈ (arenas.flatMap ArenaObjects.objects ++ large).filter
      (w.wanted .allObjects) := List.mem_filter.mpr ⟨h.perm.mem_iff.mp hmem, rfl⟩
  rw [Heap.swapRootInternal, hobjects, Option.bind_some, if_neg (not_not.mpr hfound)]
  have hold := h.mem_large_iff hr.mem
  have hnew := h.mem_large_iff hmem
  -- the ring closes in the end
  have hclosed {w' : Heap} {m' : Metadata} {large' : List Addr} (h' : w'.Parts self m' objs arenas large')
      (hr' : w'.Rooted self nroot objs large') : w'.lastLargeClosed self m' :=
    h'.ring.closed fun x hx => hr'.live (h'.mem_iff.mpr (.inr hx))
  by_cases hrotate : nroot ∈ large ∧ large.getLast? ≠ some nroot
  · obtain ⟨hmem_large, hnot_last⟩ := hrotate
    obtain ⟨last, hlast⟩ : ∃ last, large.getLast? = some last :=
      ⟨_, List.getLast?_eq_some_getLast (List.ne_nil_of_mem hmem_large)⟩
    have hne_last : last ≠ nroot := fun heq => hnot_last (heq ▸ hlast)
    obtain ⟨w₁, hleave, hparts, hcls, hs⟩ : ∃ w₁, w.leaveRoot self m root nroot = some w₁ ∧
        w₁.Parts self m objs arenas large ∧ (∀ x ∈ objs, x ≠ last → w₁.cls x = .unmarked) ∧
        w.Swapped self objs w₁ := by
      by_cases hroot : root ∈ large
      · have hroot_last : last = root := Option.some.inj (hlast.symm.trans (hr.last hroot))
        refine ⟨w, ?_, h, fun x hx hx' => hr.cls_eq x hx (hroot_last ▸ hx'), ?_⟩
        · have hnot : ¬ alignUp (w.size root) ≤ Arena.size := Nat.not_le_of_lt (hold.mp hroot)
          have hnot' : ¬ alignUp (w.size nroot) ≤ Arena.size := Nat.not_le_of_lt (hnew.mp hmem_large)
          have hlarge : m.lastLarge = some root := h.ring.last.trans (hr.last hroot)
          rw [leaveRoot, if_neg hnot, if_neg (not_not.mpr hlarge.symm), if_neg hnot']
        · exact ⟨fun x _ _ => Same.refl w x, rfl, rfl, rfl, rfl⟩
      · have hs : w.Swapped self objs (w.initNext root none) := .initNext (.inr hr.mem) none
        have hsame {x : Addr} (hx : x ∈ self :: large) : w.Same (w.initNext root none) x := by
          refine .initNext (fun heq => ?_) none
          rcases List.mem_cons.mp hx with hx | hx
          · exact h.self_notMem (hx ▸ heq ▸ hr.mem)
          · exact hroot (heq ▸ hx)
        have hnext : ∀ x ∈ self :: large, (w.initNext root none).next x = w.next x :=
          fun x hx => (hsame hx).next
        refine ⟨_, if_pos (Nat.le_of_not_lt fun hlt => hroot (hold.mpr hlt)),
          h.congr (fun _ _ => rfl) (fun _ _ => ⟨rfl, rfl⟩) (hsame List.mem_cons_self).cls hnext,
          fun x hx _ => ?_, hs⟩
        by_cases heq : x = root
        · rw [heq]
          exact Function.update_self ..
        · exact (Function.update_of_ne heq ..).trans (hr.cls_eq x hx heq)
    obtain ⟨w₂, m₂, large', hring, hparts', hr', hs'⟩ :=
      hparts.rotateRing hcls hmem_large hlast hne_last
    have hcond : some nroot ≠ m.lastLarge ∧ Arena.size < alignUp (w₁.size nroot) := by
      rw [h.ring.last, hs.size_eq]
      exact ⟨Ne.symm hnot_last, hnew.mp hmem_large⟩
    refine ⟨_, m₂, large', ?_, hparts', hr', hs.trans hs'⟩
    rw [hleave, Option.bind_some, if_pos hcond, hring, Option.bind_some]
    exact if_pos (hclosed hparts' hr')
  · rw [not_and, not_not] at hrotate
    obtain ⟨q, hleave, hq⟩ : ∃ q, w.leaveRoot self m root nroot = some (w.initNext root q) ∧
        (root ∈ large → q = w.next root) := by
      by_cases hroot : root ∈ large
      · have hlast := hr.last hroot
        have hnew_small : nroot ∉ large := fun hx =>
          hne (Option.some.inj (hlast.symm.trans (hrotate hx)))
        have hnot : ¬ alignUp (w.size root) ≤ Arena.size := Nat.not_le_of_lt (hold.mp hroot)
        have hsmall : alignUp (w.size nroot) ≤ Arena.size :=
          Nat.le_of_not_lt fun hlt => hnew_small (hnew.mpr hlt)
        refine ⟨some self, ?_, fun _ => (h.ring.next_last hlast).symm⟩
        rw [leaveRoot, if_neg hnot, if_neg (not_not.mpr (h.ring.last.trans hlast).symm), if_pos hsmall]
      · exact ⟨none, if_pos (Nat.le_of_not_lt fun hlt => hroot (hold.mpr hlt)),
          fun hx => absurd hx hroot⟩
    obtain ⟨hparts', hr', hs⟩ := h.replaceRoot hr hmem hne hq hrotate
    have hcond : ¬ (some nroot ≠ m.lastLarge ∧
        Arena.size < alignUp ((w.initNext root q).size nroot)) := by
      rintro ⟨hnot_last, hlt⟩
      exact hnot_last (h.ring.last.trans (hrotate (hnew.mpr hlt))).symm
    refine ⟨_, m, large, ?_, hparts', hr', hs⟩
    rw [hleave, Option.bind_some, if_neg hcond, Option.bind_some]
    exact if_pos (hclosed hparts' hr')

end VeronaRt.RegionArena.Heap
