import Mathlib

/-!
# Pages of an ordered list

The keys of an ordered collection are handed out in pages, each of which goes on behind the last key that
was handed out, while keys come and go.  `Covers alive own` says that the keys `own` that were handed out
are in order and have every key of `alive` up to the last one.  A page that starts behind as many keys as
were handed out keeps this if as many keys are up to the last one (`Covers.page`).
-/

namespace Foundation.Pages

open Std

variable {α : Type*} [Ord α]

/-- The key is not behind the bound. -/
def upTo (bound : Option α) (a : α) : Bool := bound.any fun b => (compare a b).isLE

/-- The keys up to a bound. -/
def front (bound : Option α) (keys : List α) : List α := keys.filter (upTo bound)

/-- The keys are in order, and none is there twice. -/
def Ordered (keys : List α) : Prop := keys.Pairwise fun a b => compare a b = .lt

/-- The keys that were handed out are in order and have every key of `alive` up to the last one. -/
structure Covers (alive : Set α) (own : List α) : Prop where
  /-- They are in order. -/
  ordered : Ordered own
  /-- No key of `alive` was left out. -/
  mem_own : ∀ a ∈ alive, upTo own.getLast? a = true → a ∈ own

variable {alive alive' : Set α} {own keys new rest : List α} {bound : Option α} {a b : α}

/-- Every key is behind the missing bound. -/
@[simp] theorem upTo_none : upTo none a = false := rfl

/-- Nothing was handed out. -/
theorem Covers.nil : Covers alive [] := ⟨List.Pairwise.nil, fun a _ ha => absurd ha (by simp)⟩

/-- Keys go. -/
theorem Covers.mono (h : Covers alive own) (hsub : alive' ⊆ alive) : Covers alive' own :=
  ⟨h.ordered, fun a ha => h.mem_own a (hsub ha)⟩

variable [TransOrd α]

/-- A key before one that is not behind the bound is not behind it either. -/
theorem upTo_of_lt (hlt : compare a b = .lt) (h : upTo bound b = true) : upTo bound a = true := by
  cases bound with
  | none => cases h
  | some c => exact TransCmp.isLE_trans (by rw [hlt]; rfl) h

/-- Ordered keys are distinct. -/
theorem Ordered.nodup (h : Ordered keys) : keys.Nodup := by
  refine h.imp fun {a b} hlt heq => ?_
  have hself : compare b b = .eq := ReflCmp.compare_self
  rw [heq, hself] at hlt
  cases hlt

/-- The keys up to a bound come first. -/
theorem Ordered.take_front (h : Ordered keys) (bound : Option α) :
    keys.take (front bound keys).length = front bound keys := by
  induction keys with
  | nil => rfl
  | cons a keys ih =>
    obtain ⟨hlt, hkeys⟩ := List.pairwise_cons.mp h
    by_cases ha : upTo bound a = true
    · have hfront : front bound (a :: keys) = a :: front bound keys := List.filter_cons_of_pos ha
      rw [hfront, List.length_cons, List.take_succ_cons, ih hkeys]
    · have hfront : front bound (a :: keys) = [] := by
        refine List.filter_eq_nil_iff.mpr fun b hb hupTo => ?_
        rcases List.mem_cons.mp hb with rfl | hb
        · exact ha hupTo
        · exact ha (upTo_of_lt (hlt b hb) hupTo)
      rw [hfront, List.length_nil, List.take_zero]

/-- The keys behind those up to a bound are behind the bound. -/
theorem Ordered.mem_drop_front (h : Ordered keys) :
    a ∈ keys.drop (front bound keys).length ↔ a ∈ keys ∧ upTo bound a = false := by
  have hsplit := List.take_append_drop (front bound keys).length keys
  rw [h.take_front] at hsplit
  have hnodup := h.nodup
  rw [← hsplit] at hnodup
  have hdisj := (List.nodup_append'.mp hnodup).2.2
  have hmem : a ∈ keys ↔ a ∈ front bound keys ∨ a ∈ keys.drop (front bound keys).length := by
    conv_lhs => rw [← hsplit]
    exact List.mem_append
  constructor
  · intro ha
    have hin : a ∈ keys := hmem.mpr (Or.inr ha)
    refine ⟨hin, Bool.eq_false_iff.mpr fun hupTo => ?_⟩
    exact hdisj (List.mem_filter.mpr ⟨hin, hupTo⟩) ha
  · rintro ⟨ha, hbehind⟩
    refine (hmem.mp ha).resolve_left fun hfront => ?_
    rw [(List.mem_filter.mp hfront).2] at hbehind
    cases hbehind

/-- The last key is not before another one. -/
theorem Ordered.upTo_getLast? (h : Ordered own) (ha : a ∈ own) : upTo own.getLast? a = true := by
  rcases List.eq_nil_or_concat own with rfl | ⟨own, b, rfl⟩
  · exact absurd ha List.not_mem_nil
  rw [List.concat_eq_append] at h ha ⊢
  have hlt := (List.pairwise_append.mp h).2.2
  rw [List.getLast?_concat]
  rcases List.mem_append.mp ha with ha | ha
  · have hle : (compare a b).isLE := by
      rw [hlt a ha b (List.mem_singleton_self b)]
      rfl
    exact hle
  · obtain rfl := List.mem_singleton.mp ha
    simp [upTo]

/-- A page is handed out.  It is behind the last key that was handed out, because as many keys are up to
this one as it skips. -/
theorem Covers.page (h : Covers alive own) (hkeys : Ordered keys) (halive : ∀ a ∈ alive, a ∈ keys)
    (hcount : (front own.getLast? keys).length = own.length) (hpage : new <+: keys.drop own.length) :
    Covers alive (own ++ new) := by
  obtain ⟨rest, hrest⟩ := hpage
  rw [← hcount] at hrest
  have hbehind {a : α} (ha : a ∈ new ++ rest) : a ∈ keys ∧ upTo own.getLast? a = false := by
    rw [hrest] at ha
    exact hkeys.mem_drop_front.mp ha
  have hordered : Ordered (new ++ rest) := by
    rw [hrest]
    exact hkeys.sublist (List.drop_sublist ..)
  obtain ⟨hpage, -, hlt⟩ := List.pairwise_append.mp hordered
  have happend : Ordered (own ++ new) := by
    refine List.pairwise_append.mpr ⟨h.ordered, hpage, fun a ha b hb => ?_⟩
    by_contra hnlt
    have hle : upTo own.getLast? b = true := by
      have hupTo := h.ordered.upTo_getLast? ha
      cases hlast : own.getLast? with
      | none =>
        rw [hlast] at hupTo
        cases hupTo
      | some c =>
        rw [hlast] at hupTo
        have hba : (compare b a).isLE := by
          have hswap : compare b a = (compare a b).swap := OrientedCmp.eq_swap
          rw [hswap]
          cases hab : compare a b with
          | lt => exact absurd hab hnlt
          | eq => rfl
          | gt => rfl
        exact TransCmp.isLE_trans hba hupTo
    rw [(hbehind (List.mem_append_left rest hb)).2] at hle
    cases hle
  refine ⟨happend, fun a ha hupTo => ?_⟩
  by_cases hown : upTo own.getLast? a = true
  · exact List.mem_append_left new (h.mem_own a ha hown)
  have hmem : a ∈ new ++ rest := by
    rw [hrest]
    exact hkeys.mem_drop_front.mpr ⟨halive a ha, Bool.eq_false_iff.mpr hown⟩
  rcases List.mem_append.mp hmem with hnew | hafter
  · exact List.mem_append_right own hnew
  -- a key behind the page is behind its last key
  exfalso
  rcases List.eq_nil_or_concat new with rfl | ⟨new, b, rfl⟩
  · rw [List.append_nil] at hupTo
    exact hown hupTo
  · rw [List.concat_eq_append, ← List.append_assoc, List.getLast?_concat] at hupTo
    have hba := hlt b (by simp) a hafter
    have hab : compare a b = .gt := OrientedCmp.gt_of_lt hba
    simp [upTo, hab] at hupTo

/-- Nothing is left to be handed out. -/
theorem Covers.all_mem (h : Covers alive own) (hkeys : Ordered keys) (halive : ∀ a ∈ alive, a ∈ keys)
    (hcount : (front own.getLast? keys).length = own.length) (hdrop : keys.drop own.length = []) :
    ∀ a ∈ alive, a ∈ own := by
  intro a ha
  refine h.mem_own a ha ?_
  by_contra hbehind
  have hmem := hkeys.mem_drop_front.mpr ⟨halive a ha, Bool.eq_false_iff.mpr hbehind⟩
  rw [hcount, hdrop] at hmem
  exact List.not_mem_nil hmem

end Foundation.Pages
