import Mathlib.Data.Nat.ModEq
import Mathlib.Logic.Function.Basic

/-!
# A shared clock with members that lag by one

A global counter modulo `N` and members that hold a copy of it.  A member that is not ejected and not
rejoining holds the counter or the value before it: the counter is only advanced by a member that has
found every other member at its own value or ejected.  A rejoining member publishes a value that may be
stale and then reads the counter again.  The invariant numbers the rounds of the counter without the
modulus.
-/

namespace Foundation

/-! ## Members and steps -/

/-- The value after `e`. -/
def incMod (N e : ℕ) : ℕ := (e + 1) % N

/-- What a member is doing. -/
inductive Role (ι : Type*)
  /-- Nothing that concerns the clock. -/
  | idle
  /-- Rejoining after an ejection at `old`: about to read the counter, with `guessed` published. -/
  | reload (old guessed : ℕ)
  /-- Rejoining: about to publish the counter `new` that was read. -/
  | store (old guessed new : ℕ)
  /-- About to publish the counter `new`, which is ahead. -/
  | refresh (new : ℕ)
  /-- About to advance the counter from `e`, with the members `todo` still to be looked at. -/
  | scan (e : ℕ) (todo : List ι)

/-- The member publishes values that need not be near the counter. -/
def Role.Rejoining {ι : Type*} : Role ι → Prop
  | .reload _ _ => True
  | .store _ _ _ => True
  | _ => False

@[simp, grind =] theorem Role.rejoining_idle {ι : Type*} :
    (Role.idle : Role ι).Rejoining ↔ False := Iff.rfl

@[simp, grind =] theorem Role.rejoining_reload {ι : Type*} (old g : ℕ) :
    (Role.reload old g : Role ι).Rejoining ↔ True := Iff.rfl

@[simp, grind =] theorem Role.rejoining_store {ι : Type*} (old g v : ℕ) :
    (Role.store old g v : Role ι).Rejoining ↔ True := Iff.rfl

@[simp, grind =] theorem Role.rejoining_refresh {ι : Type*} (v : ℕ) :
    (Role.refresh v : Role ι).Rejoining ↔ False := Iff.rfl

@[simp, grind =] theorem Role.rejoining_scan {ι : Type*} (e : ℕ) (todo : List ι) :
    (Role.scan e todo).Rejoining ↔ False := Iff.rfl

/-- The member is about to publish the counter. -/
def Role.Publishes {ι : Type*} : Role ι → Prop
  | .store _ _ _ => True
  | .refresh _ => True
  | _ => False

/-- A member of the clock. -/
structure Member (ι : Type*) where
  /-- The others need not look at its value. -/
  ejected : Bool
  /-- Its copy of the counter. -/
  number : ℕ
  /-- What it is doing. -/
  role : Role ι

/-- The counter and its members. -/
structure Clock (ι : Type*) where
  /-- The counter. -/
  global : ℕ
  /-- The members. -/
  member : ι → Member ι

namespace Clock

variable {ι : Type*} [DecidableEq ι]

/-- The member `i` changes. -/
def set (a : Clock ι) (i : ι) (m : Member ι) : Clock ι :=
  { a with member := Function.update a.member i m }

@[simp, grind =] theorem global_set (a : Clock ι) (i : ι) (m : Member ι) :
    (a.set i m).global = a.global := rfl

@[simp, grind =] theorem member_set (a : Clock ι) (i j : ι) (m : Member ι) :
    (a.set i m).member j = if j = i then m else a.member j :=
  Function.update_apply ..

/-- What a member does. -/
inductive Step (N : ℕ) : Clock ι → Clock ι → Prop
  /-- An ejected member publishes some value `w` to hold the others up. -/
  | publish {a : Clock ι} {i : ι} {old : ℕ} (h : a.member i = ⟨true, old, .idle⟩) (w : ℕ) :
      Step N a (a.set i ⟨false, w, .reload old w⟩)
  /-- A rejoining member reads the counter. -/
  | reload {a : Clock ι} {i : ι} {m old g : ℕ} (h : a.member i = ⟨false, m, .reload old g⟩) :
      Step N a (a.set i ⟨false, m, .store old g a.global⟩)
  /-- The value published before is ahead of the one read: it is read again. -/
  | retry {a : Clock ι} {i : ι} {m old g v : ℕ} (h : a.member i = ⟨false, m, .store old g v⟩)
      (hg : g = incMod N v) : Step N a (a.set i ⟨false, v, .reload old v⟩)
  /-- A rejoining member publishes the counter that it read. -/
  | rejoin {a : Clock ι} {i : ι} {m old g v : ℕ} (h : a.member i = ⟨false, m, .store old g v⟩)
      (hg : g ≠ incMod N v) : Step N a (a.set i ⟨false, v, .idle⟩)
  /-- A member sees that the counter is ahead. -/
  | startRefresh {a : Clock ι} {i : ι} {m : ℕ} (h : a.member i = ⟨false, m, .idle⟩)
      (hm : m ≠ a.global) : Step N a (a.set i ⟨false, m, .refresh a.global⟩)
  /-- It publishes the counter. -/
  | refresh {a : Clock ι} {i : ι} {m v : ℕ} (h : a.member i = ⟨false, m, .refresh v⟩) :
      Step N a (a.set i ⟨false, v, .idle⟩)
  /-- A member starts to look at all members that are not ejected and idle. -/
  | startScan {a : Clock ι} {i : ι} {m : ℕ} (h : a.member i = ⟨false, m, .idle⟩) (todo : List ι)
      (htodo : ∀ j, j ∉ todo → (a.member j).ejected = true ∧ (a.member j).role = .idle) :
      Step N a (a.set i ⟨false, m, .scan m todo⟩)
  /-- The member `o` is at the value or ejected. -/
  | pass {a : Clock ι} {i o : ι} {m e : ℕ} {rest : List ι}
      (h : a.member i = ⟨false, m, .scan e (o :: rest)⟩)
      (ho : (a.member o).ejected = true ∨ (a.member o).number = e) :
      Step N a (a.set i ⟨false, m, .scan e rest⟩)
  /-- The member `o` is idle and is ejected. -/
  | ejectPass {a : Clock ι} {i o : ι} {m e : ℕ} {rest : List ι}
      (h : a.member i = ⟨false, m, .scan e (o :: rest)⟩) (ho : (a.member o).role = .idle) :
      Step N a ((a.set o ⟨true, (a.member o).number, .idle⟩).set i ⟨false, m, .scan e rest⟩)
  /-- All members were passed: the counter is advanced. -/
  | advance {a : Clock ι} {i : ι} {m e : ℕ} (h : a.member i = ⟨false, m, .scan e []⟩) :
      Step N a { a.set i ⟨false, m, .idle⟩ with global := incMod N e }
  /-- A member was not passed. -/
  | stop {a : Clock ι} {i : ι} {m e : ℕ} {todo : List ι}
      (h : a.member i = ⟨false, m, .scan e todo⟩) : Step N a (a.set i ⟨false, m, .idle⟩)
  /-- An idle member is ejected. -/
  | eject {a : Clock ι} {i : ι} (h : (a.member i).role = .idle) :
      Step N a (a.set i ⟨true, (a.member i).number, .idle⟩)

end Clock

/-! ## Rounds -/

/-- What holds of one member while the counter is in round `n`: it has published round `r` and, while it
rejoins, has read round `p`. -/
structure Member.Fits {ι : Type*} (N n r p : ℕ) (m : Member ι) : Prop where
  /-- The member is not ahead. -/
  le : r ≤ n
  /-- The published value. -/
  number : ¬ m.role.Rejoining → m.number = r % N
  /-- A member that is not ejected and not rejoining lags by one at most. -/
  current : m.ejected = false → ¬ m.role.Rejoining → n ≤ r + 1
  /-- A member that does something is not ejected. -/
  awake : m.ejected = true → m.role = .idle
  /-- The value before the ejection and the published one. -/
  reload : ∀ old g, m.role = .reload old g → old = r % N ∧ g = m.number
  /-- The value that was read lags by one at most, unless the published one is ahead of it. -/
  store : ∀ old g v, m.role = .store old g v → old = r % N ∧ g = m.number ∧
    (g ≠ incMod N v → v = p % N ∧ r ≤ p ∧ p ≤ n ∧ n ≤ p + 1)
  /-- The counter does not advance past a member that is about to publish it. -/
  refresh : ∀ v, m.role = .refresh v → v = (r + 1) % N ∧ n = r + 1
  /-- The value from which the member advances. -/
  scan : ∀ e todo, m.role = .scan e todo → e = r % N

/-- What holds of the member `i`, in round `r` and reading `p`, once it was passed by another member,
in round `s`: it is not behind. -/
structure Member.Passed {ι : Type*} (N : ℕ) (looker : Member ι) (s : ℕ) (i : ι) (r p : ℕ)
    (m : Member ι) : Prop where
  /-- A member that is not ejected and not rejoining. -/
  current : ∀ e todo, looker.role = .scan e todo → i ∉ todo → m.ejected = false →
    ¬ m.role.Rejoining → s ≤ r
  /-- A member that rejoins. -/
  store : ∀ e todo, looker.role = .scan e todo → i ∉ todo → ∀ old g v, m.role = .store old g v →
    g ≠ incMod N v → s ≤ p

/-- The counter is in round `n`; the member `i` has published round `r i` and, while it rejoins, has
read round `p i`. -/
structure Clock.Timed {ι : Type*} (N : ℕ) (a : Clock ι) (n : ℕ) (r p : ι → ℕ) : Prop where
  /-- The counter. -/
  global : a.global = n % N
  /-- The members. -/
  fits : ∀ i, (a.member i).Fits N n (r i) (p i)
  /-- The members that others have passed. -/
  passed : ∀ j i, Member.Passed N (a.member j) (r j) i (r i) (p i) (a.member i)

namespace Clock

/-- The next round has another value. -/
theorem mod_ne_succ_mod {N n : ℕ} (hN : 2 ≤ N) : n % N ≠ (n + 1) % N := by
  intro h
  have hdvd := (Nat.modEq_iff_dvd' (Nat.le_succ n)).mp h
  rw [show n.succ - n = 1 by omega] at hdvd
  exact absurd (Nat.le_of_dvd Nat.one_pos hdvd) (by omega)

/-- Two rounds that differ by one at most have different values. -/
theorem eq_of_mod_eq {N m n : ℕ} (hN : 2 ≤ N) (h : m % N = n % N) (hmn : m ≤ n + 1)
    (hnm : n ≤ m + 1) : m = n := by
  rcases Nat.lt_trichotomy m n with hlt | heq | hlt
  · obtain rfl : n = m + 1 := by omega
    exact absurd h (mod_ne_succ_mod hN)
  · exact heq
  · obtain rfl : m = n + 1 := by omega
    exact absurd h.symm (mod_ne_succ_mod hN)

/-- The value after that of a round is the value of the next round. -/
theorem incMod_mod (N n : ℕ) : incMod N (n % N) = (n + 1) % N := by
  unfold incMod
  rw [Nat.mod_add_mod]

variable {ι : Type*} [DecidableEq ι] {N n : ℕ} {a a' : Clock ι} {r p : ι → ℕ} {i : ι}

/-- A change of one member. -/
theorem Timed.set {m : Member ι} {r' p' : ℕ} (h : a.Timed N n r p) (hfits : m.Fits N n r' p')
    (hby : ∀ x, x ≠ i → Member.Passed N m r' x (r x) (p x) (a.member x))
    (hof : ∀ j, j ≠ i → Member.Passed N (a.member j) (r j) i r' p' m)
    (hself : Member.Passed N m r' i r' p' m) :
    (a.set i m).Timed N n (Function.update r i r') (Function.update p i p') where
  global := h.global
  fits := by
    intro x
    have hx := h.fits x
    by_cases hxi : x = i
    · subst hxi
      simpa using hfits
    · simpa [hxi] using hx
  passed := by
    intro j x
    have hjx := h.passed j x
    by_cases hj : j = i
    · subst hj
      by_cases hx : x = j
      · subst hx
        simpa using hself
      · simpa [hx] using hby x hx
    · by_cases hx : x = i
      · subst hx
        simpa [hj] using hof j hj
      · simpa [hj, hx] using hjx

/-- A change of one member in the same rounds. -/
theorem Timed.set_same {m : Member ι} (h : a.Timed N n r p) (hfits : m.Fits N n (r i) (p i))
    (hby : ∀ x, x ≠ i → Member.Passed N m (r i) x (r x) (p x) (a.member x))
    (hof : ∀ j, j ≠ i → Member.Passed N (a.member j) (r j) i (r i) (p i) m)
    (hself : Member.Passed N m (r i) i (r i) (p i) m) : (a.set i m).Timed N n r p := by
  have hset := h.set hfits hby hof hself
  rwa [Function.update_eq_self, Function.update_eq_self] at hset

end Clock

/-- A member that does not look at the others has passed nobody. -/
theorem passed_of_not_scan {ι : Type*} {N s r p : ℕ} {m m' : Member ι} {i : ι}
    (h : ∀ e todo, m.role ≠ .scan e todo) : Member.Passed N m s i r p m' :=
  ⟨fun e todo hm => absurd hm (h e todo), fun e todo hm => absurd hm (h e todo)⟩

/-- A member that was passed or is ejected, or rejoins without having read the counter. -/
theorem passed_of_passed {ι : Type*} {N s r p : ℕ} {m m' : Member ι} {i : ι}
    (hcurrent : m'.ejected = false → m'.role.Rejoining) (hstore : ∀ old g v, m'.role ≠ .store old g v) :
    Member.Passed N m s i r p m' :=
  ⟨fun _ _ _ _ hej hrole => absurd (hcurrent hej) hrole,
    fun _ _ _ _ old g v hm => absurd hm (hstore old g v)⟩

/-! ## Steps keep the rounds -/

/-- What a step does to the rounds. -/
structure Clock.Advances {ι : Type*} (a a' : Clock ι) (n n' : ℕ) (r r' : ι → ℕ) : Prop where
  /-- The counter advances by one round or stays. -/
  counter : n' = n ∨ n' = n + 1
  /-- No member goes back. -/
  le : ∀ i, r i ≤ r' i
  /-- A member changes its round only when it publishes the counter. -/
  moves : ∀ i, r' i ≠ r i → (a.member i).role.Publishes ∧ (a'.member i).role = .idle

namespace Clock

variable {ι : Type*} [DecidableEq ι] {N n : ℕ} {a a' : Clock ι} {r p : ι → ℕ} {i : ι}

omit [DecidableEq ι] in
/-- A step that changes no round. -/
theorem Advances.rfl' : Advances a a' n n r r :=
  ⟨.inl rfl, fun _ => le_rfl, fun _ h => absurd rfl h⟩

/-- One member goes ahead. -/
theorem Advances.update_le {v : ℕ} (h : r i ≤ v) (x : ι) : r x ≤ Function.update r i v x := by
  by_cases hx : x = i
  · rw [hx, Function.update_self]
    exact h
  · rw [Function.update_of_ne hx]

/-- One member publishes the counter. -/
theorem Advances.update_moves {v : ℕ} (h : (a.member i).role.Publishes)
    (hidle : (a'.member i).role = .idle) (x : ι) (hx : Function.update r i v x ≠ r x) :
    (a.member x).role.Publishes ∧ (a'.member x).role = .idle := by
  by_cases hxi : x = i
  · rw [hxi]
    exact ⟨h, hidle⟩
  · exact absurd (Function.update_of_ne hxi _ _) hx

/-- An ejected member publishes a value. -/
theorem Timed.publish {old w : ℕ} (h : a.Timed N n r p) (hi : a.member i = ⟨true, old, .idle⟩) :
    (a.set i ⟨false, w, .reload old w⟩).Timed N n r p := by
  have hfits := h.fits i
  rw [hi] at hfits
  refine h.set_same ?_ ?_ ?_ ?_
  · have hnumber := hfits.number
    exact ⟨hfits.le, by simp, by simp, by simp, by grind, by simp, by simp, by simp⟩
  · exact fun _ _ => passed_of_not_scan (by simp)
  · exact fun _ _ => passed_of_passed (by simp) (by simp)
  · exact passed_of_not_scan (by simp)

/-- A rejoining member reads the counter. -/
theorem Timed.reload {m old g : ℕ} (h : a.Timed N n r p)
    (hi : a.member i = ⟨false, m, .reload old g⟩) :
    (a.set i ⟨false, m, .store old g a.global⟩).Timed N n r (Function.update p i n) := by
  have hfits := h.fits i
  rw [hi] at hfits
  have hreload := hfits.reload old g rfl
  have hset : (a.set i ⟨false, m, .store old g a.global⟩).Timed N n
      (Function.update r i (r i)) (Function.update p i n) := by
    refine h.set ?_ ?_ ?_ ?_
    · refine ⟨hfits.le, by simp, by simp, by simp, by simp, ?_, by simp, by simp⟩
      have hglobal := h.global
      have hle := hfits.le
      grind
    · exact fun _ _ => passed_of_not_scan (by simp)
    · intro j hj
      exact ⟨by simp, fun _ _ _ _ _ _ _ _ _ => (h.fits j).le⟩
    · exact passed_of_not_scan (by simp)
  rwa [Function.update_eq_self] at hset

/-- A rejoining member publishes the counter but has to read it again. -/
theorem Timed.retry {m old g v : ℕ} (h : a.Timed N n r p)
    (hi : a.member i = ⟨false, m, .store old g v⟩) :
    (a.set i ⟨false, v, .reload old v⟩).Timed N n r p := by
  have hfits := h.fits i
  rw [hi] at hfits
  refine h.set_same ?_ ?_ ?_ ?_
  · have hstore := hfits.store old g v rfl
    exact ⟨hfits.le, by simp, by simp, by simp, by grind, by simp, by simp, by simp⟩
  · exact fun _ _ => passed_of_not_scan (by simp)
  · exact fun _ _ => passed_of_passed (by simp) (by simp)
  · exact passed_of_not_scan (by simp)

/-- A rejoining member publishes the counter and lags by one at most. -/
theorem Timed.rejoin {m old g v : ℕ} (h : a.Timed N n r p)
    (hi : a.member i = ⟨false, m, .store old g v⟩) (hg : g ≠ incMod N v) :
    (a.set i ⟨false, v, .idle⟩).Timed N n (Function.update r i (p i)) p ∧ r i ≤ p i := by
  have hfits := h.fits i
  rw [hi] at hfits
  obtain ⟨-, -, hstore⟩ := hfits.store old g v rfl
  obtain ⟨hv, hle, hpn, hnp⟩ := hstore hg
  have hset : (a.set i ⟨false, v, .idle⟩).Timed N n
      (Function.update r i (p i)) (Function.update p i (p i)) := by
    refine h.set ?_ ?_ ?_ ?_
    · exact ⟨hpn, fun _ => hv, fun _ _ => hnp, by simp, by simp, by simp, by simp, by simp⟩
    · exact fun _ _ => passed_of_not_scan (by simp)
    · intro j hj
      have hpassed := h.passed j i
      rw [hi] at hpassed
      exact ⟨fun e todo hscan htodo _ _ => hpassed.store e todo hscan htodo old g v rfl hg, by simp⟩
    · exact passed_of_not_scan (by simp)
  rw [Function.update_eq_self] at hset
  exact ⟨hset, hle⟩

/-- A member sees that the counter is ahead. -/
theorem Timed.startRefresh {m : ℕ} (h : a.Timed N n r p)
    (hi : a.member i = ⟨false, m, .idle⟩) (hm : m ≠ a.global) :
    (a.set i ⟨false, m, .refresh a.global⟩).Timed N n r p := by
  have hfits := h.fits i
  rw [hi] at hfits
  have hnumber := hfits.number (by simp)
  have hcurrent := hfits.current rfl (by simp)
  have hround : n = r i + 1 := by
    have hle := hfits.le
    rcases Nat.lt_or_ge (r i) n with hlt | hge
    · omega
    · obtain rfl : r i = n := by omega
      exact absurd (hnumber.trans h.global.symm) hm
  refine h.set_same ?_ ?_ ?_ ?_
  · refine ⟨hfits.le, fun _ => hnumber, fun _ _ => hcurrent, by simp, by simp, by simp, ?_, by simp⟩
    have hglobal := h.global
    grind
  · exact fun _ _ => passed_of_not_scan (by simp)
  · intro j hj
    have hpassed := (h.passed j i).current
    rw [hi] at hpassed
    exact ⟨fun e todo hscan htodo _ _ => hpassed e todo hscan htodo rfl (by simp), by simp⟩
  · exact passed_of_not_scan (by simp)

/-- A member publishes the counter that was ahead. -/
theorem Timed.refresh {m v : ℕ} (h : a.Timed N n r p)
    (hi : a.member i = ⟨false, m, .refresh v⟩) :
    (a.set i ⟨false, v, .idle⟩).Timed N n (Function.update r i (r i + 1)) p ∧ n = r i + 1 := by
  have hfits := h.fits i
  rw [hi] at hfits
  obtain ⟨hv, hround⟩ := hfits.refresh v rfl
  have hset : (a.set i ⟨false, v, .idle⟩).Timed N n
      (Function.update r i (r i + 1)) (Function.update p i (p i)) := by
    refine h.set ?_ ?_ ?_ ?_
    · refine ⟨by omega, fun _ => hv, fun _ _ => by omega, by simp, by simp, by simp, by simp, by simp⟩
    · exact fun _ _ => passed_of_not_scan (by simp)
    · intro j hj
      have hpassed := (h.passed j i).current
      rw [hi] at hpassed
      exact ⟨fun e todo hscan htodo _ _ =>
        (hpassed e todo hscan htodo rfl (by simp)).trans (Nat.le_succ _), by simp⟩
    · exact passed_of_not_scan (by simp)
  rw [Function.update_eq_self] at hset
  exact ⟨hset, hround⟩

/-- A member that is not ejected and does not rejoin does something else that keeps its value. -/
theorem Timed.set_role {m : ℕ} {role role' : Role ι} (h : a.Timed N n r p)
    (hi : a.member i = ⟨false, m, role⟩) (hrole : ¬ role.Rejoining) (hrole' : ¬ role'.Rejoining)
    (hrefresh : ∀ v, role' ≠ .refresh v)
    (hscan : ∀ e todo, role' = .scan e todo → e = m)
    (hby : ∀ e todo, role' = .scan e todo → ∀ x, x ≠ i → x ∉ todo →
      ((a.member x).ejected = false → ¬ (a.member x).role.Rejoining → r i ≤ r x) ∧
      ∀ old g v, (a.member x).role = .store old g v → g ≠ incMod N v → r i ≤ p x) :
    (a.set i ⟨false, m, role'⟩).Timed N n r p := by
  have hfits := h.fits i
  rw [hi] at hfits
  have hnumber : m = r i % N := hfits.number hrole
  refine h.set_same ?_ ?_ ?_ ?_
  · refine ⟨hfits.le, fun _ => hnumber, fun _ _ => hfits.current rfl hrole, by simp, ?_, ?_, ?_, ?_⟩
    · rintro old g rfl
      exact absurd trivial hrole'
    · rintro old g v rfl
      exact absurd trivial hrole'
    · intro v hv
      exact absurd hv (hrefresh v)
    · intro e todo he
      exact (hscan e todo he).trans hnumber
  · intro x hx
    exact ⟨fun e todo he htodo => (hby e todo he x hx htodo).1,
      fun e todo he htodo => (hby e todo he x hx htodo).2⟩
  · intro j hj
    have hpassed := (h.passed j i).current
    rw [hi] at hpassed
    refine ⟨fun e todo he htodo _ _ => hpassed e todo he htodo rfl hrole, ?_⟩
    rintro e todo he htodo old g v rfl
    exact absurd trivial hrole'
  · refine ⟨fun _ _ _ _ _ _ => le_rfl, ?_⟩
    rintro e todo he htodo old g v rfl
    exact absurd trivial hrole'

/-- A member starts to look at the others: the ones that it leaves out are ejected. -/
theorem Timed.startScan {m : ℕ} {todo : List ι} (h : a.Timed N n r p)
    (hi : a.member i = ⟨false, m, .idle⟩)
    (htodo : ∀ j, j ∉ todo → (a.member j).ejected = true ∧ (a.member j).role = .idle) :
    (a.set i ⟨false, m, .scan m todo⟩).Timed N n r p := by
  refine h.set_role hi (by simp) (by simp) (by simp) ?_ ?_
  · rintro e todo' he
    cases he
    rfl
  · rintro e todo' he x hx hnot
    cases he
    obtain ⟨hej, hrole⟩ := htodo x hnot
    refine ⟨fun hej' => ?_, fun old g v hstore => ?_⟩
    · rw [hej] at hej'
      cases hej'
    · rw [hrole] at hstore
      cases hstore

/-- A member passes another one that is at its value or ejected. -/
theorem Timed.pass {o : ι} {m e : ℕ} {rest : List ι} (hN : 2 ≤ N) (h : a.Timed N n r p)
    (hi : a.member i = ⟨false, m, .scan e (o :: rest)⟩)
    (ho : (a.member o).ejected = true ∨ (a.member o).number = e) :
    (a.set i ⟨false, m, .scan e rest⟩).Timed N n r p := by
  have hfits := h.fits i
  rw [hi] at hfits
  have hnumber : m = r i % N := hfits.number (by simp)
  have he : e = r i % N := hfits.scan e _ rfl
  have hcurrent : n ≤ r i + 1 := hfits.current rfl (by simp)
  have hle := hfits.le
  have hfitso := h.fits o
  refine h.set_role hi (by simp) (by simp) (by simp) ?_ ?_
  · rintro e' todo' heq
    cases heq
    exact he.trans hnumber.symm
  · rintro e' todo' heq x hx hnot
    cases heq
    have hpassed := h.passed i x
    rw [hi] at hpassed
    by_cases hxo : x = o
    · subst hxo
      refine ⟨fun hej hrole => ?_, fun old g v hstore hg => ?_⟩
      · have hvalue : (a.member x).number = e := by
          refine ho.resolve_left ?_
          rw [hej]
          simp
        have hmod : r i % N = r x % N := by
          rw [← he, ← hvalue, hfitso.number hrole]
        have hx' := hfitso.current hej hrole
        have hlex := hfitso.le
        exact (eq_of_mod_eq hN hmod (by omega) (by omega)).le
      · obtain ⟨-, hgx, hlag⟩ := hfitso.store old g v hstore
        obtain ⟨hv, -, hpn, hnp⟩ := hlag hg
        have hej : (a.member x).ejected = false := by
          by_contra hej
          have hrole := hfitso.awake (Bool.not_eq_false _ ▸ hej)
          rw [hrole] at hstore
          cases hstore
        have hvalue : (a.member x).number = e := by
          refine ho.resolve_left ?_
          rw [hej]
          simp
        by_contra hlt
        obtain hround : r i = p x + 1 := by omega
        refine hg ?_
        rw [hgx, hvalue, he, hround, hv, incMod_mod]
    · have hnot' : x ∉ o :: rest := by
        simp [hxo, hnot]
      exact ⟨hpassed.current e _ rfl hnot', hpassed.store e _ rfl hnot'⟩

/-- An idle member is ejected. -/
theorem Timed.eject (h : a.Timed N n r p) (hi : (a.member i).role = .idle) :
    (a.set i ⟨true, (a.member i).number, .idle⟩).Timed N n r p := by
  have hfits := h.fits i
  have hnumber := hfits.number (by rw [hi]; simp)
  refine h.set_same ?_ ?_ ?_ ?_
  · exact ⟨hfits.le, fun _ => hnumber, by simp, by simp, by simp, by simp, by simp, by simp⟩
  · exact fun _ _ => passed_of_not_scan (by simp)
  · exact fun _ _ => passed_of_passed (by simp) (by simp)
  · exact passed_of_not_scan (by simp)

/-- The counter is advanced by a member that has passed all others: nobody lags by two. -/
theorem Timed.advance {m e : ℕ} (h : a.Timed N n r p)
    (hi : a.member i = ⟨false, m, .scan e []⟩) :
    Timed N { a.set i ⟨false, m, .idle⟩ with global := incMod N e } (r i + 1) r p ∧
      n ≤ r i + 1 ∧ r i ≤ n := by
  have hidle : (a.set i ⟨false, m, .idle⟩).Timed N n r p :=
    h.set_role hi (by simp) (by simp) (by simp) (by simp) (by simp)
  have hfits := h.fits i
  rw [hi] at hfits
  have he : e = r i % N := hfits.scan e _ rfl
  have hcurrent : n ≤ r i + 1 := hfits.current rfl (by simp)
  refine ⟨⟨?_, ?_, hidle.passed⟩, hcurrent, hfits.le⟩
  · change incMod N e = _
    rw [he, incMod_mod]
  · intro x
    have hx := hidle.fits x
    have hpassed := h.passed i x
    rw [hi] at hpassed
    have hpassed' : ((a.set i ⟨false, m, .idle⟩).member x).ejected = false →
        ¬ ((a.set i ⟨false, m, .idle⟩).member x).role.Rejoining → r i ≤ r x := by
      intro hej hrole
      by_cases hxi : x = i
      · rw [hxi]
      · rw [member_set, if_neg hxi] at hej hrole
        exact hpassed.current e [] rfl List.not_mem_nil hej hrole
    refine ⟨hx.le.trans hcurrent, hx.number, ?_, hx.awake, hx.reload, ?_, ?_, hx.scan⟩
    · intro hej hrole
      have hle := hpassed' hej hrole
      omega
    · intro old g v hstore
      obtain ⟨hold, hg', hlag⟩ := hx.store old g v hstore
      refine ⟨hold, hg', fun hg => ?_⟩
      obtain ⟨hv, hrp, hpn, hnp⟩ := hlag hg
      have hle : r i ≤ p x := by
        by_cases hxi : x = i
        · rw [hxi] at hstore
          simp at hstore
        · have hstore' : (a.member x).role = .store old g v := by
            change ((a.set i ⟨false, m, .idle⟩).member x).role = _ at hstore
            rwa [member_set, if_neg hxi] at hstore
          exact hpassed.store e [] rfl List.not_mem_nil old g v hstore' hg
      exact ⟨hv, hrp, by omega, by omega⟩
    · intro v hrefresh
      obtain ⟨hv, hround⟩ := hx.refresh v hrefresh
      have hej : ((a.set i ⟨false, m, .idle⟩).member x).ejected = false := by
        by_contra hej
        have hrole := hx.awake (Bool.not_eq_false _ ▸ hej)
        have hrefresh : ((a.set i ⟨false, m, .idle⟩).member x).role = .refresh v := hrefresh
        rw [hrole] at hrefresh
        cases hrefresh
      have hrole : ¬ ((a.set i ⟨false, m, .idle⟩).member x).role.Rejoining := by
        change ((a.set i ⟨false, m, .idle⟩).member x).role = .refresh v at hrefresh
        rw [hrefresh]
        simp
      have hle := hpassed' hej hrole
      exact ⟨hv, by omega⟩

/-- Every step keeps the rounds. -/
theorem Timed.step (hN : 2 ≤ N) (h : a.Timed N n r p) (hstep : Step N a a') :
    ∃ n' r' p', a'.Timed N n' r' p' ∧ Advances a a' n n' r r' := by
  induction hstep with
  | publish hi w => exact ⟨n, r, p, h.publish hi, Advances.rfl'⟩
  | reload hi => exact ⟨n, r, _, h.reload hi, Advances.rfl'⟩
  | retry hi hg => exact ⟨n, r, p, h.retry hi, Advances.rfl'⟩
  | @rejoin i m old g v hi hg =>
    obtain ⟨htimed, hle⟩ := h.rejoin hi hg
    exact ⟨n, _, p, htimed, .inl rfl, Advances.update_le hle,
      Advances.update_moves (by rw [hi]; trivial) (by simp)⟩
  | startRefresh hi hm => exact ⟨n, r, p, h.startRefresh hi hm, Advances.rfl'⟩
  | @refresh i m v hi =>
    obtain ⟨htimed, hround⟩ := h.refresh hi
    exact ⟨n, _, p, htimed, .inl rfl, Advances.update_le (Nat.le_succ _),
      Advances.update_moves (by rw [hi]; trivial) (by simp)⟩
  | startScan hi todo htodo => exact ⟨n, r, p, h.startScan hi htodo, Advances.rfl'⟩
  | pass hi ho => exact ⟨n, r, p, h.pass hN hi ho, Advances.rfl'⟩
  | @ejectPass i o m e rest hi ho =>
    have heject := h.eject ho
    have hio : i ≠ o := by
      intro hio
      rw [← hio, hi] at ho
      simp at ho
    have hi' : (a.set o ⟨true, (a.member o).number, .idle⟩).member i =
        ⟨false, m, .scan e (o :: rest)⟩ := by
      rw [member_set, if_neg hio, hi]
    exact ⟨n, r, p, heject.pass hN hi' (.inl (by simp)), Advances.rfl'⟩
  | @advance i m e hi =>
    obtain ⟨htimed, hle, hge⟩ := h.advance hi
    exact ⟨_, r, p, htimed, by omega, fun _ => le_rfl, fun _ hx => absurd rfl hx⟩
  | stop hi =>
    exact ⟨n, r, p, h.set_role hi (by simp) (by simp) (by simp) (by simp) (by simp), Advances.rfl'⟩
  | eject hi => exact ⟨n, r, p, h.eject hi, Advances.rfl'⟩

end Clock

end Foundation
