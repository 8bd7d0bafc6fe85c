import VeronaFs.Runtime.ThreadSync

/-!
# The waiters of a `ThreadSync`

`Queued` says what the linked lists are: one of the waiters, and one for each thread that wakes waiters, of
those that are left.  No thread is in two of them, and the threads in them are those that wait.  So no
thread is woken twice, and a request is served before the lock is free again.
-/

set_option linter.unusedSectionVars false

namespace VeronaRt

open Foundation

namespace ThreadSync

variable {T : Type*} [DecidableEq T]

/-- The waiters that a thread is still to wake. -/
def Detached (next : T → Option T) : Pc T → List T → Prop
  | .unlockUnpause _ curr, l => Path next l curr none
  | .wake _ curr, l => Path next l curr none
  | .wakeOne _ u n, l => ∃ l', l = u :: l' ∧ Path next l' n none
  | _, l => l = []

/-- The list of waiters and those of the threads that wake waiters. -/
structure Queued (s : State T) (W : List T) (D : T → List T) : Prop where
  /-- The waiters are linked. -/
  path : Path s.next W s.waiters none
  /-- So are those that are to be woken. -/
  detached : ∀ u, Detached s.next (s.pc u) (D u)
  /-- These are the threads that wait. -/
  waits : ∀ x, (x ∈ W ∨ ∃ u, x ∈ D u) ↔ s.Waits x
  /-- No thread is twice among the waiters. -/
  nodup : W.Nodup
  /-- Nor in another list. -/
  nodup_detached : ∀ u, (D u).Nodup
  /-- A waiter is in no other list. -/
  apart : ∀ x ∈ W, ∀ u, x ∉ D u
  /-- Different threads wake different waiters. -/
  apart_detached : ∀ u v x, x ∈ D u → x ∈ D v → u = v
  /-- Semaphores are binary. -/
  sem_le : ∀ x, s.sem x ≤ 1
  /-- A thread that was woken is in `pause`. -/
  sem_paused : ∀ x, s.sem x ≠ 0 → (s.pc x).paused = true
  /-- There are no waiters when the lock is released for them. -/
  empty : ∀ u k c, s.pc u = .unlockUnpause k c → W = []

section

variable {s s' : State T} {t u x : T} {p : Pc T} {l : LockState} {W : List T} {D : T → List T}
  {events new : List (Event T)}

/-- Only the links of the list matter. -/
theorem Detached.congr {next next' : T → Option T} {l : List T} (h : Detached next p l)
    (hnext : ∀ x ∈ l, next' x = next x) : Detached next' p l := by
  cases p with
  | unlockUnpause k c => exact Path.congr h hnext
  | wake k c => exact Path.congr h hnext
  | wakeOne k u n =>
    obtain ⟨l', rfl, hl'⟩ := h
    exact ⟨l', rfl, hl'.congr fun x hx => hnext x (List.mem_cons_of_mem u hx)⟩
  | _ => exact h

/-- A call that returns has no one to wake. -/
theorem detached_pc {next : T → Option T} {k : Return} {l : List T} :
    Detached next k.pc l ↔ l = [] := by
  cases k <;> rfl

namespace Queued

/-- A thread that does not wait is in no list. -/
theorem not_mem (hq : Queued s W D) (hx : ¬ s.Waits x) : x ∉ W ∧ ∀ u, x ∉ D u :=
  ⟨fun hW => hx ((hq.waits x).mp (.inl hW)), fun u hu => hx ((hq.waits x).mp (.inr ⟨u, hu⟩))⟩

/-- A thread outside of `pause` does not wait. -/
theorem not_waits (hx : (s.pc x).paused = false) : ¬ s.Waits x := fun h => by
  rw [State.Waits, hx] at h
  cases h.1

/-- It was not woken. -/
theorem sem_eq_zero (hq : Queued s W D) (hx : (s.pc x).paused = false) : s.sem x = 0 := by
  by_contra hne
  have hp := hq.sem_paused x hne
  rw [hx] at hp
  cases hp

/-- A thread goes on with its list. -/
theorem goto (hq : Queued s W D) (l : LockState) (hd : Detached s.next p (D t))
    (hp : p.paused = (s.pc t).paused) (he : ∀ k c, p = .unlockUnpause k c → W = []) :
    Queued ({ s with lock := l }.goto t p) W D := by
  have hpaused : ∀ x, (({ s with lock := l }.goto t p : State T).pc x).paused = (s.pc x).paused :=
    Pc.paused_update hp
  refine { hq with detached := fun u => ?_, waits := fun x => ?_, sem_paused := fun x hx => ?_,
                   empty := fun u k c hu => ?_ }
  · by_cases hut : u = t
    · subst hut
      rw [State.goto_pc_self]
      exact hd
    · rw [State.goto_pc_of_ne hut]
      exact hq.detached u
  · rw [hq.waits x]
    rw [State.Waits, State.Waits, hpaused]
    rfl
  · exact (hpaused x).trans (hq.sem_paused x hx)
  · by_cases hut : u = t
    · subst hut
      rw [State.goto_pc_self] at hu
      exact he k c hu
    · rw [State.goto_pc_of_ne hut] at hu
      exact hq.empty u k c hu

/-- A thread adds itself to the waiters. -/
theorem pause {w : Bool} (hq : Queued s W D) (hl : LockOk s.lock s.pc) (hpc : s.pc t = .handle w) :
    Queued ({ s with
      next := Function.update s.next t s.waiters
      waiters := some t }.goto t (.unlock (.pause w))) (t :: W) D := by
  have hpaused : (s.pc t).paused = false := by rw [hpc]; rfl
  have hsem : s.sem t = 0 := hq.sem_eq_zero hpaused
  obtain ⟨htW, htD⟩ := hq.not_mem (not_waits hpaused)
  constructor
  case path =>
    refine ⟨rfl, ?_⟩
    show Path (Function.update s.next t s.waiters) W (Function.update s.next t s.waiters t) none
    rw [Function.update_self]
    exact hq.path.update htW
  case detached =>
    intro u
    by_cases hut : u = t
    · subst hut
      have hd := hq.detached u
      rw [hpc] at hd
      rw [State.goto_pc_self]
      exact hd
    · rw [State.goto_pc_of_ne hut]
      refine (hq.detached u).congr fun x hx => Function.update_of_ne ?_ ..
      rintro rfl
      exact htD u hx
  case waits =>
    intro x
    by_cases hxt : x = t
    · subst hxt
      have hwaits : ({ s with
          next := Function.update s.next x s.waiters
          waiters := some x }.goto x (.unlock (.pause w)) : State T).Waits x :=
        ⟨by rw [State.goto_pc_self]; rfl, hsem⟩
      exact ⟨fun _ => hwaits, fun _ => .inl List.mem_cons_self⟩
    · have hiff := hq.waits x
      rw [State.Waits] at hiff ⊢
      rw [State.goto_pc_of_ne hxt, List.mem_cons]
      exact (or_congr_left (or_iff_right hxt)).trans hiff
  case nodup => exact List.nodup_cons.mpr ⟨htW, hq.nodup⟩
  case nodup_detached => exact hq.nodup_detached
  case apart =>
    intro x hx u
    rcases List.mem_cons.mp hx with rfl | hx
    · exact htD u
    · exact hq.apart x hx u
  case apart_detached => exact hq.apart_detached
  case sem_le => exact hq.sem_le
  case sem_paused =>
    intro x hx
    by_cases hxt : x = t
    · exact absurd (hxt ▸ hsem) hx
    · rw [State.goto_pc_of_ne hxt]
      exact hq.sem_paused x hx
  case empty =>
    intro u k c hu
    by_cases hut : u = t
    · subst hut
      rw [State.goto_pc_self] at hu
      cases hu
    · rw [State.goto_pc_of_ne hut] at hu
      exact absurd (hl.unique u t (by rw [hu]; rfl) (by rw [hpc]; rfl)) hut

/-- The list of waiters is taken. -/
theorem take {k : Return} (hq : Queued s W D) (hpc : s.pc t = .take k) :
    Queued ({ s with waiters := none }.goto t (.unlockUnpause k s.waiters)) []
      (Function.update D t W) := by
  have hDt : D t = [] := by
    have hd := hq.detached t
    rw [hpc] at hd
    exact hd
  have hmem : ∀ u x, x ∈ Function.update D t W u ↔ u = t ∧ x ∈ W ∨ x ∈ D u := by
    intro u x
    by_cases hut : u = t
    · subst hut
      rw [Function.update_self, hDt]
      simp
    · rw [Function.update_of_ne hut]
      simp [hut]
  constructor
  case path => rfl
  case detached =>
    intro u
    by_cases hut : u = t
    · subst hut
      rw [State.goto_pc_self, Function.update_self]
      exact hq.path
    · rw [State.goto_pc_of_ne hut, Function.update_of_ne hut]
      exact hq.detached u
  case waits =>
    intro x
    have hpaused : (({ s with waiters := none }.goto t (.unlockUnpause k s.waiters) : State T).pc x).paused =
        (s.pc x).paused := Pc.paused_update (by rw [hpc]; rfl) x
    have hiff := hq.waits x
    rw [State.Waits] at hiff ⊢
    rw [hpaused]
    refine Iff.trans ?_ hiff
    simp only [hmem, List.not_mem_nil, false_or]
    constructor
    · rintro ⟨u, ⟨-, hx⟩ | hx⟩
      · exact .inl hx
      · exact .inr ⟨u, hx⟩
    · rintro (hx | ⟨u, hx⟩)
      · exact ⟨t, .inl ⟨rfl, hx⟩⟩
      · exact ⟨u, .inr hx⟩
  case nodup => exact List.nodup_nil
  case nodup_detached =>
    intro u
    by_cases hut : u = t
    · rw [hut, Function.update_self]
      exact hq.nodup
    · rw [Function.update_of_ne hut]
      exact hq.nodup_detached u
  case apart => exact fun x hx => absurd hx List.not_mem_nil
  case apart_detached =>
    intro u v x hu hv
    rw [hmem] at hu hv
    rcases hu with ⟨rfl, hxW⟩ | hu
    · rcases hv with ⟨rfl, -⟩ | hv
      · rfl
      · exact absurd hv (hq.apart x hxW v)
    · rcases hv with ⟨rfl, hxW⟩ | hv
      · exact absurd hu (hq.apart x hxW u)
      · exact hq.apart_detached u v x hu hv
  case sem_le => exact hq.sem_le
  case sem_paused =>
    intro x hx
    by_cases hxt : x = t
    · subst hxt
      have hp := hq.sem_paused x hx
      rw [hpc] at hp
      rw [State.goto_pc_self]
      exact hp
    · rw [State.goto_pc_of_ne hxt]
      exact hq.sem_paused x hx
  case empty => exact fun _ _ _ _ => rfl

/-- The waiter that is woken waits. -/
theorem waits_of_wakeOne {k : Return} {n : Option T} (hq : Queued s W D)
    (hpc : s.pc t = .wakeOne k u n) : s.Waits u ∧ ∃ l, D t = u :: l ∧ Path s.next l n none := by
  have hd := hq.detached t
  rw [hpc] at hd
  obtain ⟨l, hl, hpath⟩ := hd
  exact ⟨(hq.waits u).mp (.inr ⟨t, by rw [hl]; exact List.mem_cons_self⟩), l, hl, hpath⟩

/-- A waiter is woken. -/
theorem wakeOne {k : Return} {n : Option T} {l : List T} (hq : Queued s W D)
    (hpc : s.pc t = .wakeOne k u n) (hl : D t = u :: l) (hpath : Path s.next l n none) :
    Queued ({ s with sem := Function.update s.sem u (s.sem u + 1) }.goto t (.wake k n)) W
      (Function.update D t l) := by
  obtain ⟨⟨hup, husem⟩, -⟩ := hq.waits_of_wakeOne hpc
  have hnodup := hq.nodup_detached t
  rw [hl] at hnodup
  have huD : u ∈ D t := by rw [hl]; exact List.mem_cons_self
  have hmem : ∀ v x, x ∈ Function.update D t l v ↔ x ∈ D v ∧ x ≠ u := by
    intro v x
    by_cases hvt : v = t
    · subst hvt
      rw [Function.update_self, hl, List.mem_cons]
      constructor
      · exact fun hx => ⟨.inr hx, fun hxu => (List.nodup_cons.mp hnodup).1 (hxu ▸ hx)⟩
      · exact fun hx => hx.1.resolve_left hx.2
    · rw [Function.update_of_ne hvt]
      refine ⟨fun hx => ⟨hx, ?_⟩, fun hx => hx.1⟩
      rintro rfl
      exact hvt (hq.apart_detached v t x hx huD)
  have hpaused : ∀ x, (({ s with sem := Function.update s.sem u (s.sem u + 1) }.goto t
      (.wake k n) : State T).pc x).paused = (s.pc x).paused := Pc.paused_update (by rw [hpc]; rfl)
  constructor
  case path => exact hq.path
  case detached =>
    intro v
    by_cases hvt : v = t
    · subst hvt
      rw [State.goto_pc_self, Function.update_self]
      exact hpath
    · rw [State.goto_pc_of_ne hvt, Function.update_of_ne hvt]
      exact hq.detached v
  case waits =>
    intro x
    rw [State.Waits, hpaused]
    show (x ∈ W ∨ ∃ v, x ∈ Function.update D t l v) ↔
      (s.pc x).paused = true ∧ Function.update s.sem u (s.sem u + 1) x = 0
    simp only [hmem]
    by_cases hxu : x = u
    · subst hxu
      rw [Function.update_self]
      constructor
      · rintro (hx | ⟨v, -, hne⟩)
        · exact absurd huD (hq.apart x hx t)
        · exact absurd rfl hne
      · rintro ⟨-, hzero⟩
        omega
    · rw [Function.update_of_ne hxu]
      have hiff := hq.waits x
      rw [State.Waits] at hiff
      refine Iff.trans ?_ hiff
      exact or_congr_right (exists_congr fun v => and_iff_left hxu)
  case nodup => exact hq.nodup
  case nodup_detached =>
    intro v
    by_cases hvt : v = t
    · rw [hvt, Function.update_self]
      exact (List.nodup_cons.mp hnodup).2
    · rw [Function.update_of_ne hvt]
      exact hq.nodup_detached v
  case apart => exact fun x hx v hv => hq.apart x hx v ((hmem v x).mp hv).1
  case apart_detached =>
    exact fun v w x hv hw => hq.apart_detached v w x ((hmem v x).mp hv).1 ((hmem w x).mp hw).1
  case sem_le =>
    intro x
    show Function.update s.sem u (s.sem u + 1) x ≤ 1
    have hself : Function.update s.sem u (s.sem u + 1) u = s.sem u + 1 := Function.update_self ..
    by_cases hxu : x = u
    · rw [hxu]
      omega
    · rw [Function.update_of_ne hxu]
      exact hq.sem_le x
  case sem_paused =>
    intro x hx
    rw [hpaused]
    change Function.update s.sem u (s.sem u + 1) x ≠ 0 at hx
    by_cases hxu : x = u
    · rw [hxu, hup]
    · rw [Function.update_of_ne hxu] at hx
      exact hq.sem_paused x hx
  case empty =>
    intro v k' c hv
    by_cases hvt : v = t
    · subst hvt
      rw [State.goto_pc_self] at hv
      cases hv
    · rw [State.goto_pc_of_ne hvt] at hv
      exact hq.empty v k' c hv

/-- A thread wakes up. -/
theorem sleep {w : Bool} (hq : Queued s W D) (hpc : s.pc t = .sleep w) (hs : 0 < s.sem t) :
    Queued ({ s with sem := Function.update s.sem t (s.sem t - 1) }.goto t (.lock w)) W D := by
  have hone : s.sem t = 1 := by
    have hle := hq.sem_le t
    omega
  have hnot : ¬ s.Waits t := fun h => by
    rw [State.Waits, hone] at h
    cases h.2
  have hother : ∀ {x}, x ≠ t → Function.update s.sem t (s.sem t - 1) x = s.sem x := fun hx =>
    Function.update_of_ne hx ..
  refine { hq with detached := fun u => ?_, waits := fun x => ?_, sem_le := fun x => ?_,
                   sem_paused := fun x hx => ?_, empty := fun u k c hu => ?_ }
  · by_cases hut : u = t
    · subst hut
      have hd := hq.detached u
      rw [hpc] at hd
      rw [State.goto_pc_self]
      exact hd
    · rw [State.goto_pc_of_ne hut]
      exact hq.detached u
  · by_cases hxt : x = t
    · subst hxt
      obtain ⟨hW, hD⟩ := hq.not_mem hnot
      rw [State.Waits, State.goto_pc_self]
      constructor
      · rintro (hx | ⟨u, hx⟩)
        · exact absurd hx hW
        · exact absurd hx (hD u)
      · rintro ⟨hp, -⟩
        cases hp
    · have hiff := hq.waits x
      rw [State.Waits] at hiff ⊢
      rw [State.goto_pc_of_ne hxt]
      exact hiff.trans (and_congr_right fun _ => by
        show _ ↔ Function.update s.sem t (s.sem t - 1) x = 0
        rw [hother hxt])
  · show Function.update s.sem t (s.sem t - 1) x ≤ 1
    have hself : Function.update s.sem t (s.sem t - 1) t = s.sem t - 1 := Function.update_self ..
    by_cases hxt : x = t
    · rw [hxt]
      omega
    · rw [hother hxt]
      exact hq.sem_le x
  · change Function.update s.sem t (s.sem t - 1) x ≠ 0 at hx
    by_cases hxt : x = t
    · rw [hxt, Function.update_self, hone] at hx
      exact absurd rfl hx
    · rw [hother hxt] at hx
      rw [State.goto_pc_of_ne hxt]
      exact hq.sem_paused x hx
  · by_cases hut : u = t
    · subst hut
      rw [State.goto_pc_self] at hu
      cases hu
    · rw [State.goto_pc_of_ne hut] at hu
      exact hq.empty u k c hu

end Queued

end

end ThreadSync

end VeronaRt
