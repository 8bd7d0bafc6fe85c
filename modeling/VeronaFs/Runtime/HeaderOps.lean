import VeronaFs.Runtime.SccUnionBalance

/-!
# Operations on header words

What the runtime does to the first word of a header beyond the links of components: the links of rings
and of work lists, counts, and the end of an object.  An operation gives `none` where an assertion
fails, and where the object is not there any more.

A word with a count is determined by its class and its count (`Header.ofCount_count`), and to count up
and down is to add and to subtract (`Header.ofCount_add`, `Header.ofCount_sub`).
-/

namespace VeronaRt

/-- What holds of the elements of a list is decided along the list, although there are finitely many
addresses. -/
instance (priority := 2000) decidableForallMem {α : Type*} (P : α → Prop) [DecidablePred P] (l : List α) :
    Decidable (∀ x ∈ l, P x) :=
  List.decidableBAll P l

/-- The test for equality of addresses is right. -/
instance (priority := 2000) lawfulBEqObjAddr : LawfulBEq ObjAddr := inferInstance

namespace Header

/-- A reference, above the bits of the class. -/
def ONE_RC : BitVec 64 := 1#64 <<< SHIFT

/-- A word with a number is the sum of the number and the class. -/
theorem ofCount_eq (n : ℕ) (c : RegionMD) : ofCount n c = BitVec.ofNat 64 (n * 16) + c.value := by
  have hshift : BitVec.ofNat 64 n <<< SHIFT = BitVec.ofNat 64 (n * 16) := by
    refine BitVec.eq_of_toNat_eq ?_
    rw [BitVec.toNat_shiftLeft, BitVec.toNat_ofNat, BitVec.toNat_ofNat, Nat.shiftLeft_eq, SHIFT]
    omega
  have hvalue : c.value = c.value &&& MASK := by
    cases c <;> decide
  have hand : BitVec.ofNat 64 n <<< SHIFT &&& c.value = 0#64 := by
    rw [hvalue, BitVec.and_comm c.value, ← BitVec.and_assoc, shiftLeft_and_mask, BitVec.zero_and]
  rw [ofCount, ← BitVec.add_eq_or_of_and_eq_zero _ _ hand, hshift]

/-- One more reference. -/
theorem ofCount_add (n : ℕ) (c : RegionMD) : ofCount n c + ONE_RC = ofCount (n + 1) c := by
  have hone : ONE_RC = BitVec.ofNat 64 16 := by decide
  rw [ofCount_eq, ofCount_eq, hone, BitVec.add_assoc, BitVec.add_comm c.value, ← BitVec.add_assoc,
    ← BitVec.ofNat_add, Nat.succ_mul]

/-- One reference less. -/
theorem ofCount_sub (n : ℕ) (c : RegionMD) : ofCount (n + 1) c - ONE_RC = ofCount n c := by
  rw [← ofCount_add, BitVec.add_sub_cancel]

/-- A class is the one with its value. -/
theorem value_of_getClass {bits : BitVec 64} {c : RegionMD} (h : getClass bits = some c) :
    bits &&& MASK = c.value := by
  have hfind := List.find?_some h
  exact (of_decide_eq_true hfind).symm

/-- A word with a class has it and a number. -/
theorem ofCount_count {bits : BitVec 64} {c : RegionMD} (h : getClass bits = some c) :
    ofCount (count bits) c = bits := by
  have hvalue := congrArg BitVec.toNat (value_of_getClass h)
  have hmask : MASK.toNat = 2 ^ 4 - 1 := rfl
  rw [BitVec.toNat_and, hmask, Nat.and_two_pow_sub_one_eq_mod] at hvalue
  refine BitVec.eq_of_toNat_eq ?_
  have hlt := bits.isLt
  rw [ofCount_eq, count, BitVec.toNat_add, BitVec.toNat_ofNat, BitVec.toNat_ushiftRight,
    Nat.shiftRight_eq_div_pow, ← hvalue, SHIFT]
  omega

/-- A count that becomes atomic. -/
theorem ofCount_atomic (n : ℕ) (c c' : RegionMD) :
    ofCount n c &&& ~~~MASK ||| c'.value = ofCount n c' := by
  have hnot : BitVec.ofNat 64 n <<< SHIFT &&& ~~~MASK = BitVec.ofNat 64 n <<< SHIFT := by
    have hsplit : (BitVec.ofNat 64 n <<< SHIFT &&& MASK) ||| (BitVec.ofNat 64 n <<< SHIFT &&& ~~~MASK) =
        BitVec.ofNat 64 n <<< SHIFT := by
      rw [← BitVec.and_or_distrib_left, BitVec.or_not_self, BitVec.and_allOnes]
    rwa [shiftLeft_and_mask, BitVec.zero_or] at hsplit
  rw [ofCount, BitVec.and_or_distrib_right, hnot, value_and_not, BitVec.or_zero, ofCount]

/-- The word of a finished component. -/
theorem value_add_one (c : RegionMD) : c.value + ONE_RC = ofCount 1 c := by
  cases c <;> decide

end Header

namespace ObjectHeap

/-! ## Code -/

/-- Write the word of an object. -/
def write (h : ObjectHeap) (o : ObjAddr) (bits : BitVec 64) : Option ObjectHeap :=
  (h o).map fun _ => Function.update h o (some bits)

/-- `init_next`. -/
def initNext (h : ObjectHeap) (o next : ObjAddr) : Option ObjectHeap :=
  h.write o (Header.ofAddress next .unmarked)

/-- `get_next`. -/
def getNext (h : ObjectHeap) (o : ObjAddr) : Option ObjAddr := do
  let bits ← h o
  if Header.getClass bits = some .unmarked then some (Header.address bits) else none

/-- The classes at which `get_next_any_mark` reads a link. -/
def anyMark : List (Option RegionMD) := [some .marked, some .unmarked, some .pending, some .iso]

/-- `get_next_any_mark`. -/
def getNextAnyMark (h : ObjectHeap) (o : ObjAddr) : Option ObjAddr := do
  let bits ← h o
  if Header.getClass bits ∈ anyMark then some (Header.address bits) else none

/-- `get_region`. -/
def getRegion (h : ObjectHeap) (o : ObjAddr) : Option ObjAddr := do
  let bits ← h o
  if Header.getClass bits = some .iso then some (Header.address bits) else none

/-- `mark`. -/
def mark (h : ObjectHeap) (o : ObjAddr) : Option ObjectHeap := do
  let bits ← h o
  if Header.getClass bits = some .unmarked then h.write o (bits ||| RegionMD.marked.value) else none

/-- `make_nonatomic_scc`. -/
def makeNonatomicScc (h : ObjectHeap) (o : ObjAddr) : Option ObjectHeap :=
  h.write o (RegionMD.nonatomicRc.value + Header.ONE_RC)

/-- `make_atomic`. -/
def makeAtomic (h : ObjectHeap) (o : ObjAddr) : Option ObjectHeap := do
  let bits ← h o
  if Header.getClass bits = some .nonatomicRc then
    h.write o (bits &&& ~~~Header.MASK ||| RegionMD.rc.value)
  else none

/-- `incref_nonatomic`. -/
def increfNonatomic (h : ObjectHeap) (o : ObjAddr) : Option ObjectHeap := do
  let bits ← h o
  if Header.getClass bits = some .nonatomicRc then h.write o (bits + Header.ONE_RC) else none

/-- `incref`. -/
def incref (h : ObjectHeap) (o : ObjAddr) : Option ObjectHeap := do
  let bits ← h o
  if Header.getClass bits = some .rc ∨ Header.getClass bits = some .shared then
    h.write o (bits + Header.ONE_RC)
  else none

/-- `decref`, without other threads: the count stays if it is one. -/
def decref (h : ObjectHeap) (o : ObjAddr) : Option (Bool × ObjectHeap) := do
  let bits ← h o
  let c ← Header.getClass bits
  if c ≠ .rc ∧ c ≠ .shared then none
  else if bits < Header.ONE_RC then none
  else if bits ≠ c.value + Header.ONE_RC then
    let h ← h.write o (bits - Header.ONE_RC)
    some (false, h)
  else some (true, h)

/-- `dealloc`: the object is not there any more. -/
def dealloc (h : ObjectHeap) (o : ObjAddr) : Option ObjectHeap :=
  (h o).map fun _ => Function.update h o none

/-! ## Reading lemmas -/

section

variable {h h' : ObjectHeap} {o p r u : ObjAddr} {bits w : BitVec 64} {c c' : RegionMD} {n : ℕ}

/-- An object that is there can be written. -/
theorem write_of_some (ho : h o = some bits) : h.write o w = some (Function.update h o (some w)) := by
  rw [write, ho, Option.map_some]

/-- The class of a word. -/
theorem getClass_of_some (ho : h o = some bits) : h.getClass o = Header.getClass bits := by
  rw [getClass, ho, Option.bind_some]

/-- The class of a word that was written. -/
theorem getClass_update_self : getClass (Function.update h o (some w)) o = Header.getClass w := by
  rw [getClass, Function.update_self, Option.bind_some]

/-- A write to a word without a link leaves the links. -/
theorem getScc_update (ho : h.getScc o = none) (hw : Header.getClass w ≠ some .sccPtr) :
    getScc (Function.update h o (some w)) = h.getScc := by
  funext u
  by_cases hu : u = o
  · subst hu
    rw [ho]
    refine getScc_eq_none ?_
    rwa [getClass_update_self]
  · exact (reads_eq (Function.update_of_ne hu ..)).2.1

/-- Such a write leaves the ends of all objects. -/
theorem endsAt_update (ho : h.getScc o = none) (hw : Header.getClass w ≠ some .sccPtr) :
    EndsAt (Function.update h o (some w)) u r ↔ h.EndsAt u r := by
  rw [EndsAt, getScc_update ho hw]
  rfl

/-- Links still end after such a write. -/
theorem Grounded.update (hg : h.Grounded) (ho : h.getScc o = none) (hc : h.getClass o = some c)
    (hw : Header.getClass w = some c') (hne : c' ≠ .sccPtr) (hroot : c' = c ∨ c'.isSccRoot = true) :
    Grounded (Function.update h o (some w)) := by
  have hscc : Header.getClass w ≠ some .sccPtr := by
    rw [hw]
    exact fun heq => hne (Option.some.inj heq)
  intro u bits hu
  obtain ⟨bits', hu'⟩ : ∃ bits', h u = some bits' := by
    by_cases huo : u = o
    · exact huo ▸ exists_of_getClass hc
    · exact ⟨bits, by rw [← hu, Function.update_of_ne huo]⟩
  obtain ⟨n, r, d, hleads, hd, hpos⟩ := hg u bits' hu'
  rw [getScc_update ho hscc]
  by_cases hro : r = o
  · subst hro
    refine ⟨n, r, c', hleads, by rw [getClass_update_self, hw], fun hn => ?_⟩
    rcases hroot with rfl | hroot
    · rw [Option.some.inj (hc.symm.trans hd)]
      exact hpos hn
    · exact hroot
  · exact ⟨n, r, d, hleads, by rw [(reads_eq (Function.update_of_ne hro ..)).1, hd], hpos⟩

/-- Components stay balanced after such a write. -/
theorem Balanced.update (hb : h.Balanced) (ho : h.getScc o = none)
    (hw : Header.getClass w ≠ some .sccPtr)
    (hrank : Header.getClass w = some .pending → Header.count w = 0) :
    Balanced (Function.update h o (some w)) := by
  intro r k hk
  have hcomp : component (Function.update h o (some w)) r = h.component r :=
    Set.ext fun u => endsAt_update ho hw
  rw [hcomp]
  by_cases hro : r = o
  · subst hro
    have hclass := getClass_of_pendingRank hk
    rw [getClass_update_self] at hclass
    have hzero : k = 0 := by
      have hread : pendingRank (Function.update h r (some w)) r = some (Header.count w) := by
        simp [pendingRank, hclass]
      rw [← Option.some.inj (hread.symm.trans hk), hrank hclass]
    have hmem : r ∈ h.component r := ⟨0, .root ho⟩
    rw [hzero, pow_zero]
    exact (Set.ncard_pos (Set.toFinite _)).mpr ⟨r, hmem⟩
  · exact hb r k (by rw [← (reads_eq (Function.update_of_ne hro ..)).2.2, hk])

/-- The last reference is dropped. -/
theorem decref_one (hc : c = .rc ∨ c = .shared) (ho : h o = some (Header.ofCount 1 c)) :
    h.decref o = some (true, h) := by
  have hclass : Header.getClass (Header.ofCount 1 c) = some c := Header.getClass_ofCount ..
  have hle : ¬ Header.ofCount 1 c < Header.ONE_RC := by
    rcases hc with rfl | rfl <;> decide
  rw [decref, ho]
  simp only [bind, Option.bind_some, hclass]
  rw [if_neg (by rcases hc with rfl | rfl <;> decide), if_neg hle,
    if_neg fun hne => hne (Header.value_add_one c).symm]

/-- Another reference is dropped. -/
theorem decref_succ (hc : c = .rc ∨ c = .shared) (hn : n + 2 < 2 ^ 60)
    (ho : h o = some (Header.ofCount (n + 2) c)) :
    h.decref o = some (false, Function.update h o (some (Header.ofCount (n + 1) c))) := by
  have hclass : Header.getClass (Header.ofCount (n + 2) c) = some c := Header.getClass_ofCount ..
  have hcount := Header.count_ofCount hn c
  have hle : ¬ Header.ofCount (n + 2) c < Header.ONE_RC := by
    intro hlt
    have hzero : Header.count (Header.ofCount (n + 2) c) = 0 := by
      have hnat := BitVec.lt_def.mp hlt
      have hone : Header.ONE_RC.toNat = 2 ^ 4 := rfl
      rw [hone] at hnat
      rw [Header.count, BitVec.toNat_ushiftRight, Nat.shiftRight_eq_div_pow]
      exact Nat.div_eq_of_lt hnat
    omega
  have hne : Header.ofCount (n + 2) c ≠ c.value + Header.ONE_RC := by
    rw [Header.value_add_one]
    intro heq
    have hcount' := congrArg Header.count heq
    rw [hcount, Header.count_ofCount (by omega)] at hcount'
    omega
  rw [decref, ho]
  simp only [bind, Option.bind_some, hclass]
  rw [if_neg (by rcases hc with rfl | rfl <;> decide), if_neg hle, if_pos hne,
    Header.ofCount_sub (n + 1) c, write_of_some ho]
  rfl

end

end ObjectHeap

end VeronaRt
