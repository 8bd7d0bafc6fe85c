import Mathlib.Data.BitVec
import Mathlib.Tactic.Common
import VeronaFs.Runtime.Object

/-!
# Header words

The first word of an object header as the runtime stores it.  Its low bits are the class, and the
bits above them a reference, a count or a rank: objects are aligned, so the address of an object has
no low bits.  A heap has a word for every object.
-/

namespace VeronaRt

/-! ## The word -/

/-- The value of a class. -/
def RegionMD.value : RegionMD → BitVec 64
  | .unmarked => 0x0
  | .marked => 0x1
  | .sccPtr => 0x2
  | .rc => 0x3
  | .iso => 0x4
  | .pending => 0x5
  | .nonatomicRc => 0x6
  | .shared => 0x7
  | .openIso => 0x8

/-- The class with a value. -/
def RegionMD.ofValue? (v : BitVec 64) : Option RegionMD :=
  [.unmarked, .marked, .sccPtr, .rc, .iso, .pending, .nonatomicRc, .shared, .openIso].find?
    fun c => c.value = v

namespace Header

/-- The bits of the class: the bits below the alignment of objects. -/
def MASK : BitVec 64 := 0xf

/-- The number of these bits. -/
def SHIFT : ℕ := 4

end Header

/-- The addresses of objects. -/
abbrev ObjAddr := { a : BitVec 64 // a &&& Header.MASK = 0#64 }

namespace Header

/-- `get_class`, unless the value is that of no class. -/
def getClass (bits : BitVec 64) : Option RegionMD := RegionMD.ofValue? (bits &&& MASK)

/-- The address in a word, without the class. -/
def address (bits : BitVec 64) : ObjAddr :=
  ⟨bits &&& ~~~MASK, by rw [BitVec.and_assoc, BitVec.and_comm (~~~MASK)]; simp⟩

/-- The word with an address and a class. -/
def ofAddress (o : ObjAddr) (c : RegionMD) : BitVec 64 := o.1 ||| c.value

/-- The number in a word, without the class. -/
def count (bits : BitVec 64) : ℕ := (bits >>> SHIFT).toNat

/-- The word with a number and a class. -/
def ofCount (n : ℕ) (c : RegionMD) : BitVec 64 := (BitVec.ofNat 64 n <<< SHIFT) ||| c.value

/-- The values of the classes are told apart. -/
theorem ofValue?_value (c : RegionMD) : RegionMD.ofValue? (c.value &&& MASK) = some c := by
  cases c <;> decide

/-- The values of the classes have no other bits. -/
theorem value_ushiftRight (c : RegionMD) : c.value >>> SHIFT = 0#64 := by
  cases c <;> decide

/-- The values of the classes have no bits of an address. -/
theorem value_and_not (c : RegionMD) : c.value &&& ~~~MASK = 0#64 := by
  cases c <;> decide

/-- A shifted number has no bits of a class. -/
theorem shiftLeft_and_mask (x : BitVec 64) : x <<< SHIFT &&& MASK = 0#64 := by
  refine BitVec.eq_of_toNat_eq ?_
  have hmask : MASK.toNat = 2 ^ 4 - 1 := rfl
  rw [BitVec.toNat_and, hmask, Nat.and_two_pow_sub_one_eq_mod, BitVec.toNat_shiftLeft,
    Nat.shiftLeft_eq, SHIFT]
  change _ = 0
  omega

/-- The class of a word with an address. -/
@[simp] theorem getClass_ofAddress (o : ObjAddr) (c : RegionMD) :
    getClass (ofAddress o c) = some c := by
  rw [getClass, ofAddress, BitVec.and_or_distrib_right, o.2, BitVec.zero_or, ofValue?_value]

/-- The address of a word with an address. -/
@[simp] theorem address_ofAddress (o : ObjAddr) (c : RegionMD) : address (ofAddress o c) = o := by
  refine Subtype.ext ?_
  have hbits : o.1 &&& ~~~MASK = o.1 := by
    have hsplit : (o.1 &&& MASK) ||| (o.1 &&& ~~~MASK) = o.1 := by
      rw [← BitVec.and_or_distrib_left, BitVec.or_not_self, BitVec.and_allOnes]
    rwa [o.2, BitVec.zero_or] at hsplit
  change (o.1 ||| c.value) &&& ~~~MASK = o.1
  rw [BitVec.and_or_distrib_right, hbits, value_and_not, BitVec.or_zero]

/-- The class of a word with a number. -/
@[simp] theorem getClass_ofCount (n : ℕ) (c : RegionMD) : getClass (ofCount n c) = some c := by
  rw [getClass, ofCount, BitVec.and_or_distrib_right, shiftLeft_and_mask, BitVec.zero_or,
    ofValue?_value]

/-- The number of a word with a number. -/
theorem count_ofCount {n : ℕ} (hn : n < 2 ^ 60) (c : RegionMD) : count (ofCount n c) = n := by
  have hshift : (BitVec.ofNat 64 n <<< SHIFT) >>> SHIFT = BitVec.ofNat 64 n := by
    refine BitVec.eq_of_toNat_eq ?_
    rw [BitVec.toNat_ushiftRight, BitVec.toNat_shiftLeft, BitVec.toNat_ofNat, Nat.shiftLeft_eq,
      Nat.shiftRight_eq_div_pow, SHIFT]
    omega
  rw [count, ofCount, BitVec.ushiftRight_or_distrib, hshift, value_ushiftRight, BitVec.or_zero,
    BitVec.toNat_ofNat, Nat.mod_eq_of_lt (by omega)]

end Header

end VeronaRt
