import Mathlib.Data.List.TakeDrop
import Mathlib.Data.List.TakeWhile

/-!
# Strings in buffers

A string in a buffer is terminated by the first zero byte.  The functions write byte by byte and
return `none` when one of the writes is outside the buffer, or when a string to be read is not
terminated in it.  A string that is only read is given by its bytes before the zero.
-/

namespace Foundation

variable {buf s t : List UInt8} {i n : ℕ}

/-- Write a string and its zero byte from an index on. -/
def putString (buf : List UInt8) (i : ℕ) : List UInt8 → Option (List UInt8)
  | [] => if i < buf.length then some (buf.set i 0) else none
  | c :: s => if i < buf.length then putString (buf.set i c) (i + 1) s else none

/-- The length of the string in a buffer. -/
def strlen : List UInt8 → Option ℕ
  | [] => none
  | c :: buf => if c = 0 then some 0 else (strlen buf).map (· + 1)

/-- Copy a string into a buffer. -/
def strcpy (buf s : List UInt8) : Option (List UInt8) := putString buf 0 s

/-- Append at most `n` bytes of a string to the one in the buffer. -/
def strncat (buf s : List UInt8) (n : ℕ) : Option (List UInt8) := do
  putString buf (← strlen buf) (s.take n)

/-- The string in a buffer. -/
def cString (buf : List UInt8) : List UInt8 := buf.takeWhile (· ≠ 0)

/-- No byte of a string is zero. -/
theorem zero_notMem_cString (buf : List UInt8) : 0 ∉ cString buf := by
  intro hmem
  simpa using List.mem_takeWhile_imp hmem

/-- The buffer has the string `s`. -/
structure HasString (buf s : List UInt8) : Prop where
  /-- No byte of the string is zero. -/
  zero_notMem : 0 ∉ s
  /-- A zero byte follows. -/
  eq_append : ∃ rest, buf = s ++ 0 :: rest

/-- A string that fits is written. -/
theorem putString_of_lt (h : i + s.length < buf.length) :
    putString buf i s = some (buf.take i ++ s ++ 0 :: buf.drop (i + s.length + 1)) := by
  induction s generalizing buf i with
  | nil =>
    have hi : i < buf.length := h
    rw [putString, if_pos hi, List.set_eq_take_append_cons_drop, if_pos hi]
    simp
  | cons c s ih =>
    have hi : i < buf.length := by
      rw [List.length_cons] at h
      omega
    have hlen : i + 1 + s.length < (buf.set i c).length := by
      rw [List.length_set]
      rw [List.length_cons] at h
      omega
    have htake : (buf.set i c).take (i + 1) = buf.take i ++ [c] := by
      rw [List.take_add_one, List.take_set_of_le (Nat.le_refl i), List.getElem?_set_self hi]
      rfl
    have hdrop : (buf.set i c).drop (i + 1 + s.length + 1) =
        buf.drop (i + (c :: s).length + 1) := by
      rw [List.drop_set_of_lt (by omega), List.length_cons]
      congr 1
      omega
    rw [putString, if_pos hi, ih hlen, htake, hdrop]
    simp

/-- A string that does not fit is written outside the buffer. -/
theorem putString_of_le (h : buf.length ≤ i + s.length) : putString buf i s = none := by
  induction s generalizing buf i with
  | nil => exact if_neg (Nat.not_lt.mpr h)
  | cons c s ih =>
    rw [putString]
    split
    · exact ih (by simp at h ⊢; omega)
    · rfl

/-- The length of the string that a buffer has. -/
theorem HasString.strlen_eq (h : HasString buf s) : strlen buf = some s.length := by
  obtain ⟨hzero, rest, rfl⟩ := h
  induction s with
  | nil => rfl
  | cons c s ih =>
    obtain ⟨hc, hs⟩ := List.ne_and_not_mem_of_not_mem_cons hzero
    rw [List.cons_append, strlen, if_neg hc.symm, ih hs]
    rfl

/-- The string that a buffer has. -/
theorem HasString.cString_eq (h : HasString buf s) : cString buf = s := by
  obtain ⟨hzero, rest, rfl⟩ := h
  induction s with
  | nil => rfl
  | cons c s ih =>
    obtain ⟨hc, hs⟩ := List.ne_and_not_mem_of_not_mem_cons hzero
    rw [cString, List.cons_append, List.takeWhile_cons_of_pos (by simpa using hc.symm)]
    exact congrArg _ (ih hs)

/-- A copy writes inside the buffer exactly if the string and its zero byte fit. -/
theorem strcpy_spec (hs : 0 ∉ s) (buf : List UInt8) :
    (buf.length ≤ s.length → strcpy buf s = none) ∧
    (s.length < buf.length →
      ∃ buf', strcpy buf s = some buf' ∧ buf'.length = buf.length ∧ HasString buf' s) := by
  refine ⟨fun hle => putString_of_le (by omega), fun hlt => ?_⟩
  refine ⟨_, putString_of_lt (by omega), ?_, hs, _, rfl⟩
  simp
  omega

/-- An appended string is written inside the buffer exactly if both and a zero byte fit. -/
theorem HasString.strncat_spec (h : HasString buf t) (hs : 0 ∉ s) (n : ℕ) :
    (buf.length ≤ t.length + (s.take n).length → strncat buf s n = none) ∧
    (t.length + (s.take n).length < buf.length →
      ∃ buf', strncat buf s n = some buf' ∧ buf'.length = buf.length ∧
        HasString buf' (t ++ s.take n)) := by
  have hcat : strncat buf s n = putString buf t.length (s.take n) := by
    rw [strncat, h.strlen_eq]
    rfl
  obtain ⟨hzero, rest, hbuf⟩ := h
  rw [hcat]
  refine ⟨putString_of_le, fun hlt => ?_⟩
  refine ⟨_, putString_of_lt hlt, ?_, ?_, buf.drop (t.length + (s.take n).length + 1), ?_⟩
  · simp only [List.length_append, List.length_take, List.length_cons, List.length_drop] at hlt ⊢
    omega
  · intro hmem
    rcases List.mem_append.mp hmem with hmem | hmem
    · exact hzero hmem
    · exact hs (List.mem_of_mem_take hmem)
  · have htake : buf.take t.length = t := by rw [hbuf, List.take_left']; rfl
    rw [htake]

end Foundation
