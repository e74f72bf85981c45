import Mathlib.Data.BitVec

/-!
# Flag words

A word whose low bits are flags and whose high bits are an address, as page-table entries are.
`test` is C's truth value of `word & mask`; for a one-bit mask it commutes with the bitwise
operations, which is all a flag update needs.
-/

namespace OsSessional.Bits

variable {w : Nat}

/-- The truth value of `x & m`. -/
def test (x m : BitVec w) : Bool := x &&& m != 0

/-- A mask with exactly one bit inside the word. -/
def IsFlag (m : BitVec w) : Prop := ∃ i < w, m = BitVec.twoPow w i

theorem test_twoPow (x : BitVec w) (i : Nat) (hi : i < w) :
    test x (BitVec.twoPow w i) = x.getLsbD i := by
  have hne : BitVec.twoPow w i ≠ 0 := by
    intro h
    have hbit := congrArg (fun y => y.getLsbD i) h
    simp [hi] at hbit
  unfold test
  rw [BitVec.and_twoPow]
  split
  · next h => simpa [h] using hne
  · next h => simp [h]

variable {x y m : BitVec w}

theorem test_or (hm : IsFlag m) : test (x ||| y) m = (test x m || test y m) := by
  obtain ⟨i, hi, rfl⟩ := hm
  simp [test_twoPow, hi]

theorem test_and (hm : IsFlag m) : test (x &&& y) m = (test x m && test y m) := by
  obtain ⟨i, hi, rfl⟩ := hm
  simp [test_twoPow, hi]

theorem test_not (hm : IsFlag m) : test (~~~x) m = !test x m := by
  obtain ⟨i, hi, rfl⟩ := hm
  simp [test_twoPow, hi]

@[simp] theorem test_zero : test (0#w) m = false := by
  simp [test]

theorem or_and (x y m : BitVec w) : (x ||| y) &&& m = (x &&& m) ||| (y &&& m) := by
  ext i
  simp [Bool.and_or_distrib_right]

theorem and_and_self (x m : BitVec w) : (x &&& m) &&& m = x &&& m := by
  ext i
  simp

theorem and_and_not (x m : BitVec w) : (x &&& m) &&& ~~~m = 0 := by
  ext i
  simp

/-- Removing a flag that lies outside the mask leaves the masked part alone. -/
theorem and_not_flag_and {f : BitVec w} (hf : f &&& m = 0) : (x &&& ~~~f) &&& m = x &&& m := by
  ext i hi
  have hbit := congrArg (fun z => z.getLsbD i) hf
  simp only [BitVec.getLsbD_and] at hbit
  rw [BitVec.getLsbD_eq_getElem hi, BitVec.getLsbD_eq_getElem hi] at hbit
  simp only [BitVec.getElem_and, BitVec.getElem_not]
  cases hm : m[i] <;> simp_all

/-- Setting a flag that is set changes nothing. -/
theorem or_of_test (hm : IsFlag m) (h : test x m = true) : x ||| m = x := by
  obtain ⟨i, hi, rfl⟩ := hm
  rw [test_twoPow x i hi] at h
  ext j hj
  simp only [BitVec.getElem_or, BitVec.getElem_twoPow]
  by_cases hij : j = i
  · subst hij
    rw [BitVec.getLsbD_eq_getElem hj] at h
    simp [h]
  · simp [hij]

end OsSessional.Bits
