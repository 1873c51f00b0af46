import Mathlib

/-!
# Bits of a word

Testing, setting and clearing a bit with a mask, and what it means for a word to have all bits set
or none.
-/

namespace Cmem

variable {w : Nat} {x y : BitVec w} {i j : Nat}

/-- A bit is tested with a mask. -/
theorem and_twoPow_ne_zero (hi : i < w) : x &&& BitVec.twoPow w i ≠ 0 ↔ x.getLsbD i := by
  rw [BitVec.and_twoPow]
  split_ifs with h
  · refine iff_of_true (fun hz ↦ ?_) h
    have hb := congrArg (BitVec.getLsbD · i) hz
    rw [BitVec.getLsbD_twoPow] at hb
    simp [hi] at hb
  · exact iff_of_false (fun hz ↦ hz rfl) h

/-- A bit is set. -/
theorem getLsbD_or_twoPow (hi : i < w) :
    (x ||| BitVec.twoPow w i).getLsbD j ↔ x.getLsbD j ∨ j = i := by
  rw [BitVec.getLsbD_or, BitVec.getLsbD_twoPow, Bool.or_eq_true, Bool.and_eq_true, decide_eq_true_iff,
    decide_eq_true_iff, and_iff_right hi, eq_comm (a := j)]

/-- A bit is cleared. -/
theorem getLsbD_and_not_twoPow :
    (x &&& ~~~BitVec.twoPow w i).getLsbD j ↔ x.getLsbD j ∧ j ≠ i := by
  by_cases hj : j < w
  · rw [BitVec.getLsbD_and, BitVec.getLsbD_not, BitVec.getLsbD_twoPow]
    by_cases hij : i = j
    · simp [hij]
    · simp [hij, Ne.symm hij, hj]
  · simp [BitVec.getLsbD_of_ge x j (Nat.le_of_not_lt hj)]

/-- All bits are set. -/
theorem eq_allOnes_iff : x = BitVec.allOnes w ↔ ∀ j, j < w → x.getLsbD j := by
  constructor
  · rintro rfl j hj
    rw [BitVec.getLsbD_allOnes]
    exact decide_eq_true hj
  · intro h
    refine BitVec.eq_of_getLsbD_eq fun j hj ↦ ?_
    rw [BitVec.getLsbD_allOnes, h j hj, decide_eq_true hj]

/-- No bit is set. -/
theorem eq_zero_iff : x = 0 ↔ ∀ j, j < w → ¬ x.getLsbD j := by
  constructor
  · rintro rfl j -
    simp
  · intro h
    refine BitVec.eq_of_getLsbD_eq fun j hj ↦ ?_
    rw [Bool.eq_false_iff.mpr (h j hj)]
    simp

/-- Words that agree under a mask. -/
theorem and_eq_iff {m : BitVec w} : x &&& m = y &&& m ↔
    ∀ j, j < w → m.getLsbD j → x.getLsbD j = y.getLsbD j := by
  constructor
  · intro h j _ hm
    have hb := congrArg (BitVec.getLsbD · j) h
    simpa [hm] using hb
  · intro h
    refine BitVec.eq_of_getLsbD_eq fun j hj ↦ ?_
    rw [BitVec.getLsbD_and, BitVec.getLsbD_and]
    cases hm : m.getLsbD j with
    | false => rw [Bool.and_false, Bool.and_false]
    | true => rw [h j hj hm]

end Cmem
