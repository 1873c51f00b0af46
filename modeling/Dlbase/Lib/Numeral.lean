import Mathlib

/-!
# Numerals

The numeral of a number in a base is the list of its digits without leading zeros, the most
significant one first; zero has the numeral `[0]`.
-/

namespace Cmem

variable {base n : Nat}

/-- The digits of `n`, the most significant one first. -/
def numeral (base n : Nat) : List Nat := if n = 0 then [0] else (base.digits n).reverse

/-- A number below the base is its own digit. -/
theorem numeral_of_lt (h : n < base) : numeral base n = [n] := by
  unfold numeral
  split_ifs with hz
  · rw [hz]
  · rw [Nat.digits_of_lt base n hz h, List.reverse_singleton]

/-- The last digit is the remainder. -/
theorem numeral_of_le (hbase : 1 < base) (h : base ≤ n) :
    numeral base n = numeral base (n / base) ++ [n % base] := by
  have hpos : 0 < n := by omega
  have hdiv : n / base ≠ 0 := Nat.ne_of_gt (Nat.div_pos h (by omega))
  rw [numeral, numeral, if_neg (Nat.ne_of_gt hpos), if_neg hdiv, Nat.digits_def' hbase hpos,
    List.reverse_cons]

theorem length_numeral (base n : Nat) : (numeral base n).length = max 1 (base.digits n).length := by
  unfold numeral
  split_ifs with hz
  · rw [hz, Nat.digits_zero]
    rfl
  · have hne : base.digits n ≠ [] := Nat.digits_ne_nil_iff_ne_zero.mpr hz
    have hpos : 0 < (base.digits n).length := List.length_pos_iff.mpr hne
    rw [List.length_reverse]
    omega

theorem numeral_lt (hbase : 1 < base) : ∀ d ∈ numeral base n, d < base := by
  unfold numeral
  split_ifs
  · rintro d hd
    rw [List.mem_singleton.mp hd]
    omega
  · intro d hd
    exact Nat.digits_lt_base hbase (List.mem_reverse.mp hd)

/-- The numeral read from the left is the number. -/
theorem foldl_numeral (hbase : 1 < base) (n : Nat) :
    (numeral base n).foldl (fun v d ↦ v * base + d) 0 = n := by
  induction n using Nat.strongRecOn with
  | ind n ih =>
    rcases Nat.lt_or_ge n base with hlt | hle
    · rw [numeral_of_lt hlt, List.foldl_cons, List.foldl_nil, Nat.zero_mul, Nat.zero_add]
    · rw [numeral_of_le hbase hle, List.foldl_append, ih _ (Nat.div_lt_self (by omega) hbase),
        List.foldl_cons, List.foldl_nil, Nat.mul_comm]
      exact Nat.div_add_mod n base

end Cmem
