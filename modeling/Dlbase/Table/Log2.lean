import Mathlib

/-!
# Binary logarithms

`dl_log2` and `ceillog2`, which round the sizes of tables and buffers to powers of two.
-/

namespace Dlbase.Table

/-- The table of `dl_log2`: the number of binary digits. -/
def log2Table : List Nat :=
  [0, 1, 2, 2, 3, 3, 3, 3, 4, 4, 4, 4, 4, 4, 4, 4, 5, 5, 5, 5, 5, 5, 5, 5, 5, 5, 5, 5, 5, 5, 5, 5]
    ++ List.replicate 32 6 ++ List.replicate 64 7 ++ List.replicate 128 8

/-- The loop of `dl_log2`. -/
def log2Loop (l : Int) (x : Nat) : Int :=
  if 256 ≤ x then log2Loop (l + 8) (x >>> 8) else l + log2Table.getD x 0
termination_by x
decreasing_by
  rw [Nat.shiftRight_eq_div_pow]
  omega

/-- `dl_log2`. -/
def dlLog2 (x : Nat) : Int := log2Loop (-1) x

/-- `ceillog2` of a value of an unsigned type with `w` bits. -/
def ceillog2 (w x : Nat) : Int := dlLog2 ((x + (2 ^ w - 1)) % 2 ^ w) + 1

theorem log2Table_getD {x : Nat} (h : x < 256) : log2Table.getD x 0 = Nat.log2 (2 * x + 1) := by
  revert x
  decide +kernel

/-- One round of the loop takes off eight binary digits. -/
theorem log2_shiftRight {x : Nat} (h : 256 ≤ x) :
    Nat.log2 (2 * x + 1) = Nat.log2 (2 * (x >>> 8) + 1) + 8 := by
  have hne : 2 * (x >>> 8) + 1 ≠ 0 := by omega
  rw [Nat.log2_eq_iff (by omega), Nat.shiftRight_eq_div_pow]
  rw [Nat.shiftRight_eq_div_pow] at hne
  have hlo := Nat.log2_self_le hne
  have hhi := Nat.lt_log2_self (n := 2 * (x / 2 ^ 8) + 1)
  generalize Nat.log2 (2 * (x / 2 ^ 8) + 1) = k at *
  cases k with
  | zero => omega
  | succ k =>
    have h₁ : 2 ^ (k + 1) = 2 * 2 ^ k := Nat.pow_succ'
    have h₂ : 2 ^ (k + 1 + 1) = 4 * 2 ^ k := by rw [Nat.pow_add, Nat.pow_add]; omega
    have h₃ : 2 ^ (k + 1 + 8) = 512 * 2 ^ k := by rw [Nat.pow_add, Nat.pow_add]; omega
    have h₄ : 2 ^ (k + 1 + 8 + 1) = 1024 * 2 ^ k := by rw [Nat.pow_add, Nat.pow_add, Nat.pow_add]; omega
    omega

theorem log2Loop_eq (l : Int) (x : Nat) : log2Loop l x = l + Nat.log2 (2 * x + 1) := by
  induction l, x using log2Loop.induct with
  | case1 l x hx ih =>
    rw [log2Loop, if_pos hx, ih, log2_shiftRight hx]
    omega
  | case2 l x hx => rw [log2Loop, if_neg hx, log2Table_getD (by omega)]

/-- `dl_log2` is one less than the number of binary digits. -/
theorem dlLog2_eq (x : Nat) : dlLog2 x = (Nat.log2 (2 * x + 1) : Int) - 1 := by
  rw [dlLog2, log2Loop_eq]
  omega

/-- `ceillog2` is the number of binary digits of the value before. -/
theorem ceillog2_eq {w x : Nat} :
    ceillog2 w x = Nat.log2 (2 * ((x + (2 ^ w - 1)) % 2 ^ w) + 1) := by
  rw [ceillog2, dlLog2_eq]
  omega

/-- `ceillog2` rounds the logarithm up. -/
theorem ceillog2_eq_clog {w x : Nat} (hx : 0 < x) (hw : x ≤ 2 ^ w) :
    ceillog2 w x = Nat.clog 2 x := by
  have hmod : (x + (2 ^ w - 1)) % 2 ^ w = x - 1 := by
    rw [show x + (2 ^ w - 1) = x - 1 + 2 ^ w by omega, Nat.add_mod_right, Nat.mod_eq_of_lt (by omega)]
  have hiff : ∀ k, Nat.log2 (2 * (x - 1) + 1) ≤ k ↔ Nat.clog 2 x ≤ k := fun k ↦ by
    rw [Nat.clog_le_iff_le_pow Nat.one_lt_two, ← Nat.lt_succ_iff, Nat.log2_lt (Nat.succ_ne_zero _),
      Nat.pow_succ]
    omega
  rw [ceillog2_eq, hmod]
  exact congrArg _ (le_antisymm ((hiff _).mpr le_rfl) ((hiff _).mp le_rfl))

end Dlbase.Table
