import Mathlib

/-!
# Numbers in logarithmic slices

The slice `i` of a multiset of numbers has the numbers above `2 ^ (i - 1)` up to `2 ^ i`.  An array
for the numbers up to a power of two is dense if more than half of it would be used.  The sizes of
interest are those of the dense arrays, and among them the largest one.
-/

namespace Cmem

/-- How many of the numbers are at most `x`. -/
def upTo (P : Multiset Nat) (x : Nat) : Nat := P.countP (· ≤ x)

/-- How many of the numbers are in the slice `i`. -/
def slice (P : Multiset Nat) (i : Nat) : Nat := P.countP (Nat.clog 2 · = i)

/-- How many of the numbers are in the slices before `i`. -/
def below (P : Multiset Nat) (i : Nat) : Nat := P.countP (Nat.clog 2 · < i)

/-- The numbers in each of `k` slices, from the slice `i` on. -/
def slices (P : Multiset Nat) (i k : Nat) : List Nat := (List.range' i k).map (slice P)

/-- The slice is not empty, and more than half of an array of `2 ^ i` elements would be used. -/
def Dense (P : Multiset Nat) (i : Nat) : Prop := 0 < slice P i ∧ 2 ^ i < 2 * upTo P (2 ^ i)

/-- The largest size of a dense array with a slice before `k`, or `0` if there is none. -/
def IsSize (P : Multiset Nat) (k n : Nat) : Prop :=
  (n = 0 ∧ ∀ i < k, ¬ Dense P i) ∨
    ∃ i < k, n = 2 ^ i ∧ Dense P i ∧ ∀ j, i < j → j < k → ¬ Dense P j

variable {P Q : Multiset Nat} {i j k n m : Nat}

/-! ## Counting -/

theorem upTo_add (P Q : Multiset Nat) (x : Nat) : upTo (P + Q) x = upTo P x + upTo Q x :=
  Multiset.countP_add _ _ _

theorem upTo_le_card (P : Multiset Nat) (x : Nat) : upTo P x ≤ P.card := Multiset.countP_le_card _ _

theorem below_zero (P : Multiset Nat) : below P 0 = 0 :=
  Multiset.countP_eq_zero.mpr fun _ _ ↦ Nat.not_lt_zero _

theorem below_succ (P : Multiset Nat) (i : Nat) : below P (i + 1) = below P i + slice P i := by
  induction P using Multiset.induction_on with
  | empty => rfl
  | cons x P ih =>
    unfold below slice at ih ⊢
    rw [Multiset.countP_cons, Multiset.countP_cons, Multiset.countP_cons, ih]
    by_cases hlt : Nat.clog 2 x < i
    · rw [if_pos (by omega), if_pos hlt, if_neg (by omega)]
      omega
    · by_cases heq : Nat.clog 2 x = i
      · rw [if_pos (by omega), if_neg hlt, if_pos heq]
        omega
      · rw [if_neg (by omega), if_neg hlt, if_neg heq]
        rfl

/-- The slices up to `i` have the numbers up to `2 ^ i`. -/
theorem below_succ_eq (P : Multiset Nat) (i : Nat) : below P (i + 1) = upTo P (2 ^ i) :=
  Multiset.countP_congr rfl fun _ _ ↦
    propext (Nat.lt_succ_iff.trans (Nat.clog_le_iff_le_pow Nat.one_lt_two))

theorem below_le_card (P : Multiset Nat) (i : Nat) : below P i ≤ P.card :=
  Multiset.countP_le_card _ _

theorem below_mono (h : i ≤ j) : below P i ≤ below P j := by
  unfold below
  rw [Multiset.countP_eq_card_filter, Multiset.countP_eq_card_filter]
  exact Multiset.card_le_card (Multiset.monotone_filter_right P fun _ hx ↦ hx.trans_le h)

/-- There is nothing after the slice with the last one. -/
theorem slice_eq_zero (h : below P i = P.card) (hj : i ≤ j) : slice P j = 0 := by
  have hle := below_le_card P (j + 1)
  have hmono := below_mono (P := P) hj
  rw [below_succ] at hle
  omega

/-! ## Slices -/

theorem slices_succ (P : Multiset Nat) (i k : Nat) :
    slices P i (k + 1) = slice P i :: slices P (i + 1) k := by
  rw [slices, List.range'_succ, List.map_cons]
  rfl

/-- Numbers of one slice are added to the others. -/
theorem slices_modify (hj : i ≤ j) (hQ : ∀ x ∈ Q, Nat.clog 2 x = j) :
    (slices P i k).modify (j - i) (· + Q.card) = slices (P + Q) i k := by
  have hslice : ∀ l, slice Q l = if l = j then Q.card else 0 := fun l ↦ by
    unfold slice
    split_ifs with hl
    · exact Multiset.countP_eq_card.mpr fun x hx ↦ (hQ x hx).trans hl.symm
    · refine Multiset.countP_eq_zero.mpr fun x hx heq ↦ hl ?_
      rw [← heq, hQ x hx]
  refine List.ext_getElem (by simp [slices]) fun l hl hl' ↦ ?_
  have hadd : slice (P + Q) (i + l) = slice P (i + l) + slice Q (i + l) := Multiset.countP_add _ _ _
  rw [List.getElem_modify]
  simp only [slices, List.getElem_map, List.getElem_range', one_mul]
  rw [hadd, hslice]
  by_cases hl : j - i = l
  · rw [if_pos hl, if_pos (by omega)]
  · rw [if_neg hl, if_neg (by omega), Nat.add_zero]

/-! ## Sizes -/

theorem IsSize.succ_dense (h : Dense P i) : IsSize P (i + 1) (2 ^ i) :=
  .inr ⟨i, Nat.lt_succ_self i, rfl, h, fun j hj hlt ↦ absurd hlt (by omega)⟩

theorem IsSize.succ (h : IsSize P i n) (hd : ¬ Dense P i) : IsSize P (i + 1) n := by
  rcases h with ⟨rfl, hall⟩ | ⟨l, hl, rfl, hdense, hall⟩
  · refine .inl ⟨rfl, fun j hj ↦ ?_⟩
    rcases Nat.lt_succ_iff_lt_or_eq.mp hj with hj | rfl
    · exact hall j hj
    · exact hd
  · refine .inr ⟨l, by omega, rfl, hdense, fun j hlj hj ↦ ?_⟩
    rcases Nat.lt_succ_iff_lt_or_eq.mp hj with hj | rfl
    · exact hall j hlj hj
    · exact hd

/-- Slices that are not dense have no effect. -/
theorem IsSize.mono (h : IsSize P i n) (hi : i ≤ k) (hd : ∀ j, i ≤ j → ¬ Dense P j) :
    IsSize P k n := by
  induction hi with
  | refl => exact h
  | step hi ih => exact ih.succ (hd _ hi)

/-- There is one such size. -/
theorem IsSize.unique (h : IsSize P k n) (h' : IsSize P k m) : n = m := by
  rcases h with ⟨rfl, hall⟩ | ⟨i, hi, rfl, hd, hall⟩
  · rcases h' with ⟨rfl, -⟩ | ⟨j, hj, -, hd', -⟩
    · rfl
    · exact absurd hd' (hall j hj)
  · rcases h' with ⟨-, hall'⟩ | ⟨j, hj, rfl, hd', hall'⟩
    · exact absurd hd (hall' i hi)
    · rcases Nat.lt_trichotomy i j with hij | rfl | hij
      · exact absurd hd' (hall j hij hj)
      · rfl
      · exact absurd hd (hall' i hij hi)

/-- It is a power of two. -/
theorem IsSize.le_pow (h : IsSize P k n) : n = 0 ∨ ∃ i < k, n = 2 ^ i := by
  rcases h with ⟨rfl, -⟩ | ⟨i, hi, rfl, -⟩
  · exact .inl rfl
  · exact .inr ⟨i, hi, rfl⟩

end Cmem
