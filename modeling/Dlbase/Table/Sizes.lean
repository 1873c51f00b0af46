import Dlbase.Table.Model

/-!
# The size of the array part

`computesizes` is given how many integer keys there are in each slice between two powers of two.  A
power of two is a size if more than half of the numbers up to it are keys; the largest one is
returned.  The loop passes over the slices that have no keys, and it may end before the last slice.
Both are right because a slice has no more keys than numbers.
-/

namespace Dlbase.Table

open Cmem

variable {nums rest : List Nat} {i j n na : Nat}

/-- How many keys there are in the first `i` slices. -/
def counts (nums : List Nat) (i : Nat) : Nat := (nums.take i).sum

/-- More than half of the numbers up to `2 ^ i` are keys. -/
def HalfFull (nums : List Nat) (i : Nat) : Prop := 2 ^ i / 2 < counts nums (i + 1)

/-- No slice has more keys than numbers. -/
structure Slices (nums : List Nat) : Prop where
  /-- The first slice has the number 1. -/
  zero : nums.getD 0 0 ≤ 1
  /-- The slice `i` has the numbers above `2 ^ (i - 1)` up to `2 ^ i`. -/
  pos : ∀ i, 1 ≤ i → nums.getD i 0 ≤ 2 ^ (i - 1)

/-- `n` is the largest size among the first `i` powers of two, and `na` keys fit in. -/
def Best (nums : List Nat) (i n na : Nat) : Prop :=
  (n = 0 ∧ na = 0 ∧ ∀ j < i, ¬ HalfFull nums j) ∨
    ∃ k < i, n = 2 ^ k ∧ HalfFull nums k ∧ na = counts nums (k + 1) ∧
      ∀ j < i, HalfFull nums j → j ≤ k

/-- `n` is the largest size, and `na` keys fit in. -/
def Optimal (nums : List Nat) (n na : Nat) : Prop :=
  (n = 0 ∧ na = 0 ∧ ∀ j, ¬ HalfFull nums j) ∨
    ∃ k, n = 2 ^ k ∧ HalfFull nums k ∧ na = counts nums (k + 1) ∧ ∀ j, HalfFull nums j → j ≤ k

/-! ## Counts -/

theorem counts_succ (nums : List Nat) (i : Nat) :
    counts nums (i + 1) = counts nums i + nums.getD i 0 := by
  rw [counts, counts, List.getD_eq_getElem?_getD]
  rcases Nat.lt_or_ge i nums.length with h | h
  · rw [List.sum_take_succ nums i h, List.getElem?_eq_getElem h, Option.getD_some]
  · rw [List.take_of_length_le h, List.take_of_length_le (Nat.le_succ_of_le h),
      List.getElem?_eq_none h, Option.getD_none, Nat.add_zero]

theorem counts_mono (hij : i ≤ j) : counts nums i ≤ counts nums j := by
  induction hij with
  | refl => exact Nat.le_refl _
  | step _ ih =>
    rw [counts_succ]
    exact Nat.le_add_right_of_le ih

theorem counts_le_sum (nums : List Nat) (i : Nat) : counts nums i ≤ nums.sum := by
  have hsum : counts nums (max i nums.length) = nums.sum := by
    rw [counts, List.take_of_length_le (Nat.le_max_right _ _)]
  exact hsum ▸ counts_mono (Nat.le_max_left _ _)

/-- The first `i` slices have the numbers up to `2 ^ (i - 1)`. -/
theorem Slices.counts_le (h : Slices nums) (i : Nat) : counts nums (i + 1) ≤ 2 ^ i := by
  induction i with
  | zero =>
    rw [counts_succ]
    exact (Nat.zero_add _).trans_le h.zero
  | succ i ih =>
    have hpos := h.pos (i + 1) (Nat.succ_pos i)
    have hpow : (2 : Nat) ^ (i + 1) = 2 * 2 ^ i := Nat.pow_succ'
    rw [Nat.add_sub_cancel] at hpos
    rw [counts_succ]
    omega

/-- In front of a slice at most half of the numbers up to its end are keys. -/
theorem Slices.counts_le_half (h : Slices nums) (i : Nat) : counts nums i ≤ 2 ^ i / 2 := by
  cases i with
  | zero => exact Nat.zero_le _
  | succ i =>
    have hle := h.counts_le i
    have hpow : (2 : Nat) ^ (i + 1) = 2 * 2 ^ i := Nat.pow_succ'
    omega

/-- A slice without keys does not make a size. -/
theorem Slices.pos_of_halfFull (h : Slices nums) (hf : HalfFull nums i) : 0 < nums.getD i 0 := by
  have hle := h.counts_le_half i
  rw [HalfFull, counts_succ] at hf
  omega

/-- When half of the numbers are as many as the keys there are, there is no other size. -/
theorem not_halfFull_of_sum_le (h : nums.sum ≤ 2 ^ i / 2) (hij : i ≤ j) : ¬ HalfFull nums j := by
  have hle := counts_le_sum nums (j + 1)
  have hpow : (2 : Nat) ^ i ≤ 2 ^ j := Nat.pow_le_pow_right (by decide) hij
  rw [HalfFull]
  omega

/-- When all keys have been counted there is no other size. -/
theorem Slices.not_halfFull_of_counts (h : Slices nums) (hall : counts nums (i + 1) = nums.sum)
    (hij : i + 1 ≤ j) : ¬ HalfFull nums j := by
  have hle := h.counts_le_half (i + 1)
  exact not_halfFull_of_sum_le (hall ▸ hle) hij

/-! ## The loop -/

/-- A round of the loop. -/
theorem Best.succ (h : Best nums i n na) :
    (HalfFull nums i → Best nums (i + 1) (2 ^ i) (counts nums (i + 1))) ∧
      (¬ HalfFull nums i → Best nums (i + 1) n na) := by
  refine ⟨fun hf ↦ .inr ⟨i, Nat.lt_succ_self i, rfl, hf, rfl, fun j hj _ ↦ Nat.le_of_lt_succ hj⟩,
    fun hf ↦ ?_⟩
  rcases h with ⟨hn, hna, hnot⟩ | ⟨k, hk, hn, hfull, hna, hmax⟩
  · refine .inl ⟨hn, hna, fun j hj ↦ ?_⟩
    rcases Nat.lt_succ_iff_lt_or_eq.mp hj with hj | rfl
    · exact hnot j hj
    · exact hf
  · refine .inr ⟨k, Nat.lt_succ_of_lt hk, hn, hfull, hna, fun j hj hj' ↦ ?_⟩
    rcases Nat.lt_succ_iff_lt_or_eq.mp hj with hj | rfl
    · exact hmax j hj hj'
    · exact absurd hj' hf

/-- The loop may end when there is no other size. -/
theorem Best.optimal (h : Best nums i n na) (hnot : ∀ j, i ≤ j → ¬ HalfFull nums j) :
    Optimal nums n na := by
  rcases h with ⟨hn, hna, hlow⟩ | ⟨k, hk, hn, hfull, hna, hmax⟩
  · refine .inl ⟨hn, hna, fun j ↦ ?_⟩
    rcases Nat.lt_or_ge j i with hj | hj
    · exact hlow j hj
    · exact hnot j hj
  · refine .inr ⟨k, hn, hfull, hna, fun j hj ↦ ?_⟩
    rcases Nat.lt_or_ge j i with hj' | hj'
    · exact hmax j hj' hj
    · exact absurd hj (hnot j hj')

/-- The loop from the slice `i` on. -/
theorem computesizes_optimal (h : Slices nums) (hlen : nums.length = maxBits + 1)
    (hrest : rest = nums.drop i) (hi : i ≤ maxBits + 1) (hb : Best nums i n na) :
    ∃ na' n', computesizes nums.sum rest (2 ^ i) (counts nums i) na n = .ok (na', n') ∧
      Optimal nums n' na' := by
  induction rest generalizing i n na with
  | nil =>
    have hi' : i = maxBits + 1 := by
      have hge := List.drop_eq_nil_iff.mp hrest.symm
      omega
    have hsum : nums.sum ≤ 2 ^ i / 2 := by
      have hle := h.counts_le_half i
      rwa [counts, List.take_of_length_le (by omega)] at hle
    rw [computesizes, if_neg (Nat.not_lt.mpr hsum)]
    exact ⟨na, n, rfl, hb.optimal fun j hj ↦ not_halfFull_of_sum_le hsum hj⟩
  | cons c rest ih =>
    have hlt : i < nums.length := by
      by_contra hge
      rw [List.drop_eq_nil_of_le (Nat.not_lt.mp hge)] at hrest
      cases hrest
    rw [List.drop_eq_getElem_cons hlt] at hrest
    obtain ⟨hc, hrest⟩ := List.cons.inj hrest
    have hget : nums.getD i 0 = c := by
      rw [List.getD_eq_getElem?_getD, List.getElem?_eq_getElem hlt, Option.getD_some, hc]
    have ha : (if 0 < c then counts nums i + c else counts nums i) = counts nums (i + 1) := by
      rw [counts_succ, hget]
      split_ifs with h0
      · rfl
      · rw [Nat.eq_zero_of_not_pos h0, Nat.add_zero]
    have hfull : (0 < c ∧ 2 ^ i / 2 < counts nums (i + 1)) ↔ HalfFull nums i :=
      ⟨fun hf ↦ hf.2, fun hf ↦ ⟨hget ▸ h.pos_of_halfFull hf, hf⟩⟩
    rw [computesizes]
    by_cases hround : 2 ^ i / 2 < nums.sum
    swap
    · rw [if_neg hround]
      exact ⟨na, n, rfl, hb.optimal fun j hj ↦ not_halfFull_of_sum_le (Nat.not_lt.mp hround) hj⟩
    rw [if_pos hround]
    dsimp only
    rw [ha]
    -- what is known after this round
    obtain ⟨na₁, n₁, hna, hn, hb₁⟩ : ∃ na₁ n₁,
        (if 0 < c ∧ 2 ^ i / 2 < counts nums (i + 1) then counts nums (i + 1) else na) = na₁ ∧
        (if 0 < c ∧ 2 ^ i / 2 < counts nums (i + 1) then 2 ^ i else n) = n₁ ∧
        Best nums (i + 1) n₁ na₁ := by
      refine ⟨_, _, rfl, rfl, ?_⟩
      by_cases hf : HalfFull nums i
      · rw [if_pos (hfull.mpr hf), if_pos (hfull.mpr hf)]
        exact hb.succ.1 hf
      · rw [if_neg (hfull.not.mpr hf), if_neg (hfull.not.mpr hf)]
        exact hb.succ.2 hf
    rw [hna, hn]
    by_cases hall : counts nums (i + 1) = nums.sum
    · rw [if_pos hall]
      exact ⟨na₁, n₁, rfl, hb₁.optimal fun j hj ↦ h.not_halfFull_of_counts hall hj⟩
    · rw [if_neg hall, ← Nat.pow_succ]
      exact ih hrest (by omega) hb₁

/-- `computesizes` returns the largest size of the array part that is more than half full, and how
many keys go there, and it reads no entry of `nums` behind the last. -/
theorem computesizes_largest (nums : List Nat) (hlen : nums.length = maxBits + 1)
    (hzero : nums.getD 0 0 ≤ 1) (hpos : ∀ i, 1 ≤ i → nums.getD i 0 ≤ 2 ^ (i - 1)) :
    ∃ na n, computesizes nums.sum nums 1 0 0 0 = .ok (na, n) ∧ Optimal nums n na :=
  computesizes_optimal ⟨hzero, hpos⟩ hlen rfl (Nat.zero_le _)
    (.inl ⟨rfl, rfl, fun j hj ↦ absurd hj (Nat.not_lt_zero j)⟩)

/-- Three keys up to 4, and one more above 8. -/
theorem computesizes_largest_four :
    ∃ na n, computesizes ([1, 1, 1, 0, 1] ++ List.replicate 22 0).sum
        ([1, 1, 1, 0, 1] ++ List.replicate 22 0) 1 0 0 0 = .ok (na, n) ∧
      Optimal ([1, 1, 1, 0, 1] ++ List.replicate 22 0) n na :=
  computesizes_largest _ rfl (Nat.le_refl 1) fun i hi ↦ by
    rcases Nat.lt_or_ge i 27 with hlt | hge
    · have hall : ∀ i < 27, 1 ≤ i →
          ([1, 1, 1, 0, 1] ++ List.replicate 22 0).getD i 0 ≤ 2 ^ (i - 1) := by decide
      exact hall i hlt hi
    · rw [List.getD_eq_getElem?_getD, List.getElem?_eq_none hge]
      exact Nat.zero_le _

end Dlbase.Table
