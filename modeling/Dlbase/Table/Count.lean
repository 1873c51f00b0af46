import Dlbase.Lib.Slices
import Dlbase.Table.Resize

/-!
# Counting

What the counting passes of `dl_rehash` count, and which sizes follow from it.  An element of the
array is counted under the number after its index, a key that is an integer under itself.
-/

namespace Dlbase.Table

open Cmem

/-- The number under which an element of the array is counted. -/
def cellNumber (i : Nat) (v : Option Value) : Multiset Nat :=
  match v with
  | some v => if v.tt = .nil then 0 else {i + 1}
  | none => 0

/-- The numbers of the elements from `a` to `b`. -/
def arrayNumbers (t : DlTable) (a b : Nat) : Multiset Nat :=
  ∑ i ∈ Finset.Ico a b, cellNumber i ((t.array.getD [])[i]?)

/-- The number under which a key is counted. -/
def Key.number : Key → Multiset Nat
  | int n => if 0 < n ∧ n ≤ 2 ^ maxBits then {n.toNat} else 0
  | _ => 0

/-- The entries of the nodes, and that of `_dummynode`. -/
def allNodes (t : DlTable) : Entries := ∑ i ∈ Finset.range t.sizenode, entryAt t.node i

/-- The numbers of keys. -/
def numbers (K : Multiset Key) : Multiset Nat := K.bind Key.number

/-- The end of the part of the array that is counted. -/
def arrayEnd (t : DlTable) : Nat := min t.sizearray.toNat (2 ^ maxBits)

/-- Everything that is counted for the key `ek`. -/
def counted (t : DlTable) (ek : Key) : Multiset Nat :=
  arrayNumbers t 0 (arrayEnd t) + numbers (ek ::ₘ (allNodes t).map Prod.fst)

variable {t : DlTable} {P Q : Multiset Nat} {ek : Key} {i k c : Nat} {nums nums' : List Nat}

/-! ## The array -/

theorem natCast_two_pow (k : Nat) : ((2 ^ k : Nat) : Int) = 2 ^ k := by
  push_cast
  rfl

theorem arrayNumbers_add (t : DlTable) {a b c : Nat} (hab : a ≤ b) (hbc : b ≤ c) :
    arrayNumbers t a b + arrayNumbers t b c = arrayNumbers t a c :=
  Finset.sum_Ico_consecutive _ hab hbc

theorem mem_arrayNumbers {a b x : Nat} (h : x ∈ arrayNumbers t a b) : a < x ∧ x ≤ b := by
  obtain ⟨i, hi, hx⟩ := Multiset.mem_sum.mp h
  rw [Finset.mem_Ico] at hi
  unfold cellNumber at hx
  split at hx
  · split_ifs at hx
    · cases hx
    · rw [Multiset.mem_singleton.mp hx]
      omega
  · cases hx

/-- The inner loop of `numusearray` counts the elements of a slice. -/
theorem countSlice_eq (h : countSlice t k (i + 1) = .ok c) :
    c = (arrayNumbers t i (i + k)).card := by
  induction k generalizing i c with
  | zero =>
    obtain rfl := Except.ok.inj h
    rw [arrayNumbers, Nat.add_zero, Finset.Ico_self]
    rfl
  | succ k ih =>
    obtain ⟨v, hv, h⟩ := Exec.bind_eq_ok.mp h
    obtain ⟨lc, hlc, h⟩ := Exec.bind_eq_ok.mp h
    obtain rfl := Except.ok.inj h
    have hcell : (t.array.getD [])[i]? = some v := getElem?_of_loadArray hv
    have hone : arrayNumbers t i (i + 1) = cellNumber i (some v) := by
      rw [arrayNumbers, Nat.Ico_succ_singleton, Finset.sum_singleton, hcell]
    rw [← arrayNumbers_add t (Nat.le_add_right i 1) (by omega), Multiset.card_add, hone, ih hlc,
      show i + (k + 1) = i + 1 + k by omega]
    by_cases hnil : v.tt = .nil
    · rw [if_pos hnil, cellNumber, if_pos hnil, Multiset.card_zero, Nat.zero_add]
    · rw [if_neg hnil, cellNumber, if_neg hnil, Multiset.card_singleton, Nat.add_comm]

/-- The loop of `numusearray`; the elements before `i` have been counted. -/
theorem numusearrayLoop_eq {lg ause u : Nat} (hk : k + lg = maxBits + 1) (hlo : i ≤ t.sizearray.toNat)
    (hhi : i + 1 ≤ 2 ^ lg) (hi : lg = 0 ∨ t.sizearray < (i + 1 : Nat) ∨ 2 ^ (lg - 1) < i + 1)
    (h : numusearrayLoop t k lg (i + 1) ause (slices P 0 (maxBits + 1)) = .ok (u, nums)) :
    u = ause + (arrayNumbers t i (arrayEnd t)).card ∧
      nums = slices (P + arrayNumbers t i (arrayEnd t)) 0 (maxBits + 1) := by
  induction k generalizing lg i ause P with
  | zero =>
    obtain ⟨rfl, rfl⟩ := Prod.mk.inj (Except.ok.inj h)
    obtain rfl : lg = maxBits + 1 := by omega
    have hend : arrayEnd t ≤ i := by
      rw [arrayEnd]
      rcases hi with hi | hi | hi
      · cases hi
      · omega
      · rw [Nat.add_sub_cancel] at hi
        omega
    rw [arrayNumbers, Finset.Ico_eq_empty_of_le hend]
    exact ⟨rfl, by rw [Finset.sum_empty, add_zero]⟩
  | succ k ih =>
    rw [numusearrayLoop] at h
    have hpow : (2 : Nat) ^ lg ≤ 2 ^ maxBits := Nat.pow_le_pow_right (by decide) (by omega)
    have hpow' : (2 : Nat) ^ (lg + 1) = 2 * 2 ^ lg := Nat.pow_succ'
    have hcast := natCast_two_pow lg
    -- either there are no more elements, or the slice ends at `e`
    have hcases : (t.sizearray < 2 ^ lg ∧ t.sizearray < (i + 1 : Nat)) ∨
        ∃ e : Nat, (if t.sizearray < 2 ^ lg then t.sizearray else 2 ^ lg) = (e : Int) ∧
          ¬ (t.sizearray < 2 ^ lg ∧ (e : Int) < (i + 1 : Nat)) ∧ i + 1 ≤ e ∧
          e ≤ t.sizearray.toNat ∧ e ≤ 2 ^ lg ∧ (e = 2 ^ lg ∨ t.sizearray ≤ e) := by
      by_cases hsize : t.sizearray < 2 ^ lg
      · by_cases hlast : t.sizearray < ((i + 1 : Nat) : Int)
        · exact .inl ⟨hsize, hlast⟩
        · refine .inr ⟨t.sizearray.toNat, ?_, fun hand ↦ hlast (by omega), by omega, le_rfl, by omega,
            .inr (by omega)⟩
          rw [if_pos hsize]
          omega
      · refine .inr ⟨2 ^ lg, ?_, fun hand ↦ hsize hand.1, hhi, by omega, le_rfl, .inl rfl⟩
        rw [if_neg hsize, hcast]
    rcases hcases with ⟨hsize, hlast⟩ | ⟨e, he, hbreak, hie, hes, heg, hend⟩
    · simp only [if_pos hsize] at h
      rw [if_pos ⟨hsize, hlast⟩] at h
      obtain ⟨rfl, rfl⟩ := Prod.mk.inj (Except.ok.inj h)
      have hnone : arrayEnd t ≤ i := by
        rw [arrayEnd]
        omega
      rw [arrayNumbers, Finset.Ico_eq_empty_of_le hnone]
      exact ⟨rfl, by rw [Finset.sum_empty, add_zero]⟩
    · dsimp only at h
      rw [he, if_neg hbreak, show ((e : Int) + 1 - ((i + 1 : Nat) : Int)).toNat = e - i by omega] at h
      obtain ⟨lc, hlc, h⟩ := Exec.bind_eq_ok.mp h
      rw [countSlice_eq hlc, show i + (e - i) = e by omega,
        show i + 1 + (e - i) = e + 1 by omega] at h
      -- the elements of the slice are counted together
      have hslice : ∀ x ∈ arrayNumbers t i e, Nat.clog 2 x = lg := fun x hx ↦ by
        obtain ⟨hix, hxe⟩ := mem_arrayNumbers hx
        refine le_antisymm ((Nat.clog_le_iff_le_pow Nat.one_lt_two).mpr (by omega)) ?_
        rcases hi with rfl | hi | hi
        · exact Nat.zero_le _
        · omega
        · by_contra hlt
          have hle := (Nat.clog_le_iff_le_pow (x := x) (y := lg - 1) Nat.one_lt_two).mp (by omega)
          omega
      have hmod := slices_modify (P := P) (k := maxBits + 1) (Nat.zero_le lg) hslice
      rw [Nat.sub_zero] at hmod
      rw [hmod] at h
      have hle : e ≤ arrayEnd t := by
        rw [arrayEnd]
        omega
      obtain ⟨rfl, rfl⟩ := ih (by omega) hes (by omega) (.inr (by
        rw [Nat.add_sub_cancel]
        rcases hend with hend | hend <;> omega)) h
      rw [← arrayNumbers_add t (show i ≤ e by omega) hle, Multiset.card_add]
      exact ⟨by omega, by rw [add_assoc]⟩

/-- `numusearray` counts the elements of the array. -/
theorem numusearray_eq {u : Nat} (h : numusearray t (List.replicate (maxBits + 1) 0) = .ok (u, nums)) :
    u = (arrayNumbers t 0 (arrayEnd t)).card ∧
      nums = slices (arrayNumbers t 0 (arrayEnd t)) 0 (maxBits + 1) := by
  have hzero : List.replicate (maxBits + 1) 0 = slices 0 0 (maxBits + 1) := by
    refine List.ext_getElem (by simp [slices]) fun i hi hi' ↦ ?_
    simp only [slices, List.getElem_replicate, List.getElem_map]
    rfl
  rw [hzero, numusearray] at h
  obtain ⟨rfl, rfl⟩ := numusearrayLoop_eq (by omega) (Nat.zero_le _) (by decide) (.inl rfl) h
  exact ⟨Nat.zero_add _, by rw [zero_add]⟩

/-! ## The nodes -/

theorem number_pos {x : Nat} (h : x ∈ ek.number) : 0 < x ∧ x ≤ 2 ^ maxBits := by
  have hcast := natCast_two_pow maxBits
  unfold Key.number at h
  split at h
  · split_ifs at h with hn
    · rw [Multiset.mem_singleton.mp h]
      omega
    · cases h
  · cases h

/-- `countint` counts a key. -/
theorem countint_eq (key : Key) (P : Multiset Nat) : countint key (slices P 0 (maxBits + 1)) =
    (key.number.card, slices (P + key.number) 0 (maxBits + 1)) := by
  cases key with
  | int n =>
    by_cases hn : 0 < n ∧ n ≤ 2 ^ maxBits
    · have hcast := natCast_two_pow maxBits
      have hpow : (2 : Nat) ^ maxBits ≤ 2 ^ 64 := by decide
      have hlog : ceillog2 64 n.toNat = Nat.clog 2 n.toNat := ceillog2_eq_clog (by omega) (by omega)
      have hmod := slices_modify (P := P) (Q := {n.toNat}) (k := maxBits + 1)
        (Nat.zero_le (Nat.clog 2 n.toNat)) fun x hx ↦ by rw [Multiset.mem_singleton.mp hx]
      rw [countint, if_pos hn, hlog, Int.toNat_natCast, Key.number, if_pos hn,
        Multiset.card_singleton, ← hmod, Nat.sub_zero]
      rfl
    · rw [countint, if_neg hn, Key.number, if_neg hn, add_zero]
      rfl
  | null => exact congrArg (fun Q ↦ (0, slices Q 0 (maxBits + 1))) (add_zero P).symm
  | nil => exact congrArg (fun Q ↦ (0, slices Q 0 (maxBits + 1))) (add_zero P).symm
  | str p => exact congrArg (fun Q ↦ (0, slices Q 0 (maxBits + 1))) (add_zero P).symm

theorem numbers_add (K L : Multiset Key) : numbers (K + L) = numbers K + numbers L :=
  Multiset.add_bind _ _ _

/-- The loop of `numusehash` counts the nodes and those of their keys that can be in an array. -/
theorem numusehashLoop_eq {u a u' a' : Nat}
    (h : numusehashLoop t i u a (slices P 0 (maxBits + 1)) = .ok (u', a', nums)) :
    ∃ E : Entries, E = (∑ j ∈ Finset.range i, entryAt t.node j) ∧ u' = u + E.card ∧
      a' = a + (numbers (E.map Prod.fst)).card ∧
      nums = slices (P + numbers (E.map Prod.fst)) 0 (maxBits + 1) := by
  refine ⟨_, rfl, ?_⟩
  induction i generalizing u a P with
  | zero =>
    obtain ⟨rfl, hrest⟩ := Prod.mk.inj (Except.ok.inj h)
    obtain ⟨rfl, rfl⟩ := Prod.mk.inj hrest
    exact ⟨rfl, rfl, by rw [Finset.sum_range_zero, Multiset.map_zero, numbers, Multiset.zero_bind,
      add_zero]⟩
  | succ i ih =>
    obtain ⟨x, hx, h⟩ := Exec.bind_eq_ok.mp h
    have hentry : entryAt t.node i = nodeEntry x := by rw [entryAt, show t.node.load i = .ok x from hx]
    rw [Finset.sum_range_succ, hentry, nodeEntry]
    by_cases hnil : x.val.tt = .nil
    · rw [if_pos hnil] at h ⊢
      rw [add_zero]
      exact ih h
    · rw [if_neg hnil, countint_eq] at h
      obtain ⟨rfl, rfl, rfl⟩ := ih h
      have hone : numbers {x.key} = x.key.number := Multiset.singleton_bind _ _
      rw [if_neg hnil, Multiset.map_add, numbers_add, Multiset.map_singleton, hone, Multiset.card_add,
        Multiset.card_add, Multiset.card_singleton]
      exact ⟨by omega, by omega, by rw [add_assoc, add_comm x.key.number]⟩

/-! ## Sizes -/

/-- A round of the loop of `computesizes` finds out whether the slice is dense. -/
theorem dense_iff : Dense P i ↔ 0 < slice P i ∧ 2 ^ i / 2 < below P (i + 1) := by
  have hbelow := below_succ P i
  rw [Cmem.Dense, ← below_succ_eq]
  cases i with
  | zero => omega
  | succ i =>
    have hpow : (2 : Nat) ^ (i + 1) = 2 * 2 ^ i := Nat.pow_succ'
    omega

theorem below_add_slice (P : Multiset Nat) (i : Nat) :
    (if 0 < slice P i then below P i + slice P i else below P i) = below P (i + 1) := by
  rw [below_succ]
  split_ifs with h
  · rfl
  · omega

/-- Large arrays cannot be dense. -/
theorem not_dense (h : ¬ 2 ^ i / 2 < P.card) (hj : i ≤ j) : ¬ Dense P j := fun hd ↦ by
  have hle := upTo_le_card P (2 ^ j)
  have hpow : (2 : Nat) ^ i ≤ 2 ^ j := Nat.pow_le_pow_right (by decide) hj
  have hlt := hd.2
  omega

/-- `computesizes` finds the size of the largest dense array. -/
theorem computesizes_eq {na n na' n' : Nat} (hk : i + k = maxBits + 1) (hn : IsSize P i n)
    (hna : na = upTo P n)
    (h : computesizes P.card (slices P i k) (2 ^ i) (below P i) na n = .ok (na', n')) :
    IsSize P (maxBits + 1) n' ∧ na' = upTo P n' := by
  induction k generalizing i na n with
  | zero =>
    change (if _ then _ else _) = _ at h
    split_ifs at h
    · cases h
    · obtain ⟨rfl, rfl⟩ := Prod.mk.inj (Except.ok.inj h)
      obtain rfl : i = maxBits + 1 := hk
      exact ⟨hn, hna⟩
  | succ k ih =>
    rw [slices_succ, computesizes] at h
    by_cases hround : 2 ^ i / 2 < P.card
    swap
    · rw [if_neg hround] at h
      obtain ⟨rfl, rfl⟩ := Prod.mk.inj (Except.ok.inj h)
      exact ⟨hn.mono (by omega) fun j hj ↦ not_dense hround hj, hna⟩
    rw [if_pos hround] at h
    dsimp only at h
    rw [below_add_slice] at h
    -- the size after this round
    obtain ⟨n₁, hn₁, hsize⟩ : ∃ n₁, (if 0 < slice P i ∧ 2 ^ i / 2 < below P (i + 1) then 2 ^ i
        else n) = n₁ ∧ IsSize P (i + 1) n₁ := by
      refine ⟨_, rfl, ?_⟩
      split_ifs with hd
      · exact .succ_dense (dense_iff.mpr hd)
      · exact hn.succ fun hd' ↦ hd (dense_iff.mp hd')
    have hna₁ : (if 0 < slice P i ∧ 2 ^ i / 2 < below P (i + 1) then below P (i + 1) else na) =
        upTo P n₁ := by
      rw [← hn₁]
      split_ifs
      · exact below_succ_eq P i
      · exact hna
    rw [hn₁, hna₁] at h
    by_cases hlast : below P (i + 1) = P.card
    · rw [if_pos hlast] at h
      obtain ⟨rfl, rfl⟩ := Prod.mk.inj (Except.ok.inj h)
      exact ⟨hsize.mono (by omega) fun j hj hd ↦
        absurd hd.1 (by rw [slice_eq_zero hlast hj]; exact Nat.lt_irrefl 0), rfl⟩
    · rw [if_neg hlast] at h
      exact ih (by omega) hsize rfl (by rwa [Nat.pow_succ])

/-- `computesizes` returns. -/
theorem exists_computesizes (hP : ∀ x ∈ P, Nat.clog 2 x ≤ maxBits) (hk : i + k = maxBits + 1)
    (hi : i = 0 ∨ below P i ≠ P.card) (na n : Nat) :
    ∃ r, computesizes P.card (slices P i k) (2 ^ i) (below P i) na n = .ok r := by
  induction k generalizing i na n with
  | zero =>
    obtain rfl : i = maxBits + 1 := hk
    have hall : below P (maxBits + 1) = P.card :=
      Multiset.countP_eq_card.mpr fun x hx ↦ Nat.lt_succ_iff.mpr (hP x hx)
    rcases hi with hi | hi
    · cases hi
    · exact absurd hall hi
  | succ k ih =>
    rw [slices_succ, computesizes]
    dsimp only
    rw [below_add_slice]
    split_ifs with hround hlast
    · exact ⟨_, rfl⟩
    all_goals first
      | exact ⟨_, rfl⟩
      | (rw [← Nat.pow_succ]; exact ih (by omega) (.inr hlast) _ _)

theorem mem_counted {x : Nat} (h : x ∈ counted t ek) : 0 < x ∧ x ≤ 2 ^ maxBits := by
  rcases Multiset.mem_add.mp h with h | h
  · obtain ⟨hpos, hle⟩ := mem_arrayNumbers h
    exact ⟨hpos, hle.trans (min_le_right _ _)⟩
  · obtain ⟨k, -, hk⟩ := Multiset.mem_bind.mp h
    exact number_pos hk

/-- What is counted, in the order in which it is counted. -/
theorem counted_eq (t : DlTable) (ek : Key) : counted t ek = arrayNumbers t 0 (arrayEnd t) +
    numbers ((allNodes t).map Prod.fst) + ek.number := by
  rw [counted, numbers, Multiset.cons_bind, add_assoc, add_comm ek.number]
  rfl

theorem card_counted (t : DlTable) (ek : Key) : (arrayNumbers t 0 (arrayEnd t)).card +
    (0 + (numbers ((allNodes t).map Prod.fst)).card) + ek.number.card = (counted t ek).card := by
  rw [counted_eq, Multiset.card_add, Multiset.card_add, Nat.zero_add]

/-- The sizes that `dl_rehash` computes. -/
theorem newSizes_eq {nasize nhsize : Int} (h : newSizes t ek = .ok (nasize, nhsize)) :
    ∃ n : Nat, nasize = n ∧ IsSize (counted t ek) (maxBits + 1) n ∧
      nhsize = (arrayNumbers t 0 (arrayEnd t)).card + (allNodes t).card + 1 -
        upTo (counted t ek) n := by
  unfold newSizes at h
  obtain ⟨⟨used, nums⟩, harr, h⟩ := Exec.bind_eq_ok.mp h
  obtain ⟨⟨inHash, ause, nums'⟩, hhash, h⟩ := Exec.bind_eq_ok.mp h
  obtain ⟨rfl, rfl⟩ := numusearray_eq harr
  obtain ⟨E, hE, rfl, rfl, rfl⟩ := numusehashLoop_eq hhash
  dsimp only at h
  rw [countint_eq] at h
  obtain ⟨⟨na, n⟩, hsizes, h⟩ := Exec.bind_eq_ok.mp h
  obtain ⟨rfl, rfl⟩ := Prod.mk.inj (Except.ok.inj h)
  have hcounted := counted_eq t ek
  have hcard := card_counted t ek
  rw [allNodes, ← hE] at hcounted hcard
  rw [← hcounted, hcard] at hsizes
  have hnone : 0 = upTo (counted t ek) 0 :=
    (Multiset.countP_eq_zero.mpr fun x hx ↦ Nat.not_le.mpr (mem_counted hx).1).symm
  obtain ⟨hsize, rfl⟩ := computesizes_eq (P := counted t ek) (i := 0) (n := 0) (Nat.zero_add _)
    (.inl ⟨rfl, fun i hi ↦ absurd hi (Nat.not_lt_zero i)⟩) hnone (by rwa [below_zero])
  refine ⟨n, rfl, hsize, ?_⟩
  rw [allNodes, ← hE]
  push_cast
  omega

/-! ## The counting passes return -/

theorem exists_countSlice (h : ∀ j, i ≤ j → j < i + k → ∃ v, loadArray t j = .ok v) :
    ∃ c, countSlice t k (i + 1) = .ok c := by
  induction k generalizing i with
  | zero => exact ⟨0, rfl⟩
  | succ k ih =>
    obtain ⟨v, hv⟩ := h i le_rfl (by omega)
    obtain ⟨c, hc⟩ := ih (i := i + 1) fun j hij hj ↦ h j (by omega) (by omega)
    refine ⟨_, Exec.bind_eq_ok.mpr ⟨v, hv, Exec.bind_eq_ok.mpr ⟨c, hc, rfl⟩⟩⟩

theorem exists_numusearrayLoop (h : ∀ j : Nat, (j : Int) < t.sizearray → ∃ v, loadArray t j = .ok v)
    (k lg i ause : Nat) (nums : List Nat) :
    ∃ r, numusearrayLoop t k lg (i + 1) ause nums = .ok r := by
  induction k generalizing lg i ause nums with
  | zero => exact ⟨_, rfl⟩
  | succ k ih =>
    rw [numusearrayLoop]
    dsimp only
    split_ifs with hsize hlast
    · exact ⟨_, rfl⟩
    · obtain ⟨c, hc⟩ := exists_countSlice (t := t) (i := i)
        (k := (t.sizearray + 1 - ((i + 1 : Nat) : Int)).toNat) fun j hij hj ↦ h j (by omega)
      rw [hc, Nat.add_right_comm]
      exact ih _ _ _ _
    · exact ⟨_, rfl⟩
    · have hcast := natCast_two_pow lg
      obtain ⟨c, hc⟩ := exists_countSlice (t := t) (i := i)
        (k := ((2 : Int) ^ lg + 1 - ((i + 1 : Nat) : Int)).toNat) fun j hij hj ↦ h j (by omega)
      rw [hc, Nat.add_right_comm]
      exact ih _ _ _ _

theorem exists_numusehashLoop (h : ∀ j < i, ∃ x, loadNode t j = .ok x) (u a : Nat)
    (nums : List Nat) : ∃ r, numusehashLoop t i u a nums = .ok r := by
  induction i generalizing u a nums with
  | zero => exact ⟨_, rfl⟩
  | succ i ih =>
    obtain ⟨x, hx⟩ := h i (Nat.lt_succ_self i)
    have hbelow : ∀ j < i, ∃ x, loadNode t j = .ok x := fun j hj ↦ h j (Nat.lt_succ_of_lt hj)
    rw [numusehashLoop, hx, Exec.ok_bind]
    split_ifs
    · exact ih hbelow _ _ _
    · exact ih hbelow _ _ _

/-- The sizes can be computed if the array and the nodes are there. -/
theorem exists_newSizes (harr : ∀ j : Nat, (j : Int) < t.sizearray → ∃ v, loadArray t j = .ok v)
    (hnode : ∀ j < t.sizenode, ∃ x, loadNode t j = .ok x) (ek : Key) :
    ∃ r, newSizes t ek = .ok r := by
  obtain ⟨⟨used, nums⟩, huse⟩ : ∃ r, numusearray t (List.replicate (maxBits + 1) 0) = .ok r :=
    exists_numusearrayLoop harr _ _ 0 _ _
  obtain ⟨⟨inHash, ause, nums'⟩, hhash⟩ : ∃ r, numusehash t nums = .ok r :=
    exists_numusehashLoop hnode _ _ _
  obtain ⟨rfl, rfl⟩ := numusearray_eq huse
  obtain ⟨E, hE, rfl, rfl, rfl⟩ := numusehashLoop_eq hhash
  have hcounted := counted_eq t ek
  have hcard := card_counted t ek
  rw [allNodes, ← hE] at hcounted hcard
  obtain ⟨⟨na, n⟩, hsizes⟩ := exists_computesizes (P := counted t ek) (i := 0)
    (fun x hx ↦ (Nat.clog_le_iff_le_pow Nat.one_lt_two).mpr (mem_counted hx).2) (Nat.zero_add _)
    (.inl rfl) 0 0
  rw [below_zero] at hsizes
  rw [newSizes, huse, Exec.ok_bind]
  dsimp only
  rw [hhash, Exec.ok_bind]
  dsimp only
  rw [countint_eq]
  dsimp only
  rw [← hcounted, hcard]
  change ∃ r, (computesizes _ _ (2 ^ 0) 0 0 0 >>= _) = _
  rw [hsizes]
  exact ⟨_, rfl⟩

/-! ## What is counted -/

variable {t' : DlTable}

theorem countSlice_congr (harr : t'.array = t.array) (k i : Nat) :
    countSlice t' k i = countSlice t k i := by
  induction k generalizing i with
  | zero => rfl
  | succ k ih =>
    rw [countSlice, countSlice, loadArray, loadArray, harr]
    exact congrArg (_ >>= ·) (funext fun v ↦ by rw [ih])

theorem numusearrayLoop_congr (harr : t'.array = t.array) (hsize : t'.sizearray = t.sizearray)
    (k lg i ause : Nat) (nums : List Nat) :
    numusearrayLoop t' k lg i ause nums = numusearrayLoop t k lg i ause nums := by
  induction k generalizing lg i ause nums with
  | zero => rfl
  | succ k ih =>
    rw [numusearrayLoop, numusearrayLoop, hsize]
    simp only [countSlice_congr harr, ih]

theorem numusehashLoop_congr (hnode : t'.node = t.node) (i u a : Nat) (nums : List Nat) :
    numusehashLoop t' i u a nums = numusehashLoop t i u a nums := by
  induction i generalizing u a nums with
  | zero => rfl
  | succ i ih =>
    rw [numusehashLoop, numusehashLoop, loadNode, loadNode, hnode]
    exact congrArg (_ >>= ·) (funext fun x ↦ by rw [ih, ih])

/-- The sizes depend on the array and the nodes only. -/
theorem newSizes_congr (harr : t'.array = t.array) (hsize : t'.sizearray = t.sizearray)
    (hnode : t'.node = t.node) (hlog : t'.lsizenode = t.lsizenode) (ek : Key) :
    newSizes t' ek = newSizes t ek := by
  unfold newSizes numusearray numusehash DlTable.sizenode
  simp only [numusearrayLoop_congr harr hsize, numusehashLoop_congr hnode, hlog]

end Dlbase.Table
