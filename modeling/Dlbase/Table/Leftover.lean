import Dlbase.Table.Overflow

/-!
# What is left for the nodes

An array of the size `m` holds the indices below `m`, but `dl_rehash` counts the integers from `1`
to `m` for it.  What it leaves for the nodes is therefore not what has to go there: the key `m`
is missing, and so are the values of an array that are too far out to be counted.  On the other hand
the key `0` has been left though it goes to the array, and so has `_dummynode`.  The sizes are large
enough if this, and the rounding up to a power of two, makes up for what is missing.
-/

namespace Dlbase.Table

open Cmem

/-- The key belongs to an array of the size `m`. -/
def Key.Fits (m : Nat) : Key → Prop
  | int k => 0 ≤ k ∧ k < m
  | _ => False

instance (m : Nat) : DecidablePred (Key.Fits m) := fun k ↦
  match k with
  | .int k => inferInstanceAs (Decidable (0 ≤ k ∧ k < m))
  | .str _ => inferInstanceAs (Decidable False)
  | .null => inferInstanceAs (Decidable False)
  | .nil => inferInstanceAs (Decidable False)

/-- The keys of all nodes, and that of `_dummynode`. -/
def nodeKeys (t : DlTable) : Multiset Key := (allNodes t).map Prod.fst

/-- The keys of the table. -/
def storedKeys (t : DlTable) : Multiset Key :=
  (arrayEntries t).map Prod.fst + if t.node.isDummy then 0 else nodeKeys t

/-- How many keys of the table, and the key `ek`, do not belong to an array of the size `m`. -/
def outside (t : DlTable) (ek : Key) (m : Nat) : Nat :=
  (ek ::ₘ storedKeys t).countP fun k ↦ ¬ k.Fits m

/-- The number of nodes that a node part of at least `n` nodes gets. -/
def roundUp (n : Nat) : Nat := if n = 0 then 0 else 2 ^ Nat.clog 2 n

/-- What the count leaves for the nodes: the values of the array, the nodes and the key `ek`, less
the numbers up to `m`. -/
def leftover (t : DlTable) (ek : Key) (m : Nat) : Nat :=
  (arrayNumbers t 0 (arrayEnd t)).card + (ek ::ₘ nodeKeys t).card - upTo (counted t ek) m

/-- The keys that need nodes although the count has not left them. -/
def missed (t : DlTable) (ek : Key) (m : Nat) : Nat :=
  (arrayNumbers t (arrayEnd t) t.sizearray.toNat).card +
    if 0 < m then (ek ::ₘ nodeKeys t).count (.int m) else 0

/-- The nodes that nothing needs: those for the key `0` and `_dummynode`, which have been left, and
those that there are because of the rounding. -/
def spare (t : DlTable) (ek : Key) (m : Nat) : Nat :=
  (if 0 < m then (ek ::ₘ nodeKeys t).count (.int 0) else 0) + (if t.node.isDummy then 1 else 0) +
    (roundUp (leftover t ek m) - leftover t ek m)

/-- The nodes suffice when the array gets the size that the count calls for. -/
def HasRoom (t : DlTable) (ek : Key) : Prop :=
  ∀ m, IsSize (counted t ek) (maxBits + 1) m → missed t ek m ≤ spare t ek m

variable {t : DlTable} {ek : Key} {m : Nat} {K : Multiset Key} {nasize nhsize : Int}

/-! ## Keys -/

/-- A key is left to the nodes unless it belongs to the array, but for the key `0` and the key that
is the size of the array. -/
theorem Key.fits_eq (hm : m ≤ 2 ^ maxBits) (k : Key) :
    (if ¬ k.Fits m then 1 else 0) + (if 0 < m ∧ k = .int 0 then 1 else 0) + upTo k.number m =
      1 + if 0 < m ∧ k = .int m then 1 else 0 := by
  have hcast := natCast_two_pow maxBits
  cases k with
  | int k =>
    have hup : upTo (Key.int k).number m = if 0 < k ∧ k ≤ m then 1 else 0 := by
      rw [Key.number, upTo]
      by_cases hk : 0 < k ∧ k ≤ 2 ^ maxBits
      · rw [if_pos hk, ← Multiset.cons_zero, Multiset.countP_cons, Multiset.countP_zero, Nat.zero_add]
        exact if_congr (by omega) rfl rfl
      · rw [if_neg hk, if_neg (by omega)]
        exact Multiset.countP_zero _
    have hfits : (if ¬ (Key.int k).Fits m then 1 else 0) =
        if 0 ≤ k ∧ k < (m : Int) then 0 else 1 := by
      by_cases h : (Key.int k).Fits m
      · rw [if_neg (not_not.mpr h), if_pos (show 0 ≤ k ∧ k < (m : Int) from h)]
      · rw [if_pos h, if_neg (show ¬ (0 ≤ k ∧ k < (m : Int)) from h)]
    rw [hup, hfits]
    simp only [Key.int.injEq]
    split_ifs <;> omega
  | str p => simp [Key.Fits, Key.number, upTo]
  | null => simp [Key.Fits, Key.number, upTo]
  | nil => simp [Key.Fits, Key.number, upTo]

/-- The same for all keys. -/
theorem countP_fits_eq (hm : m ≤ 2 ^ maxBits) (K : Multiset Key) :
    K.countP (fun k ↦ ¬ k.Fits m) + (if 0 < m then K.count (.int 0) else 0) + upTo (numbers K) m =
      K.card + if 0 < m then K.count (.int m) else 0 := by
  induction K using Multiset.induction_on with
  | empty => simp [numbers, upTo]
  | cons k K ih =>
    have hone := k.fits_eq hm
    have hnum : upTo (numbers (k ::ₘ K)) m = upTo k.number m + upTo (numbers K) m := by
      rw [numbers, Multiset.cons_bind, upTo_add]
      rfl
    rw [hnum, Multiset.countP_cons, Multiset.count_cons, Multiset.count_cons, Multiset.card_cons]
    by_cases hpos : 0 < m
    · simp only [hpos, true_and, if_true, eq_comm (a := k)] at hone ih ⊢
      omega
    · simp only [hpos, false_and, if_false] at hone ih ⊢
      omega

/-! ## The array -/

/-- The key of an element of the array belongs to a smaller array if its number does. -/
theorem countP_cellEntry (i : Nat) (v : Option Value) :
    ((cellEntry i v).map Prod.fst).countP (fun k ↦ ¬ k.Fits m) =
      (cellNumber i v).countP (m < ·) := by
  unfold cellEntry cellNumber
  cases v with
  | none => rfl
  | some v =>
    dsimp only
    split_ifs
    · rfl
    · rw [Multiset.map_singleton, ← Multiset.cons_zero, ← Multiset.cons_zero, Multiset.countP_cons,
        Multiset.countP_cons]
      refine congrArg _ (if_congr ?_ rfl rfl)
      simp only [Key.Fits]
      omega

/-- The numbers above `m` are the keys of the array that do not belong to one of the size `m`. -/
theorem countP_arrayEntries (t : DlTable) (m : Nat) :
    ((arrayEntries t).map Prod.fst).countP (fun k ↦ ¬ k.Fits m) =
      (arrayNumbers t 0 t.sizearray.toNat).countP (m < ·) := by
  rw [arrayEntries, arrayNumbers, Finset.range_eq_Ico]
  induction t.sizearray.toNat with
  | zero => rfl
  | succ s ih =>
    rw [Finset.sum_Ico_succ_top (Nat.zero_le s), Finset.sum_Ico_succ_top (Nat.zero_le s),
      Multiset.map_add, Multiset.countP_add, Multiset.countP_add, ih, countP_cellEntry]

theorem countP_lt_add_upTo (P : Multiset Nat) (m : Nat) :
    P.countP (m < ·) + upTo P m = P.card := by
  have h := Multiset.card_eq_countP_add_countP (m < ·) P
  have hle : P.countP (fun x ↦ ¬ m < x) = upTo P m :=
    Multiset.countP_congr rfl fun _ _ ↦ propext not_lt
  omega

/-- The values of the array that do not belong to a smaller one are left to the nodes, unless they
are too far out. -/
theorem countP_arrayEntries_add (hm : m ≤ 2 ^ maxBits) :
    ((arrayEntries t).map Prod.fst).countP (fun k ↦ ¬ k.Fits m) +
        upTo (arrayNumbers t 0 (arrayEnd t)) m =
      (arrayNumbers t 0 (arrayEnd t)).card + (arrayNumbers t (arrayEnd t) t.sizearray.toNat).card := by
  have hend : arrayEnd t ≤ t.sizearray.toNat := min_le_left _ _
  have hfar : (arrayNumbers t (arrayEnd t) t.sizearray.toNat).countP (m < ·) =
      (arrayNumbers t (arrayEnd t) t.sizearray.toNat).card :=
    Multiset.countP_eq_card.mpr fun x hx ↦ by
      obtain ⟨hlt, hle⟩ := mem_arrayNumbers hx
      rw [arrayEnd] at hlt
      omega
  have hnear := countP_lt_add_upTo (arrayNumbers t 0 (arrayEnd t)) m
  rw [countP_arrayEntries, ← arrayNumbers_add t (Nat.zero_le _) hend, Multiset.countP_add, hfar]
  omega

/-! ## All keys -/

/-- `_dummynode` is counted like a key. -/
theorem nodeKeys_dummy (hn : t.node.isDummy = true) : nodeKeys t = {.null} := by
  have hdummy : t.node = .dummy := by
    cases hp : t.node with
    | dummy => rfl
    | null => rw [hp] at hn; cases hn
    | nodes n => rw [hp] at hn; cases hn
  have hall : allNodes t = {(.null, dummynode.val)} := by
    rw [allNodes, Finset.sum_eq_single_of_mem 0 (Finset.mem_range.mpr (sizenode_pos t)), hdummy]
    · rfl
    · intro i _ hi
      rw [hdummy, entryAt, NodePart.load, if_neg hi]
      rfl
  rw [nodeKeys, hall]
  rfl

/-- The keys that need nodes are those that have been left, but for what is missing and what nothing
needs. -/
theorem outside_eq (hm : m ≤ 2 ^ maxBits) :
    outside t ek m + (if 0 < m then (ek ::ₘ nodeKeys t).count (.int 0) else 0) +
        (if t.node.isDummy then 1 else 0) = leftover t ek m + missed t ek m := by
  have hkeys := countP_fits_eq hm (ek ::ₘ nodeKeys t)
  have harr := countP_arrayEntries_add (t := t) hm
  have hnodes : outside t ek m + (if t.node.isDummy then 1 else 0) =
      ((arrayEntries t).map Prod.fst).countP (fun k ↦ ¬ k.Fits m) +
        (ek ::ₘ nodeKeys t).countP fun k ↦ ¬ k.Fits m := by
    rw [outside, storedKeys, Multiset.countP_cons, Multiset.countP_cons, Multiset.countP_add]
    by_cases hd : t.node.isDummy = true
    · have hone : (nodeKeys t).countP (fun k ↦ ¬ k.Fits m) = 1 := by
        rw [nodeKeys_dummy hd]
        rfl
      rw [if_pos hd, if_pos hd, hone, Multiset.countP_zero]
      omega
    · rw [if_neg hd, if_neg hd]
      omega
  have hup : upTo (counted t ek) m =
      upTo (arrayNumbers t 0 (arrayEnd t)) m + upTo (numbers (ek ::ₘ nodeKeys t)) m :=
    upTo_add _ _ _
  have hall := (upTo_le_card (counted t ek) m).trans_eq (card_counted t ek).symm
  have hnum := card_numbers_le (nodeKeys t)
  have hek := card_number_le ek
  have hle : upTo (counted t ek) m ≤
      (arrayNumbers t 0 (arrayEnd t)).card + (ek ::ₘ nodeKeys t).card := by
    rw [Multiset.card_cons]
    rw [nodeKeys] at hnum ⊢
    omega
  rw [leftover, missed]
  omega

theorem le_roundUp (n : Nat) : n ≤ roundUp n := by
  unfold roundUp
  split_ifs with hn
  · omega
  · exact Nat.le_pow_clog Nat.one_lt_two n

/-- The nodes suffice if what is missing does not exceed what nothing needs. -/
theorem outside_le_iff (hm : m ≤ 2 ^ maxBits) :
    outside t ek m ≤ roundUp (leftover t ek m) ↔ missed t ek m ≤ spare t ek m := by
  have heq : outside t ek m + _ + _ = leftover t ek m + missed t ek m := outside_eq hm
  have hle := le_roundUp (leftover t ek m)
  rw [spare]
  omega

/-! ## Sizes -/

theorem IsSize.le_two_pow {P : Multiset Nat} {b n : Nat} (h : IsSize P (b + 1) n) : n ≤ 2 ^ b := by
  rcases h.le_pow with rfl | ⟨i, hi, rfl⟩
  · exact Nat.zero_le _
  · exact Nat.pow_le_pow_right (by decide) (Nat.lt_succ_iff.mp hi)

/-- The sizes are the one that the count calls for, and what the count leaves for the nodes. -/
theorem newSizes_leftover (h : newSizes t ek = .ok (nasize, nhsize)) :
    ∃ m : Nat, nasize = m ∧ m ≤ 2 ^ maxBits ∧ IsSize (counted t ek) (maxBits + 1) m ∧
      nhsize = leftover t ek m := by
  obtain ⟨m, rfl, hm, rfl⟩ := newSizes_eq h
  refine ⟨m, rfl, IsSize.le_two_pow hm, hm, ?_⟩
  have hall := (upTo_le_card (counted t ek) m).trans_eq (card_counted t ek).symm
  have hnum := card_numbers_le ((allNodes t).map Prod.fst)
  have hek := card_number_le ek
  rw [Multiset.card_map] at hnum
  rw [leftover, nodeKeys, Multiset.card_cons, Multiset.card_map]
  omega

/-- The sizes that `dl_rehash` computes leave enough nodes if and only if there is room. -/
theorem room_iff (h : newSizes t ek = .ok (nasize, nhsize)) :
    outside t ek nasize.toNat ≤ roundUp nhsize.toNat ↔ HasRoom t ek := by
  obtain ⟨m, rfl, hle, hm, rfl⟩ := newSizes_leftover h
  rw [Int.toNat_natCast, Int.toNat_natCast, outside_le_iff hle]
  refine ⟨fun hroom n hn ↦ ?_, fun hroom ↦ hroom m hm⟩
  obtain rfl := hm.unique hn
  exact hroom

end Dlbase.Table
