import Mathlib

/-!
# Hexadecimal numbers

A digit is a character of either case, and a number is a list of digits, which may start with zeros.
Two digits hold the two halves of a byte.
-/

namespace Cmem.Hexadecimal

variable {c : UInt8} {l : List UInt8} {n d : Nat}

/-! ## Digits -/

/-- The value of a character. -/
def digit (c : UInt8) : Option Nat :=
  if 48 ≤ c ∧ c ≤ 57 then some (c.toNat - 48)
  else if 65 ≤ c ∧ c ≤ 70 then some (c.toNat - 55)
  else if 97 ≤ c ∧ c ≤ 102 then some (c.toNat - 87)
  else none

/-- A character is a digit. -/
def IsDigit (c : UInt8) : Prop := (digit c).isSome

instance (c : UInt8) : Decidable (IsDigit c) := inferInstanceAs (Decidable (_ = true))

theorem digit_lt (h : digit c = some d) : d < 16 := by
  unfold digit at h
  simp only [UInt8.le_iff_toNat_le, UInt8.reduceToNat] at h
  split_ifs at h
  all_goals
    obtain rfl := Option.some.inj h
    omega

/-! ## Numbers -/

/-- The number that is written with the digits `ds` behind the number `n`. -/
def value (n : Nat) (ds : List Nat) : Nat := ds.foldl (fun n d ↦ 16 * n + d) n

/-- The number that is written with the characters `l`, if all of them are digits. -/
def number (l : List UInt8) : Option Nat := (l.mapM digit).map (value 0)

/-- A character that is a digit, and more of them. -/
theorem mapM_digit_cons {ds : List Nat} (h : (c :: l).mapM digit = some ds) :
    ∃ d ds', digit c = some d ∧ l.mapM digit = some ds' ∧ ds = d :: ds' := by
  rw [List.mapM_cons] at h
  obtain ⟨d, hd, h⟩ := Option.bind_eq_some_iff.mp h
  obtain ⟨ds', hds, h⟩ := Option.bind_eq_some_iff.mp h
  exact ⟨d, ds', hd, hds, (Option.some.inj h).symm⟩

/-- A number consists of digits. -/
theorem isDigit_of_number (h : number l = some n) : ∀ c ∈ l, IsDigit c := by
  obtain ⟨ds, hds, -⟩ := Option.map_eq_some_iff.mp h
  clear h
  induction l generalizing ds with
  | nil => exact fun c hc ↦ absurd hc List.not_mem_nil
  | cons c l ih =>
    obtain ⟨d, ds', hd, hds', -⟩ := mapM_digit_cons hds
    intro b hb
    rcases List.mem_cons.mp hb with rfl | hb
    · exact Option.isSome_of_eq_some hd
    · exact ih ds' hds' b hb

theorem le_value (n : Nat) (ds : List Nat) : n ≤ value n ds := by
  induction ds generalizing n with
  | nil => exact Nat.le_refl n
  | cons d ds ih =>
    have hle := ih (16 * n + d)
    change n ≤ value (16 * n + d) ds
    omega

/-- A digit more multiplies by 16. -/
theorem le_value_cons (n d : Nat) (ds : List Nat) : 16 * n ≤ value n (d :: ds) :=
  Nat.le_trans (Nat.le_add_right _ d) (le_value (16 * n + d) ds)

theorem value_append_singleton (n : Nat) (ds : List Nat) (d : Nat) :
    value n (ds ++ [d]) = 16 * value n ds + d := List.foldl_append

theorem value_replicate_zero (k : Nat) : value 0 (List.replicate k 0) = 0 := by
  induction k with
  | zero => rfl
  | succ k ih =>
    rw [List.replicate_succ', value_append_singleton, ih]

theorem eq_replicate_of_value (ds : List Nat) (h : value 0 ds = 0) :
    ds = List.replicate ds.length 0 := by
  induction ds using List.reverseRecOn with
  | nil => rfl
  | append_singleton ds d ih =>
    rw [value_append_singleton] at h
    have hd : d = 0 := by omega
    have hds : value 0 ds = 0 := by omega
    rw [List.length_append, List.length_singleton, List.replicate_succ', ← ih hds, hd]

/-- The largest number below a power of 16 has digits 15 behind zeros. -/
theorem value_eq_pow_sub_one {ds : List Nat} (hds : ∀ d ∈ ds, d < 16) (j : Nat) :
    value 0 ds = 16 ^ j - 1 ↔ ∃ k, ds = List.replicate k 0 ++ List.replicate j 15 := by
  induction j generalizing ds with
  | zero =>
    refine ⟨fun h ↦ ⟨ds.length, ?_⟩, ?_⟩
    · rw [List.replicate_zero, List.append_nil]
      exact eq_replicate_of_value ds h
    · rintro ⟨k, rfl⟩
      rw [List.replicate_zero, List.append_nil]
      exact value_replicate_zero k
  | succ j ih =>
    have hpow : 16 ^ (j + 1) = 16 * 16 ^ j := Nat.pow_succ'
    have hpos : 0 < 16 ^ j := Nat.pow_pos (by decide)
    rcases List.eq_nil_or_concat' ds with rfl | ⟨ds, d, rfl⟩
    · refine ⟨fun h ↦ ?_, fun ⟨k, hk⟩ ↦ ?_⟩
      · change 0 = _ at h
        omega
      · have hlen := congrArg List.length hk
        simp only [List.length_nil, List.length_append, List.length_replicate] at hlen
        omega
    · have hd : d < 16 := hds d (List.mem_append_right _ (List.mem_singleton_self d))
      have hih := ih fun d hd ↦ hds d (List.mem_append_left _ hd)
      rw [value_append_singleton, List.replicate_succ']
      refine ⟨fun h ↦ ?_, fun ⟨k, hk⟩ ↦ ?_⟩
      · have hd15 : d = 15 := by omega
        obtain ⟨k, hk⟩ := hih.mp (by omega)
        exact ⟨k, by rw [hk, hd15, List.append_assoc]⟩
      · rw [← List.append_assoc] at hk
        obtain ⟨hks, hlast⟩ := List.append_inj' hk rfl
        have hd15 : d = 15 := List.singleton_inj.mp hlast
        have hvalue := hih.mpr ⟨k, hks⟩
        omega

theorem mapM_digit_eq_some {ds : List Nat} :
    l.mapM digit = some ds ↔ l.map digit = ds.map some := by
  induction l generalizing ds with
  | nil =>
    refine ⟨fun h ↦ ?_, fun h ↦ ?_⟩
    · obtain rfl := Option.some.inj h
      rfl
    · obtain rfl := List.map_eq_nil_iff.mp h.symm
      rfl
  | cons c l ih =>
    refine ⟨fun h ↦ ?_, fun h ↦ ?_⟩
    · obtain ⟨d, ds', hd, hds', rfl⟩ := mapM_digit_cons h
      rw [List.map_cons, List.map_cons, hd, ih.mp hds']
    · rw [List.map_cons] at h
      obtain ⟨d, ds', rfl, hd, hds'⟩ := List.map_eq_cons_iff.mp h.symm
      rw [List.mapM_cons, ← hd, ih.mpr hds'.symm]
      rfl

/-- The text of the largest number below a power of 16. -/
theorem number_eq_pow_sub_one (l : List UInt8) (j : Nat) : number l = some (16 ^ j - 1) ↔
    ∃ k, l.map digit = List.replicate k (some 0) ++ List.replicate j (some 15) := by
  have hmap (k : Nat) : List.replicate k (some 0) ++ List.replicate j (some 15) =
      (List.replicate k 0 ++ List.replicate j 15).map some := by
    rw [List.map_append, List.map_replicate, List.map_replicate]
  refine ⟨fun h ↦ ?_, fun ⟨k, hk⟩ ↦ ?_⟩
  · obtain ⟨ds, hds, hvalue⟩ := Option.map_eq_some_iff.mp h
    have hl := mapM_digit_eq_some.mp hds
    have hlt : ∀ d ∈ ds, d < 16 := fun d hd ↦ by
      have hmem : some d ∈ l.map digit := by
        rw [hl]
        exact List.mem_map_of_mem hd
      obtain ⟨c, -, hc⟩ := List.mem_map.mp hmem
      exact digit_lt hc
    obtain ⟨k, rfl⟩ := (value_eq_pow_sub_one hlt j).mp hvalue
    exact ⟨k, by rw [hl, hmap]⟩
  · rw [hmap] at hk
    have hlt : ∀ d ∈ List.replicate k 0 ++ List.replicate j 15, d < 16 := fun d hd ↦ by
      rcases List.mem_append.mp hd with hd | hd
      · rw [List.eq_of_mem_replicate hd]
        decide
      · rw [List.eq_of_mem_replicate hd]
        decide
    rw [number, mapM_digit_eq_some.mpr hk, Option.map_some,
      (value_eq_pow_sub_one hlt j).mpr ⟨k, rfl⟩]

/-! ## Halves of a byte -/

theorem toNat_high (c : UInt8) : (c >>> 4).toNat = c.toNat / 16 := by
  rw [UInt8.toNat_shiftRight]
  exact Nat.shiftRight_eq_div_pow c.toNat 4

theorem toNat_low (c : UInt8) : (c &&& 0xf).toNat = c.toNat % 16 := by
  rw [UInt8.toNat_and]
  exact Nat.and_two_pow_sub_one_eq_mod c.toNat 4

theorem high_lt (c : UInt8) : (c >>> 4).toNat < 16 := by
  have hc := c.toNat_lt
  rw [toNat_high]
  omega

theorem low_lt (c : UInt8) : (c &&& 0xf).toNat < 16 := by
  rw [toNat_low]
  exact Nat.mod_lt _ (Nat.succ_pos 15)

/-- A byte is made of its halves. -/
theorem high_add_low (c : UInt8) : (c >>> 4) <<< 4 + (c &&& 0xf) = c := by
  have hc := c.toNat_lt
  have hshift : ((c >>> 4) <<< 4).toNat = c.toNat / 16 * 16 % 256 := by
    rw [UInt8.toNat_shiftLeft, toNat_high]
    change (c.toNat / 16) <<< 4 % 256 = _
    rw [Nat.shiftLeft_eq]
  apply UInt8.toNat_inj.mp
  rw [UInt8.toNat_add, hshift, toNat_low]
  omega

end Cmem.Hexadecimal
