import Dlbase.Lib.Hexadecimal
import Dlbase.String.Model

/-!
# Reading a hexadecimal number

`dl_hextoi` returns the number that is written, or `DL_ERROR` if there is none or if it does not fit
in 64 bits.  As an unsigned number `DL_ERROR` is the largest one there is, and so the text of that
number cannot be told from an error.
-/

namespace Dlbase.DlString

open Cmem

/-- `DL_ERROR` as a `uintptr_t`. -/
def dlError : UInt64 := -1

/-- `UINTPTR_MAX / 16`. -/
def cutoff : UInt64 := 0xffffffffffffffff / 16

/-- The loop of `dl_hextoi`, for `n` more of the characters that may be read at `line`. -/
def hextoiLoop : Nat → List UInt8 → UInt64 → Exec UInt64
  | 0, _, value => .ok value
  | n + 1, line, value =>
    if cutoff < value then .ok dlError
    else match line with
      | [] => Exec.undef
      | c :: line =>
        if IsDigit c then hextoiLoop n line (value * 16 + (c - ch '0').toUInt64)
        else if IsHexLetter c then
          hextoiLoop n line (value * 16 + ((c ||| 0x20) - ch 'a' + 10).toUInt64)
        else .ok dlError

/-- `dl_hextoi`, where `line` is what may be read from the pointer on. -/
def hextoi (line : List UInt8) (n : Nat) : Exec UInt64 :=
  if n = 0 then .ok dlError else hextoiLoop n line 0

/-! ## Digits -/

variable {c : UInt8} {l : List UInt8} {v : UInt64} {n d : Nat}

/-- The digits that the code knows are all there are. -/
theorem digit_eq (c : UInt8) : Hexadecimal.digit c =
    if IsDigit c then some (c - ch '0').toNat
    else if IsHexLetter c then some ((c ||| 0x20) - ch 'a' + 10).toNat
    else none := by
  have hall : ∀ i : Fin 256, Hexadecimal.digit (UInt8.ofNat i) =
      if IsDigit (UInt8.ofNat i) then some (UInt8.ofNat i - ch '0').toNat
      else if IsHexLetter (UInt8.ofNat i) then
        some ((UInt8.ofNat i ||| 0x20) - ch 'a' + 10).toNat
      else none := by decide +kernel
  have hc := hall ⟨c.toNat, c.toNat_lt⟩
  rwa [UInt8.ofNat_toNat] at hc

/-- A round of the loop. -/
theorem hextoiLoop_cons (hv : ¬ cutoff < v) (n : Nat) (c : UInt8) (l : List UInt8) :
    hextoiLoop (n + 1) (c :: l) v =
      (Hexadecimal.digit c).elim (.ok dlError) fun d ↦
        hextoiLoop n l (v * 16 + UInt64.ofNat d) := by
  rw [hextoiLoop, if_neg hv, digit_eq]
  split_ifs
  · rw [Option.elim_some, UInt64.ofNat_uInt8ToNat]
  · rw [Option.elim_some, UInt64.ofNat_uInt8ToNat]
  · rfl

theorem not_cutoff_lt_iff : ¬ cutoff < v ↔ 16 * v.toNat < 2 ^ 64 := by
  rw [UInt64.lt_iff_toNat_lt]
  change ¬ 2 ^ 60 - 1 < v.toNat ↔ _
  omega

/-- The number behind one digit more. -/
theorem toNat_digit (h : 16 * v.toNat + d < 2 ^ 64) :
    (v * 16 + UInt64.ofNat d).toNat = 16 * v.toNat + d := by
  simp only [UInt64.toNat_add, UInt64.toNat_mul, UInt64.toNat_ofNat', UInt64.reduceToNat]
  omega

/-! ## Numbers -/

/-- A number that fits. -/
theorem hextoiLoop_eq_value {ds : List Nat} (hds : l.mapM Hexadecimal.digit = some ds)
    (hlt : Hexadecimal.value v.toNat ds < 2 ^ 64) :
    hextoiLoop l.length l v = .ok (UInt64.ofNat (Hexadecimal.value v.toNat ds)) := by
  induction l generalizing v ds with
  | nil =>
    obtain rfl := Option.some.inj hds
    exact congrArg _ UInt64.ofNat_toNat.symm
  | cons c l ih =>
    obtain ⟨d, ds, hd, hrest, rfl⟩ := Hexadecimal.mapM_digit_cons hds
    have hle := Hexadecimal.le_value_cons v.toNat d ds
    have hle' : 16 * v.toNat + d ≤ Hexadecimal.value v.toNat (d :: ds) :=
      Hexadecimal.le_value (16 * v.toNat + d) ds
    have hnat := toNat_digit (Nat.lt_of_le_of_lt hle' hlt)
    have hv := not_cutoff_lt_iff.mpr (Nat.lt_of_le_of_lt hle hlt)
    have hvalue : Hexadecimal.value v.toNat (d :: ds) =
        Hexadecimal.value (v * 16 + UInt64.ofNat d).toNat ds := by
      rw [hnat]
      rfl
    rw [hvalue] at hlt ⊢
    rw [List.length_cons, hextoiLoop_cons hv, hd, Option.elim_some]
    exact ih hrest hlt

/-- No number, or one that does not fit. -/
theorem hextoiLoop_eq_error
    (h : ∀ ds, l.mapM Hexadecimal.digit = some ds → 2 ^ 64 ≤ Hexadecimal.value v.toNat ds) :
    hextoiLoop l.length l v = .ok dlError := by
  induction l generalizing v with
  | nil =>
    have hle : 2 ^ 64 ≤ v.toNat := h [] rfl
    exact absurd v.toNat_lt (Nat.not_lt.mpr hle)
  | cons c l ih =>
    by_cases hv : cutoff < v
    · rw [List.length_cons, hextoiLoop, if_pos hv]
    · rw [List.length_cons, hextoiLoop_cons hv]
      cases hd : Hexadecimal.digit c with
      | none => rfl
      | some d =>
        have hlt := not_cutoff_lt_iff.mp hv
        have hd16 := Hexadecimal.digit_lt hd
        have hnat := toNat_digit (v := v) (d := d) (by omega)
        refine ih fun ds hds ↦ ?_
        rw [hnat]
        exact h (d :: ds) (by rw [List.mapM_cons, hd, hds]; rfl)

/-- `dl_hextoi` returns the number that is written, which differs from `DL_ERROR`, and returns
`DL_ERROR` if no number is written or if it has more than 64 bits. -/
def HextoiExact (l : List UInt8) : Prop :=
  ∃ r, hextoi l l.length = .ok r ∧
    (∀ n < 2 ^ 64, l ≠ [] → Hexadecimal.number l = some n → r.toNat = n ∧ r ≠ dlError) ∧
    ((∀ n < 2 ^ 64, l ≠ [] → Hexadecimal.number l ≠ some n) → r = dlError)

/-- The text is sixteen digits `f` or `F`, with any number of zeros in front of them. -/
def AllOnes (l : List UInt8) : Prop :=
  ∃ k, l.map Hexadecimal.digit = List.replicate k (some 0) ++ List.replicate 16 (some 15)

theorem number_eq_max_iff : Hexadecimal.number l = some (2 ^ 64 - 1) ↔ AllOnes l :=
  Hexadecimal.number_eq_pow_sub_one l 16

/-- What `dl_hextoi` returns. -/
theorem hextoi_eq (hl : l ≠ []) : hextoi l l.length = hextoiLoop l.length l 0 :=
  if_neg fun h ↦ hl (List.length_eq_zero_iff.mp h)

/-- A number that fits is returned. -/
theorem hextoi_of_number (hl : l ≠ []) (h : Hexadecimal.number l = some n) (hn : n < 2 ^ 64) :
    hextoi l l.length = .ok (UInt64.ofNat n) := by
  obtain ⟨ds, hds, rfl⟩ := Option.map_eq_some_iff.mp h
  rw [hextoi_eq hl]
  exact hextoiLoop_eq_value hds hn

/-- An error is returned if there is no number or if it does not fit. -/
theorem hextoi_of_not_number (h : ∀ n < 2 ^ 64, l ≠ [] → Hexadecimal.number l ≠ some n) :
    hextoi l l.length = .ok dlError := by
  by_cases hl : l = []
  · rw [hl]
    rfl
  · rw [hextoi_eq hl]
    refine hextoiLoop_eq_error fun ds hds ↦ Nat.not_lt.mp fun hlt ↦ h _ hlt hl ?_
    rw [Hexadecimal.number, hds]
    rfl

theorem toNat_dlError : dlError.toNat = 2 ^ 64 - 1 := rfl

/-- Only the largest number is taken for an error. -/
theorem hextoi_exact_iff (l : List UInt8) : HextoiExact l ↔ ¬ AllOnes l := by
  rw [← number_eq_max_iff]
  by_cases hn : ∃ n < 2 ^ 64, l ≠ [] ∧ Hexadecimal.number l = some n
  · obtain ⟨n, hlt, hl, hnum⟩ := hn
    have hnat : (UInt64.ofNat n).toNat = n := by
      rw [UInt64.toNat_ofNat']
      exact Nat.mod_eq_of_lt hlt
    refine ⟨fun ⟨r, hr, hexact, _⟩ hmax ↦ ?_, fun hmax ↦ ⟨_, hextoi_of_number hl hnum hlt, ?_, ?_⟩⟩
    · obtain ⟨hval, hne⟩ := hexact _ (by decide) hl hmax
      exact hne (UInt64.toNat_inj.mp hval)
    · intro m hm _ hnum'
      obtain rfl := Option.some.inj (hnum.symm.trans hnum')
      refine ⟨hnat, fun he ↦ hmax ?_⟩
      rw [hnum, ← toNat_dlError, ← he, hnat]
    · exact fun hnone ↦ absurd hnum (hnone n hlt hl)
  · have hnone : ∀ n < 2 ^ 64, l ≠ [] → Hexadecimal.number l ≠ some n :=
      fun n hlt hl hnum ↦ hn ⟨n, hlt, hl, hnum⟩
    refine ⟨fun _ hmax ↦ ?_, fun _ ↦ ⟨dlError, hextoi_of_not_number hnone, ?_, fun _ ↦ rfl⟩⟩
    · refine hn ⟨_, by decide, ?_, hmax⟩
      rintro rfl
      exact absurd hmax (by decide)
    · exact fun n hlt hl hnum ↦ absurd hnum (hnone n hlt hl)

/-- The largest number is not told from an error. -/
theorem not_hextoi_exact : ¬ HextoiExact (List.replicate 16 (ch 'f')) := by
  rintro ⟨r, hr, hexact, -⟩
  have hnum : Hexadecimal.number (List.replicate 16 (ch 'f')) = some (2 ^ 64 - 1) := by decide
  obtain ⟨hval, hne⟩ := hexact _ (by decide) (List.cons_ne_nil _ _) hnum
  exact hne (UInt64.toNat_inj.mp hval)

end Dlbase.DlString
