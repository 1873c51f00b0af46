import Dlbase.String.Model

/-!
# Reading a decimal number

`dl_atoi` returns the number that is written, or `DL_ERROR` if there is none or if it does not fit
in an `int`.  The test in front of each digit is exact: it keeps the `int` from overflowing, and it
refuses nothing else.
-/

namespace Dlbase.DlString

open Cmem

/-- The result of an operation on values of type `int`. -/
def int (v : Int) : Exec Int := if -2 ^ 31 ≤ v ∧ v < 2 ^ 31 then .ok v else Exec.undef

/-- `DL_ERROR` as an `int`. -/
def intError : Int := -1

/-- `INT32_MAX / 10`. -/
def intCutoff : Int := 0x7fffffff / 10

/-- `INT32_MAX % 10`. -/
def intCutlim : Int := 0x7fffffff % 10

/-- The loop of `dl_atoi`, for `n` more of the characters that may be read at `line`. -/
def atoiLoop : Nat → List UInt8 → Int → Exec Int
  | 0, _, value => .ok value
  | _ + 1, [], _ => Exec.undef
  | n + 1, c :: line, value =>
    if ¬ IsDigit c then .ok intError
    else
      let d : Int := c.toNat - (ch '0').toNat
      if intCutoff ≤ value ∧ (intCutoff < value ∨ intCutlim < d) then .ok intError
      else do
        let tens ← int (value * 10)
        let value ← int (tens + d)
        atoiLoop n line value

/-- `dl_atoi`, where `line` is what may be read from the pointer on. -/
def atoi (line : List UInt8) (n : Nat) : Exec Int :=
  if n = 0 then .ok intError else atoiLoop n line 0

/-! ## Decimal numbers -/

variable {c : UInt8} {l : List UInt8} {v : Nat}

/-- The value of a digit. -/
def digitValue (c : UInt8) : Nat := c.toNat - (ch '0').toNat

/-- The number that is written with the digits `l`. -/
def decimalValue (l : List UInt8) : Nat := Nat.ofDigits 10 (l.map digitValue).reverse

theorem decimalValue_cons (c : UInt8) (l : List UInt8) :
    decimalValue (c :: l) = digitValue c * 10 ^ l.length + decimalValue l := by
  rw [decimalValue, List.map_cons, List.reverse_cons, Nat.ofDigits_append, Nat.ofDigits_singleton,
    List.length_reverse, List.length_map, Nat.mul_comm, Nat.add_comm]
  rfl

/-- The code's digits are the digits. -/
theorem sub_eq_digitValue (hc : IsDigit c) :
    ((c.toNat : Int) - (ch '0').toNat) = digitValue c ∧ digitValue c < 10 := by
  obtain ⟨hlo, hhi⟩ := hc
  rw [UInt8.le_iff_toNat_le] at hlo hhi
  have h9 : (ch '9').toNat = 57 := rfl
  have h0 : (ch '0').toNat = 48 := rfl
  unfold digitValue
  omega

/-- The test in front of a digit finds out whether one more digit fits. -/
theorem cutoff_iff {d : Nat} (hd : d < 10) :
    (intCutoff ≤ (v : Int) ∧ (intCutoff < (v : Int) ∨ intCutlim < (d : Int))) ↔
      2 ^ 31 ≤ 10 * v + d := by
  have hcutoff : intCutoff = 214748364 := rfl
  have hcutlim : intCutlim = 7 := rfl
  omega

/-! ## The loop -/

/-- A round of the loop in front of a digit. -/
theorem atoiLoop_cons (hv : v < 2 ^ 31) (hc : IsDigit c) (n : Nat) (l : List UInt8) :
    atoiLoop (n + 1) (c :: l) v =
      if 2 ^ 31 ≤ 10 * v + digitValue c then .ok intError
      else atoiLoop n l ((10 * v + digitValue c : Nat) : Int) := by
  obtain ⟨hsub, hlt⟩ := sub_eq_digitValue hc
  rw [atoiLoop, if_neg (not_not.mpr hc)]
  dsimp only
  rw [hsub]
  by_cases hfit : 2 ^ 31 ≤ 10 * v + digitValue c
  · rw [if_pos ((cutoff_iff hlt).mpr hfit), if_pos hfit]
  · have htens : int ((v : Int) * 10) = .ok ((v : Int) * 10) := if_pos (by omega)
    have hvalue : int ((v : Int) * 10 + (digitValue c : Nat)) =
        .ok ((v : Int) * 10 + (digitValue c : Nat)) := if_pos (by omega)
    have hcast : (v : Int) * 10 + (digitValue c : Nat) = ((10 * v + digitValue c : Nat) : Int) := by
      push_cast
      ring
    rw [if_neg fun h ↦ hfit ((cutoff_iff hlt).mp h), if_neg hfit, htens, Exec.ok_bind, hvalue,
      Exec.ok_bind, hcast]

/-- The digits `l` behind the number `v` are those of a number that fits. -/
def Fits (v : Nat) (l : List UInt8) : Prop :=
  (∀ c ∈ l, IsDigit c) ∧ v * 10 ^ l.length + decimalValue l < 2 ^ 31

theorem decimalValue_behind (v : Nat) (c : UInt8) (l : List UInt8) :
    v * 10 ^ (c :: l).length + decimalValue (c :: l) =
      (10 * v + digitValue c) * 10 ^ l.length + decimalValue l := by
  rw [decimalValue_cons, List.length_cons, Nat.pow_succ]
  ring

/-- One more digit that fits belongs to the number in front. -/
theorem fits_cons : Fits v (c :: l) ↔
    IsDigit c ∧ 10 * v + digitValue c < 2 ^ 31 ∧ Fits (10 * v + digitValue c) l := by
  have hle : 10 * v + digitValue c ≤ (10 * v + digitValue c) * 10 ^ l.length :=
    Nat.le_mul_of_pos_right _ (Nat.pow_pos (by decide))
  rw [Fits, Fits, decimalValue_behind, List.forall_mem_cons]
  refine ⟨fun ⟨⟨hc, hl⟩, hlt⟩ ↦ ⟨hc, by omega, hl, hlt⟩, fun ⟨hc, _, hl, hlt⟩ ↦ ⟨⟨hc, hl⟩, hlt⟩⟩

/-- A number that fits. -/
theorem atoiLoop_of_fits (h : Fits v l) :
    atoiLoop l.length l v = .ok ((v * 10 ^ l.length + decimalValue l : Nat) : Int) := by
  induction l generalizing v with
  | nil => exact congrArg (fun n : Nat ↦ Except.ok (n : Int)) (Nat.mul_one v).symm
  | cons c l ih =>
    obtain ⟨hc, hlt, hl⟩ := fits_cons.mp h
    rw [List.length_cons, atoiLoop_cons (by omega) hc, if_neg (Nat.not_le.mpr hlt), ih hl,
      ← List.length_cons, decimalValue_behind]

/-- No number, or one that does not fit. -/
theorem atoiLoop_of_not_fits (hv : v < 2 ^ 31) (h : ¬ Fits v l) :
    atoiLoop l.length l v = .ok intError := by
  induction l generalizing v with
  | nil =>
    refine absurd ⟨fun c hc ↦ absurd hc List.not_mem_nil, ?_⟩ h
    exact (Nat.mul_one v).symm ▸ hv
  | cons c l ih =>
    rw [fits_cons, not_and, not_and] at h
    by_cases hc : IsDigit c
    · rw [List.length_cons, atoiLoop_cons hv hc]
      split_ifs with hfit
      · rfl
      · exact ih (Nat.not_le.mp hfit) (h hc (Nat.not_le.mp hfit))
    · rw [List.length_cons, atoiLoop, if_pos hc]

/-- `dl_atoi` returns the number that is written if there is one and it fits, and an error if not,
without overflowing and without reading behind the text. -/
theorem atoi_eq (line : List UInt8) : atoi line line.length =
    .ok (if line ≠ [] ∧ (∀ c ∈ line, IsDigit c) ∧ decimalValue line ≤ 2 ^ 31 - 1 then
      (decimalValue line : Int) else intError) := by
  have hfits : Fits 0 line ↔ (∀ c ∈ line, IsDigit c) ∧ decimalValue line ≤ 2 ^ 31 - 1 := by
    rw [Fits, Nat.zero_mul, Nat.zero_add]
    exact and_congr_right fun _ ↦ Nat.lt_iff_le_pred (by decide)
  unfold atoi
  by_cases hline : line = []
  · rw [if_pos (List.length_eq_zero_iff.mpr hline), if_neg fun h ↦ h.1 hline]
  rw [if_neg fun h ↦ hline (List.length_eq_zero_iff.mp h)]
  by_cases hfit : Fits 0 line
  · have hloop := atoiLoop_of_fits hfit
    rw [Nat.zero_mul, Nat.zero_add] at hloop
    rw [if_pos ⟨hline, hfits.mp hfit⟩]
    exact hloop
  · rw [if_neg fun h ↦ hfit (hfits.mpr h.2)]
    exact atoiLoop_of_not_fits (by decide) hfit

end Dlbase.DlString
