import Mathlib

/-!
# Bytes and groups of six bits

A list of bytes is cut into sextets, of which four take three bytes; the last sextet is filled up
with zeros.  Putting the sextets together gives the bytes back.
-/

namespace Cmem

variable {s : List UInt8}

/-- The bytes in groups of six bits. -/
def sextets : List UInt8 → List UInt8
  | a :: b :: c :: s =>
    a >>> 2 :: ((a &&& 3) <<< 4 ||| b >>> 4) :: ((b &&& 15) <<< 2 ||| c >>> 6) :: (c &&& 63) ::
      sextets s
  | [a, b] => [a >>> 2, (a &&& 3) <<< 4 ||| b >>> 4, (b &&& 15) <<< 2]
  | [a] => [a >>> 2, (a &&& 3) <<< 4]
  | [] => []

/-- The bytes of which the groups consist. -/
def octets : List UInt8 → List UInt8
  | a :: b :: c :: d :: s => (a <<< 2 ||| b >>> 4) :: (b <<< 4 ||| c >>> 2) :: (c <<< 6 ||| d) ::
      octets s
  | [a, b, c] => [a <<< 2 ||| b >>> 4, b <<< 4 ||| c >>> 2]
  | [a, b] => [a <<< 2 ||| b >>> 4]
  | [_] => []
  | [] => []

/-! ## Bits -/

theorem eq_of_bits {x y : UInt8} (h : ∀ i < 8, x.toBitVec.getLsbD i = y.toBitVec.getLsbD i) :
    x = y :=
  UInt8.toBitVec_inj.mp (BitVec.eq_of_getLsbD_eq h)

/-- A byte without its two highest bits. -/
theorem lt_of_bits {x : UInt8} (h₆ : x.toBitVec.getLsbD 6 = false)
    (h₇ : x.toBitVec.getLsbD 7 = false) : x < 64 := by
  refine UInt8.lt_iff_toNat_lt.mpr (Nat.lt_pow_two_of_testBit (n := 6) _ fun i hi ↦ ?_)
  change x.toBitVec.getLsbD i = false
  rcases Nat.lt_or_ge i 8 with hlt | hge
  · obtain rfl | rfl : i = 6 ∨ i = 7 := by omega
    · exact h₆
    · exact h₇
  · exact BitVec.getLsbD_of_ge _ _ hge

/-- The first byte of a group. -/
theorem octet_one (a x : UInt8) : (a >>> 2) <<< 2 ||| ((a &&& 3) <<< 4 ||| x >>> 4) >>> 4 = a := by
  refine eq_of_bits fun i hi ↦ ?_
  interval_cases i <;> simp

/-- The second byte of a group. -/
theorem octet_two (a b x : UInt8) :
    ((a &&& 3) <<< 4 ||| b >>> 4) <<< 4 ||| ((b &&& 15) <<< 2 ||| x >>> 6) >>> 2 = b := by
  refine eq_of_bits fun i hi ↦ ?_
  interval_cases i <;> simp

/-- The third byte of a group. -/
theorem octet_three (b c : UInt8) :
    ((b &&& 15) <<< 2 ||| c >>> 6) <<< 6 ||| (c &&& 63) = c := by
  refine eq_of_bits fun i hi ↦ ?_
  interval_cases i <;> simp

/-! ## Lists -/

/-- Cutting bytes into sextets loses nothing. -/
theorem octets_sextets (s : List UInt8) : octets (sextets s) = s := by
  induction s using sextets.induct with
  | case1 a b c s ih => rw [sextets, octets, octet_one, octet_two, octet_three, ih]
  | case2 a b =>
    have htwo := octet_two a b 0
    rw [UInt8.zero_shiftRight, UInt8.or_zero] at htwo
    rw [sextets, octets, octet_one, htwo]
  | case3 a =>
    have hone := octet_one a 0
    rw [UInt8.zero_shiftRight, UInt8.or_zero] at hone
    rw [sextets, octets, hone]
  | case4 => rfl

/-- A sextet has six bits. -/
theorem sextets_lt (s : List UInt8) : ∀ x ∈ sextets s, x < 64 := by
  have hfirst : ∀ a : UInt8, a >>> 2 < 64 := fun _ ↦ lt_of_bits (by simp) (by simp)
  have hsecond : ∀ a b : UInt8, (a &&& 3) <<< 4 ||| b >>> 4 < 64 := fun _ _ ↦
    lt_of_bits (by simp) (by simp)
  have hthird : ∀ b c : UInt8, (b &&& 15) <<< 2 ||| c >>> 6 < 64 := fun _ _ ↦
    lt_of_bits (by simp) (by simp)
  induction s using sextets.induct with
  | case1 a b c s ih =>
    have hfourth : c &&& 63 < 64 := lt_of_bits (by simp) (by simp)
    rw [sextets]
    simp only [List.forall_mem_cons]
    exact ⟨hfirst a, hsecond a b, hthird b c, hfourth, ih⟩
  | case2 a b =>
    have hlast : (b &&& 15) <<< 2 < 64 := lt_of_bits (by simp) (by simp)
    rw [sextets]
    simp only [List.forall_mem_cons]
    exact ⟨hfirst a, hsecond a b, hlast, nofun⟩
  | case3 a =>
    have hlast : (a &&& 3) <<< 4 < 64 := lt_of_bits (by simp) (by simp)
    rw [sextets]
    simp only [List.forall_mem_cons]
    exact ⟨hfirst a, hlast, nofun⟩
  | case4 => exact nofun

theorem length_sextets (s : List UInt8) : (sextets s).length = (s.length * 4 + 2) / 3 := by
  induction s using sextets.induct with
  | case1 a b c s ih =>
    rw [sextets]
    simp only [List.length_cons, ih]
    omega
  | case2 a b => simp [sextets]
  | case3 a => simp [sextets]
  | case4 => rfl

end Cmem
