import Dlbase.Fifo.Queue
import Dlbase.Table.Model

/-!
# Rounding of sizes

The logarithms that the sizes of tables and buffers are rounded with are exact, and so the rounded
size is the least power of two that is not below the size that was asked for.
-/

namespace Dlbase.Fifo

open Cmem

open Dlbase.Table (dlLog2 ceillog2 dlLog2_eq ceillog2_eq_clog nodeInit maxBits)

variable {x n : Nat}

/-- `p` is the least power of two that is not below `n`. -/
def IsRounded (n p : Nat) : Prop := IsLeast {p | (∃ k, p = 2 ^ k) ∧ n ≤ p} p

/-- The power of two with the rounded logarithm is the least one. -/
theorem isRounded_clog (n : Nat) : IsRounded n (2 ^ Nat.clog 2 n) := by
  refine ⟨⟨⟨_, rfl⟩, Nat.le_pow_clog Nat.one_lt_two n⟩, ?_⟩
  rintro p ⟨⟨k, rfl⟩, hn⟩
  exact Nat.pow_le_pow_right (by decide) ((Nat.clog_le_iff_le_pow Nat.one_lt_two).mpr hn)

theorem isLeast_clog (n : Nat) : IsLeast {l | n ≤ 2 ^ l} (Nat.clog 2 n) :=
  ⟨Nat.le_pow_clog Nat.one_lt_two n, fun _ hl ↦ (Nat.clog_le_iff_le_pow Nat.one_lt_two).mpr hl⟩

/-- `dl_log2` rounds the logarithm down. -/
theorem dlLog2_eq_log (hx : 1 ≤ x) : dlLog2 x = Nat.log 2 x := by
  have hlog : Nat.log2 (2 * x + 1) = Nat.log 2 x + 1 := by
    rw [Nat.log2_eq_iff (by omega)]
    have hlo := Nat.pow_log_le_self 2 (x := x) (by omega)
    have hhi := Nat.lt_pow_succ_log_self Nat.one_lt_two x
    rw [Nat.succ_eq_add_one] at hhi
    have h₁ : (2 : Nat) ^ (Nat.log 2 x + 1) = 2 * 2 ^ Nat.log 2 x := Nat.pow_succ'
    have h₂ : (2 : Nat) ^ (Nat.log 2 x + 1 + 1) = 2 * 2 ^ (Nat.log 2 x + 1) := Nat.pow_succ'
    omega
  rw [dlLog2_eq, hlog]
  omega

/-- The size of a buffer is rounded up. -/
theorem shiftOne_ceillog2 {size : UInt32} (hpos : 1 ≤ size.toNat) (hle : size.toNat ≤ 2 ^ 31) :
    ∃ s, shiftOne (ceillog2 32 size.toNat) = .ok s ∧ s.toNat = 2 ^ Nat.clog 2 size.toNat := by
  have hk : Nat.clog 2 size.toNat ≤ 31 := (Nat.clog_le_iff_le_pow Nat.one_lt_two).mpr hle
  rw [ceillog2_eq_clog hpos (Nat.le_of_lt size.toNat_lt), shiftOne,
    if_pos ⟨Int.natCast_nonneg _, by omega⟩]
  obtain ⟨k, hlog, -, hs⟩ := shiftOne_eq_ok (l := Nat.clog 2 size.toNat)
    (if_pos ⟨by omega, by omega⟩)
  rw [Int.toNat_natCast] at hs ⊢
  exact ⟨_, rfl, by rw [hs, Int.natCast_inj.mp hlog]⟩

/-- A buffer has as many slots as the rounded size says. -/
theorem mask_add_one {alloc : Nat → Option (List UInt8)} {size esize s : UInt32} {f : DlFifo}
    (h : init alloc size esize = .ok (some f)) (hs : shiftOne (ceillog2 32 size.toNat) = .ok s) :
    f.mask + 1 = s := by
  unfold init at h
  rw [hs] at h
  split_ifs at h
  · cases h
  rw [Exec.ok_bind] at h
  split_ifs at h
  · cases h
  split at h
  · cases h
  · obtain rfl := Option.some.inj (Except.ok.inj h)
    exact UInt32.sub_add_cancel s 1

/-- The node part has as many nodes as the rounded size says, if there is memory for them. -/
theorem nodeInit_rounded (A : Table.Malloc) (t : Table.DlTable) (hpos : 1 ≤ n) (hle : n ≤ 2 ^ 26) :
    ∃ t', nodeInit A t n = (t', !A.fails t.allocs) ∧
      (A.fails t.allocs = false → t'.sizenode = 2 ^ Nat.clog 2 n) := by
  have hmod : ((n : Int) % 2 ^ 64).toNat = n := by omega
  have hlog : ceillog2 64 n = Nat.clog 2 n := ceillog2_eq_clog hpos (by omega)
  have hbits : Nat.clog 2 n ≤ 26 := (Nat.clog_le_iff_le_pow Nat.one_lt_two).mpr hle
  have hmax : ¬ (maxBits : Int) < (Nat.clog 2 n : Nat) := by
    change ¬ (26 : Int) < _
    omega
  unfold nodeInit Table.DlTable.alloc
  rw [if_neg (by omega), hmod, hlog]
  dsimp only
  rw [if_neg hmax]
  cases A.fails t.allocs with
  | true => exact ⟨_, rfl, nofun⟩
  | false => exact ⟨_, rfl, fun _ ↦ rfl⟩

/-- The logarithms are exact, and the sizes are rounded up to the least power of two. -/
theorem sizes_rounded :
    dlLog2 0 = -1 ∧
    (∀ x, 1 ≤ x → x < 2 ^ 64 → dlLog2 x = Nat.log 2 x ∧
      ∃ l : Nat, ceillog2 64 x = l ∧ IsLeast {l | x ≤ 2 ^ l} l) ∧
    (∀ size : UInt32, 1 ≤ size.toNat → size.toNat ≤ 2 ^ 31 →
      ∃ s, shiftOne (ceillog2 32 size.toNat) = .ok s ∧ IsRounded size.toNat s.toNat ∧
        ∀ alloc esize f, init alloc size esize = .ok (some f) → f.mask + 1 = s) ∧
    (∀ (A : Table.Malloc) (t : Table.DlTable) (n : Nat), 1 ≤ n → n ≤ 2 ^ 26 →
      ∃ t', nodeInit A t n = (t', !A.fails t.allocs) ∧
        (A.fails t.allocs = false → IsRounded n t'.sizenode)) := by
  refine ⟨?_, fun x hx hlt ↦ ?_, fun size hpos hle ↦ ?_, fun A t n hpos hle ↦ ?_⟩
  · rw [dlLog2_eq]
    decide
  · exact ⟨dlLog2_eq_log hx, _, ceillog2_eq_clog hx (Nat.le_of_lt hlt), isLeast_clog x⟩
  · obtain ⟨s, hs, hval⟩ := shiftOne_ceillog2 hpos hle
    exact ⟨s, hs, hval ▸ isRounded_clog _, fun alloc esize f hf ↦ mask_add_one hf hs⟩
  · obtain ⟨t', ht', hsize⟩ := nodeInit_rounded A t hpos hle
    exact ⟨t', ht', fun hA ↦ hsize hA ▸ isRounded_clog n⟩

end Dlbase.Fifo
