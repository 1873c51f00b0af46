import Dlbase.Fifo.Queue

/-!
# Where the elements lie

`dl_fifo_copy_in` has an unsigned offset and `dl_fifo_copy_out` one that is signed; the size of the
memory is a product of two values of 32 bits.  All of them are right if and only if the offset of
the last slot is less than 2³¹.
-/

namespace Dlbase.Fifo

open Cmem

variable {f : DlFifo} {k : Nat}

/-- Which bytes of the memory are copied: some from an offset on, others from the beginning. -/
structure Span where
  /-- The offset of the first part. -/
  off : Int
  /-- The length of the first part. -/
  first : Nat
  /-- The length of the part at the beginning. -/
  rest : Nat

/-- The bytes that `dl_fifo_copy_in` writes. -/
def copyInSpan (f : DlFifo) (len off : UInt32) : Span :=
  let size := scale f (f.mask + 1)
  let off := scale f (off &&& f.mask)
  let len := scale f len
  let l := dlMin len (size - off)
  ⟨off.toNat, l.toNat, (len - l).toNat⟩

/-- The bytes that `dl_fifo_copy_out` reads. -/
def copyOutSpan (f : DlFifo) (len : UInt32) (off : Int32) : Span :=
  let size := scale f (f.mask + 1)
  let off := (off.toUInt32 &&& f.mask).toInt32
  let off := (scale f off.toUInt32).toInt32
  let len := scale f len
  let l := dlMin len (size - off.toUInt32)
  ⟨off.toInt, l.toNat, (len - l).toNat⟩

theorem copyIn_eq_span (f : DlFifo) (src : List UInt8) (len off : UInt32) :
    copyIn f src len off = (do
      let s := copyInSpan f len off
      let data ← memcpy f.data s.off.toNat src 0 s.first
      let data ← memcpy data 0 src s.first s.rest
      pure { f with data }) := rfl

/-- The value of a `signed int` of 32 bits. -/
theorem toInt_eq (n : UInt32) :
    n.toInt32.toInt = if n.toNat < 2 ^ 31 then (n.toNat : Int) else n.toNat - 2 ^ 32 := by
  rw [← Int32.toInt_toBitVec, UInt32.toBitVec_toInt32, BitVec.toInt_eq_toNat_cond,
    UInt32.toNat_toBitVec]
  split_ifs <;> omega

theorem copyOut_eq_span (f : DlFifo) (dst : List UInt8) (len : UInt32) (off : Int32) :
    copyOut f dst len off = (do
      let s := copyOutSpan f len off
      if s.off < 0 then Exec.undef
      else do
        let dst ← memcpy dst 0 f.data s.off.toNat s.first
        memcpy dst s.first f.data 0 s.rest) := by
  have hneg : ∀ x : Int32, x < 0 ↔ x.toInt < 0 := fun x ↦ Int32.lt_iff_toInt_lt
  have hnat : ∀ n : UInt32, ¬ n.toInt32.toInt < 0 → n.toInt32.toInt.toNat = n.toNat := by
    intro n hn
    have hlt := n.toNat_lt
    rw [toInt_eq] at hn ⊢
    split_ifs at hn ⊢ with h
    · exact Int.toNat_natCast _
    · omega
  simp only [copyOut, copyOutSpan, hneg, UInt32.toUInt32_toInt32]
  split_ifs with h
  · rfl
  · rw [hnat _ h]

/-- The memory is that of the slots, and both copies keep to the same part of it. -/
structure Geometry (f : DlFifo) : Prop where
  /-- The memory has the size of the slots. -/
  exact : f.data.length = (f.mask.toNat + 1) * f.esize.toNat
  /-- Both copies are about the same bytes. -/
  same (off len : UInt32) : len.toNat ≤ f.mask.toNat + 1 →
    copyOutSpan f len off.toInt32 = copyInSpan f len off
  /-- The offset is not negative. -/
  nonneg (off len : UInt32) : len.toNat ≤ f.mask.toNat + 1 →
    0 ≤ (copyOutSpan f len off.toInt32).off
  /-- The first part is inside the memory. -/
  first_le (off len : UInt32) : len.toNat ≤ f.mask.toNat + 1 →
    (copyInSpan f len off).off + (copyInSpan f len off).first ≤ f.data.length
  /-- The other part is inside the memory. -/
  rest_le (off len : UInt32) : len.toNat ≤ f.mask.toNat + 1 →
    (copyInSpan f len off).rest ≤ f.data.length

/-- A memory of exact size is right if the offset of its last slot is the value of an `int`. -/
theorem Exact.geometry (h : Exact f k) (hlast : f.mask.toNat * f.esize.toNat < 2 ^ 31) :
    Geometry f := by
  have hspans : ∀ off len : UInt32, len.toNat ≤ f.mask.toNat + 1 → Spans f k len off :=
    fun off len hlen ↦ h.spans (h.mask ▸ hlen)
  have hsame : ∀ off len : UInt32, len.toNat ≤ f.mask.toNat + 1 →
      copyOutSpan f len off.toInt32 = copyInSpan f len off := by
    intro off len hlen
    have hle : off.toNat % 2 ^ k * f.esize.toNat ≤ f.mask.toNat * f.esize.toNat := by
      have hmod := Nat.mod_lt off.toNat (Nat.two_pow_pos k)
      rw [← h.mask] at hmod ⊢
      exact Nat.mul_le_mul_right _ (by omega)
    simp only [copyOutSpan, copyInSpan, UInt32.toUInt32_toInt32]
    rw [toInt_eq, (hspans off len hlen).start, if_pos (by omega)]
  refine ⟨h.mask ▸ h.length, hsame, fun off len hlen ↦ ?_, fun off len hlen ↦ ?_,
    fun off len hlen ↦ ?_⟩
  · rw [hsame off len hlen]
    exact Int.natCast_nonneg _
  · have hs := hspans off len hlen
    have hmin := hs.toNat_min
    have hle := hs.start_le
    simp only [copyInSpan, hs.start, hmin]
    omega
  · have hs := hspans off len hlen
    have hle := hs.bytes_le
    simp only [copyInSpan, hs.toNat_rest]
    omega

/-- The offset of the last slot is the one that `dl_fifo_copy_out` can get wrong. -/
theorem Geometry.last_lt (h : Geometry f) (hlt : f.data.length < 2 ^ 32) :
    f.mask.toNat * f.esize.toNat < 2 ^ 31 := by
  have hexact := h.exact
  rw [Nat.succ_mul] at hexact
  have hscale : (scale f (f.mask &&& f.mask)).toNat = f.mask.toNat * f.esize.toNat := by
    rw [UInt32.and_self, toNat_scale (by omega)]
  have hsame := congrArg Span.off (h.same f.mask 0 (Nat.zero_le _))
  simp only [copyOutSpan, copyInSpan, UInt32.toUInt32_toInt32, toInt_eq, hscale] at hsame
  split_ifs at hsame <;> omega

/-- The geometry of a buffer that `dl_fifo_init` makes is right if and only if the offset of its
last slot is the value of an `int`. -/
theorem geometry_iff {alloc : Nat → Option (List UInt8)} {size esize : UInt32} {f : DlFifo}
    (halloc : ∀ n b, alloc n = some b → b.length = n) (h : init alloc size esize = .ok (some f)) :
    Geometry f ↔ (2 ^ Nat.clog 2 size.toNat - 1) * esize.toNat < 2 ^ 31 := by
  obtain ⟨k, hclog, hpos, hk, hmask, rfl, -, -, hdata⟩ := init_spec halloc h
  have hlast : 2 ^ Nat.clog 2 size.toNat - 1 = f.mask.toNat := by
    rw [← hclog, ← hmask, Nat.add_sub_cancel]
  rw [hlast]
  constructor
  · exact fun hg ↦ hg.last_lt (hdata ▸ Nat.mod_lt _ (by decide))
  · intro hlt
    have htwo : 2 ^ 1 ≤ 2 ^ k := Nat.pow_le_pow_right (by decide) hpos
    have hmul : f.esize.toNat ≤ f.mask.toNat * f.esize.toNat :=
      Nat.le_mul_of_pos_left _ (by omega)
    have hsize : 2 ^ k * f.esize.toNat < 2 ^ 32 := by
      rw [← hmask, Nat.succ_mul]
      omega
    exact Exact.geometry ⟨hmask, hk, hdata.trans (Nat.mod_eq_of_lt hsize), hsize⟩ hlt

theorem geometry_three : Geometry empty :=
  (geometry_iff length_zeros init_three).mpr (by
    have hclog : Nat.clog 2 3 = 2 := by
      rw [Nat.clog_of_two_le (by decide) (by decide)]
      rfl
    change (2 ^ Nat.clog 2 3 - 1) * 2 < 2 ^ 31
    rw [hclog]
    decide)

/-- For 2¹⁶ elements of 2¹⁶ bytes no memory is allocated at all. -/
theorem not_geometry_wrap : ∃ f, init zeros 65536 65536 = .ok (some f) ∧ ¬ Geometry f := by
  have hlog : Table.ceillog2 32 65536 = 16 := by
    rw [Table.ceillog2_eq]
    decide
  refine ⟨⟨0, 0, 65536, 65535, []⟩, ?_, fun h ↦ ?_⟩
  · simp only [init, zeros, UInt32.reduceToNat, hlog, shiftOne]
    rfl
  · exact absurd h.exact (by decide)

end Dlbase.Fifo
