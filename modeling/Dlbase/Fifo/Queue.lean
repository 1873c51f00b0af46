import Dlbase.Fifo.Model

/-!
# The ring buffer as a queue

Any sequence of `dl_fifo_in`, `dl_fifo_out` and `dl_fifo_out_peek` calls on a buffer made by
`dl_fifo_init`: what comes out is what went in.  The invariant is about byte sequences: the ring
keeps the bytes that went in from those that have come out on, and the counters are the numbers
of elements modulo `2 ^ 32`.
-/

namespace Dlbase.Fifo

open Cmem

variable {f f' : DlFifo} {k : Nat} {len off n : UInt32} {src dst buf : List UInt8}

/-- A buffer of `2 ^ k` slots and less than `2 ^ 31` bytes. -/
structure Sized (f : DlFifo) (k : Nat) : Prop where
  /-- The mask belongs to the number of slots. -/
  mask : f.mask.toNat + 1 = 2 ^ k
  /-- There are two slots at least. -/
  pos : 0 < k
  /-- The slots can be counted. -/
  le : k ≤ 31
  /-- The memory has the size of the slots. -/
  length : f.data.length = 2 ^ k * f.esize.toNat
  /-- The size is less than `2 ^ 31`. -/
  lt : 2 ^ k * f.esize.toNat < 2 ^ 31

theorem two_pow_le (h : k ≤ 31) : 2 ^ k ≤ 2 ^ 31 := Nat.pow_le_pow_right (by decide) h

/-! ## Sizes in bytes -/

theorem toNat_scale (h : n.toNat * f.esize.toNat < 2 ^ 32) :
    (scale f n).toNat = n.toNat * f.esize.toNat := by
  unfold scale
  split_ifs with he
  · rw [UInt32.toNat_mul, Nat.mod_eq_of_lt h]
  · rw [not_not.mp he]
    exact (Nat.mul_one _).symm

/-- A buffer of `2 ^ k` slots whose size in bytes can be counted. -/
structure Exact (f : DlFifo) (k : Nat) : Prop where
  /-- The mask belongs to the number of slots. -/
  mask : f.mask.toNat + 1 = 2 ^ k
  /-- The slots can be counted. -/
  le : k ≤ 31
  /-- The memory has the size of the slots. -/
  length : f.data.length = 2 ^ k * f.esize.toNat
  /-- The size is less than `2 ^ 32`. -/
  lt : 2 ^ k * f.esize.toNat < 2 ^ 32

theorem Sized.exact (h : Sized f k) : Exact f k where
  mask := h.mask
  le := h.le
  length := h.length
  lt := Nat.lt_trans h.lt (by decide)

theorem Exact.toNat_mask_add_one (h : Exact f k) : (f.mask + 1).toNat = 2 ^ k := by
  have hle := two_pow_le h.le
  rw [UInt32.toNat_add, UInt32.toNat_one, h.mask, Nat.mod_eq_of_lt (by omega)]

theorem Exact.toNat_and_mask (h : Exact f k) : (off &&& f.mask).toNat = off.toNat % 2 ^ k := by
  have hmask : f.mask.toNat = 2 ^ k - 1 := by
    have := h.mask
    omega
  rw [UInt32.toNat_and, hmask, Nat.and_two_pow_sub_one_eq_mod]

theorem toNat_dlMin (m n : UInt32) : (dlMin m n).toNat = min m.toNat n.toNat := by
  unfold dlMin
  split_ifs with h
  · exact (Nat.min_eq_right (UInt32.le_iff_toNat_le.mp (UInt32.le_of_lt h))).symm
  · rw [gt_iff_lt, UInt32.lt_iff_toNat_lt] at h
    omega

/-- The sizes with which `dl_fifo_copy_in` and `dl_fifo_copy_out` call `memcpy`. -/
structure Spans (f : DlFifo) (k : Nat) (len off : UInt32) : Prop where
  /-- The size of the memory. -/
  size : (scale f (f.mask + 1)).toNat = f.data.length
  /-- The offset of the first slot. -/
  start : (scale f (off &&& f.mask)).toNat = off.toNat % 2 ^ k * f.esize.toNat
  /-- The number of bytes. -/
  bytes : (scale f len).toNat = len.toNat * f.esize.toNat
  /-- The slot is inside the memory. -/
  start_le : off.toNat % 2 ^ k * f.esize.toNat ≤ f.data.length
  /-- The bytes fit into the memory. -/
  bytes_le : len.toNat * f.esize.toNat ≤ f.data.length

theorem Exact.spans (h : Exact f k) (hlen : len.toNat ≤ 2 ^ k) : Spans f k len off := by
  have hoff : off.toNat % 2 ^ k * f.esize.toNat ≤ 2 ^ k * f.esize.toNat :=
    Nat.mul_le_mul_right _ (Nat.le_of_lt (Nat.mod_lt _ (Nat.two_pow_pos k)))
  have hlen' : len.toNat * f.esize.toNat ≤ 2 ^ k * f.esize.toNat := Nat.mul_le_mul_right _ hlen
  have hlt := h.lt
  refine ⟨?_, ?_, ?_, h.length ▸ hoff, h.length ▸ hlen'⟩
  · rw [toNat_scale (by rw [h.toNat_mask_add_one]; omega), h.toNat_mask_add_one, h.length]
  · rw [toNat_scale (by rw [h.toNat_and_mask]; omega), h.toNat_and_mask]
  · exact toNat_scale (by omega)

/-- The first of the two copies goes up to the end of the memory. -/
theorem Spans.toNat_min (h : Spans f k len off) :
    (dlMin (scale f len) (scale f (f.mask + 1) - scale f (off &&& f.mask))).toNat =
      min (len.toNat * f.esize.toNat) (f.data.length - off.toNat % 2 ^ k * f.esize.toNat) := by
  have hle : scale f (off &&& f.mask) ≤ scale f (f.mask + 1) := by
    rw [UInt32.le_iff_toNat_le, h.size, h.start]
    exact h.start_le
  rw [toNat_dlMin, UInt32.toNat_sub_of_le _ _ hle, h.size, h.start, h.bytes]

/-- The second copy starts at the beginning. -/
theorem Spans.toNat_rest (h : Spans f k len off) :
    (scale f len - dlMin (scale f len) (scale f (f.mask + 1) - scale f (off &&& f.mask))).toNat =
      len.toNat * f.esize.toNat - (dlMin (scale f len)
        (scale f (f.mask + 1) - scale f (off &&& f.mask))).toNat := by
  rw [UInt32.toNat_sub_of_le _ _ ?_, h.bytes]
  rw [UInt32.le_iff_toNat_le, h.toNat_min, h.bytes]
  exact Nat.min_le_left ..

/-- `dl_fifo_copy_in` writes the elements around the end of the memory. -/
theorem copyIn_spec (off len : UInt32) (h : Sized f k) (hlen : len.toNat ≤ 2 ^ k)
    (hsrc : len.toNat * f.esize.toNat ≤ src.length) :
    ∃ data, copyIn f src len off = .ok { f with data } ∧
      Wrapped f.data (off.toNat % 2 ^ k * f.esize.toNat) (len.toNat * f.esize.toNat) src data := by
  have hs : Spans f k len off := h.exact.spans hlen
  obtain ⟨mid, out, hmid, hout, hw⟩ := wrap_write hs.bytes_le hs.toNat_min hsrc hs.start_le
  refine ⟨out, ?_, hw⟩
  simp only [copyIn, hs.start, hs.toNat_rest, hmid, hout, Exec.ok_bind, Exec.pure_eq_ok]

theorem toInt32_not_neg (h : n.toNat < 2 ^ 31) : ¬ n.toInt32 < 0 := by
  have hint : n.toInt32.toInt = n.toNat := by
    rw [← Int32.toInt_toBitVec, UInt32.toBitVec_toInt32, BitVec.toInt_eq_toNat_of_lt]
    · rfl
    · rw [UInt32.toNat_toBitVec]
      omega
  rw [Int32.lt_iff_toInt_lt, hint, Int32.toInt_zero]
  omega

/-- `dl_fifo_copy_out` reads the elements around the end of the memory. -/
theorem copyOut_spec (off len : UInt32) (h : Sized f k) (hlen : len.toNat ≤ 2 ^ k)
    (hdst : len.toNat * f.esize.toNat ≤ dst.length) :
    ∃ out, copyOut f dst len off.toInt32 = .ok out ∧
      Unwrapped f.data (off.toNat % 2 ^ k * f.esize.toNat) (len.toNat * f.esize.toNat) dst out := by
  have hs : Spans f k len off := h.exact.spans hlen
  obtain ⟨mid, out, hmid, hout, hu⟩ := wrap_read hs.bytes_le hs.toNat_min hdst hs.start_le
  refine ⟨out, ?_, hu⟩
  have hneg : ¬ (scale f (off &&& f.mask)).toInt32 < 0 := by
    have hle := hs.start_le
    have hlt := h.length ▸ h.lt
    exact toInt32_not_neg (by rw [hs.start]; omega)
  simp only [copyOut, UInt32.toUInt32_toInt32, hneg, if_false, hs.start, hs.toNat_rest, hmid, hout,
    Exec.ok_bind]

/-- A copy that is defined does not leave the caller's buffer. -/
theorem length_le_of_copyIn (h : Sized f k) (hlen : len.toNat ≤ 2 ^ k)
    (hrun : copyIn f src len off = .ok f') : len.toNat * f.esize.toNat ≤ src.length := by
  have hs : Spans f k len off := h.exact.spans hlen
  simp only [copyIn] at hrun
  obtain ⟨mid, -, hrun⟩ := Exec.bind_eq_ok.mp hrun
  obtain ⟨out, hout, -⟩ := Exec.bind_eq_ok.mp hrun
  have hle := (memcpy_ok hout).2.1
  rw [hs.toNat_rest] at hle
  omega

theorem length_le_of_copyOut {out : List UInt8} (h : Sized f k) (hlen : len.toNat ≤ 2 ^ k)
    (hrun : copyOut f dst len off.toInt32 = .ok out) : len.toNat * f.esize.toNat ≤ dst.length := by
  have hs : Spans f k len off := h.exact.spans hlen
  simp only [copyOut, UInt32.toUInt32_toInt32] at hrun
  split_ifs at hrun
  · cases hrun
  obtain ⟨mid, hmid, hout⟩ := Exec.bind_eq_ok.mp hrun
  have hle := (memcpy_ok hout).1
  rw [(memcpy_ok hmid).2.2, hs.toNat_rest] at hle
  omega

/-! ## The queue -/

/-- The bytes `A` of `a` elements have gone in, the bytes `R` of `r` elements have come out. -/
structure Holds (k : Nat) (f : DlFifo) (A R : List UInt8) (a r : Nat) : Prop where
  /-- The buffer is well formed. -/
  sized : Sized f k
  /-- The counter of what has gone in. -/
  in_eq : f.in.toNat = a % 2 ^ 32
  /-- The counter of what has come out. -/
  out_eq : f.out.toNat = r % 2 ^ 32
  /-- Nothing comes out that has not gone in. -/
  le : r ≤ a
  /-- There are not more elements than slots. -/
  room : a ≤ r + 2 ^ k
  /-- The elements have gone in as a whole. -/
  length : A.length = a * f.esize.toNat
  /-- They come out in order. -/
  returned : R = A.take (r * f.esize.toNat)
  /-- The others lie in the ring. -/
  ring : Ring f.data A (r * f.esize.toNat)

variable {A R : List UInt8} {a r : Nat}

theorem Holds.toNat_stored (h : Holds k f A R a r) : (f.in - f.out).toNat = a - r := by
  have hk := two_pow_le h.sized.le
  have hin := h.in_eq
  have hout := h.out_eq
  have hle := h.le
  have hroom := h.room
  rw [UInt32.toNat_sub, hin, hout]
  omega

theorem Holds.toNat_unused (h : Holds k f A R a r) :
    (unused f).toUInt32.toNat = 2 ^ k - (a - r) := by
  have hle := h.le
  have hroom := h.room
  rw [unused, UInt32.toUInt32_toInt32, UInt32.toNat_sub_of_le, h.sized.exact.toNat_mask_add_one,
    h.toNat_stored]
  rw [UInt32.le_iff_toNat_le, h.toNat_stored, h.sized.exact.toNat_mask_add_one]
  omega

/-- A counter leads to the slot of the element it counts. -/
theorem Sized.slot (h : Sized f k) {c : UInt32} {x : Nat} (hc : c.toNat = x % 2 ^ 32) :
    c.toNat % 2 ^ k * f.esize.toNat = x * f.esize.toNat % f.data.length := by
  have hdvd : 2 ^ k ∣ 2 ^ 32 := Nat.pow_dvd_pow 2 (by have := h.le; omega)
  rw [hc, Nat.mod_mod_of_dvd _ hdvd, h.length, Nat.mul_mod_mul_right]

/-- The length a call settles on. -/
theorem toNat_clamp (len l : UInt32) : (if len > l then l else len).toNat = min len.toNat l.toNat := by
  split_ifs with h
  · exact (Nat.min_eq_right (UInt32.le_iff_toNat_le.mp (UInt32.le_of_lt h))).symm
  · rw [gt_iff_lt, UInt32.lt_iff_toNat_lt] at h
    omega

/-- `dl_fifo_in` appends the elements it has room for. -/
theorem Holds.fifoIn (h : Holds k f A R a r)
    (hbuf : min len.toNat (2 ^ k - (a - r)) * f.esize.toNat ≤ buf.length) :
    ∃ f' n, Fifo.fifoIn f buf len = .ok (f', n) ∧ n.toNat = min len.toNat (2 ^ k - (a - r)) ∧
      f'.esize = f.esize ∧ f'.mask = f.mask ∧
      Holds k f' (A ++ buf.take (n.toNat * f.esize.toNat)) R (a + n.toNat) r := by
  have hn := toNat_clamp len (unused f).toUInt32
  rw [h.toNat_unused] at hn
  simp only [Fifo.fifoIn]
  generalize (if len > (unused f).toUInt32 then (unused f).toUInt32 else len) = n at hn
  have hle := h.le
  have hroom := h.room
  obtain ⟨data, hrun, hw⟩ := copyIn_spec f.in n h.sized (by omega) (hn ▸ hbuf)
  rw [h.sized.slot h.in_eq, ← h.length] at hw
  have hbuf' : n.toNat * f.esize.toNat ≤ buf.length := hn ▸ hbuf
  have hlen : data.length = f.data.length := hw.length
  refine ⟨{ f with data, «in» := f.in + n }, n, by simp only [hrun, Exec.ok_bind, Exec.pure_eq_ok],
    hn, rfl, rfl,
    { sized := { h.sized with length := hlen.trans h.sized.length }
      in_eq := ?_, out_eq := h.out_eq, le := by omega, room := by omega
      length := ?_, returned := ?_, ring := ?_ }⟩
  · change (f.in + n).toNat = _
    rw [UInt32.toNat_add, h.in_eq]
    omega
  · rw [List.length_append, List.length_take_of_le hbuf', h.length, Nat.add_mul]
  · have hr : r * f.esize.toNat ≤ A.length := h.length ▸ Nat.mul_le_mul_right _ hle
    exact h.returned.trans (List.take_append_of_le_length hr).symm
  · refine h.ring.append (hw.take hbuf') ?_
    rw [List.length_take_of_le hbuf', h.length, h.sized.length, ← Nat.add_mul, ← Nat.add_mul]
    exact Nat.mul_le_mul_right _ (by omega)

/-- `dl_fifo_out_peek` reads the first elements that are stored. -/
theorem Holds.fifoOutPeek (h : Holds k f A R a r)
    (hdst : min len.toNat (a - r) * f.esize.toNat ≤ dst.length) :
    ∃ out n, Fifo.fifoOutPeek f dst len = .ok (out, n) ∧ n.toNat = min len.toNat (a - r) ∧
      out.take (n.toNat * f.esize.toNat) =
        (A.drop (r * f.esize.toNat)).take (n.toNat * f.esize.toNat) := by
  have hn := toNat_clamp len (f.in - f.out)
  rw [h.toNat_stored] at hn
  simp only [Fifo.fifoOutPeek]
  generalize (if len > f.in - f.out then f.in - f.out else len) = n at hn
  have hle := h.le
  have hroom := h.room
  obtain ⟨out, hrun, hu⟩ := copyOut_spec f.out n h.sized (by omega) (hn ▸ hdst)
  rw [h.sized.slot h.out_eq] at hu
  refine ⟨out, n, by simp only [hrun, Exec.ok_bind, Exec.pure_eq_ok], hn, h.ring.read hu ?_⟩
  rw [h.length, ← Nat.add_mul]
  exact Nat.mul_le_mul_right _ (by omega)

/-- `dl_fifo_out` returns the same elements and releases them. -/
theorem Holds.fifoOut (h : Holds k f A R a r)
    (hdst : min len.toNat (a - r) * f.esize.toNat ≤ dst.length) :
    ∃ f' out n, Fifo.fifoOutPeek f dst len = .ok (out, n) ∧
      Fifo.fifoOut f dst len = .ok (f', out, n) ∧ n.toNat = min len.toNat (a - r) ∧
      f'.esize = f.esize ∧ f'.mask = f.mask ∧
      Holds k f' A (R ++ out.take (n.toNat * f.esize.toNat)) a (r + n.toNat) := by
  obtain ⟨out, n, hrun, hn, htake⟩ := h.fifoOutPeek hdst
  have hle := h.le
  have hroom := h.room
  refine ⟨{ f with out := f.out + n }, out, n, hrun,
    by simp only [Fifo.fifoOut, hrun, Exec.ok_bind, Exec.pure_eq_ok], hn, rfl, rfl,
    { sized := { h.sized with }
      in_eq := h.in_eq, out_eq := ?_, le := by omega, room := by omega
      length := h.length, returned := ?_, ring := ?_ }⟩
  · change (f.out + n).toNat = _
    rw [UInt32.toNat_add, h.out_eq]
    omega
  · rw [htake, Nat.add_mul, List.take_add]
    exact congrArg (· ++ _) h.returned
  · rw [Nat.add_mul]
    exact h.ring.drop

/-! ## Sequences of calls -/

/-- The buffers reached from `f₀` by calls that return, with the bytes that have gone in and those
that have come out. -/
inductive Run (f₀ : DlFifo) : List UInt8 → List UInt8 → DlFifo → Prop where
  /-- No call yet. -/
  | init : Run f₀ [] [] f₀
  /-- `dl_fifo_in` has accepted `n` elements of the caller's buffer. -/
  | fifoIn {A R : List UInt8} {f f' : DlFifo} {buf : List UInt8} {len n : UInt32} :
      Run f₀ A R f → Fifo.fifoIn f buf len = .ok (f', n) →
      Run f₀ (A ++ buf.take (n.toNat * f.esize.toNat)) R f'
  /-- `dl_fifo_out` has returned `n` elements in the caller's buffer. -/
  | fifoOut {A R : List UInt8} {f f' : DlFifo} {dst out : List UInt8} {len n : UInt32} :
      Run f₀ A R f → Fifo.fifoOut f dst len = .ok (f', out, n) →
      Run f₀ A (R ++ out.take (n.toNat * f.esize.toNat)) f'
  /-- `dl_fifo_out_peek` has been called. -/
  | fifoOutPeek {A R : List UInt8} {f : DlFifo} {dst out : List UInt8} {len n : UInt32} :
      Run f₀ A R f → Fifo.fifoOutPeek f dst len = .ok (out, n) → Run f₀ A R f

theorem shiftOne_eq_ok {l : Int} {s : UInt32} (h : shiftOne l = .ok s) :
    ∃ k : Nat, l = k ∧ k ≤ 31 ∧ s.toNat = 2 ^ k := by
  unfold shiftOne at h
  split_ifs at h with hl
  · obtain rfl := Except.ok.inj h
    have hk : l.toNat ≤ 31 := by omega
    have hle := two_pow_le hk
    refine ⟨l.toNat, (Int.toNat_of_nonneg hl.1).symm, hk, ?_⟩
    exact UInt32.toNat_ofNat_of_lt (show 2 ^ l.toNat < 2 ^ 32 by omega)
  · cases h

/-- The number of slots is the size rounded up to a power of two; the memory may be less than
that. -/
theorem init_spec {alloc : Nat → Option (List UInt8)} {size esize : UInt32} {f : DlFifo}
    (halloc : ∀ n b, alloc n = some b → b.length = n) (h : init alloc size esize = .ok (some f)) :
    ∃ k, k = Nat.clog 2 size.toNat ∧ 0 < k ∧ k ≤ 31 ∧ f.mask.toNat + 1 = 2 ^ k ∧
      f.esize = esize ∧ f.in = 0 ∧ f.out = 0 ∧ f.data.length = 2 ^ k * esize.toNat % 2 ^ 32 := by
  unfold init at h
  split_ifs at h
  · cases h
  obtain ⟨s, hs, h⟩ := Exec.bind_eq_ok.mp h
  obtain ⟨k, hlog, hk, hsk⟩ := shiftOne_eq_ok hs
  have hclog : k = Nat.clog 2 size.toNat := by
    have hlt := size.toNat_lt
    rcases Nat.eq_zero_or_pos size.toNat with h0 | hpos
    · have hbig : Table.ceillog2 32 0 = 32 := by
        rw [Table.ceillog2_eq]
        decide
      rw [h0, hbig] at hlog
      omega
    · rw [Table.ceillog2_eq_clog hpos (Nat.le_of_lt hlt)] at hlog
      omega
  split_ifs at h with h2
  · cases h
  cases hdata : alloc (s * esize).toNat with
  | none =>
    rw [hdata] at h
    cases h
  | some data =>
    rw [hdata] at h
    obtain rfl := Option.some.inj (Except.ok.inj h)
    rw [UInt32.lt_iff_toNat_lt, hsk] at h2
    have hpos : 0 < 2 ^ k := Nat.two_pow_pos k
    have hmask : (s - 1).toNat + 1 = 2 ^ k := by
      rw [UInt32.toNat_sub_of_le, hsk, UInt32.toNat_one]
      · omega
      · rw [UInt32.le_iff_toNat_le, hsk]
        exact hpos
    have hk0 : k ≠ 0 := by
      rintro rfl
      exact h2 (by decide)
    refine ⟨k, hclog, by omega, hk, hmask, rfl, rfl, rfl, ?_⟩
    rw [halloc _ _ hdata, UInt32.toNat_mul, hsk]

/-- `dl_fifo_init` makes an empty buffer. -/
theorem holds_init {alloc : Nat → Option (List UInt8)} {size esize : UInt32} {f : DlFifo}
    (halloc : ∀ n b, alloc n = some b → b.length = n) (h : init alloc size esize = .ok (some f))
    (hsize : (f.mask.toNat + 1) * esize.toNat < 2 ^ 31) :
    ∃ k, Holds k f [] [] 0 0 ∧ f.esize = esize := by
  obtain ⟨k, -, hpos, hk, hmask, rfl, hin, hout, hdata⟩ := init_spec halloc h
  rw [hmask] at hsize
  refine ⟨k, ⟨⟨hmask, hpos, hk, ?_, hsize⟩, ?_, ?_, Nat.le_refl 0, by omega, by simp, by simp,
    fun q _ hq ↦ absurd hq (by simp)⟩, rfl⟩
  · rw [hdata, Nat.mod_eq_of_lt (by omega)]
  · rw [hin]
    rfl
  · rw [hout]
    rfl

theorem Run.holds {f₀ : DlFifo} (hf₀ : Holds k f₀ [] [] 0 0) (h : Run f₀ A R f) :
    ∃ a r, Holds k f A R a r ∧ f.esize = f₀.esize ∧ f.mask = f₀.mask := by
  induction h with
  | init => exact ⟨0, 0, hf₀, rfl, rfl⟩
  | @fifoIn A R f f' buf len n _ hrun ih =>
    obtain ⟨a, r, h, he, hm⟩ := ih
    have hn := toNat_clamp len (unused f).toUInt32
    rw [h.toNat_unused] at hn
    have hbuf : min len.toNat (2 ^ k - (a - r)) * f.esize.toNat ≤ buf.length := by
      simp only [Fifo.fifoIn] at hrun
      obtain ⟨g, hg, -⟩ := Exec.bind_eq_ok.mp hrun
      have hpos := Nat.two_pow_pos k
      rw [← hn]
      exact length_le_of_copyIn h.sized (by omega) hg
    obtain ⟨g, n', hrun', -, he', hm', h'⟩ := h.fifoIn hbuf
    obtain ⟨rfl, rfl⟩ := Prod.mk.inj (Except.ok.inj (hrun.symm.trans hrun'))
    exact ⟨_, r, h', he'.trans he, hm'.trans hm⟩
  | @fifoOut A R f f' dst out len n _ hrun ih =>
    obtain ⟨a, r, h, he, hm⟩ := ih
    have hroom := h.room
    have hle := h.le
    have hn := toNat_clamp len (f.in - f.out)
    rw [h.toNat_stored] at hn
    have hdst : min len.toNat (a - r) * f.esize.toNat ≤ dst.length := by
      simp only [Fifo.fifoOut, Fifo.fifoOutPeek] at hrun
      obtain ⟨p, hp, -⟩ := Exec.bind_eq_ok.mp hrun
      obtain ⟨q, hq, -⟩ := Exec.bind_eq_ok.mp hp
      rw [← hn]
      exact length_le_of_copyOut h.sized (by omega) hq
    obtain ⟨g, out', n', -, hrun', -, he', hm', h'⟩ := h.fifoOut hdst
    obtain ⟨rfl, hout⟩ := Prod.mk.inj (Except.ok.inj (hrun.symm.trans hrun'))
    obtain ⟨rfl, rfl⟩ := Prod.mk.inj hout
    exact ⟨a, _, h', he'.trans he, hm'.trans hm⟩
  | fifoOutPeek _ _ ih => exact ih

/-- The buffer is a first-in-first-out queue: what has come out is a prefix of what has gone in, and
the rest is stored; every call moves as many elements as it can. -/
theorem fifo_queue {alloc : Nat → Option (List UInt8)} {size esize : UInt32} {f₀ : DlFifo}
    (halloc : ∀ n b, alloc n = some b → b.length = n) (hinit : init alloc size esize = .ok (some f₀))
    (hsize : (f₀.mask.toNat + 1) * esize.toNat < 2 ^ 31) (h : Run f₀ A R f) :
    R <+: A ∧ A.length = R.length + (f.in - f.out).toNat * esize.toNat ∧
      (f.in - f.out).toNat ≤ f₀.mask.toNat + 1 ∧
      (∀ (buf : List UInt8) (len : UInt32),
        min len.toNat (f₀.mask.toNat + 1 - (f.in - f.out).toNat) * esize.toNat ≤ buf.length →
        ∃ f' n, fifoIn f buf len = .ok (f', n) ∧
          n.toNat = min len.toNat (f₀.mask.toNat + 1 - (f.in - f.out).toNat)) ∧
      ∀ (dst : List UInt8) (len : UInt32),
        min len.toNat (f.in - f.out).toNat * esize.toNat ≤ dst.length →
        ∃ f' out n, fifoOutPeek f dst len = .ok (out, n) ∧ fifoOut f dst len = .ok (f', out, n) ∧
          n.toNat = min len.toNat (f.in - f.out).toNat := by
  obtain ⟨k, hf₀, he₀⟩ := holds_init halloc hinit hsize
  obtain ⟨a, r, h, he, hm⟩ := h.holds hf₀
  rw [h.toNat_stored, ← hm, h.sized.mask, ← he₀, ← he]
  have hroom := h.room
  have hle := h.le
  have hr : r * f.esize.toNat ≤ a * f.esize.toNat := Nat.mul_le_mul_right _ hle
  refine ⟨?_, ?_, by omega, fun buf len hbuf ↦ ?_, fun dst len hdst ↦ ?_⟩
  · rw [h.returned]
    exact List.take_prefix _ _
  · rw [h.returned, List.length_take_of_le (h.length ▸ hr), h.length, Nat.sub_mul]
    omega
  · obtain ⟨f', n, hrun, hn, -⟩ := h.fifoIn hbuf
    exact ⟨f', n, hrun, hn⟩
  · obtain ⟨f', out, n, hpeek, hrun, hn, -⟩ := h.fifoOut hdst
    exact ⟨f', out, n, hpeek, hrun, hn⟩

/-! ## A buffer of four slots of two bytes -/

/-- Memory filled with zeros. -/
def zeros (n : Nat) : Option (List UInt8) := some (List.replicate n 0)

theorem length_zeros (n : Nat) (b : List UInt8) (h : zeros n = some b) : b.length = n := by
  obtain rfl := Option.some.inj h
  exact List.length_replicate

/-- The buffer `dl_fifo_init` makes for three elements of two bytes. -/
def empty : DlFifo := { «in» := 0, out := 0, esize := 2, mask := 3, data := List.replicate 8 0 }

theorem init_three : init zeros 3 2 = .ok (some empty) := by
  have hlog : Table.ceillog2 32 3 = 2 := by
    rw [Table.ceillog2_eq]
    decide
  simp only [init, zeros, UInt32.reduceToNat, hlog, shiftOne]
  rfl

/-- Three elements go in, two come out, and three go in again, around the end of the memory. -/
theorem fifo_queue_three : ([1, 1, 2, 2] : List UInt8) <+: [1, 1, 2, 2, 3, 3, 4, 4, 5, 5, 6, 6] ∧
    Run empty [1, 1, 2, 2, 3, 3, 4, 4, 5, 5, 6, 6] [1, 1, 2, 2]
      ⟨6, 2, 2, 3, [5, 5, 6, 6, 3, 3, 4, 4]⟩ := by
  have hin : fifoIn empty [1, 1, 2, 2, 3, 3] 3 =
      .ok (⟨3, 0, 2, 3, [1, 1, 2, 2, 3, 3, 0, 0]⟩, 3) := rfl
  have hout : fifoOut ⟨3, 0, 2, 3, [1, 1, 2, 2, 3, 3, 0, 0]⟩ [0, 0, 0, 0] 2 =
      .ok (⟨3, 2, 2, 3, [1, 1, 2, 2, 3, 3, 0, 0]⟩, [1, 1, 2, 2], 2) := rfl
  have hwrap : fifoIn ⟨3, 2, 2, 3, [1, 1, 2, 2, 3, 3, 0, 0]⟩ [4, 4, 5, 5, 6, 6] 3 =
      .ok (⟨6, 2, 2, 3, [5, 5, 6, 6, 3, 3, 4, 4]⟩, 3) := rfl
  have hrun : Run empty [1, 1, 2, 2, 3, 3, 4, 4, 5, 5, 6, 6] [1, 1, 2, 2]
      ⟨6, 2, 2, 3, [5, 5, 6, 6, 3, 3, 4, 4]⟩ := ((Run.init.fifoIn hin).fifoOut hout).fifoIn hwrap
  exact ⟨(fifo_queue length_zeros init_three (by decide) hrun).1, hrun⟩

end Dlbase.Fifo
