import Dlbase.Lib.Exec

/-!
# Blocks of memory and rings

A block of memory is a list of its contents.  `memcpy` copies between two blocks and is
undefined where it would leave either of them.

A ring keeps a window of a sequence: the item at position `q` of the sequence lies at `q` modulo
the size of the block.  A run of consecutive items is copied into or out of the block in two
parts, the second of which starts at the beginning of the block.
-/

namespace Cmem

variable {β : Type _}

/-- `memcpy(dst + i, src + j, n)`: the new contents of `dst`. -/
def memcpy (dst : List β) (i : Nat) (src : List β) (j n : Nat) : Exec (List β) :=
  if i + n ≤ dst.length ∧ j + n ≤ src.length then
    .ok (dst.take i ++ (src.drop j).take n ++ dst.drop (i + n))
  else Exec.undef

variable {dst src out data A : List β} {i j n m o lo q p : Nat}

theorem memcpy_eq (hi : i + n ≤ dst.length) (hj : j + n ≤ src.length) :
    memcpy dst i src j n = .ok (dst.take i ++ (src.drop j).take n ++ dst.drop (i + n)) :=
  if_pos ⟨hi, hj⟩

/-- A copy inside both blocks writes the copied items and leaves the others. -/
theorem memcpy_spec (hi : i + n ≤ dst.length) (hj : j + n ≤ src.length) :
    ∃ out, memcpy dst i src j n = .ok out ∧ out.length = dst.length ∧
      ∀ p, out[p]? = if i ≤ p ∧ p < i + n then src[j + (p - i)]? else dst[p]? := by
  refine ⟨_, memcpy_eq hi hj, by simp; omega, fun p ↦ ?_⟩
  have hti : min i dst.length = i := by omega
  have htn : min n (src.length - j) = n := by omega
  simp only [List.getElem?_append, List.length_append, List.length_take, List.length_drop,
    List.getElem?_take, List.getElem?_drop, hti, htn]
  rcases Nat.lt_or_ge p i with hp | hp
  · rw [if_pos (by omega), if_pos hp, if_pos hp, if_neg (by omega)]
  · rcases Nat.lt_or_ge p (i + n) with hp' | hp'
    · rw [if_pos hp', if_neg (by omega), if_pos (by omega), if_pos ⟨hp, hp'⟩]
    · rw [if_neg (by omega), if_neg (by omega), Nat.add_sub_cancel' hp']

/-- A copy that is defined stays inside both blocks. -/
theorem memcpy_ok (h : memcpy dst i src j n = .ok out) :
    i + n ≤ dst.length ∧ j + n ≤ src.length ∧ out.length = dst.length := by
  have hle : i + n ≤ dst.length ∧ j + n ≤ src.length := by
    by_contra hle
    rw [memcpy, if_neg hle] at h
    cases h
  obtain ⟨out', hout', hlen, -⟩ := memcpy_spec hle.1 hle.2
  obtain rfl := Except.ok.inj (h.symm.trans hout')
  exact ⟨hle.1, hle.2, hlen⟩

/-! ## Rings -/

/-- `data` keeps the items of `A` from `lo` on. -/
def Ring (data A : List β) (lo : Nat) : Prop :=
  ∀ q, lo ≤ q → q < A.length → data[q % data.length]? = A[q]?

/-- `out` has got the items of `src` from position `o` on, around the end of the block. -/
structure Wrapped (data : List β) (o m : Nat) (src out : List β) : Prop where
  /-- The block has kept its size. -/
  length : out.length = data.length
  /-- The items are in place. -/
  stored : ∀ j < m, out[(o + j) % data.length]? = src[j]?
  /-- All other positions are as they were. -/
  frame : ∀ p < data.length, (∀ j < m, p ≠ (o + j) % data.length) → out[p]? = data[p]?

/-- Writing a run of items in two parts. -/
theorem wrap_write {l : Nat} (hm : m ≤ data.length)
    (hl : l = min m (data.length - o)) (hsrc : m ≤ src.length) (hole : o ≤ data.length) :
    ∃ mid out, memcpy data o src 0 l = .ok mid ∧ memcpy mid 0 src l (m - l) = .ok out ∧
      Wrapped data o m src out := by
  obtain ⟨mid, hmid, hlen, hget⟩ := memcpy_spec (i := o) (j := 0) (n := l)
    (show _ ≤ data.length by omega) (show _ ≤ src.length by omega)
  obtain ⟨out, hout, hlen', hget'⟩ := memcpy_spec (i := 0) (j := l) (n := m - l)
    (show _ ≤ mid.length by omega) (show _ ≤ src.length by omega)
  refine ⟨mid, out, hmid, hout, hlen'.trans hlen, fun j hj ↦ ?_, fun p hp hpj ↦ ?_⟩
  · rw [hget', hget]
    rcases Nat.lt_or_ge (o + j) data.length with hlt | hge
    · rw [Nat.mod_eq_of_lt hlt, if_neg (by omega), if_pos (by omega)]
      congr 1
      omega
    · have hmod : (o + j) % data.length = o + j - data.length := by
        rw [Nat.mod_eq_sub_mod hge, Nat.mod_eq_of_lt (by omega)]
      rw [hmod, if_pos (by omega)]
      congr 1
      omega
  · rw [hget', hget]
    rw [if_neg, if_neg]
    · rintro ⟨h₁, h₂⟩
      refine hpj (p - o) (by omega) ?_
      rw [Nat.add_sub_cancel' h₁, Nat.mod_eq_of_lt hp]
    · rintro ⟨-, h₂⟩
      refine hpj (p + data.length - o) (by omega) ?_
      rw [show o + (p + data.length - o) = p + data.length by omega, Nat.add_mod_right,
        Nat.mod_eq_of_lt hp]

/-- Only the items that are copied matter. -/
theorem Wrapped.take (hw : Wrapped data o m src out) (hm : m ≤ src.length) :
    Wrapped data o (src.take m).length (src.take m) out := by
  have hlen : (src.take m).length = m := List.length_take_of_le hm
  rw [hlen]
  exact ⟨hw.length, fun j hj ↦ by rw [hw.stored j hj, List.getElem?_take, if_pos hj], hw.frame⟩

/-- What a run of writes leaves is determined. -/
theorem Wrapped.unique {out' : List β} (hw : Wrapped data o m src out)
    (hw' : Wrapped data o m src out') : out = out' := by
  refine List.ext_getElem? fun p ↦ ?_
  rcases Nat.lt_or_ge p data.length with hp | hp
  · by_cases hj : ∃ j < m, p = (o + j) % data.length
    · obtain ⟨j, hj, rfl⟩ := hj
      rw [hw.stored j hj, hw'.stored j hj]
    · have hne : ∀ j < m, p ≠ (o + j) % data.length := fun j hj' e ↦ hj ⟨j, hj', e⟩
      rw [hw.frame p hp hne, hw'.frame p hp hne]
  · rw [List.getElem?_eq_none (hw.length ▸ hp), List.getElem?_eq_none (hw'.length ▸ hp)]

theorem wrapped_zero (data : List β) (o : Nat) (src : List β) : Wrapped data o 0 src data :=
  ⟨rfl, nofun, fun _ _ _ ↦ rfl⟩

/-- Two positions less than the size of the ring apart lie at different places. -/
theorem mod_ne {x y : Nat} (hlt : x < y) (hn : y < x + n) : x % n ≠ y % n := by
  intro he
  have hsub := Nat.sub_mod_eq_zero_of_mod_eq he.symm
  rw [Nat.mod_eq_of_lt (by omega)] at hsub
  omega

/-- One more item. -/
theorem Wrapped.succ {b : β} (hw : Wrapped data o m src out) (hm : m < data.length)
    (hb : src[m]? = some b) : Wrapped data o (m + 1) src (out.set ((o + m) % data.length) b) := by
  refine ⟨(List.length_set ..).trans hw.length, fun j hj ↦ ?_, fun p hp hpj ↦ ?_⟩
  · rcases Nat.lt_or_ge j m with hjm | hjm
    · rw [List.getElem?_set_ne (mod_ne (by omega) (by omega)).symm, hw.stored j hjm]
    · obtain rfl : j = m := by omega
      rw [List.getElem?_set_self (by rw [hw.length]; exact Nat.mod_lt _ (by omega)), hb]
  · rw [List.getElem?_set_ne (hpj m (Nat.lt_succ_self m)).symm]
    exact hw.frame p hp fun j hj ↦ hpj j (by omega)

/-- Appending a run to the sequence when there is room for it in the ring. -/
theorem Ring.append (hr : Ring data A lo) (hw : Wrapped data (A.length % data.length) src.length src out)
    (hroom : A.length + src.length ≤ lo + data.length) : Ring out (A ++ src) lo := by
  intro q hlo hq
  rw [List.length_append] at hq
  rw [hw.length]
  rcases Nat.lt_or_ge q A.length with hqA | hqA
  · rw [List.getElem?_append_left hqA, ← hr q hlo hqA]
    refine hw.frame _ (Nat.mod_lt _ (by omega)) fun j hj ↦ ?_
    rw [Nat.mod_add_mod]
    exact mod_ne (by omega) (by omega)
  · obtain ⟨j, rfl⟩ := Nat.exists_eq_add_of_le hqA
    rw [List.getElem?_append_right (by omega), Nat.add_sub_cancel_left,
      ← hw.stored j (by omega), Nat.mod_add_mod]

/-- `out` has got the run of `m` items of the ring that starts at `o`. -/
structure Unwrapped (data : List β) (o m : Nat) (dst out : List β) : Prop where
  /-- The destination has kept its size. -/
  length : out.length = dst.length
  /-- The items have been copied. -/
  stored : ∀ j < m, out[j]? = data[(o + j) % data.length]?
  /-- The rest of the destination is as it was. -/
  frame : ∀ p, m ≤ p → out[p]? = dst[p]?

/-- What a run of reads leaves is determined. -/
theorem Unwrapped.unique {out' : List β} (hu : Unwrapped data o m dst out)
    (hu' : Unwrapped data o m dst out') : out = out' := by
  refine List.ext_getElem? fun p ↦ ?_
  rcases Nat.lt_or_ge p m with hp | hp
  · rw [hu.stored p hp, hu'.stored p hp]
  · rw [hu.frame p hp, hu'.frame p hp]

theorem unwrapped_zero (data : List β) (o : Nat) (dst : List β) : Unwrapped data o 0 dst dst :=
  ⟨rfl, nofun, fun _ _ ↦ rfl⟩

/-- One more item. -/
theorem Unwrapped.succ {b : β} (hu : Unwrapped data o m dst out) (hm : m < dst.length)
    (hb : data[(o + m) % data.length]? = some b) : Unwrapped data o (m + 1) dst (out.set m b) := by
  refine ⟨(List.length_set ..).trans hu.length, fun j hj ↦ ?_, fun p hp ↦ ?_⟩
  · rcases Nat.lt_or_ge j m with hjm | hjm
    · rw [List.getElem?_set_ne (by omega), hu.stored j hjm]
    · obtain rfl : j = m := by omega
      rw [List.getElem?_set_self (by rw [hu.length]; exact hm), hb]
  · rw [List.getElem?_set_ne (by omega), hu.frame p (by omega)]

/-- Reading a run of items in two parts. -/
theorem wrap_read {l : Nat} (hm : m ≤ data.length) (hl : l = min m (data.length - o))
    (hdst : m ≤ dst.length) (hole : o ≤ data.length) :
    ∃ mid out, memcpy dst 0 data o l = .ok mid ∧ memcpy mid l data 0 (m - l) = .ok out ∧
      Unwrapped data o m dst out := by
  obtain ⟨mid, hmid, hlen, hget⟩ := memcpy_spec (i := 0) (j := o) (n := l)
    (show _ ≤ dst.length by omega) (show _ ≤ data.length by omega)
  obtain ⟨out, hout, hlen', hget'⟩ := memcpy_spec (i := l) (j := 0) (n := m - l)
    (show _ ≤ mid.length by omega) (show _ ≤ data.length by omega)
  refine ⟨mid, out, hmid, hout, hlen'.trans hlen, fun j hj ↦ ?_, fun p hp ↦ ?_⟩
  · rw [hget', hget]
    rcases Nat.lt_or_ge (o + j) data.length with hlt | hge
    · rw [Nat.mod_eq_of_lt hlt, if_neg (by omega), if_pos (by omega), Nat.sub_zero]
    · have hmod : (o + j) % data.length = o + j - data.length := by
        rw [Nat.mod_eq_sub_mod hge, Nat.mod_eq_of_lt (by omega)]
      rw [hmod, if_pos (by omega)]
      congr 1
      omega
  · rw [hget', hget, if_neg (by omega), if_neg (by omega)]

/-- What is read from a ring is the run of the sequence. -/
theorem Ring.read (hr : Ring data A lo) (hu : Unwrapped data (lo % data.length) m dst out)
    (hm : lo + m ≤ A.length) : out.take m = (A.drop lo).take m := by
  refine List.ext_getElem? fun j ↦ ?_
  rw [List.getElem?_take, List.getElem?_take, List.getElem?_drop]
  split_ifs with hj
  · rw [hu.stored j hj, Nat.mod_add_mod, hr (lo + j) (by omega) (by omega)]
  · rfl

/-- Releasing items. -/
theorem Ring.drop (hr : Ring data A lo) : Ring data A (lo + m) :=
  fun q hq ↦ hr q (by omega)

end Cmem
