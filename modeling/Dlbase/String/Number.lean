import Dlbase.Lib.Numeral
import Dlbase.String.Bounded

/-!
# Numbers in full

`dl_sprintf_num` with its loops as they are in the source: one for decimal numbers in 32 bits, one
for decimal numbers in 64 bits, and one for each of the two tables of hexadecimal digits.  All of
them write the numeral of the number.
-/

namespace Dlbase.DlString

open Cmem

/-! ## The loops -/

/-- `do *--p = ui32 % 10 + '0'; while (ui32 /= 10)`, on a `uint32_t`, with room for `room` digits
more in front of `p`. -/
def decimal32 : Nat → UInt32 → List UInt8 → Exec (List UInt8)
  | 0, _, _ => Exec.undef
  | room + 1, ui32, p =>
    let p := (ui32 % 10 + 48).toUInt8 :: p
    if ui32 / 10 = 0 then .ok p else decimal32 room (ui32 / 10) p

/-- The same loop on a `uint64_t`. -/
def decimal64 : Nat → UInt64 → List UInt8 → Exec (List UInt8)
  | 0, _, _ => Exec.undef
  | room + 1, ui64, p =>
    let p := (ui64 % 10 + 48).toUInt8 :: p
    if ui64 / 10 = 0 then .ok p else decimal64 room (ui64 / 10) p

/-- `do *--p = hex[ui64 & 0xf]; while (ui64 >>= 4)`. -/
def hexadecimal64 (hex : List UInt8) : Nat → UInt64 → List UInt8 → Exec (List UInt8)
  | 0, _, _ => Exec.undef
  | room + 1, ui64, p =>
    match hex[(ui64 &&& 0xf).toNat]? with
    | none => Exec.undef
    | some c => if ui64 >>> 4 = 0 then .ok (c :: p) else hexadecimal64 hex room (ui64 >>> 4) (c :: p)

/-- `hex`. -/
def hexLower : List UInt8 := "0123456789abcdef".toList.map ch

/-- `HEX`. -/
def hexUpper : List UInt8 := "0123456789ABCDEF".toList.map ch

/-- The first part of `dl_sprintf_num`: the digits in `temp`. -/
def temp (ui64 : UInt64) (hexadecimal : UInt32) : Exec (List UInt8) :=
  if hexadecimal = 0 then
    if ui64 ≤ 0xffffffff then decimal32 int64Len ui64.toUInt32 []
    else decimal64 int64Len ui64 []
  else if hexadecimal = 1 then hexadecimal64 hexLower int64Len ui64 []
  else hexadecimal64 hexUpper int64Len ui64 []

/-- `dl_sprintf_num` on the types of the source. -/
def sprintfNum64 (o : Output UInt8) (last : Nat) (ui64 : UInt64) (zero : UInt8)
    (hexadecimal width : UInt32) : Exec (Output UInt8) := do
  let p ← temp ui64 hexadecimal
  let o := pad last zero (width.toNat - p.length) o
  let len := if (o.pos + p.length) % 2 ^ 64 > last then Pool.subSize last o.pos else p.length
  cpymem o p len

/-! ## The digits -/

/-- The base of the digits. -/
def base (hexadecimal : UInt32) : Nat := if hexadecimal = 0 then 10 else 16

/-- The digits in the order of their values. -/
def digitsOf (hexadecimal : UInt32) : List UInt8 :=
  if hexadecimal = 0 then "0123456789".toList.map ch
  else if hexadecimal = 1 then hexLower
  else hexUpper

/-- The number that a text of digits stands for. -/
def readBack (hexadecimal : UInt32) (ds : List UInt8) : Nat :=
  ds.foldl (fun v c ↦ v * base hexadecimal + (digitsOf hexadecimal).idxOf c) 0

variable {hexadecimal : UInt32}

theorem one_lt_base (hexadecimal : UInt32) : 1 < base hexadecimal := by
  unfold base
  split_ifs <;> decide

theorem length_digitsOf (hexadecimal : UInt32) :
    (digitsOf hexadecimal).length = base hexadecimal := by
  unfold digitsOf base
  split_ifs <;> rfl

theorem nodup_digitsOf (hexadecimal : UInt32) : (digitsOf hexadecimal).Nodup := by
  unfold digitsOf
  split_ifs <;> decide

/-- The digit with a value. -/
def digitOf (hexadecimal : UInt32) (d : Nat) : UInt8 := (digitsOf hexadecimal).getD d 0

theorem digitsOf_getElem? {d : Nat} (hd : d < base hexadecimal) :
    (digitsOf hexadecimal)[d]? = some (digitOf hexadecimal d) := by
  rw [← length_digitsOf] at hd
  rw [digitOf, List.getD_eq_getElem?_getD, List.getElem?_eq_getElem hd]
  rfl

theorem digitOf_mem {d : Nat} (hd : d < base hexadecimal) :
    digitOf hexadecimal d ∈ digitsOf hexadecimal :=
  List.mem_of_getElem? (digitsOf_getElem? hd)

theorem idxOf_digitOf {d : Nat} (hd : d < base hexadecimal) :
    (digitsOf hexadecimal).idxOf (digitOf hexadecimal d) = d := by
  have hget := digitsOf_getElem? hd
  rw [← length_digitsOf] at hd
  rw [List.getElem?_eq_getElem hd] at hget
  rw [← Option.some.inj hget]
  exact (nodup_digitsOf hexadecimal).idxOf_getElem d hd

/-! ## The loops write numerals -/

theorem digitsLoop_eq {digit : Nat → UInt8} {base room n : Nat} {p : List UInt8}
    (hbase : 1 < base) (hroom : 0 < room) (hn : n < base ^ room) :
    digitsLoop digit base room n p = .ok ((numeral base n).map digit ++ p) := by
  induction room generalizing n p with
  | zero => cases hroom
  | succ room ih =>
    rw [digitsLoop]
    rcases Nat.lt_or_ge n base with hlt | hle
    · rw [if_pos (Nat.div_eq_of_lt hlt), numeral_of_lt hlt, Nat.mod_eq_of_lt hlt]
      rfl
    · have hdiv : 0 < n / base := Nat.div_pos hle (by omega)
      have hlt : n / base < base ^ room := by
        rw [Nat.div_lt_iff_lt_mul (by omega), ← Nat.pow_succ]
        exact hn
      have hroom : 0 < room := Nat.pos_of_ne_zero fun hz ↦ by
        rw [hz, Nat.pow_zero] at hlt
        omega
      rw [if_neg (Nat.ne_of_gt hdiv), ih hroom hlt, numeral_of_le hbase hle, List.map_append,
        List.append_assoc]
      rfl

/-- Only digits below the base matter. -/
theorem digitsLoop_congr {digit digit' : Nat → UInt8} {base : Nat} (hbase : 0 < base)
    (h : ∀ d < base, digit d = digit' d) (room n : Nat) (p : List UInt8) :
    digitsLoop digit base room n p = digitsLoop digit' base room n p := by
  induction room generalizing n p with
  | zero => rfl
  | succ room ih => rw [digitsLoop, digitsLoop, h _ (Nat.mod_lt _ hbase), ih]

theorem digitOf_decimal {d : Nat} (hd : d < 10) : digitOf 0 d = UInt8.ofNat (d + 48) := by
  decide +revert

theorem decimal32_eq (room : Nat) (ui32 : UInt32) (p : List UInt8) :
    decimal32 room ui32 p = digitsLoop (digitOf 0) 10 room ui32.toNat p := by
  induction room generalizing ui32 p with
  | zero => rfl
  | succ room ih =>
    have hlt : ui32.toNat % 10 < 10 := Nat.mod_lt _ (by decide)
    have hdigit : (ui32 % 10 + 48).toUInt8 = digitOf 0 (ui32.toNat % 10) := by
      rw [digitOf_decimal hlt]
      apply UInt8.toNat_inj.mp
      simp only [UInt32.toNat_toUInt8, UInt32.toNat_add, UInt32.toNat_mod, UInt32.reduceToNat,
        UInt8.toNat_ofNat']
      omega
    have hdiv : (ui32 / 10).toNat = ui32.toNat / 10 := UInt32.toNat_div _ _
    rw [decimal32, digitsLoop, hdigit, ih, hdiv]
    simp only [← UInt32.toNat_inj, hdiv, UInt32.reduceToNat]

theorem decimal64_eq (room : Nat) (ui64 : UInt64) (p : List UInt8) :
    decimal64 room ui64 p = digitsLoop (digitOf 0) 10 room ui64.toNat p := by
  induction room generalizing ui64 p with
  | zero => rfl
  | succ room ih =>
    have hlt : ui64.toNat % 10 < 10 := Nat.mod_lt _ (by decide)
    have hdigit : (ui64 % 10 + 48).toUInt8 = digitOf 0 (ui64.toNat % 10) := by
      rw [digitOf_decimal hlt]
      apply UInt8.toNat_inj.mp
      simp only [UInt64.toNat_toUInt8, UInt64.toNat_add, UInt64.toNat_mod, UInt64.reduceToNat,
        UInt8.toNat_ofNat']
      omega
    have hdiv : (ui64 / 10).toNat = ui64.toNat / 10 := UInt64.toNat_div _ _
    rw [decimal64, digitsLoop, hdigit, ih, hdiv]
    simp only [← UInt64.toNat_inj, hdiv, UInt64.reduceToNat]

theorem hexadecimal64_eq (h : hexadecimal ≠ 0) (room : Nat) (ui64 : UInt64) (p : List UInt8) :
    hexadecimal64 (digitsOf hexadecimal) room ui64 p =
      digitsLoop (digitOf hexadecimal) 16 room ui64.toNat p := by
  induction room generalizing ui64 p with
  | zero => rfl
  | succ room ih =>
    have hbase : base hexadecimal = 16 := if_neg h
    have hand : (ui64 &&& 0xf).toNat = ui64.toNat % 16 := by
      rw [UInt64.toNat_and]
      exact Nat.and_two_pow_sub_one_eq_mod _ 4
    have hlt : ui64.toNat % 16 < base hexadecimal := by
      rw [hbase]
      exact Nat.mod_lt _ (by decide)
    have hshift : (ui64 >>> 4).toNat = ui64.toNat / 16 := by
      rw [UInt64.toNat_shiftRight]
      exact Nat.shiftRight_eq_div_pow _ 4
    rw [hexadecimal64, hand, digitsOf_getElem? hlt, digitsLoop]
    simp only [← UInt64.toNat_inj, hshift, ih]
    rfl

/-- The digits of a number are its numeral. -/
theorem temp_eq (ui64 : UInt64) (hexadecimal : UInt32) : temp ui64 hexadecimal =
    .ok ((numeral (base hexadecimal) ui64.toNat).map (digitOf hexadecimal)) := by
  have hdec : ui64.toNat < 10 ^ int64Len := Nat.lt_trans ui64.toNat_lt (by decide)
  have hhex : ui64.toNat < 16 ^ int64Len := Nat.lt_trans ui64.toNat_lt (by decide)
  unfold temp
  split_ifs with h0 hsmall h1
  · subst h0
    have hcast : ui64.toUInt32.toNat = ui64.toNat := by
      rw [UInt64.toNat_toUInt32]
      exact Nat.mod_eq_of_lt (Nat.lt_succ_of_le (UInt64.le_iff_toNat_le.mp hsmall))
    rw [decimal32_eq, hcast, digitsLoop_eq (by decide) (by decide) hdec, List.append_nil]
    rfl
  · subst h0
    rw [decimal64_eq, digitsLoop_eq (by decide) (by decide) hdec, List.append_nil]
    rfl
  · have htable : hexLower = digitsOf hexadecimal := by rw [digitsOf, if_neg h0, if_pos h1]
    rw [htable, hexadecimal64_eq h0, digitsLoop_eq (by decide) (by decide) hhex, List.append_nil,
      base, if_neg h0]
  · have htable : hexUpper = digitsOf hexadecimal := by rw [digitsOf, if_neg h0, if_neg h1]
    rw [htable, hexadecimal64_eq h0, digitsLoop_eq (by decide) (by decide) hhex, List.append_nil,
      base, if_neg h0]

/-- The words of the source make no difference to the digits. -/
theorem temp_eq_digits (ui64 : UInt64) (hexadecimal : UInt32) :
    temp ui64 hexadecimal = digits ui64.toNat hexadecimal.toNat := by
  have hdec : ui64.toNat < 10 ^ int64Len := Nat.lt_trans ui64.toNat_lt (by decide)
  have hhex : ui64.toNat < 16 ^ int64Len := Nat.lt_trans ui64.toNat_lt (by decide)
  have hlower : ∀ d < 16, hexDigit false d = digitOf 1 d := by decide
  have hupper : ∀ d < 16, hexDigit true d = digitOf 2 d := by decide
  have hiff : ∀ v : UInt32, hexadecimal.toNat = v.toNat ↔ hexadecimal = v := fun _ ↦
    UInt32.toNat_inj
  rw [temp_eq, digits]
  split_ifs with h0 h1
  · obtain rfl := (hiff 0).mp h0
    rw [digitsLoop_congr (by decide) fun d hd ↦ (digitOf_decimal hd).symm,
      digitsLoop_eq (by decide) (by decide) hdec, List.append_nil]
    rfl
  · obtain rfl := (hiff 1).mp h1
    rw [digitsLoop_congr (by decide) hlower, digitsLoop_eq (by decide) (by decide) hhex,
      List.append_nil]
    rfl
  · have hne : hexadecimal ≠ 0 := fun h ↦ h0 (congrArg UInt32.toNat h)
    have hne' : hexadecimal ≠ 1 := fun h ↦ h1 (congrArg UInt32.toNat h)
    have hdigit : digitOf hexadecimal = digitOf 2 := by
      funext d
      rw [digitOf, digitsOf, if_neg hne, if_neg hne']
      rfl
    rw [digitsLoop_congr (by decide) hupper, digitsLoop_eq (by decide) (by decide) hhex,
      List.append_nil, base, if_neg hne, hdigit]

/-- Numbers are printed as in the formats. -/
theorem sprintfNum64_eq (o : Output UInt8) (last : Nat) (ui64 : UInt64) (zero : UInt8)
    (hexadecimal width : UInt32) : sprintfNum64 o last ui64 zero hexadecimal width =
      sprintfNum o last ui64.toNat zero hexadecimal.toNat width.toNat := by
  rw [sprintfNum64, temp_eq_digits]
  rfl

/-! ## Padding and truncation -/

/-- The text of a number: padding up to the width and the digits. -/
def numberText (ui64 : UInt64) (zero : UInt8) (hexadecimal width : UInt32) : List UInt8 :=
  let ds := (numeral (base hexadecimal) ui64.toNat).map (digitOf hexadecimal)
  List.replicate (width.toNat - ds.length) zero ++ ds

/-- The number is written as far as it fits.  The digits must not reach beyond the last address,
of which there is no danger if the limit leaves room for them. -/
theorem sprintfNum64_emit {o : Output UInt8} {last : Nat} (ui64 : UInt64) (zero : UInt8)
    (hexadecimal width : UInt32) (hpos : o.pos ≤ last) (hlast : last < 2 ^ 64)
    (hroom : o.pos + (numberText ui64 zero hexadecimal width).length ≤ last ∨
      last + int64Len < 2 ^ 64) :
    sprintfNum64 o last ui64 zero hexadecimal width =
      .ok (o.emit last (numberText ui64 zero hexadecimal width)) := by
  have hlen : ((numeral (base hexadecimal) ui64.toNat).map (digitOf hexadecimal)).length ≤
      int64Len := length_digits ((temp_eq_digits _ _).symm.trans (temp_eq ui64 hexadecimal))
  rw [sprintfNum64, temp_eq, Exec.ok_bind, pad_eq]
  unfold numberText at hroom ⊢
  generalize (numeral (base hexadecimal) ui64.toNat).map (digitOf hexadecimal) = ds at *
  rw [List.length_append, List.length_replicate] at hroom
  rw [Output.emit_append]
  have hpos' := Output.pos_emit o last (List.replicate (width.toNat - ds.length) zero)
  rw [List.length_replicate] at hpos'
  generalize o.emit last (List.replicate (width.toNat - ds.length) zero) = o' at hpos' ⊢
  unfold int64Len at hlen hroom
  have hle : o'.pos ≤ last := by omega
  have hend : o'.pos + ds.length < 2 ^ 64 := by omega
  dsimp only
  rw [Nat.mod_eq_of_lt hend]
  split_ifs with hgt
  · rw [Pool.subSize_eq hle hlast, cpymem_eq (by omega), Output.emit]
  · have hfit : o'.pos + ds.length ≤ last := by omega
    rw [cpymem_eq (Nat.le_refl _), List.take_of_length_le (Nat.le_refl _), Output.emit_of_le hfit]

/-- `dl_sprintf_num` writes the digits of the number, without leading zeros, behind as many pad
characters as the width asks for; the digits read back are the number.  The fast path gives the
same digits as the loop in 64 bits.  If there is too little room, just the bytes that fit are
written. -/
theorem sprintfNum_renders (ui64 : UInt64) (zero : UInt8) (hexadecimal width : UInt32) :
    ∃ ds : List UInt8, ds.length = max 1 ((base hexadecimal).digits ui64.toNat).length ∧
      (∀ c ∈ ds, c ∈ digitsOf hexadecimal) ∧ readBack hexadecimal ds = ui64.toNat ∧
      (ui64 ≤ 0xffffffff → decimal32 int64Len ui64.toUInt32 [] = decimal64 int64Len ui64 []) ∧
      ∀ o last, o.pos ≤ last →
        (o.pos + max width.toNat ds.length ≤ last → last < 2 ^ 64 →
          sprintfNum64 o last ui64 zero hexadecimal width =
            .ok (o.write (List.replicate (width.toNat - ds.length) zero ++ ds))) ∧
        (last < o.pos + max width.toNat ds.length → last + int64Len < 2 ^ 64 →
          sprintfNum64 o last ui64 zero hexadecimal width = .ok (o.write
            ((List.replicate (width.toNat - ds.length) zero ++ ds).take (last - o.pos)))) := by
  have hbase := one_lt_base hexadecimal
  refine ⟨(numeral (base hexadecimal) ui64.toNat).map (digitOf hexadecimal), ?_, ?_, ?_, ?_, ?_⟩
  · rw [List.length_map, length_numeral]
  · intro c hc
    obtain ⟨d, hd, rfl⟩ := List.mem_map.mp hc
    exact digitOf_mem (numeral_lt hbase d hd)
  · rw [readBack, List.foldl_map]
    calc _ = (numeral (base hexadecimal) ui64.toNat).foldl
          (fun v d ↦ v * base hexadecimal + d) 0 :=
        List.foldl_ext _ _ _ fun v d hd ↦ by rw [idxOf_digitOf (numeral_lt hbase d hd)]
      _ = ui64.toNat := foldl_numeral hbase _
  · intro hsmall
    have hcast : ui64.toUInt32.toNat = ui64.toNat := by
      rw [UInt64.toNat_toUInt32]
      exact Nat.mod_eq_of_lt (Nat.lt_succ_of_le (UInt64.le_iff_toNat_le.mp hsmall))
    rw [decimal32_eq, decimal64_eq, hcast]
  · intro o last hpos
    have hlen : (numberText ui64 zero hexadecimal width).length = max width.toNat
        ((numeral (base hexadecimal) ui64.toNat).map (digitOf hexadecimal)).length := by
      rw [numberText, List.length_append, List.length_replicate]
      omega
    refine ⟨fun hroom hlast ↦ ?_, fun _ hlast ↦ ?_⟩
    · rw [← hlen] at hroom
      rw [sprintfNum64_emit _ _ _ _ hpos hlast (.inl hroom), Output.emit_of_le hroom]
      rfl
    · exact sprintfNum64_emit _ _ _ _ hpos (by omega) (.inr hlast)

end Dlbase.DlString
