import Dlbase.Lib.Exec
import Dlbase.Lib.Utf8

/-!
# UTF-8

`dl_utf8_decode` reads a character of more than one byte, `dl_utf8_length` counts characters.  A
pointer is the list of the bytes from there to the end of the buffer, behind which nothing may be
read.

A byte that should follow a leading one is only tested for being 128 or more, and a leading byte
for being 240 or more, so that sequences are accepted that are not well-formed.
-/

namespace Dlbase.DlString

open Cmem Cmem.Utf8

/-! ## The functions -/

/-- The result `0xfffffffe` for a sequence that is not complete. -/
def incomplete : UInt32 := 0xfffffffe

/-- The result `0xffffffff` for an error. -/
def invalid : UInt32 := 0xffffffff

/-- The loop of `dl_utf8_decode` over the `len` bytes that follow: the number, or nothing if a byte
is below 128, and the new pointer. -/
def utf8Following : Nat → UInt32 → List UInt8 → Exec (Option UInt32 × List UInt8)
  | 0, u, p => .ok (some u, p)
  | _ + 1, _, [] => Exec.undef
  | len + 1, u, i :: p =>
    if i < 0x80 then .ok (none, p)
    else utf8Following len ((u <<< 6) ||| (i.toUInt32 &&& 0x3f)) p

/-- The part of `dl_utf8_decode` behind the first byte, which has left `u`; the number must be greater
than `valid`.  `n - 1` wraps around for 0. -/
def utf8Rest (u valid : UInt32) (len : Nat) (c : UInt8) (p : List UInt8) (n : Nat) :
    Exec (UInt32 × List UInt8) :=
  if n ≠ 0 ∧ n - 1 < len then
    .ok (incomplete, c :: p)
  else do
    let (u, p) ← utf8Following len u p
    match u with
    | none => pure (invalid, p)
    | some u => pure (if valid < u then u else invalid, p)

/-- `dl_utf8_decode`: the result and the new pointer. -/
def utf8Decode (p : List UInt8) (n : Nat) : Exec (UInt32 × List UInt8) :=
  match p with
  | [] => Exec.undef
  | c :: p =>
    let u := c.toUInt32
    if 0xf0 ≤ u then utf8Rest (u &&& 0x07) 0xffff 3 c p n
    else if 0xe0 ≤ u then utf8Rest (u &&& 0x0f) 0x7ff 2 c p n
    else if 0xc2 ≤ u then utf8Rest (u &&& 0x1f) 0x7f 1 c p n
    else .ok (invalid, p)

/-- The loop of `dl_utf8_length`. -/
def utf8LengthLoop (n : Nat) : Nat → List UInt8 → Nat → Exec Nat
  | 0, _, _ => Exec.timeout
  | _ + 1, [], len => .ok len
  | fuel + 1, c :: p, len =>
    if c < 0x80 then utf8LengthLoop n fuel p (len + 1)
    else do
      let (u, p) ← utf8Decode (c :: p) n
      if 0x10ffff < u then pure n
      else utf8LengthLoop n fuel p (len + 1)

/-- `dl_utf8_length`. -/
def utf8Length (fuel : Nat) (p : List UInt8) (n : Nat) : Exec Nat := utf8LengthLoop n fuel p 0

/-! ## What is accepted -/

/-- The row of the table that a leading byte is taken for. -/
def rowOf (c : UInt8) : Option Row :=
  if 0xf0 ≤ c then some four
  else if 0xe0 ≤ c then some three
  else if 0xc2 ≤ c then some two
  else none

/-- The bits of a leading byte and of the first byte that follows say that the number belongs to the
row. -/
def InRow (c b : UInt8) : Prop :=
  if 0xf0 ≤ c then
    c.toNat % 8 = 0 ∧ 0x10 ≤ b.toNat % 64 ∨ 1 ≤ c.toNat % 8 ∧ c.toNat % 8 ≤ 3 ∨
      c.toNat % 8 = 4 ∧ b.toNat % 64 < 0x10
  else if 0xe0 ≤ c then 1 ≤ c.toNat % 16 ∨ 0x20 ≤ b.toNat % 64
  else True

/-- The bytes that the decoder takes for a character: the leading byte has as many bytes behind it
as it should have, all of them are 128 or more, and the number belongs to the row. -/
structure Taken (c : UInt8) (bytes : List UInt8) : Prop where
  /-- The leading byte and the number of bytes that follow. -/
  row : ∃ row, rowOf c = some row ∧ bytes.length = row.following
  /-- Only the highest bit is tested. -/
  high : ∀ b ∈ bytes, 0x80 ≤ b
  /-- The number. -/
  inRow : ∀ b ∈ bytes.head?, InRow c b

/-- The leading byte is not one of the table, or one of the bytes that follow is not. -/
def Stray (c : UInt8) (bytes : List UInt8) : Prop := 0xf8 ≤ c ∨ ∃ b ∈ bytes, 0xc0 ≤ b

/-- A result that is a code point comes from the bytes that have been consumed. -/
def Sound (p : List UInt8) : Prop := ∀ u p', utf8Decode p p.length = .ok (u, p') → u ≤ 0x10ffff →
  ∃ used, p = used ++ p' ∧ WellFormed used u.toNat

variable {c b : UInt8} {u valid : UInt32} {n len : Nat} {p p' bytes : List UInt8} {row : Row}

/-! ## One character -/

/-- Six bits are put behind a number. -/
theorem toNat_push (hu : u.toNat < 2 ^ 26) (i : UInt8) :
    ((u <<< 6) ||| (i.toUInt32 &&& 0x3f)).toNat = u.toNat * 64 + i.toNat % 64 := by
  have hand : i.toNat &&& 63 = i.toNat % 64 := Nat.and_two_pow_sub_one_eq_mod i.toNat 6
  have hshift : u.toNat <<< 6 % 2 ^ 32 = u.toNat <<< 6 := by
    rw [Nat.shiftLeft_eq]
    exact Nat.mod_eq_of_lt (by omega)
  have hlt : i.toNat % 64 < 2 ^ 6 := Nat.mod_lt _ (by decide)
  rw [UInt32.toNat_or, UInt32.toNat_shiftLeft, UInt32.toNat_and, UInt8.toNat_toUInt32]
  change u.toNat <<< 6 % 2 ^ 32 ||| i.toNat &&& 63 = _
  rw [hand, hshift, ← Nat.shiftLeft_add_eq_or_of_lt hlt, Nat.shiftLeft_eq]

/-- There are enough bytes, and all are 128 or more. -/
theorem utf8Following_eq (hlen : bytes.length = len) (hhigh : ∀ b ∈ bytes, 0x80 ≤ b)
    (hu : (u.toNat + 1) * 64 ^ len ≤ 2 ^ 32) :
    ∃ u', utf8Following len u (bytes ++ p) = .ok (some u', p) ∧ u'.toNat = gather u.toNat bytes := by
  induction bytes generalizing len u with
  | nil =>
    subst hlen
    exact ⟨u, rfl, rfl⟩
  | cons i bytes ih =>
    obtain _ | len := len
    · cases hlen
    · rw [List.forall_mem_cons] at hhigh
      rw [Nat.pow_succ'] at hu
      have hpow : 1 ≤ 64 ^ len := Nat.one_le_pow _ _ (by decide)
      have hu' : u.toNat < 2 ^ 26 := by
        have hle := Nat.le_trans (Nat.mul_le_mul_left (u.toNat + 1) (Nat.mul_le_mul_left 64 hpow)) hu
        omega
      have hpush := toNat_push hu' i
      have hi : i.toNat % 64 + 1 ≤ 64 := Nat.mod_lt _ (by decide)
      have hle : (u.toNat * 64 + i.toNat % 64 + 1) * 64 ^ len ≤ 2 ^ 32 :=
        calc (u.toNat * 64 + i.toNat % 64 + 1) * 64 ^ len
            ≤ (u.toNat + 1) * 64 * 64 ^ len := Nat.mul_le_mul_right _ (by omega)
          _ = (u.toNat + 1) * (64 * 64 ^ len) := Nat.mul_assoc _ _ _
          _ ≤ 2 ^ 32 := hu
      obtain ⟨u', heq, hgather⟩ := ih (Nat.succ.inj hlen) hhigh.2 (hpush ▸ hle)
      refine ⟨u', ?_, ?_⟩
      · rw [List.cons_append, utf8Following, if_neg (UInt8.not_lt.mpr hhigh.1), heq]
      · rw [hgather, hpush, gather_cons]

/-- A byte is below 128. -/
theorem utf8Following_none (hlen : bytes.length < len) (hhigh : ∀ b ∈ bytes, 0x80 ≤ b)
    (hb : b < 0x80) : utf8Following len u (bytes ++ b :: p) = .ok (none, p) := by
  induction bytes generalizing len u with
  | nil =>
    obtain _ | len := len
    · cases hlen
    · exact if_pos hb
  | cons i bytes ih =>
    obtain _ | len := len
    · cases hlen
    · rw [List.forall_mem_cons] at hhigh
      rw [List.cons_append, utf8Following, if_neg (UInt8.not_lt.mpr hhigh.1),
        ih (Nat.lt_of_succ_lt_succ hlen) hhigh.2]

/-- The bytes run out. -/
theorem utf8Following_undef (hlen : p.length < len) (hhigh : ∀ b ∈ p, 0x80 ≤ b) :
    utf8Following len u p = Exec.undef := by
  induction p generalizing len u with
  | nil =>
    obtain _ | len := len
    · cases hlen
    · rfl
  | cons i p ih =>
    obtain _ | len := len
    · cases hlen
    · rw [List.forall_mem_cons] at hhigh
      rw [utf8Following, if_neg (UInt8.not_lt.mpr hhigh.1),
        ih (Nat.lt_of_succ_lt_succ hlen) hhigh.2]

/-- What may follow a leading byte. -/
theorem following_cases (len : Nat) (p : List UInt8) :
    (∃ bytes p', p = bytes ++ p' ∧ bytes.length = len ∧ ∀ b ∈ bytes, 0x80 ≤ b) ∨
    (∃ bytes b p', p = bytes ++ b :: p' ∧ bytes.length < len ∧ (∀ b ∈ bytes, 0x80 ≤ b) ∧
      b < 0x80) ∨ (p.length < len ∧ ∀ b ∈ p, 0x80 ≤ b) := by
  induction len generalizing p with
  | zero => exact .inl ⟨[], p, rfl, rfl, nofun⟩
  | succ len ih =>
    cases p with
    | nil => exact .inr (.inr ⟨Nat.succ_pos _, nofun⟩)
    | cons i p =>
      by_cases hi : i < 0x80
      · exact .inr (.inl ⟨[], i, p, rfl, Nat.succ_pos _, nofun, hi⟩)
      · have hi' : 0x80 ≤ i := UInt8.not_lt.mp hi
        rcases ih p with ⟨bytes, p', rfl, hlen, hhigh⟩ | ⟨bytes, b, p', rfl, hlen, hhigh, hb⟩ |
          ⟨hlen, hhigh⟩
        · exact .inl ⟨i :: bytes, p', rfl, congrArg Nat.succ hlen,
            List.forall_mem_cons.mpr ⟨hi', hhigh⟩⟩
        · exact .inr (.inl ⟨i :: bytes, b, p', rfl, Nat.succ_lt_succ hlen,
            List.forall_mem_cons.mpr ⟨hi', hhigh⟩, hb⟩)
        · exact .inr (.inr ⟨Nat.succ_lt_succ hlen, List.forall_mem_cons.mpr ⟨hi', hhigh⟩⟩)

/-- The number of bits of the leading byte. -/
def bits (c : UInt8) (row : Row) : Nat := c.toNat % row.leads

theorem rowOf_mem (hrow : rowOf c = some row) : row ∈ rows := by
  unfold rowOf at hrow
  split_ifs at hrow
  all_goals
    obtain rfl := Option.some.inj hrow
    decide

/-- What a leading byte is taken for. -/
theorem utf8Decode_eq (hrow : rowOf c = some row) (p : List UInt8) (n : Nat) :
    ∃ u valid : UInt32, utf8Decode (c :: p) n = utf8Rest u valid row.following c p n ∧
      u.toNat = bits c row ∧ valid.toNat + 1 = row.first := by
  have hle : ∀ k : UInt8, k.toUInt32 ≤ c.toUInt32 ↔ k ≤ c := fun k ↦ by
    rw [UInt32.le_iff_toNat_le, UInt8.le_iff_toNat_le, UInt8.toNat_toUInt32, UInt8.toNat_toUInt32]
  unfold rowOf at hrow
  split_ifs at hrow with hfour hthree htwo
  all_goals rw [← hle] at hfour
  · obtain rfl := Option.some.inj hrow
    refine ⟨c.toUInt32 &&& 0x07, 0xffff, if_pos hfour, ?_, rfl⟩
    rw [UInt32.toNat_and, UInt8.toNat_toUInt32]
    exact Nat.and_two_pow_sub_one_eq_mod c.toNat 3
  · rw [← hle] at hthree
    obtain rfl := Option.some.inj hrow
    refine ⟨c.toUInt32 &&& 0x0f, 0x7ff, (if_neg hfour).trans (if_pos hthree), ?_, rfl⟩
    rw [UInt32.toNat_and, UInt8.toNat_toUInt32]
    exact Nat.and_two_pow_sub_one_eq_mod c.toNat 4
  · rw [← hle] at hthree htwo
    obtain rfl := Option.some.inj hrow
    refine ⟨c.toUInt32 &&& 0x1f, 0x7f,
      (if_neg hfour).trans ((if_neg hthree).trans (if_pos htwo)), ?_, rfl⟩
    rw [UInt32.toNat_and, UInt8.toNat_toUInt32]
    exact Nat.and_two_pow_sub_one_eq_mod c.toNat 5

/-- A byte that cannot be a leading one. -/
theorem utf8Decode_eq_invalid (hrow : rowOf c = none) (p : List UInt8) (n : Nat) :
    utf8Decode (c :: p) n = .ok (invalid, p) := by
  have hle : ∀ k : UInt8, k.toUInt32 ≤ c.toUInt32 ↔ k ≤ c := fun k ↦ by
    rw [UInt32.le_iff_toNat_le, UInt8.le_iff_toNat_le, UInt8.toNat_toUInt32, UInt8.toNat_toUInt32]
  unfold rowOf at hrow
  split_ifs at hrow with hfour hthree htwo
  rw [← hle] at hfour hthree htwo
  exact (if_neg hfour).trans ((if_neg hthree).trans (if_neg htwo))

/-- The test of the first two bytes says whether the number belongs to the row. -/
theorem inRow_iff (hrow : rowOf c = some row) (hlen : bytes.length = row.following) :
    (∀ b ∈ bytes.head?, InRow c b) ↔
      row.first ≤ gather (bits c row) bytes ∧ gather (bits c row) bytes ≤ 0x10ffff := by
  unfold rowOf at hrow
  unfold InRow
  have hc := c.toNat_lt
  split_ifs at hrow with hfour hthree htwo
  · obtain rfl := Option.some.inj hrow
    obtain ⟨b₁, b₂, b₃, rfl⟩ := List.length_eq_three.mp hlen
    simp only [List.head?_cons, Option.mem_some_iff, forall_eq', if_pos hfour, gather_cons]
    change _ ↔ 0x10000 ≤ (((c.toNat % 8) * 64 + _) * 64 + _) * 64 + _ ∧
      (((c.toNat % 8) * 64 + _) * 64 + _) * 64 + _ ≤ _
    omega
  · obtain rfl := Option.some.inj hrow
    obtain ⟨b₁, b₂, rfl⟩ := List.length_eq_two.mp hlen
    simp only [List.head?_cons, Option.mem_some_iff, forall_eq', if_neg hfour, if_pos hthree,
      gather_cons]
    change _ ↔ 0x800 ≤ ((c.toNat % 16) * 64 + _) * 64 + _ ∧
      ((c.toNat % 16) * 64 + _) * 64 + _ ≤ _
    omega
  · obtain rfl := Option.some.inj hrow
    obtain ⟨b₁, rfl⟩ := List.length_eq_one_iff.mp hlen
    simp only [List.head?_cons, Option.mem_some_iff, if_neg hfour, if_neg hthree, implies_true,
      true_iff, gather_cons]
    rw [UInt8.le_iff_toNat_le] at hthree htwo
    change ¬ 224 ≤ _ at hthree
    change 194 ≤ _ at htwo
    change 0x80 ≤ (c.toNat % 32) * 64 + _ ∧ (c.toNat % 32) * 64 + _ ≤ _
    omega

/-- The number fits into 32 bits. -/
theorem bits_lt (hrow : rowOf c = some row) : (bits c row + 1) * 64 ^ row.following ≤ 2 ^ 32 := by
  have hrows : ∀ row ∈ rows, 0 < row.leads ∧ row.leads * 64 ^ row.following ≤ 2 ^ 32 := by decide
  obtain ⟨hpos, hle⟩ := hrows row (rowOf_mem hrow)
  exact Nat.le_trans (Nat.mul_le_mul_right _ (Nat.mod_lt _ hpos)) hle

theorem utf8Rest_eq (hn : len < n) (u valid : UInt32) (c : UInt8) (p : List UInt8) :
    utf8Rest u valid len c p n = utf8Following len u p >>= fun x ↦ match x.1 with
      | none => pure (invalid, x.2)
      | some u => pure (if valid < u then u else invalid, x.2) := if_neg (by omega)

/-- The bytes for a character are followed by anything. -/
theorem utf8Decode_bytes (hrow : rowOf c = some row) (hlen : bytes.length = row.following)
    (hhigh : ∀ b ∈ bytes, 0x80 ≤ b) (hn : row.following < n) :
    ∃ u : UInt32, u.toNat = gather (bits c row) bytes ∧
      utf8Decode (c :: (bytes ++ p)) n = .ok (if row.first ≤ u.toNat then u else invalid, p) := by
  obtain ⟨u, valid, hdecode, hu, hvalid⟩ := utf8Decode_eq hrow (bytes ++ p) n
  obtain ⟨u', hfollow, hu'⟩ := utf8Following_eq (p := p) hlen hhigh (hu ▸ bits_lt hrow)
  refine ⟨u', hu ▸ hu', ?_⟩
  have hlt : valid < u' ↔ row.first ≤ u'.toNat := by
    rw [UInt32.lt_iff_toNat_lt, ← hvalid]
    exact Iff.rfl
  rw [hdecode, utf8Rest_eq hn, hfollow, Exec.ok_bind]
  simp only [hlt]
  rfl

/-- What the decoder does with a character. -/
theorem utf8Decode_taken (ht : Taken c bytes) (hn : bytes.length < n) :
    ∃ row u, rowOf c = some row ∧ u.toNat = gather (bits c row) bytes ∧ u ≤ 0x10ffff ∧
      utf8Decode (c :: (bytes ++ p)) n = .ok (u, p) := by
  obtain ⟨row, hrow, hlen⟩ := ht.row
  obtain ⟨hfirst, hlast⟩ := (inRow_iff hrow hlen).mp ht.inRow
  obtain ⟨u, hu, hdecode⟩ := utf8Decode_bytes (p := p) hrow hlen ht.high (hlen ▸ hn)
  rw [if_pos (hu ▸ hfirst)] at hdecode
  exact ⟨row, u, hrow, hu, UInt32.le_iff_toNat_le.mpr (hu ▸ hlast), hdecode⟩

/-- A buffer in which there are not as many bytes behind the leading one as it should have. -/
def CutOff (n : Nat) (c : UInt8) (bytes : List UInt8) : Prop :=
  (∃ row, rowOf c = some row ∧ bytes.length < row.following ∧ row.following < n) ∧
    ∀ b ∈ bytes, 0x80 ≤ b

/-- The decoder returns a result that is no code point, or takes a character, or reads beyond the
buffer. -/
theorem utf8Decode_cases (c : UInt8) (p : List UInt8) (hn : 0 < n) :
    (∃ u p', utf8Decode (c :: p) n = .ok (u, p') ∧ 0x10ffff < u) ∨
    (∃ bytes p', p = bytes ++ p' ∧ Taken c bytes ∧ bytes.length < n) ∨ CutOff n c p := by
  cases hrow : rowOf c with
  | none => exact .inl ⟨_, _, utf8Decode_eq_invalid hrow p n, by decide⟩
  | some row =>
    obtain ⟨u, valid, hdecode, hu, hvalid⟩ := utf8Decode_eq hrow p n
    by_cases hshort : n ≠ 0 ∧ n - 1 < row.following
    · exact .inl ⟨incomplete, c :: p, hdecode.trans (if_pos hshort), by decide⟩
    · have hn' : row.following < n := by omega
      rcases following_cases row.following p with ⟨bytes, p', rfl, hlen, hhigh⟩ |
        ⟨bytes, b, p', rfl, hlen, hhigh, hb⟩ | ⟨hlen, hhigh⟩
      · by_cases hin : ∀ b ∈ bytes.head?, InRow c b
        · exact .inr (.inl ⟨bytes, p', rfl, ⟨⟨row, hrow, hlen⟩, hhigh, hin⟩, hlen ▸ hn'⟩)
        · obtain ⟨u, hu, hdecode⟩ := utf8Decode_bytes (p := p') hrow hlen hhigh hn'
          rw [inRow_iff hrow hlen, ← hu] at hin
          refine .inl ⟨_, p', hdecode, ?_⟩
          split_ifs with hfirst
          · exact UInt32.lt_iff_toNat_lt.mpr (Nat.lt_of_not_le fun hle ↦ hin ⟨hfirst, hle⟩)
          · decide
      · refine .inl ⟨invalid, p', hdecode.trans ?_, by decide⟩
        rw [utf8Rest_eq hn', utf8Following_none hlen hhigh hb]
        rfl
      · exact .inr (.inr ⟨⟨row, hrow, hlen, hn'⟩, hhigh⟩)

theorem utf8Decode_cutOff (h : CutOff n c p) : utf8Decode (c :: p) n = Exec.undef := by
  obtain ⟨⟨row, hrow, hlen, hn⟩, hhigh⟩ := h
  obtain ⟨u, valid, hdecode, -, -⟩ := utf8Decode_eq hrow p n
  rw [hdecode, utf8Rest_eq hn, utf8Following_undef hlen hhigh]
  rfl

/-! ## Soundness -/

/-- A leading byte is one of the table, unless it is 248 or more. -/
theorem rowOf_bounds (hrow : rowOf c = some row) : row.lead ≤ c.toNat ∧
    (c < 0xf8 → c.toNat < row.lead + row.leads ∧ c.toNat - row.lead = bits c row) := by
  have hc := c.toNat_lt
  unfold rowOf at hrow
  simp only [UInt8.le_iff_toNat_le, UInt8.lt_iff_toNat_lt, UInt8.reduceToNat] at hrow ⊢
  split_ifs at hrow with hfour hthree htwo
  all_goals
    obtain rfl := Option.some.inj hrow
  · change 0xf0 ≤ _ ∧ (_ → _ < 0xf0 + 8 ∧ _ - 0xf0 = _ % 8)
    omega
  · change 0xe0 ≤ _ ∧ (_ → _ < 0xe0 + 0x10 ∧ _ - 0xe0 = _ % 0x10)
    omega
  · change 0xc0 ≤ _ ∧ (_ → _ < 0xc0 + 0x20 ∧ _ - 0xc0 = _ % 0x20)
    omega

/-- The leading byte of a sequence of the table is taken for that of its row. -/
theorem rowOf_of_fits {v : Nat} (hmem : row ∈ rows) (h : row.Fits c bytes v) :
    rowOf c = some row ∧ c < 0xf8 := by
  obtain ⟨hlo, hhi⟩ := h.lead_mem
  have hfirst := h.mem.1
  have hvalue := h.value
  have hlen := h.length
  unfold rowOf
  simp only [UInt8.le_iff_toNat_le, UInt8.lt_iff_toNat_lt, UInt8.reduceToNat]
  simp only [rows, List.mem_cons, List.not_mem_nil, or_false] at hmem
  rcases hmem with rfl | rfl | rfl
  all_goals simp only [two, three, four] at hlo hhi hfirst
  · -- a smaller leading byte would make an overlong form
    obtain ⟨b, rfl⟩ := List.length_eq_one_iff.mp hlen
    change v = (c.toNat - 0xc0) * 64 + b.toNat % 64 at hvalue
    exact ⟨(if_neg (by omega)).trans ((if_neg (by omega)).trans (if_pos (by omega))), by omega⟩
  · exact ⟨(if_neg (by omega)).trans (if_pos (by omega)), by omega⟩
  · exact ⟨if_pos (by omega), by omega⟩

/-- A number of the first two rows is never too large. -/
theorem gather_le_last (hrow : rowOf c = some row) (hlen : bytes.length = row.following)
    (hle : gather (bits c row) bytes ≤ 0x10ffff) : gather (bits c row) bytes ≤ row.last := by
  have hrows : ∀ row ∈ rows, 0 < row.leads ∧
      (row.last = 0x10ffff ∨ row.leads * 64 ^ row.following = row.last + 1) := by decide
  obtain ⟨hpos, hlast | hlast⟩ := hrows row (rowOf_mem hrow)
  · exact hlast ▸ hle
  · have hbits : bits c row + 1 ≤ row.leads := Nat.mod_lt _ hpos
    have hmul := Nat.mul_le_mul_right (64 ^ row.following) hbits
    have hlt := gather_lt bytes
    rw [hlen] at hlt
    rw [Nat.add_mul, hlast] at hmul
    rw [gather_eq, hlen]
    omega

/-- What is taken for a character is well-formed unless one of its bytes is not of the table. -/
theorem Taken.wellFormed_iff (ht : Taken c bytes) (hrow : rowOf c = some row) :
    WellFormed (c :: bytes) (gather (bits c row) bytes) ↔ ¬ Stray c bytes := by
  obtain ⟨row', hrow', hlen⟩ := ht.row
  obtain rfl := Option.some.inj (hrow.symm.trans hrow')
  obtain ⟨hlo, hhi⟩ := rowOf_bounds hrow
  constructor
  · rintro (⟨b, heq, hb, -⟩ | ⟨row', hmem, lead, rest, heq, hfits⟩)
    · obtain ⟨rfl, rfl⟩ := List.cons.inj heq
      have hpos : ∀ row ∈ rows, 0 < row.following := by decide
      exact absurd hlen (Nat.ne_of_lt (hpos row (rowOf_mem hrow)))
    · obtain ⟨rfl, rfl⟩ := List.cons.inj heq
      have hlt := (rowOf_of_fits hmem hfits).2
      rintro (hc | ⟨b, hb, hge⟩)
      · exact UInt8.not_lt.mpr hc hlt
      · exact UInt8.not_lt.mpr hge (hfits.follows b hb).2
  · intro hstray
    have hc : c < 0xf8 := UInt8.not_le.mp fun hle ↦ hstray (.inl hle)
    obtain ⟨hlt, hbits⟩ := hhi hc
    obtain ⟨hfirst, hlast⟩ := (inRow_iff hrow hlen).mp ht.inRow
    refine .inr ⟨row, rowOf_mem hrow, c, bytes, rfl, ⟨hlo, hlt⟩, hlen, fun b hb ↦ ⟨ht.high b hb, ?_⟩,
      by rw [hbits], hfirst, ?_⟩
    · exact UInt8.not_le.mp fun hle ↦ hstray (.inr ⟨b, hb, hle⟩)
    · exact gather_le_last hrow hlen hlast

/-- A result that is a code point is that of a sequence of the table just if the leading byte and
those that follow have the form that it asks for: as long as the bytes for a character are there,
are 128 or more and make a number of the row, only this is not tested. -/
theorem utf8_sound_iff (c : UInt8) (p : List UInt8) : Sound (c :: p) ↔
    ∀ bytes p', p = bytes ++ p' → Taken c bytes → ¬ Stray c bytes := by
  constructor
  · rintro hsound bytes p' rfl ht
    have hn : bytes.length < (c :: (bytes ++ p')).length := by
      rw [List.length_cons, List.length_append]
      omega
    obtain ⟨row, u, hrow, hu, hle, hdecode⟩ := utf8Decode_taken (p := p') ht hn
    obtain ⟨used, hused, hwf⟩ := hsound u p' hdecode hle
    rw [← List.cons_append] at hused
    rw [List.append_cancel_right hused.symm, hu] at hwf
    exact (ht.wellFormed_iff hrow).mp hwf
  · intro h u p' hdecode hle
    rcases utf8Decode_cases c p (n := (c :: p).length) (Nat.succ_pos _) with
      ⟨u', p'', hdecode', hlt⟩ | ⟨bytes, p'', rfl, ht, hn⟩ | hcut
    · obtain ⟨rfl, rfl⟩ := Prod.mk.inj (Except.ok.inj (hdecode.symm.trans hdecode'))
      exact absurd hlt (UInt32.not_lt.mpr hle)
    · obtain ⟨row, u', hrow, hu, -, hdecode'⟩ := utf8Decode_taken (p := p'') ht hn
      obtain ⟨rfl, rfl⟩ := Prod.mk.inj (Except.ok.inj (hdecode.symm.trans hdecode'))
      refine ⟨c :: bytes, rfl, ?_⟩
      rw [hu]
      exact (ht.wellFormed_iff hrow).mpr (h bytes p' rfl ht)
    · rw [utf8Decode_cutOff hcut] at hdecode
      cases hdecode

/-- A byte that follows has the form `11xxxxxx`. -/
theorem not_utf8_sound : ¬ Sound [0xc2, 0xc0] := by
  intro hsound
  obtain ⟨used, hused, hwf⟩ := hsound 0x80 [] rfl (by decide)
  rw [List.append_nil] at hused
  subst hused
  rcases hwf with ⟨b, heq, -⟩ | ⟨row, -, lead, rest, heq, hfits⟩
  · cases heq
  · obtain ⟨rfl, rfl⟩ := List.cons.inj heq
    exact absurd (hfits.follows 0xc0 List.mem_cons_self).2 (by decide)

/-! ## Characters one after another -/

/-- The bytes are characters as the decoder takes them. -/
inductive Units : List UInt8 → Prop where
  /-- There is none. -/
  | nil : Units []
  /-- A character of one byte. -/
  | ascii {c : UInt8} {p : List UInt8} : c < 0x80 → Units p → Units (c :: p)
  /-- A character of more than one byte. -/
  | taken {c : UInt8} {bytes p : List UInt8} : Taken c bytes → Units p → Units (c :: (bytes ++ p))

/-- Behind some characters, there are not as many bytes behind a leading one as it should have, but
the buffer as a whole has enough of them. -/
def Truncated (n : Nat) (p : List UInt8) : Prop :=
  ∃ done c bytes, p = done ++ c :: bytes ∧ Units done ∧ CutOff n c bytes

/-- A leading byte is not an ASCII character. -/
theorem rowOf_ascii (hc : c < 0x80) : rowOf c = none := by
  unfold rowOf
  simp only [UInt8.le_iff_toNat_le, UInt8.lt_iff_toNat_lt, UInt8.reduceToNat] at hc ⊢
  rw [if_neg (by omega), if_neg (by omega), if_neg (by omega)]

theorem not_ascii (hrow : rowOf c = some row) : ¬ c < 0x80 := fun hc ↦ by
  rw [rowOf_ascii hc] at hrow
  cases hrow

theorem CutOff.not_ascii (h : CutOff n c bytes) : ¬ c < 0x80 := by
  obtain ⟨⟨row, hrow, -⟩, -⟩ := h
  exact DlString.not_ascii hrow

/-- The loop takes a character. -/
theorem utf8LengthLoop_taken (ht : Taken c bytes) (hn : bytes.length < n) (fuel len : Nat) :
    utf8LengthLoop n (fuel + 1) (c :: (bytes ++ p)) len = utf8LengthLoop n fuel p (len + 1) := by
  obtain ⟨row, u, hrow, -, hle, hdecode⟩ := utf8Decode_taken (p := p) ht hn
  rw [utf8LengthLoop, if_neg (not_ascii hrow), hdecode, Exec.ok_bind]
  exact if_neg (UInt32.not_lt.mpr hle)

/-- The decoder reads beyond the buffer. -/
theorem utf8LengthLoop_truncated {done : List UInt8} (hdone : Units done) (hcut : CutOff n c bytes)
    (hn : (done ++ c :: bytes).length ≤ n) (len fuel : Nat) :
    ∀ r, utf8LengthLoop n fuel (done ++ c :: bytes) len ≠ .ok r := by
  induction hdone generalizing len fuel with
  | nil =>
    obtain _ | fuel := fuel
    · exact nofun
    · intro r
      rw [List.nil_append, utf8LengthLoop, if_neg hcut.not_ascii, utf8Decode_cutOff hcut]
      exact nofun
  | ascii hc _ ih =>
    obtain _ | fuel := fuel
    · exact nofun
    · intro r
      rw [List.cons_append, utf8LengthLoop, if_pos hc]
      exact ih (Nat.le_of_succ_le hn) _ _ r
  | @taken c' bytes' p ht _ ih =>
    obtain _ | fuel := fuel
    · exact nofun
    · intro r
      rw [List.cons_append, List.append_assoc] at hn ⊢
      rw [List.length_cons, List.length_append] at hn
      rw [utf8LengthLoop_taken ht (by omega)]
      exact ih (by omega) _ _ r

/-- If no character is cut off, the loop comes to an end. -/
theorem utf8LengthLoop_returns (hn : p.length ≤ n) (hcut : ¬ Truncated n p) (len : Nat) :
    ∃ r, ∀ fuel, p.length < fuel → utf8LengthLoop n fuel p len = .ok r := by
  induction hk : p.length using Nat.strongRecOn generalizing p len with
  | ind k ih =>
    subst hk
    cases p with
    | nil =>
      refine ⟨len, fun fuel hf ↦ ?_⟩
      obtain ⟨fuel, rfl⟩ := Nat.exists_eq_add_of_le' (Nat.zero_lt_of_lt hf)
      rfl
    | cons c p =>
      rw [List.length_cons] at hn ih
      have hstep : ∀ {q : List UInt8}, q.length ≤ p.length → ¬ Truncated n q →
          (∀ fuel, utf8LengthLoop n (fuel + 1) (c :: p) len = utf8LengthLoop n fuel q (len + 1)) →
          ∃ r, ∀ fuel, (c :: p).length < fuel → utf8LengthLoop n fuel (c :: p) len = .ok r := by
        intro q hq hcut' heq
        obtain ⟨r, hr⟩ := ih q.length (by omega) (by omega) hcut' (len + 1) rfl
        refine ⟨r, fun fuel hf ↦ ?_⟩
        rw [List.length_cons] at hf
        obtain ⟨fuel, rfl⟩ := Nat.exists_eq_add_of_le' (Nat.zero_lt_of_lt hf)
        rw [heq]
        exact hr fuel (by omega)
      by_cases hc : c < 0x80
      · refine hstep (Nat.le_refl _) ?_ fun fuel ↦ if_pos hc
        rintro ⟨done, c', bytes, rfl, hdone, hcut'⟩
        exact hcut ⟨c :: done, c', bytes, rfl, .ascii hc hdone, hcut'⟩
      · rcases utf8Decode_cases c p (n := n) (by omega) with
          ⟨u, p', hdecode, hlt⟩ | ⟨bytes, p', rfl, ht, hlen⟩ | hcut'
        · refine ⟨n, fun fuel hf ↦ ?_⟩
          obtain ⟨fuel, rfl⟩ := Nat.exists_eq_add_of_le' (Nat.zero_lt_of_lt hf)
          rw [utf8LengthLoop, if_neg hc, hdecode, Exec.ok_bind]
          exact if_pos hlt
        · refine hstep ?_ ?_ fun fuel ↦ utf8LengthLoop_taken ht hlen fuel len
          · rw [List.length_append]
            exact Nat.le_add_left _ _
          · rintro ⟨done, c', bytes', rfl, hdone, hcut'⟩
            refine hcut ⟨c :: (bytes ++ done), c', bytes', ?_, .taken ht hdone, hcut'⟩
            rw [List.cons_append, List.append_assoc]
        · exact absurd ⟨[], c, p, rfl, .nil, hcut'⟩ hcut

/-- `dl_utf8_length` comes to an end and reads the bytes of its buffer only, just if no character at
the end of the buffer is cut off, unless the buffer as a whole has fewer bytes than it should have. -/
theorem utf8_length_in_buffer_iff (p : List UInt8) :
    (∃ r, Returns (fun fuel ↦ utf8Length fuel p p.length) r) ↔ ¬ Truncated p.length p := by
  constructor
  · rintro ⟨r, N, hN⟩ ⟨done, c, bytes, hp, hdone, hcut⟩
    have hret := hN N (Nat.le_refl N)
    have hlen := Nat.le_of_eq (congrArg List.length hp.symm)
    refine utf8LengthLoop_truncated hdone hcut hlen 0 N r ?_
    rwa [← hp]
  · intro hcut
    obtain ⟨r, hr⟩ := utf8LengthLoop_returns (Nat.le_refl _) hcut 0
    exact ⟨r, p.length + 1, fun fuel hf ↦ hr fuel hf⟩

/-- A buffer that ends in the middle of its second character. -/
theorem not_utf8_length_in_buffer :
    ¬ ∃ r, Returns (fun fuel ↦ utf8Length fuel [0x61, 0xc3] 2) r := by
  rintro ⟨r, N, hN⟩
  have hret := hN (N + 2) (Nat.le_add_right N 2)
  cases hret

/-! ## Decoding what has been encoded -/

/-- The decoder takes a sequence of the table. -/
theorem taken_of_fits {v : Nat} (hmem : row ∈ rows) (h : row.Fits c bytes v) :
    rowOf c = some row ∧ Taken c bytes ∧ v = gather (bits c row) bytes := by
  obtain ⟨hrow, hc⟩ := rowOf_of_fits hmem h
  have hv : v = gather (bits c row) bytes := ((rowOf_bounds hrow).2 hc).2 ▸ h.value
  have hlast : ∀ row ∈ rows, row.last ≤ 0x10ffff := by decide
  refine ⟨hrow, ⟨⟨row, hrow, h.length⟩, fun b hb ↦ (h.follows b hb).1, ?_⟩, hv⟩
  rw [inRow_iff hrow h.length, ← hv]
  exact ⟨h.mem.1, Nat.le_trans h.mem.2 (hlast row hmem)⟩

/-- The encoding of a character that is not an ASCII character. -/
theorem taken_utf8EncodeChar (c : Char) (hc : 0x80 ≤ c.val) :
    ∃ lead bytes row, String.utf8EncodeChar c = lead :: bytes ∧ Taken lead bytes ∧
      rowOf lead = some row ∧ c.val.toNat = gather (bits lead row) bytes := by
  rcases wellFormed_utf8EncodeChar c with ⟨b, -, hb, hval⟩ | ⟨row, hmem, lead, bytes, heq, hfits⟩
  · rw [UInt32.le_iff_toNat_le] at hc
    rw [UInt8.lt_iff_toNat_lt] at hb
    exact absurd (hval ▸ hc) (Nat.not_le.mpr hb)
  · obtain ⟨hrow, ht, hv⟩ := taken_of_fits hmem hfits
    exact ⟨lead, bytes, row, heq, ht, hrow, hv⟩

/-- The decoder inverts the encoding of a character. -/
theorem utf8Decode_utf8EncodeChar (c : Char) (hc : 0x80 ≤ c.val) (p : List UInt8)
    (hn : (String.utf8EncodeChar c).length ≤ n) :
    utf8Decode (String.utf8EncodeChar c ++ p) n = .ok (c.val, p) := by
  obtain ⟨lead, bytes, row, heq, ht, hrow, hval⟩ := taken_utf8EncodeChar c hc
  rw [heq] at hn ⊢
  obtain ⟨row', u, hrow', hu, -, hdecode⟩ := utf8Decode_taken (p := p) ht hn
  obtain rfl := Option.some.inj (hrow.symm.trans hrow')
  rw [List.cons_append, hdecode, UInt32.toNat_inj.mp (hu.trans hval.symm)]

/-- The loop counts characters. -/
theorem utf8LengthLoop_flatMap (l : List Char) {n : Nat}
    (hn : (l.flatMap String.utf8EncodeChar).length ≤ n) (len : Nat) {fuel : Nat}
    (hf : l.length < fuel) :
    utf8LengthLoop n fuel (l.flatMap String.utf8EncodeChar) len = .ok (len + l.length) := by
  induction l generalizing len fuel with
  | nil =>
    obtain ⟨fuel, rfl⟩ := Nat.exists_eq_add_of_le' (Nat.zero_lt_of_lt hf)
    rfl
  | cons c l ih =>
    obtain ⟨fuel, rfl⟩ := Nat.exists_eq_add_of_le' (Nat.zero_lt_of_lt hf)
    rw [List.flatMap_cons, List.length_append] at hn
    have hrest := ih (Nat.le_trans (Nat.le_add_left _ _) hn) (len + 1) (Nat.lt_of_succ_lt_succ hf)
    have hlen : len + 1 + l.length = len + (c :: l).length := by
      rw [List.length_cons]
      omega
    rw [hlen] at hrest
    rw [List.flatMap_cons]
    by_cases hc : 0x80 ≤ c.val
    · obtain ⟨lead, bytes, row, heq, ht, -⟩ := taken_utf8EncodeChar c hc
      rw [heq] at hn ⊢
      rw [List.length_cons] at hn
      rw [List.cons_append, utf8LengthLoop_taken ht (by omega), hrest]
    · have hone : c.utf8Size = 1 := by
        rw [Char.utf8Size_eq_one_iff, UInt32.le_iff_toNat_le]
        rw [UInt32.le_iff_toNat_le] at hc
        change ¬ 128 ≤ _ at hc
        change _ ≤ 127
        omega
      have hlt : c.val.toUInt8 < 0x80 := by
        rw [UInt32.le_iff_toNat_le] at hc
        rw [UInt8.lt_iff_toNat_lt, UInt32.toNat_toUInt8]
        change ¬ 128 ≤ _ at hc
        change _ % 256 < 128
        omega
      rw [String.utf8EncodeChar_eq_singleton hone]
      exact (if_pos hlt).trans hrest

/-- `dl_utf8_length` counts the characters of a text in UTF-8, and `dl_utf8_decode` yields each of
those that are not ASCII characters and goes on to the next one. -/
theorem utf8_round_trip (l : List Char) :
    Returns (fun fuel ↦ utf8Length fuel (l.flatMap String.utf8EncodeChar)
      (l.flatMap String.utf8EncodeChar).length) l.length ∧
    ∀ l₁ c l₂, l = l₁ ++ c :: l₂ → 0x80 ≤ c.val →
      ∀ n, (String.utf8EncodeChar c).length ≤ n →
        utf8Decode ((c :: l₂).flatMap String.utf8EncodeChar) n =
          .ok (c.val, l₂.flatMap String.utf8EncodeChar) := by
  refine ⟨⟨l.length + 1, fun fuel hf ↦ ?_⟩, fun l₁ c l₂ _ hc n hn ↦ ?_⟩
  · have hloop := utf8LengthLoop_flatMap l (Nat.le_refl _) 0 hf
    rwa [Nat.zero_add] at hloop
  · exact utf8Decode_utf8EncodeChar c hc _ hn

end Dlbase.DlString
