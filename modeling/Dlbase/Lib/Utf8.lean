import Mathlib

/-!
# The table of UTF-8

A code point below 128 is one byte.  Any other one is a leading byte and up to three bytes that
follow, each of which holds six bits; a row of the table says how many bytes follow, what the
leading byte is and which code points the row is for.  A code point that belongs to one row could be
written in a later row as well, which is not well-formed.
-/

namespace Cmem.Utf8

/-- A row of the table for more than one byte. -/
structure Row where
  /-- The number of bytes that follow. -/
  following : Nat
  /-- The leading byte, with zeros for the bits of the code point. -/
  lead : Nat
  /-- The number of leading bytes. -/
  leads : Nat
  /-- The first code point. -/
  first : Nat
  /-- The last code point. -/
  last : Nat
deriving DecidableEq, Repr

/-- `110xxxxx 10xxxxxx`. -/
def two : Row := ⟨1, 0xc0, 0x20, 0x80, 0x7ff⟩

/-- `1110xxxx 10xxxxxx 10xxxxxx`. -/
def three : Row := ⟨2, 0xe0, 0x10, 0x800, 0xffff⟩

/-- `11110xxx 10xxxxxx 10xxxxxx 10xxxxxx`. -/
def four : Row := ⟨3, 0xf0, 0x08, 0x10000, 0x10ffff⟩

/-- The rows for more than one byte. -/
def rows : List Row := [two, three, four]

/-- A byte that follows has the form `10xxxxxx`. -/
def Follows (b : UInt8) : Prop := 0x80 ≤ b ∧ b < 0xc0

instance (b : UInt8) : Decidable (Follows b) := inferInstanceAs (Decidable (_ ∧ _))

/-- The number whose higher bits are `u` and whose other bits are six of each byte. -/
def gather (u : Nat) (bytes : List UInt8) : Nat := bytes.foldl (fun u b ↦ u * 64 + b.toNat % 64) u

/-- The bytes are a sequence of the row for the code point `v`. -/
structure Row.Fits (row : Row) (lead : UInt8) (bytes : List UInt8) (v : Nat) : Prop where
  /-- The leading byte. -/
  lead_mem : row.lead ≤ lead.toNat ∧ lead.toNat < row.lead + row.leads
  /-- The number of bytes that follow. -/
  length : bytes.length = row.following
  /-- Their form. -/
  follows : ∀ b ∈ bytes, Follows b
  /-- The code point. -/
  value : v = gather (lead.toNat - row.lead) bytes
  /-- It belongs to the row. -/
  mem : row.first ≤ v ∧ v ≤ row.last

/-- The bytes are the sequence of the table for the code point `v`. -/
def WellFormed (bytes : List UInt8) (v : Nat) : Prop :=
  (∃ b : UInt8, bytes = [b] ∧ b < 0x80 ∧ v = b.toNat) ∨
    ∃ row ∈ rows, ∃ lead rest, bytes = lead :: rest ∧ row.Fits lead rest v

variable {u v : Nat} {bytes : List UInt8} {b : UInt8}

theorem gather_cons (u : Nat) (b : UInt8) (bytes : List UInt8) :
    gather u (b :: bytes) = gather (u * 64 + b.toNat % 64) bytes := rfl

/-- The bytes fill up the lower bits. -/
theorem gather_eq (u : Nat) (bytes : List UInt8) :
    gather u bytes = u * 64 ^ bytes.length + gather 0 bytes := by
  induction bytes generalizing u with
  | nil => exact (Nat.mul_one u).symm
  | cons b bytes ih =>
    rw [gather_cons, gather_cons, ih (u * 64 + _), ih (0 * 64 + _), List.length_cons, Nat.pow_succ',
      Nat.add_mul, Nat.zero_mul, Nat.zero_add, Nat.mul_assoc, Nat.add_assoc]

theorem gather_lt (bytes : List UInt8) : gather 0 bytes < 64 ^ bytes.length := by
  induction bytes with
  | nil => exact Nat.one_pos
  | cons b bytes ih =>
    have hmod : b.toNat % 64 ≤ 63 := Nat.le_of_lt_succ (Nat.mod_lt _ (by decide))
    have hmul := Nat.mul_le_mul_right (64 ^ bytes.length) hmod
    rw [gather_cons, gather_eq, List.length_cons, Nat.pow_succ', Nat.zero_mul, Nat.zero_add]
    omega

/-! ## Unicode characters -/

theorem toNat_ofNat_add {k x : Nat} (h : x + k < 256) : (UInt8.ofNat (x + k)).toNat = x + k := by
  rw [UInt8.toNat_ofNat']
  exact Nat.mod_eq_of_lt h

/-- A byte that follows holds six bits. -/
theorem follows_ofNat (x : Nat) : Follows (UInt8.ofNat (x % 64 + 0x80)) ∧
    (UInt8.ofNat (x % 64 + 0x80)).toNat % 64 = x % 64 := by
  have hx : x % 64 < 64 := Nat.mod_lt _ (by decide)
  rw [Follows, UInt8.le_iff_toNat_le, UInt8.lt_iff_toNat_lt, toNat_ofNat_add (by omega)]
  refine ⟨⟨?_, ?_⟩, by omega⟩
  · change 128 ≤ _
    omega
  · change _ < 192
    omega

/-- The encoding of a character is well-formed. -/
theorem wellFormed_utf8EncodeChar (c : Char) : WellFormed (String.utf8EncodeChar c) c.toNat := by
  have hmax : c.val.toNat < 0x110000 := by
    rcases c.valid with h | h
    · exact Nat.lt_trans h (by decide)
    · exact h.2
  unfold String.utf8EncodeChar
  change WellFormed _ c.val.toNat
  dsimp only
  generalize c.val.toNat = v at hmax ⊢
  have h₀ := follows_ofNat v
  have h₁ := follows_ofNat (v / 64)
  have h₂ := follows_ofNat (v / 4096)
  split_ifs with hone htwo
  · refine .inl ⟨_, rfl, ?_, ?_⟩
    · rw [UInt8.lt_iff_toNat_lt, UInt8.toNat_ofNat']
      change v % 256 < 128
      omega
    · rw [UInt8.toNat_ofNat']
      change v = v % 256
      omega
  · refine .inr ⟨two, by decide, _, _, rfl, ?_, rfl, ?_, ?_, ?_⟩
    · rw [toNat_ofNat_add (by omega)]
      change 0xc0 ≤ _ ∧ _ < 0xc0 + 0x20
      omega
    · exact List.forall_mem_singleton.mpr h₀.1
    · rw [toNat_ofNat_add (by omega)]
      simp only [gather_cons, h₀.2]
      change v = (_ - 0xc0) * 64 + _
      omega
    · change 0x80 ≤ _ ∧ _ ≤ 0x7ff
      omega
  · refine .inr ⟨three, by decide, _, _, rfl, ?_, rfl, ?_, ?_, ?_⟩
    · rw [toNat_ofNat_add (by omega)]
      change 0xe0 ≤ _ ∧ _ < 0xe0 + 0x10
      omega
    · exact List.forall_mem_cons.mpr ⟨h₁.1, List.forall_mem_singleton.mpr h₀.1⟩
    · rw [toNat_ofNat_add (by omega)]
      simp only [gather_cons, h₀.2, h₁.2]
      change v = ((_ - 0xe0) * 64 + _) * 64 + _
      omega
    · change 0x800 ≤ _ ∧ _ ≤ 0xffff
      omega
  · refine .inr ⟨four, by decide, _, _, rfl, ?_, rfl, ?_, ?_, ?_⟩
    · rw [toNat_ofNat_add (by omega)]
      change 0xf0 ≤ _ ∧ _ < 0xf0 + 0x08
      omega
    · exact List.forall_mem_cons.mpr ⟨h₂.1, List.forall_mem_cons.mpr
        ⟨h₁.1, List.forall_mem_singleton.mpr h₀.1⟩⟩
    · rw [toNat_ofNat_add (by omega)]
      simp only [gather_cons, h₀.2, h₁.2, h₂.2]
      change v = (((_ - 0xf0) * 64 + _) * 64 + _) * 64 + _
      omega
    · change 0x10000 ≤ _ ∧ _ ≤ 0x10ffff
      omega

end Cmem.Utf8
