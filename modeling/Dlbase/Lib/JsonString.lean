import Dlbase.Lib.Hexadecimal

/-!
# The text of a JSON string

The text between the quotation marks of a JSON string, as bytes: which texts are allowed, and which
bytes they stand for.  A character with a number is encoded in UTF-8; one above `FFFF` is written as
two surrogates.  Bytes that are not escaped stand for themselves.
-/

namespace Cmem.JsonString

/-- `\`. -/
def backslash : UInt8 := 92

/-- `"`. -/
def quote : UInt8 := 34

/-- `u`. -/
def letterU : UInt8 := 117

/-- What a letter behind a backslash stands for. -/
def short (c : UInt8) : Option UInt8 :=
  if c = quote then some quote
  else if c = backslash then some backslash
  else if c = 47 then some 47
  else if c = 98 then some 8
  else if c = 102 then some 12
  else if c = 110 then some 10
  else if c = 114 then some 13
  else if c = 116 then some 9
  else none

/-- A byte that need not be escaped. -/
def IsPlain (c : UInt8) : Prop := 0x20 ≤ c ∧ c ≠ quote ∧ c ≠ backslash

instance (c : UInt8) : Decidable (IsPlain c) := inferInstanceAs (Decidable (_ ∧ _))

/-- The text of a string: no control characters, no quotation mark without a backslash in front of
it, and each backslash starts an escape. -/
inductive Text : List UInt8 → Prop where
  /-- There is no text. -/
  | nil : Text []
  /-- A byte that is not escaped. -/
  | plain {c : UInt8} {l : List UInt8} : IsPlain c → Text l → Text (c :: l)
  /-- `\n` and the like. -/
  | short {c : UInt8} {l : List UInt8} : (short c).isSome → Text l → Text (backslash :: c :: l)
  /-- `\u` and four digits. -/
  | unicode {a b c d : UInt8} {l : List UInt8} : Hexadecimal.IsDigit a → Hexadecimal.IsDigit b →
      Hexadecimal.IsDigit c → Hexadecimal.IsDigit d → Text l →
      Text (backslash :: letterU :: a :: b :: c :: d :: l)

/-- The UTF-8 encoding of a character. -/
def encode (n : Nat) : List UInt8 := String.utf8EncodeChar (Char.ofNat n)

/-- The bytes that a text stands for. -/
def decode : List UInt8 → Option (List UInt8)
  | [] => some []
  | c :: l =>
    if IsPlain c then (decode l).map (c :: ·)
    else if c = backslash then
      match l with
      | [] => none
      | e :: l =>
        if e = letterU then
          match l with
          | a :: b :: c :: d :: l =>
            match Hexadecimal.number [a, b, c, d] with
            | none => none
            | some high =>
              if high < 0xd800 ∨ 0xe000 ≤ high then (decode l).map (encode high ++ ·)
              else match l with
              | x :: y :: a :: b :: c :: d :: l =>
                match Hexadecimal.number [a, b, c, d] with
                | none => none
                | some low =>
                  if x = backslash ∧ y = letterU ∧ high < 0xdc00 ∧ 0xdc00 ≤ low ∧ low < 0xe000 then
                    (decode l).map
                      (encode (0x10000 + (high - 0xd800) * 0x400 + (low - 0xdc00)) ++ ·)
                  else none
              | _ => none
          | _ => none
        else (short e).bind fun b ↦ (decode l).map (b :: ·)
    else none

variable {a b c d e : UInt8} {l : List UInt8} {n : Nat}

theorem decode_plain (h : IsPlain c) : decode (c :: l) = (decode l).map (c :: ·) := by
  rw [decode.eq_def]
  exact if_pos h

theorem not_isPlain_backslash : ¬ IsPlain backslash := by decide

theorem decode_short (h : short e = some b) :
    decode (backslash :: e :: l) = (decode l).map (b :: ·) := by
  have hu : e ≠ letterU := by
    rintro rfl
    exact absurd h nofun
  rw [decode.eq_def]
  dsimp only
  rw [if_neg not_isPlain_backslash, if_pos rfl, if_neg hu, h, Option.bind_some]

theorem decode_unicode (h : Hexadecimal.number [a, b, c, d] = some n) (hn : n < 0xd800) :
    decode (backslash :: letterU :: a :: b :: c :: d :: l) = (decode l).map (encode n ++ ·) := by
  rw [decode, if_neg not_isPlain_backslash, if_pos rfl, if_pos rfl, h]
  dsimp only
  rw [if_pos (.inl hn)]

/-- An escape with four digits. -/
theorem Text.unicode_of_number (h : Hexadecimal.number [a, b, c, d] = some n) (hl : Text l) :
    Text (backslash :: letterU :: a :: b :: c :: d :: l) := by
  have hdigit := Hexadecimal.isDigit_of_number h
  simp only [List.forall_mem_cons] at hdigit
  obtain ⟨ha, hb, hc, hd, -⟩ := hdigit
  exact .unicode ha hb hc hd hl

theorem le_of_isDigit (h : Hexadecimal.IsDigit c) : 0x20 ≤ c := by
  obtain ⟨n, hn⟩ := Option.isSome_iff_exists.mp h
  unfold Hexadecimal.digit at hn
  simp only [UInt8.le_iff_toNat_le, UInt8.reduceToNat] at hn ⊢
  split_ifs at hn
  all_goals omega

theorem le_of_short (h : (JsonString.short c).isSome) : 0x20 ≤ c := by
  obtain ⟨b, hb⟩ := Option.isSome_iff_exists.mp h
  unfold JsonString.short at hb
  split_ifs at hb
  all_goals
    subst c
    decide

/-- There are no control characters. -/
theorem Text.le (h : Text l) : ∀ c ∈ l, 0x20 ≤ c := by
  induction h with
  | nil => exact fun c hc ↦ absurd hc List.not_mem_nil
  | plain hc _ ih => exact List.forall_mem_cons.mpr ⟨hc.1, ih⟩
  | short hc _ ih =>
    exact List.forall_mem_cons.mpr ⟨by decide, List.forall_mem_cons.mpr ⟨le_of_short hc, ih⟩⟩
  | unicode ha hb hc hd _ ih =>
    simp only [List.forall_mem_cons]
    exact ⟨by decide, by decide, le_of_isDigit ha, le_of_isDigit hb, le_of_isDigit hc,
      le_of_isDigit hd, ih⟩

end Cmem.JsonString
