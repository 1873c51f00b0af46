import Dlbase.Lib.Hexadecimal
import Dlbase.String.Model

/-!
# Escaping

`dl_escape_uri`, `dl_escape_html` and `dl_escape_json` with the two loops of each: the one for a
null pointer as the destination, which only counts, and the one that writes.  What is read is a list
of bytes, and what is written is another.

The writing loop writes as many bytes as the counting loop says.
-/

namespace Dlbase.DlString

open Cmem

/-! ## URIs -/

/-- A table with one bit for each byte. -/
abbrev EscapeTable := Vector UInt32 8

theorem escape_index_lt (c : UInt8) : (c >>> 5).toNat < 8 := by
  have hc := c.toNat_lt
  rw [UInt8.toNat_shiftRight]
  change c.toNat >>> 5 < 8
  rw [Nat.shiftRight_eq_div_pow]
  omega

/-- `escape[c >> 5] & (1U << (c & 0x1f))`. -/
def EscapeTable.Escapes (escape : EscapeTable) (c : UInt8) : Prop :=
  escape.get ⟨(c >>> 5).toNat, escape_index_lt c⟩ &&& (1 <<< (c &&& 0x1f).toUInt32) ≠ 0

instance (escape : EscapeTable) (c : UInt8) : Decidable (escape.Escapes c) :=
  inferInstanceAs (Decidable (_ ≠ _))

/-- The types of escaping, in the order of their numbers. -/
inductive EscapeType where
  /-- `DL_ESCAPE_URI`. -/
  | uri
  /-- `DL_ESCAPE_ARGS`. -/
  | args
  /-- `DL_ESCAPE_URI_COMPONENT`. -/
  | uriComponent
  /-- `DL_ESCAPE_HTML`. -/
  | html
  /-- `DL_ESCAPE_REFRESH`. -/
  | refresh
deriving DecidableEq, Repr

/-- `map[type]`. -/
def EscapeType.map : EscapeType → EscapeTable
  | uri => #v[0xffffffff, 0x80000029, 0x00000000, 0x80000000,
      0xffffffff, 0xffffffff, 0xffffffff, 0xffffffff]
  | args => #v[0xffffffff, 0x88000869, 0x00000000, 0x80000000,
      0xffffffff, 0xffffffff, 0xffffffff, 0xffffffff]
  | uriComponent => #v[0xffffffff, 0xfc009fff, 0x78000001, 0xb8000001,
      0xffffffff, 0xffffffff, 0xffffffff, 0xffffffff]
  | html => #v[0xffffffff, 0x000000ad, 0x00000000, 0x80000000,
      0xffffffff, 0xffffffff, 0xffffffff, 0xffffffff]
  | refresh => #v[0xffffffff, 0x00000085, 0x00000000, 0x80000000,
      0xffffffff, 0xffffffff, 0xffffffff, 0xffffffff]

/-- The table `hex`. -/
def hexTable : Vector UInt8 16 := ⟨("0123456789ABCDEF".toList.map ch).toArray, rfl⟩

/-- `hex[c >> 4]`. -/
def hexHigh (c : UInt8) : UInt8 := hexTable.get ⟨(c >>> 4).toNat, Hexadecimal.high_lt c⟩

/-- `hex[c & 0xf]`. -/
def hexLow (c : UInt8) : UInt8 := hexTable.get ⟨(c &&& 0xf).toNat, Hexadecimal.low_lt c⟩

/-- The loop of `dl_escape_uri` that counts. -/
def escapeUriCount (type : EscapeType) : List UInt8 → Nat
  | [] => 0
  | c :: src =>
    if type.map.Escapes c then escapeUriCount type src + 1 else escapeUriCount type src

/-- The loop of `dl_escape_uri` that writes. -/
def escapeUri (type : EscapeType) : List UInt8 → List UInt8
  | [] => []
  | c :: src =>
    if type.map.Escapes c then ch '%' :: hexHigh c :: hexLow c :: escapeUri type src
    else c :: escapeUri type src

/-! ## HTML -/

/-- `sizeof` of a string literal. -/
def sizeofLiteral (s : String) : UInt32 := UInt32.ofNat (s.length + 1)

/-- The loop of `dl_escape_html` that counts, in a `uint`. -/
def escapeHtmlCount : List UInt8 → UInt32 → UInt32
  | [], len => len
  | c :: src, len =>
    if c = ch '<' then escapeHtmlCount src (len + (sizeofLiteral "&lt;" - 2))
    else if c = ch '>' then escapeHtmlCount src (len + (sizeofLiteral "&gt;" - 2))
    else if c = ch '&' then escapeHtmlCount src (len + (sizeofLiteral "&amp;" - 2))
    else if c = ch '"' then escapeHtmlCount src (len + (sizeofLiteral "&quot;" - 2))
    else escapeHtmlCount src len

/-- The loop of `dl_escape_html` that writes. -/
def escapeHtml : List UInt8 → List UInt8
  | [] => []
  | c :: src =>
    if c = ch '<' then ch '&' :: ch 'l' :: ch 't' :: ch ';' :: escapeHtml src
    else if c = ch '>' then ch '&' :: ch 'g' :: ch 't' :: ch ';' :: escapeHtml src
    else if c = ch '&' then ch '&' :: ch 'a' :: ch 'm' :: ch 'p' :: ch ';' :: escapeHtml src
    else if c = ch '"' then
      ch '&' :: ch 'q' :: ch 'u' :: ch 'o' :: ch 't' :: ch ';' :: escapeHtml src
    else c :: escapeHtml src

/-! ## JSON -/

/-- The loop of `dl_escape_json` that counts, in a `uint`. -/
def escapeJsonCount : List UInt8 → UInt32 → UInt32
  | [], len => len
  | c :: src, len =>
    if c = ch '\\' ∨ c = ch '"' then escapeJsonCount src (len + 1)
    else if c ≤ 0x1f then
      if c = 10 ∨ c = 13 ∨ c = 9 ∨ c = 8 ∨ c = 12 then escapeJsonCount src (len + 1)
      else escapeJsonCount src (len + (sizeofLiteral "\\u001F" - 2))
    else escapeJsonCount src len

/-- The last hexadecimal digit that `dl_escape_json` writes. -/
def jsonDigit (c : UInt8) : UInt8 := if c < 10 then ch '0' + c else ch 'A' + c - 10

/-- What `dl_escape_json` writes behind the backslash for a byte below 32. -/
def escapeControl (c : UInt8) : List UInt8 :=
  if c = 10 then [ch 'n']
  else if c = 13 then [ch 'r']
  else if c = 9 then [ch 't']
  else if c = 8 then [ch 'b']
  else if c = 12 then [ch 'f']
  else [ch 'u', ch '0', ch '0', ch '0' + (c >>> 4), jsonDigit (c &&& 0xf)]

/-- The loop of `dl_escape_json` that writes. -/
def escapeJson : List UInt8 → List UInt8
  | [] => []
  | c :: src =>
    if 0x1f < c then
      if c = ch '\\' ∨ c = ch '"' then ch '\\' :: c :: escapeJson src
      else c :: escapeJson src
    else ch '\\' :: (escapeControl c ++ escapeJson src)

/-! ## Counting and writing -/

variable {src : List UInt8} {c : UInt8}

theorem length_escapeUri (type : EscapeType) (src : List UInt8) :
    (escapeUri type src).length = src.length + 2 * escapeUriCount type src := by
  induction src with
  | nil => rfl
  | cons c src ih =>
    rw [escapeUri, escapeUriCount]
    split_ifs
    · simp only [List.length_cons, ih]
      omega
    · simp only [List.length_cons, ih]
      omega

/-- A loop that counts in a `uint` what a loop writes beyond one byte for each byte. -/
structure Counts (count : List UInt8 → UInt32 → UInt32) (write : List UInt8 → List UInt8) :
    Prop where
  /-- Nothing is left to count. -/
  count_nil : ∀ len, count [] len = len
  /-- The count of a byte is added. -/
  count_cons : ∀ c src len, count (c :: src) len = count src (len + count [c] 0)
  /-- Nothing is left to write. -/
  write_nil : write [] = []
  /-- The bytes for one byte are written. -/
  write_cons : ∀ c src, write (c :: src) = write [c] ++ write src
  /-- They are as many as the count says. -/
  length : ∀ c, (write [c]).length = 1 + (count [c] 0).toNat

namespace Counts

variable {count : List UInt8 → UInt32 → UInt32} {write : List UInt8 → List UInt8}

theorem le_length (h : Counts count write) (src : List UInt8) :
    src.length ≤ (write src).length := by
  induction src with
  | nil => exact Nat.zero_le _
  | cons c src ih =>
    rw [h.write_cons, List.length_append, h.length, List.length_cons]
    omega

theorem count_mod (h : Counts count write) (src : List UInt8) (len : UInt32) :
    ((count src len).toNat + src.length) % 2 ^ 32 =
      (len.toNat + (write src).length) % 2 ^ 32 := by
  induction src generalizing len with
  | nil => rw [h.count_nil, h.write_nil]
  | cons c src ih =>
    have hlen := ih (len + count [c] 0)
    rw [UInt32.toNat_add] at hlen
    rw [h.count_cons, h.write_cons, List.length_append, h.length, List.length_cons]
    omega

/-- The size and the count are the number of bytes that are written. -/
theorem length_eq (h : Counts count write) (src : List UInt8)
    (hlt : (write src).length < src.length + 2 ^ 32) :
    (write src).length = src.length + (count src 0).toNat := by
  have hle := h.le_length src
  have hmod := h.count_mod src 0
  have hcount := (count src 0).toNat_lt
  rw [UInt32.toNat_zero] at hmod
  omega

end Counts

theorem counts_escapeHtml : Counts escapeHtmlCount escapeHtml where
  count_nil _ := rfl
  count_cons c src len := by
    rw [escapeHtmlCount, escapeHtmlCount]
    split_ifs
    all_goals simp only [escapeHtmlCount, UInt32.zero_add, UInt32.add_zero]
  write_nil := rfl
  write_cons c src := by
    rw [escapeHtml, escapeHtml]
    split_ifs
    all_goals rfl
  length c := by
    rw [escapeHtml, escapeHtmlCount]
    split_ifs
    all_goals rfl

theorem length_escapeControl (c : UInt8) : (escapeControl c).length =
    1 + if c = 10 ∨ c = 13 ∨ c = 9 ∨ c = 8 ∨ c = 12 then 0 else 4 := by
  by_cases hshort : c = 10 ∨ c = 13 ∨ c = 9 ∨ c = 8 ∨ c = 12
  · rw [if_pos hshort]
    rcases hshort with rfl | rfl | rfl | rfl | rfl
    all_goals rfl
  · rw [if_neg hshort]
    simp only [not_or] at hshort
    obtain ⟨hn, hr, ht, hb, hf⟩ := hshort
    rw [escapeControl, if_neg hn, if_neg hr, if_neg ht, if_neg hb, if_neg hf]
    rfl

theorem counts_escapeJson : Counts escapeJsonCount escapeJson where
  count_nil _ := rfl
  count_cons c src len := by
    rw [escapeJsonCount, escapeJsonCount]
    split_ifs
    all_goals simp only [escapeJsonCount, UInt32.zero_add, UInt32.add_zero]
  write_nil := rfl
  write_cons c src := by
    rw [escapeJson, escapeJson]
    split_ifs
    · rfl
    · rfl
    · rw [escapeJson, List.append_nil]
      rfl
  length c := by
    rw [escapeJson, escapeJsonCount]
    by_cases hc : 0x1f < c
    · rw [if_pos hc, if_neg (UInt8.not_le.mpr hc)]
      split_ifs
      · rfl
      · rfl
    · have hle : c ≤ 0x1f := UInt8.not_lt.mp hc
      have hquoted : ¬ (c = ch '\\' ∨ c = ch '"') := by
        rintro (rfl | rfl)
        · exact absurd hle (by decide)
        · exact absurd hle (by decide)
      rw [if_neg hc, if_neg hquoted, if_pos hle, List.length_cons, List.length_append,
        length_escapeControl]
      split_ifs
      · rfl
      · rfl

/-- The writing loops write as many bytes as the counting loops say. -/
theorem escape_sizes (src : List UInt8) (hhtml : (escapeHtml src).length < src.length + 2 ^ 32)
    (hjson : (escapeJson src).length < src.length + 2 ^ 32) :
    (escapeHtml src).length = src.length + (escapeHtmlCount src 0).toNat ∧
      (escapeJson src).length = src.length + (escapeJsonCount src 0).toNat ∧
      ∀ type, (escapeUri type src).length = src.length + 2 * escapeUriCount type src :=
  ⟨counts_escapeHtml.length_eq src hhtml, counts_escapeJson.length_eq src hjson,
    fun type ↦ length_escapeUri type src⟩

/-- A character that each function escapes. -/
theorem escape_sizes_amp : (escapeHtml [38, 10]).length = 6 ∧ (escapeJson [38, 10]).length = 3 := by
  obtain ⟨hhtml, hjson, -⟩ := escape_sizes [38, 10] (by decide) (by decide)
  exact ⟨hhtml, hjson⟩

end Dlbase.DlString
