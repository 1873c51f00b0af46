import Dlbase.Lib.JsonString
import Dlbase.String.Escape

/-!
# Escaped JSON strings

What `dl_escape_json` writes is the text of a JSON string that stands for the bytes it has read,
whatever they are: bytes from 128 on are not looked at.
-/

namespace Dlbase.DlString

open Cmem

variable {c : UInt8} {src : List UInt8}

/-! ## Control characters -/

/-- The letters of the short escapes. -/
theorem escapeControl_short (h : c = 10 ∨ c = 13 ∨ c = 9 ∨ c = 8 ∨ c = 12) :
    ∃ e, escapeControl c = [e] ∧ JsonString.short e = some c := by
  rcases h with rfl | rfl | rfl | rfl | rfl
  · exact ⟨ch 'n', rfl, rfl⟩
  · exact ⟨ch 'r', rfl, rfl⟩
  · exact ⟨ch 't', rfl, rfl⟩
  · exact ⟨ch 'b', rfl, rfl⟩
  · exact ⟨ch 'f', rfl, rfl⟩

theorem escapeControl_long (h : ¬ (c = 10 ∨ c = 13 ∨ c = 9 ∨ c = 8 ∨ c = 12)) :
    escapeControl c =
      [ch 'u', ch '0', ch '0', ch '0' + (c >>> 4), jsonDigit (c &&& 0xf)] := by
  simp only [not_or] at h
  obtain ⟨hn, hr, ht, hb, hf⟩ := h
  rw [escapeControl, if_neg hn, if_neg hr, if_neg ht, if_neg hb, if_neg hf]

/-- A control character is one of the first 32. -/
theorem exists_fin_of_le (h : c ≤ 0x1f) : ∃ i : Fin 32, c = UInt8.ofNat i := by
  simp only [UInt8.le_iff_toNat_le, UInt8.reduceToNat] at h
  exact ⟨⟨c.toNat, by omega⟩, UInt8.ofNat_toNat.symm⟩

/-- The digits of a control character. -/
theorem number_control (h : c ≤ 0x1f) :
    Hexadecimal.number [ch '0', ch '0', ch '0' + (c >>> 4), jsonDigit (c &&& 0xf)] =
      some c.toNat := by
  obtain ⟨i, rfl⟩ := exists_fin_of_le h
  revert i
  decide

theorem encode_control (h : c ≤ 0x1f) : JsonString.encode c.toNat = [c] := by
  obtain ⟨i, rfl⟩ := exists_fin_of_le h
  revert i
  decide

/-! ## The text -/

/-- A byte that is not a control character. -/
theorem escapeJson_cases (src : List UInt8) (h : 0x1f < c) :
    JsonString.short c = some c ∧ escapeJson (c :: src) = ch '\\' :: c :: escapeJson src ∨
      JsonString.IsPlain c ∧ escapeJson (c :: src) = c :: escapeJson src := by
  rw [escapeJson, if_pos h]
  by_cases hquoted : c = ch '\\' ∨ c = ch '"'
  · rw [if_pos hquoted]
    refine .inl ⟨?_, rfl⟩
    rcases hquoted with rfl | rfl
    · rfl
    · rfl
  · rw [if_neg hquoted]
    simp only [not_or] at hquoted
    exact .inr ⟨⟨UInt8.le_iff_toNat_le.mpr (UInt8.lt_iff_toNat_lt.mp h), hquoted.2, hquoted.1⟩, rfl⟩

/-- What is written is the text of a string, and it stands for what has been read. -/
theorem text_escapeJson (src : List UInt8) :
    JsonString.Text (escapeJson src) ∧ JsonString.decode (escapeJson src) = some src := by
  induction src with
  | nil => exact ⟨.nil, rfl⟩
  | cons c src ih =>
    obtain ⟨htext, hdecode⟩ := ih
    by_cases hc : 0x1f < c
    · rcases escapeJson_cases src hc with ⟨hshort, heq⟩ | ⟨hplain, heq⟩
      · rw [heq]
        refine ⟨.short (Option.isSome_of_eq_some hshort) htext, ?_⟩
        refine (JsonString.decode_short hshort).trans ?_
        rw [hdecode, Option.map_some]
      · rw [heq]
        refine ⟨.plain hplain htext, ?_⟩
        rw [JsonString.decode_plain hplain, hdecode, Option.map_some]
    · have hle : c ≤ 0x1f := UInt8.not_lt.mp hc
      rw [escapeJson, if_neg hc]
      by_cases hs : c = 10 ∨ c = 13 ∨ c = 9 ∨ c = 8 ∨ c = 12
      · obtain ⟨e, he, hshort⟩ := escapeControl_short hs
        rw [he, List.singleton_append]
        refine ⟨.short (Option.isSome_of_eq_some hshort) htext, ?_⟩
        refine (JsonString.decode_short hshort).trans ?_
        rw [hdecode, Option.map_some]
      · have hnumber := number_control hle
        have hlt : c.toNat < 0xd800 := Nat.lt_of_lt_of_le c.toNat_lt (by decide)
        rw [escapeControl_long hs]
        simp only [List.cons_append, List.nil_append]
        refine ⟨.unicode_of_number hnumber htext, ?_⟩
        refine (JsonString.decode_unicode hnumber hlt).trans ?_
        rw [hdecode, encode_control hle, Option.map_some, List.singleton_append]

/-- The output of `dl_escape_json` contains no control character, is the text of a JSON string, and
stands for the bytes of the input. -/
theorem json_faithful (src : List UInt8) :
    (∀ c ∈ escapeJson src, 0x20 ≤ c) ∧ JsonString.Text (escapeJson src) ∧
      JsonString.decode (escapeJson src) = some src := by
  obtain ⟨htext, hdecode⟩ := text_escapeJson src
  exact ⟨htext.le, htext, hdecode⟩

end Dlbase.DlString
