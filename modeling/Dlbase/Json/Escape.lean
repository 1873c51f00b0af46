import Dlbase.Json.Lexer
import Dlbase.Lib.JsonPiece

/-!
# `json_escape` and `json_unescape`

A text is the list of its characters without the null character at its end.  What `json_unescape`
writes goes into a buffer that is as large as its argument; it reads behind the end of its argument
if that ends within an escape.
-/

namespace Dlbase.Json

open Cmem
open Rcstring (Adds)

/-! ## Escaping -/

/-- `sprintf(buffer, "\\u%4.4x", c)`, for a character below `\x20`. -/
def unicodeEscape (c : UInt8) : List UInt8 :=
  let digit (n : UInt8) : UInt8 := if n < 10 then ch '0' + n else ch 'a' + (n - 10)
  [ch '\\', ch 'u', ch '0', ch '0', digit (c >>> 4), digit (c &&& 0xf)]

/-- What the loop of `json_escape` does with a character. -/
def escapeChar (output : Rcstring) (c : UInt8) : Exec Rcstring :=
  if c = ch '\\' then output.catcs [ch '\\', ch '\\'] 2
  else if c = ch '"' then output.catcs [ch '\\', ch '"'] 2
  else if c = ch '/' then output.catcs [ch '\\', ch '/'] 2
  else if c = 0x08 then output.catcs [ch '\\', ch 'b'] 2
  else if c = 0x0c then output.catcs [ch '\\', ch 'f'] 2
  else if c = 0x0a then output.catcs [ch '\\', ch 'n'] 2
  else if c = 0x0d then output.catcs [ch '\\', ch 'r'] 2
  else if c = 0x09 then output.catcs [ch '\\', ch 't'] 2
  else if 0x80 ≤ c then output.catc c
  else if c < 0x20 then output.catcs (unicodeEscape c) 6
  else output.catc c

/-- The loop of `json_escape`. -/
def escapeLoop (output : Rcstring) : List UInt8 → Exec Rcstring
  | [] => .ok output
  | c :: text => do
    let output ← escapeChar output c
    escapeLoop output text

/-- `json_escape`. -/
def jsonEscape (text : List UInt8) : Exec (List UInt8) := do
  let output ← escapeLoop (Rcstring.create text.length) text
  output.unwrap

/-! ## Unescaping -/

/-- `isspace`. -/
def IsSpace (c : UInt8) : Prop := c = 0x20 ∨ 0x09 ≤ c ∧ c ≤ 0x0d

instance (c : UInt8) : Decidable (IsSpace c) := inferInstanceAs (Decidable (_ ∨ _))

/-- The number that `strtol` reads behind the sign, for the base 16. -/
def strtolDigits (l : List UInt8) : Int :=
  (Hexadecimal.number (l.takeWhile fun c ↦ (Hexadecimal.digit c).isSome)).getD 0

/-- What `strtol` reads behind the sign: a prefix may be left out in front of a digit. -/
def strtolPrefix : List UInt8 → Int
  | z :: x :: d :: l =>
    if z = ch '0' ∧ (x = ch 'x' ∨ x = ch 'X') ∧ IsHex d then strtolDigits (d :: l)
    else strtolDigits (z :: x :: d :: l)
  | l => strtolDigits l

/-- `strtol(buf, NULL, 16)`. -/
def strtol16 (buf : List UInt8) : Int :=
  match buf.dropWhile (IsSpace ·) with
  | [] => 0
  | c :: l =>
    if c = ch '-' then -strtolPrefix l
    else if c = ch '+' then strtolPrefix l
    else strtolPrefix (c :: l)

/-- `result[w++] = c`, for all of the characters. -/
def store (size : Nat) (result : List UInt8) : List UInt8 → Exec (List UInt8)
  | [] => .ok result
  | c :: l => if result.length < size then store size (result ++ [c]) l else Exec.undef

/-- A byte with the six lowest bits of `unicode`. -/
def sixBits (unicode : Int) : UInt8 := 0x80 + UInt8.ofNat (unicode % 64).toNat

/-- The encoding of a number that is no surrogate. -/
def encodeUnicode (unicode : Int) : List UInt8 :=
  if unicode < 0x80 then [UInt8.ofNat (unicode % 256).toNat]
  else if unicode < 0x800 then
    [0xc0 + UInt8.ofNat (unicode / 64 % 32).toNat, sixBits unicode]
  else if unicode < 0x10000 then
    [0xe0 + UInt8.ofNat (unicode / 4096 % 16).toNat, sixBits (unicode / 64), sixBits unicode]
  else []

/-- The encoding of two surrogates. -/
def encodeSurrogates (high low : Int) : List UInt8 :=
  let unicode := (high - 0xd800) * 1024 + (low - 0xdc00) + 0x10000
  [0xf0 + UInt8.ofNat (unicode / 262144 % 8).toNat, sixBits (unicode / 4096),
    sixBits (unicode / 64), sixBits unicode]

/-- What a letter behind a backslash stands for. -/
def unescapeLetter (e : UInt8) : Option UInt8 :=
  if e = ch '"' ∨ e = ch '\\' ∨ e = ch '/' then some e
  else if e = ch 'b' then some 0x08
  else if e = ch 'f' then some 0x0c
  else if e = ch 'n' then some 0x0a
  else if e = ch 'r' then some 0x0d
  else if e = ch 't' then some 0x09
  else none

/-- The loop of `json_unescape`, with a buffer of the given size. -/
def unescapeLoop (size : Nat) : List UInt8 → List UInt8 → Exec (List UInt8)
  | [], result => do
    let _ ← store size result [0]
    pure result
  | c :: text, result =>
    if c ≠ ch '\\' then do
      let result ← store size result [c]
      unescapeLoop size text result
    else
      match text with
      | [] => Exec.undef
      | e :: text =>
        match unescapeLetter e with
        | some b => do
          let result ← store size result [b]
          unescapeLoop size text result
        | none =>
        if e = ch 'u' then
          match text with
          | a :: b :: c :: d :: text =>
            let unicode := strtol16 [a, b, c, d]
            if unicode < 0xd800 ∨ 0xdbff < unicode then do
              let result ← store size result (encodeUnicode unicode)
              unescapeLoop size text result
            else
              match text with
              -- the null character is skipped, and what is behind it is read
              | [] => Exec.undef
              | x :: text =>
                if x ≠ ch '\\' then unescapeLoop size text result
                else
                  match text with
                  | [] => Exec.undef
                  | y :: text =>
                    if y ≠ ch 'u' then unescapeLoop size text result
                    else
                      match text with
                      | a :: b :: c :: d :: text => do
                        let result ←
                          store size result (encodeSurrogates unicode (strtol16 [a, b, c, d]))
                        unescapeLoop size text result
                      | _ => Exec.undef
          | _ => Exec.undef
        else Exec.undef

/-- `json_unescape`. -/
def jsonUnescape (text : List UInt8) : Exec (List UInt8) :=
  unescapeLoop (text.length + 1) text []

variable {text t l w result : List UInt8} {r : Rcstring} {a b c d e : UInt8} {n size : Nat}

/-! ## Escaped texts -/

/-- What is written for a character. -/
def escapeByte (c : UInt8) : List UInt8 :=
  if c = ch '\\' ∨ c = ch '"' ∨ c = ch '/' then [ch '\\', c]
  else if c = 0x08 then [ch '\\', ch 'b']
  else if c = 0x0c then [ch '\\', ch 'f']
  else if c = 0x0a then [ch '\\', ch 'n']
  else if c = 0x0d then [ch '\\', ch 'r']
  else if c = 0x09 then [ch '\\', ch 't']
  else if c < 0x20 then unicodeEscape c
  else [c]

/-- What is written for a text. -/
def escaped (text : List UInt8) : List UInt8 := text.flatMap escapeByte

theorem escapeByte_eq (c : UInt8) : escapeByte c =
    if c = ch '\\' then [ch '\\', ch '\\']
    else if c = ch '"' then [ch '\\', ch '"']
    else if c = ch '/' then [ch '\\', ch '/']
    else if c = 0x08 then [ch '\\', ch 'b']
    else if c = 0x0c then [ch '\\', ch 'f']
    else if c = 0x0a then [ch '\\', ch 'n']
    else if c = 0x0d then [ch '\\', ch 'r']
    else if c = 0x09 then [ch '\\', ch 't']
    else if 0x80 ≤ c then [c]
    else if c < 0x20 then unicodeEscape c
    else [c] := by
  unfold escapeByte
  by_cases h : c = ch '\\' ∨ c = ch '"' ∨ c = ch '/'
  · rw [if_pos h]
    rcases h with rfl | rfl | rfl <;> rfl
  · rw [if_neg h]
    obtain ⟨h₁, h₂, h₃⟩ : c ≠ ch '\\' ∧ c ≠ ch '"' ∧ c ≠ ch '/' := by
      simpa only [not_or] using h
    rw [if_neg h₁, if_neg h₂, if_neg h₃]
    by_cases hbyte : 0x80 ≤ c
    · have hlarge : ¬ c < 0x20 := by
        rw [UInt8.not_lt]
        exact UInt8.le_trans (by decide) hbyte
      rw [if_neg hlarge, if_pos hbyte]
    · rw [if_neg hbyte]

theorem escapeChar_adds (h : r.Holds w) (c : UInt8) : Adds w (escapeChar r c) (escapeByte c) := by
  rw [escapeByte_eq]
  have hcatcs : ∀ u : List UInt8, Adds w (r.catcs u u.length) u := h.catcs
  exact (hcatcs _).ite <| (hcatcs _).ite <| (hcatcs _).ite <| (hcatcs _).ite <| (hcatcs _).ite <|
    (hcatcs _).ite <| (hcatcs _).ite <| (hcatcs _).ite <| .ite (h.catc c) <|
    .ite (hcatcs (unicodeEscape c)) (h.catc c)

/-- The loop writes the escaped text. -/
theorem escapeLoop_adds (h : r.Holds w) (text : List UInt8) :
    Adds w (escapeLoop r text) (escaped text) := by
  induction text generalizing r w with
  | nil => exact h.adds_nil
  | cons c text ih => exact (escapeChar_adds h c).bind fun r hr ↦ ih hr

/-! ### What the escaped text stands for -/

/-- A control character without a letter of its own. -/
theorem unicodeEscape_control (h : c < 0x20) : ∃ a b, unicodeEscape c = [92, 117, 48, 48, a, b] ∧
    Hexadecimal.number [48, 48, a, b] = some c.toNat ∧ JsonString.encode c.toNat = [c] := by
  have hfin : ∃ i : Fin 32, c = UInt8.ofNat i := by
    exact ⟨⟨c.toNat, UInt8.lt_iff_toNat_lt.mp h⟩, UInt8.ofNat_toNat.symm⟩
  obtain ⟨i, rfl⟩ := hfin
  refine ⟨_, _, rfl, ?_⟩
  revert i
  decide

/-- A character is written as it is, as a short escape or with its number. -/
theorem escapeByte_cases (c : UInt8) : (∃ e, JsonString.short e = some c ∧ escapeByte c = [92, e]) ∨
    (JsonString.IsPlain c ∧ escapeByte c = [c]) ∨ (c < 0x20 ∧ escapeByte c = unicodeEscape c) := by
  unfold escapeByte
  by_cases hself : c = ch '\\' ∨ c = ch '"' ∨ c = ch '/'
  · rw [if_pos hself]
    refine .inl ⟨c, ?_, rfl⟩
    rcases hself with rfl | rfl | rfl <;> rfl
  rw [if_neg hself]
  by_cases hb : c = 0x08
  · exact .inl ⟨ch 'b', hb ▸ rfl, if_pos hb⟩
  rw [if_neg hb]
  by_cases hf : c = 0x0c
  · exact .inl ⟨ch 'f', hf ▸ rfl, if_pos hf⟩
  rw [if_neg hf]
  by_cases hn : c = 0x0a
  · exact .inl ⟨ch 'n', hn ▸ rfl, if_pos hn⟩
  rw [if_neg hn]
  by_cases hr : c = 0x0d
  · exact .inl ⟨ch 'r', hr ▸ rfl, if_pos hr⟩
  rw [if_neg hr]
  by_cases ht : c = 0x09
  · exact .inl ⟨ch 't', ht ▸ rfl, if_pos ht⟩
  rw [if_neg ht]
  by_cases hc : c < 0x20
  · exact .inr (.inr ⟨hc, if_pos hc⟩)
  · rw [if_neg hc]
    refine .inr (.inl ⟨⟨UInt8.not_lt.mp hc, ?_, ?_⟩, rfl⟩)
    · exact fun h ↦ hself (.inr (.inl h))
    · exact fun h ↦ hself (.inl h)

/-- What is written is the text of a string, and it stands for what has been read. -/
theorem escaped_text (text : List UInt8) :
    JsonString.Text (escaped text) ∧ JsonString.decode (escaped text) = some text := by
  induction text with
  | nil => exact ⟨.nil, rfl⟩
  | cons c text ih =>
    obtain ⟨htext, hdecode⟩ := ih
    have heq : escaped (c :: text) = escapeByte c ++ escaped text := List.flatMap_cons
    rw [heq]
    rcases escapeByte_cases c with ⟨e, he, hb⟩ | ⟨hplain, hb⟩ | ⟨hc, hb⟩
    · rw [hb, List.cons_append, List.singleton_append]
      refine ⟨.short (Option.isSome_of_eq_some he) htext, ?_⟩
      refine (JsonString.decode_short he).trans ?_
      rw [hdecode, Option.map_some]
    · rw [hb, List.singleton_append]
      refine ⟨.plain hplain htext, ?_⟩
      refine (JsonString.decode_plain hplain).trans ?_
      rw [hdecode, Option.map_some]
    · obtain ⟨a, b, hu, hnumber, hencode⟩ := unicodeEscape_control hc
      have hlt : c.toNat < 0xd800 := Nat.lt_of_lt_of_le c.toNat_lt (by decide)
      rw [hb, hu]
      simp only [List.cons_append, List.nil_append]
      refine ⟨.unicode_of_number hnumber htext, ?_⟩
      refine (JsonString.decode_unicode hnumber hlt).trans ?_
      rw [hdecode, hencode, Option.map_some, List.singleton_append]

/-- `json_escape` returns the escaped text. -/
theorem jsonEscape_eq (text : List UInt8) : jsonEscape text = .ok (escaped text) := by
  obtain ⟨r, hloop, hr⟩ := escapeLoop_adds (Rcstring.holds_create text.length) text
  have hzero : 0 ∉ escaped text := fun h ↦ absurd ((escaped_text text).1.le 0 h) (by decide)
  rw [jsonEscape, hloop, Exec.ok_bind]
  exact hr.unwrap hzero

/-! ## Unescaped texts -/

theorem store_eq (h : result.length + l.length ≤ size) :
    store size result l = .ok (result ++ l) := by
  induction l generalizing result with
  | nil => exact congrArg Except.ok (List.append_nil result).symm
  | cons c l ih =>
    rw [List.length_cons] at h
    rw [store, if_pos (by omega), ih (by rw [List.length_append, List.length_singleton]; omega),
      List.append_assoc]
    rfl

/-! ### Numbers -/

theorem digit_not_space (h : Hexadecimal.IsDigit c) : ¬ IsSpace c ∧ c ≠ ch '-' ∧ c ≠ ch '+' ∧
    c ≠ ch 'x' ∧ c ≠ ch 'X' := by
  have hge := JsonString.le_of_isDigit h
  have hne : ∀ d, ¬ Hexadecimal.IsDigit d → c ≠ d := fun d hd hc ↦ hd (hc ▸ h)
  refine ⟨?_, hne _ (by decide), hne _ (by decide), hne _ (by decide), hne _ (by decide)⟩
  rintro (rfl | ⟨-, hle⟩)
  · exact absurd h (by decide)
  · exact absurd (UInt8.le_trans hge hle) (by decide)

/-- Four digits are read as a number. -/
theorem strtol16_eq (h : Hexadecimal.number [a, b, c, d] = some n) : strtol16 [a, b, c, d] = n := by
  have hdigits := Hexadecimal.isDigit_of_number h
  obtain ⟨hspace, hminus, hplus, -, -⟩ := digit_not_space (hdigits a List.mem_cons_self)
  obtain ⟨-, -, -, hx, hX⟩ :=
    digit_not_space (hdigits b (List.mem_cons_of_mem _ List.mem_cons_self))
  have hdrop : [a, b, c, d].dropWhile (IsSpace ·) = [a, b, c, d] :=
    List.dropWhile_cons_of_neg (by simpa using hspace)
  have htake : [a, b, c, d].takeWhile (fun c ↦ (Hexadecimal.digit c).isSome) = [a, b, c, d] :=
    List.takeWhile_eq_self_iff.mpr hdigits
  rw [strtol16, hdrop]
  dsimp only
  rw [if_neg hminus, if_neg hplus, strtolPrefix, if_neg fun h ↦ h.2.1.elim hx hX, strtolDigits,
    htake, h]
  rfl

/-! ### Steps of the loop -/

theorem unescapeLoop_plain (h : c ≠ ch '\\') : unescapeLoop size (c :: t) result =
    (store size result [c] >>= fun result ↦ unescapeLoop size t result) := by
  rw [unescapeLoop.eq_def]
  exact if_pos h

theorem unescapeLetter_eq (e : UInt8) : unescapeLetter e = JsonString.short e := by
  unfold unescapeLetter JsonString.short
  by_cases hquote : e = ch '"'
  · subst hquote
    rfl
  by_cases hslash : e = ch '\\'
  · subst hslash
    rfl
  by_cases h : e = ch '/'
  · subst h
    rfl
  have hself : ¬ (e = ch '"' ∨ e = ch '\\' ∨ e = ch '/') := by simp [hquote, hslash, h]
  exact (if_neg hself).trans ((if_neg hquote).trans ((if_neg hslash).trans (if_neg h))).symm

theorem unescapeLoop_short (h : JsonString.short e = some b) :
    unescapeLoop size (ch '\\' :: e :: t) result =
      (store size result [b] >>= fun result ↦ unescapeLoop size t result) := by
  rw [unescapeLoop.eq_def]
  dsimp only
  rw [if_neg fun h ↦ h rfl, unescapeLetter_eq, h]

theorem unescapeLoop_unicode (hn : Hexadecimal.number [a, b, c, d] = some n)
    (h : n < 0xd800 ∨ 0xdbff < n) :
    unescapeLoop size (ch '\\' :: ch 'u' :: a :: b :: c :: d :: t) result =
      (store size result (encodeUnicode n) >>= fun result ↦ unescapeLoop size t result) := by
  rw [unescapeLoop.eq_def]
  dsimp only
  rw [if_neg fun h ↦ h rfl, show unescapeLetter (ch 'u') = none from rfl]
  dsimp only
  rw [if_pos rfl, strtol16_eq hn, if_pos (by omega)]

/-- Behind a high surrogate. -/
theorem unescapeLoop_high (hn : Hexadecimal.number [a, b, c, d] = some n)
    (h : 0xd800 ≤ n ∧ n < 0xdc00) :
    unescapeLoop size (ch '\\' :: ch 'u' :: a :: b :: c :: d :: t) result =
      match t with
      | [] => Exec.undef
      | x :: text =>
        if x ≠ ch '\\' then unescapeLoop size text result
        else
          match text with
          | [] => Exec.undef
          | y :: text =>
            if y ≠ ch 'u' then unescapeLoop size text result
            else
              match text with
              | a :: b :: c :: d :: text => do
                let result ← store size result (encodeSurrogates n (strtol16 [a, b, c, d]))
                unescapeLoop size text result
              | _ => Exec.undef := by
  rw [unescapeLoop.eq_def]
  dsimp only
  rw [if_neg fun h ↦ h rfl, show unescapeLetter (ch 'u') = none from rfl]
  dsimp only
  rw [if_pos rfl, strtol16_eq hn, if_neg (by omega)]

/-! ### Encodings -/

theorem add_ofNat (k m : Nat) : UInt8.ofNat k + UInt8.ofNat m = UInt8.ofNat (m + k) := by
  rw [UInt8.ofNat_add, UInt8.add_comm]

theorem sixBits_eq {i : Int} (h : i = n) : sixBits i = UInt8.ofNat (n % 64 + 0x80) := by
  rw [sixBits, h, show ((n : Int) % 64).toNat = n % 64 by omega]
  exact add_ofNat 0x80 _

/-- A number of four digits that is no surrogate. -/
theorem encodeUnicode_eq (h : n < 0xd800 ∨ 0xe000 ≤ n ∧ n < 0x10000) :
    encodeUnicode n = JsonString.encode n := by
  rw [JsonString.encode_eq (h.imp_right fun h ↦ ⟨h.1, by omega⟩), encodeUnicode]
  by_cases hone : n < 0x80
  · rw [if_pos hone, if_pos (by omega), show ((n : Int) % 256).toNat = n by omega]
  rw [if_neg hone, if_neg (by omega)]
  by_cases htwo : n < 0x800
  · rw [if_pos htwo, if_pos (by omega), sixBits_eq rfl,
      show ((n : Int) / 64 % 32).toNat = n / 64 % 32 by omega]
    exact congrArg (· :: _) (add_ofNat 0xc0 _)
  · rw [if_neg htwo, if_neg (by omega), if_pos (by omega), if_pos (by omega), sixBits_eq rfl,
      sixBits_eq (n := n / 64) (by omega),
      show ((n : Int) / 4096 % 16).toNat = n / 4096 % 16 by omega]
    exact congrArg (· :: _) (add_ofNat 0xe0 _)

/-- A pair of surrogates. -/
theorem encodeSurrogates_eq {m : Nat} (hn : 0xd800 ≤ n ∧ n < 0xdc00)
    (hm : 0xdc00 ≤ m ∧ m < 0xe000) :
    encodeSurrogates n m = JsonString.encode (0x10000 + (n - 0xd800) * 0x400 + (m - 0xdc00)) := by
  obtain ⟨k, hk⟩ : ∃ k, k = 0x10000 + (n - 0xd800) * 0x400 + (m - 0xdc00) := ⟨_, rfl⟩
  have hcast : ((n : Int) - 0xd800) * 1024 + ((m : Int) - 0xdc00) + 0x10000 = (k : Int) := by omega
  rw [← hk, JsonString.encode_eq (by omega), if_neg (by omega), if_neg (by omega),
    if_neg (by omega), encodeSurrogates]
  simp only [hcast]
  rw [sixBits_eq rfl, sixBits_eq (n := k / 4096) (by omega), sixBits_eq (n := k / 64) (by omega),
    show ((k : Int) / 262144 % 8).toNat = k / 262144 % 8 by omega]
  exact congrArg (· :: _) (add_ofNat 0xf0 _)

theorem length_encodeUnicode_le (n : Int) : (encodeUnicode n).length ≤ 3 := by
  unfold encodeUnicode
  split_ifs
  all_goals exact Nat.le_of_ble_eq_true rfl

/-! ### The text of a string -/

/-- What becomes of the pieces of a text: either the whole text is read and `l` is written, which is
what the text stands for if it stands for something, or the end of the text is missed. -/
def Unescapes (size : Nat) (ps : List JsonString.Piece) (result : List UInt8) : Prop :=
  (∃ l, l.length ≤ (JsonString.pieces ps).length ∧ ¬ Odd (JsonString.trailing ps) ∧
      unescapeLoop size (JsonString.pieces ps) result = .ok (result ++ l) ∧
      ∀ s, JsonString.decode (JsonString.pieces ps) = some s → s = l) ∨
    (unescapeLoop size (JsonString.pieces ps) result = Exec.undef ∧ Odd (JsonString.trailing ps) ∧
      JsonString.decode (JsonString.pieces ps) = none)

variable {ps qs : List JsonString.Piece}

/-- One or two more pieces in front, which are written as `u`. -/
theorem Unescapes.more {u : List UInt8}
    (hsize : result.length + (JsonString.pieces qs).length < size)
    (hodd : Odd (JsonString.trailing qs) ↔ Odd (JsonString.trailing ps))
    (hlength : u.length + (JsonString.pieces ps).length ≤ (JsonString.pieces qs).length)
    (hloop : unescapeLoop size (JsonString.pieces qs) result =
      (store size result u >>= fun result ↦ unescapeLoop size (JsonString.pieces ps) result))
    (hdecode : ∀ s, JsonString.decode (JsonString.pieces qs) = some s →
      ∃ s', JsonString.decode (JsonString.pieces ps) = some s' ∧ s = u ++ s')
    (h : (result ++ u).length + (JsonString.pieces ps).length < size →
      Unescapes size ps (result ++ u)) : Unescapes size qs result := by
  rw [store_eq (by omega), Exec.ok_bind] at hloop
  rw [Unescapes, hloop, hodd]
  rcases h (by rw [List.length_append]; omega) with ⟨l, hl, heven, hrun, hval⟩ | ⟨hrun, hodd, hnone⟩
  · refine .inl ⟨u ++ l, ?_, heven, by rw [hrun, List.append_assoc], fun s hs ↦ ?_⟩
    · rw [List.length_append]
      omega
    · obtain ⟨s', hs', rfl⟩ := hdecode s hs
      rw [hval s' hs']
  · refine .inr ⟨hrun, hodd, Option.eq_none_iff_forall_ne_some.mpr fun s hs ↦ ?_⟩
    obtain ⟨s', hs', -⟩ := hdecode s hs
    rw [hnone] at hs'
    exact absurd hs' nofun

/-- A high surrogate at the end. -/
theorem unescapes_high_nil (hn : Hexadecimal.number [a, b, c, d] = some n)
    (hhigh : 0xd800 ≤ n ∧ n < 0xdc00) : Unescapes size [.unicode a b c d n] result := by
  have hp : (JsonString.Piece.unicode a b c d n).high = true := decide_eq_true hhigh
  refine .inr ⟨unescapeLoop_high hn hhigh, ?_, Option.eq_none_iff_forall_ne_some.mpr fun s hs ↦ ?_⟩
  · rw [JsonString.trailing_singleton hp]
    exact odd_one
  · rcases JsonString.decode_pieces_unicode (List.forall_mem_singleton.mpr hn) hs with
      ⟨hs, -⟩ | ⟨-, _, _, _, _, _, _, hs, -⟩
    exacts [by omega, absurd hs.symm (List.cons_ne_nil _ _)]

/-- A high surrogate takes the next piece away: that is skipped unless it has a number. -/
theorem unescapes_high_cons {q : JsonString.Piece}
    (hsize : result.length + (JsonString.pieces (.unicode a b c d n :: q :: ps)).length < size)
    (hok : ∀ p ∈ JsonString.Piece.unicode a b c d n :: q :: ps, p.Ok)
    (hhigh : 0xd800 ≤ n ∧ n < 0xdc00)
    (h : ∀ result, result.length + (JsonString.pieces ps).length < size →
      Unescapes size ps result) : Unescapes size (.unicode a b c d n :: q :: ps) result := by
  have hp : (JsonString.Piece.unicode a b c d n).high = true := decide_eq_true hhigh
  obtain ⟨hn, hrest⟩ := List.forall_mem_cons.mp hok
  obtain ⟨hq, -⟩ := List.forall_mem_cons.mp hrest
  have hodd := JsonString.odd_trailing_cons_cons hp q ps
  have hloop : unescapeLoop size
      (ch '\\' :: ch 'u' :: a :: b :: c :: d :: JsonString.pieces (q :: ps)) result = _ :=
    unescapeLoop_high hn hhigh
  -- no other piece makes a character of the surrogate
  have hskip : (∀ a b c d m, q ≠ .unicode a b c d m) →
      ∀ s, JsonString.decode (JsonString.pieces (.unicode a b c d n :: q :: ps)) = some s →
        ∃ s', JsonString.decode (JsonString.pieces ps) = some s' ∧ s = [] ++ s' := by
    intro hq s hs
    rcases JsonString.decode_pieces_unicode hok hs with ⟨hs, -⟩ | ⟨-, _, _, _, _, _, _, hs, -⟩
    exacts [by omega, absurd (List.cons.inj hs).1 (hq _ _ _ _ _)]
  have hlength : (JsonString.pieces (.unicode a b c d n :: q :: ps)).length =
      6 + (q.text.length + (JsonString.pieces ps).length) := by
    rw [JsonString.pieces_cons, JsonString.pieces_cons, List.length_append, List.length_append]
    rfl
  cases q with
  | plain x =>
    refine .more (u := []) hsize hodd ?_ (hloop.trans (if_pos hq.2.2)) (hskip nofun) (h _)
    rw [hlength, List.length_nil]
    omega
  | short e b =>
    have hu : e ≠ ch 'u' := by
      rintro rfl
      exact absurd hq nofun
    refine .more (u := []) hsize hodd ?_ (hloop.trans ((if_neg fun h ↦ h rfl).trans (if_pos hu)))
      (hskip nofun) (h _)
    rw [hlength, List.length_nil]
    omega
  | unicode a' b' c' d' m =>
    refine .more (u := encodeSurrogates n (strtol16 [a', b', c', d'])) hsize hodd ?_
      (hloop.trans ((if_neg fun h ↦ h rfl).trans (if_neg fun h ↦ h rfl))) (fun s hs ↦ ?_) (h _)
    · rw [hlength]
      change 4 + _ ≤ 6 + (6 + _)
      omega
    · rcases JsonString.decode_pieces_unicode hok hs with
        ⟨hs, -⟩ | ⟨-, _, _, _, _, _, _, hs, hlow, s', hs', heq⟩
      · omega
      · simp only [List.cons.injEq, JsonString.Piece.unicode.injEq] at hs
        obtain ⟨⟨rfl, rfl, rfl, rfl, rfl⟩, rfl⟩ := hs
        exact ⟨s', hs', by rw [heq, strtol16_eq hq, encodeSurrogates_eq hhigh hlow]⟩

/-- The loop on the pieces of a text. -/
theorem unescapes (hok : ∀ p ∈ ps, p.Ok)
    (hsize : result.length + (JsonString.pieces ps).length < size) : Unescapes size ps result := by
  induction hk : ps.length using Nat.strong_induction_on generalizing ps result with
  | _ k ih =>
  subst hk
  have hmap : ∀ {x : Option (List UInt8)} {u s : List UInt8}, x.map (u ++ ·) = some s →
      ∃ s', x = some s' ∧ s = u ++ s' := fun h ↦ by
    obtain ⟨s', hs', rfl⟩ := Option.map_eq_some_iff.mp h
    exact ⟨s', hs', rfl⟩
  cases ps with
  | nil =>
    refine .inl ⟨[], Nat.le_refl _, by simp [JsonString.trailing_nil], ?_, fun s hs ↦
      Option.some.inj (hs.symm.trans rfl)⟩
    change unescapeLoop size [] result = _
    rw [unescapeLoop.eq_def]
    dsimp only
    rw [store_eq hsize, Exec.ok_bind, List.append_nil]
    rfl
  | cons p ps =>
    obtain ⟨hp, hps⟩ := List.forall_mem_cons.mp hok
    have hrest : ∀ result : List UInt8, result.length + (JsonString.pieces ps).length < size →
        Unescapes size ps result := fun _ h ↦ ih ps.length (Nat.lt_succ_self _) hps h rfl
    have hlength : (JsonString.pieces (p :: ps)).length =
        p.text.length + (JsonString.pieces ps).length := by
      rw [JsonString.pieces_cons, List.length_append]
    cases p with
    | plain c =>
      refine .more (u := [c]) hsize ?_ (Nat.le_of_eq hlength.symm) (unescapeLoop_plain hp.2.2) ?_
        (hrest _)
      · rw [JsonString.trailing_cons_of_not_high rfl]
      · exact fun s hs ↦ hmap (u := [c]) ((JsonString.decode_pieces_plain hp ps).symm.trans hs)
    | short e b =>
      refine .more (u := [b]) hsize ?_ ?_ (unescapeLoop_short hp) ?_ (hrest _)
      · rw [JsonString.trailing_cons_of_not_high rfl]
      · rw [hlength]
        exact Nat.add_le_add_right (Nat.le_succ 1) _
      · exact fun s hs ↦ hmap (u := [b]) ((JsonString.decode_pieces_short hp ps).symm.trans hs)
    | unicode a b c d n =>
      by_cases hhigh : 0xd800 ≤ n ∧ n < 0xdc00
      · cases ps with
        | nil => exact unescapes_high_nil hp hhigh
        | cons q ps =>
          refine unescapes_high_cons hsize hok hhigh fun result h ↦ ?_
          refine ih ps.length ?_ (List.forall_mem_cons.mp hps).2 h rfl
          exact Nat.lt_succ_of_lt (Nat.lt_succ_self _)
      · have hlow : n < 0xd800 ∨ 0xdbff < n := by omega
        refine .more (u := encodeUnicode n) hsize ?_ ?_ (unescapeLoop_unicode hp hlow) ?_ (hrest _)
        · rw [JsonString.trailing_cons_of_not_high (p := .unicode a b c d n)
            (decide_eq_false hhigh)]
        · rw [hlength]
          refine Nat.add_le_add_right (Nat.le_trans (length_encodeUnicode_le n) ?_) _
          exact Nat.le_add_right 3 3
        · intro s hs
          rcases JsonString.decode_pieces_unicode hok hs with ⟨hscalar, s', hs', rfl⟩ | ⟨hs, -⟩
          · have hlt := JsonString.number_lt hp
            exact ⟨s', hs', by rw [encodeUnicode_eq (hscalar.imp_right fun h ↦ ⟨h, hlt⟩)]⟩
          · exact absurd hs hhigh

theorem unescapes_text (hok : ∀ p ∈ ps, p.Ok) :
    Unescapes ((JsonString.pieces ps).length + 1) ps [] :=
  unescapes hok (by simp)

theorem jsonUnescape_decode {s : List UInt8} (h : JsonString.Text t)
    (hs : JsonString.decode t = some s) : jsonUnescape t = .ok s := by
  obtain ⟨ps, hok, rfl⟩ := h.exists_pieces
  rcases unescapes_text hok with ⟨l, -, -, hrun, hval⟩ | ⟨-, -, hnone⟩
  · rw [hval s hs]
    exact hrun
  · exact absurd (hnone.symm.trans hs) nofun

/-- On the text of a string `json_unescape` returns what the text stands for, if it stands for
something, and what it returns is no longer than the text.  It reads behind the end of the text
exactly if the number of high surrogates at the end is odd. -/
theorem jsonUnescape_text (h : JsonString.Text t) :
    (∀ s, JsonString.decode t = some s → jsonUnescape t = .ok s) ∧
    (∀ s, jsonUnescape t = .ok s → s.length ≤ t.length) ∧
    (jsonUnescape t = Exec.undef ↔
      ∃ ps, (∀ p ∈ ps, JsonString.Piece.Ok p) ∧ t = JsonString.pieces ps ∧
        Odd (JsonString.trailing ps)) := by
  refine ⟨fun s hs ↦ jsonUnescape_decode h hs, ?_⟩
  obtain ⟨ps, hok, rfl⟩ := h.exists_pieces
  refine ⟨fun s hs ↦ ?_, fun hundef ↦ ⟨ps, hok, rfl, ?_⟩, ?_⟩
  · rcases unescapes_text hok with ⟨l, hl, -, hrun, -⟩ | ⟨hrun, -, -⟩
    · obtain rfl : [] ++ l = s := Except.ok.inj (hrun.symm.trans hs)
      exact hl
    · exact absurd (hrun.symm.trans hs) nofun
  · rcases unescapes_text hok with ⟨l, -, -, hrun, -⟩ | ⟨-, hodd, -⟩
    · exact absurd (hrun.symm.trans hundef) nofun
    · exact hodd
  · rintro ⟨qs, hqs, heq, hodd⟩
    rcases unescapes_text hqs with ⟨l, -, heven, -, -⟩ | ⟨hrun, -, -⟩
    · exact absurd hodd heven
    · rw [heq]
      exact hrun

/-- The text of the character `1F600`, which is above the basic plane. -/
theorem jsonUnescape_pair :
    jsonUnescape ([92, 117] ++ [100, 56, 51, 100] ++ [92, 117] ++ [100, 101, 48, 48]) =
      .ok [0xf0, 0x9f, 0x98, 0x80] :=
  (jsonUnescape_text (.unicode (by decide) (by decide) (by decide) (by decide)
    (.unicode (by decide) (by decide) (by decide) (by decide) .nil))).1 _ (by decide)

theorem zero_notMem_escaped (h : 0 ∉ text) : 0 ∉ escaped text := by
  have hbyte : ∀ c : UInt8, c ≠ 0 → 0 ∉ escapeByte c := by
    decide +kernel
  intro hzero
  obtain ⟨c, hc, hzero⟩ := List.mem_flatMap.mp hzero
  exact hbyte c (ne_of_mem_of_not_mem hc h) hzero

/-- `json_escape` returns the text of a string that stands for its argument, and `json_unescape`
returns the argument again. -/
theorem jsonUnescape_jsonEscape (h : 0 ∉ text) : ∃ t, jsonEscape text = .ok t ∧ 0 ∉ t ∧
    JsonString.Text t ∧ JsonString.decode t = some text ∧ jsonUnescape t = .ok text := by
  obtain ⟨htext, hdecode⟩ := escaped_text text
  exact ⟨_, jsonEscape_eq text, zero_notMem_escaped h, htext, hdecode,
    jsonUnescape_decode htext hdecode⟩

/-- The quotation mark and a control character are escaped. -/
theorem jsonUnescape_jsonEscape_control : ∃ t, jsonEscape [0x22, 0x1b] = .ok t ∧ 0 ∉ t ∧
    JsonString.Text t ∧ JsonString.decode t = some [0x22, 0x1b] ∧
      jsonUnescape t = .ok [0x22, 0x1b] :=
  jsonUnescape_jsonEscape (by decide)

end Dlbase.Json
