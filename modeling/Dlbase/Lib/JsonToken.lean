import Dlbase.Lib.JsonString

/-!
# The tokens of a JSON text

A JSON text is a sequence of tokens with white space between them.  The text of a string or of a
number is kept as it is written.  A number only ends where something follows it, so what is behind
it has to begin with white space or with a character that closes or separates.
-/

namespace Cmem.JsonToken

/-! ## Characters -/

/-- White space. -/
def IsBlank (c : UInt8) : Prop := c = 0x20 ∨ c = 0x09 ∨ c = 0x0a ∨ c = 0x0d

instance (c : UInt8) : Decidable (IsBlank c) := inferInstanceAs (Decidable (_ ∨ _))

/-- `]`, `}` or `,`. -/
def IsCloser (c : UInt8) : Prop := c = 93 ∨ c = 125 ∨ c = 44

instance (c : UInt8) : Decidable (IsCloser c) := inferInstanceAs (Decidable (_ ∨ _))

/-- A decimal digit. -/
def IsDigit (c : UInt8) : Prop := 48 ≤ c ∧ c ≤ 57

instance (c : UInt8) : Decidable (IsDigit c) := inferInstanceAs (Decidable (_ ∧ _))

/-- `e` or `E`. -/
def IsExponent (c : UInt8) : Prop := c = 101 ∨ c = 69

instance (c : UInt8) : Decidable (IsExponent c) := inferInstanceAs (Decidable (_ ∨ _))

/-- There is nothing but white space. -/
def Blank (l : List UInt8) : Prop := ∀ c ∈ l, IsBlank c

/-- There is nothing but digits. -/
def Digits (l : List UInt8) : Prop := ∀ c ∈ l, IsDigit c

variable {l l' i f w : List UInt8} {c e : UInt8}

theorem Digits.append (h : Digits l) (h' : Digits l') : Digits (l ++ l') :=
  List.forall_mem_append.mpr ⟨h, h'⟩

theorem digits_singleton (h : IsDigit c) : Digits [c] := List.forall_mem_singleton.mpr h

theorem IsDigit.not_blank (h : IsDigit c) : ¬ IsBlank c := by
  rintro (rfl | rfl | rfl | rfl)
  all_goals exact absurd h (by decide)

theorem IsDigit.not_closer (h : IsDigit c) : ¬ IsCloser c := by
  rintro (rfl | rfl | rfl)
  all_goals exact absurd h (by decide)

theorem IsDigit.ne_dot (h : IsDigit c) : c ≠ 46 := by
  rintro rfl
  exact absurd h (by decide)

theorem IsDigit.not_exponent (h : IsDigit c) : ¬ IsExponent c := by
  rintro (rfl | rfl)
  all_goals exact absurd h (by decide)

theorem IsExponent.not_blank (h : IsExponent c) : ¬ IsBlank c := by
  rcases h with rfl | rfl <;> decide

theorem IsExponent.not_closer (h : IsExponent c) : ¬ IsCloser c := by
  rcases h with rfl | rfl <;> decide

theorem IsExponent.ne_dot (h : IsExponent c) : c ≠ 46 := by
  rcases h with rfl | rfl <;> decide

/-! ## Numbers -/

/-- What may be in front of the digits. -/
def Sign (s : List UInt8) : Prop := s = [] ∨ s = [45]

/-- The integer part of a number. -/
inductive Integer : List UInt8 → Prop where
  /-- `0`. -/
  | zero {s : List UInt8} : Sign s → Integer (s ++ [48])
  /-- A digit other than `0`, and any digits. -/
  | digits {s l : List UInt8} {c : UInt8} : Sign s → IsDigit c → c ≠ 48 → Digits l →
      Integer (s ++ c :: l)

/-- What may be between the integer part and the exponent. -/
inductive Fraction : List UInt8 → Prop where
  /-- Nothing. -/
  | none : Fraction []
  /-- A dot and digits. -/
  | digits {c : UInt8} {l : List UInt8} : IsDigit c → Digits l → Fraction (46 :: c :: l)

/-- What may be at the end of a number. -/
inductive Exponent : List UInt8 → Prop where
  /-- Nothing. -/
  | none : Exponent []
  /-- `e` and digits. -/
  | digits {e c : UInt8} {l : List UInt8} : IsExponent e → IsDigit c → Digits l →
      Exponent (e :: c :: l)
  /-- `e`, a sign and digits. -/
  | signed {e s c : UInt8} {l : List UInt8} : IsExponent e → s = 45 ∨ s = 43 → IsDigit c →
      Digits l → Exponent (e :: s :: c :: l)

/-- The text of a number. -/
def Number (l : List UInt8) : Prop :=
  ∃ i f e, Integer i ∧ Fraction f ∧ Exponent e ∧ l = i ++ (f ++ e)

theorem Integer.ne_nil (h : Integer i) : i ≠ [] := by
  cases h <;> exact List.append_ne_nil_of_right_ne_nil _ (List.cons_ne_nil _ _)

theorem Number.ne_nil (h : Number l) : l ≠ [] := by
  obtain ⟨i, f, e, hi, -, -, rfl⟩ := h
  exact List.append_ne_nil_of_left_ne_nil hi.ne_nil _

theorem Integer.number (h : Integer i) : Number i :=
  ⟨i, [], [], h, .none, .none, (List.append_nil i).symm⟩

theorem Number.of_fraction (hi : Integer i) (hf : Fraction f) : Number (i ++ f) :=
  ⟨i, f, [], hi, hf, .none, by rw [List.append_nil]⟩

/-- A character that may occur in a number. -/
def IsNumeric (c : UInt8) : Prop := IsDigit c ∨ c = 45 ∨ c = 43 ∨ c = 46 ∨ IsExponent c

instance (c : UInt8) : Decidable (IsNumeric c) := inferInstanceAs (Decidable (_ ∨ _))

theorem Digits.numeric (h : Digits l) : ∀ c ∈ l, IsNumeric c := fun c hc ↦ .inl (h c hc)

theorem Number.numeric (h : Number l) : ∀ c ∈ l, IsNumeric c := by
  obtain ⟨i, f, e, hi, hf, he, rfl⟩ := h
  have hsign : ∀ {s : List UInt8}, Sign s → ∀ c ∈ s, IsNumeric c := by
    rintro s (rfl | rfl)
    · exact nofun
    · exact List.forall_mem_singleton.mpr (by decide)
  have hexp : ∀ {c : UInt8}, IsExponent c → IsNumeric c := fun h ↦ .inr (.inr (.inr (.inr h)))
  have hdigits : ∀ {c : UInt8} {l : List UInt8}, IsDigit c → Digits l →
      ∀ b ∈ c :: l, IsNumeric b := fun hc hl ↦ List.forall_mem_cons.mpr ⟨.inl hc, hl.numeric⟩
  refine List.forall_mem_append.mpr ⟨?_, List.forall_mem_append.mpr ⟨?_, ?_⟩⟩
  · cases hi with
    | zero hs =>
      exact List.forall_mem_append.mpr ⟨hsign hs, List.forall_mem_singleton.mpr (by decide)⟩
    | digits hs hc _ hl => exact List.forall_mem_append.mpr ⟨hsign hs, hdigits hc hl⟩
  · cases hf with
    | none => exact nofun
    | digits hc hl => exact List.forall_mem_cons.mpr ⟨by decide, hdigits hc hl⟩
  · cases he with
    | none => exact nofun
    | digits he hc hl => exact List.forall_mem_cons.mpr ⟨hexp he, hdigits hc hl⟩
    | signed he hs hc hl =>
      refine List.forall_mem_cons.mpr ⟨hexp he, List.forall_mem_cons.mpr ⟨?_, hdigits hc hl⟩⟩
      rcases hs with rfl | rfl <;> decide

theorem IsNumeric.ne {c d : UInt8} (h : IsNumeric c) (hd : ¬ IsNumeric d) : c ≠ d := fun hc ↦
  hd (hc ▸ h)

theorem IsNumeric.not_blank (h : IsNumeric c) : ¬ IsBlank c := by
  rintro (rfl | rfl | rfl | rfl)
  all_goals exact absurd h (by decide)

/-- There is no null character in a number. -/
theorem Number.zero_notMem (h : Number l) : 0 ∉ l := fun h0 ↦
  absurd (h.numeric 0 h0) (by decide)

/-! ## Tokens -/

/-- A token. -/
inductive Token where
  /-- An opening brace. -/
  | beginObject
  /-- A closing brace. -/
  | endObject
  /-- An opening bracket. -/
  | beginArray
  /-- A closing bracket. -/
  | endArray
  /-- A colon. -/
  | nameSeparator
  /-- A comma. -/
  | valueSeparator
  /-- A string with the given text between its quotation marks. -/
  | string (text : List UInt8)
  /-- A number with the given text. -/
  | number (text : List UInt8)
  /-- `true`. -/
  | true
  /-- `false`. -/
  | false
  /-- `null`. -/
  | null
deriving DecidableEq, Repr

namespace Token

/-- How a token is written. -/
def lexeme : Token → List UInt8
  | beginObject => [123]
  | endObject => [125]
  | beginArray => [91]
  | endArray => [93]
  | nameSeparator => [58]
  | valueSeparator => [44]
  | string t => JsonString.quote :: (t ++ [JsonString.quote])
  | number t => t
  | true => [116, 114, 117, 101]
  | false => [102, 97, 108, 115, 101]
  | null => [110, 117, 108, 108]

/-- The text of a string or a number is one. -/
def Ok : Token → Prop
  | string t => JsonString.Text t
  | number t => Number t
  | _ => True

/-- The token may be followed by the text. -/
def MayPrecede : Token → List UInt8 → Prop
  | number _, l => ∃ c l', l = c :: l' ∧ (IsBlank c ∨ IsCloser c)
  | _, _ => True

/-- What is left of the text behind a token when the character is gone that has ended a number. -/
def rest : Token → List UInt8 → List UInt8
  | number _, c :: l => if IsBlank c then l else c :: l
  | _, l => l

/-- A token does not begin with white space. -/
theorem Ok.lexeme_eq_cons {t : Token} (h : t.Ok) :
    ∃ c l, t.lexeme = c :: l ∧ ¬ IsBlank c := by
  cases t with
  | number t =>
    obtain ⟨i, f, e, hi, -, -, rfl⟩ := h
    have hfirst : ∃ c l, i = c :: l ∧ ¬ IsBlank c := by
      cases hi with
      | zero hs =>
        rcases hs with rfl | rfl
        · exact ⟨48, [], rfl, by decide⟩
        · exact ⟨45, [48], rfl, by decide⟩
      | digits hs hc _ _ =>
        rcases hs with rfl | rfl
        · exact ⟨_, _, rfl, hc.not_blank⟩
        · exact ⟨45, _, rfl, by decide⟩
    obtain ⟨c, l, rfl, hc⟩ := hfirst
    exact ⟨c, _, rfl, hc⟩
  | _ => exact ⟨_, _, rfl, by decide⟩

end Token

/-- What there is of a token that does not end: a piece of one, or the text of a number, which ends
only where something follows it. -/
def Unfinished (q : List UInt8) : Prop :=
  ∃ (t : Token) (u : List UInt8), t.Ok ∧ t.lexeme = q ++ u ∧ (u = [] → ∃ x, t = .number x)

theorem unfinished_nil : Unfinished [] := ⟨.true, Token.true.lexeme, trivial, rfl, nofun⟩

theorem Number.unfinished (h : Number l) : Unfinished l :=
  ⟨.number l, [], h, (List.append_nil l).symm, fun _ ↦ ⟨l, rfl⟩⟩

/-- Nothing that is not complete begins with a closing bracket or brace or with a comma. -/
theorem IsCloser.not_unfinished (h : IsCloser c) : ¬ Unfinished (c :: l) := by
  rintro ⟨t, u, hok, hlex, hnum⟩
  have hne : ∀ d, ¬ IsCloser d → c ≠ d := fun d hd hc ↦ hd (hc ▸ h)
  have hsingle : ∀ d : UInt8, [d] = c :: l ++ u → u = [] := fun d hd ↦
    (List.append_eq_nil_iff.mp (List.cons.inj hd).2.symm).2
  cases t with
  | number t =>
    obtain ⟨i, f, e, hi, -, -, rfl⟩ := hok
    have hfirst : ∃ d x, i = d :: x ∧ ¬ IsCloser d := by
      cases hi with
      | zero hs =>
        rcases hs with rfl | rfl
        · exact ⟨48, [], rfl, by decide⟩
        · exact ⟨45, [48], rfl, by decide⟩
      | digits hs hd _ _ =>
        rcases hs with rfl | rfl
        · exact ⟨_, _, rfl, hd.not_closer⟩
        · exact ⟨45, _, rfl, by decide⟩
    obtain ⟨d, x, rfl, hd⟩ := hfirst
    exact hne d hd (List.cons.inj hlex).1.symm
  | beginObject | endObject | beginArray | endArray | nameSeparator | valueSeparator =>
    exact absurd (hnum (hsingle _ hlex)) nofun
  | _ => exact hne _ (by decide) (List.cons.inj hlex).1.symm

/-- The text consists of the tokens and of white space around them. -/
inductive Spells : List Token → List UInt8 → Prop where
  /-- White space. -/
  | nil {w : List UInt8} : Blank w → Spells [] w
  /-- White space, a token and more of them. -/
  | cons {w l : List UInt8} {t : Token} {ts : List Token} : Blank w → t.Ok → t.MayPrecede l →
      Spells ts l → Spells (t :: ts) (w ++ (t.lexeme ++ l))

/-- White space in front of a text does not matter. -/
theorem Spells.blank_append {ts : List Token} (h : Spells ts l) (hw : Blank w) :
    Spells ts (w ++ l) := by
  cases h with
  | nil hl => exact .nil (List.forall_mem_append.mpr ⟨hw, hl⟩)
  | cons hv hok hbefore hl =>
    rw [← List.append_assoc]
    exact .cons (List.forall_mem_append.mpr ⟨hw, hv⟩) hok hbefore hl

/-- White space in front of a text may be left out. -/
theorem Spells.of_blank_cons {ts : List Token} (h : Spells ts (c :: l)) (hc : IsBlank c) :
    Spells ts l := by
  generalize hcl : c :: l = cl at h
  cases h with
  | nil hw =>
    subst hcl
    exact .nil (List.forall_mem_cons.mp hw).2
  | @cons w l' t ts hw hok hbefore hl =>
    cases w with
    | nil =>
      obtain ⟨d, k, hlex, hd⟩ := hok.lexeme_eq_cons
      rw [List.nil_append, hlex] at hcl
      obtain ⟨rfl, -⟩ := List.cons.inj hcl
      exact absurd hc hd
    | cons d w =>
      obtain ⟨-, rfl⟩ := List.cons.inj hcl
      exact .cons (List.forall_mem_cons.mp hw).2 hok hbefore hl

/-- What is left behind a token consists of the same tokens. -/
theorem Spells.rest {ts : List Token} (h : Spells ts l) (t : Token) : Spells ts (t.rest l) := by
  cases t with
  | number x =>
    cases l with
    | nil => exact h
    | cons c l =>
      rw [Token.rest]
      split_ifs with hc
      · exact h.of_blank_cons hc
      · exact h
  | _ => exact h

/-! ## Texts without white space -/

variable {ts us : List Token}

/-- The tokens without white space. -/
def spelling (ts : List Token) : List UInt8 := ts.flatMap Token.lexeme

theorem spelling_append (ts us : List Token) : spelling (ts ++ us) = spelling ts ++ spelling us :=
  List.flatMap_append

theorem spelling_cons (k : Token) (ts : List Token) :
    spelling (k :: ts) = k.lexeme ++ spelling ts := rfl

/-- A token in front of a text. -/
theorem spells_cons {k : Token} (hok : k.Ok) (hk : k.MayPrecede l) (h : Spells ts l) :
    Spells (k :: ts) (k.lexeme ++ l) :=
  .cons (w := []) (fun _ hc ↦ absurd hc List.not_mem_nil) hok hk h

/-- The tokens of a text are allowed. -/
theorem Spells.ok (h : Spells ts l) : ∀ k ∈ ts, k.Ok := by
  induction h with
  | nil => exact fun _ hk ↦ absurd hk List.not_mem_nil
  | cons _ hok _ _ ih => exact List.forall_mem_cons.mpr ⟨hok, ih⟩

/-- `]`, `}` or `,`, as a token. -/
def Token.Closes : Token → Prop
  | endObject | endArray | valueSeparator => True
  | _ => False

theorem Token.Closes.lexeme {k : Token} (h : k.Closes) : ∃ c, k.lexeme = [c] ∧ IsCloser c := by
  cases k with
  | endObject => exact ⟨125, rfl, .inr (.inl rfl)⟩
  | endArray => exact ⟨93, rfl, .inl rfl⟩
  | valueSeparator => exact ⟨44, rfl, .inr (.inr rfl)⟩
  | _ => exact absurd h id

/-- Each number has a token behind it that closes or separates. -/
inductive Separated : List Token → Prop where
  /-- There are no tokens. -/
  | nil : Separated []
  /-- A number. -/
  | number {x : List UInt8} {k : Token} {ts : List Token} : k.Closes → Separated (k :: ts) →
      Separated (.number x :: k :: ts)
  /-- A token of another kind. -/
  | other {k : Token} {ts : List Token} : (∀ x, k ≠ .number x) → Separated ts → Separated (k :: ts)

/-- The tokens are written one behind the other, with white space between them or without. -/
inductive Spaced : List Token → List UInt8 → Prop where
  /-- White space. -/
  | nil {w : List UInt8} : Blank w → Spaced [] w
  /-- White space, a token and more of them. -/
  | cons {w l : List UInt8} {k : Token} {ts : List Token} : Blank w → Spaced ts l →
      Spaced (k :: ts) (w ++ (k.lexeme ++ l))

theorem blank_nil : Blank [] := fun _ hc ↦ absurd hc List.not_mem_nil

theorem Spaced.blank_append (h : Spaced ts l) (hw : Blank w) : Spaced ts (w ++ l) := by
  cases h with
  | nil hl => exact .nil (List.forall_mem_append.mpr ⟨hw, hl⟩)
  | cons hv hl =>
    rw [← List.append_assoc]
    exact .cons (List.forall_mem_append.mpr ⟨hw, hv⟩) hl

theorem spaced_spelling (ts : List Token) : Spaced ts (spelling ts) := by
  induction ts with
  | nil => exact .nil blank_nil
  | cons k ts ih => exact .cons blank_nil ih

/-- White space does not matter where nothing ends a number but what closes or separates. -/
theorem Separated.spells (h : Separated ts) (hok : ∀ k ∈ ts, k.Ok) (hl : Spaced ts l) :
    Spells ts l := by
  induction hl with
  | nil hw => exact .nil hw
  | @cons w l k ts hw hl ih =>
    obtain ⟨hk, hts⟩ := List.forall_mem_cons.mp hok
    cases h with
    | @number x j us hj h =>
      refine .cons hw hk ?_ (ih h hts)
      cases hl with
      | @cons v l' _ _ hv hl' =>
        obtain ⟨c, hlex, hc⟩ := hj.lexeme
        cases v with
        | nil => exact ⟨c, l', by rw [hlex]; rfl, .inr hc⟩
        | cons b v => exact ⟨b, _, rfl, .inl (hv b List.mem_cons_self)⟩
    | other hk' h =>
      refine .cons hw hk ?_ (ih h hts)
      cases k with
      | number x => exact absurd rfl (hk' x)
      | _ => trivial

end Cmem.JsonToken
