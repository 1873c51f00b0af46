import Dlbase.Json.Lexer

/-!
# What the lexer reads

A call of `lexer` that returns a value other than `LEX_MORE` and `LEX_INVALID_CHARACTER` has read
white space and a token, and every token is read this way.  What has been read of a token that is
not complete is kept in the state.
-/

namespace Dlbase.Json

open Cmem
open JsonToken

/-! ## Characters -/

theorem isHex_iff (c : UInt8) : IsHex c ↔ Hexadecimal.IsDigit c := by
  change 97 ≤ c ∧ c ≤ 102 ∨ 65 ≤ c ∧ c ≤ 70 ∨ 48 ≤ c ∧ c ≤ 57 ↔ _
  unfold Hexadecimal.IsDigit Hexadecimal.digit
  split_ifs with h₁ h₂ h₃
  · exact ⟨fun _ ↦ rfl, fun _ ↦ .inr (.inr h₁)⟩
  · exact ⟨fun _ ↦ rfl, fun _ ↦ .inr (.inl h₂)⟩
  · exact ⟨fun _ ↦ rfl, fun _ ↦ .inl h₃⟩
  · exact ⟨fun h ↦ absurd h (not_or.mpr ⟨h₃, not_or.mpr ⟨h₂, h₁⟩⟩), fun h ↦ nomatch h⟩

theorem isShort_iff (c : UInt8) : IsShort c ↔ (JsonString.short c).isSome := by
  change c = 92 ∨ c = 34 ∨ c = 47 ∨ c = 98 ∨ c = 102 ∨ c = 110 ∨ c = 114 ∨ c = 116 ↔ _
  unfold JsonString.short JsonString.quote JsonString.backslash
  split_ifs with h₁ h₂ h₃ h₄ h₅ h₆ h₇ h₈
  all_goals simp_all

/-! ## What has been read -/

variable {s s' : Lex} {t l u p rest : List UInt8} {c d e : UInt8} {state : LexState} {v : LexValue}

/-- The text that is kept. -/
def Lex.Keeps (s : Lex) (t : List UInt8) : Prop := ∃ r, s.text = some r ∧ r.Holds t

/-- The value that is returned for a token. -/
def value : Token → LexValue
  | .beginObject => .beginObject
  | .endObject => .endObject
  | .beginArray => .beginArray
  | .endArray => .endArray
  | .nameSeparator => .nameSeparator
  | .valueSeparator => .valueSeparator
  | .string _ => .string
  | .number _ => .number
  | .true => .true
  | .false => .false
  | .null => .null

/-- The text of the token is kept. -/
def Lex.Carries (s : Lex) : Token → Prop
  | .string t | .number t => s.Keeps t
  | _ => True

/-- `Part state t l`: in this state, `t` is kept of the token of which `l` has been read. -/
inductive Part : LexState → List UInt8 → List UInt8 → Prop where
  | string {t : List UInt8} : JsonString.Text t → Part .string t (JsonString.quote :: t)
  | escape {t : List UInt8} : JsonString.Text t →
      Part .escape (t ++ [92]) (JsonString.quote :: (t ++ [92]))
  | unicode1 {t : List UInt8} : JsonString.Text t →
      Part .unicode1 (t ++ [92, 117]) (JsonString.quote :: (t ++ [92, 117]))
  | unicode2 {t : List UInt8} {a : UInt8} : JsonString.Text t → IsHex a →
      Part .unicode2 (t ++ [92, 117, a]) (JsonString.quote :: (t ++ [92, 117, a]))
  | unicode3 {t : List UInt8} {a b : UInt8} : JsonString.Text t → IsHex a → IsHex b →
      Part .unicode3 (t ++ [92, 117, a, b]) (JsonString.quote :: (t ++ [92, 117, a, b]))
  | unicode4 {t : List UInt8} {a b c : UInt8} : JsonString.Text t → IsHex a → IsHex b → IsHex c →
      Part .unicode4 (t ++ [92, 117, a, b, c]) (JsonString.quote :: (t ++ [92, 117, a, b, c]))
  | minus : Part .minus [45] [45]
  | zero {s : List UInt8} : Sign s → Part .zero (s ++ [48]) (s ++ [48])
  | int {s l : List UInt8} {c : UInt8} : Sign s → IsDigit c → c ≠ 48 → Digits l →
      Part .int (s ++ c :: l) (s ++ c :: l)
  | fracStart {i : List UInt8} : Integer i → Part .fracStart (i ++ [46]) (i ++ [46])
  | frac {i l : List UInt8} {c : UInt8} : Integer i → IsDigit c → Digits l →
      Part .frac (i ++ 46 :: c :: l) (i ++ 46 :: c :: l)
  | expStart {i f : List UInt8} {e : UInt8} : Integer i → Fraction f → IsExponent e →
      Part .expStart (i ++ (f ++ [e])) (i ++ (f ++ [e]))
  | expSign {i f : List UInt8} {e s : UInt8} : Integer i → Fraction f → IsExponent e →
      s = 45 ∨ s = 43 → Part .expSign (i ++ (f ++ [e, s])) (i ++ (f ++ [e, s]))
  | exp {i f x : List UInt8} : Integer i → Fraction f → Exponent x → x ≠ [] →
      Part .exp (i ++ (f ++ x)) (i ++ (f ++ x))

/-- `Letters state l`: in this state, the letters `l` of a literal have been read. -/
inductive Letters : LexState → List UInt8 → Prop where
  | root : Letters .root []
  | true1 : Letters .true1 [116]
  | true2 : Letters .true2 [116, 114]
  | true3 : Letters .true3 [116, 114, 117]
  | false1 : Letters .false1 [102]
  | false2 : Letters .false2 [102, 97]
  | false3 : Letters .false3 [102, 97, 108]
  | false4 : Letters .false4 [102, 97, 108, 115]
  | null1 : Letters .null1 [110]
  | null2 : Letters .null2 [110, 117]
  | null3 : Letters .null3 [110, 117, 108]

/-- The characters `l` of a token have been read. -/
def Lex.Reading (s : Lex) (l : List UInt8) : Prop :=
  (∃ t, s.Keeps t ∧ Part s.state t l) ∨ Letters s.state l

/-- What can come of a character behind the characters `l` of a token. -/
inductive Outcome (s : Lex) (l : List UInt8) (c : UInt8) : LexStep → Prop where
  /-- White space between tokens. -/
  | blank {s' : Lex} : s.state = .root → IsBlank c → s'.state = .root → Outcome s l c (.next s')
  /-- One more character of a token. -/
  | next {s' : Lex} : s'.state ≠ .root → s'.Reading (l ++ [c]) → Outcome s l c (.next s')
  /-- The last character of a token. -/
  | token {s' : Lex} {t : Token} : t.Ok → t.lexeme = l ++ [c] → s'.state = .root →
      s'.Carries t → (∀ x, t ≠ .number x) → Outcome s l c (.done (value t) s' true)
  /-- The end of a number. -/
  | number {s' : Lex} {read : Bool} : Number l → s'.state = .root → s'.Keeps l →
      IsBlank c ∧ read = true ∨ IsCloser c ∧ read = false →
      Outcome s l c (.done .number s' read)
  /-- An illegal character. -/
  | invalid {s' : Lex} {read : Bool} : Outcome s l c (.done .invalidCharacter s' read)

/-! ## One character -/

/-- The step has one of these outcomes. -/
def Lex.StepsTo (s : Lex) (l : List UInt8) (c : UInt8) (x : Exec LexStep) : Prop :=
  ∃ out, x = .ok out ∧ Outcome s l c out

theorem stepsTo_invalid (read : Bool) : s.StepsTo l c (s.invalid read) := ⟨_, rfl, .invalid⟩

theorem append_eq {r : Rcstring} (hr : r.Holds t) (s : Lex) (c : UInt8) (state : LexState) :
    ∃ s', s.append c r state = .ok (.next s') ∧ s'.state = state ∧ s'.Keeps (t ++ [c]) := by
  obtain ⟨r', hr', ht⟩ := hr.catc c
  refine ⟨{ s with state, text := some r' }, ?_, rfl, r', rfl, ht⟩
  rw [Lex.append, hr', Exec.ok_bind]
  rfl

/-- A character is added to what has been read. -/
theorem stepsTo_append {r : Rcstring} (hr : r.Holds t) (hstate : state ≠ .root)
    (hpart : Part state (t ++ [c]) (l ++ [c])) : s.StepsTo l c (s.append c r state) := by
  obtain ⟨s', hs', hst, hk⟩ := append_eq hr s c state
  subst hst
  exact ⟨_, hs', .next hstate (.inl ⟨_, hk, hpart⟩)⟩

/-- A character of a literal. -/
theorem stepsTo_letterStep {a : UInt8} (hstate : state ≠ .root)
    (hletters : Letters state (l ++ [a])) : s.StepsTo l c (s.letterStep c a state) := by
  unfold Lex.letterStep
  split_ifs with hc
  · subst hc
    exact ⟨_, rfl, .next hstate (.inr hletters)⟩
  · exact stepsTo_invalid _

/-- The last character of a literal. -/
theorem stepsTo_lastStep {a : UInt8} {k : Token} (hok : k.Ok) (hlex : k.lexeme = l ++ [a])
    (hcarries : ∀ s : Lex, s.Carries k) (hn : ∀ x, k ≠ .number x) :
    s.StepsTo l c (s.lastStep c a (value k)) := by
  unfold Lex.lastStep
  split_ifs with hc
  · subst hc
    exact ⟨_, rfl, .token hok hlex rfl (hcarries _) hn⟩
  · exact stepsTo_invalid _

/-- A digit of an escape. -/
theorem stepsTo_hexStep (hk : s.Keeps t) (hstate : state ≠ .root)
    (hpart : IsHex c → Part state (t ++ [c]) (l ++ [c])) :
    s.StepsTo l c (s.hexStep c state) := by
  obtain ⟨r, htext, hr⟩ := hk
  simp only [Lex.hexStep, Lex.withText, htext]
  split_ifs with hc
  · exact stepsTo_append hr hstate (hpart hc)
  · exact stepsTo_invalid _

/-- A character behind a number. -/
theorem stepsTo_numberStep (hk : s.Keeps l) (hn : Number l) {k : Rcstring → Exec LexStep}
    (h : ∀ r : Rcstring, r.Holds l → s.StepsTo l c (k r)) : s.StepsTo l c (s.numberStep c k) := by
  have hk' : ({ s with state := .root } : Lex).Keeps l := hk
  obtain ⟨r, htext, hr⟩ := hk
  simp only [Lex.numberStep, Lex.withText, htext]
  split_ifs with hblank hcloser
  · exact ⟨_, rfl, .number hn rfl hk' (.inl ⟨hblank, rfl⟩)⟩
  · exact ⟨_, rfl, .number hn rfl hk' (.inr ⟨hcloser, rfl⟩)⟩
  · exact h r hr

/-! ### Strings -/

theorem text_append (ht : JsonString.Text t) (hu : JsonString.Text u) :
    JsonString.Text (t ++ u) := by
  induction ht with
  | nil => exact hu
  | plain hc _ ih => exact .plain hc ih
  | short hc _ ih => exact .short hc ih
  | unicode ha hb hc hd _ ih => exact .unicode ha hb hc hd ih

theorem stepsTo_string (hs : s.state = .string) (hk : s.Keeps t) (ht : JsonString.Text t)
    (c : UInt8) : s.StepsTo (JsonString.quote :: t) c (s.step c) := by
  have hk' : ({ s with state := .root } : Lex).Keeps t := hk
  obtain ⟨r, htext, hr⟩ := hk
  simp only [Lex.step, hs, Lex.withText, htext]
  split_ifs with hcontrol hquote hback
  · exact stepsTo_invalid _
  · subst hquote
    exact ⟨_, rfl, .token (t := .string t) ht rfl rfl hk' nofun⟩
  · subst hback
    exact stepsTo_append hr nofun (.escape ht)
  · refine stepsTo_append hr nofun (.string (text_append ht (.plain ⟨?_, hquote, hback⟩ .nil)))
    simp only [UInt8.le_iff_toNat_le, UInt8.reduceToNat] at hcontrol ⊢
    omega

theorem stepsTo_escape (hs : s.state = .escape) (hk : s.Keeps (t ++ [92]))
    (ht : JsonString.Text t) (c : UInt8) :
    s.StepsTo (JsonString.quote :: (t ++ [92])) c (s.step c) := by
  obtain ⟨r, htext, hr⟩ := hk
  simp only [Lex.step, hs, Lex.withText, htext]
  split_ifs with hshort hu
  · refine stepsTo_append hr nofun ?_
    rw [List.cons_append, List.append_assoc]
    exact .string (text_append ht (.short ((isShort_iff c).mp hshort) .nil))
  · subst hu
    refine stepsTo_append hr nofun ?_
    rw [List.cons_append, List.append_assoc]
    exact .unicode1 ht
  · exact stepsTo_invalid _

/-- One of the digits of an escape that is not the last one. -/
theorem stepsTo_unicode (hs : s.state = .unicode1 ∨ s.state = .unicode2 ∨ s.state = .unicode3 ∨
    s.state = .unicode4) (hk : s.Keeps t) (hp : Part s.state t l) (c : UInt8) :
    s.StepsTo l c (s.step c) := by
  rcases hs with hs | hs | hs | hs <;> rw [hs] at hp <;> simp only [Lex.step, hs]
  · cases hp with
    | unicode1 ht =>
      refine stepsTo_hexStep hk nofun fun hc ↦ ?_
      rw [List.cons_append, List.append_assoc]
      exact .unicode2 ht hc
  · cases hp with
    | unicode2 ht ha =>
      refine stepsTo_hexStep hk nofun fun hc ↦ ?_
      rw [List.cons_append, List.append_assoc]
      exact .unicode3 ht ha hc
  · cases hp with
    | unicode3 ht ha hb =>
      refine stepsTo_hexStep hk nofun fun hc ↦ ?_
      rw [List.cons_append, List.append_assoc]
      exact .unicode4 ht ha hb hc
  · cases hp with
    | unicode4 ht ha hb hd =>
      refine stepsTo_hexStep hk nofun fun hc ↦ ?_
      rw [List.cons_append, List.append_assoc]
      refine .string (text_append ht ?_)
      exact .unicode ((isHex_iff _).mp ha) ((isHex_iff _).mp hb) ((isHex_iff _).mp hd)
        ((isHex_iff _).mp hc) .nil

/-! ### Numbers -/

theorem exponent_append {x : List UInt8} (h : Exponent x) (hx : x ≠ []) (hc : IsDigit c) :
    Exponent (x ++ [c]) := by
  cases h with
  | none => exact absurd rfl hx
  | digits he hd hl => exact .digits he hd (hl.append (digits_singleton hc))
  | signed he hs hd hl => exact .signed he hs hd (hl.append (digits_singleton hc))

theorem stepsTo_minus (hs : s.state = .minus) (hk : s.Keeps [45]) (c : UInt8) :
    s.StepsTo [45] c (s.step c) := by
  obtain ⟨r, htext, hr⟩ := hk
  simp only [Lex.step, hs, Lex.withText, htext]
  split_ifs with hz hd
  · subst hz
    exact stepsTo_append hr nofun (.zero (.inr rfl))
  · exact stepsTo_append hr nofun (.int (.inr rfl) hd hz (fun _ h ↦ absurd h List.not_mem_nil))
  · exact stepsTo_invalid _

theorem stepsTo_zero {g : List UInt8} (hs : s.state = .zero) (hk : s.Keeps (g ++ [48]))
    (hg : Sign g) (c : UInt8) : s.StepsTo (g ++ [48]) c (s.step c) := by
  have hi : Integer (g ++ [48]) := .zero hg
  simp only [Lex.step, hs]
  refine stepsTo_numberStep hk hi.number fun r hr ↦ ?_
  split_ifs with hdot he
  · subst hdot
    exact stepsTo_append hr nofun (.fracStart hi)
  · exact stepsTo_append hr nofun (.expStart (f := []) hi .none he)
  · exact stepsTo_invalid _

theorem stepsTo_int {g : List UInt8} (hs : s.state = .int) (hk : s.Keeps (g ++ d :: l))
    (hg : Sign g) (hd : IsDigit d) (hd0 : d ≠ 48) (hl : Digits l) (c : UInt8) :
    s.StepsTo (g ++ d :: l) c (s.step c) := by
  have hi : Integer (g ++ d :: l) := .digits hg hd hd0 hl
  simp only [Lex.step, hs]
  refine stepsTo_numberStep hk hi.number fun r hr ↦ ?_
  split_ifs with hdot he hc
  · subst hdot
    exact stepsTo_append hr nofun (.fracStart hi)
  · exact stepsTo_append hr nofun (.expStart (f := []) hi .none he)
  · refine stepsTo_append hr nofun ?_
    rw [List.append_assoc, List.cons_append]
    exact .int hg hd hd0 (hl.append (digits_singleton hc))
  · exact stepsTo_invalid _

theorem stepsTo_fracStart {i : List UInt8} (hs : s.state = .fracStart) (hk : s.Keeps (i ++ [46]))
    (hi : Integer i) (c : UInt8) : s.StepsTo (i ++ [46]) c (s.step c) := by
  obtain ⟨r, htext, hr⟩ := hk
  simp only [Lex.step, hs, Lex.withText, htext]
  split_ifs with hc
  · refine stepsTo_append hr nofun ?_
    rw [List.append_assoc]
    exact .frac hi hc (fun _ h ↦ absurd h List.not_mem_nil)
  · exact stepsTo_invalid _

theorem stepsTo_frac {i : List UInt8} (hs : s.state = .frac) (hk : s.Keeps (i ++ 46 :: d :: l))
    (hi : Integer i) (hd : IsDigit d) (hl : Digits l) (c : UInt8) :
    s.StepsTo (i ++ 46 :: d :: l) c (s.step c) := by
  have hf : Fraction (46 :: d :: l) := .digits hd hl
  simp only [Lex.step, hs]
  refine stepsTo_numberStep hk (.of_fraction hi hf) fun r hr ↦ ?_
  split_ifs with he hc
  · refine stepsTo_append hr nofun ?_
    rw [List.append_assoc]
    exact .expStart hi hf he
  · refine stepsTo_append hr nofun ?_
    rw [List.append_assoc]
    exact .frac hi hd (hl.append (digits_singleton hc))
  · exact stepsTo_invalid _

theorem stepsTo_expStart {i f : List UInt8} (hs : s.state = .expStart)
    (hk : s.Keeps (i ++ (f ++ [e]))) (hi : Integer i) (hf : Fraction f) (he : IsExponent e)
    (c : UInt8) : s.StepsTo (i ++ (f ++ [e])) c (s.step c) := by
  obtain ⟨r, htext, hr⟩ := hk
  simp only [Lex.step, hs, Lex.withText, htext]
  split_ifs with hsign hc
  · refine stepsTo_append hr nofun ?_
    rw [List.append_assoc, List.append_assoc]
    exact .expSign hi hf he hsign
  · refine stepsTo_append hr nofun ?_
    rw [List.append_assoc, List.append_assoc]
    exact .exp hi hf (.digits he hc (fun _ h ↦ absurd h List.not_mem_nil)) (List.cons_ne_nil _ _)
  · exact stepsTo_invalid _

theorem stepsTo_expSign {i f : List UInt8} (hs : s.state = .expSign)
    (hk : s.Keeps (i ++ (f ++ [e, d]))) (hi : Integer i) (hf : Fraction f) (he : IsExponent e)
    (hd : d = 45 ∨ d = 43) (c : UInt8) : s.StepsTo (i ++ (f ++ [e, d])) c (s.step c) := by
  obtain ⟨r, htext, hr⟩ := hk
  simp only [Lex.step, hs, Lex.withText, htext]
  split_ifs with hc
  · refine stepsTo_append hr nofun ?_
    rw [List.append_assoc, List.append_assoc]
    exact .exp hi hf (.signed he hd hc (fun _ h ↦ absurd h List.not_mem_nil)) (List.cons_ne_nil _ _)
  · exact stepsTo_invalid _

theorem stepsTo_exp {i f x : List UInt8} (hs : s.state = .exp) (hk : s.Keeps (i ++ (f ++ x)))
    (hi : Integer i) (hf : Fraction f) (he : Exponent x) (hx : x ≠ []) (c : UInt8) :
    s.StepsTo (i ++ (f ++ x)) c (s.step c) := by
  simp only [Lex.step, hs]
  refine stepsTo_numberStep hk ⟨i, f, x, hi, hf, he, rfl⟩ fun r hr ↦ ?_
  split_ifs with hc
  · refine stepsTo_append hr nofun ?_
    rw [List.append_assoc, List.append_assoc]
    exact .exp hi hf (exponent_append he hx hc) (List.append_ne_nil_of_left_ne_nil hx _)
  · exact stepsTo_invalid _

/-! ### The beginning of a token -/

theorem Lex.StepsTo.ite {P : Prop} [Decidable P] {x y : Exec LexStep} (hx : P → s.StepsTo l c x)
    (hy : ¬ P → s.StepsTo l c y) : s.StepsTo l c (if P then x else y) := by
  by_cases h : P
  · rw [if_pos h]
    exact hx h
  · rw [if_neg h]
    exact hy h

/-- A token of one character. -/
theorem stepsTo_single (hs : s.state = .root) {k : Token} (hlex : k.lexeme = [c])
    (hok : k.Ok) (hcarries : s.Carries k) (hn : ∀ x, k ≠ .number x) :
    s.StepsTo [] c (.ok (.done (value k) s true)) := ⟨_, rfl, .token hok hlex hs hcarries hn⟩

/-- The first letter of a literal. -/
theorem stepsTo_goTo (hstate : state ≠ .root) (hletters : Letters state [c]) :
    s.StepsTo [] c (s.goTo state) := ⟨_, rfl, .next hstate (.inr hletters)⟩

/-- The first character of a number. -/
theorem stepsTo_start (hstate : state ≠ .root) (hpart : Part state [c] [c]) :
    s.StepsTo [] c (s.start c state) := by
  obtain ⟨r, hr, hc⟩ := (Rcstring.holds_create rstringDefault).catc c
  refine ⟨.next { s with state, text := some r }, ?_, ?_⟩
  swap
  · exact .next hstate (.inl ⟨[c], ⟨r, rfl, hc⟩, hpart⟩)
  rw [Lex.start, hr, Exec.ok_bind]
  rfl

theorem stepsTo_root (hs : s.state = .root) (c : UInt8) : s.StepsTo [] c (s.rootStep c) := by
  unfold Lex.rootStep
  refine .ite (fun h ↦ ⟨_, rfl, .blank hs ?_ hs⟩) fun _ ↦ ?_
  · exact h.elim .inl fun h ↦ .inr (.inl h)
  refine .ite (fun h ↦ ⟨_, rfl, .blank hs (.inr (.inr h)) hs⟩) fun _ ↦ ?_
  refine .ite (fun h ↦ ?_) fun _ ↦ ?_
  · exact stepsTo_single hs (k := .beginObject) (by rw [h]; rfl) trivial trivial nofun
  refine .ite (fun h ↦ ?_) fun _ ↦ ?_
  · exact stepsTo_single hs (k := .endObject) (by rw [h]; rfl) trivial trivial nofun
  refine .ite (fun h ↦ ?_) fun _ ↦ ?_
  · exact stepsTo_single hs (k := .beginArray) (by rw [h]; rfl) trivial trivial nofun
  refine .ite (fun h ↦ ?_) fun _ ↦ ?_
  · exact stepsTo_single hs (k := .endArray) (by rw [h]; rfl) trivial trivial nofun
  refine .ite (fun h ↦ ?_) fun _ ↦ ?_
  · exact stepsTo_single hs (k := .nameSeparator) (by rw [h]; rfl) trivial trivial nofun
  refine .ite (fun h ↦ ?_) fun _ ↦ ?_
  · exact stepsTo_single hs (k := .valueSeparator) (by rw [h]; rfl) trivial trivial nofun
  refine .ite (fun h ↦ ?_) fun _ ↦ ?_
  · subst h
    exact ⟨_, rfl, .next nofun (.inl ⟨[], ⟨_, rfl, Rcstring.holds_create _⟩, .string .nil⟩)⟩
  refine .ite (fun h ↦ stepsTo_goTo nofun (h ▸ .true1)) fun _ ↦ ?_
  refine .ite (fun h ↦ stepsTo_goTo nofun (h ▸ .false1)) fun _ ↦ ?_
  refine .ite (fun h ↦ stepsTo_goTo nofun (h ▸ .null1)) fun _ ↦ ?_
  refine .ite (fun h ↦ stepsTo_start nofun (h ▸ .minus)) fun _ ↦ ?_
  refine .ite (fun h ↦ stepsTo_start nofun (h ▸ .zero (.inl rfl))) fun hz ↦ ?_
  refine .ite (fun h ↦ ?_) fun _ ↦ stepsTo_invalid _
  exact stepsTo_start nofun (.int (s := []) (.inl rfl) h hz fun _ h ↦ absurd h List.not_mem_nil)

/-- Each character behind those that have been read of a token has one of the outcomes. -/
theorem stepsTo_step (h : s.Reading l) (c : UInt8) : s.StepsTo l c (s.step c) := by
  rcases h with ⟨t, hk, hp⟩ | hletters
  · generalize hs : s.state = state at hp
    cases hp with
    | string ht => exact stepsTo_string hs hk ht c
    | escape ht => exact stepsTo_escape hs hk ht c
    | unicode1 ht => exact stepsTo_unicode (.inl hs) hk (hs ▸ .unicode1 ht) c
    | unicode2 ht ha => exact stepsTo_unicode (.inr (.inl hs)) hk (hs ▸ .unicode2 ht ha) c
    | unicode3 ht ha hb =>
      exact stepsTo_unicode (.inr (.inr (.inl hs))) hk (hs ▸ .unicode3 ht ha hb) c
    | unicode4 ht ha hb hd =>
      exact stepsTo_unicode (.inr (.inr (.inr hs))) hk (hs ▸ .unicode4 ht ha hb hd) c
    | minus => exact stepsTo_minus hs hk c
    | zero hg => exact stepsTo_zero hs hk hg c
    | int hg hd hd0 hl => exact stepsTo_int hs hk hg hd hd0 hl c
    | fracStart hi => exact stepsTo_fracStart hs hk hi c
    | frac hi hd hl => exact stepsTo_frac hs hk hi hd hl c
    | expStart hi hf he => exact stepsTo_expStart hs hk hi hf he c
    | expSign hi hf he hd => exact stepsTo_expSign hs hk hi hf he hd c
    | exp hi hf he hx => exact stepsTo_exp hs hk hi hf he hx c
  · generalize hs : s.state = state at hletters
    cases hletters with
    | root =>
      simp only [Lex.step, hs]
      exact stepsTo_root hs c
    | true1 =>
      simp only [Lex.step, hs]
      exact stepsTo_letterStep nofun .true2
    | true2 =>
      simp only [Lex.step, hs]
      exact stepsTo_letterStep nofun .true3
    | true3 =>
      simp only [Lex.step, hs]
      exact stepsTo_lastStep (k := .true) trivial rfl (fun _ ↦ trivial) nofun
    | false1 =>
      simp only [Lex.step, hs]
      exact stepsTo_letterStep nofun .false2
    | false2 =>
      simp only [Lex.step, hs]
      exact stepsTo_letterStep nofun .false3
    | false3 =>
      simp only [Lex.step, hs]
      exact stepsTo_letterStep nofun .false4
    | false4 =>
      simp only [Lex.step, hs]
      exact stepsTo_lastStep (k := .false) trivial rfl (fun _ ↦ trivial) nofun
    | null1 =>
      simp only [Lex.step, hs]
      exact stepsTo_letterStep nofun .null2
    | null2 =>
      simp only [Lex.step, hs]
      exact stepsTo_letterStep nofun .null3
    | null3 =>
      simp only [Lex.step, hs]
      exact stepsTo_lastStep (k := .null) trivial rfl (fun _ ↦ trivial) nofun

/-! ## Calls -/

/-- What a call has read behind the characters `l` of a token, given what it returns. -/
inductive Called (l p : List UInt8) : LexValue → List UInt8 → Lex → Prop where
  /-- The piece has ended. -/
  | more {s' : Lex} {w q : List UInt8} : p = w ++ q → Blank w → (w ≠ [] → l = []) →
      s'.Reading (l ++ q) → Called l p .more [] s'
  /-- A token has been read. -/
  | token {s' : Lex} {w q rest : List UInt8} {t : Token} : p = w ++ (q ++ rest) → Blank w →
      (w ≠ [] → l = []) → t.Ok → t.lexeme = l ++ q → s'.state = .root → s'.Carries t →
      (∀ x, t ≠ .number x) → Called l p (value t) rest s'
  /-- A number has been read, and a character of white space behind it. -/
  | number {s' : Lex} {w q rest : List UInt8} {c : UInt8} : p = w ++ (q ++ c :: rest) → Blank w →
      (w ≠ [] → l = []) → Number (l ++ q) → s'.state = .root → s'.Keeps (l ++ q) → IsBlank c →
      Called l p .number rest s'
  /-- A number has been read that something else follows. -/
  | closed {s' : Lex} {w q rest : List UInt8} {c : UInt8} : p = w ++ (q ++ c :: rest) → Blank w →
      (w ≠ [] → l = []) → Number (l ++ q) → s'.state = .root → s'.Keeps (l ++ q) → IsCloser c →
      Called l p .number (c :: rest) s'
  /-- There is an illegal character. -/
  | invalid {s' : Lex} {rest : List UInt8} : Called l p .invalidCharacter rest s'

/-- A character of white space more in front. -/
theorem Called.blank_cons (h : Called [] p v rest s') (hc : IsBlank c) :
    Called [] (c :: p) v rest s' := by
  have hb : ∀ {w : List UInt8}, Blank w → Blank (c :: w) :=
    fun hw ↦ List.forall_mem_cons.mpr ⟨hc, hw⟩
  cases h with
  | more hp hw _ hr => exact .more (congrArg (c :: ·) hp) (hb hw) (fun _ ↦ rfl) hr
  | token hp hw _ hok hlex hs hk hn =>
    exact .token (congrArg (c :: ·) hp) (hb hw) (fun _ ↦ rfl) hok hlex hs hk hn
  | number hp hw _ hn hs hk hd =>
    exact .number (congrArg (c :: ·) hp) (hb hw) (fun _ ↦ rfl) hn hs hk hd
  | closed hp hw _ hn hs hk hd =>
    exact .closed (congrArg (c :: ·) hp) (hb hw) (fun _ ↦ rfl) hn hs hk hd
  | invalid => exact .invalid

/-- A character that has been read is the next one of the piece. -/
theorem Called.of_append (h : Called (l ++ [c]) p v rest s') : Called l (c :: p) v rest s' := by
  have hne : ∀ {w : List UInt8}, (w ≠ [] → l ++ [c] = []) → w = [] := fun hw ↦
    by_contra fun h ↦ List.append_ne_nil_of_right_ne_nil l (List.cons_ne_nil c []) (hw h)
  have happ : ∀ q, l ++ [c] ++ q = l ++ c :: q := fun q ↦ by
    rw [List.append_assoc, List.singleton_append]
  have hnil : Blank [] := fun _ hd ↦ absurd hd List.not_mem_nil
  have habs : ([] : List UInt8) ≠ [] → l = [] := fun h ↦ absurd rfl h
  cases h with
  | more hp _ hw hr =>
    obtain rfl := hne hw
    exact .more (w := []) (congrArg (c :: ·) hp) hnil habs (happ _ ▸ hr)
  | token hp _ hw hok hlex hs hk hn =>
    obtain rfl := hne hw
    exact .token (w := []) (congrArg (c :: ·) hp) hnil habs hok (happ _ ▸ hlex) hs hk hn
  | number hp _ hw hn hs hk hd =>
    obtain rfl := hne hw
    exact .number (w := []) (congrArg (c :: ·) hp) hnil habs (happ _ ▸ hn) hs (happ _ ▸ hk) hd
  | closed hp _ hw hn hs hk hd =>
    obtain rfl := hne hw
    exact .closed (w := []) (congrArg (c :: ·) hp) hnil habs (happ _ ▸ hn) hs (happ _ ▸ hk) hd
  | invalid => exact .invalid

theorem Lex.Reading.root (h : s.Reading l) (hs : s.state = .root) : l = [] := by
  rcases h with ⟨t, -, hp⟩ | hl
  · rw [hs] at hp
    cases hp
  · rw [hs] at hl
    cases hl
    rfl

theorem reading_root (hs : s.state = .root) : s.Reading [] := .inr (hs ▸ .root)

/-- A call returns, and what it returns tells what it has read. -/
theorem lexer_called (h : s.Reading l) (p : List UInt8) :
    ∃ v rest s', lexer p s = .ok (v, rest, s') ∧ Called l p v rest s' := by
  have hnil : Blank [] := fun _ hd ↦ absurd hd List.not_mem_nil
  have habs : ([] : List UInt8) ≠ [] → l = [] := fun h ↦ absurd rfl h
  induction p generalizing s l with
  | nil => exact ⟨_, _, _, rfl, .more (w := []) rfl hnil habs ((List.append_nil l).symm ▸ h)⟩
  | cons c p ih =>
    obtain ⟨out, hout, ho⟩ := stepsTo_step h c
    rw [lexer, hout, Exec.ok_bind]
    cases ho with
    | blank hs hc hs' =>
      obtain rfl := h.root hs
      obtain ⟨v, rest, s'', heq, hcalled⟩ := ih (reading_root hs') habs
      exact ⟨v, rest, s'', heq, hcalled.blank_cons hc⟩
    | next hs' hr =>
      obtain ⟨v, rest, s'', heq, hcalled⟩ := ih hr fun h ↦ absurd rfl h
      exact ⟨v, rest, s'', heq, hcalled.of_append⟩
    | token hok hlex hs' hk hn =>
      exact ⟨_, _, _, rfl, .token (w := []) (q := [c]) rfl hnil habs hok hlex hs' hk hn⟩
    | number hn hs' hk hc =>
      rw [← List.append_nil l] at hn hk
      rcases hc with ⟨hc, rfl⟩ | ⟨hc, rfl⟩
      · exact ⟨_, _, _, rfl, .number (w := []) (q := []) rfl hnil habs hn hs' hk hc⟩
      · exact ⟨_, _, _, rfl, .closed (w := []) (q := []) rfl hnil habs hn hs' hk hc⟩
    | invalid => exact ⟨_, _, _, rfl, .invalid⟩

end Dlbase.Json
