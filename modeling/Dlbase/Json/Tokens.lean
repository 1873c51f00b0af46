import Dlbase.Json.Lexing

/-!
# Tokens are read

Every token that something follows is read by one call of `lexer`, whatever white space there is in
front of it.
-/

namespace Dlbase.Json

open Cmem
open JsonToken

variable {s s' s'' : Lex} {t l u p q w rest : List UInt8} {c d e : UInt8} {state : LexState}
  {v : LexValue}

/-- The characters `u` are read, and nothing is returned. -/
def Reads (s : Lex) (u : List UInt8) (s' : Lex) : Prop := ∀ p, lexer (u ++ p) s = lexer p s'

theorem Reads.refl (s : Lex) : Reads s [] s := fun _ ↦ rfl

theorem Reads.trans (h : Reads s u s') (h' : Reads s' t s'') : Reads s (u ++ t) s'' := fun p ↦ by
  rw [List.append_assoc, h, h']

theorem reads_of_step (h : s.step c = .ok (.next s')) : Reads s [c] s' := fun p ↦ by
  rw [List.singleton_append, lexer, h, Exec.ok_bind]

theorem Reads.cons (h : s.step c = .ok (.next s')) (h' : Reads s' u s'') : Reads s (c :: u) s'' :=
  (reads_of_step h).trans h'

/-- The characters are read and added to the text that is kept. -/
def Goes (s : Lex) (u : List UInt8) (state : LexState) (t : List UInt8) : Prop :=
  ∃ s', Reads s u s' ∧ s'.state = state ∧ s'.Keeps t

theorem Goes.trans {next : LexState} (h : Goes s u state t)
    (h' : ∀ s' : Lex, s'.state = state → s'.Keeps t → Goes s' q next p) :
    Goes s (u ++ q) next p := by
  obtain ⟨s', hr, hs, hk⟩ := h
  obtain ⟨s'', hr', hs', hk'⟩ := h' s' hs hk
  exact ⟨s'', hr.trans hr', hs', hk'⟩

theorem goes_nil (hs : s.state = state) (hk : s.Keeps t) : Goes s [] state t :=
  ⟨s, .refl s, hs, hk⟩

theorem goes_append (hk : s.Keeps t) (h : ∀ r, s.text = some r → s.step c = s.append c r state) :
    Goes s [c] state (t ++ [c]) := by
  obtain ⟨r, htext, hr⟩ := hk
  obtain ⟨s', hs', hstate, hk'⟩ := append_eq hr s c state
  exact ⟨s', reads_of_step ((h r htext).trans hs'), hstate, hk'⟩

/-! ## Strings -/

theorem goes_plain (hs : s.state = .string) (hk : s.Keeps t) (hc : JsonString.IsPlain c) :
    Goes s [c] .string (t ++ [c]) := by
  refine goes_append hk fun r hr ↦ ?_
  have hle : ¬ c ≤ 31 := by
    have hge := hc.1
    simp only [UInt8.le_iff_toNat_le, UInt8.reduceToNat] at hge ⊢
    omega
  simp only [Lex.step, hs, Lex.withText, hr]
  rw [if_neg hle, if_neg (show c ≠ ch '"' from hc.2.1), if_neg (show c ≠ ch '\\' from hc.2.2)]

theorem goes_backslash (hs : s.state = .string) (hk : s.Keeps t) :
    Goes s [JsonString.backslash] .escape (t ++ [JsonString.backslash]) := by
  refine goes_append hk fun r hr ↦ ?_
  simp only [Lex.step, hs, Lex.withText, hr]
  rfl

theorem goes_short (hs : s.state = .escape) (hk : s.Keeps t) (hc : IsShort c) :
    Goes s [c] .string (t ++ [c]) := by
  refine goes_append hk fun r hr ↦ ?_
  simp only [Lex.step, hs, Lex.withText, hr]
  rw [if_pos hc]

theorem goes_letterU (hs : s.state = .escape) (hk : s.Keeps t) :
    Goes s [JsonString.letterU] .unicode1 (t ++ [JsonString.letterU]) := by
  refine goes_append hk fun r hr ↦ ?_
  simp only [Lex.step, hs, Lex.withText, hr]
  rfl

theorem goes_hex (next : LexState) (hk : s.Keeps t) (hc : Hexadecimal.IsDigit c)
    (hstep : s.step c = s.hexStep c next) : Goes s [c] next (t ++ [c]) := by
  refine goes_append hk fun r hr ↦ ?_
  simp only [hstep, Lex.hexStep, Lex.withText, hr]
  rw [if_pos ((isHex_iff c).mpr hc)]

/-- The text of a string is read. -/
theorem goes_text (hu : JsonString.Text u) (hs : s.state = .string) (hk : s.Keeps t) :
    Goes s u .string (t ++ u) := by
  induction hu generalizing s t with
  | nil => exact goes_nil hs (by rwa [List.append_nil])
  | @plain c l hc _ ih =>
    rw [List.append_cons]
    exact (goes_plain hs hk hc).trans fun s' hs' hk' ↦ ih hs' hk'
  | @short c l hc _ ih =>
    rw [List.append_cons, List.append_cons]
    exact (goes_backslash hs hk).trans fun s' hs' hk' ↦
      (goes_short hs' hk' ((isShort_iff c).mpr hc)).trans fun s' hs' hk' ↦ ih hs' hk'
  | @unicode a b c d l ha hb hc hd _ ih =>
    rw [List.append_cons, List.append_cons, List.append_cons, List.append_cons, List.append_cons,
      List.append_cons]
    refine (goes_backslash hs hk).trans fun s' hs' hk' ↦ ?_
    refine (goes_letterU hs' hk').trans fun s' hs' hk' ↦ ?_
    refine (goes_hex .unicode2 hk' ha (by simp only [Lex.step, hs'])).trans fun s' hs' hk' ↦ ?_
    refine (goes_hex .unicode3 hk' hb (by simp only [Lex.step, hs'])).trans fun s' hs' hk' ↦ ?_
    refine (goes_hex .unicode4 hk' hc (by simp only [Lex.step, hs'])).trans fun s' hs' hk' ↦ ?_
    exact (goes_hex .string hk' hd (by simp only [Lex.step, hs'])).trans fun s' hs' hk' ↦ ih hs' hk'

/-! ## Numbers -/

/-- A state in which a number may end. -/
def EndsNumber (state : LexState) : Prop :=
  state = .zero ∨ state = .int ∨ state = .frac ∨ state = .exp

/-- Digits are read in a state that stays the same. -/
theorem goes_digits (hu : Digits u) (hs : s.state = state) (hk : s.Keeps t)
    (hstep : ∀ (s : Lex) (c : UInt8) (r : Rcstring), s.state = state → IsDigit c →
      s.text = some r → s.step c = s.append c r state) : Goes s u state (t ++ u) := by
  induction u generalizing s t with
  | nil => exact goes_nil hs (by rwa [List.append_nil])
  | cons c u ih =>
    obtain ⟨hc, hu⟩ := List.forall_mem_cons.mp hu
    rw [List.append_cons]
    exact (goes_append hk fun r hr ↦ hstep s c r hs hc hr).trans fun s' hs' hk' ↦ ih hu hs' hk'

theorem step_int {r : Rcstring} (hs : s.state = .int) (hc : IsDigit c) (hr : s.text = some r) :
    s.step c = s.append c r .int := by
  simp only [Lex.step, hs, Lex.numberStep, Lex.withText, hr]
  rw [if_neg hc.not_blank, if_neg hc.not_closer, if_neg (show c ≠ ch '.' from hc.ne_dot),
    if_neg (show ¬ (c = ch 'e' ∨ c = ch 'E') from hc.not_exponent), if_pos hc]

theorem step_frac {r : Rcstring} (hs : s.state = .frac) (hc : IsDigit c) (hr : s.text = some r) :
    s.step c = s.append c r .frac := by
  simp only [Lex.step, hs, Lex.numberStep, Lex.withText, hr]
  rw [if_neg hc.not_blank, if_neg hc.not_closer,
    if_neg (show ¬ (c = ch 'e' ∨ c = ch 'E') from hc.not_exponent), if_pos hc]

theorem step_exp {r : Rcstring} (hs : s.state = .exp) (hc : IsDigit c) (hr : s.text = some r) :
    s.step c = s.append c r .exp := by
  simp only [Lex.step, hs, Lex.numberStep, Lex.withText, hr]
  rw [if_neg hc.not_blank, if_neg hc.not_closer, if_pos hc]

theorem goes_start (h : s.step c = s.start c state) : Goes s [c] state [c] := by
  obtain ⟨r, hr, hc⟩ := (Rcstring.holds_create rstringDefault).catc c
  refine ⟨{ s with state, text := some r }, reads_of_step (h.trans ?_), rfl, r, rfl, hc⟩
  rw [Lex.start, hr, Exec.ok_bind]
  rfl

theorem goes_minus (hs : s.state = .root) : Goes s [45] .minus [45] := by
  refine goes_start ?_
  simp only [Lex.step, hs]
  rfl

theorem goes_zero (hs : s.state = .root) (hg : Sign u) : Goes s (u ++ [48]) .zero (u ++ [48]) := by
  rcases hg with rfl | rfl
  · refine goes_start ?_
    simp only [Lex.step, hs]
    rfl
  · refine (goes_minus hs).trans fun s' hs' hk' ↦ goes_append hk' fun r hr ↦ ?_
    simp only [Lex.step, hs', Lex.withText, hr]
    rfl

/-- A digit begins an integer. -/
theorem rootStep_digit (hc : IsDigit c) (h0 : c ≠ 48) : s.rootStep c = s.start c .int := by
  unfold Lex.rootStep
  have hne : ∀ d : UInt8, ¬ IsDigit d → c ≠ d := fun d hd h ↦ hd (h ▸ hc)
  rw [if_neg (not_or.mpr ⟨hne _ (by decide), hne _ (by decide)⟩),
    if_neg (not_or.mpr ⟨hne _ (by decide), hne _ (by decide)⟩), if_neg (hne _ (by decide)),
    if_neg (hne _ (by decide)), if_neg (hne _ (by decide)), if_neg (hne _ (by decide)),
    if_neg (hne _ (by decide)), if_neg (hne _ (by decide)), if_neg (hne _ (by decide)),
    if_neg (hne _ (by decide)), if_neg (hne _ (by decide)), if_neg (hne _ (by decide)),
    if_neg (hne _ (by decide)), if_neg (show c ≠ ch '0' from h0), if_pos hc]

theorem goes_integer {i : List UInt8} (hs : s.state = .root) (hi : Integer i) :
    ∃ state, EndsNumber state ∧ (state = .zero ∨ state = .int) ∧ Goes s i state i := by
  cases hi with
  | zero hg => exact ⟨.zero, .inl rfl, .inl rfl, goes_zero hs hg⟩
  | @digits g l c hg hc h0 hl =>
    refine ⟨.int, .inr (.inl rfl), .inr rfl, ?_⟩
    have hfirst : Goes s (g ++ [c]) .int (g ++ [c]) := by
      rcases hg with rfl | rfl
      · refine goes_start ?_
        simp only [Lex.step, hs]
        exact rootStep_digit hc h0
      · refine (goes_minus hs).trans fun s' hs' hk' ↦ goes_append hk' fun r hr ↦ ?_
        simp only [Lex.step, hs', Lex.withText, hr]
        rw [if_neg (show c ≠ ch '0' from h0), if_pos hc]
    rw [List.append_cons]
    exact hfirst.trans fun s' hs' hk' ↦ goes_digits hl hs' hk' fun _ _ _ ↦ step_int

theorem goes_fraction {f : List UInt8} (hs : s.state = .zero ∨ s.state = .int) (hk : s.Keeps t)
    (hf : Fraction f) :
    ∃ state, (state = .zero ∨ state = .int ∨ state = .frac) ∧ Goes s f state (t ++ f) := by
  cases hf with
  | none =>
    refine ⟨s.state, hs.imp_right .inl, goes_nil rfl (by rwa [List.append_nil])⟩
  | @digits c l hc hl =>
    refine ⟨.frac, .inr (.inr rfl), ?_⟩
    have hdot : Goes s [46] .fracStart (t ++ [46]) := by
      refine goes_append hk fun r hr ↦ ?_
      rcases hs with hs | hs <;> simp only [Lex.step, hs, Lex.numberStep, Lex.withText, hr] <;> rfl
    rw [List.append_cons, List.append_cons]
    refine hdot.trans fun s' hs' hk' ↦ ?_
    have hfirst : Goes s' [c] .frac (t ++ [46] ++ [c]) := by
      refine goes_append hk' fun r hr ↦ ?_
      simp only [Lex.step, hs', Lex.withText, hr]
      rw [if_pos hc]
    exact hfirst.trans fun s' hs' hk' ↦ goes_digits hl hs' hk' fun _ _ _ ↦ step_frac

theorem goes_expStart (hs : s.state = .zero ∨ s.state = .int ∨ s.state = .frac) (hk : s.Keeps t)
    (he : IsExponent e) : Goes s [e] .expStart (t ++ [e]) := by
  have he' : e = ch 'e' ∨ e = ch 'E' := he
  refine goes_append hk fun r hr ↦ ?_
  rcases hs with hs | hs | hs <;>
    simp only [Lex.step, hs, Lex.numberStep, Lex.withText, hr] <;>
    rw [if_neg he.not_blank, if_neg he.not_closer]
  · rw [if_neg (show e ≠ ch '.' from he.ne_dot), if_pos he']
  · rw [if_neg (show e ≠ ch '.' from he.ne_dot), if_pos he']
  · rw [if_pos he']

theorem goes_exponent {x : List UInt8} (hs : s.state = .zero ∨ s.state = .int ∨ s.state = .frac)
    (hk : s.Keeps t) (hx : Exponent x) : ∃ state, EndsNumber state ∧ Goes s x state (t ++ x) := by
  cases hx with
  | none =>
    refine ⟨s.state, ?_, goes_nil rfl (by rwa [List.append_nil])⟩
    rcases hs with hs | hs | hs
    · exact .inl hs
    · exact .inr (.inl hs)
    · exact .inr (.inr (.inl hs))
  | @digits e c l he hc hl =>
    refine ⟨.exp, .inr (.inr (.inr rfl)), ?_⟩
    rw [List.append_cons, List.append_cons]
    refine (goes_expStart hs hk he).trans fun s' hs' hk' ↦ ?_
    have hfirst : Goes s' [c] .exp (t ++ [e] ++ [c]) := by
      refine goes_append hk' fun r hr ↦ ?_
      simp only [Lex.step, hs', Lex.withText, hr]
      rw [if_neg, if_pos hc]
      rintro (rfl | rfl)
      all_goals exact absurd hc (by decide)
    exact hfirst.trans fun s' hs' hk' ↦ goes_digits hl hs' hk' fun _ _ _ ↦ step_exp
  | @signed e g c l he hg hc hl =>
    refine ⟨.exp, .inr (.inr (.inr rfl)), ?_⟩
    rw [List.append_cons, List.append_cons, List.append_cons]
    refine (goes_expStart hs hk he).trans fun s' hs' hk' ↦ ?_
    have hsign : Goes s' [g] .expSign (t ++ [e] ++ [g]) := by
      refine goes_append hk' fun r hr ↦ ?_
      simp only [Lex.step, hs', Lex.withText, hr]
      rw [if_pos]
      exact hg
    refine hsign.trans fun s' hs' hk' ↦ ?_
    have hfirst : Goes s' [c] .exp (t ++ [e] ++ [g] ++ [c]) := by
      refine goes_append hk' fun r hr ↦ ?_
      simp only [Lex.step, hs', Lex.withText, hr]
      rw [if_pos hc]
    exact hfirst.trans fun s' hs' hk' ↦ goes_digits hl hs' hk' fun _ _ _ ↦ step_exp

/-- The text of a number is read. -/
theorem goes_number (hs : s.state = .root) (hn : Number t) :
    ∃ state, EndsNumber state ∧ Goes s t state t := by
  obtain ⟨i, f, x, hi, hf, hx, rfl⟩ := hn
  obtain ⟨state, -, hstate, s', hr, hs', hk'⟩ := goes_integer hs hi
  subst hs'
  obtain ⟨state, hstate, s'', hr', hs'', hk''⟩ := goes_fraction hstate hk' hf
  subst hs''
  obtain ⟨state, hends, s₃, hr₃, hs₃, hk₃⟩ := goes_exponent hstate hk'' hx
  exact ⟨state, hends, s₃, hr.trans (hr'.trans hr₃), hs₃, by rwa [List.append_assoc] at hk₃⟩

/-- A number ends. -/
theorem step_ends (hs : EndsNumber s.state) (hk : s.Keeps t) (hc : IsBlank c ∨ IsCloser c) :
    s.step c = s.finish .number (decide (IsBlank c)) := by
  obtain ⟨r, htext, -⟩ := hk
  have hnumber : ∀ k, s.numberStep c k = s.finish .number (decide (IsBlank c)) := by
    intro k
    simp only [Lex.numberStep, Lex.withText, htext]
    by_cases hb : IsBlank c
    · rw [if_pos hb, decide_eq_true hb]
    · rw [if_neg hb, if_pos (hc.resolve_left hb), decide_eq_false hb]
  rcases hs with hs | hs | hs | hs <;> simp only [Lex.step, hs] <;> exact hnumber _

/-! ## Tokens -/

/-- White space is skipped. -/
theorem reads_blank (hs : s.state = .root) (hw : Blank w) :
    ∃ s', Reads s w s' ∧ s'.state = .root := by
  induction w generalizing s with
  | nil => exact ⟨s, .refl s, hs⟩
  | cons c w ih =>
    obtain ⟨hc, hw⟩ := List.forall_mem_cons.mp hw
    have hstep : ∃ s', s.step c = .ok (.next s') ∧ s'.state = .root := by
      simp only [Lex.step, hs]
      rcases hc with rfl | rfl | rfl | rfl
      all_goals exact ⟨_, rfl, hs⟩
    obtain ⟨s', hstep, hs'⟩ := hstep
    obtain ⟨s'', hr, hs''⟩ := ih hs' hw
    exact ⟨s'', .cons hstep hr, hs''⟩

theorem lexer_done {read : Bool} (h : s.step c = .ok (.done v s' read)) (p : List UInt8) :
    lexer (c :: p) s = .ok (v, if read then p else c :: p, s') := by
  rw [lexer, h, Exec.ok_bind]
  rfl

/-- A token of one character is read. -/
theorem lexer_single {k : Token} (hs : s.state = .root) (hlex : k.lexeme = [c])
    (hstep : s.rootStep c = .ok (.done (value k) s true)) (hcarries : s.Carries k)
    (l : List UInt8) : ∃ s', lexer (k.lexeme ++ l) s = .ok (value k, l, s') ∧
      s'.state = .root ∧ s'.Carries k := by
  refine ⟨s, ?_, hs, hcarries⟩
  rw [hlex]
  have hdone : s.step c = .ok (.done (value k) s true) := by
    simp only [Lex.step, hs]
    exact hstep
  exact lexer_done hdone l

/-- The first letters of a literal are read. -/
theorem reads_letter {a : UInt8} (hstep : s.step a = s.goTo state) :
    ∃ s', Reads s [a] s' ∧ s'.state = state := ⟨_, reads_of_step hstep, rfl⟩

/-- A literal of four letters is read. -/
theorem lexer_literal {k : Token} {a b : UInt8} (st₁ st₂ st₃ : LexState)
    (hs : s.state = .root) (hlex : k.lexeme = [a, b, c, d])
    (h₁ : s.rootStep a = s.goTo st₁)
    (h₂ : ∀ s : Lex, s.state = st₁ → s.step b = s.goTo st₂)
    (h₃ : ∀ s : Lex, s.state = st₂ → s.step c = s.goTo st₃)
    (h₄ : ∀ s : Lex, s.state = st₃ → s.step d = s.finish (value k) true)
    (hcarries : ∀ s : Lex, s.Carries k) (l : List UInt8) :
    ∃ s', lexer (k.lexeme ++ l) s = .ok (value k, l, s') ∧ s'.state = .root ∧
      s'.Carries k := by
  have hroot : s.step a = s.goTo st₁ := by
    simp only [Lex.step, hs]
    exact h₁
  obtain ⟨s₁, hr₁, hs₁⟩ := reads_letter hroot
  obtain ⟨s₂, hr₂, hs₂⟩ := reads_letter (h₂ s₁ hs₁)
  obtain ⟨s₃, hr₃, hs₃⟩ := reads_letter (h₃ s₂ hs₂)
  refine ⟨{ s₃ with state := .root }, ?_, rfl, hcarries _⟩
  have hread : Reads s [a, b, c] s₃ := hr₁.trans (hr₂.trans hr₃)
  rw [hlex]
  exact (hread (d :: l)).trans (lexer_done (h₄ s₃ hs₃) l)

/-- A token is read that is allowed and may be followed by what is behind it. -/
theorem lexer_lexeme {tok : Token} (hs : s.state = .root) (hok : tok.Ok)
    (hbefore : tok.MayPrecede l) :
    ∃ s', lexer (tok.lexeme ++ l) s = .ok (value tok, tok.rest l, s') ∧
      s'.state = .root ∧ s'.Carries tok := by
  cases tok with
  | string t =>
    have hopen : s.step JsonString.quote = .ok (.next
        { s with state := .string, text := some (Rcstring.create rstringDefault) }) := by
      simp only [Lex.step, hs]
      rfl
    obtain ⟨s', hr, hs', hk'⟩ := goes_text (t := []) hok rfl
      (s := { s with state := .string, text := some (Rcstring.create rstringDefault) })
      ⟨_, rfl, Rcstring.holds_create _⟩
    refine ⟨{ s' with state := .root }, ?_, rfl, hk'⟩
    have hclose : s'.step JsonString.quote = s'.finish .string true := by
      obtain ⟨r, htext, -⟩ := hk'
      simp only [Lex.step, hs', Lex.withText, htext]
      rfl
    have hread := Reads.cons hopen hr
    rw [Token.lexeme, List.cons_append, List.append_assoc, ← List.cons_append, hread,
      List.singleton_append]
    exact lexer_done hclose l
  | number t =>
    obtain ⟨c, l, rfl, hc⟩ := hbefore
    obtain ⟨state, hends, s', hr, hs', hk'⟩ := goes_number hs hok
    subst hs'
    refine ⟨{ s' with state := .root }, ?_, rfl, hk'⟩
    refine (hr (c :: l)).trans ((lexer_done (step_ends hends hk' hc) l).trans ?_)
    rw [Token.rest]
    by_cases hb : IsBlank c
    · rw [if_pos hb, if_pos (decide_eq_true hb)]
      rfl
    · rw [if_neg hb, if_neg (by rw [decide_eq_false hb]; exact Bool.false_ne_true)]
      rfl
  | false =>
    obtain ⟨s₁, hr₁, hs₁⟩ : ∃ s', Reads s [102] s' ∧ s'.state = .false1 :=
      reads_letter (by simp only [Lex.step, hs]; rfl)
    obtain ⟨s₂, hr₂, hs₂⟩ : ∃ s', Reads s₁ [97] s' ∧ s'.state = .false2 :=
      reads_letter (by simp only [Lex.step, hs₁]; rfl)
    obtain ⟨s₃, hr₃, hs₃⟩ : ∃ s', Reads s₂ [108] s' ∧ s'.state = .false3 :=
      reads_letter (by simp only [Lex.step, hs₂]; rfl)
    obtain ⟨s₄, hr₄, hs₄⟩ : ∃ s', Reads s₃ [115] s' ∧ s'.state = .false4 :=
      reads_letter (by simp only [Lex.step, hs₃]; rfl)
    refine ⟨{ s₄ with state := .root }, ?_, rfl, trivial⟩
    have hlast : s₄.step 101 = s₄.finish .false true := by
      simp only [Lex.step, hs₄]
      rfl
    have hread : Reads s [102, 97, 108, 115] s₄ := hr₁.trans (hr₂.trans (hr₃.trans hr₄))
    exact (hread (101 :: l)).trans (lexer_done hlast l)
  | true =>
    refine lexer_literal (k := .true) .true1 .true2 .true3 hs rfl rfl (fun s hs ↦ ?_)
      (fun s hs ↦ ?_) (fun s hs ↦ ?_) (fun _ ↦ trivial) l
    all_goals
      simp only [Lex.step, hs]
      rfl
  | null =>
    refine lexer_literal (k := .null) .null1 .null2 .null3 hs rfl rfl (fun s hs ↦ ?_)
      (fun s hs ↦ ?_) (fun s hs ↦ ?_) (fun _ ↦ trivial) l
    all_goals
      simp only [Lex.step, hs]
      rfl
  | beginObject => exact lexer_single (k := .beginObject) hs rfl rfl trivial l
  | endObject => exact lexer_single (k := .endObject) hs rfl rfl trivial l
  | beginArray => exact lexer_single (k := .beginArray) hs rfl rfl trivial l
  | endArray => exact lexer_single (k := .endArray) hs rfl rfl trivial l
  | nameSeparator => exact lexer_single (k := .nameSeparator) hs rfl rfl trivial l
  | valueSeparator => exact lexer_single (k := .valueSeparator) hs rfl rfl trivial l

/-- A token is read, with the white space in front of it. -/
theorem lexer_token {tok : Token} (hs : s.state = .root) (hw : Blank w) (hok : tok.Ok)
    (hbefore : tok.MayPrecede l) :
    ∃ s', lexer (w ++ (tok.lexeme ++ l)) s = .ok (value tok, tok.rest l, s') ∧
      s'.state = .root ∧ s'.Carries tok := by
  obtain ⟨s', hr, hs'⟩ := reads_blank hs hw
  obtain ⟨s'', hlex, hs'', hk⟩ := lexer_lexeme hs' hok hbefore
  exact ⟨s'', (hr _).trans hlex, hs'', hk⟩

/-! ## The end of a text -/

/-- A piece of a string that more characters complete. -/
theorem unfinished_string (hu : JsonString.Text (t ++ u)) :
    Unfinished (JsonString.quote :: t) := by
  refine ⟨.string (t ++ u), u ++ [JsonString.quote], hu, ?_, ?_⟩
  · rw [Token.lexeme, List.append_assoc]
    rfl
  · exact fun h ↦ absurd h (List.append_ne_nil_of_right_ne_nil _ (List.cons_ne_nil _ _))

/-- A piece of a number that more characters complete. -/
theorem unfinished_number (hn : Number (l ++ u)) : Unfinished l :=
  ⟨.number (l ++ u), u, hn, rfl, fun _ ↦ ⟨_, rfl⟩⟩

theorem Part.unfinished (h : Part state t l) : Unfinished l := by
  have hzero : Hexadecimal.IsDigit 48 := rfl
  have hnil : Digits [] := fun _ h ↦ absurd h List.not_mem_nil
  cases h with
  | @string t ht => exact unfinished_string (u := []) (by rwa [List.append_nil])
  | @escape t ht =>
    refine unfinished_string (u := [34]) ?_
    rw [List.append_assoc]
    exact text_append ht (.short rfl .nil)
  | @unicode1 t ht =>
    refine unfinished_string (u := [48, 48, 48, 48]) ?_
    rw [List.append_assoc]
    exact text_append ht (.unicode hzero hzero hzero hzero .nil)
  | @unicode2 t a ht ha =>
    refine unfinished_string (u := [48, 48, 48]) ?_
    rw [List.append_assoc]
    exact text_append ht (.unicode ((isHex_iff a).mp ha) hzero hzero hzero .nil)
  | @unicode3 t a b ht ha hb =>
    refine unfinished_string (u := [48, 48]) ?_
    rw [List.append_assoc]
    exact text_append ht
      (.unicode ((isHex_iff a).mp ha) ((isHex_iff b).mp hb) hzero hzero .nil)
  | @unicode4 t a b c ht ha hb hc =>
    refine unfinished_string (u := [48]) ?_
    rw [List.append_assoc]
    exact text_append ht
      (.unicode ((isHex_iff a).mp ha) ((isHex_iff b).mp hb) ((isHex_iff c).mp hc) hzero .nil)
  | minus => exact unfinished_number (u := [48]) (Integer.zero (.inr rfl)).number
  | zero hg => exact (Integer.zero hg).number.unfinished
  | int hg hd hd0 hl => exact (Integer.digits hg hd hd0 hl).number.unfinished
  | @fracStart i hi =>
    refine unfinished_number (u := [48]) ?_
    rw [List.append_assoc]
    exact .of_fraction hi (.digits (by decide) hnil)
  | frac hi hd hl => exact (Number.of_fraction hi (.digits hd hl)).unfinished
  | @expStart i f e hi hf he =>
    refine unfinished_number (u := [48]) ⟨i, f, [e, 48], hi, hf, .digits he (by decide) hnil, ?_⟩
    rw [List.append_assoc, List.append_assoc]
    rfl
  | @expSign i f e g hi hf he hg =>
    refine unfinished_number (u := [48])
      ⟨i, f, [e, g, 48], hi, hf, .signed he hg (by decide) hnil, ?_⟩
    rw [List.append_assoc, List.append_assoc]
    rfl
  | exp hi hf hx _ => exact Number.unfinished ⟨_, _, _, hi, hf, hx, rfl⟩

theorem Letters.unfinished (h : Letters state l) : Unfinished l := by
  cases h with
  | root => exact unfinished_nil
  | true1 => exact ⟨.true, [114, 117, 101], trivial, rfl, nofun⟩
  | true2 => exact ⟨.true, [117, 101], trivial, rfl, nofun⟩
  | true3 => exact ⟨.true, [101], trivial, rfl, nofun⟩
  | false1 => exact ⟨.false, [97, 108, 115, 101], trivial, rfl, nofun⟩
  | false2 => exact ⟨.false, [108, 115, 101], trivial, rfl, nofun⟩
  | false3 => exact ⟨.false, [115, 101], trivial, rfl, nofun⟩
  | false4 => exact ⟨.false, [101], trivial, rfl, nofun⟩
  | null1 => exact ⟨.null, [117, 108, 108], trivial, rfl, nofun⟩
  | null2 => exact ⟨.null, [108, 108], trivial, rfl, nofun⟩
  | null3 => exact ⟨.null, [108], trivial, rfl, nofun⟩

/-- What has been read of a token is a piece of one. -/
theorem Lex.Reading.unfinished (h : s.Reading l) : Unfinished l := by
  rcases h with ⟨t, -, hp⟩ | hl
  · exact hp.unfinished
  · exact hl.unfinished

/-- A piece of a token is read, and nothing is returned for it. -/
theorem lexer_unfinished (hs : s.state = .root) (hq : Unfinished q) :
    ∃ s', lexer q s = .ok (.more, [], s') := by
  obtain ⟨k, u, hok, hlex, hnum⟩ := hq
  obtain ⟨v, rest, s', heq, -⟩ := lexer_called (reading_root hs) q
  by_cases hv : v = .more
  · subst hv
    obtain ⟨rfl, -⟩ := lexer_more heq
    exact ⟨s', heq⟩
  · -- whatever else were returned would be returned for the whole token as well, with a space
    have hlong := lexer_append heq hv (u ++ [0x20])
    obtain ⟨s'', hall, -, -⟩ := lexer_lexeme (l := [0x20]) hs hok (by
      cases k with
      | number => exact ⟨_, _, rfl, .inl (.inl rfl)⟩
      | _ => trivial)
    rw [hlex, List.append_assoc, hlong] at hall
    obtain ⟨-, hpair⟩ := Prod.mk.inj (Except.ok.inj hall)
    obtain ⟨hrest, -⟩ := Prod.mk.inj hpair
    have hu : u = [] ∧ k.rest [0x20] = [0x20] := by
      have hlen : k.rest [0x20] = [] ∨ k.rest [0x20] = [0x20] := by
        cases k with
        | number => exact .inl rfl
        | _ => exact .inr rfl
      rcases hlen with hlen | hlen
      · rw [hlen] at hrest
        simp at hrest
      · refine ⟨?_, hlen⟩
        rw [hlen, ← List.append_assoc] at hrest
        exact (List.append_eq_nil_iff.mp (List.append_cancel_right
          (hrest.trans (List.nil_append _).symm))).2
    obtain ⟨x, rfl⟩ := hnum hu.1
    exact absurd hu.2 (List.cons_ne_nil _ _).symm

/-- The text is the token and the white space in front of it, and `rest` is what is left. -/
def Precedes (k : Token) (p rest : List UInt8) : Prop :=
  rest.length < p.length ∧ ∀ us l u, rest = l ++ u → Spells us l → Unfinished u →
    ∃ l', p = l' ++ u ∧ Spells (k :: us) l'

theorem precedes_of_spells {k : Token} (hw : Blank w) (hok : k.Ok)
    (h : rest.length < (k.lexeme ++ l).length)
    (hl : ∀ us v u, rest = v ++ u → Spells us v → Unfinished u →
      ∃ v', l = v' ++ u ∧ k.MayPrecede v' ∧ Spells us v') :
    Precedes k (w ++ (k.lexeme ++ l)) rest := by
  refine ⟨?_, fun us v u hv hspells hu ↦ ?_⟩
  · rw [List.length_append]
    omega
  · obtain ⟨v', rfl, hbefore, hspells'⟩ := hl us v u hv hspells hu
    exact ⟨_, by simp only [List.append_assoc], .cons hw hok hbefore hspells'⟩

/-- What a call comes to that begins between two tokens. -/
theorem Called.cases (h : Called [] p v rest s') :
    (v = .more ∧ ∃ w u, p = w ++ u ∧ Blank w ∧ Unfinished u) ∨ v = .invalidCharacter ∨
    ∃ k, v = value k ∧ s'.Carries k ∧ k.Ok ∧ s'.state = .root ∧ Precedes k p rest := by
  cases h with
  | @more _ w u hp hw _ hr => exact .inl ⟨rfl, w, u, hp, hw, hr.unfinished⟩
  | invalid => exact .inr (.inl rfl)
  | @token _ w x _ k hp hw _ hok hx hs hk hnum =>
    rw [List.nil_append] at hx
    subst hx hp
    refine .inr (.inr ⟨k, rfl, hk, hok, hs, precedes_of_spells hw hok ?_ ?_⟩)
    · obtain ⟨c, y, hy, -⟩ := hok.lexeme_eq_cons
      rw [hy]
      simp only [List.cons_append, List.length_cons, List.length_append]
      omega
    · intro us v u hv hspells _
      refine ⟨v, hv, ?_, hspells⟩
      cases k with
      | number t => exact absurd rfl (hnum t)
      | _ => trivial
  | @number _ w x _ c hp hw _ hx hs hk hblank =>
    rw [List.nil_append] at hx hk
    subst hp
    refine .inr (.inr ⟨.number x, rfl, hk, hx, hs, precedes_of_spells (k := .number x) hw hx ?_ ?_⟩)
    · simp only [List.length_append, List.length_cons]
      omega
    · rintro us v u rfl hspells _
      exact ⟨c :: v, rfl, ⟨c, v, rfl, .inl hblank⟩,
        hspells.blank_append (w := [c]) (List.forall_mem_singleton.mpr hblank)⟩
  | @closed _ w x _ c hp hw _ hx hs hk hcloser =>
    rw [List.nil_append] at hx hk
    subst hp
    refine .inr (.inr ⟨.number x, rfl, hk, hx, hs, precedes_of_spells (k := .number x) hw hx ?_ ?_⟩)
    · have hpos := List.length_pos_iff.mpr hx.ne_nil
      simp only [Token.lexeme, List.length_append, List.length_cons]
      omega
    · intro us v u hv hspells hu
      refine ⟨v, hv, ?_, hspells⟩
      cases v with
      | nil =>
        rw [List.nil_append] at hv
        exact absurd (hv ▸ hu) hcloser.not_unfinished
      | cons d v =>
        obtain ⟨rfl, -⟩ := List.cons.inj hv
        exact ⟨c, v, rfl, .inr hcloser⟩

end Dlbase.Json
