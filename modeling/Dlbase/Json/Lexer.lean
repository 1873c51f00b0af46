import Dlbase.Json.Rcstring
import Dlbase.Lib.JsonToken

/-!
# The lexer of `dl_json.c`

`lexer` reads a document piece by piece: what it has read of a token when a piece ends is kept in
its state, and it goes on from there with the next piece.  It is modelled by what it does with one
character; a piece is the list of its characters without the null character at its end.  The
allocations do not fail.
-/

namespace Dlbase.Json

open Cmem
open JsonToken (IsBlank IsCloser IsDigit)

/-- A character of the source. -/
def ch (c : Char) : UInt8 := UInt8.ofNat c.toNat

/-- `enum LEX_VALUE`, without the values for failed allocations. -/
inductive LexValue where
  | more
  | invalidCharacter
  | true
  | false
  | null
  | beginObject
  | endObject
  | beginArray
  | endArray
  | nameSeparator
  | valueSeparator
  | string
  | number
deriving DecidableEq, Repr

/-- The values of `*state`, in the order of their numbers. -/
inductive LexState where
  | root
  | string
  | escape
  | unicode1
  | unicode2
  | unicode3
  | unicode4
  | true1
  | true2
  | true3
  | false1
  | false2
  | false3
  | false4
  | null1
  | null2
  | null3
  | minus
  | zero
  | int
  | fracStart
  | frac
  | expStart
  | expSign
  | exp
deriving DecidableEq, Repr

/-- What the lexer keeps between two calls. -/
structure Lex where
  /-- `lex_state`. -/
  state : LexState
  /-- `lex_text`. -/
  text : Option Rcstring
  /-- `line`. -/
  line : Nat
deriving DecidableEq, Repr

/-! ## Characters -/

/-- A letter that may follow a backslash, other than `u`. -/
def IsShort (c : UInt8) : Prop :=
  c = ch '\\' ∨ c = ch '"' ∨ c = ch '/' ∨ c = ch 'b' ∨ c = ch 'f' ∨ c = ch 'n' ∨ c = ch 'r' ∨
    c = ch 't'

instance (c : UInt8) : Decidable (IsShort c) := inferInstanceAs (Decidable (_ ∨ _))

/-- A hexadecimal digit. -/
def IsHex (c : UInt8) : Prop :=
  ch 'a' ≤ c ∧ c ≤ ch 'f' ∨ ch 'A' ≤ c ∧ c ≤ ch 'F' ∨ ch '0' ≤ c ∧ c ≤ ch '9'

instance (c : UInt8) : Decidable (IsHex c) := inferInstanceAs (Decidable (_ ∨ _))

/-! ## One character -/

/-- What is done with a character. -/
inductive LexStep where
  /-- It has been read, and the loop goes on. -/
  | next (s : Lex)
  /-- The function returns; `read` says whether the character has been read. -/
  | done (v : LexValue) (s : Lex) (read : Bool)
deriving DecidableEq, Repr

namespace Lex

variable (s : Lex) (c : UInt8)

/-- `return LEX_INVALID_CHARACTER`. -/
def invalid (read : Bool) : Exec LexStep := .ok (.done .invalidCharacter s read)

/-- `*state = 0; return v`. -/
def finish (v : LexValue) (read : Bool) : Exec LexStep :=
  .ok (.done v { s with state := .root } read)

/-- `*state = state`. -/
def goTo (state : LexState) : Exec LexStep := .ok (.next { s with state })

/-- A new text, the first character of which is `c`. -/
def start (state : LexState) : Exec LexStep := do
  let r ← (Rcstring.create rstringDefault).catc c
  pure (.next { s with state, text := some r })

/-- `assert(*text != NULL)`. -/
def withText (k : Rcstring → Exec LexStep) : Exec LexStep :=
  match s.text with
  | none => Exec.undef
  | some r => k r

/-- The character is added to the text. -/
def append (r : Rcstring) (state : LexState) : Exec LexStep := do
  let r ← r.catc c
  pure (.next { s with state, text := some r })

/-- One of the digits behind `\u`. -/
def hexStep (state : LexState) : Exec LexStep :=
  s.withText fun r ↦ if IsHex c then s.append c r state else s.invalid false

/-- A letter within `true`, `false` or `null`. -/
def letterStep (letter : UInt8) (state : LexState) : Exec LexStep :=
  if c = letter then s.goTo state else s.invalid true

/-- The last letter of `true`, `false` or `null`. -/
def lastStep (letter : UInt8) (v : LexValue) : Exec LexStep :=
  if c = letter then s.finish v true else s.invalid true

/-- A character behind which a number may end; `k` is what is done with the others. -/
def numberStep (k : Rcstring → Exec LexStep) : Exec LexStep :=
  s.withText fun r ↦
    if IsBlank c then s.finish .number true
    else if IsCloser c then s.finish .number false
    else k r

/-- `case 0`. -/
def rootStep : Exec LexStep :=
  if c = 0x20 ∨ c = 0x09 then .ok (.next s)
  else if c = 0x0a ∨ c = 0x0d then .ok (.next { s with line := s.line + 1 })
  else if c = ch '{' then .ok (.done .beginObject s true)
  else if c = ch '}' then .ok (.done .endObject s true)
  else if c = ch '[' then .ok (.done .beginArray s true)
  else if c = ch ']' then .ok (.done .endArray s true)
  else if c = ch ':' then .ok (.done .nameSeparator s true)
  else if c = ch ',' then .ok (.done .valueSeparator s true)
  else if c = ch '"' then
    .ok (.next { s with state := .string, text := some (Rcstring.create rstringDefault) })
  else if c = ch 't' then s.goTo .true1
  else if c = ch 'f' then s.goTo .false1
  else if c = ch 'n' then s.goTo .null1
  else if c = ch '-' then s.start c .minus
  else if c = ch '0' then s.start c .zero
  else if IsDigit c then s.start c .int
  else s.invalid true

/-- What the loop of `lexer` does with a character. -/
def step : Exec LexStep :=
  match s.state with
  | .root => s.rootStep c
  | .string => s.withText fun r ↦
    if c ≤ 31 then s.invalid false
    else if c = ch '"' then s.finish .string true
    else if c = ch '\\' then s.append c r .escape
    else s.append c r .string
  | .escape => s.withText fun r ↦
    if IsShort c then s.append c r .string
    else if c = ch 'u' then s.append c r .unicode1
    else s.invalid false
  | .unicode1 => s.hexStep c .unicode2
  | .unicode2 => s.hexStep c .unicode3
  | .unicode3 => s.hexStep c .unicode4
  | .unicode4 => s.hexStep c .string
  | .true1 => s.letterStep c (ch 'r') .true2
  | .true2 => s.letterStep c (ch 'u') .true3
  | .true3 => s.lastStep c (ch 'e') .true
  | .false1 => s.letterStep c (ch 'a') .false2
  | .false2 => s.letterStep c (ch 'l') .false3
  | .false3 => s.letterStep c (ch 's') .false4
  | .false4 => s.lastStep c (ch 'e') .false
  | .null1 => s.letterStep c (ch 'u') .null2
  | .null2 => s.letterStep c (ch 'l') .null3
  | .null3 => s.lastStep c (ch 'l') .null
  | .minus => s.withText fun r ↦
    if c = ch '0' then s.append c r .zero
    else if IsDigit c then s.append c r .int
    else s.invalid false
  | .zero => s.numberStep c fun r ↦
    if c = ch '.' then s.append c r .fracStart
    else if c = ch 'e' ∨ c = ch 'E' then s.append c r .expStart
    else s.invalid false
  | .int => s.numberStep c fun r ↦
    if c = ch '.' then s.append c r .fracStart
    else if c = ch 'e' ∨ c = ch 'E' then s.append c r .expStart
    else if IsDigit c then s.append c r .int
    else s.invalid false
  | .fracStart => s.withText fun r ↦
    if IsDigit c then s.append c r .frac
    else s.invalid false
  | .frac => s.numberStep c fun r ↦
    if c = ch 'e' ∨ c = ch 'E' then s.append c r .expStart
    else if IsDigit c then s.append c r .frac
    else s.invalid false
  | .expStart => s.withText fun r ↦
    if c = ch '-' ∨ c = ch '+' then s.append c r .expSign
    else if IsDigit c then s.append c r .exp
    else s.invalid false
  | .expSign => s.withText fun r ↦
    if IsDigit c then s.append c r .exp
    else s.invalid false
  | .exp => s.numberStep c fun r ↦
    if IsDigit c then s.append c r .exp
    else s.invalid false

end Lex

/-- `lexer`: the value returned, what has not been read of the piece, and the new state. -/
def lexer : List UInt8 → Lex → Exec (LexValue × List UInt8 × Lex)
  | [], s => .ok (.more, [], s)
  | c :: p, s => do
    match ← s.step c with
    | .next s => lexer p s
    | .done v s read => pure (v, if read then p else c :: p, s)

/-! ## Pieces -/

variable {p q rest : List UInt8} {s s' : Lex} {v : LexValue} {c : UInt8} {read : Bool}

/-! ### When the function returns -/

/-- The step does not end with `LEX_MORE`. -/
def Lex.Decides (x : Exec LexStep) : Prop := ∀ s read, x ≠ .ok (.done .more s read)

namespace Lex

theorem Decides.ite {P : Prop} [Decidable P] {x y : Exec LexStep} (hx : Decides x)
    (hy : Decides y) : Decides (if P then x else y) := by
  split_ifs
  · exact hx
  · exact hy

theorem decides_invalid (s : Lex) (read : Bool) : Decides (s.invalid read) := by
  intro t read' h
  cases Except.ok.inj h

theorem decides_finish (s : Lex) (hv : v ≠ .more) (read : Bool) : Decides (s.finish v read) := by
  rintro t read' h
  have hdone := Except.ok.inj h
  injection hdone with he
  exact hv he

theorem decides_goTo (s : Lex) (state : LexState) : Decides (s.goTo state) := by
  intro t read h
  cases Except.ok.inj h

theorem decides_bind {x : Exec Rcstring} {f : Rcstring → Lex} :
    Decides (x >>= fun r ↦ pure (.next (f r))) := by
  intro t read h
  obtain ⟨r, -, hr⟩ := Exec.bind_eq_ok.mp h
  cases Except.ok.inj hr

theorem decides_withText (s : Lex) {k : Rcstring → Exec LexStep} (hk : ∀ r, Decides (k r)) :
    Decides (s.withText k) := by
  unfold withText
  split
  · exact fun _ _ h ↦ absurd h (Exec.undef_ne_ok _)
  · exact hk _

theorem decides_hexStep (s : Lex) (c : UInt8) (state : LexState) : Decides (s.hexStep c state) :=
  s.decides_withText fun _ ↦ .ite decides_bind (s.decides_invalid _)

theorem decides_letterStep (s : Lex) (c d : UInt8) (state : LexState) :
    Decides (s.letterStep c d state) := .ite (s.decides_goTo _) (s.decides_invalid _)

theorem decides_lastStep (s : Lex) (c d : UInt8) (hv : v ≠ .more) :
    Decides (s.lastStep c d v) := .ite (s.decides_finish hv _) (s.decides_invalid _)

theorem decides_rootStep (s : Lex) (c : UInt8) : Decides (s.rootStep c) := by
  have hstart : ∀ state, Decides (s.start c state) := fun state ↦ decides_bind
  unfold rootStep
  repeat' refine Decides.ite ?_ ?_
  all_goals first
    | exact hstart _
    | intro t read h; cases Except.ok.inj h

theorem decides_step (s : Lex) (c : UInt8) : Decides (s.step c) := by
  unfold step
  split
  · exact s.decides_rootStep c
  all_goals first
    | exact s.decides_hexStep c _
    | exact s.decides_letterStep c _ _
    | exact s.decides_lastStep c _ (by decide)
    | skip
  all_goals
    refine s.decides_withText fun r ↦ ?_
    repeat' refine Decides.ite ?_ ?_
    all_goals first
      | exact decides_bind
      | exact s.decides_invalid _
      | exact s.decides_finish (by decide) _

end Lex

/-- `LEX_MORE` is returned at the end of a piece, and the next one goes on from there. -/
theorem lexer_more (h : lexer p s = .ok (.more, rest, s')) :
    rest = [] ∧ ∀ q, lexer (p ++ q) s = lexer q s' := by
  induction p generalizing s with
  | nil =>
    obtain ⟨-, he⟩ := Prod.mk.inj (Except.ok.inj h)
    obtain ⟨rfl, rfl⟩ := Prod.mk.inj he
    exact ⟨rfl, fun q ↦ rfl⟩
  | cons c p ih =>
    rw [lexer] at h
    obtain ⟨out, hout, h⟩ := Exec.bind_eq_ok.mp h
    cases out with
    | next s =>
      obtain ⟨hrest, hq⟩ := ih h
      refine ⟨hrest, fun q ↦ ?_⟩
      rw [List.cons_append, lexer, hout, Exec.ok_bind]
      exact hq q
    | done w t read =>
      obtain ⟨rfl, -⟩ := Prod.mk.inj (Except.ok.inj h)
      exact absurd hout (s.decides_step c t read)

/-- A value other than `LEX_MORE` is returned whatever follows the piece. -/
theorem lexer_append (h : lexer p s = .ok (v, rest, s')) (hv : v ≠ .more) (q : List UInt8) :
    lexer (p ++ q) s = .ok (v, rest ++ q, s') := by
  induction p generalizing s with
  | nil =>
    obtain ⟨rfl, -⟩ := Prod.mk.inj (Except.ok.inj h)
    exact absurd rfl hv
  | cons c p ih =>
    rw [lexer] at h
    obtain ⟨out, hout, h⟩ := Exec.bind_eq_ok.mp h
    rw [List.cons_append, lexer, hout, Exec.ok_bind]
    cases out with
    | next s => exact ih h
    | done w s read =>
      obtain ⟨rfl, he⟩ := Prod.mk.inj (Except.ok.inj h)
      obtain ⟨rfl, rfl⟩ := Prod.mk.inj he
      cases read <;> rfl

end Dlbase.Json
