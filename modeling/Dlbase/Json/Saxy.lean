import Dlbase.Json.Lexer
import Dlbase.Json.Model

/-!
# `json_saxy_parse`

The other parser of `dl_json.c` builds no tree.  It is given one character after the other and calls
the functions of a `json_saxy_functions`; what it has read of a string or a number is kept in a
`json_saxy_parser_status`.  Some of the functions may be missing.  A call of one that is missing is
undefined: in a few places it is another one that is compared with `NULL` first.
-/

namespace Dlbase.Json

open Cmem
open JsonToken (IsBlank IsDigit IsExponent)

/-- The values of `jsps->state`, in the order of their numbers. -/
inductive SaxyState where
  | start
  | string
  | escape
  | unicode1
  | unicode2
  | unicode3
  | unicode4
  | true1
  | true2
  | true3
  | false1
  | false2
  | false3
  | false4
  | null1
  | null2
  | null3
  | zero
  | fracStart
  | frac
  | expStart
  | exp
  | expSign
  | minus
  | decimal
  | openObject
  | close
  | sibling
deriving DecidableEq, Repr

/-- `struct json_saxy_parser_status`. -/
structure SaxyStatus where
  /-- Where the parser is. -/
  state : SaxyState
  /-- `string_length_limit_reached`. -/
  limit : Bool
  /-- The text of a string or a number. -/
  temp : Option Rcstring
deriving DecidableEq, Repr

/-- `struct json_saxy_functions`, by which of the functions there are. -/
structure SaxyFunctions where
  openObject : Bool
  closeObject : Bool
  openArray : Bool
  closeArray : Bool
  newString : Bool
  newNumber : Bool
  newTrue : Bool
  newFalse : Bool
  newNull : Bool
  labelValueSeparator : Bool
  siblingSeparator : Bool
deriving DecidableEq, Repr

/-- A call of one of the functions. -/
inductive SaxyEvent where
  | openObject
  | closeObject
  | openArray
  | closeArray
  | newString (text : List UInt8)
  | newNumber (text : List UInt8)
  | newTrue
  | newFalse
  | newNull
  | labelValueSeparator
  | siblingSeparator
deriving DecidableEq, Repr

/-- What a call comes to: what is returned, the status and the functions that have been called. -/
abbrev SaxyResult := JsonError × SaxyStatus × List SaxyEvent

/-- `JSON_MAX_STRING_LENGTH`, which is `SIZE_MAX-1`. -/
def maxStringLength : Nat := 2 ^ 64 - 2

/-- `JSON_MAX_STRING_LENGTH / 2`: there are no brackets around `SIZE_MAX-1`. -/
def maxNumberLength : Nat := 2 ^ 64 - 1

/-- `if (jsf->checked != NULL) jsf->called ()`. -/
def notify (checked called : Bool) (e : SaxyEvent) : Exec (List SaxyEvent) :=
  if checked then (if called then .ok [e] else Exec.undef) else .ok []

namespace SaxyStatus

variable (s : SaxyStatus) (f : SaxyFunctions) (c : UInt8)

/-- `return e`. -/
def fail (e : JsonError) : Exec SaxyResult := .ok (e, s, [])

/-- `jsps->state = state; return JSON_OK`. -/
def goTo (state : SaxyState) : Exec SaxyResult := .ok (.ok, { s with state }, [])

/-- A function is called, and then it goes on in a state. -/
def call (checked called : Bool) (e : SaxyEvent) (state : SaxyState) : Exec SaxyResult := do
  let es ← notify checked called e
  pure (.ok, { s with state }, es)

/-- `rcs_catc (jsps->temp, c)`. -/
def append : Exec SaxyStatus :=
  match s.temp with
  | none => Exec.undef
  | some r => do
    let r ← r.catc c
    pure { s with temp := some r }

/-- The character is added if the text is shorter than `bound`. -/
def appendBelow (bound : Nat) : Exec SaxyStatus :=
  if s.limit then .ok s
  else
    match s.temp with
    | none => Exec.undef
    | some r => if r.length < bound then s.append c else .ok { s with limit := true }

/-- A new text, which is the character. -/
def restart (length : Nat) : Exec SaxyStatus := do
  let r ← (Rcstring.create length).catc c
  pure { s with temp := some r }

/-- A letter within `true`, `false` or `null`. -/
def letterStep (letter : UInt8) (state : SaxyState) : Exec SaxyResult :=
  if c = letter then s.goTo state else s.fail .illegalCharacter

/-- The last letter of `true`, `false` or `null`. -/
def lastStep (letter : UInt8) (called : Bool) (e : SaxyEvent) : Exec SaxyResult :=
  if c = letter then s.call called called e .start else s.fail .illegalCharacter

/-- One of the digits behind `\u`; `d` is what is added for it. -/
def hexStep (bound : Nat) (d : UInt8) (state : SaxyState) : Exec SaxyResult :=
  if IsHex c then do
    let s ← s.appendBelow d bound
    s.goTo state
  else s.fail .illegalCharacter

/-- The beginning of a number. -/
def startNumber (length : Nat) (state : SaxyState) : Exec SaxyResult := do
  let s ← s.restart c length
  s.goTo state

/-- A digit that is added to the text. -/
def digitStep (bound : Nat) (state : SaxyState) : Exec SaxyResult := do
  let s ← s.appendBelow c bound
  s.goTo state

/-- The text of a number goes to `new_number` and is freed; `k` is what is done then. -/
def report (k : SaxyStatus → List SaxyEvent → Exec SaxyResult) : Exec SaxyResult :=
  match s.temp with
  | none => s.fail .memory
  | some r => do
    let es ← (if f.newNumber then (readString r.text).map fun text ↦ [.newNumber text] else pure [])
    k { s with temp := none } es

/-- The same, but whether there is a text is only looked at if there is a function to get it. -/
def release (k : SaxyStatus → List SaxyEvent → Exec SaxyResult) : Exec SaxyResult :=
  if f.newNumber then s.report f k else k { s with temp := none } []

/-- What is done behind the text of a number. -/
def closeNumber (checked called : Bool) (e : SaxyEvent) (state : SaxyState) (s : SaxyStatus)
    (es : List SaxyEvent) : Exec SaxyResult := do
  let es' ← notify checked called e
  pure (.ok, { s with state }, es ++ es')

/-- A character behind which a number may end.  `array` and `comma` are what becomes of the text in
front of `]` and `,`, `separator` is compared with `NULL` at a comma, and `other` is what is done
with the other characters. -/
def endNumber (array comma : (SaxyStatus → List SaxyEvent → Exec SaxyResult) → Exec SaxyResult)
    (separator : Bool) (other : Exec SaxyResult) : Exec SaxyResult :=
  if IsBlank c then s.report f fun s es ↦ .ok (.ok, { s with state := .start }, es)
  else if c = ch '}' then s.report f (closeNumber f.openObject f.closeObject .closeObject .close)
  else if c = ch ']' then array (closeNumber f.openObject f.closeArray .closeArray .close)
  else if c = ch ',' then
    comma (closeNumber separator f.labelValueSeparator .labelValueSeparator .sibling)
  else other

/-- `state0`. -/
def startStep : Exec SaxyResult :=
  if IsBlank c then .ok (.ok, s, [])
  else if c = ch '"' then ({ s with limit := false } : SaxyStatus).goTo .string
  else if c = ch '{' then s.call f.openObject f.openObject .openObject .openObject
  else if c = ch '}' then s.call f.closeObject f.closeObject .closeObject .close
  else if c = ch '[' then s.call f.openArray f.openArray .openArray .start
  else if c = ch ']' then s.call f.closeArray f.closeArray .closeArray .close
  else if c = ch 't' then s.goTo .true1
  else if c = ch 'f' then s.goTo .false1
  else if c = ch 'n' then s.goTo .null1
  else if c = ch ':' then
    s.call f.labelValueSeparator f.labelValueSeparator .labelValueSeparator .start
  else if c = ch ',' then s.call f.siblingSeparator f.siblingSeparator .siblingSeparator .sibling
  else if c = ch '0' then ({ s with limit := false } : SaxyStatus).startNumber c 5 .zero
  else if IsDigit c then ({ s with limit := false } : SaxyStatus).startNumber c 5 .decimal
  else if c = ch '-' then ({ s with limit := false } : SaxyStatus).startNumber c 5 .minus
  else s.fail .illegalCharacter

/-- `state1`. -/
def stringStep : Exec SaxyResult :=
  if c = ch '\\' then do
    let s ← s.appendBelow c (maxStringLength - 1)
    s.goTo .escape
  else if c = ch '"' then
    match s.temp with
    | some r => do
      let es ← (if f.newString then (readString r.text).map fun text ↦ [.newString text]
        else pure [])
      pure (.ok, { s with state := .start, temp := none }, es)
    | none => s.fail .unknownProblem
  else do
    let s ← s.appendBelow c maxStringLength
    s.goTo .string

/-- `state2`; behind a letter that is not `u` the state stays what it is. -/
def escapeStep : Exec SaxyResult :=
  if IsShort c then do
    let s ← s.appendBelow c maxStringLength
    s.goTo .escape
  else if c = ch 'u' then do
    let s ← s.appendBelow c (maxStringLength - 4)
    s.goTo .unicode1
  else s.fail .illegalCharacter

/-- `state23`: a digit other than `0` replaces the sign, and then the limit is taken to be
reached. -/
def minusStep : Exec SaxyResult :=
  if c = ch '0' then do
    let s ← s.append c
    s.goTo .zero
  else if IsDigit c then
    if s.limit then s.goTo .decimal
    else
      match s.temp with
      | none => Exec.undef
      | some r =>
        if r.length < maxNumberLength then do
          let s ← s.restart c 5
          ({ s with limit := true } : SaxyStatus).goTo .decimal
        else s.goTo .decimal
  else s.fail .illegalCharacter

/-- `state24`: a digit replaces what has been read. -/
def decimalStep : Exec SaxyResult :=
  if IsDigit c then
    if s.limit then s.goTo .decimal
    else
      match s.temp with
      | none => Exec.undef
      | some r =>
        if r.length < maxNumberLength then s.startNumber c 5 .decimal
        else ({ s with limit := true } : SaxyStatus).goTo .decimal
  else if c = ch '.' then s.startNumber c 5 .fracStart
  else if IsExponent c then do
    let s ← s.restart c 5
    ({ s with limit := false } : SaxyStatus).goTo .expStart
  else s.fail .illegalCharacter

/-- `state20`. -/
def expStartStep : Exec SaxyResult :=
  if c = ch '+' ∨ c = ch '-' then do
    let s ← ({ s with limit := false } : SaxyStatus).append c
    s.goTo .expSign
  else if IsDigit c then s.digitStep c maxStringLength .exp
  else s.fail .illegalCharacter

/-- `state25`. -/
def openObjectStep : Exec SaxyResult :=
  if IsBlank c then .ok (.ok, s, [])
  else if c = ch '"' then ({ s with temp := none } : SaxyStatus).goTo .string
  else if c = ch '}' then s.call f.closeObject f.closeObject .closeObject .close
  else s.fail .illegalCharacter

/-- `state26`. -/
def closeStep : Exec SaxyResult :=
  if IsBlank c then .ok (.ok, s, [])
  else if c = ch '}' then s.call f.closeObject f.closeObject .closeObject .close
  else if c = ch ']' then s.call f.closeArray f.closeArray .closeArray .close
  else if c = ch ',' then s.call f.siblingSeparator f.siblingSeparator .siblingSeparator .sibling
  else s.fail .illegalCharacter

/-- `state27`. -/
def siblingStep : Exec SaxyResult :=
  if IsBlank c then .ok (.ok, s, [])
  else if c = ch '"' then ({ s with temp := none } : SaxyStatus).goTo .string
  else if c = ch '{' then s.call f.openObject f.openObject .openObject .openObject
  else if c = ch '[' then s.call f.openArray f.openArray .openArray .sibling
  else if c = ch 't' then s.goTo .true1
  else if c = ch 'f' then s.goTo .false1
  else if c = ch 'n' then s.goTo .null1
  else if c = ch '0' then s.startNumber c 5 .zero
  else if IsDigit c then s.startNumber c 5 .decimal
  else if c = ch '-' then s.startNumber c rstringDefault .minus
  else s.fail .illegalCharacter

end SaxyStatus

/-- `json_saxy_parse`. -/
def saxyParse (f : SaxyFunctions) (s : SaxyStatus) (c : UInt8) : Exec SaxyResult :=
  match s.state with
  | .start => s.startStep f c
  | .string => s.stringStep f c
  | .escape => s.escapeStep c
  | .unicode1 => s.hexStep c (maxStringLength - 3) (ch 'u') .unicode2
  | .unicode2 => s.hexStep c (maxStringLength - 2) c .unicode3
  | .unicode3 => s.hexStep c (maxStringLength - 1) c .unicode4
  | .unicode4 => s.hexStep c maxStringLength c .string
  | .true1 => s.letterStep c (ch 'r') .true2
  | .true2 => s.letterStep c (ch 'u') .true3
  | .true3 => s.lastStep c (ch 'e') f.newTrue .newTrue
  | .false1 => s.letterStep c (ch 'a') .false2
  | .false2 => s.letterStep c (ch 'l') .false3
  | .false3 => s.letterStep c (ch 's') .false4
  | .false4 => s.lastStep c (ch 'e') f.newFalse .newFalse
  | .null1 => s.letterStep c (ch 'u') .null2
  | .null2 => s.letterStep c (ch 'l') .null3
  | .null3 => s.lastStep c (ch 'l') f.newNull .newNull
  | .zero => s.endNumber f c (s.report f) (s.report f) f.openObject
    (if c = ch '.' then s.startNumber c 5 .fracStart else s.fail .illegalCharacter)
  | .fracStart =>
    if IsDigit c then s.digitStep c maxNumberLength .frac else s.fail .illegalCharacter
  | .frac => s.endNumber f c (s.release f) (s.report f) f.labelValueSeparator
    (if IsDigit c then s.digitStep c maxNumberLength .frac
      else if IsExponent c then do
        let s ← s.append c
        s.goTo .expStart
      else s.fail .illegalCharacter)
  | .expStart => s.expStartStep c
  | .exp => s.endNumber f c (s.release f) (s.release f) f.labelValueSeparator
    (if IsDigit c then s.digitStep c maxStringLength .exp else s.fail .illegalCharacter)
  | .expSign =>
    if IsDigit c then s.digitStep c maxStringLength .exp else s.fail .illegalCharacter
  | .minus => s.minusStep c
  | .decimal => s.endNumber f c (s.report f) (s.report f) f.labelValueSeparator (s.decimalStep c)
  | .openObject => s.openObjectStep f c
  | .close => s.closeStep f c
  | .sibling => s.siblingStep f c

/-- `json_saxy_parse` is called with one character after the other, whatever it returns: what it has
returned, the status and the functions that have been called. -/
def saxyFeed (f : SaxyFunctions) :
    List UInt8 → SaxyStatus → Exec (List JsonError × SaxyStatus × List SaxyEvent)
  | [], s => .ok ([], s, [])
  | c :: p, s => do
    let (e, s, es) ← saxyParse f s c
    let (errors, s, es') ← saxyFeed f p s
    pure (e :: errors, s, es ++ es')

end Dlbase.Json
