import Dlbase.Json.Model

/-!
# The parser of `dl_json.c`

`json_parse_fragment` is a state machine that is driven by the values of `lexer`.  It builds the
tree while it goes: its cursor is the node that gets the next child.  A fragment is the list of its
characters without the null character at its end; the messages on `stderr` and the field `p`, which
each call sets at its beginning, are left out.
-/

namespace Dlbase.Json

open Cmem

/-- The values of `info->state`, in the order of their numbers. -/
inductive ParseState where
  | start
  | openObject
  | openedObject
  | field
  | sibling
  | label
  | labelValue
  | openArray
  | openedArray
  | element
  | finished
deriving DecidableEq, Repr

/-- A `struct json_parsing_info`. -/
structure Info where
  /-- `state`. -/
  state : ParseState
  /-- `lex_state`, `lex_text` and `line`. -/
  lex : Lex
  /-- `cursor`. -/
  cursor : Option Nat
deriving DecidableEq, Repr

/-- `json_jpi_init`. -/
def jpiInit : Info := ⟨.start, ⟨.root, none, 1⟩, none⟩

/-- The memory and what is known of the document. -/
structure Parse where
  /-- The nodes. -/
  mem : Mem
  /-- `*info`. -/
  info : Info

/-- What a round of the loop comes to: an error that is returned, or none. -/
abbrev Round := Exec (Parse × Option JsonError)

namespace Parse

variable (A : Allocator Node) (s : Parse)

/-- `return e`. -/
def fail (e : JsonError) : Round := .ok (s, some e)

/-- `info->state = state`. -/
def goTo (state : ParseState) : Round := .ok ({ s with info := { s.info with state } }, none)

/-- `info->cursor`, which is not `NULL`, as a node. -/
def cursor : Exec (Nat × Node) := do
  let a ← deref s.info.cursor
  let n ← s.mem.get a
  pure (a, n)

/-- `info->cursor = p`. -/
def setCursor (p : Option Nat) : Parse := { s with info := { s.info with cursor := p } }

/-- `json_insert_child(info->cursor, temp)`, with what follows when it has succeeded. -/
def insert (temp : Nat) (k : Parse → Round) : Round := do
  let a ← deref s.info.cursor
  let (mem, e) ← insertChild s.mem a temp
  if e = .ok then k { s with mem } else fail { s with mem } .unknownProblem

/-- A new node with the text that has been read is inserted. -/
def insertText (type : ValueType) (k : Parse → Nat → Round) : Round := do
  let (mem, temp) := newValue A s.mem type
  match s.info.lex.text with
  | none => Exec.undef
  | some r =>
    let text ← r.unwrap
    let mem ← setText mem temp text
    let s := { s with mem, info := { s.info with lex := { s.info.lex with text := none } } }
    s.insert temp fun s ↦ k s temp

/-- A new node without a text is inserted. -/
def insertLiteral (type : ValueType) (k : Parse → Nat → Round) : Round :=
  let (mem, temp) := newValue A s.mem type
  { s with mem }.insert temp fun s ↦ k s temp

/-- A new string becomes the cursor, as a label. -/
def insertLabel : Round :=
  s.insertText A .string fun s temp ↦ (s.setCursor (some temp)).goTo .label

/-- The value of a label has been inserted: the cursor goes up from the label. -/
def endField : Round := do
  let (_, n) ← s.cursor
  match n.parent with
  | none => s.goTo .field
  | some p => (s.setCursor (some p)).goTo .field

/-- A new object or array becomes the cursor. -/
def openValue (type : ValueType) (state : ParseState) : Round :=
  match s.info.cursor with
  | none =>
    let (mem, a) := newValue A s.mem type
    ({ s with mem }.setCursor (some a)).goTo state
  | some a => do
    let n ← s.mem.get a
    if n.data.type = .string ∨ n.data.type = .array then
      s.insertLiteral A type fun s temp ↦ (s.setCursor (some temp)).goTo state
    else Exec.undef

/-- An object or an array ends: the cursor goes up from it, and up from the label that it is the
value of; `orphan` is what is done if such a label is no child of anything. -/
def closeValue (orphan : Parse → Round) : Round := do
  let (_, n) ← s.cursor
  match n.parent with
  | none => s.goTo .finished
  | some p =>
    let s := s.setCursor (some p)
    let (_, n) ← s.cursor
    match n.data.type with
    | .string =>
      match n.parent with
      | none => orphan s
      | some p =>
        let s := s.setCursor (some p)
        let (_, n) ← s.cursor
        if n.data.type = .object then s.goTo .field else s.fail .badTreeStructure
    | .array => s.goTo .element
    | _ => s.fail .badTreeStructure

/-- `assert((info->cursor != NULL) && (info->cursor->type == type))`. -/
def checkType (type : ValueType) (k : Round) : Round := do
  let (_, n) ← s.cursor
  if n.data.type = type then k else Exec.undef

/-! ## The states -/

/-- `case 0`. -/
def onStart : LexValue → Round
  | .beginObject => s.goTo .openObject
  | _ => s.fail .malformedDocument

/-- `case 2`. -/
def onOpenedObject : LexValue → Round
  | .string => s.insertLabel A
  | .endObject => s.closeValue fun _ ↦ Exec.undef
  | .more => s.fail .incompleteDocument
  | _ => s.fail .malformedDocument

/-- `case 3`. -/
def onField : LexValue → Round
  | .valueSeparator => s.goTo .sibling
  | .endObject => s.closeValue fun _ ↦ Exec.undef
  | .more => s.fail .incompleteDocument
  | _ => s.fail .malformedDocument

/-- `case 4`. -/
def onSibling : LexValue → Round
  | .string => s.insertLabel A
  | .more => s.fail .incompleteDocument
  | .invalidCharacter => s.fail .illegalCharacter
  | _ => s.fail .malformedDocument

/-- `case 5`. -/
def onLabel : LexValue → Round
  | .nameSeparator => s.goTo .labelValue
  | .more => s.fail .incompleteDocument
  | _ => s.fail .malformedDocument

/-- `case 6`. -/
def onLabelValue : LexValue → Round
  | .string => s.insertText A .string fun s _ ↦ s.endField
  | .number => s.insertText A .number fun s _ ↦ s.endField
  | .true => s.insertLiteral A .true fun s _ ↦ s.endField
  | .false => s.insertLiteral A .false fun s _ ↦ s.endField
  | .null => s.insertLiteral A .null fun s _ ↦ s.endField
  | .beginObject => s.goTo .openObject
  | .beginArray => s.goTo .openArray
  | .more => s.fail .incompleteDocument
  | .invalidCharacter => s.fail .illegalCharacter
  | _ => s.fail .malformedDocument

/-- `case 8`. -/
def onOpenedArray : LexValue → Round
  | .string => s.insertText A .string fun s _ ↦ s.goTo .element
  | .number => s.insertText A .number fun s _ ↦ s.goTo .element
  | .true => s.insertLiteral A .true fun s _ ↦ s.goTo .element
  | .false => s.insertLiteral A .false fun s _ ↦ s.goTo .element
  | .null => s.insertLiteral A .null fun s _ ↦ s.goTo .element
  | .beginArray => s.goTo .openArray
  | .endArray => s.closeValue fun s ↦ s.fail .badTreeStructure
  | .beginObject => s.goTo .openObject
  | .more => s.fail .incompleteDocument
  | .invalidCharacter => s.fail .illegalCharacter
  | _ => s.fail .malformedDocument

/-- `case 9`. -/
def onElement : LexValue → Round
  | .valueSeparator => s.goTo .openedArray
  | .endArray => s.closeValue fun s ↦ s.goTo .finished
  | .more => s.fail .incompleteDocument
  | _ => s.fail .malformedDocument

/-- `case 99`. -/
def onFinished : LexValue → Round
  | .more => s.fail .waitingForEof
  | _ => s.fail .malformedDocument

/-- The assertions at the beginning of a state that calls `lexer`. -/
def checked (k : Round) : Round :=
  match s.info.state with
  | .openedObject | .field | .sibling => s.checkType .object k
  | .label | .labelValue => s.checkType .string k
  | .openedArray => s.checkType .array k
  | .element => do
    let _ ← deref s.info.cursor
    k
  | .finished => do
    let (_, n) ← s.cursor
    if n.parent = none then k else Exec.undef
  | _ => k

/-- What is done with the value that `lexer` has returned, in the states that call it. -/
def onValue (v : LexValue) : Round :=
  match s.info.state with
  | .start => s.onStart v
  | .openedObject => s.onOpenedObject A v
  | .field => s.onField v
  | .sibling => s.onSibling A v
  | .label => s.onLabel v
  | .labelValue => s.onLabelValue A v
  | .openedArray => s.onOpenedArray A v
  | .element => s.onElement v
  | .finished => s.onFinished v
  | .openObject | .openArray => Exec.undef

end Parse

open Parse

variable (A : Allocator Node)

/-- A round of the loop of `json_parse_fragment`, and what has not been read of the fragment. -/
def round (s : Parse) (p : List UInt8) : Exec ((Parse × Option JsonError) × List UInt8) :=
  match s.info.state with
  | .openObject => do
    let r ← s.openValue A .object .openedObject
    pure (r, p)
  | .openArray => do
    let r ← s.openValue A .array .openedArray
    pure (r, p)
  | _ => do
    let (v, p, lex) ← lexer p s.info.lex
    let r ← s.checked ({ s with info := { s.info with lex } }.onValue A v)
    pure (r, p)

/-- The value that is returned at the end of a fragment. -/
def atEnd (s : Parse) : JsonError :=
  if s.info.state = .finished then .waitingForEof else .incompleteDocument

/-- The loop of `json_parse_fragment`. -/
def fragmentLoop : Nat → Parse → List UInt8 → Exec (JsonError × Parse)
  | 0, _, _ => Exec.timeout
  | fuel + 1, s, p =>
    if p = [] then pure (atEnd s, s)
    else do
      match ← round A s p with
      | ((s, some e), _) => pure (e, s)
      | ((s, none), p) => fragmentLoop fuel s p

/-- `json_parse_fragment`. -/
def parseFragment (fuel : Nat) (s : Parse) (buffer : List UInt8) : Exec (JsonError × Parse) :=
  fragmentLoop A fuel s buffer

/-- `json_parse_document`: what it returns, the memory, and `*root`. -/
def parseDocument (fuel : Nat) (m : Mem) (text : List UInt8) :
    Exec (JsonError × Mem × Option Nat) := do
  let (error, s) ← parseFragment A fuel ⟨m, jpiInit⟩ text
  if error = .waitingForEof ∨ error = .ok then pure (.ok, s.mem, s.info.cursor)
  else pure (error, s.mem, none)

end Dlbase.Json
