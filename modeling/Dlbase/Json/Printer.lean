import Dlbase.Json.Free
import Dlbase.Json.Rcstring

/-!
# Printing trees

`json_tree_to_string` and `json_stream_output` go through a tree in the same way, and they differ in
what they write to.  Each value is opened and closed once.  A label that has no value makes them
stop.
-/

namespace Dlbase.Json

open Cmem Cmem.Rose

/-! ## What is written to -/

/-- Something that text can be added to. -/
structure Sink (σ : Type) where
  /-- A character is added. -/
  char : σ → UInt8 → Exec σ
  /-- A string is added. -/
  string : σ → List UInt8 → Exec σ
  /-- What has been written. -/
  Shows : σ → List UInt8 → Prop
  /-- Adding a character. -/
  char_spec : ∀ {s w} (c : UInt8), Shows s w → ∃ s', char s c = .ok s' ∧ Shows s' (w ++ [c])
  /-- Adding a string. -/
  string_spec : ∀ {s w} (v : List UInt8), Shows s w → ∃ s', string s v = .ok s' ∧ Shows s' (w ++ v)

/-- An `rcstring`. -/
def buffer : Sink Rcstring where
  char := Rcstring.catc
  string r v := r.catcs v v.length
  Shows := Rcstring.Holds
  char_spec c h := h.catc c
  string_spec v h := h.catcs v

/-- A file, by what has been written to it. -/
def stream : Sink (List UInt8) where
  char s c := .ok (s ++ [c])
  string s v := .ok (s ++ v)
  Shows := Eq
  char_spec _ h := ⟨_, rfl, congrArg (· ++ _) h⟩
  string_spec _ h := ⟨_, rfl, congrArg (· ++ _) h⟩

/-! ## The loop -/

/-- The labels `state1` and `state2`. -/
inductive Phase where
  | openValue
  | closeValue
deriving DecidableEq, Repr

section

variable {σ : Type} (K : Sink σ) (m : Mem) (r : Nat) (k : Phase → Nat → σ → Exec (JsonError × σ))

/-- The value at `next` is opened, or, if there is none, the one at `a` is closed. -/
def printOn (next : Option Nat) (a : Nat) (out : σ) : Exec (JsonError × σ) :=
  match next with
  | some b => k .openValue b out
  | none => k .closeValue a out

/-- A string is a label if its parent is an object, and if it has no parent. -/
def isLabel (n : Node) : Exec Bool :=
  match n.parent with
  | some p => do
    let parent ← m.get p
    pure (decide (parent.data.type = .object))
  | none => pure true

/-- What is behind the text of a string: the colon of a label, and the children. -/
def printLabel (a : Nat) (n : Node) (out : σ) : Exec (JsonError × σ) := do
  if ← isLabel m n then
    if n.child.isSome then do
      let out ← K.char out (ch ':')
      printOn k n.child a out
    else pure (.badTreeStructure, out)
  else printOn k n.child a out

/-- The switch of `state1`. -/
def printValue (a : Nat) (n : Node) (out : σ) : Exec (JsonError × σ) :=
  match n.data.type with
  | .string =>
    match n.data.text with
    | none => Exec.undef
    | some t => do
      let out ← K.char out (ch '"')
      let out ← K.string out t
      let out ← K.char out (ch '"')
      printLabel K m k a n out
  | .number =>
    match n.data.text with
    | none => Exec.undef
    | some t => do
      let out ← K.string out t
      k .closeValue a out
  | .object => do
    let out ← K.char out (ch '{')
    printOn k n.child a out
  | .array => do
    let out ← K.char out (ch '[')
    printOn k n.child a out
  | .true => do
    let out ← K.string out [ch 't', ch 'r', ch 'u', ch 'e']
    k .closeValue a out
  | .false => do
    let out ← K.string out [ch 'f', ch 'a', ch 'l', ch 's', ch 'e']
    k .closeValue a out
  | .null => do
    let out ← K.string out [ch 'n', ch 'u', ch 'l', ch 'l']
    k .closeValue a out

/-- `state1`: a value is opened. -/
def printOpen (a : Nat) (out : σ) : Exec (JsonError × σ) := do
  let n ← m.get a
  let out ← (if n.previous.isSome ∧ a ≠ r then K.char out (ch ',') else pure out)
  printValue K m k a n out

/-- The end of `state2`: on to the next value, or up to the parent. -/
def printLeave (a : Nat) (out : σ) : Exec (JsonError × σ) := do
  let n ← m.get a
  match n.parent with
  | none => pure (.ok, out)
  | some p =>
    if a = r then pure (.ok, out)
    else printOn k n.next p out

/-- `state2`: a value is closed. -/
def printClose (a : Nat) (out : σ) : Exec (JsonError × σ) := do
  let n ← m.get a
  let out ← (match n.data.type with
    | .object => K.char out (ch '}')
    | .array => K.char out (ch ']')
    | _ => pure out)
  printLeave m r k a out

end

/-- The jumps from one label to the other, with the value `r` at which printing has begun. -/
def printLoop {σ : Type} (K : Sink σ) (m : Mem) (r : Nat) :
    Nat → Phase → Nat → σ → Exec (JsonError × σ)
  | 0, _, _, _ => Exec.timeout
  | fuel + 1, .openValue, a, out => printOpen K m r (printLoop K m r fuel) a out
  | fuel + 1, .closeValue, a, out => printClose K m r (printLoop K m r fuel) a out

/-- `json_tree_to_string`: what it returns, and `*text`. -/
def treeToString (fuel : Nat) (m : Mem) (root : Nat) : Exec (JsonError × Option (List UInt8)) := do
  let (error, output) ←
    printLoop buffer m root fuel .openValue root (Rcstring.create rstringDefault)
  if error = .ok then do
    let text ← output.unwrap
    pure (.ok, some text)
  else pure (error, none)

/-- `json_stream_output`: what it returns, and what it has written to the file. -/
def streamOutput (fuel : Nat) (m : Mem) (root : Nat) (file : List UInt8) :
    Exec (JsonError × List UInt8) := do
  let (error, file) ← printLoop stream m root fuel .openValue root file
  if error = .ok then pure (.ok, file ++ [0x0a]) else pure (error, file)

/-! ## The text of a tree -/

/-- What has been written: everything, or what there is in front of a label that has no value. -/
abbrev Written := Except (List UInt8) (List UInt8)

namespace Written

/-- Text in front. -/
def prepend (w : List UInt8) : Written → Written
  | .ok v => .ok (w ++ v)
  | .error v => .error (w ++ v)

/-- One after the other. -/
def append : Written → Written → Written
  | .ok w, x => x.prepend w
  | .error w, _ => .error w

theorem append_nil (W : Written) : W.append (.ok []) = W := by
  cases W with
  | ok w => exact congrArg Except.ok (List.append_nil w)
  | error w => rfl

end Written

/-- The text of a string, with its quotation marks. -/
def quoted (d : Data) : List UInt8 := ch '"' :: (d.text.getD [] ++ [ch '"'])

mutual

/-- The text of a value, which may be a label. -/
def render (label : Bool) : Rose Data → Written
  | .node d cs =>
    match d.type with
    | .string =>
      if label then
        if cs.isEmpty then .error (quoted d)
        else (renderAll false true cs).prepend (quoted d ++ [ch ':'])
      else (renderAll false true cs).prepend (quoted d)
    | .number => .ok (d.text.getD [])
    | .object => ((renderAll true true cs).prepend [ch '{']).append (.ok [ch '}'])
    | .array => ((renderAll false true cs).prepend [ch '[']).append (.ok [ch ']'])
    | .true => .ok [ch 't', ch 'r', ch 'u', ch 'e']
    | .false => .ok [ch 'f', ch 'a', ch 'l', ch 's', ch 'e']
    | .null => .ok [ch 'n', ch 'u', ch 'l', ch 'l']

/-- The texts of values with commas between them; there is none in front of the first one. -/
def renderAll (label first : Bool) : List (Rose Data) → Written
  | [] => .ok []
  | t :: ts =>
    ((render label t).prepend (if first then [] else [ch ','])).append (renderAll label false ts)

end

/-- The strings and the numbers have texts. -/
def HasTexts (t : Rose Data) : Prop :=
  ∀ d ∈ t.values, d.type = .string ∨ d.type = .number → ∃ s, d.text = some s ∧ 0 ∉ s

end Dlbase.Json
