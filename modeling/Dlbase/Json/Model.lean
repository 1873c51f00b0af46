import Dlbase.Json.Lexer
import Dlbase.Lib.LinkedRose

/-!
# The tree of `dl_json.c`

A value is a node of type `json_t`, and so is the label of a member of an object, which has the
value as its child.  The nodes are objects in memory; the text of a node is part of it, since each
node has a text of its own that is freed with it.  The allocations do not fail.
-/

namespace Dlbase.Json

open Cmem

/-- `enum json_value_type`. -/
inductive ValueType where
  | string
  | number
  | object
  | array
  | true
  | false
  | null
deriving DecidableEq, Repr

/-- The fields of a `json_t` other than its links. -/
structure Data where
  /-- `type`. -/
  type : ValueType
  /-- `text`. -/
  text : Option (List UInt8)
deriving DecidableEq, Repr

/-- A `json_t`. -/
abbrev Node := RoseNode Data

/-- The nodes at their addresses. -/
abbrev Mem := Objects Node

/-- `enum json_error`, without the errors that no function here returns. -/
inductive JsonError where
  | ok
  | incompleteDocument
  | waitingForEof
  | malformedDocument
  | memory
  | illegalCharacter
  | badTreeStructure
  | unknownProblem
deriving DecidableEq, Repr

/-! ## Nodes -/

/-- `json_new_value`, by the node that it allocates. -/
def newNode (type : ValueType) (text : Option (List UInt8)) : Node :=
  ⟨⟨type, text⟩, none, none, none, none, none⟩

/-- `json_new_value`. -/
def newValue (A : Allocator Node) (m : Mem) (type : ValueType) : Mem × Nat :=
  (m.set (A.run m) (newNode type none), A.run m)

/-- `json_new_string`. -/
def newString (A : Allocator Node) (m : Mem) (text : List UInt8) : Mem × Nat :=
  (m.set (A.run m) (newNode .string (some text)), A.run m)

/-- `json_new_number`. -/
def newNumber (A : Allocator Node) (m : Mem) (text : List UInt8) : Mem × Nat :=
  (m.set (A.run m) (newNode .number (some text)), A.run m)

/-- `a->parent = p`. -/
def setParent (m : Mem) (a : Nat) (p : Option Nat) : Exec Mem :=
  m.modify a ({ · with parent := p })

/-- `a->previous = p`. -/
def setPrevious (m : Mem) (a : Nat) (p : Option Nat) : Exec Mem :=
  m.modify a ({ · with previous := p })

/-- `a->next = p`. -/
def setNext (m : Mem) (a : Nat) (p : Option Nat) : Exec Mem :=
  m.modify a ({ · with next := p })

/-- `a->child = p`. -/
def setChild (m : Mem) (a : Nat) (p : Option Nat) : Exec Mem :=
  m.modify a ({ · with child := p })

/-- `a->child_end = p`. -/
def setChildEnd (m : Mem) (a : Nat) (p : Option Nat) : Exec Mem :=
  m.modify a ({ · with childEnd := p })

/-- `a->text = text`. -/
def setText (m : Mem) (a : Nat) (text : List UInt8) : Exec Mem :=
  m.modify a fun n ↦ { n with data := { n.data with text := some text } }

/-- The object that a pointer leads to. -/
def deref : Option Nat → Exec Nat
  | some a => .ok a
  | none => Exec.undef

/-- The checks that `json_insert_child` makes before it changes anything. -/
def accepts (parent child : Node) : Bool :=
  match parent.data.type with
  | .string | .array =>
    match child.data.type with
    | .string | .number | .true | .false | .null => child.child.isNone
    | .object | .array => true
  | .object => child.data.type = .string
  | _ => false

/-- `json_insert_child`. -/
def insertChild (m : Mem) (parent child : Nat) : Exec (Mem × JsonError) := do
  if parent = child then Exec.undef
  else
    let p ← m.get parent
    let c ← m.get child
    if ¬ accepts p c then pure (m, .badTreeStructure)
    else
      let m ← setParent m child (some parent)
      let p ← m.get parent
      if p.child.isSome then
        let m ← setPrevious m child p.childEnd
        let m ← setNext m (← deref p.childEnd) (some child)
        let m ← setChildEnd m parent (some child)
        pure (m, .ok)
      else
        let m ← setChild m parent (some child)
        let m ← setChildEnd m parent (some child)
        pure (m, .ok)

/-- `json_insert_pair_into_object`. -/
def insertPairIntoObject (A : Allocator Node) (m : Mem) (parent : Nat) (textLabel : List UInt8)
    (value : Nat) : Exec (Mem × JsonError) := do
  if parent = value then Exec.undef
  else
    let p ← m.get parent
    if p.data.type ≠ .object then Exec.undef
    else
      let (m, label) := newString A m textLabel
      let (m, error) ← insertChild m label value
      if error ≠ .ok then pure (m, error)
      else insertChild m parent label

/-- The loop of `json_find_first_label`. -/
def findLabelLoop (m : Mem) (textLabel : List UInt8) : Nat → Option Nat → Exec (Option Nat)
  | 0, _ => Exec.timeout
  | _ + 1, none => .ok none
  | fuel + 1, some cursor => do
    let n ← m.get cursor
    match n.data.text with
    | none => Exec.undef
    | some text =>
      if text = textLabel then pure (some cursor) else findLabelLoop m textLabel fuel n.next

/-- `json_find_first_label`. -/
def findFirstLabel (fuel : Nat) (m : Mem) (object : Nat) (textLabel : List UInt8) :
    Exec (Option Nat) := do
  let n ← m.get object
  if n.data.type ≠ .object then Exec.undef else findLabelLoop m textLabel fuel n.child

/-! ## Freeing -/

/-- `if(p) p->next = x`. -/
def setNextOf (m : Mem) (x : Option Nat) : Option Nat → Exec Mem
  | none => .ok m
  | some p => setNext m p x

/-- `if(p) p->previous = x`. -/
def setPreviousOf (m : Mem) (x : Option Nat) : Option Nat → Exec Mem
  | none => .ok m
  | some p => setPrevious m p x

/-- The part of `intern_json_free_value` that links the siblings of the node at `a` to each other:
the source does this in one branch if there are two of them and in another one if there are not, and
what it writes is the same. -/
def unlinkSiblings (m : Mem) (a : Nat) : Exec Mem := do
  let v ← m.get a
  let m ← setNextOf m v.next v.previous
  let v ← m.get a
  setPreviousOf m v.previous v.next

/-- The part of `intern_json_free_value` that removes the node at `a` from the ends of the list of
its siblings. -/
def unlinkParent (m : Mem) (a : Nat) : Exec Mem := do
  let v ← m.get a
  if let some p := v.parent then do
    let parent ← m.get p
    let m ← (if parent.child = some a then setChild m p v.next else pure m)
    let parent ← m.get p
    if parent.childEnd = some a then setChildEnd m p v.previous else pure m
  else pure m

/-- `intern_json_free_value`. -/
def internFreeValue (m : Mem) (a : Nat) : Exec Mem := do
  let v ← m.get a
  if v.child.isSome then Exec.undef
  else
    let m ← unlinkSiblings m a
    let m ← unlinkParent m a
    m.free a

/-- The loop of `json_free_value`, of which `value` is the node at `*value`. -/
def freeLoop (value : Nat) : Nat → Mem → Option Nat → Exec Mem
  | 0, _, _ => Exec.timeout
  | fuel + 1, m, cursor => do
    let a ← deref cursor
    let n ← m.get a
    match n.child with
    | some c => freeLoop value fuel m (some c)
    | none =>
      let m ← internFreeValue m a
      if a = value then pure m else freeLoop value fuel m n.parent

/-- `json_free_value`. -/
def freeValue (fuel : Nat) (m : Mem) (value : Option Nat) : Exec Mem := do
  let a ← deref value
  freeLoop a fuel m (some a)

end Dlbase.Json
