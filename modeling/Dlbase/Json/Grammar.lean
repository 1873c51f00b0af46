import Dlbase.Json.Model
import Dlbase.Lib.JsonToken

/-!
# The documents that `dl_json.c` reads

A document is an object.  Its tree has a node for each value and for each label, and the grammar
says which tokens a tree may be written with: those of JSON, except that there may be a comma behind
the last element of an array.
-/

namespace Dlbase.Json

open Cmem
open JsonToken

/-- The node of a value that has no parts. -/
def scalar : Token → Option Data
  | .string t => some ⟨.string, some t⟩
  | .number t => some ⟨.number, some t⟩
  | .true => some ⟨.true, none⟩
  | .false => some ⟨.false, none⟩
  | .null => some ⟨.null, none⟩
  | _ => none

/-- The node of a label. -/
def labelData (t : List UInt8) : Data := ⟨.string, some t⟩

/-- The node of an object. -/
def objectData : Data := ⟨.object, none⟩

/-- The node of an array. -/
def arrayData : Data := ⟨.array, none⟩

/-- What a part of a document can be. -/
inductive Nonterminal where
  /-- A value. -/
  | value
  /-- A label and its value. -/
  | member
  /-- One or more members. -/
  | someMembers
  /-- What is between the braces of an object. -/
  | members
  /-- One or more values. -/
  | someElements
  /-- What is between the brackets of an array. -/
  | elements
deriving DecidableEq, Repr

/-- The trees `cs` may be written with the tokens `ts`. -/
inductive Derives : Nonterminal → List (Rose Data) → List Token → Prop where
  /-- A value that has no parts. -/
  | scalar {k : Token} {d : Data} : Json.scalar k = some d → Derives .value [.node d []] [k]
  /-- An object. -/
  | object {cs : List (Rose Data)} {ts : List Token} : Derives .members cs ts →
      Derives .value [.node objectData cs] (.beginObject :: (ts ++ [.endObject]))
  /-- An array. -/
  | array {cs : List (Rose Data)} {ts : List Token} : Derives .elements cs ts →
      Derives .value [.node arrayData cs] (.beginArray :: (ts ++ [.endArray]))
  /-- A label and its value. -/
  | member {v : Rose Data} {ts : List Token} (t : List UInt8) : Derives .value [v] ts →
      Derives .member [.node (labelData t) [v]] (.string t :: .nameSeparator :: ts)
  /-- The first member. -/
  | firstMember {cs : List (Rose Data)} {ts : List Token} : Derives .member cs ts →
      Derives .someMembers cs ts
  /-- One more member. -/
  | nextMember {cs ds : List (Rose Data)} {ts us : List Token} : Derives .someMembers cs ts →
      Derives .member ds us → Derives .someMembers (cs ++ ds) (ts ++ .valueSeparator :: us)
  /-- An object without members. -/
  | noMembers : Derives .members [] []
  /-- An object with members. -/
  | members {cs : List (Rose Data)} {ts : List Token} : Derives .someMembers cs ts →
      Derives .members cs ts
  /-- The first element. -/
  | firstElement {cs : List (Rose Data)} {ts : List Token} : Derives .value cs ts →
      Derives .someElements cs ts
  /-- One more element. -/
  | nextElement {cs ds : List (Rose Data)} {ts us : List Token} : Derives .someElements cs ts →
      Derives .value ds us → Derives .someElements (cs ++ ds) (ts ++ .valueSeparator :: us)
  /-- An array without elements. -/
  | noElements : Derives .elements [] []
  /-- An array with elements. -/
  | elements {cs : List (Rose Data)} {ts : List Token} : Derives .someElements cs ts →
      Derives .elements cs ts
  /-- An array with elements and a comma behind them. -/
  | trailing {cs : List (Rose Data)} {ts : List Token} : Derives .someElements cs ts →
      Derives .elements cs (ts ++ [.valueSeparator])

/-- The tree of a document may be written with the tokens. -/
def Document (t : Rose Data) (ts : List Token) : Prop :=
  t.val = objectData ∧ Derives .value [t] ts

variable {n : Nonterminal} {cs : List (Rose Data)} {ts us : List Token} {t : Rose Data}

/-- In a document a number has something behind it that closes or separates. -/
theorem Derives.separated (h : Derives n cs ts) {k : Token} (hk : k.Closes)
    (hus : Separated (k :: us)) : Separated (ts ++ k :: us) := by
  have hother : ∀ {k : Token} {ts : List Token}, (∀ x, k ≠ .number x) → Separated ts →
      Separated (k :: ts) := .other
  induction h generalizing k us with
  | @scalar j d hj =>
    cases j with
    | number => exact .number hk hus
    | _ => exact hother nofun hus
  | object _ ih =>
    rw [List.cons_append, List.append_assoc]
    exact hother nofun (ih trivial (hother nofun hus))
  | array _ ih =>
    rw [List.cons_append, List.append_assoc]
    exact hother nofun (ih trivial (hother nofun hus))
  | member _ _ ih => exact hother nofun (hother nofun (ih hk hus))
  | firstMember _ ih | firstElement _ ih | members _ ih | elements _ ih => exact ih hk hus
  | nextMember _ _ ih ih' | nextElement _ _ ih ih' =>
    rw [List.append_assoc]
    exact ih trivial (hother nofun (ih' hk hus))
  | noMembers | noElements => exact hus
  | trailing _ ih =>
    rw [List.append_assoc]
    exact ih trivial (hother nofun hus)

/-- A document may be written with any white space between its tokens. -/
theorem Document.spells {l : List UInt8} (h : Document t ts) (hok : ∀ k ∈ ts, k.Ok)
    (hl : Spaced ts l) : Spells ts l := by
  refine Separated.spells ?_ hok hl
  obtain ⟨d, cs⟩ := t
  obtain ⟨rfl, hd⟩ := h
  cases hd with
  | @scalar k d hk => cases k <;> cases hk
  | object hm => exact .other nofun (hm.separated trivial (.other nofun .nil))

end Dlbase.Json
