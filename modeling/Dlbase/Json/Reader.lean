import Dlbase.Json.Grammar
import Dlbase.Json.Parser

/-!
# The parser as a machine on tokens

The machine does with trees what `json_parse_fragment` does with nodes in memory.  Its state has the
nodes that are still open, the innermost first, each with the children that it has got so far.  It
accepts what the grammar derives, and nothing else.
-/

namespace Dlbase.Json

open Cmem
open JsonToken

/-- A node that may get more children, and those that it has. -/
abbrev OpenNode := Data × List (Rose Data)

/-- The innermost open node gets a child. -/
def addChild (t : Rose Data) : List OpenNode → List OpenNode
  | (d, cs) :: p => (d, cs ++ [t]) :: p
  | [] => []

/-- The innermost open node becomes a child of the next one. -/
def closeTop : List OpenNode → List OpenNode
  | (d, cs) :: p => addChild (.node d cs) p
  | [] => []

/-- The state of the machine. -/
structure Reader where
  /-- The state of the parser. -/
  state : ParseState
  /-- The open nodes. -/
  path : List OpenNode

namespace Reader

/-- The state after the node has been opened that is due to be. -/
def opened (r : Reader) : Reader :=
  match r.state with
  | .openObject => ⟨.openedObject, (objectData, []) :: r.path⟩
  | .openArray => ⟨.openedArray, (arrayData, []) :: r.path⟩
  | _ => r

/-- An object or an array ends. -/
def close : List OpenNode → Reader
  | x :: y :: p =>
    if y.1.type = .string then ⟨.field, closeTop (closeTop (x :: y :: p))⟩
    else ⟨.element, closeTop (x :: y :: p)⟩
  | p => ⟨.finished, p⟩

/-- A value that has no parts, as the value of a label or as an element. -/
def addScalar (path : List OpenNode) (d : Data) : ParseState → Reader
  | .labelValue => ⟨.field, closeTop (addChild (.node d []) path)⟩
  | _ => ⟨.element, addChild (.node d []) path⟩

/-- A token is read, in a state that reads one. -/
def take (r : Reader) (k : Token) : Except JsonError Reader :=
  match r.state, k with
  | .start, .beginObject => .ok ⟨.openObject, r.path⟩
  | .openedObject, .string t => .ok ⟨.label, (labelData t, []) :: r.path⟩
  | .openedObject, .endObject => .ok (close r.path)
  | .field, .valueSeparator => .ok ⟨.sibling, r.path⟩
  | .field, .endObject => .ok (close r.path)
  | .sibling, .string t => .ok ⟨.label, (labelData t, []) :: r.path⟩
  | .label, .nameSeparator => .ok ⟨.labelValue, r.path⟩
  | .labelValue, .beginObject => .ok ⟨.openObject, r.path⟩
  | .labelValue, .beginArray => .ok ⟨.openArray, r.path⟩
  | .openedArray, .beginObject => .ok ⟨.openObject, r.path⟩
  | .openedArray, .beginArray => .ok ⟨.openArray, r.path⟩
  | .openedArray, .endArray => .ok (close r.path)
  | .element, .valueSeparator => .ok ⟨.openedArray, r.path⟩
  | .element, .endArray => .ok (close r.path)
  | .labelValue, k | .openedArray, k =>
    match scalar k with
    | some d => .ok (addScalar r.path d r.state)
    | none => .error .malformedDocument
  | _, _ => .error .malformedDocument

/-- A token is read. -/
def step (r : Reader) (k : Token) : Except JsonError Reader := r.opened.take k

/-- Tokens are read. -/
def run (r : Reader) (ts : List Token) : Except JsonError Reader := ts.foldlM step r

/-- The machine at the beginning. -/
def init : Reader := ⟨.start, []⟩

variable {r r' : Reader} {k : Token} {ts us vs : List Token} {e : JsonError} {d : Data}
  {cs ds : List (Rose Data)} {p path : List OpenNode} {t : List UInt8} {v : Rose Data}

@[simp] theorem run_nil (r : Reader) : r.run [] = .ok r := rfl

theorem run_cons (r : Reader) (k : Token) (ts : List Token) :
    r.run (k :: ts) = (r.step k >>= (run · ts)) := rfl

theorem run_append (r : Reader) (ts us : List Token) :
    r.run (ts ++ us) = (r.run ts >>= (run · us)) := List.foldlM_append

theorem run_append_ok (h : r.run ts = .ok r') (us : List Token) :
    r.run (ts ++ us) = r'.run us := by
  rw [run_append, h]
  rfl

theorem run_cons_ok (h : r.step k = .ok r') (ts : List Token) : r.run (k :: ts) = r'.run ts := by
  rw [run_cons, h]
  rfl

/-- It makes no difference for the next token whether the node has been opened. -/
theorem run_opened (r : Reader) (k : Token) (ts : List Token) :
    r.opened.run (k :: ts) = r.run (k :: ts) := by
  have hopened : r.opened.opened = r.opened := by
    obtain ⟨state, path⟩ := r
    cases state <;> rfl
  rw [run_cons, run_cons, step, step, hopened]

/-! ## What the grammar derives is accepted -/

/-- What the machine does with the tokens of a part of a document. -/
def Accepts : Nonterminal → List (Rose Data) → List Token → Prop
  | .value, cs, ts =>
    (∀ t p, run ⟨.labelValue, (labelData t, []) :: p⟩ ts =
      .ok ⟨.field, addChild (.node (labelData t) cs) p⟩) ∧
    (∀ ds p, run ⟨.openedArray, (arrayData, ds) :: p⟩ ts =
      .ok ⟨.element, (arrayData, ds ++ cs) :: p⟩)
  | .member, cs, ts => ∀ state ds p, state = .openedObject ∨ state = .sibling →
    run ⟨state, (objectData, ds) :: p⟩ ts = .ok ⟨.field, (objectData, ds ++ cs) :: p⟩
  | .someMembers, cs, ts => ∀ p,
    run ⟨.openedObject, (objectData, []) :: p⟩ ts = .ok ⟨.field, (objectData, cs) :: p⟩
  | .members, cs, ts => ∀ p, ∃ state, (state = .openedObject ∨ state = .field) ∧
    run ⟨.openedObject, (objectData, []) :: p⟩ ts = .ok ⟨state, (objectData, cs) :: p⟩
  | .someElements, cs, ts => ∀ p,
    run ⟨.openedArray, (arrayData, []) :: p⟩ ts = .ok ⟨.element, (arrayData, cs) :: p⟩
  | .elements, cs, ts => ∀ p, ∃ state, (state = .openedArray ∨ state = .element) ∧
    run ⟨.openedArray, (arrayData, []) :: p⟩ ts = .ok ⟨state, (arrayData, cs) :: p⟩

/-- The tokens between the braces of an object and its end. -/
theorem run_object (h : Accepts .members cs ts) (p : List OpenNode) :
    run ⟨.openObject, p⟩ (ts ++ [.endObject]) = .ok (close ((objectData, cs) :: p)) := by
  obtain ⟨state, hstate, hrun⟩ := h p
  have hend : ∀ path, run ⟨state, path⟩ [.endObject] = .ok (close path) := by
    rcases hstate with rfl | rfl <;> exact fun _ ↦ rfl
  have hopen : run ⟨.openObject, p⟩ (ts ++ [.endObject]) =
      run ⟨.openedObject, (objectData, []) :: p⟩ (ts ++ [.endObject]) := by
    cases ts with
    | nil => rfl
    | cons k ts => exact (run_opened ⟨.openObject, p⟩ k (ts ++ [.endObject])).symm
  rw [hopen, run_append_ok hrun, hend]

/-- The tokens between the brackets of an array and its end. -/
theorem run_array (h : Accepts .elements cs ts) (p : List OpenNode) :
    run ⟨.openArray, p⟩ (ts ++ [.endArray]) = .ok (close ((arrayData, cs) :: p)) := by
  obtain ⟨state, hstate, hrun⟩ := h p
  have hend : ∀ path, run ⟨state, path⟩ [.endArray] = .ok (close path) := by
    rcases hstate with rfl | rfl <;> exact fun _ ↦ rfl
  have hopen : run ⟨.openArray, p⟩ (ts ++ [.endArray]) =
      run ⟨.openedArray, (arrayData, []) :: p⟩ (ts ++ [.endArray]) := by
    cases ts with
    | nil => rfl
    | cons k ts => exact (run_opened ⟨.openArray, p⟩ k (ts ++ [.endArray])).symm
  rw [hopen, run_append_ok hrun, hend]

theorem accepts_of_derives {n : Nonterminal} (h : Derives n cs ts) : Accepts n cs ts := by
  induction h with
  | @scalar k d hk =>
    cases k with
    | string t | number t =>
      cases hk
      exact ⟨fun _ _ ↦ rfl, fun _ _ ↦ rfl⟩
    | true | false | null =>
      cases hk
      exact ⟨fun _ _ ↦ rfl, fun _ _ ↦ rfl⟩
    | _ => cases hk
  | object _ ih => exact ⟨fun t p ↦ run_object ih _, fun ds p ↦ run_object ih _⟩
  | array _ ih => exact ⟨fun t p ↦ run_array ih _, fun ds p ↦ run_array ih _⟩
  | member t _ ih =>
    rintro state ds p (rfl | rfl)
    · exact ih.1 t _
    · exact ih.1 t _
  | firstMember _ ih => exact fun p ↦ ih .openedObject [] p (.inl rfl)
  | nextMember _ _ ih ih' =>
    intro p
    rw [run_append_ok (ih p)]
    exact ih' .sibling _ p (.inr rfl)
  | noMembers => exact fun p ↦ ⟨_, .inl rfl, rfl⟩
  | members _ ih => exact fun p ↦ ⟨_, .inr rfl, ih p⟩
  | firstElement _ ih => exact fun p ↦ ih.2 [] p
  | nextElement _ _ ih ih' =>
    intro p
    rw [run_append_ok (ih p)]
    exact ih'.2 _ p
  | noElements => exact fun p ↦ ⟨_, .inl rfl, rfl⟩
  | elements _ ih => exact fun p ↦ ⟨_, .inr rfl, ih p⟩
  | trailing _ ih =>
    intro p
    refine ⟨_, .inl rfl, ?_⟩
    rw [run_append_ok (ih p)]
    rfl

/-- A document is accepted. -/
theorem run_document {t : Rose Data} (h : Document t ts) :
    init.run ts = .ok ⟨.finished, [(t.val, t.children)]⟩ := by
  obtain ⟨hval, hd⟩ := h
  cases hd with
  | @scalar k d hk =>
    obtain rfl : d = objectData := hval
    cases k <;> cases hk
  | object hm => exact run_object (accepts_of_derives hm) []
  | array _ => cases hval

/-! ## What is accepted is derived by the grammar -/

/-- The members that have been read, with the comma behind them if there are any. -/
def Before (n : Nonterminal) (cs : List (Rose Data)) (ts : List Token) : Prop :=
  cs = [] ∧ ts = [] ∨ ∃ us, Derives n cs us ∧ ts = us ++ [.valueSeparator]

/-- `Stack d path ts`: the tokens have led to these open nodes, the innermost of which is `d` and
waits for its next child. -/
inductive Stack : ValueType → List OpenNode → List Token → Prop where
  /-- The object of the document. -/
  | root {cs : List (Rose Data)} {ts : List Token} : Before .someMembers cs ts →
      Stack .object [(objectData, cs)] (.beginObject :: ts)
  /-- An object. -/
  | object {type : ValueType} {p : List OpenNode} {cs : List (Rose Data)} {ts us : List Token} :
      Stack type p us → type ≠ .object → Before .someMembers cs ts →
      Stack .object ((objectData, cs) :: p) (us ++ .beginObject :: ts)
  /-- An array. -/
  | array {type : ValueType} {p : List OpenNode} {cs : List (Rose Data)} {ts us : List Token} :
      Stack type p us → type ≠ .object → Before .someElements cs ts →
      Stack .array ((arrayData, cs) :: p) (us ++ .beginArray :: ts)
  /-- A label. -/
  | label {p : List OpenNode} {us : List Token} (t : List UInt8) : Stack .object p us →
      Stack .string ((labelData t, []) :: p) (us ++ [.string t, .nameSeparator])

/-- A place for an object or an array: the beginning of the document, a label or an array. -/
def Place (p : List OpenNode) (ts : List Token) : Prop :=
  p = [] ∧ ts = [] ∨ ∃ type, Stack type p ts ∧ type ≠ .object

/-- `Explains r ts`: the tokens that have been read to get to this state. -/
inductive Explains : Reader → List Token → Prop where
  | start : Explains ⟨.start, []⟩ []
  | openObject {p : List OpenNode} {ts : List Token} : Place p ts →
      Explains ⟨.openObject, p⟩ (ts ++ [.beginObject])
  | openArray {type : ValueType} {p : List OpenNode} {ts : List Token} : Stack type p ts →
      type ≠ .object → Explains ⟨.openArray, p⟩ (ts ++ [.beginArray])
  | openedObject {p : List OpenNode} {ts : List Token} : Place p ts →
      Explains ⟨.openedObject, (objectData, []) :: p⟩ (ts ++ [.beginObject])
  | field {p : List OpenNode} {cs : List (Rose Data)} {ts us : List Token} : Place p us →
      Derives .someMembers cs ts →
      Explains ⟨.field, (objectData, cs) :: p⟩ (us ++ .beginObject :: ts)
  | sibling {p : List OpenNode} {cs : List (Rose Data)} {ts us : List Token} : Place p us →
      Derives .someMembers cs ts →
      Explains ⟨.sibling, (objectData, cs) :: p⟩ (us ++ .beginObject :: (ts ++ [.valueSeparator]))
  | label {p : List OpenNode} {us : List Token} (t : List UInt8) : Stack .object p us →
      Explains ⟨.label, (labelData t, []) :: p⟩ (us ++ [.string t])
  | labelValue {p : List OpenNode} {us : List Token} (t : List UInt8) : Stack .object p us →
      Explains ⟨.labelValue, (labelData t, []) :: p⟩ (us ++ [.string t, .nameSeparator])
  | openedArray {type : ValueType} {p : List OpenNode} {cs : List (Rose Data)}
      {ts us : List Token} : Stack type p us → type ≠ .object → Before .someElements cs ts →
      Explains ⟨.openedArray, (arrayData, cs) :: p⟩ (us ++ .beginArray :: ts)
  | element {type : ValueType} {p : List OpenNode} {cs : List (Rose Data)} {ts us : List Token} :
      Stack type p us → type ≠ .object → Derives .someElements cs ts →
      Explains ⟨.element, (arrayData, cs) :: p⟩ (us ++ .beginArray :: ts)
  | finished {cs : List (Rose Data)} {ts : List Token} :
      Derives .value [.node objectData cs] ts → Explains ⟨.finished, [(objectData, cs)]⟩ ts

/-- The next child behind the others. -/
theorem Before.member (h : Before .someMembers cs ts) (hd : Derives .member ds us) :
    Derives .someMembers (cs ++ ds) (ts ++ us) := by
  rcases h with ⟨rfl, rfl⟩ | ⟨vs, hvs, rfl⟩
  · exact .firstMember hd
  · rw [List.append_assoc]
    exact .nextMember hvs hd

theorem Before.element (h : Before .someElements cs ts) (hd : Derives .value ds us) :
    Derives .someElements (cs ++ ds) (ts ++ us) := by
  rcases h with ⟨rfl, rfl⟩ | ⟨vs, hvs, rfl⟩
  · exact .firstElement hd
  · rw [List.append_assoc]
    exact .nextElement hvs hd

theorem before_nil (n : Nonterminal) : Before n [] [] := .inl ⟨rfl, rfl⟩

theorem before_append {n : Nonterminal} (h : Derives n cs ts) :
    Before n cs (ts ++ [.valueSeparator]) := .inr ⟨ts, h, rfl⟩

theorem Before.elements (h : Before .someElements cs ts) : Derives .elements cs ts := by
  rcases h with ⟨rfl, rfl⟩ | ⟨us, hus, rfl⟩
  · exact .noElements
  · exact .trailing hus

/-- An object with children waits for the next one. -/
theorem Place.object (h : Place p us) (hb : Before .someMembers cs ts) :
    Stack .object ((objectData, cs) :: p) (us ++ .beginObject :: ts) := by
  rcases h with ⟨rfl, rfl⟩ | ⟨type, hs, hne⟩
  · exact .root hb
  · exact .object hs hne hb

/-- A label gets its value. -/
theorem explains_field (hs : Stack .object p us) (hv : Derives .value [v] vs)
    (t : List UInt8) :
    Explains ⟨.field, addChild (.node (labelData t) [v]) p⟩
      (us ++ .string t :: .nameSeparator :: vs) := by
  cases hs with
  | @root cs ts hb =>
    have hfield : Explains ⟨.field, _⟩
        ([] ++ .beginObject :: (ts ++ .string t :: .nameSeparator :: vs)) :=
      .field (.inl ⟨rfl, rfl⟩) (hb.member (.member t hv))
    exact hfield
  | object hs hne hb =>
    rw [List.append_assoc, List.cons_append]
    exact .field (.inr ⟨_, hs, hne⟩) (hb.member (.member t hv))

/-- An object or an array that has been read completely gets its place. -/
theorem explains_close (h : Place p us) (hv : Derives .value [.node d cs] vs)
    (hroot : p = [] → d = objectData) : Explains (close ((d, cs) :: p)) (us ++ vs) := by
  rcases h with ⟨rfl, rfl⟩ | ⟨type, hs, hne⟩
  · obtain rfl := hroot rfl
    exact .finished hv
  · cases hs with
    | root | object => exact absurd rfl hne
    | array hs hne' hb =>
      rw [List.append_assoc, List.cons_append]
      exact .element hs hne' (hb.element hv)
    | label t hs =>
      rw [List.append_assoc]
      exact explains_field hs hv t

/-- A value without parts gets its place. -/
theorem explains_scalar (hs : Stack .string path us) (hd : Derives .value [.node d []] vs) :
    Explains (addScalar path d .labelValue) (us ++ vs) := by
  cases hs with
  | label t hs =>
    rw [List.append_assoc]
    exact explains_field hs hd t

theorem Explains.opened (h : Explains r ts) : Explains r.opened ts := by
  cases h with
  | openObject hp => exact .openedObject hp
  | openArray hs hne => exact .openedArray hs hne (before_nil _)
  | start => exact .start
  | openedObject hp => exact .openedObject hp
  | field hp hd => exact .field hp hd
  | sibling hp hd => exact .sibling hp hd
  | label t hs => exact .label t hs
  | labelValue t hs => exact .labelValue t hs
  | openedArray hs hne hb => exact .openedArray hs hne hb
  | element hs hne hd => exact .element hs hne hd
  | finished hd => exact .finished hd

/-- A token that is accepted explains the next state. -/
theorem Explains.take (h : Explains r ts) (hk : r.take k = .ok r') : Explains r' (ts ++ [k]) := by
  cases h with
  | start =>
    cases k with
    | beginObject =>
      cases hk
      exact .openObject (.inl ⟨rfl, rfl⟩)
    | _ => cases hk
  | openObject | openArray | finished => cases k <;> cases hk
  | openedObject hp =>
    cases k with
    | string t =>
      cases hk
      exact .label t (hp.object (before_nil _))
    | endObject =>
      cases hk
      rw [List.append_assoc]
      exact explains_close hp (.object .noMembers) fun _ ↦ rfl
    | _ => cases hk
  | field hp hd =>
    cases k with
    | valueSeparator =>
      cases hk
      rw [List.append_assoc, List.cons_append]
      exact .sibling hp hd
    | endObject =>
      cases hk
      rw [List.append_assoc, List.cons_append]
      exact explains_close hp (.object (.members hd)) fun _ ↦ rfl
    | _ => cases hk
  | sibling hp hd =>
    cases k with
    | string t =>
      cases hk
      exact .label t (hp.object (before_append hd))
    | _ => cases hk
  | label t hs =>
    cases k with
    | nameSeparator =>
      cases hk
      rw [List.append_assoc]
      exact .labelValue t hs
    | _ => cases hk
  | labelValue t hs =>
    have hstack := Stack.label t hs
    cases k with
    | beginObject =>
      cases hk
      exact .openObject (.inr ⟨_, hstack, nofun⟩)
    | beginArray =>
      cases hk
      exact .openArray hstack nofun
    | string | number | true | false | null =>
      cases hk
      exact explains_scalar hstack (.scalar rfl)
    | _ => cases hk
  | openedArray hs hne hb =>
    have hstack := Stack.array hs hne hb
    cases k with
    | beginObject =>
      cases hk
      exact .openObject (.inr ⟨_, hstack, nofun⟩)
    | beginArray =>
      cases hk
      exact .openArray hstack nofun
    | endArray =>
      cases hk
      rw [List.append_assoc, List.cons_append]
      refine explains_close (.inr ⟨_, hs, hne⟩) (.array hb.elements) ?_
      rintro rfl
      cases hs
    | string | number | true | false | null =>
      cases hk
      rw [List.append_assoc, List.cons_append]
      exact .element hs hne (hb.element (.scalar rfl))
    | _ => cases hk
  | element hs hne hd =>
    cases k with
    | valueSeparator =>
      cases hk
      rw [List.append_assoc, List.cons_append]
      exact .openedArray hs hne (before_append hd)
    | endArray =>
      cases hk
      rw [List.append_assoc, List.cons_append]
      refine explains_close (.inr ⟨_, hs, hne⟩) (.array (.elements hd)) ?_
      rintro rfl
      cases hs
    | _ => cases hk

end Reader

end Dlbase.Json
