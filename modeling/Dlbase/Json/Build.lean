import Dlbase.Json.Insert
import Dlbase.Json.Reader
import Dlbase.Json.Tokens

/-!
# The parser builds the tree

In every state the memory holds the tree of what has been read, with the cursor at the innermost
node that is still open.  So no assertion fails, and each round does in memory what the machine does
with trees.
-/

namespace Dlbase.Json

open Cmem Cmem.Rose
open JsonToken

/-- An open node at its address. -/
abbrev Spot := (Nat × Data) × List (Placed Data)

/-- An open node without its address. -/
def eraseSpot (x : Spot) : OpenNode := (x.1.2, x.2.map erase)

/-- The open nodes as the frames around the innermost one. -/
def frames (q : List Spot) : List (Frame (Nat × Data)) := q.map fun x ↦ ⟨x.1, x.2, []⟩

/-- The cells of the tree with the open nodes. -/
def pathCells : List Spot → Cells Node
  | [] => 0
  | (v, cs) :: q => (plug (frames q) (.node v cs)).cells .none

/-- The address of the innermost open node. -/
def top (q : List Spot) : Option Nat := q.head?.map (·.1.1)

variable {A : Allocator Node} {m m' : Mem} {H : Cells Node} {s s' : Parse} {q : List Spot}
  {v w : Nat × Data} {cs ds : List (Placed Data)} {r : Reader} {ts us : List Token} {k : Token}
  {type : ValueType} {d : Data} {e : JsonError} {text : List UInt8}

/-- The innermost node and the cells around it. -/
theorem pathCells_cons (v : Nat × Data) (cs : List (Placed Data)) (q : List Spot) :
    pathCells ((v, cs) :: q) =
      (Rose.node v cs).cells (holeLinks .none (frames q)) + around .none (frames q) v.1 :=
  cells_plug (frames q) (.node v cs) .none

/-- The memory holds what the machine has read, and the parser is in the same state. -/
structure Rep (H : Cells Node) (s : Parse) (r : Reader) (q : List Spot) : Prop where
  /-- The open nodes. -/
  path : q.map eraseSpot = r.path
  /-- The cursor is at the innermost one. -/
  cursor : s.info.cursor = top q
  /-- The memory holds their tree. -/
  mem : Exactly s.mem (pathCells q + H)
  /-- The states are the same. -/
  state : s.info.state = r.state

/-! ## The cursor -/

theorem cursor_eq (hm : Exactly s.mem (pathCells ((v, cs) :: q) + H))
    (hc : s.info.cursor = some v.1) :
    s.cursor = .ok (v.1, root (.node v cs) (holeLinks .none (frames q))) := by
  rw [pathCells_cons, cells, add_assoc, add_assoc] at hm
  rw [Parse.cursor, hc, deref, Exec.ok_bind, hm.get_eq, Exec.ok_bind]
  rfl

/-! ## New nodes -/

/-- Which nodes may get a new node as a child. -/
def MayHold (parent child : ValueType) : Prop :=
  parent = .string ∨ parent = .array ∨ parent = .object ∧ child = .string

theorem accepts_new {n : Node} (h : MayHold n.data.type d.type) :
    accepts n (newNode d.type d.text) = true := by
  unfold accepts
  rcases h with h | h | ⟨h, hd⟩
  · rw [h]
    cases hd : d.type <;> rfl
  · rw [h]
    cases hd : d.type <;> rfl
  · rw [h]
    exact decide_eq_true hd

theorem cells_leaf (a : Nat) (d : Data) :
    (Rose.node (a, d) []).cells .none = cell a (newNode d.type d.text) := add_zero _

/-- A new node that is in memory is inserted at the cursor. -/
theorem insert_spec {a : Nat}
    (hm : Exactly s.mem (cell a (newNode d.type d.text) + (pathCells ((v, cs) :: q) + H)))
    (hc : s.info.cursor = some v.1) (hd : MayHold v.2.type d.type) (k : Parse → Round) :
    ∃ m', s.insert a k = k { s with mem := m' } ∧
      Exactly m' (pathCells ((v, cs ++ [.node (a, d) []]) :: q) + H) := by
  rw [pathCells_cons] at hm
  have hins : Exactly s.mem ((Rose.node v cs).cells (holeLinks .none (frames q)) +
      ((Rose.node (a, d) []).cells .none + (around .none (frames q) v.1 + H))) := hm.of_eq (by
    rw [cells_leaf]
    abel)
  obtain ⟨m', heq, hm'⟩ := insertChild_spec hins (accepts_new hd)
  refine ⟨m', ?_, hm'.of_eq ?_⟩
  · rw [Parse.insert, hc, deref, Exec.ok_bind]
    rw [addr_node] at heq
    rw [heq]
    rfl
  · rw [pathCells_cons, add_assoc]

theorem insertLiteral_spec (hm : Exactly s.mem (pathCells ((v, cs) :: q) + H))
    (hc : s.info.cursor = some v.1) (hd : MayHold v.2.type type) (A : Allocator Node)
    (k : Parse → Nat → Round) :
    ∃ m' a, s.insertLiteral A type k = k { s with mem := m' } a ∧
      Exactly m' (pathCells ((v, cs ++ [.node (a, ⟨type, none⟩) []]) :: q) + H) := by
  obtain ⟨m', heq, hm'⟩ := insert_spec (s := { s with mem := _ }) (d := ⟨type, none⟩)
    (hm.alloc A (newNode type none)) hc hd fun s' ↦ k s' (A.run s.mem)
  exact ⟨m', A.run s.mem, heq, hm'⟩

theorem insertText_spec {x : Rcstring} (hm : Exactly s.mem (pathCells ((v, cs) :: q) + H))
    (hc : s.info.cursor = some v.1) (hd : MayHold v.2.type type) (hx : s.info.lex.text = some x)
    (htext : x.unwrap = .ok text) (A : Allocator Node) (k : Parse → Nat → Round) :
    ∃ m' a, s.insertText A type k =
        k ⟨m', { s.info with lex := { s.info.lex with text := none } }⟩ a ∧
      Exactly m' (pathCells ((v, cs ++ [.node (a, ⟨type, some text⟩) []]) :: q) + H) := by
  obtain ⟨m₁, h₁, hm₁⟩ := (hm.alloc A (newNode type none)).modify
    fun n ↦ { n with data := { n.data with text := some text } }
  obtain ⟨m', heq, hm'⟩ := insert_spec (d := ⟨type, some text⟩)
    (s := ⟨m₁, { s.info with lex := { s.info.lex with text := none } }⟩) hm₁ hc hd
    fun s' ↦ k s' (A.run s.mem)
  refine ⟨m', A.run s.mem, ?_, hm'⟩
  rw [← heq]
  unfold Parse.insertText
  simp only [newValue, hx, htext, Exec.ok_bind, setText, h₁]

/-! ## Texts -/

theorem zero_notMem_text (h : JsonString.Text text) : 0 ∉ text := fun h0 ↦
  absurd (h.le 0 h0) (by decide)

/-- The text that is kept is the one of the new node. -/
theorem Lex.Keeps.unwrap {l : Lex} (h : l.Keeps text) (h0 : 0 ∉ text) :
    ∃ x, l.text = some x ∧ x.unwrap = .ok text := by
  obtain ⟨x, hx, ht⟩ := h
  exact ⟨x, hx, ht.unwrap h0⟩

/-! ## Moves -/

/-- A round does in memory what the machine does. -/
def Simulates (H : Cells Node) (s : Parse) (x : Round) : Except JsonError Reader → Prop
  | .ok r => ∃ s' q, x = .ok (s', none) ∧ Rep H s' r q ∧ s'.info.lex.state = s.info.lex.state
  | .error e => x = .ok (s, some e)

theorem Rep.exists_cons {p : List OpenNode} {ks : List (Rose Data)} (h : Rep H s r q)
    (hp : r.path = (d, ks) :: p) :
    ∃ a cs q', q = ((a, d), cs) :: q' ∧ cs.map erase = ks ∧ q'.map eraseSpot = p := by
  obtain ⟨⟨⟨a, d'⟩, cs⟩, q', rfl, hx, hq⟩ := List.map_eq_cons_iff.mp (h.path.trans hp)
  obtain ⟨rfl, rfl⟩ := Prod.mk.inj hx
  exact ⟨a, cs, q', rfl, rfl, hq⟩

theorem Rep.goTo (h : Rep H s r q) (state : ParseState) :
    Simulates H s (s.goTo state) (.ok ⟨state, r.path⟩) :=
  ⟨_, q, rfl, ⟨h.path, h.cursor, h.mem, rfl⟩, rfl⟩

theorem erase_leaf (a : Nat) (d : Data) : erase (.node (a, d) []) = .node d [] := map_node _ _ _

theorem erase_node (a : Nat) (d : Data) (cs : List (Placed Data)) :
    erase (.node (a, d) cs) = .node d (cs.map erase) := map_node _ _ _

/-- A string becomes the next label. -/
theorem Rep.insertLabel {p : List OpenNode} {ks : List (Rose Data)} (h : Rep H s r q)
    (hp : r.path = (objectData, ks) :: p) (hk : s.info.lex.Keeps text)
    (ht : JsonString.Text text) (A : Allocator Node) :
    Simulates H s (s.insertLabel A) (.ok ⟨.label, (labelData text, []) :: r.path⟩) := by
  obtain ⟨a, cs, q, rfl, hcs, hq⟩ := h.exists_cons hp
  obtain ⟨x, hx, hx'⟩ := hk.unwrap (zero_notMem_text ht)
  obtain ⟨m', b, heq, hm'⟩ := insertText_spec h.mem h.cursor (.inr (.inr ⟨rfl, rfl⟩)) hx hx' A
    fun s temp ↦ (s.setCursor (some temp)).goTo .label
  refine ⟨_, ((b, labelData text), []) :: ((a, objectData), cs) :: q, heq, ⟨?_, rfl, hm', rfl⟩, rfl⟩
  rw [List.map_cons, h.path]
  rfl

/-- The value of a label is inserted, and the label is complete. -/
theorem endField_spec {c : Placed Data} {p : List OpenNode} {ks : List (Rose Data)}
    (hm : Exactly s.mem (pathCells ((v, [c]) :: (w, ds) :: q) + H))
    (hc : s.info.cursor = some v.1) (hp : q.map eraseSpot = p) (hds : ds.map erase = ks) :
    ∃ s' q', s.endField = .ok (s', none) ∧
      Rep H s' ⟨.field, (w.2, ks ++ [.node v.2 [erase c]]) :: p⟩ q' ∧
      s'.info.lex = s.info.lex := by
  have hcur := cursor_eq hm hc
  refine ⟨⟨s.mem, { s.info with cursor := some w.1, state := .field }⟩,
    (w, ds ++ [Rose.node v [c]]) :: q, ?_, ⟨?_, rfl, hm, rfl⟩, rfl⟩
  · rw [Parse.endField, hcur, Exec.ok_bind]
    rfl
  · rw [List.map_cons, eraseSpot, List.map_append, List.map_singleton, hds, hp]
    rw [show erase (.node v [c]) = .node v.2 [erase c] from map_node _ _ _]

/-- A label that is the innermost open node, and the object that it belongs to. -/
theorem Rep.exists_label {p : List OpenNode} {t : List UInt8} (h : Rep H s r q)
    (hp : r.path = (labelData t, []) :: p) (hs : Reader.Stack .object p us) :
    ∃ a b ds q' ks p', q = ((a, labelData t), []) :: ((b, objectData), ds) :: q' ∧
      p = (objectData, ks) :: p' ∧ ds.map erase = ks ∧ q'.map eraseSpot = p' := by
  obtain ⟨a, cs, q, rfl, hcs, hq⟩ := h.exists_cons hp
  obtain rfl := List.map_eq_nil_iff.mp hcs
  have hobj : ∃ ks p', p = (objectData, ks) :: p' := by
    cases hs with
    | root | object => exact ⟨_, _, rfl⟩
  obtain ⟨ks, p', rfl⟩ := hobj
  obtain ⟨⟨⟨b, d⟩, ds⟩, q', rfl, hx, hq'⟩ := List.map_eq_cons_iff.mp hq
  obtain ⟨rfl, rfl⟩ := Prod.mk.inj hx
  exact ⟨a, b, ds, q', _, p', rfl, rfl, rfl, hq'⟩

/-- A value with a text is inserted below a label. -/
theorem Rep.labelText {p : List OpenNode} {t : List UInt8} (h : Rep H s r q)
    (hp : r.path = (labelData t, []) :: p) (hs : Reader.Stack .object p us)
    (hk : s.info.lex.Keeps text) (h0 : 0 ∉ text) (A : Allocator Node) (type : ValueType) :
    Simulates H s (s.insertText A type fun s _ ↦ s.endField)
      (.ok (Reader.addScalar r.path ⟨type, some text⟩ .labelValue)) := by
  obtain ⟨a, b, ds, q, ks, p', rfl, rfl, hds, hq⟩ := h.exists_label hp hs
  obtain ⟨x, hx, hx'⟩ := hk.unwrap h0
  obtain ⟨m', c, heq, hm'⟩ := insertText_spec h.mem h.cursor (.inl rfl) hx hx' A
    fun s _ ↦ s.endField
  obtain ⟨s', q', hend, hrep, hlex⟩ := endField_spec
    (s := ⟨m', { s.info with lex := { s.info.lex with text := none } }⟩) hm' h.cursor hq hds
  refine ⟨s', q', heq.trans hend, ?_, by rw [hlex]⟩
  rw [hp]
  rw [erase_leaf] at hrep
  exact hrep

/-- A value without a text is inserted below a label. -/
theorem Rep.labelLiteral {p : List OpenNode} {t : List UInt8} (h : Rep H s r q)
    (hp : r.path = (labelData t, []) :: p) (hs : Reader.Stack .object p us)
    (A : Allocator Node) (type : ValueType) :
    Simulates H s (s.insertLiteral A type fun s _ ↦ s.endField)
      (.ok (Reader.addScalar r.path ⟨type, none⟩ .labelValue)) := by
  obtain ⟨a, b, ds, q, ks, p', rfl, rfl, hds, hq⟩ := h.exists_label hp hs
  obtain ⟨m', c, heq, hm'⟩ := insertLiteral_spec h.mem h.cursor (.inl rfl) A fun s _ ↦ s.endField
  obtain ⟨s', q', hend, hrep, hlex⟩ := endField_spec (s := { s with mem := m' }) hm' h.cursor hq hds
  refine ⟨s', q', heq.trans hend, ?_, congrArg Lex.state hlex⟩
  rw [hp]
  rw [erase_leaf] at hrep
  exact hrep

/-- A node that has been inserted is an element. -/
theorem rep_element {p : List OpenNode} {ks : List (Rose Data)} {a b : Nat} {i : Info}
    (hr : r.path = (arrayData, ks) :: p) (hcs : cs.map erase = ks) (hq : q.map eraseSpot = p)
    (hm : Exactly m (pathCells (((a, arrayData), cs ++ [Rose.node (b, d) []]) :: q) + H))
    (hc : i.cursor = some a) :
    Rep H ⟨m, { i with state := .element }⟩ (Reader.addScalar r.path d .openedArray)
      (((a, arrayData), cs ++ [Rose.node (b, d) []]) :: q) := by
  refine ⟨?_, hc, hm, rfl⟩
  rw [List.map_cons, eraseSpot, List.map_append, List.map_singleton, erase_leaf, hcs, hq, hr]
  rfl

/-- A value with a text is inserted into an array. -/
theorem Rep.elementText {p : List OpenNode} {ks : List (Rose Data)} (h : Rep H s r q)
    (hp : r.path = (arrayData, ks) :: p) (hk : s.info.lex.Keeps text) (h0 : 0 ∉ text)
    (A : Allocator Node) (type : ValueType) :
    Simulates H s (s.insertText A type fun s _ ↦ s.goTo .element)
      (.ok (Reader.addScalar r.path ⟨type, some text⟩ .openedArray)) := by
  obtain ⟨a, cs, q, rfl, hcs, hq⟩ := h.exists_cons hp
  obtain ⟨x, hx, hx'⟩ := hk.unwrap h0
  obtain ⟨m', b, heq, hm'⟩ := insertText_spec h.mem h.cursor (.inr (.inl rfl)) hx hx' A
    fun s _ ↦ s.goTo .element
  exact ⟨_, _, heq, rep_element hp hcs hq hm' h.cursor, rfl⟩

/-- A value without a text is inserted into an array. -/
theorem Rep.elementLiteral {p : List OpenNode} {ks : List (Rose Data)} (h : Rep H s r q)
    (hp : r.path = (arrayData, ks) :: p) (A : Allocator Node) (type : ValueType) :
    Simulates H s (s.insertLiteral A type fun s _ ↦ s.goTo .element)
      (.ok (Reader.addScalar r.path ⟨type, none⟩ .openedArray)) := by
  obtain ⟨a, cs, q, rfl, hcs, hq⟩ := h.exists_cons hp
  obtain ⟨m', b, heq, hm'⟩ := insertLiteral_spec h.mem h.cursor (.inr (.inl rfl)) A
    fun s _ ↦ s.goTo .element
  exact ⟨_, _, heq, rep_element hp hcs hq hm' h.cursor, rfl⟩

/-- An object or an array is closed. -/
theorem Rep.close {p : List OpenNode} {ks : List (Rose Data)} (h : Rep H s r q)
    (hp : r.path = (d, ks) :: p) (hplace : Reader.Place p us) (orphan : Parse → Round) :
    Simulates H s (s.closeValue orphan) (.ok (Reader.close r.path)) := by
  obtain ⟨a, cs, q, rfl, hcs, hq⟩ := h.exists_cons hp
  have hcur := cursor_eq h.mem h.cursor
  rw [hp]
  rcases hplace with ⟨rfl, -⟩ | ⟨type, hs, hne⟩
  · obtain rfl := List.map_eq_nil_iff.mp hq
    refine ⟨⟨s.mem, { s.info with state := .finished }⟩, [((a, d), cs)], ?_,
      ⟨h.path.trans hp, h.cursor, h.mem, rfl⟩, rfl⟩
    rw [Parse.closeValue, hcur, Exec.ok_bind]
    rfl
  · cases hs with
    | root | object => exact absurd rfl hne
    | @array _ p ks' _ _ hs _ _ =>
      obtain ⟨⟨⟨b, d'⟩, ds⟩, q', rfl, hx, hq'⟩ := List.map_eq_cons_iff.mp hq
      obtain ⟨rfl, rfl⟩ := Prod.mk.inj hx
      have hcur' := cursor_eq (s := s.setCursor (some b)) (v := (b, arrayData)) h.mem rfl
      refine ⟨⟨s.mem, { s.info with cursor := some b, state := .element }⟩,
        ((b, arrayData), ds ++ [Rose.node (a, d) cs]) :: q', ?_, ⟨?_, rfl, h.mem, rfl⟩, rfl⟩
      · rw [Parse.closeValue, hcur, Exec.ok_bind]
        change (s.setCursor (some b)).cursor >>= _ = _
        rw [hcur', Exec.ok_bind]
        rfl
      · rw [List.map_cons, eraseSpot, List.map_append, List.map_singleton, erase_node, hcs, hq']
        rfl
    | @label p _ t hs =>
      obtain ⟨⟨⟨b, d'⟩, ds⟩, q', rfl, hx, hq'⟩ := List.map_eq_cons_iff.mp hq
      obtain ⟨rfl, hds⟩ := Prod.mk.inj hx
      obtain rfl := List.map_eq_nil_iff.mp hds
      have hobj : ∃ ks p', p = (objectData, ks) :: p' := by
        cases hs with
        | root | object => exact ⟨_, _, rfl⟩
      obtain ⟨ks', p', rfl⟩ := hobj
      obtain ⟨⟨⟨c, d''⟩, es⟩, q'', rfl, hx', hq''⟩ := List.map_eq_cons_iff.mp hq'
      obtain ⟨rfl, rfl⟩ := Prod.mk.inj hx'
      have hcur' := cursor_eq (s := s.setCursor (some b)) (v := (b, labelData t)) h.mem rfl
      have hmem : Exactly (s.setCursor (some c)).mem (pathCells (((c, objectData),
          es ++ [Rose.node (b, labelData t) [Rose.node (a, d) cs]]) :: q'') + H) := h.mem
      have hcur'' := cursor_eq hmem rfl
      refine ⟨⟨s.mem, { s.info with cursor := some c, state := .field }⟩,
        ((c, objectData), es ++ [Rose.node (b, labelData t) [Rose.node (a, d) cs]]) :: q'', ?_,
        ⟨?_, rfl, h.mem, rfl⟩, rfl⟩
      · rw [Parse.closeValue, hcur, Exec.ok_bind]
        change (s.setCursor (some b)).cursor >>= _ = _
        rw [hcur', Exec.ok_bind]
        change (s.setCursor (some c)).cursor >>= _ = _
        rw [hcur'', Exec.ok_bind]
        rfl
      · rw [List.map_cons, eraseSpot, List.map_append, List.map_singleton, erase_node,
          List.map_singleton, erase_node, hcs, hq'']
        rfl

end Dlbase.Json
