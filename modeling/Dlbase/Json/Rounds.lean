import Dlbase.Json.Build

/-!
# The rounds of the parser

Each state does with a token in memory what the machine does with it, and the assertions at its
beginning hold.
-/

namespace Dlbase.Json

open Cmem Cmem.Rose
open JsonToken
open Reader (Stack Place Explains)

variable {A : Allocator Node} {m : Mem} {H : Cells Node} {s s' : Parse} {q : List Spot}
  {r r' : Reader} {ts us : List Token} {k : Token} {d : Data} {p : List OpenNode}
  {cs : List (Rose Data)} {type : ValueType}

/-! ## Assertions -/

theorem Rep.withLex (h : Rep H s r q) (lex : Lex) :
    Rep H { s with info := { s.info with lex } } r q := ⟨h.path, h.cursor, h.mem, h.state⟩

/-- The cursor is at a node of the type that is asserted. -/
theorem Rep.checkType (h : Rep H s r q) (hp : r.path = (d, cs) :: p) (x : Round) :
    s.checkType d.type x = x := by
  obtain ⟨a, cs, q, rfl, -, -⟩ := h.exists_cons hp
  rw [Parse.checkType, cursor_eq h.mem h.cursor, Exec.ok_bind]
  exact if_pos rfl

/-- The assertions hold. -/
theorem Rep.checked (h : Rep H s r q) (he : Explains r ts) (x : Round) : s.checked x = x := by
  have hs := h.state
  cases he <;> simp only [Parse.checked, hs]
  case openedObject | field | sibling => exact h.checkType (d := objectData) rfl x
  case label t _ | labelValue t _ => exact h.checkType (d := labelData t) rfl x
  case openedArray => exact h.checkType (d := arrayData) rfl x
  case element =>
    obtain ⟨a, cs, q, rfl, -, -⟩ := h.exists_cons rfl
    rw [h.cursor]
    rfl
  case finished =>
    obtain ⟨a, cs, q, rfl, -, hq⟩ := h.exists_cons rfl
    obtain rfl := List.map_eq_nil_iff.mp hq
    rw [cursor_eq h.mem h.cursor, Exec.ok_bind]
    exact if_pos rfl

/-! ## Objects and arrays that are opened -/

/-- A new object or array becomes the innermost open node. -/
theorem Rep.openValue (h : Rep H s r q) (hplace : Place r.path us) (A : Allocator Node)
    (type : ValueType) (state : ParseState) :
    ∃ s' q', s.openValue A type state = .ok (s', none) ∧
      Rep H s' ⟨state, (⟨type, none⟩, []) :: r.path⟩ q' ∧ s'.info.lex = s.info.lex := by
  have hpath := h.path
  obtain ⟨m, i⟩ := s
  rcases hplace with ⟨hnil, -⟩ | ⟨type', hs, hne⟩
  · rw [hnil] at hpath
    obtain rfl := List.map_eq_nil_iff.mp hpath
    refine ⟨⟨(newValue A m type).1, { i with cursor := some (A.run m), state }⟩,
      [((A.run m, ⟨type, none⟩), [])], ?_, ⟨?_, rfl, ?_, rfl⟩, rfl⟩
    · have hc : i.cursor = none := h.cursor
      rw [Parse.openValue, hc]
      rfl
    · rw [hnil]
      rfl
    · refine (h.mem.alloc A (newNode type none)).of_eq ?_
      rw [← cells_leaf (A.run m) ⟨type, none⟩, pathCells, zero_add]
      rfl
  · generalize hr : r.path = path at hs
    have hd : ∃ d cs p, path = (d, cs) :: p ∧ (d.type = .string ∨ d.type = .array) := by
      cases hs with
      | root | object => exact absurd rfl hne
      | array => exact ⟨_, _, _, rfl, .inr rfl⟩
      | label => exact ⟨_, _, _, rfl, .inl rfl⟩
    obtain ⟨d, cs, p, rfl, hd⟩ := hd
    obtain ⟨a, cs, q, rfl, hcs, hq⟩ := h.exists_cons hr
    have hc : i.cursor = some a := h.cursor
    have hget : m.get a = .ok (root (.node (a, d) cs) (holeLinks .none (frames q))) := by
      have hm := h.mem
      rw [pathCells_cons, cells, add_assoc, add_assoc] at hm
      exact hm.get_eq
    have hmay : MayHold d.type type := by
      rcases hd with hd | hd
      · exact .inl hd
      · exact .inr (.inl hd)
    obtain ⟨m', b, heq, hm'⟩ := insertLiteral_spec h.mem hc hmay A
      fun s temp ↦ (s.setCursor (some temp)).goTo state
    refine ⟨⟨m', { i with cursor := some b, state }⟩,
      ((b, ⟨type, none⟩), []) :: ((a, d), cs) :: q, ?_, ⟨?_, rfl, hm', rfl⟩, rfl⟩
    · rw [Parse.openValue, hc]
      change (m.get a >>= _) = _
      rw [hget, Exec.ok_bind]
      exact (if_pos hd).trans heq
    · rw [List.map_cons, hpath, hr]
      rfl

/-! ## Tokens -/

/-- A value without parts, as the value of a label or as an element. -/
theorem Rep.addScalar (h : Rep H s r q) (hlex : s.info.lex.Carries k) (hok : k.Ok)
    (hk : scalar k = some d) (A : Allocator Node) :
    (∀ t p us, r.path = (labelData t, []) :: p → Stack .object p us →
      Simulates H s (s.onLabelValue A (value k)) (.ok (Reader.addScalar r.path d .labelValue))) ∧
    (∀ cs p, r.path = (arrayData, cs) :: p →
      Simulates H s (s.onOpenedArray A (value k))
        (.ok (Reader.addScalar r.path d .openedArray))) := by
  cases k with
  | string t =>
    obtain rfl := Option.some.inj hk
    exact ⟨fun _ _ _ hp hs ↦ h.labelText hp hs hlex (zero_notMem_text hok) A .string,
      fun _ _ hp ↦ h.elementText hp hlex (zero_notMem_text hok) A .string⟩
  | number t =>
    obtain rfl := Option.some.inj hk
    exact ⟨fun _ _ _ hp hs ↦ h.labelText hp hs hlex (Number.zero_notMem hok) A .number,
      fun _ _ hp ↦ h.elementText hp hlex (Number.zero_notMem hok) A .number⟩
  | true =>
    obtain rfl := Option.some.inj hk
    exact ⟨fun _ _ _ hp hs ↦ h.labelLiteral hp hs A .true,
      fun _ _ hp ↦ h.elementLiteral hp A .true⟩
  | false =>
    obtain rfl := Option.some.inj hk
    exact ⟨fun _ _ _ hp hs ↦ h.labelLiteral hp hs A .false,
      fun _ _ hp ↦ h.elementLiteral hp A .false⟩
  | null =>
    obtain rfl := Option.some.inj hk
    exact ⟨fun _ _ _ hp hs ↦ h.labelLiteral hp hs A .null,
      fun _ _ hp ↦ h.elementLiteral hp A .null⟩
  | _ => cases hk

/-- A state does in memory what the machine does with a token. -/
theorem Rep.onValue (h : Rep H s r q) (he : Explains r ts) (hlex : s.info.lex.Carries k)
    (hok : k.Ok) (ho : r.state ≠ .openObject) (ha : r.state ≠ .openArray) (A : Allocator Node) :
    Simulates H s (s.onValue A (value k)) (r.take k) := by
  have hs := h.state
  cases he with
  | openObject => exact absurd rfl ho
  | openArray => exact absurd rfl ha
  | start =>
    simp only [Parse.onValue, hs]
    cases k with
    | beginObject => exact h.goTo .openObject
    | _ => rfl
  | openedObject hp =>
    simp only [Parse.onValue, hs]
    cases k with
    | string t => exact h.insertLabel rfl hlex hok A
    | endObject => exact h.close rfl hp fun _ ↦ Exec.undef
    | _ => rfl
  | field hp _ =>
    simp only [Parse.onValue, hs]
    cases k with
    | valueSeparator => exact h.goTo .sibling
    | endObject => exact h.close rfl hp fun _ ↦ Exec.undef
    | _ => rfl
  | sibling hp _ =>
    simp only [Parse.onValue, hs]
    cases k with
    | string t => exact h.insertLabel rfl hlex hok A
    | _ => rfl
  | label t hp =>
    simp only [Parse.onValue, hs]
    cases k with
    | nameSeparator => exact h.goTo .labelValue
    | _ => rfl
  | labelValue t hp =>
    simp only [Parse.onValue, hs]
    cases k with
    | beginObject => exact h.goTo .openObject
    | beginArray => exact h.goTo .openArray
    | string | number | true | false | null => exact (h.addScalar hlex hok rfl A).1 _ _ _ rfl hp
    | _ => rfl
  | openedArray hp hne _ =>
    simp only [Parse.onValue, hs]
    cases k with
    | beginObject => exact h.goTo .openObject
    | beginArray => exact h.goTo .openArray
    | endArray => exact h.close rfl (.inr ⟨_, hp, hne⟩) fun s ↦ s.fail .badTreeStructure
    | string | number | true | false | null => exact (h.addScalar hlex hok rfl A).2 _ _ rfl
    | _ => rfl
  | element hp hne _ =>
    simp only [Parse.onValue, hs]
    cases k with
    | valueSeparator => exact h.goTo .openedArray
    | endArray => exact h.close rfl (.inr ⟨_, hp, hne⟩) fun s ↦ s.goTo .finished
    | _ => rfl
  | finished _ =>
    simp only [Parse.onValue, hs]
    cases k <;> rfl

end Dlbase.Json
