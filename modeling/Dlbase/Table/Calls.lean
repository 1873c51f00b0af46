import Dlbase.Table.Clear
import Dlbase.Table.Owns

/-!
# The setters and the functions that delete

The setters find the key, or insert it, and write the value; a value that has been there before is
released.  What a call does to the entries of a table is stated once for all setters and once for
both functions that delete.
-/

namespace Dlbase.Table

open Cmem

variable {A : Malloc} {t t' : DlTable} {E E' R : Entries} {k key : Key} {v x : Value}
  {c e : Content}
  {d : Datum} {l : Loc} {m : Mem} {fuel depth : Nat} {st : Status} {P : Prop}

/-- The setters. -/
def setter (A : Malloc) (fuel depth : Nat) (t : DlTable) : Content → Datum → Exec (DlTable × Status)
  | .int k, .int n => arraySetInt A fuel depth t k n
  | .int k, .str s => arraySetStr A fuel depth t k s
  | .int k, .void p => arraySetVoid A fuel depth t k p
  | .str u, .int n => nodeSetInt A fuel depth t u n
  | .str u, .str s => nodeSetStr A fuel depth t u s
  | .str u, .void p => nodeSetVoid A fuel depth t u p

/-- The functions that delete. -/
def deleter (fuel : Nat) (t : DlTable) : Content → Exec DlTable
  | .int k => delKeyIndex fuel t k
  | .str u => delKeyStr fuel t u

/-- The part of the setters that yields a pointer to a value. -/
def slotFor (A : Malloc) (fuel depth : Nat) (t : DlTable) : Content → Option Loc → Exec Insertion
  | .int k, v => arraySet A fuel depth t k v
  | .str u, v => nodeSet A fuel depth t u v

/-- How many allocations a copy of the key takes. -/
def Content.copies : Content → Nat
  | int _ => 0
  | str _ => 2

/-- The test of the setters for pointers; the others have none. -/
def unchanged (t : DlTable) (v : Option Loc) : Datum → Exec Bool
  | .void p => samePointer t v p
  | _ => .ok false

/-- The part of the setters that writes the value. -/
def putDatum (A : Malloc) (t : DlTable) (l : Loc) : Datum → Exec (DlTable × Status)
  | .int n => do
    let t ← writeVal t l ⟨n, .int⟩
    pure (t, .ok)
  | .str s => setStr A t l s
  | .void p => do
    let t ← writeVal t l ⟨p, .void⟩
    pure (t, .ok)

/-- The table is well formed, holds the entries `E` and owns their strings. -/
structure Good (t : DlTable) (E : Entries) : Prop where
  /-- It is well formed. -/
  shape : Shape t E
  /-- The entries own their strings. -/
  owns : Owns t.mem E
  /-- There are not too many nodes. -/
  bits : t.lsizenode ≤ maxBits

/-- The bits of the value of the key are those of the pointer. -/
def SameBits (t : DlTable) (c : Content) (p : Int) : Prop :=
  ∃ l v, Returns (fun fuel ↦ find fuel t c) (some l) ∧ readVal t l = .ok v ∧ v.v = p

/-- What a setter does to the entries `E` of a table. -/
inductive Sets (t : DlTable) (E : Entries) (c : Content) (d : Datum) :
    DlTable → Status → Entries → Prop where
  /-- Nothing is written, as the bits of the value are those of the pointer. -/
  | same {p : Int} : SameBits t c p → d = .void p → Sets t E c d t .ok E
  /-- A value is written; a value that has been there before is released. -/
  | put {t' : DlTable} {E' : Entries} {k : Key} {v x : Value} {R : Entries} {e : Content} :
      E = slotEntries k v + R → k.content t'.mem = some e → c.Begins e → (Clear t c → e = c) →
      (v.tt = .nil → ∀ r ∈ R, r.1.content t.mem ≠ some c) → x.datum t'.mem = some d →
      t'.voids = v.pointers ++ t.voids → (∀ a ∈ owned R, t'.mem a = t.mem a) →
      (v.tt ≠ .nil → ∀ a ∈ k.addrs, t'.mem a = t.mem a) →
      Kept t'.mem ((k, x) ::ₘ R) E' → Crowded t c ∨ E' = (k, x) ::ₘ R →
      (∀ p, d = .void p → ¬ SameBits t c p) → Sets t E c d t' .ok E'
  /-- There are too many nodes. -/
  | full {t' : DlTable} {E' : Entries} : Crowded t c → t'.voids = t.voids →
      (∀ a ∈ owned E, t'.mem a = t.mem a) → Kept t'.mem E E' → Sets t E c d t' .error E'

/-- What deleting a key does to the entries `E` of a table. -/
inductive Deletes (t : DlTable) (E : Entries) (c : Content) : DlTable → Entries → Prop where
  /-- There is no such key. -/
  | none : (∀ r ∈ E, r.1.content t.mem ≠ some c) → Deletes t E c t E
  /-- The key is deleted, and its value is released. -/
  | found {t' : DlTable} {k : Key} {v : Value} {R : Entries} {e : Content} :
      E = slotEntries k v + R → k.content t.mem = some e → c.Begins e → (Clear t c → e = c) →
      (v.tt = .nil → ∀ r ∈ R, r.1.content t.mem ≠ some c) →
      t'.voids = v.pointers ++ t.voids → (∀ a ∈ owned R, t'.mem a = t.mem a) → Deletes t E c t' R

/-! ## Writing -/

theorem storeNode_fields {i : Nat} {n : Node} (h : storeNode t i n = .ok t') :
    ∃ p, t' = { t with node := p } := by
  unfold storeNode at h
  split at h
  · obtain ⟨m, -, h⟩ := Exec.bind_eq_ok.mp h
    obtain rfl := Except.ok.inj h
    exact ⟨_, rfl⟩
  · cases h

/-- Only the nodes or the array change if a value is written. -/
theorem writeVal_fields (h : writeVal t l x = .ok t') :
    ∃ p vs, t' = { t with node := p, array := vs } := by
  cases l with
  | array i =>
    unfold writeVal at h
    dsimp only at h
    split at h
    · split_ifs at h
      · obtain rfl := Except.ok.inj h
        exact ⟨_, _, rfl⟩
      · cases h
    · cases h
  | node i =>
    obtain ⟨n, -, h⟩ := Exec.bind_eq_ok.mp h
    obtain ⟨p, rfl⟩ := storeNode_fields h
    exact ⟨p, _, rfl⟩

/-- What is written does not depend on the memory of the strings. -/
theorem writeVal_over {p : NodePart} {vs : Option (List Value)} (m : Mem) (w : List Int) (a : Nat)
    (h : writeVal t l x = .ok { t with node := p, array := vs }) :
    writeVal { t with mem := m, voids := w, allocs := a } l x =
      .ok { t with node := p, array := vs, mem := m, voids := w, allocs := a } := by
  cases l with
  | array i =>
    unfold writeVal at h ⊢
    dsimp only at h ⊢
    cases harr : t.array with
    | none =>
      rw [harr] at h
      cases h
    | some ws =>
      rw [harr] at h
      dsimp only at h ⊢
      by_cases hi : i < ws.length
      · rw [if_pos hi] at h ⊢
        have ht := Except.ok.inj h
        have hnode := congrArg DlTable.node ht
        have harray := congrArg DlTable.array ht
        dsimp only at hnode harray
        rw [← hnode, ← harray]
      · rw [if_neg hi] at h
        cases h
  | node i =>
    obtain ⟨n, hload, h⟩ := Exec.bind_eq_ok.mp h
    have hload' : loadNode { t with mem := m, voids := w, allocs := a } i = .ok n := hload
    rw [writeVal, hload', Exec.ok_bind]
    unfold storeNode at h ⊢
    dsimp only at h ⊢
    cases hn : t.node with
    | nodes o =>
      rw [hn] at h
      obtain ⟨o', ho, h⟩ := Exec.bind_eq_ok.mp h
      have ht := Except.ok.inj h
      have hnode := congrArg DlTable.node ht
      have harray := congrArg DlTable.array ht
      dsimp only at hnode harray
      dsimp only
      rw [ho, ← hnode, ← harray]
      rfl
    | null =>
      rw [hn] at h
      cases h
    | dummy =>
      rw [hn] at h
      cases h

/-- Where one value can be written, there is one, and another one can be written instead. -/
theorem writeVal_again (h : writeVal t l x = .ok t') (y : Value) :
    (∃ old, readVal t l = .ok old) ∧ ∃ p vs, writeVal t l y = .ok { t with node := p, array := vs } ∧
      ∀ z, writeVal { t with node := p, array := vs } l z = writeVal t l z := by
  cases l with
  | array i =>
    unfold writeVal at h ⊢
    dsimp only at h ⊢
    cases harr : t.array with
    | none =>
      rw [harr] at h
      cases h
    | some ws =>
      rw [harr] at h
      dsimp only at h ⊢
      by_cases hi : i < ws.length
      · refine ⟨⟨ws[i], loadArray_eq harr (List.getElem?_eq_getElem hi)⟩, t.node,
          some (ws.set i y), ?_, fun z ↦ ?_⟩
        · rw [if_pos hi]
        · dsimp only
          rw [List.length_set, if_pos hi, if_pos hi, List.set_set]
      · rw [if_neg hi] at h
        cases h
  | node i =>
    obtain ⟨n, hload, h⟩ := Exec.bind_eq_ok.mp h
    unfold storeNode at h
    cases hn : t.node with
    | nodes o =>
      rw [hn] at h
      obtain ⟨o', ho, -⟩ := Exec.bind_eq_ok.mp h
      have hne : o i ≠ none := fun hnone ↦ by
        rw [Objects.put, if_pos hnone] at ho
        cases ho
      have hwrite : ∀ z, writeVal t (.node i) z =
          .ok { t with node := .nodes (o.set i { n with val := z }) } := fun z ↦ by
        rw [writeVal, hload, Exec.ok_bind, storeNode, hn]
        dsimp only
        rw [Objects.put, if_neg hne]
        rfl
      refine ⟨⟨n.val, ?_⟩, .nodes (o.set i { n with val := y }), t.array, hwrite y, fun z ↦ ?_⟩
      · rw [readVal, hload]
        rfl
      · have hload' : loadNode { t with node := .nodes (o.set i { n with val := y }) } i =
            .ok { n with val := y } := by
          change Objects.get _ i = _
          rw [Objects.get, Objects.set, Function.update_self]
        rw [hwrite, writeVal, hload', Exec.ok_bind, storeNode]
        dsimp only
        rw [Objects.put, if_neg (by rw [Objects.set, Function.update_self]; rintro ⟨⟩)]
        change Except.ok _ = _
        rw [Objects.set, Objects.set, Function.update_idem]
        rfl
    | null =>
      rw [hn] at h
      cases h
    | dummy =>
      rw [hn] at h
      cases h

/-- A string is created and written. -/
theorem setStr_eq {p : NodePart} {vs : Option (List Value)} (hA : ∀ i, A.fails i = false)
    (s : List UInt8) (h : writeVal t l ⟨A.run t.mem, .str⟩ = .ok { t with node := p, array := vs }) :
    setStr A t l s = .ok ({ t with node := p, array := vs, mem := t.mem.set (A.run t.mem) (some s)
                                   allocs := t.allocs + 2 }, .ok) := by
  obtain ⟨⟨old, hold⟩, -⟩ := writeVal_again h ⟨0, .nil⟩
  obtain ⟨-, q, ws, hw, hagain⟩ := writeVal_again h { old with v := A.run t.mem }
  have hfirst := writeVal_over (t.mem.set (A.run t.mem) none) t.voids (t.allocs + 1) hw
  have hsecond := writeVal_over (t := { t with node := q, array := ws })
    (t.mem.set (A.run t.mem) (some s)) t.voids (t.allocs + 2) ((hagain _).trans h)
  unfold setStr DlTable.alloc
  rw [hold, Exec.ok_bind, hA]
  dsimp only
  rw [if_pos (Bool.not_false), hfirst, Exec.ok_bind, hA]
  dsimp only
  rw [if_pos (Bool.not_false)]
  have hmem : (t.mem.set (A.run t.mem) none).set (A.run t.mem) (some s) =
      t.mem.set (A.run t.mem) (some s) := Function.update_idem _ _ _
  rw [hmem, hsecond]
  rfl

/-! ## Values -/

/-- A value of the key can be written at the location; the other entries have been kept, and nothing
has changed unless there has been a rehash. -/
def Ready (t : DlTable) (l : Loc) (k : Key) (R : Entries) (rehashed : Prop) : Prop :=
  ∀ x : Value, x.Used → ∃ p vs E', writeVal t l x = .ok { t with node := p, array := vs } ∧
    Shape { t with node := p, array := vs } E' ∧ Kept t.mem ((k, x) ::ₘ R) E' ∧
    (rehashed ∨ E' = (k, x) ::ₘ R)

theorem content_of_ownedWith (hm : ∀ a ∈ ownedWith k R, m a = t.mem a) {a : Key}
    (ha : a ∈ ((k, x) ::ₘ R).map Prod.fst) : a.content m = a.content t.mem := by
  refine content_congr fun b hb ↦ hm b (Multiset.mem_add.mpr ?_)
  rw [Multiset.map_cons] at ha
  rcases Multiset.mem_cons.mp ha with rfl | ha
  · exact .inl hb
  · obtain ⟨e, he, rfl⟩ := Multiset.mem_map.mp ha
    exact .inr (mem_owned.mpr ⟨e, he, .inl hb⟩)

/-- Only the strings of the key and of the other entries matter. -/
theorem Ready.over (h : Ready t l k R P) {a : Nat} (w : List Int) (ha : t.arrayId ≤ a)
    (hm : ∀ b ∈ ownedWith k R, m b = t.mem b) :
    Ready { t with mem := m, voids := w, allocs := a } l k R P := by
  intro x hx
  obtain ⟨p, vs, E', hw, hshape, hkept, hP⟩ := h x hx
  refine ⟨p, vs, E', writeVal_over m w a hw, hshape.over w ha fun e he ↦ ?_,
    hkept.congr fun b hb ↦ content_of_ownedWith hm hb, hP⟩
  exact content_of_ownedWith hm (Multiset.mem_of_le hkept.keys (Multiset.mem_map_of_mem _ he))

/-- What the setters do once they have a pointer to a value. -/
theorem putDatum_spec (hA : ∀ i, A.fails i = false) (hr : Ready t l k R P) (hh : Held t.mem k R)
    (hid : t.arrayId ≤ t.allocs) (d : Datum) : ∃ t' x E', putDatum A t l d = .ok (t', .ok) ∧
      x.datum t'.mem = some d ∧ Shape t' E' ∧ Kept t'.mem ((k, x) ::ₘ R) E' ∧
      (P ∨ E' = (k, x) ::ₘ R) ∧ Owns t'.mem ((k, x) ::ₘ R) ∧ t'.voids = t.voids ∧ t'.lsizenode = t.lsizenode ∧
      ∀ a ∈ ownedWith k R, t'.mem a = t.mem a := by
  cases d with
  | int n =>
    obtain ⟨p, vs, E', hw, hshape, hkept, hP⟩ := hr ⟨n, .int⟩ ⟨nofun, nofun⟩
    refine ⟨_, _, E', ?_, rfl, hshape, hkept, hP, hh.put rfl rfl, rfl, rfl, fun _ _ ↦ rfl⟩
    rw [putDatum, hw]
    rfl
  | void q =>
    obtain ⟨p, vs, E', hw, hshape, hkept, hP⟩ := hr ⟨q, .void⟩ ⟨nofun, nofun⟩
    refine ⟨_, _, E', ?_, rfl, hshape, hkept, hP, hh.put rfl rfl, rfl, rfl, fun _ _ ↦ rfl⟩
    rw [putDatum, hw]
    rfl
  | str s =>
    have howns := hh.putStr A s
    have hfresh := A.fresh t.mem hh.finite
    have hsame : ∀ a ∈ ownedWith k R, t.mem.set (A.run t.mem) (some s) a = t.mem a :=
      fun a ha ↦ by
        have hne : a ≠ A.run t.mem := by
          rintro rfl
          obtain ⟨u, hu⟩ := hh.alive _ (by rwa [owned_held])
          cases hfresh.symm.trans hu
        exact Function.update_of_ne hne _ _
    obtain ⟨p, vs, E', hw, hshape, hkept, hP⟩ := hr ⟨A.run t.mem, .str⟩ ⟨nofun, nofun⟩
    refine ⟨_, ⟨A.run t.mem, .str⟩, E', setStr_eq hA s hw, ?_, ?_, ?_, hP, howns, rfl, rfl, hsame⟩
    · change (t.mem.set (A.run t.mem) (some s) (A.run t.mem)).join.map Datum.str = _
      rw [Objects.set, Function.update_self]
      rfl
    · refine Shape.over hshape t.voids (hid.trans (Nat.le_add_right _ _)) fun e he ↦ ?_
      exact content_of_ownedWith hsame
        (Multiset.mem_of_le hkept.keys (Multiset.mem_map_of_mem _ he))
    · exact hkept.congr fun b hb ↦ content_of_ownedWith hsame hb

/-- A location with a value. -/
theorem At.ready (h : At t k v R l) (ha : ArrayOk t) (hid : t.arrayId ≤ t.allocs) :
    Ready t l k R P := by
  intro x hx
  obtain ⟨p, vs, hw, -, hshape⟩ := h.write ha hid hx
  exact ⟨p, vs, _, hw, hshape, .refl _, .inr rfl⟩

/-- A location for a new key. -/
theorem Inserts.ready (h : Inserts t E key t' l) (hP : ¬ P → ∀ x : Value, x.Used →
    ∃ t'', writeVal t' l x = .ok t'' ∧ Shape t'' ((key, x) ::ₘ E)) : Ready t' l key E P := by
  intro x hx
  obtain ⟨t₁, E', hw, -, hshape, hkept⟩ := h.write x hx
  obtain ⟨p, vs, rfl⟩ := writeVal_fields hw
  refine ⟨p, vs, E', hw, hshape, h.frame.mem.symm ▸ hkept, or_iff_not_imp_left.mpr fun hnot ↦ ?_⟩
  obtain ⟨t₂, hw', hshape'⟩ := hP hnot x hx
  obtain rfl := Except.ok.inj (hw.symm.trans hw')
  exact hshape.unique hshape'

/-! ## Setters -/

theorem setter_eq (A : Malloc) (fuel depth : Nat) (t : DlTable) (c : Content) (d : Datum) :
    setter A fuel depth t c d = (do
      let v ← find fuel t c
      if ← unchanged t v d then pure (t, .ok)
      else
        match ← slotFor A fuel depth t c v with
        | (t, none) => pure (t, .error)
        | (t, some l) => putDatum A t l d) := by
  cases c <;> cases d <;> rfl

/-- A value that is there is released. -/
theorem slotFor_some (hv : readVal t l = .ok v) :
    slotFor A fuel depth t c (some l) = (freedVal t.mem v >>= fun m ↦
      .ok ({ t with mem := m, voids := v.pointers ++ t.voids }, some l)) := by
  have hrel : slotFor A fuel depth t c (some l) = (do
      let old ← readVal t l
      let t ← release t old
      pure (t, some l)) := by cases c <;> rfl
  rw [hrel, hv, Exec.ok_bind, release_eq]
  cases freedVal t.mem v <;> rfl

/-- A new key is inserted; if it is a string, it has been copied before. -/
theorem slotFor_none (hA : ∀ i < c.copies, A.fails (t.allocs + i) = false) (h : Good t E)
    (fuel depth : Nat) : ∃ key m, slotFor A fuel depth t c none =
        newkey A fuel depth { t with mem := m, allocs := t.allocs + c.copies } key ∧
      key.content m = some c ∧ Held m key E ∧ (∀ b ∈ owned E, m b = t.mem b) ∧
      Shape { t with mem := m, allocs := t.allocs + c.copies } E := by
  cases c with
  | int n => exact ⟨.int n, t.mem, rfl, rfl, held_int h.owns n, fun _ _ ↦ rfl, h.shape⟩
  | str s =>
    obtain ⟨hheld, hsame⟩ := h.owns.newStr A s
    refine ⟨.str (A.run t.mem), t.mem.set (A.run t.mem) (some s), ?_, ?_, hheld, hsame,
      h.shape.over t.voids (h.shape.id.trans (Nat.le_add_right _ _)) fun e he ↦
        Owns.content_eq hsame he⟩
    · have hmem : (t.mem.set (A.run t.mem) none).set (A.run t.mem) (some s) =
          t.mem.set (A.run t.mem) (some s) := Function.update_idem _ _ _
      have hfirst : A.fails t.allocs = false := hA 0 Nat.two_pos
      unfold slotFor nodeSet DlTable.alloc
      dsimp only
      rw [hfirst, hA 1 Nat.one_lt_two]
      simp only [Bool.not_false, if_true]
      rw [hmem]
      rfl
    · rw [Key.content, Objects.set, Function.update_self]
      rfl

/-- A key that is not found is not there, if its value were nil. -/
theorem At.not_mem (h : At t k v R l) (hnil : v.tt = .nil) {i : Int} (hk : k = .int i) :
    ∀ r ∈ R, r.1.content t.mem ≠ some (.int i) := by
  intro r hr heq
  have hri := content_int heq
  cases h with
  | @array j Q C hin hkj hload hnull hQ hC hsep hR =>
    obtain rfl : i = (j : Int) := Key.int.inj (hk.symm.trans hkj)
    rw [hR] at hr
    rcases Multiset.mem_add.mp hr with hr | hr
    · rw [slotEntries_nil hnil, zero_add] at hQ
      rw [← hQ] at hr
      obtain ⟨i', hi', he⟩ := Multiset.mem_sum.mp hr
      unfold cellEntry at he
      split at he
      · rename_i v' hv'
        split_ifs at he with hnil'
        · cases he
        · rw [Multiset.mem_singleton.mp he] at hri
          obtain rfl : i' = j := by exact_mod_cast Key.int.inj hri
          have hv := getElem?_of_loadArray hload
          obtain rfl := Option.some.inj (hv.symm.trans hv')
          exact hnil' hnil
      · cases he
    · exact hsep r hr _ hri hin
  | node _ hl _ _ hv _ =>
    exact absurd (hv ▸ hnil) (hl.used _ (Multiset.mem_cons_self _ _) _ (by simp)).1

/-- Whether there is a place for a key does not depend on new strings. -/
theorem Present.over {a : Nat} (hshape : Shape t E) (hm : ∀ b ∈ owned E, m b = t.mem b) :
    Present t c → Present { t with mem := m, allocs := a } c := by
  rintro (hin | ⟨i, x, hi, hx, hc⟩)
  · exact .inl hin
  · refine .inr ⟨i, x, hi, hx, ?_⟩
    exact (Owns.content_eq hm (hshape.mem_of_load hi hx hc)).trans hc

/-- A table into which a key is inserted that has not been found. -/
structure Keyed (t : DlTable) (E : Entries) (c : Content) (key : Key) (m : Mem) (a : Nat) :
    Prop where
  /-- The key has the content. -/
  content : key.content m = some c
  /-- The key has memory of its own. -/
  held : Held m key E
  /-- The entries have kept their memory. -/
  same : ∀ b ∈ owned E, m b = t.mem b
  /-- The table has kept its entries. -/
  shape : Shape { t with mem := m, allocs := a } E
  /-- The key has no place in the array. -/
  out : ∀ k, key = .int k → ¬ InArray { t with mem := m, allocs := a } k
  /-- The key has no place at all. -/
  absent : ¬ Present { t with mem := m, allocs := a } c
  /-- The nodes are as full as before. -/
  crowded : Crowded { t with mem := m, allocs := a } c → Crowded t c

/-- A key that has not been found is inserted as a new one. -/
theorem slotFor_absent (hA : ∀ i < c.copies, A.fails (t.allocs + i) = false) (h : Good t E)
    (hfind : find fuel t c = .ok none) (depth : Nat) :
    ∃ key m, Keyed t E c key m (t.allocs + c.copies) ∧ slotFor A fuel depth t c none =
      newkey A fuel depth { t with mem := m, allocs := t.allocs + c.copies } key := by
  obtain ⟨hout, hnot⟩ := h.shape.not_found hfind
  obtain ⟨key, m, hslot, hkey, hheld, hsame, hshape⟩ := slotFor_none hA h fuel depth
  have habsent : ¬ Present { t with mem := m, allocs := t.allocs + c.copies } c := by
    rintro (⟨k, hk, hin⟩ | ⟨i, x, hi, hx, hc⟩)
    · exact hout k hk hin
    · have hmem := hshape.mem_of_load hi hx hc
      exact hnot _ hmem ((Owns.content_eq hsame hmem).symm.trans hc)
  refine ⟨key, m, ⟨hkey, hheld, hsame, hshape, fun k hk ↦ ?_, habsent, fun hc ↦
    ⟨fun hp ↦ habsent (hp.over h.shape hsame), hc.inUse⟩⟩, hslot⟩
  rw [hk] at hkey
  exact hout k (Option.some.inj hkey).symm

/-- A setter that does not find the key and gets no location for it. -/
theorem setter_full (hA : ∀ i, A.fails i = false) (h : Good t E)
    (hfind : find fuel t c = .ok none) (hins : slotFor A fuel depth t c none = .ok (t', none)) :
    ∃ E', Good t' E' ∧ Sets t E c d t' .error E' := by
  obtain ⟨key, m, hk, hslot⟩ := slotFor_absent (fun i _ ↦ hA _) h hfind depth
  rw [hslot] at hins
  obtain ⟨E', hshape', hf, hkept⟩ := newkey_fails hA hk.shape h.bits hins
  have hmem : t'.mem = m := hf.mem
  have hfull : Crowded t c := by
    by_contra hnc
    obtain ⟨l, hl, -⟩ := newkeyWith_free hk.shape hk.content hk.absent (hnc ∘ hk.crowded) hins
    cases hl
  refine ⟨E', ⟨hshape', ?_, hf.bits h.bits⟩, .full hfull hf.voids ?_ ?_⟩
  · rw [hmem]
    exact (Held.rest hk.held).of_kept hkept.keys hkept.vals
  · rw [hmem]
    exact hk.same
  · rw [hmem]
    exact hkept

/-- A setter that does not find the key and inserts it. -/
theorem setter_new (hA : ∀ i, A.fails i = false) (h : Good t E)
    (hfind : find fuel t c = .ok none) {t₁ : DlTable}
    (hins : slotFor A fuel depth t c none = .ok (t₁, some l))
    (hrun : putDatum A t₁ l d = .ok (t', st)) : ∃ E', Good t' E' ∧ Sets t E c d t' st E' := by
  have hfound := (steady_find t c).returns hfind
  obtain ⟨-, hnot⟩ := h.shape.not_found hfind
  obtain ⟨key, m, hk, hslot⟩ := slotFor_absent (fun i _ ↦ hA _) h hfind depth
  rw [hslot] at hins
  have hi := newkey_spec hk.shape hk.out hins
  have hmem : t₁.mem = m := hi.frame.mem
  have hready : Ready t₁ l key E (Crowded t c) := hi.ready fun hnc ↦ by
    obtain ⟨l', hl, hwrite⟩ :=
      newkeyWith_free hk.shape hk.content hk.absent (hnc ∘ hk.crowded) hins
    obtain rfl := Option.some.inj hl
    exact hwrite
  have hused : Value.Used ⟨0, .int⟩ := by constructor <;> rintro ⟨⟩
  obtain ⟨p, vs, E₀, -, hid, -⟩ := hready ⟨0, .int⟩ hused
  obtain ⟨t₂, x, E', hput, hx, hshape', hkept, hexact, howns, hvoids, hl, hsame'⟩ :=
    putDatum_spec hA hready (hmem.symm ▸ hk.held) hid.id d
  obtain ⟨rfl, rfl⟩ := Prod.mk.inj (Except.ok.inj (hput.symm.trans hrun))
  have hagree : ∀ b ∈ owned E, t₂.mem b = t.mem b := fun b hb ↦ by
    rw [hsame' b (Multiset.mem_add.mpr (.inr hb)), hmem, hk.same b hb]
  have hbits : ∀ p, d = .void p → ¬ SameBits t c p := by
    rintro p - ⟨l', w, hret, -⟩
    cases hfound.unique hret
  refine ⟨E', ⟨hshape', howns.of_kept hkept.keys hkept.vals, hl ▸ hi.frame.bits h.bits⟩, ?_⟩
  refine .put (v := ⟨0, .nil⟩) (zero_add E).symm ?_ c.begins_refl (fun _ ↦ rfl) (fun _ ↦ hnot)
    hx (hvoids.trans hi.frame.voids) hagree (fun hne ↦ absurd rfl hne) hkept hexact hbits
  rw [← hk.content, ← hmem]
  exact content_congr fun b hb ↦ hsame' b (Multiset.mem_add.mpr (.inl hb))

/-- A setter that finds the key and writes another value. -/
theorem setter_found (hA : ∀ i, A.fails i = false) (h : Good t E)
    (hfind : find fuel t c = .ok (some l)) (hbits : ∀ p, d = .void p → ¬ SameBits t c p)
    {o : Option Loc} {t₁ : DlTable} (hslot : slotFor A fuel depth t c (some l) = .ok (t₁, o)) :
    o = some l ∧ (putDatum A t₁ l d = .ok (t', st) →
      ∃ E', Good t' E' ∧ Sets t E c d t' st E') := by
  obtain ⟨k, e, v, R, hk, hbegins, hat, rfl, hnil⟩ := h.shape.at_find hfind
  have hfresh : v.tt = .nil → ∀ r ∈ R, r.1.content t.mem ≠ some c := fun hv ↦ by
    obtain ⟨i, rfl, hki⟩ := hnil hv
    exact hat.not_mem hv hki
  rw [slotFor_some hat.read] at hslot
  obtain ⟨m, hm, hslot⟩ := Exec.bind_eq_ok.mp hslot
  obtain ⟨rfl, rfl⟩ := Prod.mk.inj (Except.ok.inj hslot)
  refine ⟨rfl, fun hrun ↦ ?_⟩
  obtain ⟨hheld, hagree⟩ := h.owns.release_slot
    (fun hv ↦ (hnil hv).imp fun i hi ↦ hi.2) hm
  have hready := (hat.ready (P := False) h.shape.array h.shape.id).over (v.pointers ++ t.voids)
    h.shape.id hagree
  obtain ⟨t₂, x, E', hput, hx, hshape', hkept, hexact, howns, hvoids, hl, hsame'⟩ :=
    putDatum_spec hA hready hheld h.shape.id d
  obtain ⟨rfl, rfl⟩ := Prod.mk.inj (Except.ok.inj (hput.symm.trans hrun))
  have hall : ∀ b ∈ ownedWith k R, t₂.mem b = t.mem b := fun b hb ↦
    (hsame' b hb).trans (hagree b hb)
  refine ⟨E', ⟨hshape', howns.of_kept hkept.keys hkept.vals, hl.trans_le h.bits⟩, ?_⟩
  refine .put rfl ?_ hbegins (fun hclear ↦ hclear.found hfind hat hk hbegins) hfresh hx hvoids
    (fun b hb ↦ hall b (Multiset.mem_add.mpr (.inr hb)))
    (fun _ b hb ↦ hall b (Multiset.mem_add.mpr (.inl hb))) hkept
    (.inr (hexact.resolve_left id)) hbits
  rw [← hk]
  exact content_congr fun b hb ↦ hall b (Multiset.mem_add.mpr (.inl hb))

/-- What a setter does. -/
theorem setter_spec (hA : ∀ i, A.fails i = false) (h : Good t E)
    (hrun : setter A fuel depth t c d = .ok (t', st)) :
    ∃ E', Good t' E' ∧ Sets t E c d t' st E' := by
  rw [setter_eq] at hrun
  obtain ⟨o, hfind, hrun⟩ := Exec.bind_eq_ok.mp hrun
  obtain ⟨b, hb, hrun⟩ := Exec.bind_eq_ok.mp hrun
  cases o with
  | none =>
    obtain rfl : b = false := by cases d <;> exact (Except.ok.inj hb).symm
    obtain ⟨⟨t₁, o⟩, hins, hrun⟩ := Exec.bind_eq_ok.mp hrun
    cases o with
    | none =>
      obtain ⟨rfl, rfl⟩ := Prod.mk.inj (Except.ok.inj hrun)
      exact setter_full hA h hfind hins
    | some l => exact setter_new hA h hfind hins hrun
  | some l =>
    have hfound := (steady_find t c).returns hfind
    cases b with
    | true =>
      obtain ⟨rfl, rfl⟩ := Prod.mk.inj (Except.ok.inj hrun)
      cases d with
      | int n => cases hb
      | str u => cases hb
      | void q =>
        obtain ⟨old, hold, hb⟩ := Exec.bind_eq_ok.mp hb
        exact ⟨_, h, .same ⟨l, old, hfound, hold, of_decide_eq_true (Except.ok.inj hb)⟩ rfl⟩
    | false =>
      have hbits : ∀ p, d = .void p → ¬ SameBits t c p := by
        rintro p rfl ⟨l', w, hret, hw, hp⟩
        obtain rfl := Option.some.inj (hfound.unique hret)
        obtain ⟨old, hold, hb⟩ := Exec.bind_eq_ok.mp hb
        obtain rfl := Except.ok.inj (hw.symm.trans hold)
        exact of_decide_eq_false (Except.ok.inj hb) hp
      obtain ⟨⟨t₁, o⟩, hslot, hrun⟩ := Exec.bind_eq_ok.mp hrun
      obtain ⟨rfl, hput⟩ := setter_found hA h hfind hbits hslot
      exact hput hrun

/-! ## Deleting -/

/-- The functions that delete reset what they find. -/
theorem deleter_eq_ok (h : deleter fuel t c = .ok t') : ∃ o, find fuel t c = .ok o ∧
    ((o = none ∧ t' = t) ∨ ∃ l, o = some l ∧ deleteAt fuel t l = .ok t') := by
  cases c with
  | int k =>
    obtain ⟨o, ho, h⟩ := Exec.bind_eq_ok.mp h
    refine ⟨o, ho, ?_⟩
    cases o with
    | none => exact .inl ⟨rfl, (Except.ok.inj h).symm⟩
    | some l => cases l <;> exact .inr ⟨_, rfl, h⟩
  | str s =>
    obtain ⟨o, ho, h⟩ := Exec.bind_eq_ok.mp h
    refine ⟨o, ho, ?_⟩
    cases o with
    | none => exact .inl ⟨rfl, (Except.ok.inj h).symm⟩
    | some l =>
      cases l with
      | array i => cases h
      | node i => exact .inr ⟨_, rfl, h⟩

/-- What deleting a key does. -/
theorem deleter_spec (h : Good t E) (hrun : deleter fuel t c = .ok t') :
    ∃ E', Good t' E' ∧ Deletes t E c t' E' := by
  obtain ⟨o, hfind, hrun⟩ := deleter_eq_ok hrun
  rcases hrun with ⟨rfl, rfl⟩ | ⟨l, rfl, hrun⟩
  · exact ⟨E, h, .none (h.shape.not_found hfind).2⟩
  · obtain ⟨k, e, v, R, hk, hbegins, hat, rfl, hnil⟩ := h.shape.at_find hfind
    have hkey : v.tt = .nil → ∃ i, k = .int i := fun hv ↦ (hnil hv).imp fun i hi ↦ hi.2
    obtain ⟨m₁, hm₁⟩ := h.owns.exists_freedVal
    obtain ⟨m₂, hm₂⟩ := (h.owns.release_slot hkey hm₁).1.exists_freedKey
    obtain ⟨howns, hsame⟩ := h.owns.delete_slot hkey hm₁ hm₂
    obtain ⟨p, q, vs, hshape, hext, -⟩ := hat.delete fuel h.shape.array h.shape.id hm₁ hm₂
      fun r hr ↦ Owns.content_eq hsame hr
    obtain rfl := Except.ok.inj ((hext.eq_ok hrun).symm)
    refine ⟨R, ⟨hshape, howns, h.bits⟩, .found rfl hk hbegins
      (fun hclear ↦ hclear.found hfind hat hk hbegins) (fun hv ↦ ?_) rfl hsame⟩
    obtain ⟨i, rfl, hki⟩ := hnil hv
    exact hat.not_mem hv hki

end Dlbase.Table
