import Dlbase.Hash.Ledger

/-!
# Setting a key

What `dl_hash_set` does to the slot of the key, with all other memory left alone.
-/

namespace Dlbase.Hash

open Cmem

/-- A value in memory with the string that belongs to it. -/
inductive Stored where
  /-- `DL_H_INT`. -/
  | int (n : Int)
  /-- `DL_H_STR`, with the copy. -/
  | str (p : Nat) (s : List UInt8)
  /-- `DL_H_VOID`. -/
  | void (p : Nat)

/-- The value in memory. -/
def Stored.val : Stored → Val
  | int n => .int n
  | str p _ => .str p
  | void p => .void p

/-- The memory of the value. -/
def Stored.own : Stored → Cells (Obj Val)
  | str p s => cell p (.str s)
  | _ => 0

/-- The value that is stored. -/
def Stored.arg : Stored → Arg
  | int n => .int n
  | str _ s => .str s
  | void p => .void p

/-- The value that is stored for an argument: of a `long`, the part that fits in an `int`. -/
def Arg.stored : Arg → Arg
  | int n => .int (toInt n)
  | str s => .str s
  | void p => .void p

/-- A slot of the map. -/
abbrev HashSlot := Slot Val Stored

/-- The memory of a slot. -/
abbrev slotCells (a : Nat) (s : HashSlot) : Cells (Obj Val) := s.cells Stored.val Stored.own a

/-- What a setter does to the entries of a slot. -/
def setEntries (list : Bool) (key : List UInt8) (x : Arg) (E : List (Entry (List UInt8) Arg)) :
    List (Entry (List UInt8) Arg) × Status :=
  if key ∈ E.map Prod.fst then
    if list then (update key (addValue x) E, .ok) else (E, .again)
  else
    (insertSecond (key, [x]) E, .ok)

/-- The values of type `DL_H_VOID` that the keys of a slot have. -/
def slotHeld (s : HashSlot) : Multiset Nat := heldBy (entries Stored.arg s.items)

/-- The values of type `DL_H_VOID` in the map. -/
def held (S : List HashSlot) : Multiset Nat := (S.map slotHeld).sum

/-- What a setter adds to the values of type `DL_H_VOID`. -/
def accepted (x : Arg) (st : Status) : List Nat := if st = .ok then voids [x] else []

theorem heldBy_setEntries (list : Bool) (key : List UInt8) (x : Arg)
    (E : List (Entry (List UInt8) Arg)) : heldBy (setEntries list key x E).1 =
      heldBy E + accepted x (setEntries list key x E).2 := by
  unfold setEntries
  split_ifs with hmem hlist
  · exact heldBy_update hmem
  · exact (add_zero _).symm
  · exact heldBy_insertSecond

variable {m : Mem Val} {H : Cells (Obj Val)} {a : Nat} {key : List UInt8} {h : Table}
  {s : HashSlot}

/-! ## New nodes and values -/

theorem fillV_spec (alloc : Allocator (Obj Val)) (hm : Holds m H) (v : Arg) :
    ∃ g : Stored, (fillV alloc m v).2 = g.val ∧ Holds (fillV alloc m v).1 (g.own + H) ∧
      g.arg = v.stored := by
  cases v with
  | int n => exact ⟨.int (toInt n), rfl, hm.of_eq (zero_add _).symm, rfl⟩
  | str s => exact ⟨.str (alloc.run m) s, rfl, hm.alloc alloc _, rfl⟩
  | void p => exact ⟨.void p, rfl, hm.of_eq (zero_add _).symm, rfl⟩

/-- A node gets a key and a value. -/
theorem fillNode_spec (alloc : Allocator (Obj Val)) {o : Obj Val} (hm : Holds m (cell a o + H))
    (key : List UInt8) (v : Arg) (next : Option Nat) :
    ∃ m', ∃ i : Item Stored, fillNode alloc m a key v (hashKey key) next = .ok m' ∧ i.addr = a ∧
      i.entry Stored.arg = (key, [v.stored]) ∧
      Holds m' (cell a (.node (i.node Stored.val next)) + (i.owned Stored.val Stored.own + H)) := by
  obtain ⟨g, hval, hm₁, harg⟩ := fillV_spec alloc hm v
  have hm₂ := hm₁.alloc alloc (.str key)
  have hm₃ : Holds _ (cell a o + (cell (alloc.run (fillV alloc m v).1) (.str key) + g.own + H)) :=
    hm₂.of_eq (by abel)
  have hput := hm₃.put_eq
    (.node ⟨⟨some g.val, none⟩, some (alloc.run (fillV alloc m v).1), hashKey key, next⟩)
  unfold fillNode
  simp only [newStr, hval, hput]
  refine ⟨_, ⟨a, alloc.run (fillV alloc m v).1, key, g, []⟩, rfl, rfl, ?_, (hm₃.set _).of_eq ?_⟩
  · rw [Item.entry, harg]
    rfl
  · simp only [Item.owned, valuesCells]
    rw [add_zero]
    rfl

/-- A new node gets the second place of a chain. -/
theorem setNew_spec (alloc : Allocator (Obj Val)) {n : Node Val} (hm : Holds m (cell a (.node n) + H))
    (key : List UInt8) (v : Arg) :
    ∃ m', ∃ j : Item Stored,
      Yields (Handled.setNew alloc m a n key v (hashKey key)) m' [.create j.addr] ∧
      j.entry Stored.arg = (key, [v.stored]) ∧
      Holds m' (cell a (.node { n with next := some j.addr }) +
        (cell j.addr (.node (j.node Stored.val n.next)) + j.owned Stored.val Stored.own + H)) := by
  have hm₁ : Holds _ (cell a (.node n) + (cell (alloc.run m) (.node Node.zero) + H)) :=
    (hm.alloc alloc (.node Node.zero)).of_eq (add_left_comm _ _ _)
  have hm₂ := (hm₁.set (.node { n with next := some (alloc.run m) })).of_eq (add_left_comm _ _ _)
  obtain ⟨m', j, hrun, haddr, hentry, hm'⟩ := fillNode_spec alloc hm₂ key v n.next
  refine ⟨m', j, ?_, hentry, hm'.of_eq ?_⟩
  · have hnew : setNew alloc m a n key v (hashKey key) = .ok m' := by
      unfold setNew
      simp only [hm₁.put_eq _, Exec.ok_bind]
      exact hrun
    rw [haddr]
    exact .tell_bind (.lift hnew)
  · rw [haddr]
    abel

/-- A further value is chained to a node. -/
theorem chainValue_spec (alloc : Allocator (Obj Val)) {j : Item Stored} {next : Option Nat}
    (hm : Holds m (cell j.addr (.node (j.node Stored.val next)) +
      (j.owned Stored.val Stored.own + H))) (v : Arg) :
    ∃ m', ∃ j' : Item Stored,
      Yields (Handled.chainValue alloc m j.addr v) m' [.create (alloc.run m)] ∧
      j'.addr = j.addr ∧ j'.key = j.key ∧ j'.further = j.further + {alloc.run m} ∧
      (j'.entry Stored.arg).2 = addValue v.stored (j.entry Stored.arg).2 ∧
      Holds m' (cell j'.addr (.node (j'.node Stored.val next)) +
        (j'.owned Stored.val Stored.own + H)) := by
  have hm₁ : Holds _ (cell j.addr (.node (j.node Stored.val next)) +
      (cell (alloc.run m) (.value ⟨none, none⟩) + (j.owned Stored.val Stored.own + H))) :=
    (hm.alloc alloc (.value ⟨none, none⟩)).of_eq (add_left_comm _ _ _)
  have hm₂ := hm₁.set (.node { j.node Stored.val next with
    v := { (j.node Stored.val next).v with next := some (alloc.run m) } })
  obtain ⟨g, hval, hm₃, harg⟩ := fillV_spec alloc hm₂ v
  have hm₄ : Holds _ (cell (alloc.run m) (.value ⟨none, none⟩) + (g.own + cell j.addr _ +
      (j.owned Stored.val Stored.own + H))) := hm₃.of_eq (by abel)
  unfold Handled.chainValue chainValue
  simp only [loadNode_eq hm, hm₁.put_eq _, hval, hm₄.put_eq _, Exec.ok_bind]
  refine ⟨_, { j with rest := (alloc.run m, g) :: j.rest }, .tell_bind (.lift rfl), rfl, rfl,
    ?_, ?_, (hm₄.set _).of_eq ?_⟩
  · rw [Item.further, Item.further, List.map_cons, ← Multiset.cons_coe, ← Multiset.singleton_add]
    exact add_comm _ _
  · rw [Item.entry, Item.entry, addValue, ← harg]
    rfl
  · simp only [Item.owned, valuesCells]
    change cell (alloc.run m) (.value ⟨some g.val, firstValue j.rest⟩) + (g.own + cell j.addr
      (.node ({ j with rest := (alloc.run m, g) :: j.rest }.node Stored.val next)) + _) = _
    abel

/-! ## The slot -/

/-- `dl_hash_set` for an empty slot. -/
theorem set_empty (alloc : Allocator (Obj Val)) (hm : Holds h.mem (slotCells a s + H)) (hok : s.Ok a)
    (ha : slot h (hashKey key) = a) (v : Arg) (hs : s.items = []) :
    ∃ m', ∃ i : Item Stored,
      (∀ fuel, Yields (Handled.set alloc fuel h key v) ({ h with mem := m' }, .ok) []) ∧
      i.addr = a ∧ i.entry Stored.arg = (key, [v.stored]) ∧
      Holds m' (slotCells a ⟨s.stale, [i]⟩ + H) := by
  have hload := hok.loadNode_eq hm
  rw [slotCells, hok.cells_eq, add_assoc] at hm
  obtain ⟨m', i, hrun, haddr, hentry, hm'⟩ := fillNode_spec alloc hm key v none
  have htail : s.tail Stored.val Stored.own = 0 := by
    rw [Slot.tail, hs]
  rw [htail, zero_add, ← add_assoc, ← haddr] at hm'
  refine ⟨m', i, fun fuel ↦ ?_, haddr, hentry, ?_⟩
  · unfold Handled.set
    simp only [ha]
    refine .lift_bind hload ?_
    rw [if_pos (hok.head_eq_none.mpr hs)]
    exact .lift_bind hrun (.pure _)
  · rw [slotCells, Slot.cells_singleton]
    exact hm'

/-- `dl_hash_set` looks for the key in a slot that is not empty. -/
theorem set_yields (alloc : Allocator (Obj Val)) (hm : Holds h.mem (slotCells a s + H))
    (hok : s.Ok a) (ha : slot h (hashKey key) = a) (v : Arg) (hs : s.items ≠ []) (fuel : Nat)
    {o : Option Nat} (ho : search h.mem (hashKey key) key fuel (some a) = .ok o)
    {r : Table × Status} {log : List Event}
    (hr : Yields (match o with
      | none => do
        let m ← Handled.setNew alloc h.mem a (s.head Stored.val) key v (hashKey key)
        pure ({ h with mem := m }, .ok)
      | some n =>
        if h.list then do
          let m ← Handled.chainValue alloc h.mem n v
          pure ({ h with mem := m }, .ok)
        else
          pure (h, .again)) r log) : Yields (Handled.set alloc fuel h key v) r log := by
  unfold Handled.set
  simp only [ha]
  refine .lift_bind (hok.loadNode_eq hm) ?_
  rw [if_neg (mt hok.head_eq_none.mp hs)]
  refine .lift_bind ho ?_
  cases o <;> exact hr

/-- `dl_hash_set` for a key that is not found. -/
theorem set_absent (alloc : Allocator (Obj Val)) (hm : Holds h.mem (slotCells a s + H))
    (hok : s.Ok a) (ha : slot h (hashKey key) = a) (v : Arg) (hs : s.items ≠ []) :
    ∃ m' i L, ∃ j : Item Stored, s.items = i :: L ∧ i.addr = a ∧
      (∀ fuel, search h.mem (hashKey key) key fuel (some a) = .ok none →
        Yields (Handled.set alloc fuel h key v) ({ h with mem := m' }, .ok) [.create j.addr]) ∧
      j.entry Stored.arg = (key, [v.stored]) ∧
      Holds m' (slotCells a ⟨s.stale, i :: j :: L⟩ + H) := by
  have hm₀ := hm
  rw [slotCells, hok.cells_eq, add_assoc] at hm₀
  obtain ⟨m', j, hrun, hentry, hm'⟩ := setNew_spec alloc hm₀ key v
  have hyields : ∀ fuel, search h.mem (hashKey key) key fuel (some a) = .ok none →
      Yields (Handled.set alloc fuel h key v) ({ h with mem := m' }, .ok) [.create j.addr] :=
    fun fuel ho ↦ set_yields alloc hm hok ha v hs fuel ho (hrun.bind_nil (.pure _))
  obtain ⟨stale, items⟩ := s
  obtain ⟨i, L, rfl⟩ := List.exists_cons_of_ne_nil hs
  obtain rfl : i.addr = a := hok
  refine ⟨m', i, L, j, rfl, rfl, hyields, hentry, hm'.of_eq ?_⟩
  rw [slotCells, Slot.cells_insert]
  change cell i.addr _ + (_ + _ + (i.owned Stored.val Stored.own +
    chainCells Stored.val Stored.own none L + H)) = _
  simp only [← add_assoc]
  rfl

/-- `dl_hash_set` for a key that is found, if values are chained. -/
theorem set_present (alloc : Allocator (Obj Val)) (hm : Holds h.mem (slotCells a s + H))
    (hok : s.Ok a) (ha : slot h (hashKey key) = a) (v : Arg) {L₁ L₂ : List (Item Stored)}
    {j : Item Stored} (hitems : s.items = L₁ ++ j :: L₂) (hlist : h.list = true) :
    ∃ m' b, ∃ j' : Item Stored, (∀ fuel, search h.mem (hashKey key) key fuel (some a) =
        .ok (some j.addr) →
        Yields (Handled.set alloc fuel h key v) ({ h with mem := m' }, .ok) [.create b]) ∧
      j'.addr = j.addr ∧ j'.key = j.key ∧ j'.further = j.further + {b} ∧
      (j'.entry Stored.arg).2 = addValue v.stored (j.entry Stored.arg).2 ∧
      Holds m' (slotCells a ⟨s.stale, L₁ ++ j' :: L₂⟩ + H) ∧
      Slot.Ok a ⟨s.stale, L₁ ++ j' :: L₂⟩ := by
  have hs : s.items ≠ [] := hitems ▸ List.append_ne_nil_of_right_ne_nil _ (List.cons_ne_nil _ _)
  have hset := fun fuel ↦ set_yields alloc hm hok ha v hs fuel (o := some j.addr)
  rw [slotCells, Slot.cells_eq_chainCells hs, hitems, chainCells_middle, add_assoc,
    add_assoc, add_assoc] at hm
  obtain ⟨m', j', hrun, haddr, hkey, hfurther, hvals, hm'⟩ := chainValue_spec alloc hm v
  refine ⟨m', _, j', fun fuel ho ↦ hset fuel ho ?_, haddr, hkey, hfurther, hvals, hm'.of_eq ?_,
    hok.replace hitems haddr⟩
  · dsimp only
    rw [if_pos hlist]
    exact hrun.bind_nil (.pure _)
  · rw [slotCells, Slot.cells_eq_chainCells (by simp), chainCells_middle, haddr]
    simp only [add_assoc]

/-- A node of one value has no further ones. -/
theorem further_eq_zero {j : Item Stored} {x : Arg} (h : j.entry Stored.arg = (key, [x])) :
    j.further = 0 := by
  have hrest : j.rest.map (fun e ↦ e.2.arg) = [] := (List.cons.inj (Prod.mk.inj h).2).2
  rw [Item.further, List.map_eq_nil_iff.mp hrest]
  rfl

/-- `dl_hash_set`. -/
theorem set_slot (alloc : Allocator (Obj Val)) (hm : Holds h.mem (slotCells a s + H)) (hok : s.Ok a)
    (ha : slot h (hashKey key) = a) (hc : Clear key (s.items.map Item.key))
    (v : Arg) :
    ∃ m' s' st log, (∀ fuel, s.items.length < fuel →
        Yields (Handled.set alloc fuel h key v) ({ h with mem := m' }, st) log) ∧
      Holds m' (slotCells a s' + H) ∧ s'.Ok a ∧ (st = .again → m' = h.mem) ∧
      (entries Stored.arg s'.items, st) =
        setEntries h.list key v.stored (entries Stored.arg s.items) ∧ Adds s s' log := by
  by_cases hs : s.items = []
  · obtain ⟨m', i, hrun, haddr, hentry, hm'⟩ := set_empty alloc hm hok ha v hs
    refine ⟨m', _, .ok, _, fun fuel _ ↦ hrun fuel, hm', haddr, nofun, ?_, rfl, rfl, ?_⟩
    · rw [hs, setEntries, if_neg (by exact nofun)]
      change ([i.entry Stored.arg], _) = _
      rw [hentry]
      rfl
    · rw [Slot.heap, Slot.heap, hs, heapOf_cons, further_eq_zero hentry]
      rfl
  · have hsearch := fun fuel (hf : s.items.length < fuel) ↦ hok.search_eq hs hm hc hf
    cases hfind : s.items.find? (·.key = key) with
    | none =>
      -- the key is new
      have hnew : key ∉ (entries Stored.arg s.items).map Prod.fst := find?_eq_none_iff.mp hfind
      obtain ⟨m', i, L, j, hitems, haddr, hrun, hentry, hm'⟩ := set_absent alloc hm hok ha v hs
      refine ⟨m', _, .ok, _, fun fuel hf ↦ hrun fuel ?_, hm', haddr, nofun, ?_, rfl, rfl, ?_⟩
      · rw [hsearch fuel hf, hfind]
        rfl
      · rw [setEntries, if_neg hnew, ← hentry, hitems]
        rfl
      · rw [Slot.heap, Slot.heap, hitems]
        refine (heapOf_insert i j [] L).trans ?_
        rw [further_eq_zero hentry, zero_add]
        rfl
    | some j =>
      -- the key is there
      have hmem : key ∈ (entries Stored.arg s.items).map Prod.fst := mem_keys_of_find? hfind
      obtain ⟨L₁, L₂, hitems, hkey, hL₁⟩ := find?_eq_some hfind
      rw [hfind] at hsearch
      by_cases hlist : h.list = true
      · obtain ⟨m', b, j', hrun, haddr, hkey', hfurther, hvals, hm', hok'⟩ :=
          set_present alloc hm hok ha v hitems hlist
        refine ⟨m', _, .ok, _, fun fuel hf ↦ hrun fuel (hsearch fuel hf), hm', hok', nofun, ?_,
          rfl, rfl, ?_⟩
        · have hentry : j'.entry Stored.arg = (key, (j'.entry Stored.arg).2) := by
            rw [← hkey, ← hkey']
            rfl
          rw [setEntries, if_pos hmem, if_pos hlist, hitems, update_entries hkey hL₁, ← hvals,
            ← hentry]
          exact congrArg (·, _) (entries_middle _ _ _)
        · rw [Slot.heap, Slot.heap, hitems]
          exact heapOf_middle haddr hfurther
      · refine ⟨h.mem, s, .again, [], fun fuel hf ↦ ?_, hm, hok, fun _ ↦ rfl, ?_, rfl, rfl, ?_⟩
        · refine set_yields alloc hm hok ha v hs fuel (hsearch fuel hf) ?_
          dsimp only [Option.map_some]
          rw [if_neg hlist]
          exact .pure _
        · rw [setEntries, if_pos hmem, if_neg hlist]
        · exact (add_zero _).symm

end Dlbase.Hash
