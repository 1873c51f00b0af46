import Dlbase.Phash.Model
import Dlbase.Hash.Chain

/-!
# Setting a key of a map in a pool

What `dl_phash_set` does to the slot of the key in each of the three modes.
-/

namespace Dlbase.Phash

open Cmem Hash

/-- A slot of the map; the values own no memory. -/
abbrev PoolSlot := Slot Val Val

/-- No memory belongs to a value. -/
abbrev noCells : Val → Cells (Obj Val) := fun _ ↦ 0

/-- The memory of a slot. -/
abbrev slotCells (a : Nat) (s : PoolSlot) : Cells (Obj Val) := s.cells id noCells a

/-- What a setter does to the values of a key that is there. -/
def Table.again (h : Table) (x : Val) (xs : List Val) : List Val :=
  if h.unique then xs else if h.replace then [x] else addValue x xs

/-- What a setter does to the entries of a slot. -/
def setEntries (h : Table) (key : List UInt8) (x : Val) (E : List (Entry (List UInt8) Val)) :
    List (Entry (List UInt8) Val) × Status × Int :=
  if key ∈ E.map Prod.fst then
    (update key (h.again x) E, if h.unique then .again else .ok,
      if h.unique ∨ h.replace then 0 else 1)
  else
    (insertSecond (key, [x]) E, .ok, 1)

variable {m : Mem Val} {H : Cells (Obj Val)} {a kp : Nat} {key : List UInt8} {h : Table}
  {s : PoolSlot} {v : Val}

/-! ## New nodes and values -/

/-- A new node gets the second place of a chain. -/
theorem setNew_spec (alloc : Allocator (Obj Val)) {n : Node Val}
    (hm : Holds m (cell a (.node n) + (cell kp (.str key) + H))) (v : Val) :
    ∃ m', ∃ j : Item Val, setNew alloc m a n kp v (hashKey key) = .ok m' ∧
      j.entry id = (key, [pfillV v]) ∧
      Holds m' (cell a (.node { n with next := some j.addr }) +
        (cell j.addr (.node (j.node id n.next)) + j.owned id noCells + H)) := by
  have hm₁ := (hm.alloc alloc (.node { Node.zero with next := n.next })).of_eq
    (add_left_comm _ _ _)
  have hm₂ := (hm₁.set (.node { n with next := some (alloc.run m) })).of_eq (add_left_comm _ _ _)
  have hm₃ := hm₂.set (.node ⟨⟨some (pfillV v), none⟩, some kp, hashKey key, n.next⟩)
  refine ⟨_, ⟨alloc.run m, kp, key, pfillV v, []⟩, ?_, rfl, hm₃.of_eq ?_⟩
  · unfold setNew
    simp only [hm₁.put_eq _, loadNode_eq hm₂, Exec.ok_bind]
    exact hm₂.put_eq _
  · simp only [Item.owned, valuesCells]
    change cell (alloc.run m) (.node _) + _ = cell a (.node _) +
      (cell (alloc.run m) (.node ⟨⟨some (pfillV v), none⟩, some kp, hashKey key, n.next⟩) + _ + H)
    abel

/-- The node gets the new key and the new value; the old ones stay in the pool. -/
theorem replaceNode_spec {j : Item Val} {next : Option Nat}
    (hm : Holds m (cell j.addr (.node (j.node id next)) + (j.owned id noCells +
      (cell kp (.str key) + H)))) (v : Val) :
    ∃ m', ∃ j' : Item Val, replaceNode m j.addr kp v (hashKey key) = .ok m' ∧
      j'.addr = j.addr ∧ j'.key = key ∧ (j'.entry id).2 = [pfillV v] ∧
      Holds m' (cell j'.addr (.node (j'.node id next)) + (j'.owned id noCells + H)) := by
  have hm₁ := hm.set (.node (Item.node id ⟨j.addr, kp, key, pfillV v, []⟩ next))
  refine ⟨_, ⟨j.addr, kp, key, pfillV v, []⟩, ?_, rfl, rfl, rfl,
    (hm₁.of_eq (?_ : _ = _ + j.owned id noCells)).left⟩
  · unfold replaceNode
    simp only [loadNode_eq hm, Exec.ok_bind]
    exact hm.put_eq _
  · simp only [Item.owned, valuesCells]
    abel

/-- A further value is chained to a node; the new key stays in the pool. -/
theorem chainValue_spec (alloc : Allocator (Obj Val)) {j : Item Val} {next : Option Nat}
    (hm : Holds m (cell j.addr (.node (j.node id next)) + (j.owned id noCells +
      (cell kp (.str key) + H)))) (v : Val) :
    ∃ m', ∃ j' : Item Val, chainValue alloc m j.addr v = .ok m' ∧
      j'.addr = j.addr ∧ j'.key = j.key ∧ (j'.entry id).2 = addValue (pfillV v) (j.entry id).2 ∧
      Holds m' (cell j'.addr (.node (j'.node id next)) + (j'.owned id noCells + H)) := by
  have hm₁ := (hm.alloc alloc (.value ⟨some (pfillV v), firstValue j.rest⟩)).of_eq
    (add_left_comm _ _ _)
  have hm₂ := hm₁.set (.node (Item.node id
    { j with rest := (alloc.run m, pfillV v) :: j.rest } next))
  refine ⟨_, { j with rest := (alloc.run m, pfillV v) :: j.rest }, ?_, rfl, rfl, rfl,
    (hm₂.of_eq (?_ : _ = _ + cell kp (.str key))).left⟩
  · unfold chainValue
    simp only [loadNode_eq hm, Exec.ok_bind]
    exact hm₁.put_eq _
  · simp only [Item.owned, valuesCells, id]
    abel

/-! ## The slot -/

/-- `dl_phash_set` in an empty slot. -/
theorem set_empty (alloc : Allocator (Obj Val))
    (hm : Holds h.mem (slotCells a s + (cell kp (.str key) + H))) (hok : s.Ok a)
    (ha : slot h (hashKey key) = a) (v : Val) (hs : s.items = []) :
    ∃ m' i, (∀ fuel, set alloc fuel h kp v = h.count m') ∧ i.addr = a ∧
      i.entry id = (key, [pfillV v]) ∧ Holds m' (slotCells a ⟨s.stale, [i]⟩ + H) := by
  have hkey := loadStr_eq (hm.of_eq (add_left_comm _ _ _))
  have hload := hok.loadNode_eq hm
  have htail : s.tail id noCells = 0 := by
    rw [Slot.tail, hs]
  rw [slotCells, hok.cells_eq, add_assoc, htail, zero_add] at hm
  have hm₁ := hm.set (.node (Item.node id ⟨a, kp, key, pfillV v, []⟩ none))
  refine ⟨_, ⟨a, kp, key, pfillV v, []⟩, fun fuel ↦ ?_, rfl, rfl, hm₁.of_eq ?_⟩
  · unfold set
    simp only [hkey, phashKey_eq, ha, hload, Exec.ok_bind, if_pos (hok.head_eq_none.mpr hs),
      hm.put_eq _]
    rfl
  · rw [slotCells, Slot.cells_singleton]
    simp only [Item.owned, valuesCells]
    change cell a (.node ⟨⟨some (pfillV v), none⟩, some kp, hashKey key, none⟩) + _ =
      cell a (.node ⟨⟨some (pfillV v), none⟩, some kp, hashKey key, none⟩) + _ + H
    abel

/-- `dl_phash_set` for a key that is not found. -/
theorem set_none (alloc : Allocator (Obj Val))
    (hm : Holds h.mem (slotCells a s + (cell kp (.str key) + H))) (hok : s.Ok a)
    (ha : slot h (hashKey key) = a) (v : Val) (hs : s.items ≠ []) (fuel : Nat)
    (ho : search h.mem (hashKey key) key fuel (some a) = .ok none) : set alloc fuel h kp v =
      (setNew alloc h.mem a (s.head id) kp v (hashKey key) >>= h.count) := by
  unfold set
  simp only [loadStr_eq (hm.of_eq (add_left_comm _ _ _)), phashKey_eq, ha, hok.loadNode_eq hm,
    Exec.ok_bind, if_neg (mt hok.head_eq_none.mp hs), ho]

/-- `dl_phash_set` for a key that is found. -/
theorem set_some (alloc : Allocator (Obj Val))
    (hm : Holds h.mem (slotCells a s + (cell kp (.str key) + H))) (hok : s.Ok a)
    (ha : slot h (hashKey key) = a) (v : Val) (hs : s.items ≠ []) (fuel : Nat) {n : Nat}
    (ho : search h.mem (hashKey key) key fuel (some a) = .ok (some n)) : set alloc fuel h kp v =
      if h.unique then pure (h, .again)
      else if h.replace then
        replaceNode h.mem n kp v (hashKey key) >>= fun m ↦ pure ({ h with mem := m }, .ok)
      else chainValue alloc h.mem n v >>= h.count := by
  unfold set
  simp only [loadStr_eq (hm.of_eq (add_left_comm _ _ _)), phashKey_eq, ha, hok.loadNode_eq hm,
    Exec.ok_bind, if_neg (mt hok.head_eq_none.mp hs), ho]

/-- A new key gets the second place of the chain. -/
theorem set_absent (alloc : Allocator (Obj Val))
    (hm : Holds h.mem (slotCells a s + (cell kp (.str key) + H))) (hok : s.Ok a)
    (ha : slot h (hashKey key) = a) (v : Val) (hs : s.items ≠ []) :
    ∃ m' i L, ∃ j : Item Val, s.items = i :: L ∧ i.addr = a ∧
      (∀ fuel, search h.mem (hashKey key) key fuel (some a) = .ok none →
        set alloc fuel h kp v = h.count m') ∧
      j.entry id = (key, [pfillV v]) ∧ Holds m' (slotCells a ⟨s.stale, i :: j :: L⟩ + H) := by
  have hset := set_none alloc hm hok ha v hs
  rw [slotCells, hok.cells_eq, add_assoc] at hm
  obtain ⟨m', j, hrun, hentry, hm'⟩ :=
    setNew_spec alloc (hm.of_eq (congrArg _ (add_left_comm _ _ _))) v
  obtain ⟨stale, items⟩ := s
  obtain ⟨i, L, rfl⟩ := List.exists_cons_of_ne_nil hs
  obtain rfl : i.addr = a := hok
  refine ⟨m', i, L, j, rfl, rfl, fun fuel ho ↦ (hset fuel ho).trans ?_, hentry, hm'.of_eq ?_⟩
  · rw [hrun, Exec.ok_bind]
  · rw [slotCells, Slot.cells_insert]
    change cell i.addr _ + (_ + _ + (i.owned id noCells + chainCells id noCells none L + H)) = _
    simp only [← add_assoc]
    rfl

/-- A key that is there gets the values that the mode of the map tells, unless it is unique. -/
theorem set_present (alloc : Allocator (Obj Val))
    (hm : Holds h.mem (slotCells a s + (cell kp (.str key) + H))) (hok : s.Ok a)
    (ha : slot h (hashKey key) = a) (hsum : h.elSum < 2 ^ 31) (v : Val) {L₁ L₂ : List (Item Val)}
    {j : Item Val} (hitems : s.items = L₁ ++ j :: L₂) (hj : j.key = key) (hu : ¬ h.unique) :
    ∃ m', ∃ j' : Item Val, (∀ fuel, search h.mem (hashKey key) key fuel (some a) =
        .ok (some j.addr) → set alloc fuel h kp v =
          let n := if h.replace then 0 else 1
          if h.elSum + n < 2 ^ 31 then .ok ({ h with mem := m', elSum := h.elSum + n }, .ok)
          else Exec.undef) ∧
      j'.key = key ∧ (j'.entry id).2 = h.again (pfillV v) (j.entry id).2 ∧
      Holds m' (slotCells a ⟨s.stale, L₁ ++ j' :: L₂⟩ + H) ∧
      Slot.Ok a ⟨s.stale, L₁ ++ j' :: L₂⟩ := by
  have hs : s.items ≠ [] := hitems ▸ List.append_ne_nil_of_right_ne_nil _ (List.cons_ne_nil _ _)
  have hset := fun fuel ↦ set_some alloc hm hok ha v hs fuel (n := j.addr)
  have hm₁ : Holds h.mem (cell j.addr (.node (j.node id (firstNode none L₂))) +
      (j.owned id noCells + (cell kp (.str key) + (chainCells id noCells (some j.addr) L₁ +
        chainCells id noCells none L₂ + H)))) := hm.of_eq (by
    rw [slotCells, Slot.cells_eq_chainCells hs, hitems, chainCells_middle]
    abel)
  -- the slot with another item for the key
  have hrep : ∀ {m' : Mem Val} {j' : Item Val}, j'.addr = j.addr →
      Holds m' (cell j'.addr (.node (j'.node id (firstNode none L₂))) + (j'.owned id noCells +
        (chainCells id noCells (some j.addr) L₁ + chainCells id noCells none L₂ + H))) →
      Holds m' (slotCells a ⟨s.stale, L₁ ++ j' :: L₂⟩ + H) ∧
        Slot.Ok a ⟨s.stale, L₁ ++ j' :: L₂⟩ := fun {m' j'} haddr hm' ↦ by
    refine ⟨hm'.of_eq ?_, hok.replace hitems haddr⟩
    rw [slotCells, Slot.cells_eq_chainCells (by simp), chainCells_middle, haddr]
    abel
  by_cases hr : h.replace = true
  · obtain ⟨m', j', hrun, haddr, hkey, hvals, hm'⟩ := replaceNode_spec hm₁ v
    obtain ⟨hm'', hok'⟩ := hrep haddr hm'
    refine ⟨m', j', fun fuel ho ↦ ?_, hkey, ?_, hm'', hok'⟩
    · rw [hset fuel ho, if_neg hu, if_pos hr, hrun, if_pos hr]
      simp only [add_zero, if_pos hsum]
      rfl
    · rw [hvals, Table.again, if_neg hu, if_pos hr]
  · obtain ⟨m', j', hrun, haddr, hkey, hvals, hm'⟩ := chainValue_spec alloc hm₁ v
    obtain ⟨hm'', hok'⟩ := hrep haddr hm'
    refine ⟨m', j', fun fuel ho ↦ ?_, hkey.trans hj, ?_, hm'', hok'⟩
    · rw [hset fuel ho, if_neg hu, if_neg hr, hrun, if_neg hr]
      rfl
    · rw [hvals, Table.again, if_neg hu, if_neg hr]

/-- `dl_phash_set` for a key at `kp`. -/
theorem set_slot (alloc : Allocator (Obj Val))
    (hm : Holds h.mem (slotCells a s + (cell kp (.str key) + H))) (hok : s.Ok a)
    (ha : slot h (hashKey key) = a) (hc : Clear key (s.items.map Item.key))
    (hsum : h.elSum < 2 ^ 31) (v : Val) :
    ∃ m' s' st n, (∀ fuel, s.items.length < fuel → set alloc fuel h kp v =
        if h.elSum + n < 2 ^ 31 then .ok ({ h with mem := m', elSum := h.elSum + n }, st)
        else Exec.undef) ∧
      Holds m' (slotCells a s' + H) ∧ s'.Ok a ∧ (st = .again → m' = h.mem) ∧
      (entries id s'.items, st, n) =
        setEntries h key (pfillV v) (entries id s.items) := by
  by_cases hs : s.items = []
  · obtain ⟨m', i, hrun, haddr, hentry, hm'⟩ := set_empty alloc hm hok ha v hs
    refine ⟨m', _, .ok, 1, fun fuel _ ↦ hrun fuel, hm', haddr, (by rintro ⟨⟩), ?_⟩
    rw [hs, setEntries, if_neg (by rintro ⟨⟩), ← hentry]
    rfl
  have hsearch := fun fuel (hf : s.items.length < fuel) ↦ hok.search_eq hs hm hc hf
  cases hfind : s.items.find? (·.key = key) with
  | none =>
    -- the key is new
    have hnew : key ∉ (entries id s.items).map Prod.fst := find?_eq_none_iff.mp hfind
    obtain ⟨m', i, L, j, hitems, haddr, hrun, hentry, hm'⟩ := set_absent alloc hm hok ha v hs
    refine ⟨m', _, .ok, 1, fun fuel hf ↦ hrun fuel ?_, hm', haddr, (by rintro ⟨⟩), ?_⟩
    · rw [hsearch fuel hf, hfind]
      rfl
    · rw [setEntries, if_neg hnew, hitems, ← hentry]
      rfl
  | some j =>
    -- the key is there
    have hmem : key ∈ (entries id s.items).map Prod.fst := mem_keys_of_find? hfind
    obtain ⟨L₁, L₂, hitems, hjkey, hL₁⟩ := find?_eq_some hfind
    have hfound : ∀ fuel, s.items.length < fuel →
        search h.mem (hashKey key) key fuel (some a) = .ok (some j.addr) := fun fuel hf ↦ by
      rw [hsearch fuel hf, hfind]
      rfl
    have hentries : ∀ j' : Item Val, j'.key = key →
        (j'.entry id).2 = h.again (pfillV v) (j.entry id).2 →
        entries id (L₁ ++ j' :: L₂) = update key (h.again (pfillV v)) (entries id s.items) :=
      fun j' hj' hvals ↦ by
      have hentry : j'.entry id = (key, (j'.entry id).2) := by
        rw [← hj']
        rfl
      rw [hitems, update_entries hjkey hL₁, ← hvals, ← hentry]
      exact entries_middle _ _ _
    by_cases hu : h.unique = true
    · have hsame := hentries j hjkey (by rw [Table.again, if_pos hu])
      have hm₂ : Holds h.mem (slotCells a s + H + cell kp (.str key)) := hm.of_eq (by abel)
      refine ⟨h.mem, s, .again, 0, fun fuel hf ↦ ?_, hm₂.left, hok, fun _ ↦ rfl, ?_⟩
      · rw [set_some alloc hm hok ha v hs fuel (hfound fuel hf), if_pos hu, add_zero, if_pos hsum]
        rfl
      · rw [setEntries, if_pos hmem, if_pos hu, if_pos (.inl hu), ← hsame, ← hitems]
    · obtain ⟨m', j', hrun, hkey, hvals, hm', hok'⟩ :=
        set_present alloc hm hok ha hsum v hitems hjkey hu
      refine ⟨m', _, .ok, _, fun fuel hf ↦ hrun fuel (hfound fuel hf), hm', hok', (by rintro ⟨⟩), ?_⟩
      rw [setEntries, if_pos hmem, if_neg hu, hentries j' hkey hvals]
      simp [hu]

end Dlbase.Phash
