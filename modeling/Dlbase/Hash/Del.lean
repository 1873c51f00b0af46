import Dlbase.Hash.Set

/-!
# Deleting a key

What `dl_hash_del` does to the slot of the key.  What belongs to the deleted node is freed, each
object once, and all other memory is left alone.
-/

namespace Dlbase.Hash

open Cmem

variable {m : Mem Val} {H : Cells (Obj Val)} {a b : Nat} {key : List UInt8} {h : Table}
  {s : HashSlot} {fuel : Nat}

/-! ## Freeing -/

/-- What freeing a value writes to the log. -/
def Stored.events : Stored → List Event
  | void p => [.handle p]
  | _ => []

/-- What freeing further values writes to the log. -/
def valuesEvents : List (Nat × Stored) → List Event
  | [] => []
  | (a, g) :: l => g.events ++ .free a :: valuesEvents l

/-- What freeing the values of a node writes to the log. -/
def Item.events (i : Item Stored) : List Event := i.first.events ++ valuesEvents i.rest

theorem freeStr_spec {g : Stored} (hm : Holds m (g.own + H)) :
    ∃ m', Yields (Handled.freeStr m (some g.val)) m' g.events ∧ Holds m' H := by
  cases g with
  | int n => exact ⟨m, .lift rfl, hm.of_eq (zero_add _)⟩
  | void p => exact ⟨m, .tell_bind (.pure _), hm.of_eq (zero_add _)⟩
  | str p s =>
    obtain ⟨m', hrun, hm'⟩ := Holds.free hm
    refine ⟨m', .lift ?_, hm'⟩
    change (loadStr m (some p) >>= fun _ ↦ m.free p) = _
    rw [loadStr_eq hm, Exec.ok_bind, hrun]

theorem freeValues_spec {l : List (Nat × Stored)}
    (hm : Holds m (valuesCells Stored.val Stored.own l + H)) :
    ∃ m', (∀ fuel, l.length < fuel →
      Yields (Handled.freeValues fuel m (firstValue l)) m' (valuesEvents l)) ∧ Holds m' H := by
  induction l generalizing m with
  | nil =>
    refine ⟨m, fun fuel hf ↦ ?_, hm.of_eq (zero_add _)⟩
    cases fuel with
    | zero => cases hf
    | succ fuel => exact .pure _
  | cons e l ih =>
    obtain ⟨b, g⟩ := e
    have hm₁ : Holds m (cell b (.value ⟨some g.val, firstValue l⟩) +
        (g.own + (valuesCells Stored.val Stored.own l + H))) := by
      rw [valuesCells, add_assoc, add_assoc] at hm
      exact hm
    obtain ⟨m₂, hrun₂, hm₂⟩ := freeStr_spec (hm₁.of_eq (add_left_comm _ _ _))
    obtain ⟨m₃, hrun₃, hm₃⟩ := hm₂.free
    obtain ⟨m', hrun', hm'⟩ := ih hm₃
    refine ⟨m', fun fuel hf ↦ ?_, hm'⟩
    cases fuel with
    | zero => cases hf
    | succ fuel =>
      have hrest := hrun' fuel (Nat.lt_of_succ_lt_succ hf)
      exact .lift_bind (loadValue_eq hm₁) (hrun₂.bind (.lift_bind hrun₃ (.tell_bind hrest)))

/-- The values of a node are freed. -/
theorem freeV_spec {n : Node Val} {g : Stored} {l : List (Nat × Stored)}
    (hn : n.v = ⟨some g.val, firstValue l⟩)
    (hm : Holds m (cell a (.node n) + (g.own + (valuesCells Stored.val Stored.own l + H)))) :
    ∃ m', (∀ fuel, l.length < fuel →
        Yields (Handled.freeV fuel m a) m' (g.events ++ valuesEvents l)) ∧
      Holds m' (cell a (.node { n with v := { n.v with v := none } }) + H) := by
  obtain ⟨m₁, hrun₁, hm₁⟩ := freeStr_spec (hm.of_eq (add_left_comm _ _ _))
  have hput := hm₁.put_eq (.node { n with v := { n.v with v := none } })
  obtain ⟨m', hrun', hm'⟩ := freeValues_spec
    ((hm₁.set (.node { n with v := { n.v with v := none } })).of_eq (add_left_comm _ _ _))
  refine ⟨m', fun fuel hf ↦ ?_, hm'⟩
  have hv : n.v.v = some g.val := congrArg VNode.v hn
  have hnext : n.v.next = firstValue l := congrArg VNode.next hn
  refine .lift_bind (loadNode_eq hm) ?_
  rw [hv, hnext]
  exact hrun₁.bind (.lift_bind hput (hrun' fuel hf))

/-- The key of a node is freed. -/
theorem freeK_spec {n : Node Val} {k : Nat} {t : List UInt8} (hn : n.key = some k)
    (hm : Holds m (cell a (.node n) + (cell k (.str t) + H))) :
    ∃ m', freeK m a = .ok m' ∧ Holds m' (cell a (.node { n with next := none, hash := 0 }) + H) := by
  have hm₁ := hm.of_eq (add_left_comm _ _ _)
  obtain ⟨m₂, hrun₂, hm₂⟩ := hm₁.free
  refine ⟨_, ?_, hm₂.set _⟩
  rw [freeK, loadNode_eq hm, Exec.ok_bind, hn]
  dsimp only
  rw [loadStr_eq hm₁, Exec.ok_bind, hrun₂, Exec.ok_bind, hm₂.put_eq _]

/-- A node that is not at its slot is freed with all that belongs to it. -/
theorem freeNode_spec {i : Item Stored} {q : Option Nat} (hne : a ≠ b)
    (hm : Holds m (cell b (.node (i.node Stored.val q)) + (i.owned Stored.val Stored.own + H))) :
    ∃ m', (∀ fuel, i.rest.length < fuel →
      Yields (Handled.freeNode fuel m a b) m' (i.events ++ [.free b])) ∧ Holds m' H := by
  have hm₁ : Holds m (cell b (.node (i.node Stored.val q)) + (cell i.kp (.str i.key) +
      (i.first.own + (valuesCells Stored.val Stored.own i.rest + H)))) :=
    hm.of_eq (by rw [Item.owned]; abel)
  obtain ⟨m₂, hrun₂, hm₂⟩ := freeK_spec rfl hm₁
  obtain ⟨m₃, hrun₃, hm₃⟩ := freeV_spec rfl hm₂
  obtain ⟨m₄, hrun₄, hm₄⟩ := hm₃.free
  refine ⟨m₄, fun fuel hf ↦ .lift_bind hrun₂ ((hrun₃ fuel hf).bind ?_), hm₄⟩
  rw [if_pos hne]
  exact .lift_bind hrun₄ (.tell_bind (.pure _))

/-- The loop finds the node in front of the one at `b`. -/
theorem findParent_spec {L : List (Item Stored)} {p : Item Stored} {o : Obj Val} {c : Nat}
    (hf : L.length < fuel) (hc : firstNode none (L ++ [p]) = some c)
    (hm : Holds m (cell b o + (chainCells Stored.val Stored.own (some b) (L ++ [p]) + H))) :
    findParent m b fuel c = .ok p.addr := by
  induction L generalizing H fuel c with
  | nil =>
    obtain rfl := Option.some.inj hc
    cases fuel with
    | zero => cases hf
    | succ fuel =>
      have hm₁ : Holds m (cell p.addr (.node (p.node Stored.val (some b))) +
          (cell b o + (p.owned Stored.val Stored.own + H))) := hm.of_eq (by
        rw [List.nil_append, chainCells, chainCells, firstNode]
        abel)
      rw [findParent, loadNode_eq hm₁, Exec.ok_bind]
      exact if_pos rfl
  | cons i L ih =>
    obtain rfl := Option.some.inj hc
    cases fuel with
    | zero => cases hf
    | succ fuel =>
      have hm₁ : Holds m (cell i.addr (.node (i.node Stored.val (firstNode (some b) (L ++ [p])))) +
          (cell b o + (i.owned Stored.val Stored.own +
            chainCells Stored.val Stored.own (some b) (L ++ [p]) + H))) := hm.of_eq (by
        rw [List.cons_append, chainCells]
        abel)
      obtain ⟨y, L', hy⟩ : ∃ y L', L ++ [p] = y :: L' :=
        List.exists_cons_of_ne_nil (List.append_ne_nil_of_right_ne_nil _ (List.cons_ne_nil _ _))
      have hne : y.addr ≠ b := by
        refine hm.ne (e := (y.addr, .node (y.node Stored.val (firstNode (some b) L')))) ?_
        rw [List.cons_append, chainCells, hy, chainCells]
        simp [cell]
      have hm₂ : Holds m (cell b o + (chainCells Stored.val Stored.own (some b) (L ++ [p]) +
          (cell i.addr (.node (i.node Stored.val (firstNode (some b) (L ++ [p])))) +
            i.owned Stored.val Stored.own + H))) := hm.of_eq (by
        rw [List.cons_append, chainCells]
        abel)
      have hnext : firstNode none (L ++ [p]) = some y.addr := by rw [hy, firstNode]
      have hnext' : firstNode (some b) (L ++ [p]) = some y.addr := by rw [hy, firstNode]
      rw [findParent, loadNode_eq hm₁, Exec.ok_bind]
      simp only [Item.node, hnext', Option.some.injEq, if_neg hne]
      exact ih (Nat.lt_of_succ_lt_succ hf) hnext hm₂

/-! ## The slot -/

/-- There is fuel for all loops over the slot. -/
def Fuel (fuel : Nat) (s : HashSlot) : Prop :=
  s.items.length < fuel ∧ ∀ i ∈ s.items, i.rest.length < fuel

/-- What is written to the log when a node is deleted. -/
theorem handled_events (i : Item Stored) : handled i.events = voids (i.entry Stored.arg).2 := by
  have hevents : ∀ g : Stored, handled g.events = voids [g.arg] := fun g ↦ by cases g <;> rfl
  have hvalues : ∀ l : List (Nat × Stored),
      handled (valuesEvents l) = voids (l.map fun e ↦ e.2.arg) := by
    intro l
    induction l with
    | nil => rfl
    | cons e l ih =>
      have hcons := voids_append [e.2.arg] (l.map fun e ↦ e.2.arg)
      rw [valuesEvents, handled_append, hevents]
      refine Eq.trans ?_ hcons.symm
      rw [← ih]
      rfl
  rw [Item.events, handled_append, hevents, hvalues, ← voids_append]
  rfl

theorem created_events (i : Item Stored) : created i.events = 0 := by
  have hevents : ∀ g : Stored, created g.events = 0 := fun g ↦ by cases g <;> rfl
  have hvalues : ∀ l : List (Nat × Stored), created (valuesEvents l) = 0 := by
    intro l
    induction l with
    | nil => rfl
    | cons e l ih =>
      rw [valuesEvents, created_append, hevents, zero_add]
      exact ih
  rw [Item.events, created_append, hevents, hvalues]
  rfl

theorem freed_events (i : Item Stored) : freed i.events = i.further := by
  have hevents : ∀ g : Stored, freed g.events = 0 := fun g ↦ by cases g <;> rfl
  have hvalues : ∀ l : List (Nat × Stored),
      freed (valuesEvents l) = (l.map Prod.fst : List Nat) := by
    intro l
    induction l with
    | nil => rfl
    | cons e l ih =>
      rw [valuesEvents, freed_append, hevents, zero_add, List.map_cons, ← Multiset.cons_coe, ← ih]
      rfl
  rw [Item.events, freed_append, hevents, hvalues, zero_add]
  rfl

/-- A node is deleted that is freed itself. -/
theorem removes_node {s s' : HashSlot} {j : Item Stored} {b : Nat}
    (h : s.heap = s'.heap + (j.further + {b})) :
    Removes s s' (j.entry Stored.arg).2 (j.events ++ [.free b]) where
  handled := by
    rw [handled_append, handled_events]
    exact List.append_nil _
  created := by
    rw [created_append, created_events]
    rfl
  heap := by
    rw [freed_append, freed_events]
    exact h

/-- The first node of a slot is deleted. -/
theorem delMain_spec {i : Item Stored} {L : List (Item Stored)} {stale : Node Val}
    (hm : Holds m (slotCells i.addr ⟨stale, i :: L⟩ + H)) :
    ∃ m' s' log, (∀ fuel, i.rest.length < fuel → Yields
        (Handled.delMain fuel m i.addr (i.node Stored.val (firstNode none L))) m' log) ∧
      Holds m' (slotCells i.addr s' + H) ∧ s'.Ok i.addr ∧
      entries Stored.arg s'.items = entries Stored.arg L ∧
      Removes (⟨stale, i :: L⟩ : HashSlot) s' (i.entry Stored.arg).2 log := by
  cases L with
  | nil =>
    have hm₁ : Holds m (cell i.addr (.node (i.node Stored.val none)) + (i.first.own +
        (valuesCells Stored.val Stored.own i.rest + (cell i.kp (.str i.key) + H)))) := hm.of_eq (by
      rw [slotCells, Slot.cells_singleton, Item.owned]
      abel)
    obtain ⟨m₂, hrun₂, hm₂⟩ := freeV_spec rfl hm₁
    obtain ⟨m₃, hrun₃, hm₃⟩ := freeK_spec rfl hm₂
    refine ⟨m₃, ⟨_, []⟩, i.events, fun fuel hf ↦ (hrun₂ fuel hf).bind_nil (.lift hrun₃), hm₃, rfl,
      rfl, handled_events i, created_events i, ?_⟩
    rw [freed_events]
    change (0 : Multiset Nat) + (i.further + 0) = 0 + 0 + i.further
    abel
  | cons j L =>
    have hm₁ : Holds m (cell i.addr (.node (i.node Stored.val (some j.addr))) +
        (cell j.addr (.node (j.node Stored.val (firstNode none L))) + (i.owned Stored.val Stored.own +
          (j.owned Stored.val Stored.own + chainCells Stored.val Stored.own none L) + H))) :=
      hm.of_eq (by
        change chainCells Stored.val Stored.own none (i :: j :: L) + H = _
        rw [chainCells, chainCells, firstNode]
        abel)
    have hm₂ := hm₁.of_eq (add_left_comm _ _ _)
    have hm₃ := (hm₁.set (.node (j.node Stored.val (firstNode none L)))).of_eq (add_left_comm _ _ _)
    have hne : i.addr ≠ j.addr := hm₂.ne (e := (i.addr, .node (i.node Stored.val (some j.addr))))
      Holds.mem_cell
    have hm₄ : Holds _ (cell j.addr (.node (i.node Stored.val (some j.addr))) +
        (i.owned Stored.val Stored.own + (cell i.addr (.node (j.node Stored.val (firstNode none L))) +
          (j.owned Stored.val Stored.own + chainCells Stored.val Stored.own none L) + H))) :=
      (hm₃.set _).of_eq (by abel)
    obtain ⟨m', hrun', hm'⟩ := freeNode_spec hne hm₄
    refine ⟨m', ⟨i.node Stored.val none, { j with addr := i.addr } :: L⟩,
      i.events ++ [.free j.addr], fun fuel hf ↦ ?_, hm'.of_eq ?_, rfl, rfl, removes_node ?_⟩
    · exact .lift_bind (loadNode_eq hm₂) (.lift_bind (hm₁.put_eq _)
        (.lift_bind (hm₃.put_eq _) (hrun' fuel hf)))
    · rw [← add_assoc]
      rfl
    · rw [Slot.heap, Slot.heap, heapOf_cons, heapOf_cons, List.map_cons, List.map_cons,
        List.sum_cons, ← Multiset.cons_coe, ← Multiset.singleton_add]
      change _ = (L.map Item.addr : Multiset Nat) + (j.further + _) + _
      abel

/-- Another node of a slot is deleted. -/
theorem delOther_spec {i j : Item Stored} {L L' : List (Item Stored)} {stale : Node Val}
    (hm : Holds m (slotCells i.addr ⟨stale, i :: L ++ j :: L'⟩ + H)) :
    i.addr ≠ j.addr ∧ ∃ m', (∀ fuel, Fuel fuel ⟨stale, i :: L ++ j :: L'⟩ →
        Yields (Handled.delOther fuel m i.addr j.addr) m' (j.events ++ [.free j.addr])) ∧
      Holds m' (slotCells i.addr ⟨stale, i :: L ++ L'⟩ + H) := by
  obtain ⟨L₀, p, hL⟩ : ∃ L₀ p, i :: L = L₀ ++ [p] :=
    ⟨_, _, (List.dropLast_append_getLast (List.cons_ne_nil i L)).symm⟩
  have hfirst : firstNode none (L₀ ++ [p]) = some i.addr := by rw [← hL, firstNode]
  have hchain : slotCells i.addr ⟨stale, i :: L ++ j :: L'⟩ =
      chainCells Stored.val Stored.own (some j.addr) (L₀ ++ [p]) + (cell j.addr (.node
        (j.node Stored.val (firstNode none L'))) + j.owned Stored.val Stored.own +
          chainCells Stored.val Stored.own none L') := by
    change chainCells Stored.val Stored.own none (i :: L ++ j :: L') = _
    rw [hL, chainCells_append, chainCells, firstNode]
  have hsplit : chainCells Stored.val Stored.own (some j.addr) (L₀ ++ [p]) =
      cell p.addr (.node (p.node Stored.val (some j.addr))) + (p.owned Stored.val Stored.own +
        chainCells Stored.val Stored.own (some p.addr) L₀) := by
    rw [chainCells_middle, chainCells, firstNode, add_zero]
  have hm₁ : Holds m (cell j.addr (.node (j.node Stored.val (firstNode none L'))) +
      (chainCells Stored.val Stored.own (some j.addr) (L₀ ++ [p]) + (j.owned Stored.val Stored.own +
        chainCells Stored.val Stored.own none L' + H))) := hm.of_eq (by
    rw [hchain]
    abel)
  have hm₂ : Holds m (cell p.addr (.node (p.node Stored.val (some j.addr))) +
      (cell j.addr (.node (j.node Stored.val (firstNode none L'))) + (j.owned Stored.val Stored.own +
        (p.owned Stored.val Stored.own + chainCells Stored.val Stored.own (some p.addr) L₀ +
          chainCells Stored.val Stored.own none L' + H)))) := hm₁.of_eq (by
    rw [hsplit]
    abel)
  have hm₃ : Holds _ (cell j.addr (.node (j.node Stored.val (firstNode none L'))) +
      (j.owned Stored.val Stored.own + (cell p.addr (.node (p.node Stored.val (firstNode none L'))) +
        (p.owned Stored.val Stored.own + chainCells Stored.val Stored.own (some p.addr) L₀ +
          chainCells Stored.val Stored.own none L' + H)))) := (hm₂.set _).of_eq (by abel)
  have hne : i.addr ≠ j.addr := by
    refine hm₁.ne (e := (i.addr, .node (i.node Stored.val (firstNode (some j.addr) L)))) ?_
    rw [← hL, chainCells]
    simp [cell]
  obtain ⟨m', hrun', hm'⟩ := freeNode_spec hne hm₃
  refine ⟨hne, m', fun fuel hf ↦ ?_, hm'.of_eq ?_⟩
  · have hlen : L₀.length < fuel := by
      have hlt := hf.1
      simp only [hL, List.length_append, List.length_cons] at hlt
      omega
    have hfj : j.rest.length < fuel := hf.2 j (by simp)
    refine .lift_bind (findParent_spec hlen hfirst hm₁) (.lift_bind (loadNode_eq hm₂)
      (.lift_bind (loadNode_eq hm₁) (.lift_bind (hm₂.put_eq _) (hrun' fuel hfj))))
  · change _ = chainCells Stored.val Stored.own none (i :: L ++ L') + H
    rw [hL, List.append_assoc, List.singleton_append, chainCells_middle]
    abel

/-- The values of the first node with the key. -/
theorem values_entries {L₁ L₂ : List (Item Stored)} {j : Item Stored} (hj : j.key = key)
    (hL : ∀ i ∈ L₁, i.key ≠ key) :
    values key (entries Stored.arg (L₁ ++ j :: L₂)) = (j.entry Stored.arg).2 := by
  induction L₁ with
  | nil => exact if_pos hj
  | cons i L₁ ih =>
    refine (if_neg (hL i List.mem_cons_self)).trans ?_
    exact ih fun x hx ↦ hL x (List.mem_cons_of_mem _ hx)

/-- `dl_hash_del`. -/
theorem del_slot (hm : Holds h.mem (slotCells a s + H)) (hok : s.Ok a)
    (ha : slot h (hashKey key) = a) (hc : Clear key (s.items.map Item.key)) :
    ∃ m' s' log, (∀ fuel, Fuel fuel s →
        Yields (Handled.del fuel h key) { h with mem := m' } log) ∧
      Holds m' (slotCells a s' + H) ∧ s'.Ok a ∧
      entries Stored.arg s'.items = erase key (entries Stored.arg s.items) ∧
      Removes s s' (values key (entries Stored.arg s.items)) log := by
  unfold Handled.del
  simp only [ha]
  have hload := hok.loadNode_eq hm
  by_cases hs : s.items = []
  · refine ⟨h.mem, s, [], fun _ _ ↦ .lift_bind hload ?_, hm, hok, ?_, ?_⟩
    · rw [if_pos (hok.head_eq_none.mpr hs)]
      exact .pure _
    · rw [hs]
      rfl
    · rw [hs]
      exact ⟨rfl, rfl, (add_zero _).symm⟩
  · have hhead : (s.head Stored.val).v.v ≠ none := mt hok.head_eq_none.mp hs
    have hsearch := fun fuel (hf : Fuel fuel s) ↦ hok.search_eq hs hm hc hf.1
    cases hfind : s.items.find? (·.key = key) with
    | none =>
      have habsent : key ∉ (entries Stored.arg s.items).map Prod.fst :=
        find?_eq_none_iff.mp hfind
      refine ⟨h.mem, s, [], fun fuel hf ↦ .lift_bind hload ?_, hm, hok,
        (erase_eq_self habsent).symm, ?_⟩
      · rw [if_neg hhead]
        refine .lift_bind (hsearch fuel hf) ?_
        rw [hfind]
        exact .pure _
      · rw [values_eq_nil habsent]
        exact ⟨rfl, rfl, (add_zero _).symm⟩
    | some j =>
      obtain ⟨L₁, L₂, hitems, hkey, hL₁⟩ := find?_eq_some hfind
      obtain ⟨stale, items⟩ := s
      obtain rfl : items = L₁ ++ j :: L₂ := hitems
      rw [values_entries hkey hL₁]
      cases L₁ with
      | nil =>
        obtain rfl : j.addr = a := hok
        obtain ⟨m', s', log, hrun, hm', hok', hentries, hrem⟩ := delMain_spec hm
        refine ⟨m', s', log, fun fuel hf ↦ .lift_bind hload ?_, hm', hok', ?_,
          hrem⟩
        · rw [if_neg hhead]
          refine .lift_bind (hsearch fuel hf) ?_
          rw [hfind]
          simp only [Option.map_some, if_true]
          exact (hrun fuel (hf.2 j List.mem_cons_self)).bind_nil (.pure _)
        · rw [hentries]
          exact (erase_entries hkey hL₁).symm
      | cons i L₁ =>
        obtain rfl : i.addr = a := hok
        obtain ⟨hne, m', hrun, hm'⟩ := delOther_spec hm
        have hrem : Removes (⟨stale, i :: L₁ ++ j :: L₂⟩ : HashSlot) ⟨stale, i :: L₁ ++ L₂⟩
            (j.entry Stored.arg).2 (j.events ++ [.free j.addr]) :=
          removes_node (heapOf_insert i j L₁ L₂)
        refine ⟨m', ⟨stale, i :: L₁ ++ L₂⟩, _, fun fuel hf ↦ .lift_bind hload ?_,
          hm', rfl, (erase_entries hkey hL₁).symm, hrem⟩
        rw [if_neg hhead]
        refine .lift_bind (hsearch fuel hf) ?_
        rw [hfind]
        simp only [Option.map_some, if_neg (Ne.symm hne)]
        exact (hrun fuel hf).bind_nil (.pure _)

end Dlbase.Hash
