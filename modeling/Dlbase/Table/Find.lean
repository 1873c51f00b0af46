import Dlbase.Table.Insert
import Dlbase.Table.Keys

/-!
# Finding a key

What `dl_find_l` finds, and what it means to write a value there.  A key that is not found does not
stand for the same thing as any key of the table.
-/

namespace Dlbase.Table

open Cmem

/-- The memory of the strings is as before, and so is the array beyond its end, unless there is a
new one. -/
structure Frame (t t' : DlTable) : Prop where
  /-- Strings are as before. -/
  mem : t'.mem = t.mem
  /-- No pointer has been released. -/
  voids : t'.voids = t.voids
  /-- Arrays are numbered in their order. -/
  id : t.arrayId ≤ t'.arrayId
  /-- The same array has not grown. -/
  size : t'.arrayId = t.arrayId → t'.sizearray ≤ max t.sizearray 0
  /-- What lies beyond the end of the same array has not changed. -/
  array : t'.arrayId = t.arrayId → ∀ i : Nat, t.sizearray ≤ i →
    (t'.array.getD [])[i]? = (t.array.getD [])[i]?
  /-- There are not too many nodes. -/
  bits : t.lsizenode ≤ maxBits → t'.lsizenode ≤ maxBits

/-- A value can be written for the key, whereupon the table holds the key with it. -/
structure Inserts (t : DlTable) (E : Entries) (key : Key) (t' : DlTable) (l : Loc) : Prop where
  /-- The frame. -/
  frame : Frame t t'
  /-- A value can be written. -/
  write : ∀ x : Value, x.Used → ∃ t'' E', writeVal t' l x = .ok t'' ∧ Frame t t'' ∧ Shape t'' E' ∧
    Kept t.mem ((key, x) ::ₘ E) E'

variable {t t' t'' : DlTable} {n : Objects Node} {C : Multiset (List Item)}
  {F : Multiset (Nat × Int)} {L L₁ L₂ : List Item} {j : Item} {key : Key} {a f fuel : Nat} {v : Int}
  {E E' : Entries} {same : Node → Exec Bool} {eq : Key → Exec Bool} {o : Option Loc}

/-! ## Frames -/

namespace Frame

theorem refl (t : DlTable) : Frame t t :=
  ⟨rfl, rfl, le_rfl, fun _ ↦ le_max_left _ _, fun _ _ _ ↦ rfl, fun hb ↦ hb⟩

theorem trans (h : Frame t t') (h' : Frame t' t'') : Frame t t'' where
  mem := h'.mem.trans h.mem
  voids := h'.voids.trans h.voids
  id := h.id.trans h'.id
  size heq := by
    have hid : t'.arrayId = t.arrayId := le_antisymm (heq ▸ h'.id) h.id
    exact (h'.size (heq.trans hid.symm)).trans (max_le (h.size hid) (le_max_right _ _))
  array heq i hi := by
    have hid : t'.arrayId = t.arrayId := le_antisymm (heq ▸ h'.id) h.id
    rw [h'.array (heq.trans hid.symm) i ((h.size hid).trans (max_le hi (Int.natCast_nonneg i))),
      h.array hid i hi]
  bits hb := h'.bits (h.bits hb)

/-- Only the nodes have changed. -/
theorem nodes (t : DlTable) (p : NodePart) (k : Option Int) :
    Frame t { t with node := p, lastfree := k } :=
  ⟨rfl, rfl, le_rfl, fun _ ↦ le_max_left _ _, fun _ _ _ ↦ rfl, fun hb ↦ hb⟩

/-- A value of the array has been written. -/
theorem write {vs : List Value} {i : Nat} (ha : t.array = some vs) (hi : InArray t i) (x : Value) :
    Frame t { t with array := some (vs.set i x) } := by
  refine ⟨rfl, rfl, le_rfl, fun _ ↦ le_max_left _ _, fun _ j hj ↦ ?_, fun hb ↦ hb⟩
  have hne : i ≠ j := by
    have hlt := hi.1
    omega
  rw [ha]
  exact List.getElem?_set_ne hne

end Frame

/-! ## Nodes -/

/-- A chain with another value. -/
theorem ChainAt.replace {y : Item} (h : ChainAt t (L₁ ++ j :: L₂)) (ha : y.addr = j.addr)
    (hk : y.key = j.key) : ChainAt t (L₁ ++ y :: L₂) := by
  obtain ⟨i, L', hL, hmain⟩ := h
  have hall : ∀ z ∈ L₁ ++ y :: L₂, mainPos t z.key = .ok i.addr := fun z hz ↦ by
    rcases List.mem_append.mp hz with hz | hz
    · exact hmain z (List.mem_append_left _ hz)
    · rcases List.mem_cons.mp hz with rfl | hz
      · rw [hk]
        exact hmain j (by simp)
      · exact hmain z (List.mem_append_right _ (List.mem_cons_of_mem _ hz))
  cases L₁ with
  | nil =>
    obtain ⟨rfl, -⟩ := List.cons.inj hL
    exact ⟨y, L₂, rfl, fun z hz ↦ ha ▸ hall z hz⟩
  | cons x L₁ =>
    obtain ⟨rfl, -⟩ := List.cons.inj hL
    exact ⟨x, _, rfl, hall⟩

/-- A value of a node is written. -/
theorem Layout.write (hn : t.node = .nodes n) (h : Layout t n ((L₁ ++ j :: L₂) ::ₘ C) F) {x : Value}
    (hx : x.Used) : ∃ n', writeVal t (.node j.addr) x = .ok { t with node := .nodes n' } ∧
      Layout { t with node := .nodes n' } n'
        ((L₁ ++ { j with val := x } :: L₂) ::ₘ C) F := by
  have hcells : ∀ y : Value, nodeCells ((L₁ ++ { j with val := y } :: L₂) ::ₘ C) F =
      cell j.addr ⟨y, j.key, firstItem none L₂⟩ + (chainCells (some j.addr) L₁ +
        chainCells none L₂ + nodeCells C F) := fun y ↦ by
    rw [nodeCells_cons, chainCells_middle, add_assoc]
    rfl
  have hm : Holds n (cell j.addr (j.node (firstItem none L₂)) + (chainCells (some j.addr) L₁ +
      chainCells none L₂ + nodeCells C F)) := h.holds.of_eq (hcells j.val)
  obtain ⟨n', hstore, hm'⟩ := storeNode_spec hn hm ⟨x, j.key, firstItem none L₂⟩
  refine ⟨n', ?_, hm'.of_eq (hcells x).symm, ?_, fun L hL ↦ ?_, fun L hL ↦ ?_, h.last, h.low⟩
  · rw [writeVal, loadNode_eq hn hm, Exec.ok_bind]
    exact hstore
  · rw [hcells]
    refine Eq.trans addrs_cell ((congrArg _ (hcells j.val)).symm.trans h.addrs)
  · rcases Multiset.mem_cons.mp hL with rfl | hL
    · exact (h.head.replace (y := { j with val := x }) rfl rfl).congr rfl rfl
    · exact (h.chain L (Multiset.mem_cons_of_mem hL)).congr rfl rfl
  · rcases Multiset.mem_cons.mp hL with rfl | hL
    · intro y hy
      have hall := h.used _ (Multiset.mem_cons_self _ _)
      rcases List.mem_append.mp hy with hy | hy
      · exact hall y (List.mem_append_left _ hy)
      · rcases List.mem_cons.mp hy with rfl | hy
        · exact hx
        · exact hall y (List.mem_append_right _ (List.mem_cons_of_mem _ hy))
    · exact h.used L (Multiset.mem_cons_of_mem hL)

theorem nodeEntries_middle (L₁ L₂ : List Item) (j : Item) (C : Multiset (List Item)) :
    nodeEntries ((L₁ ++ j :: L₂) ::ₘ C) = j.entry ::ₘ nodeEntries ((L₁ ++ L₂) ::ₘ C) := by
  rw [nodeEntries_cons, nodeEntries_cons, List.map_append, List.map_append, List.map_cons,
    ← Multiset.coe_add, ← Multiset.coe_add, ← Multiset.cons_coe, Multiset.add_cons,
    Multiset.cons_add]

/-- What the loops find in the nodes. -/
theorem search_layout (hn : t.node = .nodes n) (h : Layout t n C F)
    (hs : ∀ x, same x = eq x.key) (hnil : eq .nil = .ok false) (ha : a < t.sizenode)
    (hret : search t same fuel a = .ok o) :
    (o = none ∧ ∀ L₁ j L₂ C', C = (L₁ ++ j :: L₂) ::ₘ C' → j.addr = a →
        ∀ y ∈ j :: L₂, eq y.key = .ok false) ∨
      ∃ L₁ j L₂ C', C = (L₁ ++ j :: L₂) ::ₘ C' ∧ o = some (.node j.addr) ∧ eq j.key = .ok true := by
  rcases h.cases ha with ⟨v, F', rfl⟩ | ⟨L₁, j, L₂, C', rfl, rfl⟩
  · -- the node is free
    have hm := h.holds_free
    refine .inl ⟨?_, fun L₁ j L₂ C' hC hj ↦ ?_⟩
    · cases fuel with
      | zero => cases hret
      | succ fuel =>
        rw [search, loadNode_eq hn hm, Exec.ok_bind, hs] at hret
        change (eq .nil >>= _) = _ at hret
        rw [hnil] at hret
        exact (Except.ok.inj hret).symm
    · rw [hC, nodeCells_cons, chainCells_middle, hj] at hm
      exact absurd rfl (hm.ne (Multiset.mem_add.mpr (.inl Holds.mem_cell)))
  · have hm := h.holds_chain
    rw [chainCells_append] at hm
    have hitems := search_ok hn hs (hm.of_eq (by rw [add_assoc, add_left_comm])) hret
    cases o with
    | none =>
      refine .inl ⟨rfl, fun L₁' j' L₂' C'' hC hj ↦ ?_⟩
      -- the node is in one chain, at one place
      have hm' := h.holds
      have hcells : nodeCells ((L₁ ++ j :: L₂) ::ₘ C') F = cell j.addr (j.node (firstItem none L₂)) +
          (chainCells (some j.addr) L₁ + chainCells none L₂ + nodeCells C' F) := by
        rw [nodeCells_cons, chainCells_middle, add_assoc]
      have hcells' : nodeCells ((L₁ ++ j :: L₂) ::ₘ C') F =
          cell j.addr (j'.node (firstItem none L₂')) +
            (chainCells (some j'.addr) L₁' + chainCells none L₂' + nodeCells C'' F) := by
        rw [hC, nodeCells_cons, chainCells_middle, add_assoc, hj]
      have hget := hm'.get_eq (a := j.addr) (hcells ▸ Holds.mem_cell)
      have hget' := hm'.get_eq (a := j.addr) (hcells' ▸ Holds.mem_cell)
      have hnode : j.node (firstItem none L₂) = j'.node (firstItem none L₂') :=
        Except.ok.inj (hget.symm.trans hget')
      have hm₂ : Holds n (chainCells none (j' :: L₂') + (chainCells (some j'.addr) L₁' +
          nodeCells C'' F)) := hm'.of_eq (by
        rw [hC, nodeCells_cons, chainCells_append, firstItem]
        abel)
      rw [← hj] at hret
      exact searchItems_none.mp (search_ok hn hs hm₂ hret)
    | some l =>
      obtain ⟨M₁, y, M₂, hL, rfl, hy, -⟩ := searchItems_some hitems
      refine .inr ⟨L₁ ++ M₁, y, M₂, C', ?_, rfl, hy⟩
      rw [hL, List.append_assoc]

/-! ## Keys -/

theorem steady_find (t : DlTable) (c : Content) : Steady fun fuel ↦ find fuel t c := by
  cases c with
  | int n => exact steady_findByIndex t n
  | str s => exact steady_findByStr t s

/-- A key that does not belong to the array is looked for in the chain of its main position. -/
theorem find_eq (fuel : Nat) {c : Content} (hout : ∀ k, c = .int k → ¬ InArray t k) :
    ∃ same, find fuel t c = search t same fuel (c.pos t) ∧ ∀ x, same x = c.test t.mem x.key := by
  cases c with
  | int n => exact ⟨sameIndex n, if_neg (hout n rfl), fun x ↦ rfl⟩
  | str s => exact ⟨sameStr t s, rfl, fun x ↦ rfl⟩

/-- Keys in chains stand for something. -/
theorem Layout.content (h : Layout t n C F) {e : Key × Value} (he : e ∈ nodeEntries C) :
    ∃ d, e.1.content t.mem = some d := by
  obtain ⟨L, hL, j, hj, rfl⟩ := mem_nodeEntries.mp he
  obtain ⟨i, L', -, hmain⟩ := h.chain L hL
  exact exists_content (hmain j hj)

theorem mem_arrayEntries {e : Key × Value} (h : e ∈ arrayEntries t) :
    ∃ i : Nat, e.1 = .int i ∧ InArray t i := by
  obtain ⟨i, hi, he⟩ := Multiset.mem_sum.mp h
  rw [Finset.mem_range] at hi
  refine ⟨i, ?_, by omega, by omega⟩
  unfold cellEntry at he
  split at he
  · split_ifs at he
    · cases he
    · rw [Multiset.mem_singleton.mp he]
  · cases he

/-- A key that is not found is not in the table. -/
theorem Shape.not_found {c : Content} (h : Shape t E) (hret : find fuel t c = .ok none) :
    (∀ k, c = .int k → ¬ InArray t k) ∧ ∀ e ∈ E, e.1.content t.mem ≠ some c := by
  have hout : ∀ k, c = .int k → ¬ InArray t k := fun k hk hin ↦ by
    rw [hk] at hret
    cases (if_pos hin).symm.trans hret
  refine ⟨hout, fun e he heq ↦ ?_⟩
  obtain ⟨C, hC, rfl, -⟩ := h.nodes
  rcases Multiset.mem_add.mp he with he | he
  · obtain ⟨i, hi, hin⟩ := mem_arrayEntries he
    rw [hi] at heq
    exact hout i (Option.some.inj heq).symm hin
  · obtain ⟨same, hfind, hs⟩ := find_eq fuel hout
    cases hC with
    | dummy => cases he
    | nodes hn hl =>
      rw [hfind] at hret
      obtain ⟨L, hL, j, hj, rfl⟩ := mem_nodeEntries.mp he
      obtain ⟨C', rfl⟩ := Multiset.exists_cons_of_mem hL
      obtain ⟨i, L', rfl, hmain'⟩ := hl.head
      -- the chain of the key begins where the loop begins
      have hi : i.addr = c.pos t := Except.ok.inj ((hmain' j hj).symm.trans (mainPos_eq heq))
      rcases search_layout hn hl hs (c.test_nil _) (c.pos_lt t) hret with ⟨-, hall⟩ |
        ⟨_, _, _, _, _, h, _⟩
      · exact Content.test_false (hall [] i L' C' rfl hi j hj) heq
      · cases h

/-- A key is looked for among some of the entries, which are linked from its main position on. -/
theorem Shape.find_items {c : Content} (h : Shape t E) (hout : ∀ k, c = .int k → ¬ InArray t k) :
    ∃ L : List Item, (∀ j ∈ L, j.entry ∈ E ∧ j.addr < t.sizenode) ∧
      (L ≠ [] → firstItem none L = some (c.pos t)) ∧
      (∀ L₁ j L₂, L = L₁ ++ j :: L₂ → loadNode t j.addr = .ok (j.node (firstItem none L₂))) ∧
      ∀ fuel, t.sizenode ≤ fuel → find fuel t c = searchItems (c.test t.mem) L := by
  obtain ⟨C, hC, rfl, -⟩ := h.nodes
  have hpos := sizenode_pos t
  -- the loop ends at once
  have hnone : ∀ x : Node, loadNode t (c.pos t) = .ok x → c.test t.mem x.key = .ok false →
      x.next = none → ∀ fuel, t.sizenode ≤ fuel → find fuel t c = .ok none := by
    intro x hx hkey hnext fuel hfuel
    obtain ⟨same, hfind, hs⟩ := find_eq fuel hout
    obtain ⟨fuel, rfl⟩ : ∃ k, fuel = k + 1 := ⟨fuel - 1, by omega⟩
    rw [hfind, search, hx, Exec.ok_bind, hs, hkey, hnext]
    rfl
  cases hC with
  | dummy hn hl =>
    have hzero : c.pos t = 0 := by
      have hlt := c.pos_lt t
      rw [DlTable.sizenode, hl] at hlt
      omega
    refine ⟨[], (by rintro _ ⟨⟩), fun hne ↦ absurd rfl hne, by simp,
      hnone dummynode ?_ (c.test_null _) rfl⟩
    rw [loadNode_dummy hn, if_pos hzero]
  | nodes hn hl =>
    rcases hl.cases (c.pos_lt t) with ⟨v, F', rfl⟩ | ⟨L₁, j, L₂, C', rfl, hj⟩
    · exact ⟨[], (by rintro _ ⟨⟩), fun hne ↦ absurd rfl hne, by simp,
        hnone _ (loadNode_eq hn hl.holds_free) (c.test_nil _) rfl⟩
    · have hm := hl.holds_chain
      rw [chainCells_append] at hm
      refine ⟨j :: L₂, fun y hy ↦ ?_, fun _ ↦ congrArg some hj, fun M₁ y M₂ hL ↦ ?_,
        fun fuel hfuel ↦ ?_⟩
      · refine ⟨Multiset.mem_add.mpr (.inr (mem_nodeEntries.mpr
          ⟨_, Multiset.mem_cons_self _ _, y, List.mem_append_right _ hy, rfl⟩)), ?_⟩
        obtain ⟨M₁, M₂, hL⟩ := List.append_of_mem hy
        rw [hL, ← List.append_assoc] at hl
        exact hl.addr_lt
      · rw [hL, ← List.append_assoc] at hl
        exact hl.load hn
      · obtain ⟨same, hfind, hs⟩ := find_eq fuel hout
        have hlen := hl.length_le
        rw [List.length_append] at hlen
        rw [hfind, ← hj]
        exact search_eq hn hs (hm.of_eq (by rw [add_assoc, add_left_comm])) (by omega)

/-! ## Locations -/

/-- The entry of a key with a value that may be nil. -/
def slotEntries (k : Key) (v : Value) : Entries := if v.tt = .nil then 0 else {(k, v)}

/-- No chain has a key that belongs to the array. -/
def Outside (t : DlTable) (C : Multiset (List Item)) : Prop :=
  ∀ e ∈ nodeEntries C, ∀ k, e.1 = .int k → ¬ InArray t k

/-- At the location there is the value `v` of the key `k`; the rest of the table has the entries
`R`. -/
inductive At (t : DlTable) (k : Key) (v : Value) (R : Entries) : Loc → Prop where
  /-- In the array. -/
  | array {i : Nat} {Q : Entries} {C : Multiset (List Item)} : InArray t i → k = .int i →
      loadArray t i = .ok v → v.tt ≠ .null → arrayEntries t = slotEntries k v + Q → Chains t C →
      Outside t C → R = Q + nodeEntries C → At t k v R (.array i)
  /-- In a node. -/
  | node {n : Objects Node} {L₁ L₂ : List Item} {j : Item} {C : Multiset (List Item)}
      {F : Multiset (Nat × Int)} : t.node = .nodes n → Layout t n ((L₁ ++ j :: L₂) ::ₘ C) F →
      Outside t ((L₁ ++ j :: L₂) ::ₘ C) → k = j.key → v = j.val →
      R = arrayEntries t + nodeEntries ((L₁ ++ L₂) ::ₘ C) → At t k v R (.node j.addr)

theorem slotEntries_nil {k : Key} {v : Value} (hv : v.tt = .nil) : slotEntries k v = 0 := if_pos hv

theorem slotEntries_used {k : Key} {v : Value} (hv : v.tt ≠ .nil) : slotEntries k v = {(k, v)} :=
  if_neg hv

/-- The chains do not depend on the array. -/
theorem Chains.congr_array (h : Chains t C) (size : Int) (vs : Option (List Value)) :
    Chains { t with sizearray := size, array := vs } C := by
  cases h with
  | dummy hn hl hf => exact .dummy hn hl hf
  | nodes hn hl => exact .nodes hn ⟨hl.holds, hl.addrs, fun L hL ↦ (hl.chain L hL).congr rfl rfl,
      hl.used, hl.last, hl.low⟩

/-- Where a key has been found, there is its value, or that of a longer string. -/
theorem Shape.at_find {c : Content} {l : Loc} (h : Shape t E)
    (hret : find fuel t c = .ok (some l)) : ∃ k d v R, k.content t.mem = some d ∧ c.Begins d ∧
      At t k v R l ∧ E = slotEntries k v + R ∧ (v.tt = .nil → ∃ i, c = .int i ∧ k = .int i) := by
  obtain ⟨C, hC, rfl, hsep⟩ := h.nodes
  by_cases hin : ∃ k, c = .int k ∧ InArray t k
  · -- the array
    obtain ⟨k, rfl, hin⟩ := hin
    have hk : ((k.toNat : Nat) : Int) = k := Int.toNat_of_nonneg hin.2
    obtain rfl : Loc.array k.toNat = l :=
      Option.some.inj (Except.ok.inj ((if_pos hin).symm.trans hret))
    obtain ⟨vs, v, Q, -, -, hload, hv, hQ, -⟩ := array_focus h.array (hk.symm ▸ hin)
    refine ⟨.int k, .int k, v, Q + nodeEntries C, rfl, rfl, .array (hk.symm ▸ hin) (by rw [hk])
      hload hv (by rw [hQ, ← hk]; rfl) hC hsep rfl, ?_, fun _ ↦ ⟨k, rfl, rfl⟩⟩
    rw [hQ, ← add_assoc, ← hk]
    rfl
  · -- a node
    have hout : ∀ k, c = .int k → ¬ InArray t k := fun k hk hin' ↦ hin ⟨k, hk, hin'⟩
    obtain ⟨same, hfind, hs⟩ := find_eq fuel hout
    rw [hfind] at hret
    cases hC with
    | dummy hn => cases search_dummy hn hs (c.test_null _) hret
    | nodes hn hl =>
      rcases search_layout hn hl hs (c.test_nil _) (c.pos_lt t) hret with ⟨h, -⟩ |
        ⟨L₁, j, L₂, C', rfl, ho, hj⟩
      · cases h
      · obtain rfl := Option.some.inj ho
        obtain ⟨d, hd, hb⟩ := Content.test_true hj
        have hused := (hl.used _ (Multiset.mem_cons_self _ _) j (by simp)).1
        refine ⟨j.key, d, j.val, _, hd, hb, .node hn hl hsep rfl rfl rfl, ?_, fun hnil ↦
          absurd hnil hused⟩
        rw [nodeEntries_middle, slotEntries_used hused, Multiset.add_cons]
        rfl

namespace At

variable {k : Key} {v x : Value} {R : Entries} {l : Loc}

theorem read (h : At t k v R l) : readVal t l = .ok v := by
  cases h with
  | array _ _ hload => exact hload
  | @node n L₁ L₂ j C F hn hl _ _ hv =>
    rw [readVal, hl.load hn, hv]
    rfl

/-- Another value can be written there. -/
theorem write (h : At t k v R l) (ha : ArrayOk t) (hid : t.arrayId ≤ t.allocs) (hx : x.Used) :
    ∃ p vs, writeVal t l x = .ok { t with node := p, array := vs } ∧
      Frame t { t with node := p, array := vs } ∧
      Shape { t with node := p, array := vs } ((k, x) ::ₘ R) := by
  cases h with
  | @array i Q C hin hk hload hv hQ hC hsep hR =>
    obtain ⟨vs, v', Q', hvs, -, hload', -, hQ', hwrite⟩ := array_focus ha hin
    obtain rfl := Except.ok.inj (hload.symm.trans hload')
    obtain rfl : Q = Q' := by
      rw [hQ, hk] at hQ'
      exact Multiset.add_right_inj.mp hQ'
    obtain ⟨hrun, hok, hQ''⟩ := hwrite x
    refine ⟨t.node, some (vs.set i x), hrun, .write hvs hin x, ⟨hok hx.2, hid, C,
      hC.congr_array _ _, ?_, hsep⟩⟩
    rw [hR, ← Multiset.singleton_add, ← add_assoc, hk, ← cellEntry_used hx]
    exact congrArg (· + _) hQ''.symm
  | @node n L₁ L₂ j C F hn hl hsep hk hv hR =>
    obtain ⟨n', hrun, hl'⟩ := hl.write hn hx
    refine ⟨.nodes n', t.array, hrun, .nodes t _ _, ⟨ha, hid, _, .nodes rfl hl', ?_, ?_⟩⟩
    · rw [nodeEntries_middle, Multiset.add_cons, hR, hk]
      rfl
    · intro e he i hi
      rw [Outside, nodeEntries_middle] at hsep
      rw [nodeEntries_middle] at he
      rcases Multiset.mem_cons.mp he with rfl | he
      · exact hsep j.entry (Multiset.mem_cons_self _ _) i hi
      · exact hsep e (Multiset.mem_cons_of_mem he) i hi

end At

/-- A value can be written where a key has been found. -/
theorem Shape.found {c : Content} {l : Loc} (h : Shape t E)
    (hret : find fuel t c = .ok (some l)) (hc : key.content t.mem = some c) :
    Inserts t E key t l := by
  refine ⟨.refl t, fun x hx ↦ ?_⟩
  obtain ⟨k, d, v, R, hd, hb, hat, rfl, hnil⟩ := h.at_find hret
  obtain ⟨p, vs, hrun, hf, hshape⟩ := hat.write h.array h.id hx
  refine ⟨_, _, hrun, hf, hshape, ?_⟩
  by_cases hv : v.tt = .nil
  · obtain ⟨i, rfl, rfl⟩ := hnil hv
    rw [slotEntries_nil hv, zero_add, content_int hc]
    exact .refl _
  · rw [slotEntries_used hv, Multiset.singleton_add]
    exact .overwrite fun hap ↦ hap.not_begins (Multiset.mem_cons_self _ _) hc hd hb

end Dlbase.Table
