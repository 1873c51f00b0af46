import Dlbase.Table.Chain

/-!
# The layout of a table

The node part consists of chains, each of which begins at the main position of its keys, and of
free nodes, which all lie below `lastfree`.  What the table holds is a multiset of keys with their
values.
-/

namespace Dlbase.Table

open Cmem

/-- What a table holds. -/
abbrev Entries := Multiset (Key × Value)

/-- The value is not nil. -/
def Value.Used (v : Value) : Prop := v.tt ≠ .nil ∧ v.tt ≠ .null

/-- The entries in chains. -/
def nodeEntries (C : Multiset (List Item)) : Entries :=
  C.bind fun L ↦ (↑(L.map Item.entry) : Entries)

/-- The memory of a free node. -/
def freeCell (f : Nat × Int) : Nat × Node := (f.1, freeNode f.2)

/-- The memory of chains and free nodes. -/
def nodeCells (C : Multiset (List Item)) (F : Multiset (Nat × Int)) : Cells Node :=
  C.bind (chainCells none) + F.map freeCell

/-- The chain begins at the main position of all its keys. -/
def ChainAt (t : DlTable) (L : List Item) : Prop :=
  ∃ i L', L = i :: L' ∧ ∀ j ∈ L, mainPos t j.key = .ok i.addr

/-- The nodes of the table are the chains `C` and the free nodes `F`. -/
structure Layout (t : DlTable) (n : Objects Node) (C : Multiset (List Item))
    (F : Multiset (Nat × Int)) : Prop where
  /-- They are in memory. -/
  holds : Holds n (nodeCells C F)
  /-- There are no others. -/
  addrs : (nodeCells C F).map Prod.fst = Multiset.range t.sizenode
  /-- Each chain begins at the main position of its keys. -/
  chain : ∀ L ∈ C, ChainAt t L
  /-- The nodes in chains have values. -/
  used : ∀ L ∈ C, ∀ j ∈ L, j.val.Used
  /-- There is a `lastfree`. -/
  last : ∃ k, t.lastfree = some k ∧ k ≤ t.sizenode
  /-- The free nodes are below it. -/
  low : ∀ f ∈ F, ∀ k, t.lastfree = some k → f.1 < k

/-- The chains of the node part. -/
inductive Chains (t : DlTable) : Multiset (List Item) → Prop where
  /-- There are no nodes. -/
  | dummy : t.node = .dummy → t.lsizenode = 0 → t.lastfree = none → Chains t 0
  /-- There are nodes. -/
  | nodes {n : Objects Node} {C : Multiset (List Item)} {F : Multiset (Nat × Int)} :
      t.node = .nodes n → Layout t n C F → Chains t C

/-- The entry of a cell of the array. -/
def cellEntry (i : Nat) (v : Option Value) : Entries :=
  match v with
  | some v => if v.tt = .nil then 0 else {(.int i, v)}
  | none => 0

/-- The entries in the array. -/
def arrayEntries (t : DlTable) : Entries :=
  ∑ i ∈ Finset.range t.sizearray.toNat, cellEntry i ((t.array.getD [])[i]?)

/-- The array is there. -/
def ArrayOk (t : DlTable) : Prop :=
  0 < t.sizearray → ∃ vs, t.array = some vs ∧ t.sizearray ≤ vs.length ∧ ∀ v ∈ vs, v.tt ≠ .null

/-- The index belongs to the array. -/
def InArray (t : DlTable) (k : Int) : Prop := k < t.sizearray ∧ 0 ≤ k

/-- The table is well formed and holds the entries `E`. -/
structure Shape (t : DlTable) (E : Entries) : Prop where
  /-- The array is there. -/
  array : ArrayOk t
  /-- No array has had a higher number. -/
  id : t.arrayId ≤ t.allocs
  /-- The entries are in the array and in chains; no chain has a key that belongs to the array. -/
  nodes : ∃ C, Chains t C ∧ E = arrayEntries t + nodeEntries C ∧
    ∀ e ∈ nodeEntries C, ∀ k, e.1 = .int k → ¬ InArray t k

variable {t t' : DlTable} {n : Objects Node} {C : Multiset (List Item)} {F : Multiset (Nat × Int)}
  {L : List Item} {key : Key} {p a : Nat} {E : Entries}

/-! ## Chains -/

theorem nodeCells_cons (L : List Item) (C : Multiset (List Item)) (F : Multiset (Nat × Int)) :
    nodeCells (L ::ₘ C) F = chainCells none L + nodeCells C F := by
  rw [nodeCells, Multiset.cons_bind, add_assoc]
  rfl

theorem nodeCells_cons_free (f : Nat × Int) (C : Multiset (List Item)) (F : Multiset (Nat × Int)) :
    nodeCells C (f ::ₘ F) = cell f.1 (freeNode f.2) + nodeCells C F := by
  rw [nodeCells, Multiset.map_cons, ← Multiset.singleton_add, add_left_comm]
  rfl

theorem nodeEntries_cons (L : List Item) (C : Multiset (List Item)) :
    nodeEntries (L ::ₘ C) = ↑(L.map Item.entry) + nodeEntries C := Multiset.cons_bind _ _ _

theorem mem_nodeEntries {e : Key × Value} :
    e ∈ nodeEntries C ↔ ∃ L ∈ C, ∃ j ∈ L, j.entry = e := by
  rw [nodeEntries, Multiset.mem_bind]
  simp only [Multiset.mem_coe, List.mem_map]

theorem exists_of_mem_chainCells {q : Option Nat} {e : Nat × Node} (h : e ∈ chainCells q L) :
    ∃ j ∈ L, j.addr = e.1 := by
  induction L with
  | nil => cases h
  | cons i L ih =>
    rw [chainCells, Multiset.mem_add] at h
    rcases h with h | h
    · obtain rfl := Multiset.mem_singleton.mp h
      exact ⟨i, List.mem_cons_self, rfl⟩
    · obtain ⟨j, hj, ha⟩ := ih h
      exact ⟨j, List.mem_cons_of_mem _ hj, ha⟩

theorem exists_mem_chainCells {q : Option Nat} {j : Item} (h : j ∈ L) :
    ∃ x, (j.addr, x) ∈ chainCells q L := by
  obtain ⟨L₁, L₂, rfl⟩ := List.append_of_mem h
  rw [chainCells_middle]
  exact ⟨_, Holds.mem_cell⟩

/-! ## Main positions -/

theorem sizenode_pos (t : DlTable) : 0 < t.sizenode := Nat.two_pow_pos _

theorem mainPos_lt (h : mainPos t key = .ok p) : p < t.sizenode := by
  cases key with
  | null => cases h
  | nil => cases h
  | int k =>
    obtain rfl := Except.ok.inj h
    unfold hashnum
    split_ifs
    · exact sizenode_pos t
    · exact Nat.mod_lt _ (sizenode_pos t)
  | str s =>
    obtain ⟨str, -, hs⟩ := Exec.bind_eq_ok.mp h
    obtain rfl := Except.ok.inj hs
    exact Nat.mod_lt _ (sizenode_pos t)

theorem mainPos_congr (hm : t'.mem = t.mem) (hs : t'.lsizenode = t.lsizenode) (key : Key) :
    mainPos t' key = mainPos t key := by
  cases key with
  | null => rfl
  | nil => rfl
  | int k =>
    change Except.ok (hashnum t' k) = Except.ok (hashnum t k)
    unfold hashnum DlTable.sizenode
    rw [hs]
  | str s =>
    change (loadStr t'.mem s >>= fun str ↦ pure (hashstr t' str)) =
      (loadStr t.mem s >>= fun str ↦ pure (hashstr t str))
    unfold hashstr DlTable.sizenode
    rw [hm, hs]

/-- A key with a main position is not nil. -/
theorem key_ne_nil (h : mainPos t key = .ok p) : key ≠ .nil := by
  rintro rfl
  cases h

theorem ChainAt.congr (h : ChainAt t L) (hm : t'.mem = t.mem) (hs : t'.lsizenode = t.lsizenode) :
    ChainAt t' L := by
  obtain ⟨i, L', hL, hmain⟩ := h
  exact ⟨i, L', hL, fun j hj ↦ (mainPos_congr hm hs _).trans (hmain j hj)⟩

/-! ## Nodes -/

namespace Layout

/-- Every node is in a chain or free. -/
theorem cases (h : Layout t n C F) (hp : p < t.sizenode) :
    (∃ v F', F = (p, v) ::ₘ F') ∨
      ∃ L₁ j L₂ C', C = (L₁ ++ j :: L₂) ::ₘ C' ∧ j.addr = p := by
  have hmem : p ∈ (nodeCells C F).map Prod.fst := by
    rw [h.addrs, Multiset.mem_range]
    exact hp
  obtain ⟨e, he, rfl⟩ := Multiset.mem_map.mp hmem
  rcases Multiset.mem_add.mp he with he | he
  · obtain ⟨L, hL, he⟩ := Multiset.mem_bind.mp he
    obtain ⟨j, hj, ha⟩ := exists_of_mem_chainCells he
    obtain ⟨L₁, L₂, rfl⟩ := List.append_of_mem hj
    obtain ⟨C', rfl⟩ := Multiset.exists_cons_of_mem hL
    exact .inr ⟨L₁, j, L₂, C', rfl, ha⟩
  · obtain ⟨f, hf, rfl⟩ := Multiset.mem_map.mp he
    obtain ⟨F', rfl⟩ := Multiset.exists_cons_of_mem hf
    exact .inl ⟨f.2, F', rfl⟩

/-- A node that is free is at no address of another one. -/
theorem holds_free {f : Nat × Int} (h : Layout t n C (f ::ₘ F)) :
    Holds n (cell f.1 (freeNode f.2) + nodeCells C F) :=
  h.holds.of_eq (nodeCells_cons_free _ _ _)

/-- One of the chains. -/
theorem holds_chain (h : Layout t n (L ::ₘ C) F) : Holds n (chainCells none L + nodeCells C F) :=
  h.holds.of_eq (nodeCells_cons _ _ _)

/-- A node of one of the chains. -/
theorem load {L₁ L₂ : List Item} {j : Item} (hn : t.node = .nodes n)
    (h : Layout t n ((L₁ ++ j :: L₂) ::ₘ C) F) :
    loadNode t j.addr = .ok (j.node (firstItem none L₂)) := by
  have hm := h.holds_chain
  rw [chainCells_middle, add_assoc] at hm
  exact loadNode_eq hn hm

/-- The node is one of those of the table. -/
theorem addr_lt {L₁ L₂ : List Item} {j : Item} (h : Layout t n ((L₁ ++ j :: L₂) ::ₘ C) F) :
    j.addr < t.sizenode := by
  rw [← Multiset.mem_range, ← h.addrs, nodeCells_cons, chainCells_middle, add_assoc]
  exact Multiset.mem_map_of_mem Prod.fst Holds.mem_cell

/-- A chain begins at the main position of its keys. -/
theorem head (h : Layout t n (L ::ₘ C) F) : ChainAt t L := h.chain L (Multiset.mem_cons_self _ _)

/-- The chain of a node. -/
theorem chain_eq {L₁ L₂ : List Item} {j : Item} (h : Layout t n ((L₁ ++ j :: L₂) ::ₘ C) F) :
    (L₁ = [] ∧ mainPos t j.key = .ok j.addr) ∨
      ∃ i L₁', L₁ = i :: L₁' ∧ mainPos t j.key = .ok i.addr ∧ i.addr ≠ j.addr := by
  obtain ⟨i, L', hL, hmain⟩ := h.head
  have hj := hmain j (by simp)
  cases L₁ with
  | nil =>
    obtain ⟨rfl, -⟩ := List.cons.inj hL
    exact .inl ⟨rfl, hj⟩
  | cons x L₁ =>
    obtain ⟨rfl, -⟩ := List.cons.inj hL
    refine .inr ⟨x, L₁, rfl, hj, ?_⟩
    have hm := h.holds_chain
    rw [List.cons_append, chainCells, add_assoc] at hm
    obtain ⟨y, hy⟩ := exists_mem_chainCells (L := L₁ ++ j :: L₂) (q := none) (j := j) (by simp)
    exact (hm.ne (Multiset.mem_add.mpr (.inl hy))).symm

end Layout

/-! ## Arrays -/

theorem loadArray_eq {vs : List Value} {v : Value} {i : Nat} (ha : t.array = some vs)
    (hv : vs[i]? = some v) : loadArray t i = .ok v := by
  rw [loadArray, ha]
  dsimp only
  rw [hv]

theorem getElem?_of_loadArray {v : Value} {i : Nat} (h : loadArray t i = .ok v) :
    (t.array.getD [])[i]? = some v := by
  unfold loadArray at h
  cases ha : t.array with
  | none =>
    rw [ha] at h
    cases h
  | some vs =>
    rw [ha] at h
    dsimp only at h
    rw [Option.getD_some]
    cases hvs : vs[i]? with
    | none =>
      rw [hvs] at h
      cases h
    | some w =>
      rw [hvs] at h
      rw [Except.ok.inj h]

/-- A cell of the array can be read and written on its own. -/
theorem array_focus (h : ArrayOk t) {i : Nat} (hi : InArray t i) :
    ∃ vs v R, t.array = some vs ∧ vs[i]? = some v ∧ loadArray t i = .ok v ∧ v.tt ≠ .null ∧
      arrayEntries t = cellEntry i (some v) + R ∧
      ∀ x : Value, writeVal t (.array i) x = .ok { t with array := some (vs.set i x) } ∧
        (x.tt ≠ .null → ArrayOk { t with array := some (vs.set i x) }) ∧
        arrayEntries { t with array := some (vs.set i x) } = cellEntry i (some x) + R := by
  obtain ⟨hlt, -⟩ := hi
  obtain ⟨vs, ha, hlen, htags⟩ := h (by omega)
  have hi' : i < vs.length := by omega
  have hv : vs[i]? = some vs[i] := List.getElem?_eq_getElem hi'
  have hmem : i ∈ Finset.range t.sizearray.toNat := Finset.mem_range.mpr (by omega)
  refine ⟨vs, vs[i], ∑ j ∈ (Finset.range t.sizearray.toNat).erase i, cellEntry j vs[j]?, ha, hv,
    loadArray_eq ha hv, htags _ (List.getElem_mem hi'), ?_, fun x ↦ ⟨?_, fun hx _ ↦ ?_, ?_⟩⟩
  · rw [arrayEntries, ← Finset.add_sum_erase _ _ hmem, ha, Option.getD_some, hv]
  · rw [writeVal, ha]
    exact if_pos hi'
  · refine ⟨_, rfl, by rwa [List.length_set], fun v hv ↦ ?_⟩
    rcases List.mem_or_eq_of_mem_set hv with hv | rfl
    · exact htags v hv
    · exact hx
  · rw [arrayEntries]
    dsimp only
    rw [← Finset.add_sum_erase _ _ hmem, Option.getD_some, List.getElem?_set_self hi']
    refine congrArg _ (Finset.sum_congr rfl fun j hj ↦ ?_)
    rw [List.getElem?_set_ne (Finset.ne_of_mem_erase hj).symm]

theorem cellEntry_used {i : Nat} {v : Value} (hv : v.Used) : cellEntry i (some v) = {(.int i, v)} :=
  if_neg hv.1

theorem cellEntry_nil {i : Nat} {v : Value} (hv : v.tt = .nil) : cellEntry i (some v) = 0 :=
  if_pos hv

/-- The entries of the array depend on the array only. -/
theorem arrayEntries_congr (ha : t'.array = t.array) (hs : t'.sizearray = t.sizearray) :
    arrayEntries t' = arrayEntries t := by
  rw [arrayEntries, arrayEntries, ha, hs]

end Dlbase.Table
