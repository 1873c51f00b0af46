import Dlbase.Hash.Nodes
import Dlbase.Hash.Entries

/-!
# Chains of nodes in memory

What a slot contributes to the memory: the nodes of its chain, their keys and their values.  The
first node of a chain is at the address of the slot; an empty slot keeps a node without a value.

A key is only told apart from another one if their hashes differ or neither is a prefix of the
other: `memcmp` compares as many characters as the key that is looked for has.
-/

namespace Dlbase.Hash

open Cmem

variable {V G : Type} (val : G → V) (own : G → Cells (Obj V))

/-- A node with its key and its values; each further value comes with its address. -/
structure Item (G : Type) where
  /-- Where the node is. -/
  addr : Nat
  /-- Where the key is. -/
  kp : Nat
  /-- The key. -/
  key : List UInt8
  /-- The first value. -/
  first : G
  /-- The further values. -/
  rest : List (Nat × G)

/-- The pointer to the first of the further values. -/
def firstValue (l : List (Nat × G)) : Option Nat := l.head?.map Prod.fst

/-- The pointer to the first node, which is `q` if there is none. -/
def firstNode (q : Option Nat) : List (Item G) → Option Nat
  | [] => q
  | i :: _ => some i.addr

/-- The memory of further values. -/
def valuesCells : List (Nat × G) → Cells (Obj V)
  | [] => 0
  | (a, g) :: l => cell a (.value ⟨some (val g), firstValue l⟩) + own g + valuesCells l

/-- The node. -/
def Item.node (i : Item G) (next : Option Nat) : Node V :=
  ⟨⟨some (val i.first), firstValue i.rest⟩, some i.kp, hashKey i.key, next⟩

/-- The memory of a node, without the node itself. -/
def Item.owned (i : Item G) : Cells (Obj V) :=
  cell i.kp (.str i.key) + own i.first + valuesCells val own i.rest

/-- The memory of a part of a chain, with the pointer `q` at its end. -/
def chainCells (q : Option Nat) : List (Item G) → Cells (Obj V)
  | [] => 0
  | i :: L => cell i.addr (.node (i.node val (firstNode q L))) + i.owned val own + chainCells q L

/-- A slot: the nodes of its chain, and the node that is there if the chain is empty. -/
structure Slot (V G : Type) where
  /-- What is left in an empty slot. -/
  stale : Node V
  /-- The chain. -/
  items : List (Item G)

/-- The memory of the slot at `a`. -/
def Slot.cells (a : Nat) (s : Slot V G) : Cells (Obj V) :=
  match s.items with
  | [] => cell a (.node s.stale)
  | _ :: _ => chainCells val own none s.items

/-- The slot at `a` is marked as empty if it is, and otherwise its first node is at `a`. -/
def Slot.Ok (a : Nat) (s : Slot V G) : Prop :=
  match s.items with
  | [] => s.stale.v.v = none
  | i :: _ => i.addr = a

/-! ## Keys -/

/-- The keys are equal, or they have different hashes, or neither begins with the other. -/
def Separate (s t : List UInt8) : Prop := hashKey s = hashKey t → (s <+: t ∨ t <+: s) → s = t

/-- The key is told apart from every key in the list that comes before it. -/
def Clear (key : List UInt8) : List (List UInt8) → Prop
  | [] => True
  | s :: keys => Separate s key ∧ (s ≠ key → Clear key keys)

theorem clear_of_forall {key : List UInt8} {keys : List (List UInt8)}
    (h : ∀ s ∈ keys, Separate s key) : Clear key keys := by
  induction keys with
  | nil => trivial
  | cons s keys ih =>
    exact ⟨h s List.mem_cons_self, fun _ ↦ ih fun t ht ↦ h t (List.mem_cons_of_mem _ ht)⟩

theorem memcmpEq_eq {s t : List UInt8} (h : s <+: t ∨ t <+: s → s = t) :
    memcmpEq s t = .ok (decide (s = t)) := by
  induction s generalizing t with
  | nil =>
    cases t with
    | nil => rfl
    | cons d t => exact absurd (h (.inl List.nil_prefix)) nofun
  | cons c s ih =>
    cases t with
    | nil => exact absurd (h (.inr List.nil_prefix)) nofun
    | cons d t =>
      rw [memcmpEq]
      split_ifs with hc
      · subst hc
        have hst : s <+: t ∨ t <+: s → s = t := fun hp ↦ by
          have heq := h (hp.imp (List.cons_prefix_cons.mpr ⟨rfl, ·⟩)
            (List.cons_prefix_cons.mpr ⟨rfl, ·⟩))
          exact (List.cons.inj heq).2
        rw [ih hst]
        simp
      · have hne : c :: s ≠ d :: t := fun heq ↦ hc (List.cons.inj heq).1
        rw [decide_eq_false hne]

/-! ## Reading -/

variable {val own} {m : Mem V} {H : Cells (Obj V)} {a : Nat}

theorem loadNode_eq {n : Node V} (h : Holds m (cell a (.node n) + H)) :
    loadNode m (some a) = .ok n := by
  rw [loadNode, h.get_eq Holds.mem_cell]
  rfl

theorem loadValue_eq {v : VNode V} (h : Holds m (cell a (.value v) + H)) :
    loadValue m (some a) = .ok v := by
  rw [loadValue, h.get_eq Holds.mem_cell]
  rfl

theorem loadStr_eq {s : List UInt8} (h : Holds m (cell a (.str s) + H)) :
    loadStr m (some a) = .ok s := by
  rw [loadStr, h.get_eq Holds.mem_cell]
  rfl

theorem sameKey_eq {i : Item G} {next : Option Nat} {key : List UInt8}
    (h : Holds m (cell i.kp (.str i.key) + H)) (hsep : Separate i.key key) :
    sameKey m (i.node val next) (hashKey key) key = .ok (decide (i.key = key)) := by
  change (if hashKey i.key = hashKey key then loadStr m (some i.kp) >>= _ else _) = _
  by_cases hh : hashKey i.key = hashKey key
  · rw [if_pos hh, loadStr_eq h, Exec.ok_bind, memcmpEq_eq (hsep hh)]
  · have hne : i.key ≠ key := fun he ↦ hh (congrArg hashKey he)
    rw [if_neg hh, decide_eq_false hne]
    rfl

theorem firstNode_append (q : Option Nat) (L L' : List (Item G)) :
    firstNode q (L ++ L') = firstNode (firstNode q L') L := by
  cases L <;> rfl

theorem chainCells_append (q : Option Nat) (L L' : List (Item G)) :
    chainCells val own q (L ++ L') =
      chainCells val own (firstNode q L') L + chainCells val own q L' := by
  induction L with
  | nil => exact (Multiset.zero_add _).symm
  | cons i L ih =>
    rw [List.cons_append, chainCells, chainCells, ih, firstNode_append, add_assoc, add_assoc,
      add_assoc]

/-- One of the nodes. -/
theorem chainCells_middle (q : Option Nat) (L L' : List (Item G)) (i : Item G) :
    chainCells val own q (L ++ i :: L') = cell i.addr (.node (i.node val (firstNode q L'))) +
      (i.owned val own + chainCells val own (some i.addr) L + chainCells val own q L') := by
  rw [chainCells_append, chainCells]
  change chainCells val own (some i.addr) L + _ = _
  abel

/-- The loop finds the key if it is there. -/
theorem search_eq {key : List UInt8} {L : List (Item G)} {fuel : Nat}
    (h : Holds m (chainCells val own none L + H)) (hc : Clear key (L.map Item.key))
    (hfuel : L.length < fuel) : search m (hashKey key) key fuel (firstNode none L) =
      .ok ((L.find? (·.key = key)).map Item.addr) := by
  induction L generalizing H fuel with
  | nil =>
    cases fuel with
    | zero => cases hfuel
    | succ fuel => rfl
  | cons i L ih =>
    cases fuel with
    | zero => cases hfuel
    | succ fuel =>
      obtain ⟨hsep, hc⟩ := hc
      have hnode : Holds m (cell i.addr (.node (i.node val (firstNode none L))) +
          (i.owned val own + chainCells val own none L + H)) := h.of_eq (by rw [chainCells]; abel)
      have hkey : Holds m (cell i.kp (.str i.key) + (own i.first + valuesCells val own i.rest +
          (cell i.addr (.node (i.node val (firstNode none L))) + chainCells val own none L + H))) :=
        h.of_eq (by rw [chainCells, Item.owned]; abel)
      have hrest : Holds m (chainCells val own none L +
          (cell i.addr (.node (i.node val (firstNode none L))) + i.owned val own + H)) :=
        h.of_eq (by rw [chainCells]; abel)
      change search m (hashKey key) key (fuel + 1) (some i.addr) = _
      rw [search, loadNode_eq hnode, Exec.ok_bind, sameKey_eq hkey hsep, Exec.ok_bind]
      by_cases hk : i.key = key
      · rw [if_pos (decide_eq_true hk), List.find?_cons_of_pos (by simpa using hk)]
        rfl
      · rw [if_neg (by simpa using hk), List.find?_cons_of_neg (by simpa using hk)]
        exact ih hrest (hc hk) (Nat.lt_of_succ_lt_succ hfuel)

/-- Whatever the loop finds is a node of the chain. -/
theorem search_mem {key : List UInt8} {L : List (Item G)} {fuel n : Nat}
    (h : Holds m (chainCells val own none L + H))
    (hs : search m (hashKey key) key fuel (firstNode none L) = .ok (some n)) :
    ∃ L₁ j L₂, L = L₁ ++ j :: L₂ ∧ j.addr = n := by
  induction L generalizing H fuel with
  | nil => cases fuel <;> cases hs
  | cons i L ih =>
    cases fuel with
    | zero => cases hs
    | succ fuel =>
      have hnode : Holds m (cell i.addr (.node (i.node val (firstNode none L))) +
          (i.owned val own + chainCells val own none L + H)) := h.of_eq (by rw [chainCells]; abel)
      have hrest : Holds m (chainCells val own none L +
          (cell i.addr (.node (i.node val (firstNode none L))) + i.owned val own + H)) :=
        h.of_eq (by rw [chainCells]; abel)
      change search m (hashKey key) key (fuel + 1) (some i.addr) = _ at hs
      rw [search, loadNode_eq hnode, Exec.ok_bind] at hs
      obtain ⟨same, -, hs⟩ := Exec.bind_eq_ok.mp hs
      cases same with
      | true => exact ⟨[], i, L, rfl, Option.some.inj (Except.ok.inj hs)⟩
      | false =>
        obtain ⟨L₁, j, L₂, rfl, hj⟩ := ih hrest hs
        exact ⟨i :: L₁, j, L₂, rfl, hj⟩

/-! ## Slots -/

namespace Slot

variable {s : Slot V G}

/-- The node at the address of the slot. -/
def head (val : G → V) (s : Slot V G) : Node V :=
  match s.items with
  | [] => s.stale
  | i :: L => i.node val (firstNode none L)

/-- What else belongs to the slot. -/
def tail (val : G → V) (own : G → Cells (Obj V)) (s : Slot V G) : Cells (Obj V) :=
  match s.items with
  | [] => 0
  | i :: L => i.owned val own + chainCells val own none L

theorem Ok.cells_eq (h : s.Ok a) : s.cells val own a = cell a (.node (s.head val)) + s.tail val own := by
  obtain ⟨stale, items⟩ := s
  cases items with
  | nil => exact (add_zero _).symm
  | cons i L =>
    obtain rfl : i.addr = a := h
    change chainCells val own none (i :: L) = _
    rw [chainCells, add_assoc]
    rfl

/-- The tag of the first value tells whether the slot is empty. -/
theorem Ok.head_eq_none (h : s.Ok a) : (s.head val).v.v = none ↔ s.items = [] := by
  obtain ⟨stale, items⟩ := s
  cases items with
  | nil => exact ⟨fun _ ↦ rfl, fun _ ↦ h⟩
  | cons i L => exact ⟨nofun, nofun⟩

/-- The node at the address of the slot can be read. -/
theorem Ok.loadNode_eq (h : s.Ok a) (hm : Holds m (s.cells val own a + H)) :
    loadNode m (some a) = .ok (s.head val) := by
  rw [h.cells_eq, add_assoc] at hm
  exact Hash.loadNode_eq hm

/-- The chain of a slot that is not empty. -/
theorem cells_eq_chainCells (hs : s.items ≠ []) :
    s.cells val own a = chainCells val own none s.items := by
  obtain ⟨stale, items⟩ := s
  cases items with
  | nil => exact absurd rfl hs
  | cons i L => rfl

/-- The chain of a slot that is not empty begins at the slot. -/
theorem Ok.firstNode_eq (h : s.Ok a) (hs : s.items ≠ []) : firstNode none s.items = some a := by
  obtain ⟨stale, items⟩ := s
  cases items with
  | nil => exact absurd rfl hs
  | cons i L => exact congrArg some h

/-- The key is looked for in a slot that is not empty. -/
theorem Ok.search_eq {key : List UInt8} {fuel : Nat} (h : s.Ok a) (hs : s.items ≠ [])
    (hm : Holds m (s.cells val own a + H)) (hc : Clear key (s.items.map Item.key))
    (hf : s.items.length < fuel) : search m (hashKey key) key fuel (some a) =
      .ok ((s.items.find? (·.key = key)).map Item.addr) := by
  rw [cells_eq_chainCells hs] at hm
  rw [← h.firstNode_eq hs]
  exact Hash.search_eq hm hc hf

/-- Whatever is found in a slot is one of its nodes. -/
theorem Ok.search_mem {key : List UInt8} {fuel n : Nat} (h : s.Ok a) (hs : s.items ≠ [])
    (hm : Holds m (s.cells val own a + H))
    (hn : search m (hashKey key) key fuel (some a) = .ok (some n)) :
    ∃ L₁ j L₂, s.items = L₁ ++ j :: L₂ ∧ j.addr = n := by
  rw [cells_eq_chainCells hs] at hm
  rw [← h.firstNode_eq hs] at hn
  exact Hash.search_mem hm hn

/-- One of the nodes is replaced. -/
theorem Ok.replace {L₁ L₂ : List (Item G)} {i j : Item G} {stale : Node V} (h : s.Ok a)
    (hs : s.items = L₁ ++ i :: L₂) (hj : j.addr = i.addr) : Slot.Ok a ⟨stale, L₁ ++ j :: L₂⟩ := by
  obtain ⟨stale', items⟩ := s
  obtain rfl : items = L₁ ++ i :: L₂ := hs
  cases L₁ with
  | nil => exact hj.trans h
  | cons x L₁ => exact h

/-- A slot with one node. -/
theorem cells_singleton (stale : Node V) (i : Item G) (a : Nat) : Slot.cells val own a ⟨stale, [i]⟩ =
    cell i.addr (.node (i.node val none)) + i.owned val own :=
  add_zero _

/-- A slot with a new node at the second place. -/
theorem cells_insert (stale : Node V) (i j : Item G) (L : List (Item G)) (a : Nat) :
    Slot.cells val own a ⟨stale, i :: j :: L⟩ =
      cell i.addr (.node { i.node val (firstNode none L) with next := some j.addr }) +
        (cell j.addr (.node (j.node val (firstNode none L))) + j.owned val own +
          (i.owned val own + chainCells val own none L)) := by
  have hnode : i.node val (firstNode none (j :: L)) =
      { i.node val (firstNode none L) with next := some j.addr } := rfl
  change chainCells val own none (i :: j :: L) = _
  rw [chainCells, chainCells, hnode]
  abel

end Slot

/-! ## Entries -/

variable {X : Type} {abs : G → X} {key : List UInt8}

/-- The key of a node and its values. -/
def Item.entry (abs : G → X) (i : Item G) : Entry (List UInt8) X :=
  (i.key, abs i.first :: i.rest.map fun e ↦ abs e.2)

/-- The keys of a slot and their values. -/
def entries (abs : G → X) (L : List (Item G)) : List (Entry (List UInt8) X) := L.map (Item.entry abs)

theorem entries_middle (L₁ L₂ : List (Item G)) (i : Item G) :
    entries abs (L₁ ++ i :: L₂) = entries abs L₁ ++ i.entry abs :: entries abs L₂ :=
  List.map_append

theorem keys_entries (L : List (Item G)) : (entries abs L).map Prod.fst = L.map Item.key := by
  rw [entries, List.map_map]
  rfl

theorem entries_ne_nil {L : List (Item G)} : ∀ e ∈ entries abs L, e.2 ≠ [] := by
  intro e he
  obtain ⟨j, -, rfl⟩ := List.mem_map.mp he
  exact List.cons_ne_nil _ _

theorem find?_eq_none_iff {L : List (Item G)} :
    L.find? (·.key = key) = none ↔ key ∉ (entries abs L).map Prod.fst := by
  rw [List.find?_eq_none, keys_entries, List.mem_map]
  simp

/-- The node of a key in its chain. -/
theorem find?_eq_some {L : List (Item G)} {j : Item G} (h : L.find? (·.key = key) = some j) :
    ∃ L₁ L₂, L = L₁ ++ j :: L₂ ∧ j.key = key ∧ ∀ i ∈ L₁, i.key ≠ key := by
  obtain ⟨hj, L₁, L₂, rfl, hL₁⟩ := List.find?_eq_some_iff_append.mp h
  have hkey : j.key = key := by simpa using hj
  exact ⟨L₁, L₂, rfl, hkey, fun i hi ↦ by simpa using hL₁ i hi⟩

theorem mem_keys_of_find? {L : List (Item G)} {j : Item G} (h : L.find? (·.key = key) = some j) :
    key ∈ (entries abs L).map Prod.fst := by
  by_contra hn
  rw [find?_eq_none_iff.mpr hn] at h
  cases h

theorem update_entries {L₁ L₂ : List (Item G)} {j : Item G} (hj : j.key = key)
    (hL : ∀ i ∈ L₁, i.key ≠ key) (f : List X → List X) :
    update key f (entries abs (L₁ ++ j :: L₂)) =
      entries abs L₁ ++ (key, f (j.entry abs).2) :: entries abs L₂ := by
  induction L₁ with
  | nil =>
    change (if j.key = key then (j.key, _) :: _ else _) = _
    rw [if_pos hj, hj]
    rfl
  | cons i L₁ ih =>
    change (if i.key = key then _ else i.entry abs :: update key f (entries abs (L₁ ++ j :: L₂))) = _
    rw [if_neg (hL i List.mem_cons_self), ih fun x hx ↦ hL x (List.mem_cons_of_mem _ hx)]
    rfl

theorem erase_entries {L₁ L₂ : List (Item G)} {j : Item G} (hj : j.key = key)
    (hL : ∀ i ∈ L₁, i.key ≠ key) :
    erase key (entries abs (L₁ ++ j :: L₂)) = entries abs (L₁ ++ L₂) := by
  induction L₁ with
  | nil => exact if_pos hj
  | cons i L₁ ih =>
    change (if i.key = key then _ else i.entry abs :: erase key (entries abs (L₁ ++ j :: L₂))) = _
    rw [if_neg (hL i List.mem_cons_self), ih fun x hx ↦ hL x (List.mem_cons_of_mem _ hx)]
    rfl

end Dlbase.Hash
