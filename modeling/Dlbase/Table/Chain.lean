import Dlbase.Lib.Objects
import Dlbase.Table.Model

/-!
# Chains in the node part

What the chains and the free nodes contribute to the memory of the node part, and what the loops
over chains find there.
-/

namespace Dlbase.Table

open Cmem

/-- A node that is in use. -/
structure Item where
  /-- Its index. -/
  addr : Nat
  /-- The key. -/
  key : Key
  /-- The value. -/
  val : Value

/-- The node in memory. -/
def Item.node (i : Item) (next : Option Nat) : Node := ⟨i.val, i.key, next⟩

/-- The key with the value. -/
def Item.entry (i : Item) : Key × Value := (i.key, i.val)

/-- The pointer to the first node, which is `q` if there is none. -/
def firstItem (q : Option Nat) : List Item → Option Nat
  | [] => q
  | i :: _ => some i.addr

/-- The memory of a part of a chain, with the pointer `q` at its end. -/
def chainCells (q : Option Nat) : List Item → Cells Node
  | [] => 0
  | i :: L => cell i.addr (i.node (firstItem q L)) + chainCells q L

/-- A free node; the bits of its value are of no concern. -/
def freeNode (v : Int) : Node := ⟨⟨v, .nil⟩, .nil, none⟩

/-- What a loop over a chain finds. -/
def searchItems (eq : Key → Exec Bool) : List Item → Exec (Option Loc)
  | [] => .ok none
  | i :: L => do
    if ← eq i.key then pure (some (.node i.addr)) else searchItems eq L

variable {t t' : DlTable} {n : Objects Node} {H : Cells Node} {L L' : List Item} {i j : Item}
  {q : Option Nat} {fuel a : Nat} {same : Node → Exec Bool} {eq : Key → Exec Bool}

theorem firstItem_append (q : Option Nat) (L L' : List Item) :
    firstItem q (L ++ L') = firstItem (firstItem q L') L := by
  cases L <;> rfl

theorem chainCells_append (q : Option Nat) (L L' : List Item) :
    chainCells q (L ++ L') = chainCells (firstItem q L') L + chainCells q L' := by
  induction L with
  | nil => exact (Multiset.zero_add _).symm
  | cons i L ih =>
    rw [List.cons_append, chainCells, chainCells, ih, firstItem_append, add_assoc]

/-- One of the nodes. -/
theorem chainCells_middle (q : Option Nat) (L L' : List Item) (i : Item) :
    chainCells q (L ++ i :: L') = cell i.addr (i.node (firstItem q L')) +
      (chainCells (some i.addr) L + chainCells q L') := by
  rw [chainCells_append, chainCells]
  change chainCells (some i.addr) L + _ = _
  abel

/-! ## Memory -/

theorem loadNode_eq (hn : t.node = .nodes n) {x : Node} (h : Holds n (cell a x + H)) :
    loadNode t a = .ok x := by
  rw [loadNode, hn]
  exact h.get_eq Holds.mem_cell

theorem storeNode_eq (hn : t.node = .nodes n) {x : Node} (h : Holds n (cell a x + H)) (y : Node) :
    storeNode t a y = .ok { t with node := .nodes (n.set a y) } := by
  rw [storeNode, hn]
  dsimp only
  rw [h.put_eq y]
  rfl

theorem loadNode_dummy (hn : t.node = .dummy) :
    loadNode t a = if a = 0 then .ok dummynode else Exec.undef := by
  rw [loadNode, hn]
  rfl

/-- A node that is there can be written to. -/
theorem storeNode_spec (hn : t.node = .nodes n) {x : Node} (h : Holds n (cell a x + H)) (y : Node) :
    ∃ n', storeNode t a y = .ok { t with node := .nodes n' } ∧ Holds n' (cell a y + H) :=
  ⟨_, storeNode_eq hn h y, h.set y⟩

/-! ## Loops -/

theorem steady_search (t : DlTable) (same : Node → Exec Bool) (a : Nat) :
    Steady fun fuel ↦ search t same fuel a := by
  intro fuel
  induction fuel generalizing a with
  | zero => exact .timeout _
  | succ fuel ih =>
    change Exec.Extends (search t same (fuel + 1) a) (search t same (fuel + 1 + 1) a)
    rw [search, search]
    refine Exec.Extends.bind_right _ fun nd ↦ Exec.Extends.bind_right _ fun b ↦ ?_
    cases b with
    | true => exact .refl _
    | false =>
      cases nd.next with
      | none => exact .refl _
      | some j => exact ih j

theorem steady_findByIndex (t : DlTable) (index : Int) :
    Steady fun fuel ↦ findByIndex fuel t index := by
  intro fuel
  unfold findByIndex
  exact Exec.Extends.ite (.refl _) (steady_search _ _ _ fuel)

theorem steady_findByStr (t : DlTable) (str : List UInt8) :
    Steady fun fuel ↦ findByStr fuel t str := steady_search _ _ _

theorem steady_findPrev (t : DlTable) (b a : Nat) : Steady fun fuel ↦ findPrev t b fuel a := by
  intro fuel
  induction fuel generalizing a with
  | zero => exact .timeout _
  | succ fuel ih =>
    change Exec.Extends (findPrev t b (fuel + 1) a) (findPrev t b (fuel + 1 + 1) a)
    rw [findPrev, findPrev]
    refine Exec.Extends.bind_right _ fun nd ↦ Exec.Extends.ite (.refl _) ?_
    cases nd.next with
    | none => exact .refl _
    | some j => exact ih j

/-- The loops that look for a key go through the chain. -/
theorem search_eq (hn : t.node = .nodes n) (hs : ∀ x, same x = eq x.key)
    (h : Holds n (chainCells none (i :: L) + H)) (hf : (i :: L).length ≤ fuel) :
    search t same fuel i.addr = searchItems eq (i :: L) := by
  induction L generalizing i H fuel with
  | nil =>
    obtain ⟨fuel, rfl⟩ : ∃ k, fuel = k + 1 := ⟨fuel - 1, by simp at hf; omega⟩
    have hi : Holds n (cell i.addr (i.node none) + H) := h.of_eq (by simp [chainCells, firstItem])
    rw [search, loadNode_eq hn hi, Exec.ok_bind, hs]
    rfl
  | cons j L ih =>
    obtain ⟨fuel, rfl⟩ : ∃ k, fuel = k + 1 := ⟨fuel - 1, by simp at hf; omega⟩
    have hi : Holds n (cell i.addr (i.node (some j.addr)) + (chainCells none (j :: L) + H)) :=
      h.of_eq (by rw [chainCells, firstItem, add_assoc])
    have hj : Holds n (chainCells none (j :: L) + (cell i.addr (i.node (some j.addr)) + H)) :=
      hi.of_eq (add_left_comm _ _ _)
    rw [search, loadNode_eq hn hi, Exec.ok_bind, hs, searchItems]
    exact congrArg _ (funext fun b ↦ by
      cases b with
      | true => rfl
      | false => exact ih hj (Nat.le_of_succ_le_succ hf))

/-- There is nothing to be found in `_dummynode`. -/
theorem search_dummy (hn : t.node = .dummy) (hs : ∀ x, same x = eq x.key)
    (hnull : eq .null = .ok false) {o : Option Loc} (ho : search t same fuel a = .ok o) :
    o = none := by
  cases fuel with
  | zero => cases ho
  | succ fuel =>
    rw [search, loadNode_dummy hn] at ho
    split_ifs at ho
    · rw [Exec.ok_bind, hs] at ho
      change (eq .null >>= _) = _ at ho
      rw [hnull] at ho
      exact (Except.ok.inj ho).symm
    · cases ho

/-- A loop that returns has gone through the chain. -/
theorem search_ok (hn : t.node = .nodes n) (hs : ∀ x, same x = eq x.key)
    (h : Holds n (chainCells none (i :: L) + H)) {o : Option Loc}
    (ho : search t same fuel i.addr = .ok o) : searchItems eq (i :: L) = .ok o := by
  have hmore := (steady_search t same i.addr).le (Nat.le_max_left fuel (i :: L).length)
  rw [← search_eq hn hs h (Nat.le_max_right fuel _)]
  exact hmore.eq_ok ho

theorem searchItems_some {l : Loc} (h : searchItems eq L = .ok (some l)) :
    ∃ L₁ j L₂, L = L₁ ++ j :: L₂ ∧ l = .node j.addr ∧ eq j.key = .ok true ∧
      ∀ i ∈ L₁, eq i.key = .ok false := by
  induction L with
  | nil => cases h
  | cons i L ih =>
    obtain ⟨b, hb, h⟩ := Exec.bind_eq_ok.mp h
    cases b with
    | true =>
      obtain rfl := Option.some.inj (Except.ok.inj h)
      exact ⟨[], i, L, rfl, rfl, hb, nofun⟩
    | false =>
      obtain ⟨L₁, j, L₂, rfl, hl, hj, hL₁⟩ := ih h
      exact ⟨i :: L₁, j, L₂, rfl, hl, hj, List.forall_mem_cons.mpr ⟨hb, hL₁⟩⟩

theorem searchItems_none : searchItems eq L = .ok none ↔ ∀ i ∈ L, eq i.key = .ok false := by
  induction L with
  | nil => exact ⟨fun _ ↦ nofun, fun _ ↦ rfl⟩
  | cons i L ih =>
    rw [List.forall_mem_cons, ← ih, searchItems]
    rcases heq : eq i.key with e | b
    · simp
    · cases b <;> simp

theorem searchItems_ne_timeout (h : ∀ k, eq k ≠ Exec.timeout) :
    searchItems eq L ≠ Exec.timeout := by
  induction L with
  | nil => exact nofun
  | cons i L ih =>
    intro ht
    rcases Exec.bind_eq_timeout.mp ht with ht | ⟨b, -, ht⟩
    · exact h _ ht
    · cases b with
      | true => cases ht
      | false => exact ih ht

/-- The loops that look for the node before `b` find the last node of the part of the chain that
leads there. -/
theorem findPrev_eq {p : Item} {b : Nat} {x : Node} (hn : t.node = .nodes n)
    (h : Holds n (cell b x + (chainCells (some b) (L ++ [p]) + H))) (hf : L.length < fuel)
    (ha : firstItem none (L ++ [p]) = some a) : findPrev t b fuel a = .ok p.addr := by
  induction L generalizing H fuel a with
  | nil =>
    obtain rfl := Option.some.inj ha
    obtain ⟨fuel, rfl⟩ : ∃ k, fuel = k + 1 := ⟨fuel - 1, by omega⟩
    have hp : Holds n (cell p.addr (p.node (some b)) + (cell b x + H)) := h.of_eq (by
      rw [List.nil_append, chainCells, chainCells, firstItem]
      abel)
    rw [findPrev, loadNode_eq hn hp, Exec.ok_bind]
    exact if_pos rfl
  | cons i L ih =>
    obtain rfl := Option.some.inj ha
    obtain ⟨fuel, rfl⟩ : ∃ k, fuel = k + 1 := ⟨fuel - 1, by omega⟩
    obtain ⟨y, L', hy⟩ : ∃ y L', L ++ [p] = y :: L' :=
      List.exists_cons_of_ne_nil (List.append_ne_nil_of_right_ne_nil _ (List.cons_ne_nil _ _))
    have hi : Holds n (cell i.addr (i.node (some y.addr)) +
        (cell b x + (chainCells (some b) (L ++ [p]) + H))) := h.of_eq (by
      rw [List.cons_append, chainCells, hy, firstItem]
      abel)
    have hL : Holds n (cell b x + (chainCells (some b) (L ++ [p]) +
        (cell i.addr (i.node (some y.addr)) + H))) := hi.of_eq (by abel)
    have hne : y.addr ≠ b := by
      refine hL.ne (e := (y.addr, y.node (firstItem (some b) L'))) ?_
      rw [hy, chainCells]
      simp [cell]
    rw [findPrev, loadNode_eq hn hi, Exec.ok_bind]
    simp only [Item.node, Option.some.injEq, if_neg hne]
    exact ih hL (by rw [List.length_cons] at hf; omega) (by rw [hy, firstItem])

end Dlbase.Table
