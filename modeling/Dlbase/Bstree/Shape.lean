import Dlbase.Lib.Avl
import Dlbase.Bstree.Model

/-!
# The trees of AVL nodes

A `Shape` is the tree a memory holds, with the stored heights.  The rotations and the two ways
of rebalancing are mirrored on shapes, as the code computes them from the stored heights;
`none` stands for the dereference of a null child.  That the memory follows these
functions is proved in the modules on links, insertion and deletion; here it is shown what
they do to the heights of an AVL tree.
-/

namespace Dlbase.Bstree

open Cmem BinaryTree

/-- A tree of nodes, as held in memory. -/
abbrev Shape := BinaryTree (Addr × Data)

/-- The identity of a node: its address and its key. -/
abbrev ident (v : Addr × Data) : Addr × Int := (v.1, v.2.key)

/-- The in-order sequence of a tree, heights apart. -/
def idents (t : Shape) : List (Addr × Int) := (inorder t).map ident

@[simp] theorem idents_nil : idents .nil = [] := rfl

@[simp] theorem idents_node (v : Addr × Data) (l r : Shape) :
    idents (.node v l r) = idents l ++ ident v :: idents r := by simp [idents]

theorem addrs_eq_idents (t : Shape) : addrs t = (idents t).map Prod.fst := by
  simp [addrs, idents, Function.comp_def]

theorem mem_addrs_of_idents {t t' : Shape} (h : idents t' = idents t) {a : Addr} :
    a ∈ addrs t' ↔ a ∈ addrs t := by
  rw [addrs_eq_idents, addrs_eq_idents, h]

/-- The keys increase from left to right. -/
def Ordered (t : Shape) : Prop := (idents t).Pairwise fun a b ↦ a.2 < b.2

/-- The stored heights are the real ones. -/
def Exact : Shape → Prop
  | .nil => True
  | .node v l r => v.2.height = max l.height r.height + 1 ∧ Exact l ∧ Exact r

@[simp] theorem exact_nil : Exact .nil := trivial

@[simp] theorem exact_node {v : Addr × Data} {l r : Shape} : Exact (.node v l r) ↔
    v.2.height = max l.height r.height + 1 ∧ Exact l ∧ Exact r := by rw [Exact]

/-- `dl_bst_height` of the root. -/
def storedHeight : Shape → Nat
  | .nil => 0
  | .node v _ _ => v.2.height

/-- `dl_bst_get_balance` of the root. -/
def storedBalance : Shape → Nat
  | .nil => 0
  | .node _ l r => subWord (storedHeight l) (storedHeight r)

theorem Exact.storedHeight {t : Shape} (h : Exact t) : storedHeight t = t.height := by
  cases t with
  | nil => rfl
  | node v l r => exact h.1

/-- The height of the root is computed anew. -/
def raise : Shape → Shape
  | .nil => .nil
  | .node v l r =>
    .node (v.1, ⟨v.2.key, word (1 + max (storedHeight l) (storedHeight r))⟩) l r

@[simp] theorem idents_raise (t : Shape) : idents (raise t) = idents t := by
  cases t <;> simp [raise]

@[simp] theorem height_raise (t : Shape) : (raise t).height = t.height := by cases t <;> rfl

@[simp] theorem avl_raise {t : Shape} : Avl (raise t) ↔ Avl t := by cases t <;> simp [raise]

@[simp] theorem height_node_raise (v : Addr × Data) (l r : Shape) :
    (raise (.node v l r)).height = max l.height r.height + 1 := rfl

theorem exact_raise {v : Addr × Data} {l r : Shape} (hl : Exact l) (hr : Exact r)
    (hb : max l.height r.height + 1 < 2 ^ 64) : Exact (raise (.node v l r)) := by
  refine ⟨?_, hl, hr⟩
  simp only [hl.storedHeight, hr.storedHeight, word]
  omega

/-! ## Rotations -/

/-- The node at the root goes down to the left; `none` if it has no right child. -/
def rotL : Shape → Option Shape
  | .node v a (.node x b c) => some (raise (.node x (raise (.node v a b)) c))
  | _ => none

/-- The node at the root goes down to the right; `none` if it has no left child. -/
def rotR : Shape → Option Shape
  | .node v (.node x a b) c => some (raise (.node x a (raise (.node v b c))))
  | _ => none

theorem rotL_node {v x : Addr × Data} {a b c : Shape} : rotL (.node v a (.node x b c)) =
    some (raise (.node x (raise (.node v a b)) c)) := rfl

theorem rotR_node {v x : Addr × Data} {a b c : Shape} : rotR (.node v (.node x a b) c) =
    some (raise (.node x a (raise (.node v b c)))) := rfl

theorem idents_rotL {t t' : Shape} (h : rotL t = some t') : idents t' = idents t := by
  unfold rotL at h
  split at h
  · cases h
    simp
  · cases h

theorem idents_rotR {t t' : Shape} (h : rotR t = some t') : idents t' = idents t := by
  unfold rotR at h
  split at h
  · cases h
    simp
  · cases h

/-! ## Differences of heights -/

theorem toInt_subWord {n m : Nat} (hm : m < 2 ^ 64) (h : n < m + 2 ^ 31) (h' : m ≤ n + 2 ^ 31) :
    toInt (subWord n m) = (n : Int) - m := by
  simp only [toInt, subWord]
  split_ifs <;> omega

theorem balance_eq {l r : Shape} (hl : Exact l) (hr : Exact r) (h : l.height ≤ r.height + 2)
    (h' : r.height ≤ l.height + 2) (hb : max l.height r.height < 2 ^ 64) :
    toInt (subWord (storedHeight l) (storedHeight r)) = (l.height : Int) - r.height := by
  rw [hl.storedHeight, hr.storedHeight]
  exact toInt_subWord (by omega) (by omega) (by omega)

theorem subWord_eq_zero {n m : Nat} (hn : n < 2 ^ 64) (hm : m < 2 ^ 64) :
    subWord n m = 0 ↔ n = m := by
  simp only [subWord]
  omega

/-! ## Sizes -/

/-- There are not more nodes than addresses. -/
theorem numNodes_le {t : Shape} (hnd : (addrs t).Nodup) : t.numNodes ≤ 2 ^ 64 := by
  have hsub : ((addrs t).map UInt64.toNat).Subperm (List.range (2 ^ 64)) := by
    refine List.subperm_of_subset
      (List.pairwise_map.mpr (hnd.imp fun hab he ↦ hab (UInt64.toNat_inj.mp he))) fun n hn ↦ ?_
    obtain ⟨a, -, rfl⟩ := List.mem_map.mp hn
    exact List.mem_range.mpr a.toNat_lt
  have hle := hsub.length_le
  rwa [List.length_map, List.length_range, addrs, List.length_map, length_inorder] at hle

/-- The heights of an AVL tree can be stored. -/
theorem height_lt {t : Shape} (ha : Avl t) (hnd : (addrs t).Nodup) : t.height < 2 ^ 64 := by
  have hle := numNodes_le hnd
  by_cases h3 : 3 ≤ t.height
  · have := ha.height_lt_numNodes h3
    omega
  · omega

end Dlbase.Bstree
