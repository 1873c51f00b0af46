import Dlbase.Lib.RedBlack
import Dlbase.Rbtree.Model

/-!
# The trees of red-black nodes

A `Shape` is the tree a state holds: every node with its address, key and colour.  What
insertion and deletion preserve is said about shapes: the in-order sequence of nodes with
their keys (`idents`), its order, and the colour discipline at `IsRed`.
-/

namespace Dlbase.Rbtree

open Cmem BinaryTree

/-- A tree of nodes, as held in memory. -/
abbrev Shape := BinaryTree (Addr × Data)

/-- The frames above a node of a `Shape`. -/
abbrev Path := Ctx (Addr × Data)

/-- The colour of the root of a subtree; the empty subtree is the black sentinel. -/
def rootColor : Shape → Color
  | .nil => .black
  | .node v _ _ => v.2.color

@[simp] theorem rootColor_nil : rootColor .nil = .black := rfl

@[simp] theorem rootColor_node (v : Addr × Data) (l r : Shape) :
    rootColor (.node v l r) = v.2.color := rfl

@[simp] theorem rootColor_sideNode (d : Side) (v : Addr × Data) (x y : Shape) :
    rootColor (sideNode d v x y) = v.2.color := by cases d <;> rfl

/-- The predicate the balance theory is instantiated at. -/
abbrev IsRed (v : Addr × Data) : Prop := v.2.color = .red

/-- The identity of a node: its address and its key. -/
abbrev ident (v : Addr × Data) : Addr × Int := (v.1, v.2.key)

/-- The in-order sequence of a tree, colours apart. -/
def idents (t : Shape) : List (Addr × Int) := (inorder t).map ident

/-- The keys do not decrease from left to right. -/
def Ordered (t : Shape) : Prop := (idents t).Pairwise fun a b ↦ a.2 ≤ b.2

@[simp] theorem idents_nil : idents .nil = [] := rfl

@[simp] theorem idents_node (v : Addr × Data) (l r : Shape) :
    idents (.node v l r) = idents l ++ ident v :: idents r := by simp [idents]

theorem idents_plug (c : Path) (t : Shape) :
    idents (plug c t) = (before c).map ident ++ idents t ++ (after c).map ident := by
  simp [idents, inorder_plug]

theorem addrs_eq_idents (t : Shape) : addrs t = (idents t).map Prod.fst := by
  simp [addrs, idents, Function.comp_def]

theorem mem_addrs_of_idents {T T' : Shape} (h : idents T' = idents T) {a : Addr} :
    a ∈ addrs T' ↔ a ∈ addrs T := by
  rw [addrs_eq_idents, addrs_eq_idents, h]

theorem rootColor_eq_red_iff {t : Shape} {c : Bool} {n : Nat}
    (h : Balanced IsRed t c n) : rootColor t = .red ↔ c = true := by
  rw [← h.redRoot_iff]
  cases t <;> simp [RedRoot]

end Dlbase.Rbtree
