import Mathlib

/-!
# AVL balance

The height discipline of an AVL tree: the heights of the two children of every node differ
by at most one.  `TiltLeft` and `TiltRight` tell which child is the higher one, which is what
a rotation at the node above depends on.
-/

namespace Cmem

open BinaryTree

variable {α : Type _}

/-- The heights of the two children of every node differ by at most one. -/
def Avl : BinaryTree α → Prop
  | .nil => True
  | .node _ l r => l.height ≤ r.height + 1 ∧ r.height ≤ l.height + 1 ∧ Avl l ∧ Avl r

/-- The left child is the higher one. -/
def TiltLeft : BinaryTree α → Prop
  | .nil => False
  | .node _ l r => r.height < l.height

/-- The right child is the higher one. -/
def TiltRight : BinaryTree α → Prop
  | .nil => False
  | .node _ l r => l.height < r.height

instance TiltLeft.decidable : DecidablePred (TiltLeft (α := α))
  | .nil => inferInstanceAs (Decidable False)
  | .node _ l r => inferInstanceAs (Decidable (r.height < l.height))

instance TiltRight.decidable : DecidablePred (TiltRight (α := α))
  | .nil => inferInstanceAs (Decidable False)
  | .node _ l r => inferInstanceAs (Decidable (l.height < r.height))

variable {v : α} {l r t : BinaryTree α}

@[simp] theorem avl_nil : Avl (.nil : BinaryTree α) := trivial

@[simp] theorem avl_node : Avl (.node v l r) ↔
    l.height ≤ r.height + 1 ∧ r.height ≤ l.height + 1 ∧ Avl l ∧ Avl r := by rw [Avl]

@[simp] theorem tiltLeft_node : TiltLeft (.node v l r) ↔ r.height < l.height := by rw [TiltLeft]

@[simp] theorem tiltRight_node : TiltRight (.node v l r) ↔ l.height < r.height := by rw [TiltRight]

theorem height_node (v : α) (l r : BinaryTree α) :
    (BinaryTree.node v l r).height = max l.height r.height + 1 := rfl

@[simp] theorem height_eq_zero : t.height = 0 ↔ t = .nil := by
  cases t <;> simp [BinaryTree.height]

/-- An AVL tree that is not very low has more nodes than its height. -/
theorem Avl.height_lt_numNodes (h : Avl t) (ht : 3 ≤ t.height) : t.height < t.numNodes := by
  induction t with
  | nil => simp at ht
  | node v l r ihl ihr =>
    obtain ⟨hlr, hrl, hl, hr⟩ := h
    have hnl := l.height_le_numNodes
    have hnr := r.height_le_numNodes
    rw [height_node] at ht ⊢
    rw [BinaryTree.numNodes]
    rcases Nat.le_total l.height r.height with hle | hle
    · rw [Nat.max_eq_right hle] at ht ⊢
      by_cases h3 : 3 ≤ r.height
      · have := ihr hr h3
        omega
      · omega
    · rw [Nat.max_eq_left hle] at ht ⊢
      by_cases h3 : 3 ≤ l.height
      · have := ihl hl h3
        omega
      · omega

end Cmem
