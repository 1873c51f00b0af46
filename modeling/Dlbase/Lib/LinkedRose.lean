import Dlbase.Lib.Exact
import Dlbase.Lib.Rose

/-!
# Linked rose trees in memory

A node of a tree is an object with links to its parent, to the siblings before and behind it, and to
the first and the last of its children.  The tree that a memory holds is a rose tree whose values
carry the addresses of the nodes; its cells are determined by the tree and by the links that lead
out of its root.
-/

namespace Cmem

open Rose

variable {δ ε : Type _}

/-- A node of a linked tree. -/
structure RoseNode (δ : Type _) where
  /-- What the node stores. -/
  data : δ
  /-- The sibling behind. -/
  next : Option Nat
  /-- The sibling before. -/
  previous : Option Nat
  /-- The node above. -/
  parent : Option Nat
  /-- The first child. -/
  child : Option Nat
  /-- The last child. -/
  childEnd : Option Nat
deriving DecidableEq, Repr

/-- A tree whose nodes are at addresses. -/
abbrev Placed (δ : Type _) := Rose (Nat × δ)

/-- The links of a node that lead out of the tree below it. -/
structure Links where
  /-- The node above. -/
  parent : Option Nat
  /-- The sibling before. -/
  previous : Option Nat
  /-- The sibling behind. -/
  next : Option Nat
deriving DecidableEq, Repr

/-- The links of a tree that is not part of another one. -/
def Links.none : Links := ⟨.none, .none, .none⟩

namespace Rose

/-- The address of the root. -/
def addr (t : Placed δ) : Nat := t.val.1

/-- The tree without its addresses. -/
def erase (t : Placed δ) : Rose δ := t.map Prod.snd

@[simp] theorem addr_node (v : Nat × δ) (cs : List (Placed δ)) : addr (.node v cs) = v.1 := rfl

/-- The address of the first of the trees. -/
def headAddr (p : Option Nat) : List (Placed δ) → Option Nat
  | [] => p
  | t :: _ => some t.addr

/-- The address of the last of the trees. -/
def lastAddr (p : Option Nat) : List (Placed δ) → Option Nat
  | [] => p
  | t :: ts => lastAddr (some t.addr) ts

@[simp] theorem headAddr_nil (p : Option Nat) : headAddr p ([] : List (Placed δ)) = p := rfl

@[simp] theorem headAddr_cons (p : Option Nat) (t : Placed δ) (ts : List (Placed δ)) :
    headAddr p (t :: ts) = some t.addr := rfl

@[simp] theorem lastAddr_nil (p : Option Nat) : lastAddr p ([] : List (Placed δ)) = p := rfl

@[simp] theorem lastAddr_cons (p : Option Nat) (t : Placed δ) (ts : List (Placed δ)) :
    lastAddr p (t :: ts) = lastAddr (some t.addr) ts := rfl

theorem headAddr_append (p : Option Nat) (ls rs : List (Placed δ)) :
    headAddr p (ls ++ rs) = headAddr (headAddr p rs) ls := by cases ls <;> rfl

theorem lastAddr_append (p : Option Nat) (ls rs : List (Placed δ)) :
    lastAddr p (ls ++ rs) = lastAddr (lastAddr p ls) rs := by
  induction ls generalizing p with
  | nil => rfl
  | cons l ls ih => exact ih (some l.addr)

theorem lastAddr_append_singleton (p : Option Nat) (ls : List (Placed δ)) (t : Placed δ) :
    lastAddr p (ls ++ [t]) = some t.addr := lastAddr_append p ls [t]

/-- The root of the tree as an object. -/
def root (t : Placed δ) (k : Links) : RoseNode δ :=
  ⟨t.val.2, k.next, k.previous, k.parent, headAddr none t.children, lastAddr none t.children⟩

mutual

/-- The cells of a tree. -/
def cells : Placed δ → Links → Cells (RoseNode δ)
  | .node v cs, k =>
    cell v.1 (root (.node v cs) k) + cellsAll cs (some v.1) none none

/-- The cells of siblings below a node, between a sibling before and one behind. -/
def cellsAll : List (Placed δ) → Option Nat → Option Nat → Option Nat → Cells (RoseNode δ)
  | [], _, _, _ => 0
  | t :: ts, parent, previous, next =>
    cells t ⟨parent, previous, headAddr next ts⟩ + cellsAll ts parent (some t.addr) next

end

/-- The cells of the nodes below the root. -/
def under (t : Placed δ) : Cells (RoseNode δ) := cellsAll t.children (some t.addr) none none

theorem cells_eq (t : Placed δ) (k : Links) : t.cells k = cell t.addr (t.root k) + t.under := by
  cases t
  rfl

theorem cellsAll_append (ls rs : List (Placed δ)) (parent previous next : Option Nat) :
    cellsAll (ls ++ rs) parent previous next =
      cellsAll ls parent previous (headAddr next rs) +
        cellsAll rs parent (lastAddr previous ls) next := by
  induction ls generalizing previous with
  | nil => exact (zero_add _).symm
  | cons l ls ih =>
    rw [List.cons_append, cellsAll, cellsAll, ih, headAddr_append, lastAddr, add_assoc]

theorem cellsAll_singleton (t : Placed δ) (parent previous next : Option Nat) :
    cellsAll [t] parent previous next = t.cells ⟨parent, previous, next⟩ := add_zero _

/-! ## Places -/

/-- The address of the node of a frame. -/
def Frame.addr (f : Frame (Nat × δ)) : Nat := f.val.1

/-- The links of what is at a place. -/
def holeLinks (k : Links) : List (Frame (Nat × δ)) → Links
  | [] => k
  | f :: _ => ⟨some f.addr, lastAddr none f.left, headAddr none f.right⟩

/-- The cells around a place that has a node at the address `a`. -/
def around (k : Links) : List (Frame (Nat × δ)) → Nat → Cells (RoseNode δ)
  | [], _ => 0
  | f :: c, a =>
    cell f.addr ⟨f.val.2, (holeLinks k c).next, (holeLinks k c).previous, (holeLinks k c).parent,
      headAddr (some a) f.left, lastAddr (some a) f.right⟩ +
    cellsAll f.left (some f.addr) none (some a) + cellsAll f.right (some f.addr) (some a) none +
    around k c f.addr

@[simp] theorem addr_fill (f : Frame (Nat × δ)) (t : Placed δ) : (f.fill t).addr = f.addr := rfl

/-- The cells of a tree are those of one of its parts and those around it. -/
theorem cells_plug (c : List (Frame (Nat × δ))) (t : Placed δ) (k : Links) :
    (plug c t).cells k = t.cells (holeLinks k c) + around k c t.addr := by
  induction c generalizing t with
  | nil => exact (add_zero _).symm
  | cons f c ih =>
    rw [plug, ih, addr_fill, Frame.fill, cells, cellsAll_append, cellsAll, around, root, holeLinks]
    simp only [val_node, children_node, headAddr_append, lastAddr_append, headAddr_cons,
      lastAddr_cons, Frame.addr]
    abel

/-- There is a memory with a node and its child. -/
theorem exists_exactly (d e : δ) : ∃ (m : Objects (RoseNode δ)) (a b : Nat),
    Exactly m ((Rose.node (a, d) [.node (b, e) []]).cells .none + 0) := by
  let A : Allocator (RoseNode δ) := .least _
  have hparent := Exactly.nil.alloc A ⟨d, none, none, none, none, none⟩
  generalize A.run _ = a at hparent
  have hchild := hparent.alloc A ⟨e, none, none, some a, none, none⟩
  generalize A.run _ = b at hchild
  have hlinked := (hchild.of_eq (add_left_comm _ _ _)).set ⟨d, none, none, none, some b, some b⟩
  refine ⟨_, a, b, hlinked.of_eq ?_⟩
  simp only [cells, cellsAll, add_zero]
  rfl

end Rose

end Cmem
