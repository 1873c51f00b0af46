import Mathlib

/-!
# Rose trees

Trees whose nodes have any number of children, which are in order.  A function on trees comes with
one on lists of trees, and a fact about all trees is shown with `Rose.ind`, which supposes it of all
children of a node.

A place in a tree is given by the frames on the way up from it to the root.
-/

namespace Cmem

/-- A tree. -/
inductive Rose (α : Type _) where
  /-- A node with a value and its children. -/
  | node (val : α) (children : List (Rose α))

namespace Rose

variable {α β γ : Type _} {P : Rose α → Prop} {a : α} {t : Rose α} {cs ds : List (Rose α)}

/-- The value at the root. -/
def val : Rose α → α
  | .node a _ => a

/-- The trees below the root. -/
def children : Rose α → List (Rose α)
  | .node _ cs => cs

@[simp] theorem val_node (a : α) (cs : List (Rose α)) : (node a cs).val = a := rfl

@[simp] theorem children_node (a : α) (cs : List (Rose α)) : (node a cs).children = cs := rfl

mutual

/-- What holds of a node whenever it holds of its children holds of all trees. -/
theorem ind (step : ∀ a cs, (∀ c ∈ cs, P c) → P (.node a cs)) : ∀ t : Rose α, P t
  | .node a cs => step a cs (indAll step cs)

/-- And it holds of all trees in a list. -/
theorem indAll (step : ∀ a cs, (∀ c ∈ cs, P c) → P (.node a cs)) :
    ∀ cs : List (Rose α), ∀ c ∈ cs, P c
  | [] => fun _ hc ↦ absurd hc List.not_mem_nil
  | d :: cs => List.forall_mem_cons.mpr ⟨ind step d, indAll step cs⟩

end

/-! ## Maps -/

mutual

/-- The tree with `f` applied to each value. -/
def map (f : α → β) : Rose α → Rose β
  | .node a cs => .node (f a) (mapAll f cs)

/-- The trees with `f` applied to each value. -/
def mapAll (f : α → β) : List (Rose α) → List (Rose β)
  | [] => []
  | c :: cs => map f c :: mapAll f cs

end

theorem mapAll_eq_map (f : α → β) (cs : List (Rose α)) : mapAll f cs = cs.map (map f) := by
  induction cs with
  | nil => rfl
  | cons c cs ih => rw [mapAll, ih, List.map_cons]

@[simp] theorem map_node (f : α → β) (a : α) (cs : List (Rose α)) :
    map f (.node a cs) = .node (f a) (cs.map (map f)) := by rw [map, mapAll_eq_map]

@[simp] theorem val_map (f : α → β) (t : Rose α) : (t.map f).val = f t.val := by cases t; rfl

@[simp] theorem children_map (f : α → β) (t : Rose α) :
    (t.map f).children = t.children.map (map f) := by
  cases t
  rw [map_node, children_node, children_node]

/-! ## Values -/

mutual

/-- The values of the nodes, each before those below it. -/
def values : Rose α → List α
  | .node a cs => a :: valuesAll cs

/-- The values of the nodes of all trees in a list. -/
def valuesAll : List (Rose α) → List α
  | [] => []
  | c :: cs => values c ++ valuesAll cs

end

theorem values_subset_valuesAll (ht : t ∈ cs) : t.values ⊆ valuesAll cs := by
  induction cs with
  | nil => exact absurd ht List.not_mem_nil
  | cons c cs ih =>
    rw [valuesAll]
    rcases List.mem_cons.mp ht with rfl | ht
    · exact List.subset_append_left _ _
    · exact List.subset_append_of_subset_right _ (ih ht)

theorem mem_valuesAll : a ∈ valuesAll cs ↔ ∃ c ∈ cs, a ∈ c.values := by
  induction cs with
  | nil => exact ⟨fun h ↦ absurd h List.not_mem_nil, fun ⟨_, hc, _⟩ ↦ absurd hc List.not_mem_nil⟩
  | cons c cs ih => rw [valuesAll, List.mem_append, ih, List.exists_mem_cons_iff]

/-! ## Places -/

/-- What is around a child of a node. -/
structure Frame (α : Type _) where
  /-- The value of the node. -/
  val : α
  /-- The children before. -/
  left : List (Rose α)
  /-- The children behind. -/
  right : List (Rose α)

/-- The node with the child `t`. -/
def Frame.fill (f : Frame α) (t : Rose α) : Rose α := .node f.val (f.left ++ t :: f.right)

/-- The tree with `t` at the place given by the frames, of which the first is the innermost. -/
def plug : List (Frame α) → Rose α → Rose α
  | [], t => t
  | f :: c, t => plug c (f.fill t)

end Rose

end Cmem
