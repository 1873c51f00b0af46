import Mathlib

/-!
# Binary trees with a focus

A tree taken apart at one of its subtrees: the *context* is the list of frames
passed on the way from the focus to the root, innermost first.  A frame keeps
its own value, the side on which the focus hangs, and the subtree on the other
side.  Both orientations of a node are written `sideNode s v x y`, with `x` on
the side `s`, so that a mirrored pair of cases is one case.
-/

namespace Cmem

open BinaryTree

variable {α : Type _}

/-- The two child positions of a node. -/
inductive Side where
  | left
  | right
deriving DecidableEq, Repr

namespace Side

/-- The opposite position. -/
def other : Side → Side
  | left => right
  | right => left

@[simp] theorem other_left : other left = right := rfl

@[simp] theorem other_right : other right = left := rfl

@[simp] theorem other_other (s : Side) : s.other.other = s := by cases s <;> rfl

@[simp] theorem other_ne (s : Side) : s.other ≠ s := by cases s <;> decide

@[simp] theorem ne_other (s : Side) : s ≠ s.other := by cases s <;> decide

theorem eq_or_eq_other (s s' : Side) : s' = s ∨ s' = s.other := by
  cases s <;> cases s' <;> simp

end Side

/-- The node with value `v`, the subtree `x` on the side `s` and `y` on the other. -/
def sideNode (s : Side) (v : α) (x y : BinaryTree α) : BinaryTree α :=
  match s with
  | .left => .node v x y
  | .right => .node v y x

@[simp] theorem sideNode_left (v : α) (x y : BinaryTree α) :
    sideNode .left v x y = .node v x y := rfl

@[simp] theorem sideNode_right (v : α) (x y : BinaryTree α) :
    sideNode .right v x y = .node v y x := rfl

theorem sideNode_other (s : Side) (v : α) (x y : BinaryTree α) :
    sideNode s.other v x y = sideNode s v y x := by cases s <;> rfl

theorem exists_node_eq_sideNode (s : Side) (v : α) (x y : BinaryTree α) :
    ∃ l r, sideNode s v x y = .node v l r := by
  cases s with
  | left => exact ⟨x, y, rfl⟩
  | right => exact ⟨y, x, rfl⟩

theorem exists_sideNode_eq_node (s : Side) (v : α) (l r : BinaryTree α) :
    ∃ x y, .node v l r = sideNode s v x y := by
  cases s with
  | left => exact ⟨l, r, rfl⟩
  | right => exact ⟨r, l, rfl⟩

/-! ## In-order sequences -/

/-- The values of a tree from left to right. -/
def inorder : BinaryTree α → List α
  | .nil => []
  | .node v l r => inorder l ++ v :: inorder r

@[simp] theorem inorder_nil : inorder (.nil : BinaryTree α) = [] := rfl

@[simp] theorem inorder_node (v : α) (l r : BinaryTree α) :
    inorder (.node v l r) = inorder l ++ v :: inorder r := rfl

theorem length_inorder (t : BinaryTree α) : (inorder t).length = t.numNodes := by
  induction t with
  | nil => rfl
  | node v l r ihl ihr => simp [ihl, ihr]; omega

/-- One step on the way from a focus to the root. -/
structure Frame (α : Type _) where
  /-- The side on which the focus hangs. -/
  side : Side
  /-- The value of the node passed. -/
  val : α
  /-- The subtree on the other side. -/
  sib : BinaryTree α

/-- The frames from a focus to the root, innermost first. -/
abbrev Ctx (α : Type _) := List (Frame α)

/-- The subtree one step up. -/
def Frame.fill (f : Frame α) (t : BinaryTree α) : BinaryTree α := sideNode f.side f.val t f.sib

/-- The whole tree around a focus. -/
def plug : Ctx α → BinaryTree α → BinaryTree α
  | [], t => t
  | f :: c, t => plug c (f.fill t)

@[simp] theorem plug_nil (t : BinaryTree α) : plug [] t = t := rfl

@[simp] theorem plug_cons (f : Frame α) (c : Ctx α) (t : BinaryTree α) :
    plug (f :: c) t = plug c (f.fill t) := rfl

/-- A frame whose focus hangs on the far side from `s`. -/
theorem plug_cons_other (s : Side) (v : α) (x : BinaryTree α) (c : Ctx α) (t : BinaryTree α) :
    plug (⟨s.other, v, x⟩ :: c) t = plug c (sideNode s v x t) := by
  rw [plug_cons, Frame.fill, sideNode_other]

theorem plug_append (c c' : Ctx α) (t : BinaryTree α) :
    plug (c ++ c') t = plug c' (plug c t) := by
  induction c generalizing t with
  | nil => rfl
  | cons f c ih => simp [ih]

/-- The path to a focus is no longer than the tree is high. -/
theorem length_le_height_plug (c : Ctx α) (t : BinaryTree α) :
    c.length + t.height ≤ (plug c t).height := by
  induction c generalizing t with
  | nil => simp
  | cons f c ih =>
    have hfill : t.height + 1 ≤ (f.fill t).height := by
      obtain ⟨s, v, x⟩ := f
      cases s with
      | left => exact Nat.succ_le_succ (Nat.le_max_left _ _)
      | right => exact Nat.succ_le_succ (Nat.le_max_right _ _)
    have := ih (f.fill t)
    rw [plug_cons, List.length_cons]
    omega

theorem exists_plug_of_mem {t : BinaryTree α} {v : α} (h : v ∈ inorder t) :
    ∃ c l r, t = plug c (.node v l r) := by
  induction t with
  | nil => simp at h
  | node w l r ihl ihr =>
    simp only [inorder_node, List.mem_append, List.mem_cons] at h
    rcases h with h | rfl | h
    · obtain ⟨c, l', r', rfl⟩ := ihl h
      exact ⟨c ++ [⟨.left, w, r⟩], l', r', by simp [plug_append, Frame.fill]⟩
    · exact ⟨[], l, r, rfl⟩
    · obtain ⟨c, l', r', rfl⟩ := ihr h
      exact ⟨c ++ [⟨.right, w, l⟩], l', r', by simp [plug_append, Frame.fill]⟩

/-- What stands left of the focus in the in-order sequence. -/
def before : Ctx α → List α
  | [] => []
  | ⟨.left, _, _⟩ :: c => before c
  | ⟨.right, v, l⟩ :: c => before c ++ (inorder l ++ [v])

/-- What stands right of the focus in the in-order sequence. -/
def after : Ctx α → List α
  | [] => []
  | ⟨.left, v, r⟩ :: c => v :: inorder r ++ after c
  | ⟨.right, _, _⟩ :: c => after c

@[simp] theorem before_nil : before ([] : Ctx α) = [] := rfl

@[simp] theorem after_nil : after ([] : Ctx α) = [] := rfl

theorem before_append (c c' : Ctx α) : before (c ++ c') = before c' ++ before c := by
  induction c with
  | nil => simp
  | cons f c ih =>
    obtain ⟨s, v, sib⟩ := f
    cases s <;> simp [before, ih]

theorem after_append (c c' : Ctx α) : after (c ++ c') = after c ++ after c' := by
  induction c with
  | nil => simp
  | cons f c ih =>
    obtain ⟨s, v, sib⟩ := f
    cases s <;> simp [after, ih]

theorem inorder_plug (c : Ctx α) (t : BinaryTree α) :
    inorder (plug c t) = before c ++ inorder t ++ after c := by
  induction c generalizing t with
  | nil => simp [before, after]
  | cons f c ih =>
    obtain ⟨s, v, sib⟩ := f
    cases s <;> simp [ih, Frame.fill, before, after]

/-- The values in a context. -/
def ctxVals : Ctx α → List α
  | [] => []
  | f :: c => f.val :: inorder f.sib ++ ctxVals c

theorem ctxVals_append (c c' : Ctx α) : ctxVals (c ++ c') = ctxVals c ++ ctxVals c' := by
  induction c with
  | nil => rfl
  | cons f c ih => simp [ctxVals, ih]

theorem Frame.inorder_fill_perm (f : Frame α) (t : BinaryTree α) :
    (inorder (f.fill t)).Perm (f.val :: inorder f.sib ++ inorder t) := by
  obtain ⟨s, v, sib⟩ := f
  cases s with
  | left =>
    simp only [Frame.fill, sideNode_left, inorder_node]
    exact List.perm_append_comm
  | right =>
    simp only [Frame.fill, sideNode_right, inorder_node]
    exact List.perm_middle

/-- The values of a plugged tree are those of its context and of its focus. -/
theorem inorder_plug_perm (c : Ctx α) (t : BinaryTree α) :
    (inorder (plug c t)).Perm (ctxVals c ++ inorder t) := by
  induction c generalizing t with
  | nil => simp [ctxVals]
  | cons f c ih =>
    have hfill := (f.inorder_fill_perm t).append_left (ctxVals c)
    have hswap := List.perm_append_comm_assoc (ctxVals c) (f.val :: inorder f.sib) (inorder t)
    simpa [ctxVals] using (ih (f.fill t)).trans (hfill.trans hswap)

end Cmem
