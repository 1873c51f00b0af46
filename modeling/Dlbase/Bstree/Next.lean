import Dlbase.Bstree.DeleteByKey
import Dlbase.Rbtree.Delete
import Dlbase.Rbtree.Next

/-!
# Iterating over an AVL tree

`dl_bstree_next` yields the next node of the in-order sequence, in a tree of any shape.  With
`dl_rbtree_next` it differs in what stands for the empty subtree only.
-/

namespace Dlbase.Bstree

open Cmem

/-- The loop of `dl_bstree_next`, in a tree with the given root. -/
def nextLoop (h : Cells) (root : Ptr) : Nat → Ptr → Exec Ptr
  | 0, _ => Exec.timeout
  | fuel + 1, node => do
    let p ← parent h node
    if node = root then
      pure none
    else
      let l ← left h p
      if l = node then pure p else nextLoop h root fuel p

/-- `dl_bstree_next`. -/
def next (fuel : Nat) (s : State) (node : Ptr) : Exec Ptr := do
  let r ← right s.cells node
  if r ≠ none then min fuel s.cells r else nextLoop s.cells s.root fuel node

/-- The nodes passed from `dl_bstree_min` on by repeating `dl_bstree_next` until it returns a
null pointer. -/
def visit (fuel : Nat) (s : State) : Exec (List Addr) := do
  let p ← min fuel s.cells s.root
  walk (fun fuel p ↦ next fuel s p) fuel p

open BinaryTree

variable {s : State} {P : Ptr → Ptr → Prop} {par p : Ptr} {T t : Shape} {h : Cells}

/-- The loop climbs to the first node that has the way on its left. -/
theorem nextLoop_eq (root : Ptr) (fuel : Nat) (p : Ptr) :
    nextLoop h root fuel p = climb h root fuel p := by
  induction fuel generalizing p with
  | zero => rfl
  | succ fuel ih =>
    cases p with
    | none => rfl
    | some a =>
      simp only [nextLoop, climb, parent, left, child, Heap.load_some, Exec.ok_bind,
        Exec.pure_eq_ok]
      split_ifs with hroot
      · rfl
      · cases hpar : (h a).parent with
        | none => rfl
        | some b => simp [ih, eq_comm]

theorem minNode_eq_head? (t : Shape) : minNode t = (inorder t).head? := by
  induction t with
  | nil => rfl
  | node v l r ihl _ =>
    cases l with
    | nil => rfl
    | node w x y =>
      rw [minNode, ihl]
      cases hx : inorder x <;> simp [hx]

/-- `dl_bstree_min` yields the first node of a subtree. -/
theorem min_eq_head? {fuel : Nat} (hr : Rep none P h par p t) (ht : t ≠ .nil)
    (hfuel : t.height ≤ fuel) : min fuel h p = .ok (addrs t).head? := by
  obtain ⟨w, hw⟩ := exists_minNode ht
  rw [min_eq hr hw hfuel, addrs, List.head?_map, ← minNode_eq_head?, hw]
  rfl

/-- `dl_bstree_next` leads from each node to the one behind it in the in-order sequence, and from
the last one to a null pointer. -/
theorem next_eq {fuel : Nat} {X Y : List Addr} {a : Addr}
    (hr : Rep none (· = ·) s.cells par s.root T) (hnd : (addrs T).Nodup)
    (hT : addrs T = X ++ a :: Y) (hfuel : T.height < fuel) :
    next fuel s (some a) = .ok Y.head? := by
  obtain ⟨X', W, hin, rfl, hW⟩ := List.map_eq_append_iff.mp hT
  obtain ⟨⟨a, v⟩, Y', rfl, rfl, rfl⟩ := List.map_eq_cons_iff.mp hW
  obtain ⟨c, l, r, rfl, -, rfl⟩ := exists_plug_of_inorder hin
  have hlen := length_le_height_plug c (.node (a, v) l r)
  rw [BinaryTree.height] at hlen
  obtain ⟨hc, ha⟩ := rep_plug_iff.mp hr.exactBelow
  obtain ⟨hndc, -, hdisj⟩ := nodup_addrs_plug.mp hnd
  obtain ⟨-, hn, -, hpar, -, hR⟩ := rep_node.mp ha
  simp only [next, right, child, Heap.load_some, Exec.ok_bind, Exec.pure_eq_ok, Cell.child_right]
  by_cases hnil : r = .nil
  · subst hnil
    have hright : (s.cells a).right = none := hR
    rw [if_neg (not_not.mpr hright), nextLoop_eq,
      climb_eq hc hn hpar hndc (fun h ↦ hdisj a h (by simp)) (by omega)]
    simp
  · have hne : (s.cells a).right ≠ none := mt hR.eq_nil_iff.mpr hnil
    rw [if_pos hne, min_eq_head? hR hnil (by omega)]
    cases r with
    | nil => exact absurd rfl hnil
    | node w x y => cases hx : inorder x <;> simp [addrs, hx]

/-- Iteration visits every node once, in order, and ends. -/
theorem visit_eq {fuel : Nat} (hr : Rep none (· = ·) s.cells par s.root T)
    (hnd : (addrs T).Nodup) (hT : T ≠ .nil) (hfuel : T.height + T.numNodes + 1 < fuel) :
    visit fuel s = .ok (addrs T) := by
  rw [visit, min_eq_head? hr hT (by omega), Exec.ok_bind]
  refine walk_eq (L := addrs T) (m := T.height + 1) (fun X a Y fuel h hf ↦ next_eq hr hnd h hf)
    (X := []) rfl ?_
  rw [addrs, List.length_map, length_inorder]
  omega

/-! ## Both trees -/

/-- In a non-empty tree of any shape whose parent links are the inverse of its child links, repeating
`next` from the minimum on passes every node once and in order, and comes to an end.  Each node's
successor is the one behind it, and only the last node has none. -/
theorem iteration :
    (∀ (s : Rbtree.State) (par : Rbtree.Ptr) (T : Rbtree.Shape),
      Rep s.sentinel (· = ·) s.cells par s.root T → (addrs T).Nodup → T ≠ .nil →
        Returns (fun fuel ↦ Rbtree.visit fuel s) (addrs T) ∧
        ∀ X a Y, addrs T = X ++ a :: Y → Returns (fun fuel ↦ Rbtree.next fuel s (some a)) Y.head?) ∧
    ∀ (s : State) (par : Ptr) (T : Shape),
      Rep none (· = ·) s.cells par s.root T → (addrs T).Nodup → T ≠ .nil →
        Returns (fun fuel ↦ visit fuel s) (addrs T) ∧
        ∀ X a Y, addrs T = X ++ a :: Y → Returns (fun fuel ↦ next fuel s (some a)) Y.head? := by
  refine ⟨fun s par T hr hnd hT ↦ ⟨?_, fun X a Y h ↦ ?_⟩, fun s par T hr hnd hT ↦ ⟨?_, fun X a Y h ↦ ?_⟩⟩
  · exact ⟨_, fun fuel hf ↦ Rbtree.visit_eq hr hnd hT hf⟩
  · exact ⟨_, fun fuel hf ↦ Rbtree.next_eq hr hnd h hf⟩
  · exact ⟨_, fun fuel hf ↦ visit_eq hr hnd hT hf⟩
  · exact ⟨_, fun fuel hf ↦ next_eq hr hnd h hf⟩

/-- Iterating over a red-black tree of three nodes and an AVL tree of four. -/
theorem iteration_nodes :
    Returns (fun fuel ↦ Rbtree.visit fuel Rbtree.threeNodes) [2, 1, 3] ∧
      Returns (fun fuel ↦ visit fuel fourNodes) [2, 1, 3, 4] :=
  ⟨(iteration.1 Rbtree.threeNodes none _ Rbtree.isRbtree_threeNodes.holds.rep (by decide) nofun).1,
    (iteration.2 fourNodes none fourShape (by simp [fourNodes, fourShape, fourCells, rep_node])
      (by decide) nofun).1⟩

end Dlbase.Bstree
