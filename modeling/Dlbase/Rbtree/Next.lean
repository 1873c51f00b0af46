import Dlbase.Lib.Successor
import Dlbase.Rbtree.Shape

/-!
# Iterating over a red-black tree

`dl_rbtree_next` yields the next node of the in-order sequence, in a tree of any shape.  It uses
the parent links of all nodes but the root, which it recognises by its address.
-/

namespace Dlbase.Rbtree

open Cmem

/-- The loop of `dl_rbtree_next`. -/
def nextLoop (s : State) : Nat → Ptr → Exec Ptr
  | 0, _ => Exec.timeout
  | fuel + 1, node => do
    let parent ← s.parent node
    if node = s.root then
      pure none
    else
      let l ← s.left parent
      if node = l then pure parent else nextLoop s fuel parent

/-- `dl_rbtree_next`. -/
def next (fuel : Nat) (s : State) (node : Ptr) : Exec Ptr := do
  let r ← s.right node
  if r ≠ s.sentinel then min fuel s r s.sentinel else nextLoop s fuel node

/-- The nodes passed from `dl_rbtree_min` on by repeating `dl_rbtree_next` until it returns a
null pointer. -/
def visit (fuel : Nat) (s : State) : Exec (List Addr) := do
  let p ← min fuel s s.root s.sentinel
  walk (fun fuel p ↦ next fuel s p) fuel p

open BinaryTree

variable {s : State} {P : Ptr → Ptr → Prop} {par p : Ptr} {T t : Shape}

/-- The loop climbs to the first node that has the way on its left. -/
theorem nextLoop_eq (fuel : Nat) (p : Ptr) : nextLoop s fuel p = climb s.cells s.root fuel p := by
  induction fuel generalizing p with
  | zero => rfl
  | succ fuel ih =>
    cases p with
    | none => rfl
    | some a =>
      simp only [nextLoop, climb, State.parent, State.left, State.child, Heap.load_some,
        Exec.ok_bind, Exec.pure_eq_ok]
      split_ifs with hroot
      · rfl
      · cases hpar : (s.cells a).parent with
        | none => rfl
        | some b => simp [ih]

/-- `dl_rbtree_min` yields the first node of a subtree. -/
theorem min_eq {fuel : Nat} (hr : Rep s.sentinel P s.cells par p t) (ht : t ≠ .nil)
    (hfuel : t.height ≤ fuel) : min fuel s p s.sentinel = .ok (addrs t).head? := by
  induction t generalizing par p fuel with
  | nil => exact absurd rfl ht
  | node v l r ihl _ =>
    obtain ⟨a, v⟩ := v
    rw [BinaryTree.height] at hfuel
    obtain ⟨fuel, rfl⟩ : ∃ n, fuel = n + 1 := ⟨fuel - 1, by omega⟩
    obtain ⟨rfl, -, -, -, hl, -⟩ := hr
    simp only [min, State.left, State.child, Heap.load_some, Exec.ok_bind, Exec.pure_eq_ok,
      Cell.child_left]
    by_cases hnil : l = .nil
    · subst hnil
      simp [show (s.cells a).left = s.sentinel from hl, addrs]
    · have hne : (s.cells a).left ≠ s.sentinel := mt hl.eq_nil_iff.mpr hnil
      rw [if_pos hne, ihl hl hnil (by omega)]
      cases l with
      | nil => exact absurd rfl hnil
      | node w x y => cases hx : inorder x <;> simp [addrs, hx]

/-- `dl_rbtree_next` leads from each node to the one behind it in the in-order sequence, and from
the last one to a null pointer. -/
theorem next_eq {fuel : Nat} {X Y : List Addr} {a : Addr}
    (hr : Rep s.sentinel (· = ·) s.cells par s.root T) (hnd : (addrs T).Nodup)
    (hT : addrs T = X ++ a :: Y) (hfuel : T.height < fuel) :
    next fuel s (some a) = .ok Y.head? := by
  obtain ⟨X', W, hin, rfl, hW⟩ := List.map_eq_append_iff.mp hT
  obtain ⟨⟨a, v⟩, Y', rfl, rfl, rfl⟩ := List.map_eq_cons_iff.mp hW
  obtain ⟨c, l, r, rfl, -, rfl⟩ := exists_plug_of_inorder hin
  have hlen := length_le_height_plug c (.node (a, v) l r)
  rw [BinaryTree.height] at hlen
  obtain ⟨hc, ha⟩ := rep_plug_iff.mp hr.exactBelow
  obtain ⟨hndc, -, hdisj⟩ := nodup_addrs_plug.mp hnd
  obtain ⟨-, hn, -, hpar, -, hR⟩ := rep_node.mp ha
  simp only [next, State.right, State.child, Heap.load_some, Exec.ok_bind, Exec.pure_eq_ok,
    Cell.child_right]
  by_cases hnil : r = .nil
  · subst hnil
    have hright : (s.cells a).right = s.sentinel := hR
    rw [if_neg (not_not.mpr hright), nextLoop_eq,
      climb_eq hc hn hpar hndc (fun h ↦ hdisj a h (by simp)) (by omega)]
    simp
  · have hne : (s.cells a).right ≠ s.sentinel := mt hR.eq_nil_iff.mpr hnil
    rw [if_pos hne, min_eq hR hnil (by omega)]
    cases r with
    | nil => exact absurd rfl hnil
    | node w x y => cases hx : inorder x <;> simp [addrs, hx]

/-- Iteration visits every node once, in order, and ends. -/
theorem visit_eq {fuel : Nat} (hr : Rep s.sentinel (· = ·) s.cells par s.root T)
    (hnd : (addrs T).Nodup) (hT : T ≠ .nil) (hfuel : T.height + T.numNodes + 1 < fuel) :
    visit fuel s = .ok (addrs T) := by
  rw [visit, min_eq hr hT (by omega), Exec.ok_bind]
  refine walk_eq (L := addrs T) (m := T.height + 1) (fun X a Y fuel h hf ↦ next_eq hr hnd h hf)
    (X := []) rfl ?_
  rw [addrs, List.length_map, length_inorder]
  omega

end Dlbase.Rbtree
