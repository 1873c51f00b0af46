import Dlbase.Lib.Zipper

/-!
# Red-black balance

The colour discipline of a red-black tree over an arbitrary predicate `red` on
the values of its nodes: no red node has a red child, and every path from the
root to an empty subtree has the same number of black nodes.  `Balanced` is the
discipline as an inductive family in the root colour and the black height, and
`Hole` is what it asks of a context, so that rebalancing can be argued at the
focus.
-/

namespace Cmem

open BinaryTree

variable {α : Type _}

section

variable (red : α → Prop)

/-- `Balanced red t c n`: `t` obeys the colour discipline, its root is red iff `c`, and its
paths have `n` black nodes. -/
inductive Balanced : BinaryTree α → Bool → Nat → Prop where
  /-- The empty tree is black. -/
  | nil : Balanced .nil false 0
  /-- A red node has black children. -/
  | red {v : α} {l r : BinaryTree α} {n : Nat} :
      red v → Balanced l false n → Balanced r false n → Balanced (.node v l r) true n
  /-- A black node has children of any colour. -/
  | black {v : α} {l r : BinaryTree α} {cl cr : Bool} {n : Nat} :
      ¬ red v → Balanced l cl n → Balanced r cr n → Balanced (.node v l r) false (n + 1)

/-- The root of the tree is a red node. -/
def RedRoot : BinaryTree α → Prop
  | .nil => False
  | .node v _ _ => red v

instance RedRoot.decidable [DecidablePred red] : DecidablePred (RedRoot red)
  | .nil => inferInstanceAs (Decidable False)
  | .node v _ _ => inferInstanceAs (Decidable (red v))

/-- No red node has a red child. -/
def NoRedRed : BinaryTree α → Prop
  | .nil => True
  | .node v l r => (red v → ¬ RedRoot red l ∧ ¬ RedRoot red r) ∧ NoRedRed l ∧ NoRedRed r

/-- The numbers of black nodes on the paths from the root to the empty subtrees. -/
def blackCounts [DecidablePred red] : BinaryTree α → List Nat
  | .nil => [0]
  | .node v l r => (blackCounts l ++ blackCounts r).map (· + if red v then 0 else 1)

/-- The properties of a red-black tree, its order apart. -/
structure RedBlack [DecidablePred red] (t : BinaryTree α) : Prop where
  /-- The root is black. -/
  root : ¬ RedRoot red t
  /-- No red node has a red child. -/
  noRedRed : NoRedRed red t
  /-- All paths have the same number of black nodes. -/
  blackHeight : ∃ n, ∀ k ∈ blackCounts red t, k = n

end

variable {red : α → Prop} {t l r x y : BinaryTree α} {v : α} {c cl cr : Bool} {n : Nat}

@[simp] theorem balanced_nil_iff : Balanced red .nil c n ↔ c = false ∧ n = 0 := by
  constructor
  · rintro ⟨⟩
    exact ⟨rfl, rfl⟩
  · rintro ⟨rfl, rfl⟩
    exact .nil

theorem balanced_node_iff : Balanced red (.node v l r) c n ↔
    (red v ∧ c = true ∧ Balanced red l false n ∧ Balanced red r false n) ∨
      (¬ red v ∧ c = false ∧ ∃ m cl cr, n = m + 1 ∧ Balanced red l cl m ∧
        Balanced red r cr m) := by
  constructor
  · rintro (_ | ⟨hv, hl, hr⟩ | ⟨hv, hl, hr⟩)
    · exact .inl ⟨hv, rfl, hl, hr⟩
    · exact .inr ⟨hv, rfl, _, _, _, rfl, hl, hr⟩
  · rintro (⟨hv, rfl, hl, hr⟩ | ⟨hv, rfl, m, cl, cr, rfl, hl, hr⟩)
    · exact .red hv hl hr
    · exact .black hv hl hr

/-- A node is balanced whichever way it is read. -/
theorem balanced_sideNode_iff {s : Side} : Balanced red (sideNode s v x y) c n ↔
    (red v ∧ c = true ∧ Balanced red x false n ∧ Balanced red y false n) ∨
      (¬ red v ∧ c = false ∧ ∃ m cx cy, n = m + 1 ∧ Balanced red x cx m ∧
        Balanced red y cy m) := by
  cases s with
  | left => exact balanced_node_iff
  | right =>
    rw [sideNode_right, balanced_node_iff]
    constructor
    · rintro (⟨hv, hc, hy, hx⟩ | ⟨hv, hc, m, cy, cx, hn, hy, hx⟩)
      · exact .inl ⟨hv, hc, hx, hy⟩
      · exact .inr ⟨hv, hc, m, cx, cy, hn, hx, hy⟩
    · rintro (⟨hv, hc, hx, hy⟩ | ⟨hv, hc, m, cx, cy, hn, hx, hy⟩)
      · exact .inl ⟨hv, hc, hy, hx⟩
      · exact .inr ⟨hv, hc, m, cy, cx, hn, hy, hx⟩

theorem Balanced.redRoot_iff (h : Balanced red t c n) : RedRoot red t ↔ c = true := by
  cases h <;> simp_all [RedRoot]

theorem Balanced.noRedRed (h : Balanced red t c n) : NoRedRed red t := by
  induction h with
  | nil => trivial
  | red hv hl hr ihl ihr =>
    refine ⟨fun _ ↦ ⟨?_, ?_⟩, ihl, ihr⟩
    · simp [hl.redRoot_iff]
    · simp [hr.redRoot_iff]
  | black hv hl hr ihl ihr => exact ⟨fun h ↦ absurd h hv, ihl, ihr⟩

theorem Balanced.blackCounts [DecidablePred red] (h : Balanced red t c n) :
    ∀ k ∈ blackCounts red t, k = n := by
  induction h with
  | nil => simp [Cmem.blackCounts]
  | red hv hl hr ihl ihr => simp [Cmem.blackCounts, hv]; grind
  | black hv hl hr ihl ihr => simp [Cmem.blackCounts, hv]; grind

theorem blackCounts_ne_nil [DecidablePred red] (t : BinaryTree α) : blackCounts red t ≠ [] := by
  induction t with
  | nil => simp [blackCounts]
  | node v l r ihl ihr => simp [blackCounts, ihl]

/-- The inductive family is the colour discipline. -/
theorem balanced_of_noRedRed [DecidablePred red] (hr : NoRedRed red t)
    (hn : ∀ k ∈ blackCounts red t, k = n) : Balanced red t (decide (RedRoot red t)) n := by
  induction t generalizing n with
  | nil =>
    have : 0 = n := hn 0 (by simp [blackCounts])
    subst this
    rw [decide_eq_false (id : ¬ RedRoot red (.nil : BinaryTree α))]
    exact .nil
  | node v l r ihl ihr =>
    obtain ⟨hv, hl, hr⟩ := hr
    simp only [blackCounts, List.map_append, List.mem_append, List.mem_map] at hn
    by_cases hred : red v
    · have hbl := ihl hl fun k hk ↦ hn k (.inl ⟨k, hk, by simp [hred]⟩)
      have hbr := ihr hr fun k hk ↦ hn k (.inr ⟨k, hk, by simp [hred]⟩)
      rw [decide_eq_false (hv hred).1] at hbl
      rw [decide_eq_false (hv hred).2] at hbr
      simpa [RedRoot, hred] using Balanced.red hred hbl hbr
    · obtain ⟨k, hk⟩ := List.exists_mem_of_ne_nil _ (blackCounts_ne_nil (t := l) : blackCounts red l ≠ [])
      have hnk : k + 1 = n := hn _ (.inl ⟨k, hk, by simp [hred]⟩)
      subst hnk
      have hbl := ihl hl fun j hj ↦ by
        have := hn _ (.inl ⟨j, hj, rfl⟩)
        simpa [hred] using this
      have hbr := ihr hr fun j hj ↦ by
        have := hn _ (.inr ⟨j, hj, rfl⟩)
        simpa [hred] using this
      simpa [RedRoot, hred] using Balanced.black hred hbl hbr

theorem redBlack_iff [DecidablePred red] : RedBlack red t ↔ ∃ n, Balanced red t false n := by
  constructor
  · rintro ⟨hroot, hrr, n, hn⟩
    have h := balanced_of_noRedRed hrr hn
    rw [decide_eq_false hroot] at h
    exact ⟨n, h⟩
  · rintro ⟨n, h⟩
    exact ⟨by simp [h.redRoot_iff], h.noRedRed, n, h.blackCounts⟩

/-! ## Contexts -/

/-- `Hole red c b n`: the context obeys the discipline around a subtree of black height `n`,
which may be red-rooted only if `b`. -/
def Hole (red : α → Prop) : Ctx α → Bool → Nat → Prop
  | [], b, _ => b = false
  | f :: c, b, n =>
    (red f.val ∧ b = false ∧ Balanced red f.sib false n ∧ Hole red c true n) ∨
      (¬ red f.val ∧ b = true ∧ (∃ sc, Balanced red f.sib sc n) ∧ ∃ b', Hole red c b' (n + 1))

@[simp] theorem hole_nil {b : Bool} : Hole red [] b n ↔ b = false := by rw [Hole]

theorem hole_cons {f : Frame α} {ctx : Ctx α} {b : Bool} : Hole red (f :: ctx) b n ↔
    (red f.val ∧ b = false ∧ Balanced red f.sib false n ∧ Hole red ctx true n) ∨
      (¬ red f.val ∧ b = true ∧ (∃ sc, Balanced red f.sib sc n) ∧
        ∃ b', Hole red ctx b' (n + 1)) := by rw [Hole]

/-- A context keeps its room when a node in it is exchanged for one of the same colour. -/
theorem Hole.replace {k ctx : Ctx α} {s : Side} {v w : α} {b : Bool}
    (hole : Hole red (k ++ ⟨s, v, x⟩ :: ctx) b n) (hv : red w ↔ red v) :
    Hole red (k ++ ⟨s, w, x⟩ :: ctx) b n := by
  induction k generalizing b n with
  | nil => simpa only [List.nil_append, hole_cons, hv] using hole
  | cons f k ih =>
    rcases hole_cons.mp hole with ⟨hf, hb, hs, hk⟩ | ⟨hf, hb, hs, b', hk⟩
    · exact hole_cons.mpr (.inl ⟨hf, hb, hs, ih hk⟩)
    · exact hole_cons.mpr (.inr ⟨hf, hb, hs, b', ih hk⟩)

/-- Plugging a subtree the context has room for gives a balanced tree with a black root. -/
theorem Hole.plug {ctx : Ctx α} {b : Bool} (hole : Hole red ctx b n) (h : Balanced red t c n)
    (hc : c = true → b = true) : ∃ m, Balanced red (plug ctx t) false m := by
  induction ctx generalizing t c b n with
  | nil =>
    rw [hole_nil] at hole
    obtain rfl : c = false := by cases c <;> simp_all
    exact ⟨n, h⟩
  | cons f ctx ih =>
    rcases hole_cons.mp hole with ⟨hv, hb, hs, hctx⟩ | ⟨hv, -, ⟨sc, hs⟩, b', hctx⟩
    · obtain rfl : c = false := by cases c <;> simp_all
      exact ih hctx (c := true) (balanced_sideNode_iff.mpr (.inl ⟨hv, rfl, h, hs⟩)) (by simp)
    · exact ih hctx (c := false)
        (balanced_sideNode_iff.mpr (.inr ⟨hv, rfl, n, _, _, rfl, h, hs⟩)) (by simp)

/-- Every part of a balanced tree with a black root sits in a context with room for it. -/
theorem hole_of_plug {ctx : Ctx α} (h : Balanced red (plug ctx t) false n) :
    ∃ c b m, Balanced red t c m ∧ Hole red ctx b m ∧ (c = true → b = true) := by
  induction ctx generalizing t n with
  | nil => exact ⟨false, false, n, h, by simp, by simp⟩
  | cons f ctx ih =>
    obtain ⟨c, b, m, ht, hole, hc⟩ := ih h
    rcases balanced_sideNode_iff.mp ht with
      ⟨hv, rfl, hx, hy⟩ | ⟨hv, rfl, k, cx, cy, rfl, hx, hy⟩
    · exact ⟨false, false, m, hx, hole_cons.mpr (.inl ⟨hv, rfl, hy, by rwa [hc rfl] at hole⟩),
        by simp⟩
    · exact ⟨cx, true, k, hx, hole_cons.mpr (.inr ⟨hv, rfl, ⟨cy, hy⟩, b, hole⟩), by simp⟩

end Cmem
