import Dlbase.Lib.LinkedTree

/-!
# In-order succession in linked trees

The successor of a cell is the leftmost cell of its right subtree or, when that is empty, the
first cell above it that has it on its left.  `climb` finds the latter along the parent links.
Repeating a function that yields successors is a `walk`, which passes the cells of the tree in
order.
-/

namespace Cmem

open BinaryTree

variable {A : Type _} {δ : Type _} {α : Type _}

/-! ## Places in the in-order sequence -/

/-- A tree can be taken apart at any place of its in-order sequence. -/
theorem exists_plug_of_inorder {t : BinaryTree α} {v : α} {X Y : List α}
    (h : inorder t = X ++ v :: Y) : ∃ c l r, t = plug c (.node v l r) ∧
      X = before c ++ inorder l ∧ Y = inorder r ++ after c := by
  induction t generalizing X Y with
  | nil => simp at h
  | node w l r ihl ihr =>
    rw [inorder_node] at h
    rcases List.append_eq_append_iff.mp h with ⟨Z, rfl, hr⟩ | ⟨Z, hl, hr⟩
    · rcases Z with _ | ⟨z, Z⟩
      · obtain ⟨rfl, rfl⟩ := List.cons.inj hr
        exact ⟨[], l, r, rfl, by simp, by simp⟩
      · obtain ⟨rfl, hr'⟩ := List.cons.inj hr
        obtain ⟨c, l', r', rfl, rfl, rfl⟩ := ihr hr'
        exact ⟨c ++ [⟨.right, w, l⟩], l', r', by simp [plug_append, Frame.fill],
          by simp [before_append, before], by simp [after_append, after]⟩
    · rcases Z with _ | ⟨z, Z⟩
      · obtain ⟨rfl, rfl⟩ := List.cons.inj hr
        exact ⟨[], l, r, rfl, by simpa using hl.symm, by simp⟩
      · obtain ⟨rfl, rfl⟩ := List.cons.inj hr
        obtain ⟨c, l', r', rfl, rfl, rfl⟩ := ihl hl
        exact ⟨c ++ [⟨.left, w, r⟩], l', r', by simp [plug_append, Frame.fill],
          by simp [before_append, before], by simp [after_append, after]⟩

/-! ## Climbing -/

/-- Parent links that are exact but for the root's. -/
def ExactBelow (actual expected : Option A) : Prop := expected = none ∨ actual = expected

theorem Rep.exactBelow {nil : Option A} {h : Heap A δ} {par p : Option A} {t : BinaryTree (A × δ)}
    (hr : Rep nil (· = ·) h par p t) : Rep nil ExactBelow h none p t :=
  (hr.imp fun _ _ _ ↦ .inr).reparent fun _ _ _ ↦ .inl rfl

variable [DecidableEq A]

/-- Climbs from a cell to the first one above it that has it on its left; there is none if the
climb comes to the root. -/
def climb (h : Heap A δ) (root : Option A) : Nat → Option A → Exec (Option A)
  | 0, _ => Exec.timeout
  | fuel + 1, p => do
    let n ← h.load p
    if p = root then
      pure none
    else
      let m ← h.load n.parent
      if p = m.left then pure n.parent else climb h root fuel n.parent

/-- A climb ends at the first cell to the right of the focus. -/
theorem climb_eq {nil root : Option A} {h : Heap A δ} {c : Ctx (A × δ)} {a : A} {fuel : Nat}
    (hc : CtxRep nil ExactBelow h root c (some a)) (hn : some a ≠ nil)
    (hpar : ExactBelow (h a).parent (ctxParent c)) (hnd : (ctxAddrs c).Nodup)
    (ha : a ∉ ctxAddrs c) (hfuel : c.length < fuel) :
    climb h root fuel (some a) = .ok ((after c).head?.map Prod.fst) := by
  induction c generalizing a fuel with
  | nil =>
    obtain ⟨fuel, rfl⟩ := Nat.exists_eq_add_of_lt hfuel
    simp [climb, ctxRep_nil.mp hc]
  | cons f c ih =>
    obtain ⟨b, hb, hroot⟩ := hc.root_mem
    have hne : some a ≠ root := fun e ↦ ha (Option.some.inj (e.trans hroot) ▸ hb)
    have hup : (h a).parent = some f.val.1 := by simpa [ExactBelow] using hpar
    obtain ⟨fuel, rfl⟩ : ∃ n, fuel = n + 1 := ⟨fuel - 1, by simp at hfuel; omega⟩
    obtain ⟨hfn, hchild, -, hfpar, hsib, hc'⟩ := ctxRep_cons.mp hc
    obtain ⟨-, hfc, -, hndc, -⟩ := nodup_ctxAddrs_cons.mp hnd
    simp only [climb, Heap.load_some, Exec.ok_bind, if_neg hne, hup]
    obtain ⟨d, v, sib⟩ := f
    cases d with
    | left =>
      have hleft : some a = (h v.1).left := hchild.symm
      simp [hleft, after]
    | right =>
      have hleft : some a ≠ (h v.1).left := by
        rw [show (h v.1).left = ptr nil sib from hsib.eq_ptr]
        exact (ptr_ne (fun hs ↦ ha (by simp [hs])) hn).symm
      simp only [hleft, if_false]
      exact ih hc' hfn hfpar hndc hfc (by simpa using hfuel)

/-! ## Walking -/

omit [DecidableEq A] in
/-- The cells passed on the way from `p` by repeating `next` until it yields the null pointer. -/
def walk (next : Nat → Option A → Exec (Option A)) : Nat → Option A → Exec (List A)
  | 0, _ => Exec.timeout
  | _ + 1, none => pure []
  | fuel + 1, some a => do
    let q ← next fuel (some a)
    let L ← walk next fuel q
    pure (a :: L)

omit [DecidableEq A] in
/-- A walk by a function that leads from each element of a list to the one behind it. -/
theorem walk_eq {next : Nat → Option A → Exec (Option A)} {L : List A} {m : Nat}
    (hnext : ∀ X a Y fuel, L = X ++ a :: Y → m ≤ fuel → next fuel (some a) = .ok Y.head?)
    {X Y : List A} {fuel : Nat} (hL : L = X ++ Y) (hfuel : m + Y.length < fuel) :
    walk next fuel Y.head? = .ok Y := by
  induction Y generalizing X fuel with
  | nil =>
    obtain ⟨fuel, rfl⟩ := Nat.exists_eq_add_of_lt hfuel
    rfl
  | cons a Y ih =>
    obtain ⟨fuel, rfl⟩ : ∃ n, fuel = n + 1 := ⟨fuel - 1, by omega⟩
    rw [List.length_cons] at hfuel
    have hrest : walk next fuel Y.head? = .ok Y := ih (X := X ++ [a]) (by simp [hL]) (by omega)
    simp [walk, hnext X a Y fuel hL (by omega), hrest]

end Cmem
