import Dlbase.Json.Model

/-!
# Freeing values

`json_free_value` goes to the first leaf below its value, frees it and goes back to its parent,
until it has freed the value itself.  What is left is the tree without that value.
-/

namespace Dlbase.Json

open Cmem Cmem.Rose

variable {m m' : Mem} {H : Cells Node} {v : Nat × Data} {ls rs cs : List (Placed Data)}
  {parent previous next x : Option Nat} {a b : Nat} {n : Node} {t : Placed Data}
  {f : Frame (Nat × Data)} {c : List (Frame (Nat × Data))}

/-! ## Siblings -/

/-- The last of the siblings gets another link. -/
theorem setNext_last (hb : lastAddr none ls = some b)
    (h : Exactly m (cellsAll ls parent previous next + H)) (x : Option Nat) :
    ∃ m', setNext m b x = .ok m' ∧ Exactly m' (cellsAll ls parent previous x + H) := by
  rcases List.eq_nil_or_concat' ls with rfl | ⟨ls, l, rfl⟩
  · cases hb
  · rw [lastAddr_append_singleton] at hb
    obtain rfl := Option.some.inj hb
    have hcells : ∀ y, cellsAll (ls ++ [l]) parent previous y + H =
        cell l.addr { l.root ⟨parent, lastAddr previous ls, next⟩ with next := y } +
          (l.under + (cellsAll ls parent previous (some l.addr) + H)) := by
      intro y
      rw [cellsAll_append, cellsAll_singleton, cells_eq]
      have he : ∀ a b c d : Cells Node, a + (b + c) + d = b + (c + (a + d)) :=
        fun a b c d ↦ by abel
      exact he _ _ _ _
    rw [hcells] at h
    obtain ⟨m', hm', hx⟩ := h.modify ({ · with next := x })
    exact ⟨m', hm', hx.of_eq (hcells x).symm⟩

/-- The first of the siblings gets another link. -/
theorem setPrevious_head (hb : headAddr none rs = some b)
    (h : Exactly m (cellsAll rs parent previous next + H)) (x : Option Nat) :
    ∃ m', setPrevious m b x = .ok m' ∧ Exactly m' (cellsAll rs parent x next + H) := by
  cases rs with
  | nil => cases hb
  | cons r rs =>
    obtain rfl := Option.some.inj hb
    have hcells : ∀ y, cellsAll (r :: rs) parent y next + H =
        cell r.addr { r.root ⟨parent, previous, headAddr next rs⟩ with previous := y } +
          (r.under + (cellsAll rs parent (some r.addr) next + H)) := by
      intro y
      rw [cellsAll, cells_eq, add_assoc, add_assoc]
      rfl
    rw [hcells] at h
    obtain ⟨m', hm', hx⟩ := h.modify ({ · with previous := x })
    exact ⟨m', hm', hx.of_eq (hcells x).symm⟩

theorem setNextOf_last (hb : lastAddr none ls = next)
    (h : Exactly m (cellsAll ls parent previous (some a) + H)) (x : Option Nat) :
    ∃ m', setNextOf m x next = .ok m' ∧ Exactly m' (cellsAll ls parent previous x + H) := by
  cases next with
  | none =>
    rcases List.eq_nil_or_concat' ls with rfl | ⟨ls, l, rfl⟩
    · exact ⟨m, rfl, h⟩
    · rw [lastAddr_append_singleton] at hb
      cases hb
  | some b => exact setNext_last hb h x

theorem setPreviousOf_head (hb : headAddr none rs = previous)
    (h : Exactly m (cellsAll rs parent (some a) next + H)) (x : Option Nat) :
    ∃ m', setPreviousOf m x previous = .ok m' ∧ Exactly m' (cellsAll rs parent x next + H) := by
  cases previous with
  | none =>
    cases rs with
    | nil => exact ⟨m, rfl, h⟩
    | cons r rs => cases hb
  | some b => exact setPrevious_head hb h x

/-- The siblings of a node are linked to each other. -/
theorem unlinkSiblings_spec (hprevious : lastAddr none ls = n.previous)
    (hnext : headAddr none rs = n.next)
    (h : Exactly m (cell a n + (cellsAll ls parent none (some a) +
      (cellsAll rs parent (some a) none + H)))) :
    ∃ m', unlinkSiblings m a = .ok m' ∧
      Exactly m' (cell a n + (cellsAll (ls ++ rs) parent none none + H)) := by
  obtain ⟨m₁, h₁, hm₁⟩ := setNextOf_last hprevious (h.of_eq (add_left_comm _ _ _)) n.next
  have hn := hm₁.of_eq (add_left_comm _ _ _)
  have hswap : ∀ B C D E : Cells Node, B + (C + (D + E)) = D + (C + (B + E)) :=
    fun B C D E ↦ by abel
  obtain ⟨m₂, h₂, hm₂⟩ := setPreviousOf_head hnext (hm₁.of_eq (hswap _ _ _ _)) n.previous
  refine ⟨m₂, ?_, hm₂.of_eq ?_⟩
  · rw [unlinkSiblings, h.get_eq, Exec.ok_bind, h₁, Exec.ok_bind, hn.get_eq, Exec.ok_bind, h₂]
  · rw [hswap, cellsAll_append, hnext, hprevious, add_left_comm, add_assoc]

/-! ## Parents -/

theorem exists_mem_cellsAll (ht : t ∈ ls) (parent previous next : Option Nat) :
    ∃ y, (t.addr, y) ∈ cellsAll ls parent previous next := by
  obtain ⟨l, r, rfl⟩ := List.append_of_mem ht
  rw [cellsAll_append, cellsAll, cells_eq, add_assoc]
  exact ⟨_, Multiset.mem_add.mpr (.inr Holds.mem_cell)⟩

/-- The node at `a` is none of its siblings. -/
theorem addr_ne_of_mem (h : Exactly m (cell a n + (cellsAll ls parent previous next + H)))
    (ht : t ∈ ls) : some t.addr ≠ some a := by
  obtain ⟨y, hy⟩ := exists_mem_cellsAll ht parent previous next
  exact fun he ↦ h.toHolds.ne (Multiset.mem_add.mpr (.inl hy)) (Option.some.inj he)

theorem headAddr_eq_self (h : ∀ t ∈ ls, some t.addr ≠ some a) :
    headAddr x ls = if headAddr (some a) ls = some a then x else headAddr (some a) ls := by
  cases ls with
  | nil => exact (if_pos rfl).symm
  | cons l ls => exact (if_neg (h l List.mem_cons_self)).symm

theorem lastAddr_eq_self (h : ∀ t ∈ ls, some t.addr ≠ some a) :
    lastAddr x ls = if lastAddr (some a) ls = some a then x else lastAddr (some a) ls := by
  rcases List.eq_nil_or_concat' ls with rfl | ⟨ls, l, rfl⟩
  · exact (if_pos rfl).symm
  · rw [lastAddr_append_singleton, lastAddr_append_singleton,
      if_neg (h l (List.mem_append.mpr (.inr (List.mem_singleton_self l))))]

/-- The parent of a node gets the ends of the list of the siblings. -/
theorem unlinkParent_spec {w : Nat × Data} {k : Links} (hprevious : lastAddr none ls = n.previous)
    (hnext : headAddr none rs = n.next) (hparent : n.parent = some w.1)
    (h : Exactly m (cell a n + (cell w.1 ⟨w.2, k.next, k.previous, k.parent, headAddr (some a) ls,
      lastAddr (some a) rs⟩ + (cellsAll (ls ++ rs) (some w.1) none none + H)))) :
    ∃ m', unlinkParent m a = .ok m' ∧
      Exactly m' (cell a n + ((Rose.node w (ls ++ rs)).cells k + H)) := by
  have hne : ∀ t ∈ ls ++ rs, some t.addr ≠ some a := fun t ht ↦
    addr_ne_of_mem (h.of_eq (congrArg _ (add_left_comm _ _ _))) ht
  have hls := headAddr_eq_self (x := n.next) fun t ht ↦ hne t (List.mem_append.mpr (.inl ht))
  have hrs := lastAddr_eq_self (x := n.previous) fun t ht ↦ hne t (List.mem_append.mpr (.inr ht))
  have hw := h.of_eq (add_left_comm _ _ _)
  have hchild : ∃ m₁, (if headAddr (some a) ls = some a then setChild m w.1 n.next else pure m) =
      .ok m₁ ∧ Exactly m₁ (cell w.1 ⟨w.2, k.next, k.previous, k.parent, headAddr n.next ls,
        lastAddr (some a) rs⟩ + (cell a n + (cellsAll (ls ++ rs) (some w.1) none none + H))) := by
    rw [hls]
    split_ifs with hc
    · exact hw.modify ({ · with child := n.next })
    · exact ⟨m, rfl, hw⟩
  obtain ⟨m₁, h₁, hm₁⟩ := hchild
  have hend : ∃ m₂, (if lastAddr (some a) rs = some a then setChildEnd m₁ w.1 n.previous
      else pure m₁) = .ok m₂ ∧ Exactly m₂ (cell w.1 ⟨w.2, k.next, k.previous, k.parent,
        headAddr n.next ls, lastAddr n.previous rs⟩ +
        (cell a n + (cellsAll (ls ++ rs) (some w.1) none none + H))) := by
    rw [hrs]
    split_ifs with hc
    · exact hm₁.modify ({ · with childEnd := n.previous })
    · exact ⟨m₁, rfl, hm₁⟩
  obtain ⟨m₂, h₂, hm₂⟩ := hend
  refine ⟨m₂, ?_, hm₂.of_eq ?_⟩
  · rw [unlinkParent, h.get_eq, Exec.ok_bind]
    simp only [hparent]
    rw [hw.get_eq, Exec.ok_bind]
    simp only
    rw [h₁, Exec.ok_bind, hm₁.get_eq, Exec.ok_bind]
    exact h₂
  · rw [cells, root, children_node, headAddr_append, lastAddr_append, hnext, hprevious,
      add_left_comm, add_assoc]
    rfl

/-! ## A leaf -/

theorem unlinkParent_root (hparent : n.parent = none) (h : Exactly m (cell a n + H)) :
    unlinkParent m a = .ok m := by
  rw [unlinkParent, h.get_eq, Exec.ok_bind]
  simp only [hparent]
  rfl

/-- What is left of a tree without the part at a place. -/
def cut : List (Frame (Nat × Data)) → Cells Node
  | [] => 0
  | f :: c => (plug c (.node f.val (f.left ++ f.right))).cells .none

/-- A leaf is freed. -/
theorem internFreeValue_spec (h : Exactly m ((plug c (.node v [])).cells .none + H)) :
    ∃ m', internFreeValue m v.1 = .ok m' ∧ Exactly m' (cut c + H) := by
  rw [cells_plug] at h
  have hroot : Exactly m (cell v.1 (root (.node v []) (holeLinks .none c)) +
      (around .none c v.1 + H)) := h.of_eq (by
    rw [cells, cellsAll, add_zero, add_assoc]
    rfl)
  have hchild : (root (.node v []) (holeLinks .none c)).child.isSome = false := rfl
  cases c with
  | nil =>
    obtain ⟨m', hm', hx⟩ := hroot.free
    refine ⟨m', ?_, hx⟩
    rw [internFreeValue, hroot.get_eq, Exec.ok_bind, hchild, if_neg Bool.false_ne_true]
    have hsib : unlinkSiblings m v.1 = .ok m := by
      rw [unlinkSiblings, hroot.get_eq, Exec.ok_bind]
      change (m.get v.1 >>= _) = _
      rw [hroot.get_eq, Exec.ok_bind]
      rfl
    rw [hsib, Exec.ok_bind, unlinkParent_root rfl hroot, Exec.ok_bind]
    exact hm'
  | cons f c =>
    have hsplit : Exactly m (cell v.1 (root (.node v []) (holeLinks .none (f :: c))) +
        (cellsAll f.left (some f.addr) none (some v.1) +
          (cellsAll f.right (some f.addr) (some v.1) none +
          (cell f.addr ⟨f.val.2, (holeLinks .none c).next, (holeLinks .none c).previous,
            (holeLinks .none c).parent, headAddr (some v.1) f.left, lastAddr (some v.1) f.right⟩ +
            (around .none c f.addr + H))))) := hroot.of_eq (by
      rw [around]
      abel)
    obtain ⟨m₁, h₁, hm₁⟩ := unlinkSiblings_spec rfl rfl hsplit
    obtain ⟨m₂, h₂, hm₂⟩ := unlinkParent_spec (w := f.val) (k := holeLinks .none c) rfl rfl rfl
      (hm₁.of_eq (congrArg _ (add_left_comm _ _ _)))
    obtain ⟨m₃, h₃, hm₃⟩ := hm₂.free
    refine ⟨m₃, ?_, hm₃.of_eq ?_⟩
    · rw [internFreeValue, hroot.get_eq, Exec.ok_bind, hchild, if_neg Bool.false_ne_true, h₁,
        Exec.ok_bind, h₂, Exec.ok_bind]
      exact h₃
    · rw [cut, cells_plug, add_assoc]
      rfl

/-! ## The tour -/

/-- The node at a place that has a child. -/
theorem freeLoop_child {r : Nat} (hc : t.children = cs) (hcs : headAddr none cs = some b)
    (h : Exactly m ((plug c t).cells .none + H)) {y : Mem}
    (hy : Returns (fun fuel ↦ freeLoop r fuel m (some b)) y) :
    Returns (fun fuel ↦ freeLoop r fuel m (some t.addr)) y := by
  rw [cells_plug, cells_eq, add_assoc, add_assoc] at h
  refine hy.succ fun fuel ↦ ?_
  rw [freeLoop, deref, Exec.ok_bind, h.get_eq, Exec.ok_bind]
  simp only [root, hc, hcs]

/-- The nodes around a place are not at it. -/
theorem addr_ne_of_frame {r : Nat} (hr : r ∈ c.map Frame.addr)
    (h : Holds m ((plug c t).cells .none + H)) : t.addr ≠ r := by
  rw [cells_plug, cells_eq, add_assoc, add_assoc] at h
  have hmem : ∀ (c : List (Frame (Nat × Data))) a, r ∈ c.map Frame.addr →
      ∃ y, (r, y) ∈ around .none c a := by
    intro c
    induction c with
    | nil => exact fun a hr ↦ absurd hr List.not_mem_nil
    | cons f c ih =>
      intro a hr
      rcases List.mem_cons.mp hr with rfl | hr
      · rw [around, add_assoc, add_assoc]
        exact ⟨_, Holds.mem_cell⟩
      · obtain ⟨y, hy⟩ := ih f.addr hr
        exact ⟨y, Multiset.mem_add.mpr (.inr hy)⟩
  obtain ⟨y, hy⟩ := hmem c t.addr hr
  exact (h.ne (Multiset.mem_add.mpr (.inr (Multiset.mem_add.mpr (.inl hy))))).symm

/-- A leaf that is not the value is freed, and the loop goes on with its parent. -/
theorem freeLoop_leaf {r : Nat} (hr : r ∈ (f :: c).map Frame.addr)
    (h : Exactly m ((plug (f :: c) (.node v [])).cells .none + H)) :
    ∃ m', Exactly m' (cut (f :: c) + H) ∧
      ∀ y, Returns (fun fuel ↦ freeLoop r fuel m' (some f.addr)) y →
        Returns (fun fuel ↦ freeLoop r fuel m (some v.1)) y := by
  have hne : v.1 ≠ r := addr_ne_of_frame hr h.toHolds
  obtain ⟨m', hm', hx⟩ := internFreeValue_spec h
  rw [cells_plug, cells_eq, add_assoc, add_assoc] at h
  refine ⟨m', hx, fun y hy ↦ hy.succ fun fuel ↦ ?_⟩
  have hget : m.get v.1 = .ok (root (.node v []) (holeLinks .none (f :: c))) := h.get_eq
  rw [freeLoop, deref, Exec.ok_bind, hget, Exec.ok_bind]
  simp only [root, children_node, headAddr_nil, hm', Exec.ok_bind, if_neg hne]
  rfl

/-- The trees below a node are freed, if each of them is when it is the first one. -/
theorem freeLoop_children {r : Nat} (hcs : ∀ t ∈ cs, ∀ m f c, f.left = [] →
      r ∈ (f :: c).map Frame.addr → Exactly m ((plug (f :: c) t).cells .none + H) →
      ∃ m', Exactly m' (cut (f :: c) + H) ∧
        ∀ y, Returns (fun fuel ↦ freeLoop r fuel m' (some f.addr)) y →
          Returns (fun fuel ↦ freeLoop r fuel m (some t.addr)) y)
    (hr : r ∈ v.1 :: c.map Frame.addr) (h : Exactly m ((plug c (.node v cs)).cells .none + H)) :
    ∃ m', Exactly m' ((plug c (.node v [])).cells .none + H) ∧
      ∀ y, Returns (fun fuel ↦ freeLoop r fuel m' (some v.1)) y →
        Returns (fun fuel ↦ freeLoop r fuel m (some v.1)) y := by
  induction cs generalizing m with
  | nil => exact ⟨m, h, fun _ ↦ id⟩
  | cons t cs ih =>
    obtain ⟨m₁, hm₁, h₁⟩ := hcs t List.mem_cons_self m ⟨v, [], cs⟩ c rfl hr h
    obtain ⟨m₂, hm₂, h₂⟩ := ih (fun u hu ↦ hcs u (List.mem_cons_of_mem _ hu)) hm₁
    exact ⟨m₂, hm₂, fun y hy ↦ freeLoop_child (t := .node v (t :: cs)) rfl rfl h (h₁ y (h₂ y hy))⟩

/-- A tree below the value that is the first child of its parent is freed. -/
theorem freeLoop_below {r : Nat} (t : Placed Data) : ∀ m f c, f.left = [] →
    r ∈ (f :: c).map Frame.addr → Exactly m ((plug (f :: c) t).cells .none + H) →
    ∃ m', Exactly m' (cut (f :: c) + H) ∧
      ∀ y, Returns (fun fuel ↦ freeLoop r fuel m' (some f.addr)) y →
        Returns (fun fuel ↦ freeLoop r fuel m (some t.addr)) y := by
  induction t using Rose.ind with
  | step v cs ih =>
    intro m f c hf hr h
    obtain ⟨m₁, hm₁, h₁⟩ := freeLoop_children ih (List.mem_cons_of_mem _ hr) h
    obtain ⟨m₂, hm₂, h₂⟩ := freeLoop_leaf hr hm₁
    exact ⟨m₂, hm₂, fun y hy ↦ h₁ y (h₂ y hy)⟩

/-- A value is freed, with all that is below it, and nothing else. -/
theorem freeValue_returns (h : Exactly m ((plug c t).cells .none + H)) :
    ∃ m', Returns (fun fuel ↦ freeValue fuel m (some t.addr)) m' ∧ Exactly m' (cut c + H) := by
  obtain ⟨v, cs⟩ := t
  obtain ⟨m₁, hm₁, h₁⟩ := freeLoop_children (r := v.1) (fun t _ ↦ freeLoop_below t)
    List.mem_cons_self h
  obtain ⟨m₂, h₂, hm₂⟩ := internFreeValue_spec hm₁
  refine ⟨m₂, h₁ m₂ (returns_of_succ fun fuel ↦ ?_), hm₂⟩
  rw [cells_plug, cells_eq, add_assoc, add_assoc] at hm₁
  have hget : m₁.get v.1 = .ok (root (.node v []) (holeLinks .none c)) := hm₁.get_eq
  rw [freeLoop, deref, Exec.ok_bind, hget, Exec.ok_bind]
  simp only [root, children_node, headAddr_nil, h₂, Exec.ok_bind, if_true]
  rfl

end Dlbase.Json
