import Dlbase.Rbtree.Delete

/-!
# Parent links after a red-black deletion

All paths of `dl_rbtree_delete` but one keep the parent links exact.  When the root has one child,
the child becomes the root and keeps its parent link, which leads to the deleted node.
-/

namespace Dlbase.Rbtree

open Cmem BinaryTree

variable {s : State} {T : Shape} {x bak : Addr} {L : List (Addr × Int)}

/-- Every node of `T` is the parent of its children, the root has none, and no parent link leads to
the nodes `x` and `bak`. -/
structure ParentsExact (s : State) (T : Shape) (x bak : Addr) : Prop where
  /-- Each node's parent is the node whose child it is. -/
  child : ∀ a ∈ addrs T, ∀ d b, (s.cells a).child d = some b → some b ≠ s.sentinel →
    (s.cells b).parent = some a
  /-- The root has no parent. -/
  root : ∀ a ∈ addrs T, s.root = some a → (s.cells a).parent = none
  /-- The deleted node and its copy are no parents. -/
  gone : ∀ a ∈ addrs T, (s.cells a).parent ≠ some x ∧ (s.cells a).parent ≠ some bak

/-- The node `x` is the root and has one child. -/
def OneChildRoot (s : State) (x : Addr) : Prop :=
  s.root = some x ∧ ¬ ((s.cells x).left = s.sentinel ↔ (s.cells x).right = s.sentinel)

theorem LinkedUnder.parentsExact (h : LinkedUnder none s T) (hx : x ∉ addrs T)
    (hbak : bak ∉ addrs T) : ParentsExact s T x bak where
  child := h.rep.parent_child
  root a ha hroot := by
    cases T with
    | nil => simp at ha
    | node v l r =>
      obtain ⟨hp, -, -, hpar, -⟩ := h.rep
      rwa [Option.some.inj (hroot.symm.trans hp)]
  gone a ha := by
    rcases h.rep.parent_mem a ha with he | ⟨b, hb, he⟩
    · simp [he]
    · rw [he]
      exact ⟨fun e ↦ hx (Option.some.inj e ▸ hb), fun e ↦ hbak (Option.some.inj e ▸ hb)⟩

theorem LinkedUnder.not_parentsExact (h : LinkedUnder (some x) s T) (hT : T ≠ .nil) :
    ¬ ParentsExact s T x bak := by
  intro hexact
  obtain ⟨a, v, l, r, rfl, hroot⟩ := h.rep.exists_node (mt h.rep.eq_nil_iff.mpr hT)
  obtain ⟨-, -, -, hpar, -⟩ := h.rep
  exact (hexact.gone a (by simp)).1 hpar

theorem idents_eq_nil : idents T = [] ↔ T = .nil := by
  cases T <;> simp

/-- A node below the root is not a root with one child. -/
theorem not_oneChildRoot_of_cons {f : Frame (Addr × Data)} {c : Path} {e : Side} {v : Data}
    {t u : Shape} (h : Holds s (plug (f :: c) (sideNode e (x, v) t u))) : ¬ OneChildRoot s x := by
  rintro ⟨hroot, -⟩
  obtain ⟨b, hb, hrootb⟩ := h.focus.1.root_mem
  obtain rfl : b = x := Option.some.inj (hrootb.symm.trans hroot)
  exact (nodup_addrs_plug.mp h.nodup).2.2 b hb (by simp)

/-- A node is a root with one child if exactly one of its subtrees is empty. -/
theorem oneChildRoot_iff {v : Data} {l r : Shape} (h : Holds s (.node (x, v) l r)) :
    OneChildRoot s x ↔ ¬ (l = .nil ↔ r = .nil) := by
  obtain ⟨hroot, -, -, -, hl, hr⟩ := h.rep
  rw [OneChildRoot, hl.eq_nil_iff, hr.eq_nil_iff]
  exact and_iff_right hroot

/-- The deleted root was the only node. -/
theorem DeletesUnder.of_empty {par : Ptr} {run : Exec State} (h : DeletesUnder par s T x run)
    (hT : (idents T).filter (·.1 ≠ x) = []) : DeletesUnder none s T x run := by
  obtain ⟨s', T', hrun, hlinked, hid, hrest⟩ := h
  obtain rfl : T' = .nil := idents_eq_nil.mp (hid.trans hT)
  exact ⟨s', .nil, hrun, ⟨hlinked.rep, hlinked.nodup, hlinked.sentinel⟩, hid, hrest⟩

/-- Where the parent link of the new root leads after `dl_rbtree_delete`. -/
theorem delete_under {fuel : Nat} (h : Holds s T) (hrb : RedBlack IsRed T) (hx : x ∈ addrs T)
    (hbak : bak ∉ addrs T) (hbs : some bak ≠ s.sentinel) (hfuel : T.height < fuel) :
    (¬ OneChildRoot s x ∧ DeletesUnder none s T x (delete fuel s (some x) bak)) ∨
    (OneChildRoot s x ∧ (idents T).filter (·.1 ≠ x) ≠ [] ∧
      DeletesUnder (some x) s T x (delete fuel s (some x) bak)) := by
  obtain ⟨⟨y, v⟩, hv, rfl⟩ := List.mem_map.mp hx
  obtain ⟨c, l, r, rfl⟩ := exists_plug_of_mem hv
  have hone : ∀ e t, .node (y, v) l r = sideNode e (y, v) .nil t →
      (¬ OneChildRoot s y ∧ DeletesUnder none s (plug c (.node (y, v) l r)) y
        (delete fuel s (some y) bak)) ∨
      (OneChildRoot s y ∧ (idents (plug c (.node (y, v) l r))).filter (·.1 ≠ y) ≠ [] ∧
        DeletesUnder (some y) s (plug c (.node (y, v) l r)) y (delete fuel s (some y) bak)) := by
    intro e t hlr
    have hfilter := filter_idents_plug h.nodup
    cases c with
    | cons f c =>
      rw [hlr] at h hrb hbak hfuel ⊢
      have hlen := length_le_height_plug (f :: c) (sideNode e (y, v) .nil t)
      exact .inl ⟨not_oneChildRoot_of_cons h, delete_one h hrb hbak hbs (by omega)⟩
    | nil =>
      have hroot : OneChildRoot s y ↔ t ≠ .nil := by
        rw [oneChildRoot_iff h]
        cases e <;> cases hlr <;> simp
      have hempty : (idents (plug [] (.node (y, v) l r))).filter (·.1 ≠ y) = [] ↔ t = .nil := by
        rw [hfilter]
        cases e <;> cases hlr <;> simp [idents_eq_nil]
      have hdel : DeletesUnder (some y) s (plug [] (.node (y, v) l r)) y
          (delete fuel s (some y) bak) := by
        rw [hlr] at h hrb ⊢
        exact delete_root h hrb
      by_cases ht : t = .nil
      · exact .inl ⟨fun ho ↦ hroot.mp ho ht, hdel.of_empty (hempty.mpr ht)⟩
      · exact .inr ⟨hroot.mpr ht, mt hempty.mp ht, hdel⟩
  by_cases hl : l = .nil
  · exact hone .left r (by rw [hl]; rfl)
  by_cases hr : r = .nil
  · exact hone .right l (by rw [hr]; rfl)
  refine .inl ⟨?_, delete_two h hrb hl hr hbak hbs hfuel⟩
  cases c with
  | nil => simp [oneChildRoot_iff h, hl, hr]
  | cons f c => exact not_oneChildRoot_of_cons (e := .left) h

/-- After deleting a node from a valid red-black tree the parent links are exact, and lead neither to
the node nor to its copy on the stack, exactly if the node was not a root with one child. -/
theorem delete_parents (h : IsRbtree s L T) (hx : x ∈ addrs T) (hbak : bak ∉ addrs T)
    (hbs : some bak ≠ s.sentinel) :
    ∃ s' T', Returns (fun fuel ↦ delete fuel s (some x) bak) s' ∧ Linked s' T' ∧
      idents T' = (idents T).filter (·.1 ≠ x) ∧
      (ParentsExact s' T' x bak ↔ ¬ OneChildRoot s x) := by
  have hgone : ∀ {T'}, idents T' = (idents T).filter (·.1 ≠ x) → x ∉ addrs T' ∧ bak ∉ addrs T' := by
    intro T' hid
    rw [addrs_eq_idents, hid]
    constructor
    · simp
    · intro hb
      rw [addrs_eq_idents] at hbak
      obtain ⟨i, hi, rfl⟩ := List.mem_map.mp hb
      exact hbak (List.mem_map_of_mem (List.mem_filter.mp hi).1)
  rcases delete_under h.holds h.redBlack hx hbak hbs (Nat.lt_succ_self _) with
    ⟨hone, s', T', hrun, hlinked, hid, -⟩ | ⟨hone, hne, s', T', hrun, hlinked, hid, -⟩
  · obtain ⟨hxT, hbT⟩ := hgone hid
    exact ⟨s', T', (steady_delete _ _ _).returns hrun, hlinked.linked, hid,
      iff_of_true (hlinked.parentsExact hxT hbT) hone⟩
  · refine ⟨s', T', (steady_delete _ _ _).returns hrun, hlinked.linked, hid,
      iff_of_false (hlinked.not_parentsExact ?_) (not_not.mpr hone)⟩
    rintro rfl
    exact hne hid.symm

theorem delete_parents_threeNodes : ∃ s' T',
    Returns (fun fuel ↦ delete fuel threeNodes (some 1) 7) s' ∧ Linked s' T' ∧
      idents T' = [(2, 10), (3, 30)] ∧ ParentsExact s' T' 1 7 := by
  obtain ⟨s', T', hret, hlinked, hid, hexact⟩ := delete_parents isRbtree_threeNodes
    (show 1 ∈ _ by decide) (show 7 ∉ _ by decide) (by decide)
  exact ⟨s', T', hret, hlinked, by rw [hid]; decide, hexact.mpr (by unfold OneChildRoot; decide)⟩

/-- A tree of two nodes, the root black and its right child red. -/
def twoNodes : State where
  root := some 1
  sentinel := some 100
  insert := insertValue
  cells a :=
    if a = 1 then ⟨some 100, some 2, none, ⟨10, .black⟩⟩
    else if a = 2 then ⟨some 100, some 100, some 1, ⟨20, .red⟩⟩
    else ⟨none, none, none, ⟨0, .black⟩⟩

theorem isRbtree_twoNodes : IsRbtree twoNodes [(1, 10), (2, 20)]
    (.node (1, ⟨10, .black⟩) .nil (.node (2, ⟨20, .red⟩) .nil .nil)) where
  holds := ⟨by simp [rep_node, twoNodes], by decide, 100, rfl, rfl⟩
  nodes := .refl _
  ordered := by simp [Ordered]
  redBlack := redBlack_iff.mpr ⟨1, .black nofun .nil (.red rfl .nil .nil)⟩

/-- Deleting the root of two nodes leaves a root whose parent is the deleted node. -/
theorem delete_leaves_parent : ¬ ∀ s L T x bak, IsRbtree s L T → x ∈ addrs T → bak ∉ addrs T →
    some bak ≠ s.sentinel → ∃ s' T', Returns (fun fuel ↦ delete fuel s (some x) bak) s' ∧
      Linked s' T' ∧ idents T' = (idents T).filter (·.1 ≠ x) ∧ ParentsExact s' T' x bak := by
  intro hall
  obtain ⟨s', T', ⟨N, hN⟩, ⟨⟨par, hr⟩, -, -⟩, hid, hexact⟩ := hall _ _ _ 1 7 isRbtree_twoNodes
    (by decide) (by decide) (by decide)
  have hrun : delete N twoNodes (some 1) 7 = .ok s' := hN N (Nat.le_refl N)
  have hmem : (2 : Addr) ∈ addrs T' := by
    rw [addrs_eq_idents, hid]
    decide
  obtain rfl := Except.ok.inj hrun
  exact (hexact.gone 2 hmem).1 rfl

end Dlbase.Rbtree
