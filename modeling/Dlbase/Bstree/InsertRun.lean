import Dlbase.Bstree.Insert

/-!
# Sequences of AVL insertions

The trees reached from `dl_bstree_init` by any sequence of `dl_bstree_insert` calls with fresh
nodes of different keys, and what `dl_bstree_find_by_key` finds in them.
-/

namespace Dlbase.Bstree

open Cmem BinaryTree

variable {s s' : State} {T : Shape} {L : List (Addr × Int)} {h : Cells} {par p : Ptr} {a x : Addr}
  {v : Data} {t l r : Shape} {k : Int}

/-- The state holds the AVL tree `T` of the nodes `L`. -/
structure IsBstree (s : State) (L : List (Addr × Int)) (T : Shape) : Prop where
  /-- The links make up the tree; the parent links are the inverses of the child links. -/
  rep : Rep none (· = ·) s.cells none s.root T
  /-- No node occurs twice. -/
  nodup : (addrs T).Nodup
  /-- The nodes are those of `L`. -/
  nodes : (idents T).Perm L
  /-- It is a search tree. -/
  ordered : Ordered T
  /-- The stored heights are the real ones. -/
  exact : Exact T
  /-- It is balanced. -/
  avl : Avl T

/-! ## Searching -/

/-- A search yields the node with the key, if there is one. -/
theorem find_eq {P : Ptr → Ptr → Prop} {fuel : Nat} (hr : Rep none P h par p t) (ho : Ordered t)
    (hfuel : t.height < fuel) : ∃ q, find fuel h p k = .ok q ∧ ∀ a, q = some a ↔ (a, k) ∈ idents t := by
  induction t generalizing par p fuel with
  | nil =>
    obtain rfl : p = none := hr
    obtain ⟨m, rfl⟩ : ∃ m, fuel = m + 1 := ⟨fuel - 1, by omega⟩
    exact ⟨none, rfl, by simp⟩
  | node v l r ihl ihr =>
    obtain ⟨b, v⟩ := v
    rw [height_node] at hfuel
    obtain ⟨fuel, rfl⟩ : ∃ m, fuel = m + 1 := ⟨fuel - 1, by omega⟩
    obtain rfl : p = some b := hr.1
    rw [Ordered, idents_node, List.pairwise_append, List.pairwise_cons] at ho
    obtain ⟨hol, ⟨hvr, hor⟩, hlv⟩ := ho
    have hkl : ∀ a, (a, k) ∈ idents l → k < v.key := fun a ha ↦ hlv _ ha (b, v.key) (by simp)
    have hkr : ∀ a, (a, k) ∈ idents r → v.key < k := fun a ha ↦ hvr _ ha
    simp only [find, reduceCtorEq, if_false, key_eq hr, left_eq hr, right_eq hr, Exec.ok_bind,
      idents_node, List.mem_append, List.mem_cons]
    rcases Int.lt_trichotomy k v.key with hlt | heq | hgt
    · obtain ⟨q, hq, hmem⟩ := ihl (rep_left hr) hol (show _ < fuel by omega)
      refine ⟨q, by simpa [hlt, Int.ne_of_gt hlt] using hq, fun a ↦ ?_⟩
      rw [hmem]
      refine ⟨.inl, fun ha ↦ ?_⟩
      rcases ha with ha | ha | ha
      · exact ha
      · cases ha
        exact absurd hlt (Int.lt_irrefl _)
      · exact absurd (hkr a ha) (by omega)
    · refine ⟨some b, by simp [heq], fun a ↦ ?_⟩
      subst heq
      refine ⟨fun e ↦ .inr (.inl (by cases e; rfl)), fun ha ↦ ?_⟩
      rcases ha with ha | ha | ha
      · exact absurd (hkl a ha) (by omega)
      · cases ha
        rfl
      · exact absurd (hkr a ha) (by omega)
    · obtain ⟨q, hq, hmem⟩ := ihr (rep_right hr) hor (show _ < fuel by omega)
      refine ⟨q, by simpa [Int.lt_asymm hgt, Int.ne_of_lt hgt] using hq, fun a ↦ ?_⟩
      rw [hmem]
      refine ⟨fun ha ↦ .inr (.inr ha), fun ha ↦ ?_⟩
      rcases ha with ha | ha | ha
      · exact absurd (hkl a ha) (by omega)
      · cases ha
        exact absurd hgt (Int.lt_irrefl _)
      · exact ha

theorem steady_find (h : Cells) (p : Ptr) (k : Int) : Steady fun fuel ↦ Bstree.find fuel h p k := by
  intro fuel
  induction fuel generalizing p with
  | zero => exact .timeout _
  | succ fuel ih =>
    refine .ite (.refl _) (.bind_right _ fun c ↦ .ite (.refl _) (.ite ?_ ?_))
    · exact .bind_right _ fun q ↦ ih q
    · exact .bind_right _ fun q ↦ ih q

/-- `dl_bstree_find_by_key` finds a node exactly for the keys of the tree. -/
theorem IsBstree.find (h : IsBstree s L T) (k : Int) :
    ∃ q, Returns (fun fuel ↦ findByKey fuel s k) q ∧ ∀ a, q = some a ↔ (a, k) ∈ L := by
  obtain ⟨q, hq, hmem⟩ := find_eq (k := k) h.rep h.ordered (Nat.lt_succ_self _)
  exact ⟨q, (steady_find _ _ _).returns hq, fun a ↦ (hmem a).trans h.nodes.mem_iff⟩

/-! ## Inserting into a tree -/

theorem steady_insertValue (h : Cells) (target node : Ptr) :
    Steady fun fuel ↦ insertValue fuel h target node := by
  intro fuel
  induction fuel generalizing h target with
  | zero => exact .timeout _
  | succ fuel ih =>
    have hbelow : ∀ d, Exec.Extends
        (insertBelow (fun h c ↦ insertValue fuel h c node) h d target node)
        (insertBelow (fun h c ↦ insertValue (fuel + 1) h c node) h d target node) := fun d ↦
      .bind_right _ fun c ↦ .ite (.refl _) (.bind (ih h c) fun _ ↦ .refl _)
    exact .bind_right _ fun _ ↦ .bind_right _ fun _ ↦ .ite (hbelow _) (.ite (hbelow _) (.refl _))

theorem steady_insert (s : State) (node : Ptr) (hins : s.insert = insertValue) :
    Steady fun fuel ↦ insert fuel s node := by
  intro fuel
  simp only [insert, hins]
  refine .bind_right _ fun h₁ ↦ .bind_right _ fun h₂ ↦ .bind_right _ fun h₃ ↦ .bind_right _
    fun h₄ ↦ .ite (.refl _) (.bind (steady_insertValue _ _ _ fuel) fun _ ↦ .refl _)

/-- A tree that leaves an address free is not too high for its heights to be stored. -/
theorem height_lt_of_fresh (ha : Avl t) (hnd : (addrs t).Nodup) (hx : x ∉ addrs t) :
    t.height + 1 < 2 ^ 64 := by
  have hle : (BinaryTree.node (x, (⟨0, 0⟩ : Data)) t .nil).numNodes ≤ 2 ^ 64 :=
    numNodes_le (nodup_addrs_sideNode (s := .left).mpr ⟨hx, by simp, hnd, .nil, by simp⟩)
  rw [BinaryTree.numNodes, BinaryTree.numNodes] at hle
  by_cases h3 : 3 ≤ t.height
  · have := ha.height_lt_numNodes h3
    omega
  · omega

/-- `dl_bstree_insert` of a fresh node with a new key keeps the tree an AVL tree. -/
theorem insert_spec {fuel : Nat} (h : IsBstree s L T) (hins : s.insert = insertValue)
    (hk : (s.cells x).data.key = k) (hx : x ∉ addrs T) (hkey : ∀ i ∈ idents T, i.2 ≠ k)
    (hfuel : T.height < fuel) : ∃ s' p T', insert fuel s (some x) = .ok (s', p) ∧
      IsBstree s' ((x, k) :: L) T' ∧ s'.insert = insertValue := by
  -- the new node is made a leaf
  let h₀ := (((s.cells.upd x (·.mapData ({ · with height := 1 }))).upd x
    (·.setChild .left none)).upd x (·.setChild .right none)).upd x (·.setParent none)
  have hx₀ : h₀ x = ⟨none, none, none, ⟨k, 1⟩⟩ := by
    simp [h₀, Cell.setChild, Cell.setParent, Cell.mapData, hk]
  have hold₀ : ∀ b, b ≠ x → h₀ b = s.cells b := fun b hb ↦ by simp [h₀, hb]
  have hleaf : Rep none (· = ·) h₀ none (some x) (.node (x, ⟨k, 1⟩) .nil .nil) := by
    simp [rep_node, hx₀]
  have hrun₀ : insert fuel s (some x) = if s.root = none then
        .ok ({ s with root := some x, cells := h₀ }, some x)
      else (s.insert fuel h₀ s.root (some x) >>= fun y ↦
        if y.2 = none then .ok ({ s with cells := y.1 }, none)
        else .ok ({ s with root := y.2, cells := y.1 }, y.2)) := rfl
  by_cases hT : T = .nil
  · subst hT
    have hroot : s.root = none := h.rep
    have hL : L = [] := by simpa using h.nodes.symm
    refine ⟨{ s with root := some x, cells := h₀ }, some x, .node (x, ⟨k, 1⟩) .nil .nil,
      by rw [hrun₀, if_pos hroot], ⟨hleaf, by simp [addrs], by simp [hL], by simp [Ordered],
        by simp [BinaryTree.height], by simp⟩, hins⟩
  · have hroot : s.root ≠ none := fun e ↦ hT (h.rep.eq_nil_iff.mpr e)
    obtain ⟨T', hT', hgrown⟩ := inserted_grown (x := x) h.avl h.exact hkey
      (height_lt_of_fresh h.avl h.nodup hx)
    have hr₀ : Rep none (· = ·) h₀ none s.root T :=
      h.rep.congr fun b hb ↦ hold₀ b fun e ↦ hx (e ▸ hb)
    obtain ⟨h₁, q, hrun, hq, hr₁, -⟩ := insertValue_makes hT hr₀ h.nodup hx hleaf
      (Nat.le_of_lt hfuel) hT'
    obtain rfl : q = none := by simpa using hq
    have hne : ptr none T' ≠ none := fun e ↦ by
      have hnil := hr₁.eq_nil_iff.mpr e
      simpa [hnil] using (mem_addrs_inserted hT').mpr (.inl rfl)
    refine ⟨{ s with root := ptr none T', cells := h₁ }, _, T', by rw [hrun₀, if_neg hroot, hins, hrun, Exec.ok_bind, if_neg hne],
      ⟨hr₁, (nodup_addrs_inserted hT').mpr ⟨hx, h.nodup⟩,
        (idents_inserted_perm hT').trans (h.nodes.cons _), h.ordered.inserted hT', hgrown.exact,
        hgrown.avl⟩, hins⟩

/-! ## Sequences of insertions -/

/-- The states reached from `dl_bstree_init` by insertions that return, with the inserted nodes.
Each call is given a fresh node with a new key; what else the node contains is up to the
caller. -/
inductive Inserted (cells : Cells) : List (Addr × Int) → State → Prop where
  /-- The tree has been set up. -/
  | init : Inserted cells [] (init cells insertValue)
  /-- One more node has been inserted. -/
  | insert {L : List (Addr × Int)} {s s' : State} {x : Addr} {node : Cell Addr Data} {p : Ptr} :
      Inserted cells L s → x ∉ L.map Prod.fst → node.data.key ∉ L.map Prod.snd →
      Returns (fun fuel ↦ insert fuel { s with cells := s.cells.upd x fun _ ↦ node } (some x))
        (s', p) →
      Inserted cells ((x, node.data.key) :: L) s'

theorem isBstree_init (cells : Cells) : IsBstree (init cells insertValue) [] .nil where
  rep := rfl
  nodup := .nil
  nodes := .nil
  ordered := .nil
  exact := trivial
  avl := trivial

/-- Every call returns and leaves an AVL tree of the inserted nodes. -/
theorem IsBstree.step {node : Cell Addr Data} (h : IsBstree s L T) (hins : s.insert = insertValue)
    (hx : x ∉ L.map Prod.fst) (hk : node.data.key ∉ L.map Prod.snd) :
    ∃ s' p T', Returns (fun fuel ↦
        Bstree.insert fuel { s with cells := s.cells.upd x fun _ ↦ node } (some x)) (s', p) ∧
      IsBstree s' ((x, node.data.key) :: L) T' ∧ s'.insert = insertValue := by
  have hxT : x ∉ addrs T := by
    rwa [addrs_eq_idents, (h.nodes.map _).mem_iff]
  have hkT : ∀ i ∈ idents T, i.2 ≠ node.data.key := by
    rintro i hi he
    exact hk (List.mem_map.mpr ⟨i, h.nodes.mem_iff.mp hi, he⟩)
  have h₀ : IsBstree { s with cells := s.cells.upd x fun _ ↦ node } L T :=
    { h with rep := h.rep.congr (s.cells.upd_eq_on (fun _ ↦ node) hxT) }
  obtain ⟨s', p, T', hrun, hT', hins'⟩ := insert_spec (k := node.data.key) h₀ hins (by simp) hxT hkT
    (Nat.lt_succ_self _)
  exact ⟨s', p, T', (steady_insert { s with cells := s.cells.upd x fun _ ↦ node } _ hins).returns hrun,
    hT', hins'⟩

theorem Inserted.invariant {cells : Cells} (h : Inserted cells L s) :
    (∃ T, IsBstree s L T) ∧ s.insert = insertValue := by
  induction h with
  | init => exact ⟨⟨.nil, isBstree_init cells⟩, rfl⟩
  | insert _ hx hk hret ih =>
    obtain ⟨⟨T, hT⟩, hins⟩ := ih
    obtain ⟨s', p, T', hret', hT', hins'⟩ := hT.step hins hx hk
    obtain ⟨rfl, rfl⟩ := Prod.mk.inj (hret.unique hret')
    exact ⟨⟨T', hT'⟩, hins'⟩

/-- Every insertion of a fresh node with a new key returns and leaves an AVL tree of exactly the
inserted nodes, in which `dl_bstree_find_by_key` finds a node exactly for the inserted keys. -/
theorem avl_insert_run {cells : Cells} (h : Inserted cells L s) :
    (∃ T, IsBstree s L T) ∧
      (∀ k, ∃ q, Returns (fun fuel ↦ findByKey fuel s k) q ∧ ∀ a, q = some a ↔ (a, k) ∈ L) ∧
      ∀ (x : Addr) (node : Cell Addr Data), x ∉ L.map Prod.fst → node.data.key ∉ L.map Prod.snd →
        ∃ s' p T', Returns (fun fuel ↦
            Bstree.insert fuel { s with cells := s.cells.upd x fun _ ↦ node } (some x)) (s', p) ∧
          IsBstree s' ((x, node.data.key) :: L) T' := by
  obtain ⟨⟨T, hT⟩, hins⟩ := h.invariant
  refine ⟨⟨T, hT⟩, hT.find, fun x node hx hk ↦ ?_⟩
  obtain ⟨s', p, T', hret, hT', -⟩ := hT.step hins hx hk
  exact ⟨s', p, T', hret, hT'⟩

/-- A node with its key set. -/
def keyed (k : Int) : Cell Addr Data := ⟨none, none, none, ⟨k, 0⟩⟩

/-- Inserting 1, 3 and 2, which takes a rotation on the inner side. -/
theorem avl_insert_run_three : ∃ s, Inserted (fun _ ↦ keyed 0) [(3, 2), (2, 3), (1, 1)] s ∧
    (∃ T, IsBstree s [(3, 2), (2, 3), (1, 1)] T) ∧
    Returns (fun fuel ↦ findByKey fuel s 2) (some 3) := by
  obtain ⟨s₁, p₁, T₁, hret₁, hT₁, hins₁⟩ := (isBstree_init fun _ ↦ keyed 0).step (x := 1)
    rfl (by decide) (show (keyed 1).data.key ∉ _ by decide)
  obtain ⟨s₂, p₂, T₂, hret₂, hT₂, hins₂⟩ := hT₁.step (x := 2) hins₁ (by decide)
    (show (keyed 3).data.key ∉ _ by decide)
  obtain ⟨s₃, p₃, T₃, hret₃, hT₃, hins₃⟩ := hT₂.step (x := 3) hins₂ (by decide)
    (show (keyed 2).data.key ∉ _ by decide)
  have h₃ : Inserted (fun _ ↦ keyed 0) [(3, 2), (2, 3), (1, 1)] s₃ :=
    ((Inserted.init.insert (by decide) (by decide) hret₁).insert (by decide) (by decide)
      hret₂).insert (by decide) (by decide) hret₃
  obtain ⟨htree, hfind, -⟩ := avl_insert_run h₃
  obtain ⟨q, hq, hmem⟩ := hfind 2
  obtain rfl := (hmem 3).mpr (by decide)
  exact ⟨s₃, h₃, htree, hq⟩

end Dlbase.Bstree
