import Dlbase.Bstree.Shape

/-!
# AVL insertion on shapes

What `dl_bstree_insert_value` and `dl_bstree_insert_repair` compute, on the tree instead of the
memory.  The repair picks its case by comparing the new key with the key of the higher child.
This is right because a subtree that has become higher leans towards the new key (`Grown`).
-/

namespace Dlbase.Bstree

open Cmem BinaryTree

variable {v x : Addr × Data} {l r t a b c : Shape} {k : Int}

/-! ## Rebalancing after an insertion -/

/-- `dl_bstree_insert_repair`, at a subtree into which the key `k` has been inserted. -/
def insertRepaired (k : Int) : Shape → Option Shape
  | .nil => none
  | .node v l r =>
    let balance := toInt (subWord (storedHeight l) (storedHeight r))
    if 1 < balance then
      match l with
      | .nil => none
      | .node x _ _ =>
        if k < x.2.key then rotR (.node v l r)
        else if x.2.key < k then (rotL l).bind fun l' ↦ rotR (.node v l' r)
        else some (raise (.node v l r))
    else if balance < -1 then
      match r with
      | .nil => none
      | .node x _ _ =>
        if x.2.key < k then rotL (.node v l r)
        else if k < x.2.key then (rotR r).bind fun r' ↦ rotL (.node v l r')
        else some (raise (.node v l r))
    else
      some (raise (.node v l r))

/-- `dl_bstree_insert_value` for a key that is not in the tree: the node `x` with the key `k`
becomes a leaf, and every subtree on the way up is rebalanced. -/
def inserted (x : Addr) (k : Int) : Shape → Option Shape
  | .nil => some (.node (x, ⟨k, 1⟩) .nil .nil)
  | .node v l r =>
    if k < v.2.key then (inserted x k l).bind fun l' ↦ insertRepaired k (.node v l' r)
    else if v.2.key < k then (inserted x k r).bind fun r' ↦ insertRepaired k (.node v l r')
    else none

/-- The tree `t'` has come from `t` by inserting `k`: it is at most one higher, and then it leans
towards `k`. -/
structure Grown (k : Int) (t t' : Shape) : Prop where
  /-- It is balanced. -/
  avl : Avl t'
  /-- Its heights are exact. -/
  exact : Exact t'
  /-- It has not become lower. -/
  le : t.height ≤ t'.height
  /-- It has become one higher at most. -/
  le_succ : t'.height ≤ t.height + 1
  /-- Where it has become higher, the side of `k` is the higher one. -/
  lean : t ≠ .nil → t.height < t'.height → ∃ v l r, t' = .node v l r ∧
    ((k < v.2.key ∧ l.height = r.height + 1) ∨ (v.2.key < k ∧ r.height = l.height + 1))

theorem insertRepaired_left {l' : Shape} (hv : k < v.2.key) (ht : Avl (.node v l r))
    (hr : Exact r) (hl' : Grown k l l') (hb : max l.height r.height + 2 < 2 ^ 64) :
    ∃ t', insertRepaired k (.node v l' r) = some t' ∧ Grown k (.node v l r) t' := by
  obtain ⟨hlr, hrl, -, har⟩ := avl_node.mp ht
  obtain ⟨hal, hel, hle, hle', hlean⟩ := hl'
  have hbal := balance_eq hel hr (by omega) (by omega) (by omega)
  have hstay : ¬ 1 < toInt (subWord (storedHeight l') (storedHeight r)) →
      insertRepaired k (.node v l' r) = some (raise (.node v l' r)) := fun h1 ↦ by
    have h2 : ¬ toInt (subWord (storedHeight l') (storedHeight r)) < -1 := by omega
    simp only [insertRepaired, h1, h2, if_false]
  by_cases hup : l'.height = r.height + 2
  · -- the left subtree has become too high
    have hne : l ≠ .nil := fun h ↦ by simp [h] at hle'; omega
    obtain ⟨x, a, b, rfl, hside⟩ := hlean hne (by omega)
    obtain ⟨hab, hba, haa, hab'⟩ := avl_node.mp hal
    obtain ⟨-, hea, heb⟩ := exact_node.mp hel
    rw [height_node] at hup hle'
    have hbig : 1 < toInt (subWord (storedHeight (.node x a b)) (storedHeight r)) := by
      rw [hbal, height_node]
      omega
    rcases hside with ⟨hx, hab⟩ | ⟨hx, hba⟩
    · -- on the outer side: one rotation
      refine ⟨raise (.node x a (raise (.node v b r))), ?_, ⟨?_, ?_, ?_, ?_, fun _ hlt ↦ ?_⟩⟩
      · simp only [insertRepaired, hbig, hx, if_true, rotR_node]
      · simp only [avl_raise, avl_node, height_node_raise]
        exact ⟨by omega, by omega, haa, by omega, by omega, hab', har⟩
      · exact exact_raise hea (exact_raise heb hr (by omega)) (by
          rw [height_node_raise]
          omega)
      · simp only [height_node_raise, height_node]
        omega
      · simp only [height_node_raise, height_node]
        omega
      · simp only [height_node_raise, height_node] at hlt
        omega
    · -- on the inner side: two rotations
      obtain ⟨y, c, d, rfl⟩ : ∃ y c d, b = .node y c d := by
        cases b with
        | nil => simp at hba
        | node y c d => exact ⟨y, c, d, rfl⟩
      obtain ⟨hcd, hdc, hac, had⟩ := avl_node.mp hab'
      obtain ⟨-, hec, hed⟩ := exact_node.mp heb
      rw [height_node y] at hup hba hle'
      refine ⟨raise (.node y (raise (.node x a c)) (raise (.node v d r))), ?_,
        ⟨?_, ?_, ?_, ?_, fun _ hlt ↦ ?_⟩⟩
      · simp only [insertRepaired, hbig, hx, Int.lt_asymm hx, if_true, if_false, rotL_node,
          Option.bind_some]
        rfl
      · simp only [avl_raise, avl_node, height_node_raise]
        exact ⟨by omega, by omega, ⟨by omega, by omega, haa, hac⟩, by omega, by omega, had, har⟩
      · exact exact_raise (exact_raise hea hec (by omega)) (exact_raise hed hr (by omega)) (by
          simp only [height_node_raise]
          omega)
      · simp only [height_node_raise, height_node]
        omega
      · simp only [height_node_raise, height_node]
        omega
      · simp only [height_node_raise, height_node] at hlt
        omega
  · refine ⟨_, hstay (by omega), ⟨?_, exact_raise hel hr (by omega), ?_, ?_, fun _ hlt ↦ ?_⟩⟩
    · rw [avl_raise, avl_node]
      exact ⟨by omega, by omega, hal, har⟩
    · simp only [height_raise, height_node]
      omega
    · simp only [height_raise, height_node]
      omega
    · simp only [height_raise, height_node] at hlt
      exact ⟨_, _, _, rfl, .inl ⟨hv, by omega⟩⟩

theorem insertRepaired_right {r' : Shape} (hv : v.2.key < k) (ht : Avl (.node v l r))
    (hl : Exact l) (hr' : Grown k r r') (hb : max l.height r.height + 2 < 2 ^ 64) :
    ∃ t', insertRepaired k (.node v l r') = some t' ∧ Grown k (.node v l r) t' := by
  obtain ⟨hlr, hrl, hal, -⟩ := avl_node.mp ht
  obtain ⟨har, her, hle, hle', hlean⟩ := hr'
  have hbal := balance_eq hl her (by omega) (by omega) (by omega)
  have hsmall : ¬ 1 < toInt (subWord (storedHeight l) (storedHeight r')) := by omega
  by_cases hup : r'.height = l.height + 2
  · -- the right subtree has become too high
    have hne : r ≠ .nil := fun h ↦ by simp [h] at hle'; omega
    obtain ⟨x, a, b, rfl, hside⟩ := hlean hne (by omega)
    obtain ⟨hab, hba, haa, hab'⟩ := avl_node.mp har
    obtain ⟨-, hea, heb⟩ := exact_node.mp her
    rw [height_node] at hup hle'
    have hbig : toInt (subWord (storedHeight l) (storedHeight (.node x a b))) < -1 := by
      rw [hbal, height_node]
      omega
    rcases hside with ⟨hx, hab⟩ | ⟨hx, hba⟩
    · -- on the inner side: two rotations
      obtain ⟨y, c, d, rfl⟩ : ∃ y c d, a = .node y c d := by
        cases a with
        | nil => simp at hab
        | node y c d => exact ⟨y, c, d, rfl⟩
      obtain ⟨hcd, hdc, hac, had⟩ := avl_node.mp haa
      obtain ⟨-, hec, hed⟩ := exact_node.mp hea
      rw [height_node y] at hup hab hle'
      refine ⟨raise (.node y (raise (.node v l c)) (raise (.node x d b))), ?_,
        ⟨?_, ?_, ?_, ?_, fun _ hlt ↦ ?_⟩⟩
      · simp only [insertRepaired, hsmall, hbig, hx, Int.lt_asymm hx, if_true, if_false, rotR_node,
          Option.bind_some]
        rfl
      · simp only [avl_raise, avl_node, height_node_raise]
        exact ⟨by omega, by omega, ⟨by omega, by omega, hal, hac⟩, by omega, by omega, had, hab'⟩
      · exact exact_raise (exact_raise hl hec (by omega)) (exact_raise hed heb (by omega)) (by
          simp only [height_node_raise]
          omega)
      · simp only [height_node_raise, height_node]
        omega
      · simp only [height_node_raise, height_node]
        omega
      · simp only [height_node_raise, height_node] at hlt
        omega
    · -- on the outer side: one rotation
      refine ⟨raise (.node x (raise (.node v l a)) b), ?_, ⟨?_, ?_, ?_, ?_, fun _ hlt ↦ ?_⟩⟩
      · simp only [insertRepaired, hsmall, hbig, hx, if_true, if_false, rotL_node]
      · simp only [avl_raise, avl_node, height_node_raise]
        exact ⟨by omega, by omega, ⟨by omega, by omega, hal, haa⟩, hab'⟩
      · exact exact_raise (exact_raise hl hea (by omega)) heb (by
          rw [height_node_raise]
          omega)
      · simp only [height_node_raise, height_node]
        omega
      · simp only [height_node_raise, height_node]
        omega
      · simp only [height_node_raise, height_node] at hlt
        omega
  · have hbig : ¬ toInt (subWord (storedHeight l) (storedHeight r')) < -1 := by omega
    refine ⟨raise (.node v l r'), by simp only [insertRepaired, hsmall, hbig, if_false],
      ⟨?_, exact_raise hl her (by omega), ?_, ?_, fun _ hlt ↦ ?_⟩⟩
    · rw [avl_raise, avl_node]
      exact ⟨by omega, by omega, hal, har⟩
    · simp only [height_raise, height_node]
      omega
    · simp only [height_raise, height_node]
      omega
    · simp only [height_raise, height_node] at hlt
      exact ⟨_, _, _, rfl, .inr ⟨hv, by omega⟩⟩

/-- Inserting a new key into an AVL tree gives an AVL tree. -/
theorem inserted_grown {x : Addr} (ha : Avl t) (he : Exact t) (hk : ∀ i ∈ idents t, i.2 ≠ k)
    (hb : t.height + 1 < 2 ^ 64) : ∃ t', inserted x k t = some t' ∧ Grown k t t' := by
  induction t with
  | nil =>
    exact ⟨_, rfl, by simp, by simp [BinaryTree.height], by simp, by simp, fun h ↦ absurd rfl h⟩
  | node v l r ihl ihr =>
    obtain ⟨hlr, hrl, hal, har⟩ := avl_node.mp ha
    obtain ⟨-, hel, her⟩ := exact_node.mp he
    rw [height_node] at hb
    simp only [idents_node, List.mem_append, List.mem_cons] at hk
    rcases Int.lt_trichotomy k v.2.key with hlt | heq | hgt
    · obtain ⟨l', hl', hgrown⟩ := ihl hal hel (fun i hi ↦ hk i (.inl hi)) (by omega)
      obtain ⟨t', ht', hgrown'⟩ := insertRepaired_left hlt ha her hgrown (by omega)
      exact ⟨t', by simp [inserted, hlt, hl', ht'], hgrown'⟩
    · exact absurd heq.symm (hk (ident v) (.inr (.inl rfl)))
    · obtain ⟨r', hr', hgrown⟩ := ihr har her (fun i hi ↦ hk i (.inr (.inr hi))) (by omega)
      obtain ⟨t', ht', hgrown'⟩ := insertRepaired_right hgt ha hel hgrown (by omega)
      exact ⟨t', by simp [inserted, hgt, Int.lt_asymm hgt, hr', ht'], hgrown'⟩

/-! ## The nodes of the new tree -/

theorem idents_insertRepaired {t' : Shape} (h : insertRepaired k t = some t') :
    idents t' = idents t := by
  cases t with
  | nil => cases h
  | node v l r =>
    simp only [insertRepaired] at h
    split_ifs at h
    · cases l with
      | nil => cases h
      | node x a b =>
        simp only at h
        split_ifs at h
        · exact idents_rotR h
        · obtain ⟨l', hl', h⟩ := Option.bind_eq_some_iff.mp h
          simp [idents_rotR h, idents_rotL hl']
        · rw [← Option.some.inj h, idents_raise]
    · cases r with
      | nil => cases h
      | node x a b =>
        simp only at h
        split_ifs at h
        · exact idents_rotL h
        · obtain ⟨r', hr', h⟩ := Option.bind_eq_some_iff.mp h
          simp [idents_rotL h, idents_rotR hr']
        · rw [← Option.some.inj h, idents_raise]
    · rw [← Option.some.inj h, idents_raise]

/-- The new node goes between the smaller and the larger keys. -/
theorem idents_inserted {x : Addr} {t' : Shape} (h : inserted x k t = some t') :
    ∃ A B, idents t = A ++ B ∧ idents t' = A ++ (x, k) :: B ∧
      (Ordered t → (∀ i ∈ A, i.2 < k) ∧ ∀ i ∈ B, k < i.2) := by
  induction t generalizing t' with
  | nil =>
    obtain rfl := Option.some.inj h
    exact ⟨[], [], rfl, rfl, by simp⟩
  | node v l r ihl ihr =>
    simp only [inserted] at h
    split_ifs at h with hlt hgt
    · obtain ⟨l', hl', h⟩ := Option.bind_eq_some_iff.mp h
      obtain ⟨A, B, hAB, hAB', hord⟩ := ihl hl'
      refine ⟨A, B ++ ident v :: idents r, by simp [hAB],
        by simp [idents_insertRepaired h, hAB'], fun ho ↦ ?_⟩
      rw [Ordered, idents_node, List.pairwise_append, List.pairwise_cons] at ho
      obtain ⟨hA, hB⟩ := hord ho.1
      refine ⟨hA, fun i hi ↦ ?_⟩
      rcases List.mem_append.mp hi with hi | hi
      · exact hB i hi
      · rcases List.mem_cons.mp hi with rfl | hi
        · exact hlt
        · exact Int.lt_trans hlt (ho.2.1.1 i hi)
    · obtain ⟨r', hr', h⟩ := Option.bind_eq_some_iff.mp h
      obtain ⟨A, B, hAB, hAB', hord⟩ := ihr hr'
      refine ⟨idents l ++ ident v :: A, B, by simp [hAB],
        by simp [idents_insertRepaired h, hAB'], fun ho ↦ ?_⟩
      rw [Ordered, idents_node, List.pairwise_append, List.pairwise_cons] at ho
      obtain ⟨hA, hB⟩ := hord ho.2.1.2
      refine ⟨fun i hi ↦ ?_, hB⟩
      rcases List.mem_append.mp hi with hi | hi
      · exact Int.lt_trans (ho.2.2 i hi (ident v) (by simp)) hgt
      · rcases List.mem_cons.mp hi with rfl | hi
        · exact hgt
        · exact hA i hi

theorem Ordered.inserted {x : Addr} {t' : Shape} (ho : Ordered t)
    (h : Bstree.inserted x k t = some t') : Ordered t' := by
  obtain ⟨A, B, hAB, hAB', hord⟩ := idents_inserted h
  obtain ⟨hA, hB⟩ := hord ho
  rw [Ordered, hAB, List.pairwise_append] at ho
  rw [Ordered, hAB', List.pairwise_append, List.pairwise_cons]
  refine ⟨ho.1, ⟨hB, ho.2.1⟩, fun i hi j hj ↦ ?_⟩
  rcases List.mem_cons.mp hj with rfl | hj
  · exact hA i hi
  · exact ho.2.2 i hi j hj

theorem idents_inserted_perm {x : Addr} {t' : Shape} (h : inserted x k t = some t') :
    (idents t').Perm ((x, k) :: idents t) := by
  obtain ⟨A, B, hAB, hAB', -⟩ := idents_inserted h
  rw [hAB, hAB']
  exact List.perm_middle

theorem mem_addrs_inserted {x b : Addr} {t' : Shape} (h : inserted x k t = some t') :
    b ∈ addrs t' ↔ b = x ∨ b ∈ addrs t := by
  rw [addrs_eq_idents, addrs_eq_idents, ((idents_inserted_perm h).map _).mem_iff, List.map_cons,
    List.mem_cons]

theorem nodup_addrs_inserted {x : Addr} {t' : Shape} (h : inserted x k t = some t') :
    (addrs t').Nodup ↔ x ∉ addrs t ∧ (addrs t).Nodup := by
  rw [addrs_eq_idents, addrs_eq_idents, ((idents_inserted_perm h).map _).nodup_iff, List.map_cons,
    List.nodup_cons]

end Dlbase.Bstree
