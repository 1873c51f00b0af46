import Dlbase.Table.Find

/-!
# Deleting a key

A node that is deleted is taken out of its chain.  If it is the first one of several, the second one
moves to its place, and it is the place of the second one that becomes free.
-/

namespace Dlbase.Table

open Cmem

variable {t : DlTable} {n : Objects Node} {C : Multiset (List Item)} {F : Multiset (Nat × Int)}
  {L₁ L₂ : List Item} {j : Item} {key k : Key} {v : Value} {E R : Entries} {m m₁ m₂ : Mem}
  {fuel a : Nat} {l : Loc}

/-- The memory after a value has been released. -/
def freedVal (m : Mem) (v : Value) : Exec Mem := if v.tt = .str then m.free v.v.toNat else .ok m

/-- The memory after a key has been freed. -/
def freedKey (m : Mem) : Key → Exec Mem
  | .str p => m.free p
  | _ => .ok m

/-- The pointer that a value holds, if any. -/
def Value.pointers (v : Value) : List Int := if v.tt = .void then [v.v] else []

/-- The node at `a` is in no chain. -/
structure Detached (t : DlTable) (n : Objects Node) (a : Nat) (k : Key) (v : Value)
    (C : Multiset (List Item)) (F : Multiset (Nat × Int)) : Prop where
  /-- It is in memory, like the others. -/
  holds : ∃ nx, Holds n (cell a ⟨v, k, nx⟩ + nodeCells C F)
  /-- There are no others. -/
  addrs : a ::ₘ (nodeCells C F).map Prod.fst = Multiset.range t.sizenode
  /-- Each chain begins at the main position of its keys. -/
  chain : ∀ L ∈ C, ChainAt t L
  /-- The nodes in chains have values. -/
  used : ∀ L ∈ C, ∀ j ∈ L, j.val.Used
  /-- The free nodes are below `lastfree`. -/
  low : (∃ k, t.lastfree = some k ∧ k ≤ t.sizenode) ∧
    ∀ f ∈ F, ∀ k, t.lastfree = some k → f.1 < k

/-! ## Memory -/

theorem release_eq (t : DlTable) (v : Value) : release t v = (freedVal t.mem v >>= fun m ↦
    .ok { t with mem := m, voids := v.pointers ++ t.voids }) := by
  unfold release freedVal Value.pointers
  cases hv : v.tt <;> rfl

theorem freeKey_eq (t : DlTable) (k : Key) : freeKey t k = (freedKey t.mem k >>= fun m ↦
    .ok { t with mem := m }) := by
  cases k <;> rfl

/-- The main positions depend on the memory of the keys only. -/
theorem ChainAt.over {L : List Item} (h : ChainAt t L) (vs : List Int) (c : Nat)
    (hm : ∀ j ∈ L, j.key.content m = j.key.content t.mem) :
    ChainAt { t with mem := m, voids := vs, allocs := c } L := by
  obtain ⟨i, L', hL, hmain⟩ := h
  refine ⟨i, L', hL, fun j hj ↦ ?_⟩
  obtain ⟨d, hd⟩ := exists_content (hmain j hj)
  have hd' : j.key.content m = some d := (hm j hj).trans hd
  rw [← hmain j hj, mainPos_eq hd]
  exact mainPos_eq (t := { t with mem := m, voids := vs, allocs := c }) hd'

theorem Chains.over (h : Chains t C) (vs : List Int) (c : Nat)
    (hm : ∀ e ∈ nodeEntries C, e.1.content m = e.1.content t.mem) :
    Chains { t with mem := m, voids := vs, allocs := c } C := by
  cases h with
  | dummy hn hl hf => exact .dummy hn hl hf
  | nodes hn hl =>
    refine .nodes hn ⟨hl.holds, hl.addrs, fun L hL ↦ ?_, hl.used, hl.last, hl.low⟩
    exact (hl.chain L hL).over vs c fun j hj ↦ hm j.entry (mem_nodeEntries.mpr ⟨L, hL, j, hj, rfl⟩)

/-- A table is well formed as long as the memory of its keys does not change. -/
theorem Shape.over (h : Shape t E) (vs : List Int) {c : Nat} (hc : t.arrayId ≤ c)
    (hm : ∀ e ∈ E, e.1.content m = e.1.content t.mem) :
    Shape { t with mem := m, voids := vs, allocs := c } E := by
  obtain ⟨C, hC, rfl, hsep⟩ := h.nodes
  exact ⟨h.array, hc, C, hC.over vs c fun e he ↦ hm e (Multiset.mem_add.mpr (.inr he)), rfl, hsep⟩

/-! ## Nodes -/

/-! ### The only node of a chain -/

theorem unlink_only (fuel : Nat) (hn : t.node = .nodes n) {x : Node} {H : Cells Node}
    (hmain : mainPos t x.key = .ok a) (hnext : x.next = none) (hm : Holds n (cell a x + H)) :
    unlink fuel t a = .ok (t, a) := by
  rw [unlink, loadNode_eq hn hm, Exec.ok_bind, hmain, Exec.ok_bind, if_neg (not_not.mpr rfl), hnext]
  rfl

theorem Layout.detached_only (h : Layout t n ([j] ::ₘ C) F) :
    Detached t n j.addr j.key j.val C F where
  holds := ⟨none, h.holds.of_eq (by
    rw [nodeCells_cons, chainCells, chainCells, add_zero]
    rfl)⟩
  addrs := by
    have haddrs := h.addrs
    rw [nodeCells_cons, chainCells, chainCells, add_zero, Multiset.map_add] at haddrs
    exact haddrs
  chain L hL := h.chain L (Multiset.mem_cons_of_mem hL)
  used L hL := h.used L (Multiset.mem_cons_of_mem hL)
  low := ⟨h.last, h.low⟩

/-! ### The first one of several nodes -/

/-- The second node moves to the place of the first one. -/
theorem unlink_first (fuel : Nat) (hn : t.node = .nodes n) {x y : Node} {b : Nat} {H : Cells Node}
    (hmain : mainPos t x.key = .ok a) (hnext : x.next = some b)
    (hm : Holds n (cell a x + (cell b y + H))) :
    ∃ n', unlink fuel t a = .ok ({ t with node := .nodes n' }, b) ∧
      Holds n' (cell b x + (cell a y + H)) := by
  obtain ⟨n₁, hstore₁, hm₁⟩ := storeNode_spec hn hm y
  obtain ⟨n₂, hstore₂, hm₂⟩ := storeNode_spec (t := { t with node := .nodes n₁ }) rfl
    (hm₁.of_eq (add_left_comm _ _ _)) x
  refine ⟨n₂, ?_, hm₂⟩
  rw [unlink, loadNode_eq hn hm, Exec.ok_bind, hmain, Exec.ok_bind, if_neg (not_not.mpr rfl), hnext]
  change (loadNode t b >>= _) = _
  rw [loadNode_eq hn (hm.of_eq (add_left_comm _ _ _)), Exec.ok_bind, hstore₁, Exec.ok_bind]
  exact congrArg (· >>= _) hstore₂

theorem Layout.detached_first {i : Item} {n' : Objects Node}
    (h : Layout t n ((j :: i :: L₂) ::ₘ C) F)
    (hm : Holds n' (cell i.addr (j.node (some i.addr)) + (cell j.addr
      (i.node (firstItem none L₂)) + (chainCells none L₂ + nodeCells C F)))) :
    Detached t n' i.addr j.key j.val ((⟨j.addr, i.key, i.val⟩ :: L₂) ::ₘ C) F := by
  refine ⟨⟨some i.addr, hm.of_eq ?_⟩, ?_, fun L hL ↦ ?_, fun L hL y hy ↦ ?_, h.last, h.low⟩
  · rw [nodeCells_cons, chainCells, add_assoc]
    rfl
  · have haddrs := h.addrs
    rw [nodeCells_cons, chainCells, chainCells] at haddrs
    rw [← haddrs, nodeCells_cons, chainCells]
    simp only [cell, Multiset.map_add, Multiset.map_singleton, ← Multiset.singleton_add]
    abel
  · rcases Multiset.mem_cons.mp hL with rfl | hL
    · obtain ⟨i', L', hL', hmain⟩ := h.head
      obtain ⟨rfl, rfl⟩ := List.cons.inj hL'
      refine ⟨_, _, rfl, fun y hy ↦ ?_⟩
      rcases List.mem_cons.mp hy with rfl | hy
      · exact hmain i (List.mem_cons_of_mem _ List.mem_cons_self)
      · exact hmain y (List.mem_cons_of_mem _ (List.mem_cons_of_mem _ hy))
    · exact h.chain L (Multiset.mem_cons_of_mem hL)
  · rcases Multiset.mem_cons.mp hL with rfl | hL
    · have hall := h.used _ (Multiset.mem_cons_self _ _)
      rcases List.mem_cons.mp hy with rfl | hy
      · exact hall i (List.mem_cons_of_mem _ List.mem_cons_self)
      · exact hall y (List.mem_cons_of_mem _ (List.mem_cons_of_mem _ hy))
    · exact h.used L (Multiset.mem_cons_of_mem hL) y hy

/-! ### A node that is not the first one -/

/-- The node before it, at `c`, is linked with the one behind it. -/
theorem unlink_later (fuel : Nat) (hn : t.node = .nodes n) {x y : Node} {b c : Nat}
    {H : Cells Node} (hmain : mainPos t x.key = .ok b) (hne : b ≠ a)
    (hm : Holds n (cell c y + (cell a x + H))) :
    ∃ n', Holds n' (cell c { y with next := x.next } + (cell a x + H)) ∧
      (findPrev t a fuel b = .ok c → unlink fuel t a = .ok ({ t with node := .nodes n' }, a)) ∧
      (findPrev t a fuel b = Exec.timeout → unlink fuel t a = Exec.timeout) := by
  have hload := loadNode_eq hn (hm.of_eq (add_left_comm _ _ _))
  obtain ⟨n₁, hstore, hm₁⟩ := storeNode_spec hn hm { y with next := x.next }
  refine ⟨n₁, hm₁, fun hprev ↦ ?_, fun hprev ↦ ?_⟩
  · rw [unlink, hload, Exec.ok_bind, hmain, Exec.ok_bind, if_pos hne, hprev, Exec.ok_bind,
      loadNode_eq hn hm, Exec.ok_bind]
    exact congrArg (· >>= _) hstore
  · rw [unlink, hload, Exec.ok_bind, hmain, Exec.ok_bind, if_pos hne, hprev]
    rfl

theorem Layout.detached_later {i p : Item} {L' L₀ : List Item} {n' : Objects Node}
    (hL : i :: L' = L₀ ++ [p]) (h : Layout t n ((i :: L' ++ j :: L₂) ::ₘ C) F)
    (hm : Holds n' (cell p.addr (p.node (firstItem none L₂)) + (cell j.addr
      (j.node (firstItem none L₂)) + (chainCells (some p.addr) L₀ + chainCells none L₂ +
        nodeCells C F)))) :
    Detached t n' j.addr j.key j.val ((i :: L' ++ L₂) ::ₘ C) F := by
  have hsub : ∀ y ∈ i :: L' ++ L₂, y ∈ i :: L' ++ j :: L₂ := fun y hy ↦
    List.mem_append.mpr ((List.mem_append.mp hy).imp_right (List.mem_cons_of_mem j))
  refine ⟨⟨firstItem none L₂, hm.of_eq ?_⟩, ?_, fun L hL ↦ ?_, fun L hL y hy ↦ ?_, h.last, h.low⟩
  · rw [nodeCells_cons, chainCells_append, chainCells_prev hL]
    change _ = cell j.addr (j.node (firstItem none L₂)) + _
    abel
  · have haddrs := h.addrs
    rw [nodeCells_cons, chainCells_middle, chainCells_prev hL] at haddrs
    rw [← haddrs, nodeCells_cons, chainCells_append, chainCells_prev hL]
    simp only [cell, Multiset.map_add, Multiset.map_singleton, ← Multiset.singleton_add]
    abel
  · rcases Multiset.mem_cons.mp hL with rfl | hL
    · obtain ⟨i', L'', hL', hmain⟩ := h.head
      obtain ⟨rfl, rfl⟩ := List.cons.inj hL'
      exact ⟨i, _, rfl, fun y hy ↦ hmain y (hsub y hy)⟩
    · exact h.chain L (Multiset.mem_cons_of_mem hL)
  · rcases Multiset.mem_cons.mp hL with rfl | hL
    · exact h.used _ (Multiset.mem_cons_self _ _) y (hsub y hy)
    · exact h.used L (Multiset.mem_cons_of_mem hL) y hy

/-! ### All nodes -/

/-- A node is taken out of its chain. -/
theorem unlink_spec (fuel : Nat) (hn : t.node = .nodes n)
    (h : Layout t n ((L₁ ++ j :: L₂) ::ₘ C) F) :
    ∃ n' a C', Detached t n' a j.key j.val C' F ∧
      nodeEntries C' = nodeEntries ((L₁ ++ L₂) ::ₘ C) ∧
      Exec.Extends (unlink fuel t j.addr) (.ok ({ t with node := .nodes n' }, a)) ∧
      (t.sizenode ≤ fuel → unlink fuel t j.addr = .ok ({ t with node := .nodes n' }, a)) := by
  have hm : Holds n (cell j.addr (j.node (firstItem none L₂)) + (chainCells (some j.addr) L₁ +
      chainCells none L₂ + nodeCells C F)) := h.holds.of_eq (by
    rw [nodeCells_cons, chainCells_middle, add_assoc])
  rcases h.chain_eq with ⟨rfl, hmain⟩ | ⟨i, L', rfl, hmain, hne⟩
  · cases L₂ with
    | nil =>
      have hrun : unlink fuel t j.addr = .ok (t, j.addr) := unlink_only fuel hn hmain rfl hm
      have ht : { t with node := .nodes n } = t := by rw [← hn]
      refine ⟨n, j.addr, C, h.detached_only, ?_, ht.symm ▸ .inr hrun, fun _ ↦ ht.symm ▸ hrun⟩
      rw [nodeEntries_cons]
      exact (zero_add _).symm
    | cons i L₂ =>
      obtain ⟨n', hrun, hm'⟩ := unlink_first fuel hn hmain rfl (hm.of_eq (by
        rw [chainCells, chainCells, zero_add, add_assoc]))
      refine ⟨n', i.addr, _, h.detached_first hm', ?_, .inr hrun, fun _ ↦ hrun⟩
      rw [nodeEntries_cons, nodeEntries_cons]
      rfl
  · obtain ⟨L₀, p, hL⟩ : ∃ L₀ p, i :: L' = L₀ ++ [p] :=
      ⟨_, _, (List.dropLast_append_getLast (List.cons_ne_nil i L')).symm⟩
    have hfirst : firstItem none (L₀ ++ [p]) = some i.addr := by rw [← hL, firstItem]
    have hmid : Holds n (cell j.addr (j.node (firstItem none L₂)) +
        (chainCells (some j.addr) (L₀ ++ [p]) + (chainCells none L₂ + nodeCells C F))) :=
      hm.of_eq (by rw [hL, add_assoc])
    have hprev := findPrev_extends fuel hn hmid hfirst
    have hp : Holds n (cell p.addr (p.node (some j.addr)) + (cell j.addr
        (j.node (firstItem none L₂)) + (chainCells (some p.addr) L₀ + chainCells none L₂ +
          nodeCells C F))) := hm.of_eq (by
      rw [chainCells_prev hL]
      abel)
    obtain ⟨n', hm', hrun, htimeout⟩ := unlink_later fuel hn hmain hne hp
    refine ⟨n', j.addr, _, h.detached_later hL hm', rfl, ?_,
      fun hfuel ↦ hrun (findPrev_eq hn hmid ?_ hfirst)⟩
    · rcases hprev with hprev | hprev
      · exact .inl (htimeout hprev)
      · exact .inr (hrun hprev)
    · have hlen : (i :: L' ++ j :: L₂).length ≤ t.sizenode := h.length_le
      rw [hL] at hlen
      simp only [List.length_append, List.length_cons, List.length_nil] at hlen
      omega

/-- A node that is in no chain becomes free. -/
theorem Detached.layout {n' : Objects Node} {x : Int} (h : Detached t n a k v C F)
    (hn : Holds n' (cell a (freeNode x) + nodeCells C F)) :
    Layout { t with node := .nodes n', lastfree := lowerFree a t.lastfree } n' C ((a, x) ::ₘ F) := by
  obtain ⟨⟨q, hq, hle⟩, hlow⟩ := h.low
  have ha : a < t.sizenode := by
    have hmem := Multiset.mem_cons_self a ((nodeCells C F).map Prod.fst)
    rwa [h.addrs, Multiset.mem_range] at hmem
  -- the new `lastfree`
  obtain ⟨q', hq', hle', hqq, haq⟩ : ∃ q', lowerFree a t.lastfree = some q' ∧ q' ≤ t.sizenode ∧
      q ≤ q' ∧ (a : Int) < q' := by
    rw [hq, lowerFree]
    by_cases hqa : q ≤ a
    · exact ⟨a + 1, if_pos hqa, by omega, by omega, by omega⟩
    · exact ⟨q, if_neg hqa, hle, le_rfl, by omega⟩
  refine ⟨hn.of_eq (nodeCells_cons_free (a, x) C F).symm, ?_, fun L hL ↦ (h.chain L hL).congr rfl rfl,
    h.used, ⟨q', hq', hle'⟩, fun f hf p hp ↦ ?_⟩
  · rw [nodeCells_cons_free, Multiset.map_add]
    exact h.addrs
  · obtain rfl := Option.some.inj (hq'.symm.trans hp)
    rcases Multiset.mem_cons.mp hf with rfl | hf
    · exact haq
    · exact (hlow f hf q hq).trans_le hqq

/-- A value that is released leaves a location that is nil. -/
theorem resetV_node {x : Node} {H : Cells Node} (hn : t.node = .nodes n)
    (hm : Holds n (cell a x + H)) (hfree : freedVal t.mem x.val = .ok m₁) :
    ∃ n', resetV t (.node a) = .ok { t with node := .nodes n', mem := m₁
                                            voids := x.val.pointers ++ t.voids } ∧
      Holds n' (cell a { x with val := { x.val with tt := .nil } } + H) := by
  obtain ⟨n', hstore, hm'⟩ := storeNode_spec (t := { t with mem := m₁
                                                            voids := x.val.pointers ++ t.voids })
    hn hm { x with val := { x.val with tt := .nil } }
  refine ⟨n', ?_, hm'⟩
  rw [resetV, readVal, loadNode_eq hn hm, Exec.ok_bind]
  change (release t x.val >>= _) = _
  rw [release_eq, hfree, Exec.ok_bind, Exec.ok_bind, writeVal]
  have hload : loadNode { t with mem := m₁, voids := x.val.pointers ++ t.voids } a = .ok x :=
    loadNode_eq hn hm
  rw [hload]
  exact hstore

/-- A node is deleted, and what it has got is freed. -/
theorem resetNode_spec (fuel : Nat) (hn : t.node = .nodes n) (h : Layout t n ((L₁ ++ j :: L₂) ::ₘ C) F)
    (hv : freedVal t.mem j.val = .ok m₁) (hk : freedKey m₁ j.key = .ok m₂)
    (hsame : ∀ e ∈ nodeEntries ((L₁ ++ L₂) ::ₘ C), e.1.content m₂ = e.1.content t.mem) :
    ∃ p q C', Chains { t with node := p, lastfree := q, mem := m₂
                              voids := j.val.pointers ++ t.voids } C' ∧
      nodeEntries C' = nodeEntries ((L₁ ++ L₂) ::ₘ C) ∧
      Exec.Extends (resetNode fuel t j.addr) (.ok { t with node := p, lastfree := q, mem := m₂
                                                           voids := j.val.pointers ++ t.voids }) ∧
      (t.sizenode ≤ fuel → resetNode fuel t j.addr =
        .ok { t with node := p, lastfree := q, mem := m₂, voids := j.val.pointers ++ t.voids }) := by
  obtain ⟨n₁, a, C', hd, hentries, hext, hfuel⟩ := unlink_spec fuel hn h
  obtain ⟨nx, hm⟩ := hd.holds
  obtain ⟨n₂, hreset, hm₂⟩ := resetV_node (t := { t with node := .nodes n₁ }) rfl hm hv
  obtain ⟨n₃, hstore, hm₃⟩ := storeNode_spec (t := { t with node := .nodes n₂, mem := m₂
                                                            voids := j.val.pointers ++ t.voids })
    rfl hm₂ (freeNode j.val.v)
  have hrun : unlink fuel t j.addr = .ok ({ t with node := .nodes n₁ }, a) →
      resetNode fuel t j.addr = .ok { t with node := .nodes n₃
                                             lastfree := lowerFree a t.lastfree, mem := m₂
                                             voids := j.val.pointers ++ t.voids } := fun hunlink ↦ by
    rw [resetNode, hunlink, Exec.ok_bind]
    change (resetV { t with node := .nodes n₁ } (.node a) >>= _) = _
    rw [hreset, Exec.ok_bind, loadNode_eq rfl hm₂, Exec.ok_bind]
    change (freeKey _ j.key >>= _) = _
    rw [freeKey_eq]
    change ((freedKey m₁ j.key >>= _) >>= _) = _
    rw [hk, Exec.ok_bind, Exec.ok_bind]
    change (storeNode _ a (freeNode j.val.v) >>= _) = _
    rw [hstore]
    rfl
  refine ⟨.nodes n₃, lowerFree a t.lastfree, C', ?_, hentries, ?_, fun hf ↦ hrun (hfuel hf)⟩
  · have hc : Chains { t with node := .nodes n₃, lastfree := lowerFree a t.lastfree } C' :=
      .nodes rfl (hd.layout hm₃)
    exact hc.over _ t.allocs (hentries ▸ hsame)
  · rcases hext with hext | hext
    · refine .inl ?_
      rw [resetNode, hext]
      rfl
    · exact .inr (hrun hext)

/-! ## Locations -/

/-- What `dl_del_key_index_l` and `dl_del_key_str_l` do at a location. -/
def deleteAt (fuel : Nat) (t : DlTable) : Loc → Exec DlTable
  | .array i => resetV t (.array i)
  | .node n => resetNode fuel t n

/-- The value at a location is deleted. -/
theorem At.delete (fuel : Nat) (h : At t k v R l) (ha : ArrayOk t) (hid : t.arrayId ≤ t.allocs)
    (hv : freedVal t.mem v = .ok m₁) (hk : freedKey m₁ k = .ok m₂)
    (hsame : ∀ e ∈ R, e.1.content m₂ = e.1.content t.mem) :
    ∃ p q vs, Shape { t with node := p, lastfree := q, array := vs, mem := m₂
                             voids := v.pointers ++ t.voids } R ∧
      Exec.Extends (deleteAt fuel t l) (.ok { t with node := p, lastfree := q, array := vs, mem := m₂
                                                     voids := v.pointers ++ t.voids }) ∧
      (t.sizenode ≤ fuel → deleteAt fuel t l =
        .ok { t with node := p, lastfree := q, array := vs, mem := m₂
                     voids := v.pointers ++ t.voids }) := by
  cases h with
  | @array i Q C hin hkey hload hnull hQ hC hsep hR =>
    obtain rfl : m₁ = m₂ := by
      rw [hkey] at hk
      exact Except.ok.inj hk
    obtain ⟨vs, v', Q', hvs, -, hload', -, hQ', hwrite⟩ := array_focus ha hin
    obtain rfl := Except.ok.inj (hload.symm.trans hload')
    obtain rfl : Q = Q' := by
      rw [hQ, hkey] at hQ'
      exact Multiset.add_right_inj.mp hQ'
    obtain ⟨hrun, hok, hQ''⟩ := hwrite { v with tt := .nil }
    rw [cellEntry_nil rfl, zero_add] at hQ''
    have hdel : deleteAt fuel t (.array i) =
        .ok { t with array := some (vs.set i { v with tt := .nil }), mem := m₁
                     voids := v.pointers ++ t.voids } := by
      rw [deleteAt, resetV, readVal, hload, Exec.ok_bind, release_eq, hv, Exec.ok_bind, Exec.ok_bind]
      unfold writeVal at hrun ⊢
      rw [hvs] at hrun ⊢
      dsimp only at hrun ⊢
      by_cases hi : i < vs.length
      · exact if_pos hi
      · rw [if_neg hi] at hrun
        cases hrun
    refine ⟨t.node, t.lastfree, _, ?_, .inr hdel, fun _ ↦ hdel⟩
    have hshape : Shape { t with array := some (vs.set i { v with tt := .nil }) } R :=
      ⟨hok (by rintro ⟨⟩), hid, C, hC.congr_array _ _, by rw [hR, hQ''], hsep⟩
    exact hshape.over _ hid hsame
  | @node n L₁ L₂ j C F hn hl hsep hkey hval hR =>
    rw [hval] at hv ⊢
    rw [hkey] at hk
    have hsub : ∀ e ∈ nodeEntries ((L₁ ++ L₂) ::ₘ C), e ∈ R := fun e he ↦ by
      rw [hR]
      exact Multiset.mem_add.mpr (.inr he)
    obtain ⟨p, q, C', hc, hentries, hext, hfuel⟩ := resetNode_spec fuel hn hl hv hk
      fun e he ↦ hsame e (hsub e he)
    refine ⟨p, q, t.array, ⟨ha, hid, C', hc, ?_, fun e he i hi ↦ ?_⟩, hext, hfuel⟩
    · rw [hentries, hR]
      rfl
    · refine hsep e ?_ i hi
      rw [nodeEntries_middle, ← hentries]
      exact Multiset.mem_cons_of_mem he

end Dlbase.Table
