import Dlbase.Table.Layout

/-!
# Inserting a key

How `dl_newkey_l` puts a key into a node that is free: the main position of the key, or another
node, which gets the node that is at the main position without belonging there, or is put into the
chain of the key.
-/

namespace Dlbase.Table

open Cmem

variable {t t' : DlTable} {n : Objects Node} {C : Multiset (List Item)} {F : Multiset (Nat × Int)}
  {L L₁ L₂ : List Item} {j : Item} {key : Key} {a f fuel : Nat} {v : Int} {E : Entries}

/-- The node at `a` has got the key and waits for its value; with the value `x` the chains are
`D x`. -/
structure Hole (t : DlTable) (a : Nat) (key : Key) (D : Value → Multiset (List Item))
    (F : Multiset (Nat × Int)) : Prop where
  /-- The node is in memory, and the others are as they should be. -/
  node : ∃ n y nx H, t.node = .nodes n ∧ Holds n (cell a ⟨y, key, nx⟩ + H) ∧
    (cell a (⟨y, key, nx⟩ : Node) + H).map Prod.fst = Multiset.range t.sizenode ∧
    ∀ x, cell a (⟨x, key, nx⟩ : Node) + H = nodeCells (D x) F

/-- The key has been put in the table, whatever value will be written. -/
structure Placed (t : DlTable) (C : Multiset (List Item)) (key : Key) (t' : DlTable) (l : Loc) :
    Prop where
  /-- Only the nodes have changed. -/
  frame : ∃ p k, t' = { t with node := p, lastfree := k }
  /-- A value can be written. -/
  write : ∀ x : Value, x.Used → ∃ n C' F, writeVal t' l x = .ok { t' with node := .nodes n } ∧
    Layout { t' with node := .nodes n } n C' F ∧ nodeEntries C' = (key, x) ::ₘ nodeEntries C

/-! ## Free nodes -/

/-- The loop finds the last free node. -/
theorem getfreeposLoop_spec (hn : t.node = .nodes n) (h : Layout t n C F) {i : Nat}
    (hi : i ≤ t.sizenode) (hlow : ∀ g ∈ F, g.1 < i) :
    (F = 0 ∧ getfreeposLoop t i = .ok (-1, none)) ∨
      ∃ f v F', F = (f, v) ::ₘ F' ∧ getfreeposLoop t i = .ok ((f : Int), some f) ∧
        ∀ g ∈ F', g.1 < f := by
  induction i with
  | zero =>
    refine .inl ⟨Multiset.eq_zero_of_forall_notMem fun g hg ↦ ?_, rfl⟩
    exact absurd (hlow g hg) (Nat.not_lt_zero _)
  | succ i ih =>
    rcases h.cases (show i < t.sizenode by omega) with ⟨v, F', rfl⟩ | ⟨L₁, j, L₂, C', rfl, hj⟩
    · -- the node is free
      have hm := h.holds_free
      refine .inr ⟨i, v, F', rfl, ?_, fun g hg ↦ ?_⟩
      · rw [getfreeposLoop, loadNode_eq hn hm, Exec.ok_bind]
        exact if_pos rfl
      · have hlt := hlow g (Multiset.mem_cons_of_mem hg)
        have hne : g.1 ≠ i := hm.ne (e := freeCell g)
          (Multiset.mem_add.mpr (.inr (Multiset.mem_map_of_mem _ hg)))
        omega
    · -- the node is in use
      have hm := h.holds_chain
      rw [chainCells_middle, hj, add_assoc] at hm
      obtain ⟨x, L', -, hmain⟩ := h.head
      have hkey : j.key ≠ .nil := key_ne_nil (hmain j (by simp))
      have hrest : ∀ g ∈ F, g.1 < i := fun g hg ↦ by
        have hlt := hlow g hg
        have hne : g.1 ≠ i := hm.ne (e := freeCell g) (Multiset.mem_add.mpr (.inr
          (Multiset.mem_add.mpr (.inr (Multiset.mem_map_of_mem _ hg)))))
        omega
      have hloop : getfreeposLoop t (i + 1) = getfreeposLoop t i := by
        rw [getfreeposLoop, loadNode_eq hn hm, Exec.ok_bind]
        exact if_neg hkey
      rw [hloop]
      exact ih (by omega) hrest

/-- `getfreepos` finds a free node if there is one. -/
theorem getfreepos_spec (hn : t.node = .nodes n) (h : Layout t n C F) :
    (F = 0 ∧ ∃ k : Int, k ≤ t.sizenode ∧
        getfreepos t = .ok ({ t with lastfree := some k }, none)) ∨
      ∃ f v F', F = (f, v) ::ₘ F' ∧
        getfreepos t = .ok ({ t with lastfree := some (f : Int) }, some f) ∧ ∀ g ∈ F', g.1 < f := by
  obtain ⟨k, hk, hle⟩ := h.last
  rw [getfreepos, hk]
  dsimp only
  by_cases hpos : 0 < k
  · have hlow : ∀ g ∈ F, g.1 < k.toNat := fun g hg ↦ by
      have hlt := h.low g hg k hk
      omega
    rw [if_pos hpos]
    rcases getfreeposLoop_spec hn h (by omega) hlow with ⟨rfl, hloop⟩ | ⟨f, v, F', rfl, hloop, hF⟩
    · rw [hloop]
      exact .inl ⟨rfl, -1, by omega, rfl⟩
    · rw [hloop]
      exact .inr ⟨f, v, F', rfl, rfl, hF⟩
  · rw [if_neg hpos]
    refine .inl ⟨Multiset.eq_zero_of_forall_notMem fun g hg ↦ ?_, k - 1, by omega, rfl⟩
    have hlt := h.low g hg k hk
    omega

/-! ## Holes -/

/-- A hole is filled. -/
theorem Hole.write {D : Value → Multiset (List Item)} (h : Hole t a key D F) (x : Value) :
    ∃ n, writeVal t (.node a) x = .ok { t with node := .nodes n } ∧ Holds n (nodeCells (D x) F) ∧
      (nodeCells (D x) F).map Prod.fst = Multiset.range t.sizenode := by
  obtain ⟨n, y, nx, H, hn, hm, haddrs, hcells⟩ := h.node
  refine ⟨_, ?_, (hm.set _).of_eq (hcells x), ?_⟩
  · rw [writeVal, loadNode_eq hn hm, Exec.ok_bind]
    exact storeNode_eq hn hm _
  · rw [← hcells, ← haddrs, Multiset.map_add, Multiset.map_add]
    rfl

/-- A hole whose chains are as they should be. -/
theorem Hole.placed {D : Value → Multiset (List Item)} (h : Hole t' a key D F)
    (hframe : ∃ p k, t' = { t with node := p, lastfree := k })
    (hchain : ∀ x, ∀ L ∈ D x, ChainAt t' L)
    (hused : ∀ x : Value, x.Used → ∀ L ∈ D x, ∀ j ∈ L, j.val.Used)
    (hlast : ∃ k, t'.lastfree = some k ∧ k ≤ t'.sizenode)
    (hlow : ∀ g ∈ F, ∀ k, t'.lastfree = some k → g.1 < k)
    (hentries : ∀ x, nodeEntries (D x) = (key, x) ::ₘ nodeEntries C) :
    Placed t C key t' (.node a) := by
  refine ⟨hframe, fun x hx ↦ ?_⟩
  obtain ⟨n, hwrite, hm, haddrs⟩ := h.write x
  have hcongr : ∀ L ∈ D x, ChainAt { t' with node := .nodes n } L := fun L hL ↦
    (hchain x L hL).congr rfl rfl
  exact ⟨n, D x, F, hwrite, ⟨hm, haddrs, hcongr, hused x hx, hlast, hlow⟩, hentries x⟩

theorem addrs_cell {x y : Node} {H : Cells Node} :
    (cell a x + H).map Prod.fst = (cell a y + H).map Prod.fst := by
  rw [Multiset.map_add, Multiset.map_add]
  rfl

/-- A key is put in its main position. -/
theorem placeKey_spec (hn : t.node = .nodes n) (h : Layout t n C ((a, v) ::ₘ F))
    (hkey : mainPos t key = .ok a) :
    ∃ t', placeKey t a key = .ok (t', some (.node a)) ∧ Placed t C key t' (.node a) := by
  have hm := h.holds_free
  have hload := loadNode_eq hn hm
  obtain ⟨n', hstore, hm'⟩ := storeNode_spec hn hm { freeNode v with key }
  refine ⟨{ t with node := .nodes n' }, ?_, Hole.placed (F := F)
    (D := fun x ↦ [⟨a, key, x⟩] ::ₘ C) ⟨?_⟩ ⟨.nodes n', t.lastfree, rfl⟩ ?_ ?_ h.last ?_ ?_⟩
  · rw [placeKey, hload, Exec.ok_bind, hstore]
    rfl
  · refine ⟨n', ⟨v, .nil⟩, none, nodeCells C F, rfl, hm', ?_, fun x ↦ ?_⟩
    · exact (addrs_cell.trans (congrArg _ (nodeCells_cons_free (a, v) C F)).symm).trans h.addrs
    · rw [nodeCells_cons, chainCells, chainCells, add_zero]
      rfl
  · intro x L hL
    rcases Multiset.mem_cons.mp hL with rfl | hL
    · refine ⟨_, [], rfl, fun j hj ↦ ?_⟩
      rw [List.mem_singleton.mp hj]
      exact (mainPos_congr rfl rfl _).trans hkey
    · exact (h.chain L hL).congr rfl rfl
  · intro x hx L hL j hj
    rcases Multiset.mem_cons.mp hL with rfl | hL
    · rw [List.mem_singleton.mp hj]
      exact hx
    · exact h.used L hL j hj
  · exact fun g hg k hk ↦ h.low g (Multiset.mem_cons_of_mem hg) k hk
  · intro x
    rw [nodeEntries_cons]
    rfl

/-! ## Collisions -/

theorem card_chainCells (q : Option Nat) (L : List Item) : (chainCells q L).card = L.length := by
  induction L with
  | nil => rfl
  | cons i L ih =>
    rw [chainCells, Multiset.card_add, ih, List.length_cons, Nat.add_comm]
    rfl

/-- Chains are no longer than the number of nodes. -/
theorem Layout.length_le (h : Layout t n (L ::ₘ C) F) : L.length ≤ t.sizenode := by
  have haddrs := congrArg Multiset.card h.addrs
  rw [Multiset.card_map, Multiset.card_range, nodeCells_cons, Multiset.card_add,
    card_chainCells] at haddrs
  omega

theorem card_nodeCells (C : Multiset (List Item)) (F : Multiset (Nat × Int)) :
    (nodeCells C F).card = (nodeEntries C).card + F.card := by
  induction C using Multiset.induction_on with
  | empty =>
    rw [nodeCells, Multiset.zero_bind, zero_add, Multiset.card_map]
    exact (Nat.zero_add _).symm
  | cons L C ih =>
    rw [nodeCells_cons, nodeEntries_cons, Multiset.card_add, Multiset.card_add, card_chainCells, ih,
      Multiset.coe_card, List.length_map, Nat.add_assoc]

/-- Each node is in use or free. -/
theorem Layout.card_eq (h : Layout t n C F) : (nodeEntries C).card + F.card = t.sizenode := by
  rw [← card_nodeCells, ← Multiset.card_map Prod.fst, h.addrs, Multiset.card_range]

/-- What `findPrev` yields if its fuel suffices. -/
theorem findPrev_extends (fuel : Nat) {p : Item} {b c : Nat} {x : Node} {H : Cells Node}
    (hn : t.node = .nodes n) (h : Holds n (cell b x + (chainCells (some b) (L ++ [p]) + H)))
    (hc : firstItem none (L ++ [p]) = some c) :
    Exec.Extends (findPrev t b fuel c) (.ok p.addr) := by
  have hmore := (steady_findPrev t b c).le (Nat.le_max_left fuel (L.length + 1))
  have hp : findPrev t b (max fuel (L.length + 1)) c = .ok p.addr :=
    findPrev_eq hn h (by omega) hc
  exact hp ▸ hmore

theorem Layout.free_lt (h : Layout t n C ((f, v) ::ₘ F)) : f < t.sizenode := by
  have hmem : f ∈ (nodeCells C ((f, v) ::ₘ F)).map Prod.fst := by
    rw [nodeCells_cons_free]
    exact Multiset.mem_map_of_mem Prod.fst Holds.mem_cell
  rwa [h.addrs, Multiset.mem_range] at hmem

/-- The chains for a key that a free node has been taken for. -/
theorem Layout.hole_placed {D : Value → Multiset (List Item)} (h : Layout t n C ((f, v) ::ₘ F))
    (hF : ∀ g ∈ F, g.1 < f) {n' : Objects Node}
    (hhole : Hole { t with lastfree := some (f : Int), node := .nodes n' } a key D F)
    (hchain : ∀ x, ∀ L ∈ D x, ChainAt t L)
    (hused : ∀ x : Value, x.Used → ∀ L ∈ D x, ∀ j ∈ L, j.val.Used)
    (hentries : ∀ x, nodeEntries (D x) = (key, x) ::ₘ nodeEntries C) :
    Placed { t with lastfree := some (f : Int) } C key
      { t with lastfree := some (f : Int), node := .nodes n' } (.node a) := by
  refine hhole.placed ⟨.nodes n', some (f : Int), rfl⟩
    (fun x L hL ↦ (hchain x L hL).congr rfl rfl) hused
    ⟨_, rfl, Int.ofNat_le.mpr (Nat.le_of_lt h.free_lt)⟩ (fun g hg k hk ↦ ?_) hentries
  obtain rfl := Option.some.inj hk
  exact Int.ofNat_lt.mpr (hF g hg)

/-! ### The node belongs where it is -/

/-- The free node is put into the chain behind the node. -/
theorem insertFree_second (fuel : Nat) (key : Key) (hn : t.node = .nodes n) {x z : Node} {H : Cells Node}
    (hmain : mainPos t x.key = .ok a) (hm : Holds n (cell a x + (cell f z + H))) :
    ∃ n', insertFree fuel t a f key = .ok ({ t with node := .nodes n' }, some (.node f)) ∧
      Holds n' (cell f ⟨z.val, key, x.next⟩ + (cell a { x with next := some f } + H)) := by
  have hf := hm.of_eq (add_left_comm _ _ _)
  obtain ⟨n₁, hstore₁, hm₁⟩ := storeNode_spec hn hf { z with next := x.next }
  obtain ⟨n₂, hstore₂, hm₂⟩ := storeNode_spec (t := { t with node := .nodes n₁ }) rfl
    (hm₁.of_eq (add_left_comm _ _ _)) { x with next := some f }
  have hf₂ := hm₂.of_eq (add_left_comm _ _ _)
  obtain ⟨n₃, hstore₃, hm₃⟩ := storeNode_spec (t := { t with node := .nodes n₂ }) rfl hf₂
    { z with key, next := x.next }
  refine ⟨n₃, ?_, hm₃⟩
  rw [insertFree, loadNode_eq hn hm, Exec.ok_bind, hmain, Exec.ok_bind, if_neg (not_not.mpr rfl),
    loadNode_eq hn hf, Exec.ok_bind, hstore₁, Exec.ok_bind, hstore₂, Exec.ok_bind, placeKey,
    loadNode_eq (t := { t with node := .nodes n₂ }) rfl hf₂, Exec.ok_bind]
  exact congrArg (· >>= _) hstore₃

theorem Layout.placed_second (h : Layout t n ((j :: L₂) ::ₘ C) ((f, v) ::ₘ F))
    (hF : ∀ g ∈ F, g.1 < f) (hkey : mainPos t key = .ok j.addr) {n' : Objects Node}
    (hm : Holds n' (cell f ⟨⟨v, .nil⟩, key, firstItem none L₂⟩ +
      (cell j.addr ⟨j.val, j.key, some f⟩ + (chainCells none L₂ + nodeCells C F)))) :
    Placed { t with lastfree := some (f : Int) } ((j :: L₂) ::ₘ C) key
      { t with lastfree := some (f : Int), node := .nodes n' } (.node f) := by
  have haddrs := h.addrs
  rw [nodeCells_cons, nodeCells_cons_free, chainCells] at haddrs
  refine h.hole_placed hF (D := fun x ↦ (j :: ⟨f, key, x⟩ :: L₂) ::ₘ C) ⟨n', _, _, _, rfl, hm, ?_,
    fun x ↦ ?_⟩ ?_ ?_ ?_
  · refine Eq.trans ?_ haddrs
    simp only [cell, Multiset.map_add, Multiset.map_singleton]
    abel
  · rw [nodeCells_cons, chainCells, chainCells]
    change _ = cell j.addr ⟨j.val, j.key, some f⟩ + (cell f ⟨x, key, firstItem none L₂⟩ +
      chainCells none L₂) + nodeCells C F
    abel
  · intro x L hL
    rcases Multiset.mem_cons.mp hL with rfl | hL
    · obtain ⟨i, L', hL', hmain⟩ := h.head
      obtain ⟨rfl, rfl⟩ := List.cons.inj hL'
      refine ⟨j, _, rfl, fun y hy ↦ ?_⟩
      rcases List.mem_cons.mp hy with rfl | hy
      · exact hmain y List.mem_cons_self
      · rcases List.mem_cons.mp hy with rfl | hy
        · exact hkey
        · exact hmain y (List.mem_cons_of_mem _ hy)
    · exact h.chain L (Multiset.mem_cons_of_mem hL)
  · intro x hx L hL y hy
    have hall := h.used _ (Multiset.mem_cons_self _ _)
    rcases Multiset.mem_cons.mp hL with rfl | hL
    · rcases List.mem_cons.mp hy with rfl | hy
      · exact hall y List.mem_cons_self
      · rcases List.mem_cons.mp hy with rfl | hy
        · exact hx
        · exact hall y (List.mem_cons_of_mem _ hy)
    · exact h.used L (Multiset.mem_cons_of_mem hL) y hy
  · intro x
    rw [nodeEntries_cons, nodeEntries_cons]
    simp only [List.map_cons, ← Multiset.cons_coe, Multiset.cons_add]
    exact Multiset.cons_swap _ _ _

/-! ### The node does not belong where it is -/

/-- The node moves to the free node, and the key gets its place; `c` is the node before it in its
chain. -/
theorem insertFree_moved (fuel : Nat) (key : Key) (hn : t.node = .nodes n) {x y z : Node} {b c : Nat}
    {H : Cells Node} (hmain : mainPos t x.key = .ok b) (hne : a ≠ b)
    (hm : Holds n (cell c y + (cell f z + (cell a x + H)))) :
    ∃ n', Holds n' (cell a ⟨{ x.val with tt := .nil }, key, none⟩ +
        (cell c { y with next := some f } + (cell f x + H))) ∧
      (findPrev t a fuel b = .ok c → insertFree fuel t a f key =
        .ok ({ t with node := .nodes n' }, some (.node a))) ∧
      (findPrev t a fuel b = Exec.timeout → insertFree fuel t a f key = Exec.timeout) := by
  have ha : Holds n (cell a x + (cell c y + (cell f z + H))) := hm.of_eq (by abel)
  obtain ⟨n₁, hstore₁, hm₁⟩ := storeNode_spec hn hm { y with next := some f }
  have ha₁ : Holds n₁ (cell a x + (cell c { y with next := some f } + (cell f z + H))) :=
    hm₁.of_eq (by abel)
  obtain ⟨n₂, hstore₂, hm₂⟩ := storeNode_spec (t := { t with node := .nodes n₁ }) rfl
    (hm₁.of_eq (add_left_comm _ _ _)) x
  have ha₂ : Holds n₂ (cell a x + (cell c { y with next := some f } + (cell f x + H))) :=
    hm₂.of_eq (by abel)
  obtain ⟨n₃, hstore₃, hm₃⟩ := storeNode_spec (t := { t with node := .nodes n₂ }) rfl ha₂
    { x with val := { x.val with tt := .nil }, next := none }
  obtain ⟨n₄, hstore₄, hm₄⟩ := storeNode_spec (t := { t with node := .nodes n₃ }) rfl hm₃
    ⟨{ x.val with tt := .nil }, key, none⟩
  refine ⟨n₄, hm₄, fun hprev ↦ ?_, fun hprev ↦ ?_⟩
  · rw [insertFree, loadNode_eq hn ha, Exec.ok_bind, hmain, Exec.ok_bind, if_pos hne, hprev,
      Exec.ok_bind, loadNode_eq hn hm, Exec.ok_bind, hstore₁, Exec.ok_bind,
      loadNode_eq (t := { t with node := .nodes n₁ }) rfl ha₁, Exec.ok_bind, hstore₂, Exec.ok_bind,
      hstore₃, Exec.ok_bind, placeKey, loadNode_eq (t := { t with node := .nodes n₃ }) rfl hm₃,
      Exec.ok_bind]
    exact congrArg (· >>= _) hstore₄
  · rw [insertFree, loadNode_eq hn ha, Exec.ok_bind, hmain, Exec.ok_bind, if_pos hne, hprev]
    rfl

/-- The cells in front of a node, of which the one before it is `p`. -/
theorem chainCells_prev {i p : Item} {L' L₀ : List Item} (hL : i :: L' = L₀ ++ [p])
    (b : Option Nat) :
    chainCells b (i :: L') = cell p.addr (p.node b) + chainCells (some p.addr) L₀ := by
  rw [hL, chainCells_middle, chainCells, firstItem, add_zero]

theorem Layout.placed_moved {i p : Item} {L' L₀ : List Item} (hL : i :: L' = L₀ ++ [p])
    (h : Layout t n ((i :: L' ++ j :: L₂) ::ₘ C) ((f, v) ::ₘ F)) (hF : ∀ g ∈ F, g.1 < f)
    (hkey : mainPos t key = .ok j.addr) {n' : Objects Node}
    (hm : Holds n' (cell j.addr ⟨{ j.val with tt := .nil }, key, none⟩ + (cell p.addr
      (p.node (some f)) + (cell f (j.node (firstItem none L₂)) + (chainCells (some p.addr) L₀ +
        chainCells none L₂ + nodeCells C F))))) :
    Placed { t with lastfree := some (f : Int) } ((i :: L' ++ j :: L₂) ::ₘ C) key
      { t with lastfree := some (f : Int), node := .nodes n' } (.node j.addr) := by
  have haddrs := h.addrs
  rw [nodeCells_cons, nodeCells_cons_free, chainCells_middle, chainCells_prev hL] at haddrs
  refine h.hole_placed hF (D := fun x ↦ [⟨j.addr, key, x⟩] ::ₘ
    (i :: L' ++ ⟨f, j.key, j.val⟩ :: L₂) ::ₘ C) ⟨n', _, _, _, rfl, hm, ?_, fun x ↦ ?_⟩ ?_ ?_ ?_
  · refine Eq.trans ?_ haddrs
    simp only [cell, Multiset.map_add, Multiset.map_singleton]
    abel
  · rw [nodeCells_cons, nodeCells_cons, chainCells_middle, chainCells_prev hL]
    simp only [chainCells, firstItem, Item.node]
    abel
  · intro x L hL
    rcases Multiset.mem_cons.mp hL with rfl | hL
    · refine ⟨_, [], rfl, fun y hy ↦ ?_⟩
      rw [List.mem_singleton.mp hy]
      exact hkey
    · rcases Multiset.mem_cons.mp hL with rfl | hL
      · obtain ⟨i', L'', hL'', hmain⟩ := h.head
        obtain ⟨rfl, rfl⟩ := List.cons.inj hL''
        refine ⟨i, _, rfl, fun y hy ↦ ?_⟩
        rcases List.mem_append.mp hy with hy | hy
        · exact hmain y (List.mem_append_left _ hy)
        · rcases List.mem_cons.mp hy with rfl | hy
          · exact hmain j (List.mem_append_right _ List.mem_cons_self)
          · exact hmain y (List.mem_append_right _ (List.mem_cons_of_mem _ hy))
      · exact h.chain L (Multiset.mem_cons_of_mem hL)
  · intro x hx L hL y hy
    rcases Multiset.mem_cons.mp hL with rfl | hL
    · rw [List.mem_singleton.mp hy]
      exact hx
    · rcases Multiset.mem_cons.mp hL with rfl | hL
      · have hall := h.used _ (Multiset.mem_cons_self _ _)
        rcases List.mem_append.mp hy with hy | hy
        · exact hall y (List.mem_append_left _ hy)
        · rcases List.mem_cons.mp hy with rfl | hy
          · exact hall j (List.mem_append_right _ List.mem_cons_self)
          · exact hall y (List.mem_append_right _ (List.mem_cons_of_mem _ hy))
      · exact h.used L (Multiset.mem_cons_of_mem hL) y hy
  · intro x
    rw [nodeEntries_cons, nodeEntries_cons, nodeEntries_cons]
    simp only [List.map_append, List.map_cons, List.map_nil]
    rfl

/-! ### A main position that is in use -/

/-- `dl_newkey_l` for a main position that is in use, with the free node at `f`. -/
theorem insertFree_spec (fuel : Nat) (hn : t.node = .nodes n)
    (h : Layout t n ((L₁ ++ j :: L₂) ::ₘ C) ((f, v) ::ₘ F)) (hF : ∀ g ∈ F, g.1 < f)
    (hkey : mainPos t key = .ok j.addr) :
    ∃ t' l, Placed { t with lastfree := some (f : Int) } ((L₁ ++ j :: L₂) ::ₘ C) key t' l ∧
      Exec.Extends (insertFree fuel { t with lastfree := some (f : Int) } j.addr f key)
        (.ok (t', some l)) ∧
      (t.sizenode ≤ fuel → insertFree fuel { t with lastfree := some (f : Int) } j.addr f key =
        .ok (t', some l)) := by
  have hm : Holds n (cell j.addr (j.node (firstItem none L₂)) + (cell f (freeNode v) +
      (chainCells (some j.addr) L₁ + (chainCells none L₂ + nodeCells C F)))) := h.holds.of_eq (by
    rw [nodeCells_cons, nodeCells_cons_free, chainCells_middle]
    dsimp only
    abel)
  rcases h.chain_eq with ⟨rfl, hmain⟩ | ⟨i, L', rfl, hmain, hne⟩
  · have hmain : mainPos { t with lastfree := some (f : Int) } (j.node (firstItem none L₂)).key =
        .ok j.addr := (mainPos_congr rfl rfl _).trans hmain
    obtain ⟨n', hrun, hm'⟩ := insertFree_second (t := { t with lastfree := some (f : Int) }) fuel key
      hn hmain (hm.of_eq (by rw [chainCells, zero_add]))
    exact ⟨_, .node f, h.placed_second hF hkey hm', .inr hrun, fun _ ↦ hrun⟩
  · have hmain : mainPos { t with lastfree := some (f : Int) } (j.node (firstItem none L₂)).key =
        .ok i.addr := (mainPos_congr rfl rfl _).trans hmain
    obtain ⟨L₀, p, hL⟩ : ∃ L₀ p, i :: L' = L₀ ++ [p] :=
      ⟨_, _, (List.dropLast_append_getLast (List.cons_ne_nil i L')).symm⟩
    have hfirst : firstItem none (L₀ ++ [p]) = some i.addr := by rw [← hL, firstItem]
    have hmid : Holds n (cell j.addr (j.node (firstItem none L₂)) +
        (chainCells (some j.addr) (L₀ ++ [p]) + (cell f (freeNode v) +
          (chainCells none L₂ + nodeCells C F)))) := hm.of_eq (by
      rw [hL]
      abel)
    have hprev := findPrev_extends fuel (t := { t with lastfree := some (f : Int) }) hn hmid hfirst
    have hthree : Holds n (cell p.addr (p.node (some j.addr)) + (cell f (freeNode v) +
        (cell j.addr (j.node (firstItem none L₂)) + (chainCells (some p.addr) L₀ +
          chainCells none L₂ + nodeCells C F)))) := hm.of_eq (by
      rw [chainCells_prev hL]
      abel)
    obtain ⟨n', hm', hrun, htimeout⟩ := insertFree_moved
      (t := { t with lastfree := some (f : Int) }) fuel key hn hmain hne.symm hthree
    refine ⟨_, .node j.addr, h.placed_moved hL hF hkey hm', ?_,
      fun hfuel ↦ hrun (findPrev_eq hn hmid ?_ hfirst)⟩
    · rcases hprev with hprev | hprev
      · exact .inl (htimeout hprev)
      · exact .inr (hrun hprev)
    · have hlen : (i :: L' ++ j :: L₂).length ≤ t.sizenode := h.length_le
      rw [hL] at hlen
      simp only [List.length_append, List.length_cons, List.length_nil] at hlen
      omega

end Dlbase.Table
