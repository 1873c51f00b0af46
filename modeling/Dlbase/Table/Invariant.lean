import Dlbase.Table.Refine

/-!
# The invariant of the node part

What holds of the nodes between any two calls, stated by what can be read from them: each chain
begins at the main position of its keys, the chains are disjoint and end, no key is there twice, and
all free nodes lie below `lastfree`.
-/

namespace Dlbase.Table

open Cmem

/-- The node at an index of the node part. -/
structure NodeAt (t : DlTable) (i : Nat) (x : Node) : Prop where
  /-- It is one of the nodes. -/
  lt : i < t.sizenode
  /-- It can be read. -/
  load : loadNode t i = .ok x

/-- A node is followed by another one. -/
def Next (t : DlTable) (i j : Nat) : Prop := ∃ x, NodeAt t i x ∧ x.next = some j

/-- The node is in the same chain, and is not before the other one. -/
abbrev Leads (t : DlTable) : Nat → Nat → Prop := Relation.ReflTransGen (Next t)

/-- What holds of the nodes. -/
structure NodesOk (t : DlTable) : Prop where
  /-- All nodes can be read. -/
  load : ∀ i < t.sizenode, ∃ x, NodeAt t i x
  /-- The key is nil just if the value is. -/
  nil_iff : ∀ i x, NodeAt t i x → (x.key = .nil ↔ x.val.tt = .nil)
  /-- All other keys have a main position. -/
  main : t.node.isDummy = false → ∀ i x, NodeAt t i x → x.key ≠ .nil → ∃ p, mainPos t x.key = .ok p
  /-- A node is reached from the main position of its key. -/
  reached : ∀ i x p, NodeAt t i x → mainPos t x.key = .ok p → Leads t p i
  /-- The head of a chain is the main position of all nodes on it. -/
  head : ∀ h i x p, (∀ j, ¬ Next t j h) → Leads t h i → NodeAt t i x → mainPos t x.key = .ok p →
    p = h
  /-- No node is before itself. -/
  acyclic : ∀ i, ¬ Relation.TransGen (Next t) i i
  /-- Two nodes are not followed by the same one. -/
  disjoint : ∀ i j k, Next t i k → Next t j k → i = j
  /-- Each chain ends. -/
  ends : ∀ i < t.sizenode, ∃ j x, Leads t i j ∧ NodeAt t j x ∧ x.next = none
  /-- No two nodes have the same key. -/
  once : ∀ i j x y c, NodeAt t i x → NodeAt t j y → x.key.content t.mem = some c →
    y.key.content t.mem = some c → i = j
  /-- No node has a key that belongs to the array. -/
  apart : ∀ i x k, NodeAt t i x → x.key = .int k → ¬ InArray t k
  /-- Free nodes are below `lastfree`. -/
  low : t.node.isDummy = false → ∃ k, t.lastfree = some k ∧
    ∀ i x, NodeAt t i x → x.key = .nil → (i : Int) < k

variable {A : Malloc} {t : DlTable} {n : Objects Node} {C : Multiset (List Item)}
  {F : Multiset (Nat × Int)} {E : Entries} {L L₁ L₂ M₁ M₂ : List Item} {y z : Item} {x : Node}
  {i j p : Nat} {S : Set (List UInt8)} {hist : List (Call × Status)}

/-! ## Chains -/

theorem Item.eq_of_node {q q' : Option Nat} (ha : y.addr = z.addr) (h : y.node q = z.node q') :
    y = z ∧ q = q' := by
  obtain ⟨hval, hkey, hq⟩ := Node.mk.inj h
  cases y
  cases z
  exact ⟨Item.mk.injEq .. ▸ ⟨ha, hkey, hval⟩, hq⟩

namespace Layout

/-- A node of one of the chains. -/
theorem nodeAt (hn : t.node = .nodes n) (h : Layout t n C F) (hy : L₁ ++ y :: L₂ ∈ C) :
    NodeAt t y.addr (y.node (firstItem none L₂)) := by
  obtain ⟨C', rfl⟩ := Multiset.exists_cons_of_mem hy
  exact ⟨h.addr_lt, h.load hn⟩

/-- Every node is free or in a chain. -/
theorem nodeAt_cases (hn : t.node = .nodes n) (h : Layout t n C F) (hx : NodeAt t i x) :
    (∃ v, (i, v) ∈ F ∧ x = freeNode v) ∨
      ∃ L₁ y L₂, L₁ ++ y :: L₂ ∈ C ∧ y.addr = i ∧ x = y.node (firstItem none L₂) := by
  rcases h.cases hx.lt with ⟨v, F', rfl⟩ | ⟨L₁, y, L₂, C', rfl, rfl⟩
  · exact .inl ⟨v, Multiset.mem_cons_self _ _,
      Except.ok.inj (hx.load.symm.trans (loadNode_eq hn h.holds_free))⟩
  · exact .inr ⟨L₁, y, L₂, Multiset.mem_cons_self _ _, rfl,
      Except.ok.inj (hx.load.symm.trans (h.load hn))⟩

/-- The rest of a chain is determined by where it begins. -/
theorem rest_unique (hn : t.node = .nodes n) (h : Layout t n C F) (hy : L₁ ++ y :: L₂ ∈ C)
    (hz : M₁ ++ z :: M₂ ∈ C) (ha : y.addr = z.addr) : y :: L₂ = z :: M₂ := by
  induction L₂ generalizing L₁ y M₁ z M₂ with
  | nil =>
    have hload := ha ▸ (h.nodeAt hn hy).load
    obtain ⟨rfl, hnext⟩ := Item.eq_of_node ha
      (Except.ok.inj (hload.symm.trans (h.nodeAt hn hz).load))
    cases M₂ with
    | nil => rfl
    | cons b M₂ => cases hnext
  | cons a L₂ ih =>
    have hload := ha ▸ (h.nodeAt hn hy).load
    obtain ⟨rfl, hnext⟩ := Item.eq_of_node ha
      (Except.ok.inj (hload.symm.trans (h.nodeAt hn hz).load))
    cases M₂ with
    | nil => cases hnext
    | cons b M₂ =>
      have hy' : (L₁ ++ [y]) ++ a :: L₂ ∈ C := by simpa using hy
      have hz' : (M₁ ++ [y]) ++ b :: M₂ ∈ C := by simpa using hz
      rw [ih hy' hz' (Option.some.inj hnext)]

/-- So is the whole chain. -/
theorem chain_unique (hn : t.node = .nodes n) (h : Layout t n C F) (hy : L₁ ++ y :: L₂ ∈ C)
    (hz : M₁ ++ z :: M₂ ∈ C) (ha : y.addr = z.addr) : L₁ = M₁ ∧ y = z ∧ L₂ = M₂ := by
  obtain ⟨rfl, rfl⟩ := List.cons.inj (h.rest_unique hn hy hz ha)
  obtain ⟨a, L, hL, hmain⟩ := h.chain _ hy
  obtain ⟨b, M, hM, hmain'⟩ := h.chain _ hz
  -- both begin at the main position of the key
  have hab : a.addr = b.addr :=
    Except.ok.inj ((hmain y (by simp)).symm.trans (hmain' y (by simp)))
  rw [hL] at hy
  rw [hM] at hz
  have heq := h.rest_unique hn (show [] ++ a :: L ∈ C from hy) (show [] ++ b :: M ∈ C from hz) hab
  rw [← hL, ← hM] at heq
  exact ⟨List.append_cancel_right heq, rfl, rfl⟩

theorem next_iff (hn : t.node = .nodes n) (h : Layout t n C F) :
    Next t i j ↔ ∃ L₁ y z L₂, L₁ ++ y :: z :: L₂ ∈ C ∧ y.addr = i ∧ z.addr = j := by
  constructor
  · rintro ⟨x, hx, hnext⟩
    rcases h.nodeAt_cases hn hx with ⟨v, -, rfl⟩ | ⟨L₁, y, L₂, hy, rfl, rfl⟩
    · cases hnext
    · cases L₂ with
      | nil => cases hnext
      | cons z L₂ => exact ⟨L₁, y, z, L₂, hy, rfl, Option.some.inj hnext⟩
  · rintro ⟨L₁, y, z, L₂, hy, rfl, rfl⟩
    exact ⟨_, h.nodeAt hn hy, rfl⟩

/-- A node leads to all nodes behind it. -/
theorem leads (hn : t.node = .nodes n) (h : Layout t n C F) (hy : L₁ ++ y :: (L ++ z :: L₂) ∈ C) :
    Leads t y.addr z.addr := by
  induction L generalizing L₁ y with
  | nil => exact .single ((h.next_iff hn).mpr ⟨_, _, _, _, hy, rfl, rfl⟩)
  | cons a L ih =>
    have ha : L₁ ++ [y] ++ a :: (L ++ z :: L₂) ∈ C := by simpa using hy
    exact (ih ha).head ((h.next_iff hn).mpr ⟨_, _, _, _, hy, rfl, rfl⟩)

/-- What a node leads to is behind it, or it is the node itself. -/
theorem of_leads (hn : t.node = .nodes n) (h : Layout t n C F) (hy : L₁ ++ y :: L₂ ∈ C)
    (hlead : Leads t y.addr j) : ∃ z ∈ y :: L₂, z.addr = j := by
  induction hlead with
  | refl => exact ⟨y, List.mem_cons_self, rfl⟩
  | @tail b c _ hnext ih =>
    obtain ⟨a, ha, rfl⟩ := ih
    obtain ⟨M, M', hM⟩ := List.append_of_mem ha
    rw [hM, ← List.append_assoc] at hy
    obtain ⟨K, a', z, K', hK, haddr, rfl⟩ := (h.next_iff hn).mp hnext
    obtain ⟨-, -, rfl⟩ := h.chain_unique hn hy hK haddr.symm
    rw [hM]
    exact ⟨z, by simp, rfl⟩

end Layout

/-! ## The invariant -/

/-- `_dummynode` is nobody's next node. -/
theorem not_next_dummy (hn : t.node = .dummy) : ¬ Next t i j := by
  rintro ⟨x, hx, hnext⟩
  have hload := hx.load
  rw [loadNode_dummy hn] at hload
  split_ifs at hload
  · obtain rfl := Except.ok.inj hload
    cases hnext
  · cases hload

theorem nodesOk_dummy (hn : t.node = .dummy) (hl : t.lsizenode = 0) : NodesOk t := by
  have hx : ∀ {i x}, NodeAt t i x → i = 0 ∧ x = dummynode := fun {i x} hx ↦ by
    have hload := hx.load
    rw [loadNode_dummy hn] at hload
    split_ifs at hload with hi
    · exact ⟨hi, (Except.ok.inj hload).symm⟩
    · cases hload
  have hzero : NodeAt t 0 dummynode := ⟨sizenode_pos t, by rw [loadNode_dummy hn, if_pos rfl]⟩
  have hlt : ∀ i < t.sizenode, i = 0 := fun i hi ↦ by
    rw [DlTable.sizenode, hl] at hi
    omega
  have hdummy : t.node.isDummy ≠ false := by
    rw [hn]
    rintro ⟨⟩
  refine ⟨fun i hi ↦ ?_, fun i x h ↦ ?_, fun hne ↦ absurd hne hdummy, fun i x p h hp ↦ ?_,
    fun a i x p _ _ h hp ↦ ?_, fun i h ↦ ?_, fun i j k h ↦ absurd h (not_next_dummy hn),
    fun i hi ↦ ?_, fun i j x y c h _ hc ↦ ?_, fun i x k h hk ↦ ?_, fun hne ↦ absurd hne hdummy⟩
  · exact hlt i hi ▸ ⟨_, hzero⟩
  · rw [(hx h).2]
    exact ⟨(by rintro ⟨⟩), (by rintro ⟨⟩)⟩
  · rw [(hx h).2] at hp
    cases hp
  · rw [(hx h).2] at hp
    cases hp
  · obtain ⟨j, hnext, -⟩ := Relation.TransGen.head'_iff.mp h
    exact not_next_dummy hn hnext
  · exact hlt i hi ▸ ⟨0, _, .refl, hzero, rfl⟩
  · rw [(hx h).2] at hc
    cases hc
  · rw [(hx h).2] at hk
    cases hk

/-- A chain that ends has no cycle. -/
theorem acyclic_of_ends (hl : Leads t i j) (hx : NodeAt t j x) (hnone : x.next = none) :
    ¬ Relation.TransGen (Next t) i i := by
  have hnext : ∀ {a b c}, Next t a b → Next t a c → b = c := by
    rintro a b c ⟨x, hx, hb⟩ ⟨x', hx', hc⟩
    obtain rfl := Except.ok.inj (hx.load.symm.trans hx'.load)
    exact Option.some.inj (hb.symm.trans hc)
  induction hl using Relation.ReflTransGen.head_induction_on with
  | refl =>
    intro hcycle
    obtain ⟨k, ⟨y, hy, hk⟩, -⟩ := Relation.TransGen.head'_iff.mp hcycle
    obtain rfl := Except.ok.inj (hx.load.symm.trans hy.load)
    cases hnone.symm.trans hk
  | head hstep _ ih =>
    intro hcycle
    obtain ⟨k, hstep', hrest⟩ := Relation.TransGen.head'_iff.mp hcycle
    obtain rfl := hnext hstep hstep'
    exact ih (.tail' hrest hstep)

namespace Layout

theorem exists_nodeAt (hn : t.node = .nodes n) (h : Layout t n C F) (hi : i < t.sizenode) :
    ∃ x, NodeAt t i x := by
  rcases h.cases hi with ⟨v, F', rfl⟩ | ⟨L₁, y, L₂, C', rfl, rfl⟩
  · exact ⟨_, hi, loadNode_eq hn h.holds_free⟩
  · exact ⟨_, hi, h.load hn⟩

/-- A node with a main position is in a chain. -/
theorem nodeAt_main (hn : t.node = .nodes n) (h : Layout t n C F) (hx : NodeAt t i x)
    (hp : mainPos t x.key = .ok p) :
    ∃ L₁ y L₂, L₁ ++ y :: L₂ ∈ C ∧ y.addr = i ∧ x = y.node (firstItem none L₂) := by
  rcases h.nodeAt_cases hn hx with ⟨v, -, rfl⟩ | hy
  · cases hp
  · exact hy

theorem nil_iff (hn : t.node = .nodes n) (h : Layout t n C F) (hx : NodeAt t i x) :
    (x.key = .nil ↔ x.val.tt = .nil) ∧ (x.key ≠ .nil → ∃ p, mainPos t x.key = .ok p) := by
  rcases h.nodeAt_cases hn hx with ⟨v, -, rfl⟩ | ⟨L₁, y, L₂, hy, rfl, rfl⟩
  · exact ⟨iff_of_true rfl rfl, fun hne ↦ absurd rfl hne⟩
  · obtain ⟨a, L, -, hmain⟩ := h.chain _ hy
    have hp := hmain y (by simp)
    exact ⟨iff_of_false (key_ne_nil hp) (h.used _ hy y (by simp)).1, fun _ ↦ ⟨_, hp⟩⟩

theorem ends (hn : t.node = .nodes n) (h : Layout t n C F) (hi : i < t.sizenode) :
    ∃ j x, Leads t i j ∧ NodeAt t j x ∧ x.next = none := by
  obtain ⟨x, hx⟩ := h.exists_nodeAt hn hi
  rcases h.nodeAt_cases hn hx with ⟨v, -, rfl⟩ | ⟨L₁, y, L₂, hy, rfl, rfl⟩
  · exact ⟨i, _, .refl, hx, rfl⟩
  · rcases List.eq_nil_or_concat L₂ with rfl | ⟨K, z, rfl⟩
    · exact ⟨y.addr, _, .refl, hx, rfl⟩
    · rw [List.concat_eq_append] at hy
      have hz : (L₁ ++ y :: K) ++ z :: [] ∈ C := by simpa using hy
      exact ⟨z.addr, _, h.leads hn hy, h.nodeAt hn hz, rfl⟩

theorem reached (hn : t.node = .nodes n) (h : Layout t n C F) (hx : NodeAt t i x)
    (hp : mainPos t x.key = .ok p) : Leads t p i := by
  obtain ⟨L₁, y, L₂, hy, rfl, rfl⟩ := h.nodeAt_main hn hx hp
  obtain ⟨a, L, hL, hmain⟩ := h.chain _ hy
  obtain rfl : a.addr = p := Except.ok.inj ((hmain y (by simp)).symm.trans hp)
  cases L₁ with
  | nil =>
    obtain ⟨rfl, -⟩ := List.cons.inj hL
    exact .refl
  | cons b K =>
    obtain ⟨rfl, -⟩ := List.cons.inj hL
    exact h.leads hn (show [] ++ b :: (K ++ y :: L₂) ∈ C from hy)

theorem head_main (hn : t.node = .nodes n) (h : Layout t n C F) {a : Nat}
    (ha : ∀ j, ¬ Next t j a) (hlead : Leads t a i) (hx : NodeAt t i x)
    (hp : mainPos t x.key = .ok p) : p = a := by
  -- the head is in a chain
  obtain ⟨M₁, b, M₂, hb, rfl⟩ : ∃ M₁ b M₂, M₁ ++ b :: M₂ ∈ C ∧ b.addr = a := by
    rcases Relation.ReflTransGen.cases_head hlead with rfl | ⟨c, hnext, -⟩
    · obtain ⟨L₁, y, L₂, hy, hya, -⟩ := h.nodeAt_main hn hx hp
      exact ⟨L₁, y, L₂, hy, hya⟩
    · obtain ⟨L₁, y, z, L₂, hy, hya, -⟩ := (h.next_iff hn).mp hnext
      exact ⟨L₁, y, _, hy, hya⟩
  obtain rfl : M₁ = [] := by
    rcases List.eq_nil_or_concat M₁ with hM | ⟨K, c, rfl⟩
    · exact hM
    · have hc : K ++ c :: b :: M₂ ∈ C := by simpa using hb
      exact absurd ((h.next_iff hn).mpr ⟨_, _, _, _, hc, rfl, rfl⟩) (ha c.addr)
  obtain ⟨z, hz, hzi⟩ := h.of_leads hn hb hlead
  obtain ⟨K, K', hK⟩ := List.append_of_mem hz
  obtain ⟨L₁, y, L₂, hy, hyi, rfl⟩ := h.nodeAt_main hn hx hp
  have hb' : K ++ z :: K' ∈ C := hK ▸ hb
  obtain ⟨-, rfl, -⟩ := h.chain_unique hn hb' hy (hzi.trans hyi.symm)
  obtain ⟨d, L, hL, hmain⟩ := h.chain _ hb
  obtain ⟨rfl, -⟩ := List.cons.inj hL
  exact (Except.ok.inj ((hmain z (hK ▸ by simp)).symm.trans hp)).symm

theorem disjoint (hn : t.node = .nodes n) (h : Layout t n C F) {k : Nat} (hi : Next t i k)
    (hj : Next t j k) : i = j := by
  obtain ⟨L₁, y, z, L₂, hy, rfl, rfl⟩ := (h.next_iff hn).mp hi
  obtain ⟨M₁, y', z', M₂, hy', rfl, hz⟩ := (h.next_iff hn).mp hj
  have hL : (L₁ ++ [y]) ++ z :: L₂ ∈ C := by simpa using hy
  have hM : (M₁ ++ [y']) ++ z' :: M₂ ∈ C := by simpa using hy'
  obtain ⟨heq, -, -⟩ := h.chain_unique hn hL hM hz.symm
  obtain ⟨-, heq⟩ := List.append_inj' heq rfl
  rw [(List.cons.inj heq).1]

theorem once (hn : t.node = .nodes n) (h : Layout t n C F) (hd : Distinct t.mem (nodeEntries C))
    {x' : Node} {c : Content} (hx : NodeAt t i x) (hx' : NodeAt t j x')
    (hc : x.key.content t.mem = some c) (hc' : x'.key.content t.mem = some c) : i = j := by
  by_contra hne
  have hentry : ∀ {i x}, NodeAt t i x → x.key.content t.mem = some c →
      entryAt t.node i = {(x.key, x.val)} := fun {i x} hx hc ↦ by
    have hload : t.node.load i = .ok x := hx.load
    have hnil : x.val.tt ≠ .nil := fun hv ↦ by
      rw [(h.nil_iff hn hx).1.mpr hv] at hc
      cases hc
    rw [entryAt, hload]
    exact if_neg hnil
  have hle : ({(x.key, x.val)} : Entries) + {(x'.key, x'.val)} ≤ nodeEntries C := by
    rw [← h.allNodes_eq hn, ← hentry hx hc, ← hentry hx' hc', ← Finset.sum_pair hne]
    refine Finset.sum_le_sum_of_subset fun a ha ↦ Finset.mem_range.mpr ?_
    rcases Finset.mem_insert.mp ha with rfl | ha
    · exact hx.lt
    · rw [Finset.mem_singleton.mp ha]
      exact hx'.lt
  have htwo := hd.mono hle
  rw [Multiset.singleton_add] at htwo
  exact ((distinct_cons hc).mp htwo).1 _ (Multiset.mem_singleton_self _) hc'

/-- Chains and free nodes are what the invariant says. -/
theorem nodesOk (hn : t.node = .nodes n) (h : Layout t n C F) (hout : Outside t C)
    (hd : Distinct t.mem (nodeEntries C)) : NodesOk t where
  load i hi := h.exists_nodeAt hn hi
  nil_iff i x hx := (h.nil_iff hn hx).1
  main _ i x hx := (h.nil_iff hn hx).2
  reached i x p hx hp := h.reached hn hx hp
  head a i x p ha hlead hx hp := h.head_main hn ha hlead hx hp
  acyclic i hcycle := by
    obtain ⟨a, ⟨x, hx, -⟩, -⟩ := Relation.TransGen.head'_iff.mp hcycle
    obtain ⟨j, y, hlead, hy, hnone⟩ := h.ends hn hx.lt
    exact acyclic_of_ends hlead hy hnone hcycle
  disjoint i j k hi hj := h.disjoint hn hi hj
  ends i hi := h.ends hn hi
  once i j x x' c hx hx' hc hc' := h.once hn hd hx hx' hc hc'
  apart i x k hx hk := by
    obtain ⟨L₁, y, L₂, hy, rfl, rfl⟩ := h.nodeAt_main (p := hashnum t k) hn hx (by rw [hk]; rfl)
    exact hout y.entry (mem_nodeEntries.mpr ⟨_, hy, y, by simp, rfl⟩) k hk
  low _ := by
    obtain ⟨k, hk, -⟩ := h.last
    refine ⟨k, hk, fun i x hx hnil ↦ ?_⟩
    rcases h.nodeAt_cases hn hx with ⟨v, hv, -⟩ | ⟨L₁, y, L₂, hy, -, rfl⟩
    · exact h.low _ hv k hk
    · obtain ⟨a, L, -, hmain⟩ := h.chain _ hy
      exact absurd hnil (key_ne_nil (hmain y (by simp)))

end Layout

/-- The node part of a table that has no key twice. -/
theorem Exact.nodesOk (h : Exact t E) : NodesOk t := by
  obtain ⟨C, hC, rfl, hout⟩ := h.shape.nodes
  cases hC with
  | dummy hn hl => exact nodesOk_dummy hn hl
  | nodes hn hl => exact hl.nodesOk hn hout (h.distinct.mono (Multiset.le_add_left _ _))

/-- The invariant holds after any calls with keys of which none begins with another one. -/
theorem nodesOk_of_run (hA : ∀ i, A.fails i = false) (hS : PrefixFree S)
    (hrun : Run A (fun _ call ↦ call.key.In S) t hist) : NodesOk t := by
  obtain ⟨E, h, -⟩ := hrun.exact_of_prefixFree hA hS fun t call hcall ↦ hcall
  exact h.nodesOk

/-- It holds of the table that a rehash has led to. -/
theorem nodesOk_rehash : ∃ t, Run .reliable (fun _ call ↦ call.key.In ∅) t
    [(.set (.int (-2)) (.int 8), .ok), (.set (.int (-1)) (.int 7), .ok)] ∧ t.sizenode = 2 ∧
      NodesOk t := by
  obtain ⟨t, hrun, hsize⟩ := exists_run_two (P := fun _ call ↦ call.key.In ∅)
    (.set (.int (-1)) (.int 7)) (.set (.int (-2)) (.int 8)) (fun _ ↦ trivial) (fun _ ↦ trivial)
    (by decide +kernel)
  exact ⟨t, hrun, hsize, nodesOk_of_run (fun _ ↦ rfl) (fun s hs ↦ absurd hs (Set.notMem_empty s))
    hrun⟩

end Dlbase.Table
