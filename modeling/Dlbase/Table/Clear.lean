import Dlbase.Table.Overflow

/-!
# Strings that are told apart

The search for a string stops at the first string that begins with it, and reads beyond the end of
one that it begins with.  It is exact if there is no such string on its way.  A rehash looks for all
keys anew, so that then it is a matter of all strings of the table.
-/

namespace Dlbase.Table

open Cmem

/-- The search for the string looks at the node. -/
inductive Meets (t : DlTable) (s : List UInt8) : Nat → Prop where
  /-- It begins at the main position. -/
  | head : Meets t s (hashstr t s)
  /-- It goes on unless the node has that string. -/
  | next {i j : Nat} {x : Node} : Meets t s i → loadNode t i = .ok x →
      x.key.content t.mem ≠ some (.str s) → x.next = some j → Meets t s j

/-- The search for the key meets no other string that begins with it, or that it begins with. -/
def Clear (t : DlTable) : Content → Prop
  | .int _ => True
  | .str s => ∀ i x u, i < t.sizenode → Meets t s i → loadNode t i = .ok x →
      x.key.content t.mem = some (.str u) → s <+: u ∨ u <+: s → u = s

/-- There is a place for the key in the table. -/
def Present (t : DlTable) (c : Content) : Prop :=
  (∃ k, c = .int k ∧ InArray t k) ∨
    ∃ i x, i < t.sizenode ∧ loadNode t i = .ok x ∧ x.key.content t.mem = some c

/-- The key needs a node, and there is none. -/
structure Crowded (t : DlTable) (c : Content) : Prop where
  /-- There is no place for the key yet. -/
  absent : ¬ Present t c
  /-- No node is free. -/
  inUse : ∀ i x, i < t.sizenode → loadNode t i = .ok x → x.key ≠ .nil

/-- None of the strings of the table and the new key begins with another one. -/
def Told (t : DlTable) (c : Content) : Prop :=
  ∀ s u, Present t (.str s) ∨ c = .str s → Present t (.str u) ∨ c = .str u → s <+: u → s = u

variable {A : Malloc} {put : DlTable → Key → Exec Insertion} {t t' : DlTable} {n : Objects Node}
  {C : Multiset (List Item)} {F : Multiset (Nat × Int)} {L : List Item} {k key : Key} {v : Value}
  {c d e : Content} {l : Loc} {E E' R : Entries} {s : List UInt8} {i j fuel : Nat} {x : Node}
  {o : Option Loc}

/-! ## Nodes and entries -/

/-- A node with a key is an entry. -/
theorem Shape.mem_of_load (h : Shape t E) (hi : i < t.sizenode) (hx : loadNode t i = .ok x)
    (hc : x.key.content t.mem = some c) : (x.key, x.val) ∈ E := by
  obtain ⟨C, hC, rfl, -⟩ := h.nodes
  refine Multiset.mem_add.mpr (.inr ?_)
  cases hC with
  | dummy hn =>
    rw [loadNode_dummy hn] at hx
    split_ifs at hx
    · obtain rfl := Except.ok.inj hx
      cases hc
    · cases hx
  | nodes hn hl =>
    rcases hl.cases hi with ⟨w, F', rfl⟩ | ⟨L₁, y, L₂, C', rfl, rfl⟩
    · obtain rfl := Except.ok.inj ((loadNode_eq hn hl.holds_free).symm.trans hx)
      cases hc
    · obtain rfl := Except.ok.inj ((hl.load hn).symm.trans hx)
      exact mem_nodeEntries.mpr ⟨_, Multiset.mem_cons_self _ _, y, by simp, rfl⟩

/-- The key of an entry has a place. -/
theorem Shape.present (h : Shape t E) {r : Key × Value} (hr : r ∈ E)
    (hc : r.1.content t.mem = some c) : Present t c := by
  obtain ⟨C, hC, rfl, -⟩ := h.nodes
  rcases Multiset.mem_add.mp hr with hr | hr
  · obtain ⟨i, hi, hin⟩ := mem_arrayEntries hr
    rw [hi] at hc
    exact .inl ⟨i, (Option.some.inj hc).symm, hin⟩
  · cases hC with
    | dummy => cases hr
    | nodes hn hl =>
      obtain ⟨L, hL, y, hy, rfl⟩ := mem_nodeEntries.mp hr
      obtain ⟨L₁, L₂, rfl⟩ := List.append_of_mem hy
      obtain ⟨C', rfl⟩ := Multiset.exists_cons_of_mem hL
      exact .inr ⟨y.addr, _, hl.addr_lt, hl.load hn, hc⟩

/-- The entries are determined by the array and the nodes. -/
theorem Shape.unique (h : Shape t E) (h' : Shape t E') : E = E' := by
  obtain ⟨C, hC, rfl, -⟩ := h.nodes
  obtain ⟨C', hC', rfl, -⟩ := h'.nodes
  cases hC with
  | dummy hn =>
    cases hC' with
    | dummy => rfl
    | nodes hn' => cases hn.symm.trans hn'
  | nodes hn hl =>
    cases hC' with
    | dummy hn' => cases hn.symm.trans hn'
    | nodes hn' hl' => rw [← hl.allNodes_eq hn, ← hl'.allNodes_eq hn']

/-- All nodes are in use if there are as many entries. -/
theorem Chains.inUse (hc : Chains t C) (hcard : (nodeEntries C).card = capacity t)
    (hi : i < t.sizenode) (hx : loadNode t i = .ok x) : x.key ≠ .nil := by
  cases hc with
  | dummy hn =>
    rw [loadNode_dummy hn] at hx
    split_ifs at hx
    · obtain rfl := Except.ok.inj hx
      exact nofun
    · cases hx
  | nodes hn hl =>
    rw [capacity_nodes hn] at hcard
    have hF := hl.card_eq
    rcases hl.cases hi with ⟨w, F', rfl⟩ | ⟨L₁, y, L₂, C', rfl, rfl⟩
    · rw [Multiset.card_cons] at hF
      omega
    · obtain rfl := Except.ok.inj ((hl.load hn).symm.trans hx)
      obtain ⟨a, -, -, hmain⟩ := hl.head
      exact key_ne_nil (hmain y (by simp))

/-! ## Searches -/

/-- The search looks at what it finds. -/
theorem search_meets (hi : Meets t s i) (h : search t (sameStr t s) fuel i = .ok (some (.node j))) :
    Meets t s j := by
  induction fuel generalizing i with
  | zero => cases h
  | succ fuel ih =>
    obtain ⟨x, hx, h⟩ := Exec.bind_eq_ok.mp h
    obtain ⟨b, hb, h⟩ := Exec.bind_eq_ok.mp h
    cases b with
    | true =>
      obtain rfl := Loc.node.inj (Option.some.inj (Except.ok.inj h))
      exact hi
    | false =>
      have hne : x.key.content t.mem ≠ some (.str s) := testStr_false hb
      cases hnext : x.next with
      | none =>
        rw [hnext] at h
        cases h
      | some a =>
        rw [hnext] at h
        exact ih (.next hi hx hne hnext) h

/-- A search finds nodes. -/
theorem search_ne_array {same : Node → Exec Bool} : search t same fuel i ≠ .ok (some (.array j)) := by
  induction fuel generalizing i with
  | zero => exact nofun
  | succ fuel ih =>
    intro h
    obtain ⟨x, -, h⟩ := Exec.bind_eq_ok.mp h
    obtain ⟨b, -, h⟩ := Exec.bind_eq_ok.mp h
    cases b with
    | true => cases h
    | false =>
      cases hnext : x.next with
      | none =>
        rw [hnext] at h
        cases h
      | some a =>
        rw [hnext] at h
        exact ih h

/-- What is found is the key itself. -/
theorem Clear.found (hclear : Clear t c) (hret : find fuel t c = .ok (some l))
    (hat : At t k v R l) (hk : k.content t.mem = some e) (hb : c.Begins e) : e = c := by
  cases c with
  | int i => exact hb.symm
  | str s =>
    cases e with
    | int i => cases hb
    | str u =>
      cases hat with
      | array => exact absurd hret search_ne_array
      | @node n L₁ L₂ y C F hn hl _ hky =>
        subst hky
        exact congrArg _ (hclear y.addr _ u hl.addr_lt (search_meets .head hret) (hl.load hn) hk
          (.inl hb))

/-- No search reads beyond the end of a string that it meets. -/
theorem Clear.exists_searchItems (hclear : Clear t c) (hall : ∀ y ∈ L, ∃ e, y.key.content t.mem = some e)
    (hlt : ∀ y ∈ L, y.addr < t.sizenode)
    (hload : ∀ L₁ y L₂, L = L₁ ++ y :: L₂ → loadNode t y.addr = .ok (y.node (firstItem none L₂)))
    (hmeets : ∀ s, c = .str s → ∀ a, firstItem none L = some a → Meets t s a) :
    ∃ o, searchItems (c.test t.mem) L = .ok o := by
  induction L with
  | nil => exact ⟨none, rfl⟩
  | cons y L ih =>
    obtain ⟨e, he⟩ := hall y List.mem_cons_self
    have hy := hload [] y L rfl
    obtain ⟨b, hb⟩ : ∃ b, c.test t.mem y.key = .ok b := by
      refine Content.exists_test he fun hbegins ↦ ?_
      cases c with
      | int i => cases e <;> exact hbegins
      | str s =>
        cases e with
        | int i => exact hbegins
        | str u => exact congrArg _ (hclear y.addr _ u (hlt y List.mem_cons_self)
            (hmeets s rfl _ rfl) hy he (.inr hbegins))
    rw [searchItems, hb, Exec.ok_bind]
    cases b with
    | true => exact ⟨_, rfl⟩
    | false =>
      refine ih (fun z hz ↦ hall z (List.mem_cons_of_mem _ hz))
        (fun z hz ↦ hlt z (List.mem_cons_of_mem _ hz))
        (fun L₁ z L₂ hL ↦ hload (y :: L₁) z L₂ (congrArg _ hL)) fun s hs a ha ↦ ?_
      subst hs
      exact .next (hmeets s rfl _ rfl) hy (testStr_false hb) ha

/-- A key can be looked for if its search is exact. -/
theorem Shape.find_returns (h : Shape t E) (hkeys : ∀ r ∈ E, ∃ e, r.1.content t.mem = some e)
    (hclear : Clear t c) : ∃ o, Returns (fun fuel ↦ find fuel t c) o := by
  by_cases hin : ∃ k, c = .int k ∧ InArray t k
  · obtain ⟨k, rfl, hin⟩ := hin
    exact ⟨_, 0, fun fuel _ ↦ if_pos hin⟩
  · obtain ⟨L, hL, hhead, hload, hfind⟩ := h.find_items (c := c) fun k hk hin' ↦ hin ⟨k, hk, hin'⟩
    obtain ⟨o, ho⟩ := hclear.exists_searchItems (fun y hy ↦ hkeys _ (hL y hy).1)
      (fun y hy ↦ (hL y hy).2) hload fun s hs a ha ↦ by
        have hne : L ≠ [] := by
          rintro rfl
          cases ha
        subst hs
        obtain rfl := Option.some.inj ((hhead hne).symm.trans ha)
        exact .head
    exact ⟨o, t.sizenode, fun fuel hf ↦ (hfind fuel hf).trans ho⟩

/-- A search is exact if the strings of the table are told apart. -/
theorem Told.clear (h : Told t c) : Clear t c := by
  cases c with
  | int i => trivial
  | str s =>
    intro i x u hi _ hx hu hpre
    have hpresent : Present t (.str u) := .inr ⟨i, x, hi, hx, hu⟩
    rcases hpre with hpre | hpre
    · exact (h s u (.inr rfl) (.inl hpresent) hpre).symm
    · exact h u s (.inl hpresent) (.inr rfl) hpre

/-- Keys that are told apart are equal if one begins with the other. -/
theorem Told.eq_of_begins (h : Told t c) (hd : Present t d ∨ c = d) (he : Present t e ∨ c = e)
    (hb : d.Begins e) : d = e := by
  cases d with
  | int i => cases e <;> exact hb
  | str s =>
    cases e with
    | int i => exact hb
    | str u => exact congrArg _ (h s u hd he hb)

/-! ## Free nodes -/

/-- A key that is not in the table is put in a free node, if there is one. -/
theorem newkeyWith_free (h : Shape t E) (hk : key.content t.mem = some c) (habsent : ¬ Present t c)
    (hfree : ¬ Crowded t c) (hrun : newkeyWith A put fuel t key = .ok (t', o)) :
    ∃ l, o = some l ∧ ∀ x : Value, x.Used → ∃ t'', writeVal t' l x = .ok t'' ∧
      Shape t'' ((key, x) ::ₘ E) := by
  obtain ⟨C, hC, rfl, hsep⟩ := h.nodes
  rcases newkeyWith_cases A put fuel hC (mainPos_eq hk) with ⟨t₁, l, hp, hext, -, -⟩ |
    ⟨-, -, hcard, -⟩
  · obtain ⟨rfl, rfl⟩ := Prod.mk.inj (Except.ok.inj (hext.eq_ok hrun).symm)
    have hout : ∀ i, key = .int i → ¬ InArray t i := fun i hi hin ↦ by
      rw [hi] at hk
      exact habsent (.inl ⟨i, (Option.some.inj hk).symm, hin⟩)
    refine ⟨l, rfl, fun x hx ↦ ?_⟩
    obtain ⟨t'', hw, -, hshape⟩ := hp.shape h.array h.id hsep hout hx
    exact ⟨t'', hw, hshape⟩
  · exact absurd ⟨habsent, fun i x hi hx ↦ hC.inUse hcard hi hx⟩ hfree

end Dlbase.Table
