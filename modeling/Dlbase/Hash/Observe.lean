import Dlbase.Hash.Slots

/-!
# What a table holds

What can be found out by following the links in memory: the nodes of a slot, their keys and their
values.  A table refines a map from keys to lists of values if each key that has values is the key
of one node, which is in the slot of its hash and has these values, and no other key is there.
-/

namespace Dlbase.Hash

open Cmem

variable {V G X : Type}

/-- The node at the address can be reached from the pointer. -/
inductive NodeIn (m : Mem V) : Option Nat → Nat → Prop where
  /-- The pointer points to it. -/
  | here (a : Nat) : NodeIn m (some a) a
  /-- It comes later in the chain. -/
  | next {a b : Nat} {n : Node V} : loadNode m (some a) = .ok n → NodeIn m n.next b →
      NodeIn m (some a) b

/-- The keys of the nodes that can be reached from the pointer, in their order. -/
inductive KeysFrom (m : Mem V) : Option Nat → List (List UInt8) → Prop where
  /-- There is no node. -/
  | nil : KeysFrom m none []
  /-- There is a first node. -/
  | cons {a : Nat} {n : Node V} {s : List UInt8} {keys : List (List UInt8)} :
      loadNode m (some a) = .ok n → loadStr m n.key = .ok s → KeysFrom m n.next keys →
      KeysFrom m (some a) (s :: keys)

/-- The node at `a` is in the slot `i`. -/
def InSlot (m : Mem V) (base n i a : Nat) : Prop :=
  i < n ∧ ∃ hd, loadNode m (some (base + i)) = .ok hd ∧ hd.v.v ≠ none ∧
    NodeIn m (some (base + i)) a

/-- The key of the node at `a`. -/
def KeyOf (m : Mem V) (a : Nat) (k : List UInt8) : Prop :=
  ∃ n, loadNode m (some a) = .ok n ∧ loadStr m n.key = .ok k

/-- The further values from the pointer on; `dec` reads a value. -/
inductive ValuesFrom (dec : Mem V → V → X → Prop) (m : Mem V) : Option Nat → List X → Prop where
  /-- There is no value. -/
  | nil : ValuesFrom dec m none []
  /-- There is a value. -/
  | cons {a : Nat} {w : VNode V} {v : V} {x : X} {xs : List X} :
      loadValue m (some a) = .ok w → w.v = some v → dec m v x → ValuesFrom dec m w.next xs →
      ValuesFrom dec m (some a) (x :: xs)

/-- The values of the node at `a`. -/
def ValuesOf (dec : Mem V → V → X → Prop) (m : Mem V) (a : Nat) (xs : List X) : Prop :=
  ∃ n v x rest, loadNode m (some a) = .ok n ∧ n.v.v = some v ∧ dec m v x ∧
    ValuesFrom dec m n.v.next rest ∧ xs = x :: rest

/-- The table at `base` with `n` slots refines the map `M`. -/
def Refines (dec : Mem V → V → X → Prop) (m : Mem V) (base n : Nat) (M : List UInt8 → List X) :
    Prop :=
  ∀ k, (M k = [] → ∀ i a, InSlot m base n i a → ¬ KeyOf m a k) ∧
    (M k ≠ [] → ∃ a, InSlot m base n (slotIndex n k) a ∧ KeyOf m a k ∧ ValuesOf dec m a (M k) ∧
      ∀ i b, InSlot m base n i b → KeyOf m b k → i = slotIndex n k ∧ b = a)

/-- The keys in the slot of a key satisfy `P`. -/
def SlotKeys (m : Mem V) (base n : Nat) (key : List UInt8) (P : List (List UInt8) → Prop) : Prop :=
  ∀ hd, loadNode m (some (base + slotIndex n key)) = .ok hd → hd.v.v ≠ none →
    ∀ keys, KeysFrom m (some (base + slotIndex n key)) keys → P keys

/-- The key is told apart from each key that it is compared with when it is looked for. -/
def Told (m : Mem V) (base n : Nat) (key : List UInt8) : Prop := SlotKeys m base n key (Clear key)

variable {val : G → V} {own : G → Cells (Obj V)} {abs : G → X} {m : Mem V} {H : Cells (Obj V)}
  {base : Nat} {S : List (Slot V G)} {key k : List UInt8} {dec : Mem V → V → X → Prop}

/-! ## Chains -/

theorem nodeIn_iff {L : List (Item G)} {b : Nat}
    (h : Holds m (chainCells val own none L + H)) :
    NodeIn m (firstNode none L) b ↔ ∃ j ∈ L, j.addr = b := by
  induction L generalizing H with
  | nil => exact ⟨(by rintro ⟨⟩), (by rintro ⟨_, ⟨⟩, _⟩)⟩
  | cons i L ih =>
    have hnode : Holds m (cell i.addr (.node (i.node val (firstNode none L))) +
        (i.owned val own + chainCells val own none L + H)) := h.of_eq (by rw [chainCells]; abel)
    have hrest : Holds m (chainCells val own none L +
        (cell i.addr (.node (i.node val (firstNode none L))) + i.owned val own + H)) :=
      h.of_eq (by rw [chainCells]; abel)
    have hload := loadNode_eq hnode
    refine ⟨fun hin ↦ ?_, ?_⟩
    · cases hin with
      | here => exact ⟨i, List.mem_cons_self, rfl⟩
      | next hn hin =>
        obtain rfl := Except.ok.inj (hload.symm.trans hn)
        obtain ⟨j, hj, hb⟩ := (ih hrest).mp hin
        exact ⟨j, List.mem_cons_of_mem _ hj, hb⟩
    · rintro ⟨j, hj, hb⟩
      rcases List.mem_cons.mp hj with rfl | hj
      · rw [← hb]
        exact .here _
      · exact .next hload ((ih hrest).mpr ⟨j, hj, hb⟩)

theorem keysFrom_eq {L : List (Item G)} (h : Holds m (chainCells val own none L + H)) :
    KeysFrom m (firstNode none L) (L.map Item.key) := by
  induction L generalizing H with
  | nil => exact .nil
  | cons i L ih =>
    have hnode : Holds m (cell i.addr (.node (i.node val (firstNode none L))) +
        (i.owned val own + chainCells val own none L + H)) := h.of_eq (by rw [chainCells]; abel)
    have hkey : Holds m (cell i.kp (.str i.key) + (own i.first + valuesCells val own i.rest +
        (cell i.addr (.node (i.node val (firstNode none L))) + chainCells val own none L + H))) :=
      h.of_eq (by rw [chainCells, Item.owned]; abel)
    have hrest : Holds m (chainCells val own none L +
        (cell i.addr (.node (i.node val (firstNode none L))) + i.owned val own + H)) :=
      h.of_eq (by rw [chainCells]; abel)
    exact .cons (loadNode_eq hnode) (loadStr_eq hkey) (ih hrest)

/-- There is one list of keys. -/
theorem KeysFrom.unique {p : Option Nat} {keys keys' : List (List UInt8)} (h : KeysFrom m p keys)
    (h' : KeysFrom m p keys') : keys' = keys := by
  induction h generalizing keys' with
  | nil => cases h'; rfl
  | cons hn hs _ ih =>
    cases h' with
    | cons hn' hs' hrest =>
      obtain rfl := Except.ok.inj (hn'.symm.trans hn)
      rw [Except.ok.inj (hs'.symm.trans hs), ih hrest]

theorem valuesFrom_eq (hdec : ∀ {m : Mem V} {H} (g : G), Holds m (own g + H) → dec m (val g) (abs g))
    {l : List (Nat × G)} (h : Holds m (valuesCells val own l + H)) :
    ValuesFrom dec m (firstValue l) (l.map fun e ↦ abs e.2) := by
  induction l generalizing H with
  | nil => exact .nil
  | cons e l ih =>
    obtain ⟨b, g⟩ := e
    have hval : Holds m (cell b (.value ⟨some (val g), firstValue l⟩) +
        (own g + valuesCells val own l + H)) := h.of_eq (by rw [valuesCells]; abel)
    have hown : Holds m (own g + (cell b (.value ⟨some (val g), firstValue l⟩) +
        valuesCells val own l + H)) := h.of_eq (by rw [valuesCells]; abel)
    have hrest : Holds m (valuesCells val own l +
        (cell b (.value ⟨some (val g), firstValue l⟩) + own g + H)) :=
      h.of_eq (by rw [valuesCells]; abel)
    exact .cons (loadValue_eq hval) rfl (hdec g hown) (ih hrest)

/-- The key and the values of a node of a chain. -/
theorem observe_item (hdec : ∀ {m : Mem V} {H} (g : G), Holds m (own g + H) → dec m (val g) (abs g))
    {j : Item G} {q : Option Nat}
    (h : Holds m (cell j.addr (.node (j.node val q)) + (j.owned val own + H))) :
    (∀ k, KeyOf m j.addr k ↔ k = j.key) ∧ ValuesOf dec m j.addr (j.entry abs).2 := by
  have hload := loadNode_eq h
  have hkey : Holds m (cell j.kp (.str j.key) + (own j.first + valuesCells val own j.rest +
      (cell j.addr (.node (j.node val q)) + H))) := h.of_eq (by rw [Item.owned]; abel)
  have hown : Holds m (own j.first + (cell j.kp (.str j.key) + valuesCells val own j.rest +
      (cell j.addr (.node (j.node val q)) + H))) := h.of_eq (by rw [Item.owned]; abel)
  have hrest : Holds m (valuesCells val own j.rest + (cell j.kp (.str j.key) + own j.first +
      (cell j.addr (.node (j.node val q)) + H))) := h.of_eq (by rw [Item.owned]; abel)
  refine ⟨fun k ↦ ⟨?_, ?_⟩, _, _, _, _, hload, rfl, hdec _ hown,
    valuesFrom_eq hdec hrest, rfl⟩
  · rintro ⟨n, hn, hk⟩
    obtain rfl := Except.ok.inj (hload.symm.trans hn)
    exact Except.ok.inj (hk.symm.trans (loadStr_eq hkey))
  · rintro rfl
    exact ⟨_, hload, loadStr_eq hkey⟩

/-! ## Tables -/

theorem exists_append_of_getElem? {i : Nat} {s : Slot V G} (h : S[i]? = some s) :
    ∃ pre post, S = pre ++ s :: post ∧ pre.length = i := by
  obtain ⟨hi, rfl⟩ := List.getElem?_eq_some_iff.mp h
  refine ⟨S.take i, S.drop (i + 1), ?_, ?_⟩
  · rw [List.getElem_cons_drop, List.take_append_drop]
  · rw [List.length_take, Nat.min_eq_left (Nat.le_of_lt hi)]

namespace Rep

/-- The nodes of a slot in memory. -/
theorem slot_spec (h : Rep val own m base S) {i : Nat} {s : Slot V G} (hs : S[i]? = some s) :
    (∃ hd, loadNode m (some (base + i)) = .ok hd ∧ (hd.v.v = none ↔ s.items = [])) ∧
      (s.items ≠ [] → firstNode none s.items = some (base + i) ∧
        ∃ H, Holds m (chainCells val own none s.items + H)) := by
  obtain ⟨pre, post, rfl, rfl⟩ := exists_append_of_getElem? hs
  have hm := h.holds_middle
  have hok := h.ok_middle
  refine ⟨⟨_, hok.loadNode_eq hm, hok.head_eq_none⟩, fun hne ↦ ?_⟩
  rw [Slot.cells_eq_chainCells hne] at hm
  refine ⟨?_, _, hm⟩
  obtain ⟨stale, items⟩ := s
  cases items with
  | nil => exact absurd rfl hne
  | cons i L => exact congrArg some hok

theorem inSlot_iff (h : Rep val own m base S) {i a : Nat} : InSlot m base S.length i a ↔
    ∃ s, S[i]? = some s ∧ ∃ j ∈ s.items, j.addr = a := by
  constructor
  · rintro ⟨hi, hd, hload, hv, hin⟩
    have hs := List.getElem?_eq_getElem hi
    obtain ⟨⟨hd', hload', hnone⟩, hchain⟩ := h.slot_spec hs
    obtain rfl := Except.ok.inj (hload.symm.trans hload')
    obtain ⟨hfirst, H, hm⟩ := hchain (mt hnone.mpr hv)
    exact ⟨_, hs, (nodeIn_iff hm).mp (hfirst ▸ hin)⟩
  · rintro ⟨s, hs, j, hj, rfl⟩
    obtain ⟨⟨hd, hload, hnone⟩, hchain⟩ := h.slot_spec hs
    obtain ⟨hfirst, H, hm⟩ := hchain (List.ne_nil_of_mem hj)
    exact ⟨(List.getElem?_eq_some_iff.mp hs).1, hd, hload,
      fun hv ↦ List.ne_nil_of_mem hj (hnone.mp hv), hfirst ▸ (nodeIn_iff hm).mpr ⟨j, hj, rfl⟩⟩

/-- The key of a node of the table and its values. -/
theorem item_spec
    (hdec : ∀ {m : Mem V} {H} (g : G), Holds m (own g + H) → dec m (val g) (abs g))
    (h : Rep val own m base S) {i : Nat} {s : Slot V G} (hs : S[i]? = some s) {j : Item G}
    (hj : j ∈ s.items) :
    (∀ k, KeyOf m j.addr k ↔ k = j.key) ∧ ValuesOf dec m j.addr (j.entry abs).2 := by
  obtain ⟨-, H, hm⟩ := (h.slot_spec hs).2 (List.ne_nil_of_mem hj)
  obtain ⟨L₁, L₂, hL⟩ := List.append_of_mem hj
  rw [hL, chainCells_middle, add_assoc, add_assoc, add_assoc] at hm
  exact observe_item hdec hm

/-- What memory shows of the keys in a slot. -/
theorem of_slotKeys (h : Rep val own m base S) {P : List (List UInt8) → Prop} (hP : P [])
    (ht : SlotKeys m base S.length key P) : P (slotKeys S key) := by
  obtain ⟨s, hs⟩ : ∃ s, S[slotIndex S.length key]? = some s :=
    ⟨_, List.getElem?_eq_getElem (slotIndex_lt h.pos key)⟩
  obtain ⟨⟨hd, hload, hnone⟩, hchain⟩ := h.slot_spec hs
  rw [slotKeys, hs]
  by_cases hne : s.items = []
  · dsimp only
    rwa [hne]
  · obtain ⟨hfirst, H, hm⟩ := hchain hne
    exact ht hd hload (mt hnone.mp hne) _ (hfirst ▸ keysFrom_eq hm)

/-- The keys in a slot are what memory shows. -/
theorem to_slotKeys (h : Rep val own m base S) {P : List (List UInt8) → Prop}
    (hP : P (slotKeys S key)) : SlotKeys m base S.length key P := by
  intro hd hload hv keys hkeys
  have hs := List.getElem?_eq_getElem (slotIndex_lt h.pos key)
  rw [slotKeys, hs] at hP
  obtain ⟨⟨hd', hload', hnone⟩, hchain⟩ := h.slot_spec hs
  obtain rfl := Except.ok.inj (hload.symm.trans hload')
  obtain ⟨hfirst, H, hm⟩ := hchain (mt hnone.mpr hv)
  rwa [(hfirst ▸ keysFrom_eq hm : KeysFrom m _ _).unique hkeys]

/-- The values of a node that is found. -/
theorem tableValues_eq (h : Rep val own m base S) {i : Nat} {s : Slot V G} (hs : S[i]? = some s)
    {j : Item G} (hj : j ∈ s.items) : tableValues abs S j.key = (j.entry abs).2 := by
  have hnodup := h.nodup s (List.mem_of_getElem? hs)
  rw [tableValues, h.index i s hs j hj, hs]
  dsimp only
  generalize s.items = L at hj hnodup
  induction L with
  | nil => cases hj
  | cons x L ih =>
    rw [List.map_cons, List.nodup_cons] at hnodup
    change (if x.key = j.key then _ else values j.key (entries abs L)) = _
    rcases List.mem_cons.mp hj with rfl | hj
    · exact if_pos rfl
    · have hne : x.key ≠ j.key := fun he ↦ hnodup.1 (by
        rw [he]
        exact List.mem_map_of_mem hj)
      rw [if_neg hne, ih hj hnodup.2]

/-- The keys in a slot have values. -/
theorem values_ne_nil (h : Rep val own m base S) (hk : k ∈ slotKeys S key) :
    tableValues abs S k ≠ [] := by
  have hs := List.getElem?_eq_getElem (slotIndex_lt h.pos key)
  rw [slotKeys, hs] at hk
  obtain ⟨j, hj, rfl⟩ := List.mem_map.mp hk
  rw [h.tableValues_eq hs hj]
  exact List.cons_ne_nil _ _

/-- The table refines the map of its values. -/
theorem refines
    (hdec : ∀ {m : Mem V} {H} (g : G), Holds m (own g + H) → dec m (val g) (abs g))
    (h : Rep val own m base S) : Refines dec m base S.length (tableValues abs S) := by
  intro k
  obtain ⟨s, hs⟩ : ∃ s, S[slotIndex S.length k]? = some s :=
    ⟨_, List.getElem?_eq_getElem (slotIndex_lt h.pos k)⟩
  refine ⟨fun hnil i a hin hkey ↦ ?_, fun hne ↦ ?_⟩
  · obtain ⟨t, ht, j, hj, rfl⟩ := h.inSlot_iff.mp hin
    obtain rfl := ((h.item_spec hdec ht hj).1 k).mp hkey
    rw [h.tableValues_eq ht hj] at hnil
    cases hnil
  · have hmem : k ∈ s.items.map Item.key := by
      rw [tableValues, hs] at hne
      have hk := (Hash.values_ne_nil (E := entries abs s.items) fun e he ↦ by
        obtain ⟨j, -, rfl⟩ := List.mem_map.mp he
        exact List.cons_ne_nil _ _).mp hne
      rwa [keys_entries] at hk
    obtain ⟨j, hj, rfl⟩ := List.mem_map.mp hmem
    obtain ⟨hkey, hvals⟩ := h.item_spec hdec hs hj
    rw [← h.tableValues_eq hs hj] at hvals
    refine ⟨j.addr, h.inSlot_iff.mpr ⟨s, hs, j, hj, rfl⟩, (hkey _).mpr rfl, hvals,
      fun i b hin hkey' ↦ ?_⟩
    obtain ⟨t, ht, j', hj', rfl⟩ := h.inSlot_iff.mp hin
    have heq : j.key = j'.key := ((h.item_spec hdec ht hj').1 _).mp hkey'
    have hi : i = slotIndex S.length j.key := by
      rw [heq]
      exact (h.index i t ht j' hj').symm
    obtain rfl : t = s := Option.some.inj ((hi ▸ ht).symm.trans hs)
    have hinj := List.inj_on_of_nodup_map (h.nodup t (List.mem_of_getElem? hs)) hj hj' heq
    exact ⟨hi, congrArg Item.addr hinj.symm⟩

/-- A key is found if it has values: its node, in the slot of its hash. -/
theorem lookup (abs : G → X)
    (hdec : ∀ {m : Mem V} {H} (g : G), Holds m (own g + H) → dec m (val g) (abs g))
    (h : Rep val own m base S) (hc : Clear key (slotKeys S key)) :
    ∃ o N, (∀ fuel, N ≤ fuel → (do
        let node ← loadNode m (some (base + slotIndex S.length key))
        if node.v.v = none then pure none
        else search m (hashKey key) key fuel (some (base + slotIndex S.length key))) = .ok o) ∧
      (o = none ↔ tableValues abs S key = []) ∧
      ∀ a, o = some a → InSlot m base S.length (slotIndex S.length key) a ∧ KeyOf m a key ∧
        ValuesOf dec m a (tableValues abs S key) := by
  obtain ⟨s, H, hs, hok, hm, hnodup, hval, -⟩ := h.focus abs key
  rw [slotKeys, hs] at hc
  refine ⟨(s.items.find? (·.key = key)).map Item.addr, s.items.length + 1, fun fuel hf ↦ ?_, ?_,
    fun a ha ↦ ?_⟩
  · rw [hok.loadNode_eq hm, Exec.ok_bind]
    by_cases hs : s.items = []
    · rw [if_pos (hok.head_eq_none.mpr hs), hs]
      rfl
    · rw [if_neg (mt hok.head_eq_none.mp hs)]
      exact hok.search_eq hs hm hc hf
  · have hnone : s.items.find? (·.key = key) = none ↔ key ∉ (entries abs s.items).map Prod.fst :=
      find?_eq_none_iff
    rw [Option.map_eq_none_iff, hnone, hval, ← not_iff_not, not_not]
    exact (Hash.values_ne_nil entries_ne_nil).symm
  · obtain ⟨j, hj, rfl⟩ := Option.map_eq_some_iff.mp ha
    have hkey : j.key = key := by simpa using List.find?_some hj
    have hmem := List.mem_of_find?_eq_some hj
    obtain ⟨hkeyOf, hvalues⟩ := h.item_spec hdec hs hmem
    refine ⟨h.inSlot_iff.mpr ⟨s, hs, j, hmem, rfl⟩, (hkeyOf _).mpr hkey.symm, ?_⟩
    rw [← hkey, h.tableValues_eq hs hmem]
    exact hvalues

end Rep

end Dlbase.Hash
