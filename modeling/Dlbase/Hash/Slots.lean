import Dlbase.Hash.Chain

/-!
# Tables of chains

An array of slots in memory, each key in the chain of the slot that its hash leads to, at most
once.
-/

namespace Dlbase.Hash

open Cmem

variable {V G X : Type} (val : G → V) (own : G → Cells (Obj V)) (abs : G → X)

/-- The memory of slots from the address `a` on. -/
def tableCells : Nat → List (Slot V G) → Cells (Obj V)
  | _, [] => 0
  | a, s :: S => s.cells val own a + tableCells (a + 1) S

/-- The number of the slot of a key. -/
def slotIndex (n : Nat) (key : List UInt8) : Nat := (hashKey key).toNat % n

/-- The memory holds the slots `S` from the address `base` on. -/
structure Rep (m : Mem V) (base : Nat) (S : List (Slot V G)) : Prop where
  /-- There is a slot. -/
  pos : 0 < S.length
  /-- The chains are in memory. -/
  holds : Holds m (tableCells val own base S)
  /-- The first node of a chain is at its slot. -/
  ok : ∀ i s, S[i]? = some s → Slot.Ok (base + i) s
  /-- The keys are in the right slots. -/
  index : ∀ (i : Nat) (s : Slot V G), S[i]? = some s → ∀ j ∈ s.items, slotIndex S.length j.key = i
  /-- No key is there twice. -/
  nodup : ∀ s ∈ S, (s.items.map Item.key).Nodup

/-- The values of a key. -/
def tableValues (S : List (Slot V G)) (k : List UInt8) : List X :=
  match S[slotIndex S.length k]? with
  | some s => values k (entries abs s.items)
  | none => []

/-- The keys in the slot of a key. -/
def slotKeys (S : List (Slot V G)) (key : List UInt8) : List (List UInt8) :=
  match S[slotIndex S.length key]? with
  | some s => s.items.map Item.key
  | none => []

variable {val own abs} {m m' : Mem V} {base : Nat} {S pre post : List (Slot V G)} {s s' : Slot V G}
  {key k : List UInt8}

theorem tableCells_append (a : Nat) (S S' : List (Slot V G)) :
    tableCells val own a (S ++ S') =
      tableCells val own a S + tableCells val own (a + S.length) S' := by
  induction S generalizing a with
  | nil => exact (zero_add _).symm
  | cons s S ih =>
    have ha : a + (s :: S).length = a + 1 + S.length := by
      rw [List.length_cons]
      omega
    rw [List.cons_append, tableCells, tableCells, ih, ← add_assoc, ha]

/-- All slots but one. -/
def otherCells (val : G → V) (own : G → Cells (Obj V)) (base : Nat) (pre post : List (Slot V G)) :
    Cells (Obj V) :=
  tableCells val own base pre + tableCells val own (base + pre.length + 1) post

theorem tableCells_middle (base : Nat) (pre post : List (Slot V G)) (s : Slot V G) :
    tableCells val own base (pre ++ s :: post) =
      s.cells val own (base + pre.length) + otherCells val own base pre post := by
  rw [tableCells_append, tableCells, otherCells]
  abel

theorem slotIndex_lt {n : Nat} (hn : 0 < n) (key : List UInt8) : slotIndex n key < n :=
  Nat.mod_lt _ hn

theorem getElem?_middle (pre post : List (Slot V G)) (s : Slot V G) :
    (pre ++ s :: post)[pre.length]? = some s := by
  rw [List.getElem?_append_right (Nat.le_refl _), Nat.sub_self]
  rfl

/-- If one of the slots has changed, the others are still there. -/
theorem getElem?_replace {t : Slot V G} {i : Nat} (ht : (pre ++ s' :: post)[i]? = some t) :
    i = pre.length ∧ t = s' ∨ (pre ++ s :: post)[i]? = some t := by
  rcases Nat.lt_trichotomy i pre.length with hi | rfl | hi
  · rw [List.getElem?_append_left hi] at ht ⊢
    exact .inr ht
  · rw [getElem?_middle] at ht
    exact .inl ⟨rfl, (Option.some.inj ht).symm⟩
  · obtain ⟨d, hd⟩ : ∃ d, i - pre.length = d + 1 := ⟨i - pre.length - 1, by omega⟩
    rw [List.getElem?_append_right (Nat.le_of_lt hi), hd] at ht ⊢
    exact .inr ht

namespace Rep

/-- The slot of a key. -/
theorem split (h : Rep val own m base S) (key : List UInt8) : ∃ pre s post, S = pre ++ s :: post ∧
    pre.length = slotIndex S.length key := by
  have hlt := slotIndex_lt h.pos key
  refine ⟨S.take (slotIndex S.length key), S[slotIndex S.length key],
    S.drop (slotIndex S.length key + 1), ?_, ?_⟩
  · rw [List.getElem_cons_drop, List.take_append_drop]
  · rw [List.length_take, Nat.min_eq_left (Nat.le_of_lt hlt)]

theorem holds_middle (h : Rep val own m base (pre ++ s :: post)) :
    Holds m (s.cells val own (base + pre.length) + otherCells val own base pre post) := by
  have hm := h.holds
  rwa [tableCells_middle] at hm

theorem ok_middle (h : Rep val own m base (pre ++ s :: post)) : s.Ok (base + pre.length) :=
  h.ok _ _ (getElem?_middle pre post s)

theorem nodup_middle (h : Rep val own m base (pre ++ s :: post)) : (s.items.map Item.key).Nodup :=
  h.nodup s (List.mem_append_right _ List.mem_cons_self)

/-- One of the slots has changed. -/
theorem replace (h : Rep val own m base (pre ++ s :: post))
    (hm : Holds m' (s'.cells val own (base + pre.length) + otherCells val own base pre post))
    (hok : s'.Ok (base + pre.length)) (hnodup : (s'.items.map Item.key).Nodup)
    (hkeys : ∀ j ∈ s'.items, slotIndex (pre ++ s :: post).length j.key = pre.length) :
    Rep val own m' base (pre ++ s' :: post) := by
  have hlen : (pre ++ s' :: post).length = (pre ++ s :: post).length := by
    rw [List.length_append, List.length_append, List.length_cons, List.length_cons]
  have hget : ∀ i t, (pre ++ s' :: post)[i]? = some t →
      i = pre.length ∧ t = s' ∨ (pre ++ s :: post)[i]? = some t := fun i t ↦ getElem?_replace
  refine ⟨hlen ▸ h.pos, ?_, fun i t ht ↦ ?_, fun i t ht ↦ ?_, fun t ht ↦ ?_⟩
  · rwa [tableCells_middle]
  · rcases hget i t ht with ⟨rfl, rfl⟩ | ht
    · exact hok
    · exact h.ok i t ht
  · rw [hlen]
    rcases hget i t ht with ⟨rfl, rfl⟩ | ht
    · exact hkeys
    · exact h.index i t ht
  · rw [List.mem_append, List.mem_cons] at ht
    rcases ht with ht | rfl | ht
    · exact h.nodup t (List.mem_append_left _ ht)
    · exact hnodup
    · exact h.nodup t (List.mem_append_right _ (List.mem_cons_of_mem _ ht))

end Rep

/-- The values of the keys of one slot. -/
theorem tableValues_middle (hpre : pre.length = slotIndex (pre ++ s :: post).length k) :
    tableValues abs (pre ++ s :: post) k = values k (entries abs s.items) := by
  rw [tableValues, ← hpre, getElem?_middle]

/-- The values of the keys of the other slots. -/
theorem tableValues_replace (hk : pre.length ≠ slotIndex (pre ++ s :: post).length k) :
    tableValues abs (pre ++ s' :: post) k = tableValues abs (pre ++ s :: post) k := by
  have hlen : (pre ++ s' :: post).length = (pre ++ s :: post).length := by
    rw [List.length_append, List.length_append, List.length_cons, List.length_cons]
  rw [tableValues, tableValues, hlen]
  generalize slotIndex (pre ++ s :: post).length k = i at hk
  rcases Nat.lt_or_gt_of_ne hk with hi | hi
  · obtain ⟨d, hd⟩ : ∃ d, i - pre.length = d + 1 := ⟨i - pre.length - 1, by omega⟩
    rw [List.getElem?_append_right (Nat.le_of_lt hi), List.getElem?_append_right (Nat.le_of_lt hi), hd]
    rfl
  · rw [List.getElem?_append_left hi, List.getElem?_append_left hi]

/-! ## Empty tables -/

theorem zeroSlots_spec {H : Cells (Obj V)} {a : Nat} (n : Nat) (hm : Holds m H)
    (ha : ∀ e ∈ H, e.1 < a) : Holds (zeroSlots m a n) (tableCells val own a
      (List.replicate n ⟨Node.zero, []⟩) + H) := by
  induction n generalizing m H a with
  | zero => exact hm.of_eq (zero_add _).symm
  | succ n ih =>
    have hm₁ := hm.insert (fun e he ↦ Nat.ne_of_lt (ha e he)) (.node Node.zero)
    refine (ih hm₁ fun e he ↦ ?_).of_eq ?_
    · rcases Multiset.mem_add.mp he with he | he
      · obtain rfl := Multiset.mem_singleton.mp he
        exact Nat.lt_succ_self a
      · exact Nat.lt_succ_of_lt (ha e he)
    · rw [List.replicate_succ, tableCells]
      change _ = cell a (.node Node.zero) + _ + H
      abel

/-- The slots of a new table. -/
theorem Rep.zero {n a : Nat} (hm : m.Finite) (hn : 0 < n) :
    Rep val own (zeroSlots m a n) a (List.replicate n ⟨Node.zero, []⟩) := by
  have hget : ∀ (i : Nat) (s : Slot V G), (List.replicate n ⟨Node.zero, []⟩)[i]? = some s →
      s = ⟨Node.zero, []⟩ := fun i s hs ↦ List.eq_of_mem_replicate (List.mem_of_getElem? hs)
  refine ⟨?_, ?_, fun i s hs ↦ ?_, fun i s hs ↦ ?_, fun s hs ↦ ?_⟩
  · rwa [List.length_replicate]
  · exact (zeroSlots_spec _ (.empty hm) nofun).of_eq (add_zero _)
  · rw [hget i s hs]
    rfl
  · rw [hget i s hs]
    nofun
  · rw [List.eq_of_mem_replicate hs]
    exact List.nodup_nil

theorem tableValues_zero {n : Nat} :
    tableValues abs (List.replicate n (⟨Node.zero, []⟩ : Slot V G)) k = [] := by
  rw [tableValues]
  split
  · next s hs =>
    rw [List.eq_of_mem_replicate (List.mem_of_getElem? hs)]
    rfl
  · rfl

/-! ## One slot -/

/-- The slot of a key can be looked at, and be changed, on its own. -/
theorem Rep.focus (h : Rep val own m base S) (abs : G → X) (key : List UInt8) :
    ∃ (s : Slot V G) (H : Cells (Obj V)), S[slotIndex S.length key]? = some s ∧
      s.Ok (base + slotIndex S.length key) ∧
      Holds m (s.cells val own (base + slotIndex S.length key) + H) ∧
      ((entries abs s.items).map Prod.fst).Nodup ∧
      tableValues abs S key = values key (entries abs s.items) ∧
      ∀ (m' : Mem V) (s' : Slot V G) (xs : List X),
        Holds m' (s'.cells val own (base + slotIndex S.length key) + H) →
        s'.Ok (base + slotIndex S.length key) → ((entries abs s'.items).map Prod.fst).Nodup →
        (∀ k ∈ (entries abs s'.items).map Prod.fst,
          k = key ∨ k ∈ (entries abs s.items).map Prod.fst) →
        (∀ k, values k (entries abs s'.items) =
          if k = key then xs else values k (entries abs s.items)) →
        ∃ S', Rep val own m' base S' ∧ S'.length = S.length ∧
          S'[slotIndex S.length key]? = some s' ∧
          (∀ k, tableValues abs S' k = if k = key then xs else tableValues abs S k) ∧
          ∀ f : Slot V G → Multiset Nat, (S'.map f).sum + f s = (S.map f).sum + f s' := by
  obtain ⟨pre, s, post, rfl, hpre⟩ := h.split key
  refine ⟨s, otherCells val own base pre post, hpre ▸ getElem?_middle pre post s,
    hpre ▸ h.ok_middle, hpre ▸ h.holds_middle, ?_, tableValues_middle hpre,
    fun m' s' xs hm' hok' hnodup hkeys hxs ↦ ?_⟩
  · rw [keys_entries]
    exact h.nodup_middle
  rw [keys_entries] at hnodup
  rw [keys_entries, keys_entries] at hkeys
  have hlen : (pre ++ s' :: post).length = (pre ++ s :: post).length := by
    rw [List.length_append, List.length_append, List.length_cons, List.length_cons]
  refine ⟨pre ++ s' :: post, ?_, hlen, hpre ▸ getElem?_middle pre post s', fun k ↦ ?_,
    fun f ↦ ?_⟩
  · rw [← hpre] at hm' hok'
    refine h.replace hm' hok' hnodup fun j hj ↦ ?_
    rcases hkeys _ (List.mem_map_of_mem hj) with hj | hj
    · rw [hj, hpre]
    · obtain ⟨i, hi, hij⟩ := List.mem_map.mp hj
      rw [← hij]
      exact h.index _ _ (getElem?_middle pre post s) i hi
  · by_cases hk : pre.length = slotIndex (pre ++ s :: post).length k
    · rw [tableValues_middle (hlen.symm ▸ hk), tableValues_middle hk, hxs]
    · rw [tableValues_replace hk, if_neg]
      rintro rfl
      exact hk hpre
  · rw [List.map_append, List.map_append, List.map_cons, List.map_cons, List.sum_append,
      List.sum_append, List.sum_cons, List.sum_cons]
    abel

end Dlbase.Hash
