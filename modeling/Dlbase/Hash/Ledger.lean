import Dlbase.Hash.Handled
import Dlbase.Hash.Chain

/-!
# What a slot owes

The nodes of a chain behind the first one and all further values have been created and are to be
freed; the values of type `DL_H_VOID` are to be passed to the user's function.
-/

namespace Dlbase.Hash

open Cmem

variable {V G : Type}

/-! ## The log -/

/-- The nodes and values that have been created. -/
def created (log : List Event) : Multiset Nat :=
  log.filterMap fun | .create a => some a | _ => none

/-- The nodes and values that have been freed. -/
def freed (log : List Event) : Multiset Nat :=
  log.filterMap fun | .free a => some a | _ => none

/-- What has been passed to the user's function, in its order. -/
def handled (log : List Event) : List Nat :=
  log.filterMap fun | .handle p => some p | _ => none

/-- The values of type `DL_H_VOID`. -/
def voids (xs : List Arg) : List Nat :=
  xs.filterMap fun | .void p => some p | _ => none

variable {log log' : List Event}

@[simp] theorem created_append : created (log ++ log') = created log + created log' := by
  rw [created, List.filterMap_append, ← Multiset.coe_add]
  rfl

@[simp] theorem freed_append : freed (log ++ log') = freed log + freed log' := by
  rw [freed, List.filterMap_append, ← Multiset.coe_add]
  rfl

@[simp] theorem handled_append : handled (log ++ log') = handled log ++ handled log' :=
  List.filterMap_append

theorem created_flatMap {α : Type} (f : α → List Event) (l : List α) :
    created (l.flatMap f) = (l.map fun x ↦ created (f x)).sum := by
  induction l with
  | nil => rfl
  | cons x l ih => rw [List.flatMap_cons, created_append, ih, List.map_cons, List.sum_cons]

theorem freed_flatMap {α : Type} (f : α → List Event) (l : List α) :
    freed (l.flatMap f) = (l.map fun x ↦ freed (f x)).sum := by
  induction l with
  | nil => rfl
  | cons x l ih => rw [List.flatMap_cons, freed_append, ih, List.map_cons, List.sum_cons]

theorem handled_flatMap {α : Type} (f : α → List Event) (l : List α) :
    (handled (l.flatMap f) : Multiset Nat) = (l.map fun x ↦ (handled (f x) : Multiset Nat)).sum := by
  induction l with
  | nil => rfl
  | cons x l ih =>
    rw [List.flatMap_cons, handled_append, ← Multiset.coe_add, ih, List.map_cons, List.sum_cons]

theorem voids_append (xs ys : List Arg) : voids (xs ++ ys) = voids xs ++ voids ys :=
  List.filterMap_append

/-! ## Slots -/

/-- The further values of a node. -/
def Item.further (i : Item G) : Multiset Nat := (i.rest.map Prod.fst : List Nat)

/-- What has been created for a chain. -/
def heapOf (L : List (Item G)) : Multiset Nat :=
  ((L.map Item.addr).tail : List Nat) + (L.map Item.further).sum

/-- What has been created for a slot. -/
def Slot.heap (s : Slot V G) : Multiset Nat := heapOf s.items

theorem heapOf_cons (i : Item G) (L : List (Item G)) :
    heapOf (i :: L) = (L.map Item.addr : List Nat) + (i.further + (L.map Item.further).sum) := rfl

/-- The heap of a chain depends on where its nodes and further values are. -/
theorem heapOf_middle {L₁ L₂ : List (Item G)} {i j : Item G} {a : Nat} (haddr : j.addr = i.addr)
    (hfurther : j.further = i.further + {a}) :
    heapOf (L₁ ++ j :: L₂) = heapOf (L₁ ++ i :: L₂) + {a} := by
  rw [heapOf, heapOf, List.map_append, List.map_append, List.map_append, List.map_append,
    List.map_cons, List.map_cons, List.map_cons, List.map_cons, haddr, List.sum_append,
    List.sum_append, List.sum_cons, List.sum_cons, hfurther]
  abel

/-- A node behind the first one. -/
theorem heapOf_insert (i j : Item G) (L L' : List (Item G)) :
    heapOf (i :: L ++ j :: L') = heapOf (i :: L ++ L') + (j.further + {j.addr}) := by
  rw [List.cons_append, List.cons_append, heapOf_cons, heapOf_cons, List.map_append,
    List.map_append, List.map_append, List.map_append, List.map_cons, List.map_cons,
    List.sum_append, List.sum_append, List.sum_cons, ← Multiset.coe_add, ← Multiset.coe_add,
    ← Multiset.cons_coe, ← Multiset.singleton_add]
  abel

/-- What has been created for the slots. -/
def heap (S : List (Slot V G)) : Multiset Nat := (S.map Slot.heap).sum

/-! ## Entries -/

/-- The values of type `DL_H_VOID` that keys have. -/
def heldBy (E : List (Entry (List UInt8) Arg)) : Multiset Nat :=
  (E.map fun e ↦ (voids e.2 : Multiset Nat)).sum

variable {E : List (Entry (List UInt8) Arg)} {key : List UInt8} {x : Arg}

theorem heldBy_cons (e : Entry (List UInt8) Arg) : heldBy (e :: E) = voids e.2 + heldBy E := by
  rw [heldBy, List.map_cons, List.sum_cons]
  rfl

theorem heldBy_insertSecond : heldBy (insertSecond (key, [x]) E) = heldBy E + voids [x] := by
  have hperm : (insertSecond (key, [x]) E).Perm ((key, [x]) :: E) := perm_insertSecond
  rw [heldBy, (hperm.map _).sum_eq]
  exact (heldBy_cons _).trans (add_comm _ _)

theorem heldBy_update (h : key ∈ E.map Prod.fst) :
    heldBy (update key (addValue x) E) = heldBy E + voids [x] := by
  have hadd : ∀ xs : List Arg, (voids (addValue x xs) : Multiset Nat) = voids xs + voids [x] := by
    intro xs
    cases xs with
    | nil => exact (zero_add _).symm
    | cons y ys =>
      have hxs := voids_append [y] ([x] ++ ys)
      have hys := voids_append [y] ys
      change (voids ([y] ++ ([x] ++ ys)) : Multiset Nat) = voids ([y] ++ ys) + voids [x]
      rw [hxs, hys, voids_append, ← Multiset.coe_add, ← Multiset.coe_add, ← Multiset.coe_add]
      abel
  induction E with
  | nil => cases h
  | cons e E ih =>
    rw [update]
    split_ifs with he
    · rw [heldBy_cons, heldBy_cons, hadd]
      abel
    · rw [List.map_cons, List.mem_cons] at h
      rw [heldBy_cons, heldBy_cons, ih (h.resolve_left (Ne.symm he))]
      abel

theorem heldBy_erase : heldBy E = heldBy (erase key E) + voids (values key E) := by
  induction E with
  | nil => exact (add_zero _).symm
  | cons e E ih =>
    rw [erase, values, heldBy_cons]
    split_ifs
    · exact add_comm _ _
    · rw [heldBy_cons, ih]
      abel

/-! ## Slots and the log -/

/-- What a setter writes to the log. -/
structure Adds (s s' : Slot V G) (log : List Event) : Prop where
  /-- Nothing is passed to the user's function. -/
  handled : handled log = []
  /-- Nothing is freed. -/
  freed : freed log = 0
  /-- The slot has what is created. -/
  heap : s'.heap = s.heap + created log

/-- What a deletion writes to the log; the key had the values `xs`. -/
structure Removes (s s' : Slot V G) (xs : List Arg) (log : List Event) : Prop where
  /-- Each value that is deleted is passed to the user's function. -/
  handled : handled log = voids xs
  /-- Nothing is created. -/
  created : created log = 0
  /-- The slot has lost what is freed. -/
  heap : s.heap = s'.heap + freed log

end Dlbase.Hash
