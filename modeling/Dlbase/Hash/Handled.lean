import Dlbase.Lib.Log
import Dlbase.Hash.Model

/-!
# What the hash map creates and gives back

The functions of `dl_hash.c` with a log: which nodes and further values are created and freed, and
which pointers are passed to the user's function `void_h`.  Without the log they are those of the
model.
-/

namespace Dlbase.Hash

open Cmem

/-- What is written to the log. -/
inductive Event where
  /-- A node or a further value is created. -/
  | create (a : Nat)
  /-- A node or a further value is freed. -/
  | free (a : Nat)
  /-- `h->void_h` is called. -/
  | handle (p : Nat)
deriving DecidableEq, Repr

namespace Handled

variable (alloc : Allocator (Obj Val))

/-- The part of `dl_hash_set` for a key that does not exist in a slot that is not empty. -/
def setNew (m : Mem Val) (a : Nat) (node : Node Val) (key : List UInt8) (v : Arg) (hKey : UInt32) :
    Logged Event (Mem Val) := do
  tell [.create (alloc.run m)]
  Hash.setNew alloc m a node key v hKey

/-- The part of `dl_hash_set` that chains a value to the node at `n`. -/
def chainValue (m : Mem Val) (n : Nat) (v : Arg) : Logged Event (Mem Val) := do
  tell [.create (alloc.run m)]
  Hash.chainValue alloc m n v

/-- `dl_hash_set`. -/
def set (fuel : Nat) (h : Table) (key : List UInt8) (v : Arg) :
    Logged Event (Table × Status) := do
  let hKey := hashKey key
  let a := slot h hKey
  let node ← loadNode h.mem (some a)
  if node.v.v = none then do
    let m ← fillNode alloc h.mem a key v hKey none
    pure ({ h with mem := m }, .ok)
  else do
    match ← search h.mem hKey key fuel (some a) with
    | none => do
      let m ← setNew alloc h.mem a node key v hKey
      pure ({ h with mem := m }, .ok)
    | some n =>
      if h.list then do
        let m ← chainValue alloc h.mem n v
        pure ({ h with mem := m }, .ok)
      else
        pure (h, .again)

/-- The memory of a value of type `DL_H_STR` is freed, one of type `DL_H_VOID` is passed to the
user's function. -/
def freeStr (m : Mem Val) : Option Val → Logged Event (Mem Val)
  | some (.void p) => do
    tell [.handle p]
    pure m
  | v => liftM (Hash.freeStr m v)

/-- The loop of `free_v` over the further values. -/
def freeValues : Nat → Mem Val → Option Nat → Logged Event (Mem Val)
  | 0, _, _ => liftM (Exec.timeout : Exec (Mem Val))
  | _ + 1, m, none => pure m
  | fuel + 1, m, some a => do
    let v ← loadValue m (some a)
    let m ← freeStr m v.v
    let m ← m.free a
    tell [.free a]
    freeValues fuel m v.next

/-- `free_v` for the value of the node at `a`. -/
def freeV (fuel : Nat) (m : Mem Val) (a : Nat) : Logged Event (Mem Val) := do
  let n ← loadNode m (some a)
  let m ← freeStr m n.v.v
  let m ← m.put a (.node { n with v := { n.v with v := none } })
  freeValues fuel m n.v.next

/-- `free_node`. -/
def freeNode (fuel : Nat) (m : Mem Val) (main node : Nat) : Logged Event (Mem Val) := do
  let m ← freeK m node
  let m ← freeV fuel m node
  if main ≠ node then do
    let m ← m.free node
    tell [.free node]
    pure m
  else pure m

/-- The part of `dl_hash_del` for the node at the slot. -/
def delMain (fuel : Nat) (m : Mem Val) (a : Nat) (node : Node Val) : Logged Event (Mem Val) :=
  match node.next with
  | some b => do
    let next ← loadNode m (some b)
    let m ← m.put a (.node next)
    let m ← m.put b (.node node)
    freeNode fuel m a b
  | none => do
    let m ← freeV fuel m a
    freeK m a

/-- The part of `dl_hash_del` for a node that is not at the slot. -/
def delOther (fuel : Nat) (m : Mem Val) (a n : Nat) : Logged Event (Mem Val) := do
  let parent ← findParent m n fuel a
  let p ← loadNode m (some parent)
  let node ← loadNode m (some n)
  let m ← m.put parent (.node { p with next := node.next })
  freeNode fuel m a n

/-- `dl_hash_del`. -/
def del (fuel : Nat) (h : Table) (key : List UInt8) : Logged Event Table := do
  let hKey := hashKey key
  let a := slot h hKey
  let node ← loadNode h.mem (some a)
  if node.v.v = none then
    pure h
  else do
    match ← search h.mem hKey key fuel (some a) with
    | none => pure h
    | some n => do
      let m ← if n = a then delMain fuel h.mem a node else delOther fuel h.mem a n
      pure { h with mem := m }

/-- The setters with a name that ends in `_rep`. -/
def setRep (fuel : Nat) (h : Table) (key : List UInt8) (v : Arg) :
    Logged Event (Table × Status) := do
  let h ← del fuel h key
  set alloc fuel h key v

/-! ## Destroying the map -/

/-- The loop of `dl_hash_destroy` over the chain of the slot at `main`. -/
def destroyChain (main : Nat) : Nat → Mem Val → Option Nat → Logged Event (Mem Val)
  | 0, _, _ => liftM (Exec.timeout : Exec (Mem Val))
  | _ + 1, m, none => pure m
  | fuel + 1, m, some a => do
    let n ← loadNode m (some a)
    let m ← freeNode fuel m main a
    destroyChain main fuel m n.next

/-- The loop of `dl_hash_destroy` over the slots from `a` on. -/
def destroySlots (fuel : Nat) : Mem Val → Nat → Nat → Logged Event (Mem Val)
  | m, _, 0 => pure m
  | m, a, n + 1 => do
    let node ← loadNode m (some a)
    let m ← if node.v.v = none then pure m else destroyChain a fuel m (some a)
    destroySlots fuel m (a + 1) n

/-- `dl_free(h->node)`. -/
def freeSlots (m : Mem Val) (a : Nat) : Nat → Exec (Mem Val)
  | 0 => .ok m
  | n + 1 => do
    let m ← m.free a
    freeSlots m (a + 1) n

/-- `dl_hash_destroy`. -/
def destroy (fuel : Nat) (h : Table) : Logged Event (Mem Val) := do
  let m ← destroySlots fuel h.mem h.node h.slotTotal
  freeSlots m h.node h.slotTotal

/-! ## Without the log -/

theorem erases_setNew (m : Mem Val) (a : Nat) (node : Node Val) (key : List UInt8) (v : Arg)
    (hKey : UInt32) :
    Erases (setNew alloc m a node key v hKey) (Hash.setNew alloc m a node key v hKey) :=
  .tell_bind _ (.lift _)

theorem erases_chainValue (m : Mem Val) (n : Nat) (v : Arg) :
    Erases (chainValue alloc m n v) (Hash.chainValue alloc m n v) := .tell_bind _ (.lift _)

theorem erases_set (fuel : Nat) (h : Table) (key : List UInt8) (v : Arg) :
    Erases (set alloc fuel h key v) (Hash.set alloc fuel h key v) := by
  refine .bind (.lift _) fun node ↦ .ite (.bind (.lift _) fun m ↦ .pure _) ?_
  refine .bind (.lift _) fun o ↦ ?_
  cases o with
  | none => exact .bind (erases_setNew ..) fun m ↦ .pure _
  | some n => exact .ite (.bind (erases_chainValue ..) fun m ↦ .pure _) (.pure _)

theorem erases_freeStr (m : Mem Val) (v : Option Val) :
    Erases (freeStr m v) (Hash.freeStr m v) := by
  match v with
  | none => exact .lift _
  | some (.int n) => exact .lift _
  | some (.str p) => exact .lift _
  | some (.void p) => exact .tell_bind _ (.pure _)

theorem erases_freeValues (fuel : Nat) (m : Mem Val) (p : Option Nat) :
    Erases (freeValues fuel m p) (Hash.freeValues fuel m p) := by
  induction fuel generalizing m p with
  | zero => exact .lift _
  | succ fuel ih =>
    cases p with
    | none => exact .pure _
    | some a =>
      refine .bind (.lift _) fun v ↦ .bind (erases_freeStr _ _) fun m ↦ .bind (.lift _) fun m ↦ ?_
      exact .tell_bind _ (ih _ _)

theorem erases_freeV (fuel : Nat) (m : Mem Val) (a : Nat) :
    Erases (freeV fuel m a) (Hash.freeV fuel m a) :=
  .bind (.lift _) fun _ ↦ .bind (erases_freeStr _ _) fun _ ↦ .bind (.lift _) fun _ ↦
    erases_freeValues ..

theorem erases_freeNode (fuel : Nat) (m : Mem Val) (main node : Nat) :
    Erases (freeNode fuel m main node) (Hash.freeNode fuel m main node) := by
  refine .bind (.lift _) fun m ↦ .bind (erases_freeV ..) fun m ↦ .ite ?_ (.pure _)
  exact .bind_right (.lift _) fun m ↦ .tell_bind _ (.pure _)

theorem erases_delMain (fuel : Nat) (m : Mem Val) (a : Nat) (node : Node Val) :
    Erases (delMain fuel m a node) (Hash.delMain fuel m a node) := by
  rw [delMain, Hash.delMain]
  cases node.next with
  | none => exact .bind (erases_freeV ..) fun m ↦ .lift _
  | some b =>
    exact .bind (.lift _) fun n ↦ .bind (.lift _) fun m ↦ .bind (.lift _) fun m ↦
      erases_freeNode ..

theorem erases_delOther (fuel : Nat) (m : Mem Val) (a n : Nat) :
    Erases (delOther fuel m a n) (Hash.delOther fuel m a n) :=
  .bind (.lift _) fun _ ↦ .bind (.lift _) fun _ ↦ .bind (.lift _) fun _ ↦ .bind (.lift _) fun _ ↦
    erases_freeNode ..

theorem erases_del (fuel : Nat) (h : Table) (key : List UInt8) :
    Erases (del fuel h key) (Hash.del fuel h key) := by
  refine .bind (.lift _) fun node ↦ .ite (.pure _) (.bind (.lift _) fun o ↦ ?_)
  cases o with
  | none => exact .pure _
  | some n =>
    exact .ite (.bind (erases_delMain ..) fun m ↦ .pure _)
      (.bind (erases_delOther ..) fun m ↦ .pure _)

theorem erases_setRep (fuel : Nat) (h : Table) (key : List UInt8) (v : Arg) :
    Erases (setRep alloc fuel h key v) (Hash.setRep alloc fuel h key v) :=
  .bind (erases_del ..) fun _ ↦ erases_set ..

end Handled

end Dlbase.Hash
