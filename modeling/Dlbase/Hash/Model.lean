import Dlbase.Hash.Nodes

/-!
# The hash map of `dl_hash.c`

The map owns copies of its keys and of its string values and frees them when they are deleted.
Deleting the first node of a chain copies the next node over it.  What the user's function does
with a `void *` that is deleted is of no concern to the map; the number of elements `el_sum`, which
no function reads, is counted in a module of its own.
-/

namespace Dlbase.Hash

open Cmem

/-- A value in memory. -/
inductive Val where
  /-- `DL_H_INT`. -/
  | int (n : Int)
  /-- `DL_H_STR`, a copy that the map owns. -/
  | str (p : Nat)
  /-- `DL_H_VOID`. -/
  | void (p : Nat)
deriving DecidableEq, Repr

/-- A value that is passed to the map. -/
inductive Arg where
  /-- The argument of `dl_hash_set_int`, a `long`. -/
  | int (n : Int)
  /-- The argument of `dl_hash_set_str`. -/
  | str (s : List UInt8)
  /-- The argument of `dl_hash_set_void`. -/
  | void (p : Nat)
deriving DecidableEq, Repr

/-- A `dl_hash`. -/
structure Table where
  /-- The memory. -/
  mem : Mem Val
  /-- The number of slots. -/
  slotTotal : Nat
  /-- Whether the flag `H_LIST` is set. -/
  list : Bool
  /-- The slots. -/
  node : Nat

/-- The results of the setters. -/
inductive Status where
  /-- `DL_OK`. -/
  | ok
  /-- `DL_AGAIN`. -/
  | again
deriving DecidableEq, Repr

/-- `dl_hash_init`.  The slots get the addresses from `node` on. -/
def init (m : Mem Val) (node slot : Nat) (list : Bool) : Table :=
  let slotTotal := if slot = 0 then 64 else slot
  { mem := zeroSlots m node slotTotal, slotTotal, list, node }

/-- `*(int *)v` for a `long`. -/
def toInt (n : Int) : Int := n.bmod (2 ^ 32)

variable (alloc : Allocator (Obj Val))

/-- A new string. -/
def newStr (m : Mem Val) (s : List UInt8) : Mem Val × Nat := (m.set (alloc.run m) (.str s), alloc.run m)

/-- `fill_v`: the value to be stored. -/
def fillV (m : Mem Val) : Arg → Mem Val × Val
  | .int n => (m, .int (toInt n))
  | .str s => ((newStr alloc m s).1, .str (newStr alloc m s).2)
  | .void p => (m, .void p)

/-- `fill_node`, and the fields that are set after it. -/
def fillNode (m : Mem Val) (a : Nat) (key : List UInt8) (v : Arg) (hKey : UInt32)
    (next : Option Nat) : Exec (Mem Val) := do
  let (m, val) := fillV alloc m v
  let (m, k) := newStr alloc m key
  m.put a (.node ⟨⟨some val, none⟩, some k, hKey, next⟩)

/-- `&h->node[h_key % h->slot_total]`. -/
def slot (h : Table) (hKey : UInt32) : Nat := h.node + hKey.toNat % h.slotTotal

/-- The part of `dl_hash_set` for a key that does not exist in a slot that is not empty. -/
def setNew (m : Mem Val) (a : Nat) (node : Node Val) (key : List UInt8) (v : Arg) (hKey : UInt32) :
    Exec (Mem Val) := do
  let n := alloc.run m
  let m ← (m.set n (.node Node.zero)).put a (.node { node with next := some n })
  fillNode alloc m n key v hKey node.next

/-- The part of `dl_hash_set` that chains a value to the node at `n`. -/
def chainValue (m : Mem Val) (n : Nat) (v : Arg) : Exec (Mem Val) := do
  let node ← loadNode m (some n)
  let vv := alloc.run m
  let m ← (m.set vv (.value ⟨none, none⟩)).put n
    (.node { node with v := { node.v with next := some vv } })
  let (m, val) := fillV alloc m v
  m.put vv (.value ⟨some val, node.v.next⟩)

/-- `dl_hash_set`. -/
def set (fuel : Nat) (h : Table) (key : List UInt8) (v : Arg) : Exec (Table × Status) := do
  let hKey := hashKey key
  let a := slot h hKey
  let node ← loadNode h.mem (some a)
  if node.v.v = none then do
    let m ← fillNode alloc h.mem a key v hKey none
    pure ({ h with mem := m }, .ok)
  else do
    match ← search h.mem hKey key fuel (some a) with
    | none => do
      let m ← setNew alloc h.mem a node key v hKey
      pure ({ h with mem := m }, .ok)
    | some n =>
      if h.list then do
        let m ← chainValue alloc h.mem n v
        pure ({ h with mem := m }, .ok)
      else
        pure (h, .again)

/-- The memory of a value of type `DL_H_STR` is freed. -/
def freeStr (m : Mem Val) : Option Val → Exec (Mem Val)
  | some (.str p) => do
    let _ ← loadStr m (some p)
    m.free p
  | _ => .ok m

/-- The loop of `free_v` over the further values. -/
def freeValues : Nat → Mem Val → Option Nat → Exec (Mem Val)
  | 0, _, _ => Exec.timeout
  | _ + 1, m, none => .ok m
  | fuel + 1, m, some a => do
    let v ← loadValue m (some a)
    let m ← freeStr m v.v
    let m ← m.free a
    freeValues fuel m v.next

/-- `free_v` for the value of the node at `a`. -/
def freeV (fuel : Nat) (m : Mem Val) (a : Nat) : Exec (Mem Val) := do
  let n ← loadNode m (some a)
  let m ← freeStr m n.v.v
  let m ← m.put a (.node { n with v := { n.v with v := none } })
  freeValues fuel m n.v.next

/-- `free_k` for the key of the node at `a`. -/
def freeK (m : Mem Val) (a : Nat) : Exec (Mem Val) := do
  let n ← loadNode m (some a)
  match n.key with
  | none => Exec.undef
  | some k => do
    let _ ← loadStr m (some k)
    let m ← m.free k
    m.put a (.node { n with next := none, hash := 0 })

/-- `free_node`. -/
def freeNode (fuel : Nat) (m : Mem Val) (main node : Nat) : Exec (Mem Val) := do
  let m ← freeK m node
  let m ← freeV fuel m node
  if main ≠ node then m.free node else pure m

/-- The loop that looks for the node before `n`. -/
def findParent (m : Mem Val) (n : Nat) : Nat → Nat → Exec Nat
  | 0, _ => Exec.timeout
  | fuel + 1, parent => do
    let p ← loadNode m (some parent)
    if p.next = some n then pure parent
    else match p.next with
      | none => Exec.undef
      | some parent => findParent m n fuel parent

/-- The part of `dl_hash_del` for the node at the slot: the next node moves to the slot, and the
cell it was in is freed with what the old one had. -/
def delMain (fuel : Nat) (m : Mem Val) (a : Nat) (node : Node Val) : Exec (Mem Val) :=
  match node.next with
  | some b => do
    let next ← loadNode m (some b)
    let m ← m.put a (.node next)
    let m ← m.put b (.node node)
    freeNode fuel m a b
  | none => do
    let m ← freeV fuel m a
    freeK m a

/-- The part of `dl_hash_del` for a node that is not at the slot. -/
def delOther (fuel : Nat) (m : Mem Val) (a n : Nat) : Exec (Mem Val) := do
  let parent ← findParent m n fuel a
  let p ← loadNode m (some parent)
  let node ← loadNode m (some n)
  let m ← m.put parent (.node { p with next := node.next })
  freeNode fuel m a n

/-- `dl_hash_del`. -/
def del (fuel : Nat) (h : Table) (key : List UInt8) : Exec Table := do
  let hKey := hashKey key
  let a := slot h hKey
  let node ← loadNode h.mem (some a)
  if node.v.v = none then
    pure h
  else do
    match ← search h.mem hKey key fuel (some a) with
    | none => pure h
    | some n => do
      let m ← if n = a then delMain fuel h.mem a node else delOther fuel h.mem a n
      pure { h with mem := m }

/-- The setters with a name that ends in `_rep`. -/
def setRep (fuel : Nat) (h : Table) (key : List UInt8) (v : Arg) : Exec (Table × Status) := do
  let h ← del fuel h key
  set alloc fuel h key v

/-- `dl_hash_set_str`. -/
def setStr (fuel : Nat) (h : Table) (key s : List UInt8) : Exec (Table × Status) :=
  set alloc fuel h key (.str s)

/-- `dl_hash_set_int`. -/
def setInt (fuel : Nat) (h : Table) (key : List UInt8) (n : Int) : Exec (Table × Status) :=
  set alloc fuel h key (.int n)

/-- `dl_hash_set_void`. -/
def setVoid (fuel : Nat) (h : Table) (key : List UInt8) (p : Nat) : Exec (Table × Status) :=
  set alloc fuel h key (.void p)

/-- `dl_hash_set_str_rep`. -/
def setStrRep (fuel : Nat) (h : Table) (key s : List UInt8) : Exec (Table × Status) :=
  setRep alloc fuel h key (.str s)

/-- `dl_hash_set_int_rep`. -/
def setIntRep (fuel : Nat) (h : Table) (key : List UInt8) (n : Int) : Exec (Table × Status) :=
  setRep alloc fuel h key (.int n)

/-- `dl_hash_set_void_rep`. -/
def setVoidRep (fuel : Nat) (h : Table) (key : List UInt8) (p : Nat) : Exec (Table × Status) :=
  setRep alloc fuel h key (.void p)

/-- `dl_hash_find`: the node whose first value is found. -/
def find (fuel : Nat) (h : Table) (key : List UInt8) : Exec (Option Nat) := do
  let hKey := hashKey key
  let a := slot h hKey
  let node ← loadNode h.mem (some a)
  if node.v.v = none then pure none else search h.mem hKey key fuel (some a)

end Dlbase.Hash
