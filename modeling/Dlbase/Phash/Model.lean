import Dlbase.Hash.Model

/-!
# The hash map of `dl_phash.c`

The map lives in a pool and frees nothing.  It takes the bytes of a key where they are; they stay
there as long as the map is used.
-/

namespace Dlbase.Phash

open Cmem Hash

/-- A value. -/
inductive Val where
  /-- `DL_PH_INT`. -/
  | int (n : Int)
  /-- `DL_PH_STR`. -/
  | str (p : Nat)
  /-- `DL_PH_VOID`. -/
  | void (p : Nat)
deriving DecidableEq, Repr

/-- A `dl_phash`. -/
structure Table where
  /-- The memory. -/
  mem : Mem Val
  /-- The number of slots. -/
  slotTotal : Nat
  /-- The number of values. -/
  elSum : Int
  /-- Whether the flag `PH_UNIQUE` is set. -/
  unique : Bool
  /-- Whether the flag `PH_REPLACE` is set. -/
  replace : Bool
  /-- The slots. -/
  node : Nat

/-- `dl_phash_key`. -/
def phashKey (data : List UInt8) : UInt32 :=
  (data.take 20).foldl (fun key c ↦ key * 31 + c.toUInt32) 0

/-- `dl_phash_init`.  The slots get the addresses from `node` on. -/
def init (m : Mem Val) (node slot : Nat) (unique replace : Bool) : Table :=
  let slotTotal := if slot = 0 then 64 else slot
  { mem := zeroSlots m node slotTotal, slotTotal, elSum := 0, unique, replace, node }

/-- `pfill_v`: the value to be stored; of a `long`, an `int` is read. -/
def pfillV : Val → Val
  | .int n => .int (toInt n)
  | v => v

/-- `pfill_node`. -/
def pfillNode (n : Node Val) (key : Nat) (v : Val) : Node Val :=
  { n with v := { n.v with v := some (pfillV v) }, key := some key }

/-- `h->el_sum++`, which must not overflow. -/
def Table.count (h : Table) (m : Mem Val) : Exec (Table × Status) :=
  if h.elSum + 1 < 2 ^ 31 then .ok ({ h with mem := m, elSum := h.elSum + 1 }, .ok) else Exec.undef

/-- `&h->node[h_key % h->slot_total]`. -/
def slot (h : Table) (hKey : UInt32) : Nat := h.node + hKey.toNat % h.slotTotal

variable (alloc : Allocator (Obj Val))

/-- The part of `dl_phash_set` for a key that does not exist in a slot that is not empty. -/
def setNew (m : Mem Val) (a : Nat) (node : Node Val) (key : Nat) (v : Val) (hKey : UInt32) :
    Exec (Mem Val) := do
  let n := alloc.run m
  let m ← (m.set n (.node { Node.zero with next := node.next })).put a
    (.node { node with next := some n })
  let nn ← loadNode m (some n)
  let nn := pfillNode nn key v
  m.put n (.node { nn with hash := hKey, v := { nn.v with next := none } })

/-- The part of `dl_phash_set` for the node at `n` if the flag `PH_REPLACE` is set. -/
def replaceNode (m : Mem Val) (n key : Nat) (v : Val) (hKey : UInt32) : Exec (Mem Val) := do
  let node ← loadNode m (some n)
  let node := pfillNode node key v
  m.put n (.node { node with hash := hKey, v := { node.v with next := none } })

/-- The part of `dl_phash_set` that chains a value to the node at `n`. -/
def chainValue (m : Mem Val) (n : Nat) (v : Val) : Exec (Mem Val) := do
  let node ← loadNode m (some n)
  let vv := alloc.run m
  (m.set vv (.value ⟨some (pfillV v), node.v.next⟩)).put n
    (.node { node with v := { node.v with next := some vv } })

/-- `dl_phash_set`. -/
def set (fuel : Nat) (h : Table) (key : Nat) (v : Val) : Exec (Table × Status) := do
  let s ← loadStr h.mem (some key)
  let hKey := phashKey s
  let a := slot h hKey
  let node ← loadNode h.mem (some a)
  if node.v.v = none then do
    let node := pfillNode node key v
    let m ← h.mem.put a
      (.node { node with hash := hKey, next := none, v := { node.v with next := none } })
    h.count m
  else do
    match ← search h.mem hKey s fuel (some a) with
    | none => do
      let m ← setNew alloc h.mem a node key v hKey
      h.count m
    | some n =>
      if h.unique then
        pure (h, .again)
      else if h.replace then do
        let m ← replaceNode h.mem n key v hKey
        pure ({ h with mem := m }, .ok)
      else do
        let m ← chainValue alloc h.mem n v
        h.count m

/-- The key of a setter. -/
def setKey (fuel : Nat) (h : Table) (data : List UInt8) (v : Val) : Exec (Table × Status) :=
  let k := alloc.run h.mem
  set alloc fuel { h with mem := h.mem.set k (.str data) } k v

/-- `dl_phash_set_str`. -/
def setStr (fuel : Nat) (h : Table) (data : List UInt8) (p : Nat) : Exec (Table × Status) :=
  setKey alloc fuel h data (.str p)

/-- `dl_phash_set_int`. -/
def setInt (fuel : Nat) (h : Table) (data : List UInt8) (n : Int) : Exec (Table × Status) :=
  setKey alloc fuel h data (.int n)

/-- `dl_phash_set_void`. -/
def setVoid (fuel : Nat) (h : Table) (data : List UInt8) (p : Nat) : Exec (Table × Status) :=
  setKey alloc fuel h data (.void p)

/-- `dl_phash_find`: the node whose first value is found.  The hash is `dl_hash_key`. -/
def find (fuel : Nat) (h : Table) (key : List UInt8) : Exec (Option Nat) := do
  let hKey := hashKey key
  let a := slot h hKey
  let node ← loadNode h.mem (some a)
  if node.v.v = none then pure none else search h.mem hKey key fuel (some a)

/-- Both maps hash their keys in the same way. -/
theorem phashKey_eq (data : List UInt8) : phashKey data = hashKey data := rfl

end Dlbase.Phash
