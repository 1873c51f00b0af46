import Dlbase.Lib.Objects

/-!
# The nodes of `dl_hash.c` and `dl_phash.c`

Both maps keep the first node of a chain in an array of slots and mark an empty slot by the tag of
its value.  A `dl_str` and its characters are one object.  Allocations succeed.
-/

namespace Dlbase.Hash

open Cmem

/-- A `dl_hash_v`: a value, unless the tag is `DL_H_NULL`, and the link to the next one. -/
structure VNode (V : Type) where
  /-- The value with its tag. -/
  v : Option V
  /-- The next value of the same key. -/
  next : Option Nat
deriving DecidableEq, Repr

/-- A `dl_node`. -/
structure Node (V : Type) where
  /-- The first value. -/
  v : VNode V
  /-- The key. -/
  key : Option Nat
  /-- The hash of the key. -/
  hash : UInt32
  /-- The next node of the chain. -/
  next : Option Nat
deriving DecidableEq, Repr

/-- What is in memory. -/
inductive Obj (V : Type) where
  /-- A node. -/
  | node (n : Node V)
  /-- A further value of a node. -/
  | value (v : VNode V)
  /-- A string. -/
  | str (s : List UInt8)
deriving DecidableEq, Repr

/-- The memory. -/
abbrev Mem (V : Type) := Objects (Obj V)

variable {V : Type}

/-- Memory that has been set to zero. -/
def Node.zero : Node V := ⟨⟨none, none⟩, none, 0, none⟩

/-- The memory of an array of nodes, which has been set to zero. -/
def zeroSlots (m : Mem V) (a : Nat) : Nat → Mem V
  | 0 => m
  | n + 1 => zeroSlots (m.set a (.node Node.zero)) (a + 1) n

/-- Reading through a pointer to a node. -/
def loadNode (m : Mem V) (p : Option Nat) : Exec (Node V) :=
  match p with
  | none => Exec.undef
  | some a => do
    match ← m.get a with
    | .node n => pure n
    | _ => Exec.undef

/-- Reading through a pointer to a further value. -/
def loadValue (m : Mem V) (p : Option Nat) : Exec (VNode V) :=
  match p with
  | none => Exec.undef
  | some a => do
    match ← m.get a with
    | .value v => pure v
    | _ => Exec.undef

/-- Reading through a pointer to a string. -/
def loadStr (m : Mem V) (p : Option Nat) : Exec (List UInt8) :=
  match p with
  | none => Exec.undef
  | some a => do
    match ← m.get a with
    | .str s => pure s
    | _ => Exec.undef

/-- `dl_hash_key` and `dl_phash_key`. -/
def hashKey (data : List UInt8) : UInt32 :=
  (data.take 20).foldl (fun key c ↦ key * 31 + c.toUInt32) 0

/-- Whether `memcmp(s, t, n)` is zero for the length `n` of `t`.  Reading on behind the end of `s`
is undefined. -/
def memcmpEq : List UInt8 → List UInt8 → Exec Bool
  | _, [] => .ok true
  | [], _ :: _ => Exec.undef
  | c :: s, d :: t => if c = d then memcmpEq s t else .ok false

/-- The test whether a node has the key: the hashes are compared first. -/
def sameKey (m : Mem V) (n : Node V) (hKey : UInt32) (key : List UInt8) : Exec Bool :=
  if n.hash = hKey then do
    let s ← loadStr m n.key
    memcmpEq s key
  else
    pure false

/-- The loops that look for a key in a chain. -/
def search (m : Mem V) (hKey : UInt32) (key : List UInt8) :
    Nat → Option Nat → Exec (Option Nat)
  | 0, _ => Exec.timeout
  | _ + 1, none => .ok none
  | fuel + 1, some a => do
    let n ← loadNode m (some a)
    let same ← sameKey m n hKey key
    if same then pure (some a) else search m hKey key fuel n.next

end Dlbase.Hash
