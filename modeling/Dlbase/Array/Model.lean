import Dlbase.Pool.Model

/-!
# The arrays of `dl_array.c`

An array has its header and its elements in memory of a pool.  A full array whose elements end at
the cursor of the pool's first block grows by moving that cursor.
-/

namespace Dlbase.DlArray

open Cmem Pool

/-- `sizeof(dl_array)`. -/
def sizeofArray : Nat := 40

/-- A product of type `size_t`. -/
def mulSize (a b : Nat) : Nat := a * b % 2 ^ 64

/-- A result of type `int`, which must not overflow. -/
def toInt (n : Nat) : Exec Nat := if n < 2 ^ 31 then .ok n else Exec.undef

/-- Reading the header of an array. -/
def loadArray (h : Arena Value) (a : Nat) : Exec Pool.Array := do
  match ← h.load ⟨a, sizeofArray⟩ with
  | .array r => pure r
  | _ => Exec.undef

/-- The block of the pool that the array belongs to. -/
def poolOf (s : State) (r : Pool.Array) : Exec Block :=
  match s.blocks with
  | b :: _ => if b.start = r.pool then .ok b else Exec.undef
  | [] => Exec.undef

/-- `p->d.last = l`. -/
def setPoolLast (s : State) (l : Nat) : State :=
  { s with blocks := s.blocks.modifyHead fun b ↦ { b with last := l } }

variable (alloc : Malloc Value)

/-- `dl_array_init` with the header at `a`; whether it succeeds. -/
def arrayInit (s : State) (a n size : Nat) : Exec (State × Bool) := do
  match s.address with
  | none => Exec.undef
  | some pool =>
    match ← palloc alloc s (mulSize n size) with
    | (s, none) => pure (s, false)
    | (s, some elts) =>
      let heap ← s.heap.store ⟨a, sizeofArray⟩
        (.array { elts, nelts := 0, size, nalloc := n, pool })
      pure ({ s with heap }, true)

/-- `dl_array_create`. -/
def arrayCreate (s : State) (n size : Nat) : Exec (State × Option Nat) := do
  match ← palloc alloc s sizeofArray with
  | (s, none) => pure (s, none)
  | (s, some a) =>
    match ← arrayInit alloc s a n size with
    | (s, true) => pure (s, some a)
    | (s, false) => pure (s, none)

/-- `dl_array_destroy`. -/
def arrayDestroy (s : State) (a : Nat) : Exec State := do
  let r ← loadArray s.heap a
  let p ← poolOf s r
  let size := mulSize r.size r.nalloc
  let last := if r.elts + size = p.last then p.last - size else p.last
  let last := if a + sizeofArray = last then a else last
  pure (setPoolLast s last)

/-- What `dl_array_push` and `dl_array_push_n` do with a full array: it grows by `more` elements in
place, or it gets `bytes` bytes for `nalloc` elements elsewhere and `size` bytes are copied. -/
def arrayGrow (s : State) (r : Pool.Array) (more nalloc bytes size : Nat) :
    Exec (State × Option Pool.Array) := do
  let p ← poolOf s r
  if r.elts + mulSize r.size r.nalloc = p.last ∧ p.last + mulSize more r.size ≤ p.end then
    let nalloc ← toInt (r.nalloc + more)
    pure (setPoolLast s (p.last + mulSize more r.size), some { r with nalloc })
  else
    let nalloc ← toInt nalloc
    match ← palloc alloc s bytes with
    | (s, none) => pure (s, none)
    | (s, some new) =>
      let heap ← s.heap.copy ⟨new, size⟩ r.elts
      pure ({ s with heap }, some { r with elts := new, nalloc })

/-- The end of `dl_array_push` and `dl_array_push_n`: the place of the new elements. -/
def arrayTake (s : State) (a : Nat) (r : Pool.Array) (n : Nat) : Exec (State × Option Nat) := do
  let nelts ← toInt (r.nelts + n)
  let heap ← s.heap.store ⟨a, sizeofArray⟩ (.array { r with nelts })
  pure ({ s with heap }, some (r.elts + mulSize r.size r.nelts))

/-- `dl_array_push`. -/
def arrayPush (s : State) (a : Nat) : Exec (State × Option Nat) := do
  let r ← loadArray s.heap a
  if r.nelts = r.nalloc then
    let size := mulSize r.size r.nalloc
    match ← arrayGrow alloc s r 1 (r.nalloc * 2) (mulSize 2 size) size with
    | (s, none) => pure (s, none)
    | (s, some r) => arrayTake s a r 1
  else
    arrayTake s a r 1

/-- `dl_array_push_n`. -/
def arrayPushN (s : State) (a n : Nat) : Exec (State × Option Nat) := do
  let r ← loadArray s.heap a
  let needed ← toInt (r.nelts + n)
  if needed > r.nalloc then
    let nalloc := 2 * if n ≥ r.nalloc then n else r.nalloc
    match ← arrayGrow alloc s r n nalloc (mulSize nalloc r.size) (mulSize r.nelts r.size) with
    | (s, none) => pure (s, none)
    | (s, some r) => arrayTake s a r n
  else
    arrayTake s a r n

end Dlbase.DlArray
