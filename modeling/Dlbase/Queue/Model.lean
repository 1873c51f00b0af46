import Dlbase.Lib.Objects

/-!
# The queues of `dl_queue.c`

A queue is a ring of nodes, one of which is the sentinel.  The macros are sequences of assignments,
each of which reads links that the ones before it may have changed; they are modelled one assignment
after the other.  A comparison looks at the elements that the nodes are part of, which the functions
of this file do not change; it is a function of two addresses.
-/

namespace Dlbase.Queue

open Cmem

/-- A `dl_queue`. -/
structure Node where
  /-- The node before. -/
  prev : Nat
  /-- The node behind. -/
  next : Nat
deriving DecidableEq, Repr

/-- The nodes at their addresses. -/
abbrev Mem := Objects Node

/-! ## Links -/

/-- `q->prev`. -/
def loadPrev (m : Mem) (q : Nat) : Exec Nat := do
  let x ← m.get q
  pure x.prev

/-- `q->next`. -/
def loadNext (m : Mem) (q : Nat) : Exec Nat := do
  let x ← m.get q
  pure x.next

/-- `q->prev = x`. -/
def storePrev (m : Mem) (q x : Nat) : Exec Mem := do
  let n ← m.get q
  m.put q { n with prev := x }

/-- `q->next = x`. -/
def storeNext (m : Mem) (q x : Nat) : Exec Mem := do
  let n ← m.get q
  m.put q { n with next := x }

/-! ## Macros -/

/-- `dl_queue_init`. -/
def init (m : Mem) (q : Nat) : Exec Mem := do
  let m ← storePrev m q q
  storeNext m q q

/-- `dl_queue_empty`. -/
def empty (m : Mem) (h : Nat) : Exec Bool := do
  let last ← loadPrev m h
  pure (h = last)

/-- `dl_queue_insert_head`, which is also `dl_queue_insert_after`. -/
def insertHead (m : Mem) (h x : Nat) : Exec Mem := do
  let m ← storeNext m x (← loadNext m h)
  let m ← storePrev m (← loadNext m x) x
  let m ← storePrev m x h
  storeNext m h x

/-- `dl_queue_insert_tail`. -/
def insertTail (m : Mem) (h x : Nat) : Exec Mem := do
  let m ← storePrev m x (← loadPrev m h)
  let m ← storeNext m (← loadPrev m x) x
  let m ← storeNext m x h
  storePrev m h x

/-- `dl_queue_remove`. -/
def remove (m : Mem) (x : Nat) : Exec Mem := do
  let m ← storePrev m (← loadNext m x) (← loadPrev m x)
  storeNext m (← loadPrev m x) (← loadNext m x)

/-- `dl_queue_split`. -/
def split (m : Mem) (h q n : Nat) : Exec Mem := do
  let m ← storePrev m n (← loadPrev m h)
  let m ← storeNext m (← loadPrev m n) n
  let m ← storeNext m n q
  let m ← storePrev m h (← loadPrev m q)
  let m ← storeNext m (← loadPrev m h) h
  storePrev m q n

/-- `dl_queue_add`. -/
def add (m : Mem) (h n : Nat) : Exec Mem := do
  let m ← storeNext m (← loadPrev m h) (← loadNext m n)
  let m ← storePrev m (← loadNext m n) (← loadPrev m h)
  let m ← storePrev m h (← loadPrev m n)
  storeNext m (← loadPrev m h) h

/-! ## Functions -/

/-- The points between the moves of the loop of `dl_queue_middle`. -/
inductive Point where
  /-- The beginning of a round. -/
  | top
  /-- `next` has been moved once in this round. -/
  | once
  /-- `next` has been moved twice. -/
  | twice
deriving DecidableEq, Repr

/-- The state of the loop of `dl_queue_middle`. -/
structure Cursors where
  /-- Where the execution is. -/
  point : Point
  /-- The cursor that moves once in a round. -/
  middle : Nat
  /-- The cursor that moves twice. -/
  next : Nat
deriving DecidableEq, Repr

/-- The loop of `dl_queue_middle` from one point to the next: what is returned, or the new state. -/
def middleStep (m : Mem) (queue : Nat) (s : Cursors) : Exec (Nat ⊕ Cursors) :=
  match s.point with
  | .top => do
    let middle ← loadNext m s.middle
    let next ← loadNext m s.next
    pure (.inr ⟨.once, middle, next⟩)
  | .once => do
    if s.next = (← loadPrev m queue) then pure (.inl s.middle)
    else
      let next ← loadNext m s.next
      pure (.inr ⟨.twice, s.middle, next⟩)
  | .twice => do
    if s.next = (← loadPrev m queue) then pure (.inl s.middle)
    else pure (.inr ⟨.top, s.middle, s.next⟩)

/-- The loop of `dl_queue_middle`. -/
def middleLoop (m : Mem) (queue : Nat) : Nat → Cursors → Exec Nat
  | 0, _ => Exec.timeout
  | fuel + 1, s => do
    match ← middleStep m queue s with
    | .inl middle => pure middle
    | .inr s => middleLoop m queue fuel s

/-- `dl_queue_middle`. -/
def middle (fuel : Nat) (m : Mem) (queue : Nat) : Exec Nat := do
  let middle ← loadNext m queue
  if middle = (← loadPrev m queue) then pure middle
  else
    let next ← loadNext m queue
    middleLoop m queue fuel ⟨.top, middle, next⟩

variable (cmp : Nat → Nat → Int)

/-- The inner loop of `dl_queue_sort`: the node that `q` is put behind. -/
def sortScan (m : Mem) (queue q : Nat) : Nat → Nat → Exec Nat
  | 0, _ => Exec.timeout
  | fuel + 1, prev => do
    if cmp prev q ≤ 0 then pure prev
    else
      let prev ← loadPrev m prev
      if prev = queue then pure prev else sortScan m queue q fuel prev

/-- The outer loop of `dl_queue_sort`. -/
def sortLoop (queue : Nat) : Nat → Mem → Nat → Exec Mem
  | 0, _, _ => Exec.timeout
  | fuel + 1, m, q => do
    if q = queue then pure m
    else
      let prev ← loadPrev m q
      let next ← loadNext m q
      let m ← remove m q
      let prev ← sortScan cmp m queue q fuel prev
      let m ← insertHead m prev q
      sortLoop queue fuel m next

/-- `dl_queue_sort`. -/
def sort (fuel : Nat) (m : Mem) (queue : Nat) : Exec Mem := do
  let q ← loadNext m queue
  if q = (← loadPrev m queue) then pure m
  else
    let q ← loadNext m q
    sortLoop cmp queue fuel m q

end Dlbase.Queue
