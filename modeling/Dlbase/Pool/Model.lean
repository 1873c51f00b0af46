import Dlbase.Lib.Memory

/-!
# The memory pool of `dl_pool.c`

The chain of blocks is a list, with the block that is the pool itself first.  The records of
large blocks and of cleanups lie in the memory that the pool hands out; what the heap holds there
is what the code reads.
-/

namespace Dlbase.Pool

open Cmem

/-- A `dl_pool_large`. -/
structure Large where
  /-- The next record. -/
  next : Option Nat
  /-- The block. -/
  alloc : Option Nat
deriving DecidableEq, Repr

/-- A `dl_pool_cleanup`. -/
structure Cleanup where
  /-- The function to be called. -/
  handler : Option Nat
  /-- Its argument. -/
  data : Option Nat
  /-- The next record. -/
  next : Option Nat
deriving DecidableEq, Repr

/-- A `dl_array`. -/
structure Array where
  /-- The elements. -/
  elts : Nat
  /-- How many elements there are. -/
  nelts : Nat
  /-- The size of an element. -/
  size : Nat
  /-- How many elements there is room for. -/
  nalloc : Nat
  /-- The pool. -/
  pool : Nat
deriving DecidableEq, Repr

/-- What the heap holds. -/
inductive Value where
  /-- A byte of the pool's user. -/
  | byte (b : UInt8)
  /-- A record of a large block. -/
  | large (l : Large)
  /-- A record of a cleanup. -/
  | cleanup (c : Cleanup)
  /-- The header of an array. -/
  | array (a : Array)
deriving DecidableEq, Repr

/-- `sizeof(dl_pool)`. -/
def sizeofPool : Nat := 72

/-- `sizeof(dl_pool_large)`. -/
def sizeofLarge : Nat := 16

/-- `sizeof(dl_pool_cleanup)`. -/
def sizeofCleanup : Nat := 24

/-- `DL_MAX_ALLOC_FROM_POOL`. -/
def maxAllocFromPool : Nat := 4095

/-- `dl_align_ptr(m, DL_ALIGNMENT)`. -/
def alignPtr (m : Nat) : Nat := (m + 7) / 8 * 8

/-- `(size_t) (a - b)`. -/
def subSize (a b : Nat) : Nat := (2 ^ 64 + a - b) % 2 ^ 64

theorem subSize_eq {a b : Nat} (hba : b ≤ a) (ha : a < 2 ^ 64) : subSize a b = a - b := by
  unfold subSize
  omega

/-- One block of the chain. -/
structure Block where
  /-- The address of the block, where its header is. -/
  start : Nat
  /-- `d.last`: what is below has been handed out. -/
  last : Nat
  /-- `d.end`. -/
  «end» : Nat
  /-- `d.failed`: how often there was not enough room in the block. -/
  failed : Nat
deriving DecidableEq, Repr

/-- A pool and the heap it lives in. -/
structure State where
  /-- The heap. -/
  heap : Arena Value
  /-- The blocks, in the order of `d.next`; the first one is the pool. -/
  blocks : List Block
  /-- The largest request that is served from the blocks. -/
  max : Nat
  /-- `current`: the place in the chain from which on room is looked for. -/
  current : Nat
  /-- The first record of a large block. -/
  large : Option Nat
  /-- The first record of a cleanup. -/
  cleanup : Option Nat

/-- The address of the pool. -/
def State.address (s : State) : Option Nat := s.blocks.head?.map (·.start)

variable (alloc : Malloc Value)

/-- `dl_create_pool`. -/
def createPool (heap : Arena Value) (size : Nat) : Exec (Option State) :=
  match heap.malloc alloc size with
  | (_, none) => .ok none
  | (heap, some p) =>
    if heap.Allows ⟨p, sizeofPool⟩ then
      let rest := subSize size sizeofPool
      .ok (some
        { heap
          blocks := [{ start := p, last := p + sizeofPool, «end» := p + size, failed := 0 }]
          max := if rest < maxAllocFromPool then rest else maxAllocFromPool
          current := 0
          large := none
          cleanup := none })
    else
      Exec.undef

/-- The loop of `dl_palloc_small`: the first block with enough room serves the request. -/
def serve (size : Nat) (align : Bool) : List Block → Option (List Block × Nat)
  | [] => none
  | p :: ps =>
    let m := if align then alignPtr p.last else p.last
    if size ≤ subSize p.end m then
      some ({ p with last := m + size } :: ps, m)
    else
      (serve size align ps).map fun r ↦ (p :: r.1, r.2)

/-- The loop of `dl_palloc_block`, which counts failures in the blocks from the `i`-th on, but the
last. -/
def countFailed (i current : Nat) : List Block → List Block × Nat
  | p :: q :: ps =>
    let current := if p.failed > 4 then i + 1 else current
    let r := countFailed (i + 1) current (q :: ps)
    ({ p with failed := p.failed + 1 } :: r.1, r.2)
  | ps => (ps, current)

/-- `dl_palloc_block`. -/
def pallocBlock (s : State) (size : Nat) : Exec (State × Option Nat) :=
  match s.blocks with
  | [] => Exec.undef
  | pool :: _ =>
    let psize := subSize pool.end pool.start
    match s.heap.malloc alloc psize with
    | (_, none) => .ok (s, none)
    | (heap, some p) =>
      if heap.Allows ⟨p, sizeofPool⟩ then
        let m := alignPtr (p + sizeofPool)
        let block := { start := p, last := m + size, «end» := p + psize, failed := 0 }
        let r := countFailed s.current s.current (s.blocks.drop s.current)
        .ok ({ s with heap, current := r.2, blocks := s.blocks.take s.current ++ r.1 ++ [block] },
          some m)
      else
        Exec.undef

/-- `dl_palloc_small`. -/
def pallocSmall (s : State) (size : Nat) (align : Bool) : Exec (State × Option Nat) :=
  match serve size align (s.blocks.drop s.current) with
  | some (ps, m) => .ok ({ s with blocks := s.blocks.take s.current ++ ps }, some m)
  | none => pallocBlock alloc s size

/-- Reading a `dl_pool_large`. -/
def loadLarge (h : Arena Value) (l : Nat) : Exec Large := do
  match ← h.load ⟨l, sizeofLarge⟩ with
  | .large r => pure r
  | _ => Exec.undef

/-- Reading a `dl_pool_cleanup`. -/
def loadCleanup (h : Arena Value) (c : Nat) : Exec Cleanup := do
  match ← h.load ⟨c, sizeofCleanup⟩ with
  | .cleanup r => pure r
  | _ => Exec.undef

/-- The loop of `dl_palloc_large`: a record without a block, among the first `n`. -/
def spareLarge (h : Arena Value) : Nat → Option Nat → Exec (Option (Nat × Large))
  | _, none => pure none
  | 0, some _ => pure none
  | n + 1, some l => do
    let r ← loadLarge h l
    if r.alloc = none then pure (some (l, r)) else spareLarge h n r.next

/-- `dl_palloc_large`. -/
def pallocLarge (s : State) (size : Nat) : Exec (State × Option Nat) :=
  match s.heap.malloc alloc size with
  | (_, none) => .ok (s, none)
  | (heap, some p) => do
    let s := { s with heap }
    match ← spareLarge s.heap 5 s.large with
    | some (l, r) =>
      let heap ← s.heap.store ⟨l, sizeofLarge⟩ (.large { r with alloc := some p })
      pure ({ s with heap }, some p)
    | none =>
      match ← pallocSmall alloc s sizeofLarge true with
      | (s, none) =>
        let heap ← s.heap.free p
        pure ({ s with heap }, none)
      | (s, some l) =>
        let heap ← s.heap.store ⟨l, sizeofLarge⟩ (.large { next := s.large, alloc := some p })
        pure ({ s with heap, large := some l }, some p)

/-- `dl_palloc` if `align`, else `dl_pnalloc`. -/
def request (s : State) (size : Nat) (align : Bool) : Exec (State × Option Nat) :=
  if size ≤ s.max then pallocSmall alloc s size align else pallocLarge alloc s size

/-- `dl_palloc`. -/
def palloc (s : State) (size : Nat) : Exec (State × Option Nat) := request alloc s size true

/-- `dl_pnalloc`. -/
def pnalloc (s : State) (size : Nat) : Exec (State × Option Nat) := request alloc s size false

/-- `dl_pcalloc`. -/
def pcalloc (s : State) (size : Nat) : Exec (State × Option Nat) := do
  match ← palloc alloc s size with
  | (s, none) => pure (s, none)
  | (s, some p) =>
    let heap ← s.heap.write ⟨p, size⟩ fun _ ↦ .byte 0
    pure ({ s with heap }, some p)

/-- `dl_pool_cleanup_add`. -/
def cleanupAdd (s : State) (size : Nat) : Exec (State × Option Nat) := do
  match ← palloc alloc s sizeofCleanup with
  | (s, none) => pure (s, none)
  | (s, some c) =>
    let link (s : State) (data : Option Nat) : Exec (State × Option Nat) := do
      let heap ← s.heap.store ⟨c, sizeofCleanup⟩
        (.cleanup { handler := none, data, next := s.cleanup })
      pure ({ s with heap, cleanup := some c }, some c)
    if size ≠ 0 then
      match ← palloc alloc s size with
      | (s, none) => pure (s, none)
      | (s, some data) => link s (some data)
    else
      link s none

/-- The loop that frees the large blocks, in `dl_destroy_pool` and in `dl_reset_pool`; the freed
blocks are returned. -/
def freeLarges (h : Arena Value) : Nat → Option Nat → Exec (Arena Value × List Nat)
  | _, none => pure (h, [])
  | 0, some _ => Exec.timeout
  | fuel + 1, some l => do
    let r ← loadLarge h l
    match r.alloc with
    | none => freeLarges h fuel r.next
    | some p =>
      let h ← h.free p
      let (h, freed) ← freeLarges h fuel r.next
      pure (h, p :: freed)

/-- The loop of `dl_destroy_pool` over the cleanups: the calls of handlers. -/
def runCleanups (h : Arena Value) : Nat → Option Nat → Exec (List (Nat × Option Nat))
  | _, none => pure []
  | 0, some _ => Exec.timeout
  | fuel + 1, some c => do
    let r ← loadCleanup h c
    let calls ← runCleanups h fuel r.next
    match r.handler with
    | none => pure calls
    | some handler => pure ((handler, r.data) :: calls)

/-- The loop of `dl_destroy_pool` over the chain. -/
def freeBlocks (h : Arena Value) : List Block → Exec (Arena Value)
  | [] => pure h
  | p :: ps => do
    let h ← h.free p.start
    freeBlocks h ps

/-- `dl_destroy_pool`: the heap that is left, the calls of handlers and the freed large blocks. -/
def destroyPool (fuel : Nat) (s : State) :
    Exec (Arena Value × List (Nat × Option Nat) × List Nat) := do
  let calls ← runCleanups s.heap fuel s.cleanup
  let (heap, freed) ← freeLarges s.heap fuel s.large
  let heap ← freeBlocks heap s.blocks
  pure (heap, calls, freed)

/-- `dl_reset_pool`. -/
def resetPool (fuel : Nat) (s : State) : Exec State := do
  let (heap, _) ← freeLarges s.heap fuel s.large
  pure { s with
    heap
    blocks := s.blocks.map fun p ↦ { p with last := p.start + sizeofPool, failed := 0 }
    current := 0
    large := none }

end Dlbase.Pool
