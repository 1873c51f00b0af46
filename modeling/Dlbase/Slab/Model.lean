import Dlbase.Lib.Exec

/-!
# The slab allocator of `dl_shm.c`

A pool lies in one region of shared memory: its header, the slots, their statistics, the page
descriptors, and the pages from `start` on.  Descriptors, slots and the head of the free list are
linked to each other; the two lowest bits of a link back are a tag, which is kept on its own here.
The bitmap of a page of small chunks is in the page itself, whose words are read and written at
their addresses.

The sizes that the allocator works with are in variables of the file, which all pools share.
-/

namespace Dlbase.Slab

open Cmem

/-- A `uintptr_t`. -/
abbrev Word := BitVec 64

/-- What a pointer to a `dl_slab_page` points to. -/
inductive Ref where
  /-- `&pool->free`. -/
  | free
  /-- `&slots[i]`. -/
  | slot (i : Nat)
  /-- `&pool->pages[i]`. -/
  | page (i : Nat)
deriving DecidableEq, Repr

/-- The two lowest bits of `prev`. -/
inductive PageType where
  /-- `DL_SLAB_PAGE`. -/
  | page
  /-- `DL_SLAB_BIG`. -/
  | big
  /-- `DL_SLAB_EXACT`. -/
  | exact
  /-- `DL_SLAB_SMALL`. -/
  | small
deriving DecidableEq, Repr

/-- A `dl_slab_page`. -/
structure Page where
  /-- Numbers of pages, bitmaps and shifts. -/
  slab : Word
  /-- The next one of a list. -/
  next : Option Ref
  /-- The one before in a list. -/
  prev : Option Ref
  /-- `dl_slab_page_type`. -/
  type : PageType
deriving DecidableEq, Repr

/-- A `dl_slab_stat`. -/
structure Stat where
  /-- The chunks that there are. -/
  total : BitVec 32
  /-- The chunks in use. -/
  used : BitVec 32
  /-- The requests. -/
  reqs : BitVec 32
  /-- The requests that have failed. -/
  fails : BitVec 32
deriving DecidableEq, Repr

/-- The variables of the file. -/
structure Statics where
  /-- `dl_slab_max_size`. -/
  maxSize : Nat
  /-- `dl_slab_exact_size`. -/
  exactSize : Nat
  /-- `dl_slab_exact_shift`. -/
  exactShift : Nat
  /-- `dl_pagesize`. -/
  pagesize : Nat
  /-- `dl_pagesize_shift`. -/
  pagesizeShift : Nat
deriving DecidableEq, Repr

/-- The variables when the process starts. -/
def Statics.zero : Statics := ⟨0, 0, 0, 0, 0⟩

/-- A `dl_slab_pool` with its memory. -/
structure Pool where
  /-- `min_size`. -/
  minSize : Nat
  /-- `min_shift`. -/
  minShift : Nat
  /-- The number of slots. -/
  slots : Nat
  /-- The number of descriptors that there is room for. -/
  descs : Nat
  /-- The number of pages, `last - pages`. -/
  pages : Nat
  /-- The head of the free list, the slots and the descriptors. -/
  node : Ref → Page
  /-- `stats`. -/
  stats : Nat → Stat
  /-- `pfree`. -/
  pfree : BitVec 32
  /-- `start`. -/
  start : Nat
  /-- `end`. -/
  «end» : Nat
  /-- The words in the pages, by their addresses. -/
  words : Nat → Word

/-- `DL_SLAB_PAGE_BUSY` and `DL_SLAB_BUSY`. -/
def busy : Word := 0xffffffffffffffff#64

/-- `DL_SLAB_PAGE_START`. -/
def pageStart : Word := 0x8000000000000000#64

/-- `DL_SLAB_SHIFT_MASK`. -/
def shiftMask : Word := 0xf#64

/-- `DL_SLAB_MAP_MASK`. -/
def mapMask : Word := 0xffffffff00000000#64

/-! ## Initialisation -/

/-- `sizeof(dl_slab_pool)`. -/
def sizeofPool : Nat := 128

/-- `sizeof(dl_slab_page)`. -/
def sizeofPage : Nat := 24

/-- `sizeof(dl_slab_stat)`. -/
def sizeofStat : Nat := 16

/-- `getpagesize()`. -/
def getpagesize : Nat := 4096

/-- The rounds of the loops `for (; n >>= 1; shift++)`. -/
def halvings (n : Nat) : Nat := if n / 2 = 0 then 0 else halvings (n / 2) + 1

/-- What `dl_slab_init` does to the variables of the file. -/
def Statics.init (g : Statics) : Statics :=
  let g := { g with
    pagesize := getpagesize
    pagesizeShift := (g.pagesizeShift + halvings getpagesize) % 2 ^ 32 }
  if g.maxSize = 0 then
    { g with
      maxSize := g.pagesize / 2
      exactSize := g.pagesize / 64
      exactShift := g.exactShift + halvings (g.pagesize / 64) }
  else g

/-- The nodes after `dl_slab_init`. -/
def initNode (pages : Nat) : Ref → Page
  | .free => ⟨0, some (.page 0), none, .page⟩
  | .slot i => ⟨0, some (.slot i), none, .page⟩
  | .page 0 => ⟨BitVec.ofNat 64 pages, some .free, some .free, .page⟩
  | .page (_ + 1) => ⟨0, none, none, .page⟩

/-- `dl_shm_slab_init`, with `dl_slab_init`, for the region of `size` bytes at `addr`.  The region
must have room for what is written there, and `last` must not be in front of the descriptors. -/
def shmSlabInit (g : Statics) (addr size : Nat) (words : Nat → Word) : Exec (Statics × Pool) :=
  let minShift := 3
  let g := g.init
  let n := g.pagesizeShift - minShift
  let slots := addr + sizeofPool
  let p := slots + n * sizeofPage + n * sizeofStat
  let pend := addr + size
  if p + sizeofPage ≤ pend then
    let pages := (pend - p) / (g.pagesize + sizeofPage) % 2 ^ 32
    let start := (p + pages * sizeofPage + (g.pagesize - 1)) / g.pagesize * g.pagesize
    let m := ((pages : Int) - ((pend : Int) - start).tdiv g.pagesize).bmod (2 ^ 32)
    let last := if 0 < m then pages - m.toNat else pages
    if m ≤ pages then
      .ok (g, {
        minSize := 1 <<< minShift
        minShift
        slots := n
        descs := max 1 pages
        pages := last
        node := initNode last
        stats := fun _ ↦ ⟨0, 0, 0, 0⟩
        pfree := BitVec.ofNat 32 last
        start
        «end» := pend
        words })
    else Exec.undef
  else Exec.undef

/-! ## Nodes -/

/-- There is such a node. -/
def Pool.Has (s : Pool) : Ref → Bool
  | .free => true
  | .slot i => i < s.slots
  | .page i => i < s.descs

/-- Reading through a pointer. -/
def Pool.load (s : Pool) : Option Ref → Exec Page
  | none => Exec.undef
  | some r => if s.Has r then .ok (s.node r) else Exec.undef

/-- A node is changed. -/
def Pool.put (s : Pool) (r : Ref) (f : Page → Page) : Pool :=
  { s with node := Function.update s.node r (f (s.node r)) }

/-- Writing through a pointer. -/
def Pool.store (s : Pool) (r : Option Ref) (f : Page → Page) : Exec Pool :=
  match r with
  | none => Exec.undef
  | some r => if s.Has r then .ok (s.put r f) else Exec.undef

/-- `prev->next = page->next; page->next->prev = page->prev;` for the `prev` of the page. -/
def Pool.unlink (s : Pool) (page : Page) : Exec Pool := do
  let s ← s.store page.prev fun p ↦ { p with next := page.next }
  s.store page.next fun p ↦ { p with prev := page.prev, type := page.type }

/-- Writing a word. -/
def Pool.setWord (s : Pool) (a : Nat) (w : Word) : Pool :=
  { s with words := Function.update s.words a w }

/-- Changing the statistics of a slot. -/
def Pool.setStat (s : Pool) (slot : Nat) (f : Stat → Stat) : Pool :=
  { s with stats := Function.update s.stats slot (f (s.stats slot)) }

/-- `dl_slab_page_addr`. -/
def Pool.pageAddr (g : Statics) (s : Pool) (i : Nat) : Nat := (i <<< g.pagesizeShift) + s.start

/-! ## Pages -/

/-- The loop of `dl_slab_alloc_pages` that looks for enough free contiguous pages. -/
def Pool.findRun (s : Pool) (pages : Nat) : Nat → Option Ref → Exec (Option Nat)
  | 0, _ => Exec.timeout
  | fuel + 1, r =>
    if r = some .free then
      .ok none
    else do
      let page ← s.load r
      if pages ≤ page.slab.toNat then
        match r with
        | some (.page i) => .ok (some i)
        | _ => Exec.undef
      else
        s.findRun pages fuel page.next

/-- The part of `dl_slab_alloc_pages` that takes the first pages of a run off the free list. -/
def Pool.isolate (s : Pool) (i pages : Nat) (page : Page) : Exec Pool :=
  if pages < page.slab.toNat then do
    let s ← s.store (some (.page (i + page.slab.toNat - 1)))
      fun p ↦ { p with prev := some (.page (i + pages)), type := .page }
    let s ← s.store (some (.page (i + pages))) fun _ ↦
      ⟨page.slab - BitVec.ofNat 64 pages, page.next, page.prev, page.type⟩
    let s ← s.store page.prev fun p ↦ { p with next := some (.page (i + pages)) }
    s.store page.next fun p ↦ { p with prev := some (.page (i + pages)), type := .page }
  else
    s.unlink page

/-- The loop of `dl_slab_alloc_pages` over all pages but the first one. -/
def Pool.busyPages (s : Pool) (i : Nat) : Nat → Exec Pool
  | 0 => .ok s
  | n + 1 => do
    let s ← s.store (some (.page i)) fun _ ↦ ⟨busy, none, none, .page⟩
    s.busyPages (i + 1) n

/-- `dl_slab_alloc_pages`. -/
def Pool.allocPages (fuel : Nat) (s : Pool) (pages : Nat) : Exec (Pool × Option Nat) := do
  let head ← s.load (some .free)
  match ← s.findRun pages fuel head.next with
  | none => pure (s, none)
  | some i => do
    let page ← s.load (some (.page i))
    let s ← s.isolate i pages page
    let s ← s.store (some (.page i))
      fun _ ↦ ⟨BitVec.ofNat 64 pages ||| pageStart, none, none, .page⟩
    let s ← { s with pfree := s.pfree - BitVec.ofNat 32 pages }.busyPages (i + 1) (pages - 1)
    pure (s, some i)

/-- `memset(&page[1], 0, pages * sizeof(dl_slab_page))`. -/
def Pool.clearPages (s : Pool) (i : Nat) : Nat → Exec Pool
  | 0 => .ok s
  | n + 1 => do
    let s ← s.store (some (.page i)) fun _ ↦ ⟨0, none, none, .page⟩
    s.clearPages (i + 1) n

/-- `dl_slab_free_pages` takes the node out of its list, if it is in one. -/
def Pool.unlinkIf (s : Pool) (page : Page) : Exec Pool :=
  if page.next ≠ none then s.unlink page else .ok s

/-- `dl_slab_free_pages` takes the run that `join` is the head of out of the free list and makes it
a part of the run of `page`, or the other way round: `into` gets the pages of `from`. -/
def Pool.joinRuns (s : Pool) (into «from» : Nat) (listed : Page) : Exec Pool := do
  let other ← s.load (some (.page «from»))
  let s ← s.store (some (.page into)) fun p ↦ { p with slab := p.slab + other.slab }
  let s ← s.unlink listed
  s.store (some (.page «from»)) fun _ ↦ ⟨0, none, none, .page⟩

/-- The part of `dl_slab_free_pages` that joins the run at `i` with the next one. -/
def Pool.joinNext (s : Pool) (i pages : Nat) : Exec (Pool × Nat) := do
  let page ← s.load (some (.page i))
  let join := i + page.slab.toNat
  if join < s.pages then do
    let next ← s.load (some (.page join))
    if next.type = .page ∧ next.next ≠ none then do
      let s ← s.joinRuns i join next
      pure (s, pages + next.slab.toNat)
    else pure (s, pages)
  else pure (s, pages)

/-- The head of the run that ends with the page `join`, if it is free. -/
def Pool.runHead (s : Pool) (join : Nat) : Exec Nat := do
  let page ← s.load (some (.page join))
  if page.slab = 0 then
    match page.prev with
    | some (.page i) => pure i
    | _ => Exec.undef
  else pure join

/-- The part of `dl_slab_free_pages` that joins the run at `i` with the one before. -/
def Pool.joinPrev (s : Pool) (i pages : Nat) : Exec (Pool × Nat × Nat) :=
  if 0 < i then do
    let last ← s.load (some (.page (i - 1)))
    if last.type = .page then do
      let join ← s.runHead (i - 1)
      let head ← s.load (some (.page join))
      if head.next ≠ none then do
        let s ← s.joinRuns join i head
        pure (s, join, pages + head.slab.toNat)
      else pure (s, i, pages)
    else pure (s, i, pages)
  else pure (s, i, pages)

/-- The last page of the run at `i` is linked to the first one. -/
def Pool.linkBack (s : Pool) (i pages : Nat) : Exec Pool :=
  if pages ≠ 0 then
    s.store (some (.page (i + pages))) fun p ↦ { p with prev := some (.page i), type := .page }
  else .ok s

/-- The part of `dl_slab_free_pages` that chains the run at `i` to the head of the free list. -/
def Pool.chain (s : Pool) (i pages : Nat) : Exec Pool := do
  let s ← s.linkBack i pages
  let head ← s.load (some .free)
  let s ← s.store (some (.page i))
    fun p ↦ { p with prev := some .free, type := .page, next := head.next }
  let s ← s.store head.next fun p ↦ { p with prev := some (.page i), type := .page }
  s.store (some .free) fun p ↦ { p with next := some (.page i) }

/-- `dl_slab_free_pages`. -/
def Pool.freePages (s : Pool) (i pages : Nat) : Exec Pool := do
  let s := { s with pfree := s.pfree + BitVec.ofNat 32 pages }
  let s ← s.store (some (.page i)) fun p ↦ { p with slab := BitVec.ofNat 64 pages }
  let s ← s.clearPages (i + 1) (pages - 1)
  let page ← s.load (some (.page i))
  let s ← s.unlinkIf page
  let (s, pages) ← s.joinNext i (pages - 1)
  let (s, i, pages) ← s.joinPrev i pages
  s.chain i pages

/-! ## Chunks -/

/-- The slot of a size and its shift: the number of bits of `size - 1`, or `min_shift`. -/
def Pool.slotOf (s : Pool) (size : Nat) : Nat × Nat :=
  if s.minSize < size then
    let shift := 1 + halvings (size - 1)
    (shift - s.minShift, shift)
  else (0, s.minShift)

/-- The loops that look for a bit that is not set, from the bit `i` on. -/
def findBit (w : Word) (i : Nat) : Nat → Option Nat
  | 0 => none
  | n + 1 => if w &&& BitVec.twoPow 64 i ≠ 0 then findBit w (i + 1) n else some i

/-- The loop over the words of a bitmap, from the word `n` on. -/
def Pool.findWord (s : Pool) (bitmap n : Nat) : Nat → Option (Nat × Nat)
  | 0 => none
  | k + 1 =>
    if s.words (bitmap + 8 * n) ≠ busy then
      match findBit (s.words (bitmap + 8 * n)) 0 64 with
      | some i => some (n, i)
      | none => s.findWord bitmap (n + 1) k
    else s.findWord bitmap (n + 1) k

/-- All words of a bitmap are `w`, from the word `n` on. -/
def Pool.allWords (s : Pool) (w : Word) (bitmap n : Nat) : Nat → Bool
  | 0 => true
  | k + 1 => s.words (bitmap + 8 * n) = w && s.allWords w bitmap (n + 1) k

/-- The number of words of the bitmap of a page of small chunks. -/
def mapWords (g : Statics) (shift : Nat) : Nat := (g.pagesize >>> shift) / 64

/-- The number of chunks that the bitmap of a page of small chunks takes. -/
def mapChunks (g : Statics) (shift : Nat) : Nat :=
  let n := (g.pagesize >>> shift) / ((1 <<< shift) * 8)
  if n = 0 then 1 else n

/-- The type of the pages for chunks of `2 ^ shift` bytes. -/
def typeOf (g : Statics) (shift : Nat) : PageType :=
  if shift < g.exactShift then .small else if shift = g.exactShift then .exact else .big

/-- The part of `dl_slab_alloc_locked` that takes a chunk of a page of small chunks, with the
number of the chunk and whether the page is full then. -/
def Pool.takeSmall (g : Statics) (s : Pool) (i shift : Nat) : Option (Pool × Nat × Bool) :=
  let bitmap := s.pageAddr g i
  let map := mapWords g shift
  match s.findWord bitmap 0 map with
  | none => none
  | some (n, b) =>
    let s := s.setWord (bitmap + 8 * n) (s.words (bitmap + 8 * n) ||| BitVec.twoPow 64 b)
    some (s, n * 64 + b,
      s.words (bitmap + 8 * n) = busy && s.allWords busy bitmap (n + 1) (map - (n + 1)))

/-- The same for a page whose bitmap is its `slab`: the bits from `lo` on are taken. -/
def Pool.takeBit (s : Pool) (i lo n : Nat) (full : Word → Bool) : Option (Pool × Nat × Bool) :=
  let slab := (s.node (.page i)).slab
  match findBit slab lo n with
  | none => none
  | some b =>
    let slab := slab ||| BitVec.twoPow 64 b
    some (s.put (.page i) fun p ↦ { p with slab }, b - lo, full slab)

/-- The mask for the bitmap of a page of big chunks. -/
def bigMask (g : Statics) (shift : Nat) : Word :=
  (BitVec.twoPow 64 (g.pagesize >>> shift) - 1) <<< 32

/-- The parts of `dl_slab_alloc_locked` that take a chunk of the page `i`. -/
def Pool.takeChunk (g : Statics) (s : Pool) (i shift : Nat) : Option (Pool × Nat × Bool) :=
  match typeOf g shift with
  | .small => s.takeSmall g i shift
  | .exact => s.takeBit i 0 64 (· = busy)
  | _ => s.takeBit i 32 (g.pagesize >>> shift) (· &&& mapMask = bigMask g shift)

/-- A page without free chunks is taken out of the list of its slot. -/
def Pool.unlinkFull (s : Pool) (i : Nat) (type : PageType) (full : Bool) : Exec Pool :=
  if full then do
    let page ← s.load (some (.page i))
    let s ← s.unlink page
    s.store (some (.page i)) fun p ↦ { p with next := none, prev := none, type }
  else .ok s

/-- A chunk is counted as used. -/
def Pool.count (s : Pool) (slot : Nat) : Pool := s.setStat slot fun t ↦ { t with used := t.used + 1 }

/-- The loop of `dl_slab_alloc_locked` that sets words of a bitmap to zero. -/
def Pool.zeroWords (s : Pool) (bitmap n : Nat) : Nat → Pool
  | 0 => s
  | k + 1 => (s.setWord (bitmap + 8 * n) 0).zeroWords bitmap (n + 1) k

/-- The part of `dl_slab_alloc_locked` that makes a page of chunks, with the number of the first
chunk and the number of chunks. -/
def Pool.newChunks (g : Statics) (s : Pool) (i slot shift : Nat) : Exec (Pool × Nat × Nat) :=
  match typeOf g shift with
  | .small => do
    let bitmap := s.pageAddr g i
    let n := mapChunks g shift
    let s := s.setWord bitmap (2#64 <<< n - 1)
    let s := s.zeroWords bitmap 1 (mapWords g shift - 1)
    let s ← s.store (some (.page i)) fun _ ↦
      ⟨BitVec.ofNat 64 shift, some (.slot slot), some (.slot slot), .small⟩
    pure (s, n, (g.pagesize >>> shift) - n)
  | .exact => do
    let s ← s.store (some (.page i)) fun _ ↦ ⟨1, some (.slot slot), some (.slot slot), .exact⟩
    pure (s, 0, 64)
  | _ => do
    let s ← s.store (some (.page i)) fun _ ↦
      ⟨BitVec.twoPow 64 32 ||| BitVec.ofNat 64 shift, some (.slot slot), some (.slot slot), .big⟩
    pure (s, 0, g.pagesize >>> shift)

/-- The part of `dl_slab_alloc_locked` for a slot without a page that has a free chunk. -/
def Pool.newPage (g : Statics) (fuel : Nat) (s : Pool) (slot shift : Nat) :
    Exec (Pool × Option Nat) := do
  match ← s.allocPages fuel 1 with
  | (s, none) => pure (s.setStat slot fun t ↦ { t with fails := t.fails + 1 }, none)
  | (s, some i) => do
    let (s, c, total) ← s.newChunks g i slot shift
    let s ← s.store (some (.slot slot)) fun p ↦ { p with next := some (.page i) }
    let s := s.setStat slot fun t ↦ { t with total := t.total + BitVec.ofNat 32 total }
    pure (s.count slot, some (s.pageAddr g i + c <<< shift))

/-- The part of `dl_slab_alloc_locked` for the first page of a slot. -/
def Pool.firstPage (g : Statics) (fuel : Nat) (s : Pool) (i slot shift : Nat) :
    Exec (Pool × Option Nat) :=
  match s.takeChunk g i shift with
  | none => s.newPage g fuel slot shift
  | some (s, c, full) => do
    let s ← (s.count slot).unlinkFull i (typeOf g shift) full
    pure (s, some (s.pageAddr g i + c <<< shift))

/-- `dl_slab_alloc`. -/
def Pool.alloc (g : Statics) (fuel : Nat) (s : Pool) (size : Nat) : Exec (Pool × Option Nat) :=
  if g.maxSize < size then do
    let n := (size >>> g.pagesizeShift) + if size % g.pagesize ≠ 0 then 1 else 0
    let (s, page) ← s.allocPages fuel (n % 2 ^ 32)
    pure (s, page.map (s.pageAddr g))
  else do
    let (slot, shift) := s.slotOf size
    let s := s.setStat slot fun t ↦ { t with reqs := t.reqs + 1 }
    let head ← s.load (some (.slot slot))
    let page ← s.load head.next
    if page.next ≠ head.next then
      match head.next with
      | some (.page i) => s.firstPage g fuel i slot shift
      | _ => Exec.undef
    else
      s.newPage g fuel slot shift

/-- A full page comes first in the list of its slot again. -/
def Pool.relink (s : Pool) (i slot : Nat) (type : PageType) : Exec Pool := do
  let head ← s.load (some (.slot slot))
  let s ← s.store (some (.page i))
    fun p ↦ { p with next := head.next, prev := some (.slot slot), type }
  let s ← s.store (some (.slot slot)) fun p ↦ { p with next := some (.page i) }
  s.store head.next fun p ↦ { p with prev := some (.page i), type }

/-- A page is linked again if it has not been in the list of its slot. -/
def Pool.relinkIf (s : Pool) (i slot : Nat) (type : PageType) (full : Bool) : Exec Pool :=
  if full then s.relink i slot type else .ok s

/-- A chunk is no longer counted. -/
def Pool.uncount (s : Pool) (slot : Nat) : Pool :=
  s.setStat slot fun t ↦ { t with used := t.used - 1 }

/-- The end of the branches of `dl_slab_free_locked` for chunks: a page without chunks is freed. -/
def Pool.releaseIf (s : Pool) (i slot total : Nat) (empty : Bool) : Exec Pool :=
  if empty then do
    let s ← s.freePages i 1
    pure (s.setStat slot fun t ↦
      { t with total := t.total - BitVec.ofNat 32 total, used := t.used - 1 })
  else .ok (s.uncount slot)

/-- The branch of `dl_slab_free_locked` for small chunks. -/
def Pool.freeSmall (g : Statics) (s : Pool) (i p : Nat) (page : Page) : Exec Pool :=
  let shift := (page.slab &&& shiftMask).toNat
  if p % 2 ^ shift ≠ 0 then
    .ok s
  else
    let c := p % g.pagesize / 2 ^ shift
    let bitmap := p - p % g.pagesize
    let a := bitmap + 8 * (c / 64)
    if s.words a &&& BitVec.twoPow 64 (c % 64) ≠ 0 then do
      let slot := shift - s.minShift
      let s ← s.relinkIf i slot .small (page.next = none)
      let s := s.setWord a (s.words a &&& ~~~BitVec.twoPow 64 (c % 64))
      let n := mapChunks g shift
      s.releaseIf i slot ((g.pagesize >>> shift) - n)
        (s.words bitmap &&& ~~~(BitVec.twoPow 64 n - 1) = 0 &&
          s.allWords 0 bitmap 1 (mapWords g shift - 1))
    else
      .ok s

/-- The branch of `dl_slab_free_locked` for chunks of the exact size. -/
def Pool.freeExact (g : Statics) (s : Pool) (i p : Nat) (page : Page) : Exec Pool :=
  let m := BitVec.twoPow 64 ((p % g.pagesize) >>> g.exactShift)
  if p % g.exactSize ≠ 0 then
    .ok s
  else if page.slab &&& m ≠ 0 then do
    let slot := g.exactShift - s.minShift
    let s ← s.relinkIf i slot .exact (page.slab = busy)
    let s ← s.store (some (.page i)) fun p ↦ { p with slab := p.slab &&& ~~~m }
    s.releaseIf i slot 64 (page.slab &&& ~~~m = 0)
  else
    .ok s

/-- The branch of `dl_slab_free_locked` for big chunks. -/
def Pool.freeBig (g : Statics) (s : Pool) (i p : Nat) (page : Page) : Exec Pool :=
  let shift := (page.slab &&& shiftMask).toNat
  let m := BitVec.twoPow 64 (p % g.pagesize / 2 ^ shift + 32)
  if p % 2 ^ shift ≠ 0 then
    .ok s
  else if page.slab &&& m ≠ 0 then do
    let slot := shift - s.minShift
    let s ← s.relinkIf i slot .big (page.next = none)
    let s ← s.store (some (.page i)) fun p ↦ { p with slab := p.slab &&& ~~~m }
    s.releaseIf i slot (g.pagesize >>> shift) (page.slab &&& ~~~m &&& mapMask = 0)
  else
    .ok s

/-- The branch of `dl_slab_free_locked` for pages. -/
def Pool.freeRun (g : Statics) (s : Pool) (i p : Nat) (page : Page) : Exec Pool :=
  if p % g.pagesize ≠ 0 ∨ page.slab &&& pageStart = 0 ∨ page.slab = busy then
    .ok s
  else
    s.freePages i ((page.slab &&& ~~~pageStart).toNat % 2 ^ 32)

/-- `dl_slab_free`. -/
def Pool.free (g : Statics) (s : Pool) (p : Nat) : Exec Pool :=
  if p < s.start ∨ s.end < p then
    .ok s
  else do
    let i := (p - s.start) >>> g.pagesizeShift
    let page ← s.load (some (.page i))
    match page.type with
    | .small => s.freeSmall g i p page
    | .exact => s.freeExact g i p page
    | .big => s.freeBig g i p page
    | .page => s.freeRun g i p page

end Dlbase.Slab
