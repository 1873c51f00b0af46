import Dlbase.Lib.Circle
import Dlbase.Slab.Tiling

/-!
# The shape of a pool

What the descriptors, the bitmaps and the lists of a pool say about the parts that its pages are
divided into, after one initialisation and between any two calls.  No two free runs are next to
each other.
-/

namespace Dlbase.Slab

open Cmem

/-- The variables of the file after one initialisation. -/
def once : Statics := ⟨2048, 64, 6, 4096, 12⟩

/-- The links to the next nodes. -/
def Pool.next (s : Pool) (r : Ref) : Option Ref := (s.node r).next

/-- The links back. -/
def Pool.prev (s : Pool) (r : Ref) : Option Ref := (s.node r).prev

/-- The bit of a chunk is set. -/
def Pool.Marked (s : Pool) (i shift c : Nat) : Prop :=
  if shift < 6 then (s.words (s.start + 4096 * i + 8 * (c / 64))).getLsbD (c % 64)
  else if shift = 6 then (s.node (.page i)).slab.getLsbD c
  else (s.node (.page i)).slab.getLsbD (c + 32)

/-- The `slab` of a page of chunks, but for the bits of the chunks. -/
def SlabOk (shift : Nat) (slab : Word) : Prop :=
  (shift < 6 → slab = BitVec.ofNat 64 shift) ∧
    (6 < shift → slab &&& shiftMask = BitVec.ofNat 64 shift ∧
      ∀ j, chunkCount shift + 32 ≤ j → slab.getLsbD j = false)

/-- The descriptor of a page of chunks and its bitmap. -/
structure ChunksOk (s : Pool) (i shift : Nat) (cs : List Nat) : Prop where
  /-- There is a slot for the chunks. -/
  shift_ge : 3 ≤ shift
  /-- There is a slot for the chunks. -/
  shift_le : shift ≤ 11
  /-- The tag. -/
  type : (s.node (.page i)).type = typeOf once shift
  /-- The descriptor. -/
  slab : SlabOk shift (s.node (.page i)).slab
  /-- The bitmap. -/
  marked : ∀ c, c < chunkCount shift → (s.Marked i shift c ↔ c < reserved shift ∨ c ∈ cs)
  /-- Each chunk is allocated once. -/
  nodup : cs.Nodup
  /-- A chunk is allocated. -/
  ne_nil : cs ≠ []
  /-- The chunks are in the page, behind the bitmap. -/
  range : ∀ c ∈ cs, reserved shift ≤ c ∧ c < chunkCount shift
  /-- The page is not in a list if it is full. -/
  next : (s.node (.page i)).next = none ↔ Full shift cs

/-- The pages of a run but the first one, if the run is free. -/
def Blank (s : Pool) (i n : Nat) : Prop :=
  ∀ j, i < j → j < i + n → (s.node (.page j)).slab = 0 ∧ (s.node (.page j)).next = none ∧
    (s.node (.page j)).type = .page

/-- The descriptors of a part. -/
def SegOk (s : Pool) (i : Nat) : Seg → Prop
  | .free n => (s.node (.page i)).slab = BitVec.ofNat 64 n ∧ (s.node (.page i)).type = .page ∧
      (s.node (.page i)).next ≠ none ∧ Blank s i n ∧ (0 < n ∨ s.pages = 0) ∧
      (1 < n → i + n < s.pages → (s.node (.page (i + n - 1))).prev = some (.page i))
  | .alloc n => 0 < n ∧ (s.node (.page i)).slab = BitVec.ofNat 64 n ||| pageStart ∧
      (s.node (.page i)).next = none ∧ (s.node (.page i)).type = .page ∧
      ∀ j, i < j → j < i + n → (s.node (.page j)).slab = busy ∧ (s.node (.page j)).next = none ∧
        (s.node (.page j)).type = .page
  | .chunks shift cs => ChunksOk s i shift cs

/-- No two free runs are next to each other. -/
def Separated (T : List Seg) : Prop := T.IsChain fun a b ↦ ¬ (a.IsFree ∧ b.IsFree)

/-- The descriptors of some parts. -/
def SegsOk (s : Pool) (i : Nat) (T : List Seg) : Prop := ∀ e ∈ placed i T, SegOk s e.1 e.2

/-- The descriptors behind the last page. -/
def Spare (s : Pool) : Prop :=
  ∀ j, s.pages ≤ j → (s.node (.page j)).slab = 0 ∧ (s.node (.page j)).type = .page

/-- The layout of the region, which no call changes. -/
structure Base (s : Pool) : Prop where
  /-- The smallest chunks have 8 bytes. -/
  minSize : s.minSize = 8
  /-- The smallest chunks have 8 bytes. -/
  minShift : s.minShift = 3
  /-- There are nine slots. -/
  slots : s.slots = 9
  /-- The pages have descriptors. -/
  pages_le : s.pages ≤ s.descs
  /-- There are descriptors. -/
  descs_pos : 0 < s.descs
  /-- The number of pages is a `uint`. -/
  pages_lt : s.pages < 2 ^ 32
  /-- The pages are aligned. -/
  dvd : 4096 ∣ s.start
  /-- The pages are inside of the region. -/
  end_le : s.start + 4096 * s.pages ≤ s.end ∨ s.pages = 0

/-- The heads of the lists. -/
def Ref.IsHead : Ref → Prop
  | .free => True
  | .slot k => k < 9
  | .page _ => False

/-- The type of the pages in the list with the head `h`. -/
def Ref.listType : Ref → PageType
  | .slot k => typeOf once (k + 3)
  | _ => .page

/-- The pool is divided into the parts `T`. -/
structure Shape (s : Pool) (T : List Seg) : Prop where
  /-- The layout. -/
  base : Base s
  /-- The parts are all pages. -/
  length : total T = s.pages
  /-- The descriptors. -/
  segs : SegsOk s 0 T
  /-- Free runs have been joined. -/
  separated : Separated T
  /-- The lists. -/
  lists : ∀ h : Ref, h.IsHead → ∃ l, Circle s.next s.prev h l ∧ l.Perm (members h 0 T)
  /-- The free pages are counted. -/
  pfree : s.pfree = BitVec.ofNat 32 (freeTotal T)
  /-- The descriptors that are not used. -/
  spare : Spare s

/-- Two states of one pool: the layout is the same. -/
structure Same (s s' : Pool) : Prop where
  /-- `min_size`. -/
  minSize : s'.minSize = s.minSize
  /-- `min_shift`. -/
  minShift : s'.minShift = s.minShift
  /-- The number of slots. -/
  slots : s'.slots = s.slots
  /-- The room for descriptors. -/
  descs : s'.descs = s.descs
  /-- The number of pages. -/
  pages : s'.pages = s.pages
  /-- `start`. -/
  start : s'.start = s.start
  /-- `end`. -/
  «end» : s'.end = s.end

variable {s s' : Pool} {i j n k : Nat} {T A B : List Seg} {seg : Seg} {e : Nat × Seg} {r h : Ref}
  {l : List Ref}

/-! ## The layout -/

namespace Same

theorem refl (s : Pool) : Same s s := ⟨rfl, rfl, rfl, rfl, rfl, rfl, rfl⟩

theorem trans {s'' : Pool} (h : Same s s') (h' : Same s' s'') : Same s s'' :=
  ⟨h'.minSize.trans h.minSize, h'.minShift.trans h.minShift, h'.slots.trans h.slots,
    h'.descs.trans h.descs, h'.pages.trans h.pages, h'.start.trans h.start, h'.end.trans h.end⟩

theorem has (h : Same s s') (r : Ref) : s'.Has r = s.Has r := by
  cases r with
  | free => rfl
  | slot i => rw [Pool.Has, Pool.Has, h.slots]
  | page i => rw [Pool.Has, Pool.Has, h.descs]

theorem base (h : Same s s') (hb : Base s) : Base s' where
  minSize := h.minSize.trans hb.minSize
  minShift := h.minShift.trans hb.minShift
  slots := h.slots.trans hb.slots
  pages_le := by
    rw [h.pages, h.descs]
    exact hb.pages_le
  descs_pos := by
    rw [h.descs]
    exact hb.descs_pos
  pages_lt := by
    rw [h.pages]
    exact hb.pages_lt
  dvd := by
    rw [h.start]
    exact hb.dvd
  end_le := by
    rw [h.start, h.pages, h.end]
    exact hb.end_le

theorem put (s : Pool) (r : Ref) (f : Page → Page) : Same s (s.put r f) :=
  ⟨rfl, rfl, rfl, rfl, rfl, rfl, rfl⟩

end Same

/-! ## Reading and writing -/

theorem load_eq (h : s.Has r) : s.load (some r) = .ok (s.node r) := if_pos h

theorem store_eq (h : s.Has r) (f : Page → Page) : s.store (some r) f = .ok (s.put r f) := if_pos h

@[simp] theorem has_put (r q : Ref) (f : Page → Page) : (s.put r f).Has q = s.Has q := by
  cases q <;> rfl

@[simp] theorem node_put_self (r : Ref) (f : Page → Page) : (s.put r f).node r = f (s.node r) :=
  Function.update_self _ _ _

theorem node_put_of_ne {q : Ref} (h : q ≠ r) (f : Page → Page) : (s.put r f).node q = s.node q :=
  Function.update_of_ne h _ _

theorem next_put (f : Page → Page) :
    (s.put r f).next = Function.update s.next r (f (s.node r)).next := by
  funext q
  by_cases hq : q = r
  · subst hq
    rw [Pool.next, node_put_self, Function.update_self]
  · rw [Pool.next, node_put_of_ne hq, Function.update_of_ne hq, Pool.next]

theorem prev_put (f : Page → Page) :
    (s.put r f).prev = Function.update s.prev r (f (s.node r)).prev := by
  funext q
  by_cases hq : q = r
  · subst hq
    rw [Pool.prev, node_put_self, Function.update_self]
  · rw [Pool.prev, node_put_of_ne hq, Function.update_of_ne hq, Pool.prev]

/-! ## What does not change -/

/-- The descriptor says the same: only the links of a list may differ. -/
def Alike (p p' : Page) : Prop :=
  p'.slab = p.slab ∧ p'.type = p.type ∧ (p'.next = none ↔ p.next = none) ∧
    (p.next = none → p'.prev = p.prev)

theorem Alike.refl (p : Page) : Alike p p := ⟨rfl, rfl, Iff.rfl, fun _ ↦ rfl⟩

/-- The pages of a part and their words are as before. -/
def SameAt (s s' : Pool) (i n : Nat) : Prop :=
  ∀ j, i ≤ j → j < i + n → Alike (s.node (.page j)) (s'.node (.page j)) ∧
    ∀ a, s.start + 4096 * j ≤ a → a < s.start + 4096 * (j + 1) → s'.words a = s.words a

theorem chunkCount_le {shift : Nat} (h : 3 ≤ shift) : chunkCount shift ≤ 512 := by
  rw [chunkCount, Nat.shiftRight_eq_div_pow]
  have hpow : 2 ^ 3 ≤ 2 ^ shift := Nat.pow_le_pow_right (by decide) h
  calc 4096 / 2 ^ shift ≤ 4096 / 2 ^ 3 := Nat.div_le_div_left hpow (by decide)
    _ = 512 := rfl

theorem ChunksOk.congr {shift : Nat} {cs : List Nat} (h : ChunksOk s i shift cs)
    (hstart : s'.start = s.start) (hsame : SameAt s s' i 1) : ChunksOk s' i shift cs := by
  obtain ⟨⟨hslab, htype, hnext, -⟩, hwords⟩ := hsame i (Nat.le_refl i) (Nat.lt_succ_self i)
  refine ⟨h.shift_ge, h.shift_le, htype.trans h.type, hslab ▸ h.slab, fun c hc ↦ ?_, h.nodup,
    h.ne_nil, h.range, hnext.trans h.next⟩
  have hc' := Nat.lt_of_lt_of_le hc (chunkCount_le h.shift_ge)
  have hword : s'.words (s.start + 4096 * i + 8 * (c / 64)) =
      s.words (s.start + 4096 * i + 8 * (c / 64)) := hwords _ (by omega) (by omega)
  rw [← h.marked c hc, Pool.Marked, Pool.Marked, hslab, hstart, hword]

theorem Blank.congr (h : Blank s i n) (hsame : SameAt s s' i n) : Blank s' i n := by
  intro j hi hj
  obtain ⟨⟨hslab, htype, hnext, -⟩, -⟩ := hsame j (Nat.le_of_lt hi) hj
  obtain ⟨hs, hn, ht⟩ := h j hi hj
  exact ⟨hslab.trans hs, hnext.mpr hn, htype.trans ht⟩

theorem Spare.congr (h : Spare s) (hpages : s'.pages = s.pages)
    (hsame : ∀ j, s.pages ≤ j → Alike (s.node (.page j)) (s'.node (.page j))) : Spare s' := by
  intro j hj
  rw [hpages] at hj
  exact ⟨(hsame j hj).1.trans (h j hj).1, (hsame j hj).2.1.trans (h j hj).2⟩

theorem SegOk.congr (h : SegOk s i seg) (hstart : s'.start = s.start) (hpages : s'.pages = s.pages)
    (hpos : 0 < seg.len) (hsame : SameAt s s' i seg.len) : SegOk s' i seg := by
  cases seg with
  | chunks shift cs => exact ChunksOk.congr h hstart hsame
  | alloc n =>
    obtain ⟨hn, hs, hnone, ht, hrest⟩ := h
    obtain ⟨⟨hslab, htype, hnext, -⟩, -⟩ := hsame i (Nat.le_refl i) (by omega)
    refine ⟨hn, hslab.trans hs, hnext.mpr hnone, htype.trans ht, fun j hi hj ↦ ?_⟩
    obtain ⟨⟨hslab, htype, hnext, -⟩, -⟩ := hsame j (Nat.le_of_lt hi) hj
    obtain ⟨hs, hn, ht⟩ := hrest j hi hj
    exact ⟨hslab.trans hs, hnext.mpr hn, htype.trans ht⟩
  | free n =>
    change 0 < n at hpos
    obtain ⟨hs, ht, hne, hblank, hn, hback⟩ := h
    obtain ⟨⟨hslab, htype, hnext, -⟩, -⟩ := hsame i (Nat.le_refl i)
      (Nat.lt_add_of_pos_right hpos)
    refine ⟨hslab.trans hs, htype.trans ht, mt hnext.mp hne, hblank.congr hsame, .inl hpos,
      fun hlt hend ↦ ?_⟩
    obtain ⟨⟨-, -, -, hprev⟩, -⟩ := hsame (i + n - 1) (by omega) (by change _ < i + n; omega)
    rw [hpages] at hend
    rw [hprev (hblank (i + n - 1) (by omega) (by omega)).2.1, hback hlt hend]

end Dlbase.Slab
