import Dlbase.Slab.Places
import Dlbase.Slab.Regions

/-!
# Runs of a pool

A region is initialised, and the process allocates from its pool, writes to what it has been given
and gives it back.  The pool keeps its shape in every such run, and what is allocated in its pages
is what the process has.
-/

namespace Dlbase.Slab

open Cmem

/-- The number of pages of a request is a `uint`. -/
def Fits (size : Nat) : Prop := (size + 4095) / 4096 < 2 ^ 32

/-- A step of a process that has the ranges `U` of a pool. -/
inductive Step (g : Statics) (s : Pool) (U : List Range) : Pool → List Range → Prop where
  /-- `dl_slab_alloc` is called. -/
  | alloc {s' : Pool} {size : Nat} {o : Option Nat} :
      Fits size → Returns (fun fuel ↦ s.alloc g fuel size) (s', o) →
      Step g s U s' (o.toList.map (⟨·, size⟩) ++ U)
  /-- `dl_slab_free` is called. -/
  | free {s' : Pool} {t : Range} : t ∈ U → s.free g t.base = .ok s' → Step g s U s' (U.erase t)
  /-- The process writes to what it has been given: other words stay as they are. -/
  | write {words : Nat → Word} :
      (∀ a, (∀ t ∈ U, t.Disjoint ⟨a, 8⟩) → words a = s.words a) → Step g s U { s with words } U

/-- The states of the pool of a region, with the ranges that the process has been given and has not
given back. -/
inductive Run (r : Region) : Statics → Pool → List Range → Prop where
  /-- The pool is set up. -/
  | init {g : Statics} {s : Pool} :
      shmSlabInit .zero r.addr r.size r.words = .ok (g, s) → Run r g s []
  /-- The process takes a step. -/
  | step {g : Statics} {s s' : Pool} {U U' : List Range} :
      Run r g s U → Step g s U s' U' → Run r g s' U'

/-- The bytes of the bitmap in the page `i`, if it is a page of small chunks. -/
def Pool.bitmap (g : Statics) (s : Pool) (i : Nat) : Range :=
  ⟨s.pageAddr g i, 8 * mapWords g ((s.node (.page i)).slab &&& shiftMask).toNat⟩

/-- What the process has is in the pages, apart from what else it has and from the bitmaps. -/
structure Safe (g : Statics) (s : Pool) (U : List Range) : Prop where
  /-- The ranges are in the pages. -/
  within : ∀ t ∈ U, t.Within ⟨s.start, s.pages * g.pagesize⟩
  /-- They do not overlap. -/
  apart : U.Pairwise Range.Disjoint
  /-- They have different addresses. -/
  nodup : (U.map Range.base).Nodup
  /-- They do not overlap the bitmap in a page. -/
  bitmap : ∀ t ∈ U, ∀ i, i < s.pages → (s.node (.page i)).type = .small →
    t.Disjoint (s.bitmap g i)

variable {r : Region} {g : Statics} {s s' : Pool} {U : List Range} {T : List Seg} {t : Range}
  {i j k n size shift : Nat} {o : Option Nat} {words : Nat → Word} {cs : List Nat}

/-! ## What the process has is what is allocated -/

/-- What is allocated for a range that the process has. -/
def given (t : Range) : Nat × Piece := (t.base, pieceOf t.size)

/-- What holds between two calls. -/
structure Holds (s : Pool) (U : List Range) (T : List Seg) : Prop where
  /-- The pool is divided into the parts `T`. -/
  shape : Shape s T
  /-- What the process has is what is allocated. -/
  pieces : (U.map given).Perm (pieces s.start 0 T)
  /-- The chunks are counted. -/
  used : ∀ k, (s.stats k).used =
    BitVec.ofNat 32 (U.countP fun t ↦ pieceOf t.size = .chunk (k + 3))
  /-- There is a part, even if there are no pages. -/
  ne_nil : T ≠ []

theorem extent_given (t : Range) : t.Within (extent (given t)) :=
  ⟨Nat.le_refl _, Nat.add_le_add_left (le_bytes_pieceOf t.size) _⟩

/-- A request that fits. -/
theorem Fits.lt (h : Fits size) (hn : pieceOf size = .pages n) : n < 2 ^ 32 := by
  rw [Fits] at h
  rw [pieceOf, Nat.shiftRight_eq_div_pow] at hn
  split_ifs at hn with hbig hmod
  · rw [← Piece.pages.inj hn]
    omega
  · rw [← Piece.pages.inj hn]
    omega

/-- Even an empty range is given some bytes. -/
theorem bytes_pos (size : Nat) : 0 < (pieceOf size).bytes := by
  rcases Nat.eq_zero_or_pos size with rfl | hpos
  · decide
  · exact Nat.lt_of_lt_of_le hpos (le_bytes_pieceOf size)

theorem Holds.mem (h : Holds s U T) (ht : t ∈ U) : given t ∈ Slab.pieces s.start 0 T :=
  h.pieces.mem_iff.mp (List.mem_map_of_mem ht)

/-! ## The steps -/

theorem holds_init (h : shmSlabInit .zero r.addr r.size r.words = .ok (g, s)) :
    Holds s [] [.free s.pages] := by
  refine ⟨shape_init h, .refl _, fun k ↦ ?_, List.cons_ne_nil _ _⟩
  obtain ⟨-, p, pages, start, last, -, -, -, -, -, -, -, rfl⟩ := shmSlabInit_zero h
  rfl

/-- `dl_slab_alloc` returns. -/
theorem Holds.alloc (h : Holds s U T) (hfits : Fits size) :
    ∃ s' o, Returns (fun fuel ↦ s.alloc once fuel size) (s', o) ∧
      (∃ T', Holds s' (o.toList.map (⟨·, size⟩) ++ U) T') ∧ Same s s' ∧
      (o = none → NoRoom T (pieceOf size)) := by
  obtain ⟨s', o, hrun, hA⟩ := alloc_spec h.shape fun n (hn : pieceOf size = .pages n) ↦ hfits.lt hn
  refine ⟨s', o, hrun, ?_⟩
  cases hA with
  | fail hroom hshape hsame hused =>
    refine ⟨⟨T, hshape, ?_, fun k ↦ (hused k).trans (h.used k), h.ne_nil⟩, hsame, fun _ ↦ hroom⟩
    rw [hsame.start]
    exact h.pieces
  | @ok T' p hshape hsame hpieces hused =>
    refine ⟨⟨T', hshape, ?_, fun k ↦ ?_, ?_⟩, hsame, nofun⟩
    · rw [hsame.start]
      exact (h.pieces.cons _).trans hpieces.symm
    · change _ = BitVec.ofNat 32 ((⟨p, size⟩ :: U).countP _)
      rw [hused, h.used, List.countP_cons, BitVec.ofNat_add]
      by_cases hk : pieceOf size = .chunk (k + 3)
      · rw [if_pos hk, if_pos (decide_eq_true hk)]
        rfl
      · rw [if_neg hk, if_neg fun hd ↦ hk (of_decide_eq_true hd)]
        rfl
    · rintro rfl
      exact List.cons_ne_nil _ _ hpieces.symm.eq_nil

/-- `dl_slab_free` returns. -/
theorem Holds.free (h : Holds s U T) (ht : t ∈ U) :
    ∃ s', s.free once t.base = .ok s' ∧ (∃ T', Holds s' (U.erase t) T') ∧ Same s s' := by
  obtain ⟨s', T', hs', hfreed⟩ := free_spec h.shape (h.mem ht)
  have hperm := List.perm_cons_erase ht
  refine ⟨s', hs', ⟨T', hfreed.shape, ?_, fun k ↦ ?_, ?_⟩, hfreed.layout⟩
  · rw [hfreed.layout.start]
    exact (((hperm.map given).symm.trans h.pieces).trans hfreed.pieces).cons_inv
  · rw [hfreed.used, h.used, hperm.countP_eq, List.countP_cons, BitVec.ofNat_add]
    change _ + _ - (if pieceOf t.size = .chunk (k + 3) then 1 else 0) = _
    by_cases hk : pieceOf t.size = .chunk (k + 3)
    · rw [if_pos hk, if_pos (decide_eq_true hk)]
      exact BitVec.add_sub_cancel _ _
    · rw [if_neg hk, if_neg fun hd ↦ hk (of_decide_eq_true hd)]
      exact (BitVec.sub_zero _).trans (BitVec.add_zero _)
  · rintro rfl
    obtain ⟨hlo, hhi⟩ := h.shape.within (h.mem ht)
    have hzero : 0 = s.pages := hfreed.shape.length.trans hfreed.layout.pages
    have hpos := bytes_pos t.size
    change s.start ≤ t.base at hlo
    change t.base + (pieceOf t.size).bytes ≤ s.start + 4096 * s.pages at hhi
    omega

/-- Only the words of the bitmaps matter. -/
theorem Shape.write (hs : Shape s T) (hw : ∀ a ∈ placed 0 T, ∀ b, s.start + 4096 * a.1 ≤ b →
    b + 8 ≤ s.start + 4096 * a.1 + a.2.front → words b = s.words b) :
    Shape { s with words } T := by
  refine ⟨⟨hs.base.minSize, hs.base.minShift, hs.base.slots, hs.base.pages_le, hs.base.descs_pos,
    hs.base.pages_lt, hs.base.dvd, hs.base.end_le⟩, hs.length, fun a ha ↦ ?_, hs.separated,
    hs.lists, hs.pfree, hs.spare⟩
  have hok := hs.segs a ha
  obtain ⟨i, seg⟩ := a
  cases seg with
  | free n => exact hok
  | alloc n => exact hok
  | chunks shift cs =>
    have hok : ChunksOk s i shift cs := hok
    refine ⟨hok.shift_ge, hok.shift_le, hok.type, hok.slab, fun c hc ↦ ?_, hok.nodup, hok.ne_nil,
      hok.range, hok.next⟩
    rw [← hok.marked c hc]
    by_cases hlt : shift < 6
    · obtain ⟨-, hcount, -, -, -, -, -, hle⟩ := small_facts hok.shift_ge hlt
      rw [marked_small hlt, marked_small hlt]
      change (words (s.start + 4096 * i + 8 * (c / 64))).getLsbD (c % 64) ↔ _
      rw [hw _ ha _ (Nat.le_add_right _ _)]
      change _ ≤ s.start + 4096 * i + reserved shift * 2 ^ shift
      omega
    · rw [Pool.Marked, Pool.Marked, if_neg hlt, if_neg hlt]

/-- The process writes to what it has been given. -/
theorem Holds.write (h : Holds s U T)
    (hw : ∀ a, (∀ t ∈ U, t.Disjoint ⟨a, 8⟩) → words a = s.words a) :
    Holds { s with words } U T := by
  refine ⟨h.shape.write fun a ha b hlo hhi ↦ hw b fun t ht ↦ ?_, h.pieces, h.used, h.ne_nil⟩
  have hdis := (h.shape.apart_front (h.mem ht) ha).within (extent_given t)
  exact (hdis.symm.within ⟨hlo, hhi⟩).symm

/-! ## The runs -/

/-- Every step keeps the invariant. -/
theorem Holds.step {U' : List Range} (h : Holds s U T) (hstep : Step once s U s' U') :
    ∃ T', Holds s' U' T' := by
  cases hstep with
  | alloc hfits hrun =>
    obtain ⟨s₁, o, hrun', hT', -⟩ := h.alloc hfits
    obtain ⟨rfl, rfl⟩ := Prod.mk.inj (hrun.unique hrun')
    exact hT'
  | free ht hs =>
    obtain ⟨s₁, hs', hT', -⟩ := h.free ht
    obtain rfl := Except.ok.inj (hs.symm.trans hs')
    exact hT'
  | write hw => exact ⟨T, h.write hw⟩

/-- What holds in every run. -/
theorem Run.holds (h : Run r g s U) : g = once ∧ ∃ T, Holds s U T := by
  induction h with
  | init hs => exact ⟨(shmSlabInit_zero hs).1, _, holds_init hs⟩
  | step _ hstep ih =>
    obtain ⟨rfl, T, hT⟩ := ih
    exact ⟨rfl, hT.step hstep⟩

/-- The chunks of a page that has the type for small ones are small. -/
theorem lt_of_typeOf (h : typeOf once shift = .small) : shift < 6 := by
  by_contra hge
  have hge : ¬ shift < once.exactShift := hge
  rw [typeOf, if_neg hge] at h
  split_ifs at h

/-- The bitmap of a page of small chunks is in front of its chunks. -/
theorem Shape.bitmap_within (hs : Shape s T) (hi : i < s.pages)
    (ht : (s.node (.page i)).type = .small) :
    ∃ a ∈ placed 0 T, (s.bitmap once i).Within ⟨s.start + 4096 * a.1, a.2.front⟩ := by
  cases hs.desc hi with
  | free _ _ htype => cases htype.symm.trans ht
  | first ha =>
    obtain ⟨-, -, -, htype, -⟩ : SegOk s i (.alloc _) := hs.segs _ ha
    cases htype.symm.trans ht
  | busy _ _ htype => cases htype.symm.trans ht
  | @chunks shift cs ha =>
    have hok : ChunksOk s i shift cs := hs.segs _ ha
    have hlt := lt_of_typeOf (hok.type.symm.trans ht)
    obtain ⟨-, -, -, -, -, -, -, hle⟩ := small_facts hok.shift_ge hlt
    refine ⟨_, ha, ?_⟩
    rw [Pool.bitmap, pageAddr_once, toNat_and_shiftMask hok.slab hok.shift_ge hok.shift_le (by omega)]
    exact ⟨Nat.le_refl _, Nat.add_le_add_left hle _⟩

/-- What is allocated for one range is apart from what is allocated for another one. -/
theorem Holds.extents_apart (h : Holds s U T) :
    U.Pairwise fun t t' ↦ (extent (given t)).Disjoint (extent (given t')) := by
  have hpw : (U.map given).Pairwise fun e e' ↦ (extent e).Disjoint (extent e') :=
    (h.pieces.pairwise_iff fun hd ↦ hd.symm).mpr h.shape.apart
  rw [List.pairwise_map] at hpw
  exact hpw

theorem Holds.safe (h : Holds s U T) : Safe once s U where
  within t ht := by
    rw [Nat.mul_comm]
    exact (extent_given t).trans (h.shape.within (h.mem ht))
  apart := h.extents_apart.imp fun hd ↦
    ((hd.within (extent_given _)).symm.within (extent_given _)).symm
  nodup := List.pairwise_map.mpr (h.extents_apart.imp fun {t t'} hd heq ↦ by
    have hpos := bytes_pos t.size
    have hpos' := bytes_pos t'.size
    have hd : (pieceOf t.size).bytes = 0 ∨ (pieceOf t'.size).bytes = 0 ∨
      t.base + (pieceOf t.size).bytes ≤ t'.base ∨ t'.base + (pieceOf t'.size).bytes ≤ t.base := hd
    omega)
  bitmap t ht i hi htype := by
    obtain ⟨a, ha, hin⟩ := h.shape.bitmap_within hi htype
    have hdis := (h.shape.apart_front (h.mem ht) ha).within (extent_given t)
    exact (hdis.symm.within hin).symm

/-- The chunks that a full page of the first slot has. -/
theorem le_length_of_full (h : Full 3 cs) : 504 ≤ cs.length := by
  have hsub : List.range' 8 504 ⊆ cs := fun c hc ↦ by
    obtain ⟨hge, hlt⟩ := List.mem_range'_1.mp hc
    exact h c hge hlt
  calc 504 = (List.range' 8 504).length := List.length_range'.symm
    _ ≤ cs.length := (List.Nodup.subperm (List.nodup_range' 1) hsub).length_le

/-- As long as the pages are not full there is a chunk for a request of eight bytes. -/
theorem Holds.length_le (h : Holds s U T) (hU : ∀ t ∈ U, t.size = 8) (hp : s.pages ≠ 0)
    (hroom : NoRoom T (.chunk 3)) : 504 * s.pages ≤ U.length := by
  have hpiece : ∀ e ∈ Slab.pieces s.start 0 T, e.2 = .chunk 3 := fun e he ↦ by
    obtain ⟨t, ht, rfl⟩ := List.mem_map.mp (h.pieces.mem_iff.mpr he)
    change pieceOf t.size = _
    rw [hU t ht]
    decide
  have hpart : ∀ e ∈ placed 0 T, e.2.len = 1 ∧ 504 ≤ (piecesOf s.start e).length := fun e he ↦ by
    have hpos := h.shape.segs.pos hp e he
    have hok := h.shape.segs e he
    obtain ⟨i, seg⟩ := e
    cases seg with
    | free n => exact absurd (hroom.2 i n he) (Nat.not_lt.mpr hpos)
    | alloc n => cases hpiece _ (mem_pieces.mpr ⟨_, he, List.mem_cons_self⟩)
    | chunks shift cs =>
      obtain ⟨c, hc⟩ := List.exists_mem_of_ne_nil _ (ChunksOk.ne_nil hok)
      have heq := hpiece _ (mem_pieces.mpr ⟨_, he, List.mem_map_of_mem hc⟩)
      obtain rfl := Piece.chunk.inj heq
      have hfull : Full 3 cs := by
        by_contra hnot
        have hm : Ref.page i ∈ members (.slot (3 - 3)) 0 T :=
          mem_members.mpr ⟨_, he, if_neg hnot, rfl⟩
        rw [hroom.1] at hm
        cases hm
      refine ⟨rfl, ?_⟩
      rw [piecesOf, List.length_map]
      exact le_length_of_full hfull
  have hsum : ∀ {T' : List Seg} {i : Nat}, (∀ e ∈ placed i T', e.2.len = 1 ∧
      504 ≤ (piecesOf s.start e).length) → 504 * total T' ≤ (Slab.pieces s.start i T').length := by
    intro T'
    induction T' with
    | nil => exact fun _ ↦ Nat.le_refl _
    | cons seg T' ih =>
      intro i hT'
      obtain ⟨hlen, hle⟩ := hT' _ List.mem_cons_self
      have htail := ih (i := i + seg.len) fun e he ↦ hT' e (List.mem_cons_of_mem _ he)
      have hcons : Slab.pieces s.start i (seg :: T') =
        piecesOf s.start (i, seg) ++ Slab.pieces s.start (i + seg.len) T' := rfl
      rw [total_cons, hcons, List.length_append]
      dsimp only at hlen
      omega
  rw [← h.shape.length, ← List.length_map given, h.pieces.length_eq]
  exact hsum hpart

/-- Any number of chunks that there is room for can be allocated. -/
theorem exists_run_eights (h : shmSlabInit .zero r.addr r.size r.words = .ok (once, s))
    (hn : n ≤ 504 * s.pages) : ∃ s' U, Run r once s' U ∧ (∀ t ∈ U, t.size = 8) ∧ U.length = n ∧
      s'.pages = s.pages := by
  induction n with
  | zero => exact ⟨s, [], .init h, nofun, rfl, rfl⟩
  | succ n ih =>
    obtain ⟨s', U, hrun, hU, hlen, hpages⟩ := ih (by omega)
    have hfits : Fits 8 := by
      rw [Fits]
      decide
    obtain ⟨-, T, hT⟩ := hrun.holds
    obtain ⟨s'', o, ho, -, hsame, hroom⟩ := hT.alloc hfits
    have hrun' := hrun.step (.alloc hfits ho)
    cases o with
    | none =>
      have hle := hT.length_le hU (by omega) (hroom rfl)
      omega
    | some p =>
      refine ⟨s'', ⟨p, 8⟩ :: U, hrun', fun t ht ↦ ?_, congrArg Nat.succ hlen,
        hsame.pages.trans hpages⟩
      rcases List.mem_cons.mp ht with rfl | ht
      · rfl
      · exact hU t ht

/-- In a pool of sixteen pages there is room for many small chunks. -/
theorem run_low_eights (hn : n ≤ 504) : ∃ s U, Run lowRegion once s U ∧ (∀ t ∈ U, t.size = 8) ∧
    U.length = n := by
  have hs : ∃ s, shmSlabInit .zero 65536 65536 (fun _ ↦ 0) = .ok (once, s) ∧ s.pages ≠ 0 := by
    rw [shmSlabInit, init_zero, if_pos (by decide)]
    dsimp only
    rw [if_pos (by decide)]
    exact ⟨_, rfl, by decide⟩
  obtain ⟨s, hs, hp⟩ := hs
  obtain ⟨s', U, hrun, hU, hlen, -⟩ := exists_run_eights (r := lowRegion) hs
    (hn.trans (Nat.le_mul_of_pos_right 504 (Nat.pos_of_ne_zero hp)))
  exact ⟨s', U, hrun, hU, hlen⟩

theorem run_low : ∃ s p, Run lowRegion once s [⟨p, 8⟩] := by
  obtain ⟨s, U, hrun, hU, hlen⟩ := run_low_eights (n := 1) (by decide)
  obtain ⟨⟨p, size⟩, rfl⟩ := List.length_eq_one_iff.mp hlen
  obtain rfl : size = 8 := hU _ List.mem_cons_self
  exact ⟨s, p, hrun⟩

theorem run_low_two : ∃ s p q, Run lowRegion once s [⟨q, 8⟩, ⟨p, 8⟩] := by
  obtain ⟨s, U, hrun, hU, hlen⟩ := run_low_eights (n := 2) (by decide)
  obtain ⟨⟨q, size⟩, ⟨p, size'⟩, rfl⟩ := List.length_eq_two.mp hlen
  obtain rfl : size = 8 := hU _ List.mem_cons_self
  obtain rfl : size' = 8 := hU _ (List.mem_cons_of_mem _ List.mem_cons_self)
  exact ⟨s, p, q, hrun⟩

/-- In every run what the process has is in the pages and apart, and its calls return. -/
theorem safe_of_run (h : Run r g s U) : Safe g s U ∧
    (∀ size, Fits size → ∃ s' o, Returns (fun fuel ↦ s.alloc g fuel size) (s', o)) ∧
    ∀ t ∈ U, ∃ s', s.free g t.base = .ok s' := by
  obtain ⟨rfl, T, hT⟩ := h.holds
  refine ⟨hT.safe, fun size hfits ↦ ?_, fun t ht ↦ ?_⟩
  · obtain ⟨s', o, hrun, -⟩ := hT.alloc hfits
    exact ⟨s', o, hrun⟩
  · obtain ⟨s', hs', -⟩ := hT.free ht
    exact ⟨s', hs'⟩

/-- The two chunks of the pool are apart, and each of them can be freed. -/
theorem safe_of_run_low : ∃ s p q, Run lowRegion once s [⟨q, 8⟩, ⟨p, 8⟩] ∧
    Safe once s [⟨q, 8⟩, ⟨p, 8⟩] ∧ (∃ s', s.free once p = .ok s') ∧
      ∃ s', s.free once q = .ok s' := by
  obtain ⟨s, p, q, h⟩ := run_low_two
  obtain ⟨hsafe, -, hfree⟩ := safe_of_run h
  exact ⟨s, p, q, h, hsafe, hfree _ (List.mem_cons_of_mem _ List.mem_cons_self),
    hfree _ List.mem_cons_self⟩

end Dlbase.Slab
