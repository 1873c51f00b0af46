import Dlbase.Slab.Runs

/-!
# Bad frees

`dl_slab_free` rejects a pointer that is not the start of something allocated, but for two kinds of
pointers: those behind the last descriptor, for which it reads a descriptor that is not there, and
those to the chunks that the bitmap in a page takes, which the bitmap marks like allocated ones.
-/

namespace Dlbase.Slab

open Cmem

/-- The pointer `p` is the address of a chunk that the bitmap in the page `i` takes. -/
def Reserved (g : Statics) (s : Pool) (i p : Nat) : Prop :=
  let page := s.node (.page i)
  let shift := (page.slab &&& shiftMask).toNat
  page.type = .small ∧ p % 2 ^ shift = 0 ∧ p % g.pagesize / 2 ^ shift < mapChunks g shift

/-- The pointer is outside of the pool, or it is in front of the end of the descriptors and not the
address of a chunk that a bitmap takes. -/
def Checked (g : Statics) (s : Pool) (p : Nat) : Prop :=
  p < s.start ∨ s.end < p ∨ ((p - s.start) >>> g.pagesizeShift < s.descs ∧
    ¬ Reserved g s ((p - s.start) >>> g.pagesizeShift) p)

/-- The runs of a process that also frees what it does not have. -/
inductive Misused (r : Region) : Statics → Pool → List Range → Prop where
  /-- The pool is set up. -/
  | init {g : Statics} {s : Pool} :
      shmSlabInit .zero r.addr r.size r.words = .ok (g, s) → Misused r g s []
  /-- The process takes a step. -/
  | step {g : Statics} {s s' : Pool} {U U' : List Range} :
      Misused r g s U → Step g s U s' U' → Misused r g s' U'
  /-- The process frees what it does not have. -/
  | bad {g : Statics} {s s' : Pool} {U : List Range} {p : Nat} :
      Misused r g s U → (∀ t ∈ U, t.base ≠ p) → Checked g s p → s.free g p = .ok s' →
      Misused r g s' U

variable {r : Region} {g : Statics} {s s' : Pool} {U : List Range} {T A B : List Seg}
  {i p c shift : Nat} {cs : List Nat} {e : Nat × Piece}

/-! ## Pages of chunks -/

theorem Holds.exists_base (h : Holds s U T) (he : e ∈ Slab.pieces s.start 0 T) :
    ∃ t ∈ U, t.base = e.1 := by
  obtain ⟨t, ht, heq⟩ := List.mem_map.mp (h.pieces.mem_iff.mpr he)
  exact ⟨t, ht, congrArg Prod.fst heq⟩

/-- A pointer that the process does not have is not the address of a chunk that is allocated. -/
theorem Holds.not_chunk (h : Holds s U (A ++ .chunks shift cs :: B)) (hbase : ∀ t ∈ U, t.base ≠ p)
    (hc : c ∈ cs) : p ≠ s.start + 4096 * total A + c * 2 ^ shift := fun heq ↦ by
  have hmem : (s.start + 4096 * total A + c * 2 ^ shift, Piece.chunk shift) ∈
      Slab.pieces s.start 0 (A ++ .chunks shift cs :: B) := by
    rw [pieces_middle, Nat.zero_add]
    exact List.mem_append_left _ (List.mem_append_right _ (List.mem_map_of_mem hc))
  obtain ⟨t, ht, hbase'⟩ := h.exists_base hmem
  exact hbase t ht (hbase'.trans heq.symm)

/-- A pointer into a page that is aligned for a chunk. -/
theorem place_of_aligned (hdvd : 4096 ∣ s.start) (h : 3 ≤ shift) (h' : shift ≤ 11)
    (hp : s.start + 4096 * i ≤ p) (hp' : p < s.start + 4096 * (i + 1)) (ha : p % 2 ^ shift = 0) :
    p % 4096 / 2 ^ shift < chunkCount shift ∧
      p = s.start + 4096 * i + p % 4096 / 2 ^ shift * 2 ^ shift := by
  have hmul := chunkCount_mul h h'
  have hdiv : 2 ^ shift ∣ 4096 := ⟨chunkCount shift, by rw [Nat.mul_comm, hmul]⟩
  have hoff : p % 4096 % 2 ^ shift = 0 := by rw [Nat.mod_mod_of_dvd _ hdiv, ha]
  have hcancel := Nat.div_mul_cancel (Nat.dvd_of_mod_eq_zero hoff)
  refine ⟨?_, ?_⟩
  · refine Nat.div_lt_of_lt_mul ?_
    rw [Nat.mul_comm, hmul]
    exact Nat.mod_lt _ (by decide)
  · rw [hcancel]
    omega

/-- A chunk that the bitmap takes is freed like one that has been allocated. -/
theorem freeSmall_reserved (hs : Shape s (A ++ .chunks shift cs :: B)) (hlt : shift < 6)
    (hc : c < reserved shift) (hp : Place s p (total A) shift c) :
    ∃ s', s.freeSmall once (total A) p (s.node (.page (total A))) = .ok s' ∧
      (s'.stats (shift - 3)).used = (s.stats (shift - 3)).used - 1 := by
  have hok := hs.chunksOk
  obtain ⟨d, hd⟩ := List.exists_mem_of_ne_nil _ hok.ne_nil
  obtain ⟨hge, hlt'⟩ := hok.range d hd
  have hcount : c < chunkCount shift := by omega
  obtain ⟨s₁, s₂, empty, ho, hkept, hcl, heq⟩ :=
    freeSmall_cleared hs hlt hcount ((hok.marked c hcount).mpr (.inl hc)) hp
  -- the page has another chunk, as no page is kept without one
  have hempty : ¬ empty = true := fun he ↦ by
    refine hcl.empty.mp he d hge hlt' ((hcl.marked d hlt').mpr ⟨?_, by omega⟩)
    exact (ho.marked d hlt').mpr (.inr hd)
  refine ⟨s₂.uncount (shift - 3), ?_, ?_⟩
  · rw [heq, Pool.releaseIf, if_neg hempty]
  · rw [Pool.uncount, used_uncount fun _ ↦ rfl, if_pos rfl, hcl.only.stats, hkept.stats]

/-- A word is not what it is without one. -/
theorem ne_sub_one (w : BitVec 32) : w - 1 ≠ w := by
  intro h
  have h' := congrArg BitVec.toNat h
  rw [BitVec.toNat_sub] at h'
  change (2 ^ 32 - 1 + w.toNat) % 2 ^ 32 = _ at h'
  have := w.isLt
  omega

namespace Holds

/-- A pointer into a page of small chunks. -/
theorem small_iff (h : Holds s U (A ++ .chunks shift cs :: B)) (hlt : shift < 6)
    (hp : s.start + 4096 * total A ≤ p) (hp' : p < s.start + 4096 * (total A + 1))
    (hbase : ∀ t ∈ U, t.base ≠ p) :
    s.freeSmall once (total A) p (s.node (.page (total A))) = .ok s ↔
      ¬ (p % 2 ^ shift = 0 ∧ p % 4096 / 2 ^ shift < mapChunks once shift) := by
  have hok := h.shape.chunksOk
  obtain ⟨-, hcount, -, -, hres, -⟩ := small_facts hok.shift_ge hlt
  have hshift := toNat_and_shiftMask hok.slab hok.shift_ge hok.shift_le (by omega)
  by_cases ha : p % 2 ^ shift = 0
  swap
  · refine iff_of_true ?_ fun hc ↦ ha hc.1
    rw [Pool.freeSmall]
    dsimp only
    rw [hshift, if_pos ha]
  obtain ⟨hc, hpc⟩ := place_of_aligned h.shape.base.dvd hok.shift_ge hok.shift_le hp hp' ha
  obtain ⟨c, hcdef⟩ : ∃ c, p % 4096 / 2 ^ shift = c := ⟨_, rfl⟩
  rw [hcdef] at hc hpc ⊢
  have hplace : Place s p (total A) shift c := by
    rw [hpc]
    exact place_chunk h.shape.base.dvd hok.shift_ge hok.shift_le hc
  rw [hres, and_iff_right ha, Nat.not_lt]
  by_cases hlow : c < reserved shift
  · obtain ⟨s', hs', hused⟩ := freeSmall_reserved h.shape hlt hlow hplace
    refine iff_of_false (fun heq ↦ ?_) (Nat.not_le.mpr hlow)
    obtain rfl := Except.ok.inj (heq.symm.trans hs')
    exact ne_sub_one _ hused.symm
  · refine iff_of_true ?_ (Nat.le_of_not_lt hlow)
    have hbit : ¬ s.Marked (total A) shift c := fun hm ↦ by
      rcases (hok.marked c hc).mp hm with hm | hm
      · exact hlow hm
      · exact h.not_chunk hbase hm hpc
    have hchunk : p % once.pagesize / 2 ^ shift = c := hcdef
    have hmap : p - p % once.pagesize = s.start + 4096 * total A := hplace.bitmap
    rw [marked_small hlt, ← and_twoPow_ne_zero (Nat.mod_lt _ (by decide))] at hbit
    rw [Pool.freeSmall]
    dsimp only
    rw [hshift, hchunk, hmap, if_neg (not_not.mpr ha), if_neg hbit]

/-- A pointer into a page of chunks of the exact size. -/
theorem exact_rejected (h : Holds s U (A ++ .chunks 6 cs :: B)) (hp : s.start + 4096 * total A ≤ p)
    (hp' : p < s.start + 4096 * (total A + 1)) (hbase : ∀ t ∈ U, t.base ≠ p) :
    s.freeExact once (total A) p (s.node (.page (total A))) = .ok s := by
  have hok := h.shape.chunksOk
  rw [Pool.freeExact]
  dsimp only
  by_cases ha : p % once.exactSize ≠ 0
  · rw [if_pos ha]
  have ha' : p % 2 ^ 6 = 0 := not_not.mp ha
  obtain ⟨hc, hpc⟩ := place_of_aligned h.shape.base.dvd (by decide) (by decide) hp hp' ha'
  have hbit : ¬ s.Marked (total A) 6 (p % 4096 / 2 ^ 6) := fun hm ↦ by
    rcases (hok.marked _ hc).mp hm with hm | hm
    · exact absurd hm (Nat.not_lt_zero _)
    · exact h.not_chunk hbase hm hpc
  have hchunk : (p % once.pagesize) >>> once.exactShift = p % 4096 / 2 ^ 6 :=
    Nat.shiftRight_eq_div_pow _ _
  have hc : p % 4096 / 2 ^ 6 < 64 := hc
  rw [marked_exact, ← and_twoPow_ne_zero hc] at hbit
  rw [if_neg ha, hchunk, if_neg hbit]

/-- A pointer into a page of big chunks. -/
theorem big_rejected (h : Holds s U (A ++ .chunks shift cs :: B)) (hlt : 6 < shift)
    (hp : s.start + 4096 * total A ≤ p) (hp' : p < s.start + 4096 * (total A + 1))
    (hbase : ∀ t ∈ U, t.base ≠ p) :
    s.freeBig once (total A) p (s.node (.page (total A))) = .ok s := by
  have hok := h.shape.chunksOk
  obtain ⟨-, hle, -, hres, -⟩ := big_facts hlt hok.shift_le
  have hshift := toNat_and_shiftMask hok.slab hok.shift_ge hok.shift_le (by omega)
  rw [Pool.freeBig]
  dsimp only
  rw [hshift]
  by_cases ha : p % 2 ^ shift ≠ 0
  · rw [if_pos ha]
  obtain ⟨hc, hpc⟩ := place_of_aligned h.shape.base.dvd hok.shift_ge hok.shift_le hp hp'
    (not_not.mp ha)
  have hbit : ¬ s.Marked (total A) shift (p % 4096 / 2 ^ shift) := fun hm ↦ by
    rcases (hok.marked _ hc).mp hm with hm | hm
    · rw [hres] at hm
      exact absurd hm (Nat.not_lt_zero _)
    · exact h.not_chunk hbase hm hpc
  rw [marked_big hlt, ← and_twoPow_ne_zero (by omega)] at hbit
  rw [if_neg ha]
  exact if_neg hbit

/-- A pointer into a page with a descriptor that does not begin a run. -/
theorem run_rejected {page : Page} (hslab : page.slab.toNat < 2 ^ 32 ∨ page.slab = busy) :
    s.freeRun g i p page = .ok s := by
  rw [Pool.freeRun, if_pos]
  rcases hslab with hlt | hbusy
  · refine .inr (.inl (eq_zero_iff.mpr fun j hj hm ↦ ?_))
    rw [BitVec.getLsbD_and, Bool.and_eq_true] at hm
    obtain rfl : 63 = j := by
      have hbit := hm.2
      change (BitVec.twoPow 64 63).getLsbD j at hbit
      rw [BitVec.getLsbD_twoPow, Bool.and_eq_true, decide_eq_true_iff] at hbit
      exact of_decide_eq_true hbit.2
    have hbit := hm.1
    rw [BitVec.getLsbD, Nat.testBit_lt_two_pow (by omega)] at hbit
    cases hbit
  · exact .inr (.inr hbusy)

/-- A pointer into a page. -/
theorem page_iff (h : Holds s U T) (hi : i < s.pages) (hp : s.start + 4096 * i ≤ p)
    (hp' : p < s.start + 4096 * (i + 1)) (hbase : ∀ t ∈ U, t.base ≠ p) :
    s.free once p = .ok s ↔ ¬ Reserved once s i p := by
  have hno : ∀ {x : PageType}, (s.node (.page i)).type = x → x ≠ .small → ¬ Reserved once s i p :=
    fun ht hne hr ↦ hne (ht.symm.trans hr.1)
  cases h.shape.desc hi with
  | free hpart hin htype hslab =>
    refine iff_of_true (free_piece h.shape hi hp hp' ?_) (hno htype nofun)
    rw [htype]
    exact run_rejected (.inl hslab)
  | busy hpart hin htype hslab =>
    refine iff_of_true (free_piece h.shape hi hp hp' ?_) (hno htype nofun)
    rw [htype]
    exact run_rejected (.inr hslab)
  | @first n hpart =>
    obtain ⟨-, -, -, htype, -⟩ : SegOk s i (.alloc n) := h.shape.segs _ hpart
    refine iff_of_true (free_piece h.shape hi hp hp' ?_) (hno htype nofun)
    rw [htype]
    refine if_pos (.inl fun ha ↦ ?_)
    change p % 4096 = 0 at ha
    obtain ⟨t, ht, heq⟩ := h.exists_base (mem_pieces.mpr ⟨_, hpart, List.mem_cons_self⟩)
    obtain ⟨q, hq⟩ := h.shape.base.dvd
    refine hbase t ht (heq.trans ?_)
    dsimp only
    omega
  | @chunks shift cs hpart =>
    have hok : ChunksOk s i shift cs := h.shape.segs _ hpart
    obtain ⟨A, B, rfl, hA⟩ := exists_split hpart
    rw [Nat.zero_add] at hA
    obtain rfl : total A = i := hA
    rcases Nat.lt_trichotomy shift 6 with hlt | rfl | hlt
    · have htype := hok.type.trans (small_facts hok.shift_ge hlt).1
      have hshift := toNat_and_shiftMask hok.slab hok.shift_ge hok.shift_le (by omega)
      rw [Reserved, hshift, and_iff_right htype]
      refine Iff.trans ?_ (h.small_iff hlt hp hp' hbase)
      rw [free_piece h.shape hi hp hp' rfl, htype]
    · refine iff_of_true (free_piece h.shape hi hp hp' ?_) (hno hok.type nofun)
      rw [hok.type]
      exact h.exact_rejected hp hp' hbase
    · have htype := hok.type.trans (big_facts hlt hok.shift_le).1
      refine iff_of_true (free_piece h.shape hi hp hp' ?_) (hno htype nofun)
      rw [htype]
      exact h.big_rejected hlt hp hp' hbase

/-- Exactly the pointers that are checked are rejected. -/
theorem rejected (h : Holds s U T) (hbase : ∀ t ∈ U, t.base ≠ p) :
    s.free once p = .ok s ↔ Checked once s p := by
  by_cases hout : p < s.start ∨ s.end < p
  · exact iff_of_true (if_pos hout) (hout.imp id .inl)
  obtain ⟨i, hi⟩ : ∃ i, (p - s.start) >>> 12 = i := ⟨_, rfl⟩
  have hpage : (p - s.start) >>> once.pagesizeShift = i := hi
  rw [Nat.shiftRight_eq_div_pow] at hi
  rw [Checked, hpage, ← or_assoc, or_iff_right hout]
  by_cases hdescs : i < s.descs
  · rw [and_iff_right hdescs]
    by_cases hpages : i < s.pages
    · exact h.page_iff hpages (by omega) (by omega) hbase
    · have hhas : s.Has (.page i) := decide_eq_true hdescs
      obtain ⟨hslab, htype⟩ := h.shape.spare i (Nat.le_of_not_lt hpages)
      refine iff_of_true ?_ fun hr ↦ nomatch htype.symm.trans hr.1
      rw [Pool.free, if_neg hout, hpage]
      dsimp only
      rw [load_eq hhas, Exec.ok_bind, htype]
      exact run_rejected (.inl (by rw [hslab]; decide))
  · refine iff_of_false (fun heq ↦ ?_) fun hc ↦ hdescs hc.1
    have hload : s.load (some (.page i)) = Exec.undef := if_neg fun hd ↦ hdescs (of_decide_eq_true hd)
    rw [Pool.free, if_neg hout, hpage] at heq
    dsimp only at heq
    rw [hload] at heq
    cases heq

end Holds

/-! ## The runs -/

/-- Frees that are rejected do not matter. -/
theorem Misused.run (h : Misused r g s U) : Run r g s U := by
  induction h with
  | init hs => exact .init hs
  | step _ hstep ih => exact ih.step hstep
  | bad _ hbase hc hs ih =>
    obtain ⟨rfl, T, hT⟩ := ih.holds
    obtain rfl := Except.ok.inj (((hT.rejected hbase).mpr hc).symm.trans hs)
    exact ih

/-- In a run whose bad frees are checked exactly the checked ones leave the pool as it is. -/
theorem rejected_iff (h : Misused r g s U) (hbase : ∀ t ∈ U, t.base ≠ p) :
    s.free g p = .ok s ↔ Checked g s p := by
  obtain ⟨rfl, T, hT⟩ := h.run.holds
  exact hT.rejected hbase

theorem Run.misused (h : Run r g s U) : Misused r g s U := by
  induction h with
  | init hs => exact .init hs
  | step _ hstep ih => exact ih.step hstep

/-- The part that a chunk belongs to. -/
theorem Holds.exists_chunk {t : Range} (h : Holds s U T) (ht : t ∈ U)
    (hpiece : pieceOf t.size = .chunk shift) : ∃ A cs B c, T = A ++ .chunks shift cs :: B ∧
      c ∈ cs ∧ t.base = s.start + 4096 * total A + c * 2 ^ shift ∧ total A < s.pages := by
  obtain ⟨⟨i, seg⟩, hpart, hin⟩ := mem_pieces.mp (h.mem ht)
  rw [given, hpiece] at hin
  have hb := bounds hpart
  rw [h.shape.length] at hb
  obtain ⟨A, B, rfl, hA⟩ := exists_split hpart
  rw [Nat.zero_add] at hA
  obtain rfl : total A = i := hA
  cases seg with
  | free n => cases hin
  | alloc n => cases (Prod.mk.inj (List.mem_singleton.mp hin)).2
  | chunks shift' cs =>
    obtain ⟨c, hc, heq⟩ := List.mem_map.mp hin
    obtain ⟨hp, hshift⟩ := Prod.mk.inj heq
    obtain rfl := Piece.chunk.inj hshift
    change 0 ≤ total A ∧ total A + 1 ≤ 0 + s.pages at hb
    exact ⟨A, cs, B, c, rfl, hc, hp.symm, by omega⟩

theorem pieceOf_eight : pieceOf 8 = .chunk 3 := by decide

/-- A pointer into a chunk is rejected. -/
theorem rejected_low : ∃ s p, Misused lowRegion once s [⟨p, 8⟩] ∧ Checked once s (p + 1) ∧
    s.free once (p + 1) = .ok s := by
  obtain ⟨s, p, h⟩ := run_low
  obtain ⟨-, T, hT⟩ := h.holds
  obtain ⟨A, cs, B, c, rfl, hc, hp, hlt⟩ := hT.exists_chunk List.mem_cons_self pieceOf_eight
  dsimp only at hp
  have hok : ChunksOk s (total A) 3 cs := hT.shape.chunksOk
  have hcount : c < 512 := (hok.range c hc).2
  have hbase := hT.shape.base
  have hpage : (p + 1 - s.start) >>> once.pagesizeShift = total A := by
    change (p + 1 - s.start) >>> 12 = _
    rw [Nat.shiftRight_eq_div_pow]
    omega
  have hchecked : Checked once s (p + 1) := by
    refine .inr (.inr ?_)
    rw [hpage]
    refine ⟨hlt.trans_le hbase.pages_le, fun hres ↦ ?_⟩
    have hmod := hres.2.1
    rw [toNat_and_shiftMask hok.slab hok.shift_ge hok.shift_le (by omega)] at hmod
    obtain ⟨q, hq⟩ := hbase.dvd
    omega
  refine ⟨s, p, h.misused, hchecked, (rejected_iff h.misused fun t ht ↦ ?_).mpr hchecked⟩
  obtain rfl := List.mem_singleton.mp ht
  exact Nat.ne_of_lt (Nat.lt_succ_self p)

/-- The start of the page of a chunk can be freed like the chunk. -/
theorem not_rejected : ∃ s p q s', Misused lowRegion once s [⟨p, 8⟩] ∧ q ≠ p ∧
    s.free once q = .ok s' ∧ s' ≠ s := by
  obtain ⟨s, p, h⟩ := run_low
  obtain ⟨-, T, hT⟩ := h.holds
  obtain ⟨A, cs, B, c, rfl, hc, hp, hlt⟩ := hT.exists_chunk List.mem_cons_self pieceOf_eight
  dsimp only at hp
  have hs := hT.shape
  have hok : ChunksOk s (total A) 3 cs := hs.chunksOk
  have hge : 8 ≤ c := (hok.range c hc).1
  have hplace := place_chunk (s := s) (i := total A) (c := 0) hs.base.dvd (Nat.le_refl 3)
    (by decide) (by decide)
  obtain ⟨s', hs', hused⟩ := freeSmall_reserved hs (by decide) (by decide) hplace
  have hfree : s.free once (s.start + 4096 * total A + 0 * 2 ^ 3) = .ok s' := by
    refine free_piece hs hlt (by omega) (by omega) ?_
    rw [hok.type]
    exact hs'
  refine ⟨s, p, _, s', h.misused, by omega, hfree, ?_⟩
  rintro rfl
  exact ne_sub_one _ hused.symm

end Dlbase.Slab
