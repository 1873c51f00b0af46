import Dlbase.Slab.Runs

/-!
# Accounts

The free list holds the free pages in runs that are as long as they can be, `pfree` counts them, and
the statistics count the chunks.
-/

namespace Dlbase.Slab

open Cmem

/-- The free list from the node `r` on: the first pages of the runs, with the numbers of pages. -/
inductive FreeRuns (s : Pool) : Ref → List (Nat × Nat) → Prop where
  /-- The next node is the head. -/
  | nil {r : Ref} : (s.node r).next = some .free → FreeRuns s r []
  /-- The next node is the first page of a run. -/
  | cons {r : Ref} {i : Nat} {L : List (Nat × Nat)} :
      (s.node r).next = some (.page i) → FreeRuns s (.page i) L →
      FreeRuns s r ((i, (s.node (.page i)).slab.toNat) :: L)

/-- The page `i` is a page of chunks, or a part of what the process has. -/
def Occupied (g : Statics) (s : Pool) (U : List Range) (i : Nat) : Prop :=
  (s.node (.page i)).type ≠ .page ∨ ∃ t ∈ U, ¬ t.Disjoint ⟨s.pageAddr g i, g.pagesize⟩

instance (g : Statics) (s : Pool) (U : List Range) (i : Nat) : Decidable (Occupied g s U i) :=
  inferInstanceAs (Decidable (_ ∨ _))

/-- The number of chunks of the slot `k` that the process has. -/
def liveChunks (g : Statics) (s : Pool) (U : List Range) (k : Nat) : Nat :=
  U.countP fun t ↦ t.size ≤ g.maxSize ∧ (s.slotOf t.size).1 = k

/-- Two runs do not overlap, and there is something between them. -/
def Parted (a b : Nat × Nat) : Prop := a.1 + a.2 < b.1 ∨ b.1 + b.2 < a.1

/-- The counters are right, and the free runs are as long as they can be. -/
structure Accounted (g : Statics) (s : Pool) (U : List Range) : Prop where
  /-- The free pages are counted. -/
  pfree : s.pfree.toNat = (List.range s.pages).countP fun i ↦ ¬ Occupied g s U i
  /-- The free list has them in runs, and it has one run if the process has nothing. -/
  runs : ∃ L, FreeRuns s .free L ∧ s.pfree.toNat = (L.map Prod.snd).sum ∧
    (∀ a ∈ L, ∀ i, a.1 ≤ i → i < a.1 + a.2 → i < s.pages ∧ ¬ Occupied g s U i) ∧
    L.Pairwise Parted ∧ (U = [] → L = [(0, s.pages)])
  /-- The chunks are counted. -/
  used : ∀ k, (s.stats k).used = BitVec.ofNat 32 (liveChunks g s U k)

variable {r : Region} {g : Statics} {s s' : Pool} {U : List Range} {T : List Seg} {t : Range}
  {i j k n size shift : Nat} {a b : Nat × Nat} {L : List (Nat × Nat)} {cs : List Nat} {q : Ref}
  {e : Nat × Seg}

/-! ## The free runs -/

/-- The run that a part is. -/
def Seg.run? : Nat × Seg → Option (Nat × Nat)
  | (i, .free n) => some (i, n)
  | _ => none

/-- The free runs. -/
def freeRuns (i : Nat) (T : List Seg) : List (Nat × Nat) := (placed i T).filterMap Seg.run?

theorem mem_freeRuns : a ∈ freeRuns i T ↔ (a.1, Seg.free a.2) ∈ placed i T := by
  rw [freeRuns, List.mem_filterMap]
  constructor
  · rintro ⟨⟨j, seg⟩, he, hrun⟩
    cases seg with
    | free n =>
      obtain rfl := Option.some.inj hrun
      exact he
    | alloc n => cases hrun
    | chunks shift cs => cases hrun
  · exact fun he ↦ ⟨_, he, rfl⟩

/-- The nodes of the free list are the first pages of the runs. -/
theorem members_free : members .free i T = (freeRuns i T).map fun a ↦ .page a.1 := by
  rw [members, freeRuns, List.map_filterMap]
  refine List.filterMap_congr fun e _ ↦ ?_
  obtain ⟨j, seg⟩ := e
  cases seg with
  | free n => exact if_pos rfl
  | alloc n => exact if_neg (by rintro ⟨⟩)
  | chunks shift cs =>
    refine if_neg fun h ↦ ?_
    rw [Seg.list] at h
    split_ifs at h
    cases Option.some.inj h

/-- The free pages are in the runs. -/
theorem sum_freeRuns : ((freeRuns i T).map Prod.snd).sum = freeTotal T := by
  induction T generalizing i with
  | nil => rfl
  | cons seg T ih =>
    rw [freeTotal_cons, ← ih (i := i + seg.len)]
    cases seg with
    | free n => exact List.sum_cons
    | alloc n => exact (Nat.zero_add _).symm
    | chunks shift cs => exact (Nat.zero_add _).symm

/-- There is something between two runs. -/
theorem freeRuns_parted (hsep : Separated T) (hpos : ∀ e ∈ placed i T, 0 < e.2.len) :
    (freeRuns i T).Pairwise fun a b ↦ a.1 + a.2 < b.1 := by
  induction T generalizing i with
  | nil => exact .nil
  | cons seg T ih =>
    have htail := ih hsep.of_cons (i := i + seg.len) fun e he ↦ hpos e (List.mem_cons_of_mem _ he)
    cases seg with
    | alloc n => exact htail
    | chunks shift cs => exact htail
    | free n =>
      refine List.pairwise_cons.mpr ⟨fun b hb ↦ ?_, htail⟩
      have hb := mem_freeRuns.mp hb
      cases T with
      | nil => cases hb
      | cons seg' T =>
        have hnot : ¬ seg'.IsFree := fun hf ↦ hsep.rel ⟨trivial, hf⟩
        have hlen := hpos (i + n, seg') (List.mem_cons_of_mem _ List.mem_cons_self)
        rcases List.mem_cons.mp hb with heq | hb
        · obtain ⟨-, rfl⟩ := Prod.mk.inj heq
          exact absurd trivial hnot
        · have := (bounds hb).1
          change i + n + seg'.len ≤ b.1 at this
          change 0 < seg'.len at hlen
          change i + n < b.1
          omega

/-- If all pages are free they are one run. -/
theorem eq_free (hsep : Separated T) (hne : T ≠ []) (hall : ∀ e ∈ placed i T, e.2.IsFree) :
    T = [.free (total T)] := by
  rcases T with _ | ⟨seg, _ | ⟨seg', T⟩⟩
  · exact absurd rfl hne
  · have hfree : seg.IsFree := hall (i, seg) List.mem_cons_self
    cases seg with
    | free n => rfl
    | alloc n => exact hfree.elim
    | chunks shift cs => exact hfree.elim
  · exact absurd ⟨hall (i, seg) List.mem_cons_self,
      hall (i + seg.len, seg') (List.mem_cons_of_mem _ List.mem_cons_self)⟩ hsep.rel

/-- The pages of the runs are counted one by one. -/
theorem countP_free {f : Nat → Bool} (hf : ∀ j, i ≤ j → j < i + total T →
    (f j ↔ ∃ a ∈ freeRuns i T, a.1 ≤ j ∧ j < a.1 + a.2)) :
    (List.range' i (total T)).countP f = freeTotal T := by
  induction T generalizing i with
  | nil => rfl
  | cons seg T ih =>
    rw [total_cons] at hf
    have hafter : ∀ a ∈ freeRuns (i + seg.len) T, i + seg.len ≤ a.1 := fun a ha ↦
      (bounds (mem_freeRuns.mp ha)).1
    have htail : (List.range' (i + seg.len) (total T)).countP f = freeTotal T := ih fun j hj hj' ↦ by
      rw [hf j (by omega) (by omega)]
      constructor
      · rintro ⟨a, ha, hle, hlt⟩
        rcases List.mem_cons.mp (mem_freeRuns.mp ha) with heq | ha
        · obtain ⟨h₁, h₂⟩ := Prod.mk.inj heq
          have hlen : a.2 = seg.len := congrArg Seg.len h₂
          omega
        · exact ⟨a, mem_freeRuns.mpr ha, hle, hlt⟩
      · rintro ⟨a, ha, hin⟩
        exact ⟨a, mem_freeRuns.mpr (List.mem_cons_of_mem _ (mem_freeRuns.mp ha)), hin⟩
    have hhead : (List.range' i seg.len).countP f = seg.freeLen := by
      have hno : ¬ seg.IsFree → (List.range' i seg.len).countP f = 0 := fun hnot ↦ by
        refine List.countP_eq_zero.mpr fun j hj hfj ↦ ?_
        obtain ⟨hle, hlt⟩ := List.mem_range'_1.mp hj
        obtain ⟨a, ha, hle', hlt'⟩ := (hf j hle (by omega)).mp hfj
        rcases List.mem_cons.mp (mem_freeRuns.mp ha) with heq | ha
        · obtain ⟨-, h₂⟩ := Prod.mk.inj heq
          exact hnot (h₂ ▸ trivial)
        · have := hafter a (mem_freeRuns.mpr ha)
          omega
      cases seg with
      | alloc n => exact hno not_false
      | chunks shift cs => exact hno not_false
      | free n =>
        refine (List.countP_eq_length.mpr fun j hj ↦ ?_).trans List.length_range'
        obtain ⟨hle, hlt⟩ := List.mem_range'_1.mp hj
        refine (hf j hle (by omega)).mpr ⟨(i, n), mem_freeRuns.mpr List.mem_cons_self, hle, hlt⟩
    rw [total_cons, ← List.range'_append_1, List.countP_append, hhead, htail, freeTotal_cons]

/-! ## The accounts of a pool -/

/-- The free list as the links have it. -/
theorem freeRuns_of_path (hp : Path s.next s.prev q (L.map fun a ↦ .page a.1) .free)
    (hslab : ∀ a ∈ L, (s.node (.page a.1)).slab.toNat = a.2) : FreeRuns s q L := by
  induction L generalizing q with
  | nil => exact .nil hp
  | cons a L ih =>
    obtain ⟨hnext, -, hp⟩ := hp
    have htail := ih hp fun b hb ↦ hslab b (List.mem_cons_of_mem _ hb)
    have ha : a = (a.1, (s.node (.page a.1)).slab.toNat) := by
      rw [hslab a List.mem_cons_self]
    rw [ha]
    exact .cons hnext htail

/-- The numbers of pages are in the descriptors. -/
theorem Shape.slab_run (hs : Shape s T) (ha : a ∈ freeRuns 0 T) :
    (s.node (.page a.1)).slab.toNat = a.2 := by
  have hmem := mem_freeRuns.mp ha
  have hb := bounds hmem
  have hlt := hs.base.pages_lt
  rw [hs.length] at hb
  change 0 ≤ a.1 ∧ a.1 + a.2 ≤ 0 + s.pages at hb
  rw [(hs.segs _ hmem).1, toNat_ofNat_lt (by omega)]

/-- The free list has the free runs. -/
theorem Shape.exists_runs (hs : Shape s T) : ∃ L, FreeRuns s .free L ∧ L.Perm (freeRuns 0 T) := by
  obtain ⟨l, hc, hl⟩ := hs.lists .free trivial
  rw [members_free] at hl
  -- the runs in the order of the list, with the numbers of pages read from the descriptors
  let f : Ref → Nat × Nat := fun r ↦
    r.casesOn (0, 0) (fun _ ↦ (0, 0)) fun i ↦ (i, (s.node (.page i)).slab.toNat)
  have hperm : (l.map f).Perm (freeRuns 0 T) := by
    refine (hl.map f).trans (.of_eq ?_)
    rw [List.map_map]
    refine (List.map_congr_left fun a ha ↦ ?_).trans (List.map_id _)
    change (a.1, (s.node (.page a.1)).slab.toNat) = a
    rw [hs.slab_run ha]
  have hpage : (l.map f).map (fun a ↦ Ref.page a.1) = l := by
    rw [List.map_map]
    refine (List.map_congr_left fun r hr ↦ ?_).trans (List.map_id _)
    obtain ⟨a, -, rfl⟩ := List.mem_map.mp (hl.mem_iff.mp hr)
    rfl
  refine ⟨l.map f, freeRuns_of_path (hpage.symm ▸ hc) fun a ha ↦ ?_, hperm⟩
  exact hs.slab_run (hperm.mem_iff.mp ha)

namespace Holds

/-- Where the process has nothing all pages are free. -/
theorem isFree_of_nil (h : Holds s [] T) (ha : e ∈ placed 0 T) : e.2.IsFree := by
  have hnil : Slab.pieces s.start 0 T = [] := h.pieces.symm.eq_nil
  have hnone : ∀ e', e' ∉ piecesOf s.start e := fun e' he' ↦ by
    have := mem_pieces.mpr ⟨e, ha, he'⟩
    rw [hnil] at this
    cases this
  have hok := h.shape.segs e ha
  obtain ⟨i, seg⟩ := e
  cases seg with
  | free n => trivial
  | alloc n => exact absurd List.mem_cons_self (hnone _)
  | chunks shift cs =>
    obtain ⟨c, hc⟩ := List.exists_mem_of_ne_nil _ (ChunksOk.ne_nil hok)
    exact absurd (List.mem_map_of_mem hc) (hnone _)

/-- The parts are not empty, but for the only one of a pool without pages. -/
theorem freeRuns_parted (h : Holds s U T) : (freeRuns 0 T).Pairwise Parted := by
  by_cases hp : s.pages = 0
  · have hall : ∀ e ∈ placed 0 T, e.2.IsFree := fun e he ↦ by
      have hok := h.shape.segs e he
      have hb := bounds he
      rw [h.shape.length] at hb
      obtain ⟨i, seg⟩ := e
      cases seg with
      | free n => trivial
      | alloc n =>
        have hn : 0 < n := hok.1
        change 0 ≤ i ∧ i + n ≤ 0 + s.pages at hb
        omega
      | chunks shift cs =>
        change 0 ≤ i ∧ i + 1 ≤ 0 + s.pages at hb
        omega
    rw [eq_free h.shape.separated h.ne_nil hall]
    exact List.pairwise_singleton _ _
  · exact (Slab.freeRuns_parted h.shape.separated (h.shape.segs.pos hp)).imp .inl

/-- The pages that are not occupied are in the free runs. -/
theorem occupied_iff (h : Holds s U T) (hi : i < s.pages) :
    ¬ Occupied once s U i ↔ ∃ a ∈ freeRuns 0 T, a.1 ≤ i ∧ i < a.1 + a.2 := by
  -- two parts with a page in common are the same
  have hsame : ∀ {e e' : Nat × Seg}, e ∈ placed 0 T → e' ∈ placed 0 T →
      e.1 ≤ i ∧ i < e.1 + e.2.len → e'.1 ≤ i ∧ i < e'.1 + e'.2.len → e = e' :=
    fun he he' hin hin' ↦ by
    rcases placed_apart he he' with heq | hle | hle
    · exact heq
    · omega
    · omega
  have hnot : ∀ {e : Nat × Seg}, e ∈ placed 0 T → e.1 ≤ i ∧ i < e.1 + e.2.len → ¬ e.2.IsFree →
      ¬ ∃ a ∈ freeRuns 0 T, a.1 ≤ i ∧ i < a.1 + a.2 := fun he hin hf ↦ by
    rintro ⟨a, ha, hin'⟩
    obtain rfl := hsame he (mem_freeRuns.mp ha) hin hin'
    exact hf trivial
  -- the pages of a run that is allocated are occupied
  have hrun : ∀ {j n : Nat}, (j, Seg.alloc n) ∈ placed 0 T → j ≤ i → i < j + n →
      Occupied once s U i := fun {j n} he hle hlt ↦ by
    have hmem : (s.start + 4096 * j, Piece.pages n) ∈ Slab.pieces s.start 0 T :=
      mem_pieces.mpr ⟨_, he, List.mem_cons_self⟩
    obtain ⟨t, ht, heq⟩ := List.mem_map.mp (h.pieces.mem_iff.mpr hmem)
    obtain ⟨hbase, hpiece⟩ := Prod.mk.inj heq
    refine .inr ⟨t, ht, fun hd ↦ ?_⟩
    rw [pageAddr_once] at hd
    change t.size = 0 ∨ 4096 = 0 ∨ t.base + t.size ≤ s.start + 4096 * i ∨
      s.start + 4096 * i + 4096 ≤ t.base at hd
    rw [pieceOf, Nat.shiftRight_eq_div_pow] at hpiece
    split_ifs at hpiece with hbig hmod
    · have := Piece.pages.inj hpiece
      omega
    · have := Piece.pages.inj hpiece
      omega
  cases h.shape.desc hi with
  | @free j n hpart hin htype _ =>
    refine iff_of_true (fun hocc ↦ ?_) ⟨(j, n), mem_freeRuns.mpr hpart, hin⟩
    rcases hocc with hne | ⟨t, ht, hd⟩
    · exact hne htype
    · obtain ⟨e, he, hpiece⟩ := mem_pieces.mp (h.mem ht)
      obtain ⟨hlo, hhi⟩ := extent_bounds (h.shape.segs e he) hpiece
      refine hd (Range.Disjoint.within ?_ (extent_given t))
      rw [pageAddr_once]
      refine .inr (.inr ?_)
      change t.base + (pieceOf t.size).bytes ≤ s.start + 4096 * i ∨
        s.start + 4096 * i + 4096 ≤ t.base
      change _ ≤ t.base at hlo
      change t.base + (pieceOf t.size).bytes ≤ _ at hhi
      rcases placed_apart hpart he with rfl | hle | hle
      · cases hpiece
      · change j + n ≤ e.1 at hle
        exact .inr (by omega)
      · change e.1 + e.2.len ≤ j at hle
        exact .inl (by omega)
  | @first n hpart =>
    have hpos : 0 < n := (h.shape.segs _ hpart).1
    have hlt : i < i + n := by omega
    exact iff_of_false (not_not.mpr (hrun hpart (Nat.le_refl _) hlt))
      (hnot hpart ⟨Nat.le_refl _, hlt⟩ not_false)
  | busy hpart hin _ _ =>
    exact iff_of_false (not_not.mpr (hrun hpart (Nat.le_of_lt hin.1) hin.2))
      (hnot hpart ⟨Nat.le_of_lt hin.1, hin.2⟩ not_false)
  | @chunks shift cs hpart =>
    have hok : ChunksOk s i shift cs := h.shape.segs _ hpart
    refine iff_of_false (not_not.mpr (.inl ?_)) (hnot hpart ⟨Nat.le_refl _, Nat.lt_succ_self _⟩
      not_false)
    rw [hok.type]
    exact typeOf_ne_page _ _

/-- The chunks of a slot. -/
theorem liveChunks_eq (h : Holds s U T) (k : Nat) :
    liveChunks once s U k = U.countP fun t ↦ pieceOf t.size = .chunk (k + 3) := by
  refine List.countP_congr fun t _ ↦ ?_
  rw [decide_eq_true_iff, decide_eq_true_iff]
  change t.size ≤ 2048 ∧ _ ↔ _
  by_cases hsize : t.size ≤ 2048
  · obtain ⟨shift, hpiece, hge, -, hslot⟩ := pieceOf_small hsize
    rw [hslot s h.shape.base, hpiece, Piece.chunk.injEq, and_iff_right hsize]
    dsimp only
    omega
  · rw [pieceOf, if_pos (Nat.lt_of_not_le hsize)]
    exact iff_of_false (fun hle ↦ hsize hle.1) (by rintro ⟨⟩)

theorem accounted (h : Holds s U T) : Accounted once s U := by
  have hlt := h.shape.base.pages_lt
  have hpfree : s.pfree.toNat = freeTotal T := by
    have hle := freeTotal_le (T := T)
    rw [h.shape.length] at hle
    rw [h.shape.pfree, BitVec.toNat_ofNat, Nat.mod_eq_of_lt (by omega)]
  obtain ⟨L, hL, hperm⟩ := h.shape.exists_runs
  have hrun : ∀ a ∈ freeRuns 0 T, ∀ i, i < a.1 + a.2 → i < s.pages := fun a ha i hi ↦ by
    have hb := bounds (mem_freeRuns.mp ha)
    rw [h.shape.length] at hb
    change 0 ≤ a.1 ∧ a.1 + a.2 ≤ 0 + s.pages at hb
    omega
  refine ⟨?_, ⟨L, hL, ?_, fun a ha i hle hi ↦ ?_, ?_, ?_⟩, fun k ↦ ?_⟩
  · rw [hpfree, ← countP_free (T := T) (i := 0) (f := fun i ↦ ¬ Occupied once s U i) fun i _ hi ↦ ?_,
      h.shape.length, List.range_eq_range']
    rw [h.shape.length, Nat.zero_add] at hi
    exact decide_eq_true_iff.trans (h.occupied_iff hi)
  · rw [hpfree, (hperm.map Prod.snd).sum_eq, sum_freeRuns]
  · have ha := hperm.mem_iff.mp ha
    have hi' := hrun a ha i hi
    exact ⟨hi', (h.occupied_iff hi').mpr ⟨a, ha, hle, hi⟩⟩
  · exact (hperm.pairwise_iff fun hp ↦ hp.symm).mpr h.freeRuns_parted
  · rintro rfl
    have hT := eq_free h.shape.separated h.ne_nil fun e he ↦ h.isFree_of_nil he
    rw [h.shape.length] at hT
    rw [hT] at hperm
    exact hperm.eq_singleton
  · rw [h.used, h.liveChunks_eq]

end Holds

/-- In every run the counters are right, and the free runs are as long as they can be. -/
theorem accounted_of_run (h : Run r g s U) : Accounted g s U := by
  obtain ⟨rfl, T, hT⟩ := h.holds
  exact hT.accounted

/-- The two chunks of the pool are counted. -/
theorem accounted_of_run_low : ∃ s p q, Run lowRegion once s [⟨q, 8⟩, ⟨p, 8⟩] ∧
    Accounted once s [⟨q, 8⟩, ⟨p, 8⟩] := by
  obtain ⟨s, p, q, h⟩ := run_low_two
  exact ⟨s, p, q, h, accounted_of_run h⟩

/-! ## More chunks than can be counted -/

/-- A region of 64 GiB. -/
def largeRegion : Region := ⟨2 ^ 40, 2 ^ 36, fun _ ↦ 0⟩

/-- The counter of the chunks in use is too small for a large region. -/
theorem not_used_eq : ∃ s U, Run largeRegion once s U ∧
    (s.stats 0).used.toNat ≠ liveChunks once s U 0 := by
  have hs : ∃ s, shmSlabInit .zero (2 ^ 40) (2 ^ 36) (fun _ ↦ 0) = .ok (once, s) ∧
      2 ^ 32 ≤ 504 * s.pages := by
    rw [shmSlabInit, init_zero, if_pos (by decide)]
    dsimp only
    rw [if_pos (by decide)]
    exact ⟨_, rfl, by decide⟩
  obtain ⟨s, hs, hp⟩ := hs
  obtain ⟨s', U, hrun, hU, hlen, -⟩ := exists_run_eights (r := largeRegion) hs hp
  obtain ⟨-, T, hT⟩ := hrun.holds
  have hcount : liveChunks once s' U 0 = 2 ^ 32 := by
    rw [hT.liveChunks_eq, ← hlen]
    refine List.countP_eq_length.mpr fun t ht ↦ ?_
    rw [hU t ht]
    decide
  refine ⟨s', U, hrun, ?_⟩
  rw [hcount, hT.used, ← hT.liveChunks_eq, hcount]
  decide

end Dlbase.Slab
