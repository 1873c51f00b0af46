import Dlbase.Slab.Alloc

/-!
# Freeing

`dl_slab_free` finds out from the descriptor of a page what a pointer into it points to.  A page
that has been full goes back into the list of its slot, and a page without chunks is freed.
-/

namespace Dlbase.Slab

open Cmem

variable {s s' : Pool} {i j k n m c p shift : Nat} {T A B : List Seg} {seg : Seg} {r q h : Ref}
  {cs : List Nat} {full empty : Bool} {f g : Page → Page} {slab : Word}

/-- Two nodes may be changed in any order. -/
theorem put_comm (hfg : ∀ p, f (g p) = g (f p)) :
    (s.put r f).put q g = (s.put q g).put r f := by
  by_cases hrq : r = q
  · subst hrq
    simp only [Pool.put, Function.update_idem, Function.update_self, hfg]
  · have hq : (s.put r f).node q = s.node q := node_put_of_ne (Ne.symm hrq) f
    have hr : (s.put q g).node r = s.node r := node_put_of_ne hrq g
    rw [Pool.put, hq, Pool.put.eq_1 (s.put q g), hr]
    simp only [Pool.put, Function.update_comm hrq]

/-- A page of chunks that is in the list of its slot, with any number of chunks. -/
structure Opened (s : Pool) (A : List Seg) (shift : Nat) (cs : List Nat) (B : List Seg) : Prop where
  /-- The other pages. -/
  gap : Gap s A 1 B (some (.slot (shift - 3), total A))
  /-- There is a slot for the chunks. -/
  shift_ge : 3 ≤ shift
  /-- There is a slot for the chunks. -/
  shift_le : shift ≤ 11
  /-- The tag. -/
  type : (s.node (.page (total A))).type = typeOf once shift
  /-- The descriptor. -/
  slab : SlabOk shift (s.node (.page (total A))).slab
  /-- The bitmap. -/
  marked : ∀ c, c < chunkCount shift → (s.Marked (total A) shift c ↔ c < reserved shift ∨ c ∈ cs)
  /-- Each chunk is allocated once. -/
  nodup : cs.Nodup
  /-- The chunks are in the page, behind the bitmap. -/
  range : ∀ c ∈ cs, reserved shift ≤ c ∧ c < chunkCount shift
  /-- The page is in a list. -/
  next : (s.node (.page (total A))).next ≠ none
  /-- No two free runs are next to each other. -/
  separated : Separated A ∧ Separated B
  /-- The free pages are counted. -/
  pfree : s.pfree = BitVec.ofNat 32 (freeTotal A + freeTotal B)

/-! ## Back into the list of the slot -/

/-- A full page comes first in the list of its slot. -/
theorem relink_spec (hg : Gap s A 1 B none) (hh : h.IsHead) (hslot : h = .slot k) :
    ∃ s', s.relink (total A) k h.listType = .ok s' ∧ Gap s' A 1 B (some (h, total A)) ∧ Kept s s' ∧
      (s'.node (.page (total A))).slab = (s.node (.page (total A))).slab ∧
      (s'.node (.page (total A))).type = h.listType ∧
      (s'.node (.page (total A))).next ≠ none := by
  subst hslot
  have hhas : s.Has (.slot k) := decide_eq_true (by rw [hg.base.slots]; exact hh)
  let p := s.node (.slot k)
  let f : Page → Page := fun q ↦
    { q with next := p.next, prev := some (.slot k), type := Ref.listType (.slot k) }
  obtain ⟨s₁, hs₁⟩ : ∃ s₁, s.put (.page (total A)) f = s₁ := ⟨_, rfl⟩
  have hg₁ : Gap s₁ A 1 B none := hs₁ ▸ hg.put (by omega) nofun
  have hnode : s₁.node (.page (total A)) = f (s.node (.page (total A))) := hs₁ ▸ node_put_self _ _
  have hslot : s₁.node (.slot k) = p := by rw [← hs₁, node_put_of_ne hh.ne_page]
  obtain ⟨s', b, hb, hha, hhb, hs', hg', hf⟩ := hg₁.push hh (j := total A) (by omega)
    (by rw [hnode, hslot]) (by rw [hnode]) (by rw [hnode])
  rw [hslot] at hb
  have hnode' : s'.node (.page (total A)) = f (s.node (.page (total A))) :=
    (hf.node _ (Nat.le_refl _) (by omega)).trans hnode
  refine ⟨s', ?_, hg', (hs₁ ▸ Kept.put _ _ _ : Kept s s₁).trans hf.toKept, by rw [hnode'],
    by rw [hnode'], ?_⟩
  · rw [Pool.relink, load_eq hhas, Exec.ok_bind, store_eq (hg.has (by omega)), Exec.ok_bind]
    change (s.put (.page (total A)) f).store (some (.slot k)) _ >>= (fun s ↦ s.store p.next _) = _
    rw [hs₁, store_eq hha, Exec.ok_bind, hb, store_eq (by rwa [has_put]), hs']
    exact congrArg Except.ok (put_comm fun _ ↦ rfl)
  · rw [hnode']
    change p.next ≠ none
    rw [hb]
    nofun

/-- The page of a chunk that is freed is in the list of its slot, or it is put there. -/
theorem relinkIf_spec (full : Bool) (hs : Shape s (A ++ .chunks shift cs :: B))
    (hfull : full = true ↔ Full shift cs) :
    ∃ s', s.relinkIf (total A) (shift - 3) (typeOf once shift) full = .ok s' ∧
      Opened s' A shift cs B ∧ Kept s s' ∧
      (s'.node (.page (total A))).slab = (s.node (.page (total A))).slab := by
  have hlen := hs.length
  rw [total_append, total_cons] at hlen
  change total A + (1 + total B) = s.pages at hlen
  have hok : ChunksOk s (total A) shift cs := hs.segs (total A, .chunks shift cs) (by
    rw [placed_middle, Nat.zero_add]
    exact List.mem_append_right _ List.mem_cons_self)
  have hg : Gap s A 1 B (linkOf (total A, .chunks shift cs)) := hs.gap (by omega)
  have hsep : Separated A ∧ Separated B :=
    ⟨hs.separated.left_of_append, hs.separated.right_of_append.of_cons⟩
  have hpfree : s.pfree = BitVec.ofNat 32 (freeTotal A + freeTotal B) := by
    have hp := hs.pfree
    rw [freeTotal_middle] at hp
    change _ = BitVec.ofNat 32 (freeTotal A + (0 + freeTotal B)) at hp
    rwa [Nat.zero_add] at hp
  rw [Pool.relinkIf]
  cases full with
  | false =>
    have hnot : ¬ Full shift cs := fun hf ↦ nomatch hfull.mpr hf
    have hlink : linkOf (total A, .chunks shift cs) = some (.slot (shift - 3), total A) :=
      (linkOf_chunks hok.shift_ge).mpr ⟨(Nat.sub_add_cancel hok.shift_ge).symm, hnot⟩
    exact ⟨s, rfl, ⟨hlink ▸ hg, hok.shift_ge, hok.shift_le, hok.type, hok.slab, hok.marked, hok.nodup,
      hok.range, fun hn ↦ hnot (hok.next.mp hn), hsep, hpfree⟩, .refl s, rfl⟩
  | true =>
    have hhead : Ref.IsHead (.slot (shift - 3)) := by
      have := hok.shift_le
      exact show shift - 3 < 9 by omega
    have htype : Ref.listType (.slot (shift - 3)) = typeOf once shift := by
      rw [Ref.listType, Nat.sub_add_cancel hok.shift_ge]
    have hlink : linkOf (total A, .chunks shift cs) = none := by
      rw [linkOf, Seg.list, if_pos (hfull.mp rfl)]
      rfl
    obtain ⟨s', hs', hg', hkept, hslab, ht, hnext⟩ := relink_spec (hlink ▸ hg) hhead rfl
    rw [htype] at hs' ht
    refine ⟨s', hs', ⟨hg', hok.shift_ge, hok.shift_le, ht, hslab ▸ hok.slab, fun c hc ↦ ?_, hok.nodup,
      hok.range, hnext, hsep, hkept.pfree.trans hpfree⟩, hkept, hslab⟩
    rw [marked_congr hkept.layout.start hkept.words hslab]
    exact hok.marked c hc

/-! ## A chunk less -/

/-- What a call of `dl_slab_free` does for what it is given back. -/
structure Freed (s : Pool) (T : List Seg) (e : Nat × Piece) (s' : Pool) (T' : List Seg) : Prop where
  /-- The pool is divided into the parts `T'`. -/
  shape : Shape s' T'
  /-- The layout. -/
  layout : Same s s'
  /-- The piece is free. -/
  pieces : (pieces s.start 0 T).Perm (e :: pieces s.start 0 T')
  /-- It is no longer counted. -/
  used : ∀ k, (s'.stats k).used = (s.stats k).used - if e.2 = .chunk (k + 3) then 1 else 0

theorem used_uncount {f : Stat → Stat} (hf : ∀ t, (f t).used = t.used - 1) :
    ((s.setStat k f).stats j).used = (s.stats j).used - if j = k then 1 else 0 := by
  rw [stats_setStat]
  split_ifs with hj
  · rw [hf, hj]
  · exact (BitVec.sub_zero _).symm

/-- A chunk has been cleared: if there are others the page stays, and else it is freed. -/
theorem releaseIf_spec {s₁ s₂ : Pool} (total' : Nat) (ho : Opened s₁ A shift cs B) (hc : c ∈ cs)
    (hcl : Cleared s₁ s₂ (total A) shift c empty) :
    ∃ s' T', s₂.releaseIf (total A) (shift - 3) total' empty = .ok s' ∧
      Freed s₁ (A ++ .chunks shift cs :: B)
        (s₁.start + 4096 * total A + c * 2 ^ shift, .chunk shift) s' T' := by
  have hlt := (ho.range c hc).2
  have hg₂ := ho.gap.local hcl.only
  have hdesc := hcl.only.desc
  have hmarked : ∀ c', c' < chunkCount shift →
      (s₂.Marked (total A) shift c' ↔ c' < reserved shift ∨ c' ∈ cs.erase c) := fun c' hc' ↦ by
    rw [hcl.marked c' hc', ho.marked c' hc', ho.nodup.mem_erase_iff]
    have := (ho.range c hc).1
    constructor
    · rintro ⟨hm, hne⟩
      exact hm.imp id fun hm ↦ ⟨hne, hm⟩
    · rintro (hlow | ⟨hne, hm⟩)
      · exact ⟨.inl hlow, by omega⟩
      · exact ⟨.inr hm, hne⟩
  have hempty : empty = true ↔ cs.erase c = [] := by
    rw [hcl.empty, List.eq_nil_iff_forall_not_mem]
    constructor
    · intro hall c' hc'
      obtain ⟨hge, hlt'⟩ := ho.range c' (List.mem_of_mem_erase hc')
      exact hall c' hge hlt' ((hmarked c' hlt').mpr (.inr hc'))
    · intro hnil c' hge hlt' hm
      exact ((hmarked c' hlt').mp hm).elim (by omega) (hnil c')
  have hpieces : ∀ B', pieces s₁.start (total A + 1) B' = pieces s₁.start (total A + 1) B →
      (pieces s₁.start 0 (A ++ .chunks shift cs :: B)).Perm
        ((s₁.start + 4096 * total A + c * 2 ^ shift, .chunk shift) ::
          (pieces s₁.start 0 A ++ (piecesOf s₁.start (total A, .chunks shift (cs.erase c)) ++
            pieces s₁.start (total A + 1) B'))) := fun B' hB ↦ by
    have hperm : (piecesOf s₁.start (total A, .chunks shift cs)).Perm
        ((s₁.start + 4096 * total A + c * 2 ^ shift, .chunk shift) ::
          piecesOf s₁.start (total A, .chunks shift (cs.erase c))) :=
      (List.perm_cons_erase hc).map _
    rw [pieces_middle, Nat.zero_add, hB, List.append_assoc]
    exact ((hperm.append_right _).append_left _).trans List.perm_middle
  have hstart : s₂.start = s₁.start := hcl.only.layout.start
  have hused : ∀ {s' : Pool} {f : Stat → Stat}, s'.stats = s₁.stats →
      (∀ t, (f t).used = t.used - 1) → ∀ k, ((s'.setStat (shift - 3) f).stats k).used =
        (s₁.stats k).used - if Piece.chunk shift = .chunk (k + 3) then 1 else 0 := fun hstats hf k ↦ by
    have := ho.shift_ge
    rw [used_uncount hf, hstats]
    congr 1
    refine if_congr ?_ rfl rfl
    rw [Piece.chunk.injEq]
    omega
  rw [Pool.releaseIf]
  by_cases he : empty = true
  · have hnil := hempty.mp he
    obtain ⟨s₃, T', hs₃, hshape, hsame, -, hstats, hpc, -⟩ := freePages_spec hg₂
      (fun h j hx ↦ ⟨(Prod.mk.inj (Option.some.inj hx)).2.symm, rfl⟩)
      (iff_of_false (by rw [hdesc]; exact ho.next) nofun) (hcl.only.pfree.trans ho.pfree)
    let f : Stat → Stat := fun t ↦
      { t with total := t.total - BitVec.ofNat 32 total', used := t.used - 1 }
    refine ⟨s₃.setStat (shift - 3) f, T', by rw [if_pos he, hs₃]; rfl, ⟨hshape.count _,
      (hcl.only.layout.trans hsame).trans ⟨rfl, rfl, rfl, rfl, rfl, rfl, rfl⟩, ?_,
      hused (hstats.trans hcl.only.stats) fun _ ↦ rfl⟩⟩
    rw [hpc]
    have := hpieces B rfl
    rwa [hnil] at this
  · refine ⟨_, A ++ .chunks shift (cs.erase c) :: B, if_neg he, ⟨Shape.count ?_ _,
      hcl.only.layout.trans ⟨rfl, rfl, rfl, rfl, rfl, rfl, rfl⟩, ?_,
      hused hcl.only.stats fun _ ↦ rfl⟩⟩
    · have hnot : ¬ Full shift (cs.erase c) := fun hf ↦
        ((ho.nodup.mem_erase_iff).mp (hf c (ho.range c hc).1 hlt)).1 rfl
      have hlink : linkOf (total A, .chunks shift (cs.erase c)) =
          some (.slot (shift - 3), total A) :=
        (linkOf_chunks ho.shift_ge).mpr ⟨(Nat.sub_add_cancel ho.shift_ge).symm, hnot⟩
      refine Gap.shape (hlink ▸ hg₂) ⟨ho.shift_ge, ho.shift_le, by rw [hdesc]; exact ho.type,
        hcl.slab ho.slab, hmarked, ho.nodup.erase c, fun hnil ↦ he (hempty.mpr hnil),
        fun c' hc' ↦ ho.range c' (List.mem_of_mem_erase hc'),
        iff_of_false (by rw [hdesc]; exact ho.next) hnot⟩
        (Separated.insert ho.separated.1 ho.separated.2 not_false) ?_
      rw [hcl.only.pfree, ho.pfree, freeTotal_middle]
      change _ = BitVec.ofNat 32 (freeTotal A + (0 + freeTotal B))
      rw [Nat.zero_add]
    · refine (hpieces B rfl).trans (.of_eq (congrArg (_ :: ·) ?_))
      rw [pieces_middle, Nat.zero_add, List.append_assoc]
      rfl

/-! ## The kinds of pages -/

theorem Freed.of_kept {s₁ : Pool} {e : Nat × Piece} {T' : List Seg} (hk : Kept s s₁)
    (hf : Freed s₁ T e s' T') : Freed s T e s' T' :=
  ⟨hf.shape, hk.layout.trans hf.layout, hk.layout.start ▸ hf.pieces, fun k ↦ hk.stats ▸ hf.used k⟩

theorem chunkCount_mul (h : 3 ≤ shift) (h' : shift ≤ 11) : chunkCount shift * 2 ^ shift = 4096 := by
  obtain rfl | rfl | rfl | rfl | rfl | rfl | rfl | rfl | rfl : shift = 3 ∨ shift = 4 ∨ shift = 5 ∨
    shift = 6 ∨ shift = 7 ∨ shift = 8 ∨ shift = 9 ∨ shift = 10 ∨ shift = 11 := by omega
  all_goals rfl

/-- Where a chunk is. -/
structure Place (s : Pool) (p i shift c : Nat) : Prop where
  /-- In the pool. -/
  start_le : s.start ≤ p
  /-- The page. -/
  page : (p - s.start) >>> 12 = i
  /-- The start of the page. -/
  bitmap : p - p % 4096 = s.start + 4096 * i
  /-- The pointer is aligned. -/
  aligned : p % 2 ^ shift = 0
  /-- The chunk. -/
  chunk : p % 4096 / 2 ^ shift = c

theorem place_chunk (hdvd : 4096 ∣ s.start) (h : 3 ≤ shift) (h' : shift ≤ 11)
    (hc : c < chunkCount shift) : Place s (s.start + 4096 * i + c * 2 ^ shift) i shift c := by
  have hpow : 0 < 2 ^ shift := Nat.two_pow_pos shift
  have hmul := chunkCount_mul h h'
  have hlt : c * 2 ^ shift < 4096 := hmul ▸ Nat.mul_lt_mul_of_pos_right hc hpow
  have hdiv : 2 ^ shift ∣ 4096 := ⟨chunkCount shift, by rw [Nat.mul_comm, hmul]⟩
  have hmod : (s.start + 4096 * i + c * 2 ^ shift) % 4096 = c * 2 ^ shift := by omega
  refine ⟨by omega, ?_, by omega, ?_, ?_⟩
  · rw [Nat.shiftRight_eq_div_pow]
    omega
  · exact Nat.mod_eq_zero_of_dvd (Nat.dvd_add (Nat.dvd_add (Nat.dvd_trans hdiv hdvd)
      (Nat.dvd_trans hdiv (Nat.dvd_mul_right _ _))) (Nat.dvd_mul_left _ _))
  · rw [hmod, Nat.mul_div_cancel _ hpow]

/-- The descriptor of a page of chunks. -/
theorem Shape.chunksOk (hs : Shape s (A ++ .chunks shift cs :: B)) : ChunksOk s (total A) shift cs :=
  hs.segs (total A, .chunks shift cs) (by
    rw [placed_middle, Nat.zero_add]
    exact List.mem_append_right _ List.mem_cons_self)

/-- The shift in the descriptor. -/
theorem toNat_and_shiftMask (hslab : SlabOk shift slab) (h : 3 ≤ shift) (h' : shift ≤ 11)
    (hne : shift ≠ 6) : (slab &&& shiftMask).toNat = shift := by
  have hand : slab &&& shiftMask = BitVec.ofNat 64 shift := by
    rcases Nat.lt_or_gt_of_ne hne with hlt | hlt
    · rw [hslab.1 hlt]
      obtain rfl | rfl | rfl : shift = 3 ∨ shift = 4 ∨ shift = 5 := by omega
      all_goals rfl
    · exact (hslab.2 hlt).1
  rw [hand]
  exact Nat.mod_eq_of_lt (by omega)

/-- The branch for small chunks clears a bit that is set. -/
theorem freeSmall_cleared (hs : Shape s (A ++ .chunks shift cs :: B)) (hlt : shift < 6)
    (hc : c < chunkCount shift) (hbit : s.Marked (total A) shift c)
    (hp : Place s p (total A) shift c) :
    ∃ s₁ s₂ empty, Opened s₁ A shift cs B ∧ Kept s s₁ ∧ Cleared s₁ s₂ (total A) shift c empty ∧
      s.freeSmall once (total A) p (s.node (.page (total A))) =
        s₂.releaseIf (total A) (shift - 3) (4096 >>> shift - mapChunks once shift) empty := by
  have hok := hs.chunksOk
  obtain ⟨htype, -⟩ := small_facts hok.shift_ge hlt
  have hshift := toNat_and_shiftMask hok.slab hok.shift_ge hok.shift_le (by omega)
  obtain ⟨s₁, hs₁, ho, hkept, -⟩ := relinkIf_spec ((s.node (.page (total A))).next = none) hs
    (decide_eq_true_iff.trans hok.next)
  obtain ⟨s₂, hs₂, hcl⟩ := clearSmall_spec (s := s₁) (i := total A) ho.shift_ge hlt hc
  refine ⟨s₁, s₂, _, ho, hkept, hcl, ?_⟩
  have hchunk : p % once.pagesize / 2 ^ shift = c := hp.chunk
  have hmap : p - p % once.pagesize = s.start + 4096 * total A := hp.bitmap
  rw [marked_small hlt, ← and_twoPow_ne_zero (Nat.mod_lt _ (by decide))] at hbit
  rw [htype] at hs₁
  rw [hkept.layout.start] at hs₂ ⊢
  rw [Pool.freeSmall]
  dsimp only
  rw [hshift, hchunk, hmap, if_neg (not_not.mpr hp.aligned), if_pos hbit, hs.base.minShift, hs₁,
    Exec.ok_bind, hs₂]
  rfl

theorem freeSmall_spec (hs : Shape s (A ++ .chunks shift cs :: B)) (hc : c ∈ cs) (hlt : shift < 6)
    (hp : Place s p (total A) shift c) :
    ∃ s' T', s.freeSmall once (total A) p (s.node (.page (total A))) = .ok s' ∧
      Freed s (A ++ .chunks shift cs :: B)
        (s.start + 4096 * total A + c * 2 ^ shift, .chunk shift) s' T' := by
  have hok := hs.chunksOk
  have hcount := (hok.range c hc).2
  obtain ⟨s₁, s₂, empty, ho, hkept, hcl, heq⟩ :=
    freeSmall_cleared hs hlt hcount ((hok.marked c hcount).mpr (.inr hc)) hp
  obtain ⟨s', T', hs', hfreed⟩ := releaseIf_spec (4096 >>> shift - mapChunks once shift) ho hc hcl
  rw [hkept.layout.start] at hfreed
  exact ⟨s', T', heq.trans hs', hfreed.of_kept hkept⟩

theorem freeExact_spec (hs : Shape s (A ++ .chunks 6 cs :: B)) (hc : c ∈ cs)
    (hp : Place s p (total A) 6 c) :
    ∃ s' T', s.freeExact once (total A) p (s.node (.page (total A))) = .ok s' ∧
      Freed s (A ++ .chunks 6 cs :: B)
        (s.start + 4096 * total A + c * 2 ^ 6, .chunk 6) s' T' := by
  have hok := hs.chunksOk
  have hcount : c < 64 := (hok.range c hc).2
  have hbit := (hok.marked c hcount).mpr (.inr hc)
  have hfull : (s.node (.page (total A))).slab = busy ↔ Full 6 cs := by
    rw [full_iff_marked hok.marked, eq_busy_iff]
    exact forall_congr' fun c ↦ imp_congr_right fun _ ↦ marked_exact.symm
  obtain ⟨s₁, hs₁, ho, hkept, hslab⟩ := relinkIf_spec ((s.node (.page (total A))).slab = busy) hs
    (decide_eq_true_iff.trans hfull)
  obtain ⟨s', T', hs', hfreed⟩ := releaseIf_spec 64 ho hc (clearExact_spec (s := s₁) (i := total A))
  rw [hkept.layout.start] at hfreed
  rw [hslab] at hs'
  refine ⟨s', T', ?_, hfreed.of_kept hkept⟩
  have hchunk : (p % once.pagesize) >>> once.exactShift = c := by
    rw [Nat.shiftRight_eq_div_pow]
    exact hp.chunk
  have haligned : ¬ p % once.exactSize ≠ 0 := not_not.mpr hp.aligned
  rw [marked_exact, ← and_twoPow_ne_zero hcount] at hbit
  rw [Pool.freeExact]
  dsimp only
  rw [hchunk, if_neg haligned, if_pos hbit, hs.base.minShift]
  change (s.relinkIf (total A) 3 .exact _ >>= _) = _
  rw [show s.relinkIf (total A) 3 .exact _ = _ from hs₁, Exec.ok_bind,
    store_eq (ho.gap.has (by omega)), Exec.ok_bind]
  exact hs'

theorem freeBig_spec (hs : Shape s (A ++ .chunks shift cs :: B)) (hc : c ∈ cs) (hlt : 6 < shift)
    (hp : Place s p (total A) shift c) :
    ∃ s' T', s.freeBig once (total A) p (s.node (.page (total A))) = .ok s' ∧
      Freed s (A ++ .chunks shift cs :: B)
        (s.start + 4096 * total A + c * 2 ^ shift, .chunk shift) s' T' := by
  have hok := hs.chunksOk
  have hcount := (hok.range c hc).2
  have hbit := (hok.marked c hcount).mpr (.inr hc)
  obtain ⟨htype, hle, -⟩ := big_facts hlt hok.shift_le
  have hshift := toNat_and_shiftMask hok.slab hok.shift_ge hok.shift_le (by omega)
  obtain ⟨s₁, hs₁, ho, hkept, hslab⟩ := relinkIf_spec ((s.node (.page (total A))).next = none) hs
    (decide_eq_true_iff.trans hok.next)
  obtain ⟨s', T', hs', hfreed⟩ := releaseIf_spec (4096 >>> shift) ho hc
    (clearBig_spec (s := s₁) (i := total A) hlt hok.shift_le hcount ho.slab)
  rw [hkept.layout.start] at hfreed
  rw [hslab] at hs'
  refine ⟨s', T', ?_, hfreed.of_kept hkept⟩
  have hchunk : p % once.pagesize / 2 ^ shift = c := hp.chunk
  rw [marked_big hlt, ← and_twoPow_ne_zero (by omega)] at hbit
  rw [htype] at hs₁
  rw [Pool.freeBig]
  dsimp only
  rw [hshift, hchunk, if_neg (not_not.mpr hp.aligned), if_pos hbit, hs.base.minShift, hs₁,
    Exec.ok_bind, store_eq (ho.gap.has (by omega)), Exec.ok_bind]
  exact hs'

/-- The number of pages in the descriptor of a run. -/
theorem pageStart_facts (hn : n < 2 ^ 32) :
    (BitVec.ofNat 64 n ||| pageStart) &&& pageStart ≠ 0 ∧ BitVec.ofNat 64 n ||| pageStart ≠ busy ∧
      ((BitVec.ofNat 64 n ||| pageStart) &&& ~~~pageStart).toNat % 2 ^ 32 = n := by
  have hhigh : ∀ j, 32 ≤ j → (BitVec.ofNat 64 n).getLsbD j = false := fun j hj ↦ by
    have hlt : n < 2 ^ j := Nat.lt_of_lt_of_le hn (Nat.pow_le_pow_right (by decide) hj)
    rw [BitVec.getLsbD_ofNat, Nat.testBit_lt_two_pow hlt, Bool.and_false]
  have hmask : (BitVec.ofNat 64 n ||| pageStart) &&& ~~~pageStart = BitVec.ofNat 64 n := by
    refine BitVec.eq_of_getLsbD_eq fun j hj ↦ Bool.eq_iff_iff.mpr ?_
    change ((_ ||| BitVec.twoPow 64 63) &&& ~~~BitVec.twoPow 64 63).getLsbD j ↔ _
    rw [getLsbD_and_not_twoPow, getLsbD_or_twoPow (by decide)]
    constructor
    · rintro ⟨hb | rfl, hne⟩
      · exact hb
      · exact absurd rfl hne
    · intro hb
      refine ⟨.inl hb, ?_⟩
      rintro rfl
      rw [hhigh 63 (by decide)] at hb
      cases hb
  refine ⟨?_, fun hbusy ↦ ?_, ?_⟩
  · change (_ ||| BitVec.twoPow 64 63) &&& BitVec.twoPow 64 63 ≠ 0
    rw [and_twoPow_ne_zero (by decide), getLsbD_or_twoPow (by decide)]
    exact .inr rfl
  · have hbit : (BitVec.ofNat 64 n ||| BitVec.twoPow 64 63).getLsbD 62 :=
      eq_busy_iff.mp hbusy 62 (by decide)
    rw [getLsbD_or_twoPow (by decide), hhigh 62 (by decide)] at hbit
    rcases hbit with hbit | hbit
    · cases hbit
    · omega
  · rw [hmask, toNat_ofNat_lt hn, Nat.mod_eq_of_lt hn]

theorem freeRun_spec (hs : Shape s (A ++ .alloc n :: B)) (hp : p = s.start + 4096 * total A) :
    ∃ s' T', s.freeRun once (total A) p (s.node (.page (total A))) = .ok s' ∧
      Freed s (A ++ .alloc n :: B) (s.start + 4096 * total A, .pages n) s' T' := by
  obtain ⟨hpos, hslab, hnext, -⟩ : SegOk s (total A) (.alloc n) := hs.segs (total A, .alloc n) (by
    rw [placed_middle, Nat.zero_add]
    exact List.mem_append_right _ List.mem_cons_self)
  have hlen := hs.length
  have hlt := hs.base.pages_lt
  rw [total_append, total_cons] at hlen
  change total A + (n + total B) = s.pages at hlen
  obtain ⟨hstart, hbusy, hcount⟩ := pageStart_facts (n := n) (by omega)
  have hpfree := hs.pfree
  rw [freeTotal_middle] at hpfree
  change _ = BitVec.ofNat 32 (freeTotal A + (0 + freeTotal B)) at hpfree
  rw [Nat.zero_add] at hpfree
  have hg : Gap s A n B none := hs.gap (by omega)
  obtain ⟨s', T', hs', hshape, hsame, -, hstats, hpieces, -⟩ := freePages_spec hg nofun
    (iff_of_true hnext rfl) hpfree
  refine ⟨s', T', ?_, hshape, hsame, ?_, fun k ↦ ?_⟩
  · have haligned : p % once.pagesize = 0 := by
      obtain ⟨q, hq⟩ := hs.base.dvd
      change p % 4096 = 0
      omega
    rw [Pool.freeRun, hslab, if_neg, hcount]
    · exact hs'
    · rintro (h | h | h)
      · exact h haligned
      · exact hstart h
      · exact hbusy h
  · rw [hpieces, pieces_middle, Nat.zero_add, List.append_assoc]
    exact List.perm_middle
  · rw [hstats, if_neg nofun]
    exact (BitVec.sub_zero _).symm

/-! ## Any piece -/

/-- What is allocated is in the page that its address is in. -/
theorem free_piece {x : Exec Pool} (hs : Shape s T) (hi : i < s.pages)
    (hp : s.start + 4096 * i ≤ p) (hp' : p < s.start + 4096 * (i + 1))
    (hx : (match (s.node (.page i)).type with
      | .small => s.freeSmall once i p (s.node (.page i))
      | .exact => s.freeExact once i p (s.node (.page i))
      | .big => s.freeBig once i p (s.node (.page i))
      | .page => s.freeRun once i p (s.node (.page i))) = x) : s.free once p = x := by
  have hend : s.start + 4096 * s.pages ≤ s.end := hs.base.end_le.resolve_right (by omega)
  have hpage : (p - s.start) >>> once.pagesizeShift = i := by
    change (p - s.start) >>> 12 = i
    rw [Nat.shiftRight_eq_div_pow]
    omega
  have hdescs := hs.base.pages_le
  have hhas : s.Has (.page i) := decide_eq_true (by omega)
  rw [Pool.free, if_neg (by omega), hpage]
  dsimp only
  rw [load_eq hhas]
  exact hx

/-- `dl_slab_free` frees a piece. -/
theorem free_spec {e : Nat × Piece} (hs : Shape s T) (he : e ∈ pieces s.start 0 T) :
    ∃ s' T', s.free once e.1 = .ok s' ∧ Freed s T e s' T' := by
  obtain ⟨⟨i, seg⟩, hplace, hmem⟩ := List.mem_flatMap.mp he
  obtain ⟨A, B, rfl, hA⟩ := exists_split hplace
  rw [Nat.zero_add] at hA
  obtain rfl : i = total A := hA.symm
  have hlen := hs.length
  rw [total_append, total_cons] at hlen
  dsimp only at hlen hs
  cases seg with
  | free n => cases hmem
  | alloc n =>
    obtain rfl := List.mem_singleton.mp hmem
    obtain ⟨hpos, -, -, htype, -⟩ : SegOk s (total A) (.alloc n) := hs.segs _ hplace
    obtain ⟨s', T', hs', hfreed⟩ := freeRun_spec hs rfl
    change total A + (n + total B) = s.pages at hlen
    refine ⟨s', T', free_piece hs (i := total A) (by omega) (Nat.le_refl _) (by omega) ?_, hfreed⟩
    rw [htype]
    exact hs'
  | chunks shift cs =>
    obtain ⟨c, hc, rfl⟩ := List.mem_map.mp hmem
    have hok := hs.chunksOk
    have hcount := (hok.range c hc).2
    have hp := place_chunk (s := s) (i := total A) hs.base.dvd hok.shift_ge hok.shift_le hcount
    have hlt : c * 2 ^ shift < 4096 := chunkCount_mul hok.shift_ge hok.shift_le ▸
      Nat.mul_lt_mul_of_pos_right hcount (Nat.two_pow_pos shift)
    change total A + (1 + total B) = s.pages at hlen
    rcases Nat.lt_trichotomy shift 6 with hshift | rfl | hshift
    · obtain ⟨s', T', hs', hfreed⟩ := freeSmall_spec hs hc hshift hp
      refine ⟨s', T', free_piece hs (i := total A) (by omega) (Nat.le_add_right _ _)
        (by dsimp only; omega) ?_, hfreed⟩
      rw [hok.type, (small_facts hok.shift_ge hshift).1]
      exact hs'
    · obtain ⟨s', T', hs', hfreed⟩ := freeExact_spec hs hc hp
      refine ⟨s', T', free_piece hs (i := total A) (by omega) (Nat.le_add_right _ _)
        (by dsimp only; omega) ?_, hfreed⟩
      rw [hok.type]
      exact hs'
    · obtain ⟨s', T', hs', hfreed⟩ := freeBig_spec hs hc hshift hp
      refine ⟨s', T', free_piece hs (i := total A) (by omega) (Nat.le_add_right _ _)
        (by dsimp only; omega) ?_, hfreed⟩
      rw [hok.type, (big_facts hshift hok.shift_le).1]
      exact hs'

end Dlbase.Slab
