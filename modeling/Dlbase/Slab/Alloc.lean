import Dlbase.Slab.Fixed
import Dlbase.Slab.Join
import Dlbase.Slab.Take

/-!
# Allocating

`dl_slab_alloc` takes a chunk of the first page of a slot, makes a page of chunks if the slot has
none with a free chunk, or takes whole pages.
-/

namespace Dlbase.Slab

open Cmem

variable {s s' : Pool} {i j k n m c size shift : Nat} {T A B : List Seg} {seg : Seg} {r h : Ref}
  {cs : List Nat} {full : Bool} {x : Option (Ref × Nat)} {p : Nat}

/-! ## The counters -/

theorem Shape.count (hs : Shape s T) (stats : Nat → Stat) : Shape { s with stats } T :=
  ⟨⟨hs.base.minSize, hs.base.minShift, hs.base.slots, hs.base.pages_le, hs.base.descs_pos,
    hs.base.pages_lt, hs.base.dvd, hs.base.end_le⟩, hs.length, fun e he ↦ by
      have hok := hs.segs e he
      obtain ⟨i, seg⟩ := e
      cases seg with
      | free n => exact hok
      | alloc n => exact hok
      | chunks shift cs => exact ⟨hok.shift_ge, hok.shift_le, hok.type, hok.slab, hok.marked,
          hok.nodup, hok.ne_nil, hok.range, hok.next⟩, hs.separated, hs.lists, hs.pfree, hs.spare⟩

theorem stats_setStat (k j : Nat) (f : Stat → Stat) :
    (s.setStat k f).stats j = if j = k then f (s.stats k) else s.stats j := by
  by_cases hj : j = k
  · subst hj
    rw [if_pos rfl]
    exact Function.update_self _ _ _
  · rw [if_neg hj]
    exact Function.update_of_ne hj _ _

/-- Other counters do not matter for the chunks in use. -/
theorem used_setStat {f : Stat → Stat} (hf : ∀ t, (f t).used = t.used) :
    ((s.setStat k f).stats j).used = (s.stats j).used := by
  rw [stats_setStat]
  split_ifs with hj
  · rw [hf, hj]
  · rfl

theorem used_count : ((s.count k).stats j).used = (s.stats j).used + if j = k then 1 else 0 := by
  rw [Pool.count, stats_setStat]
  split_ifs with hj
  · rw [hj]
  · exact (BitVec.add_zero _).symm

/-- A chunk is not taken if not all of them are allocated. -/
theorem ChunksOk.exists_free (h : ChunksOk s i shift cs) (hfull : ¬ Full shift cs) :
    ∃ c, c < chunkCount shift ∧ ¬ s.Marked i shift c := by
  rw [Full] at hfull
  push Not at hfull
  obtain ⟨c, hres, hlt, hc⟩ := hfull
  exact ⟨c, hlt, fun hm ↦ ((h.marked c hlt).mp hm).elim (by omega) hc⟩

/-- The bits are all set if and only if all chunks are allocated. -/
theorem full_iff_marked (hm : ∀ c, c < chunkCount shift → (s.Marked i shift c ↔
    c < reserved shift ∨ c ∈ cs)) :
    Full shift cs ↔ ∀ c, c < chunkCount shift → s.Marked i shift c := by
  constructor
  · intro hfull c hc
    refine (hm c hc).mpr ?_
    by_cases hres : c < reserved shift
    · exact .inl hres
    · exact .inr (hfull c (Nat.le_of_not_lt hres) hc)
  · intro hall c hres hc
    exact ((hm c hc).mp (hall c hc)).resolve_left (Nat.not_lt.mpr hres)

/-! ## A chunk of a page that there is -/

/-- A page without free chunks is taken out of the list of its slot. -/
theorem unlinkFull_spec (hg : Gap s A 1 B (some (h, total A))) (type : PageType) (full : Bool) :
    ∃ s', s.unlinkFull (total A) type full = .ok s' ∧
      Gap s' A 1 B (if full then none else some (h, total A)) ∧ Kept s s' ∧
      (full = false → s' = s) ∧ (full = true → s'.node (.page (total A)) =
        { s.node (.page (total A)) with next := none, prev := none, type }) := by
  rw [Pool.unlinkFull]
  cases full with
  | false => exact ⟨s, rfl, hg, .refl s, fun _ ↦ rfl, nofun⟩
  | true =>
    obtain ⟨s₁, hs₁, hg₁, hf⟩ := hg.unlink
    let f : Page → Page := fun p ↦ { p with next := none, prev := none, type }
    refine ⟨s₁.put (.page (total A)) f, ?_, hg₁.put (by omega) nofun, hf.toKept.trans (.put _ _ _),
      nofun, fun _ ↦ ?_⟩
    · rw [if_pos rfl, load_eq (hg.has (by omega)), Exec.ok_bind, hs₁, Exec.ok_bind,
        store_eq (hg₁.has (by omega))]
    · rw [node_put_self, hf.node _ (Nat.le_refl _) (by omega)]

/-- The bits of a page say the same if its descriptor and its words do. -/
theorem marked_congr (hstart : s'.start = s.start) (hwords : s'.words = s.words)
    (hslab : (s'.node (.page i)).slab = (s.node (.page i)).slab) (c : Nat) :
    s'.Marked i shift c ↔ s.Marked i shift c := by
  rw [Pool.Marked, Pool.Marked, hstart, hwords, hslab]

theorem linkOf_chunks (hge : 3 ≤ shift) : linkOf (i, .chunks shift cs) = some (.slot k, i) ↔
    shift = k + 3 ∧ ¬ Full shift cs := by
  rw [linkOf, Seg.list]
  split_ifs with hfull
  · exact iff_of_false (by rintro ⟨⟩) fun hc ↦ hc.2 hfull
  · rw [Option.map_some, Option.some_inj, Prod.mk.injEq, and_iff_left rfl, Ref.slot.injEq,
      and_iff_left hfull]
    omega

/-- A chunk is taken of a page that has a free one. -/
theorem firstPage_spec (hs : Shape s (A ++ .chunks shift cs :: B)) (hfull : ¬ Full shift cs) :
    ∃ s' c, (∀ fuel, s.firstPage once fuel (total A) (shift - 3) shift =
        .ok (s', some (s.start + 4096 * total A + c * 2 ^ shift))) ∧
      Shape s' (A ++ .chunks shift (c :: cs) :: B) ∧ Same s s' ∧
      s'.stats = (s.count (shift - 3)).stats := by
  have hlen := hs.length
  rw [total_append, total_cons] at hlen
  change total A + (1 + total B) = s.pages at hlen
  have hok : ChunksOk s (total A) shift cs := hs.segs (total A, .chunks shift cs) (by
    rw [placed_middle, Nat.zero_add]
    exact List.mem_append_right _ List.mem_cons_self)
  have hlink : linkOf (total A, .chunks shift cs) = some (.slot (shift - 3), total A) :=
    (linkOf_chunks hok.shift_ge).mpr ⟨(Nat.sub_add_cancel hok.shift_ge).symm, hfull⟩
  have hg : Gap s A 1 B (some (.slot (shift - 3), total A)) := hlink ▸ hs.gap (by omega)
  obtain ⟨s₁, c, full, htake, hT⟩ := takeChunk_spec hok.shift_ge hok.shift_le hok.slab
    (hok.exists_free hfull)
  obtain ⟨s₂, hs₂⟩ : ∃ s₂, s₁.count (shift - 3) = s₂ := ⟨_, rfl⟩
  have hg₂ : Gap s₂ A 1 B (some (.slot (shift - 3), total A)) :=
    hs₂ ▸ (hg.local hT.only).count _ _
  obtain ⟨s₃, hs₃, hg₃, hkept, hsame, hnode⟩ := unlinkFull_spec hg₂ (typeOf once shift) full
  have hdesc : s₂.node (.page (total A)) =
      { s.node (.page (total A)) with slab := (s₁.node (.page (total A))).slab } :=
    hs₂ ▸ hT.only.desc
  have hslab : (s₃.node (.page (total A))).slab = (s₁.node (.page (total A))).slab ∧
      (s₃.node (.page (total A))).type = typeOf once shift ∧
      ((s₃.node (.page (total A))).next = none ↔ full = true) := by
    cases full with
    | false =>
      rw [hsame rfl, hdesc]
      exact ⟨rfl, hok.type, iff_of_false (fun hn ↦ hfull (hok.next.mp hn)) nofun⟩
    | true =>
      rw [hnode rfl, hdesc]
      exact ⟨rfl, rfl, iff_of_true rfl rfl⟩
  have hmarked : ∀ c', s₃.Marked (total A) shift c' ↔ s₁.Marked (total A) shift c' := fun c' ↦
    marked_congr (by rw [hkept.layout.start, ← hs₂]; rfl) (by rw [hkept.words, ← hs₂]; rfl) hslab.1 c'
  have hin : ∀ c', c' < chunkCount shift → (s₃.Marked (total A) shift c' ↔
      c' < reserved shift ∨ c' ∈ c :: cs) := fun c' hc' ↦ by
    rw [hmarked, hT.marked c' hc', hok.marked c' hc', List.mem_cons]
    exact or_assoc.trans (or_congr_right or_comm)
  have hfull' : full = true ↔ Full shift (c :: cs) := by
    rw [full_iff_marked hin, hT.full]
    exact forall_congr' fun c' ↦ imp_congr_right fun _ ↦ (hmarked c').symm
  have hfresh : ¬ (c < reserved shift ∨ c ∈ cs) := fun hc ↦ hT.fresh ((hok.marked c hT.lt).mpr hc)
  have hok' : ChunksOk s₃ (total A) shift (c :: cs) := by
    refine ⟨hok.shift_ge, hok.shift_le, hslab.2.1, hslab.1 ▸ hT.slab hok.slab, hin,
      List.nodup_cons.mpr ⟨fun hc ↦ hfresh (.inr hc), hok.nodup⟩, nofun, fun c' hc' ↦ ?_,
      hslab.2.2.trans hfull'⟩
    rcases List.mem_cons.mp hc' with rfl | hc'
    · exact ⟨Nat.le_of_not_lt fun hc ↦ hfresh (.inl hc), hT.lt⟩
    · exact hok.range c' hc'
  have hlink' : linkOf (total A, .chunks shift (c :: cs)) =
      if full then none else some (.slot (shift - 3), total A) := by
    by_cases hf : full = true
    · rw [if_pos hf, linkOf, Seg.list, if_pos (hfull'.mp hf)]
      rfl
    · rw [if_neg hf]
      exact (linkOf_chunks hok.shift_ge).mpr ⟨(Nat.sub_add_cancel hok.shift_ge).symm,
        fun hc ↦ hf (hfull'.mpr hc)⟩
  have hlayout : Same s s₃ :=
    (hT.only.layout.trans (hs₂ ▸ ⟨rfl, rfl, rfl, rfl, rfl, rfl, rfl⟩)).trans hkept.layout
  refine ⟨s₃, c, fun fuel ↦ ?_, ?_, hlayout, ?_⟩
  · rw [Pool.firstPage, htake]
    change ((s₁.count (shift - 3)).unlinkFull _ _ full >>= _) = _
    rw [hs₂, hs₃, Exec.ok_bind, pageAddr_once, hlayout.start, Nat.shiftLeft_eq]
    rfl
  · refine Gap.shape (hlink' ▸ hg₃) hok' (Separated.insert hs.separated.left_of_append
      hs.separated.right_of_append.of_cons not_false) ?_
    rw [hkept.pfree, ← hs₂]
    change s₁.pfree = _
    rw [hT.only.pfree, hs.pfree, freeTotal_middle, freeTotal_middle]
    rfl
  · rw [hkept.stats, ← hs₂]
    change Function.update s₁.stats _ _ = Function.update s.stats _ _
    rw [hT.only.stats]

/-! ## A new page of chunks -/

/-- The bits of a new page of small chunks. -/
theorem newSmall_spec (h : 3 ≤ shift) (h' : shift < 6) :
    ∃ s', (s.setWord (s.start + 4096 * i) (2#64 <<< mapChunks once shift - 1)).zeroWords
        (s.start + 4096 * i) 1 (mapWords once shift - 1) = s' ∧ Local s s' i ∧
      ∀ c, c < chunkCount shift → (s'.Marked i shift c ↔ c ≤ reserved shift) := by
  obtain ⟨-, hcount, hpos, hmap, hres, -, hlt, -⟩ := small_facts h h'
  obtain ⟨s₁, hs₁⟩ : ∃ s₁, s.setWord (s.start + 4096 * i) (2#64 <<< mapChunks once shift - 1) = s₁ :=
    ⟨_, rfl⟩
  have hlocal : Local s s₁ i := hs₁ ▸ .setWord (by omega) (by omega) _
  have hstart : s₁.start = s.start := hlocal.layout.start
  have hfirst : s₁.words (s.start + 4096 * i) = 2#64 <<< mapChunks once shift - 1 :=
    hs₁ ▸ Function.update_self _ _ _
  obtain ⟨hin, hout⟩ := zeroWords_words (s := s₁) (s.start + 4096 * i) 1
    (mapWords once shift - 1)
  have hbits : ∀ j, j < 64 → ((2#64 <<< mapChunks once shift - 1).getLsbD j ↔
      j ≤ reserved shift) := by
    rw [hres]
    obtain rfl | rfl | rfl : shift = 3 ∨ shift = 4 ∨ shift = 5 := by omega
    all_goals decide
  refine ⟨_, by rw [hs₁], hlocal.trans (zeroWords_local (by rw [hstart]) (by omega)), fun c hc ↦ ?_⟩
  have hstart' : (s₁.zeroWords (s.start + 4096 * i) 1 (mapWords once shift - 1)).start = s.start :=
    ((Same.refl s₁).zeroWords.start).trans hstart
  rw [marked_small h', hstart']
  by_cases hdiv : c / 64 = 0
  · rw [hdiv, hout _ fun j hj _ ↦ by omega, Nat.mod_eq_of_lt (by omega)]
    change BitVec.getLsbD (s₁.words (s.start + 4096 * i)) c ↔ _
    rw [hfirst, hbits c (by omega)]
  · rw [hin (c / 64) (by omega) (by omega)]
    exact iff_of_false (eq_zero_iff.mp rfl _ (Nat.mod_lt _ (by decide))) (by omega)

/-- The descriptor of a new page. -/
def newDesc (slab : Word) (slot : Nat) (type : PageType) : Page :=
  ⟨slab, some (.slot slot), some (.slot slot), type⟩

/-- A page becomes a page of chunks, the first of which is taken. -/
theorem newChunks_spec (hg : Gap s A 1 B none) (h : 3 ≤ shift) (h' : shift ≤ 11) :
    ∃ s' slab total', s.newChunks once (total A) (shift - 3) shift =
        .ok (s', reserved shift, total') ∧ Gap s' A 1 B none ∧ Same s s' ∧ s'.stats = s.stats ∧
      s'.pfree = s.pfree ∧ (∀ r : Ref, r ≠ .page (total A) → s'.node r = s.node r) ∧
      s'.node (.page (total A)) = newDesc slab (shift - 3) (typeOf once shift) ∧ SlabOk shift slab ∧
      ∀ c, c < chunkCount shift → (s'.Marked (total A) shift c ↔ c ≤ reserved shift) := by
  have hhas := hg.has (j := total A) (by omega)
  rw [Pool.newChunks]
  rcases Nat.lt_trichotomy shift 6 with hlt | rfl | hlt
  · obtain ⟨htype, -, -, -, hres, -⟩ := small_facts h hlt
    obtain ⟨s₁, hs₁, hlocal, hmarked⟩ := newSmall_spec (s := s) (i := total A) h hlt
    have hg₁ := hg.local hlocal
    let v := newDesc (BitVec.ofNat 64 shift) (shift - 3) .small
    refine ⟨s₁.put (.page (total A)) fun _ ↦ v, BitVec.ofNat 64 shift,
      chunkCount shift - reserved shift, ?_, hg₁.put (by omega) (by rintro _ ⟨⟩),
      hlocal.layout.trans (.put _ _ _), hlocal.stats, hlocal.pfree, fun r hr ↦ ?_, ?_,
      ⟨fun _ ↦ rfl, fun hlt' ↦ absurd hlt' (by omega)⟩, fun c hc ↦ ?_⟩
    · rw [htype, pageAddr_once]
      dsimp only
      rw [hs₁, store_eq (hg₁.has (by omega)), Exec.ok_bind, hres]
      rfl
    · rw [node_put_of_ne hr, hlocal.node r hr]
    · rw [node_put_self, htype]
    · rw [← hmarked c hc, marked_small hlt, marked_small hlt]
      rfl
  · let v := newDesc 1 3 .exact
    refine ⟨s.put (.page (total A)) fun _ ↦ v, 1, 64, ?_,
      hg.put (by omega) (by rintro _ ⟨⟩), .put _ _ _, rfl, rfl, fun r hr ↦ node_put_of_ne hr _, ?_,
      ⟨fun h ↦ absurd h (by decide), fun h ↦ absurd h (by decide)⟩, fun c hc ↦ ?_⟩
    · change (s.store _ _ >>= _) = _
      rw [store_eq hhas]
      rfl
    · rw [node_put_self]
      rfl
    · have hbits : ∀ c, c < 64 → ((1 : Word).getLsbD c ↔ c ≤ reserved 6) := by decide
      rw [marked_exact, node_put_self]
      exact hbits c hc
  · obtain ⟨htype, hle, hpos, hres, -⟩ := big_facts hlt h'
    let slab := BitVec.twoPow 64 32 ||| BitVec.ofNat 64 shift
    let v := newDesc slab (shift - 3) .big
    have hbits : ∀ j, j < 64 → (slab.getLsbD j ↔ j = 32 ∨ (BitVec.ofNat 64 shift).getLsbD j) :=
      fun j _ ↦ by
      change (BitVec.twoPow 64 32 ||| BitVec.ofNat 64 shift).getLsbD j ↔ _
      rw [BitVec.or_comm, getLsbD_or_twoPow (by decide)]
      exact or_comm
    have hlow : ∀ j, 4 ≤ j → ¬ (BitVec.ofNat 64 shift).getLsbD j := fun j hj hm ↦ by
      have hpow : 2 ^ 4 ≤ 2 ^ j := Nat.pow_le_pow_right (by decide) hj
      rw [BitVec.getLsbD_ofNat, Nat.testBit_lt_two_pow (by omega), Bool.and_false] at hm
      cases hm
    refine ⟨s.put (.page (total A)) fun _ ↦ v, slab, chunkCount shift, ?_,
      hg.put (by omega) (by rintro _ ⟨⟩), .put _ _ _, rfl, rfl, fun r hr ↦ node_put_of_ne hr _, ?_,
      ⟨fun hlt' ↦ absurd hlt' (by omega), fun _ ↦ ⟨?_, fun j hj ↦ ?_⟩⟩, fun c hc ↦ ?_⟩
    · rw [htype, hres]
      change (s.store _ _ >>= _) = _
      rw [store_eq hhas]
      rfl
    · rw [node_put_self, htype]
    · obtain rfl | rfl | rfl | rfl | rfl : shift = 7 ∨ shift = 8 ∨ shift = 9 ∨ shift = 10 ∨
        shift = 11 := by omega
      all_goals decide
    · by_cases hj' : j < 64
      · rw [Bool.eq_false_iff]
        intro hm
        exact ((hbits j hj').mp hm).elim (fun heq ↦ by omega) (hlow j (by omega))
      · exact BitVec.getLsbD_of_ge _ _ (Nat.le_of_not_lt hj')
    · rw [marked_big hlt, node_put_self]
      refine (hbits (c + 32) (by omega)).trans ?_
      rw [hres]
      exact ⟨fun hm ↦ by
        have := hm.resolve_right (hlow (c + 32) (by omega))
        omega, fun hc ↦ .inl (by omega)⟩

/-- The page of the gap becomes the first one of a list that has been empty. -/
theorem Gap.pushFirst (hg : Gap s A 1 B none) (hh : h.IsHead) (hempty : (s.node h).next = some h)
    (hnext : (s.node (.page (total A))).next = some h)
    (hprev : (s.node (.page (total A))).prev = some h)
    (ht : (s.node (.page (total A))).type = h.listType) :
    Gap (s.put h fun p ↦ { p with next := some (.page (total A)) }) A 1 B (some (h, total A)) := by
  obtain ⟨l, hl, hperm⟩ := hg.listed hh
  obtain rfl := hl.circle.eq_nil hl.nodup hempty
  rw [linked, List.append_nil] at hperm
  have hne : .page (total A) ≠ h := hh.ne_page.symm
  have hr : Relinked s (s.put h fun p ↦ { p with next := some (.page (total A)) }) h [] :=
    ⟨.put _ _ _, rfl, rfl, rfl, fun r hr _ ↦ node_put_of_ne hr _, (by rintro _ ⟨⟩)⟩
  refine (hg.relinked hh hr hperm ⟨[.page (total A)], ⟨?_, ?_, ?_⟩, ?_⟩ (by rintro _ _ ⟨⟩)
    fun h' j heq ↦ ?_).1
  · rw [Pool.next, node_put_self]
  · rw [Pool.prev, node_put_of_ne hne]
    exact hprev
  · change (Pool.next _ _) = _
    rw [Pool.next, node_put_of_ne hne]
    exact hnext
  · rw [linked_self, List.append_assoc, List.singleton_append]
    exact (hperm.cons _).trans List.perm_middle.symm
  · obtain ⟨rfl, rfl⟩ := Prod.mk.inj (Option.some.inj heq)
    exact ⟨rfl, by omega, ht⟩

/-- One chunk does not make a page full. -/
theorem not_full_singleton (h : 3 ≤ shift) (h' : shift ≤ 11) : ¬ Full shift [reserved shift] := by
  intro hfull
  have hlt : reserved shift + 1 < chunkCount shift := by
    obtain rfl | rfl | rfl | rfl | rfl | rfl | rfl | rfl | rfl : shift = 3 ∨ shift = 4 ∨ shift = 5 ∨
      shift = 6 ∨ shift = 7 ∨ shift = 8 ∨ shift = 9 ∨ shift = 10 ∨ shift = 11 := by omega
    all_goals decide
  have hm := List.mem_singleton.mp (hfull (reserved shift + 1) (Nat.le_succ _) hlt)
  omega

/-- A page that has been allocated becomes a page of chunks. -/
theorem chunks_spec (hs : Shape s (A ++ .alloc 1 :: B)) (h : 3 ≤ shift) (h' : shift ≤ 11)
    (hempty : (s.node (.slot (shift - 3))).next = some (.slot (shift - 3))) :
    ∃ s₁ s₂ total', s.newChunks once (total A) (shift - 3) shift =
        .ok (s₁, reserved shift, total') ∧
      s₁.store (some (.slot (shift - 3))) (fun p ↦ { p with next := some (.page (total A)) }) =
        .ok s₂ ∧
      Shape s₂ (A ++ .chunks shift [reserved shift] :: B) ∧ Same s s₂ ∧ s₂.stats = s.stats := by
  have hlen := hs.length
  rw [total_append, total_cons] at hlen
  change total A + (1 + total B) = s.pages at hlen
  have hg : Gap s A 1 B none := hs.gap (by omega)
  obtain ⟨s₁, slab, total', hs₁, hg₁, hsame, hstats, hpfree, hother, hnode, hslab, hmarked⟩ :=
    newChunks_spec hg h h'
  have hhead : Ref.IsHead (.slot (shift - 3)) := show shift - 3 < 9 by omega
  have hempty₁ : (s₁.node (.slot (shift - 3))).next = some (.slot (shift - 3)) := by
    rw [hother _ hhead.ne_page]
    exact hempty
  have htype : typeOf once shift = Ref.listType (.slot (shift - 3)) := by
    rw [Ref.listType, Nat.sub_add_cancel h]
  let f : Page → Page := fun p ↦ { p with next := some (.page (total A)) }
  obtain ⟨s₂, hs₂⟩ : ∃ s₂, s₁.put (.slot (shift - 3)) f = s₂ := ⟨_, rfl⟩
  have hg₂ : Gap s₂ A 1 B (some (.slot (shift - 3), total A)) := hs₂ ▸
    hg₁.pushFirst hhead hempty₁ (by rw [hnode]; rfl) (by rw [hnode]; rfl) (by rw [hnode]; exact htype)
  have hnode₂ : s₂.node (.page (total A)) = newDesc slab (shift - 3) (typeOf once shift) := by
    rw [← hs₂, node_put_of_ne hhead.ne_page.symm, hnode]
  have hfull := not_full_singleton h h'
  have hlt : reserved shift < chunkCount shift := Nat.lt_of_not_le fun hle ↦ hfull
    fun c hc hc' ↦ by omega
  have hok : ChunksOk s₂ (total A) shift [reserved shift] := by
    refine ⟨h, h', by rw [hnode₂]; rfl, by rw [hnode₂]; exact hslab, fun c hc ↦ ?_,
      List.nodup_singleton _, (by rintro ⟨⟩), fun c hc ↦ ?_, iff_of_false ?_ hfull⟩
    · have hcongr : s₂.Marked (total A) shift c ↔ s₁.Marked (total A) shift c :=
        marked_congr (hs₂ ▸ rfl) (hs₂ ▸ rfl) (by rw [hnode₂, hnode]) c
      rw [hcongr, hmarked c hc, List.mem_singleton]
      exact Nat.le_iff_lt_or_eq
    · obtain rfl := List.mem_singleton.mp hc
      exact ⟨Nat.le_refl _, hlt⟩
    · rw [hnode₂]
      rintro ⟨⟩
  have hlink : linkOf (total A, .chunks shift [reserved shift]) =
      some (.slot (shift - 3), total A) :=
    (linkOf_chunks h).mpr ⟨(Nat.sub_add_cancel h).symm, hfull⟩
  refine ⟨s₁, s₂, total', hs₁, ?_, Gap.shape (hlink ▸ hg₂) hok (Separated.insert
    hs.separated.left_of_append hs.separated.right_of_append.of_cons not_false) ?_,
    hsame.trans (hs₂ ▸ .put _ _ _), ?_⟩
  · rw [store_eq, hs₂]
    exact decide_eq_true (by rw [hg₁.base.slots]; omega)
  · rw [← hs₂]
    change s₁.pfree = _
    rw [hpfree, hs.pfree, freeTotal_middle, freeTotal_middle]
    rfl
  · rw [← hs₂]
    exact hstats

/-! ## What is allocated -/

/-- What is allocated for a request. -/
def pieceOf (size : Nat) : Piece :=
  if 2048 < size then .pages ((size >>> 12) + if size % 4096 ≠ 0 then 1 else 0)
  else .chunk (if 8 < size then 1 + halvings (size - 1) else 3)

/-- The number of bytes. -/
def Piece.bytes : Piece → Nat
  | .pages n => 4096 * n
  | .chunk shift => 2 ^ shift

/-- A request gets at least what it asks for. -/
theorem le_bytes_pieceOf (size : Nat) : size ≤ (pieceOf size).bytes := by
  rw [pieceOf]
  split_ifs with hbig hmod hsmall
  · rw [Piece.bytes, Nat.shiftRight_eq_div_pow]
    omega
  · rw [Piece.bytes, Nat.shiftRight_eq_div_pow]
    omega
  · rw [Piece.bytes, halvings_eq, Nat.add_comm]
    have := Nat.lt_log2_self (n := size - 1)
    omega
  · rw [Piece.bytes]
    omega

/-- The shift of a small request. -/
theorem pieceOf_small (hsize : size ≤ 2048) : ∃ shift, pieceOf size = .chunk shift ∧ 3 ≤ shift ∧
    shift ≤ 11 ∧ ∀ s : Pool, Base s → s.slotOf size = (shift - 3, shift) := by
  rw [pieceOf, if_neg (Nat.not_lt.mpr hsize)]
  by_cases hsmall : 8 < size
  · have hlo : 3 ≤ Nat.log2 (size - 1) := (Nat.le_log2 (by omega)).mpr (by omega)
    have hhi : Nat.log2 (size - 1) < 11 := (Nat.log2_lt (by omega)).mpr (by omega)
    refine ⟨_, rfl, ?_, ?_, fun s hb ↦ ?_⟩
    · rw [if_pos hsmall, halvings_eq]
      omega
    · rw [if_pos hsmall, halvings_eq]
      omega
    · rw [Pool.slotOf, hb.minSize, hb.minShift, if_pos hsmall, if_pos hsmall]
  · refine ⟨_, rfl, ?_, ?_, fun s hb ↦ ?_⟩
    · rw [if_neg hsmall]
    · rw [if_neg hsmall]
      decide
    · rw [Pool.slotOf, hb.minSize, hb.minShift, if_neg hsmall, if_neg hsmall]

/-- There is no room for a request. -/
def NoRoom (T : List Seg) : Piece → Prop
  | .pages n => ∀ j m, (j, Seg.free m) ∈ placed 0 T → m < n
  | .chunk shift => members (.slot (shift - 3)) 0 T = [] ∧
      ∀ j m, (j, Seg.free m) ∈ placed 0 T → m < 1

/-- What a call of `dl_slab_alloc` does. -/
inductive Allocated (s : Pool) (T : List Seg) (size : Nat) : Pool → Option Nat → Prop
  /-- It fails. -/
  | fail {s' : Pool} (hroom : NoRoom T (pieceOf size)) (hshape : Shape s' T) (hsame : Same s s')
      (hused : ∀ k, (s'.stats k).used = (s.stats k).used) : Allocated s T size s' none
  /-- It returns a pointer to what has been allocated. -/
  | ok {s' : Pool} {T' : List Seg} {p : Nat} (hshape : Shape s' T') (hsame : Same s s')
      (hpieces : (pieces s.start 0 T').Perm ((p, pieceOf size) :: pieces s.start 0 T))
      (hused : ∀ k, (s'.stats k).used =
        (s.stats k).used + if pieceOf size = .chunk (k + 3) then 1 else 0) :
      Allocated s T size s' (some p)

/-- A run that is allocated is a new piece. -/
theorem pieces_rest_alloc {start : Nat} (hnm : n ≤ m) :
    (pieces start 0 (A ++ .alloc n :: rest n m B)).Perm
      ((start + 4096 * total A, .pages n) :: pieces start 0 (A ++ .free m :: B)) := by
  rw [pieces_middle, pieces_middle, Nat.zero_add]
  change (pieces start 0 A ++ [_] ++ pieces start (total A + n) (rest n m B)).Perm
    (_ :: (pieces start 0 A ++ [] ++ pieces start (total A + m) B))
  rw [pieces_rest hnm, List.append_nil, List.append_assoc, List.singleton_append]
  exact List.perm_middle

/-- A chunk of a new page is a new piece. -/
theorem pieces_rest_chunk {start : Nat} (hm : 1 ≤ m) :
    (pieces start 0 (A ++ .chunks shift [c] :: rest 1 m B)).Perm
      ((start + 4096 * total A + c * 2 ^ shift, .chunk shift) ::
        pieces start 0 (A ++ .free m :: B)) := by
  rw [pieces_middle, pieces_middle, Nat.zero_add]
  change (pieces start 0 A ++ [_] ++ pieces start (total A + 1) (rest 1 m B)).Perm
    (_ :: (pieces start 0 A ++ [] ++ pieces start (total A + m) B))
  rw [pieces_rest hm, List.append_nil, List.append_assoc, List.singleton_append]
  exact List.perm_middle

/-- One more chunk of a page is a new piece. -/
theorem pieces_chunk {start : Nat} : (pieces start 0 (A ++ .chunks shift (c :: cs) :: B)).Perm
    ((start + 4096 * total A + c * 2 ^ shift, .chunk shift) ::
      pieces start 0 (A ++ .chunks shift cs :: B)) := by
  rw [pieces_middle, pieces_middle, Nat.zero_add]
  change (pieces start 0 A ++ (_ :: piecesOf start (total A, .chunks shift cs)) ++ _).Perm _
  rw [List.append_assoc, List.append_assoc, List.cons_append]
  exact List.perm_middle

/-! ## The three ways to allocate -/

/-- Whole pages. -/
theorem alloc_pages (hs : Shape s T) (hsize : 2048 < size) (hn : pieceOf size = .pages n)
    (hlt : n < 2 ^ 32) : ∃ s' r, Returns (fun fuel ↦ s.alloc once fuel size) (s', r) ∧
      Allocated s T size s' r := by
  rw [pieceOf, if_pos hsize] at hn
  have hn := Piece.pages.inj hn
  have hpos : 0 < n := by
    rw [← hn, Nat.shiftRight_eq_div_pow]
    split_ifs <;> omega
  have hrun : ∀ fuel, s.alloc once fuel size =
      s.allocPages fuel n >>= fun r ↦ pure (r.1, r.2.map (r.1.pageAddr once)) := fun fuel ↦ by
    have hmax : once.maxSize < size := hsize
    have hmod : (size >>> 12 + if size % 4096 ≠ 0 then 1 else 0) % 2 ^ 32 = n := by
      rw [hn, Nat.mod_eq_of_lt hlt]
    rw [Pool.alloc, if_pos hmax]
    change (s.allocPages fuel ((size >>> 12 + if size % 4096 ≠ 0 then 1 else 0) % 2 ^ 32) >>= _) = _
    rw [hmod]
  have hpiece : pieceOf size = .pages n := by rw [pieceOf, if_pos hsize, hn]
  rcases allocPages_spec hs hpos with ⟨⟨N, hN⟩, hroom⟩ | ⟨A, m, B, s', rfl, hle, ⟨N, hN⟩, hshape, hsame,
    -, hstats⟩
  · refine ⟨s, none, ⟨N, fun fuel hfuel ↦ ?_⟩, .fail (hpiece ▸ hroom) hs (.refl s) fun _ ↦ rfl⟩
    change s.alloc once fuel size = _
    rw [hrun, show s.allocPages fuel n = _ from hN fuel hfuel]
    rfl
  · refine ⟨s', some (s.start + 4096 * total A), ⟨N, fun fuel hfuel ↦ ?_⟩, .ok hshape hsame
      (hpiece ▸ pieces_rest_alloc hle) fun k ↦ ?_⟩
    · change s.alloc once fuel size = _
      rw [hrun, show s.allocPages fuel n = _ from hN fuel hfuel]
      change Except.ok (s', some (s'.pageAddr once (total A))) = _
      rw [pageAddr_once, hsame.start]
    · rw [hstats, hpiece, if_neg (by rintro ⟨⟩)]
      exact (BitVec.add_zero _).symm

/-- No slot has a page among the free ones. -/
theorem members_slot_rest (hnm : n ≤ m) :
    members (.slot k) 0 (A ++ .alloc n :: rest n m B) = members (.slot k) 0 (A ++ .free m :: B) := by
  have hrest : members (.slot k) (0 + total A + n) (rest n m B) =
      members (.slot k) (0 + total A + m) B := by
    rw [rest]
    split_ifs with heq
    · rw [heq]
    · rw [members_cons, members_singleton, if_neg (by rintro ⟨⟩), List.nil_append]
      change members _ (0 + total A + n + (m - n)) B = _
      rw [Nat.add_assoc, Nat.add_sub_cancel' hnm]
  rw [members_append, members_append, members_cons, members_cons (T := B), members_singleton,
    members_singleton, if_neg (by rintro ⟨⟩), if_neg (by rintro ⟨⟩)]
  exact congrArg (members (.slot k) 0 A ++ ·) hrest

/-- A list without nodes. -/
theorem Shape.next_head (hs : Shape s T) (hh : h.IsHead) (hnil : members h 0 T = []) :
    (s.node h).next = some h := by
  obtain ⟨l, hc, hl⟩ := hs.lists h hh
  rw [hnil] at hl
  obtain rfl := hl.eq_nil
  exact hc

/-- The first chunk of a new page. -/
theorem newPage_spec (hs : Shape s T) (h : 3 ≤ shift) (h' : shift ≤ 11)
    (hnil : members (.slot (shift - 3)) 0 T = []) (hsize : pieceOf size = .chunk shift) :
    ∃ s' r, Returns (fun fuel ↦ s.newPage once fuel (shift - 3) shift) (s', r) ∧
      Allocated s T size s' r := by
  have hhead : Ref.IsHead (.slot (shift - 3)) := show shift - 3 < 9 by omega
  rcases allocPages_spec hs Nat.one_pos with ⟨⟨N, hN⟩, hroom⟩ | ⟨A, m, B, s₁, rfl, hle, ⟨N, hN⟩,
    hshape, hsame, -, hstats⟩
  · refine ⟨s.setStat (shift - 3) fun t ↦ { t with fails := t.fails + 1 }, none,
      ⟨N, fun fuel hfuel ↦ ?_⟩, .fail (hsize ▸ ⟨hnil, hroom⟩) (hs.count _)
        ((Same.refl s).setStat _ _) fun k ↦ ?_⟩
    · change s.newPage once fuel _ _ = _
      rw [Pool.newPage, show s.allocPages fuel 1 = _ from hN fuel hfuel]
      rfl
    · exact used_setStat fun _ ↦ rfl
  · have hempty := hshape.next_head hhead ((members_slot_rest hle).trans hnil)
    obtain ⟨s₂, s₃, total', hs₂, hs₃, hshape₃, hsame₃, hstats₃⟩ := chunks_spec hshape h h' hempty
    let f : Stat → Stat := fun t ↦ { t with total := t.total + BitVec.ofNat 32 total' }
    refine ⟨(s₃.setStat (shift - 3) f).count (shift - 3),
      some (s.start + 4096 * total A + reserved shift * 2 ^ shift), ⟨N, fun fuel hfuel ↦ ?_⟩,
      .ok (hshape₃.count _) ((hsame.trans hsame₃).trans ⟨rfl, rfl, rfl, rfl, rfl, rfl, rfl⟩)
        (hsize ▸ pieces_rest_chunk hle) fun k ↦ ?_⟩
    · change s.newPage once fuel _ _ = _
      rw [Pool.newPage, show s.allocPages fuel 1 = _ from hN fuel hfuel, Exec.ok_bind]
      change (s₁.newChunks once (total A) (shift - 3) shift >>= _) = _
      rw [hs₂, Exec.ok_bind]
      change (s₂.store _ _ >>= _) = _
      rw [hs₃, Exec.ok_bind]
      change Except.ok (_, some (s₃.pageAddr once (total A) + reserved shift <<< shift)) = _
      rw [pageAddr_once, (hsame.trans hsame₃).start, Nat.shiftLeft_eq]
    · rw [used_count, used_setStat (f := f) fun _ ↦ rfl, hstats₃, hstats, hsize]
      congr 1
      refine if_congr ?_ rfl rfl
      rw [Piece.chunk.injEq]
      omega

/-- A page in the list of a slot has chunks for that slot, and a free one. -/
theorem chunks_of_member (hs : Shape s T) (hr : r ∈ members (.slot k) 0 T) :
    ∃ A cs B, T = A ++ .chunks (k + 3) cs :: B ∧ ¬ Full (k + 3) cs ∧ r = .page (total A) := by
  obtain ⟨⟨i, seg⟩, he, hl, rfl⟩ := mem_members.mp hr
  have hok := hs.segs _ he
  obtain ⟨A, B, rfl, hA⟩ := exists_split he
  rw [Nat.zero_add] at hA
  cases seg with
  | free n => cases Option.some.inj hl
  | alloc n => cases hl
  | chunks shift cs =>
    dsimp only at hl hA ⊢
    rw [Seg.list] at hl
    split_ifs at hl with hfull
    have hge := ChunksOk.shift_ge hok
    obtain rfl : shift = k + 3 := by
      have := Ref.slot.inj (Option.some.inj hl)
      omega
    exact ⟨A, cs, B, rfl, hfull, by rw [hA]⟩

/-- A chunk for a small request. -/
theorem alloc_chunk (hs : Shape s T) (hsize : size ≤ 2048) :
    ∃ s' r, Returns (fun fuel ↦ s.alloc once fuel size) (s', r) ∧ Allocated s T size s' r := by
  obtain ⟨shift, hpiece, hge, hle, hslot⟩ := pieceOf_small hsize
  have hhead : Ref.IsHead (.slot (shift - 3)) := show shift - 3 < 9 by omega
  have hmax : ¬ once.maxSize < size := Nat.not_lt.mpr hsize
  let f : Stat → Stat := fun t ↦ { t with reqs := t.reqs + 1 }
  obtain ⟨s₁, hs₁⟩ : ∃ s₁, s.setStat (shift - 3) f = s₁ := ⟨_, rfl⟩
  have hshape₁ : Shape s₁ T := hs₁ ▸ hs.count _
  have hsame₁ : Same s s₁ := hs₁ ▸ (Same.refl s).setStat _ _
  have hused₁ : ∀ k, (s₁.stats k).used = (s.stats k).used := fun k ↦
    hs₁ ▸ used_setStat (f := f) fun _ ↦ rfl
  have hhas : s₁.Has (.slot (shift - 3)) :=
    decide_eq_true (by rw [hshape₁.base.slots]; omega)
  -- what is done after the request is counted may be looked at alone
  have hlift : ∀ {s' r}, Allocated s₁ T size s' r → Allocated s T size s' r := fun hA ↦ by
    cases hA with
    | fail hroom hshape hsame hused =>
      exact .fail hroom hshape (hsame₁.trans hsame) fun k ↦ (hused k).trans (hused₁ k)
    | ok hshape hsame hpieces hused =>
      exact .ok hshape (hsame₁.trans hsame) (hsame₁.start ▸ hpieces) fun k ↦ by
        rw [hused, hused₁]
  obtain ⟨l, hc, hl⟩ := hshape₁.lists _ hhead
  have hnext : (s₁.node (.slot (shift - 3))).next = some (l.headD (.slot (shift - 3))) := hc.next_head
  rcases l with _ | ⟨r, l⟩
  · obtain ⟨s', r, ⟨N, hN⟩, hA⟩ := newPage_spec hshape₁ hge hle hl.symm.eq_nil hpiece
    refine ⟨s', r, ⟨N, fun fuel hfuel ↦ ?_⟩, hlift hA⟩
    change s.alloc once fuel size = _
    rw [Pool.alloc, if_neg hmax, hslot s hs.base]
    dsimp only
    rw [hs₁, load_eq hhas, Exec.ok_bind, hnext, List.headD_nil, load_eq hhas, Exec.ok_bind,
      if_neg fun hne ↦ hne hnext]
    exact hN fuel hfuel
  · obtain ⟨A, cs, B, rfl, hfull, rfl⟩ := chunks_of_member hshape₁ (hl.mem_iff.mp List.mem_cons_self)
    rw [Nat.sub_add_cancel hge] at hshape₁ hfull hl
    obtain ⟨s', c, hs', hshape, hsame, hstats⟩ := firstPage_spec hshape₁ hfull
    have hlen := hs.length
    rw [total_append, total_cons] at hlen
    change total A + (1 + total B) = s.pages at hlen
    have hdescs := hs.base.pages_le
    have hhas' : s₁.Has (.page (total A)) := decide_eq_true (by rw [hsame₁.descs]; omega)
    -- the page is not linked to itself
    have hne : (s₁.node (.page (total A))).next ≠ some (.page (total A)) := fun heq ↦ by
      obtain ⟨-, -, hp⟩ := hc
      have hn : (s₁.node (.page (total A))).next = some (l.headD (.slot (shift - 3))) := hp.next_first
      have hself : l.headD (.slot (shift - 3)) = .page (total A) :=
        Option.some.inj (hn.symm.trans heq)
      have hnodup := hl.nodup_iff.mpr (nodup_members (hshape₁.segs.pos (by rw [hsame₁.pages]; omega)))
      cases l with
      | nil => cases hself
      | cons q l =>
        obtain rfl := hself
        exact (List.nodup_cons.mp hnodup).1 List.mem_cons_self
    have hpieces : (pieces s₁.start 0 (A ++ .chunks shift (c :: cs) :: B)).Perm
        ((s₁.start + 4096 * total A + c * 2 ^ shift, pieceOf size) ::
          pieces s₁.start 0 (A ++ .chunks (shift - 3 + 3) cs :: B)) := by
      rw [hpiece, Nat.sub_add_cancel hge]
      exact pieces_chunk
    refine ⟨s', _, ⟨0, fun fuel _ ↦ ?_⟩, hlift (.ok hshape hsame hpieces fun k ↦ ?_)⟩
    · change s.alloc once fuel size = _
      rw [Pool.alloc, if_neg hmax, hslot s hs.base]
      dsimp only
      rw [hs₁, load_eq hhas, Exec.ok_bind, hnext, List.headD_cons, load_eq hhas', Exec.ok_bind,
        if_pos hne]
      exact hs' fuel
    · rw [hstats, used_count, hpiece]
      congr 1
      refine if_congr ?_ rfl rfl
      rw [Piece.chunk.injEq]
      omega

/-- `dl_slab_alloc` allocates what is asked for, or fails because there is no room. -/
theorem alloc_spec (hs : Shape s T) (hlt : ∀ n, pieceOf size = .pages n → n < 2 ^ 32) :
    ∃ s' r, Returns (fun fuel ↦ s.alloc once fuel size) (s', r) ∧ Allocated s T size s' r := by
  by_cases hsize : 2048 < size
  · have hpiece : pieceOf size = .pages ((size >>> 12) + if size % 4096 ≠ 0 then 1 else 0) :=
      if_pos hsize
    exact alloc_pages hs hsize hpiece (hlt _ hpiece)
  · exact alloc_chunk hs (Nat.le_of_not_lt hsize)

end Dlbase.Slab
