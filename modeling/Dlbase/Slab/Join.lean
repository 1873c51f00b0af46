import Dlbase.Slab.Pages

/-!
# Freeing pages

`dl_slab_free_pages` joins the pages that it frees with the free runs next to them, and puts the
run that comes out at the front of the free list.
-/

namespace Dlbase.Slab

open Cmem

variable {s s' : Pool} {i j k m n : Nat} {T A B : List Seg} {seg : Seg} {r : Ref}

/-- The gap is a free run that is in no list. -/
structure Loose (s : Pool) (A : List Seg) (n : Nat) (B : List Seg) : Prop where
  /-- The gap. -/
  gap : Gap s A n B none
  /-- The length of the run. -/
  slab : (s.node (.page (total A))).slab = BitVec.ofNat 64 n
  /-- The other pages of the run. -/
  blank : Blank s (total A) n

theorem typeOf_ne_page (g : Statics) (shift : Nat) : typeOf g shift ≠ .page := by
  rw [typeOf]
  split_ifs <;> nofun

theorem Loose.toNat (h : Loose s A n B) : (s.node (.page (total A))).slab.toNat = n := by
  have hlt := h.gap.base.pages_lt
  have hlen := h.gap.length
  rw [h.slab, toNat_ofNat_lt (by omega)]

/-! ## The run behind -/

/-- A free run is joined with the next one. -/
theorem joinRuns_next (h : Loose s A n (.free k :: B)) :
    ∃ s', s.joinRuns (total A) (total A + n) (s.node (.page (total A + n))) = .ok s' ∧
      Loose s' A (n + k) B ∧ Kept s s' := by
  have hg := h.gap
  have hn := hg.pos
  have hlen := hg.length
  rw [total_cons] at hlen
  change total A + n + (k + total B) = s.pages at hlen
  obtain ⟨hslab, htype, hne, hblank, -, -⟩ : SegOk s (total A + n) (.free k) :=
    hg.after _ List.mem_cons_self
  have hk : 0 < k := hg.pos_after _ List.mem_cons_self
  have hw : Gap s A (n + k) B (some (.free, total A + n)) := hg.widen
  let f : Page → Page := fun p ↦ { p with slab := p.slab + (s.node (.page (total A + n))).slab }
  obtain ⟨s₁, hs₁⟩ : ∃ s₁, s.put (.page (total A)) f = s₁ := ⟨_, rfl⟩
  have hg₁ : Gap s₁ A (n + k) B (some (.free, total A + n)) := hs₁ ▸ hw.put (by omega)
    fun _ _ ↦ ⟨rfl, rfl, rfl⟩
  have hnode : s₁.node (.page (total A + n)) = s.node (.page (total A + n)) := hs₁ ▸
    node_put_of_ne (fun heq ↦ absurd (Ref.page.inj heq) (by omega)) _
  obtain ⟨s₂, hs₂, hg₂, hf⟩ := hg₁.unlink
  let v : Page := ⟨0, none, none, .page⟩
  obtain ⟨s₃, hs₃⟩ : ∃ s₃, s₂.put (.page (total A + n)) (fun _ ↦ v) = s₃ := ⟨_, rfl⟩
  have hg₃ : Gap s₃ A (n + k) B none := hs₃ ▸ hg₂.put (by omega) nofun
  refine ⟨s₃, ?_, ⟨hg₃, ?_, fun j hj hj' ↦ ?_⟩, ?_⟩
  · rw [Pool.joinRuns, load_eq (hw.has (by omega)), Exec.ok_bind, store_eq (hg.has (by omega)),
      Exec.ok_bind, hs₁, ← hnode, hs₂, Exec.ok_bind, store_eq (hg₂.has (by omega)), hs₃]
  · rw [← hs₃, node_put_of_ne fun heq ↦ absurd (Ref.page.inj heq) (by omega),
      hf.node _ (Nat.le_refl _) (by omega), ← hs₁, node_put_self]
    change (s.node _).slab + (s.node _).slab = _
    rw [h.slab, hslab, BitVec.ofNat_add]
  · by_cases hjn : j = total A + n
    · subst hjn
      rw [← hs₃, node_put_self]
      exact ⟨rfl, rfl, rfl⟩
    · rw [← hs₃, node_put_of_ne fun heq ↦ hjn (Ref.page.inj heq), hf.node _ (by omega) hj', ← hs₁,
        node_put_of_ne fun heq ↦ absurd (Ref.page.inj heq) (by omega)]
      by_cases hlt : j < total A + n
      · exact h.blank j hj hlt
      · exact hblank j (by omega) (by omega)
  · exact ((hs₁ ▸ Kept.put s _ f : Kept s s₁).trans hf.toKept).trans (hs₃ ▸ .put _ _ _)

/-- `dl_slab_free_pages` joins the run with the next one, if that is free. -/
theorem joinNext_spec (h : Loose s A n B) :
    ∃ s' m B', s.joinNext (total A) (n - 1) = .ok (s', m - 1) ∧ Loose s' A m B' ∧ Kept s s' ∧
      (∀ b ∈ B'.head?, ¬ b.IsFree) ∧
      (∀ start, pieces start (total A + m) B' = pieces start (total A + n) B) ∧
      m + freeTotal B' = n + freeTotal B := by
  have hg := h.gap
  have hn := hg.pos
  have hload : s.load (some (.page (total A))) = .ok (s.node (.page (total A))) :=
    load_eq (hg.has (by omega))
  rcases B with _ | ⟨seg, B⟩
  · refine ⟨s, n, [], ?_, h, .refl s, nofun, fun _ ↦ rfl, rfl⟩
    have hlen : total A + n = s.pages := hg.length
    rw [Pool.joinNext, hload, Exec.ok_bind, h.toNat, if_neg (by omega)]
    rfl
  have hseg : SegOk s (total A + n) seg := hg.after _ List.mem_cons_self
  have hpos : 0 < seg.len := hg.pos_after _ List.mem_cons_self
  have hlen := hg.length
  have hdescs := hg.base.pages_le
  rw [total_cons] at hlen
  have hhas : s.Has (.page (total A + n)) := decide_eq_true (by omega)
  have hrun : s.joinNext (total A) (n - 1) =
      if (s.node (.page (total A + n))).type = .page ∧ (s.node (.page (total A + n))).next ≠ none
      then (do
        let s' ← s.joinRuns (total A) (total A + n) (s.node (.page (total A + n)))
        pure (s', n - 1 + (s.node (.page (total A + n))).slab.toNat))
      else pure (s, n - 1) := by
    rw [Pool.joinNext, hload, Exec.ok_bind, h.toNat]
    dsimp only
    rw [if_pos (by omega), load_eq hhas, Exec.ok_bind]
  cases seg with
  | free k =>
    obtain ⟨s', hs', hloose, hkept⟩ := joinRuns_next h
    have hk : (s.node (.page (total A + n))).slab.toNat = k := by
      rw [hseg.1]
      exact toNat_ofNat_lt (by have := hg.base.pages_lt; change _ + (k + _) = _ at hlen; omega)
    refine ⟨s', n + k, B, ?_, hloose, hkept, fun b hb hf ↦ ?_, fun start ↦ ?_, ?_⟩
    · rw [hrun, if_pos ⟨hseg.2.1, hseg.2.2.1⟩, hs', Exec.ok_bind, hk, Nat.sub_add_comm hn]
      rfl
    · exact (List.isChain_cons.mp hg.separated.2).1 b hb ⟨trivial, hf⟩
    · rw [← Nat.add_assoc]
      rfl
    · rw [freeTotal_cons, Nat.add_assoc]
      rfl
  | alloc k =>
    refine ⟨s, n, _, ?_, h, .refl s, fun b hb ↦ ?_, fun _ ↦ rfl, rfl⟩
    · rw [hrun, if_neg fun hc ↦ hc.2 hseg.2.2.1]
      rfl
    · obtain rfl := Option.some.inj hb
      exact not_false
  | chunks shift cs =>
    refine ⟨s, n, _, ?_, h, .refl s, fun b hb ↦ ?_, fun _ ↦ rfl, rfl⟩
    · rw [hrun, if_neg fun hc ↦ typeOf_ne_page once shift ((ChunksOk.type hseg).symm.trans hc.1)]
      rfl
    · obtain rfl := Option.some.inj hb
      exact not_false

/-! ## The run in front -/

/-- A free run is joined with the one in front. -/
theorem joinRuns_prev (h : Loose s (A ++ [.free k]) n B) :
    ∃ s', s.joinRuns (total A) (total A + k) (s.node (.page (total A))) = .ok s' ∧
      Loose s' A (k + n) B ∧ Kept s s' := by
  have hg := h.gap
  have hn := hg.pos
  have htotal : total (A ++ [.free k]) = total A + k := by
    rw [total_append, total_cons]
    rfl
  have hseg : (total A, Seg.free k) ∈ placed 0 (A ++ [.free k]) := by
    rw [placed_append, Nat.zero_add]
    exact List.mem_append_right _ List.mem_cons_self
  obtain ⟨hslab, -, -, hblank, -, -⟩ : SegOk s (total A) (.free k) := hg.before _ hseg
  have hk : 0 < k := hg.pos_before _ hseg
  have hw : Gap s A (k + n) B (some (.free, total A)) := hg.widenLeft
  have hslab' := h.slab
  have hblank' := h.blank
  rw [htotal] at hslab' hblank'
  let f : Page → Page := fun p ↦ { p with slab := p.slab + (s.node (.page (total A + k))).slab }
  obtain ⟨s₁, hs₁⟩ : ∃ s₁, s.put (.page (total A)) f = s₁ := ⟨_, rfl⟩
  have hg₁ : Gap s₁ A (k + n) B (some (.free, total A)) := hs₁ ▸ hw.put (by omega)
    fun _ _ ↦ ⟨rfl, rfl, rfl⟩
  have hnode : s₁.node (.page (total A)) = f (s.node (.page (total A))) := hs₁ ▸ node_put_self _ _
  obtain ⟨s₂, hs₂, hg₂, hf⟩ := hg₁.unlink
  let v : Page := ⟨0, none, none, .page⟩
  obtain ⟨s₃, hs₃⟩ : ∃ s₃, s₂.put (.page (total A + k)) (fun _ ↦ v) = s₃ := ⟨_, rfl⟩
  have hg₃ : Gap s₃ A (k + n) B none := hs₃ ▸ hg₂.put (by omega) nofun
  have hold : ∀ j, j ≠ total A → j ≠ total A + k → total A ≤ j → j < total A + (k + n) →
      s₃.node (.page j) = s.node (.page j) := fun j hj hj' hlo hhi ↦ by
    rw [← hs₃, node_put_of_ne fun heq ↦ hj' (Ref.page.inj heq), hf.node j hlo hhi, ← hs₁,
      node_put_of_ne fun heq ↦ hj (Ref.page.inj heq)]
  refine ⟨s₃, ?_, ⟨hg₃, ?_, fun j hj hj' ↦ ?_⟩, ?_⟩
  · rw [Pool.joinRuns, load_eq (hw.has (by omega)), Exec.ok_bind, store_eq (hw.has (by omega)),
      Exec.ok_bind, hs₁, unlink_congr _ (s₁.node (.page (total A))) (by rw [hnode])
        (by rw [hnode]) (by rw [hnode]), hs₂, Exec.ok_bind, store_eq (hg₂.has (by omega)), hs₃]
  · rw [← hs₃, node_put_of_ne fun heq ↦ absurd (Ref.page.inj heq) (by omega),
      hf.node _ (Nat.le_refl _) (by omega), hnode]
    change (s.node _).slab + (s.node _).slab = _
    rw [hslab', hslab, BitVec.ofNat_add]
  · by_cases hjk : j = total A + k
    · subst hjk
      rw [← hs₃, node_put_self]
      exact ⟨rfl, rfl, rfl⟩
    · rw [hold j (by omega) hjk (by omega) hj']
      by_cases hlt : j < total A + k
      · exact hblank j hj hlt
      · exact hblank' j (by omega) (by omega)
  · exact ((hs₁ ▸ Kept.put s _ f : Kept s s₁).trans hf.toKept).trans (hs₃ ▸ .put _ _ _)

/-- The head of a run that ends in front of other pages. -/
theorem runHead_free (hseg : SegOk s i (.free k)) (hk : 0 < k) (hlt : i + k < s.pages)
    (hhas : s.Has (.page (i + k - 1))) : s.runHead (i + k - 1) = .ok i := by
  obtain ⟨hslab, -, -, hblank, -, hback⟩ := hseg
  rw [Pool.runHead, load_eq hhas, Exec.ok_bind]
  by_cases hone : k = 1
  · subst hone
    rw [Nat.add_sub_cancel, if_neg]
    · rfl
    · rw [hslab]
      decide
  · rw [if_pos (hblank _ (by omega) (by omega)).1, hback (by omega) hlt]
    rfl

/-- The last page of a run that is allocated is no head of a free run. -/
theorem runHead_alloc (hseg : SegOk s i (.alloc k)) (hlt : k < 2 ^ 32)
    (hhas : s.Has (.page (i + k - 1))) :
    s.runHead (i + k - 1) = .ok (i + k - 1) ∧ (s.node (.page (i + k - 1))).next = none ∧
      (s.node (.page (i + k - 1))).type = .page := by
  obtain ⟨hk, hslab, hnext, htype, hrest⟩ := hseg
  have hne : (s.node (.page (i + k - 1))).slab ≠ 0 := by
    by_cases hone : k = 1
    · subst hone
      rw [Nat.add_sub_cancel, hslab]
      decide
    · rw [(hrest _ (by omega) (by omega)).1]
      decide
  refine ⟨?_, ?_⟩
  · rw [Pool.runHead, load_eq hhas, Exec.ok_bind, if_neg hne]
    rfl
  · by_cases hone : k = 1
    · subst hone
      exact ⟨hnext, htype⟩
    · exact (hrest _ (by omega) (by omega)).2

/-- `dl_slab_free_pages` joins the run with the one in front, if that is free. -/
theorem joinPrev_spec (h : Loose s A n B) :
    ∃ s' m A', s.joinPrev (total A) (n - 1) = .ok (s', total A', m - 1) ∧ Loose s' A' m B ∧
      Kept s s' ∧ (∀ a ∈ A'.getLast?, ¬ a.IsFree) ∧
      (∀ start, pieces start 0 A' = pieces start 0 A) ∧ total A' + m = total A + n ∧
      freeTotal A' + m = freeTotal A + n := by
  have hg := h.gap
  have hn := hg.pos
  rcases List.eq_nil_or_concat' A with rfl | ⟨A, seg, rfl⟩
  · refine ⟨s, n, [], ?_, h, .refl s, nofun, fun _ ↦ rfl, rfl, rfl⟩
    rw [Pool.joinPrev]
    exact if_neg (Nat.lt_irrefl 0)
  obtain ⟨k, hk⟩ : ∃ k, seg.len = k := ⟨_, rfl⟩
  have htotal : total (A ++ [seg]) = total A + k := by
    rw [total_append, total_cons, hk]
    rfl
  have hmem : (total A, seg) ∈ placed 0 (A ++ [seg]) := by
    rw [placed_append, Nat.zero_add]
    exact List.mem_append_right _ List.mem_cons_self
  have hseg : SegOk s (total A) seg := hg.before (total A, seg) hmem
  have hpos : 0 < k := hk ▸ hg.pos_before (total A, seg) hmem
  have hlen := hg.length
  have hlt := hg.base.pages_lt
  rw [htotal] at hlen
  have hhas : s.Has (.page (total A + k - 1)) := hg.has (by rw [htotal]; omega)
  have hrun : s.joinPrev (total (A ++ [seg])) (n - 1) =
      if (s.node (.page (total A + k - 1))).type = .page then (do
        let join ← s.runHead (total A + k - 1)
        let head ← s.load (some (.page join))
        if head.next ≠ none then do
          let s ← s.joinRuns join (total A + k) head
          pure (s, join, n - 1 + head.slab.toNat)
        else pure (s, total A + k, n - 1))
      else pure (s, total A + k, n - 1) := by
    rw [Pool.joinPrev, htotal, if_pos (by omega), load_eq hhas, Exec.ok_bind]
  have hsame : (s.joinPrev (total (A ++ [seg])) (n - 1) = pure (s, total A + k, n - 1)) →
      ¬ seg.IsFree → ∃ s' m A', s.joinPrev (total (A ++ [seg])) (n - 1) =
        .ok (s', total A', m - 1) ∧ Loose s' A' m B ∧ Kept s s' ∧
        (∀ a ∈ A'.getLast?, ¬ a.IsFree) ∧
        (∀ start, pieces start 0 A' = pieces start 0 (A ++ [seg])) ∧
        total A' + m = total (A ++ [seg]) + n ∧ freeTotal A' + m = freeTotal (A ++ [seg]) + n :=
    fun hr hf ↦ by
    refine ⟨s, n, A ++ [seg], by rw [hr, htotal]; rfl, h, .refl s, fun a ha ↦ ?_, fun _ ↦ rfl, rfl,
      rfl⟩
    rw [List.getLast?_concat] at ha
    exact Option.some.inj ha ▸ hf
  cases seg with
  | free m =>
    obtain rfl : m = k := hk
    obtain ⟨s', hs', hloose, hkept⟩ := joinRuns_prev h
    have hm : (s.node (.page (total A))).slab.toNat = m := by
      rw [hseg.1]
      exact toNat_ofNat_lt (by omega)
    have hhead : s.runHead (total A + m - 1) = .ok (total A) :=
      runHead_free hseg hpos (by omega) hhas
    have htype : (s.node (.page (total A + m - 1))).type = .page := by
      by_cases hone : m = 1
      · subst hone
        exact hseg.2.1
      · exact (hseg.2.2.2.1 _ (by omega) (by omega)).2.2
    have hhas' : s.Has (.page (total A)) := hg.has (by rw [htotal]; omega)
    refine ⟨s', m + n, A, ?_, hloose, hkept, fun a ha hf ↦ ?_, fun start ↦ ?_, ?_, ?_⟩
    · rw [hrun, if_pos htype, hhead, Exec.ok_bind, load_eq hhas', Exec.ok_bind, if_pos hseg.2.2.1,
        hs', Exec.ok_bind, hm, Nat.add_comm m n, Nat.sub_add_comm hn]
      rfl
    · exact (List.isChain_append.mp hg.separated.1).2.2 a ha _ rfl ⟨hf, trivial⟩
    · rw [pieces, pieces, placed_append, List.flatMap_append]
      exact (List.append_nil _).symm
    · rw [htotal]
      exact (Nat.add_assoc _ _ _).symm
    · rw [freeTotal_append, freeTotal_cons]
      exact (Nat.add_assoc _ _ _).symm
  | alloc m =>
    obtain rfl : m = k := hk
    obtain ⟨hhead, hnext, htype⟩ := runHead_alloc hseg (by omega) hhas
    refine hsame ?_ not_false
    rw [hrun, if_pos htype, hhead, Exec.ok_bind, load_eq hhas, Exec.ok_bind,
      if_neg fun hne ↦ hne hnext]
  | chunks shift cs =>
    obtain rfl : 1 = k := hk
    refine hsame ?_ not_false
    rw [hrun]
    exact if_neg fun ht ↦ typeOf_ne_page once shift ((ChunksOk.type hseg).symm.trans ht)

/-! ## The free list -/

/-- The run is put at the front of the free list. -/
theorem chain_spec (h : Loose s A n B) (hlast : ∀ a ∈ A.getLast?, ¬ a.IsFree)
    (hhead : ∀ b ∈ B.head?, ¬ b.IsFree)
    (hfree : s.pfree = BitVec.ofNat 32 (freeTotal (A ++ .free n :: B))) :
    ∃ s', s.chain (total A) (n - 1) = .ok s' ∧ Shape s' (A ++ .free n :: B) ∧ Kept s s' := by
  have hg := h.gap
  have hn := hg.pos
  let f : Page → Page := fun p ↦ { p with prev := some (.page (total A)), type := .page }
  obtain ⟨s₁, hs₁, hg₁, hkept₁, hslab₁, hblank₁, hback⟩ : ∃ s₁, s.linkBack (total A) (n - 1) = .ok s₁ ∧
      Gap s₁ A n B none ∧ Kept s s₁ ∧ (s₁.node (.page (total A))).slab = BitVec.ofNat 64 n ∧
      Blank s₁ (total A) n ∧
      (1 < n → (s₁.node (.page (total A + n - 1))).prev = some (.page (total A))) := by
    by_cases hone : n = 1
    · refine ⟨s, if_neg ?_, hg, .refl s, h.slab, h.blank, fun hlt ↦ absurd hlt (by omega)⟩
      rw [hone]
      exact fun hne ↦ hne rfl
    · have heq : total A + (n - 1) = total A + n - 1 := by omega
      refine ⟨s.put (.page (total A + n - 1)) f, ?_, hg.put (by omega) nofun, .put _ _ _, ?_,
        fun j hj hj' ↦ ?_, fun _ ↦ ?_⟩
      · rw [Pool.linkBack, if_pos (by omega), heq, store_eq (hg.has (by omega))]
      · rw [slab_put rfl, h.slab]
      · obtain ⟨hb₁, hb₂, hb₃⟩ := h.blank j hj hj'
        by_cases hjl : j = total A + n - 1
        · subst hjl
          rw [node_put_self]
          exact ⟨hb₁, hb₂, rfl⟩
        · rw [node_put_of_ne fun heq ↦ hjl (Ref.page.inj heq)]
          exact ⟨hb₁, hb₂, hb₃⟩
      · rw [node_put_self]
  let p := s₁.node .free
  let v : Page → Page := fun q ↦ { q with prev := some .free, type := .page, next := p.next }
  obtain ⟨s₂, hs₂⟩ : ∃ s₂, s₁.put (.page (total A)) v = s₂ := ⟨_, rfl⟩
  have hg₂ : Gap s₂ A n B none := hs₂ ▸ hg₁.put (by omega) nofun
  have hnode : s₂.node (.page (total A)) = v (s₁.node (.page (total A))) := hs₂ ▸ node_put_self _ _
  have hfreeNode : s₂.node .free = p := by
    have hne : Ref.free ≠ .page (total A) := nofun
    rw [← hs₂, node_put_of_ne hne]
  obtain ⟨s', b, hb, hha, hhb, hs', hg', hf⟩ := hg₂.push (h := .free) (j := total A) trivial
    (by omega) (by rw [hnode, hfreeNode]) (by rw [hnode]) (by rw [hnode]; rfl)
  rw [hfreeNode] at hb
  have hrun : s.chain (total A) (n - 1) = .ok s' := by
    rw [Pool.chain, hs₁, Exec.ok_bind, load_eq rfl, Exec.ok_bind, store_eq (hg₁.has (by omega)),
      Exec.ok_bind]
    change ((s₁.put (.page (total A)) v).store p.next _ >>= _) = _
    rw [hs₂, hb, store_eq hhb, Exec.ok_bind, store_eq rfl, hs']
    rfl
  have hkept : Kept s s' := (hkept₁.trans (hs₂ ▸ .put _ _ _)).trans hf.toKept
  have hinner : ∀ j, total A < j → j < total A + n → s'.node (.page j) = s₁.node (.page j) :=
    fun j hj hj' ↦ by
    rw [hf.node j (by omega) hj', ← hs₂, node_put_of_ne fun heq ↦ absurd (Ref.page.inj heq) (by omega)]
  have hfirst : s'.node (.page (total A)) = v (s₁.node (.page (total A))) :=
    (hf.node _ (Nat.le_refl _) (by omega)).trans hnode
  refine ⟨s', hrun, hg'.shape ⟨?_, ?_, ?_, fun j hj hj' ↦ ?_, .inl hn, fun hlt _ ↦ ?_⟩
    (hg.separated.1.insertFree hg.separated.2 hlast hhead) (hkept.pfree.trans hfree), hkept⟩
  · rw [hfirst]
    exact hslab₁
  · rw [hfirst]
  · rw [hfirst]
    change p.next ≠ none
    rw [hb]
    nofun
  · rw [hinner j hj hj']
    exact hblank₁ j hj hj'
  · rw [hinner _ (by omega) (by omega)]
    exact hback hlt

/-- `dl_slab_free_pages` makes the gap a part of a free run. -/
theorem freePages_spec {x : Option (Ref × Nat)} (hg : Gap s A n B x)
    (hx : ∀ h j, x = some (h, j) → j = total A ∧ n = 1)
    (hnext : (s.node (.page (total A))).next = none ↔ x = none)
    (hfree : s.pfree = BitVec.ofNat 32 (freeTotal A + freeTotal B)) :
    ∃ s' T, s.freePages (total A) n = .ok s' ∧ Shape s' T ∧ Same s s' ∧ s'.words = s.words ∧
      s'.stats = s.stats ∧ (∀ start, pieces start 0 T =
        pieces start 0 A ++ pieces start (total A + n) B) ∧
      freeTotal T = freeTotal A + (n + freeTotal B) := by
  have hn := hg.pos
  obtain ⟨s₀, hs₀⟩ : ∃ s₀ : Pool, { s with pfree := s.pfree + BitVec.ofNat 32 n } = s₀ := ⟨_, rfl⟩
  have hg₀ : Gap s₀ A n B x := hs₀ ▸ hg.count _ _
  let f : Page → Page := fun p ↦ { p with slab := BitVec.ofNat 64 n }
  obtain ⟨s₁, hs₁⟩ : ∃ s₁, s₀.put (.page (total A)) f = s₁ := ⟨_, rfl⟩
  have hg₁ : Gap s₁ A n B x := hs₁ ▸ hg₀.put (by omega) fun _ _ ↦ ⟨rfl, rfl, rfl⟩
  obtain ⟨s₂, hs₂, hg₂, hkept₂, hin, hout⟩ := hg₁.fill (i := total A + 1) (k := n - 1)
    (v := ⟨0, none, none, .page⟩) (by omega) (by omega) fun h j hxj ↦ .inl (by
      rw [(hx h j hxj).1]
      exact Nat.lt_succ_self _)
  have hnode : s₂.node (.page (total A)) = f (s.node (.page (total A))) := by
    rw [hout _ fun j hj ↦ .inl (by rw [← Ref.page.inj hj]; exact Nat.lt_succ_self _), ← hs₁,
      node_put_self, ← hs₀]
  have hblank : Blank s₂ (total A) n := fun j hj hj' ↦ by
    rw [hin j hj (by omega)]
    exact ⟨rfl, rfl, rfl⟩
  obtain ⟨s₃, hs₃, hloose, hkept₃⟩ : ∃ s₃, s₂.unlinkIf (s₂.node (.page (total A))) = .ok s₃ ∧
      Loose s₃ A n B ∧ Kept s₂ s₃ := by
    rcases x with _ | ⟨h, j⟩
    · refine ⟨s₂, ?_, ⟨hg₂, by rw [hnode], hblank⟩, .refl s₂⟩
      rw [Pool.unlinkIf, hnode, if_neg fun hne ↦ hne (hnext.mpr rfl)]
    · obtain ⟨rfl, rfl⟩ := hx h j rfl
      obtain ⟨s₃, hs₃, hg₃, hf⟩ := hg₂.unlink
      refine ⟨s₃, ?_, ⟨hg₃, ?_, fun j hj hj' ↦ absurd hj' (by omega)⟩, hf.toKept⟩
      · rw [Pool.unlinkIf, if_pos, hs₃]
        rw [hnode]
        exact fun hne ↦ nomatch hnext.mp hne
      · rw [hf.node _ (Nat.le_refl _) (by omega), hnode]
  obtain ⟨s₄, m, B', hs₄, hloose₄, hkept₄, hhead, hpieces, hsum⟩ := joinNext_spec hloose
  obtain ⟨s₅, m', A', hs₅, hloose₅, hkept₅, hlast, hpieces', hlen, hsum'⟩ := joinPrev_spec hloose₄
  have hkept : Kept s₀ s₅ := ((((hs₁ ▸ Kept.put _ _ _ : Kept s₀ s₁).trans hkept₂).trans hkept₃).trans
    hkept₄).trans hkept₅
  have htotal : freeTotal (A' ++ .free m' :: B') = freeTotal A + (n + freeTotal B) := by
    rw [freeTotal_middle]
    change freeTotal A' + (m' + _) = _
    omega
  obtain ⟨s', hs', hshape, hkept'⟩ := chain_spec hloose₅ hlast hhead (by
    rw [hkept.pfree, htotal, ← hs₀]
    change s.pfree + _ = _
    rw [hfree, ← BitVec.ofNat_add]
    congr 1
    omega)
  have hkept := hkept.trans hkept'
  refine ⟨s', _, ?_, hshape, .trans (hs₀ ▸ ⟨rfl, rfl, rfl, rfl, rfl, rfl, rfl⟩) hkept.layout, ?_, ?_,
    fun start ↦ ?_, htotal⟩
  · rw [Pool.freePages, hs₀, store_eq (hg₀.has (by omega)), Exec.ok_bind, hs₁, clearPages_eq, hs₂,
      Exec.ok_bind, load_eq (hg₂.has (by omega)), Exec.ok_bind, hs₃, Exec.ok_bind, hs₄,
      Exec.ok_bind]
    change (s₄.joinPrev (total A) (m - 1) >>= _) = _
    rw [hs₅]
    exact hs'
  · rw [hkept.words, ← hs₀]
  · rw [hkept.stats, ← hs₀]
  · rw [pieces_middle, hpieces' start, Nat.zero_add]
    change _ ++ [] ++ pieces start (total A' + m') B' = _
    rw [List.append_nil, hlen, hpieces start]

end Dlbase.Slab
