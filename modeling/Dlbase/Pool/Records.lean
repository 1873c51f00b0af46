import Dlbase.Pool.Chain

/-!
# The records of large blocks and of cleanups

The records lie in memory that the pool has handed out to itself.  As long as nothing that is in
use overlaps them, the lists that start at `large` and at `cleanup` are what the pool has put in.
-/

namespace Dlbase.Pool

open Cmem

variable {size n : Nat} {s s' : State} {G U used : List Range} {r : Range} {alloc : Malloc Value}
  {align : Bool} {o : Option Nat} {L L' : List (Nat × Range)}
  {C : List (Nat × Option Nat × Option Nat)}

/-- A record of the large block `g`. -/
def largeRecord (g : Range) (next : Option Nat) : Value := .large { next, alloc := some g.base }

/-- A record of a cleanup with a handler and its argument. -/
def cleanupRecord (x : Option Nat × Option Nat) (next : Option Nat) : Value :=
  .cleanup { handler := x.1, data := x.2, next }

/-- Where the records are. -/
def records (L : List (Nat × Range)) (C : List (Nat × Option Nat × Option Nat)) : List Range :=
  L.map (fun e ↦ ⟨e.1, sizeofLarge⟩) ++ C.map fun e ↦ ⟨e.1, sizeofCleanup⟩

/-- The pool has blocks of `size` bytes.  Its user has the ranges `U`, its large blocks are those
of `L`, and the cleanups `C` are pending. -/
structure Holds (size : Nat) (s : State) (U : List Range) (L : List (Nat × Range))
    (C : List (Nat × Option Nat × Option Nat)) : Prop where
  /-- The ranges of the user and the records are in use. -/
  sound : Sound size s (L.map Prod.snd) (U ++ records L C)
  /-- The large blocks can be found. -/
  larges : Memory.Chain largeRecord sizeofLarge s.heap.mem s.large L
  /-- The cleanups can be found. -/
  cleanups : Memory.Chain cleanupRecord sizeofCleanup s.heap.mem s.cleanup C
  /-- The records of large blocks lie in the blocks. -/
  inBlocks : ∀ e ∈ L, ∃ b ∈ s.blocks, b.Has ⟨e.1, sizeofLarge⟩
  /-- No large block is in the list twice. -/
  nodup : (L.map Prod.snd).Nodup

/-- The large block, if any, that a request for `n` bytes has been served with. -/
def largeBlock (s : State) (n : Nat) (o : Option Nat) : List Nat := if s.max < n then o.toList else []

/-- What a request for `n` bytes achieves. -/
structure Gets (size : Nat) (s : State) (U : List Range) (L : List (Nat × Range))
    (C : List (Nat × Option Nat × Option Nat)) (n : Nat) (align : Bool) (s' : State)
    (o : Option Nat) : Prop where
  /-- The user has got the bytes; there may be one more large block. -/
  holds : ∃ L', Holds size s' (o.toList.map (⟨·, n⟩) ++ U) L' C ∧ L <:+ L' ∧
    L'.map (·.2.base) = largeBlock s n o ++ L.map (·.2.base)
  /-- The bytes are aligned. -/
  aligned : align = true → ∀ m ∈ o, 8 ∣ m
  /-- What the user has keeps its contents. -/
  agree : ∀ r ∈ U, Memory.Agree r s.heap.mem s'.heap.mem
  /-- The pool is where it was. -/
  address : s'.address = s.address

theorem mem_records_large {e : Nat × Range} (he : e ∈ L) :
    ⟨e.1, sizeofLarge⟩ ∈ records L C :=
  List.mem_append_left _ (List.mem_map_of_mem (f := fun e : Nat × Range ↦
    (⟨e.1, sizeofLarge⟩ : Range)) he)

theorem mem_records_cleanup {e : Nat × Option Nat × Option Nat} (he : e ∈ C) :
    ⟨e.1, sizeofCleanup⟩ ∈ records L C :=
  List.mem_append_right _ (List.mem_map_of_mem (f := fun e : Nat × Option Nat × Option Nat ↦
    (⟨e.1, sizeofCleanup⟩ : Range)) he)

namespace Holds

theorem mem_user (hr : r ∈ U) : r ∈ U ++ records L C := List.mem_append_left _ hr

theorem mem_records (hr : r ∈ records L C) : r ∈ U ++ records L C := List.mem_append_right _ hr

/-- Memory that is not a record may be changed. -/
theorem of_agree (h : Holds size s U L C) {U' : List Range}
    (hs : Sound size s' (L.map Prod.snd) (U' ++ records L C))
    (ha : ∀ r ∈ records L C, Memory.Agree r s.heap.mem s'.heap.mem) (hl : s'.large = s.large)
    (hc : s'.cleanup = s.cleanup) (hb : ∀ e ∈ L, ∃ b ∈ s'.blocks, b.Has ⟨e.1, sizeofLarge⟩) :
    Holds size s' U' L C where
  sound := hs
  larges := hl ▸ h.larges.congr fun _ he ↦ ha _ (mem_records_large he)
  cleanups := hc ▸ h.cleanups.congr fun _ he ↦ ha _ (mem_records_cleanup he)
  inBlocks := hb
  nodup := h.nodup

/-- A request that is served from the blocks. -/
theorem gets (h : Holds size s U L C) (hn : n ≤ s.max)
    (hserved : Served size s (L.map Prod.snd) (U ++ records L C) n align s' o) :
    Gets size s U L C n align s' o where
  holds := by
    refine ⟨L, h.of_agree ?_ (fun r hr ↦ hserved.agree r (mem_records hr)) hserved.large
      hserved.cleanup fun e he ↦ hserved.grows.has (h.inBlocks e he), List.suffix_rfl, ?_⟩
    · rw [List.append_assoc]
      exact hserved.sound
    · rw [largeBlock, if_neg (Nat.not_lt.mpr hn)]
      rfl
  aligned := hserved.aligned
  agree r hr := hserved.agree r (mem_user hr)
  address := hserved.address

end Holds

theorem loadLarge_eq {h : Arena Value} {a : Nat} {l : Large} (ha : h.Allows ⟨a, sizeofLarge⟩)
    (hl : h.mem.Holds ⟨a, sizeofLarge⟩ (.large l)) : loadLarge h a = .ok l := by
  rw [loadLarge, Arena.load_eq ha hl]
  rfl

theorem loadCleanup_eq {h : Arena Value} {a : Nat} {c : Cleanup} (ha : h.Allows ⟨a, sizeofCleanup⟩)
    (hc : h.mem.Holds ⟨a, sizeofCleanup⟩ (.cleanup c)) : loadCleanup h a = .ok c := by
  rw [loadCleanup, Arena.load_eq ha hc]
  rfl

/-- No record is without its block. -/
theorem spareLarge_eq {h : Arena Value} {p : Option Nat} (k : Nat)
    (hc : Memory.Chain largeRecord sizeofLarge h.mem p L)
    (ha : ∀ e ∈ L, h.Allows ⟨e.1, sizeofLarge⟩) : spareLarge h k p = .ok none := by
  induction L generalizing p k with
  | nil =>
    obtain rfl : p = none := hc
    cases k <;> rfl
  | cons e L ih =>
    obtain ⟨rfl, next, hholds, hnext⟩ := hc
    cases k with
    | zero => rfl
    | succ k =>
      rw [spareLarge, loadLarge_eq (ha e List.mem_cons_self) hholds, Exec.ok_bind]
      exact ih k hnext fun e he ↦ ha e (List.mem_cons_of_mem _ he)

/-- A new large block. -/
theorem Sound.addLarge {p : Nat} (h : Sound size s G used) (ha : alloc.Sound)
    (hp : alloc s.heap n = some p) (hn : 0 < n) :
    Sound size
      { s with heap := ⟨s.heap.mem.clear ⟨p, n⟩, ⟨p, n⟩ :: s.heap.regions⟩ } (⟨p, n⟩ :: G)
      (⟨p, n⟩ :: used) ∧ ∀ r ∈ used, r.Disjoint ⟨p, n⟩ := by
  have hfresh := ha.fresh hp
  have hdis : ∀ r ∈ used, r.Disjoint ⟨p, n⟩ := fun r hr ↦ by
    obtain ⟨t, ht, hin⟩ := h.exists_region hr
    exact (hfresh t ht).symm.within hin
  refine ⟨{ h with
    wf := h.wf.cons ha hp hn _
    block := fun b hb ↦ (h.block b hb).of_erase rfl fun r hr ↦ List.mem_cons_of_mem _ hr
    larges := fun g hg ↦ ?_
    apart := List.pairwise_cons.mpr ⟨fun r hr ↦ (hdis r hr).symm, h.apart⟩
    placed := fun r hr ↦ ?_ }, hdis⟩
  · rcases List.mem_cons.mp hg with rfl | hg
    · refine ⟨List.mem_cons_self, ha.aligned hp, fun b hb he ↦ ?_⟩
      have hd := hfresh _ (h.block b hb).region
      have hpos := h.wf.size_pos _ (h.block b hb).region
      unfold Range.Disjoint at hd
      simp only [he] at hd hpos
      omega
    · obtain ⟨hreg, hal, hne⟩ := h.larges g hg
      exact ⟨List.mem_cons_of_mem _ hreg, hal, hne⟩
  · rcases List.mem_cons.mp hr with rfl | hr
    · exact .inr ⟨_, List.mem_cons_self, .refl _⟩
    · exact (h.placed r hr).mono (.refl _) fun g hg ↦ List.mem_cons_of_mem _ hg

namespace Holds

theorem refused (h : Holds size s U L C) : Gets size s U L C n align s none where
  holds := by
    refine ⟨L, h, List.suffix_rfl, ?_⟩
    unfold largeBlock
    split_ifs <;> rfl
  aligned _ _ hm := nomatch hm
  agree r _ := .refl r _
  address := rfl

/-- A large request gets a block of its own. -/
theorem pallocLarge (h : Holds size s U L C) (ha : alloc.Sound) (hn : s.max < n) :
    ∃ s' o, Pool.pallocLarge alloc s n = .ok (s', o) ∧ Gets size s U L C n align s' o := by
  unfold Pool.pallocLarge
  cases hp : alloc s.heap n with
  | none =>
    simp only [Arena.malloc, hp]
    exact ⟨s, none, rfl, h.refused⟩
  | some p =>
    simp only [Arena.malloc, hp]
    obtain ⟨h₁, hdis⟩ := h.sound.addLarge ha hp (Nat.zero_lt_of_lt hn)
    generalize hs₁ : { s with heap := ⟨s.heap.mem.clear ⟨p, n⟩, ⟨p, n⟩ :: s.heap.regions⟩ } = s₁ at h₁
    have hagree : ∀ r ∈ U ++ records L C, Memory.Agree r s.heap.mem s₁.heap.mem := fun r hr ↦ by
      rw [← hs₁]
      exact Memory.agree_clear _ (hdis r hr)
    have hlarge : s₁.large = s.large := by rw [← hs₁]
    have hcleanup : s₁.cleanup = s.cleanup := by rw [← hs₁]
    have haddr : s₁.address = s.address := by rw [← hs₁]; rfl
    have hlarges : Memory.Chain largeRecord sizeofLarge s₁.heap.mem s₁.large L :=
      hlarge ▸ h.larges.congr fun _ he ↦ hagree _ (mem_records (mem_records_large he))
    have hspare : spareLarge s₁.heap 5 s₁.large = .ok none :=
      spareLarge_eq 5 hlarges fun e he ↦
        h₁.allows (List.mem_cons_of_mem _ (mem_records (mem_records_large he)))
    have hroom : sizeofLarge ≤ size - sizeofPool := by
      have hle := h.sound.le
      omega
    obtain ⟨s₂, o₂, hrun₂, h₂⟩ := h₁.pallocSmall ha hroom true
    have hregions : s₁.heap.regions = ⟨p, n⟩ :: s.heap.regions := by rw [← hs₁]
    have hblocks : s₁.blocks = s.blocks := by rw [← hs₁]
    have hmax : s₁.max = s.max := by rw [← hs₁]
    have hcur : s₁.current = s.current := by rw [← hs₁]
    have hrun₁ : spareLarge ⟨s.heap.mem.clear ⟨p, n⟩, ⟨p, n⟩ :: s.heap.regions⟩ 5 s.large =
        .ok none := by
      rw [← hs₁] at hspare
      exact hspare
    simp only [hrun₁, hrun₂, Exec.ok_bind]
    cases o₂ with
    | none =>
      obtain rfl := h₂.same rfl
      have hmem : ⟨p, n⟩ ∈ s₂.heap.regions := by rw [hregions]; exact List.mem_cons_self
      have hfree : (s₂.heap.regions.filter (·.base ≠ p)) = s.heap.regions := by
        rw [hregions, List.filter_cons_of_neg (by simp), List.filter_eq_self]
        intro t ht
        have hd := ha.fresh hp t ht
        have hpos := h.sound.wf.size_pos t ht
        change n = 0 ∨ t.size = 0 ∨ p + n ≤ t.base ∨ t.base + t.size ≤ p at hd
        refine decide_eq_true fun he ↦ ?_
        omega
      simp only [Arena.free_eq hmem, hfree, Exec.ok_bind]
      refine ⟨_, none, rfl, ⟨L, h.of_agree ?_ ?_ hlarge hcleanup ?_, List.suffix_rfl, ?_⟩,
        fun _ _ hm ↦ (by cases hm), fun r hr ↦ hagree r (mem_user hr), haddr⟩
      · exact h.sound.of_eq rfl hblocks hmax hcur
      · exact fun r hr ↦ hagree r (mem_records hr)
      · change ∀ e ∈ L, ∃ b ∈ s₂.blocks, b.Has _
        rw [hblocks]
        exact h.inBlocks
      · rw [largeBlock, if_pos hn]
        rfl
    | some l =>
      have hrec : ⟨l, sizeofLarge⟩ ∈ (⟨l, sizeofLarge⟩ :: ⟨p, n⟩ :: (U ++ records L C)) :=
        List.mem_cons_self
      simp only [Arena.store_eq (h₂.sound.allows hrec), Exec.ok_bind]
      have hap := (List.pairwise_cons.mp h₂.sound.apart).1
      have hstore : ∀ v, ∀ r ∈ U ++ records L C,
          Memory.Agree r s.heap.mem (s₂.heap.mem.store ⟨l, sizeofLarge⟩ v) := fun v r hr ↦
        ((hagree r hr).trans (h₂.agree r (List.mem_cons_of_mem _ hr))).trans
          (Memory.agree_store _ _ (hap r (List.mem_cons_of_mem _ hr)).symm)
      refine ⟨_, some p, rfl, ⟨(l, ⟨p, n⟩) :: L, ⟨?_, ?_, ?_, fun e he ↦ ?_, ?_⟩,
        List.suffix_cons _ _, ?_⟩,
        fun _ m hm ↦ ?_, fun r hr ↦ hstore _ r (mem_user hr), h₂.address.trans haddr⟩
      · refine (h₂.sound.perm ?_).of_eq rfl rfl rfl rfl
        change (⟨l, sizeofLarge⟩ :: ⟨p, n⟩ :: (U ++ records L C)).Perm
          (⟨p, n⟩ :: (U ++ ⟨l, sizeofLarge⟩ :: records L C))
        exact (List.Perm.swap ..).trans (List.perm_middle.symm.cons _)
      · refine ⟨rfl, s₂.large, Memory.holds_store _ _ (show 0 < 16 by decide), ?_⟩
        rw [h₂.large, hlarge]
        exact h.larges.congr fun _ he ↦ hstore _ _ (mem_records (mem_records_large he))
      · change Memory.Chain _ _ _ s₂.cleanup C
        rw [h₂.cleanup, hcleanup]
        exact h.cleanups.congr fun _ he ↦ hstore _ _ (mem_records (mem_records_cleanup he))
      · rcases List.mem_cons.mp he with rfl | he
        · exact h₂.has l rfl
        · exact h₂.grows.has (hblocks ▸ h.inBlocks e he)
      · refine List.nodup_cons.mpr ⟨fun hmem ↦ ?_, h.nodup⟩
        have hd : Range.Disjoint ⟨p, n⟩ ⟨p, n⟩ := ha.fresh hp _ (h.sound.larges _ hmem).1
        unfold Range.Disjoint at hd
        dsimp only at hd
        omega
      · rw [largeBlock, if_pos hn]
        rfl
      · obtain rfl := Option.some.inj hm
        exact Nat.dvd_trans (by decide) (ha.aligned hp)

/-- `dl_palloc` and `dl_pnalloc`. -/
theorem request (h : Holds size s U L C) (ha : alloc.Sound) (n : Nat) (align : Bool) :
    ∃ s' o, Pool.request alloc s n align = .ok (s', o) ∧ Gets size s U L C n align s' o := by
  unfold Pool.request
  split_ifs with hmax
  · have hn : n ≤ size - sizeofPool := by
      rw [h.sound.max] at hmax
      omega
    obtain ⟨s', o, hrun, hserved⟩ := h.sound.pallocSmall ha hn align
    exact ⟨s', o, hrun, h.gets (by assumption) hserved⟩
  · exact h.pallocLarge ha (Nat.not_le.mp hmax)

/-- What the user has does not overlap a record. -/
theorem disjoint {t : Range} (h : Holds size s U L C) (hr : r ∈ U) (ht : t ∈ records L C) :
    r.Disjoint t :=
  (List.pairwise_append.mp h.sound.apart).2.2 r hr t ht

/-- Writing to what the user has. -/
theorem setMem {m : Memory Value} (h : Holds size s U L C) (hr : r ∈ U)
    (hm : ∀ t : Range, t.Disjoint r → Memory.Agree t s.heap.mem m) :
    Holds size { s with heap := { s.heap with mem := m } } U L C :=
  h.of_agree (h.sound.of_eq rfl rfl rfl rfl) (fun t ht ↦ hm t (h.disjoint hr ht).symm) rfl rfl
    h.inBlocks

/-- The user gives up what it has in `U` but not in `U'`. -/
theorem sublist {U' : List Range} (h : Holds size s U L C) (hs : U'.Sublist U) :
    Holds size s U' L C :=
  h.of_agree (h.sound.sublist (hs.append_right _)) (fun r _ ↦ .refl r _) rfl rfl h.inBlocks

theorem perm {U' : List Range} (h : Holds size s U L C) (hp : U.Perm U') : Holds size s U' L C :=
  h.of_agree (h.sound.perm (hp.append_right _)) (fun r _ ↦ .refl r _) rfl rfl h.inBlocks

/-- `dl_pcalloc`. -/
theorem pcalloc (h : Holds size s U L C) (ha : alloc.Sound) (n : Nat) :
    ∃ s' o, Pool.pcalloc alloc s n = .ok (s', o) ∧ Gets size s U L C n true s' o := by
  obtain ⟨s₁, o, hrun, ⟨L', h₁, hL⟩, haligned, hagree, haddr⟩ := h.request ha n true
  unfold Pool.pcalloc palloc
  simp only [hrun, Exec.ok_bind]
  cases o with
  | none => exact ⟨s₁, none, rfl, ⟨L', h₁, hL⟩, haligned, hagree, haddr⟩
  | some p =>
    have hmem : ⟨p, n⟩ ∈ (⟨p, n⟩ :: U) := List.mem_cons_self
    have hallow : s₁.heap.Allows ⟨p, n⟩ := h₁.sound.allows (mem_user hmem)
    simp only [Arena.write_eq hallow, Exec.ok_bind]
    have hap := (List.pairwise_append.mp h₁.sound.apart).1
    have hwrite : ∀ r ∈ U, Memory.Agree r s₁.heap.mem (s₁.heap.mem.write ⟨p, n⟩ fun _ ↦ .byte 0) :=
      fun r hr ↦ Memory.agree_write _ _ ((List.pairwise_cons.mp hap).1 r hr).symm
    exact ⟨_, _, rfl, ⟨L', h₁.setMem hmem fun t ht ↦ Memory.agree_write _ _ ht, hL⟩, haligned,
      fun r hr ↦ (hagree r hr).trans (hwrite r hr), haddr⟩

end Holds

/-- What `dl_create_pool` makes. -/
theorem createPool_eq_some {heap : Arena Value} (h : createPool alloc heap size = .ok (some s)) :
    ∃ p, alloc heap size = some p ∧
      s.heap = ⟨heap.mem.clear ⟨p, size⟩, ⟨p, size⟩ :: heap.regions⟩ ∧
      s.blocks = [{ start := p, last := p + sizeofPool, «end» := p + size, failed := 0 }] ∧
      s.max = min (subSize size sizeofPool) maxAllocFromPool ∧ s.current = 0 ∧ s.large = none ∧
      s.cleanup = none := by
  unfold createPool at h
  cases hp : alloc heap size with
  | none =>
    simp only [Arena.malloc, hp] at h
    cases h
  | some p =>
    simp only [Arena.malloc, hp] at h
    by_cases hallow : Arena.Allows ⟨heap.mem.clear ⟨p, size⟩, ⟨p, size⟩ :: heap.regions⟩
      ⟨p, sizeofPool⟩
    · rw [if_pos hallow] at h
      obtain rfl := Option.some.inj (Except.ok.inj h)
      refine ⟨p, rfl, rfl, rfl, ?_, rfl, rfl, rfl⟩
      dsimp only
      split_ifs <;> omega
    · rw [if_neg hallow] at h
      cases h

/-- A new pool. -/
theorem holds_createPool {heap : Arena Value} (ha : alloc.Sound) (hw : heap.Wf) (hd : 8 ∣ size)
    (hle : sizeofPool + sizeofLarge ≤ size) (h : createPool alloc heap size = .ok (some s)) :
    Holds size s [] [] [] := by
  obtain ⟨p, hp, hheap, hblocks, hmax, hcur, hlarge, hcleanup⟩ := createPool_eq_some h
  have hlt := ha.lt hp
  unfold sizeofPool sizeofLarge at hle
  refine ⟨⟨hd, hle, ?_, ?_, ?_, ?_, ?_, nofun, .nil, nofun⟩, hlarge, hcleanup, nofun, .nil⟩
  · rw [hheap]
    exact hw.cons ha hp (by omega) _
  · rw [hmax, subSize_eq (by unfold sizeofPool; omega) (by omega)]
  · rw [hblocks, hheap]
    intro b hb
    obtain rfl := List.mem_singleton.mp hb
    refine ⟨rfl, ha.aligned hp, hlt, Nat.le_refl _, ?_, List.mem_cons_self⟩
    unfold sizeofPool
    change p + 72 ≤ p + size
    omega
  · rw [hblocks]
    exact List.nodup_singleton _
  · rw [hblocks, hcur]
    exact Nat.zero_lt_one

end Dlbase.Pool
