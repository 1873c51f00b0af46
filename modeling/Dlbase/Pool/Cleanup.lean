import Dlbase.Pool.Bounds

/-!
# Cleanups and large blocks over the life of a pool

`dl_reset_pool` takes all of the memory of the blocks back, with the records in it.  It empties the
list of large blocks, but not the list of cleanups: cleanups that are pending at a reset keep
records in memory that is handed out again.
-/

namespace Dlbase.Pool

open Cmem

variable {size n fuel : Nat} {s s' : State} {U : List Range} {alloc : Malloc Value} {o : Option Nat}
  {L : List (Nat × Range)} {C : List (Nat × Option Nat × Option Nat)} {h : Arena Value}
  {p : Option Nat}

/-! ## The loops that take a pool apart -/

/-- The loop that frees the large blocks frees each of them once. -/
theorem freeLarges_eq (hc : Memory.Chain largeRecord sizeofLarge h.mem p L) (hw : h.Wf)
    (hreg : ∀ e ∈ L, e.2 ∈ h.regions) (hnd : (L.map Prod.snd).Nodup)
    (hallow : ∀ e ∈ L, ∃ t ∈ h.regions, Range.Within ⟨e.1, sizeofLarge⟩ t ∧ t ∉ L.map Prod.snd)
    (hfuel : L.length ≤ fuel) :
    freeLarges h fuel p = .ok (⟨h.mem, h.regions.filter (· ∉ L.map Prod.snd)⟩, L.map (·.2.base)) := by
  induction L generalizing h p fuel with
  | nil =>
    obtain rfl : p = none := hc
    have hall : h.regions.filter (· ∉ ([] : List (Nat × Range)).map Prod.snd) = h.regions := by simp
    rw [hall]
    cases fuel <;> rfl
  | cons e L ih =>
    obtain ⟨a, g⟩ := e
    obtain ⟨rfl, next, hholds, hnext⟩ := hc
    obtain ⟨fuel, rfl⟩ : ∃ k, fuel = k + 1 := ⟨fuel - 1, by rw [List.length_cons] at hfuel; omega⟩
    rw [List.map_cons, List.nodup_cons] at hnd
    obtain ⟨t, ht, hin, -⟩ := hallow (a, g) List.mem_cons_self
    have hg : g ∈ h.regions := hreg (a, g) List.mem_cons_self
    have hrec := ih (h := { h with regions := h.regions.filter (·.base ≠ g.base) })
      hnext (hw.filter _ _) (fun e he ↦ ?_) hnd.2 (fun e he ↦ ?_)
      (show L.length ≤ fuel by rw [List.length_cons] at hfuel; omega)
    · have hfilter : (h.regions.filter (·.base ≠ g.base)).filter (· ∉ L.map Prod.snd) =
          h.regions.filter (· ∉ ((a, g) :: L).map Prod.snd) := by
        rw [List.filter_filter]
        refine List.filter_congr fun r hr ↦ ?_
        have hiff : r.base ≠ g.base ↔ r ≠ g :=
          not_congr ⟨hw.eq_of_base_eq hr hg, congrArg Range.base⟩
        have hmem : r ∈ ((a, g) :: L).map Prod.snd ↔ r = g ∨ r ∈ L.map Prod.snd := List.mem_cons
        simp only [hmem, hiff, not_or, ← Bool.decide_and, and_comm]
      rw [hfilter] at hrec
      simp only [freeLarges, loadLarge_eq ⟨t, ht, hin⟩ hholds, Exec.ok_bind, Arena.free_eq hg, hrec]
      rfl
    · have hne : e.2 ≠ g := fun he' ↦ hnd.1 (by
        change g ∈ _
        rw [← he']
        exact List.mem_map_of_mem he)
      exact (hw.mem_filter hg).mpr ⟨hreg e (List.mem_cons_of_mem _ he), hne⟩
    · obtain ⟨t, ht, hin, hnot⟩ := hallow e (List.mem_cons_of_mem _ he)
      rw [List.map_cons, List.mem_cons, not_or] at hnot
      exact ⟨t, (hw.mem_filter hg).mpr ⟨ht, hnot.1⟩, hin, hnot.2⟩

/-- The calls of handlers for a list of cleanups. -/
def handlerCalls (C : List (Nat × Option Nat × Option Nat)) : List (Nat × Option Nat) :=
  C.filterMap fun e ↦ e.2.1.map fun handler ↦ (handler, e.2.2)

/-- The loop over the cleanups calls the handler of each of them once. -/
theorem runCleanups_eq (hc : Memory.Chain cleanupRecord sizeofCleanup h.mem p C)
    (hallow : ∀ e ∈ C, h.Allows ⟨e.1, sizeofCleanup⟩) (hfuel : C.length ≤ fuel) :
    runCleanups h fuel p = .ok (handlerCalls C) := by
  induction C generalizing p fuel with
  | nil =>
    obtain rfl : p = none := hc
    cases fuel <;> rfl
  | cons e C ih =>
    obtain ⟨a, handler, data⟩ := e
    obtain ⟨rfl, next, hholds, hnext⟩ := hc
    rw [List.length_cons] at hfuel
    obtain ⟨fuel, rfl⟩ : ∃ k, fuel = k + 1 := ⟨fuel - 1, by omega⟩
    have hrec : runCleanups h fuel next = .ok (handlerCalls C) :=
      ih hnext (fun e he ↦ hallow e (List.mem_cons_of_mem _ he)) (by omega)
    rw [runCleanups, loadCleanup_eq (hallow _ List.mem_cons_self) hholds, Exec.ok_bind, hrec,
      Exec.ok_bind]
    cases handler <;> rfl

theorem freeBlocks_eq {blocks : List Block} (hw : h.Wf)
    (hreg : ∀ b ∈ blocks, ⟨b.start, size⟩ ∈ h.regions) (hnd : (blocks.map (·.start)).Nodup) :
    ∃ h', freeBlocks h blocks = .ok h' := by
  induction blocks generalizing h with
  | nil => exact ⟨h, rfl⟩
  | cons b blocks ih =>
    rw [List.map_cons, List.nodup_cons] at hnd
    have hb := hreg b List.mem_cons_self
    have hrest : ∀ c ∈ blocks, ⟨c.start, size⟩ ∈ h.regions.filter (·.base ≠ b.start) := by
      refine fun c hc ↦ (hw.mem_filter hb).mpr
        ⟨hreg c (List.mem_cons_of_mem _ hc), fun he ↦ hnd.1 ?_⟩
      have hstart : c.start = b.start := congrArg Range.base he
      exact hstart ▸ List.mem_map_of_mem hc
    obtain ⟨h', hrun⟩ := ih (hw.filter _ h.mem) hrest hnd.2
    refine ⟨h', ?_⟩
    rw [freeBlocks, Arena.free_eq hb, Exec.ok_bind]
    exact hrun

namespace Holds

/-- What the loop that frees the large blocks does to a pool. -/
theorem freeLarges (hs : Holds size s U L C)
    (hfuel : L.length ≤ fuel) :
    Pool.freeLarges s.heap fuel s.large =
      .ok (⟨s.heap.mem, s.heap.regions.filter (· ∉ L.map Prod.snd)⟩, L.map (·.2.base)) := by
  refine freeLarges_eq hs.larges hs.sound.wf (fun e he ↦ ?_) hs.nodup (fun e he ↦ ?_) hfuel
  · exact (hs.sound.larges _ (List.mem_map_of_mem he)).1
  · obtain ⟨b, hb, hhas⟩ := hs.inBlocks e he
    have hok := hs.sound.block b hb
    exact ⟨_, hok.region, hhas.within hok, fun hmem ↦ (hs.sound.larges _ hmem).2.2 b hb rfl⟩

/-- `dl_destroy_pool` calls the handlers of the cleanups and frees the large blocks. -/
theorem destroyPool (hs : Holds size s U L C) :
    ∃ h', Returns (fun fuel ↦ Pool.destroyPool fuel s) (h', handlerCalls C, L.map (·.2.base)) := by
  have hblocks : ∀ b ∈ s.blocks,
      ⟨b.start, size⟩ ∈ s.heap.regions.filter (· ∉ L.map Prod.snd) := fun b hb ↦
    List.mem_filter.mpr ⟨(hs.sound.block b hb).region,
      decide_eq_true fun hmem ↦ (hs.sound.larges _ hmem).2.2 b hb rfl⟩
  obtain ⟨h', hrun⟩ := freeBlocks_eq (hs.sound.wf.filter _ s.heap.mem) hblocks hs.sound.starts
  refine ⟨h', max L.length C.length, fun fuel hfuel ↦ ?_⟩
  have hcalls := runCleanups_eq hs.cleanups
    (fun e he ↦ hs.sound.allows (mem_records (mem_records_cleanup he)))
    (Nat.le_trans (Nat.le_max_right _ _) hfuel)
  have hfree := hs.freeLarges (Nat.le_trans (Nat.le_max_left _ _) hfuel)
  simp only [Pool.destroyPool, hcalls, hfree, Exec.ok_bind, hrun, Exec.pure_eq_ok]

/-- `dl_reset_pool` leaves an empty pool, if no cleanup is pending. -/
theorem resetPool (hs : Holds size s U L []) :
    ∃ s', Returns (fun fuel ↦ Pool.resetPool fuel s) s' ∧ Holds size s' [] [] [] := by
  refine ⟨_, ⟨L.length, fun fuel hfuel ↦ by
    simp only [Pool.resetPool, hs.freeLarges hfuel, Exec.ok_bind]; rfl⟩, ?_⟩
  have hsound := hs.sound
  have hcleanup : s.cleanup = none := hs.cleanups
  refine ⟨⟨hsound.dvd, hsound.le, hsound.wf.filter _ _, hsound.max, fun c hc ↦ ?_, ?_, ?_, nofun,
    .nil, nofun⟩, rfl, hcleanup, nofun, .nil⟩
  · obtain ⟨b, hb, rfl⟩ := List.mem_map.mp hc
    have hok := hsound.block b hb
    exact { hok with
      last_ge := Nat.le_refl _
      last_le := Nat.le_trans hok.last_ge hok.last_le
      region := List.mem_filter.mpr ⟨hok.region,
        decide_eq_true fun hmem ↦ (hsound.larges _ hmem).2.2 b hb rfl⟩ }
  · rw [List.map_map]
    exact hsound.starts
  · have hcur := hsound.current
    change 0 < (s.blocks.map _).length
    rw [List.length_map]
    omega

/-- A record that the user has is put in front of the pending cleanups. -/
theorem link {c : Nat} (hs : Holds size s (⟨c, sizeofCleanup⟩ :: U) L C)
    (x : Option Nat × Option Nat) :
    s.heap.store ⟨c, sizeofCleanup⟩ (cleanupRecord x s.cleanup) =
        .ok { s.heap with mem := s.heap.mem.store ⟨c, sizeofCleanup⟩ (cleanupRecord x s.cleanup) } ∧
      Holds size
        { s with
          heap := { s.heap with
            mem := s.heap.mem.store ⟨c, sizeofCleanup⟩ (cleanupRecord x s.cleanup) }
          cleanup := some c } U L ((c, x) :: C) := by
  have hmem : ⟨c, sizeofCleanup⟩ ∈ (⟨c, sizeofCleanup⟩ :: U) := List.mem_cons_self
  have hagree : ∀ v, ∀ r ∈ records L C, Memory.Agree r s.heap.mem
      (s.heap.mem.store ⟨c, sizeofCleanup⟩ v) := fun v r hr ↦
    Memory.agree_store _ _ (hs.disjoint hmem hr).symm
  refine ⟨Arena.store_eq (hs.sound.allows (mem_user hmem)), ?_, ?_, ?_, hs.inBlocks, hs.nodup⟩
  · refine (hs.sound.perm ?_).of_eq rfl rfl rfl rfl
    have hrec : (⟨c, sizeofCleanup⟩ :: records L C).Perm (records L ((c, x) :: C)) :=
      List.perm_middle.symm
    exact List.perm_middle.symm.trans (hrec.append_left U)
  · exact hs.larges.congr fun _ he ↦ hagree _ _ (mem_records_large he)
  · exact ⟨rfl, s.cleanup, Memory.holds_store _ _ (show 0 < 24 by decide),
      hs.cleanups.congr fun _ he ↦ hagree _ _ (mem_records_cleanup he)⟩

/-- The record of a pending cleanup gets another handler and another argument. -/
theorem register {c : Nat} {x y : Option Nat × Option Nat}
    {C C' : List (Nat × Option Nat × Option Nat)} (hs : Holds size s U L (C ++ (c, x) :: C')) :
    ∃ next, loadCleanup s.heap c = .ok { handler := x.1, data := x.2, next } ∧
      s.heap.store ⟨c, sizeofCleanup⟩ (cleanupRecord y next) =
        .ok { s.heap with mem := s.heap.mem.store ⟨c, sizeofCleanup⟩ (cleanupRecord y next) } ∧
      Holds size
        { s with
          heap := { s.heap with
            mem := s.heap.mem.store ⟨c, sizeofCleanup⟩ (cleanupRecord y next) } }
        U L (C ++ (c, y) :: C') := by
  -- the record is brought to the front
  have hperm : (U ++ records L (C ++ (c, x) :: C')).Perm
      (⟨c, sizeofCleanup⟩ :: (U ++ records L (C ++ C'))) := by
    unfold records
    rw [List.map_append, List.map_cons, List.map_append, ← List.append_assoc, ← List.append_assoc,
      ← List.append_assoc, ← List.append_assoc]
    exact List.perm_middle
  have hfront := (List.pairwise_cons.mp (hs.sound.perm hperm).apart).1
  have hmem : ⟨c, sizeofCleanup⟩ ∈ U ++ records L (C ++ (c, x) :: C') :=
    hperm.mem_iff.mpr List.mem_cons_self
  have hallow := hs.sound.allows hmem
  have hothers : ∀ e ∈ C ++ C', Range.Disjoint ⟨e.1, sizeofCleanup⟩ ⟨c, sizeofCleanup⟩ :=
    fun e he ↦ (hfront _ (mem_records (mem_records_cleanup he))).symm
  obtain ⟨next, hholds, hset⟩ := hs.cleanups.set (show 0 < 24 by decide) hothers
  refine ⟨next, loadCleanup_eq hallow hholds, Arena.store_eq hallow, ?_, ?_, hset y, hs.inBlocks,
    hs.nodup⟩
  · have hsame : records L (C ++ (c, y) :: C') = records L (C ++ (c, x) :: C') := by
      unfold records
      rw [List.map_append, List.map_append]
      rfl
    rw [hsame]
    exact hs.sound.of_eq rfl rfl rfl rfl
  · exact hs.larges.congr fun _ he ↦
      Memory.agree_store _ _ (hfront _ (mem_records (mem_records_large he))).symm

/-- What `dl_pool_cleanup_add` does with the record it has got. -/
theorem cleanupAdd (hs : Holds size s U L C) (ha : alloc.Sound) (n : Nat) :
    ∃ s₁ o₁ s' o, palloc alloc s sizeofCleanup = .ok (s₁, o₁) ∧
      Pool.cleanupAdd alloc s n = .ok (s', o) ∧
      (o = none → ∃ L', Holds size s' U L' C ∧ L <:+ L' ∧
        L'.map (·.2.base) = largeBlock s sizeofCleanup o₁ ++ L.map (·.2.base)) ∧
      ∀ c ∈ o, ∃ L' data next, Holds size s' (data.toList.map (⟨·, n⟩) ++ U) L'
          ((c, none, data) :: C) ∧ L <:+ L' ∧
        loadCleanup s'.heap c = .ok { handler := none, data, next } ∧
        L'.map (·.2.base) =
          largeBlock s n data ++ (largeBlock s sizeofCleanup o ++ L.map (·.2.base)) := by
  obtain ⟨s₁, o₁, hrun₁, hgets₁⟩ := hs.request ha sizeofCleanup true
  obtain ⟨L₁, h₁, hL₁, hbases₁⟩ := hgets₁.holds
  have hmax : s₁.max = s.max := h₁.sound.max.trans hs.sound.max.symm
  refine ⟨s₁, o₁, ?_⟩
  unfold Pool.cleanupAdd palloc
  simp only [hrun₁, Exec.ok_bind]
  cases o₁ with
  | none => exact ⟨s₁, none, trivial, rfl, fun _ ↦ ⟨L₁, h₁, hL₁, hbases₁⟩, nofun⟩
  | some c =>
    by_cases hn : n = 0
    · simp only [hn, ne_eq, not_true_eq_false, if_false]
      obtain ⟨hstore, h₂⟩ := h₁.link (none, none)
      unfold cleanupRecord at hstore
      simp only [hstore, Exec.ok_bind]
      refine ⟨_, _, trivial, rfl, nofun, fun c' hc' ↦ ?_⟩
      obtain rfl := Option.some.inj hc'
      obtain ⟨next, hload, -⟩ := Holds.register (C := []) (y := (none, none)) h₂
      refine ⟨L₁, none, next, h₂, hL₁, hload, ?_⟩
      unfold largeBlock at hbases₁ ⊢
      rw [hbases₁]
      split_ifs <;> rfl
    · obtain ⟨s₂, o₂, hrun₂, hgets₂⟩ := h₁.request ha n true
      obtain ⟨L₂, h₂, hL₂, hbases₂⟩ := hgets₂.holds
      simp only [ne_eq, hn, not_false_eq_true, if_true, hrun₂, Exec.ok_bind]
      cases o₂ with
      | none =>
        refine ⟨s₂, none, trivial, rfl, fun _ ↦ ⟨L₂, h₂.sublist (List.sublist_cons_self _ _),
          hL₁.trans hL₂, ?_⟩, nofun⟩
        have hnone : largeBlock s₁ n none = [] := by
          unfold largeBlock
          split_ifs <;> rfl
        rw [hbases₂, hnone, List.nil_append, hbases₁]
      | some data =>
        have hswap : Holds size s₂ (⟨c, sizeofCleanup⟩ :: ⟨data, n⟩ :: U) L₂ C :=
          h₂.perm (List.Perm.swap ..)
        obtain ⟨hstore, h₃⟩ := hswap.link (none, some data)
        unfold cleanupRecord at hstore
        simp only [hstore, Exec.ok_bind]
        refine ⟨_, _, trivial, rfl, nofun, fun c' hc' ↦ ?_⟩
        obtain rfl := Option.some.inj hc'
        obtain ⟨next, hload, -⟩ := Holds.register (C := []) (y := (none, none)) h₃
        refine ⟨L₂, some data, next, h₃, hL₁.trans hL₂, hload, ?_⟩
        rw [hbases₂, hbases₁, largeBlock, hmax]
        rfl

end Holds

end Dlbase.Pool
