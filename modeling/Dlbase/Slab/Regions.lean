import Dlbase.Slab.Fixed

/-!
# Pools in several regions

A process initialises any number of regions and uses their pools in any order.  What every pool
should be able to rely on: its pages are in its own region, its slots are for chunks of up to half
a page, and its calls do what they would do if there were no other pool.  As each initialisation
counts `dl_pagesize_shift` up, this is so for one region and not for more.
-/

namespace Dlbase.Slab

open Cmem

/-- A region of shared memory, with what it holds at first. -/
structure Region where
  /-- `addr`. -/
  addr : Nat
  /-- `size`. -/
  size : Nat
  /-- The words in the region. -/
  words : Nat → Word

/-- A call for a pool. -/
inductive Call where
  /-- `dl_slab_alloc(pool, size)`. -/
  | alloc (size : Nat)
  /-- `dl_slab_free(pool, p)`. -/
  | free (p : Nat)

/-- What a call does, with what it returns. -/
def Pool.call (g : Statics) (fuel : Nat) (s : Pool) : Call → Exec (Pool × Option Nat)
  | .alloc size => s.alloc g fuel size
  | .free p => do
    let s ← s.free g p
    pure (s, none)

/-- A pool with its region and what its calls have returned. -/
structure Service where
  /-- The region. -/
  region : Region
  /-- The pool. -/
  pool : Pool
  /-- What has been returned. -/
  results : List (Option Nat)

/-- A process with its pools. -/
structure Process where
  /-- The variables of the file. -/
  statics : Statics
  /-- The pools. -/
  pools : List Service

/-- A process that has no pools yet. -/
def Process.fresh : Process := ⟨.zero, []⟩

/-- A step of a process. -/
inductive Event where
  /-- A region is initialised. -/
  | init (r : Region)
  /-- The pool with the number `k` is used. -/
  | call (k : Nat) (c : Call)

/-- What a step does. -/
def Process.step (fuel : Nat) (P : Process) : Event → Exec Process
  | .init r => do
    let (g, s) ← shmSlabInit P.statics r.addr r.size r.words
    pure ⟨g, P.pools ++ [⟨r, s, []⟩]⟩
  | .call k c =>
    match P.pools[k]? with
    | none => Exec.undef
    | some v => do
      let (s, p) ← v.pool.call P.statics fuel c
      pure { P with pools := P.pools.set k { v with pool := s, results := v.results ++ [p] } }

/-- What the steps do, one after the other. -/
def Process.run (fuel : Nat) (P : Process) : List Event → Exec Process
  | [] => .ok P
  | e :: σ => do
    let P ← P.step fuel e
    P.run fuel σ

/-- The steps of the pool with the number `k`, if there are `n` pools: what a process does that has
no other pool. -/
def alone (k n : Nat) : List Event → List Event
  | [] => []
  | .init r :: σ => if n = k then .init r :: alone k (n + 1) σ else alone k (n + 1) σ
  | .call j c :: σ => if j = k then .call 0 c :: alone k n σ else alone k n σ

/-- The number of regions that are initialised. -/
def regions : List Event → Nat
  | [] => 0
  | .init _ :: σ => regions σ + 1
  | .call _ _ :: σ => regions σ

/-- The pages are in the region, one behind the other. -/
def Mapped (g : Statics) (v : Service) : Prop :=
  ∀ i, i < v.pool.pages → v.pool.pageAddr g i = v.pool.start + i * g.pagesize ∧
    v.region.addr ≤ v.pool.start + i * g.pagesize ∧
    v.pool.start + (i + 1) * g.pagesize ≤ v.region.addr + v.region.size

/-- The slots are for chunks of `2 ^ min_shift` bytes up to half a page. -/
def Classes (g : Statics) (s : Pool) : Prop :=
  s.minSize = 2 ^ s.minShift ∧ 0 < s.slots ∧ 2 ^ (s.minShift + (s.slots - 1)) = g.pagesize / 2

/-- After the steps `σ` each pool is as if it were the only one. -/
def Independent (fuel : Nat) (σ : List Event) (P : Process) : Prop :=
  ∀ k v, P.pools[k]? = some v → Mapped P.statics v ∧ Classes P.statics v.pool ∧
    ∃ g, Process.fresh.run fuel (alone k 0 σ) = .ok ⟨g, [v]⟩

variable {fuel k n : Nat} {σ : List Event} {P P' : Process} {e : Event} {v : Service}

/-! ## What the steps have in common -/

/-- What is known about the first two pools. -/
structure Known (P : Process) : Prop where
  /-- The variables without a pool. -/
  zero : P.pools = [] → P.statics = .zero
  /-- The variables with one pool. -/
  one : P.pools.length = 1 → P.statics = once
  /-- `dl_pagesize`. -/
  pagesize : P.pools ≠ [] → P.statics.pagesize = 4096
  /-- The first pool. -/
  first : ∀ v, P.pools[0]? = some v → Base v.pool ∧ v.region.addr ≤ v.pool.start ∧
    v.pool.end = v.region.addr + v.region.size
  /-- The slots of the second pool. -/
  second : ∀ v, P.pools[1]? = some v → v.pool.minShift = 3 ∧ v.pool.slots = 21

theorem keeps_call {g : Statics} {s : Pool} {c : Call} : Keeps s (s.call g fuel c) Prod.fst := by
  cases c with
  | alloc size => exact keeps_alloc
  | free p => exact .bind keeps_free fun _ h ↦ .ok h

/-- A region is initialised. -/
theorem step_init {r : Region} (h : P.step fuel (.init r) = .ok P') :
    ∃ g s, shmSlabInit P.statics r.addr r.size r.words = .ok (g, s) ∧
      P' = ⟨g, P.pools ++ [⟨r, s, []⟩]⟩ := by
  obtain ⟨⟨g, s⟩, hs, hP⟩ := Exec.bind_eq_ok.mp h
  exact ⟨g, s, hs, (Except.ok.inj hP).symm⟩

/-- A pool is used. -/
theorem step_call {c : Call} (h : P.step fuel (.call k c) = .ok P') :
    ∃ v s p, P.pools[k]? = some v ∧ Same v.pool s ∧
      P' = { P with pools := P.pools.set k { v with pool := s, results := v.results ++ [p] } } := by
  rw [Process.step] at h
  split at h
  · cases h
  · rename_i v hv
    obtain ⟨⟨s, p⟩, hs, hP⟩ := Exec.bind_eq_ok.mp h
    exact ⟨v, s, p, hv, keeps_call _ hs, (Except.ok.inj hP).symm⟩

/-- The second initialisation. -/
theorem init_once : once.init = ⟨2048, 64, 6, 4096, 24⟩ := by
  simp only [Statics.init, halvings_eq]
  rfl

theorem init_pagesize (g : Statics) : g.init.pagesize = 4096 := by
  rw [Statics.init]
  split_ifs <;> rfl

theorem Known.init {r : Region} (h : Known P) (hP : P.step fuel (.init r) = .ok P') : Known P' := by
  obtain ⟨g, s, hs, rfl⟩ := step_init hP
  obtain ⟨hg, hshift, hslots, hend⟩ := shmSlabInit_ok hs
  have hsize : g.pagesize = 4096 := hg ▸ init_pagesize _
  rcases hp : P.pools with _ | ⟨u, _ | ⟨w, l⟩⟩
  · rw [h.zero hp] at hs
    refine ⟨nofun, fun _ ↦ (shmSlabInit_zero hs).1, fun _ ↦ hsize, fun v hv ↦ ?_, nofun⟩
    cases hv
    obtain ⟨-, p, pages, start, last, hp, -, -, -, hstart, -, -, rfl⟩ := shmSlabInit_zero hs
    exact ⟨base_init hs, by dsimp only; omega, rfl⟩
  · have hone : P.statics = once := h.one (congrArg List.length hp)
    refine ⟨nofun, nofun, fun _ ↦ hsize, fun v hv ↦ h.first v (hp ▸ hv), fun v hv ↦ ?_⟩
    cases hv
    exact ⟨hshift, hslots.trans (by simp only [hg, hone, init_once])⟩
  · exact ⟨nofun, nofun, fun _ ↦ hsize, fun v hv ↦ h.first v (hp ▸ hv),
      fun v hv ↦ h.second v (hp ▸ hv)⟩

theorem Known.call {c : Call} (h : Known P) (hP : P.step fuel (.call k c) = .ok P') : Known P' := by
  obtain ⟨v, s, p, hv, hsame, rfl⟩ := step_call hP
  -- the pool that is used keeps its layout, and the others are as before
  have hold : ∀ (j : Nat) (w : Service), (P.pools.set k ⟨v.region, s, v.results ++ [p]⟩)[j]? = some w →
      ∃ w', P.pools[j]? = some w' ∧ Same w'.pool w.pool ∧ w.region = w'.region := fun j w hw ↦ by
    by_cases hjk : k = j
    · subst hjk
      rw [List.getElem?_set_self (List.getElem?_eq_some_iff.mp hv).1] at hw
      cases hw
      exact ⟨v, hv, hsame, rfl⟩
    · rw [List.getElem?_set_ne hjk] at hw
      exact ⟨w, hw, .refl _, rfl⟩
  have hne : P.pools.set k ⟨v.region, s, v.results ++ [p]⟩ ≠ [] → P.pools ≠ [] := fun hne hnil ↦
    hne (by rw [hnil, List.set_nil])
  refine ⟨fun hnil ↦ h.zero ?_, fun hlen ↦ h.one ?_, fun hn ↦ h.pagesize (hne hn), fun w hw ↦ ?_,
    fun w hw ↦ ?_⟩
  · exact List.eq_nil_of_length_eq_zero
      ((List.length_set ..).symm.trans (congrArg List.length hnil))
  · rwa [List.length_set] at hlen
  · obtain ⟨w', hw', hsame, hr⟩ := hold 0 w hw
    obtain ⟨hb, hle, hend⟩ := h.first w' hw'
    exact ⟨hsame.base hb, by rw [hr, hsame.start]; exact hle, by rw [hr, hsame.end]; exact hend⟩
  · obtain ⟨w', hw', hsame, -⟩ := hold 1 w hw
    obtain ⟨hshift, hslots⟩ := h.second w' hw'
    exact ⟨hsame.minShift.trans hshift, hsame.slots.trans hslots⟩

theorem Known.run (h : Known P) (hr : P.run fuel σ = .ok P') : Known P' := by
  induction σ generalizing P with
  | nil => exact Except.ok.inj hr ▸ h
  | cons e σ ih =>
    obtain ⟨P'', hs, hr⟩ := Exec.bind_eq_ok.mp hr
    refine ih ?_ hr
    cases e with
    | init r => exact h.init hs
    | call k c => exact h.call hs

theorem known_fresh : Known .fresh := ⟨fun _ ↦ rfl, nofun, fun h ↦ absurd rfl h, nofun, nofun⟩

/-- Each region that is initialised gives a pool. -/
theorem length_run (hr : P.run fuel σ = .ok P') :
    P'.pools.length = P.pools.length + regions σ := by
  induction σ generalizing P with
  | nil =>
    obtain rfl := Except.ok.inj hr
    rfl
  | cons e σ ih =>
    obtain ⟨P'', hs, hr⟩ := Exec.bind_eq_ok.mp hr
    rw [ih hr]
    cases e with
    | init r =>
      obtain ⟨g, s, -, rfl⟩ := step_init hs
      rw [List.length_append, regions, List.length_singleton]
      omega
    | call k c =>
      obtain ⟨v, s, p, -, -, rfl⟩ := step_call hs
      rw [List.length_set, regions]

/-! ## One region -/

/-- With one pool, and without further regions, all calls are for this pool. -/
theorem alone_calls (hlen : P.pools.length = 1) (hσ : regions σ = 0)
    (hr : P.run fuel σ = .ok P') : alone 0 1 σ = σ := by
  induction σ generalizing P with
  | nil => rfl
  | cons e σ ih =>
    obtain ⟨P'', hs, hr⟩ := Exec.bind_eq_ok.mp hr
    cases e with
    | init r => exact absurd hσ (Nat.succ_ne_zero _)
    | call k c =>
      obtain ⟨v, s, p, hv, -, rfl⟩ := step_call hs
      obtain rfl : k = 0 := by
        have := (List.getElem?_eq_some_iff.mp hv).1
        omega
      rw [alone, if_pos rfl, ih ((List.length_set ..).trans hlen) hσ hr]

/-- With one region, the process does what it would do alone. -/
theorem alone_eq (hσ : regions σ ≤ 1) (hr : Process.fresh.run fuel σ = .ok P) :
    alone 0 0 σ = σ := by
  cases σ with
  | nil => rfl
  | cons e σ =>
    obtain ⟨P', hs, hr⟩ := Exec.bind_eq_ok.mp hr
    cases e with
    | init r =>
      obtain ⟨g, s, -, rfl⟩ := step_init hs
      rw [alone, if_pos rfl, alone_calls rfl (Nat.le_zero.mp (Nat.le_of_succ_le_succ hσ)) hr]
    | call k c =>
      obtain ⟨v, s, p, hv, -⟩ := step_call hs
      cases hv

/-- A region of sixteen pages. -/
def lowRegion : Region := ⟨65536, 65536, fun _ ↦ 0⟩

/-- The sixteen pages behind it. -/
def highRegion : Region := ⟨131072, 65536, fun _ ↦ 0⟩

theorem run_lowRegion : ∃ s, Process.fresh.run 0 [.init lowRegion] =
    .ok ⟨once, [⟨lowRegion, s, []⟩]⟩ := by
  have hs : ∃ s, shmSlabInit .zero 65536 65536 (fun _ ↦ 0) = .ok (once, s) := by
    rw [shmSlabInit, init_zero, if_pos (by decide)]
    dsimp only
    rw [if_pos (by decide)]
    exact ⟨_, rfl⟩
  obtain ⟨s, hs⟩ := hs
  refine ⟨s, ?_⟩
  change (shmSlabInit .zero 65536 65536 (fun _ ↦ 0) >>= _) >>= _ = _
  rw [hs]
  rfl

theorem run_highRegion {s : Pool} : ∃ P,
    Process.run 0 ⟨once, [⟨lowRegion, s, []⟩]⟩ [.init highRegion] = .ok P := by
  have hs : ∃ s', shmSlabInit once 131072 65536 (fun _ ↦ 0) = .ok (once.init, s') := by
    rw [shmSlabInit, init_once, if_pos (by decide)]
    dsimp only
    rw [if_pos (by decide)]
    exact ⟨_, rfl⟩
  obtain ⟨s', hs⟩ := hs
  refine ⟨⟨once.init, [⟨lowRegion, s, []⟩, ⟨highRegion, s', []⟩]⟩, ?_⟩
  change (shmSlabInit once 131072 65536 (fun _ ↦ 0) >>= _) >>= _ = _
  rw [hs]
  rfl

/-- Both regions are initialised. -/
theorem run_regions : ∃ P, Process.fresh.run 0 [.init lowRegion, .init highRegion] = .ok P := by
  obtain ⟨s, hs⟩ := run_lowRegion
  obtain ⟨P, hP⟩ := run_highRegion (s := s)
  refine ⟨P, ?_⟩
  obtain ⟨P', hP', hnil⟩ := Exec.bind_eq_ok.mp hs
  obtain rfl := Except.ok.inj hnil
  change Process.fresh.step 0 _ >>= _ = _
  rw [hP']
  exact hP

/-- The slots of the second pool go beyond half a page. -/
theorem Known.not_classes (h : Known P) (hv : P.pools[1]? = some v) :
    ¬ Classes P.statics v.pool := by
  rintro ⟨-, -, hlast⟩
  obtain ⟨hshift, hslots⟩ := h.second v hv
  rw [hshift, hslots, h.pagesize fun hnil ↦ by rw [hnil] at hv; cases hv] at hlast
  exact absurd hlast (by decide)

/-- The pools are independent of each other if and only if no more than one region is
initialised. -/
theorem independent_iff (hr : Process.fresh.run fuel σ = .ok P) :
    Independent fuel σ P ↔ regions σ ≤ 1 := by
  have hk := known_fresh.run hr
  have hlen : P.pools.length = regions σ := (length_run hr).trans (Nat.zero_add _)
  constructor
  · intro h
    by_contra hσ
    obtain ⟨v, hv⟩ : ∃ v, P.pools[1]? = some v := ⟨_, List.getElem?_eq_getElem (by omega)⟩
    exact hk.not_classes hv (h 1 v hv).2.1
  · intro hσ k v hv
    obtain rfl : k = 0 := by
      have := (List.getElem?_eq_some_iff.mp hv).1
      omega
    have hone : P.pools.length = 1 := by
      have := (List.getElem?_eq_some_iff.mp hv).1
      omega
    obtain ⟨hb, hle, hend⟩ := hk.first v hv
    rw [hk.one hone]
    refine ⟨fun i hi ↦ ⟨?_, ?_, ?_⟩, ⟨?_, ?_, ?_⟩, ?_⟩
    · rw [Pool.pageAddr, Nat.shiftLeft_eq, Nat.add_comm]
      rfl
    · exact Nat.le_trans hle (Nat.le_add_right _ _)
    · have := hb.end_le.resolve_right (by omega)
      change _ + (i + 1) * 4096 ≤ _
      omega
    · rw [hb.minSize, hb.minShift]
      rfl
    · rw [hb.slots]
      decide
    · rw [hb.minShift, hb.slots]
      rfl
    · obtain ⟨w, hw⟩ := List.length_eq_one_iff.mp hone
      rw [hw] at hv
      cases hv
      rw [alone_eq hσ hr, ← hw]
      exact ⟨P.statics, hr⟩

/-- A single pool. -/
theorem independent_low : ∃ P, Process.fresh.run 0 [.init lowRegion] = .ok P ∧
    Independent 0 [.init lowRegion] P := by
  obtain ⟨s, hs⟩ := run_lowRegion
  exact ⟨_, hs, (independent_iff hs).mpr le_rfl⟩

/-- Pools are not always independent of each other. -/
theorem not_independent : ¬ ∀ fuel σ P, Process.fresh.run fuel σ = .ok P →
    Independent fuel σ P := by
  intro h
  obtain ⟨P, hP⟩ := run_regions
  have hlen : P.pools.length = 2 := length_run hP
  obtain ⟨v, hv⟩ : ∃ v, P.pools[1]? = some v := ⟨_, List.getElem?_eq_getElem (by omega)⟩
  exact (known_fresh.run hP).not_classes hv (h _ _ P hP 1 v hv).2.1

end Dlbase.Slab
