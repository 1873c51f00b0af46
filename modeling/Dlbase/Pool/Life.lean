import Dlbase.Pool.Cleanup

/-!
# The bookkeeping of a pool over its life

A run of requests, registrations and resets is followed with what the user has, the pending
cleanups and the large blocks that are still owned.
-/

namespace Dlbase.Pool

open Cmem

variable {size n : Nat} {s s' : State} {U : List Range} {B : List Nat}

/-- Pending cleanups: the record, the handler and its argument, the newest one first. -/
abbrev Pending := List (Nat × Option Nat × Option Nat)

variable {C : Pending}

/-- The states reached from `dl_create_pool`, with what the user has, the pending cleanups and the
large blocks.  The pool is reset in states that meet `ok` only. -/
inductive Life (ok : State → Prop) (size : Nat) :
    State → List Range → Pending → List Nat → Prop where
  /-- The pool has been created. -/
  | create {alloc : Malloc Value} {heap : Arena Value} {s : State} :
      alloc.Sound → heap.Wf → createPool alloc heap size = .ok (some s) → Life ok size s [] [] []
  /-- `dl_palloc` has been called. -/
  | palloc {alloc : Malloc Value} {s s' : State} {U : List Range} {C : Pending} {B : List Nat}
      {n : Nat} {o : Option Nat} :
      Life ok size s U C B → alloc.Sound → palloc alloc s n = .ok (s', o) →
      Life ok size s' (o.toList.map (⟨·, n⟩) ++ U) C (largeBlock s n o ++ B)
  /-- `dl_pnalloc` has been called. -/
  | pnalloc {alloc : Malloc Value} {s s' : State} {U : List Range} {C : Pending} {B : List Nat}
      {n : Nat} {o : Option Nat} :
      Life ok size s U C B → alloc.Sound → pnalloc alloc s n = .ok (s', o) →
      Life ok size s' (o.toList.map (⟨·, n⟩) ++ U) C (largeBlock s n o ++ B)
  /-- `dl_pool_cleanup_add` has been called; the user has got the memory for the argument. -/
  | cleanupAdd {alloc : Malloc Value} {s s' : State} {U : List Range} {C : Pending} {B : List Nat}
      {n c : Nat} {r : Cleanup} :
      Life ok size s U C B → alloc.Sound → cleanupAdd alloc s n = .ok (s', some c) →
      loadCleanup s'.heap c = .ok r →
      Life ok size s' (r.data.toList.map (⟨·, n⟩) ++ U) ((c, r.handler, r.data) :: C)
        (largeBlock s n r.data ++ (largeBlock s sizeofCleanup (some c) ++ B))
  /-- `dl_pool_cleanup_add` has been called in vain. -/
  | cleanupFailed {alloc : Malloc Value} {s s₁ s' : State} {U : List Range} {C : Pending}
      {B : List Nat} {n : Nat} {o : Option Nat} :
      Life ok size s U C B → alloc.Sound → cleanupAdd alloc s n = .ok (s', none) →
      Pool.palloc alloc s sizeofCleanup = .ok (s₁, o) →
      Life ok size s' U C (largeBlock s sizeofCleanup o ++ B)
  /-- The user has set the handler and the argument of a pending cleanup. -/
  | register {s : State} {heap : Arena Value} {U : List Range} {C C' : Pending} {B : List Nat}
      {c : Nat} {x : Option Nat × Option Nat} {r : Cleanup} {handler data : Option Nat} :
      Life ok size s U (C ++ (c, x) :: C') B → loadCleanup s.heap c = .ok r →
      s.heap.store ⟨c, sizeofCleanup⟩ (.cleanup { r with handler, data }) = .ok heap →
      Life ok size { s with heap } U (C ++ (c, handler, data) :: C') B
  /-- The user has written to a part of what it has. -/
  | write {s : State} {heap : Arena Value} {U : List Range} {C : Pending} {B : List Nat}
      {r t : Range} {f : Nat → UInt8} :
      Life ok size s U C B → r ∈ U → t.Within r →
      (s.heap.write t fun i ↦ .byte (f i)) = .ok heap → Life ok size { s with heap } U C B
  /-- The pool has been reset: the memory of the user and the large blocks are gone. -/
  | reset {s s' : State} {U : List Range} {C : Pending} {B : List Nat} :
      Life ok size s U C B → ok s → Returns (fun fuel ↦ resetPool fuel s) s' →
      Life ok size s' [] C []

/-- The lists of the pool lead to the large blocks `B` and to the cleanups `C` through records
that no allocation overlaps, and `dl_destroy_pool` calls the handlers of the one and frees the
other. -/
structure Intact (s : State) (C : Pending) (B : List Nat) : Prop where
  /-- Memory that is handed out overlaps no record. -/
  records : ∃ L, Memory.Chain largeRecord sizeofLarge s.heap.mem s.large L ∧
    L.map (·.2.base) = B ∧ Memory.Chain cleanupRecord sizeofCleanup s.heap.mem s.cleanup C ∧
    (∀ alloc : Malloc Value, alloc.Sound → ∀ (n : Nat) (align : Bool),
      ∃ s' o, request alloc s n align = .ok (s', o) ∧
        ∀ m ∈ o, ∀ r ∈ records L C, r.Disjoint ⟨m, n⟩) ∧
    ∀ alloc : Malloc Value, alloc.Sound → ∀ n : Nat,
      ∃ s' o, cleanupAdd alloc s n = .ok (s', o) ∧
        ∀ c ∈ o, ∃ r, loadCleanup s'.heap c = .ok r ∧ ∀ t ∈ Pool.records L C,
          t.Disjoint ⟨c, sizeofCleanup⟩ ∧ ∀ d ∈ r.data, t.Disjoint ⟨d, n⟩
  /-- The handlers are called and the large blocks are freed. -/
  destroy : ∃ heap, Returns (fun fuel ↦ destroyPool fuel s) (heap, handlerCalls C, B)
  /-- No large block is freed twice. -/
  nodup : B.Nodup

theorem Holds.eq_nil {L : List (Nat × Range)} (h : Holds size s U L C) (hs : s.cleanup = none) :
    C = [] := by
  have hc := h.cleanups
  rw [hs] at hc
  cases C with
  | nil => rfl
  | cons e C => exact nomatch hc.1

theorem Life.holds (hd : 8 ∣ size) (hle : sizeofPool + sizeofLarge ≤ size)
    (h : Life (·.cleanup = none) size s U C B) :
    ∃ L, Holds size s U L C ∧ L.map (·.2.base) = B := by
  induction h with
  | create ha hw hrun => exact ⟨[], holds_createPool ha hw hd hle hrun, rfl⟩
  | @palloc alloc s s' U C B n o _ ha hrun ih =>
    obtain ⟨L, h, rfl⟩ := ih
    obtain ⟨s₁, o₁, hrun₁, hgets⟩ := h.request ha n true
    obtain ⟨L', h₁, -, hL⟩ := hgets.holds
    obtain ⟨rfl, rfl⟩ := Prod.mk.inj (Except.ok.inj (hrun.symm.trans hrun₁))
    exact ⟨L', h₁, hL⟩
  | @pnalloc alloc s s' U C B n o _ ha hrun ih =>
    obtain ⟨L, h, rfl⟩ := ih
    obtain ⟨s₁, o₁, hrun₁, hgets⟩ := h.request ha n false
    obtain ⟨L', h₁, -, hL⟩ := hgets.holds
    obtain ⟨rfl, rfl⟩ := Prod.mk.inj (Except.ok.inj (hrun.symm.trans hrun₁))
    exact ⟨L', h₁, hL⟩
  | @cleanupAdd alloc s s' U C B n c r _ ha hrun hload ih =>
    obtain ⟨L, h, rfl⟩ := ih
    obtain ⟨s₁, o₁, s₂, o₂, -, hrun₂, -, hsome⟩ := h.cleanupAdd ha n
    obtain ⟨rfl, rfl⟩ := Prod.mk.inj (Except.ok.inj (hrun.symm.trans hrun₂))
    obtain ⟨L', data, next, h', -, hload', hL⟩ := hsome c rfl
    obtain rfl := Except.ok.inj (hload.symm.trans hload')
    exact ⟨L', h', hL⟩
  | @cleanupFailed alloc s s₁ s' U C B n o _ ha hrun hfirst ih =>
    obtain ⟨L, h, rfl⟩ := ih
    obtain ⟨s₂, o₂, s₃, o₃, hfirst', hrun', hnone, -⟩ := h.cleanupAdd ha n
    obtain ⟨rfl, rfl⟩ := Prod.mk.inj (Except.ok.inj (hrun.symm.trans hrun'))
    obtain ⟨rfl, rfl⟩ := Prod.mk.inj (Except.ok.inj (hfirst.symm.trans hfirst'))
    obtain ⟨L', h', -, hL⟩ := hnone rfl
    exact ⟨L', h', hL⟩
  | @register s heap U C C' B c x r handler data _ hload hstore ih =>
    obtain ⟨L, h, rfl⟩ := ih
    obtain ⟨next, hload', hstore', h'⟩ := h.register (y := (handler, data))
    obtain rfl := Except.ok.inj (hload.symm.trans hload')
    obtain rfl := Except.ok.inj (hstore.symm.trans hstore')
    exact ⟨L, h', rfl⟩
  | write _ hr ht hrun ih =>
    obtain ⟨L, h, rfl⟩ := ih
    exact ⟨L, h.write_part hr ht hrun, rfl⟩
  | @reset s s' U C B _ hok hret ih =>
    obtain ⟨L, h, rfl⟩ := ih
    obtain rfl := h.eq_nil hok
    obtain ⟨s₁, hret', h'⟩ := h.resetPool
    obtain rfl := hret.unique hret'
    exact ⟨[], h', rfl⟩

theorem mem_records_suffix {L L' : List (Nat × Range)} {r : Range} {e : Nat × Option Nat × Option Nat}
    (hL : L <:+ L') (hr : r ∈ records L C) : r ∈ records L' (e :: C) := by
  rcases List.mem_append.mp hr with hr | hr
  · obtain ⟨x, hx, rfl⟩ := List.mem_map.mp hr
    exact mem_records_large (hL.subset hx)
  · obtain ⟨x, hx, rfl⟩ := List.mem_map.mp hr
    exact mem_records_cleanup (List.mem_cons_of_mem e hx)

theorem Holds.intact {L : List (Nat × Range)} (h : Holds size s U L C) :
    Intact s C (L.map (·.2.base)) where
  records := by
    refine ⟨L, h.larges, rfl, h.cleanups, fun alloc ha n align ↦ ?_, fun alloc ha n ↦ ?_⟩
    · obtain ⟨s', o, hrun, hgets⟩ := h.request ha n align
      refine ⟨s', o, hrun, ?_⟩
      rintro m rfl r hr
      obtain ⟨L', h', hL, -⟩ := hgets.holds
      have hr' : r ∈ Pool.records L' C := by
        rcases List.mem_append.mp hr with hr | hr
        · obtain ⟨x, hx, rfl⟩ := List.mem_map.mp hr
          exact mem_records_large (hL.subset hx)
        · exact List.mem_append_right _ hr
      exact (h'.disjoint List.mem_cons_self hr').symm
    · obtain ⟨s₁, o₁, s', o, -, hrun, -, hsome⟩ := h.cleanupAdd ha n
      refine ⟨s', o, hrun, ?_⟩
      rintro c rfl
      obtain ⟨L', data, next, h', hL, hload, -⟩ := hsome c rfl
      refine ⟨_, hload, fun t ht ↦ ⟨?_, ?_⟩⟩
      · have hrec : (L'.map (fun e ↦ (⟨e.1, sizeofLarge⟩ : Range)) ++ ⟨c, sizeofCleanup⟩ ::
            C.map (fun e ↦ (⟨e.1, sizeofCleanup⟩ : Range))).Pairwise Range.Disjoint :=
          (List.pairwise_append.mp h'.sound.apart).2.1
        obtain ⟨-, hcleanups, hboth⟩ := List.pairwise_append.mp hrec
        rcases List.mem_append.mp ht with ht | ht
        · obtain ⟨x, hx, rfl⟩ := List.mem_map.mp ht
          exact hboth _ (List.mem_map_of_mem (f := fun e : Nat × Range ↦
            (⟨e.1, sizeofLarge⟩ : Range)) (hL.subset hx)) _ List.mem_cons_self
        · exact ((List.pairwise_cons.mp hcleanups).1 t ht).symm
      · rintro d rfl
        exact (h'.disjoint List.mem_cons_self (mem_records_suffix hL ht)).symm
  destroy := h.destroyPool
  nodup := by
    have hmap : L.map (·.2.base) = (L.map Prod.snd).map Range.base := by
      rw [List.map_map]
      rfl
    rw [hmap]
    exact h.nodup.map_on fun g hg g' hg' he ↦
      h.sound.wf.eq_of_base_eq (h.sound.larges g hg).1 (h.sound.larges g' hg').1 he

/-- In a pool of the right size that is reset only while no cleanup is pending, the bookkeeping
is intact in every state reached. -/
theorem life_intact (hd : 8 ∣ size) (hle : sizeofPool + sizeofLarge ≤ size)
    (h : Life (·.cleanup = none) size s U C B) : Intact s C B := by
  obtain ⟨L, hs, rfl⟩ := h.holds hd hle
  exact hs.intact

/-! ## A pool of 128 bytes -/

/-- A pool of 128 bytes with one cleanup. -/
def oneCleanup : State :=
  { fresh 128 with
    heap := ⟨(fresh 128).heap.mem.store ⟨88, 24⟩ (cleanupRecord (none, none) none),
      (fresh 128).heap.regions⟩
    blocks := [{ start := 16, last := 112, «end» := 144, failed := 0 }]
    cleanup := some 88 }

/-- The pool after it has been reset. -/
def resetCleanup : State :=
  { oneCleanup with blocks := [{ start := 16, last := 88, «end» := 144, failed := 0 }] }

theorem cleanupAdd_fresh : cleanupAdd Arena.bump (fresh 128) 0 = .ok (oneCleanup, some 88) := rfl

theorem resetPool_oneCleanup (fuel : Nat) : resetPool fuel oneCleanup = .ok resetCleanup := by
  cases fuel <;> rfl

/-- A pool of 128 bytes in which 24 bytes are in use. -/
def inUse : State :=
  { fresh 128 with blocks := [{ start := 16, last := 112, «end» := 144, failed := 0 }] }

theorem palloc_fresh_128 : palloc Arena.bump (fresh 128) 24 = .ok (inUse, some 88) := rfl

theorem resetPool_inUse (fuel : Nat) : resetPool fuel inUse = .ok (fresh 128) := by
  cases fuel <;> rfl

theorem life_create {ok : State → Prop} : Life ok 128 (fresh 128) [] [] [] :=
  .create Arena.bump_sound wf_noBlocks rfl

/-- Memory is requested, the pool is reset, and a cleanup is added. -/
theorem life_intact_reset : Life (·.cleanup = none) 128 oneCleanup [] [(88, none, none)] [] ∧
    Intact oneCleanup [(88, none, none)] [] := by
  have huse : Life (·.cleanup = none) 128 inUse [⟨88, 24⟩] [] [] :=
    life_create.palloc Arena.bump_sound palloc_fresh_128
  have hreset : Life (·.cleanup = none) 128 (fresh 128) [] [] [] :=
    huse.reset rfl ⟨0, fun fuel _ ↦ resetPool_inUse fuel⟩
  have hadd : Life (·.cleanup = none) 128 oneCleanup [] [(88, none, none)] [] :=
    hreset.cleanupAdd Arena.bump_sound cleanupAdd_fresh rfl
  exact ⟨hadd, life_intact (by decide) (by decide) hadd⟩

/-- The record of a cleanup that is pending at a reset is handed out again. -/
theorem not_intact_reset : ¬ ∀ size s U C B, sizeofPool ≤ size →
    Life (fun _ ↦ True) size s U C B → Intact s C B := by
  intro hall
  have hadd : Life (fun _ ↦ True) 128 oneCleanup [] [(88, none, none)] [] :=
    life_create.cleanupAdd Arena.bump_sound cleanupAdd_fresh rfl
  have hreset : Life (fun _ ↦ True) 128 resetCleanup [] [(88, none, none)] [] :=
    hadd.reset trivial ⟨0, fun fuel _ ↦ resetPool_oneCleanup fuel⟩
  obtain ⟨L, -, -, -, hrequest, -⟩ := (hall _ _ _ _ _ (by decide) hreset).records
  obtain ⟨s', o, hrun, hdis⟩ := hrequest Arena.bump Arena.bump_sound 24 true
  have hpalloc : request Arena.bump resetCleanup 24 true =
      .ok ({ resetCleanup with
        blocks := [{ start := 16, last := 112, «end» := 144, failed := 0 }] }, some 88) := rfl
  obtain ⟨rfl, rfl⟩ := Prod.mk.inj (Except.ok.inj (hpalloc.symm.trans hrun))
  have hd : Range.Disjoint ⟨88, sizeofCleanup⟩ ⟨88, 24⟩ :=
    hdis 88 rfl _ (mem_records_cleanup (e := (88, none, none)) List.mem_cons_self)
  exact absurd hd (by decide)

end Dlbase.Pool
