import Dlbase.Pool.Records

/-!
# What a pool hands out lies in its blocks

The room left in a block is an unsigned difference that is taken after the cursor has been rounded
up.  In a block whose size is not a multiple of eight the cursor can be rounded up past the end,
and then any request seems to fit.  In a pool of less than 88 bytes a new block has no room for the
record of a large block, which is written past its end.
-/

namespace Dlbase.Pool

open Cmem

variable {size n k : Nat} {s s' : State} {U : List Range} {alloc : Malloc Value}

/-- The states reached from `dl_create_pool` by requests that return and by writing to what they
have handed out, with the ranges that have been handed out. -/
inductive Run (size : Nat) : State → List Range → Prop where
  /-- The pool has been created. -/
  | create {alloc : Malloc Value} {heap : Arena Value} {s : State} :
      alloc.Sound → heap.Wf → createPool alloc heap size = .ok (some s) → Run size s []
  /-- `dl_palloc` has been called. -/
  | palloc {alloc : Malloc Value} {s s' : State} {U : List Range} {n : Nat} {o : Option Nat} :
      Run size s U → alloc.Sound → palloc alloc s n = .ok (s', o) →
      Run size s' (o.toList.map (⟨·, n⟩) ++ U)
  /-- `dl_pnalloc` has been called. -/
  | pnalloc {alloc : Malloc Value} {s s' : State} {U : List Range} {n : Nat} {o : Option Nat} :
      Run size s U → alloc.Sound → pnalloc alloc s n = .ok (s', o) →
      Run size s' (o.toList.map (⟨·, n⟩) ++ U)
  /-- `dl_pcalloc` has been called. -/
  | pcalloc {alloc : Malloc Value} {s s' : State} {U : List Range} {n : Nat} {o : Option Nat} :
      Run size s U → alloc.Sound → pcalloc alloc s n = .ok (s', o) →
      Run size s' (o.toList.map (⟨·, n⟩) ++ U)
  /-- Bytes have been written to a part of what has been handed out. -/
  | write {s : State} {heap : Arena Value} {U : List Range} {r t : Range} {f : Nat → UInt8} :
      Run size s U → r ∈ U → t.Within r → (s.heap.write t fun i ↦ .byte (f i)) = .ok heap →
      Run size { s with heap } U

/-- The range lies in one of the pool's blocks or in one of its large blocks. -/
def InBounds (size : Nat) (s : State) (r : Range) : Prop :=
  (∃ b ∈ s.blocks, ⟨b.start, size⟩ ∈ s.heap.regions ∧ r.Within ⟨b.start, size⟩) ∨
    ∃ L, Memory.Chain largeRecord sizeofLarge s.heap.mem s.large L ∧
      ∃ e ∈ L, e.2 ∈ s.heap.regions ∧ r.Within e.2

/-- Every request returns, and what it hands out is in bounds and, where the code aligns it,
aligned. -/
def Bounded (size : Nat) : Prop :=
  ∀ s U, Run size s U → ∀ alloc : Malloc Value, alloc.Sound → ∀ n : Nat,
    (∃ s' o, palloc alloc s n = .ok (s', o) ∧ ∀ m ∈ o, InBounds size s' ⟨m, n⟩ ∧ 8 ∣ m) ∧
      (∃ s' o, pnalloc alloc s n = .ok (s', o) ∧ ∀ m ∈ o, InBounds size s' ⟨m, n⟩) ∧
      ∃ s' o, pcalloc alloc s n = .ok (s', o) ∧ ∀ m ∈ o, InBounds size s' ⟨m, n⟩ ∧ 8 ∣ m

/-- `dl_create_pool` can make a pool of this size. -/
def Accepted (size : Nat) : Prop :=
  ∃ (alloc : Malloc Value) (heap : Arena Value) (s : State),
    alloc.Sound ∧ heap.Wf ∧ createPool alloc heap size = .ok (some s)

/-! ## Pools of the right size -/

/-- Writing to a part of what the user has. -/
theorem Holds.write_part {r t : Range} {f : Nat → Value} {heap : Arena Value}
    {L : List (Nat × Range)} {C : List (Nat × Option Nat × Option Nat)}
    (h : Holds size s U L C) (hr : r ∈ U) (ht : t.Within r) (hrun : s.heap.write t f = .ok heap) :
    Holds size { s with heap } U L C := by
  have hallow := (h.sound.allows (Holds.mem_user hr)).within ht
  rw [Arena.write_eq hallow] at hrun
  obtain rfl := Except.ok.inj hrun
  exact h.setMem hr fun u hu ↦ Memory.agree_write _ _ (hu.symm.within ht).symm

theorem Run.holds (hd : 8 ∣ size) (hle : sizeofPool + sizeofLarge ≤ size) (h : Run size s U) :
    ∃ L, Holds size s U L [] := by
  induction h with
  | create ha hw hrun => exact ⟨[], holds_createPool ha hw hd hle hrun⟩
  | @palloc alloc s s' U n o _ ha hrun ih =>
    obtain ⟨L, h⟩ := ih
    obtain ⟨s₁, o₁, hrun₁, ⟨L', h₁, -⟩, -⟩ := h.request ha n true
    obtain ⟨rfl, rfl⟩ := Prod.mk.inj (Except.ok.inj (hrun.symm.trans hrun₁))
    exact ⟨L', h₁⟩
  | @pnalloc alloc s s' U n o _ ha hrun ih =>
    obtain ⟨L, h⟩ := ih
    obtain ⟨s₁, o₁, hrun₁, ⟨L', h₁, -⟩, -⟩ := h.request ha n false
    obtain ⟨rfl, rfl⟩ := Prod.mk.inj (Except.ok.inj (hrun.symm.trans hrun₁))
    exact ⟨L', h₁⟩
  | @pcalloc alloc s s' U n o _ ha hrun ih =>
    obtain ⟨L, h⟩ := ih
    obtain ⟨s₁, o₁, hrun₁, ⟨L', h₁, -⟩, -⟩ := h.pcalloc ha n
    obtain ⟨rfl, rfl⟩ := Prod.mk.inj (Except.ok.inj (hrun.symm.trans hrun₁))
    exact ⟨L', h₁⟩
  | write _ hr ht hrun ih =>
    obtain ⟨L, h⟩ := ih
    exact ⟨L, h.write_part hr ht hrun⟩

theorem Holds.inBounds {L : List (Nat × Range)} {C : List (Nat × Option Nat × Option Nat)}
    {r : Range} (h : Holds size s U L C) (hr : r ∈ U) : InBounds size s r := by
  rcases h.sound.placed _ (Holds.mem_user hr) with ⟨b, hb, hhas⟩ | ⟨g, hg, hin⟩
  · have hok := h.sound.block b hb
    exact .inl ⟨b, hb, hok.region, hhas.within hok⟩
  · obtain ⟨e, he, rfl⟩ := List.mem_map.mp hg
    exact .inr ⟨L, h.larges, e, he, (h.sound.larges _ hg).1, hin⟩

theorem Gets.inBounds {L : List (Nat × Range)} {C : List (Nat × Option Nat × Option Nat)}
    {align : Bool} {m : Nat} (h : Gets size s U L C n align s' (some m)) :
    InBounds size s' ⟨m, n⟩ := by
  obtain ⟨L', h', -⟩ := h.holds
  exact h'.inBounds List.mem_cons_self

/-- In a pool of the right size everything is in bounds. -/
theorem bounded (hd : 8 ∣ size) (hle : sizeofPool + sizeofLarge ≤ size) : Bounded size := by
  intro s U h alloc ha n
  obtain ⟨L, h⟩ := h.holds hd hle
  obtain ⟨s₁, o₁, hrun₁, hgets₁⟩ := h.request ha n true
  obtain ⟨s₂, o₂, hrun₂, hgets₂⟩ := h.request ha n false
  obtain ⟨s₃, o₃, hrun₃, hgets₃⟩ := h.pcalloc ha n
  refine ⟨⟨s₁, o₁, hrun₁, ?_⟩, ⟨s₂, o₂, hrun₂, ?_⟩, s₃, o₃, hrun₃, ?_⟩
  · rintro m rfl
    exact ⟨hgets₁.inBounds, hgets₁.aligned rfl m rfl⟩
  · rintro m rfl
    exact hgets₂.inBounds
  · rintro m rfl
    exact ⟨hgets₃.inBounds, hgets₃.aligned rfl m rfl⟩

/-! ## Pools of the wrong size -/

/-- A heap without blocks. -/
def noBlocks : Arena Value := ⟨fun _ ↦ none, []⟩

theorem wf_noBlocks : noBlocks.Wf := ⟨nofun, .nil⟩

/-- A pool at the address 16. -/
def fresh (size : Nat) : State where
  heap := ⟨Memory.clear (fun _ ↦ none) ⟨16, size⟩, [⟨16, size⟩]⟩
  blocks := [{ start := 16, last := 88, «end» := 16 + size, failed := 0 }]
  max := size - sizeofPool
  current := 0
  large := none
  cleanup := none

/-- In a pool of less than 88 bytes the record of a large block does not fit. -/
theorem palloc_fresh (hlo : sizeofPool ≤ size) (hhi : size < sizeofPool + sizeofLarge) :
    createPool Arena.bump noBlocks size = .ok (some (fresh size)) ∧
      palloc Arena.bump (fresh size) 16 = Exec.undef := by
  unfold sizeofPool at hlo
  unfold sizeofPool sizeofLarge at hhi
  interval_cases size <;> exact ⟨rfl, rfl⟩

theorem not_bounded_of_lt (hlo : sizeofPool ≤ size) (hhi : size < sizeofPool + sizeofLarge) :
    ¬ Bounded size := by
  intro h
  obtain ⟨hcreate, hpalloc⟩ := palloc_fresh hlo hhi
  obtain ⟨⟨s', o, hrun, -⟩, -⟩ := h _ _ (.create Arena.bump_sound wf_noBlocks hcreate) Arena.bump
    Arena.bump_sound 16
  exact nomatch hpalloc.symm.trans hrun

/-- The state of a pool with one block at `p`, all of which but `k` bytes has been handed out. -/
structure Left (size p k : Nat) (s : State) : Prop where
  /-- There is one block, with room for `k` bytes. -/
  blocks : s.blocks = [{ start := p, last := p + size - k, «end» := p + size, failed := 0 }]
  /-- Room is looked for in it. -/
  current : s.current = 0
  /-- Requests of one byte are served from the blocks. -/
  max : 1 ≤ s.max
  /-- There are no large blocks. -/
  large : s.large = none

theorem left_createPool {heap : Arena Value} (ha : alloc.Sound) (hlo : sizeofPool < size)
    (h : createPool alloc heap size = .ok (some s)) :
    ∃ p, 16 ∣ p ∧ p + size < 2 ^ 63 ∧ Left size p (size - sizeofPool) s := by
  obtain ⟨p, hp, hheap, hblocks, hmax, hcur, hlarge, -⟩ := createPool_eq_some h
  have hlt := ha.lt hp
  unfold sizeofPool at hlo
  refine ⟨p, ha.aligned hp, hlt, ?_, hcur, ?_, hlarge⟩
  · rw [hblocks]
    unfold sizeofPool
    have hlast : p + size - (size - 72) = p + 72 := by omega
    rw [hlast]
  · rw [hmax, subSize_eq (by unfold sizeofPool; omega) (by omega)]
    unfold sizeofPool maxAllocFromPool
    omega

/-- One byte is handed out from the block with room. -/
theorem Left.pnalloc (alloc : Malloc Value) {p : Nat} (h : Left size p (k + 1) s) (hk : k < size)
    (hp : p + size < 2 ^ 63) : ∃ s', pnalloc alloc s 1 = .ok (s', some (p + size - (k + 1))) ∧
      Left size p k s' := by
  have hlast : p + size - (k + 1) + 1 = p + size - k := by omega
  have hfit : 1 ≤ subSize (p + size) (p + size - (k + 1)) := by
    rw [subSize_eq (by omega) (by omega)]
    omega
  refine ⟨{ s with
    blocks := [{ start := p, last := p + size - k, «end» := p + size, failed := 0 }] }, ?_,
    rfl, h.current, h.max, h.large⟩
  simp only [Pool.pnalloc, request, if_pos h.max, pallocSmall, h.blocks, h.current, List.drop_zero,
    List.take_zero, serve, Bool.false_eq_true, if_false, if_pos hfit, hlast, List.nil_append]

/-- With no room left, a request is served from behind the block. -/
theorem Left.palloc (alloc : Malloc Value) {p : Nat} (h : Left size p 0 s) (hal : 16 ∣ p) (hd : ¬ 8 ∣ size) :
    ∃ s' m, palloc alloc s 1 = .ok (s', some m) ∧ p + size < m ∧
      s'.blocks.map (·.start) = [p] ∧ s'.large = none := by
  have hlt : p + size < alignPtr (p + size) := by
    unfold alignPtr
    omega
  have hfit : 1 ≤ subSize (p + size) (alignPtr (p + size)) := by
    unfold subSize alignPtr
    omega
  refine ⟨{ s with
    blocks := [{
      start := p, last := alignPtr (p + size) + 1, «end» := p + size, failed := 0 }] },
    alignPtr (p + size), ?_, hlt, rfl, h.large⟩
  simp only [Pool.palloc, request, if_pos h.max, pallocSmall, h.blocks, h.current, List.drop_zero,
    List.take_zero, serve, if_true, Nat.sub_zero, if_pos hfit, List.nil_append]

theorem not_bounded_of_not_dvd (hlo : sizeofPool < size) (hd : ¬ 8 ∣ size) (hacc : Accepted size) :
    ¬ Bounded size := by
  intro hb
  obtain ⟨alloc, heap, s₀, ha, hw, hcreate⟩ := hacc
  obtain ⟨p, hal, hp, hleft⟩ := left_createPool ha hlo hcreate
  -- the bytes are handed out one by one
  have hdrain : ∀ k ≤ size - sizeofPool, (∃ s U, Run size s U ∧ Left size p k s) →
      ∃ s U, Run size s U ∧ Left size p 0 s := by
    intro k hk hs
    induction k with
    | zero => exact hs
    | succ k ih =>
      obtain ⟨s, U, hrun, hl⟩ := hs
      obtain ⟨s', hcall, hl'⟩ := hl.pnalloc alloc (by omega) hp
      exact ih (by omega) ⟨s', _, hrun.pnalloc ha hcall, hl'⟩
  obtain ⟨s, U, hrun, hl⟩ := hdrain _ (Nat.le_refl _) ⟨s₀, [], .create ha hw hcreate, hleft⟩
  obtain ⟨s', m, hcall, hm, hstarts, hlarge⟩ := hl.palloc alloc hal hd
  obtain ⟨⟨s₁, o, hrun₁, hin⟩, -⟩ := hb s U hrun alloc ha 1
  obtain ⟨rfl, rfl⟩ := Prod.mk.inj (Except.ok.inj (hcall.symm.trans hrun₁))
  rcases (hin m rfl).1 with ⟨b, hmem, -, hwithin⟩ | ⟨L, hL, e, he, -⟩
  · have hstart : b.start ∈ s'.blocks.map (·.start) := List.mem_map_of_mem hmem
    rw [hstarts, List.mem_singleton] at hstart
    have hle : m + 1 ≤ b.start + size := hwithin.2
    omega
  · cases L with
    | nil => cases he
    | cons e L => exact nomatch hlarge.symm.trans hL.1

/-- What a pool hands out lies in its blocks, in every run, exactly if the size of the pool is a
multiple of eight and there is room for the record of a large block. -/
theorem bounded_iff (hlo : sizeofPool ≤ size) (hacc : Accepted size) :
    Bounded size ↔ 8 ∣ size ∧ sizeofPool + sizeofLarge ≤ size := by
  refine ⟨fun h ↦ ?_, fun h ↦ bounded h.1 h.2⟩
  have hle : sizeofPool + sizeofLarge ≤ size := by
    by_contra hlt
    exact not_bounded_of_lt hlo (Nat.not_le.mp hlt) h
  refine ⟨?_, hle⟩
  by_contra hd
  exact not_bounded_of_not_dvd (Nat.lt_of_lt_of_le (by decide) hle) hd hacc h

theorem bounded_128 : Bounded 128 :=
  (bounded_iff (by decide) ⟨Arena.bump, noBlocks, fresh 128, Arena.bump_sound, wf_noBlocks,
    rfl⟩).mpr (by decide)

/-- In a pool of 73 bytes one byte is handed out from the block and the next one from behind it. -/
theorem not_bounded_73 : ¬ ∀ size, sizeofPool ≤ size → Accepted size → Bounded size := by
  intro h
  have hacc : Accepted 73 :=
    ⟨Arena.bump, noBlocks, fresh 73, Arena.bump_sound, wf_noBlocks, rfl⟩
  exact not_bounded_of_not_dvd (by decide) (by decide) hacc (h 73 (by decide) hacc)

end Dlbase.Pool
