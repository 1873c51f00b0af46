import Dlbase.Slab.Shape

/-!
# A new pool

After the first initialisation of the process a pool is one free run, and its pages are inside of
its region.
-/

namespace Dlbase.Slab

open Cmem

variable {g : Statics} {s : Pool} {addr size p n : Nat} {words : Nat → Word}

/-- The loops count the bits of a number but the first one. -/
theorem halvings_eq (n : Nat) : halvings n = Nat.log2 n := by
  induction n using halvings.induct with
  | case1 n h => rw [halvings, if_pos h, Nat.log2_def, if_neg (by omega)]
  | case2 n h ih => rw [halvings, if_neg h, ih, Nat.log2_def n, if_pos (by omega)]

/-- The first initialisation. -/
theorem init_zero : Statics.zero.init = once := by
  simp only [Statics.init, halvings_eq]
  rfl

/-- The room for the descriptors is as large as it must be, and the pages are aligned. -/
theorem start_le {pages start : Nat}
    (hstart : start = (p + pages * 24 + (4096 - 1)) / 4096 * 4096) :
    p + pages * 24 ≤ start ∧ start ≤ p + pages * 24 + 4095 ∧ 4096 ∣ start :=
  ⟨by omega, by omega, hstart ▸ Nat.dvd_mul_left _ _⟩

/-- The pages end in the region. -/
theorem end_le {pages start pend : Nat} {m : Int} (hp : p ≤ pend)
    (hpages : pages = (pend - p) / (4096 + 24) % 2 ^ 32)
    (hstart : start = (p + pages * 24 + (4096 - 1)) / 4096 * 4096)
    (hm : m = ((pages : Int) - ((pend : Int) - start).tdiv 4096).bmod (2 ^ 32)) :
    start + 4096 * (if 0 < m then pages - m.toNat else pages) ≤ pend ∨
      (if 0 < m then pages - m.toNat else pages) = 0 := by
  obtain ⟨hlo, hhi, -⟩ := start_le hstart
  rcases Nat.eq_zero_or_pos pages with hzero | hpos
  · refine .inr ?_
    split_ifs <;> omega
  have hle : start ≤ pend := by omega
  obtain ⟨q, hq⟩ : ∃ q, q = (pend - start) / 4096 := ⟨_, rfl⟩
  have htdiv : ((pend : Int) - start).tdiv 4096 = q := by
    rw [hq, ← Int.ofNat_sub hle]
    rfl
  rw [htdiv] at hm
  -- a region of more than `2 ^ 32` pages has room for all that are counted
  by_cases hbig : 2 ^ 32 ≤ (pend - p) / (4096 + 24)
  · refine .inl ?_
    split_ifs <;> omega
  · have hmod : m = pages - q := by
      rw [hm, Int.bmod_eq_of_le] <;> omega
    refine .inl ?_
    split_ifs <;> omega

/-! ## The pool -/

/-- What every initialisation does. -/
theorem shmSlabInit_ok {g' : Statics} (h : shmSlabInit g addr size words = .ok (g', s)) :
    g' = g.init ∧ s.minShift = 3 ∧ s.slots = g'.pagesizeShift - 3 ∧ s.end = addr + size := by
  rw [shmSlabInit, Exec.ite_undef_eq_ok] at h
  dsimp only at h
  rw [Exec.ite_undef_eq_ok] at h
  obtain ⟨-, -, h⟩ := h
  cases h
  exact ⟨rfl, rfl, rfl, rfl⟩

/-- What the first initialisation computes. -/
theorem shmSlabInit_zero (h : shmSlabInit .zero addr size words = .ok (g, s)) :
    g = once ∧ ∃ p pages start last, addr ≤ p ∧ p ≤ addr + size ∧ pages < 2 ^ 32 ∧ last ≤ pages ∧
      p + pages * 24 ≤ start ∧ 4096 ∣ start ∧ (start + 4096 * last ≤ addr + size ∨ last = 0) ∧
      s = ⟨8, 3, 9, max 1 pages, last, initNode last, fun _ ↦ ⟨0, 0, 0, 0⟩, BitVec.ofNat 32 last,
        start, addr + size, words⟩ := by
  rw [shmSlabInit, init_zero, Exec.ite_undef_eq_ok] at h
  dsimp only at h
  rw [Exec.ite_undef_eq_ok] at h
  obtain ⟨hp, -, h⟩ := h
  obtain ⟨rfl, rfl⟩ := Prod.mk.inj (Except.ok.inj h)
  have hle := Nat.le_trans (Nat.le_add_right _ _) hp
  obtain ⟨hlo, -, hdvd⟩ := start_le rfl
  refine ⟨rfl, _, _, _, _, ?_, hle, Nat.mod_lt _ (by decide), ?_, hlo, hdvd,
    end_le hle rfl rfl rfl, rfl⟩
  · omega
  · split_ifs
    · exact Nat.sub_le _ _
    · exact Nat.le_refl _

/-- The layout of the first pool. -/
theorem base_init (h : shmSlabInit .zero addr size words = .ok (g, s)) : Base s := by
  obtain ⟨-, p, pages, start, last, -, hle, hlt, hlast, -, hdvd, hend, rfl⟩ := shmSlabInit_zero h
  exact ⟨rfl, rfl, rfl, Nat.le_trans hlast (Nat.le_max_right _ _), Nat.le_max_left _ _,
    Nat.lt_of_le_of_lt hlast hlt, hdvd, hend⟩

/-- The first pool is one free run. -/
theorem shape_init (h : shmSlabInit .zero addr size words = .ok (g, s)) :
    Shape s [.free s.pages] := by
  have hb := base_init h
  obtain ⟨-, p, pages, start, last, -, -, -, -, -, -, -, rfl⟩ := shmSlabInit_zero h
  refine ⟨hb, Nat.add_zero _, fun e he ↦ ?_, List.isChain_singleton _, fun h hh ↦ ?_, rfl,
    fun j hj ↦ ?_⟩
  rotate_left
  · rw [members_singleton]
    cases h with
    | free => exact ⟨[.page 0], ⟨rfl, rfl, rfl⟩, .refl _⟩
    | slot k => exact ⟨[], rfl, .refl _⟩
    | page i => exact hh.elim
  · cases j with
    | zero =>
      obtain rfl : last = 0 := Nat.le_zero.mp hj
      exact ⟨rfl, rfl⟩
    | succ j => exact ⟨rfl, rfl⟩
  obtain rfl := List.mem_singleton.mp he
  refine ⟨rfl, rfl, nofun, fun j hj _ ↦ ?_, (Nat.eq_zero_or_pos last).symm, fun _ hlt ↦ ?_⟩
  · obtain ⟨j, rfl⟩ := Nat.exists_eq_add_of_lt hj
    exact ⟨rfl, rfl, rfl⟩
  · exact absurd hlt (by omega)

end Dlbase.Slab
