import Dlbase.Array.Model
import Dlbase.Pool.Bounds

/-!
# Moving the cursor of the first block

A range that ends at the cursor of the first block lies in that block, whatever else has been
handed out, so it can be enlarged or given back by moving the cursor.
-/

namespace Dlbase.DlArray

open Cmem Pool

variable {size k l : Nat} {s s' : State} {G U used : List Range} {r t : Range} {b : Block}
  {rest : List Block} {L : List (Nat × Range)} {C : List (Nat × Option Nat × Option Nat)}

theorem blocks_setPoolLast (hs : s.blocks = b :: rest) (l : Nat) :
    (setPoolLast s l).blocks = { b with last := l } :: rest := by
  unfold setPoolLast
  rw [hs]
  rfl

theorem setPoolLast_last (hs : s.blocks = b :: rest) : setPoolLast s b.last = s := by
  unfold setPoolLast
  rw [hs, List.modifyHead_cons, ← hs]

theorem address_setPoolLast (s : State) (l : Nat) : (setPoolLast s l).address = s.address := by
  unfold setPoolLast State.address
  cases s.blocks <;> rfl

/-- What ends at the cursor of the first block lies in that block. -/
theorem base_ge_of_end_eq (h : Sound size s G (r :: used)) (hs : s.blocks = b :: rest)
    (hr : 0 < r.size) (he : r.base + r.size = b.last) : b.start + sizeofPool ≤ r.base := by
  have hb : b ∈ s.blocks := by simp [hs]
  have hok := h.block b hb
  have hend := hok.end_eq
  have hge := hok.last_ge
  have hle := hok.last_le
  unfold sizeofPool at *
  rcases h.disjoint_or_below hb List.mem_cons_self with hd | ⟨hlo, -⟩
  · change r.size = 0 ∨ size = 0 ∨ r.base + r.size ≤ b.start ∨ b.start + size ≤ r.base at hd
    omega
  · exact hlo

/-- What ends at the cursor of the first block is given back. -/
theorem has_of_disjoint (hs : s.blocks = b :: rest) (he : r.base + r.size = b.last)
    (hd : t.Disjoint r) (hr : 0 < r.size) (ht : ∃ c ∈ s.blocks, c.Has t) :
    ∃ c ∈ (setPoolLast s r.base).blocks, c.Has t := by
  obtain ⟨c, hc, hhas⟩ := ht
  rw [blocks_setPoolLast hs]
  rw [hs] at hc
  rcases List.mem_cons.mp hc with rfl | hc
  · refine ⟨_, List.mem_cons_self, hhas.1, hhas.2.1, ?_⟩
    have hlast := hhas.2.2
    unfold Range.Disjoint at hd
    change t.size = 0 ∨ t.base + t.size ≤ r.base
    omega
  · exact ⟨c, List.mem_cons_of_mem _ hc, hhas⟩

theorem giveBack (h : Holds size s (r :: U) L C) (hs : s.blocks = b :: rest) (hr : 0 < r.size)
    (he : r.base + r.size = b.last) : Holds size (setPoolLast s r.base) U L C := by
  have hlo := base_ge_of_end_eq h.sound hs hr he
  have hok := h.sound.block b (by simp [hs])
  have hle := hok.last_le
  obtain ⟨hfirst, hap⟩ := List.pairwise_cons.mp h.sound.apart
  refine ⟨?_, h.larges, h.cleanups, fun e he' ↦ ?_, h.nodup⟩
  · have hs₀ : s.blocks = [] ++ b :: rest := hs
    refine h.sound.setLast hs₀ (blocks_setPoolLast hs _) rfl rfl rfl hlo (by omega) hap
      fun t ht ↦ ?_
    rcases h.sound.placed t (List.mem_cons_of_mem _ ht) with hhas | hlarge
    · exact .inl (has_of_disjoint hs he (hfirst t ht).symm hr hhas)
    · exact .inr hlarge
  · exact has_of_disjoint hs he (hfirst _ (Holds.mem_records (mem_records_large he'))).symm hr
      (h.inBlocks e he')

/-- What ends at the cursor of the first block is enlarged. -/
theorem enlarge (h : Holds size s (r :: U) L C) (hs : s.blocks = b :: rest) (hr : 0 < r.size)
    (he : r.base + r.size = b.last) (hk : b.last + k ≤ b.end) :
    Holds size (setPoolLast s (b.last + k)) (⟨r.base, r.size + k⟩ :: U) L C := by
  have hmem : b ∈ s.blocks := by simp [hs]
  have hlo := base_ge_of_end_eq h.sound hs hr he
  have hok := h.sound.block b hmem
  have hend := hok.end_eq
  have hge := hok.last_ge
  obtain ⟨hfirst, hap⟩ := List.pairwise_cons.mp h.sound.apart
  have hgrows : Grows s.blocks (setPoolLast s (b.last + k)).blocks := fun c hc ↦ by
    rw [blocks_setPoolLast hs]
    rw [hs] at hc
    rcases List.mem_cons.mp hc with rfl | hc
    · exact ⟨_, List.mem_cons_self, rfl, rfl, Nat.le_add_right _ _⟩
    · exact ⟨c, List.mem_cons_of_mem _ hc, rfl, rfl, Nat.le_refl _⟩
  refine ⟨?_, h.larges, h.cleanups, fun e he' ↦ hgrows.has (h.inBlocks e he'), h.nodup⟩
  have hs₀ : s.blocks = [] ++ b :: rest := hs
  refine h.sound.setLast hs₀ (blocks_setPoolLast hs _) rfl rfl rfl (by omega) hk
    (List.pairwise_cons.mpr ⟨fun t ht ↦ ?_, hap⟩) fun t ht ↦ ?_
  · have hd := hfirst t ht
    change r.size = 0 ∨ t.size = 0 ∨ r.base + r.size ≤ t.base ∨ t.base + t.size ≤ r.base at hd
    change r.size + k = 0 ∨ t.size = 0 ∨ r.base + (r.size + k) ≤ t.base ∨ t.base + t.size ≤ r.base
    unfold sizeofPool at *
    rcases h.sound.disjoint_or_below hmem (List.mem_cons_of_mem _ ht) with hdis | ⟨-, hbelow⟩
    · change t.size = 0 ∨ size = 0 ∨ t.base + t.size ≤ b.start ∨ b.start + size ≤ t.base at hdis
      omega
    · omega
  · rcases List.mem_cons.mp ht with rfl | ht
    · refine .inl ⟨{ b with last := b.last + k }, by simp [blocks_setPoolLast hs], hlo, ?_, .inr ?_⟩
      · change r.base + (r.size + k) ≤ b.end
        omega
      · change r.base + (r.size + k) ≤ b.last + k
        omega
    · exact (h.sound.placed t (List.mem_cons_of_mem _ ht)).mono hgrows fun g hg ↦ hg

end Dlbase.DlArray
