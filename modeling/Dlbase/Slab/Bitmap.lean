import Dlbase.Lib.Bits
import Dlbase.Slab.Gap

/-!
# The bitmaps of the pages of chunks

The bitmap of a page of small chunks is in the page, and that of the other pages in the descriptor.
What a call does to a bitmap is said of the chunks, so that it is the same for all of them.
-/

namespace Dlbase.Slab

open Cmem

variable {s s' : Pool} {i j k n b c c' shift bitmap : Nat} {w : Word} {A B : List Seg} {seg : Seg}
  {cs : List Nat} {x : Option (Ref × Nat)} {slab : Word}

/-- Only the bitmap of the page `i` has changed: the `slab` of its descriptor, and words in it. -/
structure Local (s s' : Pool) (i : Nat) : Prop where
  /-- The layout. -/
  layout : Same s s'
  /-- The statistics. -/
  stats : s'.stats = s.stats
  /-- The number of free pages. -/
  pfree : s'.pfree = s.pfree
  /-- The other nodes. -/
  node : ∀ r : Ref, r ≠ .page i → s'.node r = s.node r
  /-- The descriptor of the page. -/
  desc : s'.node (.page i) = { s.node (.page i) with slab := (s'.node (.page i)).slab }
  /-- The other words. -/
  words : ∀ a, a < s.start + 4096 * i ∨ s.start + 4096 * (i + 1) ≤ a → s'.words a = s.words a

theorem Local.trans {s'' : Pool} (h : Local s s' i) (h' : Local s' s'' i) : Local s s'' i where
  layout := h.layout.trans h'.layout
  stats := h'.stats.trans h.stats
  pfree := h'.pfree.trans h.pfree
  node r hr := (h'.node r hr).trans (h.node r hr)
  desc := by rw [h'.desc, h.desc]
  words a ha := (h'.words a (by rw [h.layout.start]; exact ha)).trans (h.words a ha)

theorem Local.setWord (h : s.start + 4096 * i ≤ b) (h' : b < s.start + 4096 * (i + 1)) (w : Word) :
    Local s (s.setWord b w) i :=
  ⟨⟨rfl, rfl, rfl, rfl, rfl, rfl, rfl⟩, rfl, rfl, fun _ _ ↦ rfl, rfl, fun a ha ↦
    Function.update_of_ne (by omega) _ _⟩

theorem Local.setSlab (s : Pool) (i : Nat) (f : Word → Word) :
    Local s (s.put (.page i) fun p ↦ { p with slab := f p.slab }) i :=
  ⟨.put _ _ _, rfl, rfl, fun _ hr ↦ node_put_of_ne hr _, by rw [node_put_self], fun _ _ ↦ rfl⟩

theorem Gap.local (hg : Gap s A 1 B x) (hl : Local s s' (total A)) : Gap s' A 1 B x := by
  refine hg.congr hl.layout (fun r hr ↦ hl.node r ?_) (fun h j hx ↦ ?_) fun j hj a ha ha' ↦
    hl.words a (by omega)
  · rintro rfl
    have := hr _ rfl
    omega
  · obtain ⟨-, hj, -⟩ := hg.link h j hx
    obtain rfl : j = total A := by omega
    rw [Pool.next, Pool.prev, hl.desc]
    exact ⟨rfl, rfl, rfl⟩

/-! ## Looking for a bit -/

/-- The loops find the first bit that is not set. -/
theorem findBit_some (h : findBit w i n = some b) (hn : i + n ≤ 64) :
    i ≤ b ∧ b < i + n ∧ ¬ w.getLsbD b := by
  induction n generalizing i with
  | zero => cases h
  | succ n ih =>
    rw [findBit] at h
    split_ifs at h with hbit
    · obtain ⟨hle, hlt, hb⟩ := ih h (by omega)
      exact ⟨by omega, by omega, hb⟩
    · obtain rfl := Option.some.inj h
      exact ⟨Nat.le_refl _, by omega, fun hb ↦ hbit ((and_twoPow_ne_zero (by omega)).mpr hb)⟩

/-- They find none if all bits are set. -/
theorem findBit_none (h : findBit w i n = none) (hn : i + n ≤ 64) (hj : i ≤ j) (hj' : j < i + n) :
    w.getLsbD j := by
  induction n generalizing i with
  | zero => exact absurd hj' (by omega)
  | succ n ih =>
    rw [findBit] at h
    split_ifs at h with hbit
    by_cases hij : j = i
    · subst hij
      exact (and_twoPow_ne_zero (by omega)).mp hbit
    · exact ih h (by omega) (by omega) (by omega)

theorem eq_busy_iff : w = busy ↔ ∀ j, j < 64 → w.getLsbD j := eq_allOnes_iff

/-- The loop over the words finds a bit that is not set, and all words in front are full. -/
theorem findWord_some (h : s.findWord bitmap n k = some (j, b)) :
    n ≤ j ∧ j < n + k ∧ b < 64 ∧ ¬ (s.words (bitmap + 8 * j)).getLsbD b ∧
      ∀ m, n ≤ m → m < j → s.words (bitmap + 8 * m) = busy := by
  induction k generalizing n with
  | zero => cases h
  | succ k ih =>
    rw [Pool.findWord] at h
    have hnext : s.words (bitmap + 8 * n) = busy → s.findWord bitmap (n + 1) k = some (j, b) →
        _ := fun hbusy h ↦ by
      obtain ⟨hle, hlt, hb, hbit, hall⟩ := ih h
      refine (⟨by omega, by omega, hb, hbit, fun m hm hm' ↦ ?_⟩ : n ≤ j ∧ j < n + (k + 1) ∧ b < 64 ∧
        ¬ (s.words (bitmap + 8 * j)).getLsbD b ∧
          ∀ m, n ≤ m → m < j → s.words (bitmap + 8 * m) = busy)
      by_cases hmn : m = n
      · exact hmn ▸ hbusy
      · exact hall m (by omega) hm'
    split_ifs at h with hne
    · split at h
      · rename_i b' hb
        obtain ⟨rfl, rfl⟩ := Prod.mk.inj (Option.some.inj h)
        obtain ⟨-, hlt, hbit⟩ := findBit_some hb (Nat.le_refl _)
        exact ⟨Nat.le_refl _, by omega, by omega, hbit, fun m hm hm' ↦ absurd hm' (by omega)⟩
      · rename_i hnone
        exact absurd (eq_busy_iff.mpr fun j hj ↦ findBit_none hnone (Nat.le_refl _) (Nat.zero_le j)
          (by omega)) hne
    · exact hnext (not_not.mp hne) h

/-- It finds none if all words are full. -/
theorem findWord_none (h : s.findWord bitmap n k = none) (hj : n ≤ j) (hj' : j < n + k) :
    s.words (bitmap + 8 * j) = busy := by
  induction k generalizing n with
  | zero => exact absurd hj' (by omega)
  | succ k ih =>
    rw [Pool.findWord] at h
    split_ifs at h with hne
    · split at h
      · cases h
      · rename_i hnone
        exact absurd (eq_busy_iff.mpr fun j hj ↦ findBit_none hnone (Nat.le_refl _) (Nat.zero_le j)
          (by omega)) hne
    · by_cases hjn : j = n
      · exact hjn ▸ not_not.mp hne
      · exact ih h (by omega) (by omega)

theorem allWords_iff : s.allWords w bitmap n k ↔
    ∀ j, n ≤ j → j < n + k → s.words (bitmap + 8 * j) = w := by
  induction k generalizing n with
  | zero => exact iff_of_true rfl fun j hj hj' ↦ absurd hj' (by omega)
  | succ k ih =>
    rw [Pool.allWords, Bool.and_eq_true, decide_eq_true_iff, ih]
    constructor
    · rintro ⟨hn, hrest⟩ j hj hj'
      by_cases hjn : j = n
      · exact hjn ▸ hn
      · exact hrest j (by omega) (by omega)
    · intro h
      exact ⟨h n (Nat.le_refl _) (by omega), fun j hj hj' ↦ h j (by omega) (by omega)⟩

/-- The loop that clears words changes these words only. -/
theorem zeroWords_words (bitmap n k : Nat) :
    (∀ j, n ≤ j → j < n + k → (s.zeroWords bitmap n k).words (bitmap + 8 * j) = 0) ∧
      ∀ a, (∀ j, n ≤ j → j < n + k → a ≠ bitmap + 8 * j) →
        (s.zeroWords bitmap n k).words a = s.words a := by
  induction k generalizing s n with
  | zero => exact ⟨fun j hj hj' ↦ absurd hj' (by omega), fun _ _ ↦ rfl⟩
  | succ k ih =>
    obtain ⟨hin, hout⟩ := ih (s := s.setWord (bitmap + 8 * n) 0) (n + 1)
    refine ⟨fun j hj hj' ↦ ?_, fun a ha ↦ ?_⟩
    · by_cases hjn : j = n
      · subst hjn
        exact (hout _ fun m hm hm' ↦ by omega).trans (Function.update_self _ _ _)
      · exact hin j (by omega) (by omega)
    · exact (hout a fun j hj hj' ↦ ha j (by omega) (by omega)).trans
        (Function.update_of_ne (ha n (Nat.le_refl _) (by omega)) _ _)

theorem zeroWords_local (hb : bitmap = s.start + 4096 * i) (hk : 8 * (n + k) ≤ 4096) :
    Local s (s.zeroWords bitmap n k) i := by
  induction k generalizing s n with
  | zero => exact ⟨.refl s, rfl, rfl, fun _ _ ↦ rfl, rfl, fun _ _ ↦ rfl⟩
  | succ k ih =>
    have hfirst : Local s (s.setWord (bitmap + 8 * n) 0) i := .setWord (by omega) (by omega) 0
    exact hfirst.trans (ih hb (by omega))

/-! ## The bits of the chunks -/

theorem pageAddr_once (s : Pool) (i : Nat) : s.pageAddr once i = s.start + 4096 * i := by
  rw [Pool.pageAddr, Nat.shiftLeft_eq, Nat.add_comm, Nat.mul_comm]
  rfl

theorem marked_small (h : shift < 6) : s.Marked i shift c ↔
    (s.words (s.start + 4096 * i + 8 * (c / 64))).getLsbD (c % 64) := by
  rw [Pool.Marked, if_pos h]

theorem marked_exact : s.Marked i 6 c ↔ (s.node (.page i)).slab.getLsbD c := by
  rw [Pool.Marked, if_neg (Nat.lt_irrefl 6), if_pos rfl]

theorem marked_big (h : 6 < shift) :
    s.Marked i shift c ↔ (s.node (.page i)).slab.getLsbD (c + 32) := by
  rw [Pool.Marked, if_neg (by omega), if_neg (by omega)]

/-- The numbers for pages of small chunks. -/
theorem small_facts (h : 3 ≤ shift) (h' : shift < 6) : typeOf once shift = .small ∧
    chunkCount shift = 64 * mapWords once shift ∧ 0 < mapWords once shift ∧
    mapWords once shift ≤ 8 ∧ mapChunks once shift = reserved shift ∧ 0 < reserved shift ∧
    reserved shift < 63 ∧ 8 * mapWords once shift ≤ reserved shift * 2 ^ shift := by
  obtain rfl | rfl | rfl : shift = 3 ∨ shift = 4 ∨ shift = 5 := by omega
  all_goals decide

/-- The numbers for pages of big chunks. -/
theorem big_facts (h : 6 < shift) (h' : shift ≤ 11) : typeOf once shift = .big ∧
    chunkCount shift ≤ 32 ∧ 0 < chunkCount shift ∧ reserved shift = 0 ∧
    ∀ j, j < 64 → ((bigMask once shift).getLsbD j ↔ 32 ≤ j ∧ j < chunkCount shift + 32) := by
  obtain rfl | rfl | rfl | rfl | rfl : shift = 7 ∨ shift = 8 ∨ shift = 9 ∨ shift = 10 ∨
    shift = 11 := by omega
  all_goals decide

theorem mapMask_getLsbD : ∀ j, j < 64 → (mapMask.getLsbD j ↔ 32 ≤ j) := by decide

theorem shiftMask_getLsbD : ∀ j, j < 64 → (shiftMask.getLsbD j ↔ j < 4) := by decide

end Dlbase.Slab
