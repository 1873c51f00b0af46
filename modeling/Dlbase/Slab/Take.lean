import Dlbase.Slab.Bitmap

/-!
# Taking and clearing chunks

Allocating a chunk sets a bit that was not set, and finds out whether all bits are set then.
Freeing a chunk clears a bit, and finds out whether any bit of a chunk is left.
-/

namespace Dlbase.Slab

open Cmem

variable {s s' : Pool} {i j k n b c c' shift bitmap : Nat} {w : Word}

/-- The chunk `c` is taken, and `full` says whether it was the last one. -/
structure Taken (s s' : Pool) (i shift c : Nat) (full : Bool) : Prop where
  /-- Nothing else changes. -/
  only : Local s s' i
  /-- The chunk was not taken. -/
  fresh : ¬ s.Marked i shift c
  /-- There is such a chunk. -/
  lt : c < chunkCount shift
  /-- The other bits. -/
  marked : ∀ c', c' < chunkCount shift → (s'.Marked i shift c' ↔ s.Marked i shift c' ∨ c' = c)
  /-- Whether all bits are set. -/
  full : full = true ↔ ∀ c', c' < chunkCount shift → s'.Marked i shift c'
  /-- The rest of the descriptor. -/
  slab : SlabOk shift (s.node (.page i)).slab → SlabOk shift (s'.node (.page i)).slab

/-! ## Small chunks -/

/-- A bit of a word of the bitmap is changed. -/
theorem marked_setWord (h : shift < 6) (hj : j < 64) :
    (s.setWord (s.start + 4096 * i + 8 * n) w).Marked i shift (64 * n + j) ↔ w.getLsbD j := by
  have hself : (s.setWord (s.start + 4096 * i + 8 * n) w).words (s.start + 4096 * i + 8 * n) = w :=
    Function.update_self _ _ _
  have hdiv : (64 * n + j) / 64 = n := by omega
  have hmod : (64 * n + j) % 64 = j := by omega
  rw [marked_small h, hdiv, hmod]
  change BitVec.getLsbD ((s.setWord _ w).words (s.start + 4096 * i + 8 * n)) j ↔ _
  rw [hself]

/-- The other words stay. -/
theorem marked_setWord_of_ne (h : shift < 6) (hc : c / 64 ≠ n) :
    (s.setWord (s.start + 4096 * i + 8 * n) w).Marked i shift c ↔ s.Marked i shift c := by
  have hne : (s.setWord (s.start + 4096 * i + 8 * n) w).words (s.start + 4096 * i + 8 * (c / 64)) =
      s.words (s.start + 4096 * i + 8 * (c / 64)) := Function.update_of_ne (by omega) _ _
  rw [marked_small h, marked_small h]
  change BitVec.getLsbD ((s.setWord _ w).words (s.start + 4096 * i + 8 * (c / 64))) _ ↔ _
  rw [hne]

/-- All words of the bitmap are full if and only if all bits are set. -/
theorem busy_iff_marked (h : 3 ≤ shift) (h' : shift < 6) :
    (∀ j, j < mapWords once shift → s.words (s.start + 4096 * i + 8 * j) = busy) ↔
      ∀ c, c < chunkCount shift → s.Marked i shift c := by
  obtain ⟨-, hcount, -⟩ := small_facts h h'
  constructor
  · intro hall c hc
    rw [marked_small h', hall (c / 64) (by omega)]
    exact eq_busy_iff.mp rfl _ (Nat.mod_lt _ (by decide))
  · intro hall j hj
    refine eq_busy_iff.mpr fun b hb ↦ ?_
    have hm := hall (64 * j + b) (by omega)
    rw [marked_small h'] at hm
    have hdiv : (64 * j + b) / 64 = j := by omega
    have hmod : (64 * j + b) % 64 = b := by omega
    rwa [hdiv, hmod] at hm

theorem takeSmall_spec (h : 3 ≤ shift) (h' : shift < 6)
    (hfree : ∃ c, c < chunkCount shift ∧ ¬ s.Marked i shift c) :
    ∃ s' c full, s.takeSmall once i shift = some (s', c, full) ∧ Taken s s' i shift c full := by
  obtain ⟨-, hcount, -, hmap, -⟩ := small_facts h h'
  rw [Pool.takeSmall, pageAddr_once]
  rcases hf : s.findWord (s.start + 4096 * i) 0 (mapWords once shift) with _ | ⟨n, b⟩
  · obtain ⟨c, hc, hm⟩ := hfree
    exact absurd ((busy_iff_marked h h').mp (fun j hj ↦ findWord_none hf (Nat.zero_le j)
      (by omega)) c hc) hm
  obtain ⟨-, hn, hb, hbit, hfront⟩ := findWord_some hf
  rw [Nat.zero_add] at hn
  obtain ⟨w, hw⟩ : ∃ w, s.words (s.start + 4096 * i + 8 * n) ||| BitVec.twoPow 64 b = w := ⟨_, rfl⟩
  have hmarked : ∀ c, (s.setWord (s.start + 4096 * i + 8 * n) w).Marked i shift c ↔
      s.Marked i shift c ∨ c = 64 * n + b := fun c ↦ by
    by_cases hc : c / 64 = n
    · have heq : c = 64 * n + c % 64 := by omega
      rw [heq, marked_setWord h' (Nat.mod_lt _ (by decide)), ← hw, getLsbD_or_twoPow hb,
        marked_small h', ← heq, hc]
      exact or_congr_right (by omega)
    · rw [marked_setWord_of_ne h' hc]
      exact ⟨.inl, fun hm ↦ hm.resolve_right (by omega)⟩
  have hsame : ∀ j, j ≠ n → (s.setWord (s.start + 4096 * i + 8 * n) w).words
      (s.start + 4096 * i + 8 * j) = s.words (s.start + 4096 * i + 8 * j) := fun j hj ↦
    Function.update_of_ne (by omega) _ _
  refine ⟨_, n * 64 + b, _, rfl, ?_⟩
  rw [Nat.mul_comm n, hw]
  refine ⟨.setWord (by omega) (by omega) w, ?_, by omega, fun c _ ↦ hmarked c, ?_, id⟩
  · have hdiv : (64 * n + b) / 64 = n := by omega
    have hmod : (64 * n + b) % 64 = b := by omega
    rwa [marked_small h', hdiv, hmod]
  · rw [Bool.and_eq_true, decide_eq_true_iff, allWords_iff]
    refine Iff.trans ?_ (busy_iff_marked (s := s.setWord (s.start + 4096 * i + 8 * n) w) h h')
    constructor
    · rintro ⟨hbusy, hrest⟩ j hj
      rcases Nat.lt_trichotomy j n with hlt | rfl | hlt
      · exact (hsame j (by omega)).trans (hfront j (Nat.zero_le j) hlt)
      · exact hbusy
      · exact hrest j hlt (by omega)
    · intro hall
      exact ⟨hall n hn, fun j hj hj' ↦ hall j (by omega)⟩

/-! ## Bitmaps in the descriptor -/

theorem takeBit_spec (lo n : Nat) (test : Word → Bool) (hlo : lo + n ≤ 64)
    (hfree : ∃ b, lo ≤ b ∧ b < lo + n ∧ ¬ (s.node (.page i)).slab.getLsbD b) :
    ∃ b, lo ≤ b ∧ b < lo + n ∧ ¬ (s.node (.page i)).slab.getLsbD b ∧ s.takeBit i lo n test =
      some (s.put (.page i) (fun p ↦ { p with slab :=
        (s.node (.page i)).slab ||| BitVec.twoPow 64 b }), b - lo,
        test ((s.node (.page i)).slab ||| BitVec.twoPow 64 b)) := by
  rw [Pool.takeBit]
  rcases hf : findBit (s.node (.page i)).slab lo n with _ | b
  · obtain ⟨b, hb, hb', hbit⟩ := hfree
    exact absurd (findBit_none hf hlo hb hb') hbit
  · obtain ⟨hb, hb', hbit⟩ := findBit_some hf hlo
    exact ⟨b, hb, hb', hbit, rfl⟩

theorem takeExact_spec (hfree : ∃ c, c < chunkCount 6 ∧ ¬ s.Marked i 6 c) :
    ∃ s' c full, s.takeBit i 0 64 (· = busy) = some (s', c, full) ∧ Taken s s' i 6 c full := by
  obtain ⟨c, hc, hm⟩ := hfree
  change c < 64 at hc
  rw [marked_exact] at hm
  obtain ⟨b, -, hb, hbit, htake⟩ := takeBit_spec (s := s) (i := i) 0 64
    (· = busy) (Nat.le_refl _) ⟨c, Nat.zero_le c, by omega, hm⟩
  have hb : b < 64 := by omega
  refine ⟨_, b, _, htake, .setSlab s i fun _ ↦ _, by rwa [marked_exact], hb, fun c _ ↦ ?_, ?_,
    fun _ ↦ ⟨nofun, nofun⟩⟩
  · rw [marked_exact, marked_exact, node_put_self]
    exact getLsbD_or_twoPow hb
  · rw [decide_eq_true_iff, eq_busy_iff]
    refine forall_congr' fun c ↦ imp_congr_right fun _ ↦ ?_
    rw [marked_exact, node_put_self]

/-- The bits for the chunks are all set if and only if the bitmap is the mask. -/
theorem and_mapMask_eq (h : 6 < shift) (h' : shift ≤ 11) {slab : Word} (hslab : SlabOk shift slab) :
    slab &&& mapMask = bigMask once shift ↔
      ∀ c, c < chunkCount shift → slab.getLsbD (c + 32) := by
  obtain ⟨-, hle, -, -, hmask⟩ := big_facts h h'
  obtain ⟨-, hhigh⟩ := hslab.2 h
  have hbits : slab &&& mapMask = bigMask once shift ↔
      ∀ j, j < 64 → ((slab.getLsbD j ∧ 32 ≤ j) ↔ 32 ≤ j ∧ j < chunkCount shift + 32) := by
    rw [BitVec.eq_of_getLsbD_eq_iff]
    refine forall_congr' fun j ↦ imp_congr_right fun hj ↦ ?_
    rw [← hmask j hj, ← mapMask_getLsbD j hj, BitVec.getLsbD_and, Bool.eq_iff_iff,
      Bool.and_eq_true]
  rw [hbits]
  constructor
  · intro hall c hc
    exact ((hall (c + 32) (by omega)).mpr ⟨by omega, by omega⟩).1
  · intro hall j hj
    constructor
    · rintro ⟨hbit, hge⟩
      refine ⟨hge, Nat.lt_of_not_le fun hle ↦ ?_⟩
      rw [hhigh j hle] at hbit
      cases hbit
    · rintro ⟨hge, hlt⟩
      have hm := hall (j - 32) (by omega)
      rw [Nat.sub_add_cancel hge] at hm
      exact ⟨hm, hge⟩

/-- A bit of a chunk does not matter for the rest of the descriptor. -/
theorem SlabOk.congr (h : 6 < shift) (h' : shift ≤ 11) {slab slab' : Word} (hslab : SlabOk shift slab)
    (hbits : ∀ j, j < 64 → j < 32 ∨ chunkCount shift + 32 ≤ j →
      slab'.getLsbD j = slab.getLsbD j) : SlabOk shift slab' := by
  obtain ⟨-, hle, -⟩ := big_facts h h'
  obtain ⟨hlow, hhigh⟩ := hslab.2 h
  refine ⟨fun hlt ↦ absurd hlt (by omega), fun _ ↦ ⟨hlow ▸ and_eq_iff.mpr fun j hj hm ↦ ?_,
    fun j hj ↦ ?_⟩⟩
  · have := (shiftMask_getLsbD j hj).mp hm
    exact hbits j hj (.inl (by omega))
  · by_cases hj' : j < 64
    · rw [hbits j hj' (.inr hj), hhigh j hj]
    · exact BitVec.getLsbD_of_ge _ _ (Nat.le_of_not_lt hj')

theorem takeBig_spec (h : 6 < shift) (h' : shift ≤ 11)
    (hslab : SlabOk shift (s.node (.page i)).slab)
    (hfree : ∃ c, c < chunkCount shift ∧ ¬ s.Marked i shift c) :
    ∃ s' c full, s.takeBit i 32 (chunkCount shift) (· &&& mapMask = bigMask once shift) =
      some (s', c, full) ∧ Taken s s' i shift c full := by
  obtain ⟨-, hle, -⟩ := big_facts h h'
  obtain ⟨c, hc, hm⟩ := hfree
  rw [marked_big h] at hm
  obtain ⟨b, hb, hb', hbit, htake⟩ := takeBit_spec (s := s) (i := i) 32
    (chunkCount shift) (· &&& mapMask = bigMask once shift) (by omega)
    ⟨c + 32, by omega, by omega, hm⟩
  have hlt : b < 64 := by omega
  have hok : SlabOk shift ((s.node (.page i)).slab ||| BitVec.twoPow 64 b) :=
    hslab.congr h h' fun j hj hout ↦ by
      rw [Bool.eq_iff_iff, getLsbD_or_twoPow hlt]
      exact ⟨fun hj ↦ hj.resolve_right (by omega), .inl⟩
  have hcancel : b - 32 + 32 = b := by omega
  refine ⟨_, b - 32, _, htake, .setSlab s i fun _ ↦ _, by rwa [marked_big h, hcancel], by omega,
    fun c _ ↦ ?_, ?_, fun _ ↦ by rwa [node_put_self]⟩
  · rw [marked_big h, marked_big h, node_put_self]
    refine (getLsbD_or_twoPow hlt).trans (or_congr_right ?_)
    omega
  · rw [decide_eq_true_iff, and_mapMask_eq h h' hok]
    refine forall_congr' fun c ↦ imp_congr_right fun _ ↦ ?_
    rw [marked_big h, node_put_self]

/-- A chunk is taken if there is one that is not. -/
theorem takeChunk_spec (h : 3 ≤ shift) (h' : shift ≤ 11)
    (hslab : SlabOk shift (s.node (.page i)).slab)
    (hfree : ∃ c, c < chunkCount shift ∧ ¬ s.Marked i shift c) :
    ∃ s' c full, s.takeChunk once i shift = some (s', c, full) ∧ Taken s s' i shift c full := by
  rw [Pool.takeChunk]
  rcases Nat.lt_trichotomy shift 6 with hlt | rfl | hlt
  · rw [(small_facts h hlt).1]
    exact takeSmall_spec h hlt hfree
  · exact takeExact_spec hfree
  · rw [(big_facts hlt h').1]
    exact takeBig_spec hlt h' hslab hfree

/-! ## Clearing the bit of a chunk -/

/-- The chunk `c` is cleared, and `empty` says whether it was the last one. -/
structure Cleared (s s' : Pool) (i shift c : Nat) (empty : Bool) : Prop where
  /-- Nothing else changes. -/
  only : Local s s' i
  /-- The other bits. -/
  marked : ∀ c', c' < chunkCount shift → (s'.Marked i shift c' ↔ s.Marked i shift c' ∧ c' ≠ c)
  /-- Whether a chunk is left. -/
  empty : empty = true ↔
    ∀ c', reserved shift ≤ c' → c' < chunkCount shift → ¬ s'.Marked i shift c'
  /-- The rest of the descriptor. -/
  slab : SlabOk shift (s.node (.page i)).slab → SlabOk shift (s'.node (.page i)).slab

/-- The mask for the bits of the bitmap itself. -/
theorem reservedMask_getLsbD (h : 3 ≤ shift) (h' : shift < 6) : ∀ j, j < 64 →
    ((BitVec.twoPow 64 (reserved shift) - 1).getLsbD j ↔ j < reserved shift) := by
  obtain rfl | rfl | rfl : shift = 3 ∨ shift = 4 ∨ shift = 5 := by omega
  all_goals decide

/-- The test for a bitmap without chunks. -/
theorem empty_iff_marked (h : 3 ≤ shift) (h' : shift < 6) :
    (s.words (s.start + 4096 * i) &&& ~~~(BitVec.twoPow 64 (mapChunks once shift) - 1) = 0 &&
      s.allWords 0 (s.start + 4096 * i) 1 (mapWords once shift - 1)) = true ↔
        ∀ c, reserved shift ≤ c → c < chunkCount shift → ¬ s.Marked i shift c := by
  obtain ⟨-, hcount, hpos, -, hres, -, hlt, -⟩ := small_facts h h'
  rw [hres, Bool.and_eq_true, decide_eq_true_iff, allWords_iff, eq_zero_iff]
  have hfirst : ∀ j, j < 64 → ((s.words (s.start + 4096 * i) &&&
      ~~~(BitVec.twoPow 64 (reserved shift) - 1)).getLsbD j ↔
        (s.words (s.start + 4096 * i)).getLsbD j ∧ reserved shift ≤ j) := fun j hj ↦ by
    rw [BitVec.getLsbD_and, BitVec.getLsbD_not, Bool.and_eq_true, Bool.and_eq_true,
      Bool.not_eq_true', ← Bool.not_eq_true, reservedMask_getLsbD h h' j hj, Nat.not_lt,
      decide_eq_true_iff, and_iff_right hj]
  constructor
  · rintro ⟨hzero, hrest⟩ c hc hc' hm
    rw [marked_small h'] at hm
    by_cases hdiv : c / 64 = 0
    · rw [hdiv, Nat.mod_eq_of_lt (by omega)] at hm
      exact hzero c (by omega) ((hfirst c (by omega)).mpr ⟨hm, hc⟩)
    · rw [hrest (c / 64) (by omega) (by omega)] at hm
      exact eq_zero_iff.mp rfl _ (Nat.mod_lt _ (by decide)) hm
  · intro hall
    refine ⟨fun j hj hm ↦ ?_, fun j hj hj' ↦ eq_zero_iff.mpr fun b hb hm ↦ ?_⟩
    · obtain ⟨hm, hge⟩ := (hfirst j hj).mp hm
      refine hall j hge (by omega) ?_
      rw [marked_small h', Nat.div_eq_of_lt hj, Nat.mod_eq_of_lt hj]
      exact hm
    · refine hall (64 * j + b) (by omega) (by omega) ?_
      have hdiv : (64 * j + b) / 64 = j := by omega
      have hmod : (64 * j + b) % 64 = b := by omega
      rwa [marked_small h', hdiv, hmod]

theorem clearSmall_spec (h : 3 ≤ shift) (h' : shift < 6) (hc : c < chunkCount shift) :
    ∃ s', s.setWord (s.start + 4096 * i + 8 * (c / 64))
        (s.words (s.start + 4096 * i + 8 * (c / 64)) &&& ~~~BitVec.twoPow 64 (c % 64)) = s' ∧
      Cleared s s' i shift c
        (s'.words (s.start + 4096 * i) &&& ~~~(BitVec.twoPow 64 (mapChunks once shift) - 1) = 0 &&
          s'.allWords 0 (s.start + 4096 * i) 1 (mapWords once shift - 1)) := by
  obtain ⟨-, hcount, -, hmap, -⟩ := small_facts h h'
  obtain ⟨w, hw⟩ : ∃ w, s.words (s.start + 4096 * i + 8 * (c / 64)) &&&
    ~~~BitVec.twoPow 64 (c % 64) = w := ⟨_, rfl⟩
  rw [hw]
  refine ⟨_, rfl, .setWord (by omega) (by omega) w, fun c' _ ↦ ?_,
    empty_iff_marked (s := s.setWord (s.start + 4096 * i + 8 * (c / 64)) w) h h', id⟩
  by_cases hdiv : c' / 64 = c / 64
  · have heq : c' = 64 * (c / 64) + c' % 64 := by omega
    rw [heq, marked_setWord h' (Nat.mod_lt _ (by decide)), ← hw, getLsbD_and_not_twoPow,
      marked_small h', ← heq, hdiv]
    exact and_congr_right fun _ ↦ by omega
  · rw [marked_setWord_of_ne h' hdiv]
    exact ⟨fun hm ↦ ⟨hm, fun heq ↦ hdiv (heq ▸ rfl)⟩, And.left⟩

theorem clearExact_spec :
    Cleared s (s.put (.page i) fun p ↦ { p with slab := p.slab &&& ~~~BitVec.twoPow 64 c }) i 6 c
      ((s.node (.page i)).slab &&& ~~~BitVec.twoPow 64 c = 0) := by
  refine ⟨.setSlab s i (· &&& ~~~BitVec.twoPow 64 c), fun c' _ ↦ ?_, ?_, fun _ ↦ ⟨nofun, nofun⟩⟩
  · rw [marked_exact, marked_exact, node_put_self]
    exact getLsbD_and_not_twoPow
  · rw [decide_eq_true_iff, eq_zero_iff]
    refine forall_congr' fun c' ↦ ⟨fun hz _ hlt ↦ ?_, fun hz hlt ↦ ?_⟩
    · rw [marked_exact, node_put_self]
      exact hz hlt
    · have := hz (Nat.zero_le _) hlt
      rwa [marked_exact, node_put_self] at this

theorem clearBig_spec (h : 6 < shift) (h' : shift ≤ 11) (hc : c < chunkCount shift)
    (hslab : SlabOk shift (s.node (.page i)).slab) :
    Cleared s (s.put (.page i) fun p ↦ { p with slab := p.slab &&& ~~~BitVec.twoPow 64 (c + 32) })
      i shift c ((s.node (.page i)).slab &&& ~~~BitVec.twoPow 64 (c + 32) &&& mapMask = 0) := by
  obtain ⟨-, hle, -, hres, -⟩ := big_facts h h'
  have hok : SlabOk shift ((s.node (.page i)).slab &&& ~~~BitVec.twoPow 64 (c + 32)) :=
    hslab.congr h h' fun j hj hout ↦ by
      rw [Bool.eq_iff_iff, getLsbD_and_not_twoPow]
      exact ⟨And.left, fun hm ↦ ⟨hm, by omega⟩⟩
  have hmarked : ∀ c', (s.put (.page i) fun p ↦
      { p with slab := p.slab &&& ~~~BitVec.twoPow 64 (c + 32) }).Marked i shift c' ↔
        ((s.node (.page i)).slab &&& ~~~BitVec.twoPow 64 (c + 32)).getLsbD (c' + 32) := fun c' ↦ by
    rw [marked_big h, node_put_self]
  refine ⟨.setSlab s i (· &&& ~~~BitVec.twoPow 64 (c + 32)), fun c' _ ↦ ?_, ?_,
    fun _ ↦ by rwa [node_put_self]⟩
  · rw [hmarked, getLsbD_and_not_twoPow, marked_big h]
    exact and_congr_right fun _ ↦ by omega
  · rw [decide_eq_true_iff, eq_zero_iff, hres]
    constructor
    · intro hz c' _ hlt hm
      refine hz (c' + 32) (by omega) ?_
      rw [BitVec.getLsbD_and, Bool.and_eq_true]
      exact ⟨(hmarked c').mp hm, (mapMask_getLsbD _ (by omega)).mpr (by omega)⟩
    · intro hz j hj hm
      rw [BitVec.getLsbD_and, Bool.and_eq_true] at hm
      have hge := (mapMask_getLsbD j hj).mp hm.2
      have hlt : j < chunkCount shift + 32 := Nat.lt_of_not_le fun hle ↦ by
        have hbit := (hok.2 h).2 j hle
        rw [hbit] at hm
        cases hm.1
      refine hz (j - 32) (Nat.zero_le _) (by omega) ((hmarked _).mpr ?_)
      rw [Nat.sub_add_cancel hge]
      exact hm.1

end Dlbase.Slab
