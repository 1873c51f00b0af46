import Dlbase.Lib.Memory
import Dlbase.Slab.Free

/-!
# Where the pieces are

What is allocated lies in the pages, apart from what else is allocated and from the bitmaps.
-/

namespace Dlbase.Slab

open Cmem

variable {s s' : Pool} {i j n p start shift : Nat} {T : List Seg} {seg : Seg} {e e' : Nat × Piece}
  {a a' : Nat × Seg} {cs : List Nat}

/-- The bytes of a piece. -/
def extent (e : Nat × Piece) : Range := ⟨e.1, e.2.bytes⟩

/-- The bytes of the bitmap of a part. -/
def Seg.front : Seg → Nat
  | .chunks shift _ => reserved shift * 2 ^ shift
  | _ => 0

/-- Two parts lie one after the other. -/
theorem placed_apart (ha : a ∈ placed i T) (ha' : a' ∈ placed i T) :
    a = a' ∨ a.1 + a.2.len ≤ a'.1 ∨ a'.1 + a'.2.len ≤ a.1 := by
  by_cases heq : a = a'
  · exact .inl heq
  · have hpw : (placed i T).Pairwise fun a a' ↦ a.1 + a.2.len ≤ a'.1 ∨ a'.1 + a'.2.len ≤ a.1 :=
      placed_pairwise.imp fun h ↦ .inl h
    have : Std.Symm fun a a' : Nat × Seg ↦ a.1 + a.2.len ≤ a'.1 ∨ a'.1 + a'.2.len ≤ a.1 :=
      ⟨fun _ _ h ↦ h.symm⟩
    exact .inr (hpw.forall ha ha' heq)

/-- What is allocated in a part is in its pages, behind its bitmap. -/
theorem extent_bounds (hok : SegOk s i seg) (he : e ∈ piecesOf start (i, seg)) :
    start + 4096 * i + seg.front ≤ e.1 ∧ e.1 + e.2.bytes ≤ start + 4096 * (i + seg.len) := by
  cases seg with
  | free n => cases he
  | alloc n =>
    obtain rfl := List.mem_singleton.mp he
    refine ⟨Nat.le_refl _, ?_⟩
    change start + 4096 * i + 4096 * n ≤ start + 4096 * (i + n)
    omega
  | chunks shift cs =>
    obtain ⟨c, hc, rfl⟩ := List.mem_map.mp he
    have hok : ChunksOk s i shift cs := hok
    obtain ⟨hge, hlt⟩ := hok.range c hc
    have hlo : reserved shift * 2 ^ shift ≤ c * 2 ^ shift := Nat.mul_le_mul_right _ hge
    have hhi : (c + 1) * 2 ^ shift ≤ chunkCount shift * 2 ^ shift := Nat.mul_le_mul_right _ hlt
    rw [chunkCount_mul hok.shift_ge hok.shift_le, Nat.succ_mul] at hhi
    refine ⟨Nat.add_le_add_left hlo _, ?_⟩
    change start + 4096 * i + c * 2 ^ shift + 2 ^ shift ≤ start + 4096 * (i + 1)
    omega

/-- What is allocated is in one of the parts. -/
theorem mem_pieces : e ∈ pieces start i T ↔ ∃ a ∈ placed i T, e ∈ piecesOf start a :=
  List.mem_flatMap

/-- The pieces of one part are apart from each other. -/
theorem piecesOf_apart (hok : SegOk s i seg) :
    (piecesOf start (i, seg)).Pairwise fun e e' ↦ (extent e).Disjoint (extent e') := by
  cases seg with
  | free n => exact .nil
  | alloc n => exact List.pairwise_singleton _ _
  | chunks shift cs =>
    have hok : ChunksOk s i shift cs := hok
    refine List.pairwise_map.mpr (hok.nodup.imp fun {c c'} hne ↦ ?_)
    refine .inr (.inr ?_)
    change start + 4096 * i + c * 2 ^ shift + 2 ^ shift ≤ start + 4096 * i + c' * 2 ^ shift ∨
      start + 4096 * i + c' * 2 ^ shift + 2 ^ shift ≤ start + 4096 * i + c * 2 ^ shift
    rcases Nat.lt_or_gt_of_ne hne with hlt | hlt
    · have hle := Nat.mul_le_mul_right (2 ^ shift) (Nat.succ_le_of_lt hlt)
      rw [Nat.succ_mul] at hle
      exact .inl (by omega)
    · have hle := Nat.mul_le_mul_right (2 ^ shift) (Nat.succ_le_of_lt hlt)
      rw [Nat.succ_mul] at hle
      exact .inr (by omega)

namespace Shape

/-- What is allocated is in the pages. -/
theorem within (hs : Shape s T) (he : e ∈ pieces s.start 0 T) :
    (extent e).Within ⟨s.start, 4096 * s.pages⟩ := by
  obtain ⟨⟨i, seg⟩, ha, he⟩ := mem_pieces.mp he
  obtain ⟨hlo, hhi⟩ := extent_bounds (hs.segs _ ha) he
  have hb := bounds ha
  rw [hs.length] at hb
  dsimp only at hb hhi
  refine ⟨?_, ?_⟩
  · change s.start ≤ e.1
    omega
  · change e.1 + e.2.bytes ≤ s.start + 4096 * s.pages
    omega

/-- What is allocated is apart from what else is allocated. -/
theorem apart (hs : Shape s T) :
    (pieces s.start 0 T).Pairwise fun e e' ↦ (extent e).Disjoint (extent e') := by
  refine List.pairwise_flatMap.mpr ⟨fun a ha ↦ piecesOf_apart (hs.segs a ha), ?_⟩
  refine placed_pairwise.imp_of_mem fun {a a'} ha ha' hle e he e' he' ↦ ?_
  obtain ⟨-, hhi⟩ := extent_bounds (hs.segs a ha) he
  obtain ⟨hlo, -⟩ := extent_bounds (hs.segs a' ha') he'
  refine .inr (.inr (.inl ?_))
  change e.1 + e.2.bytes ≤ e'.1
  omega

/-- What is allocated is apart from the bitmaps. -/
theorem apart_front (hs : Shape s T) (he : e ∈ pieces s.start 0 T) (ha : a ∈ placed 0 T) :
    (extent e).Disjoint ⟨s.start + 4096 * a.1, a.2.front⟩ := by
  obtain ⟨a', ha', he⟩ := mem_pieces.mp he
  obtain ⟨hlo, hhi⟩ := extent_bounds (hs.segs a' ha') he
  have hfront : a.2.front ≤ 4096 * a.2.len := by
    have hok := hs.segs a ha
    obtain ⟨i, seg⟩ := a
    cases seg with
    | free n => exact Nat.zero_le _
    | alloc n => exact Nat.zero_le _
    | chunks shift cs =>
      have hok : ChunksOk s i shift cs := hok
      obtain ⟨c, hc⟩ := List.exists_mem_of_ne_nil _ hok.ne_nil
      obtain ⟨hge, hlt⟩ := hok.range c hc
      have hle := Nat.mul_le_mul_right (2 ^ shift) (Nat.le_of_lt (Nat.lt_of_le_of_lt hge hlt))
      rwa [chunkCount_mul hok.shift_ge hok.shift_le] at hle
  rw [Range.Disjoint]
  refine .inr (.inr ?_)
  change e.1 + e.2.bytes ≤ s.start + 4096 * a.1 ∨ s.start + 4096 * a.1 + a.2.front ≤ e.1
  rcases placed_apart ha' ha with rfl | hle | hle
  · exact .inr hlo
  · exact .inl (by omega)
  · exact .inr (by omega)

end Shape

/-! ## The descriptor of a page -/

/-- What the descriptor of a page says. -/
inductive Desc (s : Pool) (T : List Seg) (i : Nat) : Prop where
  /-- The page is free. -/
  | free {j n : Nat} (hpart : (j, Seg.free n) ∈ placed 0 T) (hin : j ≤ i ∧ i < j + n)
      (htype : (s.node (.page i)).type = .page) (hslab : (s.node (.page i)).slab.toNat < 2 ^ 32)
  /-- The page is the first one of a run that is allocated. -/
  | first {n : Nat} (hpart : (i, Seg.alloc n) ∈ placed 0 T)
  /-- The page is another one of a run that is allocated. -/
  | busy {j n : Nat} (hpart : (j, Seg.alloc n) ∈ placed 0 T) (hin : j < i ∧ i < j + n)
      (htype : (s.node (.page i)).type = .page) (hslab : (s.node (.page i)).slab = busy)
  /-- The page has chunks. -/
  | chunks {shift : Nat} {cs : List Nat} (hpart : (i, Seg.chunks shift cs) ∈ placed 0 T)

/-- Every page has a descriptor of one kind. -/
theorem Shape.desc (hs : Shape s T) (hi : i < s.pages) : Desc s T i := by
  obtain ⟨⟨j, seg⟩, ha, hle, hlt⟩ := exists_part (T := T) (Nat.zero_le i) (by
    rw [hs.length]
    omega)
  have hok := hs.segs _ ha
  have hb := bounds ha
  have hpages := hs.base.pages_lt
  rw [hs.length] at hb
  dsimp only at hle hlt hb
  cases seg with
  | free n =>
    obtain ⟨hslab, htype, -, hblank, -⟩ := hok
    change 0 ≤ j ∧ j + n ≤ 0 + s.pages at hb
    rcases Nat.eq_or_lt_of_le hle with rfl | hlt'
    · exact .free ha ⟨Nat.le_refl _, hlt⟩ htype (by rw [hslab, toNat_ofNat_lt] <;> omega)
    · obtain ⟨hslab, -, htype⟩ := hblank i hlt' hlt
      exact .free ha ⟨hle, hlt⟩ htype (by rw [hslab]; decide)
  | alloc n =>
    obtain ⟨-, -, -, -, hrest⟩ := hok
    rcases Nat.eq_or_lt_of_le hle with rfl | hlt'
    · exact .first ha
    · obtain ⟨hslab, -, htype⟩ := hrest i hlt' hlt
      exact .busy ha ⟨hlt', hlt⟩ htype hslab
  | chunks shift cs =>
    change i < j + 1 at hlt
    obtain rfl : j = i := by omega
    exact .chunks ha

end Dlbase.Slab
