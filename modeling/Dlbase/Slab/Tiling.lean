import Dlbase.Slab.Model

/-!
# The pages of a pool

The pages are divided, in their order, into free runs, runs that are allocated as a whole, and
pages of chunks.  Each of these has its place, and what belongs to it can be told from the place:
the list that it is in, and what is allocated.
-/

namespace Dlbase.Slab

/-- A part of the pages. -/
inductive Seg where
  /-- A free run of pages. -/
  | free (n : Nat)
  /-- A run of pages that is allocated as a whole. -/
  | alloc (n : Nat)
  /-- A page of chunks of `2 ^ shift` bytes, with the chunks that are allocated. -/
  | chunks (shift : Nat) (cs : List Nat)

/-- What is allocated. -/
inductive Piece where
  /-- A number of pages. -/
  | pages (n : Nat)
  /-- A chunk of `2 ^ shift` bytes. -/
  | chunk (shift : Nat)
deriving DecidableEq

namespace Seg

/-- The number of pages. -/
def len : Seg → Nat
  | free n => n
  | alloc n => n
  | chunks _ _ => 1

/-- The number of free pages. -/
def freeLen : Seg → Nat
  | free n => n
  | _ => 0

/-- Whether the pages are free. -/
def IsFree : Seg → Prop
  | free _ => True
  | _ => False

end Seg

/-- The number of chunks in a page. -/
def chunkCount (shift : Nat) : Nat := 4096 >>> shift

/-- The number of chunks that the bitmap in a page takes. -/
def reserved (shift : Nat) : Nat := if shift < 6 then max 1 ((4096 >>> shift) / ((1 <<< shift) * 8)) else 0

/-- All chunks of a page are allocated. -/
def Full (shift : Nat) (cs : List Nat) : Prop :=
  ∀ c, reserved shift ≤ c → c < chunkCount shift → c ∈ cs

/-- The parts with their places. -/
def placed : Nat → List Seg → List (Nat × Seg)
  | _, [] => []
  | i, seg :: T => (i, seg) :: placed (i + seg.len) T

/-- The number of all pages. -/
def total (T : List Seg) : Nat := (T.map Seg.len).sum

/-- The number of free pages. -/
def freeTotal (T : List Seg) : Nat := (T.map Seg.freeLen).sum

open Classical in
/-- The head of the list that the first page of a part is in: the free list for the free runs, and
the list of its slot for a page of chunks that are not all allocated. -/
noncomputable def Seg.list : Seg → Option Ref
  | .free _ => some .free
  | .alloc _ => none
  | .chunks shift cs => if Full shift cs then none else some (.slot (shift - 3))

/-- The list that a part is in, with its first page. -/
noncomputable def linkOf (e : Nat × Seg) : Option (Ref × Nat) := e.2.list.map fun h ↦ (h, e.1)

/-- What is allocated in a part, with its address. -/
def piecesOf (start : Nat) : Nat × Seg → List (Nat × Piece)
  | (_, .free _) => []
  | (i, .alloc n) => [(start + 4096 * i, .pages n)]
  | (i, .chunks shift cs) => cs.map fun c ↦ (start + 4096 * i + c * 2 ^ shift, .chunk shift)

/-- The nodes of the list with the head `h`. -/
noncomputable def members (h : Ref) (i : Nat) (T : List Seg) : List Ref :=
  (placed i T).filterMap fun e ↦ if e.2.list = some h then some (.page e.1) else none

/-- What is allocated. -/
def pieces (start i : Nat) (T : List Seg) : List (Nat × Piece) := (placed i T).flatMap (piecesOf start)

variable {i j k : Nat} {T A B : List Seg} {seg : Seg} {e e' : Nat × Seg} {h r : Ref}

theorem placed_append : placed i (A ++ B) = placed i A ++ placed (i + total A) B := by
  induction A generalizing i with
  | nil => rfl
  | cons seg A ih =>
    have hi : i + total (seg :: A) = i + seg.len + total A := by
      rw [total, List.map_cons, List.sum_cons, total, Nat.add_assoc]
    rw [List.cons_append, placed, ih, placed, List.cons_append, hi]

theorem total_append : total (A ++ B) = total A + total B := by
  rw [total, List.map_append, List.sum_append, total, total]

theorem total_cons : total (seg :: T) = seg.len + total T := by
  rw [total, List.map_cons, List.sum_cons, total]

theorem freeTotal_append : freeTotal (A ++ B) = freeTotal A + freeTotal B := by
  rw [freeTotal, List.map_append, List.sum_append, freeTotal, freeTotal]

theorem freeTotal_cons : freeTotal (seg :: T) = seg.freeLen + freeTotal T := by
  rw [freeTotal, List.map_cons, List.sum_cons, freeTotal]

theorem freeTotal_middle : freeTotal (A ++ seg :: B) = freeTotal A + (seg.freeLen + freeTotal B) := by
  rw [freeTotal_append, freeTotal_cons]

theorem freeTotal_le : freeTotal T ≤ total T := by
  induction T with
  | nil => exact Nat.le_refl 0
  | cons seg T ih =>
    rw [freeTotal_cons, total_cons]
    have hlen : seg.freeLen ≤ seg.len := by
      cases seg with
      | free n => exact Nat.le_refl n
      | alloc n => exact Nat.zero_le _
      | chunks shift cs => exact Nat.zero_le _
    omega

theorem placed_middle : placed i (A ++ seg :: B) =
    placed i A ++ (i + total A, seg) :: placed (i + total A + seg.len) B := placed_append

theorem bounds (he : e ∈ placed i T) : i ≤ e.1 ∧ e.1 + e.2.len ≤ i + total T := by
  induction T generalizing i with
  | nil => cases he
  | cons seg T ih =>
    rw [total_cons]
    rcases List.mem_cons.mp he with rfl | he
    · exact ⟨Nat.le_refl _, by dsimp only; omega⟩
    · have := ih he
      omega

/-- The parts lie one after the other. -/
theorem placed_pairwise :
    (placed i T).Pairwise fun e e' ↦ e.1 + e.2.len ≤ e'.1 := by
  induction T generalizing i with
  | nil => exact .nil
  | cons seg T ih => exact List.pairwise_cons.mpr ⟨fun e he ↦ (bounds he).1, ih⟩

/-- A part with its place divides the pages. -/
theorem exists_split (he : e ∈ placed i T) :
    ∃ A B, T = A ++ e.2 :: B ∧ i + total A = e.1 := by
  induction T generalizing i with
  | nil => cases he
  | cons seg T ih =>
    rcases List.mem_cons.mp he with rfl | he
    · exact ⟨[], T, rfl, rfl⟩
    · obtain ⟨A, B, rfl, hA⟩ := ih he
      exact ⟨seg :: A, B, rfl, by rw [total_cons]; omega⟩

/-- Each page is in one of the parts. -/
theorem exists_part (hi : i ≤ j) (hj : j < i + total T) :
    ∃ e ∈ placed i T, e.1 ≤ j ∧ j < e.1 + e.2.len := by
  induction T generalizing i with
  | nil => exact absurd hj (Nat.not_lt.mpr hi)
  | cons seg T ih =>
    rw [total_cons] at hj
    by_cases hseg : j < i + seg.len
    · exact ⟨(i, seg), List.mem_cons_self, hi, hseg⟩
    · obtain ⟨e, he, hle, hlt⟩ := ih (Nat.le_of_not_lt hseg) (by omega)
      exact ⟨e, List.mem_cons_of_mem _ he, hle, hlt⟩

/-- Two parts do not begin with the same page. -/
theorem part_unique (hpos : ∀ e ∈ placed i T, 0 < e.2.len) (he : e ∈ placed i T)
    (he' : e' ∈ placed i T) (heq : e.1 = e'.1) : e = e' := by
  induction T generalizing i with
  | nil => cases he
  | cons seg T ih =>
    have hseg : 0 < seg.len := hpos (i, seg) List.mem_cons_self
    rcases List.mem_cons.mp he with rfl | he <;> rcases List.mem_cons.mp he' with rfl | he'
    · rfl
    · have := (bounds he').1
      exact absurd heq (by dsimp only; omega)
    · have := (bounds he).1
      exact absurd heq (by dsimp only; omega)
    · exact ih (fun e he ↦ hpos e (List.mem_cons_of_mem _ he)) he he'

/-! ## What belongs to the parts -/

theorem members_append : members h i (A ++ B) = members h i A ++ members h (i + total A) B := by
  rw [members, placed_append, List.filterMap_append, members, members]

theorem members_cons : members h i (seg :: T) = members h i [seg] ++ members h (i + seg.len) T := by
  rw [← List.singleton_append, members_append, total_cons]
  rfl

theorem members_singleton : members h i [seg] =
    if seg.list = some h then [.page i] else [] := by
  by_cases hl : seg.list = some h
  · rw [if_pos hl]
    exact List.filterMap_cons_some (if_pos hl)
  · rw [if_neg hl]
    exact List.filterMap_cons_none (if_neg hl)

theorem mem_members : r ∈ members h i T ↔
    ∃ e ∈ placed i T, e.2.list = some h ∧ r = .page e.1 := by
  rw [members, List.mem_filterMap]
  refine exists_congr fun e ↦ and_congr_right fun _ ↦ ?_
  rw [Option.ite_none_right_eq_some, Option.some_inj, eq_comm (a := r)]

theorem nodup_members (hpos : ∀ e ∈ placed i T, 0 < e.2.len) : (members h i T).Nodup := by
  have hpw : (placed i T).Pairwise fun e e' ↦ e.1 < e'.1 :=
    placed_pairwise.imp_of_mem fun he _ hle ↦ Nat.lt_of_lt_of_le
      (Nat.lt_add_of_pos_right (hpos _ he)) hle
  refine hpw.filterMap _ fun e e' hlt r hr r' hr' ↦ ?_
  rw [Option.ite_none_right_eq_some] at hr hr'
  rw [← Option.some.inj hr.2, ← Option.some.inj hr'.2]
  exact fun heq ↦ Nat.ne_of_lt hlt (Ref.page.inj heq)

theorem pieces_middle {start : Nat} : pieces start i (A ++ seg :: B) =
    pieces start i A ++ piecesOf start (i + total A, seg) ++
      pieces start (i + total A + seg.len) B := by
  rw [pieces, placed_middle, List.flatMap_append, List.flatMap_cons, pieces, pieces,
    List.append_assoc]

end Dlbase.Slab
