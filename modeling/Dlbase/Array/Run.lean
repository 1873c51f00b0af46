import Dlbase.Array.Apart

/-!
# Runs with arrays

A run is followed with what the pool has handed out, and with the bytes that have been written to
the elements of every array that has not been destroyed.
-/

namespace Dlbase.DlArray

open Cmem Pool

variable {size : Nat} {s s' : State} {U : List Range}

/-- The arrays: where the header is, and the values that have been written last. -/
abbrev Arrays := List (Nat × (Nat → Option UInt8))

variable {A : Arrays}

/-- The states reached from `dl_create_pool` by calls that return and by writing to what is in use.
No size and no count overflows an `int`. -/
inductive Run (size : Nat) : State → List Range → Arrays → Prop where
  /-- The pool has been created. -/
  | create {alloc : Malloc Value} {heap : Arena Value} {s : State} :
      alloc.Sound → heap.Wf → createPool alloc heap size = .ok (some s) → Run size s [] []
  /-- `dl_palloc` has been called. -/
  | palloc {alloc : Malloc Value} {s s' : State} {U : List Range} {A : Arrays} {n : Nat}
      {o : Option Nat} :
      Run size s U A → alloc.Sound → palloc alloc s n = .ok (s', o) →
      Run size s' (o.toList.map (⟨·, n⟩) ++ U) A
  /-- `dl_pnalloc` has been called. -/
  | pnalloc {alloc : Malloc Value} {s s' : State} {U : List Range} {A : Arrays} {n : Nat}
      {o : Option Nat} :
      Run size s U A → alloc.Sound → pnalloc alloc s n = .ok (s', o) →
      Run size s' (o.toList.map (⟨·, n⟩) ++ U) A
  /-- `dl_array_create` has been called. -/
  | arrayCreate {alloc : Malloc Value} {s s' : State} {U : List Range} {A : Arrays} {n esize : Nat}
      {o : Option Nat} :
      Run size s U A → alloc.Sound → 0 < n → 0 < esize → n * esize < 2 ^ 31 →
      arrayCreate alloc s n esize = .ok (s', o) →
      Run size s' U (o.toList.map (·, fun _ ↦ none) ++ A)
  /-- `dl_array_push` has been called. -/
  | arrayPush {alloc : Malloc Value} {s s' : State} {U : List Range} {A A' : Arrays} {a : Nat}
      {f : Nat → Option UInt8} {r : Pool.Array} {o : Option Nat} :
      Run size s U (A ++ (a, f) :: A') → alloc.Sound → loadArray s.heap a = .ok r →
      NoOverflow r 1 → arrayPush alloc s a = .ok (s', o) → Run size s' U (A ++ (a, f) :: A')
  /-- `dl_array_push_n` has been called. -/
  | arrayPushN {alloc : Malloc Value} {s s' : State} {U : List Range} {A A' : Arrays} {a n : Nat}
      {f : Nat → Option UInt8} {r : Pool.Array} {o : Option Nat} :
      Run size s U (A ++ (a, f) :: A') → alloc.Sound → loadArray s.heap a = .ok r →
      NoOverflow r n → arrayPushN alloc s a n = .ok (s', o) → Run size s' U (A ++ (a, f) :: A')
  /-- `dl_array_destroy` has been called. -/
  | arrayDestroy {s s' : State} {U : List Range} {A A' : Arrays} {a : Nat}
      {f : Nat → Option UInt8} :
      Run size s U (A ++ (a, f) :: A') → arrayDestroy s a = .ok s' → Run size s' U (A ++ A')
  /-- Bytes have been written to a part of what has been handed out. -/
  | write {s : State} {heap : Arena Value} {U : List Range} {A : Arrays} {r t : Range}
      {g : Nat → UInt8} :
      Run size s U A → r ∈ U → t.Within r → (s.heap.write t fun i ↦ .byte (g i)) = .ok heap →
      Run size { s with heap } U A
  /-- Bytes have been written to elements of an array. -/
  | writeElts {s : State} {heap : Arena Value} {U : List Range} {A A' : Arrays} {a : Nat}
      {f : Nat → Option UInt8} {r : Pool.Array} {lo n : Nat} {g : Nat → UInt8} :
      Run size s U (A ++ (a, f) :: A') → loadArray s.heap a = .ok r →
      lo + n ≤ r.nelts * r.size →
      (s.heap.write ⟨r.elts + lo, n⟩ fun i ↦ .byte (g i)) = .ok heap →
      Run size { s with heap } U
        (A ++ (a, fun i ↦ if lo ≤ i ∧ i < lo + n then some (g (i - lo)) else f i) :: A')

/-- What is in use is apart and in bounds, and the elements of the arrays have the values that
have been written to them; all further calls return. -/
structure Apart (size : Nat) (s : State) (U : List Range) (A : Arrays) : Prop where
  /-- The ranges in use, the headers and the elements do not overlap and lie in the pool. -/
  apart : ∃ R : List Pool.Array, R.length = A.length ∧
    (∀ e ∈ A.zip R, loadArray s.heap e.1.1 = .ok e.2 ∧ e.2.nelts ≤ e.2.nalloc ∧
      ∀ i v, e.1.2 i = some v →
        i < e.2.nelts * e.2.size ∧ s.heap.load ⟨e.2.elts + i, 1⟩ = .ok (.byte v)) ∧
    (U ++ (A.zip R).flatMap fun e ↦ [storage e.2, ⟨e.1.1, sizeofArray⟩]).Pairwise Range.Disjoint ∧
    ∀ t ∈ U ++ (A.zip R).flatMap fun e ↦ [storage e.2, ⟨e.1.1, sizeofArray⟩], InBounds size s t
  /-- Requests return. -/
  request : ∀ alloc : Malloc Value, alloc.Sound → ∀ (n : Nat) (align : Bool),
    ∃ x, request alloc s n align = .ok x
  /-- Arrays can be created. -/
  create : ∀ alloc : Malloc Value, alloc.Sound → ∀ n esize : Nat, 0 < n → 0 < esize →
    n * esize < 2 ^ 31 → ∃ x, arrayCreate alloc s n esize = .ok x
  /-- The calls on an array return. -/
  calls : ∀ e ∈ A, (∃ s', arrayDestroy s e.1 = .ok s') ∧
    ∀ r, loadArray s.heap e.1 = .ok r → ∀ alloc : Malloc Value, alloc.Sound →
      (NoOverflow r 1 → ∃ x, arrayPush alloc s e.1 = .ok x) ∧
        ∀ n, NoOverflow r n → ∃ x, arrayPushN alloc s e.1 n = .ok x

/-- In every run what is in use stays apart. -/
def AlwaysApart (size : Nat) : Prop := ∀ s U A, Run size s U A → Apart size s U A

/-- The array and the values written to it. -/
def Entry.ghost (e : Entry) : Nat × (Nat → Option UInt8) := (e.addr, e.written)

theorem exists_split {E : List Entry} {A' : Arrays} {a : Nat} {f : Nat → Option UInt8}
    (h : E.map Entry.ghost = A ++ (a, f) :: A') : ∃ pre e post, E = pre ++ e :: post ∧
      pre.map Entry.ghost = A ∧ e.addr = a ∧ e.written = f ∧ post.map Entry.ghost = A' := by
  obtain ⟨pre, rest, rfl, hpre, hrest⟩ := List.map_eq_append_iff.mp h
  obtain ⟨e, post, rfl, he, hpost⟩ := List.map_eq_cons_iff.mp hrest
  obtain ⟨rfl, rfl⟩ := Prod.mk.inj he
  exact ⟨pre, e, post, rfl, hpre, rfl, rfl, hpost⟩

/-- A request leaves the arrays in order. -/
theorem Held.request {E : List Entry} {L : List (Nat × Range)} {alloc : Malloc Value}
    (h : Held size s U E L) (ha : alloc.Sound) (n : Nat) (align : Bool) :
    ∃ s' o L', Pool.request alloc s n align = .ok (s', o) ∧
      Held size s' (o.toList.map (⟨·, n⟩) ++ U) E L' := by
  obtain ⟨s', o, hrun, hgets⟩ := h.holds.request ha n align
  obtain ⟨L', h', -⟩ := hgets.holds
  rw [← List.append_assoc] at h'
  exact ⟨s', o, L', hrun, h', fun e he ↦ (h.entries e he).congr hgets.address fun t ht ↦
    hgets.agree t (List.mem_append_right _ (List.mem_flatMap_of_mem he ht))⟩

/-- Writing to what the user has. -/
theorem Held.write {r t : Range} {heap : Arena Value} {g : Nat → UInt8} {E : List Entry}
    {L : List (Nat × Range)} (h : Held size s U E L) (hr : r ∈ U) (ht : t.Within r)
    (hrun : (s.heap.write t fun i ↦ .byte (g i)) = .ok heap) :
    Held size { s with heap } U E L := by
  refine ⟨h.holds.write_part (List.mem_append_left _ hr) ht hrun, fun e he ↦ ?_⟩
  have hallow := (h.holds.sound.allows (Holds.mem_user (List.mem_append_left _ hr))).within ht
  rw [Arena.write_eq hallow] at hrun
  obtain rfl := Except.ok.inj hrun
  have hap := (List.pairwise_append.mp h.holds.sound.apart).1
  have hdis := (List.pairwise_append.mp hap).2.2 r hr
  have hagree : ∀ u ∈ e.ranges,
      Memory.Agree u s.heap.mem (s.heap.mem.write t fun i ↦ .byte (g i)) := fun u hu ↦
    Memory.agree_write _ _ ((hdis u (List.mem_flatMap_of_mem he hu)).within ht).symm
  exact (h.entries e he).congr rfl hagree

/-- The array after bytes have been written to its elements. -/
def Entry.write (e : Entry) (lo n : Nat) (g : Nat → UInt8) : Entry where
  addr := e.addr
  hdr := e.hdr
  written i := if lo ≤ i ∧ i < lo + n then some (g (i - lo)) else e.written i

/-- Writing to elements of an array. -/
theorem Held.writeElts {heap : Arena Value} {g : Nat → UInt8} {pre post : List Entry} {e : Entry}
    {L : List (Nat × Range)} {lo n : Nat} (h : Held size s U (pre ++ e :: post) L)
    (hlo : lo + n ≤ e.hdr.nelts * e.hdr.size)
    (hrun : (s.heap.write ⟨e.hdr.elts + lo, n⟩ fun i ↦ .byte (g i)) = .ok heap) :
    Held size { s with heap } U (pre ++ e.write lo n g :: post) L := by
  obtain ⟨hs, hok⟩ := h.split
  have hmem : storage e.hdr ∈ storage e.hdr :: e.header :: others U pre post :=
    List.mem_cons_self
  have hle : e.hdr.nelts * e.hdr.size ≤ e.hdr.nalloc * e.hdr.size :=
    Nat.mul_le_mul_right _ hok.sane.nelts_le
  have hin : Range.Within ⟨e.hdr.elts + lo, n⟩ (storage e.hdr) := by
    refine ⟨Nat.le_add_right _ _, ?_⟩
    change e.hdr.elts + lo + n ≤ e.hdr.elts + e.hdr.size * e.hdr.nalloc
    rw [Nat.mul_comm e.hdr.size]
    omega
  have hallow := (hs.sound.allows (Holds.mem_user hmem)).within hin
  have hs' := hs.write_part hmem hin hrun
  rw [Arena.write_eq hallow] at hrun
  obtain rfl := Except.ok.inj hrun
  have hap := List.pairwise_cons.mp (List.pairwise_append.mp hs.sound.apart).1
  have hagree : ∀ t ∈ e.header :: others U pre post, Memory.Agree t s.heap.mem
      (s.heap.mem.write ⟨e.hdr.elts + lo, n⟩ fun i ↦ .byte (g i)) := fun t ht ↦
    Memory.agree_write _ _ ((hap.1 t ht).within hin).symm
  refine ⟨hs'.perm (perm_others U pre post (e.write lo n g)).symm, fun e' he' ↦ ?_⟩
  have hsame : e' ∈ pre ++ post → e'.Ok { s with
      heap := ⟨s.heap.mem.write ⟨e.hdr.elts + lo, n⟩ fun i ↦ .byte (g i), s.heap.regions⟩ } :=
    fun he ↦ (h.entries e' (by
      rw [List.mem_append] at he
      rcases he with he | he <;> simp [he])).congr rfl fun t ht ↦
        hagree t (List.mem_cons_of_mem _ (ranges_sublist_others he ht))
  rw [List.mem_append, List.mem_cons] at he'
  rcases he' with he' | rfl | he'
  · exact hsame (List.mem_append_left _ he')
  · refine ⟨hok.header.congr (hagree _ List.mem_cons_self), { hok.sane with }, fun i v hv ↦ ?_⟩
    change (if lo ≤ i ∧ i < lo + n then some (g (i - lo)) else e.written i) = some v at hv
    change i < e.hdr.nelts * e.hdr.size ∧ (s.heap.mem.write ⟨e.hdr.elts + lo, n⟩
      fun i ↦ .byte (g i)) (e.hdr.elts + i) = some (.byte v, 0)
    by_cases hi : lo ≤ i ∧ i < lo + n
    · rw [if_pos hi] at hv
      obtain rfl := Option.some.inj hv
      have hx : e.hdr.elts + i ∈ (⟨e.hdr.elts + lo, n⟩ : Range) :=
        Range.mem_iff.mpr (by dsimp only; omega)
      refine ⟨by omega, ?_⟩
      rw [Memory.write, if_pos hx, show e.hdr.elts + i - (e.hdr.elts + lo) = i - lo by omega]
    · rw [if_neg hi] at hv
      have hx : e.hdr.elts + i ∉ (⟨e.hdr.elts + lo, n⟩ : Range) := by
        rw [Range.mem_iff]
        dsimp only
        omega
      rw [Memory.write, if_neg hx]
      exact hok.written i v hv
  · exact hsame (List.mem_append_right _ he')

theorem Run.held (hd : 8 ∣ size) (hle : sizeofPool + sizeofLarge ≤ size) (h : Run size s U A) :
    ∃ E L, Held size s U E L ∧ E.map Entry.ghost = A := by
  induction h with
  | create ha hw hrun => exact ⟨[], [], ⟨holds_createPool ha hw hd hle hrun, nofun⟩, rfl⟩
  | palloc _ ha hrun ih =>
    obtain ⟨E, L, h, hE⟩ := ih
    obtain ⟨s₁, o₁, L', hrun₁, h₁⟩ := h.request ha _ true
    obtain ⟨rfl, rfl⟩ := Prod.mk.inj (Except.ok.inj (hrun.symm.trans hrun₁))
    exact ⟨E, L', h₁, hE⟩
  | pnalloc _ ha hrun ih =>
    obtain ⟨E, L, h, hE⟩ := ih
    obtain ⟨s₁, o₁, L', hrun₁, h₁⟩ := h.request ha _ false
    obtain ⟨rfl, rfl⟩ := Prod.mk.inj (Except.ok.inj (hrun.symm.trans hrun₁))
    exact ⟨E, L', h₁, hE⟩
  | @arrayCreate alloc s s' U A n esize o _ ha hn hesize hlt hrun ih =>
    obtain ⟨E, L, h, hE⟩ := ih
    obtain ⟨s₁, o₁, L', hrun₁, hnone, hsome⟩ := h.arrayCreate ha hn hesize hlt
    obtain ⟨rfl, rfl⟩ := Prod.mk.inj (Except.ok.inj (hrun.symm.trans hrun₁))
    cases o with
    | none => exact ⟨E, L', hnone rfl, hE⟩
    | some a =>
      obtain ⟨r, h₁⟩ := hsome a rfl
      exact ⟨_, L', h₁, congrArg ((a, fun _ ↦ none) :: ·) hE⟩
  | arrayPush _ ha hload hno hrun ih =>
    obtain ⟨E, L, h, hE⟩ := ih
    obtain ⟨pre, e, post, rfl, rfl, rfl, rfl, rfl⟩ := exists_split hE
    obtain rfl := Except.ok.inj (h.loadArray_eq.symm.trans hload)
    obtain ⟨s₁, o₁, L', e', hrun₁, h₁, haddr, hwritten⟩ := h.arrayPush ha hno
    obtain ⟨rfl, rfl⟩ := Prod.mk.inj (Except.ok.inj (hrun.symm.trans hrun₁))
    refine ⟨_, L', h₁, ?_⟩
    rw [List.map_append, List.map_cons, Entry.ghost, haddr, hwritten]
  | arrayPushN _ ha hload hno hrun ih =>
    obtain ⟨E, L, h, hE⟩ := ih
    obtain ⟨pre, e, post, rfl, rfl, rfl, rfl, rfl⟩ := exists_split hE
    obtain rfl := Except.ok.inj (h.loadArray_eq.symm.trans hload)
    obtain ⟨s₁, o₁, L', e', hrun₁, h₁, haddr, hwritten⟩ := h.arrayPushN ha hno
    obtain ⟨rfl, rfl⟩ := Prod.mk.inj (Except.ok.inj (hrun.symm.trans hrun₁))
    refine ⟨_, L', h₁, ?_⟩
    rw [List.map_append, List.map_cons, Entry.ghost, haddr, hwritten]
  | arrayDestroy _ hrun ih =>
    obtain ⟨E, L, h, hE⟩ := ih
    obtain ⟨pre, e, post, rfl, rfl, rfl, rfl, rfl⟩ := exists_split hE
    obtain ⟨s₁, hrun₁, h₁⟩ := h.arrayDestroy
    obtain rfl := Except.ok.inj (hrun.symm.trans hrun₁)
    exact ⟨_, L, h₁, List.map_append⟩
  | write _ hr ht hrun ih =>
    obtain ⟨E, L, h, hE⟩ := ih
    exact ⟨E, L, h.write hr ht hrun, hE⟩
  | writeElts _ hload hlo hrun ih =>
    obtain ⟨E, L, h, hE⟩ := ih
    obtain ⟨pre, e, post, rfl, rfl, rfl, rfl, rfl⟩ := exists_split hE
    obtain rfl := Except.ok.inj (h.loadArray_eq.symm.trans hload)
    refine ⟨_, L, h.writeElts hlo hrun, ?_⟩
    rw [List.map_append, List.map_cons]
    rfl

/-- A byte of an element can be read back. -/
theorem Held.load_written {pre post : List Entry} {e : Entry} {L : List (Nat × Range)} {i : Nat}
    {v : UInt8} (h : Held size s U (pre ++ e :: post) L) (hi : i < e.hdr.nelts * e.hdr.size)
    (hv : s.heap.mem (e.hdr.elts + i) = some (.byte v, 0)) :
    s.heap.load ⟨e.hdr.elts + i, 1⟩ = .ok (.byte v) := by
  obtain ⟨hs, hok⟩ := h.split
  have hmem := Range.mem_iff.mp (Entry.mem_storage hok.sane hi)
  have hin : Range.Within ⟨e.hdr.elts + i, 1⟩ (storage e.hdr) := ⟨hmem.1, hmem.2⟩
  refine Arena.load_eq ((hs.sound.allows (Holds.mem_user List.mem_cons_self)).within hin)
    ⟨Nat.one_pos, fun j hj ↦ ?_⟩
  obtain rfl := Nat.lt_one_iff.mp hj
  exact hv

/-- In a pool of the right size what is in use is apart. -/
theorem apart (hd : 8 ∣ size) (hle : sizeofPool + sizeofLarge ≤ size) : AlwaysApart size := by
  intro s U A hrun
  obtain ⟨E, L, h, rfl⟩ := hrun.held hd hle
  have hzip : (E.map Entry.ghost).zip (E.map Entry.hdr) = E.map fun e ↦ (e.ghost, e.hdr) := by
    rw [List.zip_map']
  have hranges : (E.map fun e ↦ (e.ghost, e.hdr)).flatMap (fun e ↦
      [storage e.2, ⟨e.1.1, sizeofArray⟩]) = E.flatMap Entry.ranges := by
    rw [List.flatMap_map]
    rfl
  refine ⟨⟨E.map Entry.hdr, ?_, ?_, ?_, ?_⟩, fun alloc ha n align ↦ ?_,
    fun alloc ha n esize hn hesize hlt ↦ ?_, fun x hx ↦ ?_⟩
  · rw [List.length_map, List.length_map]
  · rw [hzip]
    rintro _ hx
    obtain ⟨e, he, rfl⟩ := List.mem_map.mp hx
    obtain ⟨pre, post, rfl⟩ := List.append_of_mem he
    obtain ⟨hs, hok⟩ := h.split
    refine ⟨h.loadArray_eq, hok.sane.nelts_le, fun i v hv ↦ ?_⟩
    obtain ⟨hi, hbyte⟩ := hok.written i v hv
    exact ⟨hi, h.load_written hi hbyte⟩
  · rw [hzip, hranges]
    exact (List.pairwise_append.mp h.holds.sound.apart).1
  · rw [hzip, hranges]
    intro t ht
    exact h.holds.inBounds ht
  · obtain ⟨s', o, L', hrun, -⟩ := h.request ha n align
    exact ⟨_, hrun⟩
  · obtain ⟨s', o, L', hrun, -⟩ := h.arrayCreate ha hn hesize hlt
    exact ⟨_, hrun⟩
  · obtain ⟨e, he, rfl⟩ := List.mem_map.mp hx
    obtain ⟨pre, post, rfl⟩ := List.append_of_mem he
    obtain ⟨s', hrun, -⟩ := h.arrayDestroy
    refine ⟨⟨s', hrun⟩, fun r hr alloc ha ↦ ?_⟩
    obtain rfl := Except.ok.inj (h.loadArray_eq.symm.trans hr)
    refine ⟨fun hno ↦ ?_, fun n hno ↦ ?_⟩
    · obtain ⟨s', o, L', e', hrun, -⟩ := h.arrayPush ha hno
      exact ⟨_, hrun⟩
    · obtain ⟨s', o, L', e', hrun, -⟩ := h.arrayPushN ha hno
      exact ⟨_, hrun⟩

/-- In a pool of 80 bytes the record of a large block does not fit. -/
theorem not_apart_of_lt (hlo : sizeofPool ≤ size) (hhi : size < sizeofPool + sizeofLarge) :
    ¬ AlwaysApart size := by
  intro h
  obtain ⟨hcreate, hpalloc⟩ := palloc_fresh hlo hhi
  obtain ⟨x, hrun⟩ := (h _ _ _ (.create Arena.bump_sound wf_noBlocks hcreate)).request Arena.bump
    Arena.bump_sound 16 true
  exact nomatch hpalloc.symm.trans hrun

/-- What is in use stays apart, in every run, exactly if there is room for the record of a large
block. -/
theorem apart_iff (hd : 8 ∣ size) (hlt : sizeofPool < size) :
    AlwaysApart size ↔ sizeofPool + sizeofLarge ≤ size := by
  refine ⟨fun h ↦ ?_, apart hd⟩
  by_contra hle
  exact not_apart_of_lt (Nat.le_of_lt hlt) (Nat.not_le.mp hle) h

theorem apart_128 : AlwaysApart 128 := (apart_iff (by decide) (by decide)).mpr (by decide)

/-- In a pool of 80 bytes, a request for 16 bytes writes behind the block. -/
theorem not_apart_80 : ¬ ∀ size, 8 ∣ size → sizeofPool < size → AlwaysApart size := fun h ↦
  not_apart_of_lt (by decide) (by decide) (h 80 (by decide) (by decide))

end Dlbase.DlArray
