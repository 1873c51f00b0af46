import Dlbase.Array.Grow

/-!
# Arrays of a pool do not overlap

What is handed out, the headers of the arrays and the memory of their elements stay apart, and
every byte of an element that has been written keeps its value.
-/

namespace Dlbase.DlArray

open Cmem Pool

variable {size n : Nat} {s s' : State} {U : List Range} {L : List (Nat × Range)}
  {alloc : Malloc Value}

/-- An array: its address, its header, and the bytes of its elements that have been written. -/
structure Entry where
  /-- Where the header is. -/
  addr : Nat
  /-- The header. -/
  hdr : Pool.Array
  /-- The value that has been written last to a byte of the elements. -/
  written : Nat → Option UInt8

variable {e : Entry} {E pre post : List Entry}

namespace Entry

/-- The memory of the header. -/
def header (e : Entry) : Range := ⟨e.addr, sizeofArray⟩

/-- The memory of the array. -/
def ranges (e : Entry) : List Range := [storage e.hdr, e.header]

/-- The heap holds the array. -/
structure Ok (s : State) (e : Entry) : Prop where
  /-- The header is in memory. -/
  header : s.heap.mem.Holds e.header (.array e.hdr)
  /-- The header is in order. -/
  sane : Sane s e.hdr
  /-- The bytes that have been written belong to elements and are in memory. -/
  written : ∀ i v, e.written i = some v →
    i < e.hdr.nelts * e.hdr.size ∧ s.heap.mem (e.hdr.elts + i) = some (.byte v, 0)

theorem mem_storage {r : Pool.Array} {i : Nat} (hr : Sane s r) (hi : i < r.nelts * r.size) :
    r.elts + i ∈ storage r := by
  refine Range.mem_iff.mpr ⟨Nat.le_add_right _ _, Nat.add_lt_add_left ?_ _⟩
  change i < r.size * r.nalloc
  have hle : r.nelts * r.size ≤ r.nalloc * r.size := Nat.mul_le_mul_right _ hr.nelts_le
  rw [Nat.mul_comm r.size]
  omega

theorem Ok.congr (h : e.Ok s) (ha : s'.address = s.address)
    (hag : ∀ t ∈ e.ranges, Memory.Agree t s.heap.mem s'.heap.mem) : e.Ok s' where
  header := h.header.congr (hag _ (List.mem_cons_of_mem _ List.mem_cons_self))
  sane := { h.sane with pool := ha.trans h.sane.pool }
  written i v hv := by
    obtain ⟨hi, hmem⟩ := h.written i v hv
    exact ⟨hi, (hag _ List.mem_cons_self _ (mem_storage h.sane hi)).trans hmem⟩

end Entry

/-- The pool with the ranges `U` of its user and the arrays `E`. -/
structure Held (size : Nat) (s : State) (U : List Range) (E : List Entry) (L : List (Nat × Range)) :
    Prop where
  /-- The ranges and the arrays lie in the pool and are apart. -/
  holds : Holds size s (U ++ E.flatMap Entry.ranges) L []
  /-- The arrays are in order. -/
  entries : ∀ e ∈ E, e.Ok s

/-- All but one of the arrays. -/
def others (U : List Range) (pre post : List Entry) : List Range :=
  U ++ (pre ++ post).flatMap Entry.ranges

theorem perm_others (U : List Range) (pre post : List Entry) (e : Entry) :
    (U ++ (pre ++ e :: post).flatMap Entry.ranges).Perm
      (storage e.hdr :: e.header :: others U pre post) := by
  have hperm : (pre ++ e :: post).Perm (e :: (pre ++ post)) := List.perm_middle
  refine ((hperm.flatMap_right Entry.ranges).append_left U).trans ?_
  rw [List.flatMap_cons, ← List.append_assoc]
  exact List.perm_append_comm.append_right _

theorem ranges_sublist_others {e' : Entry} (he : e' ∈ pre ++ post) {t : Range} (ht : t ∈ e'.ranges) :
    t ∈ others U pre post :=
  List.mem_append_right _ (List.mem_flatMap_of_mem he ht)

/-- A condition under which no `int` overflows when `n` elements are added. -/
def NoOverflow (r : Pool.Array) (n : Nat) : Prop :=
  r.nalloc < r.nelts + n → 2 * max n r.nalloc * r.size < 2 ^ 31

namespace Held

theorem split (h : Held size s U (pre ++ e :: post) L) :
    Holds size s (storage e.hdr :: e.header :: others U pre post) L [] ∧ e.Ok s :=
  ⟨h.holds.perm (perm_others ..), h.entries e (by simp)⟩

/-- One of the arrays has changed. -/
theorem replace {r : Pool.Array} {L' : List (Nat × Range)}
    (h : Held size s U (pre ++ e :: post) L)
    (hs : Holds size s' (storage r :: e.header :: others U pre post) L' [])
    (haddr : s'.address = s.address)
    (hag : ∀ t ∈ others U pre post, Memory.Agree t s.heap.mem s'.heap.mem)
    (hok : Entry.Ok s' { e with hdr := r }) :
    Held size s' U (pre ++ { e with hdr := r } :: post) L' where
  holds := hs.perm (perm_others U pre post { e with hdr := r }).symm
  entries e' he' := by
    rw [List.mem_append, List.mem_cons] at he'
    have hsame : e' ∈ pre ++ post → e'.Ok s' := fun hmem ↦
      (h.entries e' (by
        rw [List.mem_append] at hmem
        rcases hmem with hmem | hmem <;> simp [hmem])).congr haddr fun t ht ↦
          hag t (ranges_sublist_others hmem ht)
    rcases he' with he' | rfl | he'
    · exact hsame (List.mem_append_left _ he')
    · exact hok
    · exact hsame (List.mem_append_right _ he')

theorem loadArray_eq (h : Held size s U (pre ++ e :: post) L) :
    loadArray s.heap e.addr = .ok e.hdr := by
  obtain ⟨hs, hok⟩ := h.split
  have hallow : s.heap.Allows e.header :=
    hs.sound.allows (Holds.mem_user (List.mem_cons_of_mem _ List.mem_cons_self))
  unfold loadArray
  rw [show (⟨e.addr, sizeofArray⟩ : Range) = e.header from rfl, Arena.load_eq hallow hok.header]
  rfl

/-- The new elements are counted. -/
theorem take {s₁ : State} {r : Pool.Array} {L' : List (Nat × Range)}
    (h : Held size s U (pre ++ e :: post) L)
    (hs : Holds size s₁ (storage r :: e.header :: others U pre post) L' [])
    (haddr : s₁.address = s.address)
    (hag : ∀ t ∈ others U pre post, Memory.Agree t s.heap.mem s₁.heap.mem)
    (hr : Sane s₁ r) (hsize : r.size = e.hdr.size) (hnelts : r.nelts = e.hdr.nelts)
    (hroom : r.nelts + n ≤ r.nalloc)
    (hsame : ∀ i < e.hdr.nelts * e.hdr.size,
      s₁.heap.mem (r.elts + i) = s.heap.mem (e.hdr.elts + i)) :
    ∃ s', arrayTake s₁ e.addr r n = .ok (s', some (r.elts + r.size * r.nelts)) ∧
      Held size s' U (pre ++ { e with hdr := { r with nelts := r.nelts + n } } :: post) L' := by
  have hok := h.split.2
  have hmem : e.header ∈ (storage r :: e.header :: others U pre post) :=
    List.mem_cons_of_mem _ List.mem_cons_self
  obtain ⟨hstorage, hap⟩ := List.pairwise_cons.mp (List.pairwise_append.mp hs.sound.apart).1
  have hothers := (List.pairwise_cons.mp hap).1
  have hle : r.nelts * r.size ≤ r.nalloc * r.size := Nat.mul_le_mul_right _ hr.nelts_le
  have hlt := hr.lt
  have hmul : mulSize r.size r.nelts = r.size * r.nelts := by
    refine mulSize_eq ?_
    rw [Nat.mul_comm]
    omega
  have hstore := Arena.store_eq (v := Value.array { r with nelts := r.nelts + n })
    (hs.sound.allows (Holds.mem_user hmem))
  unfold arrayTake
  simp only [toInt_of_le hr.size_pos hroom hr.lt, Exec.ok_bind, hmul]
  rw [show (⟨e.addr, sizeofArray⟩ : Range) = e.header from rfl, hstore]
  refine ⟨_, rfl, h.replace (hs.setMem hmem fun t ht ↦ Memory.agree_store _ _ ht) haddr
    (fun t ht ↦ (hag t ht).trans (Memory.agree_store _ _ (hothers t ht).symm))
    ⟨Memory.holds_store _ _ (show 0 < 40 by decide), { hr with nelts_le := hroom }, fun i v hv ↦ ?_⟩⟩
  obtain ⟨hi, hbyte⟩ := hok.written i v hv
  have hi' : i < r.nelts * r.size := by rwa [hnelts, hsize]
  refine ⟨Nat.lt_of_lt_of_le hi' (Nat.mul_le_mul_right _ (Nat.le_add_right _ _)), ?_⟩
  have hagree : Memory.Agree (storage r) s₁.heap.mem
      (s₁.heap.mem.store e.header (.array { r with nelts := r.nelts + n })) :=
    Memory.agree_store _ _ (hstorage _ List.mem_cons_self)
  exact (hagree _ (Entry.mem_storage hr hi')).trans ((hsame i hi).trans hbyte)

/-- An array grows, and its new elements are counted. -/
theorem grow_take {nalloc : Nat} (h : Held size s U (pre ++ e :: post) L) (ha : alloc.Sound)
    (hcap : e.hdr.nalloc + n ≤ nalloc) (hlt : nalloc * e.hdr.size < 2 ^ 31) :
    ∃ s' o L' e', (arrayGrow alloc s e.hdr n nalloc (nalloc * e.hdr.size)
        (e.hdr.nelts * e.hdr.size) >>= fun x ↦ match x with
          | (s, none) => pure (s, none)
          | (s, some r) => arrayTake s e.addr r n) = .ok (s', o) ∧
      Held size s' U (pre ++ e' :: post) L' ∧ e'.addr = e.addr ∧ e'.written = e.written := by
  obtain ⟨hs, hok⟩ := h.split
  obtain ⟨s₁, o, L', hrun, haddr, hag, hnone, hsome⟩ := arrayGrow_spec hs ha hok.sane hcap hlt
  have hothers : ∀ t ∈ others U pre post, Memory.Agree t s.heap.mem s₁.heap.mem :=
    fun t ht ↦ hag t (List.mem_cons_of_mem _ ht)
  rw [hrun, Exec.ok_bind]
  cases o with
  | none =>
    obtain ⟨hs₁, hstorage⟩ := hnone rfl
    refine ⟨s₁, none, L', e, rfl, h.replace hs₁ haddr hothers (hok.congr haddr fun t ht ↦ ?_), rfl,
      rfl⟩
    rcases List.mem_cons.mp ht with rfl | ht
    · exact hstorage
    · exact hag t ((List.mem_singleton.mp ht) ▸ List.mem_cons_self)
  | some r =>
    have hgrown := hsome r rfl
    obtain ⟨s', hrun', hheld⟩ := h.take hgrown.holds haddr hothers hgrown.sane hgrown.size_eq
      hgrown.nelts_eq (hgrown.nelts_eq ▸ hgrown.room) hgrown.same
    exact ⟨s', _, L', _, hrun', hheld, rfl, rfl⟩

/-- There is room for more elements. -/
theorem take_room (h : Held size s U (pre ++ e :: post) L) (hroom : e.hdr.nelts + n ≤ e.hdr.nalloc) :
    ∃ s' o L' e', arrayTake s e.addr e.hdr n = .ok (s', o) ∧
      Held size s' U (pre ++ e' :: post) L' ∧ e'.addr = e.addr ∧ e'.written = e.written := by
  obtain ⟨hs, hok⟩ := h.split
  obtain ⟨s', hrun, hheld⟩ := h.take hs rfl (fun t _ ↦ .refl t _) hok.sane rfl rfl hroom
    fun _ _ ↦ rfl
  exact ⟨s', _, L, _, hrun, hheld, rfl, rfl⟩

/-- `dl_array_push`. -/
theorem arrayPush (h : Held size s U (pre ++ e :: post) L) (ha : alloc.Sound)
    (hno : NoOverflow e.hdr 1) :
    ∃ s' o L' e', DlArray.arrayPush alloc s e.addr = .ok (s', o) ∧
      Held size s' U (pre ++ e' :: post) L' ∧ e'.addr = e.addr ∧ e'.written = e.written := by
  have hsane := h.split.2.sane
  unfold DlArray.arrayPush
  rw [h.loadArray_eq, Exec.ok_bind]
  by_cases hfull : e.hdr.nelts = e.hdr.nalloc
  · have hlt := hno (by omega)
    have hmax : 2 * max 1 e.hdr.nalloc = e.hdr.nalloc * 2 := by
      have := hsane.nalloc_pos
      omega
    rw [hmax] at hlt
    have hsize : mulSize e.hdr.size e.hdr.nalloc = e.hdr.nelts * e.hdr.size := by
      have := hsane.lt
      rw [hfull, Nat.mul_comm e.hdr.nalloc]
      refine mulSize_eq ?_
      rw [Nat.mul_comm]
      omega
    have hbytes : mulSize 2 (e.hdr.nelts * e.hdr.size) = e.hdr.nalloc * 2 * e.hdr.size := by
      have hassoc : 2 * (e.hdr.nalloc * e.hdr.size) = e.hdr.nalloc * 2 * e.hdr.size := by
        rw [← Nat.mul_assoc, Nat.mul_comm 2]
      rw [hfull, mulSize_eq (by omega), hassoc]
    simp only [if_pos hfull, hsize, hbytes]
    exact h.grow_take ha (by have := hsane.nalloc_pos; omega) hlt
  · have := hsane.nelts_le
    rw [if_neg hfull]
    exact h.take_room (by omega)

/-- `dl_array_push_n`. -/
theorem arrayPushN (h : Held size s U (pre ++ e :: post) L) (ha : alloc.Sound)
    (hno : NoOverflow e.hdr n) :
    ∃ s' o L' e', DlArray.arrayPushN alloc s e.addr n = .ok (s', o) ∧
      Held size s' U (pre ++ e' :: post) L' ∧ e'.addr = e.addr ∧ e'.written = e.written := by
  have hsane := h.split.2.sane
  have hnelts := hsane.nelts_le
  have hsize := hsane.size_pos
  unfold DlArray.arrayPushN
  rw [h.loadArray_eq, Exec.ok_bind]
  by_cases hfull : e.hdr.nalloc < e.hdr.nelts + n
  · have hlt := hno hfull
    have hmax : (2 * if n ≥ e.hdr.nalloc then n else e.hdr.nalloc) = 2 * max n e.hdr.nalloc := by
      split_ifs <;> omega
    have hneeded : toInt (e.hdr.nelts + n) = .ok (e.hdr.nelts + n) :=
      toInt_of_le hsize (by omega) hlt
    have hle : e.hdr.nelts * e.hdr.size ≤ 2 * max n e.hdr.nalloc * e.hdr.size :=
      Nat.mul_le_mul_right _ (by omega)
    have hbytes : mulSize (2 * max n e.hdr.nalloc) e.hdr.size = 2 * max n e.hdr.nalloc * e.hdr.size :=
      mulSize_eq (by omega)
    have hcopied : mulSize e.hdr.nelts e.hdr.size = e.hdr.nelts * e.hdr.size :=
      mulSize_eq (by omega)
    simp only [hneeded, Exec.ok_bind, if_pos hfull, hmax, hbytes, hcopied]
    exact h.grow_take ha (by omega) hlt
  · rw [toInt_of_le hsize (Nat.not_lt.mp hfull) hsane.lt, Exec.ok_bind, if_neg hfull]
    exact h.take_room (Nat.not_lt.mp hfull)

/-- `dl_array_create`. -/
theorem arrayCreate {m esize : Nat} (h : Held size s U E L) (ha : alloc.Sound) (hm : 0 < m)
    (hesize : 0 < esize) (hlt : m * esize < 2 ^ 31) :
    ∃ s' o L', DlArray.arrayCreate alloc s m esize = .ok (s', o) ∧
      (o = none → Held size s' U E L') ∧
      ∀ a ∈ o, ∃ r, Held size s' U (⟨a, r, fun _ ↦ none⟩ :: E) L' := by
  obtain ⟨pool, rest, hblocks⟩ : ∃ pool rest, s.blocks = pool :: rest :=
    List.exists_cons_of_length_pos (Nat.lt_of_le_of_lt (Nat.zero_le _) h.holds.sound.current)
  have haddr : s.address = some pool.start := by
    unfold State.address
    rw [hblocks]
    rfl
  have hmul : mulSize m esize = m * esize := mulSize_eq (by omega)
  obtain ⟨s₁, o₁, hrun₁, hgets₁⟩ := h.holds.request ha sizeofArray true
  obtain ⟨L₁, h₁, -, -⟩ := hgets₁.holds
  have hkept₁ : ∀ e ∈ E, e.Ok s₁ := fun e he ↦ (h.entries e he).congr hgets₁.address fun t ht ↦
    hgets₁.agree t (List.mem_append_right _ (List.mem_flatMap_of_mem he ht))
  unfold DlArray.arrayCreate arrayInit palloc
  simp only [hrun₁, Exec.ok_bind]
  cases o₁ with
  | none => exact ⟨s₁, none, L₁, rfl, fun _ ↦ ⟨h₁, hkept₁⟩, nofun⟩
  | some a =>
    obtain ⟨s₂, o₂, hrun₂, hgets₂⟩ := h₁.request ha (m * esize) true
    obtain ⟨L₂, h₂, -, -⟩ := hgets₂.holds
    have hkept₂ : ∀ e ∈ E, e.Ok s₂ := fun e he ↦ (hkept₁ e he).congr hgets₂.address fun t ht ↦
      hgets₂.agree t (List.mem_append_right _
        (List.mem_append_right _ (List.mem_flatMap_of_mem he ht)))
    simp only [hgets₁.address, haddr, hmul, hrun₂, Exec.ok_bind]
    cases o₂ with
    | none =>
      exact ⟨s₂, none, L₂, rfl, fun _ ↦ ⟨h₂.sublist (List.sublist_cons_self _ _), hkept₂⟩, nofun⟩
    | some elts =>
      have hmem : (⟨a, sizeofArray⟩ : Range) ∈ (⟨elts, m * esize⟩ :: ⟨a, sizeofArray⟩ ::
          (U ++ E.flatMap Entry.ranges)) := List.mem_cons_of_mem _ List.mem_cons_self
      obtain ⟨-, hap⟩ := List.pairwise_cons.mp (List.pairwise_append.mp h₂.sound.apart).1
      have hothers : ∀ t ∈ U ++ E.flatMap Entry.ranges, Range.Disjoint ⟨a, sizeofArray⟩ t :=
        (List.pairwise_cons.mp hap).1
      have hallow := h₂.sound.allows (Holds.mem_user hmem)
      simp only [Arena.store_eq hallow, Exec.ok_bind]
      refine ⟨_, _, L₂, rfl, nofun, fun a' ha' ↦ ?_⟩
      obtain rfl := Option.some.inj ha'
      refine ⟨⟨elts, 0, esize, m, pool.start⟩, ?_, fun e he ↦ ?_⟩
      · have hstorage : storage ⟨elts, 0, esize, m, pool.start⟩ = ⟨elts, m * esize⟩ := by
          change Range.mk elts (esize * m) = _
          rw [Nat.mul_comm]
        have hperm := (perm_others U [] E ⟨a, ⟨elts, 0, esize, m, pool.start⟩, fun _ ↦ none⟩).symm
        rw [hstorage] at hperm
        exact (h₂.setMem hmem fun t ht ↦ Memory.agree_store _ _ ht).perm hperm
      · rcases List.mem_cons.mp he with rfl | he
        · refine ⟨Memory.holds_store _ _ (show 0 < 40 by decide), ⟨?_, hesize, hm, Nat.zero_le _, hlt⟩,
            nofun⟩
          exact (hgets₂.address.trans hgets₁.address).trans haddr
        · exact (hkept₂ e he).congr rfl fun t ht ↦ Memory.agree_store _ _ (hothers t
            (List.mem_append_right _ (List.mem_flatMap_of_mem he ht))).symm

/-- `dl_array_destroy`. -/
theorem arrayDestroy (h : Held size s U (pre ++ e :: post) L) :
    ∃ s', DlArray.arrayDestroy s e.addr = .ok s' ∧ Held size s' U (pre ++ post) L := by
  obtain ⟨hs, hok⟩ := h.split
  obtain ⟨b, rest, hblocks, hb⟩ := exists_poolOf hok.sane.pool
  have hkept : ∀ l, Holds size (setPoolLast s l) (others U pre post) L [] →
      Held size (setPoolLast s l) U (pre ++ post) L := fun l hl ↦
    ⟨hl, fun e' he' ↦ (h.entries e' (by
      rw [List.mem_append] at he'
      rcases he' with he' | he' <;> simp [he'])).congr (address_setPoolLast s l)
        fun t _ ↦ .refl t _⟩
  have hmul : mulSize e.hdr.size e.hdr.nalloc = e.hdr.size * e.hdr.nalloc := by
    have hlt := hok.sane.lt
    refine mulSize_eq ?_
    rw [Nat.mul_comm]
    omega
  have hpos : 0 < (storage e.hdr).size := Nat.mul_pos hok.sane.size_pos hok.sane.nalloc_pos
  have hhdr : 0 < e.header.size := show 0 < 40 by decide
  unfold DlArray.arrayDestroy
  rw [h.loadArray_eq, Exec.ok_bind, hb, Exec.ok_bind, hmul]
  by_cases hend : e.hdr.elts + e.hdr.size * e.hdr.nalloc = b.last
  · -- the elements are given back, and perhaps the header
    have h₁ := giveBack hs hblocks hpos hend
    have hlast : b.last - e.hdr.size * e.hdr.nalloc = e.hdr.elts := by omega
    simp only [if_pos hend, hlast]
    by_cases hend' : e.addr + sizeofArray = e.hdr.elts
    · have h₂ := giveBack h₁ (blocks_setPoolLast hblocks _) hhdr hend'
      have htwice : setPoolLast (setPoolLast s (storage e.hdr).base) e.header.base =
          setPoolLast s e.addr := by
        unfold setPoolLast
        rw [hblocks]
        rfl
      rw [htwice] at h₂
      rw [if_pos hend']
      exact ⟨_, rfl, hkept _ h₂⟩
    · rw [if_neg hend']
      exact ⟨_, rfl, hkept _ (h₁.sublist (List.sublist_cons_self _ _))⟩
  · have h₁ := hs.sublist (List.sublist_cons_self _ _)
    simp only [if_neg hend]
    by_cases hend' : e.addr + sizeofArray = b.last
    · rw [if_pos hend']
      exact ⟨_, rfl, hkept _ (giveBack h₁ hblocks hhdr hend')⟩
    · rw [if_neg hend']
      refine ⟨_, rfl, hkept _ ?_⟩
      rw [setPoolLast_last hblocks]
      exact h₁.sublist (List.sublist_cons_self _ _)

end Held

end Dlbase.DlArray
