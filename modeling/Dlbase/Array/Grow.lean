import Dlbase.Array.Place

/-!
# Growing an array

A full array keeps its elements when it grows, whether in place or not.
-/

namespace Dlbase.DlArray

open Cmem Pool

variable {size : Nat} {s s' : State} {V : List Range} {L : List (Nat × Range)}
  {C : List (Nat × Option Nat × Option Nat)} {r : Pool.Array} {alloc : Malloc Value}

/-- The memory of the elements. -/
def storage (r : Pool.Array) : Range := ⟨r.elts, r.size * r.nalloc⟩

/-- The header of an array is in order. -/
structure Sane (s : State) (r : Pool.Array) : Prop where
  /-- The array belongs to the pool. -/
  pool : s.address = some r.pool
  /-- The elements have a size. -/
  size_pos : 0 < r.size
  /-- There is room for an element. -/
  nalloc_pos : 0 < r.nalloc
  /-- The elements fit. -/
  nelts_le : r.nelts ≤ r.nalloc
  /-- The size of the memory is in the range of `int`. -/
  lt : r.nalloc * r.size < 2 ^ 31

theorem mulSize_eq {a b : Nat} (h : a * b < 2 ^ 64) : mulSize a b = a * b := Nat.mod_eq_of_lt h

theorem toInt_eq {n : Nat} (h : n < 2 ^ 31) : toInt n = .ok n := if_pos h

theorem exists_poolOf (h : s.address = some r.pool) :
    ∃ b rest, s.blocks = b :: rest ∧ poolOf s r = .ok b := by
  unfold State.address at h
  cases hb : s.blocks with
  | nil =>
    rw [hb] at h
    cases h
  | cons b rest =>
    rw [hb] at h
    refine ⟨b, rest, rfl, ?_⟩
    rw [poolOf, hb]
    exact if_pos (Option.some.inj h)

/-- The array `r` has become `r'` with room for `more` elements, and nothing else has changed. -/
structure Grown (size : Nat) (s : State) (r : Pool.Array) (more : Nat) (V : List Range)
    (L' : List (Nat × Range)) (C : List (Nat × Option Nat × Option Nat)) (s' : State)
    (r' : Pool.Array) : Prop where
  /-- The new memory of the elements has taken the place of the old one. -/
  holds : Holds size s' (storage r' :: V) L' C
  /-- The header is in order. -/
  sane : Sane s' r'
  /-- The size of an element is the same. -/
  size_eq : r'.size = r.size
  /-- The number of elements is the same. -/
  nelts_eq : r'.nelts = r.nelts
  /-- There is enough room. -/
  room : r.nelts + more ≤ r'.nalloc
  /-- The elements are the same. -/
  same : ∀ i < r.nelts * r.size, s'.heap.mem (r'.elts + i) = s.heap.mem (r.elts + i)

theorem toInt_of_le {n m k : Nat} (hk : 0 < k) (hn : n ≤ m) (h : m * k < 2 ^ 31) :
    toInt n = .ok n :=
  toInt_eq (Nat.lt_of_le_of_lt (Nat.le_trans hn (Nat.le_mul_of_pos_right m hk)) h)

theorem arrayGrow_spec {more nalloc : Nat} (h : Holds size s (storage r :: V) L C)
    (ha : alloc.Sound) (hr : Sane s r) (hcap : r.nalloc + more ≤ nalloc)
    (hlt : nalloc * r.size < 2 ^ 31) :
    ∃ s' o L', arrayGrow alloc s r more nalloc (nalloc * r.size) (r.nelts * r.size) = .ok (s', o) ∧
      s'.address = s.address ∧ (∀ t ∈ V, Memory.Agree t s.heap.mem s'.heap.mem) ∧
      (o = none → Holds size s' (storage r :: V) L' C ∧
        Memory.Agree (storage r) s.heap.mem s'.heap.mem) ∧
      ∀ r' ∈ o, Grown size s r more V L' C s' r' := by
  obtain ⟨hpool, hsize, hnalloc, hnelts, hbytes⟩ := hr
  obtain ⟨b, rest, hs, hb⟩ := exists_poolOf hpool
  have hmore : (r.nalloc + more) * r.size ≤ nalloc * r.size := Nat.mul_le_mul_right _ hcap
  have hmul : (r.nalloc + more) * r.size = r.nalloc * r.size + more * r.size := Nat.add_mul ..
  have hstore : mulSize r.size r.nalloc = r.size * r.nalloc := by
    refine mulSize_eq ?_
    rw [Nat.mul_comm]
    omega
  have hext : mulSize more r.size = more * r.size := mulSize_eq (by omega)
  have hpos : 0 < (storage r).size := Nat.mul_pos hsize hnalloc
  unfold arrayGrow
  simp only [hb, hstore, hext, Exec.ok_bind]
  by_cases hin : r.elts + r.size * r.nalloc = b.last ∧ b.last + more * r.size ≤ b.end
  · -- the elements end at the cursor, which is moved
    rw [if_pos hin, toInt_of_le hsize hcap hlt, Exec.ok_bind]
    have hstorage : storage { r with nalloc := r.nalloc + more } =
        ⟨(storage r).base, (storage r).size + more * r.size⟩ := by
      change Range.mk r.elts (r.size * (r.nalloc + more)) = ⟨r.elts, r.size * r.nalloc + more * r.size⟩
      rw [Nat.mul_comm, hmul, Nat.mul_comm r.size]
    have hheld := enlarge h hs hpos hin.1 hin.2
    rw [← hstorage] at hheld
    refine ⟨_, _, L, rfl, address_setPoolLast s _, fun t _ ↦ .refl t _, nofun, fun r' hr' ↦ ?_⟩
    obtain rfl := Option.some.inj hr'
    exact ⟨hheld, ⟨(address_setPoolLast s _).trans hpool, hsize, Nat.lt_of_lt_of_le hnalloc
      (Nat.le_add_right _ _), Nat.le_trans hnelts (Nat.le_add_right _ _),
      Nat.lt_of_le_of_lt hmore hlt⟩, rfl, rfl, Nat.add_le_add_right hnelts more, fun i _ ↦ rfl⟩
  · -- the elements are moved
    rw [if_neg hin, toInt_of_le hsize (Nat.le_refl _) hlt, Exec.ok_bind]
    obtain ⟨s₁, o, hrun, hgets⟩ := h.request ha (nalloc * r.size) true
    obtain ⟨L', h₁, -, -⟩ := hgets.holds
    have hagree := hgets.agree
    unfold palloc
    simp only [hrun, Exec.ok_bind]
    cases o with
    | none =>
      exact ⟨s₁, none, L', rfl, hgets.address, fun t ht ↦ hagree t (List.mem_cons_of_mem _ ht),
        fun _ ↦ ⟨h₁, hagree _ List.mem_cons_self⟩, nofun⟩
    | some new =>
      have hcopied : r.nelts * r.size ≤ nalloc * r.size :=
        Nat.mul_le_mul_right _ (by omega)
      have hnew : ⟨new, nalloc * r.size⟩ ∈ (⟨new, nalloc * r.size⟩ :: storage r :: V) :=
        List.mem_cons_self
      have hold : storage r ∈ (⟨new, nalloc * r.size⟩ :: storage r :: V) :=
        List.mem_cons_of_mem _ List.mem_cons_self
      have hto : Range.Within ⟨new, r.nelts * r.size⟩ ⟨new, nalloc * r.size⟩ :=
        ⟨Nat.le_refl _, Nat.add_le_add_left hcopied _⟩
      have hfrom : Range.Within ⟨r.elts, r.nelts * r.size⟩ (storage r) := by
        refine ⟨Nat.le_refl _, Nat.add_le_add_left ?_ _⟩
        change r.nelts * r.size ≤ r.size * r.nalloc
        rw [Nat.mul_comm r.size]
        exact Nat.mul_le_mul_right _ hnelts
      have hallow := (h₁.sound.allows (Holds.mem_user hnew)).within hto
      have hallow' := (h₁.sound.allows (Holds.mem_user hold)).within hfrom
      have hap := (List.pairwise_cons.mp (List.pairwise_append.mp h₁.sound.apart).1).1
      simp only [Arena.copy_eq hallow hallow', Exec.ok_bind]
      have hcopy : ∀ t : Range, t.Disjoint ⟨new, nalloc * r.size⟩ →
          Memory.Agree t s₁.heap.mem (s₁.heap.mem.copy ⟨new, r.nelts * r.size⟩ r.elts) :=
        fun t ht ↦ Memory.agree_copy _ _ (ht.symm.within hto).symm
      have h₂ := h₁.setMem hnew hcopy
      refine ⟨_, _, L', rfl, hgets.address, fun t ht ↦ ?_, nofun, fun r' hr' ↦ ?_⟩
      · exact (hagree t (List.mem_cons_of_mem _ ht)).trans
          (hcopy t (hap t (List.mem_cons_of_mem _ ht)).symm)
      · obtain rfl := Option.some.inj hr'
        have hstorage : storage { r with elts := new, nalloc } = ⟨new, nalloc * r.size⟩ := by
          change Range.mk new (r.size * nalloc) = _
          rw [Nat.mul_comm]
        refine ⟨?_, ⟨hgets.address.trans hpool, hsize, by dsimp only; omega, by dsimp only; omega,
          hlt⟩, rfl, rfl, by dsimp only; omega, fun i hi ↦ ?_⟩
        · rw [hstorage]
          exact h₂.sublist ((List.sublist_cons_self _ _).cons_cons _)
        · change (s₁.heap.mem.copy ⟨new, r.nelts * r.size⟩ r.elts) (new + i) = _
          rw [Memory.copy, if_pos (Range.mem_iff.mpr ⟨Nat.le_add_right _ _, Nat.add_lt_add_left hi _⟩),
            Nat.add_sub_cancel_left]
          refine hagree _ List.mem_cons_self _ (hfrom.mem (Range.mem_iff.mpr
            ⟨Nat.le_add_right _ _, Nat.add_lt_add_left hi _⟩))

end Dlbase.DlArray
