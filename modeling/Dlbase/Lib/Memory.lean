import Dlbase.Lib.Exec

/-!
# Memory that holds values of different sizes

A value of size `n` that is stored at the address `a` takes the addresses from `a` to `a + n - 1`.
It can be read back as long as none of them has been written since.

An arena is such a memory together with the blocks that `malloc` has handed out.  Reading or writing
outside of these blocks has no meaning, nor has freeing anything else.
-/

namespace Cmem

/-- The `size` addresses from `base` on. -/
structure Range where
  /-- The first address. -/
  base : Nat
  /-- The number of addresses. -/
  size : Nat
deriving DecidableEq, Repr

namespace Range

instance : Membership Nat Range := ⟨fun r x ↦ r.base ≤ x ∧ x < r.base + r.size⟩

variable {r t u : Range} {x : Nat}

theorem mem_iff : x ∈ r ↔ r.base ≤ x ∧ x < r.base + r.size := Iff.rfl

instance : Decidable (x ∈ r) := decidable_of_iff _ mem_iff.symm

/-- The ranges have no address in common. -/
def Disjoint (r t : Range) : Prop :=
  r.size = 0 ∨ t.size = 0 ∨ r.base + r.size ≤ t.base ∨ t.base + t.size ≤ r.base

instance : Decidable (r.Disjoint t) := inferInstanceAs (Decidable (_ ∨ _))

/-- The range `r` is a part of `t`. -/
def Within (r t : Range) : Prop := t.base ≤ r.base ∧ r.base + r.size ≤ t.base + t.size

instance : Decidable (r.Within t) := inferInstanceAs (Decidable (_ ∧ _))

theorem disjoint_iff : r.Disjoint t ↔ ∀ x ∈ r, x ∉ t := by
  simp only [Disjoint, mem_iff]
  refine ⟨fun h x hx ht ↦ by omega, fun h ↦ ?_⟩
  have hr := h r.base
  have ht := h t.base
  omega

theorem Disjoint.symm (h : r.Disjoint t) : t.Disjoint r := by
  unfold Disjoint at *
  omega

instance : Std.Symm Disjoint := ⟨fun _ _ h ↦ h.symm⟩

theorem Disjoint.within (h : r.Disjoint t) (hu : u.Within r) : u.Disjoint t := by
  unfold Disjoint Within at *
  omega

theorem Disjoint.not_mem (h : r.Disjoint t) (hx : x ∈ r) : x ∉ t := disjoint_iff.mp h x hx

theorem Within.mem (h : r.Within t) (hx : x ∈ r) : x ∈ t := by
  unfold Within at h
  rw [mem_iff] at *
  omega

theorem Within.refl (r : Range) : r.Within r := ⟨Nat.le_refl _, Nat.le_refl _⟩

theorem Within.trans (h : r.Within t) (h' : t.Within u) : r.Within u := by
  unfold Within at *
  omega

end Range

/-! ## Values in memory -/

/-- What the addresses hold: the `i`-th byte of a value, or nothing that could be read. -/
abbrev Memory (V : Type _) := Nat → Option (V × Nat)

namespace Memory

variable {V : Type _} {m m' : Memory V} {r t : Range} {v w : V} {x : Nat}

/-- The memory after `v` has been stored at `r`. -/
def store (m : Memory V) (r : Range) (v : V) : Memory V :=
  fun x ↦ if x ∈ r then some (v, x - r.base) else m x

/-- The memory after the values `f 0`, `f 1`, … of size one have been stored at `r`. -/
def write (m : Memory V) (r : Range) (f : Nat → V) : Memory V :=
  fun x ↦ if x ∈ r then some (f (x - r.base), 0) else m x

/-- The memory after `r` has been given other contents, of which nothing is known. -/
def clear (m : Memory V) (r : Range) : Memory V := fun x ↦ if x ∈ r then none else m x

/-- The memory after `size` addresses from `src` on have been copied to `r`. -/
def copy (m : Memory V) (r : Range) (src : Nat) : Memory V :=
  fun x ↦ if x ∈ r then m (src + (x - r.base)) else m x

/-- The memory holds the value `v` at `r`. -/
def Holds (m : Memory V) (r : Range) (v : V) : Prop :=
  0 < r.size ∧ ∀ i < r.size, m (r.base + i) = some (v, i)

/-- The memories agree on `r`. -/
def Agree (r : Range) (m m' : Memory V) : Prop := ∀ x ∈ r, m' x = m x

/-- The value at `r`. -/
def load [DecidableEq V] (m : Memory V) (r : Range) : Option V :=
  match m r.base with
  | some (v, 0) => if ∀ i < r.size, m (r.base + i) = some (v, i) then some v else none
  | _ => none

theorem Holds.load_eq [DecidableEq V] (h : m.Holds r v) : m.load r = some v := by
  obtain ⟨hpos, hall⟩ := h
  have hbase : m r.base = some (v, 0) := hall 0 hpos
  simp only [load, hbase]
  exact if_pos hall

theorem Holds.congr (h : m.Holds r v) (ha : Agree r m m') : m'.Holds r v := by
  refine ⟨h.1, fun i hi ↦ ?_⟩
  rw [ha _ (Range.mem_iff.mpr (by omega)), h.2 i hi]

theorem Agree.refl (r : Range) (m : Memory V) : Agree r m m := fun _ _ ↦ rfl

theorem Agree.trans {m'' : Memory V} (h : Agree r m m') (h' : Agree r m' m'') : Agree r m m'' :=
  fun x hx ↦ (h' x hx).trans (h x hx)

theorem holds_store (m : Memory V) (v : V) (hr : 0 < r.size) : (m.store r v).Holds r v := by
  refine ⟨hr, fun i hi ↦ ?_⟩
  rw [store, if_pos (Range.mem_iff.mpr (by omega)), Nat.add_sub_cancel_left]

theorem agree_store (m : Memory V) (v : V) (h : t.Disjoint r) : Agree t m (m.store r v) :=
  fun _ hx ↦ if_neg (h.not_mem hx)

theorem agree_write (m : Memory V) (f : Nat → V) (h : t.Disjoint r) : Agree t m (m.write r f) :=
  fun _ hx ↦ if_neg (h.not_mem hx)

theorem agree_clear (m : Memory V) (h : t.Disjoint r) : Agree t m (m.clear r) :=
  fun _ hx ↦ if_neg (h.not_mem hx)

theorem agree_copy (m : Memory V) (a : Nat) (h : t.Disjoint r) : Agree t m (m.copy r a) :=
  fun _ hx ↦ if_neg (h.not_mem hx)

/-! ## Linked lists of records -/

/-- `Chain cell size m p L`: the pointer `p` leads to records of `size` bytes at the addresses in
`L`, each of which holds `cell x next` for the `x` next to its address. -/
def Chain {α : Type _} (cell : α → Option Nat → V) (size : Nat) (m : Memory V) :
    Option Nat → List (Nat × α) → Prop
  | p, [] => p = none
  | p, (a, x) :: L => p = some a ∧ ∃ next, m.Holds ⟨a, size⟩ (cell x next) ∧ Chain cell size m next L

theorem Chain.congr {α : Type _} {cell : α → Option Nat → V} {size : Nat} {p : Option Nat}
    {L : List (Nat × α)} (h : Chain cell size m p L)
    (ha : ∀ e ∈ L, Agree ⟨e.1, size⟩ m m') : Chain cell size m' p L := by
  induction L generalizing p with
  | nil => exact h
  | cons e L ih =>
    obtain ⟨rfl, next, hholds, hnext⟩ := h
    exact ⟨rfl, next, hholds.congr (ha e List.mem_cons_self),
      ih hnext fun e he ↦ ha e (List.mem_cons_of_mem _ he)⟩

/-- One of the records gets other contents. -/
theorem Chain.set {α : Type _} {cell : α → Option Nat → V} {size a : Nat} {p : Option Nat} {x : α}
    {L L' : List (Nat × α)} (h : Chain cell size m p (L ++ (a, x) :: L')) (hs : 0 < size)
    (hd : ∀ e ∈ L ++ L', Range.Disjoint ⟨e.1, size⟩ ⟨a, size⟩) :
    ∃ next, m.Holds ⟨a, size⟩ (cell x next) ∧
      ∀ y, Chain cell size (m.store ⟨a, size⟩ (cell y next)) p (L ++ (a, y) :: L') := by
  induction L generalizing p with
  | nil =>
    obtain ⟨rfl, next, hholds, hnext⟩ := h
    exact ⟨next, hholds, fun y ↦ ⟨rfl, next, holds_store _ _ hs,
      hnext.congr fun e he ↦ agree_store _ _ (hd e he)⟩⟩
  | cons e L ih =>
    obtain ⟨rfl, q, hholds, hq⟩ := h
    obtain ⟨next, hx, hall⟩ := ih hq fun e he ↦ hd e (List.mem_cons_of_mem _ he)
    exact ⟨next, hx, fun y ↦ ⟨rfl, q, hholds.congr (agree_store _ _ (hd e List.mem_cons_self)),
      hall y⟩⟩

end Memory

/-! ## Arenas -/

/-- A memory and the blocks in it that may be used. -/
structure Arena (V : Type _) where
  /-- The contents. -/
  mem : Memory V
  /-- The blocks that have been handed out and not been freed. -/
  regions : List Range

/-- What `malloc` does: the address of a block of the given size, unless there is no memory. -/
abbrev Malloc (V : Type _) := Arena V → Nat → Option Nat

/-- The contract of `malloc`: the block is new, aligned to 16 bytes, and lies in the lower half of
the address space. -/
structure Malloc.Sound {V : Type _} (malloc : Malloc V) : Prop where
  /-- The block is aligned. -/
  aligned : ∀ {h n a}, malloc h n = some a → 16 ∣ a
  /-- The block is not at the null pointer. -/
  pos : ∀ {h n a}, malloc h n = some a → 0 < a
  /-- The block does not reach into the upper half. -/
  lt : ∀ {h n a}, malloc h n = some a → a + n < 2 ^ 63
  /-- The block has nothing in common with the others. -/
  fresh : ∀ {h n a}, malloc h n = some a → ∀ r ∈ h.regions, Range.Disjoint ⟨a, n⟩ r

namespace Arena

variable {V : Type _} {h h' : Arena V} {r t g : Range} {a n : Nat}

/-- `malloc(n)`. -/
def malloc (h : Arena V) (alloc : Malloc V) (n : Nat) : Arena V × Option Nat :=
  match alloc h n with
  | none => (h, none)
  | some a => (⟨h.mem.clear ⟨a, n⟩, ⟨a, n⟩ :: h.regions⟩, some a)

/-- `free(a)`. -/
def free (h : Arena V) (a : Nat) : Exec (Arena V) :=
  if ∃ r ∈ h.regions, r.base = a then
    .ok { h with regions := h.regions.filter (·.base ≠ a) }
  else
    Exec.undef

/-- The range lies in one of the blocks. -/
def Allows (h : Arena V) (r : Range) : Prop := ∃ g ∈ h.regions, r.Within g

instance : Decidable (h.Allows r) := inferInstanceAs (Decidable (∃ g ∈ h.regions, r.Within g))

/-- Storing a value. -/
def store (h : Arena V) (r : Range) (v : V) : Exec (Arena V) :=
  if h.Allows r then .ok { h with mem := h.mem.store r v } else Exec.undef

/-- Writing values of size one. -/
def write (h : Arena V) (r : Range) (f : Nat → V) : Exec (Arena V) :=
  if h.Allows r then .ok { h with mem := h.mem.write r f } else Exec.undef

/-- `memcpy(r, src, size)`. -/
def copy (h : Arena V) (r : Range) (src : Nat) : Exec (Arena V) :=
  if h.Allows r ∧ h.Allows ⟨src, r.size⟩ then .ok { h with mem := h.mem.copy r src }
  else Exec.undef

/-- Reading a value. -/
def load [DecidableEq V] (h : Arena V) (r : Range) : Exec V :=
  if h.Allows r then
    match h.mem.load r with
    | some v => .ok v
    | none => Exec.undef
  else
    Exec.undef

theorem load_eq [DecidableEq V] {v : V} (ha : h.Allows r) (hv : h.mem.Holds r v) :
    h.load r = .ok v := by
  rw [load, if_pos ha, hv.load_eq]

theorem store_eq {v : V} (ha : h.Allows r) :
    h.store r v = .ok { h with mem := h.mem.store r v } := if_pos ha

theorem write_eq {f : Nat → V} (ha : h.Allows r) :
    h.write r f = .ok { h with mem := h.mem.write r f } := if_pos ha

theorem copy_eq (ha : h.Allows r) (hs : h.Allows ⟨a, r.size⟩) :
    h.copy r a = .ok { h with mem := h.mem.copy r a } := if_pos ⟨ha, hs⟩

theorem Allows.within (ha : h.Allows r) (ht : t.Within r) : h.Allows t := by
  obtain ⟨g, hg, hr⟩ := ha
  exact ⟨g, hg, ht.trans hr⟩

/-- The blocks are apart from each other. -/
structure Wf (h : Arena V) : Prop where
  /-- Every block has an address. -/
  size_pos : ∀ r ∈ h.regions, 0 < r.size
  /-- No two blocks overlap. -/
  disjoint : h.regions.Pairwise Range.Disjoint

theorem Wf.eq_of_base_eq (hw : h.Wf) (hr : r ∈ h.regions) (ht : t ∈ h.regions)
    (he : r.base = t.base) : r = t := by
  by_contra hne
  have hd : r.Disjoint t := hw.disjoint.forall hr ht hne
  have hrs := hw.size_pos r hr
  have hts := hw.size_pos t ht
  unfold Range.Disjoint at hd
  omega

/-- A new block is added to the others. -/
theorem Wf.cons {alloc : Malloc V} (hw : h.Wf) (hs : alloc.Sound) (ha : alloc h n = some a)
    (hn : 0 < n) (m : Memory V) : Wf ⟨m, ⟨a, n⟩ :: h.regions⟩ where
  size_pos r hr := by
    rcases List.mem_cons.mp hr with rfl | hr
    · exact hn
    · exact hw.size_pos r hr
  disjoint := List.pairwise_cons.mpr ⟨hs.fresh ha, hw.disjoint⟩

theorem free_eq (hr : r ∈ h.regions) :
    h.free r.base = .ok { h with regions := h.regions.filter (·.base ≠ r.base) } :=
  if_pos ⟨r, hr, rfl⟩

/-- The other blocks are still there. -/
theorem Wf.mem_filter (hw : h.Wf) (hr : r ∈ h.regions) :
    t ∈ h.regions.filter (·.base ≠ r.base) ↔ t ∈ h.regions ∧ t ≠ r := by
  rw [List.mem_filter]
  refine and_congr_right fun ht ↦ ?_
  rw [decide_eq_true_eq]
  exact not_congr ⟨hw.eq_of_base_eq ht hr, congrArg Range.base⟩

theorem Wf.filter (hw : h.Wf) (p : Range → Bool) (m : Memory V) : Wf ⟨m, h.regions.filter p⟩ where
  size_pos r hr := hw.size_pos r (List.mem_filter.mp hr).1
  disjoint := hw.disjoint.filter p

/-- The first address behind all blocks. -/
def top (h : Arena V) : Nat := h.regions.foldr (fun r t ↦ max (r.base + r.size) t) 0

theorem le_top (hr : r ∈ h.regions) : r.base + r.size ≤ h.top := by
  unfold top
  generalize h.regions = l at hr ⊢
  induction l with
  | nil => cases hr
  | cons t ts ih =>
    rw [List.foldr_cons]
    rcases List.mem_cons.mp hr with rfl | hr
    · exact Nat.le_max_left _ _
    · exact Nat.le_trans (ih hr) (Nat.le_max_right _ _)

/-- An allocator that never uses an address twice. -/
def bump : Malloc V := fun h n ↦
  let a := (h.top / 16 + 1) * 16
  if a + n < 2 ^ 63 then some a else none

theorem bump_sound : Malloc.Sound (bump (V := V)) := by
  have hbump : ∀ {h : Arena V} {n a}, bump h n = some a →
      a = (h.top / 16 + 1) * 16 ∧ a + n < 2 ^ 63 := by
    intro h n a ha
    unfold bump at ha
    dsimp only at ha
    split_ifs at ha with hlt
    obtain rfl := Option.some.inj ha
    exact ⟨rfl, hlt⟩
  refine ⟨fun ha ↦ ?_, fun ha ↦ ?_, fun ha ↦ (hbump ha).2, fun ha r hr ↦ ?_⟩
  · rw [(hbump ha).1]
    exact Nat.dvd_mul_left _ _
  · have := (hbump ha).1
    omega
  · have := (hbump ha).1
    have := le_top hr
    unfold Range.Disjoint
    dsimp only
    omega

end Arena

end Cmem
