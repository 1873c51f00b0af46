import Dlbase.Lib.Exec

/-!
# A memory of objects

Objects are created at addresses that are free, and freed again; using an object that is not there
has no meaning.  What is known of a memory is a multiset of cells, each an address with the object
at it: the memory *holds* the cells if each of them is there and no two are at one address.  Each
operation needs the cells that it works on and leaves all others alone.
-/

namespace Cmem

/-- The objects at their addresses. -/
abbrev Objects (O : Type _) := Nat → Option O

/-- A multiset of cells. -/
abbrev Cells (O : Type _) := Multiset (Nat × O)

variable {O : Type _} {m : Objects O} {H H' : Cells O} {a : Nat} {x : O}

namespace Objects

/-- All addresses from some address on are free. -/
def Finite (m : Objects O) : Prop := ∃ N, ∀ a, N ≤ a → m a = none

/-- Reading an object. -/
def get (m : Objects O) (a : Nat) : Exec O :=
  match m a with
  | some x => .ok x
  | none => Exec.undef

/-- The memory after `x` has been put at `a`. -/
def set (m : Objects O) (a : Nat) (x : O) : Objects O := Function.update m a (some x)

/-- Writing to an object. -/
def put (m : Objects O) (a : Nat) (x : O) : Exec (Objects O) :=
  if m a = none then Exec.undef else .ok (m.set a x)

/-- `free`. -/
def free (m : Objects O) (a : Nat) : Exec (Objects O) :=
  if m a = none then Exec.undef else .ok (Function.update m a none)

end Objects

/-- A `malloc` that does not fail as long as there are free addresses. -/
structure Allocator (O : Type _) where
  /-- The address that is chosen. -/
  run : Objects O → Nat
  /-- The address is free. -/
  fresh : ∀ m : Objects O, m.Finite → m (run m) = none

/-- The `malloc` that chooses the least address. -/
noncomputable def Allocator.least (O : Type _) : Allocator O where
  run m := sInf {a | m a = none}
  fresh m := fun ⟨N, hN⟩ ↦ Nat.sInf_mem (s := {a | m a = none}) ⟨N, hN N (Nat.le_refl N)⟩

/-- The `malloc` that chooses the address `a` if it is free. -/
noncomputable def Allocator.prefer (O : Type _) (a : Nat) : Allocator O where
  run m := match m a with
    | none => a
    | some _ => (Allocator.least O).run m
  fresh m hm := by
    cases ha : m a with
    | none => exact ha
    | some x => exact (Allocator.least O).fresh m hm

/-- A cell. -/
def cell (a : Nat) (x : O) : Cells O := {(a, x)}

/-- The memory holds the cells. -/
structure Holds (m : Objects O) (H : Cells O) : Prop where
  /-- The objects are there. -/
  get : ∀ e ∈ H, m e.1 = some e.2
  /-- They are at different addresses. -/
  nodup : (H.map Prod.fst).Nodup
  /-- There is room for more. -/
  finite : m.Finite

namespace Holds

theorem of_eq (h : Holds m H) (he : H = H') : Holds m H' := he ▸ h

theorem get_eq (h : Holds m H) (hx : (a, x) ∈ H) : m.get a = .ok x := by
  rw [Objects.get, h.get _ hx]

theorem finite_set (h : m.Finite) (a : Nat) (o : Option O) :
    Objects.Finite (Function.update m a o) := by
  obtain ⟨N, hN⟩ := h
  refine ⟨max N (a + 1), fun b hb ↦ ?_⟩
  rw [Function.update_of_ne (by omega)]
  exact hN b (by omega)

theorem mem_cell : (a, x) ∈ cell a x + H :=
  Multiset.mem_add.mpr (.inl (Multiset.mem_singleton_self _))

theorem left (h : Holds m (H + H')) : Holds m H where
  get e he := h.get e (Multiset.mem_add.mpr (.inl he))
  nodup := by
    have hn := h.nodup
    rw [Multiset.map_add] at hn
    exact Multiset.nodup_of_le (Multiset.le_add_right _ _) hn
  finite := h.finite

/-- A cell is at no address of the others. -/
theorem ne (h : Holds m (cell a x + H)) {e : Nat × O} (he : e ∈ H) : e.1 ≠ a := by
  have hn := h.nodup
  rw [cell, Multiset.singleton_add, Multiset.map_cons, Multiset.nodup_cons] at hn
  intro heq
  exact hn.1 (Multiset.mem_map.mpr ⟨e, he, heq⟩)

theorem ne_none (h : Holds m (cell a x + H)) : m a ≠ none := by
  have hx : m a = some x := h.get _ mem_cell
  rw [hx]
  exact nofun

theorem put_eq (h : Holds m (cell a x + H)) (y : O) : m.put a y = .ok (m.set a y) := by
  rw [Objects.put, if_neg h.ne_none]

theorem set (h : Holds m (cell a x + H)) (y : O) : Holds (m.set a y) (cell a y + H) where
  get e he := by
    rcases Multiset.mem_add.mp he with he | he
    · obtain rfl := Multiset.mem_singleton.mp he
      exact Function.update_self _ _ _
    · rw [Objects.set, Function.update_of_ne (h.ne he)]
      exact h.get e (Multiset.mem_add.mpr (.inr he))
  nodup := by
    simpa only [cell, Multiset.singleton_add, Multiset.map_cons] using h.nodup
  finite := finite_set h.finite a _

theorem empty (h : m.Finite) : Holds m 0 := ⟨nofun, Multiset.nodup_zero, h⟩

/-- An object at an address of which nothing is known. -/
theorem insert (h : Holds m H) (ha : ∀ e ∈ H, e.1 ≠ a) (x : O) :
    Holds (m.set a x) (cell a x + H) where
  get e he := by
    rcases Multiset.mem_add.mp he with he | he
    · obtain rfl := Multiset.mem_singleton.mp he
      exact Function.update_self _ _ _
    · rw [Objects.set, Function.update_of_ne (ha e he)]
      exact h.get e he
  nodup := by
    rw [cell, Multiset.singleton_add, Multiset.map_cons, Multiset.nodup_cons]
    refine ⟨fun hmem ↦ ?_, h.nodup⟩
    obtain ⟨e, he, heq⟩ := Multiset.mem_map.mp hmem
    exact ha e he heq
  finite := finite_set h.finite _ _

/-- A new object. -/
theorem alloc (h : Holds m H) (A : Allocator O) (x : O) :
    Holds (m.set (A.run m) x) (cell (A.run m) x + H) := by
  refine h.insert (fun e he heq ↦ ?_) x
  have hfree := A.fresh m h.finite
  rw [← heq, h.get e he] at hfree
  cases hfree

theorem free (h : Holds m (cell a x + H)) :
    ∃ m', m.free a = .ok m' ∧ Holds m' H := by
  refine ⟨_, if_neg h.ne_none, fun e he ↦ ?_, ?_, finite_set h.finite _ _⟩
  · rw [Function.update_of_ne (h.ne he)]
    exact h.get e (Multiset.mem_add.mpr (.inr he))
  · have hn := h.nodup
    rw [cell, Multiset.singleton_add, Multiset.map_cons, Multiset.nodup_cons] at hn
    exact hn.2

end Holds

end Cmem
