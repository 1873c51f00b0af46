import Dlbase.Lib.Objects

/-!
# Memories of which everything is known

A memory *is* a multiset of cells if it holds them and nothing else.  An operation that keeps such a
statement up neither loses an object nor leaves one behind.
-/

namespace Cmem

variable {O : Type _} {m m' : Objects O} {H H' : Cells O} {a : Nat} {x y : O}

/-- The memory holds the cells and nothing else. -/
structure Exactly (m : Objects O) (H : Cells O) : Prop extends Holds m H where
  /-- Every object is one of the cells. -/
  only : ∀ a x, m a = some x → (a, x) ∈ H

namespace Exactly

theorem of_eq (h : Exactly m H) (he : H = H') : Exactly m H' := he ▸ h

theorem mem_iff (h : Exactly m H) : (a, x) ∈ H ↔ m a = some x :=
  ⟨fun hx ↦ h.get _ hx, h.only a x⟩

/-- There is one memory with these cells. -/
theorem unique (h : Exactly m H) (h' : Exactly m' H) : m = m' := by
  funext a
  apply Option.ext
  intro x
  exact h.mem_iff.symm.trans h'.mem_iff

theorem nil : Exactly (fun _ ↦ none) (0 : Cells O) :=
  ⟨.empty ⟨0, fun _ _ ↦ rfl⟩, fun _ _ hx ↦ nomatch hx⟩

/-- An object gets other contents. -/
theorem set (h : Exactly m (cell a x + H)) (y : O) : Exactly (m.set a y) (cell a y + H) where
  toHolds := h.toHolds.set y
  only b z hz := by
    by_cases hb : b = a
    · subst hb
      rw [Objects.set, Function.update_self] at hz
      obtain rfl := Option.some.inj hz
      exact Holds.mem_cell
    · rw [Objects.set, Function.update_of_ne hb] at hz
      rcases Multiset.mem_add.mp (h.only b z hz) with he | he
      · exact absurd (congrArg Prod.fst (Multiset.mem_singleton.mp he)) hb
      · exact Multiset.mem_add.mpr (.inr he)

/-- A new object. -/
theorem alloc (h : Exactly m H) (A : Allocator O) (x : O) :
    Exactly (m.set (A.run m) x) (cell (A.run m) x + H) where
  toHolds := h.toHolds.alloc A x
  only b z hz := by
    by_cases hb : b = A.run m
    · subst hb
      rw [Objects.set, Function.update_self] at hz
      obtain rfl := Option.some.inj hz
      exact Holds.mem_cell
    · rw [Objects.set, Function.update_of_ne hb] at hz
      exact Multiset.mem_add.mpr (.inr (h.only b z hz))

theorem free (h : Exactly m (cell a x + H)) : ∃ m', m.free a = .ok m' ∧ Exactly m' H := by
  obtain ⟨m', hfree, hm'⟩ := h.toHolds.free
  refine ⟨m', hfree, hm', fun b z hz ↦ ?_⟩
  have hm : m' = Function.update m a none := by
    rw [Objects.free, if_neg h.ne_none] at hfree
    exact (Except.ok.inj hfree).symm
  subst hm
  by_cases hb : b = a
  · subst hb
    rw [Function.update_self] at hz
    cases hz
  · rw [Function.update_of_ne hb] at hz
    rcases Multiset.mem_add.mp (h.only b z hz) with he | he
    · exact absurd (congrArg Prod.fst (Multiset.mem_singleton.mp he)) hb
    · exact he

theorem put_eq (h : Exactly m (cell a x + H)) (y : O) :
    m.put a y = .ok (m.set a y) := h.toHolds.put_eq y

theorem get_eq (h : Exactly m (cell a x + H)) : m.get a = .ok x := h.toHolds.get_eq Holds.mem_cell

end Exactly

/-- Changing an object. -/
def Objects.modify (m : Objects O) (a : Nat) (f : O → O) : Exec (Objects O) := do
  let x ← m.get a
  m.put a (f x)

theorem Exactly.modify (h : Exactly m (cell a x + H)) (f : O → O) :
    ∃ m', m.modify a f = .ok m' ∧ Exactly m' (cell a (f x) + H) := by
  refine ⟨_, ?_, h.set (f x)⟩
  rw [Objects.modify, h.get_eq, Exec.ok_bind]
  exact h.put_eq (f x)

end Cmem
