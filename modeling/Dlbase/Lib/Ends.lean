import Dlbase.Lib.Objects

/-!
# Executions that come to an end

An execution *ends* with a condition if it does not run on and what it returns meets the condition.
Unlike a statement about what is returned, this can be shown of the parts of an execution one after
the other; a fault other than running on is an end as well.
-/

namespace Cmem

namespace Exec

variable {α β : Type _} {x : Exec α} {f : α → Exec β} {P Q : α → Prop} {R : β → Prop} {a : α}

/-- The execution comes to an end, and what it returns meets `P`. -/
def Ends (x : Exec α) (P : α → Prop) : Prop := x ≠ timeout ∧ ∀ a, x = .ok a → P a

theorem ends_ok (h : P a) : Ends (.ok a) P :=
  ⟨nofun, fun _ heq ↦ Except.ok.inj heq ▸ h⟩

theorem ends_undef : Ends undef P := ⟨nofun, fun _ heq ↦ nomatch heq⟩

theorem ends_of_ne_timeout (h : x ≠ timeout) : Ends x fun a ↦ x = .ok a := ⟨h, fun _ heq ↦ heq⟩

theorem Ends.mono (h : Ends x P) (hPQ : ∀ a, P a → Q a) : Ends x Q :=
  ⟨h.1, fun a heq ↦ hPQ a (h.2 a heq)⟩

/-- Both parts of a sequence come to an end. -/
theorem Ends.bind (h : Ends x P) (hf : ∀ a, P a → Ends (f a) R) : Ends (x >>= f) R := by
  cases hx : x with
  | ok a => exact hf a (h.2 a hx)
  | error e =>
    refine ⟨fun ht ↦ h.1 ?_, fun b hb ↦ nomatch hb⟩
    rw [hx]
    cases e with
    | undefined => cases ht
    | timeout => rfl

end Exec

/-! ## Memory -/

namespace Objects

variable {O : Type _} (m : Objects O) (a : Nat)

theorem get_ne_timeout : m.get a ≠ Exec.timeout := by
  unfold get
  split <;> exact nofun

theorem put_ne_timeout (x : O) : m.put a x ≠ Exec.timeout := by
  unfold put
  split <;> exact nofun

theorem free_ne_timeout : m.free a ≠ Exec.timeout := by
  unfold free
  split <;> exact nofun

end Objects

end Cmem
