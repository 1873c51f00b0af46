import Mathlib

/-!
# Executions that may go wrong or run on

A C function is modelled as a computation in `Exec`, which returns a value or
stops with a `Fault`: the code dereferenced a null pointer, read outside an
object or used one after its end (`undefined`), or it did not come to an end
within the number of nested calls or loop rounds it was given (`timeout`).

Recursive functions and loops without a structural measure take that number as
a `fuel` argument.  A run is a function of the fuel, and what it does is read
off its behaviour for all large fuels: it `Returns` a value, it `Terminates`, or
it `Diverges`.
-/

namespace Cmem

/-- Why an execution yields no value. -/
inductive Fault where
  /-- The code did something the language gives no meaning to. -/
  | undefined
  /-- The code was still running when its fuel was spent. -/
  | timeout
deriving DecidableEq, Repr

/-- A computation that returns a value or faults. -/
abbrev Exec := Except Fault

variable {α β : Type _}

namespace Exec

/-- The computation that has no defined meaning. -/
def undef : Exec α := .error .undefined

/-- The computation that has used up its fuel. -/
def timeout : Exec α := .error .timeout

@[simp] theorem ok_bind (a : α) (f : α → Exec β) : ((.ok a : Exec α) >>= f) = f a := rfl

@[simp] theorem error_bind (e : Fault) (f : α → Exec β) :
    ((.error e : Exec α) >>= f) = .error e := rfl

@[simp] theorem undef_bind (f : α → Exec β) : ((undef : Exec α) >>= f) = undef := rfl

@[simp] theorem timeout_bind (f : α → Exec β) : ((timeout : Exec α) >>= f) = timeout := rfl

@[simp] theorem pure_eq_ok (a : α) : (pure a : Exec α) = .ok a := rfl

@[simp] theorem undef_ne_ok (a : α) : (undef : Exec α) ≠ .ok a := nofun

@[simp] theorem timeout_ne_ok (a : α) : (timeout : Exec α) ≠ .ok a := nofun

@[simp] theorem undef_ne_timeout : (undef : Exec α) ≠ timeout := nofun

@[simp] theorem ok_and (q : Prop) [Decidable q] (x : Exec Bool) :
    ((.ok (decide q) : Exec Bool) <&&> x) = if q then x else .ok false := by
  by_cases hq : q <;> simp [andM, toBool, hq]

/-- What is only defined under a condition returns when that holds. -/
theorem ite_undef_eq_ok {p : Prop} [Decidable p] {x : Exec α} {a : α} :
    (if p then x else undef) = .ok a ↔ p ∧ x = .ok a := by
  by_cases hp : p <;> simp [hp]

/-- A sequence returns when both of its parts do. -/
theorem bind_eq_ok {x : Exec α} {f : α → Exec β} {b : β} :
    (x >>= f) = .ok b ↔ ∃ a, x = .ok a ∧ f a = .ok b := by
  cases x <;> simp

/-- A sequence times out in its first part or, when that returns, in its second. -/
theorem bind_eq_timeout {x : Exec α} {f : α → Exec β} :
    (x >>= f) = timeout ↔ x = timeout ∨ ∃ a, x = .ok a ∧ f a = timeout := by
  cases x <;> simp [timeout]

end Exec

/-! ## More fuel

An execution *extends* another when it does the same, unless the other one timed out.  Functions
with a fuel argument only extend what they do when they are given more of it. -/

namespace Exec

/-- `y` does what `x` does, unless `x` ran out of fuel. -/
def Extends (x y : Exec α) : Prop := x = timeout ∨ x = y

theorem Extends.refl (x : Exec α) : Extends x x := .inr rfl

theorem Extends.timeout (y : Exec α) : Extends timeout y := .inl rfl

theorem Extends.trans {x y z : Exec α} (h : Extends x y) (h' : Extends y z) : Extends x z := by
  rcases h with rfl | rfl
  · exact .inl rfl
  · exact h'

theorem Extends.bind {x y : Exec α} {f g : α → Exec β} (h : Extends x y)
    (hf : ∀ a, Extends (f a) (g a)) : Extends (x >>= f) (y >>= g) := by
  rcases h with rfl | rfl
  · exact .inl rfl
  · cases x with
    | error e => exact .refl _
    | ok a => exact hf a

theorem Extends.bind_right (x : Exec α) {f g : α → Exec β} (hf : ∀ a, Extends (f a) (g a)) :
    Extends (x >>= f) (x >>= g) := (Extends.refl x).bind hf

theorem Extends.ite {p : Prop} [Decidable p] {x x' y y' : Exec α} (h : Extends x x')
    (h' : Extends y y') : Extends (if p then x else y) (if p then x' else y') := by
  split_ifs
  · exact h
  · exact h'

theorem Extends.eq_ok {x y : Exec α} {a : α} (h : Extends x y) (hx : x = .ok a) : y = .ok a := by
  rcases h with rfl | rfl
  · cases hx
  · exact hx

end Exec

/-! ## Runs as functions of their fuel -/

/-- One more unit of fuel extends the run. -/
def Steady (run : Nat → Exec α) : Prop := ∀ fuel, Exec.Extends (run fuel) (run (fuel + 1))

/-- With enough fuel the run returns `r`. -/
def Returns (run : Nat → Exec α) (r : α) : Prop :=
  ∃ N, ∀ fuel, N ≤ fuel → run fuel = .ok r

/-- With enough fuel the run comes to an end, by returning or by a fault. -/
def Terminates (run : Nat → Exec α) : Prop :=
  ∃ N, ∀ fuel, N ≤ fuel → run fuel ≠ .timeout

/-- No amount of fuel brings the run to an end. -/
def Diverges (run : Nat → Exec α) : Prop :=
  ∀ fuel, run fuel = .timeout

theorem Steady.le {run : Nat → Exec α} (h : Steady run) {n m : Nat} (hnm : n ≤ m) :
    Exec.Extends (run n) (run m) := by
  induction hnm with
  | refl => exact .refl _
  | step _ ih => exact ih.trans (h _)

/-- A steady run returns what it returns with some fuel. -/
theorem Steady.returns {run : Nat → Exec α} (h : Steady run) {n : Nat} {r : α}
    (hr : run n = .ok r) : Returns run r :=
  ⟨n, fun _ hm ↦ (h.le hm).eq_ok hr⟩

/-- A run returns one value at most. -/
theorem Returns.unique {run : Nat → Exec α} {r r' : α} (h : Returns run r)
    (h' : Returns run r') : r = r' := by
  obtain ⟨N, hN⟩ := h
  obtain ⟨M, hM⟩ := h'
  have hr := (hN (max N M) (Nat.le_max_left N M)).symm.trans (hM (max N M) (Nat.le_max_right N M))
  exact Except.ok.inj hr

theorem Returns.terminates {run : Nat → Exec α} {r : α} (h : Returns run r) :
    Terminates run := by
  obtain ⟨N, hN⟩ := h
  exact ⟨N, fun fuel hf hto ↦ nomatch (hN fuel hf).symm.trans hto⟩

theorem Diverges.not_terminates {run : Nat → Exec α} (h : Diverges run) :
    ¬ Terminates run := fun ⟨N, hN⟩ ↦ hN N (Nat.le_refl N) (h N)

/-- A sequence returns what its second part does. -/
theorem Returns.bind {β : Type _} {run : Nat → Exec α} {run' : Nat → α → Exec β} {r : α} {r' : β}
    (h : Returns run r) (h' : Returns (fun fuel ↦ run' fuel r) r') :
    Returns (fun fuel ↦ run fuel >>= run' fuel) r' := by
  obtain ⟨N, hN⟩ := h
  obtain ⟨M, hM⟩ := h'
  refine ⟨max N M, fun fuel hf ↦ ?_⟩
  change (run fuel >>= run' fuel) = _
  rw [hN fuel (Nat.le_trans (Nat.le_max_left N M) hf), Exec.ok_bind]
  exact hM fuel (Nat.le_trans (Nat.le_max_right N M) hf)

/-- One unit of fuel is enough. -/
theorem returns_of_succ {run : Nat → Exec α} {r : α} (h : ∀ fuel, run (fuel + 1) = .ok r) :
    Returns run r := by
  refine ⟨1, fun fuel hf ↦ ?_⟩
  obtain ⟨fuel, rfl⟩ := Nat.exists_eq_add_of_le' hf
  exact h fuel

/-- One unit of fuel is spent, and the run goes on with the rest of it. -/
theorem Returns.succ {run run' : Nat → Exec α} {r : α} (h : Returns run' r)
    (hrun : ∀ fuel, run (fuel + 1) = run' fuel) : Returns run r := by
  obtain ⟨N, hN⟩ := h
  refine ⟨N + 1, fun fuel hf ↦ ?_⟩
  obtain ⟨fuel, rfl⟩ := Nat.exists_eq_add_of_le' (Nat.le_trans (Nat.le_add_left 1 N) hf)
  exact (hrun fuel).trans (hN fuel (Nat.le_of_succ_le_succ hf))

/-- A run that returns can be looked at with some fuel at which it does. -/
theorem Returns.exists_fuel {run : Nat → Exec α} {r : α} (h : Returns run r) :
    ∃ fuel, run fuel = .ok r := by
  obtain ⟨N, hN⟩ := h
  exact ⟨N, hN N (Nat.le_refl N)⟩

end Cmem
