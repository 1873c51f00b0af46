import Dlbase.Lib.Exec

/-!
# Executions with a log

An execution that writes down what it does.  Without the log it is an ordinary execution; what it
has written is told by rules for sequences.
-/

namespace Cmem

/-- A computation that writes a log of events. -/
abbrev Logged (E : Type) := WriterT (List E) Exec

variable {E α β : Type} {x : Logged E α} {y : Exec α} {a : α} {b : β} {l l' : List E}

/-- The computation returns a value and has written a log. -/
def Yields (x : Logged E α) (a : α) (l : List E) : Prop := x.run = .ok (a, l)

namespace Yields

theorem pure (a : α) : Yields (E := E) (Pure.pure a) a [] := rfl

theorem lift (h : y = .ok a) : Yields (E := E) (liftM y) a [] := by
  rw [h]
  rfl

theorem tell (l : List E) : Yields (MonadWriter.tell l : Logged E PUnit) () l := rfl

/-- The log of a sequence. -/
theorem bind {f : α → Logged E β} (h : Yields x a l) (h' : Yields (f a) b l') :
    Yields (x >>= f) b (l ++ l') := by
  change (x.run >>= fun e ↦ (fun e' ↦ (e'.1, e.2 ++ e'.2)) <$> (f e.1).run) = _
  rw [h, Exec.ok_bind, h']
  rfl

/-- A sequence that begins with a computation without a log. -/
theorem lift_bind {f : α → Logged E β} (h : y = .ok a) (h' : Yields (f a) b l) :
    Yields (liftM y >>= f) b l := (lift h).bind h'

/-- A sequence that begins with an entry of the log. -/
theorem tell_bind {f : PUnit → Logged E β} (h : Yields (f ()) b l') :
    Yields (MonadWriter.tell l >>= f) b (l ++ l') := (tell l).bind h

/-- A sequence that ends without a log. -/
theorem bind_nil {f : α → Logged E β} (h : Yields x a l) (h' : Yields (f a) b []) :
    Yields (x >>= f) b l := by
  have hbind := h.bind h'
  rwa [List.append_nil] at hbind

end Yields

/-- A sequence of runs that return. -/
theorem Returns.bind_run {x : Nat → Logged E α} {f : Nat → α → Logged E β}
    (h : Returns (fun fuel ↦ (x fuel).run) (a, l))
    (h' : Returns (fun fuel ↦ (f fuel a).run) (b, l')) :
    Returns (fun fuel ↦ (x fuel >>= f fuel).run) (b, l ++ l') := by
  obtain ⟨N, hN⟩ := h
  obtain ⟨N', hN'⟩ := h'
  refine ⟨max N N', fun fuel hf ↦ Yields.bind (hN fuel ?_) (hN' fuel ?_)⟩
  · exact Nat.le_trans (Nat.le_max_left N N') hf
  · exact Nat.le_trans (Nat.le_max_right N N') hf

/-- Without its log the computation is an ordinary one. -/
def Erases (x : Logged E α) (y : Exec α) : Prop := (Prod.fst <$> x.run : Exec α) = y

namespace Erases

theorem pure (a : α) : Erases (E := E) (Pure.pure a) (Pure.pure a) := rfl

theorem lift (y : Exec α) : Erases (E := E) (liftM y) y := by
  cases y <;> rfl

theorem bind {f : α → Logged E β} {g : α → Exec β} (h : Erases x y)
    (hf : ∀ a, Erases (f a) (g a)) : Erases (x >>= f) (y >>= g) := by
  subst h
  change (Prod.fst <$> (x.run >>= fun e ↦ (fun e' ↦ (e'.1, e.2 ++ e'.2)) <$> (f e.1).run)) = _
  cases hx : x.run with
  | error e => rfl
  | ok e =>
    change (Prod.fst <$> ((fun e' ↦ (e'.1, e.2 ++ e'.2)) <$> (f e.1).run) : Exec β) = g e.1
    rw [← hf e.1]
    cases (f e.1).run <;> rfl

/-- What is written at the end is erased. -/
theorem bind_right {f : α → Logged E α} (h : Erases x y) (hf : ∀ a, Erases (f a) (Pure.pure a)) :
    Erases (x >>= f) y := by
  have hbind := h.bind hf
  rwa [bind_pure] at hbind

/-- What is only written down is erased. -/
theorem tell_bind {f : PUnit → Logged E β} {z : Exec β} (l : List E) (hf : Erases (f ()) z) :
    Erases (MonadWriter.tell l >>= f) z := by
  subst hf
  change (Prod.fst <$> ((fun e' ↦ (e'.1, l ++ e'.2)) <$> (f ()).run) : Exec β) = _
  cases (f ()).run <;> rfl

theorem ite {p : Prop} [Decidable p] {x' : Logged E α} {y' : Exec α} (h : Erases x y)
    (h' : Erases x' y') : Erases (if p then x else x') (if p then y else y') := by
  split_ifs
  · exact h
  · exact h'

theorem eq_ok (h : Erases x y) (hx : Yields x a l) : y = .ok a := by
  subst h
  rw [hx]
  rfl

/-- An execution that returns has written a log. -/
theorem yields (h : Erases x y) (hy : y = .ok a) : ∃ l, Yields x a l := by
  subst h
  cases hx : x.run with
  | error e =>
    rw [hx] at hy
    cases hy
  | ok e =>
    rw [hx] at hy
    obtain rfl := Except.ok.inj hy
    exact ⟨e.2, hx⟩

end Erases

end Cmem
