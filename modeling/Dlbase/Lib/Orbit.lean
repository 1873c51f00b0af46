import Mathlib

/-!
# Walks that come to an end

A walk goes from each point to at most one next point.  If all points that it comes to are in a
finite set, it stops if and only if it never comes back to a point.
-/

namespace Cmem

open Relation

variable {α : Type _} {next : α → Option α} {a b c : α}

/-- The walk goes from the first point to the second one. -/
def Step (next : α → Option α) (a b : α) : Prop := next a = some b

/-- The walk that begins at a point comes to an end. -/
inductive Stops (next : α → Option α) : α → Prop where
  /-- There is no next point. -/
  | here {a : α} : next a = none → Stops next a
  /-- It comes to an end from the next point on. -/
  | step {a b : α} : next a = some b → Stops next b → Stops next a

/-- The walk does not come back to a point. -/
def NoReturn (next : α → Option α) (a : α) : Prop :=
  ∀ b, ReflTransGen (Step next) a b → ¬ TransGen (Step next) b b

theorem Stops.tail (h : Stops next a) (hb : next a = some b) : Stops next b := by
  cases h with
  | here hn => exact nomatch hn.symm.trans hb
  | step hc hs =>
    obtain rfl := Option.some.inj (hc.symm.trans hb)
    exact hs

/-- Each point is followed by one other point. -/
theorem transGen_of_step (h : TransGen (Step next) a c) (hb : next a = some b) :
    ReflTransGen (Step next) b c := by
  obtain ⟨d, hd, hdc⟩ := TransGen.head'_iff.mp h
  obtain rfl := Option.some.inj (hb.symm.trans hd)
  exact hdc

theorem Stops.not_transGen (h : Stops next a) : ¬ TransGen (Step next) a a := by
  induction h with
  | here hn =>
    intro hcycle
    obtain ⟨d, hd, -⟩ := TransGen.head'_iff.mp hcycle
    exact nomatch hn.symm.trans hd
  | step hb _ ih =>
    exact fun hcycle ↦ ih (TransGen.tail' (transGen_of_step hcycle hb) hb)

/-- A walk that stops does not come back. -/
theorem Stops.noReturn (h : Stops next a) : NoReturn next a := by
  intro b hb
  induction hb using ReflTransGen.head_induction_on with
  | refl => exact h.not_transGen
  | head hab _ ih => exact ih (h.tail hab)

/-- A walk among finitely many points that does not come back stops. -/
theorem NoReturn.stops {S : Set α} (h : NoReturn next a) (hS : S.Finite)
    (hin : ∀ b, ReflTransGen (Step next) a b → b ∈ S) : Stops next a := by
  let T := {b : α // ReflTransGen (Step next) a b}
  have hfin : Finite T := (hS.subset fun b hb ↦ hin b hb).to_subtype
  let r : T → T → Prop := fun x y ↦ TransGen (Step next) y.1 x.1
  have : IsTrans T r := ⟨fun _ _ _ hxy hyz ↦ hyz.trans hxy⟩
  have : Std.Irrefl r := ⟨fun x ↦ h x.1 x.2⟩
  have hwf : WellFounded r := Finite.wellFounded_of_trans_of_irrefl r
  have hall : ∀ x : T, Stops next x.1 := by
    intro x
    induction x using hwf.induction with
    | h x ih =>
      cases hx : next x.1 with
      | none => exact .here hx
      | some b => exact .step hx (ih ⟨b, x.2.tail hx⟩ (.single hx))
  exact hall ⟨a, .refl⟩

end Cmem
