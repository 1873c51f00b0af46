import Mathlib

/-!
# Circular lists

A doubly linked list whose first and last node are linked to a head.  The links are two partial
functions; what the nodes are, and what else they hold, does not matter.  The head has no use for a
link back.

A node is taken out, put in at the front, or replaced, by changing one link of each neighbour.
-/

namespace Cmem

variable {R : Type _} {next prev next' prev' : R → Option R} {h p q x y : R}
  {l l₁ l₂ : List R}

/-- The links lead from `p` through `l` to `q`, and back to `p`, but for `q`. -/
def Path (next prev : R → Option R) : R → List R → R → Prop
  | p, [], q => next p = some q
  | p, x :: l, q => next p = some x ∧ prev x = some p ∧ Path next prev x l q

/-- The nodes of the list with the head `h`. -/
def Circle (next prev : R → Option R) (h : R) (l : List R) : Prop := Path next prev h l h

namespace Path

theorem congr (hp : Path next prev p l q) (hnext : ∀ r ∈ p :: l, next' r = next r)
    (hprev : ∀ r ∈ l, prev' r = prev r) : Path next' prev' p l q := by
  induction l generalizing p with
  | nil => exact (hnext p List.mem_cons_self).trans hp
  | cons x l ih =>
    obtain ⟨hx, hback, hp⟩ := hp
    exact ⟨(hnext p List.mem_cons_self).trans hx, (hprev x List.mem_cons_self).trans hback,
      ih hp (fun r hr ↦ hnext r (List.mem_cons_of_mem _ hr))
        fun r hr ↦ hprev r (List.mem_cons_of_mem _ hr)⟩

/-- The links begin with the first node. -/
theorem next_first (hp : Path next prev p l q) : next p = some (l.headD q) := by
  cases l with
  | nil => exact hp
  | cons x l => exact hp.1

/-- A path is cut at one of its nodes. -/
theorem append_cons : Path next prev p (l₁ ++ x :: l₂) q ↔
    Path next prev p l₁ x ∧ prev x = some (l₁.getLastD p) ∧ Path next prev x l₂ q := by
  induction l₁ generalizing p with
  | nil => exact Iff.rfl
  | cons y l₁ ih =>
    rw [List.cons_append, Path, Path, ih, List.getLastD_cons, and_assoc, and_assoc]

theorem getLastD_mem : l.getLastD p ∈ p :: l := by
  induction l generalizing p with
  | nil => exact List.mem_cons_self
  | cons x l ih =>
    rw [List.getLastD_cons]
    exact List.mem_cons_of_mem _ ih

/-- The last link of a path is changed. -/
theorem redirect (hp : Path next prev p l q) (hn : (p :: l).Nodup)
    (hnext : ∀ r ∈ p :: l, r ≠ l.getLastD p → next' r = next r)
    (hlast : next' (l.getLastD p) = some y) (hprev : ∀ r ∈ l, prev' r = prev r) :
    Path next' prev' p l y := by
  induction l generalizing p with
  | nil => exact hlast
  | cons x l ih =>
    obtain ⟨hx, hback, hp⟩ := hp
    rw [List.getLastD_cons] at hlast hnext
    rw [List.nodup_cons] at hn
    have hne : p ≠ l.getLastD x := fun heq ↦ hn.1 (heq ▸ getLastD_mem)
    exact ⟨(hnext p List.mem_cons_self hne).trans hx, (hprev x List.mem_cons_self).trans hback,
      ih hp hn.2 (fun r hr ↦ hnext r (List.mem_cons_of_mem _ hr)) hlast
        fun r hr ↦ hprev r (List.mem_cons_of_mem _ hr)⟩

end Path

namespace Circle

theorem congr (hc : Circle next prev h l) (hnext : ∀ r ∈ h :: l, next' r = next r)
    (hprev : ∀ r ∈ l, prev' r = prev r) : Circle next' prev' h l := Path.congr hc hnext hprev

/-- The head is linked to the first node. -/
theorem next_head (hc : Circle next prev h l) : next h = some (l.headD h) := Path.next_first hc

/-- The list is empty if the head is linked to itself. -/
theorem eq_nil (hc : Circle next prev h l) (hn : (h :: l).Nodup) (hnext : next h = some h) :
    l = [] := by
  cases l with
  | nil => rfl
  | cons x l =>
    obtain rfl : h = x := Option.some.inj (hnext.symm.trans hc.1)
    exact absurd List.mem_cons_self (List.nodup_cons.mp hn).1

theorem next_ne_none (hc : Circle next prev h l) (hx : x ∈ l) : next x ≠ none := by
  obtain ⟨l₁, l₂, rfl⟩ := List.append_of_mem hx
  obtain ⟨-, -, hp⟩ := Path.append_cons.mp hc
  cases l₂ with
  | nil => rw [hp]; nofun
  | cons y l₂ => rw [hp.1]; nofun

/-- The neighbours of a node. -/
theorem neighbours (hc : Circle next prev h (l₁ ++ x :: l₂)) :
    prev x = some (l₁.getLastD h) ∧ next x = some (l₂.headD h) := by
  obtain ⟨-, hprev, hp⟩ := Path.append_cons.mp hc
  refine ⟨hprev, ?_⟩
  cases l₂ with
  | nil => exact hp
  | cons y l₂ => exact hp.1

theorem headD_mem : l.headD h ∈ h :: l := by
  cases l with
  | nil => exact List.mem_cons_self
  | cons x l => exact List.mem_cons_of_mem _ List.mem_cons_self

variable [DecidableEq R]

/-- A node is taken out. -/
theorem unlink (hc : Circle next prev h (l₁ ++ x :: l₂)) (hn : (h :: (l₁ ++ x :: l₂)).Nodup) :
    Circle (Function.update next (l₁.getLastD h) (some (l₂.headD h)))
      (Function.update prev (l₂.headD h) (some (l₁.getLastD h))) h (l₁ ++ l₂) := by
  obtain ⟨h₁, -, h₂⟩ := Path.append_cons.mp hc
  have hmem : l₁.getLastD h ∈ h :: l₁ := Path.getLastD_mem
  simp only [List.nodup_cons, List.nodup_append, List.mem_append, List.mem_cons] at hn hmem
  obtain ⟨hh, hn₁, ⟨hx, hn₂⟩, hdis⟩ := hn
  have hn₁ : (h :: l₁).Nodup := List.nodup_cons.mpr ⟨fun hm ↦ hh (.inl hm), hn₁⟩
  cases l₂ with
  | nil =>
    rw [List.append_nil]
    refine h₁.redirect hn₁ (fun r _ hr ↦ Function.update_of_ne hr _ _) (Function.update_self _ _ _)
      fun r hr ↦ Function.update_of_ne ?_ _ _
    rintro rfl
    exact hh (.inl hr)
  | cons y l₂ =>
    obtain ⟨-, -, h₂⟩ := h₂
    refine Path.append_cons.mpr ⟨?_, Function.update_self _ _ _, ?_⟩
    · refine h₁.redirect hn₁ (fun r _ hr ↦ Function.update_of_ne hr _ _)
        (Function.update_self _ _ _) fun r hr ↦ Function.update_of_ne ?_ _ _
      rintro rfl
      exact hdis _ hr _ (.inr List.mem_cons_self) rfl
    · refine h₂.congr (fun r hr ↦ Function.update_of_ne ?_ _ _)
        fun r hr ↦ Function.update_of_ne ?_ _ _
      · rintro rfl
        rcases hmem with heq | hm
        · exact hh (.inr (.inr (heq ▸ hr)))
        · exact hdis _ hm _ (.inr hr) rfl
      · rintro rfl
        exact (List.nodup_cons.mp hn₂).1 hr

/-- A node is put in at the front. -/
theorem push (hc : Circle next prev h l) (hn : (h :: l).Nodup) (hx : x ∉ h :: l) :
    Circle (Function.update (Function.update next x (some (l.headD h))) h (some x))
      (Function.update (Function.update prev (l.headD h) (some x)) x (some h)) h (x :: l) := by
  rw [List.mem_cons, not_or] at hx
  rw [List.nodup_cons] at hn
  refine ⟨Function.update_self _ _ _, Function.update_self _ _ _, ?_⟩
  have hnext : Function.update (Function.update next x (some (l.headD h))) h (some x) x =
      some (l.headD h) := by
    rw [Function.update_of_ne hx.1, Function.update_self]
  cases l with
  | nil => exact hnext
  | cons y l =>
    obtain ⟨-, -, hp⟩ := hc
    have hyx : y ≠ x := fun heq ↦ hx.2 (heq ▸ List.mem_cons_self)
    refine ⟨hnext, ?_, hp.congr (fun r hr ↦ ?_) fun r hr ↦ ?_⟩
    · rw [Function.update_of_ne hyx]
      exact Function.update_self _ _ _
    · rw [Function.update_of_ne, Function.update_of_ne]
      · rintro rfl
        exact hx.2 hr
      · rintro rfl
        exact hn.1 hr
    · rw [Function.update_of_ne, Function.update_of_ne]
      · rintro rfl
        exact (List.nodup_cons.mp hn.2).1 hr
      · rintro rfl
        exact hx.2 (List.mem_cons_of_mem _ hr)

/-- A node is replaced by another one. -/
theorem replace (hc : Circle next prev h (l₁ ++ x :: l₂)) (hn : (h :: (l₁ ++ x :: l₂)).Nodup)
    (hy : y ∉ h :: (l₁ ++ x :: l₂)) :
    Circle (Function.update (Function.update next y (some (l₂.headD h))) (l₁.getLastD h) (some y))
      (Function.update (Function.update prev y (some (l₁.getLastD h))) (l₂.headD h) (some y)) h
      (l₁ ++ y :: l₂) := by
  obtain ⟨h₁, -, h₂⟩ := Path.append_cons.mp hc
  have hlast : l₁.getLastD h ∈ h :: l₁ := Path.getLastD_mem
  have hhead : l₂.headD h ∈ h :: l₂ := headD_mem
  simp only [List.nodup_cons, List.nodup_append, List.mem_append, List.mem_cons, not_or] at hn hy
  simp only [List.mem_cons] at hlast hhead
  obtain ⟨hh, hn₁, ⟨hx, hn₂⟩, hdis⟩ := hn
  have hn₁ : (h :: l₁).Nodup := List.nodup_cons.mpr ⟨hh.1, hn₁⟩
  have hylast : l₁.getLastD h ≠ y := by
    rintro rfl
    exact hlast.elim hy.1 hy.2.1
  have hyhead : l₂.headD h ≠ y := by
    rintro rfl
    exact hhead.elim hy.1 hy.2.2.2
  refine Path.append_cons.mpr ⟨?_, ?_, ?_⟩
  · refine h₁.redirect hn₁ (fun r hr hne ↦ ?_) (Function.update_self _ _ _) fun r hr ↦ ?_
    · rw [Function.update_of_ne hne, Function.update_of_ne]
      rintro rfl
      exact (List.mem_cons.mp hr).elim hy.1 hy.2.1
    · rw [Function.update_of_ne, Function.update_of_ne]
      · rintro rfl
        exact hy.2.1 hr
      · rintro rfl
        exact hhead.elim (fun heq ↦ hh.1 (heq ▸ hr)) fun hm ↦ hdis _ hr _ (.inr hm) rfl
  · rw [Function.update_of_ne (Ne.symm hyhead), Function.update_self]
  · have hnext : Function.update (Function.update next y (some (l₂.headD h))) (l₁.getLastD h)
        (some y) y = some (l₂.headD h) := by
      rw [Function.update_of_ne (Ne.symm hylast), Function.update_self]
    cases l₂ with
    | nil => exact hnext
    | cons z l₂ =>
      obtain ⟨-, -, h₂⟩ := h₂
      refine ⟨hnext, Function.update_self _ _ _, h₂.congr (fun r hr ↦ ?_) fun r hr ↦ ?_⟩
      · rw [Function.update_of_ne, Function.update_of_ne]
        · rintro rfl
          exact hy.2.2.2 hr
        · rintro rfl
          exact hlast.elim (fun heq ↦ hh.2.2 (heq ▸ hr)) fun hm ↦ hdis _ hm _ (.inr hr) rfl
      · rw [Function.update_of_ne, Function.update_of_ne]
        · rintro rfl
          exact hy.2.2.2 (List.mem_cons_of_mem _ hr)
        · rintro rfl
          exact (List.nodup_cons.mp hn₂).1 hr

end Circle

end Cmem
