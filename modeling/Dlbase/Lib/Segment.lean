import Dlbase.Lib.Circle

/-!
# Rings

A ring is a circular list whose head is linked back to the last node as well, so that no node of it
is special.  It is cut into segments, each of which leads from a node to another one and back; a
segment is led to another end by changing its last link.
-/

namespace Cmem

variable {R : Type _} {next prev next' prev' : R → Option R} {h n p q x y : R} {l l₁ l₂ k : List R}

/-- A path that leads back from its end as well. -/
structure Segment (next prev : R → Option R) (p : R) (l : List R) (q : R) : Prop where
  /-- The path. -/
  path : Path next prev p l q
  /-- The link back from the end. -/
  back : prev q = some (l.getLastD p)

/-- The nodes of the ring with the head `h`. -/
def IsRing (next prev : R → Option R) (h : R) (l : List R) : Prop := Segment next prev h l h

theorem getLastD_append_cons (p x : R) (l₁ l₂ : List R) :
    (l₁ ++ x :: l₂).getLastD p = l₂.getLastD x := by
  induction l₁ generalizing p with
  | nil => exact List.getLastD_cons
  | cons y l₁ ih => rw [List.cons_append, List.getLastD_cons, ih]

namespace Segment

/-- A segment is cut at one of its nodes. -/
theorem append_cons : Segment next prev p (l₁ ++ x :: l₂) q ↔
    Segment next prev p l₁ x ∧ Segment next prev x l₂ q := by
  have hlast := getLastD_append_cons p x l₁ l₂
  refine ⟨fun ⟨hp, hb⟩ ↦ ?_, fun ⟨⟨hp₁, hb₁⟩, hp₂, hb₂⟩ ↦ ?_⟩
  · obtain ⟨hp₁, hx, hp₂⟩ := Path.append_cons.mp hp
    exact ⟨⟨hp₁, hx⟩, hp₂, hlast ▸ hb⟩
  · exact ⟨Path.append_cons.mpr ⟨hp₁, hb₁, hp₂⟩, hlast ▸ hb₂⟩

theorem cons : Segment next prev p (x :: l) q ↔
    Segment next prev p [] x ∧ Segment next prev x l q := by
  have happ : Segment next prev p ([] ++ x :: l) q ↔ _ := append_cons
  exact happ

theorem nil (hnext : next p = some q) (hprev : prev q = some p) : Segment next prev p [] q :=
  ⟨hnext, hprev⟩

theorem congr (hs : Segment next prev p l q) (hnext : ∀ r ∈ p :: l, next' r = next r)
    (hprev : ∀ r ∈ l, prev' r = prev r) (hq : prev' q = prev q) : Segment next' prev' p l q :=
  ⟨hs.path.congr hnext hprev, hq.trans hs.back⟩

/-- The segment is led to `y`. -/
theorem redirect (hs : Segment next prev p l q) (hn : (p :: l).Nodup)
    (hnext : ∀ r ∈ p :: l, r ≠ l.getLastD p → next' r = next r)
    (hprev : ∀ r ∈ l, prev' r = prev r) (hlast : next' (l.getLastD p) = some y)
    (hy : prev' y = some (l.getLastD p)) : Segment next' prev' p l y :=
  ⟨hs.path.redirect hn hnext hlast hprev, hy⟩

/-- The link from the last node. -/
theorem next_last (hs : Segment next prev p l q) : next (l.getLastD p) = some q := by
  have hp := hs.path
  clear hs
  induction l generalizing p with
  | nil => exact hp
  | cons x l ih =>
    rw [List.getLastD_cons]
    exact ih hp.2.2

/-- The link to the first node. -/
theorem next_first (hs : Segment next prev p l q) : next p = some (l.headD q) := by
  cases l with
  | nil => exact hs.path
  | cons x l => exact hs.path.1

/-- Each node of a segment is linked. -/
theorem next_ne_none (hs : Segment next prev p l q) : ∀ r ∈ p :: l, next r ≠ none := by
  have hp := hs.path
  clear hs
  induction l generalizing p with
  | nil =>
    intro r hr
    rw [List.mem_singleton.mp hr, show next p = some q from hp]
    nofun
  | cons x l ih =>
    intro r hr
    rcases List.mem_cons.mp hr with rfl | hr
    · rw [hp.1]
      nofun
    · exact ih hp.2.2 r hr

end Segment

namespace IsRing

/-! ## Changing a ring -/

theorem ne_of_mem (hn : (h :: (l₁ ++ l₂)).Nodup) (hx : x ∈ h :: l₁) (hy : y ∈ l₂) : x ≠ y := by
  rintro rfl
  rw [← List.cons_append, List.nodup_append] at hn
  exact hn.2.2 x hx x hy rfl

theorem nodup_left (hn : (h :: (l₁ ++ l₂)).Nodup) : (h :: l₁).Nodup := by
  rw [← List.cons_append, List.nodup_append] at hn
  exact hn.1

theorem nodup_right (hn : (h :: (l₁ ++ l₂)).Nodup) : l₂.Nodup := by
  rw [← List.cons_append, List.nodup_append] at hn
  exact hn.2.1

/-- The head is not one of the nodes. -/
theorem head_ne (hn : (h :: l).Nodup) (hx : x ∈ l) : h ≠ x := by
  rintro rfl
  exact (List.nodup_cons.mp hn).1 hx

variable [DecidableEq R]

/-- A node is put in. -/
theorem insert (hr : IsRing next prev h (l₁ ++ l₂)) (hn : (h :: (l₁ ++ l₂)).Nodup)
    (hx : x ∉ h :: (l₁ ++ l₂)) :
    IsRing (Function.update (Function.update next x (some (l₂.headD h))) (l₁.getLastD h) (some x))
      (Function.update (Function.update prev (l₂.headD h) (some x)) x (some (l₁.getLastD h))) h
      (l₁ ++ x :: l₂) := by
  have hlast : l₁.getLastD h ∈ h :: l₁ := Path.getLastD_mem
  have hxl : ∀ r ∈ h :: l₁, r ≠ x := by
    rintro r hr rfl
    refine hx ?_
    rw [← List.cons_append]
    exact List.mem_append_left _ hr
  have hxr : ∀ r ∈ l₂, r ≠ x := by
    rintro r hr rfl
    exact hx (List.mem_cons_of_mem _ (List.mem_append_right _ hr))
  have hhead : l₂.headD h = h ∨ l₂.headD h ∈ l₂ := by
    cases l₂ with
    | nil => exact .inl rfl
    | cons y l₂ => exact .inr List.mem_cons_self
  have hs : Segment next prev h l₁ (l₂.headD h) := by
    cases l₂ with
    | nil => rwa [List.append_nil] at hr
    | cons y l₂ => exact (Segment.append_cons.mp hr).1
  have hsx : l₂.headD h ≠ x := by
    rcases hhead with heq | hm
    · rw [heq]
      exact hxl h List.mem_cons_self
    · exact hxr _ hm
  refine Segment.append_cons.mpr ⟨hs.redirect (nodup_left hn) (fun r hr hne ↦ ?_) (fun r hr ↦ ?_)
    (Function.update_self _ _ _) (Function.update_self _ _ _), ?_⟩
  · rw [Function.update_of_ne hne, Function.update_of_ne (hxl r hr)]
  · rw [Function.update_of_ne (hxl r (List.mem_cons_of_mem _ hr)), Function.update_of_ne]
    rcases hhead with heq | hm
    · rw [heq]
      exact (head_ne (nodup_left hn) hr).symm
    · exact ne_of_mem hn (List.mem_cons_of_mem _ hr) hm
  · have hnext : Function.update (Function.update next x (some (l₂.headD h))) (l₁.getLastD h)
        (some x) x = some (l₂.headD h) := by
      rw [Function.update_of_ne (hxl _ hlast).symm, Function.update_self]
    have hprev : Function.update (Function.update prev (l₂.headD h) (some x)) x
        (some (l₁.getLastD h)) (l₂.headD h) = some x := by
      rw [Function.update_of_ne hsx, Function.update_self]
    cases l₂ with
    | nil => exact .nil hnext hprev
    | cons y l₂ =>
      refine Segment.cons.mpr ⟨.nil hnext hprev, ?_⟩
      have hyl := (Segment.append_cons.mp hr).2
      have hy : ∀ r ∈ l₂, r ≠ y := fun r hm heq ↦
        (List.nodup_cons.mp (nodup_right hn)).1 (heq ▸ hm)
      rw [List.headD_cons]
      refine hyl.congr (fun r hr ↦ ?_) (fun r hr ↦ ?_) ?_
      · rw [Function.update_of_ne (ne_of_mem hn hlast hr).symm, Function.update_of_ne (hxr r hr)]
      · rw [Function.update_of_ne (hxr r (List.mem_cons_of_mem _ hr)),
          Function.update_of_ne (hy r hr)]
      · rw [Function.update_of_ne (hxl h List.mem_cons_self), Function.update_of_ne]
        exact ne_of_mem hn List.mem_cons_self List.mem_cons_self

/-- A node is taken out. -/
theorem remove (hr : IsRing next prev h (l₁ ++ x :: l₂)) (hn : (h :: (l₁ ++ x :: l₂)).Nodup) :
    IsRing (Function.update next (l₁.getLastD h) (some (l₂.headD h)))
      (Function.update prev (l₂.headD h) (some (l₁.getLastD h))) h (l₁ ++ l₂) := by
  refine ⟨Circle.unlink hr.path hn, ?_⟩
  cases l₂ with
  | nil => rw [List.append_nil, List.headD_nil, Function.update_self]
  | cons y l₂ =>
    have hy : h ≠ y := ne_of_mem hn List.mem_cons_self (List.mem_cons_of_mem _ List.mem_cons_self)
    rw [List.headD_cons, Function.update_of_ne hy, hr.back, getLastD_append_cons,
      getLastD_append_cons, List.getLastD_cons]

/-- A ring is cut in two in front of the node `q`; the node `n` is the head of the second one. -/
theorem split (hr : IsRing next prev h (l₁ ++ q :: l₂)) (hn : (h :: (l₁ ++ q :: l₂)).Nodup)
    (hx : n ∉ h :: (l₁ ++ q :: l₂))
    (hnext : next' = Function.update (Function.update
      (Function.update next (l₂.getLastD q) (some n)) n (some q)) (l₁.getLastD h) (some h))
    (hprev : prev' = Function.update (Function.update
      (Function.update prev n (some (l₂.getLastD q))) h (some (l₁.getLastD h))) q (some n)) :
    IsRing next' prev' h l₁ ∧ IsRing next' prev' n (q :: l₂) := by
  obtain ⟨hl, hq⟩ := Segment.append_cons.mp hr
  have hlast : l₁.getLastD h ∈ h :: l₁ := Path.getLastD_mem
  have hlast' : l₂.getLastD q ∈ q :: l₂ := Path.getLastD_mem
  have hnl : ∀ r ∈ h :: l₁, r ≠ n := by
    rintro r hr rfl
    refine hx ?_
    rw [← List.cons_append]
    exact List.mem_append_left _ hr
  have hnr : ∀ r ∈ q :: l₂, r ≠ n := by
    rintro r hr rfl
    exact hx (List.mem_cons_of_mem _ (List.mem_append_right _ hr))
  have hhq : h ≠ q := ne_of_mem hn List.mem_cons_self List.mem_cons_self
  subst hnext hprev
  refine ⟨hl.redirect (nodup_left hn) (fun r hr hne ↦ ?_) (fun r hr ↦ ?_) ?_ ?_,
    Segment.cons.mpr ⟨.nil ?_ ?_,
      hq.redirect (nodup_right hn) (fun r hr hne ↦ ?_) (fun r hr ↦ ?_) ?_ ?_⟩⟩
  · rw [Function.update_of_ne hne, Function.update_of_ne (hnl r hr),
      Function.update_of_ne (ne_of_mem hn hr hlast')]
  · rw [Function.update_of_ne (ne_of_mem hn (List.mem_cons_of_mem _ hr) List.mem_cons_self),
      Function.update_of_ne (head_ne (nodup_left hn) hr).symm,
      Function.update_of_ne (hnl r (List.mem_cons_of_mem _ hr))]
  · exact Function.update_self _ _ _
  · rw [Function.update_of_ne hhq, Function.update_self]
  · rw [Function.update_of_ne (hnl _ hlast).symm, Function.update_self]
  · exact Function.update_self _ _ _
  · rw [Function.update_of_ne (ne_of_mem hn hlast hr).symm, Function.update_of_ne (hnr r hr),
      Function.update_of_ne hne]
  · have hrq : r ≠ q := (head_ne (nodup_right hn) hr).symm
    rw [Function.update_of_ne hrq, Function.update_of_ne
      (ne_of_mem hn List.mem_cons_self (List.mem_cons_of_mem _ hr)).symm,
      Function.update_of_ne (hnr r (List.mem_cons_of_mem _ hr))]
  · rw [Function.update_of_ne (ne_of_mem hn hlast hlast').symm,
      Function.update_of_ne (hnr _ hlast'), Function.update_self]
  · rw [Function.update_of_ne (hnr q List.mem_cons_self).symm,
      Function.update_of_ne (hnl h List.mem_cons_self).symm, Function.update_self]

/-- The nodes of a ring are put behind those of another one. -/
theorem add (hr : IsRing next prev h l) (hk : IsRing next prev n (x :: k)) (hn : (h :: l).Nodup)
    (hn' : (x :: k).Nodup) (hdis : ∀ r ∈ h :: l, r ∉ x :: k)
    (hnext : next' = Function.update (Function.update next (l.getLastD h) (some x)) (k.getLastD x)
      (some h))
    (hprev : prev' = Function.update (Function.update prev x (some (l.getLastD h))) h
      (some (k.getLastD x))) :
    IsRing next' prev' h (l ++ x :: k) := by
  obtain ⟨-, hx⟩ := Segment.cons.mp hk
  have hlast : l.getLastD h ∈ h :: l := Path.getLastD_mem
  have hlast' : k.getLastD x ∈ x :: k := Path.getLastD_mem
  have hne {r s : R} (hr : r ∈ h :: l) (hs : s ∈ x :: k) : r ≠ s := by
    rintro rfl
    exact hdis r hr hs
  subst hnext hprev
  refine Segment.append_cons.mpr ⟨hr.redirect hn (fun r hr hr' ↦ ?_) (fun r hr ↦ ?_) ?_ ?_,
    hx.redirect hn' (fun r hr hr' ↦ ?_) (fun r hr ↦ ?_) ?_ ?_⟩
  · rw [Function.update_of_ne (hne hr hlast'), Function.update_of_ne hr']
  · rw [Function.update_of_ne (head_ne hn hr).symm,
      Function.update_of_ne (hne (List.mem_cons_of_mem _ hr) List.mem_cons_self)]
  · rw [Function.update_of_ne (hne hlast hlast'), Function.update_self]
  · rw [Function.update_of_ne (hne List.mem_cons_self List.mem_cons_self).symm,
      Function.update_self]
  · rw [Function.update_of_ne hr', Function.update_of_ne (hne hlast hr).symm]
  · rw [Function.update_of_ne (hne List.mem_cons_self (List.mem_cons_of_mem _ hr)).symm,
      Function.update_of_ne (head_ne hn' hr).symm]
  · exact Function.update_self _ _ _
  · exact Function.update_self _ _ _

end IsRing

end Cmem
