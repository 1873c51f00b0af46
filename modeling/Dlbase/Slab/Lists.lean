import Dlbase.Slab.Shape

/-!
# The lists of a pool

Taking a page out of a list, putting one in, and replacing one: in each case only links of the
list change, and all descriptors still say the same.
-/

namespace Dlbase.Slab

open Cmem

variable {s s' : Pool} {r q h h' x : Ref} {l l' l₁ l₂ : List Ref} {t : PageType} {p : Page}
  {f g : Page → Page}

theorem next_put_of_eq (hf : (f (s.node r)).next = (s.node r).next) : (s.put r f).next = s.next := by
  rw [next_put, hf]
  exact Function.update_eq_self r s.next

theorem prev_put_of_eq (hf : (f (s.node r)).prev = (s.node r).prev) : (s.put r f).prev = s.prev := by
  rw [prev_put, hf]
  exact Function.update_eq_self r s.prev

theorem slab_put (hf : (f (s.node r)).slab = (s.node r).slab) (q : Ref) :
    ((s.put r f).node q).slab = (s.node q).slab := by
  by_cases hq : q = r
  · rw [hq, node_put_self, hf]
  · rw [node_put_of_ne hq]

theorem type_put (hf : (f (s.node r)).type = (s.node r).type) (q : Ref) :
    ((s.put r f).node q).type = (s.node q).type := by
  by_cases hq : q = r
  · rw [hq, node_put_self, hf]
  · rw [node_put_of_ne hq]

/-- The list with the head `h` is `l`, and its nodes have one type. -/
structure Listed (s : Pool) (h : Ref) (l : List Ref) (t : PageType) : Prop where
  /-- The links. -/
  circle : Circle s.next s.prev h l
  /-- The nodes are different. -/
  nodup : (h :: l).Nodup
  /-- The head is there. -/
  has_head : s.Has h
  /-- The nodes are there. -/
  has : ∀ r ∈ l, s.Has r
  /-- The type of the nodes. -/
  type : ∀ r ∈ l, (s.node r).type = t

/-- Only links of the list with the head `h` and the nodes `l` have changed. -/
structure Relinked (s s' : Pool) (h : Ref) (l : List Ref) : Prop where
  /-- The layout is the same. -/
  layout : Same s s'
  /-- The words have not changed. -/
  words : s'.words = s.words
  /-- The statistics have not changed. -/
  stats : s'.stats = s.stats
  /-- The number of free pages has not changed. -/
  pfree : s'.pfree = s.pfree
  /-- The other nodes have not. -/
  other : ∀ r, r ≠ h → r ∉ l → s'.node r = s.node r
  /-- The nodes say the same. -/
  alike : ∀ r ∈ l, Alike (s.node r) (s'.node r)

theorem Relinked.alike_of_ne (hr : Relinked s s' h l) (hh : r ≠ h) : Alike (s.node r) (s'.node r) := by
  by_cases hl : r ∈ l
  · exact hr.alike r hl
  · rw [hr.other r hh hl]
    exact .refl _

theorem Relinked.circle (hr : Relinked s s' h l) (hc : Circle s.next s.prev h' l')
    (hdis : ∀ r ∈ h' :: l', r ≠ h ∧ r ∉ l) : Circle s'.next s'.prev h' l' := by
  have hnode : ∀ r ∈ h' :: l', s'.node r = s.node r := fun r hm ↦
    hr.other r (hdis r hm).1 (hdis r hm).2
  exact hc.congr (fun r hm ↦ congrArg Page.next (hnode r hm))
    fun r hm ↦ congrArg Page.prev (hnode r (List.mem_cons_of_mem _ hm))

/-- Nodes of lists whose `slab` and whose type stay say the same. -/
theorem alike_of_circle (hc : Circle s.next s.prev h l) (hc' : Circle s'.next s'.prev h' l')
    (hr : r ∈ l) (hr' : r ∈ l') (hslab : (s'.node r).slab = (s.node r).slab)
    (htype : (s'.node r).type = (s.node r).type) : Alike (s.node r) (s'.node r) := by
  have hnext : (s.node r).next ≠ none := hc.next_ne_none hr
  have hnext' : (s'.node r).next ≠ none := hc'.next_ne_none hr'
  exact ⟨hslab, htype, ⟨fun h ↦ absurd h hnext', fun h ↦ absurd h hnext⟩, fun h ↦ absurd h hnext⟩

/-- The node in front is in the list, or it is the head. -/
theorem last_mem : l₁.getLastD h ∈ h :: (l₁ ++ r :: l₂) := by
  rcases List.mem_cons.mp (Path.getLastD_mem (l := l₁) (p := h)) with heq | hm
  · rw [heq]
    exact List.mem_cons_self
  · exact List.mem_cons_of_mem _ (List.mem_append_left _ hm)

/-- The node behind is in the list, or it is the head. -/
theorem first_mem : l₂.headD h ∈ h :: (l₁ ++ r :: l₂) := by
  rcases List.mem_cons.mp (Circle.headD_mem (l := l₂) (h := h)) with heq | hm
  · rw [heq]
    exact List.mem_cons_self
  · exact List.mem_cons_of_mem _ (List.mem_append_right _ (List.mem_cons_of_mem _ hm))

namespace Listed

theorem has_mem (hl : Listed s h l t) (hr : r ∈ h :: l) : s.Has r := by
  rcases List.mem_cons.mp hr with rfl | hr
  · exact hl.has_head
  · exact hl.has r hr

/-- A node is taken out. -/
theorem unlink (hl : Listed s h (l₁ ++ r :: l₂) t) (hnext : p.next = (s.node r).next)
    (hprev : p.prev = (s.node r).prev) (htype : p.type = t) :
    ∃ s', s.unlink p = .ok s' ∧ Circle s'.next s'.prev h (l₁ ++ l₂) ∧
      Relinked s s' h (l₁ ++ l₂) := by
  obtain ⟨hp, hn⟩ := hl.circle.neighbours
  let f : Page → Page := fun q ↦ { q with next := p.next }
  let g : Page → Page := fun q ↦ { q with prev := p.prev, type := p.type }
  have hcircle : Circle ((s.put (l₁.getLastD h) f).put (l₂.headD h) g).next
      ((s.put (l₁.getLastD h) f).put (l₂.headD h) g).prev h (l₁ ++ l₂) := by
    have hu := hl.circle.unlink hl.nodup
    rw [next_put_of_eq rfl, next_put, prev_put, prev_put_of_eq rfl]
    change Circle (Function.update s.next _ p.next) (Function.update s.prev _ p.prev) _ _
    rw [hnext, hprev]
    change Circle (Function.update s.next _ (s.next r)) (Function.update s.prev _ (s.prev r)) _ _
    rw [hn, hp]
    exact hu
  have hsub : ∀ q ∈ l₁ ++ l₂, q ∈ l₁ ++ r :: l₂ := fun q hq ↦
    (List.mem_append.mp hq).elim (List.mem_append_left _)
      fun hq ↦ List.mem_append_right _ (List.mem_cons_of_mem _ hq)
  refine ⟨(s.put (l₁.getLastD h) f).put (l₂.headD h) g, ?_, hcircle, .trans (.put _ _ _) (.put _ _ _), rfl, rfl, rfl,
    fun q hq hm ↦ ?_,
    fun q hq ↦ alike_of_circle hl.circle hcircle (hsub q hq) hq ?_ ?_⟩
  · have hp' : p.prev = some (l₁.getLastD h) := hprev.trans hp
    have hn' : p.next = some (l₂.headD h) := hnext.trans hn
    change (s.store p.prev f >>= fun s ↦ s.store p.next g) = _
    rw [hp', hn', store_eq (hl.has_mem last_mem), Exec.ok_bind, store_eq]
    rw [has_put]
    exact hl.has_mem first_mem
  · rw [node_put_of_ne, node_put_of_ne]
    · rintro rfl
      rcases List.mem_cons.mp (Path.getLastD_mem (l := l₁) (p := h)) with heq | hlast
      · exact hq heq
      · exact hm (List.mem_append_left _ hlast)
    · rintro rfl
      rcases List.mem_cons.mp (Circle.headD_mem (l := l₂) (h := h)) with heq | hhead
      · exact hq heq
      · exact hm (List.mem_append_right _ hhead)
  · rw [slab_put rfl, slab_put rfl]
  · by_cases hb : q = l₂.headD h
    · subst hb
      rw [node_put_self]
      exact htype.trans (hl.type _ (hsub _ hq)).symm
    · rw [node_put_of_ne hb, type_put rfl]

/-- A node that is not in the list is changed. -/
theorem put (hl : Listed s h l t) (hx : x ∉ h :: l) (f : Page → Page) : Listed (s.put x f) h l t := by
  have hnode : ∀ q ∈ h :: l, (s.put x f).node q = s.node q := fun q hq ↦ node_put_of_ne (by
    rintro rfl
    exact hx hq) f
  refine ⟨hl.circle.congr (fun q hq ↦ congrArg Page.next (hnode q hq))
    fun q hq ↦ congrArg Page.prev (hnode q (List.mem_cons_of_mem _ hq)), hl.nodup, ?_,
    fun q hq ↦ ?_, fun q hq ↦ ?_⟩
  · rw [has_put]
    exact hl.has_head
  · rw [has_put]
    exact hl.has q hq
  · rw [hnode q (List.mem_cons_of_mem _ hq)]
    exact hl.type q hq

/-- A node whose links are set is put in at the front. -/
theorem push (hl : Listed s h l t) (hx : x ∉ h :: l) (hnext : s.next x = some (l.headD h))
    (hprev : s.prev x = some h) :
    ∃ s', s' = (s.put (l.headD h) fun p ↦ { p with prev := some x, type := t }).put h
        (fun p ↦ { p with next := some x }) ∧
      Circle s'.next s'.prev h (x :: l) ∧ Relinked s s' h l := by
  have hne : l.headD h ≠ x := by
    rintro rfl
    exact hx Circle.headD_mem
  have hcircle := hl.circle.push hl.nodup hx
  rw [← hnext, Function.update_eq_self, Function.update_comm hne, ← hprev,
    Function.update_eq_self] at hcircle
  have hcircle' : Circle ((s.put (l.headD h) fun p ↦ { p with prev := some x, type := t }).put h
      fun p ↦ { p with next := some x }).next
      ((s.put (l.headD h) fun p ↦ { p with prev := some x, type := t }).put h
      fun p ↦ { p with next := some x }).prev h (x :: l) := by
    rw [next_put, next_put_of_eq rfl, prev_put_of_eq rfl, prev_put]
    exact hcircle
  refine ⟨_, rfl, hcircle', .trans (.put _ _ _) (.put _ _ _), rfl, rfl, rfl, fun q hq hm ↦ ?_, fun q hq ↦
    alike_of_circle hl.circle hcircle' hq (List.mem_cons_of_mem _ hq) ?_ ?_⟩
  · rw [node_put_of_ne hq, node_put_of_ne]
    rintro rfl
    exact (List.mem_cons.mp Circle.headD_mem).elim hq hm
  · rw [slab_put rfl, slab_put rfl]
  · rw [type_put rfl]
    by_cases hb : q = l.headD h
    · subst hb
      rw [node_put_self]
      exact (hl.type _ hq).symm
    · rw [node_put_of_ne hb]

/-- A node is replaced by one whose links are set. -/
theorem replace (hl : Listed s h (l₁ ++ r :: l₂) t) (hx : x ∉ h :: (l₁ ++ r :: l₂))
    (hnext : s.next x = s.next r) (hprev : s.prev x = s.prev r) :
    ∃ s' a b, s.prev r = some a ∧ s.next r = some b ∧ s.Has a ∧ s.Has b ∧
      s' = (s.put a fun p ↦ { p with next := some x }).put b
        (fun p ↦ { p with prev := some x, type := t }) ∧
      Circle s'.next s'.prev h (l₁ ++ x :: l₂) ∧ Relinked s s' h (l₁ ++ l₂) := by
  obtain ⟨hp, hn⟩ := hl.circle.neighbours
  have hlast := Path.getLastD_mem (l := l₁) (p := h)
  have hhead := Circle.headD_mem (l := l₂) (h := h)
  have hsub : ∀ q ∈ l₁ ++ l₂, q ∈ l₁ ++ r :: l₂ := fun q hq ↦
    (List.mem_append.mp hq).elim (List.mem_append_left _)
      fun hq ↦ List.mem_append_right _ (List.mem_cons_of_mem _ hq)
  have hsub' : ∀ q ∈ l₁ ++ l₂, q ∈ l₁ ++ x :: l₂ := fun q hq ↦
    (List.mem_append.mp hq).elim (List.mem_append_left _)
      fun hq ↦ List.mem_append_right _ (List.mem_cons_of_mem _ hq)
  have hcircle := hl.circle.replace hl.nodup hx
  rw [← hn, ← hp, ← hnext, ← hprev, Function.update_eq_self, Function.update_eq_self] at hcircle
  have hcircle' : Circle ((s.put (l₁.getLastD h) fun p ↦ { p with next := some x }).put
      (l₂.headD h) fun p ↦ { p with prev := some x, type := t }).next
      ((s.put (l₁.getLastD h) fun p ↦ { p with next := some x }).put
      (l₂.headD h) fun p ↦ { p with prev := some x, type := t }).prev h (l₁ ++ x :: l₂) := by
    rw [next_put_of_eq rfl, next_put, prev_put, prev_put_of_eq rfl]
    exact hcircle
  refine ⟨_, _, _, hp, hn, hl.has_mem last_mem, hl.has_mem first_mem, rfl, hcircle',
    .trans (.put _ _ _) (.put _ _ _), rfl, rfl, rfl, fun q hq hm ↦ ?_,
    fun q hq ↦ alike_of_circle hl.circle hcircle' (hsub q hq) (hsub' q hq) ?_ ?_⟩
  · rw [node_put_of_ne, node_put_of_ne]
    · rintro rfl
      exact (List.mem_cons.mp hlast).elim hq fun hmem ↦ hm (List.mem_append_left _ hmem)
    · rintro rfl
      exact (List.mem_cons.mp hhead).elim hq fun hmem ↦ hm (List.mem_append_right _ hmem)
  · rw [slab_put rfl, slab_put rfl]
  · by_cases hb : q = l₂.headD h
    · subst hb
      rw [node_put_self]
      exact (hl.type _ (hsub _ hq)).symm
    · rw [node_put_of_ne hb, type_put rfl]

end Listed

end Dlbase.Slab
