import Dlbase.Slab.Lists

/-!
# The pages around a gap

A call works on one run of pages: the gap.  What the pages in front of it and behind it say stays
the same as long as only the gap and the lists are changed.  One page of the gap may be in a list.
-/

namespace Dlbase.Slab

open Cmem

variable {s s' : Pool} {i j k n : Nat} {T A B : List Seg} {seg : Seg} {e : Nat × Seg} {r h h' : Ref}
  {l : List Ref} {x x' : Option (Ref × Nat)} {f : Page → Page}

/-- The nodes of the list with the head `h` that are in the gap, if `x` says which list its page
is in. -/
def linked (x : Option (Ref × Nat)) (h : Ref) : List Ref :=
  match x with
  | some (h', j) => if h' = h then [.page j] else []
  | none => []

/-- The pool is divided into the parts `A`, a gap of `n` pages, and the parts `B`. -/
structure Gap (s : Pool) (A : List Seg) (n : Nat) (B : List Seg) (x : Option (Ref × Nat)) :
    Prop where
  /-- The layout. -/
  base : Base s
  /-- There is a gap. -/
  pos : 0 < n
  /-- These are all pages. -/
  length : total A + n + total B = s.pages
  /-- The descriptors in front. -/
  before : SegsOk s 0 A
  /-- The descriptors behind. -/
  after : SegsOk s (total A + n) B
  /-- Free runs have been joined. -/
  separated : Separated A ∧ Separated B
  /-- The lists. -/
  lists : ∀ h : Ref, h.IsHead → ∃ l, Circle s.next s.prev h l ∧
    l.Perm (members h 0 A ++ linked x h ++ members h (total A + n) B)
  /-- The page that is in a list. -/
  link : ∀ h j, x = some (h, j) → h.IsHead ∧ (total A ≤ j ∧ j < total A + n) ∧
    (s.node (.page j)).type = h.listType
  /-- The descriptors that are not used. -/
  spare : Spare s

/-- Only nodes have changed. -/
structure Kept (s s' : Pool) : Prop where
  /-- The layout. -/
  layout : Same s s'
  /-- The words. -/
  words : s'.words = s.words
  /-- The statistics. -/
  stats : s'.stats = s.stats
  /-- The number of free pages. -/
  pfree : s'.pfree = s.pfree

/-- Only nodes outside of the gap have changed. -/
structure Frame (s s' : Pool) (i n : Nat) : Prop extends Kept s s' where
  /-- The pages of the gap. -/
  node : ∀ j, i ≤ j → j < i + n → s'.node (.page j) = s.node (.page j)

theorem Kept.refl (s : Pool) : Kept s s := ⟨.refl s, rfl, rfl, rfl⟩

theorem Kept.trans {s'' : Pool} (h : Kept s s') (h' : Kept s' s'') : Kept s s'' :=
  ⟨h.layout.trans h'.layout, h'.words.trans h.words, h'.stats.trans h.stats,
    h'.pfree.trans h.pfree⟩

theorem Kept.put (s : Pool) (r : Ref) (f : Page → Page) : Kept s (s.put r f) :=
  ⟨.put s r f, rfl, rfl, rfl⟩

/-! ## Where the nodes of the lists are -/

theorem Ref.IsHead.ne_page (hh : h.IsHead) : h ≠ .page j := by
  rintro rfl
  exact hh

theorem SegsOk.congr (h : SegsOk s i T) (hsame : Same s s') (hpos : ∀ e ∈ placed i T, 0 < e.2.len)
    (hat : SameAt s s' i (total T)) : SegsOk s' i T := fun e he ↦ by
  obtain ⟨hlo, hhi⟩ := bounds he
  exact (h e he).congr hsame.start hsame.pages (hpos e he) fun j hj hj' ↦ hat j (by omega) (by omega)

theorem SegsOk.pos (h : SegsOk s i T) (hp : s.pages ≠ 0) : ∀ e ∈ placed i T, 0 < e.2.len := by
  rintro ⟨j, seg⟩ he
  have hok := h _ he
  cases seg with
  | free n => exact hok.2.2.2.2.1.resolve_right hp
  | alloc n => exact hok.1
  | chunks shift cs => exact Nat.one_pos

/-- A part that is in a list has the type of the list. -/
theorem SegOk.type_of_list (hok : SegOk s i seg) (hl : seg.list = some h) :
    h.IsHead ∧ (s.node (.page i)).type = h.listType := by
  cases seg with
  | free n =>
    obtain rfl := Option.some.inj hl
    exact ⟨trivial, hok.2.1⟩
  | alloc n => cases hl
  | chunks shift cs =>
    rw [Seg.list] at hl
    split_ifs at hl
    obtain rfl := Option.some.inj hl
    have hge := hok.shift_ge
    have hle := hok.shift_le
    refine ⟨show shift - 3 < 9 by omega, hok.type.trans ?_⟩
    rw [Ref.listType, Nat.sub_add_cancel hge]

/-- The nodes of a list are pages of the parts. -/
theorem SegsOk.members (hok : SegsOk s i T) (hpos : ∀ e ∈ placed i T, 0 < e.2.len)
    (hr : r ∈ members h i T) :
    ∃ j, r = .page j ∧ (i ≤ j ∧ j < i + total T) ∧ (s.node r).type = h.listType := by
  obtain ⟨e, he, hl, rfl⟩ := mem_members.mp hr
  have hb := bounds he
  have hlen := hpos e he
  exact ⟨e.1, rfl, ⟨hb.1, by omega⟩, ((hok e he).type_of_list hl).2⟩

/-- A page is in one list only. -/
theorem members_disjoint (hpos : ∀ e ∈ placed i T, 0 < e.2.len) (hr : r ∈ members h i T)
    (hr' : r ∈ members h' i T) : h = h' := by
  obtain ⟨e, he, hl, rfl⟩ := mem_members.mp hr
  obtain ⟨e', he', hl', heq⟩ := mem_members.mp hr'
  obtain rfl := part_unique hpos he he' (Ref.page.inj heq)
  exact Option.some.inj (hl.symm.trans hl')

theorem mem_linked : r ∈ linked x h ↔ ∃ j, x = some (h, j) ∧ r = .page j := by
  rcases x with _ | ⟨h', j⟩
  · exact ⟨nofun, fun ⟨j, heq, _⟩ ↦ nomatch heq⟩
  · rw [linked]
    split_ifs with heq
    · subst heq
      rw [List.mem_singleton]
      exact ⟨fun hr ↦ ⟨j, rfl, hr⟩, fun ⟨j', heq, hr⟩ ↦ by
        obtain ⟨-, rfl⟩ := Prod.mk.inj (Option.some.inj heq)
        exact hr⟩
    · exact ⟨nofun, fun ⟨j', heq', _⟩ ↦ absurd (Prod.mk.inj (Option.some.inj heq')).1 heq⟩

theorem linked_linkOf : linked (linkOf (i, seg)) h = members h i [seg] := by
  rw [members_singleton, linkOf]
  rcases seg.list with _ | h'
  · rw [if_neg nofun]
    rfl
  · rw [Option.map_some, linked]
    exact if_congr Option.some_inj.symm rfl rfl

namespace Gap

theorem pages_ne (hg : Gap s A n B x) : s.pages ≠ 0 := by
  have := hg.length
  have := hg.pos
  omega

theorem pos_before (hg : Gap s A n B x) : ∀ e ∈ placed 0 A, 0 < e.2.len :=
  hg.before.pos hg.pages_ne

theorem pos_after (hg : Gap s A n B x) : ∀ e ∈ placed (total A + n) B, 0 < e.2.len :=
  hg.after.pos hg.pages_ne

/-- A page of the pool has a descriptor. -/
theorem has (hg : Gap s A n B x) (hj : j < total A + n) : s.Has (.page j) := by
  have := hg.length
  exact decide_eq_true (Nat.lt_of_lt_of_le (by omega) hg.base.pages_le)

/-- The nodes of a list are in front of the gap, in it, or behind it. -/
theorem place (hg : Gap s A n B x)
    (hr : r ∈ members h 0 A ++ linked x h ++ members h (total A + n) B) :
    ∃ j, r = .page j ∧ j < s.pages ∧ (s.node r).type = h.listType ∧
      (r ∈ members h 0 A ∧ j < total A ∨ x = some (h, j) ∧ total A ≤ j ∧ j < total A + n ∨
        r ∈ members h (total A + n) B ∧ total A + n ≤ j) := by
  have hlen := hg.length
  rcases List.mem_append.mp hr with hr | hr
  · rcases List.mem_append.mp hr with hr | hr
    · obtain ⟨j, rfl, hj, ht⟩ := hg.before.members hg.pos_before hr
      exact ⟨j, rfl, by omega, ht, .inl ⟨hr, by omega⟩⟩
    · obtain ⟨j, hx, rfl⟩ := mem_linked.mp hr
      obtain ⟨-, hj, ht⟩ := hg.link h j hx
      exact ⟨j, rfl, by omega, ht, .inr (.inl ⟨hx, hj⟩)⟩
  · obtain ⟨j, rfl, hj, ht⟩ := hg.after.members hg.pos_after hr
    exact ⟨j, rfl, by omega, ht, .inr (.inr ⟨hr, hj.1⟩)⟩

theorem nodup (hg : Gap s A n B x) :
    (members h 0 A ++ linked x h ++ members h (total A + n) B).Nodup := by
  refine List.nodup_append.mpr ⟨List.nodup_append.mpr ⟨nodup_members hg.pos_before, ?_, ?_⟩,
    nodup_members hg.pos_after, ?_⟩
  · rcases x with _ | ⟨h', j⟩
    · exact List.nodup_nil
    · rw [linked]
      split_ifs
      · exact List.nodup_singleton _
      · exact List.nodup_nil
  · rintro r hr q hq rfl
    obtain ⟨j, rfl, hj, -⟩ := hg.before.members hg.pos_before hr
    obtain ⟨j', hx, heq⟩ := mem_linked.mp hq
    obtain rfl := Ref.page.inj heq
    have := (hg.link h j hx).2.1
    omega
  · rintro r hr q hq rfl
    obtain ⟨j', rfl, hj', -⟩ := hg.after.members hg.pos_after hq
    rcases List.mem_append.mp hr with hr | hr
    · obtain ⟨j, heq, hj, -⟩ := hg.before.members hg.pos_before hr
      obtain rfl := Ref.page.inj heq
      omega
    · obtain ⟨j, hx, heq⟩ := mem_linked.mp hr
      obtain rfl := Ref.page.inj heq
      have := (hg.link h j' hx).2.1
      omega

/-- The list with the head `h`. -/
theorem listed (hg : Gap s A n B x) (hh : h.IsHead) :
    ∃ l, Listed s h l h.listType ∧
      l.Perm (members h 0 A ++ linked x h ++ members h (total A + n) B) := by
  obtain ⟨l, hc, hl⟩ := hg.lists h hh
  have hmem : ∀ r ∈ l, ∃ j, r = .page j ∧ j < s.pages ∧ (s.node r).type = h.listType :=
    fun r hr ↦ by
      obtain ⟨j, hj, hlt, ht, -⟩ := hg.place (hl.mem_iff.mp hr)
      exact ⟨j, hj, hlt, ht⟩
  refine ⟨l, ⟨hc, List.nodup_cons.mpr ⟨fun hm ↦ ?_, hl.nodup_iff.mpr hg.nodup⟩, ?_, fun r hr ↦ ?_,
    fun r hr ↦ ?_⟩, hl⟩
  · obtain ⟨j, heq, -⟩ := hmem _ hm
    exact hh.ne_page heq
  · cases h with
    | free => rfl
    | slot k => exact decide_eq_true (hg.base.slots ▸ hh)
    | page i => exact hh.elim
  · obtain ⟨j, rfl, hj, -⟩ := hmem r hr
    exact decide_eq_true (Nat.lt_of_lt_of_le hj hg.base.pages_le)
  · obtain ⟨j, -, -, ht⟩ := hmem r hr
    exact ht

/-! ## Changing the lists -/

/-- A page of the gap is in no list. -/
theorem not_member (hg : Gap s A n B x) (hj : total A ≤ j ∧ j < total A + n) :
    .page j ∉ members h 0 A ++ members h (total A + n) B := fun hm ↦ by
  rcases List.mem_append.mp hm with hm | hm
  · obtain ⟨j', heq, hlt, -⟩ := hg.before.members hg.pos_before hm
    obtain rfl := Ref.page.inj heq
    omega
  · obtain ⟨j', heq, hlt, -⟩ := hg.after.members hg.pos_after hm
    obtain rfl := Ref.page.inj heq
    omega

/-- One list has changed: the pages outside of the gap say the same, and the other lists are as
before. -/
theorem relinked (hg : Gap s A n B x) (hh : h.IsHead) (hr : Relinked s s' h l)
    (hl : l.Perm (members h 0 A ++ members h (total A + n) B))
    (hc : ∃ l', Circle s'.next s'.prev h l' ∧
      l'.Perm (members h 0 A ++ linked x' h ++ members h (total A + n) B))
    (hx : ∀ h' j, x = some (h', j) → h' = h)
    (hx' : ∀ h' j, x' = some (h', j) → h' = h ∧ (total A ≤ j ∧ j < total A + n) ∧
      (s.node (.page j)).type = h.listType) :
    Gap s' A n B x' ∧ Frame s s' (total A) n := by
  have halike : ∀ j, Alike (s.node (.page j)) (s'.node (.page j)) := fun j ↦
    hr.alike_of_ne hh.ne_page.symm
  have hsame : ∀ i n, SameAt s s' i n := fun i n j _ _ ↦
    ⟨halike j, fun a _ _ ↦ congrFun hr.words a⟩
  have hnone : ∀ h', h' ≠ h → linked x h' = [] ∧ linked x' h' = [] := fun h' hne ↦ by
    refine ⟨List.eq_nil_iff_forall_not_mem.mpr fun r hm ↦ ?_,
      List.eq_nil_iff_forall_not_mem.mpr fun r hm ↦ ?_⟩
    · obtain ⟨j, heq, -⟩ := mem_linked.mp hm
      exact hne (hx _ _ heq)
    · obtain ⟨j, heq, -⟩ := mem_linked.mp hm
      exact hne (hx' _ _ heq).1
  refine ⟨⟨hr.layout.base hg.base, hg.pos, hg.length.trans hr.layout.pages.symm,
    hg.before.congr hr.layout hg.pos_before (hsame _ _),
    hg.after.congr hr.layout hg.pos_after (hsame _ _), hg.separated, fun h' hh' ↦ ?_,
    fun h' j heq ↦ ?_, hg.spare.congr hr.layout.pages fun j _ ↦ halike j⟩,
    ⟨hr.layout, hr.words, hr.stats, hr.pfree⟩, fun j hj hj' ↦ ?_⟩
  · by_cases heq : h' = h
    · exact heq ▸ hc
    · obtain ⟨l', hc', hl'⟩ := hg.lists h' hh'
      refine ⟨l', hr.circle hc' fun r hm ↦ ?_, ?_⟩
      · rcases List.mem_cons.mp hm with rfl | hm
        · refine ⟨heq, fun hm ↦ ?_⟩
          obtain ⟨j, hj, -⟩ := hg.place (List.append_subset_of_subset_of_subset
            (List.subset_append_of_subset_left _ (List.subset_append_left _ _))
            (List.subset_append_right _ _) (hl.mem_iff.mp hm))
          exact hh'.ne_page hj
        · obtain ⟨j, rfl, hj, -, hat⟩ := hg.place (hl'.mem_iff.mp hm)
          refine ⟨hh.ne_page.symm, fun hm' ↦ ?_⟩
          have hm' := hl.mem_iff.mp hm'
          rcases hat with ⟨hat, hlt⟩ | ⟨-, hat⟩ | ⟨hat, hle⟩
          · rcases List.mem_append.mp hm' with hm' | hm'
            · exact heq (members_disjoint hg.pos_before hat hm')
            · obtain ⟨j', hj', hle, -⟩ := hg.after.members hg.pos_after hm'
              obtain rfl := Ref.page.inj hj'
              omega
          · exact hg.not_member hat hm'
          · rcases List.mem_append.mp hm' with hm' | hm'
            · obtain ⟨j', hj', hlt, -⟩ := hg.before.members hg.pos_before hm'
              obtain rfl := Ref.page.inj hj'
              omega
            · exact heq (members_disjoint hg.pos_after hat hm')
      · rwa [(hnone h' heq).2, ← (hnone h' heq).1]
  · obtain ⟨rfl, hj, ht⟩ := hx' h' j heq
    exact ⟨hh, hj, (halike j).2.1.trans ht⟩
  · exact hr.other _ hh.ne_page.symm fun hm ↦ hg.not_member ⟨hj, hj'⟩ (hl.mem_iff.mp hm)

theorem linked_self : linked (some (h, j)) h = [.page j] := if_pos rfl

/-- The list that the page of the gap is in. -/
theorem split (hg : Gap s A n B (some (h, j))) :
    ∃ l₁ l₂, Listed s h (l₁ ++ .page j :: l₂) h.listType ∧
      (l₁ ++ l₂).Perm (members h 0 A ++ members h (total A + n) B) := by
  obtain ⟨l, hl, hperm⟩ := hg.listed (hg.link h j rfl).1
  rw [linked_self, List.append_assoc, List.singleton_append] at hperm
  obtain ⟨l₁, l₂, rfl⟩ := List.append_of_mem
    (hperm.mem_iff.mpr (List.mem_append_right _ List.mem_cons_self))
  exact ⟨l₁, l₂, hl, List.perm_cons (a := .page j) |>.mp
    (List.perm_middle.symm.trans (hperm.trans List.perm_middle))⟩

/-- The page of the gap is taken out of its list. -/
theorem unlink (hg : Gap s A n B (some (h, j))) :
    ∃ s', s.unlink (s.node (.page j)) = .ok s' ∧ Gap s' A n B none ∧ Frame s s' (total A) n := by
  obtain ⟨hh, -, ht⟩ := hg.link h j rfl
  obtain ⟨l₁, l₂, hl, hperm⟩ := hg.split
  obtain ⟨s', hs, hc, hr⟩ := hl.unlink rfl rfl ht
  refine ⟨s', hs, hg.relinked hh hr hperm ⟨_, hc, ?_⟩ (fun h' j' heq ↦ ?_) nofun⟩
  · rwa [linked, List.append_nil]
  · exact (Prod.mk.inj (Option.some.inj heq)).1.symm

/-- The page of the gap is replaced in its list by another page of the gap. -/
theorem replace (hg : Gap s A n B (some (h, i))) (hij : j ≠ i)
    (hj : total A ≤ j ∧ j < total A + n) (hnext : (s.node (.page j)).next = (s.node (.page i)).next)
    (hprev : (s.node (.page j)).prev = (s.node (.page i)).prev)
    (ht : (s.node (.page j)).type = h.listType) :
    ∃ s' a b, (s.node (.page i)).prev = some a ∧ (s.node (.page i)).next = some b ∧ s.Has a ∧
      s.Has b ∧ s' = (s.put a fun p ↦ { p with next := some (.page j) }).put b
        (fun p ↦ { p with prev := some (.page j), type := h.listType }) ∧
      Gap s' A n B (some (h, j)) ∧ Frame s s' (total A) n := by
  obtain ⟨hh, hi, -⟩ := hg.link h i rfl
  obtain ⟨l₁, l₂, hl, hperm⟩ := hg.split
  have hmem : .page j ∉ h :: (l₁ ++ .page i :: l₂) := by
    rw [List.mem_cons, List.perm_middle.mem_iff, List.mem_cons]
    rintro (heq | heq | hm)
    · exact hh.ne_page heq.symm
    · exact hij (Ref.page.inj heq)
    · exact hg.not_member hj (hperm.mem_iff.mp hm)
  obtain ⟨s', a, b, ha, hb, hha, hhb, hs, hc, hr⟩ := hl.replace hmem hnext hprev
  refine ⟨s', a, b, ha, hb, hha, hhb, hs, hg.relinked hh hr hperm ⟨_, hc, ?_⟩ (fun h' j' heq ↦ ?_)
    fun h' j' heq ↦ ?_⟩
  · rw [linked_self, List.append_assoc, List.singleton_append]
    exact List.perm_middle.trans ((hperm.cons _).trans List.perm_middle.symm)
  · exact (Prod.mk.inj (Option.some.inj heq)).1.symm
  · obtain ⟨rfl, rfl⟩ := Prod.mk.inj (Option.some.inj heq)
    exact ⟨rfl, hj, ht⟩

/-- A page of the gap is put into a list. -/
theorem push (hg : Gap s A n B none) (hh : h.IsHead) (hj : total A ≤ j ∧ j < total A + n)
    (hnext : (s.node (.page j)).next = (s.node h).next) (hprev : (s.node (.page j)).prev = some h)
    (ht : (s.node (.page j)).type = h.listType) :
    ∃ s' b, (s.node h).next = some b ∧ s.Has h ∧ s.Has b ∧
      s' = (s.put b fun p ↦ { p with prev := some (.page j), type := h.listType }).put h
        (fun p ↦ { p with next := some (.page j) }) ∧
      Gap s' A n B (some (h, j)) ∧ Frame s s' (total A) n := by
  obtain ⟨l, hl, hperm⟩ := hg.listed hh
  rw [linked, List.append_nil] at hperm
  have hmem : .page j ∉ h :: l := by
    rw [List.mem_cons]
    rintro (heq | hm)
    · exact hh.ne_page heq.symm
    · exact hg.not_member hj (hperm.mem_iff.mp hm)
  obtain ⟨s', hs, hc, hr⟩ := hl.push hmem (hnext.trans hl.circle.next_head) hprev
  refine ⟨s', _, hl.circle.next_head, hl.has_head, hl.has_mem Circle.headD_mem, hs,
    hg.relinked hh hr hperm ⟨_, hc, ?_⟩ nofun fun h' j' heq ↦ ?_⟩
  · rw [linked_self, List.append_assoc, List.singleton_append]
    exact (hperm.cons _).trans List.perm_middle.symm
  · obtain ⟨rfl, rfl⟩ := Prod.mk.inj (Option.some.inj heq)
    exact ⟨rfl, hj, ht⟩

/-! ## Changing the gap -/

/-- The pages of the gap do not matter, but for the links of the one that is in a list. -/
theorem congr (hg : Gap s A n B x) (hsame : Same s s')
    (hnode : ∀ r : Ref, (∀ j, r = .page j → j < total A ∨ total A + n ≤ j) →
      s'.node r = s.node r)
    (hlink : ∀ h j, x = some (h, j) → s'.next (.page j) = s.next (.page j) ∧
      s'.prev (.page j) = s.prev (.page j) ∧
      (s'.node (.page j)).type = (s.node (.page j)).type)
    (hwords : ∀ j, j < total A ∨ total A + n ≤ j → ∀ a, s.start + 4096 * j ≤ a →
      a < s.start + 4096 * (j + 1) → s'.words a = s.words a) : Gap s' A n B x := by
  have hat : ∀ j, j < total A ∨ total A + n ≤ j → Alike (s.node (.page j)) (s'.node (.page j)) ∧
      ∀ a, s.start + 4096 * j ≤ a → a < s.start + 4096 * (j + 1) → s'.words a = s.words a :=
    fun j hj ↦ by
    refine ⟨?_, hwords j hj⟩
    rw [hnode (.page j) fun j' hj' ↦ Ref.page.inj hj' ▸ hj]
    exact .refl _
  refine ⟨hsame.base hg.base, hg.pos, hg.length.trans hsame.pages.symm,
    hg.before.congr hsame hg.pos_before fun j _ hj ↦ hat j (.inl (by omega)),
    hg.after.congr hsame hg.pos_after fun j hj _ ↦ hat j (.inr hj), hg.separated, fun h hh ↦ ?_,
    fun h j hx ↦ ?_, hg.spare.congr hsame.pages fun j hj ↦ (hat j (.inr ?_)).1⟩
  · obtain ⟨l, hc, hl⟩ := hg.lists h hh
    have hmem : ∀ r ∈ l, s'.next r = s.next r ∧ s'.prev r = s.prev r := fun r hr ↦ by
      obtain ⟨j, rfl, -, -, hat⟩ := hg.place (hl.mem_iff.mp hr)
      have hout : j < total A ∨ total A + n ≤ j → s'.node (.page j) = s.node (.page j) :=
        fun hj ↦ hnode _ fun j' hj' ↦ Ref.page.inj hj' ▸ hj
      rcases hat with ⟨-, hj⟩ | ⟨hx, -⟩ | ⟨-, hj⟩
      · exact ⟨congrArg Page.next (hout (.inl hj)), congrArg Page.prev (hout (.inl hj))⟩
      · exact ⟨(hlink h j hx).1, (hlink h j hx).2.1⟩
      · exact ⟨congrArg Page.next (hout (.inr hj)), congrArg Page.prev (hout (.inr hj))⟩
    refine ⟨l, hc.congr (fun r hr ↦ ?_) fun r hr ↦ (hmem r hr).2, hl⟩
    rcases List.mem_cons.mp hr with rfl | hr
    · exact congrArg Page.next (hnode _ fun j hj ↦ absurd hj hh.ne_page)
    · exact (hmem r hr).1
  · obtain ⟨hh, hj, ht⟩ := hg.link h j hx
    exact ⟨hh, hj, (hlink h j hx).2.2.trans ht⟩
  · have := hg.length
    omega

/-- A page of the gap is changed. -/
theorem put (hg : Gap s A n B x) (hj : total A ≤ j ∧ j < total A + n)
    (hlink : ∀ h, x = some (h, j) → (f (s.node (.page j))).next = (s.node (.page j)).next ∧
      (f (s.node (.page j))).prev = (s.node (.page j)).prev ∧
      (f (s.node (.page j))).type = (s.node (.page j)).type) :
    Gap (s.put (.page j) f) A n B x := by
  refine hg.congr (.put _ _ _) (fun r hr ↦ node_put_of_ne (by
    rintro rfl
    have := hr j rfl
    omega) f) (fun h i hx ↦ ?_) fun _ _ _ _ _ ↦ rfl
  by_cases hij : i = j
  · subst hij
    rw [Pool.next, Pool.prev, node_put_self]
    exact hlink h hx
  · rw [Pool.next, Pool.prev, node_put_of_ne fun heq ↦ hij (Ref.page.inj heq)]
    exact ⟨rfl, rfl, rfl⟩

/-- The counters do not matter. -/
theorem count (hg : Gap s A n B x) (stats : Nat → Stat) (pfree : BitVec 32) :
    Gap { s with stats, pfree } A n B x :=
  hg.congr ⟨rfl, rfl, rfl, rfl, rfl, rfl, rfl⟩ (fun _ _ ↦ rfl) (fun _ _ _ ↦ ⟨rfl, rfl, rfl⟩)
    fun _ _ _ _ _ ↦ rfl

/-! ## Making the gap wider -/

/-- The next part becomes a part of the gap. -/
theorem widen (hg : Gap s A n (seg :: B) none) :
    Gap s A (n + seg.len) B (linkOf (total A + n, seg)) := by
  have hok : SegOk s (total A + n) seg := hg.after _ List.mem_cons_self
  have hlen := hg.length
  rw [total_cons] at hlen
  refine ⟨hg.base, Nat.lt_of_lt_of_le hg.pos (Nat.le_add_right _ _), by omega, hg.before,
    fun e he ↦ ?_, ⟨hg.separated.1, hg.separated.2.of_cons⟩, fun h hh ↦ ?_, fun h j hx ↦ ?_,
    hg.spare⟩
  · rw [← Nat.add_assoc] at he
    exact hg.after e (List.mem_cons_of_mem _ he)
  · obtain ⟨l, hc, hl⟩ := hg.lists h hh
    refine ⟨l, hc, hl.trans ?_⟩
    rw [linked_linkOf, members_cons, linked, List.append_nil, List.append_assoc, Nat.add_assoc]
  · obtain ⟨h', hl, heq⟩ := Option.map_eq_some_iff.mp hx
    obtain ⟨rfl, rfl⟩ := Prod.mk.inj heq
    obtain ⟨hh, ht⟩ := hok.type_of_list hl
    have := hg.pos_after _ List.mem_cons_self
    exact ⟨hh, ⟨Nat.le_add_right _ _, by dsimp only at *; omega⟩, ht⟩

/-- The part in front becomes a part of the gap. -/
theorem widenLeft (hg : Gap s (A ++ [seg]) n B none) :
    Gap s A (seg.len + n) B (linkOf (total A, seg)) := by
  have htotal : total (A ++ [seg]) = total A + seg.len := by
    rw [total_append, total_cons]
    rfl
  have hin : ∀ e ∈ placed 0 A, e ∈ placed 0 (A ++ [seg]) := fun e he ↦ by
    rw [placed_append]
    exact List.mem_append_left _ he
  have hseg : (total A, seg) ∈ placed 0 (A ++ [seg]) := by
    rw [placed_append, Nat.zero_add]
    exact List.mem_append_right _ List.mem_cons_self
  have hok : SegOk s (total A) seg := hg.before _ hseg
  have hlen := hg.length
  have hpos := hg.pos
  refine ⟨hg.base, by omega, by omega, fun e he ↦ hg.before e (hin e he), fun e he ↦ ?_,
    ⟨hg.separated.1.left_of_append, hg.separated.2⟩, fun h hh ↦ ?_, fun h j hx ↦ ?_, hg.spare⟩
  · rw [← Nat.add_assoc, ← htotal] at he
    exact hg.after e he
  · obtain ⟨l, hc, hl⟩ := hg.lists h hh
    refine ⟨l, hc, hl.trans ?_⟩
    rw [linked_linkOf, members_append, linked, List.append_nil, Nat.zero_add, htotal, Nat.add_assoc]
  · obtain ⟨h', hl, heq⟩ := Option.map_eq_some_iff.mp hx
    obtain ⟨rfl, rfl⟩ := Prod.mk.inj heq
    obtain ⟨hh, ht⟩ := hok.type_of_list hl
    have := hg.pos_before _ hseg
    exact ⟨hh, ⟨Nat.le_refl _, by dsimp only at *; omega⟩, ht⟩

/-- The end of the gap becomes a part. -/
theorem narrow (hg : Gap s A (n + seg.len) B (linkOf (total A + n, seg))) (hpos : 0 < n)
    (hok : SegOk s (total A + n) seg) (hsep : Separated (seg :: B)) :
    Gap s A n (seg :: B) none := by
  have hlen := hg.length
  refine ⟨hg.base, hpos, by rw [total_cons]; omega, hg.before, fun e he ↦ ?_,
    ⟨hg.separated.1, hsep⟩, fun h hh ↦ ?_, nofun, hg.spare⟩
  · rcases List.mem_cons.mp he with rfl | he
    · exact hok
    · rw [Nat.add_assoc] at he
      exact hg.after e he
  · obtain ⟨l, hc, hl⟩ := hg.lists h hh
    refine ⟨l, hc, hl.trans ?_⟩
    rw [linked_linkOf, members_cons (T := B), linked, List.append_nil, List.append_assoc,
      Nat.add_assoc]

/-- The gap becomes a part. -/
theorem shape (hg : Gap s A seg.len B (linkOf (total A, seg))) (hok : SegOk s (total A) seg)
    (hsep : Separated (A ++ seg :: B))
    (hfree : s.pfree = BitVec.ofNat 32 (freeTotal (A ++ seg :: B))) : Shape s (A ++ seg :: B) := by
  refine ⟨hg.base, ?_, fun e he ↦ ?_, hsep, fun h hh ↦ ?_, hfree, hg.spare⟩
  · rw [total_append, total_cons, ← hg.length, Nat.add_assoc]
  · rw [placed_middle, Nat.zero_add] at he
    rcases List.mem_append.mp he with he | he
    · exact hg.before e he
    · rcases List.mem_cons.mp he with rfl | he
      · exact hok
      · exact hg.after e he
  · obtain ⟨l, hc, hl⟩ := hg.lists h hh
    refine ⟨l, hc, hl.trans ?_⟩
    rw [linked_linkOf, members_append, members_cons (T := B), Nat.zero_add, List.append_assoc]

end Gap

/-- A part is the gap. -/
theorem Shape.gap (hs : Shape s (A ++ seg :: B)) (hp : s.pages ≠ 0) :
    Gap s A seg.len B (linkOf (total A, seg)) := by
  have hin : ∀ e, e ∈ placed 0 A ∨ e = (total A, seg) ∨ e ∈ placed (total A + seg.len) B →
      e ∈ placed 0 (A ++ seg :: B) := fun e he ↦ by
    rw [placed_middle, Nat.zero_add, List.mem_append, List.mem_cons]
    exact he
  have hok : SegOk s (total A) seg := hs.segs _ (hin _ (.inr (.inl rfl)))
  have hpos : 0 < seg.len := hs.segs.pos hp _ (hin (total A, seg) (.inr (.inl rfl)))
  refine ⟨hs.base, hpos, ?_, fun e he ↦ hs.segs e (hin e (.inl he)),
    fun e he ↦ hs.segs e (hin e (.inr (.inr he))),
    ⟨hs.separated.left_of_append, hs.separated.right_of_append.of_cons⟩, fun h hh ↦ ?_,
    fun h j hx ↦ ?_, hs.spare⟩
  · rw [← hs.length, total_append, total_cons, Nat.add_assoc]
  · obtain ⟨l, hc, hl⟩ := hs.lists h hh
    refine ⟨l, hc, hl.trans ?_⟩
    rw [linked_linkOf, members_append, members_cons (T := B), Nat.zero_add, List.append_assoc]
  · obtain ⟨h', hl, heq⟩ := Option.map_eq_some_iff.mp hx
    obtain ⟨rfl, rfl⟩ := Prod.mk.inj heq
    obtain ⟨hh, ht⟩ := hok.type_of_list hl
    exact ⟨hh, ⟨Nat.le_refl _, Nat.lt_add_of_pos_right hpos⟩, ht⟩

end Dlbase.Slab
