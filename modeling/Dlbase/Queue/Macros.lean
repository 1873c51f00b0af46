import Dlbase.Lib.Segment
import Dlbase.Queue.Model

/-!
# What the macros do

Each macro makes one ring of nodes into another one.  It changes no link of a node that is not in
one of the rings that it is given, and it creates and frees no node.
-/

namespace Dlbase.Queue

open Cmem

variable {m m' m'' : Mem} {h n p q s x y : Nat} {l l₁ l₂ k S S' : List Nat}

/-! ## Links -/

/-- The links to the nodes behind. -/
def next (m : Mem) (q : Nat) : Option Nat := (m q).map Node.next

/-- The links to the nodes before. -/
def prev (m : Mem) (q : Nat) : Option Nat := (m q).map Node.prev

/-- The memory after `q->next = x`. -/
def setNext (m : Mem) (q x : Nat) : Mem :=
  Function.update m q ((m q).map fun n ↦ { n with next := x })

/-- The memory after `q->prev = x`. -/
def setPrev (m : Mem) (q x : Nat) : Mem :=
  Function.update m q ((m q).map fun n ↦ { n with prev := x })

theorem loadNext_eq (h : next m q = some x) : loadNext m q = .ok x := by
  obtain ⟨n, hn, rfl⟩ := Option.map_eq_some_iff.mp h
  rw [loadNext, Objects.get, hn]
  rfl

theorem loadPrev_eq (h : prev m q = some x) : loadPrev m q = .ok x := by
  obtain ⟨n, hn, rfl⟩ := Option.map_eq_some_iff.mp h
  rw [loadPrev, Objects.get, hn]
  rfl

theorem storeNext_eq (h : m q ≠ none) (x : Nat) : storeNext m q x = .ok (setNext m q x) := by
  obtain ⟨n, hn⟩ := Option.ne_none_iff_exists'.mp h
  rw [storeNext, Objects.get, hn, setNext, hn]
  exact if_neg h

theorem storePrev_eq (h : m q ≠ none) (x : Nat) : storePrev m q x = .ok (setPrev m q x) := by
  obtain ⟨n, hn⟩ := Option.ne_none_iff_exists'.mp h
  rw [storePrev, Objects.get, hn, setPrev, hn]
  exact if_neg h

theorem next_setNext (h : m q ≠ none) (x : Nat) :
    next (setNext m q x) = Function.update (next m) q (some x) := by
  obtain ⟨n, hn⟩ := Option.ne_none_iff_exists'.mp h
  funext a
  by_cases ha : a = q
  · rw [ha, Function.update_self, next, setNext, Function.update_self, hn]
    rfl
  · rw [Function.update_of_ne ha, next, setNext, Function.update_of_ne ha, next]

theorem prev_setPrev (h : m q ≠ none) (x : Nat) :
    prev (setPrev m q x) = Function.update (prev m) q (some x) := by
  obtain ⟨n, hn⟩ := Option.ne_none_iff_exists'.mp h
  funext a
  by_cases ha : a = q
  · rw [ha, Function.update_self, prev, setPrev, Function.update_self, hn]
    rfl
  · rw [Function.update_of_ne ha, prev, setPrev, Function.update_of_ne ha, prev]

@[simp] theorem prev_setNext (m : Mem) (q x : Nat) : prev (setNext m q x) = prev m := by
  funext a
  by_cases ha : a = q
  · rw [ha, prev, setNext, Function.update_self, Option.map_map]
    rfl
  · rw [prev, setNext, Function.update_of_ne ha, prev]

@[simp] theorem next_setPrev (m : Mem) (q x : Nat) : next (setPrev m q x) = next m := by
  funext a
  by_cases ha : a = q
  · rw [ha, next, setPrev, Function.update_self, Option.map_map]
    rfl
  · rw [next, setPrev, Function.update_of_ne ha, next]

/-- Only links of the nodes in `S` have changed. -/
structure Relinked (S : List Nat) (m m' : Mem) : Prop where
  /-- The nodes are where they were. -/
  has : ∀ a, m' a ≠ none ↔ m a ≠ none
  /-- The other nodes have not changed. -/
  other : ∀ a, a ∉ S → m' a = m a

namespace Relinked

theorem refl (S : List Nat) (m : Mem) : Relinked S m m := ⟨fun _ ↦ Iff.rfl, fun _ _ ↦ rfl⟩

theorem trans (h : Relinked S m m') (h' : Relinked S m' m'') : Relinked S m m'' :=
  ⟨fun a ↦ (h'.has a).trans (h.has a), fun a ha ↦ (h'.other a ha).trans (h.other a ha)⟩

theorem mono (h : Relinked S m m') (hS : ∀ a ∈ S, a ∈ S') : Relinked S' m m' :=
  ⟨h.has, fun a ha ↦ h.other a fun hm ↦ ha (hS a hm)⟩

theorem update {f : Node → Node} (hq : q ∈ S) :
    Relinked S m (Function.update m q ((m q).map f)) where
  has a := by
    by_cases ha : a = q
    · rw [ha, Function.update_self, ne_eq, Option.map_eq_none_iff]
    · rw [Function.update_of_ne ha]
  other a ha := by
    refine Function.update_of_ne ?_ _ _
    rintro rfl
    exact ha hq

theorem setNext (hq : q ∈ S) : Relinked S m (setNext m q x) := update hq

theorem setPrev (hq : q ∈ S) : Relinked S m (setPrev m q x) := update hq

theorem ring (h : Relinked S m m') (hr : IsRing (next m) (prev m) n l)
    (hdis : ∀ a ∈ n :: l, a ∉ S) : IsRing (next m') (prev m') n l := by
  have heq : ∀ a ∈ n :: l, m' a = m a := fun a ha ↦ h.other a (hdis a ha)
  refine Segment.congr hr (fun a ha ↦ ?_) (fun a ha ↦ ?_) ?_
  · rw [next, heq a ha, next]
  · rw [prev, heq a (List.mem_cons_of_mem _ ha), prev]
  · rw [prev, heq n List.mem_cons_self, prev]

end Relinked

/-! ## Queues -/

/-- The queue with the sentinel `h` has the elements `l`. -/
structure IsQueue (m : Mem) (h : Nat) (l : List Nat) : Prop where
  /-- The links. -/
  ring : IsRing (next m) (prev m) h l
  /-- The elements are different, and none is the sentinel. -/
  nodup : (h :: l).Nodup

namespace IsQueue

theorem ne_none (hq : IsQueue m h l) (hx : x ∈ h :: l) : m x ≠ none := by
  have hnext := hq.ring.next_ne_none x hx
  intro hm
  rw [next, hm] at hnext
  exact hnext rfl

/-- The neighbours of an element. -/
theorem next_eq (hq : IsQueue m h (l₁ ++ x :: l₂)) : next m x = some (l₂.headD h) :=
  (Segment.append_cons.mp hq.ring).2.next_first

theorem prev_eq (hq : IsQueue m h (l₁ ++ x :: l₂)) : prev m x = some (l₁.getLastD h) :=
  (Segment.append_cons.mp hq.ring).1.back

/-- The first element. -/
theorem next_head (hq : IsQueue m h l) : next m h = some (l.headD h) := hq.ring.next_first

/-- The last element. -/
theorem prev_head (hq : IsQueue m h l) : prev m h = some (l.getLastD h) := hq.ring.back

theorem headD_mem (h : Nat) (l₁ l₂ : List Nat) : l₂.headD h ∈ h :: (l₁ ++ l₂) := by
  cases l₂ with
  | nil => exact List.mem_cons_self
  | cons y l₂ => exact List.mem_cons_of_mem _ (List.mem_append_right _ List.mem_cons_self)

theorem getLastD_mem (h : Nat) (l₁ l₂ : List Nat) : l₁.getLastD h ∈ h :: (l₁ ++ l₂) := by
  rw [← List.cons_append]
  exact List.mem_append_left _ Path.getLastD_mem

/-- The node in front of a place of a queue is linked to the one behind. -/
theorem next_getLastD (hq : IsQueue m h (l₁ ++ l₂)) :
    next m (l₁.getLastD h) = some (l₂.headD h) := by
  cases l₂ with
  | nil =>
    have hr := hq.ring
    rw [List.append_nil] at hr
    exact hr.next_last
  | cons y l₂ => exact (Segment.append_cons.mp hq.ring).1.next_last

/-- `dl_queue_remove`. -/
theorem remove (hq : IsQueue m h (l₁ ++ x :: l₂)) :
    ∃ m', remove m x = .ok m' ∧ IsQueue m' h (l₁ ++ l₂) ∧ Relinked (h :: (l₁ ++ x :: l₂)) m m' := by
  have hn := hq.nodup
  have hsmem : l₂.headD h ∈ h :: (l₁ ++ x :: l₂) := by
    have hm := headD_mem h (l₁ ++ [x]) l₂
    rwa [List.append_assoc] at hm
  have hpmem := getLastD_mem h l₁ (x :: l₂)
  have hxs : x ≠ l₂.headD h := by
    cases l₂ with
    | nil => exact (IsRing.ne_of_mem hn List.mem_cons_self List.mem_cons_self).symm
    | cons y l₂ => exact IsRing.head_ne (IsRing.nodup_right hn) List.mem_cons_self
  have hs := hq.ne_none hsmem
  have hlink : Relinked (h :: (l₁ ++ x :: l₂)) m (setPrev m (l₂.headD h) (l₁.getLastD h)) :=
    .setPrev hsmem
  have hp := (hlink.has _).mpr (hq.ne_none hpmem)
  have hprev : prev (setPrev m (l₂.headD h) (l₁.getLastD h)) x = some (l₁.getLastD h) := by
    rw [prev_setPrev hs, Function.update_of_ne hxs, hq.prev_eq]
  have hnext : next (setPrev m (l₂.headD h) (l₁.getLastD h)) x = some (l₂.headD h) := by
    rw [next_setPrev, hq.next_eq]
  refine ⟨setNext (setPrev m (l₂.headD h) (l₁.getLastD h)) (l₁.getLastD h) (l₂.headD h), ?_,
    ⟨?_, ?_⟩, hlink.trans (.setNext hpmem)⟩
  · simp only [Queue.remove, loadNext_eq hq.next_eq, loadPrev_eq hq.prev_eq, storePrev_eq hs,
      loadPrev_eq hprev, loadNext_eq hnext, storeNext_eq hp, Exec.ok_bind]
  · rw [next_setNext hp, prev_setNext, next_setPrev, prev_setPrev hs]
    exact hq.ring.remove hn
  · refine hn.sublist (List.Sublist.cons_cons _ (List.Sublist.append_left ?_ _))
    exact List.sublist_cons_self x l₂

/-- `dl_queue_insert_after`. -/
theorem insertAfter (hq : IsQueue m h (l₁ ++ l₂)) (hx : x ∉ h :: (l₁ ++ l₂)) (hm : m x ≠ none) :
    ∃ m', insertHead m (l₁.getLastD h) x = .ok m' ∧ IsQueue m' h (l₁ ++ x :: l₂) ∧
      Relinked (h :: (l₁ ++ x :: l₂)) m m' := by
  have hsub : ∀ a ∈ h :: (l₁ ++ l₂), a ∈ h :: (l₁ ++ x :: l₂) := fun a ha ↦ by
    rw [List.mem_cons, List.mem_append] at ha ⊢
    rw [List.mem_cons]
    tauto
  have hxmem : x ∈ h :: (l₁ ++ x :: l₂) :=
    List.mem_cons_of_mem _ (List.mem_append_right _ List.mem_cons_self)
  have hsmem := headD_mem h l₁ l₂
  have hpmem := getLastD_mem h l₁ l₂
  generalize hs : l₂.headD h = s at hsmem
  generalize hp : l₁.getLastD h = p at hpmem
  have hnext : next m p = some s := by rw [← hp, ← hs, hq.next_getLastD]
  have hsx : s ≠ x := fun heq ↦ hx (heq ▸ hsmem)
  have hpx : p ≠ x := fun heq ↦ hx (heq ▸ hpmem)
  -- the states between the assignments
  have h₁ : Relinked (h :: (l₁ ++ x :: l₂)) m (setNext m x s) := .setNext hxmem
  have hs₁ := (h₁.has s).mpr (hq.ne_none hsmem)
  have hnext₁ : next (setNext m x s) x = some s := by
    rw [next_setNext hm, Function.update_self]
  have h₂ := h₁.trans (.setPrev (x := x) (hsub s hsmem))
  have hx₂ := (h₂.has x).mpr hm
  have h₃ := h₂.trans (.setPrev (x := p) hxmem)
  have hp₃ := (h₃.has p).mpr (hq.ne_none hpmem)
  refine ⟨_, ?_, ⟨?_, ?_⟩, h₃.trans (.setNext (x := x) (hsub p hpmem))⟩
  · simp only [insertHead, loadNext_eq hnext, storeNext_eq hm, loadNext_eq hnext₁, storePrev_eq hs₁,
      storePrev_eq hx₂, storeNext_eq hp₃, Exec.ok_bind]
  · have hr := hq.ring.insert hq.nodup hx
    rw [next_setNext hp₃, prev_setNext, next_setPrev, prev_setPrev hx₂, next_setPrev,
      prev_setPrev hs₁, next_setNext hm, prev_setNext]
    rwa [hs, hp] at hr
  · rw [← List.cons_append, List.nodup_middle, List.nodup_cons, List.cons_append]
    exact ⟨hx, hq.nodup⟩

/-- `dl_queue_insert_head`. -/
theorem insertHead (hq : IsQueue m h l) (hx : x ∉ h :: l) (hm : m x ≠ none) :
    ∃ m', insertHead m h x = .ok m' ∧ IsQueue m' h (x :: l) ∧ Relinked (h :: x :: l) m m' :=
  have hq' : IsQueue m h ([] ++ l) := hq
  hq'.insertAfter hx hm

/-- `dl_queue_insert_tail`. -/
theorem insertTail (hq : IsQueue m h l) (hx : x ∉ h :: l) (hm : m x ≠ none) :
    ∃ m', insertTail m h x = .ok m' ∧ IsQueue m' h (l ++ [x]) ∧
      Relinked (h :: (l ++ [x])) m m' := by
  have hxmem : x ∈ h :: (l ++ [x]) :=
    List.mem_cons_of_mem _ (List.mem_append_right _ List.mem_cons_self)
  have hzmem : l.getLastD h ∈ h :: l := Path.getLastD_mem
  have hsub : ∀ a ∈ h :: l, a ∈ h :: (l ++ [x]) := fun a ha ↦ by
    rw [← List.cons_append]
    exact List.mem_append_left _ ha
  have hprev := hq.prev_head
  generalize hz : l.getLastD h = z at hzmem hprev
  have hhx : h ≠ x := fun heq ↦ hx (heq ▸ List.mem_cons_self)
  have hzx : z ≠ x := fun heq ↦ hx (heq ▸ hzmem)
  -- the states between the assignments
  have h₁ : Relinked (h :: (l ++ [x])) m (setPrev m x z) := .setPrev hxmem
  have hz₁ := (h₁.has z).mpr (hq.ne_none hzmem)
  have hprev₁ : prev (setPrev m x z) x = some z := by
    rw [prev_setPrev hm, Function.update_self]
  have h₂ := h₁.trans (.setNext (x := x) (hsub z hzmem))
  have hx₂ := (h₂.has x).mpr hm
  have h₃ := h₂.trans (.setNext (x := h) hxmem)
  have hh₃ := (h₃.has h).mpr (hq.ne_none List.mem_cons_self)
  refine ⟨_, ?_, ⟨?_, ?_⟩, h₃.trans (.setPrev (x := x) List.mem_cons_self)⟩
  · simp only [Queue.insertTail, loadPrev_eq hprev, storePrev_eq hm, loadPrev_eq hprev₁,
      storeNext_eq hz₁, storeNext_eq hx₂, storePrev_eq hh₃, Exec.ok_bind]
  · have hq' : IsQueue m h (l ++ []) := by rwa [List.append_nil]
    have hx' : x ∉ h :: (l ++ []) := by rwa [List.append_nil]
    have hr := hq'.ring.insert hq'.nodup hx'
    rw [next_setPrev, prev_setPrev hh₃, next_setNext hx₂, prev_setNext, next_setNext hz₁,
      prev_setNext, next_setPrev, prev_setPrev hm, Function.update_comm hzx,
      Function.update_comm hhx.symm]
    rwa [hz] at hr
  · rw [← List.cons_append, List.nodup_append_comm]
    exact List.nodup_cons.mpr ⟨hx, hq.nodup⟩

/-- `dl_queue_split`: the elements from `q` on go to the queue with the sentinel `n`. -/
theorem split (hq : IsQueue m h (l₁ ++ q :: l₂)) (hx : n ∉ h :: (l₁ ++ q :: l₂))
    (hm : m n ≠ none) :
    ∃ m', split m h q n = .ok m' ∧ IsQueue m' h l₁ ∧ IsQueue m' n (q :: l₂) ∧
      Relinked (n :: h :: (l₁ ++ q :: l₂)) m m' := by
  have hn := hq.nodup
  have hsub : ∀ a ∈ h :: (l₁ ++ q :: l₂), a ∈ n :: h :: (l₁ ++ q :: l₂) := fun a ha ↦
    List.mem_cons_of_mem _ ha
  have hqmem : q ∈ h :: (l₁ ++ q :: l₂) :=
    List.mem_cons_of_mem _ (List.mem_append_right _ List.mem_cons_self)
  have hamem := getLastD_mem h l₁ (q :: l₂)
  have hzmem : l₂.getLastD q ∈ h :: (l₁ ++ q :: l₂) :=
    List.mem_cons_of_mem _ (List.mem_append_right _ Path.getLastD_mem)
  have hprevh : prev m h = some (l₂.getLastD q) := by
    rw [hq.prev_head, getLastD_append_cons]
  have hprevq := hq.prev_eq
  have hr (next' prev' : Nat → Option Nat) (hnext' : next' = _) (hprev' : prev' = _) :=
    hq.ring.split hn hx hnext' hprev'
  generalize l₂.getLastD q = z at hzmem hprevh hr
  generalize l₁.getLastD h = a at hamem hprevq hr
  have hqn : q ≠ n := fun heq ↦ hx (heq ▸ hqmem)
  have hhn : h ≠ n := fun heq ↦ hx (heq ▸ List.mem_cons_self)
  -- the states between the assignments
  have h₁ : Relinked (n :: h :: (l₁ ++ q :: l₂)) m (setPrev m n z) := .setPrev List.mem_cons_self
  have hz₁ := (h₁.has z).mpr (hq.ne_none hzmem)
  have hprev₁ : prev (setPrev m n z) n = some z := by
    rw [prev_setPrev hm, Function.update_self]
  have h₂ := h₁.trans (.setNext (x := n) (hsub z hzmem))
  have hn₂ := (h₂.has n).mpr hm
  have h₃ := h₂.trans (.setNext (x := q) List.mem_cons_self)
  have hh₃ := (h₃.has h).mpr (hq.ne_none List.mem_cons_self)
  have hprev₃ : prev (setNext (setNext (setPrev m n z) z n) n q) q = some a := by
    rw [prev_setNext, prev_setNext, prev_setPrev hm, Function.update_of_ne hqn, hprevq]
  have h₄ := h₃.trans (.setPrev (x := a) (hsub h List.mem_cons_self))
  have ha₄ := (h₄.has a).mpr (hq.ne_none hamem)
  have hprev₄ : prev (setPrev (setNext (setNext (setPrev m n z) z n) n q) h a) h = some a := by
    rw [prev_setPrev hh₃, Function.update_self]
  have h₅ := h₄.trans (.setNext (x := h) (hsub a hamem))
  have hq₅ := (h₅.has q).mpr (hq.ne_none hqmem)
  obtain ⟨m', hm'⟩ : ∃ m', m' = setPrev (setNext (setPrev (setNext (setNext (setPrev m n z) z n) n
    q) h a) a h) q n := ⟨_, rfl⟩
  have hrings := hr (next m') (prev m')
    (by rw [hm', next_setPrev, next_setNext ha₄, next_setPrev, next_setNext hn₂, next_setNext hz₁,
      next_setPrev])
    (by rw [hm', prev_setPrev hq₅, prev_setNext, prev_setPrev hh₃, prev_setNext, prev_setNext,
      prev_setPrev hm])
  refine ⟨m', ?_, ⟨hrings.1, IsRing.nodup_left hn⟩, ⟨hrings.2, ?_⟩,
    hm' ▸ h₅.trans (.setPrev (x := n) (hsub q hqmem))⟩
  · simp only [Queue.split, loadPrev_eq hprevh, storePrev_eq hm, loadPrev_eq hprev₁,
      storeNext_eq hz₁, storeNext_eq hn₂, loadPrev_eq hprev₃, storePrev_eq hh₃, loadPrev_eq hprev₄,
      storeNext_eq ha₄, storePrev_eq hq₅, Exec.ok_bind, hm']
  · rw [List.nodup_cons]
    exact ⟨fun hm ↦ hx (List.mem_cons_of_mem _ (List.mem_append_right _ hm)),
      IsRing.nodup_right hn⟩

/-- `dl_queue_add`: the elements of the queue with the sentinel `n` go behind those of the queue
with the sentinel `h`. -/
theorem add (hq : IsQueue m h l) (hk : IsQueue m n (x :: k))
    (hdis : ∀ r ∈ h :: l, r ∉ n :: x :: k) :
    ∃ m', add m h n = .ok m' ∧ IsQueue m' h (l ++ x :: k) ∧
      Relinked (h :: (l ++ x :: k)) m m' := by
  have hn := (List.nodup_cons.mp hk.nodup).2
  have hdis' : ∀ r ∈ h :: l, r ∉ x :: k := fun r hr hm ↦ hdis r hr (List.mem_cons_of_mem _ hm)
  have hsub : ∀ a ∈ h :: l, a ∈ h :: (l ++ x :: k) := fun a ha ↦ by
    rw [← List.cons_append]
    exact List.mem_append_left _ ha
  have hsub' : ∀ a ∈ x :: k, a ∈ h :: (l ++ x :: k) := fun a ha ↦
    List.mem_cons_of_mem _ (List.mem_append_right _ ha)
  have hzmem : l.getLastD h ∈ h :: l := Path.getLastD_mem
  have hwmem : k.getLastD x ∈ x :: k := Path.getLastD_mem
  have hprevh := hq.prev_head
  have hnextn : next m n = some x := hk.next_head
  have hprevn : prev m n = some (k.getLastD x) := by
    rw [hk.prev_head, List.getLastD_cons]
  have hr (next' prev' : Nat → Option Nat) (hnext' : next' = _) (hprev' : prev' = _) :=
    hq.ring.add hk.ring hq.nodup hn hdis' hnext' hprev'
  generalize l.getLastD h = z at hzmem hprevh hr
  generalize k.getLastD x = w at hwmem hprevn hr
  have hzn : n ≠ z := fun heq ↦ hdis z hzmem (heq ▸ List.mem_cons_self)
  have hhx : h ≠ x := fun heq ↦ hdis' h List.mem_cons_self (heq ▸ List.mem_cons_self)
  have hxn : n ≠ x := IsRing.head_ne hk.nodup List.mem_cons_self
  have hz := hq.ne_none hzmem
  -- the states between the assignments
  have h₁ : Relinked (h :: (l ++ x :: k)) m (setNext m z x) := .setNext (hsub z hzmem)
  have hx₁ := (h₁.has x).mpr (hk.ne_none (List.mem_cons_of_mem _ List.mem_cons_self))
  have hnext₁ : next (setNext m z x) n = some x := by
    rw [next_setNext hz, Function.update_of_ne hzn, hnextn]
  have hprev₁ : prev (setNext m z x) h = some z := by
    rw [prev_setNext, hprevh]
  have h₂ := h₁.trans (.setPrev (x := z) (hsub' x List.mem_cons_self))
  have hh₂ := (h₂.has h).mpr (hq.ne_none List.mem_cons_self)
  have hprev₂ : prev (setPrev (setNext m z x) x z) n = some w := by
    rw [prev_setPrev hx₁, Function.update_of_ne hxn, prev_setNext, hprevn]
  have h₃ := h₂.trans (.setPrev (x := w) List.mem_cons_self)
  have hw₃ := (h₃.has w).mpr (hk.ne_none (List.mem_cons_of_mem _ hwmem))
  have hprev₃ : prev (setPrev (setPrev (setNext m z x) x z) h w) h = some w := by
    rw [prev_setPrev hh₂, Function.update_self]
  refine ⟨_, ?_, ⟨?_, ?_⟩, h₃.trans (.setNext (x := h) (hsub' w hwmem))⟩
  · simp only [Queue.add, loadPrev_eq hprevh, loadNext_eq hnextn, storeNext_eq hz,
      loadNext_eq hnext₁, loadPrev_eq hprev₁, storePrev_eq hx₁, loadPrev_eq hprev₂,
      storePrev_eq hh₂, loadPrev_eq hprev₃, storeNext_eq hw₃, Exec.ok_bind]
  · refine hr _ _ ?_ ?_
    · rw [next_setNext hw₃, next_setPrev, next_setPrev, next_setNext hz]
    · rw [prev_setNext, prev_setPrev hh₂, prev_setPrev hx₁, prev_setNext]
  · rw [← List.cons_append, List.nodup_append]
    exact ⟨hq.nodup, hn, fun a ha b hb heq ↦ hdis' a ha (heq ▸ hb)⟩

end IsQueue

/-- A queue with three elements. -/
def three : Mem := fun a ↦ [⟨3, 1⟩, ⟨0, 2⟩, ⟨1, 3⟩, ⟨2, 0⟩][a]?

theorem isQueue_three : IsQueue three 0 [1, 2, 3] :=
  ⟨⟨⟨rfl, rfl, rfl, rfl, rfl, rfl, rfl⟩, rfl⟩, by decide⟩

/-- `dl_queue_init`. -/
theorem isQueue_init (hm : m q ≠ none) :
    ∃ m', init m q = .ok m' ∧ IsQueue m' q [] ∧ Relinked [q] m m' := by
  have h₁ : Relinked [q] m (setPrev m q q) := .setPrev List.mem_cons_self
  have hq₁ := (h₁.has q).mpr hm
  refine ⟨_, ?_, ⟨.nil ?_ ?_, List.nodup_singleton q⟩,
    h₁.trans (.setNext (x := q) List.mem_cons_self)⟩
  · simp only [init, storePrev_eq hm, storeNext_eq hq₁, Exec.ok_bind]
  · rw [next_setNext hq₁, Function.update_self]
  · rw [prev_setNext, prev_setPrev hm, Function.update_self]

/-- `dl_queue_empty`. -/
theorem IsQueue.empty_eq (hq : IsQueue m h l) : empty m h = .ok (decide (l = [])) := by
  rw [empty, loadPrev_eq hq.prev_head, Exec.ok_bind, Exec.pure_eq_ok]
  congr 1
  rw [decide_eq_decide]
  refine ⟨fun heq ↦ ?_, ?_⟩
  · cases l with
    | nil => rfl
    | cons x l =>
      rw [List.getLastD_cons] at heq
      exact absurd heq (IsRing.head_ne hq.nodup Path.getLastD_mem)
  · rintro rfl
    rfl

end Dlbase.Queue
