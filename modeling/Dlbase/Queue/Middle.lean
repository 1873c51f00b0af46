import Dlbase.Queue.Macros

/-!
# The middle of a queue

One cursor of `dl_queue_middle` moves once in a round and the other one twice; after each of its
moves the second cursor is compared with the last element, and so it never gets to the sentinel.
-/

namespace Dlbase.Queue

open Cmem

variable {m : Mem} {h i j x : Nat} {l : List Nat} {s : Cursors}

/-- The states of the loop of `dl_queue_middle`. -/
inductive Reached (m : Mem) (queue : Nat) : Cursors → Prop where
  /-- The first round begins. -/
  | start {x last next : Nat} : loadNext m queue = .ok x → loadPrev m queue = .ok last → x ≠ last →
      loadNext m queue = .ok next → Reached m queue ⟨.top, x, next⟩
  /-- The loop goes on. -/
  | step {s s' : Cursors} : Reached m queue s → middleStep m queue s = .ok (.inr s') →
      Reached m queue s'

/-- In the round `i` the cursors are at the elements `i` and `2 * i`, or as far behind as they have
been moved. -/
def InRound (l : List Nat) (i : Nat) (s : Cursors) : Prop :=
  match s.point with
  | .top => l[i]? = some s.middle ∧ l[2 * i]? = some s.next ∧ 2 * i + 1 < l.length
  | .once => l[i + 1]? = some s.middle ∧ l[2 * i + 1]? = some s.next
  | .twice => l[i + 1]? = some s.middle ∧ l[2 * i + 2]? = some s.next

/-- How many moves and tests are left. -/
def left (l : List Nat) (i : Nat) (s : Cursors) : Nat :=
  3 * (l.length - i) + match s.point with
    | .top => 2
    | .once => 1
    | .twice => 0

/-! ## Elements -/

/-- The element behind an element. -/
theorem IsQueue.next_getElem? (hq : IsQueue m h l) (hx : l[i]? = some x) (hi : i + 1 < l.length) :
    ∃ y, l[i + 1]? = some y ∧ loadNext m x = .ok y := by
  have hlt : i < l.length := Nat.lt_of_succ_lt hi
  obtain rfl : l[i] = x := Option.some.inj ((List.getElem?_eq_getElem hlt).symm.trans hx)
  have hl : l = l.take i ++ l[i] :: l.drop (i + 1) := by
    rw [← List.drop_eq_getElem_cons hlt, List.take_append_drop]
  have hq' := hq
  rw [hl] at hq'
  have hnext := hq'.next_eq
  rw [List.drop_eq_getElem_cons hi, List.headD_cons] at hnext
  exact ⟨l[i + 1], List.getElem?_eq_getElem hi, loadNext_eq hnext⟩

/-- The comparison with the last element. -/
theorem IsQueue.last_iff (hq : IsQueue m h l) (hx : l[j]? = some x) :
    ∃ last, loadPrev m h = .ok last ∧ (x = last ↔ j + 1 = l.length) := by
  obtain ⟨hlt, rfl⟩ := List.getElem?_eq_some_iff.mp hx
  have hlast : l.getLastD h = l[l.length - 1] := by
    rw [List.getLastD_eq_getLast?, List.getLast?_eq_getElem?, List.getElem?_eq_getElem (by omega),
      Option.getD_some]
  refine ⟨_, loadPrev_eq hq.prev_head, ?_⟩
  rw [hlast, (List.nodup_cons.mp hq.nodup).2.getElem_inj_iff]
  omega

/-! ## The loop -/

/-- One step returns the middle or goes on. -/
theorem middleStep_spec (hq : IsQueue m h l) (hs : InRound l i s) :
    (∃ x, middleStep m h s = .ok (.inl x) ∧ l[l.length / 2]? = some x) ∨
      ∃ s' j, middleStep m h s = .ok (.inr s') ∧ InRound l j s' ∧ left l j s' < left l i s := by
  obtain ⟨point, middle, next⟩ := s
  cases point with
  | top =>
    obtain ⟨hmid, hnext, hlt⟩ := hs
    obtain ⟨y, hy, hload⟩ := hq.next_getElem? hmid (by omega)
    obtain ⟨z, hz, hload'⟩ := hq.next_getElem? hnext hlt
    refine .inr ⟨⟨.once, y, z⟩, i, ?_, ⟨hy, hz⟩, Nat.lt_succ_self _⟩
    change (loadNext m middle >>= fun y ↦ loadNext m next >>= fun z ↦ _) = _
    rw [hload, Exec.ok_bind, hload', Exec.ok_bind]
    rfl
  | once =>
    obtain ⟨hmid, hnext⟩ := hs
    obtain ⟨last, hlast, hiff⟩ := hq.last_iff hnext
    have hlt : 2 * i + 1 < l.length := (List.getElem?_eq_some_iff.mp hnext).1
    by_cases heq : next = last
    · refine .inl ⟨middle, ?_, ?_⟩
      · simp only [middleStep, hlast, Exec.ok_bind]
        exact if_pos heq
      · rw [← hmid]
        congr 1
        have hlen := hiff.mp heq
        omega
    · obtain ⟨z, hz, hload⟩ := hq.next_getElem? hnext (by
        have hne := hiff.not.mp heq
        omega)
      refine .inr ⟨⟨.twice, middle, z⟩, i, ?_, ⟨hmid, hz⟩, Nat.lt_succ_self _⟩
      simp only [middleStep, hlast, hload, Exec.ok_bind]
      exact if_neg heq
  | twice =>
    obtain ⟨hmid, hnext⟩ := hs
    obtain ⟨last, hlast, hiff⟩ := hq.last_iff hnext
    have hlt : 2 * i + 2 < l.length := (List.getElem?_eq_some_iff.mp hnext).1
    by_cases heq : next = last
    · refine .inl ⟨middle, ?_, ?_⟩
      · simp only [middleStep, hlast, Exec.ok_bind]
        exact if_pos heq
      · rw [← hmid]
        congr 1
        have hlen := hiff.mp heq
        omega
    · have hne := hiff.not.mp heq
      refine .inr ⟨⟨.top, middle, next⟩, i + 1, ?_, ⟨hmid, hnext, by omega⟩, ?_⟩
      · simp only [middleStep, hlast, Exec.ok_bind]
        exact if_neg heq
      · change 3 * (l.length - (i + 1)) + 2 < 3 * (l.length - i) + 0
        omega

/-- The loop returns the middle. -/
theorem middleLoop_eq (hq : IsQueue m h l) {n fuel : Nat} (hs : InRound l i s) (hn : left l i s ≤ n)
    (hfuel : n < fuel) : ∃ x, middleLoop m h fuel s = .ok x ∧ l[l.length / 2]? = some x := by
  induction n generalizing i s fuel with
  | zero =>
    obtain ⟨fuel, rfl⟩ : ∃ k, fuel = k + 1 := ⟨fuel - 1, by omega⟩
    rcases middleStep_spec hq hs with ⟨x, hx, hl⟩ | ⟨s', j, -, -, hlt⟩
    · rw [middleLoop, hx, Exec.ok_bind]
      exact ⟨x, rfl, hl⟩
    · omega
  | succ n ih =>
    obtain ⟨fuel, rfl⟩ : ∃ k, fuel = k + 1 := ⟨fuel - 1, by omega⟩
    rcases middleStep_spec hq hs with ⟨x, hx, hl⟩ | ⟨s', j, hstep, hs', hlt⟩
    · rw [middleLoop, hx, Exec.ok_bind]
      exact ⟨x, rfl, hl⟩
    · rw [middleLoop, hstep, Exec.ok_bind]
      exact ih hs' (by omega) (by omega)

/-- Both cursors are at the first element when the loop begins. -/
theorem inRound_start (hl : 2 ≤ l.length) :
    InRound l 0 ⟨.top, l.headD h, l.headD h⟩ := by
  have hhead : l[0]? = some (l.headD h) := by
    cases l with
    | nil => exact absurd hl (by decide)
    | cons x l => rfl
  exact ⟨hhead, hhead, hl⟩

/-- In each state the cursors are at elements. -/
theorem Reached.inRound (hq : IsQueue m h l) (hr : Reached m h s) : ∃ i, InRound l i s := by
  induction hr with
  | @start x last next hx hlast hne hnext =>
    obtain rfl := Except.ok.inj ((loadNext_eq hq.next_head).symm.trans hx)
    obtain rfl := Except.ok.inj ((loadNext_eq hq.next_head).symm.trans hnext)
    obtain rfl := Except.ok.inj ((loadPrev_eq hq.prev_head).symm.trans hlast)
    refine ⟨0, inRound_start ?_⟩
    rcases l with _ | ⟨x, _ | ⟨y, l⟩⟩
    · exact absurd rfl hne
    · exact absurd rfl hne
    · exact Nat.succ_le_succ (Nat.succ_le_succ (Nat.zero_le _))
  | step _ hstep ih =>
    obtain ⟨i, hi⟩ := ih
    rcases middleStep_spec hq hi with ⟨x, hx, -⟩ | ⟨s', j, hs', hj, -⟩
    · rw [hx] at hstep
      cases hstep
    · rw [hs'] at hstep
      obtain rfl := Sum.inr.inj (Except.ok.inj hstep)
      exact ⟨j, hj⟩

theorem InRound.mem (hs : InRound l i s) : s.middle ∈ l ∧ s.next ∈ l := by
  obtain ⟨point, middle, next⟩ := s
  cases point with
  | top => exact ⟨List.mem_of_getElem? hs.1, List.mem_of_getElem? hs.2.1⟩
  | once => exact ⟨List.mem_of_getElem? hs.1, List.mem_of_getElem? hs.2⟩
  | twice => exact ⟨List.mem_of_getElem? hs.1, List.mem_of_getElem? hs.2⟩

/-- `dl_queue_middle` comes to an end and returns the element in the middle, and its cursors do not
get to the sentinel. -/
theorem middle_eq (hq : IsQueue m h l) (hl : 1 ≤ l.length) :
    (∃ x, Returns (fun fuel ↦ middle fuel m h) x ∧ l[l.length / 2]? = some x) ∧
      ∀ s, Reached m h s → s.middle ∈ l ∧ s.next ∈ l := by
  refine ⟨?_, fun s hs ↦ (hs.inRound hq).elim fun _ hi ↦ hi.mem⟩
  have hrun (fuel : Nat) : middle fuel m h = if l.headD h = l.getLastD h then .ok (l.headD h)
      else middleLoop m h fuel ⟨.top, l.headD h, l.headD h⟩ := by
    simp only [middle, loadNext_eq hq.next_head, loadPrev_eq hq.prev_head, Exec.ok_bind]
    rfl
  rcases l with _ | ⟨x, _ | ⟨y, l⟩⟩
  · exact absurd hl (by decide)
  · refine ⟨x, ⟨0, fun fuel _ ↦ (hrun fuel).trans (if_pos rfl)⟩, ?_⟩
    rw [List.length_singleton]
    rfl
  · have hne : x ≠ (x :: y :: l).getLastD h := by
      rw [List.getLastD_cons, List.getLastD_cons]
      exact IsRing.head_ne (List.nodup_cons.mp hq.nodup).2 Path.getLastD_mem
    have hs := inRound_start (h := h) (l := x :: y :: l)
      (Nat.succ_le_succ (Nat.succ_le_succ (Nat.zero_le _)))
    obtain ⟨z, hz, hl⟩ := middleLoop_eq hq hs (Nat.le_refl _) (Nat.lt_succ_self _)
    refine ⟨z, ⟨left (x :: y :: l) 0 ⟨.top, x, x⟩ + 1, fun fuel hfuel ↦ ?_⟩, hl⟩
    obtain ⟨z', hz', hl'⟩ := middleLoop_eq hq hs (Nat.le_refl _) hfuel
    obtain rfl := Option.some.inj (hl.symm.trans hl')
    exact (hrun fuel).trans ((if_neg hne).trans hz')

/-- The middle of three elements. -/
theorem middle_eq_three :
    (∃ x, Returns (fun fuel ↦ middle fuel three 0) x ∧ [1, 2, 3][3 / 2]? = some x) ∧
      ∀ s, Reached three 0 s → s.middle ∈ [1, 2, 3] ∧ s.next ∈ [1, 2, 3] :=
  middle_eq isQueue_three (by decide)

end Dlbase.Queue
