import Dlbase.Lib.StableSort
import Dlbase.Queue.Macros

/-!
# Sorting a queue

`dl_queue_sort` takes the elements out one after the other and puts them back behind the last one
that is not greater.  In front of the element that comes next the queue is sorted.
-/

namespace Dlbase.Queue

open Cmem

variable {cmp : Nat → Nat → Int} {m : Mem} {h q : Nat} {l A B P S : List Nat} {fuel : Nat}

/-- The order of a comparison. -/
def Le (cmp : Nat → Nat → Int) (a b : Nat) : Prop := cmp a b ≤ 0

instance (cmp : Nat → Nat → Int) : DecidableRel (Le cmp) :=
  fun a b ↦ inferInstanceAs (Decidable (cmp a b ≤ 0))

/-- The inner loop finds the node in front of the place of `q`. -/
theorem sortScan_eq (hq : IsQueue m h (A ++ B)) (hA : A ≠ []) (hfuel : A.length ≤ fuel) :
    sortScan cmp m h q fuel (A.getLastD h) = .ok ((frontOf (Le cmp) q A).getLastD h) := by
  induction A using List.reverseRecOn generalizing B fuel with
  | nil => exact absurd rfl hA
  | append_singleton A p ih =>
    rw [List.length_append, List.length_singleton] at hfuel
    obtain ⟨fuel, rfl⟩ : ∃ k, fuel = k + 1 := ⟨fuel - 1, by omega⟩
    have hp : (A ++ [p]).getLastD h = p := getLastD_append_cons h p A []
    have hq' := hq
    rw [List.append_assoc, List.singleton_append] at hq'
    rw [hp, sortScan]
    by_cases hle : cmp p q ≤ 0
    · have hfront : frontOf (Le cmp) q (A ++ [p]) = A ++ [p] :=
        List.rdropWhile_concat_neg _ _ _ (by rwa [decide_eq_true_eq, not_not])
      rw [if_pos hle, hfront, hp]
      rfl
    · have hfront : frontOf (Le cmp) q (A ++ [p]) = frontOf (Le cmp) q A :=
        List.rdropWhile_concat_pos _ _ _ (by rwa [decide_eq_true_eq])
      rw [if_neg hle, loadPrev_eq hq'.prev_eq, Exec.ok_bind, hfront]
      rcases List.eq_nil_or_concat' A with rfl | ⟨A, x, rfl⟩
      · exact if_pos rfl
      · have hne : (A ++ [x]).getLastD h ≠ h := by
          rw [getLastD_append_cons]
          refine (IsRing.head_ne hq'.nodup ?_).symm
          exact List.mem_append_left _ (List.mem_append_right _ List.mem_cons_self)
        rw [if_neg hne]
        exact ih hq' (List.append_ne_nil_of_right_ne_nil _ (List.cons_ne_nil _ _)) (by omega)

/-- A round of the outer loop puts one more element in its place. -/
theorem sort_round (cmp : Nat → Nat → Int) (hq : IsQueue m h (A ++ q :: B)) (hA : A ≠ []) :
    ∃ m₁ m₂, remove m q = .ok m₁ ∧
      (∀ fuel, A.length ≤ fuel →
        sortScan cmp m₁ h q fuel (A.getLastD h) = .ok ((frontOf (Le cmp) q A).getLastD h)) ∧
      insertHead m₁ ((frontOf (Le cmp) q A).getLastD h) q = .ok m₂ ∧
      IsQueue m₂ h ((frontOf (Le cmp) q A ++ q :: backOf (Le cmp) q A) ++ B) ∧
      Relinked (h :: (A ++ q :: B)) m m₂ := by
  obtain ⟨m₁, hm₁, hq₁, hlink₁⟩ := hq.remove
  have hmem : q ∈ h :: (A ++ q :: B) :=
    List.mem_cons_of_mem _ (List.mem_append_right _ List.mem_cons_self)
  have hnot : q ∉ h :: (A ++ B) := by
    have hn := hq.nodup
    rw [← List.cons_append, List.nodup_middle, List.nodup_cons] at hn
    exact hn.1
  have hsplit : A ++ B = frontOf (Le cmp) q A ++ (backOf (Le cmp) q A ++ B) := by
    rw [← List.append_assoc, frontOf_append_backOf]
  have hq₁' := hq₁
  rw [hsplit] at hq₁' hnot
  obtain ⟨m₂, hm₂, hq₂, hlink₂⟩ := hq₁'.insertAfter hnot ((hlink₁.has q).mpr (hq.ne_none hmem))
  refine ⟨m₁, m₂, hm₁, fun fuel hfuel ↦ sortScan_eq hq₁ hA hfuel, hm₂, ?_,
    hlink₁.trans (hlink₂.mono fun a ha ↦ ?_)⟩
  · rwa [List.append_assoc, List.cons_append]
  · have hperm : (h :: (frontOf (Le cmp) q A ++ q :: (backOf (Le cmp) q A ++ B))).Perm
        (h :: (A ++ q :: B)) := by
      refine List.Perm.cons h (List.perm_middle.trans ?_)
      rw [← hsplit]
      exact List.perm_middle.symm
    exact hperm.mem_iff.mp ha

/-- The outer loop, when the elements `A` in front of the next one are sorted. -/
theorem sortLoop_spec [Std.Total (Le cmp)] [IsTrans Nat (Le cmp)] (hq : IsQueue m h (A ++ B))
    (hA : A ≠ []) (hsort : StableSort (Le cmp) P A) :
    ∃ m' l', (∀ fuel, A.length + 2 * B.length < fuel →
        sortLoop cmp h fuel m (B.headD h) = .ok m') ∧
      IsQueue m' h l' ∧ StableSort (Le cmp) (P ++ B) l' ∧ Relinked (h :: (A ++ B)) m m' := by
  induction B generalizing A P m with
  | nil =>
    rw [List.append_nil] at hq
    refine ⟨m, A, fun fuel hfuel ↦ ?_, hq, (List.append_nil P).symm ▸ hsort, .refl _ _⟩
    obtain ⟨fuel, rfl⟩ : ∃ k, fuel = k + 1 := ⟨fuel - 1, by omega⟩
    exact if_pos rfl
  | cons q B ih =>
    have hne : q ≠ h := (IsRing.ne_of_mem hq.nodup List.mem_cons_self List.mem_cons_self).symm
    obtain ⟨m₁, m₂, hm₁, hscan, hm₂, hq₂, hlink⟩ := sort_round cmp hq hA
    have hlen : (frontOf (Le cmp) q A ++ q :: backOf (Le cmp) q A).length = A.length + 1 := by
      have hsum := congrArg List.length (frontOf_append_backOf (Le cmp) q A)
      rw [List.length_append] at hsum
      rw [List.length_append, List.length_cons]
      omega
    obtain ⟨m', l', hm', hq', hsort', hlink'⟩ := ih hq₂
      (List.append_ne_nil_of_right_ne_nil _ (List.cons_ne_nil _ _)) (hsort.insert q)
    refine ⟨m', l', fun fuel hfuel ↦ ?_, hq', ?_, hlink.trans (hlink'.mono fun a ha ↦ ?_)⟩
    · rw [List.length_cons] at hfuel
      obtain ⟨fuel, rfl⟩ : ∃ k, fuel = k + 1 := ⟨fuel - 1, by omega⟩
      rw [List.headD_cons, sortLoop, if_neg hne, loadPrev_eq hq.prev_eq, Exec.ok_bind,
        loadNext_eq hq.next_eq, Exec.ok_bind, hm₁, Exec.ok_bind, hscan fuel (by omega),
        Exec.ok_bind, hm₂, Exec.ok_bind]
      exact hm' fuel (by omega)
    · rwa [List.append_assoc, List.singleton_append] at hsort'
    · have hperm : ((frontOf (Le cmp) q A ++ q :: backOf (Le cmp) q A) ++ B).Perm
          (A ++ q :: B) := by
        rw [List.append_assoc, List.cons_append]
        refine List.perm_middle.trans ?_
        rw [← List.append_assoc, frontOf_append_backOf]
        exact List.perm_middle.symm
      exact (hperm.cons h).mem_iff.mp ha

/-- `dl_queue_sort` sorts the queue. -/
theorem sort_spec (cmp : Nat → Nat → Int) [Std.Total (Le cmp)] [IsTrans Nat (Le cmp)]
    (hq : IsQueue m h l) :
    ∃ m' l', Returns (fun fuel ↦ sort cmp fuel m h) m' ∧ IsQueue m' h l' ∧
      StableSort (Le cmp) l l' ∧ Relinked (h :: l) m m' := by
  have hrun (fuel : Nat) : sort cmp fuel m h =
      if l.headD h = l.getLastD h then .ok m
      else (loadNext m (l.headD h) >>= fun q ↦ sortLoop cmp h fuel m q) := by
    simp only [Queue.sort, loadNext_eq hq.next_head, loadPrev_eq hq.prev_head, Exec.ok_bind]
    rfl
  rcases l with _ | ⟨x, _ | ⟨y, B⟩⟩
  · exact ⟨m, [], ⟨0, fun fuel _ ↦ (hrun fuel).trans (if_pos rfl)⟩, hq, .refl .nil, .refl _ _⟩
  · exact ⟨m, [x], ⟨0, fun fuel _ ↦ (hrun fuel).trans (if_pos rfl)⟩, hq, .singleton _ x, .refl _ _⟩
  · obtain ⟨m', l', hm', hq₁, hsort, hlink⟩ := sortLoop_spec hq
      (List.cons_ne_nil _ _) (.singleton (Le cmp) x)
    have hne : x ≠ (x :: y :: B).getLastD h := by
      rw [List.getLastD_cons, List.getLastD_cons]
      exact IsRing.head_ne (List.nodup_cons.mp hq.nodup).2 Path.getLastD_mem
    have hq' : IsQueue m h ([] ++ x :: y :: B) := hq
    have hnext : next m x = some y := hq'.next_eq
    refine ⟨m', l', ⟨2 * (y :: B).length + 2, fun fuel hfuel ↦ ?_⟩, hq₁, hsort, hlink⟩
    refine (hrun fuel).trans ?_
    rw [List.headD_cons, if_neg hne, loadNext_eq hnext, Exec.ok_bind]
    exact hm' fuel (by rw [List.length_singleton]; omega)

/-- `dl_queue_sort` comes to an end, and the queue has the same elements then, sorted, and equal
ones in the order they had. -/
theorem sort_stable (htotal : ∀ a b, cmp a b ≤ 0 ∨ cmp b a ≤ 0)
    (htrans : ∀ a b c, cmp a b ≤ 0 → cmp b c ≤ 0 → cmp a c ≤ 0) (hq : IsQueue m h l) :
    ∃ m' l', Returns (fun fuel ↦ sort cmp fuel m h) m' ∧ IsQueue m' h l' ∧ l'.Perm l ∧
      l'.Pairwise (fun a b ↦ cmp a b ≤ 0) ∧
      (∀ a b, cmp a b ≤ 0 → cmp b a ≤ 0 → [a, b].Sublist l → [a, b].Sublist l') ∧
      ∀ a, a ∉ h :: l → m' a = m a := by
  have : Std.Total (Le cmp) := ⟨htotal⟩
  have : IsTrans Nat (Le cmp) := ⟨htrans⟩
  obtain ⟨m', l', hm', hq', hsort, hlink⟩ := sort_spec cmp hq
  exact ⟨m', l', hm', hq', hsort.perm, hsort.sorted, fun a b hab _ ↦ hsort.pair hab, hlink.other⟩

/-- Even addresses before odd ones. -/
theorem sort_stable_three :
    ∃ m' l', Returns (fun fuel ↦ sort (fun a b ↦ (a % 2 : Int) - b % 2) fuel three 0) m' ∧
      IsQueue m' 0 l' ∧ l'.Perm [1, 2, 3] ∧
      l'.Pairwise (fun a b : Nat ↦ (a % 2 : Int) - b % 2 ≤ 0) ∧
      (∀ a b : Nat, (a % 2 : Int) - b % 2 ≤ 0 → (b % 2 : Int) - a % 2 ≤ 0 →
        [a, b].Sublist [1, 2, 3] → [a, b].Sublist l') ∧
      ∀ a, a ∉ [0, 1, 2, 3] → m' a = three a :=
  sort_stable (fun a b ↦ by omega) (fun a b c hab hbc ↦ by omega) isQueue_three

end Dlbase.Queue
