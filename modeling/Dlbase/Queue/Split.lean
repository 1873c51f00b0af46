import Dlbase.Queue.Macros

/-!
# Splitting and joining queues

Cutting a queue in two and joining the halves gives the queue again.
-/

namespace Dlbase.Queue

open Cmem

variable {m : Mem} {h n p q r : Nat} {l k : List Nat} {S : Nat → Prop}

/-- A set that is closed under the links of a segment contains its end if it contains one of its
nodes. -/
theorem mem_of_segment {next prev : Nat → Option Nat} (hs : Segment next prev p k q)
    (hS : ∀ a b, S a → next a = some b → S b) (hr : r ∈ p :: k) (h : S r) : S q := by
  have hpath := hs.path
  clear hs
  induction k generalizing p r with
  | nil =>
    obtain rfl := List.mem_singleton.mp hr
    exact hS r q h hpath
  | cons x k ih =>
    obtain ⟨hx, -, hpath⟩ := hpath
    rcases List.mem_cons.mp hr with rfl | hr
    · exact ih List.mem_cons_self (hS r x h hx) hpath
    · exact ih hr h hpath

/-- The links lead from the nodes of a queue to its nodes. -/
theorem IsQueue.mem_of_next (hq : IsQueue m h l) {a b : Nat} (ha : a ∈ h :: l)
    (hb : next m a = some b) : b ∈ h :: l := by
  rcases List.mem_cons.mp ha with rfl | ha
  · rw [hq.next_head] at hb
    obtain rfl := Option.some.inj hb
    exact IsQueue.headD_mem a [] l
  · obtain ⟨l₁, l₂, rfl⟩ := List.append_of_mem ha
    rw [hq.next_eq] at hb
    obtain rfl := Option.some.inj hb
    have hmem := IsQueue.headD_mem h (l₁ ++ [a]) l₂
    rwa [List.append_assoc] at hmem

/-- Two queues have no node in common if the sentinel of one is not in the other. -/
theorem IsQueue.disjoint (hq : IsQueue m h l) (hk : IsQueue m n k) (hn : n ∉ h :: l) :
    ∀ r ∈ h :: l, r ∉ n :: k := fun _ hr hr' ↦
  hn (mem_of_segment (S := (· ∈ h :: l)) hk.ring (fun _ _ ↦ hq.mem_of_next) hr' hr)

/-- Cutting a queue in front of one of its elements makes two queues, and joining them makes the
queue again; joining two queues of which the second one is not empty puts their elements behind one
another. -/
theorem split_add :
    (∀ (m : Mem) (h n q : Nat) (l₁ l₂ : List Nat), IsQueue m h (l₁ ++ q :: l₂) →
      n ∉ h :: (l₁ ++ q :: l₂) → m n ≠ none →
      ∃ m', split m h q n = .ok m' ∧ IsQueue m' h l₁ ∧ IsQueue m' n (q :: l₂) ∧
        ∃ m'', add m' h n = .ok m'' ∧ IsQueue m'' h (l₁ ++ q :: l₂)) ∧
    (∀ (m : Mem) (h n : Nat) (l k : List Nat), IsQueue m h l → IsQueue m n k → n ∉ h :: l → k ≠ [] →
      ∃ m', add m h n = .ok m' ∧ IsQueue m' h (l ++ k)) := by
  have hadd : ∀ (m : Mem) (h n : Nat) (l k : List Nat), IsQueue m h l → IsQueue m n k →
      n ∉ h :: l → k ≠ [] → ∃ m', add m h n = .ok m' ∧ IsQueue m' h (l ++ k) := by
    intro m h n l k hq hk hn hne
    obtain ⟨x, k, rfl⟩ := List.exists_cons_of_ne_nil hne
    obtain ⟨m', hm', hq', -⟩ := hq.add hk (hq.disjoint hk hn)
    exact ⟨m', hm', hq'⟩
  refine ⟨fun m h n q l₁ l₂ hq hn hm ↦ ?_, hadd⟩
  obtain ⟨m', hm', hl, hr, -⟩ := hq.split hn hm
  refine ⟨m', hm', hl, hr, hadd m' h n l₁ (q :: l₂) hl hr ?_ (List.cons_ne_nil _ _)⟩
  intro hmem
  refine hn ?_
  rw [← List.cons_append]
  exact List.mem_append_left _ hmem

/-- The queue of three elements, and a sentinel for the second half. -/
def threeAndOne : Mem := three.set 9 ⟨9, 9⟩

theorem isQueue_threeAndOne : IsQueue threeAndOne 0 [1, 2, 3] :=
  ⟨⟨⟨rfl, rfl, rfl, rfl, rfl, rfl, rfl⟩, rfl⟩, by decide⟩

/-- The queue is cut in front of its second element, and the halves are joined. -/
theorem split_add_three : ∃ m', split threeAndOne 0 2 9 = .ok m' ∧ IsQueue m' 0 [1] ∧
    IsQueue m' 9 [2, 3] ∧ ∃ m'', add m' 0 9 = .ok m'' ∧ IsQueue m'' 0 [1, 2, 3] :=
  split_add.1 threeAndOne 0 9 2 [1] [3] isQueue_threeAndOne (by decide) (by rintro ⟨⟩)

end Dlbase.Queue
