import Dlbase.Slab.Start

/-!
# What no call changes

Where a pool lies and how many pages and slots it has is decided when it is initialised.  All calls
write through `store`, change words of the pages, or count.
-/

namespace Dlbase.Slab

open Cmem

variable {α β : Type} {g : Statics} {s s' : Pool} {r : Option Ref} {f : Page → Page} {x : Exec α}
  {of : α → Pool} {of' : β → Pool}

/-- The pool in the result has the layout of `s`. -/
def Keeps (s : Pool) (x : Exec α) (of : α → Pool) : Prop := ∀ a, x = .ok a → Same s (of a)

namespace Keeps

theorem ok {a : α} (h : Same s (of a)) : Keeps s (.ok a) of := fun _ ha ↦ Except.ok.inj ha ▸ h

theorem undef : Keeps s (Exec.undef : Exec α) of := nofun

/-- The second part of a sequence starts with a pool of the same layout. -/
theorem bind {k : α → Exec β} (h : Keeps s x of) (hk : ∀ a, Same s (of a) → Keeps s (k a) of') :
    Keeps s (x >>= k) of' := fun b hb ↦ by
  obtain ⟨a, ha, hb⟩ := Exec.bind_eq_ok.mp hb
  exact hk a (h a ha) b hb

/-- The first part of a sequence only reads. -/
theorem read {k : α → Exec β} (hk : ∀ a, Keeps s (k a) of') : Keeps s (x >>= k) of' := fun b hb ↦ by
  obtain ⟨a, -, hb⟩ := Exec.bind_eq_ok.mp hb
  exact hk a b hb

theorem ite {p : Prop} [Decidable p] {y : Exec α} (h : Keeps s x of) (h' : Keeps s y of) :
    Keeps s (if p then x else y) of := by
  split_ifs
  · exact h
  · exact h'

theorem store (h : Same s s') : Keeps s (s'.store r f) id := fun a ha ↦ by
  cases r with
  | none => cases ha
  | some r =>
    rw [Pool.store] at ha
    rw [Exec.ite_undef_eq_ok] at ha
    obtain rfl := Except.ok.inj ha.2
    exact h.trans (.put _ _ _)

theorem unlink {page : Page} (h : Same s s') : Keeps s (s'.unlink page) id :=
  bind (store h) fun _ h ↦ store h

end Keeps

theorem Same.setWord (h : Same s s') (a : Nat) (w : Word) : Same s (s'.setWord a w) :=
  h.trans ⟨rfl, rfl, rfl, rfl, rfl, rfl, rfl⟩

theorem Same.setStat (h : Same s s') (k : Nat) (t : Stat → Stat) : Same s (s'.setStat k t) :=
  h.trans ⟨rfl, rfl, rfl, rfl, rfl, rfl, rfl⟩

theorem Same.uncount (h : Same s s') (k : Nat) : Same s (s'.uncount k) := h.setStat k _

theorem Same.setPfree (h : Same s s') (n : BitVec 32) : Same s { s' with pfree := n } :=
  h.trans ⟨rfl, rfl, rfl, rfl, rfl, rfl, rfl⟩

theorem Same.zeroWords (h : Same s s') {bitmap n k : Nat} :
    Same s (s'.zeroWords bitmap n k) := by
  induction k generalizing s' n with
  | zero => exact h
  | succ k ih => exact ih (h.setWord _ _)

/-! ## Pages -/

theorem keeps_busyPages (h : Same s s') {i n : Nat} : Keeps s (s'.busyPages i n) id := by
  induction n generalizing s' i with
  | zero => exact .ok h
  | succ n ih => exact .bind (.store h) fun _ h ↦ ih h

theorem keeps_clearPages (h : Same s s') {i n : Nat} : Keeps s (s'.clearPages i n) id := by
  induction n generalizing s' i with
  | zero => exact .ok h
  | succ n ih => exact .bind (.store h) fun _ h ↦ ih h

theorem keeps_isolate (h : Same s s') {i n : Nat} {page : Page} :
    Keeps s (s'.isolate i n page) id :=
  .ite (.bind (.store h) fun _ h ↦ .bind (.store h) fun _ h ↦ .bind (.store h) fun _ h ↦ .store h)
    (.unlink h)

theorem keeps_allocPages (h : Same s s') {fuel n : Nat} :
    Keeps s (s'.allocPages fuel n) Prod.fst := by
  refine .read fun head ↦ .read fun r ↦ ?_
  cases r with
  | none => exact .ok h
  | some i =>
    exact .read fun page ↦ .bind (keeps_isolate h) fun _ h ↦ .bind (.store h) fun _ h ↦
      .bind (keeps_busyPages (h.setPfree _)) fun _ h ↦ .ok h

theorem keeps_joinRuns (h : Same s s') {into «from» : Nat} {listed : Page} :
    Keeps s (s'.joinRuns into «from» listed) id :=
  .read fun _ ↦ .bind (.store h) fun _ h ↦ .bind (.unlink h) fun _ h ↦ .store h

theorem keeps_joinNext (h : Same s s') {i n : Nat} : Keeps s (s'.joinNext i n) Prod.fst :=
  .read fun _ ↦ .ite (.read fun _ ↦ .ite (.bind (keeps_joinRuns h) fun _ h ↦ .ok h) (.ok h)) (.ok h)

theorem keeps_joinPrev (h : Same s s') {i n : Nat} : Keeps s (s'.joinPrev i n) Prod.fst :=
  .ite (.read fun _ ↦ .ite (.read fun _ ↦ .read fun _ ↦
    .ite (.bind (keeps_joinRuns h) fun _ h ↦ .ok h) (.ok h)) (.ok h)) (.ok h)

theorem keeps_chain (h : Same s s') {i n : Nat} : Keeps s (s'.chain i n) id :=
  .bind (.ite (.store h) (.ok h)) fun _ h ↦ .read fun _ ↦ .bind (.store h) fun _ h ↦
    .bind (.store h) fun _ h ↦ .store h

theorem keeps_freePages (h : Same s s') {i n : Nat} : Keeps s (s'.freePages i n) id :=
  .bind (.store (h.setPfree _)) fun _ h ↦ .bind (keeps_clearPages h) fun _ h ↦ .read fun _ ↦
    .bind (.ite (.unlink h) (.ok h)) fun _ h ↦ .bind (keeps_joinNext h) fun _ h ↦
      .bind (keeps_joinPrev h) fun _ h ↦ keeps_chain h

/-! ## Chunks -/

theorem same_takeBit {i lo n : Nat} {full : Word → Bool} {p : Pool × Nat × Bool}
    (hp : s.takeBit i lo n full = some p) : Same s p.1 := by
  rw [Pool.takeBit] at hp
  split at hp <;> cases hp
  exact ⟨rfl, rfl, rfl, rfl, rfl, rfl, rfl⟩

theorem same_takeChunk {i shift : Nat} {p : Pool × Nat × Bool}
    (hp : s.takeChunk g i shift = some p) : Same s p.1 := by
  rw [Pool.takeChunk] at hp
  split at hp
  · rw [Pool.takeSmall] at hp
    split at hp <;> cases hp
    exact (Same.refl s).setWord _ _
  · exact same_takeBit hp
  · exact same_takeBit hp

theorem keeps_newChunks (h : Same s s') {i slot shift : Nat} :
    Keeps s (s'.newChunks g i slot shift) Prod.fst := by
  rw [Pool.newChunks]
  split
  · exact .bind (.store (h.setWord _ _).zeroWords) fun _ h ↦ .ok h
  · exact .bind (.store h) fun _ h ↦ .ok h
  · exact .bind (.store h) fun _ h ↦ .ok h

theorem keeps_newPage (h : Same s s') {fuel slot shift : Nat} :
    Keeps s (s'.newPage g fuel slot shift) Prod.fst := by
  refine .bind (keeps_allocPages h) fun ⟨t, i⟩ h ↦ ?_
  cases i with
  | none =>
    exact .ok (h.trans ⟨rfl, rfl, rfl, rfl, rfl, rfl, rfl⟩)
  | some i =>
    exact .bind (keeps_newChunks h) fun _ h ↦ .bind (.store h) fun _ h ↦
      .ok (h.trans ⟨rfl, rfl, rfl, rfl, rfl, rfl, rfl⟩)

theorem keeps_firstPage (h : Same s s') {fuel i slot shift : Nat} :
    Keeps s (s'.firstPage g fuel i slot shift) Prod.fst := by
  rw [Pool.firstPage]
  split
  · exact keeps_newPage h
  · rename_i t c full ht
    have h := (h.trans (same_takeChunk ht)).setStat slot fun t ↦ { t with used := t.used + 1 }
    exact .bind (.ite (.read fun _ ↦ .bind (.unlink h) fun _ h ↦ .store h) (.ok h)) fun _ h ↦ .ok h

/-- `dl_slab_alloc` does not change the layout. -/
theorem keeps_alloc {fuel size : Nat} : Keeps s (s.alloc g fuel size) Prod.fst := by
  refine .ite (.bind (keeps_allocPages (.refl s)) fun _ h ↦ .ok h) ?_
  have h := (Same.refl s).setStat (s.slotOf size).1 fun t ↦ { t with reqs := t.reqs + 1 }
  refine .read fun head ↦ .read fun page ↦ .ite ?_ (keeps_newPage h)
  split
  · exact keeps_firstPage h
  · exact .undef

theorem keeps_relinkIf (h : Same s s') {i slot : Nat} {type : PageType} {full : Bool} :
    Keeps s (s'.relinkIf i slot type full) id :=
  .ite (.read fun _ ↦ .bind (.store h) fun _ h ↦ .bind (.store h) fun _ h ↦ .store h) (.ok h)

theorem keeps_releaseIf (h : Same s s') {i slot total : Nat} {empty : Bool} :
    Keeps s (s'.releaseIf i slot total empty) id :=
  .ite (.bind (keeps_freePages h) fun _ h ↦ .ok (h.setStat _ _)) (.ok (h.uncount _))

/-- `dl_slab_free` does not change the layout. -/
theorem keeps_free {p : Nat} : Keeps s (s.free g p) id := by
  have h := Same.refl s
  refine .ite (.ok h) (.read fun page ↦ ?_)
  split
  · exact .ite (.ok h) (.ite (.bind (keeps_relinkIf h) fun _ h ↦ keeps_releaseIf (h.setWord _ _))
      (.ok h))
  · exact .ite (.ok h) (.ite (.bind (keeps_relinkIf h) fun _ h ↦ .bind (.store h) fun _ h ↦
      keeps_releaseIf h) (.ok h))
  · exact .ite (.ok h) (.ite (.bind (keeps_relinkIf h) fun _ h ↦ .bind (.store h) fun _ h ↦
      keeps_releaseIf h) (.ok h))
  · exact .ite (.ok h) (keeps_freePages h)

end Dlbase.Slab
