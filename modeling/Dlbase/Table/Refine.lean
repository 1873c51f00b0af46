import Dlbase.Table.Runs

/-!
# What keys are found with

A key is found with the value that it has been set to last, and with none after it has been deleted.
For integers this needs no more than that no string key begins with another one.  A string key itself
can be found under another string that it begins with.
-/

namespace Dlbase.Table

open Cmem

/-- None of the strings begins with another one. -/
def PrefixFree (S : Set (List UInt8)) : Prop := ∀ s ∈ S, ∀ u ∈ S, s <+: u → s = u

/-- The key is an integer, or one of the strings. -/
def Content.In (S : Set (List UInt8)) : Content → Prop
  | int _ => True
  | str s => s ∈ S

/-- An integer is not set to a pointer. -/
def Call.NoPointer : Call → Prop
  | set (.int _) (.void _) => False
  | _ => True

variable {A : Malloc} {t : DlTable} {E : Entries} {S : Set (List UInt8)} {c : Content} {call : Call}
  {s : List UInt8} {hist : List (Call × Status)}

/-! ## Integers -/

/-- Strings of which none begins with another one are told apart. -/
theorem PrefixFree.told (hS : PrefixFree S) (h : Shape t E) (hK : KeysIn t.mem E {u | u.In S})
    (hc : c.In S) : Told t c := by
  have hin : ∀ s, Present t (.str s) ∨ c = .str s → s ∈ S := by
    rintro s ((⟨k, hk, -⟩ | ⟨i, x, hi, hx, hu⟩) | rfl)
    · cases hk
    · exact hK _ (h.mem_of_load hi hx hu) _ hu
    · exact hc
  exact fun s u hs hu hpre ↦ hS s (hin s hs) u (hin u hu) hpre

theorem Told.safe (h : Told t call.key) : Safe t call := by
  cases call with
  | set c d => exact ⟨h.clear, fun _ ↦ h⟩
  | del c => exact h.clear

/-- Runs with keys of which none begins with another one. -/
theorem Run.exact_of_prefixFree {pre : DlTable → Call → Prop} (hA : ∀ i, A.fails i = false)
    (hS : PrefixFree S) (hpre : ∀ t call, pre t call → call.key.In S) (hrun : Run A pre t hist) :
    ∃ E, Exact t E ∧ KeysIn t.mem E {u | u.In S} ∧
      ∀ k, (∀ t call, pre t call → call.key = k → Effective t call) →
        ∀ d, Has t.mem E k d ↔ lastSet k hist = some d :=
  hrun.exact hA fun t call hcall ↦
    ⟨hpre t call hcall, fun _ h hK ↦ (hS.told h.shape hK (hpre t call hcall)).safe⟩

/-- Calls with keys of which none begins with another one are safe. -/
theorem Run.safe_of_prefixFree {pre post : DlTable → Call → Prop} (hA : ∀ i, A.fails i = false)
    (hS : PrefixFree S) (hpre : ∀ t call, pre t call → call.key.In S)
    (hpost : ∀ t call, Safe t call → pre t call → post t call) (hrun : Run A pre t hist) :
    Run A post t hist := by
  induction hrun with
  | new hm hnew => exact .new hm hnew
  | call hrun hcall hstep ih =>
    obtain ⟨E, h, hK, -⟩ := hrun.exact_of_prefixFree hA hS hpre
    exact .call ih (hpost _ _ (hS.told h.shape hK (hpre _ _ hcall)).safe hcall) hstep

/-- An integer is found with the value that it has been set to last. -/
theorem findByIndex_lastSet (hA : ∀ i, A.fails i = false) (hS : PrefixFree S)
    (hrun : Run A (fun _ call ↦ call.key.In S ∧ call.NoPointer) t hist) (k : Int) :
    ∃ o, Returns (fun fuel ↦ findByIndex fuel t k) o ∧ Yields t o (lastSet (.int k) hist) := by
  obtain ⟨E, h, -, hhas⟩ := hrun.exact_of_prefixFree hA hS fun t call hcall ↦ hcall.1
  have hlast := hhas (.int k) fun t call ⟨_, hcall⟩ hkey ↦ by
    cases call with
    | set c d =>
      obtain rfl : c = .int k := hkey
      cases d with
      | void p => cases hcall
      | int n => trivial
      | str s => trivial
    | del c => trivial
  obtain ⟨o, N, hret⟩ := h.shape.find_returns (c := .int k) h.owns.keys trivial
  obtain ⟨r, hyields, hr, -⟩ := find_yields h (c := .int k) trivial (hret N le_rfl)
  obtain rfl : r = lastSet (.int k) hist :=
    Option.ext fun d ↦ (hr d).symm.trans (hlast d)
  exact ⟨o, ⟨N, hret⟩, hyields⟩

/-! ## Strings -/

/-- A string is found with the value that it has been set to last if no search meets a string that
begins with the one that it looks for, or that this one begins with, and if no strings of this kind
are there when a rehash is needed.  Neither must a setter for pointers take another value for the
pointer. -/
theorem findByStr_lastSet (hA : ∀ i, A.fails i = false)
    (hrun : Run A (fun t call ↦ Safe t call ∧ (call.key = .str s → Effective t call)) t hist)
    (hclear : Clear t (.str s)) :
    ∃ o, Returns (fun fuel ↦ findByStr fuel t s) o ∧ Yields t o (lastSet (.str s) hist) ∧
      (lastSet (.str s) hist = none → o = none) := by
  obtain ⟨E, h, -, hhas⟩ := hrun.exact (K := Set.univ) hA fun t call hcall ↦
    ⟨trivial, fun _ _ _ ↦ hcall.1⟩
  have hlast := hhas (.str s) fun t call hcall ↦ hcall.2
  obtain ⟨o, N, hret⟩ := h.shape.find_returns h.owns.keys hclear
  obtain ⟨r, hyields, hr, hnone⟩ := find_yields h hclear (hret N le_rfl)
  obtain rfl : r = lastSet (.str s) hist := Option.ext fun d ↦ (hr d).symm.trans (hlast d)
  refine ⟨o, ⟨N, hret⟩, hyields, fun hl ↦ (hnone hl).resolve_right ?_⟩
  rintro ⟨i, hi⟩
  cases hi

/-- A table with one node. -/
def oneNode : DlTable where
  mem _ := none
  allocs := 1
  voids := []
  lsizenode := 0
  sizearray := 0
  array := none
  arrayId := 0
  node := .nodes (freeNodes 1)
  lastfree := some 1

theorem run_oneNode (P : DlTable → Call → Prop) : Run .reliable P oneNode [] := by
  have hinit := fun t ↦ nodeInit_eq (A := .reliable) (t := t) (fun _ ↦ rfl) Nat.one_pos
    Nat.one_le_two_pow
  have hnew : tableNew .reliable (fun _ ↦ none) 0 0 1 = some oneNode := by
    unfold tableNew arrayInit
    simp only [Nat.cast_one] at hinit
    simp only [hinit]
    rfl
  exact .new ⟨0, fun _ _ ↦ rfl⟩ hnew

/-- The second of two keys finds the node in use, and a rehash makes a second node. -/
theorem exists_run_two {P : DlTable → Call → Prop} (call₁ call₂ : Call) (h₁ : ∀ t, P t call₁)
    (h₂ : ∀ t, P t call₂) (hsteps : (call₁.run .reliable 4 4 oneNode >>= fun r ↦
      call₂.run .reliable 4 4 r.1 >>= fun r' ↦ pure (r.2, r'.2, r'.1.sizenode)) =
        .ok (.ok, .ok, 2)) :
    ∃ t, Run .reliable P t [(call₂, .ok), (call₁, .ok)] ∧ t.sizenode = 2 := by
  obtain ⟨⟨t₁, st₁⟩, hstep₁, hrest⟩ := Exec.bind_eq_ok.mp hsteps
  obtain ⟨⟨t₂, st₂⟩, hstep₂, hrest⟩ := Exec.bind_eq_ok.mp hrest
  obtain ⟨rfl, rfl, hsize⟩ : st₁ = .ok ∧ st₂ = .ok ∧ t₂.sizenode = 2 := by
    simpa using Except.ok.inj hrest
  exact ⟨t₂, .call (.call (run_oneNode P) (h₁ _) hstep₁) (h₂ _) hstep₂, hsize⟩

/-- The numbers that have been stored under two integers are found, also after a rehash. -/
theorem findByIndex_lastSet_rehash : ∃ t, Run .reliable (fun _ call ↦ call.key.In ∅ ∧ call.NoPointer)
    t [(.set (.int (-2)) (.int 8), .ok), (.set (.int (-1)) (.int 7), .ok)] ∧ t.sizenode = 2 ∧
      (∃ o, Returns (fun fuel ↦ findByIndex fuel t (-1)) o ∧ Yields t o (some (.int 7))) ∧
      (∃ o, Returns (fun fuel ↦ findByIndex fuel t (-2)) o ∧ Yields t o (some (.int 8))) ∧
      ∃ o, Returns (fun fuel ↦ findByIndex fuel t (-3)) o ∧ Yields t o none := by
  obtain ⟨t, hrun, hsize⟩ := exists_run_two (P := fun _ call ↦ call.key.In ∅ ∧ call.NoPointer)
    (.set (.int (-1)) (.int 7)) (.set (.int (-2)) (.int 8)) (fun _ ↦ ⟨trivial, trivial⟩)
    (fun _ ↦ ⟨trivial, trivial⟩) (by decide +kernel)
  have hfind := findByIndex_lastSet (fun _ ↦ rfl) (fun s hs ↦ absurd hs (Set.notMem_empty s)) hrun
  exact ⟨t, hrun, hsize, hfind (-1), hfind (-2), hfind (-3)⟩

/-- One node, with an integer that has been set to `7`. -/
def oneKey (k : Int) : Objects Node :=
  ((freeNodes 1).set 0 ⟨⟨0, .nil⟩, .int k, none⟩).set 0 ⟨⟨7, .int⟩, .int k, none⟩

/-- The table after the integer has been set to `7`. -/
def full (k : Int) : DlTable := { oneNode with node := .nodes (oneKey k) }

theorem run_full {k : Int} (P : DlTable → Call → Prop) (hP : P oneNode (.set (.int k) (.int 7)))
    (h : setter .reliable 1 1 oneNode (.int k) (.int 7) = .ok (full k, .ok)) :
    Run .reliable P (full k) [(.set (.int k) (.int 7), .ok)] :=
  .call (run_oneNode P) hP h

theorem crowded_full {k n : Int} (h : k ≠ n) : Crowded (full k) (.int n) := by
  have hnode : ∀ i x, i < (full k).sizenode → loadNode (full k) i = .ok x →
      x = ⟨⟨7, .int⟩, .int k, none⟩ := fun i x hi hx ↦ by
    obtain rfl : i = 0 := Nat.lt_one_iff.mp hi
    exact (Except.ok.inj hx).symm
  refine ⟨?_, fun i x hi hx ↦ ?_⟩
  · rintro (⟨m, hm, hin⟩ | ⟨i, x, hi, hx, hc⟩)
    · exact absurd (hin.2.trans_lt hin.1) (lt_irrefl _)
    · obtain rfl := hnode i x hi hx
      exact h (Content.int.inj (Option.some.inj hc))
  · obtain rfl := hnode i x hi hx
    rintro ⟨⟩

/-- The table after the string has been set to a number. -/
def oneString (s : List UInt8) (n : Int) : DlTable :=
  { oneNode with
    mem := (Objects.set (fun _ ↦ none) 1 none).set 1 (some s)
    allocs := 3
    node := .nodes (((freeNodes 1).set 0 ⟨⟨0, .nil⟩, .str 1, none⟩).set 0 ⟨⟨n, .int⟩, .str 1, none⟩) }

theorem run_oneString {P : DlTable → Call → Prop} {s : List UInt8} {n : Int}
    (hP : P oneNode (.set (.str s) (.int n)))
    (h : setter .reliable 1 1 oneNode (.str s) (.int n) = .ok (oneString s n, .ok)) :
    Run .reliable P (oneString s n) [(.set (.str s) (.int n), .ok)] :=
  .call (run_oneNode P) hP h

theorem prefixFree_a_b : PrefixFree {[97], [98]} := by
  rintro s (rfl | rfl) u (rfl | rfl) hpre
  · rfl
  · exact absurd hpre (by decide)
  · exact absurd hpre (by decide)
  · rfl

/-- The number that has been stored under a string is found, also after a rehash for another one. -/
theorem findByStr_lastSet_rehash : ∃ t, Run .reliable
    (fun t call ↦ Safe t call ∧ (call.key = .str [97] → Effective t call)) t
      [(.set (.str [98]) (.int 8), .ok), (.set (.str [97]) (.int 7), .ok)] ∧ t.sizenode = 2 ∧
    Clear t (.str [97]) ∧
      ∃ o, Returns (fun fuel ↦ findByStr fuel t [97]) o ∧ Yields t o (some (.int 7)) := by
  obtain ⟨t, hrun, hsize⟩ := exists_run_two
    (P := fun t call ↦ call.key.In {[97], [98]} ∧ (call.key = .str [97] → Effective t call))
    (.set (.str [97]) (.int 7)) (.set (.str [98]) (.int 8)) (fun _ ↦ ⟨Or.inl rfl, fun _ ↦ trivial⟩)
    (fun _ ↦ ⟨Or.inr rfl, fun _ ↦ trivial⟩) (by decide +kernel)
  have hin : ∀ (t : DlTable) (call : Call),
      call.key.In {[97], [98]} ∧ (call.key = .str [97] → Effective t call) →
        call.key.In {[97], [98]} := fun _ _ h ↦ h.1
  obtain ⟨E, h, hK, -⟩ := hrun.exact_of_prefixFree (fun _ ↦ rfl) prefixFree_a_b hin
  have hclear : Clear t (.str [97]) := (prefixFree_a_b.told (c := .str [97]) h.shape hK (Or.inl rfl)).clear
  have hsafe : Run .reliable
      (fun t call ↦ Safe t call ∧ (call.key = .str [97] → Effective t call)) t _ :=
    hrun.safe_of_prefixFree (fun _ ↦ rfl) prefixFree_a_b hin fun _ _ hs hc ↦ ⟨hs, hc.2⟩
  obtain ⟨o, hret, hyields, -⟩ := findByStr_lastSet (fun _ ↦ rfl) hsafe hclear
  exact ⟨t, hsafe, hsize, hclear, o, hret, hyields⟩

/-- A string that is not in the table is found under another one that begins with it. -/
theorem findByStr_prefix : ∃ t hist, Run .reliable (fun _ _ ↦ True) t hist ∧
    lastSet (.str [97]) hist = none ∧
      ∃ o, Returns (fun fuel ↦ findByStr fuel t [97]) o ∧ o ≠ none ∧ Yields t o (some (.int 7)) ∧
        ¬ Yields t o none := by
  refine ⟨_, _, run_oneString (s := [97, 98]) (n := 7) trivial rfl, rfl, some (.node 0), ⟨1, fun fuel hf ↦ ?_⟩, nofun,
    .val (v := ⟨7, .int⟩) rfl rfl, fun h ↦ ?_⟩
  · obtain ⟨fuel, rfl⟩ := Nat.exists_eq_add_of_le' hf
    rfl
  · cases h with
    | nil hv hnil =>
      obtain rfl := Except.ok.inj hv
      cases hnil

end Dlbase.Table
