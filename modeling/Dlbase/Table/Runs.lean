import Dlbase.Table.Calls

/-!
# Runs of a table

If no two keys of a table are alike, each call affects its own key only.  What a key is found with
is then what it has been set to last.
-/

namespace Dlbase.Table

open Cmem

/-- A call of a setter or of a function that deletes. -/
inductive Call where
  /-- A setter. -/
  | set (c : Content) (d : Datum)
  /-- A function that deletes. -/
  | del (c : Content)
deriving DecidableEq, Repr

/-- The key of a call. -/
def Call.key : Call → Content
  | set c _ => c
  | del c => c

/-- The call. -/
def Call.run (A : Malloc) (fuel depth : Nat) (t : DlTable) : Call → Exec (DlTable × Status)
  | set c d => setter A fuel depth t c d
  | del c => do
    let t ← deleter fuel t c
    pure (t, .ok)

/-- What a key has been set to last, if it has not been deleted since then; the last call comes
first. -/
def lastSet (k : Content) : List (Call × Status) → Option Datum
  | [] => none
  | (.set c d, .ok) :: hist => if c = k then some d else lastSet k hist
  | (.set _ _, .error) :: hist => lastSet k hist
  | (.del c, _) :: hist => if c = k then none else lastSet k hist

/-- The tables that `dl_table_new` and calls lead to, with the calls and their results.  Each call
meets the condition `pre`. -/
inductive Run (A : Malloc) (pre : DlTable → Call → Prop) : DlTable → List (Call × Status) → Prop where
  /-- The table has been created. -/
  | new {m : Mem} {allocs : Nat} {narray nhash : Int} {t : DlTable} : m.Finite →
      tableNew A m allocs narray nhash = some t → Run A pre t []
  /-- There has been a call. -/
  | call {t t' : DlTable} {hist : List (Call × Status)} {c : Call} {st : Status} {fuel depth : Nat} :
      Run A pre t hist → pre t c → c.run A fuel depth t = .ok (t', st) → Run A pre t' ((c, st) :: hist)

/-- A `dl_alloc` that never fails. -/
noncomputable def Malloc.reliable : Malloc where
  run m := if m 1 = none then 1 else if m 2 = none then 2 else sInf {a | m (a + 1) = none} + 1
  fresh m := by
    intro ⟨N, hN⟩
    split_ifs with h₁ h₂
    · exact h₁
    · exact h₂
    · exact Nat.sInf_mem (s := {a | m (a + 1) = none}) ⟨N, hN _ (Nat.le_succ N)⟩
  fails _ := false
  run_pos m := by
    split_ifs
    · exact Nat.one_pos
    · exact Nat.two_pos
    · exact Nat.succ_pos _

/-- The entries have the key with the value. -/
def Has (m : Mem) (E : Entries) (c : Content) (d : Datum) : Prop :=
  ∃ e ∈ E, e.1.content m = some c ∧ e.2.datum m = some d

/-- No two of the entries have the same key. -/
def Distinct (m : Mem) (E : Entries) : Prop := (E.map fun e ↦ e.1.content m).Nodup

/-- A table that has no key twice. -/
structure Exact (t : DlTable) (E : Entries) : Prop extends Good t E where
  /-- No key is there twice. -/
  distinct : Distinct t.mem E

/-- What a pointer that has been found yields: no value, or the value `d`. -/
inductive Yields (t : DlTable) : Option Loc → Option Datum → Prop where
  /-- There is no pointer. -/
  | null : Yields t none none
  /-- It points to nil. -/
  | nil {l : Loc} {v : Value} : readVal t l = .ok v → v.tt = .nil → Yields t (some l) none
  /-- It points to the value. -/
  | val {l : Loc} {v : Value} {d : Datum} : readVal t l = .ok v → v.datum t.mem = some d →
      Yields t (some l) (some d)

/-- Unless the value of the key is a pointer already, its bits are not those of the pointer that the
key is to be set to. -/
def Effective (t : DlTable) : Call → Prop
  | .set c (.void p) => ∀ l v, Returns (fun fuel ↦ find fuel t c) (some l) → readVal t l = .ok v →
      v.v = p → v.tt = .void
  | _ => True

/-- The searches of the call are exact; if it needs a rehash, all strings are told apart. -/
def Safe (t : DlTable) : Call → Prop
  | .set c _ => Clear t c ∧ (Crowded t c → Told t c)
  | .del c => Clear t c

variable {A : Malloc} {t t' : DlTable} {E E' R : Entries} {k key : Key} {v x : Value}
  {c e c' k' : Content} {d d' : Datum} {l : Loc} {m m' : Mem} {fuel depth : Nat} {st : Status}

/-! ## Keys that are there once -/

theorem Distinct.mono (h : Distinct m E) (hle : R ≤ E) : Distinct m R :=
  Multiset.nodup_of_le (Multiset.map_le_map hle) h

/-- Keys are distinct by their strings. -/
theorem Distinct.agree (h : Distinct m E) (hm : ∀ a ∈ owned E, m' a = m a) : Distinct m' E := by
  unfold Distinct
  rw [Multiset.map_congr rfl fun r hr ↦ Owns.content_eq hm hr]
  exact h

theorem distinct_cons (hk : k.content m = some c) :
    Distinct m ((k, v) ::ₘ E) ↔ (∀ r ∈ E, r.1.content m ≠ some c) ∧ Distinct m E := by
  unfold Distinct
  rw [Multiset.map_cons, Multiset.nodup_cons, hk, Multiset.mem_map]
  refine and_congr_left fun _ ↦ ⟨fun h r hr heq ↦ h ⟨r, hr, heq⟩, fun h ⟨r, hr, heq⟩ ↦ h r hr heq⟩

/-- Entries whose keys are those of the table or the new one are told apart. -/
theorem Told.apart (h : Told t c) (hd : Distinct m E)
    (hall : ∀ r ∈ E, ∀ u, r.1.content m = some u → Present t u ∨ c = u) :
    Apart m (E.map Prod.fst) := by
  refine ⟨?_, fun a ha b hb u w hu hw ↦ ?_⟩
  · rw [Multiset.map_map]
    exact hd
  · obtain ⟨r, hr, rfl⟩ := Multiset.mem_map.mp ha
    obtain ⟨r', hr', rfl⟩ := Multiset.mem_map.mp hb
    exact h.eq_of_begins (hall r hr u hu) (hall r' hr' w hw)

theorem Has.agree (hm : ∀ a ∈ owned E, m' a = m a) : Has m' E c d ↔ Has m E c d := by
  unfold Has
  refine exists_congr fun r ↦ and_congr_right fun hr ↦ ?_
  rw [Owns.content_eq hm hr, Owns.datum_eq hm hr]

/-- No other entry has the key of the slot. -/
theorem not_mem_rest (h : Distinct m (slotEntries k v + R)) (hk : k.content m = some c)
    (hfresh : v.tt = .nil → ∀ r ∈ R, r.1.content m ≠ some c) :
    ∀ r ∈ R, r.1.content m ≠ some c := by
  by_cases hv : v.tt = .nil
  · exact hfresh hv
  · rw [slotEntries_used hv, Multiset.singleton_add] at h
    exact ((distinct_cons hk).mp h).1

theorem has_slot (hk : k.content m = some c) (hne : c' ≠ c) :
    Has m (slotEntries k v + R) c' d ↔ Has m R c' d := by
  refine ⟨fun ⟨r, hr, hrc, hrd⟩ ↦ ?_, fun ⟨r, hr, hrc, hrd⟩ ↦
    ⟨r, Multiset.mem_add.mpr (.inr hr), hrc, hrd⟩⟩
  rcases Multiset.mem_add.mp hr with hr | hr
  · unfold slotEntries at hr
    split_ifs at hr
    · cases hr
    · rw [Multiset.mem_singleton.mp hr] at hrc
      exact absurd (Option.some.inj (hrc.symm.trans hk)) hne
  · exact ⟨r, hr, hrc, hrd⟩

theorem not_has (h : ∀ r ∈ R, r.1.content m ≠ some c) : ¬ Has m R c d :=
  fun ⟨r, hr, hrc, _⟩ ↦ h r hr hrc

/-- The key of a new entry has the new value, and the other entries are as before. -/
theorem has_cons (hk : k.content m' = some c) (hx : x.datum m' = some d)
    (hrest : ∀ r ∈ R, r.1.content m ≠ some c) (hm : ∀ a ∈ owned R, m' a = m a) :
    (∀ k' d', k' ≠ c → (Has m' ((k, x) ::ₘ R) k' d' ↔ Has m R k' d')) ∧
      ∀ d', Has m' ((k, x) ::ₘ R) c d' ↔ d' = d := by
  refine ⟨fun k' d' hne ↦ ?_, fun d' ↦ ⟨fun ⟨r, hr, hrc, hrd⟩ ↦ ?_, fun heq ↦
    ⟨(k, x), Multiset.mem_cons_self _ _, hk, heq ▸ hx⟩⟩⟩
  · rw [← Has.agree hm]
    refine ⟨fun ⟨r, hr, hrc, hrd⟩ ↦ ?_, fun ⟨r, hr, hrc, hrd⟩ ↦
      ⟨r, Multiset.mem_cons_of_mem hr, hrc, hrd⟩⟩
    rcases Multiset.mem_cons.mp hr with rfl | hr
    · exact absurd (Option.some.inj (hrc.symm.trans hk)) hne
    · exact ⟨r, hr, hrc, hrd⟩
  · rcases Multiset.mem_cons.mp hr with rfl | hr
    · exact Option.some.inj (hrd.symm.trans hx)
    · rw [Owns.content_eq hm hr] at hrc
      exact absurd hrc (hrest r hr)

/-! ## Calls -/

/-- What a setter does if no key is there twice and its searches are exact. -/
inductive Writes (t : DlTable) (E : Entries) (c : Content) (d : Datum) :
    DlTable → Status → Entries → Prop where
  /-- Nothing is written. -/
  | same {p : Int} : SameBits t c p → d = .void p → Writes t E c d t .ok E
  /-- The value is written in the place of another one, which is released, or of none. -/
  | put {t' : DlTable} {k : Key} {v x : Value} {R : Entries} : E = slotEntries k v + R →
      (v.tt ≠ .nil → k.content t.mem = some c) → k.content t'.mem = some c →
      x.datum t'.mem = some d → (∀ r ∈ R, r.1.content t.mem ≠ some c) →
      t'.voids = v.pointers ++ t.voids → (∀ a ∈ owned R, t'.mem a = t.mem a) →
      (∀ p, d = .void p → ¬ SameBits t c p) → Writes t E c d t' .ok ((k, x) ::ₘ R)
  /-- There are too many nodes. -/
  | full {t' : DlTable} : t'.voids = t.voids → (∀ a ∈ owned E, t'.mem a = t.mem a) →
      Writes t E c d t' .error E

theorem Sets.writes (hs : Sets t E c d t' st E') (h : Exact t E) (hsafe : Safe t (.set c d)) :
    Writes t E c d t' st E' ∧ Distinct t'.mem E' := by
  obtain ⟨hclear, htold⟩ := hsafe
  cases hs with
  | same hbits hd => exact ⟨.same hbits hd, h.distinct⟩
  | @put _ _ k v x R e hE hk hb heq hfresh hx hvoids hsame hkey hkept hexact hbits =>
    subst hE
    obtain rfl := heq hclear
    -- the key stood for the same before
    have hbefore : v.tt ≠ .nil → k.content t.mem = some e := fun hv ↦ by
      rw [← hk]
      exact (content_congr (hkey hv)).symm
    have hrest : ∀ r ∈ R, r.1.content t.mem ≠ some e := by
      by_cases hv : v.tt = .nil
      · exact hfresh hv
      · exact not_mem_rest h.distinct (hbefore hv) hfresh
    have hdistinct : Distinct t'.mem ((k, x) ::ₘ R) := by
      refine (distinct_cons hk).mpr ⟨fun r hr ↦ ?_,
        (h.distinct.mono (Multiset.le_add_left _ _)).agree hsame⟩
      rw [Owns.content_eq hsame hr]
      exact hrest r hr
    have hE' : E' = (k, x) ::ₘ R := by
      rcases hexact with hcrowded | hexact
      · refine hkept.exact ((htold hcrowded).apart hdistinct fun r hr u hu ↦ ?_)
        rcases Multiset.mem_cons.mp hr with rfl | hr
        · exact .inr (Option.some.inj (hk.symm.trans hu))
        · rw [Owns.content_eq hsame hr] at hu
          exact .inl (h.shape.present (Multiset.mem_add.mpr (.inr hr)) hu)
      · exact hexact
    subst hE'
    exact ⟨.put rfl hbefore hk hx hrest hvoids hsame hbits, hdistinct⟩
  | full hcrowded hvoids hsame hkept =>
    have hdistinct := h.distinct.agree hsame
    have hE' : E' = E := hkept.exact ((htold hcrowded).apart hdistinct fun r hr u hu ↦ by
      rw [Owns.content_eq hsame hr] at hu
      exact .inl (h.shape.present hr hu))
    subst hE'
    exact ⟨.full hvoids hsame, hdistinct⟩

/-- A setter sets its own key only. -/
theorem Writes.has (hw : Writes t E c d t' st E') (h : Exact t E) (hclear : Clear t c) :
    (∀ k d', k ≠ c → (Has t'.mem E' k d' ↔ Has t.mem E k d')) ∧
      (st = .ok → Effective t (.set c d) → ∀ d', Has t'.mem E' c d' ↔ d' = d) ∧
      (st = .error → ∀ d', Has t'.mem E' c d' ↔ Has t.mem E c d') := by
  cases hw with
  | same hbits hd =>
    refine ⟨fun k d' _ ↦ Iff.rfl, fun _ heff d' ↦ ?_, nofun⟩
    -- the value is that pointer already
    subst hd
    obtain ⟨l, v, hret, hread, rfl⟩ := hbits
    obtain ⟨fuel, hfind⟩ := hret.exists_fuel
    obtain ⟨k, e, v', R, hk, hb, hat, rfl, -⟩ := h.shape.at_find hfind
    obtain rfl := Except.ok.inj (hread.symm.trans hat.read)
    obtain rfl := hclear.found hfind hat hk hb
    have hvoid := heff l v hret hread rfl
    have hv : v.tt ≠ .nil := by
      rw [hvoid]
      exact nofun
    have hdatum : v.datum t.mem = some (.void v.v) := by
      rw [Value.datum, hvoid]
    have hrest := not_mem_rest h.distinct hk fun hv' ↦ absurd hv' hv
    rw [slotEntries_used hv, Multiset.singleton_add]
    exact (has_cons hk hdatum hrest fun _ _ ↦ rfl).2 d'
  | @put _ k v x R hE hbefore hk hx hrest hvoids hsame hbits =>
    subst hE
    obtain ⟨hother, hown⟩ := has_cons hk hx hrest hsame
    refine ⟨fun k' d' hne ↦ (hother k' d' hne).trans ?_, fun _ _ ↦ hown, nofun⟩
    by_cases hv : v.tt = .nil
    · rw [slotEntries_nil hv, zero_add]
    · exact (has_slot (hbefore hv) hne).symm
  | full hvoids hsame =>
    exact ⟨fun k d' _ ↦ Has.agree hsame, nofun, fun _ d' ↦ Has.agree hsame⟩

/-- Deleting a key does nothing to the others. -/
theorem Deletes.exact (hd : Deletes t E c t' E') (h : Exact t E) (hg : Good t' E')
    (hclear : Clear t c) : Exact t' E' ∧ (∀ d', ¬ Has t'.mem E' c d') ∧
      ∀ k d', k ≠ c → (Has t'.mem E' k d' ↔ Has t.mem E k d') := by
  cases hd with
  | none hnot => exact ⟨h, fun d' ↦ not_has hnot, fun k d' _ ↦ Iff.rfl⟩
  | found hE hk hb heq hfresh hvoids hsame =>
    subst hE
    obtain rfl := heq hclear
    have hrest := not_mem_rest h.distinct hk hfresh
    have hdistinct := h.distinct.mono (R := E') (Multiset.le_add_left _ _)
    refine ⟨⟨hg, hdistinct.agree hsame⟩, fun d' hhas ↦ not_has hrest ((Has.agree hsame).mp hhas),
      fun k' d' hne ↦ ?_⟩
    rw [Has.agree hsame, has_slot hk hne]

/-! ## New tables -/

theorem owns_empty (hm : m.Finite) : Owns m 0 := ⟨hm, Multiset.nodup_zero, nofun, nofun, nofun⟩

/-- A new table has no entries. -/
theorem tableNew_spec {allocs : Nat} {narray nhash : Int} (hm : m.Finite)
    (h : tableNew A m allocs narray nhash = some t) : Exact t 0 := by
  unfold tableNew at h
  dsimp only at h
  rcases harr : arrayInit A { mem := m, allocs, voids := [], lsizenode := 0, sizearray := 0
                              array := none, arrayId := 0, node := .dummy, lastfree := none }
    narray with ⟨t₁, ok⟩
  rw [harr] at h
  cases ok with
  | false => cases h
  | true =>
    dsimp only at h
    rcases hnode : nodeInit A t₁ nhash with ⟨t₂, ok⟩
    rw [hnode] at h
    cases ok with
    | false => cases h
    | true =>
      obtain rfl := Option.some.inj h
      -- the array has no values
      have harray : ArrayOk t₁ ∧ arrayEntries t₁ = 0 ∧ t₁.arrayId ≤ t₁.allocs ∧ t₁.mem = m := by
        unfold arrayInit DlTable.alloc at harr
        dsimp only at harr
        split_ifs at harr with hpos hok
        · obtain ⟨rfl, -⟩ := Prod.mk.inj harr
          refine ⟨fun _ ↦ ⟨_, rfl, by simp, fun v hv ↦ ?_⟩, ?_, le_rfl, rfl⟩
          · rw [List.eq_of_mem_replicate hv]
            exact nofun
          · refine Finset.sum_eq_zero fun i hi ↦ ?_
            dsimp only
            rw [Option.getD_some, List.getElem?_replicate_of_lt (Finset.mem_range.mp hi)]
            exact cellEntry_nil rfl
        · cases harr
        · obtain ⟨rfl, -⟩ := Prod.mk.inj harr
          refine ⟨fun hp ↦ absurd hp hpos, ?_, Nat.zero_le _, rfl⟩
          have hzero : narray.toNat = 0 := by omega
          rw [arrayEntries]
          dsimp only
          rw [hzero]
          rfl
      obtain ⟨ha, hentries, hid, hmem⟩ := harray
      obtain ⟨hc, p, k, c, l, rfl, hle, hbits⟩ := nodeInit_spec hnode
      have hid' : ({ t₁ with node := p, lastfree := k, allocs := c, lsizenode := l } : DlTable).arrayId
          ≤ c := hid.trans hle
      have hshape : Shape { t₁ with node := p, lastfree := k, allocs := c, lsizenode := l } 0 :=
        hentries ▸ shape_array ha hid' hc
      exact ⟨⟨hshape, hmem ▸ owns_empty hm, hbits⟩, Multiset.nodup_zero⟩

/-! ## Finding -/

/-- What is found is the value of the key; only integers are found with nil. -/
theorem find_yields {o : Option Loc} (h : Exact t E) (hclear : Clear t c)
    (hfind : find fuel t c = .ok o) :
    ∃ r, Yields t o r ∧ (∀ d, Has t.mem E c d ↔ r = some d) ∧
      (r = none → o = none ∨ ∃ i, c = .int i) := by
  cases o with
  | none =>
    refine ⟨none, .null, fun d ↦ iff_of_false ?_ nofun, fun _ ↦ .inl rfl⟩
    exact not_has (h.shape.not_found hfind).2
  | some l =>
    obtain ⟨k, e, v, R, hk, hb, hat, rfl, hnil⟩ := h.shape.at_find hfind
    obtain rfl := hclear.found hfind hat hk hb
    have hrest := not_mem_rest h.distinct hk fun hv ↦ by
      obtain ⟨i, rfl, hki⟩ := hnil hv
      exact hat.not_mem hv hki
    by_cases hv : v.tt = .nil
    · rw [slotEntries_nil hv, zero_add]
      exact ⟨none, .nil hat.read hv, fun d ↦ iff_of_false (not_has hrest) nofun,
        fun _ ↦ .inr ((hnil hv).imp fun i hi ↦ hi.1)⟩
    · have hmem : (k, v) ∈ slotEntries k v + R := by
        rw [slotEntries_used hv]
        exact Multiset.mem_add.mpr (.inl (Multiset.mem_singleton_self _))
      obtain ⟨d, hd⟩ := h.owns.vals _ hmem
      refine ⟨some d, .val hat.read hd, fun d' ↦ ?_, nofun⟩
      rw [slotEntries_used hv, Multiset.singleton_add,
        (has_cons hk hd hrest fun _ _ ↦ rfl).2 d', Option.some.injEq, eq_comm]

/-! ## Runs -/

/-- A call affects its own key only. -/
theorem Call.exact {call : Call} (hA : ∀ i, A.fails i = false) (h : Exact t E)
    (hsafe : Safe t call) (hrun : call.run A fuel depth t = .ok (t', st)) :
    ∃ E', Exact t' E' ∧ (∀ k d', k ≠ call.key → (Has t'.mem E' k d' ↔ Has t.mem E k d')) ∧
      ∀ hist, Effective t call → (∀ d', Has t.mem E call.key d' ↔ lastSet call.key hist = some d') →
        ∀ d', Has t'.mem E' call.key d' ↔ lastSet call.key ((call, st) :: hist) = some d' := by
  cases call with
  | set c d =>
    obtain ⟨E', hg, hs⟩ := setter_spec hA h.toGood hrun
    obtain ⟨hw, hdistinct⟩ := hs.writes h hsafe
    obtain ⟨hother, hok, herror⟩ := hw.has h hsafe.1
    refine ⟨E', ⟨hg, hdistinct⟩, hother, fun hist heff hhist d' ↦ ?_⟩
    cases st with
    | ok =>
      have hlast : lastSet c ((.set c d, .ok) :: hist) = some d := if_pos rfl
      rw [Call.key, hok rfl heff, hlast, Option.some.injEq, eq_comm]
    | error => exact (herror rfl d').trans (hhist d')
  | del c =>
    obtain ⟨t₁, hdel, hrun⟩ := Exec.bind_eq_ok.mp hrun
    obtain ⟨rfl, rfl⟩ := Prod.mk.inj (Except.ok.inj hrun)
    obtain ⟨E', hg, hd⟩ := deleter_spec h.toGood hdel
    obtain ⟨hexact, hnone, hother⟩ := hd.exact h hg hsafe
    refine ⟨E', hexact, hother, fun hist _ _ d' ↦ iff_of_false (hnone d') ?_⟩
    have hlast : lastSet c ((.del c, .ok) :: hist) = none := if_pos rfl
    rw [Call.key, hlast]
    exact nofun

theorem lastSet_cons_ne {call : Call} {hist : List (Call × Status)} (h : k' ≠ call.key) :
    lastSet k' ((call, st) :: hist) = lastSet k' hist := by
  cases call with
  | set c d =>
    cases st with
    | ok => exact if_neg (Ne.symm h)
    | error => rfl
  | del c => exact if_neg (Ne.symm h)

/-- All keys of the entries are in `K`. -/
def KeysIn (m : Mem) (E : Entries) (K : Set Content) : Prop :=
  ∀ r ∈ E, ∀ u, r.1.content m = some u → u ∈ K

/-- A key is in the table with the value that it has been set to last, as long as all calls are safe
and each call for the key itself has an effect. -/
theorem Run.exact {pre : DlTable → Call → Prop} {K : Set Content} {hist : List (Call × Status)}
    (hA : ∀ i, A.fails i = false)
    (hpre : ∀ t call, pre t call → call.key ∈ K ∧
      ∀ E, Exact t E → KeysIn t.mem E K → Safe t call)
    (hrun : Run A pre t hist) : ∃ E, Exact t E ∧ KeysIn t.mem E K ∧
      ∀ k, (∀ t call, pre t call → call.key = k → Effective t call) →
        ∀ d, Has t.mem E k d ↔ lastSet k hist = some d := by
  induction hrun with
  | new hm hnew =>
    have hnone : ∀ {m : Mem} {u d}, ¬ Has m 0 u d := fun {m u d} ⟨r, hr, _⟩ ↦ nomatch hr
    exact ⟨0, tableNew_spec hm hnew, nofun, fun k _ d ↦ iff_of_false hnone nofun⟩
  | @call t t' hist call st fuel depth _ hcall hstep ih =>
    obtain ⟨E, h, hK, hhas⟩ := ih
    obtain ⟨hkey, hsafe⟩ := hpre t call hcall
    obtain ⟨E', h', hother, hown⟩ := Call.exact hA h (hsafe E h hK) hstep
    refine ⟨E', h', fun r hr u hu ↦ ?_, fun k heff d ↦ ?_⟩
    · by_cases hne : u = call.key
      · rw [hne]
        exact hkey
      · obtain ⟨d, hd⟩ := h'.owns.vals r hr
        obtain ⟨r', hr', hu', -⟩ := (hother u d hne).mp ⟨r, hr, hu, hd⟩
        exact hK r' hr' u hu'
    · by_cases hne : k = call.key
      · rw [hne]
        exact hown hist (heff t call hcall hne.symm) (fun d' ↦ hne ▸ hhas k heff d') d
      · rw [hother k d hne, hhas k heff d, lastSet_cons_ne hne]

end Dlbase.Table
