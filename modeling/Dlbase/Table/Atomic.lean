import Dlbase.Table.Failure

/-!
# What failed allocations leave behind

If a failed allocation is not harmless, something has changed before it: a value has been released
or overwritten, a key has been put in a node, or `resize` has lost the array or the nodes.
-/

namespace Dlbase.Table

open Cmem

/-- The tables that `dl_table_new` and calls lead to, if all calls get their memory except for
setters whose failed allocation is harmless. -/
inductive FailRun : DlTable → Prop where
  /-- The table has been created. -/
  | new {A : Malloc} {m : Mem} {allocs : Nat} {narray nhash : Int} {t : DlTable} : m.Finite →
      tableNew A m allocs narray nhash = some t → FailRun t
  /-- A call has got its memory. -/
  | call {A : Malloc} {t t' : DlTable} {c : Call} {st : Status} {fuel depth : Nat} : FailRun t →
      (∀ i, A.fails i = false) → c.run A fuel depth t = .ok (t', st) → FailRun t'
  /-- A setter has not got its memory. -/
  | failed {A : Malloc} {t t' : DlTable} {c : Content} {d : Datum} {st : Status}
      {fuel depth : Nat} : FailRun t → Harmless A t c d →
      setter A fuel depth t c d = .ok (t', st) → FailRun t'

variable {A : Malloc} {put : DlTable → Key → Exec Insertion} {t t₁ t' : DlTable} {E : Entries}
  {k key : Key} {v : Value} {c : Content} {d : Datum} {l : Loc} {m : Mem} {o : Option Loc}
  {fuel depth : Nat} {nasize nhsize : Int} {b : Bool}

/-! ## Strings that are not created -/

/-- How a string is not created. -/
theorem setStr_error {s : List UInt8} (h : setStr A t l s = .ok (t', .error)) :
    ∃ v n m a p vs, readVal t l = .ok v ∧
      writeVal t l { v with v := n } = .ok { t with node := p, array := vs } ∧
      t' = { t with node := p, array := vs, mem := m, allocs := a } ∧
      (A.fails t.allocs = true ∧ n = 0 ∧ m = t.mem ∨ A.fails t.allocs = false ∧
        A.fails (t.allocs + 1) = true ∧ n = A.run t.mem ∧ m = t.mem.set (A.run t.mem) none) := by
  unfold setStr DlTable.alloc at h
  obtain ⟨v, hv, h⟩ := Exec.bind_eq_ok.mp h
  dsimp only at h
  cases hfirst : A.fails t.allocs with
  | true =>
    rw [hfirst, if_neg (by rintro ⟨⟩)] at h
    obtain ⟨t₂, hw, h⟩ := Exec.bind_eq_ok.mp h
    obtain ⟨rfl, -⟩ := Prod.mk.inj (Except.ok.inj h)
    obtain ⟨p, vs, rfl⟩ := writeVal_fields hw
    exact ⟨v, 0, t.mem, t.allocs + 1, p, vs, hv,
      writeVal_over (t := { t with allocs := t.allocs + 1 }) t.mem t.voids t.allocs hw, rfl,
      .inl ⟨rfl, rfl, rfl⟩⟩
  | false =>
    rw [hfirst, if_pos Bool.not_false] at h
    obtain ⟨t₂, hw, h⟩ := Exec.bind_eq_ok.mp h
    obtain ⟨p, vs, rfl⟩ := writeVal_fields hw
    dsimp only at h
    cases hsecond : A.fails (t.allocs + 1) with
    | true =>
      rw [hsecond, if_neg (by rintro ⟨⟩)] at h
      obtain ⟨rfl, -⟩ := Prod.mk.inj (Except.ok.inj h)
      exact ⟨v, A.run t.mem, t.mem.set (A.run t.mem) none, t.allocs + 2, p, vs, hv,
        writeVal_over (t := { t with
          mem := t.mem.set (A.run t.mem) none, allocs := t.allocs + 1 }) t.mem t.voids t.allocs hw,
        rfl, .inr ⟨rfl, rfl, rfl, rfl⟩⟩
    | false =>
      rw [hsecond, if_pos Bool.not_false] at h
      obtain ⟨t₃, -, h⟩ := Exec.bind_eq_ok.mp h
      cases (Prod.mk.inj (Except.ok.inj h)).2

/-- Only strings can be missing once there is a place for the value. -/
theorem putDatum_error (h : putDatum A t l d = .ok (t', .error)) :
    ∃ s, d = .str s ∧ setStr A t l s = .ok (t', .error) := by
  cases d with
  | str s => exact ⟨s, rfl, h⟩
  | int n =>
    obtain ⟨t₁, -, h⟩ := Exec.bind_eq_ok.mp h
    cases (Prod.mk.inj (Except.ok.inj h)).2
  | void p =>
    obtain ⟨t₁, -, h⟩ := Exec.bind_eq_ok.mp h
    cases (Prod.mk.inj (Except.ok.inj h)).2

/-- Strings that are there stay there if an object is created. -/
theorem content_set (A : Malloc) (hfin : m.Finite) (u : Option (List UInt8)) {e : Content}
    (h : key.content m = some e) : key.content (m.set (A.run m) u) = some e := by
  rw [← h]
  refine content_congr fun a ha ↦ Function.update_of_ne ?_ _ _
  rintro rfl
  cases key with
  | str q =>
    obtain rfl := Multiset.mem_singleton.mp ha
    rw [Key.content, A.fresh m hfin] at h
    cases h
  | int n => cases ha
  | null => cases ha
  | nil => cases ha

/-- Where a string has not been created its key is still found. -/
theorem find_setStr_error {s : List UInt8} (hfin : t.mem.Finite)
    (h : setStr A t l s = .ok (t', .error)) (hf : find fuel t c = .ok o) :
    find fuel t' c = .ok o := by
  obtain ⟨v, n, m, a, p, vs, -, hw, rfl, hm⟩ := setStr_error h
  refine find_strings (t := { t with node := p, array := vs }) (P := fun _ ↦ True)
    (fun _ _ _ _ _ _ ↦ trivial) (fun i x e _ _ he ↦ ?_) trivial t.voids a (find_writeVal hw hf)
  rcases hm with ⟨-, -, rfl⟩ | ⟨-, -, -, rfl⟩
  · exact he
  · exact content_set A hfin none he

theorem readVal_over (t : DlTable) (m : Mem) (w : List Int) (a : Nat) (l : Loc) :
    readVal { t with mem := m, voids := w, allocs := a } l = readVal t l := by cases l <;> rfl

/-- No value of a key has the tag of `_dummynode`. -/
theorem At.ne_null {R : Entries} (h : At t k v R l) : v.tt ≠ .null := by
  cases h with
  | array _ _ _ hnull => exact hnull
  | node _ hl _ _ hv =>
    rw [hv]
    exact (hl.used _ (Multiset.mem_cons_self _ _) _ (List.mem_append_right _ List.mem_cons_self)).2

/-! ## Keys that are found -/

/-- A string that has been released is not there any more. -/
theorem freedVal_gone {m' : Mem} (h : freedVal m v = .ok m') (hv : v.tt = .str) :
    m' v.v.toNat = none := by
  unfold freedVal at h
  rw [if_pos hv] at h
  unfold Objects.free at h
  split_ifs at h
  · cases h
  · rw [← Except.ok.inj h, Function.update_self]

/-- A setter that finds the key fails if the string of the value is not created; the old value has
been released by then. -/
theorem setter_error_found (hf : find fuel t c = .ok (some l)) (hv : readVal t l = .ok v)
    (hrun : setter A fuel depth t c d = .ok (t', .error)) :
    ∃ s m, d = .str s ∧ freedVal t.mem v = .ok m ∧
      setStr A { t with mem := m, voids := v.pointers ++ t.voids } l s = .ok (t', .error) := by
  rw [setter_eq, hf, Exec.ok_bind] at hrun
  obtain ⟨b, -, hrun⟩ := Exec.bind_eq_ok.mp hrun
  cases b with
  | true => cases (Prod.mk.inj (Except.ok.inj hrun)).2
  | false =>
    obtain ⟨⟨t₁, o⟩, hslot, hrun⟩ := Exec.bind_eq_ok.mp hrun
    rw [slotFor_some hv] at hslot
    obtain ⟨m, hm, hslot⟩ := Exec.bind_eq_ok.mp hslot
    obtain ⟨rfl, rfl⟩ := Prod.mk.inj (Except.ok.inj hslot)
    obtain ⟨s, rfl, hset⟩ := putDatum_error hrun
    exact ⟨s, m, rfl, hm, hset⟩

/-- A string that has been found is lost. -/
theorem not_unaltered_str {s : List UInt8} (hf : find fuel t c = .ok (some l))
    (hv : readVal t l = .ok v) (htt : v.tt = .str) (hm : freedVal t.mem v = .ok m) {w : List Int}
    (hset : setStr A { t with mem := m, voids := w } l s = .ok (t', .error)) :
    ¬ Unaltered t t' := by
  intro hun
  obtain ⟨E, hg, hg'⟩ := hun.good
  have hne : v.tt ≠ .nil := by
    rw [htt]
    rintro ⟨⟩
  obtain ⟨k, hk⟩ := hg.shape.mem_of_find hf hv hne
  obtain ⟨u, hu⟩ := hg'.owns.alive v.v.toNat (mem_owned.mpr ⟨_, hk, .inr (by
    rw [Value.addrs, if_pos htt]
    exact Multiset.mem_singleton_self _)⟩)
  have hgone := freedVal_gone hm htt
  obtain ⟨w, n, m', a, p, vs, -, -, rfl, hcase⟩ := setStr_error hset
  dsimp only at hu hcase
  rcases hcase with ⟨-, -, rfl⟩ | ⟨-, -, -, rfl⟩
  · cases hgone.symm.trans hu
  · -- the address may have been given to the new string, which has no characters
    by_cases heq : v.v.toNat = A.run m
    · rw [heq, Objects.set, Function.update_self] at hu
      cases hu
    · rw [Objects.set, Function.update_of_ne heq] at hu
      cases hgone.symm.trans hu

/-- A number that has been found is lost unless it is written over itself. -/
theorem eq_of_unaltered_int (h : Good t E) {s : List UInt8} {n : Int}
    (hf : find fuel t c = .ok (some l)) (hv : readVal t l = .ok v) (htt : v.tt = .int)
    (hset : setStr A t l s = .ok (t', .error)) (hread : readVal t' l = .ok { v with v := n })
    (hun : Unaltered t t') : v = ⟨n, .int⟩ := by
  obtain ⟨o, ho, -, hy⟩ := hun.find c (some l) ((steady_find t c).returns hf)
  obtain rfl :=
    ((steady_find t' c).returns (find_setStr_error h.owns.finite hset hf)).unique ho
  have hd : v.datum t.mem = some (.int v.v) := by
    unfold Value.datum
    rw [htt]
  cases hy _ (.val hv hd) with
  | val hu hd' =>
    obtain rfl := Except.ok.inj (hread.symm.trans hu)
    unfold Value.datum at hd'
    dsimp only at hd'
    rw [htt] at hd'
    have hn : n = v.v := Datum.int.inj (Option.some.inj hd')
    rw [hn, ← htt]

/-- A key that is found keeps its value only if this is nil, or a number that is written over
itself. -/
theorem Harmless.of_found (h : Good t E) (hf : find fuel t c = .ok (some l))
    (hrun : setter A fuel depth t c d = .ok (t', .error)) (hun : Unaltered t t') :
    Harmless A t c d := by
  have hret := (steady_find t c).returns hf
  obtain ⟨k, e, v, R, -, -, hat, -, -⟩ := h.shape.at_find hf
  have hv := hat.read
  obtain ⟨s, m, rfl, hm, hset⟩ := setter_error_found hf hv hrun
  obtain ⟨w, n, m', a, p, vs, hw, hwrite, ht', hcase⟩ := setStr_error hset
  rw [readVal_over] at hw
  obtain rfl := Except.ok.inj (hv.symm.trans hw)
  have hread : readVal t' l = .ok { v with v := n } := by
    rw [ht']
    exact (readVal_over _ m' _ a l).trans (writeVal_read hwrite)
  have hpointers : v.pointers = [] := by
    have hvoids := hun.voids
    rw [ht'] at hvoids
    exact List.append_left_eq_self.mp hvoids
  have hquiet : v.tt ≠ .str → Harmless A t c (.str s) := by
    intro hne
    unfold freedVal at hm
    rw [if_neg hne] at hm
    obtain rfl := Except.ok.inj hm
    rw [hpointers] at hset
    have hq : v = ⟨n, .int⟩ ∨ v.tt = .nil := by
      cases htt : v.tt with
      | nil => exact .inr rfl
      | int => exact .inl (eq_of_unaltered_int h hf hv htt hset hread hun)
      | null => exact absurd htt hat.ne_null
      | str => exact absurd htt hne
      | void =>
        unfold Value.pointers at hpointers
        rw [if_pos htt] at hpointers
        cases hpointers
    rcases hcase with ⟨hfail, rfl, -⟩ | ⟨hok, hfail, rfl, -⟩
    · exact .string rfl hret hv hq hfail
    · exact .text rfl hret hv hq hok hfail
  by_cases htt : v.tt = .str
  · exact absurd hun (not_unaltered_str hf hv htt hm hset)
  · exact hquiet htt

/-! ## Keys that are not found -/

/-- `dl_set_l` gives a location for a key that there is a node for. -/
theorem setL_ne_none (h : Shape t E) (hk : key.content t.mem = some c)
    (hroom : occupied t + need t {(key, ⟨0, .nil⟩)} ≤ capacity t) :
    setL A fuel depth t key ≠ .ok (t', none) := by
  intro hrun
  cases depth with
  | zero => cases hrun
  | succ depth =>
    obtain ⟨o, ho, hrun⟩ := Exec.bind_eq_ok.mp hrun
    cases o with
    | some l => cases (Prod.mk.inj (Except.ok.inj hrun)).2
    | none =>
      rw [findL_eq hk] at ho
      have hout : ∀ i, key = .int i → ¬ InArray t i := fun i hi ↦ by
        rw [hi] at hk
        exact (h.not_found ho).1 i (Option.some.inj hk).symm
      obtain ⟨C, hC, -, -⟩ := h.nodes
      rw [need_eq_one hout, hC.occupied_eq] at hroom
      rcases newkeyWith_cases A (setL A fuel depth) fuel hC (mainPos_eq hk) with
        ⟨t₁, l, -, hext, -, -⟩ | ⟨r, -, hcard, -⟩
      · cases (Prod.mk.inj (Except.ok.inj (hext.eq_ok hrun))).2
      · omega

/-- What `dl_array_init_l` allocates. -/
theorem arrayInit_allocs (h : arrayInit A t nasize = (t', b)) :
    (b = false ∧ 0 < nasize ∧ A.fails t.allocs = true ∧
        t' = { t with array := none, allocs := t.allocs + 1 }) ∨
      b = true ∧ t.allocs ≤ t'.allocs ∧ ∀ i, t.allocs ≤ i → i < t'.allocs → A.fails i = false := by
  unfold arrayInit DlTable.alloc at h
  dsimp only at h
  split_ifs at h with hpos hok
  · obtain ⟨rfl, rfl⟩ := Prod.mk.inj h
    refine .inr ⟨rfl, Nat.le_succ _, fun i hi hlt ↦ ?_⟩
    obtain rfl := Nat.le_antisymm (Nat.le_of_lt_succ hlt) hi
    exact Bool.not_eq_true' _ |>.mp hok
  · obtain ⟨rfl, rfl⟩ := Prod.mk.inj h
    exact .inl ⟨rfl, hpos, Bool.not_eq_false' _ |>.mp (Bool.not_eq_true _ |>.mp hok), rfl⟩
  · obtain ⟨rfl, rfl⟩ := Prod.mk.inj h
    exact .inr ⟨rfl, le_rfl, fun i hi hlt ↦ absurd hlt hi.not_gt⟩

/-- The old values are copied to an array that has its memory. -/
theorem growArray_copied (hlt : t.sizearray < nasize)
    (hinit : arrayInit A t nasize = (t₁, true)) (h : growArray A t nasize = .ok (t', b)) :
    b = true ∧ t'.allocs = t₁.allocs := by
  unfold growArray at h
  rw [if_pos hlt, hinit] at h
  dsimp only at h
  split at h
  · split_ifs at h
    · obtain ⟨rfl, rfl⟩ := Prod.mk.inj (Except.ok.inj h)
      exact ⟨rfl, rfl⟩
    · cases h
  · obtain ⟨rfl, rfl⟩ := Prod.mk.inj (Except.ok.inj h)
    exact ⟨rfl, rfl⟩

/-- What has been allocated when the array has its new size. -/
theorem growArray_allocs (h : growArray A t nasize = .ok (t', b)) :
    (b = false ∧ 0 < nasize ∧ A.fails t.allocs = true ∧
        t' = { t with array := none, allocs := t.allocs + 1 }) ∨
      b = true ∧ t.allocs ≤ t'.allocs ∧ ∀ i, t.allocs ≤ i → i < t'.allocs → A.fails i = false := by
  by_cases hlt : t.sizearray < nasize
  · rcases hinit : arrayInit A t nasize with ⟨t₁, b₁⟩
    rcases arrayInit_allocs hinit with ⟨rfl, hpos, hfail, ht₁⟩ | ⟨rfl, hallocs⟩
    · unfold growArray at h
      rw [if_pos hlt, hinit] at h
      obtain ⟨rfl, rfl⟩ := Prod.mk.inj (Except.ok.inj h)
      exact .inl ⟨rfl, hpos, hfail, ht₁⟩
    · obtain ⟨hb, heq⟩ := growArray_copied hlt hinit h
      rw [heq]
      exact .inr ⟨hb, hallocs⟩
  · unfold growArray at h
    rw [if_neg hlt] at h
    obtain ⟨rfl, rfl⟩ := Prod.mk.inj (Except.ok.inj h)
    exact .inr ⟨rfl, le_rfl, fun i hi hlt ↦ absurd hlt hi.not_gt⟩

/-- If there are no nodes, they have been lost, or there would be too many. -/
theorem nodeInit_lost (h : nodeInit A t nhsize = (t', false)) : t' = t ∨ t'.node = .null := by
  unfold nodeInit DlTable.alloc at h
  dsimp only at h
  split_ifs at h
  · cases (Prod.mk.inj h).2
  · exact .inl (Prod.mk.inj h).1.symm
  · cases (Prod.mk.inj h).2
  · obtain ⟨rfl, -⟩ := Prod.mk.inj h
    exact .inr rfl

/-- How `resize` fails. -/
theorem resize_false (h : resize A put t nasize nhsize = .ok (t', false)) :
    (0 < nasize ∧ A.fails t.allocs = true ∧
        t' = { t with array := none, allocs := t.allocs + 1 }) ∨
      t'.node = .null ∨ ∀ i, t.allocs ≤ i → i < t'.allocs → A.fails i = false := by
  unfold resize at h
  obtain ⟨⟨t₁, b⟩, hgrow, h⟩ := Exec.bind_eq_ok.mp h
  rcases growArray_allocs hgrow with ⟨rfl, hpos, hfail, ht₁⟩ | ⟨rfl, -, hallocs⟩
  · obtain ⟨rfl, -⟩ := Prod.mk.inj (Except.ok.inj h)
    exact .inl ⟨hpos, hfail, ht₁⟩
  · dsimp only at h
    rcases hinit : nodeInit A t₁ nhsize with ⟨t₂, b⟩
    rw [hinit] at h
    cases b with
    | true =>
      obtain ⟨t₃, -, h⟩ := Exec.bind_eq_ok.mp h
      obtain ⟨t₄, -, h⟩ := Exec.bind_eq_ok.mp h
      cases (Prod.mk.inj (Except.ok.inj h)).2
    | false =>
      obtain ⟨rfl, -⟩ := Prod.mk.inj (Except.ok.inj h)
      rcases nodeInit_lost hinit with rfl | hnull
      · exact .inr (.inr hallocs)
      · exact .inr (.inl hnull)

/-- A well-formed table has its nodes. -/
theorem Shape.node_ne_null (h : Shape t E) : t.node ≠ .null := by
  obtain ⟨C, hC, -⟩ := h.nodes
  cases hC with
  | dummy hn => rw [hn]; rintro ⟨⟩
  | nodes hn => rw [hn]; rintro ⟨⟩

/-- A rehash that has not got its memory leaves a table that is well formed only if it lacks an
array that has not been there before. -/
theorem rehash_false (hsizes : newSizes t key = .ok (nasize, nhsize))
    (hre : rehash A put t key = .ok (t', false)) (h' : Shape t' E)
    (hfailed : ∃ i, t.allocs ≤ i ∧ i < t'.allocs ∧ A.fails i = true) :
    t.sizearray ≤ 0 ∧ 0 < nasize ∧ A.fails t.allocs = true := by
  rw [rehash, hsizes, Exec.ok_bind] at hre
  rcases resize_false hre with ⟨hpos, hfail, rfl⟩ | hnull | hallocs
  · refine ⟨?_, hpos, hfail⟩
    by_contra hsize
    obtain ⟨vs, hvs, -⟩ := h'.array (not_le.mp hsize)
    cases hvs
  · exact absurd hnull h'.node_ne_null
  · obtain ⟨i, hi, hlt, hfail⟩ := hfailed
    cases (hallocs i hi hlt).symm.trans hfail

/-- A key gets no location only if a rehash has not got its memory. -/
theorem newkey_none (h : Shape t E) (hk : key.content t.mem = some c)
    (hbits : t.lsizenode ≤ maxBits) (hfuel : 2 ^ maxBits ≤ fuel)
    (hroom : (∀ i x, i < t.sizenode → loadNode t i = .ok x → x.key ≠ .nil) → HasRoom t key)
    (hrun : newkey A fuel (depth + 1) t key = .ok (t', none)) :
    (∀ i x, i < t.sizenode → loadNode t i = .ok x → x.key ≠ .nil) ∧
      ∃ r, rehash A (setL A fuel (depth + 1)) { t with lastfree := r } key = .ok (t', false) := by
  obtain ⟨C, hC, rfl, hsep⟩ := h.nodes
  rcases newkeyWith_cases A (setL A fuel (depth + 1)) fuel hC (mainPos_eq hk) with
    ⟨t₁, l, -, hext, -, -⟩ | ⟨r, hC', hcard, hnew⟩
  · cases (Prod.mk.inj (Except.ok.inj (hext.eq_ok hrun))).2
  · have hfull : ∀ i x, i < t.sizenode → loadNode t i = .ok x → x.key ≠ .nil :=
      fun i x hi hx ↦ hC.inUse hcard hi hx
    refine ⟨hfull, r, ?_⟩
    have hshape : Shape { t with lastfree := r } (arrayEntries t + nodeEntries C) :=
      ⟨h.array, h.id, C, hC', rfl, hsep⟩
    rw [newkey, hnew] at hrun
    obtain ⟨⟨t₁, ok⟩, hre, hrun⟩ := Exec.bind_eq_ok.mp hrun
    cases ok with
    | false =>
      obtain rfl : t₁ = t' := (Prod.mk.inj (Except.ok.inj hrun)).1
      exact hre
    | true =>
      -- there is a node for the key
      have hset : SetsWell (setL A fuel (depth + 1)) := setL_spec A fuel (depth + 1)
      have hput : Fills (setL A fuel (depth + 1)) fuel := setL_fills A fuel depth
      have hends := rehash_ends (A := A) hset hput hshape hbits hfuel (hroom hfull)
      obtain ⟨-, hnode⟩ := hends.2 _ hre rfl
      obtain ⟨E', hshape', hframe, -⟩ := rehash_spec hset hshape hre
      have hk' : key.content t₁.mem = some c := by
        rw [hframe.mem]
        exact hk
      exact absurd hrun (setL_ne_none hshape' hk' hnode)

/-- A key that is not found leaves nothing behind only if it is not copied, or if the array of a
rehash is missing that has not been there before. -/
theorem Harmless.of_absent (h : Good t E) (hf : find fuel t c = .ok none)
    (hfuel : 2 ^ maxBits ≤ fuel) (hdepth : 0 < depth)
    (hroom : Crowded t c → ∀ p, HasRoom t (c.key p))
    (hrun : setter A fuel depth t c d = .ok (t', .error)) (hfailed : Failed A t t')
    (hun : Unaltered t t') : Harmless A t c d := by
  have hret := (steady_find t c).returns hf
  by_cases hcopy : ∀ i < c.copies, A.fails (t.allocs + i) = false
  swap
  · obtain ⟨i, hi⟩ := not_forall.mp hcopy
    obtain ⟨hi, hfail⟩ := Classical.not_imp.mp hi
    exact .key hret hi (Bool.not_eq_false _ |>.mp hfail)
  obtain ⟨depth, rfl⟩ := Nat.exists_eq_add_of_lt hdepth
  rw [Nat.zero_add] at hrun
  have hsame : unchanged t none d = .ok false := by cases d <;> rfl
  rw [setter_eq, hf, Exec.ok_bind, hsame, Exec.ok_bind] at hrun
  obtain ⟨⟨t₁, o⟩, hins, hrun⟩ := Exec.bind_eq_ok.mp hrun
  obtain ⟨key, m, hk, hslot⟩ := slotFor_absent hcopy h hf (depth + 1)
  cases o with
  | some l =>
    -- the key is there now
    obtain ⟨s, rfl, hset⟩ := putDatum_error hrun
    obtain ⟨n, hn⟩ := slotFor_finds hcopy h hf hins
    have hmem : t₁.mem = m := (newkey_spec hk.shape hk.out (hslot.symm.trans hins)).frame.mem
    have hfound := (steady_find t' c).returns
      (find_setStr_error (hmem.symm ▸ (Held.rest hk.held).finite) hset hn)
    obtain ⟨o', ho', hnone, -⟩ := hun.find c none hret
    obtain rfl := hnone.mpr rfl
    cases ho'.unique hfound
  | none =>
    obtain rfl : t₁ = t' := (Prod.mk.inj (Except.ok.inj hrun)).1
    obtain ⟨q, rfl⟩ := exists_key hk.content
    obtain ⟨hinUse, r, hre⟩ := newkey_none hk.shape hk.content h.bits hfuel
      (fun hinUse ↦ hroom (hk.crowded ⟨hk.absent, hinUse⟩) q) (hslot.symm.trans hins)
    obtain ⟨⟨nasize, nhsize⟩, hsizes, -⟩ := Exec.bind_eq_ok.mp hre
    have hsizes' : newSizes t (c.key q) = .ok (nasize, nhsize) := by
      rw [← hsizes]
      apply newSizes_congr <;> rfl
    obtain ⟨E', -, hg'⟩ := hun.good
    obtain ⟨i, hi, hlt, hfail⟩ := hfailed
    have hi' : t.allocs + c.copies ≤ i := by
      by_contra hbefore
      obtain ⟨j, rfl⟩ := Nat.exists_eq_add_of_le hi
      cases (hcopy j (by omega)).symm.trans hfail
    obtain ⟨hsize, hpos, hfail'⟩ := rehash_false hsizes hre hg'.shape ⟨i, hi', hlt, hfail⟩
    exact .array hret (hk.crowded ⟨hk.absent, hinUse⟩) hsizes' hsize hpos hcopy hfail'

/-! ## Runs -/

/-- A table that such a run leads to is well formed. -/
theorem FailRun.good (hrun : FailRun t) : ∃ E, Good t E := by
  induction hrun with
  | new hm hnew => exact ⟨0, (tableNew_spec hm hnew).toGood⟩
  | @call A t t' c st fuel depth _ hA hstep ih =>
    obtain ⟨E, h⟩ := ih
    cases c with
    | set c d =>
      obtain ⟨E', h', -⟩ := setter_spec hA h hstep
      exact ⟨E', h'⟩
    | del c =>
      obtain ⟨t₁, hdel, hret⟩ := Exec.bind_eq_ok.mp hstep
      obtain ⟨rfl, -⟩ := Prod.mk.inj (Except.ok.inj hret)
      obtain ⟨E', h', -⟩ := deleter_spec h hdel
      exact ⟨E', h'⟩
  | @failed A t t' c d st fuel depth _ hharm hstep ih =>
    obtain ⟨E, h⟩ := ih
    have hstep' := hstep
    rw [setter_eq] at hstep'
    obtain ⟨o, hf, -⟩ := Exec.bind_eq_ok.mp hstep'
    obtain ⟨t₁, hset, -, hun⟩ := hharm.spec h hf depth
    obtain ⟨rfl, -⟩ := Prod.mk.inj (Except.ok.inj (hset.symm.trans hstep))
    obtain ⟨E', -, h'⟩ := hun.good
    exact ⟨E', h'⟩

/-- A setter whose allocation fails returns an error and leaves the table as it has been if the
failure is harmless, and only then if a rehash that is needed makes room. -/
theorem setter_atomic (hrun : FailRun t) (hfuel : 2 ^ maxBits ≤ fuel) (hdepth : 0 < depth) :
    (Harmless A t c d → Atomic A fuel depth t c d) ∧
      ((Crowded t c → ∀ p, HasRoom t (c.key p)) →
        (Atomic A fuel depth t c d ↔ Harmless A t c d)) := by
  obtain ⟨E, h⟩ := hrun.good
  have hatomic : Harmless A t c d → Atomic A fuel depth t c d := by
    intro hharm
    have hnum : t.sizenode ≤ fuel := (Nat.pow_le_pow_right (by decide) h.bits).trans hfuel
    obtain ⟨o, hret⟩ : ∃ o, Returns (fun fuel ↦ find fuel t c) o := by
      cases hharm with
      | key hret => exact ⟨_, hret⟩
      | string _ hret => exact ⟨_, hret⟩
      | text _ hret => exact ⟨_, hret⟩
      | array hret => exact ⟨_, hret⟩
    obtain ⟨N, hN⟩ := hret
    have hext := (steady_find t c).le (Nat.le_max_left fuel N)
    rcases hext with htime | heq
    · exact absurd htime (h.shape.find_ne_timeout c hnum)
    · exact hharm.spec h (heq.trans (hN _ (Nat.le_max_right fuel N))) depth
  refine ⟨hatomic, fun hroom ↦ ⟨fun hat ↦ ?_, hatomic⟩⟩
  obtain ⟨t', hset, hfailed, hun⟩ := hat
  have hset' := hset
  rw [setter_eq] at hset'
  obtain ⟨o, hf, -⟩ := Exec.bind_eq_ok.mp hset'
  cases o with
  | none => exact .of_absent h hf hfuel hdepth hroom hset hfailed hun
  | some l => exact .of_found h hf hset hun

/-- A `dl_alloc` of which the calls in the set fail. -/
noncomputable def Malloc.failing (S : Nat → Bool) : Malloc := { Malloc.reliable with fails := S }

/-- Two nodes, with the integers `1` and `2`, which have been set to `7` and `8`. -/
def twoKeys : Objects Node :=
  ((((freeNodes 2).set 1 ⟨⟨0, .nil⟩, .int 1, none⟩).set 1 ⟨⟨7, .int⟩, .int 1, none⟩).set 0
    ⟨⟨0, .nil⟩, .int 2, none⟩).set 0 ⟨⟨8, .int⟩, .int 2, none⟩

/-- A table with these nodes. -/
def pair : DlTable := { oneNode with lsizenode := 1, node := .nodes twoKeys, lastfree := some 2 }

theorem failRun_pair : FailRun pair := by
  have hinit := fun t ↦ nodeInit_eq (A := .reliable) (t := t) (fun _ ↦ rfl) Nat.two_pos
    (Nat.le_self_pow (by decide) 2)
  have hnew : tableNew .reliable (fun _ ↦ none) 0 0 2 =
      some { oneNode with lsizenode := 1, node := .nodes (freeNodes 2), lastfree := some 2 } := by
    unfold tableNew arrayInit
    simp only [Nat.cast_ofNat] at hinit
    simp only [hinit]
    rfl
  have hempty : FailRun { oneNode with
      lsizenode := 1, node := .nodes (freeNodes 2), lastfree := some 2 } :=
    .new ⟨0, fun _ _ ↦ rfl⟩ hnew
  have hone := FailRun.call hempty (fun _ ↦ rfl)
    (show (Call.set (.int 1) (.int 7)).run .reliable 1 1 _ = .ok (_, .ok) from rfl)
  exact .call hone (fun _ ↦ rfl)
    (show (Call.set (.int 2) (.int 8)).run .reliable 1 1 _ = .ok (pair, .ok) from rfl)

theorem newSizes_pair : newSizes pair (.int 3) = .ok (4, 0) := by decide +kernel

theorem hasRoom_pair : HasRoom pair (.int 3) := by
  have hout : outside pair (.int 3) 4 = 0 := by decide +kernel
  exact (room_iff newSizes_pair).mp (hout.trans_le (Nat.zero_le _))

theorem crowded_pair : Crowded pair (.int 3) := by
  have hnode : ∀ i x, i < pair.sizenode → loadNode pair i = .ok x →
      x.key = .int 1 ∨ x.key = .int 2 := by
    intro i x hi hx
    have hlt : i < 2 := hi
    interval_cases i
    · rw [← Except.ok.inj hx]
      exact .inr rfl
    · rw [← Except.ok.inj hx]
      exact .inl rfl
  refine ⟨?_, fun i x hi hx ↦ ?_⟩
  · rintro (⟨k, -, hin⟩ | ⟨i, x, hi, hx, hc⟩)
    · exact absurd (hin.2.trans_lt hin.1) (lt_irrefl _)
    · rcases hnode i x hi hx with h | h <;> rw [h] at hc <;> cases hc
  · rcases hnode i x hi hx with h | h <;> rw [h] <;> rintro ⟨⟩

/-- There is no memory for the array that the integers `1`, `2` and `3` are to be moved to. -/
theorem setter_atomic_pair : FailRun pair ∧ Crowded pair (.int 3) ∧
    Atomic (.failing fun i ↦ decide (i = 1)) (2 ^ maxBits) 1 pair (.int 3) (.int 9) := by
  have hnone : find 1 pair (.int 3) = .ok none := rfl
  have hharm : Harmless (.failing fun i ↦ decide (i = 1)) pair (.int 3) (.int 9) :=
    .array (p := 0) ((steady_find _ _).returns hnone) crowded_pair newSizes_pair le_rfl (by decide)
      (fun i hi ↦ absurd hi (Nat.not_lt_zero i)) rfl
  have hroom : Crowded pair (.int 3) → ∀ p, HasRoom pair (Content.key p (.int 3)) :=
    fun _ _ ↦ hasRoom_pair
  exact ⟨failRun_pair, crowded_pair,
    ((setter_atomic failRun_pair le_rfl Nat.one_pos).2 hroom).mpr hharm⟩

/-- There is no memory for the string that is to replace the number `7`, which is lost. -/
theorem setter_loses : ∃ t hist t', Run .reliable (fun _ _ ↦ True) t hist ∧
    setter (.failing fun _ ↦ true) 1 1 t (.int 1) (.str [97]) = .ok (t', .error) ∧
      Failed (.failing fun _ ↦ true) t t' ∧ ¬ Unaltered t t' ∧
        ∃ o, Returns (fun fuel ↦ find fuel t' (.int 1)) o ∧ Yields t' o (some (.int 0)) := by
  have hfind : find 1 (full 1) (.int 1) = .ok (some (.node 0)) := rfl
  have hset : setter (.failing fun _ ↦ true) 1 1 (full 1) (.int 1) (.str [97]) =
      .ok ({ full 1 with
        allocs := 2, node := .nodes ((oneKey 1).set 0 ⟨⟨0, .int⟩, .int 1, none⟩) }, .error) := rfl
  have hfind' : find 1 { full 1 with
      allocs := 2, node := .nodes ((oneKey 1).set 0 ⟨⟨0, .int⟩, .int 1, none⟩) } (.int 1) =
        .ok (some (.node 0)) := rfl
  have hret := (steady_find _ _).returns hfind'
  refine ⟨full 1, _, _, run_full _ trivial rfl, hset, ⟨1, le_rfl, Nat.one_lt_two, rfl⟩,
    fun hun ↦ ?_, _, hret, .val (v := ⟨0, .int⟩) rfl rfl⟩
  obtain ⟨o, ho, -, hy⟩ := hun.find _ _ ((steady_find _ _).returns hfind)
  obtain rfl := ho.unique hret
  cases hy _ (.val (v := ⟨7, .int⟩) rfl rfl) with
  | val hv hd =>
    rw [← Except.ok.inj hv] at hd
    cases hd

end Dlbase.Table
