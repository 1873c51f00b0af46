import Dlbase.Table.Pointer

/-!
# Failed allocations

A setter that gets no memory returns an error.  The table is as good as before if the allocation is
that of the key, if nothing but a value that does not count has been overwritten, or if a rehash has
not got an array for a table that has none.
-/

namespace Dlbase.Table

open Cmem

/-- The table is as good as before. -/
structure Unaltered (t t' : DlTable) : Prop where
  /-- It is well formed and holds what it has held. -/
  good : ∃ E, Good t E ∧ Good t' E
  /-- Each key is found with the value that it has had. -/
  find : ∀ c o, Returns (fun fuel ↦ find fuel t c) o →
    ∃ o', Returns (fun fuel ↦ Table.find fuel t' c) o' ∧ (o' = none ↔ o = none) ∧
      ∀ r, Yields t o r → Yields t' o' r
  /-- No pointer has been released. -/
  voids : t'.voids = t.voids

/-- An allocation of the call has failed. -/
def Failed (A : Malloc) (t t' : DlTable) : Prop :=
  ∃ i, t.allocs ≤ i ∧ i < t'.allocs ∧ A.fails i = true

/-- The call fails, and nothing has changed. -/
def Atomic (A : Malloc) (fuel depth : Nat) (t : DlTable) (c : Content) (d : Datum) : Prop :=
  ∃ t', setter A fuel depth t c d = .ok (t', .error) ∧ Failed A t t' ∧ Unaltered t t'

/-- The allocation that fails is one before which nothing has changed that counts. -/
inductive Harmless (A : Malloc) (t : DlTable) (c : Content) (d : Datum) : Prop where
  /-- A new key is not copied. -/
  | key {i : Nat} : Returns (fun fuel ↦ find fuel t c) none → i < c.copies →
      A.fails (t.allocs + i) = true → Harmless A t c d
  /-- There is no string to be written over a number, which is `0`, or over nil. -/
  | string {s : List UInt8} {l : Loc} {v : Value} : d = .str s →
      Returns (fun fuel ↦ find fuel t c) (some l) → readVal t l = .ok v →
      v = ⟨0, .int⟩ ∨ v.tt = .nil → A.fails t.allocs = true → Harmless A t c d
  /-- There are no characters for a string whose address is that number. -/
  | text {s : List UInt8} {l : Loc} {v : Value} : d = .str s →
      Returns (fun fuel ↦ find fuel t c) (some l) → readVal t l = .ok v →
      v = ⟨A.run t.mem, .int⟩ ∨ v.tt = .nil → A.fails t.allocs = false →
      A.fails (t.allocs + 1) = true → Harmless A t c d
  /-- A rehash does not get an array for a table that has none. -/
  | array {p : Nat} {nasize nhsize : Int} : Returns (fun fuel ↦ find fuel t c) none → Crowded t c →
      newSizes t (c.key p) = .ok (nasize, nhsize) → t.sizearray ≤ 0 → 0 < nasize →
      (∀ i < c.copies, A.fails (t.allocs + i) = false) → A.fails (t.allocs + c.copies) = true →
      Harmless A t c d

variable {A : Malloc} {put : DlTable → Key → Exec Insertion} {t t' t'' : DlTable} {E : Entries}
  {k key : Key} {v x : Value} {c : Content} {d : Datum} {l l' : Loc} {m : Mem} {o : Option Loc}
  {fuel depth : Nat} {st : Status} {nasize nhsize : Int}

/-! ## Tables that hold the same -/

namespace Unaltered

theorem trans (h : Unaltered t t') (h' : Unaltered t' t'') : Unaltered t t'' where
  good := by
    obtain ⟨E, hg, hg'⟩ := h.good
    obtain ⟨E', hg₁, hg''⟩ := h'.good
    obtain rfl := hg'.shape.unique hg₁.shape
    exact ⟨E, hg, hg''⟩
  find c o ho := by
    obtain ⟨o', ho', hnone, hy⟩ := h.find c o ho
    obtain ⟨o'', ho'', hnone', hy'⟩ := h'.find c o' ho'
    exact ⟨o'', ho'', hnone'.trans hnone, fun r hr ↦ hy' r (hy r hr)⟩
  voids := h'.voids.trans h.voids

/-- Each key is found where it has been. -/
theorem of_find (h : Good t E) (h' : Good t' E) (hvoids : t'.voids = t.voids)
    (hfind : ∀ fuel c o, Table.find fuel t c = .ok o →
      Table.find fuel t' c = .ok o ∧ ∀ r, Yields t o r → Yields t' o r) : Unaltered t t' where
  good := ⟨E, h, h'⟩
  find c o ho := by
    obtain ⟨N, hN⟩ := ho
    exact ⟨o, ⟨N, fun fuel hf ↦ (hfind fuel c o (hN fuel hf)).1⟩, Iff.rfl,
      (hfind N c o (hN N le_rfl)).2⟩
  voids := hvoids

end Unaltered

/-- A value that has been found is one of the entries, or nil. -/
theorem Shape.mem_of_find (h : Shape t E) (hf : find fuel t c = .ok (some l))
    (hv : readVal t l = .ok v) (hne : v.tt ≠ .nil) : ∃ k, (k, v) ∈ E := by
  obtain ⟨k, e, w, R, -, -, hat, rfl, -⟩ := h.at_find hf
  obtain rfl := Except.ok.inj (hat.read.symm.trans hv)
  rw [slotEntries_used hne]
  exact ⟨k, Multiset.mem_add.mpr (.inl (Multiset.mem_singleton_self _))⟩

/-- Other strings have been created. -/
theorem Good.over (h : Good t E) (hfin : m.Finite) (hm : ∀ a ∈ owned E, m a = t.mem a) {a : Nat}
    (ha : t.arrayId ≤ a) : Unaltered t { t with mem := m, allocs := a } := by
  have h' : Good { t with mem := m, allocs := a } E := ⟨h.shape.over t.voids ha fun e he ↦
    Owns.content_eq hm he, h.owns.congr hfin hm, h.bits⟩
  refine .of_find h h' rfl fun fuel c o hf ↦
    ⟨h.shape.find_over (fun e he ↦ Owns.content_eq hm he) t.voids a hf, fun r hr ↦ ?_⟩
  cases hr with
  | null => exact .null
  | nil hv hnil => exact .nil hv hnil
  | @val l v d hv hd =>
    have hne : v.tt ≠ .nil := fun hnil ↦ by
      rw [Value.datum, hnil] at hd
      cases hd
    obtain ⟨k, hk⟩ := h.shape.mem_of_find hf hv hne
    exact .val hv ((Owns.datum_eq hm hk).trans hd)

/-- Other values are as before. -/
theorem read_writeVal (h : writeVal t l x = .ok t') (hne : l' ≠ l) :
    readVal t' l' = readVal t l' := by
  cases l with
  | array i =>
    unfold writeVal at h
    dsimp only at h
    split at h
    · rename_i vs hvs
      split_ifs at h
      · obtain rfl := Except.ok.inj h
        cases l' with
        | array j =>
          have hij : i ≠ j := fun hij ↦ hne (congrArg _ hij.symm)
          unfold readVal loadArray
          dsimp only
          rw [hvs, List.getElem?_set_ne hij]
        | node j => rfl
      · cases h
    · cases h
  | node i =>
    obtain ⟨n, hn, h⟩ := Exec.bind_eq_ok.mp h
    cases l' with
    | array j =>
      obtain ⟨q, rfl⟩ := storeNode_fields h
      rfl
    | node j =>
      have hji : j ≠ i := fun hji ↦ hne (congrArg _ hji)
      rw [readVal, storeNode_load h, if_neg hji]
      rfl

/-- A number can be overwritten with itself, and nil with nil. -/
theorem At.rewrite {R : Entries} (hat : At t k v R l) (h : Shape t (slotEntries k v + R))
    (hx : x = v ∧ v.tt = .int ∨ x.tt = .nil ∧ v.tt = .nil) :
    ∃ p vs, writeVal t l x = .ok { t with node := p, array := vs } ∧
      Shape { t with node := p, array := vs } (slotEntries k v + R) := by
  rcases hx with ⟨rfl, hint⟩ | ⟨hxnil, hvnil⟩
  · have hused : x.Used := by
      constructor <;> rw [hint] <;> rintro ⟨⟩
    obtain ⟨p, vs, hw, -, hshape⟩ := hat.write h.array h.id hused
    rw [slotEntries_used hused.1, Multiset.singleton_add]
    exact ⟨p, vs, hw, hshape⟩
  · cases hat with
    | @array i Q C hin hki hload hnull hQ hC hsep hR =>
      obtain ⟨vs, w, Q', -, -, hload', -, hQ', hwrite⟩ := array_focus h.array hin
      obtain rfl := Except.ok.inj (hload.symm.trans hload')
      obtain ⟨hw, hok, hx'⟩ := hwrite x
      have hxnull : x.tt ≠ .null := by
        rw [hxnil]
        rintro ⟨⟩
      refine ⟨t.node, some (vs.set i x), hw, hok hxnull, h.id, C, hC.congr_array _ _, ?_, hsep⟩
      rw [cellEntry_nil hvnil, zero_add, hQ, slotEntries_nil hvnil, zero_add] at hQ'
      rw [hx', cellEntry_nil hxnil, slotEntries_nil hvnil, zero_add, zero_add, hR, hQ']
    | node hn hl _ _ hv _ =>
      subst hv
      exact absurd hvnil (hl.used _ (Multiset.mem_cons_self _ _) _ (by simp)).1

/-- What keys are found with is as before. -/
theorem Yields.rewrite {r : Option Datum} (hy : Yields t o r) (hw : writeVal t l x = .ok t')
    (hv : readVal t l = .ok v) (hx : x = v ∧ v.tt = .int ∨ x.tt = .nil ∧ v.tt = .nil) :
    Yields t' o r := by
  have hmem : t'.mem = t.mem := by
    obtain ⟨p, vs, rfl⟩ := writeVal_fields hw
    rfl
  cases hy with
  | null => exact .null
  | @nil l' u hu hunil =>
    by_cases hne : l' = l
    · subst hne
      obtain rfl := Except.ok.inj (hv.symm.trans hu)
      refine .nil (writeVal_read hw) ?_
      rcases hx with ⟨rfl, -⟩ | ⟨hxnil, -⟩
      · exact hunil
      · exact hxnil
    · exact .nil ((read_writeVal hw hne).trans hu) hunil
  | @val l' u d hu hd =>
    rw [← hmem] at hd
    by_cases hne : l' = l
    · subst hne
      obtain rfl := Except.ok.inj (hv.symm.trans hu)
      rcases hx with ⟨rfl, -⟩ | ⟨-, hvnil⟩
      · exact .val (writeVal_read hw) hd
      · rw [Value.datum, hvnil] at hd
        cases hd
    · exact .val ((read_writeVal hw hne).trans hu) hd

/-- A number has been overwritten with itself, or nil with nil. -/
theorem Good.rewrite (h : Good t E) (hf : find fuel t c = .ok (some l)) (hv : readVal t l = .ok v)
    (hx : x = v ∧ v.tt = .int ∨ x.tt = .nil ∧ v.tt = .nil) :
    ∃ p vs, writeVal t l x = .ok { t with node := p, array := vs } ∧
      Unaltered t { t with node := p, array := vs } ∧ Good { t with node := p, array := vs } E := by
  obtain ⟨k, e, w, R, -, -, hat, rfl, -⟩ := h.shape.at_find hf
  obtain rfl := Except.ok.inj (hat.read.symm.trans hv)
  obtain ⟨p, vs, hw, hshape⟩ := hat.rewrite h.shape hx
  have h' : Good { t with node := p, array := vs } (slotEntries k w + R) :=
    ⟨hshape, h.owns, h.bits⟩
  exact ⟨p, vs, hw, .of_find h h' rfl fun n c' o ho ↦
    ⟨find_writeVal hw ho, fun r hr ↦ hr.rewrite hw hv hx⟩, h'⟩

/-- No key is found in an array that is empty. -/
theorem find_ne_array {i : Nat} (hsize : t.sizearray ≤ 0) :
    find fuel t c ≠ .ok (some (.array i)) := by
  have hout : ∀ k, c = .int k → ¬ InArray t k := fun k _ hin ↦ by
    obtain ⟨hlt, hpos⟩ := hin
    omega
  obtain ⟨same, hfind, -⟩ := find_eq fuel hout
  rw [hfind]
  exact search_ne_array

/-- A table whose array is empty has lost it, and has looked for a free node. -/
theorem Good.noArray {C : Multiset (List Item)} {q : Option Int}
    (h : Good t (arrayEntries t + nodeEntries C)) (hC : Chains { t with lastfree := q } C)
    (hsep : Outside t C) (hsize : t.sizearray ≤ 0) {a : Nat} (ha : t.arrayId ≤ a) :
    Unaltered t { t with array := none, allocs := a, lastfree := q } := by
  have hC' := (hC.congr_array t.sizearray none).over t.voids a fun _ _ ↦ rfl
  have hentries : arrayEntries t = arrayEntries { t with array := none } := by
    have hzero : t.sizearray.toNat = 0 := Int.toNat_of_nonpos hsize
    rw [arrayEntries, arrayEntries, hzero]
    rfl
  have h' : Good { t with array := none, allocs := a, lastfree := q }
      (arrayEntries t + nodeEntries C) := by
    refine ⟨⟨fun hpos ↦ absurd hpos hsize.not_gt, ha, C, hC', ?_, hsep⟩, h.owns, h.bits⟩
    rw [hentries]
    rfl
  refine .of_find h h' rfl fun fuel c o hf ↦ ⟨find_alike (t := t) (P := fun _ ↦ True) rfl rfl
    (fun _ _ _ _ _ _ ↦ trivial) (fun i x _ hx ↦ ⟨x.val, hx, fun b hb ↦ hb⟩) trivial hf,
    fun r hr ↦ ?_⟩
  cases hr with
  | null => exact .null
  | @nil l v hv hnil =>
    cases l with
    | array i => exact absurd hf (find_ne_array hsize)
    | node i => exact .nil hv hnil
  | @val l v d hv hd =>
    cases l with
    | array i => exact absurd hf (find_ne_array hsize)
    | node i => exact .val hv hd

/-! ## The string of a value -/

/-- The first allocation of a string fails. -/
theorem setStr_no_string {p : NodePart} {vs : Option (List Value)} (hfail : A.fails t.allocs = true)
    (hv : readVal t l = .ok v) (s : List UInt8)
    (hw : writeVal t l { v with v := 0 } = .ok { t with node := p, array := vs }) :
    setStr A t l s = .ok ({ t with node := p, array := vs, allocs := t.allocs + 1 }, .error) := by
  unfold setStr DlTable.alloc
  rw [hv, Exec.ok_bind, hfail]
  dsimp only
  rw [if_neg (by rintro ⟨⟩), writeVal_over t.mem t.voids (t.allocs + 1) hw]
  rfl

/-- The second one fails. -/
theorem setStr_no_text {p : NodePart} {vs : Option (List Value)} (hok : A.fails t.allocs = false)
    (hfail : A.fails (t.allocs + 1) = true) (hv : readVal t l = .ok v) (s : List UInt8)
    (hw : writeVal t l { v with v := A.run t.mem } = .ok { t with node := p, array := vs }) :
    setStr A t l s = .ok ({ t with node := p, array := vs, mem := t.mem.set (A.run t.mem) none
                                   allocs := t.allocs + 2 }, .error) := by
  unfold setStr DlTable.alloc
  rw [hv, Exec.ok_bind, hok]
  dsimp only
  rw [if_pos Bool.not_false, writeVal_over _ t.voids (t.allocs + 1) hw, Exec.ok_bind]
  dsimp only
  rw [hfail, if_neg (by rintro ⟨⟩)]
  rfl

/-- Numbers and nil are not released. -/
theorem slotFor_quiet (hv : readVal t l = .ok v) (hq : v.tt = .int ∨ v.tt = .nil) :
    slotFor A fuel depth t c (some l) = .ok (t, some l) := by
  rw [slotFor_some hv]
  unfold freedVal Value.pointers
  rcases hq with hq | hq <;> rw [hq] <;> rfl

/-- A new object is none of the strings of the table. -/
theorem Owns.agree_set (h : Owns t.mem E) (A : Malloc) (u : Option (List UInt8)) :
    ∀ a ∈ owned E, (t.mem.set (A.run t.mem) u) a = t.mem a := by
  intro a ha
  obtain ⟨s, hs⟩ := h.alive a ha
  have hne : a ≠ A.run t.mem := by
    rintro rfl
    cases (A.fresh t.mem h.finite).symm.trans hs
  exact Function.update_of_ne hne _ _

/-- A string is not created, but the value stays as it is. -/
theorem setter_same (h : Good t E) (hfind : find fuel t c = .ok (some l))
    (hv : readVal t l = .ok v) {n : Int} (hq : v = ⟨n, .int⟩ ∨ v.tt = .nil) (hfin : m.Finite)
    (hm : ∀ a ∈ owned E, m a = t.mem a) {a : Nat} (ha : t.allocs ≤ a) {s : List UInt8}
    (hfail : ∃ i, t.allocs ≤ i ∧ i < a ∧ A.fails i = true)
    (hset : ∀ {p vs}, writeVal t l { v with v := n } = .ok { t with node := p, array := vs } →
      setStr A t l s = .ok ({ t with node := p, array := vs, mem := m, allocs := a }, .error))
    (depth : Nat) : Atomic A fuel depth t c (.str s) := by
  have hx : ({ v with v := n } : Value) = v ∧ v.tt = .int ∨
      ({ v with v := n } : Value).tt = .nil ∧ v.tt = .nil := by
    rcases hq with rfl | hnil
    · exact .inl ⟨rfl, rfl⟩
    · exact .inr ⟨hnil, hnil⟩
  obtain ⟨p, vs, hw, hun, hgood⟩ := h.rewrite hfind hv hx
  refine ⟨{ t with node := p, array := vs, mem := m, allocs := a }, ?_, hfail,
    hun.trans (hgood.over hfin hm (h.shape.id.trans ha))⟩
  rw [setter_eq, hfind, Exec.ok_bind]
  change (slotFor A fuel depth t c (some l) >>= _) = _
  rw [slotFor_quiet hv (hx.imp And.right And.right)]
  exact hset hw

/-- There is no memory for a string that is to replace `0` or nil. -/
theorem setter_no_string (h : Good t E) (hfind : find fuel t c = .ok (some l))
    (hv : readVal t l = .ok v) (hfail : A.fails t.allocs = true)
    (hq : v = ⟨0, .int⟩ ∨ v.tt = .nil) (depth : Nat) (s : List UInt8) :
    Atomic A fuel depth t c (.str s) :=
  setter_same h hfind hv hq h.owns.finite (fun _ _ ↦ rfl) (Nat.le_succ _)
    ⟨t.allocs, le_rfl, Nat.lt_succ_self _, hfail⟩ (setStr_no_string hfail hv s) depth

/-- There is no memory for the text of a string that is to replace its own address or nil. -/
theorem setter_no_text (h : Good t E) (hfind : find fuel t c = .ok (some l))
    (hv : readVal t l = .ok v) (hok : A.fails t.allocs = false)
    (hfail : A.fails (t.allocs + 1) = true) (hq : v = ⟨A.run t.mem, .int⟩ ∨ v.tt = .nil)
    (depth : Nat) (s : List UInt8) : Atomic A fuel depth t c (.str s) :=
  setter_same h hfind hv hq (Holds.finite_set h.owns.finite _ _) (h.owns.agree_set A none)
    (Nat.le_add_right _ 2) ⟨t.allocs + 1, Nat.le_succ _, Nat.lt_succ_self _, hfail⟩
    (setStr_no_text hok hfail hv s) depth

/-! ## The key -/

/-- There is no memory for the copy of a key. -/
theorem setter_no_key (h : Good t E) (hfind : find fuel t c = .ok none) {i : Nat}
    (hi : i < c.copies) (hfail : A.fails (t.allocs + i) = true) (depth : Nat) (d : Datum) :
    Atomic A fuel depth t c d := by
  have hun : unchanged t none d = .ok false := by cases d <;> rfl
  obtain ⟨s, rfl⟩ : ∃ s, c = .str s := by
    cases c with
    | int k => cases hi
    | str s => exact ⟨s, rfl⟩
  have hslot : ∃ t', slotFor A fuel depth t (.str s) none = .ok (t', none) ∧ Failed A t t' ∧
      Unaltered t t' := by
    unfold slotFor nodeSet DlTable.alloc
    dsimp only
    cases hfirst : A.fails t.allocs with
    | true =>
      exact ⟨_, rfl, ⟨t.allocs, le_rfl, Nat.lt_succ_self _, hfirst⟩, h.over h.owns.finite
        (fun _ _ ↦ rfl) (h.shape.id.trans (Nat.le_succ _))⟩
    | false =>
      have hsecond : A.fails (t.allocs + 1) = true := by
        cases i with
        | zero => cases hfirst.symm.trans hfail
        | succ i =>
          have hone : i + 1 = 1 := by
            have hlt : i + 1 < 2 := hi
            omega
          rwa [hone] at hfail
      rw [if_pos Bool.not_false, hsecond]
      exact ⟨_, rfl, ⟨t.allocs + 1, Nat.le_succ _, Nat.lt_succ_self _, hsecond⟩,
        h.over (Holds.finite_set h.owns.finite _ _) (h.owns.agree_set A none)
          (h.shape.id.trans (Nat.le_add_right _ 2))⟩
  obtain ⟨t', hslot, hfailed, hun'⟩ := hslot
  refine ⟨t', ?_, hfailed, hun'⟩
  rw [setter_eq, hfind, Exec.ok_bind, hun, Exec.ok_bind]
  change (slotFor A fuel depth t (.str s) none >>= _) = _
  rw [hslot]
  rfl

/-! ## The array of a rehash -/

/-- The node part is full if there are as many entries as nodes. -/
theorem Chains.not_crowded {C : Multiset (List Item)} (hC : Chains t C)
    (hcard : (nodeEntries C).card < capacity t) : ¬ Crowded t c := by
  intro hfull
  cases hC with
  | dummy hn =>
    rw [capacity_dummy hn] at hcard
    exact Nat.not_lt_zero _ hcard
  | @nodes n C F hn hl =>
    have hnum := hl.card_eq
    rw [capacity_nodes hn] at hcard
    obtain ⟨f, hf⟩ : ∃ f, f ∈ F := Multiset.exists_mem_of_ne_zero fun hF ↦ by
      rw [hF, Multiset.card_zero, Nat.add_zero] at hnum
      omega
    obtain ⟨F', rfl⟩ := Multiset.exists_cons_of_mem hf
    exact hfull.inUse f.1 _ hl.free_lt (loadNode_eq hn hl.holds_free) rfl

/-- The sizes that are computed depend on the content of the key only. -/
theorem newSizes_key (t : DlTable) (c : Content) (p q : Nat) :
    newSizes t (c.key p) = newSizes t (c.key q) := by cases c <;> rfl

theorem exists_key (hk : key.content m = some c) : ∃ p, key = c.key p := by
  cases c with
  | int i => exact ⟨0, content_int hk⟩
  | str s =>
    obtain ⟨p, hp, -⟩ := exists_of_content_str hk
    exact ⟨p, hp⟩

/-- There is no memory for the first array of a table. -/
theorem resize_no_array (hfail : A.fails t.allocs = true) (hsize : t.sizearray ≤ 0)
    (hpos : 0 < nasize) :
    resize A put t nasize nhsize =
      .ok ({ t with array := none, allocs := t.allocs + 1 }, false) := by
  unfold resize growArray arrayInit DlTable.alloc
  rw [if_pos (hsize.trans_lt hpos), if_pos hpos, hfail]
  rfl

theorem makeRoom_no_array (hsizes : newSizes t key = .ok (nasize, nhsize))
    (hfail : A.fails t.allocs = true) (hsize : t.sizearray ≤ 0) (hpos : 0 < nasize) :
    makeRoom A put t key = .ok ({ t with array := none, allocs := t.allocs + 1 }, none) := by
  rw [makeRoom, rehash, hsizes, Exec.ok_bind]
  change (resize A put t nasize nhsize >>= _) = _
  rw [resize_no_array hfail hsize hpos]
  rfl

/-- There is no memory for the first array of a table. -/
theorem setter_no_array (h : Good t E) (hfind : find fuel t c = .ok none) (hfull : Crowded t c)
    (hcopy : ∀ i < c.copies, A.fails (t.allocs + i) = false)
    (hfail : A.fails (t.allocs + c.copies) = true) {p : Nat}
    (hsizes : newSizes t (c.key p) = .ok (nasize, nhsize)) (hsize : t.sizearray ≤ 0)
    (hpos : 0 < nasize) (depth : Nat) (d : Datum) :
    Atomic A fuel depth t c d := by
  have hun : unchanged t none d = .ok false := by cases d <;> rfl
  obtain ⟨key, m, hk, hslot⟩ := slotFor_absent hcopy h hfind depth
  obtain ⟨q, rfl⟩ := exists_key hk.content
  have hover := h.over (Held.rest hk.held).finite hk.same hk.shape.id
  have hgood : Good { t with mem := m, allocs := t.allocs + c.copies } E :=
    ⟨hk.shape, Held.rest hk.held, h.bits⟩
  obtain ⟨C, hC, rfl, hsep⟩ := hk.shape.nodes
  rcases newkeyWith_cases A (setL A fuel depth) fuel hC (mainPos_eq hk.content) with
    ⟨-, -, -, -, -, hcard⟩ | ⟨r, hC', -, hrun⟩
  · have hfull' : Crowded { t with mem := m, allocs := t.allocs + c.copies } c :=
      ⟨hk.absent, hfull.inUse⟩
    exact absurd hfull' (hC.not_crowded hcard)
  · have hno := hgood.noArray (a := t.allocs + c.copies + 1) hC' hsep hsize hk.shape.id.step
    refine ⟨_, ?_, ⟨t.allocs + c.copies, Nat.le_add_right _ _, Nat.lt_succ_self _, hfail⟩,
      hover.trans hno⟩
    have hsizes' : newSizes { t with mem := m, allocs := t.allocs + c.copies, lastfree := r }
        (c.key q) = .ok (nasize, nhsize) := by
      rw [← hsizes, ← newSizes_key t c q p]
      apply newSizes_congr <;> rfl
    have hmake : makeRoom A (setL A fuel depth)
        { t with mem := m, allocs := t.allocs + c.copies, lastfree := r } (c.key q) = _ :=
      makeRoom_no_array hsizes' hfail hsize hpos
    rw [setter_eq, hfind, Exec.ok_bind, hun, Exec.ok_bind]
    change (slotFor A fuel depth t c none >>= _) = _
    rw [hslot, newkey, hrun]
    exact congrArg (· >>= _) hmake

/-! ## Harmless failures -/

/-- What a setter does if the allocation that fails is harmless. -/
theorem Harmless.spec (hh : Harmless A t c d) (h : Good t E) (hf : find fuel t c = .ok o)
    (depth : Nat) : Atomic A fuel depth t c d := by
  have hret := (steady_find t c).returns hf
  cases hh with
  | key hnone hi hfail =>
    obtain rfl := hret.unique hnone
    exact setter_no_key h hf hi hfail depth d
  | string hd hl hv hq hfail =>
    obtain rfl := hret.unique hl
    rw [hd]
    exact setter_no_string h hf hv hfail hq depth _
  | text hd hl hv hq hok hfail =>
    obtain rfl := hret.unique hl
    rw [hd]
    exact setter_no_text h hf hv hok hfail hq depth _
  | array hnone hfull hsizes hsize hpos hcopy hfail =>
    obtain rfl := hret.unique hnone
    exact setter_no_array h hf hfull hcopy hfail hsizes hsize hpos depth d

end Dlbase.Table
