import Dlbase.Table.Count

/-!
# Too many nodes

An insertion that fails although each allocation succeeds has been refused because of the number of
nodes.  By then the array may have been replaced by a larger one, but no key of a node belongs to
the larger one: as such keys go to the array, they would have lowered the number of nodes.
-/

namespace Dlbase.Table

open Cmem

variable {A : Malloc} {put : DlTable → Key → Exec Insertion} {t t' : DlTable} {n : Objects Node}
  {C : Multiset (List Item)} {F : Multiset (Nat × Int)} {key ek : Key} {E : Entries}
  {fuel depth : Nat} {nasize nhsize : Int}

/-- Insertions that are refused leave the entries as they are. -/
def FailsWell (put : DlTable → Key → Exec Insertion) : Prop :=
  ∀ {t E key t'}, Shape t E → t.lsizenode ≤ maxBits → put t key = .ok (t', none) →
    ∃ E', Shape t' E' ∧ Frame t t' ∧ Kept t.mem E E'

/-! ## Numbers of entries -/

theorem card_nodeEntry_le (x : Node) : (nodeEntry x).card ≤ 1 := by
  unfold nodeEntry
  split_ifs
  · exact Nat.zero_le _
  · exact le_rfl

theorem card_entryAt_le (p : NodePart) (i : Nat) : (entryAt p i).card ≤ 1 := by
  unfold entryAt
  split
  · exact card_nodeEntry_le _
  · exact Nat.zero_le _

theorem card_allNodes_le (t : DlTable) : (allNodes t).card ≤ t.sizenode := by
  rw [allNodes, Multiset.card_sum]
  refine (Finset.sum_le_sum fun i _ ↦ card_entryAt_le t.node i).trans_eq ?_
  simp

theorem card_number_le (k : Key) : k.number.card ≤ 1 := by
  unfold Key.number
  split
  · split_ifs
    · exact le_rfl
    · exact Nat.zero_le _
  · exact Nat.zero_le _

theorem card_numbers_le (K : Multiset Key) : (numbers K).card ≤ K.card := by
  induction K using Multiset.induction_on with
  | empty => exact le_rfl
  | cons k K ih =>
    have hk := card_number_le k
    rw [numbers] at ih ⊢
    rw [Multiset.cons_bind, Multiset.card_add, Multiset.card_cons]
    omega

theorem Layout.allNodes_eq (hn : t.node = .nodes n) (h : Layout t n C F) :
    allNodes t = nodeEntries C := by
  rw [allNodes, hn]
  exact h.sum_entryAt

/-- All elements of an array below a size are counted for it. -/
theorem upTo_arrayNumbers {m : Nat} (h : arrayEnd t ≤ m) :
    upTo (arrayNumbers t 0 (arrayEnd t)) m = (arrayNumbers t 0 (arrayEnd t)).card :=
  Multiset.countP_eq_card.mpr fun _ hx ↦ (mem_arrayNumbers hx).2.trans h

/-- If a key of a node belongs to the larger array, there are not too many nodes. -/
theorem newSizes_le (hbits : t.lsizenode ≤ maxBits) (h : newSizes t ek = .ok (nasize, nhsize))
    (hlt : t.sizearray < nasize) {e : Key × Value} {k : Int} (he : e ∈ allNodes t)
    (hk : e.1 = .int k) (hpos : 0 ≤ k) (hsize : t.sizearray ≤ k) (hn : k < nasize) :
    0 ≤ nhsize ∧ nhsize ≤ 2 ^ maxBits := by
  obtain ⟨m, rfl, hm, rfl⟩ := newSizes_eq h
  have hcard := card_allNodes_le t
  have hpow : t.sizenode ≤ 2 ^ maxBits := Nat.pow_le_pow_right (by decide) hbits
  have hcast := natCast_two_pow maxBits
  have hall := (upTo_le_card (counted t ek) m).trans_eq (card_counted t ek).symm
  have hnodes := card_numbers_le ((allNodes t).map Prod.fst)
  rw [Multiset.card_map] at hnodes
  have hextra := card_number_le ek
  have hend : arrayEnd t ≤ m := by
    rw [arrayEnd]
    omega
  have hup : (arrayNumbers t 0 (arrayEnd t)).card + 1 ≤ upTo (counted t ek) m := by
    obtain ⟨i, hi, rfl, hd⟩ : ∃ i < maxBits + 1, m = 2 ^ i ∧ Dense (counted t ek) i := by
      rcases hm with ⟨rfl, -⟩ | ⟨i, hi, hm, hd, -⟩
      · omega
      · exact ⟨i, hi, hm, hd⟩
    have hpow' : 2 ^ i ≤ 2 ^ maxBits := Nat.pow_le_pow_right (by decide) (Nat.lt_succ_iff.mp hi)
    have hcast' := natCast_two_pow i
    by_cases hzero : k = 0
    · -- there is no array yet
      have hnone : (arrayNumbers t 0 (arrayEnd t)).card = 0 := by
        have hend : arrayEnd t = 0 := by
          rw [arrayEnd]
          omega
        rw [hend]
        rfl
      have hlt := hd.2
      omega
    · have hnum : k.toNat ∈ numbers (ek ::ₘ (allNodes t).map Prod.fst) := by
        refine Multiset.mem_bind.mpr ⟨e.1, Multiset.mem_cons_of_mem (Multiset.mem_map_of_mem _ he), ?_⟩
        rw [hk, Key.number, if_pos (by omega)]
        exact Multiset.mem_singleton_self _
      have hone : 0 < upTo (numbers (ek ::ₘ (allNodes t).map Prod.fst)) (2 ^ i) :=
        Multiset.countP_pos.mpr ⟨_, hnum, by omega⟩
      rw [counted, upTo_add, upTo_arrayNumbers hend]
      omega
  constructor <;> omega

/-! ## Failures -/

/-- Only the array changes if it gets a larger size. -/
theorem growArray_fields {ok : Bool} (h : growArray A t nasize = .ok (t', ok)) :
    ∃ vs i z c, t' = { t with array := vs, arrayId := i, sizearray := z, allocs := c } := by
  have hinit : ∃ vs i z c, (arrayInit A t nasize).1 =
      { t with array := vs, arrayId := i, sizearray := z, allocs := c } := by
    unfold arrayInit DlTable.alloc
    dsimp only
    split_ifs <;> exact ⟨_, _, _, _, rfl⟩
  unfold growArray at h
  by_cases hlt : t.sizearray < nasize
  · rw [if_pos hlt] at h
    obtain ⟨vs, i, z, c, hfields⟩ := hinit
    rcases hres : arrayInit A t nasize with ⟨t₁, b⟩
    rw [hres] at h hfields
    obtain rfl : t₁ = _ := hfields
    cases b with
    | false =>
      obtain ⟨rfl, -⟩ := Prod.mk.inj (Except.ok.inj h)
      exact ⟨_, _, _, _, rfl⟩
    | true =>
      dsimp only at h
      split at h
      · split_ifs at h
        · obtain ⟨rfl, -⟩ := Prod.mk.inj (Except.ok.inj h)
          exact ⟨_, _, _, _, rfl⟩
        · cases h
      · obtain ⟨rfl, -⟩ := Prod.mk.inj (Except.ok.inj h)
        exact ⟨_, _, _, _, rfl⟩
  · rw [if_neg hlt] at h
    obtain ⟨rfl, -⟩ := Prod.mk.inj (Except.ok.inj h)
    exact ⟨_, _, _, _, rfl⟩

/-- A larger array is created. -/
theorem growArray_ne_false (hA : ∀ i, A.fails i = false) :
    growArray A t nasize ≠ .ok (t', false) := by
  have hinit : (arrayInit A t nasize).2 = true := by
    unfold arrayInit DlTable.alloc
    rw [hA]
    split_ifs <;> rfl
  intro h
  unfold growArray at h
  by_cases hlt : t.sizearray < nasize
  · rw [if_pos hlt] at h
    rcases hres : arrayInit A t nasize with ⟨t₁, b⟩
    rw [hres] at h hinit
    obtain rfl : b = true := hinit
    dsimp only at h
    split at h
    · split_ifs at h
      · cases h
      · cases h
    · cases h
  · rw [if_neg hlt] at h
    cases h

/-- New nodes are created unless there are too many. -/
theorem nodeInit_false (hA : ∀ i, A.fails i = false) (h : nodeInit A t nhsize = (t', false)) :
    t' = t ∧ ¬ (0 ≤ nhsize ∧ nhsize ≤ 2 ^ maxBits) := by
  unfold nodeInit DlTable.alloc at h
  rw [hA] at h
  by_cases hzero : nhsize = 0
  · rw [if_pos hzero] at h
    cases h
  rw [if_neg hzero] at h
  dsimp only at h
  by_cases hbits : maxBits < ceillog2 64 (nhsize % 2 ^ 64).toNat
  · rw [if_pos hbits] at h
    obtain ⟨rfl, -⟩ := Prod.mk.inj h
    refine ⟨rfl, fun ⟨hpos, hle⟩ ↦ ?_⟩
    have hcast := natCast_two_pow maxBits
    have hpow : (2 : Nat) ^ maxBits < 2 ^ 64 := by decide
    have hmod : nhsize % 2 ^ 64 = nhsize := Int.emod_eq_of_lt hpos (by omega)
    rw [hmod, ceillog2_eq_clog (by omega) (by omega)] at hbits
    have hlog := (Nat.clog_le_iff_le_pow (x := nhsize.toNat) (y := maxBits) Nat.one_lt_two).mpr
      (by omega)
    omega
  · rw [if_neg hbits] at h
    cases h

/-- A resize that fails leaves the entries as they are. -/
theorem resize_fails (hA : ∀ i, A.fails i = false) (h : Shape t E) (hbits : t.lsizenode ≤ maxBits)
    (hsizes : newSizes t ek = .ok (nasize, nhsize))
    (hrun : resize A put t nasize nhsize = .ok (t', false)) : Shape t' E ∧ Frame t t' := by
  unfold resize at hrun
  obtain ⟨⟨t₁, ok₁⟩, hgrow, hrun⟩ := Exec.bind_eq_ok.mp hrun
  cases ok₁ with
  | false => exact absurd hgrow (growArray_ne_false hA)
  | true =>
    dsimp only at hrun
    rcases hinit : nodeInit A t₁ nhsize with ⟨t₂, ok₂⟩
    rw [hinit] at hrun
    cases ok₂ with
    | true =>
      obtain ⟨t₃, -, hrest⟩ := Exec.bind_eq_ok.mp hrun
      obtain ⟨t₄, -, hret⟩ := Exec.bind_eq_ok.mp hrest
      cases hret
    | false =>
      obtain ⟨rfl, -⟩ := Prod.mk.inj (Except.ok.inj hrun)
      obtain ⟨ha₁, hentries, hf₁, hid₁, hsize₁⟩ := growArray_spec h.array h.id hgrow
      obtain ⟨rfl, hmany⟩ := nodeInit_false hA hinit
      obtain ⟨vs, i, z, c, hfields⟩ := growArray_fields hgrow
      obtain ⟨C, hC, rfl, hsep⟩ := h.nodes
      refine ⟨⟨ha₁, hid₁, C, ?_, by rw [hentries], fun e he k hk hin ↦ hmany ?_⟩, hf₁⟩
      · rw [hfields]
        cases hC with
        | dummy hn hl hf => exact .dummy hn hl hf
        | nodes hn hl =>
          exact .nodes hn ⟨hl.holds, hl.addrs, fun L hL ↦ (hl.chain L hL).congr rfl rfl, hl.used,
            hl.last, hl.low⟩
      · -- the key belongs to the larger array only
        have hout := hsep e he k hk
        have hlt := hin.1
        rw [hsize₁] at hlt
        have hge : t.sizearray ≤ k := by
          by_contra hlt'
          exact hout ⟨by omega, hin.2⟩
        cases hC with
        | dummy => cases he
        | nodes hn hl =>
          exact newSizes_le hbits hsizes (by omega) (hl.allNodes_eq hn ▸ he) hk hin.2 hge (by omega)

/-- `dl_newkey_l` leaves the entries as they are if it fails. -/
theorem newkeyWith_fails (hA : ∀ i, A.fails i = false) (hset : SetsWell put) (hfail : FailsWell put)
    (h : Shape t E) (hbits : t.lsizenode ≤ maxBits)
    (hrun : newkeyWith A put fuel t key = .ok (t', none)) :
    ∃ E', Shape t' E' ∧ Frame t t' ∧ Kept t.mem E E' := by
  obtain ⟨mp, hmain, -⟩ := Exec.bind_eq_ok.mp hrun
  obtain ⟨C, hC, rfl, hsep⟩ := h.nodes
  rcases newkeyWith_cases A put fuel hC hmain with ⟨t₁, l₁, -, hext, -, -⟩ | ⟨k, hC', -, hroom⟩
  · cases hext.eq_ok hrun
  · have h₀ : Shape { t with lastfree := k } (arrayEntries t + nodeEntries C) :=
      ⟨h.array, h.id, C, hC', rfl, hsep⟩
    have hf₀ : Frame t { t with lastfree := k } := .nodes t t.node k
    rw [hroom] at hrun
    obtain ⟨⟨t₁, ok⟩, hre, hrun⟩ := Exec.bind_eq_ok.mp hrun
    cases ok with
    | false =>
      obtain ⟨rfl, -⟩ := Prod.mk.inj (Except.ok.inj hrun)
      obtain ⟨⟨nasize, nhsize⟩, hsizes, hre⟩ := Exec.bind_eq_ok.mp hre
      obtain ⟨hshape, hf⟩ := resize_fails hA h₀ hbits hsizes hre
      exact ⟨_, hshape, hf₀.trans hf, .refl _⟩
    | true =>
      obtain ⟨E₁, h₁, hf₁, hk₁⟩ := rehash_spec hset h₀ hre
      obtain ⟨E₂, h₂, hf₂, hk₂⟩ := hfail h₁ (hf₁.bits hbits) hrun
      rw [hf₁.mem] at hk₂
      exact ⟨E₂, h₂, (hf₀.trans hf₁).trans hf₂, hk₁.trans hk₂⟩

/-- `dl_set_l` leaves the entries as they are if it fails. -/
theorem setL_fails (hA : ∀ i, A.fails i = false) (fuel depth : Nat) :
    FailsWell (setL A fuel depth) := by
  induction depth with
  | zero =>
    intro t E key t' h hbits hrun
    cases hrun
  | succ depth ih =>
    intro t E key t' h hbits hrun
    rw [setL] at hrun
    obtain ⟨o, hfind, hrun⟩ := Exec.bind_eq_ok.mp hrun
    cases o with
    | some l => cases hrun
    | none => exact newkeyWith_fails hA (setL_spec A fuel depth) ih h hbits hrun

/-- So does `dl_newkey_l`. -/
theorem newkey_fails (hA : ∀ i, A.fails i = false) (h : Shape t E) (hbits : t.lsizenode ≤ maxBits)
    (hrun : newkey A fuel depth t key = .ok (t', none)) :
    ∃ E', Shape t' E' ∧ Frame t t' ∧ Kept t.mem E E' :=
  newkeyWith_fails hA (setL_spec A fuel depth) (setL_fails hA fuel depth) h hbits hrun

end Dlbase.Table
