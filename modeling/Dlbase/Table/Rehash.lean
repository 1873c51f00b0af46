import Dlbase.Table.Refine
import Dlbase.Table.Room

/-!
# Whether a rehash makes room

The sizes that `dl_rehash` computes leave enough nodes under a condition on what it has counted.
Under this condition a write comes to an end; without it the table is filled up again by the
insertions of the rehash, which can go on for ever.
-/

namespace Dlbase.Table

open Cmem

/-- The sizes that `dl_rehash` computes for the key make room. -/
structure MakesRoom (t : DlTable) (ek : Key) (nasize nhsize : Int) : Prop where
  /-- There are nodes for the keys of the table and the new key, unless they belong to the array. -/
  nodes : outside t ek nasize.toNat ≤ roundUp nhsize.toNat
  /-- If the table is well formed, none of the insertions needs a further rehash. -/
  once : ∀ A E fuel, Good t E → 2 ^ maxBits ≤ fuel → makeRoom A (setL A fuel 1) t ek ≠ Exec.timeout

/-- The key; a string is at the address `p`. -/
def Content.key (p : Nat) : Content → Key
  | int n => .int n
  | str _ => .str p

variable {A : Malloc} {pre : DlTable → Call → Prop} {hist : List (Call × Status)} {t t' : DlTable}
  {E : Entries} {ek key : Key} {c : Content} {l : Loc} {fuel depth : Nat} {nasize nhsize : Int}

/-! ## Sizes -/

/-- The sizes make room if and only if what the count has missed does not exceed the nodes that
nothing needs. -/
theorem makesRoom_iff (h : newSizes t ek = .ok (nasize, nhsize)) :
    MakesRoom t ek nasize nhsize ↔ HasRoom t ek :=
  ⟨fun hroom ↦ (room_iff h).mp hroom.nodes, fun hroom ↦ ⟨(room_iff h).mpr hroom,
    fun _ _ _ hg hb ↦ (makeRoom_ends hg.shape hg.bits hb hroom).1⟩⟩

theorem newSizes_full : newSizes (full (-1)) (.int (-2)) = .ok (0, 2) := by decide +kernel

/-- If `-1` takes the only node, the sizes for `-2` have two nodes. -/
theorem hasRoom_full : HasRoom (full (-1)) (.int (-2)) := by
  have hout : outside (full (-1)) (.int (-2)) 0 = 2 := by decide +kernel
  have hround : roundUp 2 = 2 := by decide +kernel
  exact (room_iff newSizes_full).mp (hout.trans hround.symm).le

theorem makesRoom_full : (∃ hist, Run .reliable (fun _ _ ↦ True) (full (-1)) hist) ∧
    newSizes (full (-1)) (.int (-2)) = .ok (0, 2) ∧ MakesRoom (full (-1)) (.int (-2)) 0 2 :=
  ⟨⟨_, run_full _ trivial rfl⟩, newSizes_full, (makesRoom_iff newSizes_full).mpr hasRoom_full⟩

/-! ## Writes -/

/-- A table that calls lead to is well formed. -/
theorem Run.good (hA : ∀ i, A.fails i = false) (hrun : Run A pre t hist) : ∃ E, Good t E := by
  induction hrun with
  | new hm hnew => exact ⟨0, (tableNew_spec hm hnew).toGood⟩
  | @call t t' hist call st fuel depth _ _ hstep ih =>
    obtain ⟨E, h⟩ := ih
    cases call with
    | set c d =>
      obtain ⟨E', h', -⟩ := setter_spec hA h hstep
      exact ⟨E', h'⟩
    | del c =>
      obtain ⟨t₁, hdel, hret⟩ := Exec.bind_eq_ok.mp hstep
      obtain ⟨rfl, -⟩ := Prod.mk.inj (Except.ok.inj hret)
      obtain ⟨E', h', -⟩ := deleter_spec h hdel
      exact ⟨E', h'⟩

theorem samePointer_ends (t : DlTable) (o : Option Loc) (p : Int) :
    (samePointer t o p).Ends fun _ ↦ True := by
  cases o with
  | none => exact Exec.ends_ok trivial
  | some l => exact (readVal_ends t l).bind fun _ _ ↦ Exec.ends_ok trivial

theorem setStr_ends (A : Malloc) (t : DlTable) (l : Loc) (s : List UInt8) :
    (setStr A t l s).Ends fun _ ↦ True := by
  have hwrite : ∀ (t : DlTable) (x : Value) (st : Status),
      (writeVal t l x >>= fun t ↦ pure (t, st)).Ends fun _ ↦ True := fun t x st ↦
    (Exec.ends_of_ne_timeout (writeVal_ne_timeout t l x)).bind fun _ _ ↦ Exec.ends_ok trivial
  unfold setStr
  refine (readVal_ends t l).bind fun old _ ↦ ?_
  rcases t.alloc A with ⟨t₁, ok⟩
  cases ok with
  | false => exact hwrite _ _ _
  | true =>
    refine (Exec.ends_of_ne_timeout (writeVal_ne_timeout _ l _)).bind fun t₂ _ ↦ ?_
    rcases t₂.alloc A with ⟨t₃, ok⟩
    cases ok with
    | false => exact Exec.ends_ok trivial
    | true => exact hwrite _ _ _

theorem putDatum_ends (A : Malloc) (t : DlTable) (l : Loc) (d : Datum) :
    (putDatum A t l d).Ends fun _ ↦ True := by
  have hwrite : ∀ x : Value, (writeVal t l x >>= fun t ↦ pure (t, Status.ok)).Ends fun _ ↦ True :=
    fun x ↦ (Exec.ends_of_ne_timeout (writeVal_ne_timeout t l x)).bind fun _ _ ↦
      Exec.ends_ok trivial
  cases d with
  | int n => exact hwrite _
  | str s => exact setStr_ends A t l s
  | void p => exact hwrite _

/-- A key that is not in the table is inserted. -/
theorem newkey_ends (h : Shape t E) (hbits : t.lsizenode ≤ maxBits) (hb : 2 ^ maxBits ≤ fuel)
    (hk : key.content t.mem = some c) (habsent : ¬ Present t c)
    (hroom : Crowded t c → HasRoom t key) :
    (newkey A fuel (depth + 1) t key).Ends fun _ ↦ True := by
  obtain ⟨C, hC, rfl, hsep⟩ := h.nodes
  have hnum : t.sizenode ≤ fuel := (Nat.pow_le_pow_right (by decide) hbits).trans hb
  rcases newkeyWith_cases A (setL A fuel (depth + 1)) fuel hC (mainPos_eq hk) with
    ⟨t₁, l, -, -, hrun, -⟩ | ⟨k, hC', hcard, hrun⟩
  · rw [newkey, hrun hnum]
    exact Exec.ends_ok trivial
  · have hfull : Crowded t c := ⟨habsent, fun i x hi hx ↦ hC.inUse hcard hi hx⟩
    rw [newkey, hrun]
    exact makeRoom_ends (t := { t with lastfree := k }) ⟨h.array, h.id, C, hC', rfl, hsep⟩ hbits hb
      (hroom hfull)

/-- Every write comes to an end, if there is room when it needs a rehash. -/
theorem setter_terminates (hA : ∀ i, A.fails i = false) (hrun : Run A pre t hist) (c : Content)
    (d : Datum) (hroom : Crowded t c → ∀ p, HasRoom t (c.key p)) :
    ∃ N, ∀ fuel depth, N ≤ fuel → N ≤ depth → setter A fuel depth t c d ≠ Exec.timeout := by
  obtain ⟨E, h⟩ := hrun.good hA
  refine ⟨2 ^ maxBits, fun fuel depth hfuel hdepth ↦ ?_⟩
  obtain ⟨depth, rfl⟩ : ∃ k, depth = k + 1 :=
    Nat.exists_eq_add_of_le' ((Nat.two_pow_pos maxBits).trans_le hdepth)
  have hnum : t.sizenode ≤ fuel := (Nat.pow_le_pow_right (by decide) h.bits).trans hfuel
  rw [setter_eq]
  suffices hends : Exec.Ends _ fun _ ↦ True from hends.1
  refine (Exec.ends_of_ne_timeout (h.shape.find_ne_timeout c hnum)).bind fun o hfind ↦ ?_
  have hsame : (unchanged t o d).Ends fun _ ↦ True := by
    cases d with
    | void p => exact samePointer_ends t o p
    | int n => exact Exec.ends_ok trivial
    | str s => exact Exec.ends_ok trivial
  refine hsame.bind fun b _ ↦ ?_
  cases b with
  | true => exact Exec.ends_ok trivial
  | false =>
    have hslot : (slotFor A fuel (depth + 1) t c o).Ends fun _ ↦ True := by
      cases o with
      | some l =>
        have hfree : Exec.Ends (do
            let old ← readVal t l
            let t ← release t old
            pure (t, some l) : Exec Insertion) fun _ ↦ True :=
          (readVal_ends t l).bind fun old _ ↦ (release_ends t old).bind fun _ _ ↦
            Exec.ends_ok trivial
        cases c <;> exact hfree
      | none =>
        obtain ⟨key, m, hk, hslot⟩ := slotFor_absent (fun i _ ↦ hA _) h hfind (depth + 1)
        obtain ⟨p, rfl⟩ : ∃ p, key = c.key p := by
          cases c with
          | int i => exact ⟨0, content_int hk.content⟩
          | str s =>
            obtain ⟨p, hp, -⟩ := exists_of_content_str hk.content
            exact ⟨p, hp⟩
        rw [hslot]
        exact newkey_ends hk.shape h.bits hfuel hk.content hk.absent fun hfull ↦
          hroom (hk.crowded hfull) p
    refine hslot.bind fun ⟨t₁, o⟩ _ ↦ ?_
    cases o with
    | none => exact Exec.ends_ok trivial
    | some l => exact putDatum_ends A t₁ l d

/-- The node is taken by `-1`, and the rehash for `-2` comes to an end. -/
theorem setter_terminates_full : (∃ hist, Run .reliable (fun _ _ ↦ True) (full (-1)) hist) ∧
    Crowded (full (-1)) (.int (-2)) ∧ HasRoom (full (-1)) (.int (-2)) ∧
      ∃ N, ∀ fuel depth, N ≤ fuel → N ≤ depth →
        setter .reliable fuel depth (full (-1)) (.int (-2)) (.int 8) ≠ Exec.timeout := by
  have hrun : Run .reliable (fun _ _ ↦ True) (full (-1)) [(.set (.int (-1)) (.int 7), .ok)] :=
    run_full _ trivial rfl
  have hends := setter_terminates (fun _ ↦ rfl) hrun (.int (-2)) (.int 8) fun _ _ ↦ hasRoom_full
  exact ⟨⟨_, hrun⟩, crowded_full (by decide), hasRoom_full, hends⟩

/-! ## A table that is filled up again -/

/-- The table after `1` has been set to `7`, and after some rehashes. -/
def filled (size : Int) (vs : Option (List Value)) (id n : Nat) (last : Option Int) : DlTable :=
  { oneNode with
    allocs := n, sizearray := size, array := vs, arrayId := id, node := .nodes (oneKey 1)
    lastfree := last }

theorem full_one : full 1 = filled 0 none 0 1 (some 1) := rfl

theorem hashnum_one (h : t.lsizenode = 0) (k : Int) : hashnum t k = 0 := by
  unfold hashnum DlTable.sizenode
  rw [h, pow_zero, Nat.mod_one, ite_self]

section Filled

variable {size : Int} {vs vs' : Option (List Value)} {id id' n n' : Nat} {last : Option Int}
  {put : DlTable → Key → Exec Insertion}

theorem loadNode_filled : loadNode (filled size vs id n last) 0 = .ok ⟨⟨7, .int⟩, .int 1, none⟩ := rfl

theorem findByIndex_filled (fuel : Nat) :
    findByIndex (fuel + 1) (filled size vs id n last) (-1) = .ok none := by
  rw [findByIndex, if_neg fun h ↦ absurd h.2 (by decide), hashnum_one rfl, search, loadNode_filled]
  rfl

/-- There is no free node. -/
theorem newkeyWith_filled (fuel : Nat) :
    newkeyWith A put fuel (filled size vs id n (some 1)) (.int (-1)) =
      makeRoom A put (filled size vs id n (some (-1))) (.int (-1)) := by
  have hloop : getfreeposLoop (filled size vs id n (some 1)) 1 = .ok (-1, none) := rfl
  rw [newkeyWith, mainPos, hashnum_one rfl, Exec.ok_bind, loadNode_filled, Exec.ok_bind,
    if_pos (.inl (by rintro ⟨⟩)), getfreepos]
  change ((getfreeposLoop _ 1 >>= _) >>= _) = _
  rw [hloop]
  rfl

/-- The integer `1` is put in the new node. -/
theorem reinsertLoop_filled (A : Malloc) (fuel depth : Nat) (hn : t.node = .nodes (freeNodes 1))
    (hl : t.lsizenode = 0) (hsize : t.sizearray ≤ 1) :
    reinsertLoop (setL A (fuel + 1) (depth + 1)) (.nodes (oneKey 1)) 1 t =
      .ok { t with node := .nodes (oneKey 1) } := by
  have hload : loadNode t 0 = .ok ⟨⟨0, .nil⟩, .nil, none⟩ := by
    rw [loadNode, hn]
    rfl
  have hfind : findL (fuel + 1) t (.int 1) = .ok none := by
    rw [findL, findByIndex, if_neg (by omega), hashnum_one hl, search, hload]
    rfl
  have hnot : ¬ ((⟨⟨0, .nil⟩, .nil, none⟩ : Node).val.tt ≠ .nil ∨ t.node.isDummy) := by
    rw [hn]
    rintro (h | h)
    · exact h rfl
    · cases h
  have hset : setL A (fuel + 1) (depth + 1) t (.int 1) = .ok ({ t with
      node := .nodes ((freeNodes 1).set 0 ⟨⟨0, .nil⟩, .int 1, none⟩) }, some (.node 0)) := by
    rw [setL, hfind, Exec.ok_bind]
    dsimp only
    rw [newkeyWith, mainPos, hashnum_one hl, Exec.ok_bind, hload, Exec.ok_bind, if_neg hnot, placeKey,
      hload, Exec.ok_bind, storeNode, hn]
    rfl
  rw [reinsertLoop]
  change (setL _ _ _ _ (.int 1) >>= _) = _
  rw [hset]
  rfl

/-- A rehash that leaves one node leads to the same situation. -/
theorem makeRoom_filled {fuel depth : Nat} (hsize : size ≤ 1)
    (hsizes : newSizes (filled size vs id n (some (-1))) (.int (-1)) = .ok (1, 1))
    (hgrow : growArray .reliable (filled size vs id n (some (-1))) 1 =
      .ok (filled 1 vs' id' n' (some (-1)), true))
    (hrest : ∀ n, setL .reliable (fuel + 1) depth (filled 1 vs' id' n (some 1)) (.int (-1)) =
      Exec.timeout) :
    makeRoom .reliable (setL .reliable (fuel + 1) depth) (filled size vs id n (some (-1)))
      (.int (-1)) = Exec.timeout := by
  have hinit := nodeInit_eq (A := .reliable) (t := filled 1 vs' id' n' (some (-1))) (fun _ ↦ rfl)
    Nat.one_pos Nat.one_le_two_pow
  rw [Nat.cast_one, Nat.clog_one_right] at hinit
  have hresize : ∀ put, resize .reliable put (filled size vs id n (some (-1))) 1 1 =
      reinsertLoop put (.nodes (oneKey 1)) 1
        { filled 1 vs' id' (n' + 1) (some 1) with node := .nodes (freeNodes 1) } >>=
          fun t ↦ pure (t, true) := fun put ↦ by
    rw [resize, hgrow, Exec.ok_bind]
    dsimp only
    rw [hinit]
    dsimp only
    have hnot : ¬ (1 : Int) < (filled size vs id n (some (-1))).sizearray := not_lt.mpr hsize
    rw [shrinkArray, if_neg hnot]
    rfl
  rw [makeRoom, rehash, hsizes, Exec.ok_bind]
  dsimp only
  rw [hresize]
  cases depth with
  | zero => rfl
  | succ depth =>
    have hloop : reinsertLoop (setL .reliable (fuel + 1) (depth + 1)) (.nodes (oneKey 1)) 1
        { filled 1 vs' id' (n' + 1) (some 1) with node := .nodes (freeNodes 1) } =
          .ok (filled 1 vs' id' (n' + 1) (some 1)) :=
      reinsertLoop_filled .reliable fuel depth rfl rfl le_rfl
    rw [hloop, Exec.ok_bind, Exec.pure_eq_ok, Exec.ok_bind]
    dsimp only
    rw [if_pos rfl, hrest]

theorem newSizes_filled_array (n : Nat) (last : Option Int) :
    newSizes (filled 1 (some [⟨0, .nil⟩]) 2 n last) (.int (-1)) = .ok (1, 1) := by
  have hsizes : newSizes (filled 1 (some [⟨0, .nil⟩]) 2 0 none) (.int (-1)) = .ok (1, 1) := by
    decide +kernel
  rw [← hsizes]
  apply newSizes_congr <;> rfl

theorem newSizes_filled (last : Option Int) :
    newSizes (filled 0 none 0 1 last) (.int (-1)) = .ok (1, 1) := by
  have hsizes : newSizes (filled 0 none 0 1 none) (.int (-1)) = .ok (1, 1) := by decide +kernel
  rw [← hsizes]
  apply newSizes_congr <;> rfl

theorem setL_filled (fuel depth n : Nat) : setL .reliable (fuel + 1) depth
    (filled 1 (some [⟨0, .nil⟩]) 2 n (some 1)) (.int (-1)) = Exec.timeout := by
  induction depth generalizing n with
  | zero => rfl
  | succ depth ih =>
    have hgrow : growArray .reliable (filled 1 (some [⟨0, .nil⟩]) 2 n (some (-1))) 1 =
        .ok (filled 1 (some [⟨0, .nil⟩]) 2 n (some (-1)), true) := rfl
    rw [setL, findL, findByIndex_filled, Exec.ok_bind]
    dsimp only
    rw [newkeyWith_filled]
    exact makeRoom_filled le_rfl (newSizes_filled_array n _) hgrow ih

end Filled

/-- The sizes do not make room for `-1`, as the key `1` is counted for the array, where it is not. -/
theorem not_makesRoom : ∃ t hist, Run .reliable (fun _ _ ↦ True) t hist ∧
    Crowded t (.int (-1)) ∧ ∃ nasize nhsize, newSizes t (.int (-1)) = .ok (nasize, nhsize) ∧
      ¬ MakesRoom t (.int (-1)) nasize nhsize := by
  refine ⟨full 1, _, run_full _ trivial rfl, crowded_full (by decide), 1, 1, newSizes_filled _,
    fun h ↦ ?_⟩
  have hout : outside (filled 0 none 0 1 (some 1)) (.int (-1)) 1 = 2 := rfl
  have hround : roundUp 1 = 1 := by decide +kernel
  have hle : outside (filled 0 none 0 1 (some 1)) (.int (-1)) 1 ≤ roundUp 1 := h.nodes
  omega

/-- After `1` has been set, `-1` cannot be set: each rehash leads to another one. -/
theorem setter_diverges : ∃ t hist, Run .reliable (fun _ _ ↦ True) t hist ∧
    (storedKeys t).card < 2 ^ maxBits ∧
      ∀ fuel depth, setter .reliable fuel depth t (.int (-1)) (.int 7) = Exec.timeout := by
  refine ⟨full 1, _, run_full _ trivial rfl, by decide +kernel, fun fuel depth ↦ ?_⟩
  cases fuel with
  | zero =>
    rw [setter, arraySetInt, findByIndex, if_neg fun h ↦ absurd h.2 (by decide)]
    rfl
  | succ fuel =>
    have hgrow : growArray .reliable (filled 0 none 0 1 (some (-1))) 1 =
        .ok (filled 1 (some [⟨0, .nil⟩]) 2 2 (some (-1)), true) := rfl
    rw [full_one, setter, arraySetInt, findByIndex_filled, Exec.ok_bind, arraySet, newkey, newkeyWith_filled,
      makeRoom_filled (by decide) (newSizes_filled _) hgrow (setL_filled fuel depth)]
    rfl

end Dlbase.Table
