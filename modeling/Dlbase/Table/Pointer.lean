import Dlbase.Table.Rehash

/-!
# Storing a pointer

The setters for pointers leave a value alone whose bits are those of the pointer, whatever its tag
is.  In all other cases the key is found with the pointer afterwards: where it has been found
before, or where it has been put, even if there has been a rehash.
-/

namespace Dlbase.Table

open Cmem

/-- The key is found with the pointer as its value. -/
def FindsPointer (t : DlTable) (c : Content) (p : Int) : Prop :=
  ∃ l, Returns (fun fuel ↦ find fuel t c) (some l) ∧ readVal t l = .ok ⟨p, .void⟩

variable {A : Malloc} {put : DlTable → Key → Exec Insertion} {t t' : DlTable} {E : Entries}
  {P : Nat → Prop} {key : Key} {v x : Value} {y z : Node} {c : Content} {l : Loc} {m : Mem}
  {o : Option Loc} {i j n fuel depth : Nat} {hist : List (Call × Status)} {p : Int}

/-! ## Searches that go alike -/

/-- The loops do the same in two tables whose nodes have the same links and pass the same tests. -/
theorem search_alike {same same' : Node → Exec Bool}
    (hnext : ∀ i x j, P i → loadNode t i = .ok x → x.next = some j → P j)
    (hnode : ∀ i x, P i → loadNode t i = .ok x → ∃ y, loadNode t' i = .ok y ∧ y.next = x.next ∧
      ∀ b, same x = .ok b → same' y = .ok b)
    (hi : P i) (h : search t same fuel i = .ok o) : search t' same' fuel i = .ok o := by
  induction fuel generalizing i with
  | zero => cases h
  | succ fuel ih =>
    obtain ⟨x, hx, h⟩ := Exec.bind_eq_ok.mp h
    obtain ⟨b, hb, h⟩ := Exec.bind_eq_ok.mp h
    obtain ⟨y, hy, hyx, hsame⟩ := hnode i x hi hx
    rw [search, hy, Exec.ok_bind, hsame b hb, Exec.ok_bind]
    cases b with
    | true => exact h
    | false =>
      rw [hyx]
      cases hn : x.next with
      | none =>
        rw [hn] at h
        exact h
      | some j =>
        rw [hn] at h
        exact ih (hnext i x j hi hx hn) h

/-- A key is found in the same place of two tables of the same sizes, if they differ in values only
and their strings pass the same tests. -/
theorem find_alike (hsize : t'.sizearray = t.sizearray) (hl : t'.lsizenode = t.lsizenode)
    (hnext : ∀ i x j, P i → loadNode t i = .ok x → x.next = some j → P j)
    (hnode : ∀ i x, P i → loadNode t i = .ok x → ∃ v, loadNode t' i = .ok { x with val := v } ∧
      ∀ b, c.test t.mem x.key = .ok b → c.test t'.mem x.key = .ok b)
    (hpos : P (c.pos t)) (h : find fuel t c = .ok o) : find fuel t' c = .ok o := by
  by_cases hin : ∃ k, c = .int k ∧ InArray t k
  · obtain ⟨k, rfl, hin⟩ := hin
    have hin' : InArray t' k := by
      unfold InArray
      rwa [hsize]
    have hfind : find fuel t (.int k) = _ := if_pos hin
    have hfind' : find fuel t' (.int k) = _ := if_pos hin'
    rw [hfind', ← h, hfind]
  · have hout : ∀ k, c = .int k → ¬ InArray t k := fun k hk hk' ↦ hin ⟨k, hk, hk'⟩
    have hout' : ∀ k, c = .int k → ¬ InArray t' k := fun k hk hk' ↦ by
      unfold InArray at hk'
      rw [hsize] at hk'
      exact hout k hk hk'
    obtain ⟨same, hfind, hs⟩ := find_eq fuel hout
    obtain ⟨same', hfind', hs'⟩ := find_eq fuel hout'
    rw [hfind] at h
    rw [hfind', c.pos_congr hl]
    refine search_alike hnext (fun i x hi hx ↦ ?_) hpos h
    obtain ⟨v, hv, htest⟩ := hnode i x hi hx
    refine ⟨_, hv, rfl, fun b hb ↦ ?_⟩
    rw [hs] at hb
    rw [hs']
    exact htest b hb

/-! ## Writing a value -/

theorem storeNode_load (h : storeNode t i y = .ok t') (j : Nat) :
    loadNode t' j = if j = i then .ok y else loadNode t j := by
  unfold storeNode at h
  split at h
  · rename_i o hn
    obtain ⟨o', ho, h⟩ := Exec.bind_eq_ok.mp h
    obtain rfl := Except.ok.inj h
    unfold Objects.put at ho
    by_cases hnone : o i = none
    · rw [if_pos hnone] at ho
      cases ho
    rw [if_neg hnone] at ho
    obtain rfl := Except.ok.inj ho
    change (o.set i y).get j = _
    rw [loadNode, hn]
    unfold Objects.get Objects.set
    by_cases hj : j = i
    · rw [if_pos hj, hj, Function.update_self]
    · rw [if_neg hj, Function.update_of_ne hj]
      rfl
  · cases h

/-- What has been written is read. -/
theorem writeVal_read (h : writeVal t l x = .ok t') : readVal t' l = .ok x := by
  cases l with
  | array i =>
    unfold writeVal at h
    dsimp only at h
    split at h
    · rename_i vs hvs
      split_ifs at h with hi
      · obtain rfl := Except.ok.inj h
        exact loadArray_eq (t := { t with array := some (vs.set i x) }) rfl
          (List.getElem?_set_self hi)
      · cases h
    · cases h
  | node i =>
    obtain ⟨n, hn, h⟩ := Exec.bind_eq_ok.mp h
    rw [readVal, storeNode_load h, if_pos rfl]
    rfl

/-- Nothing else in the nodes has changed. -/
theorem writeVal_load (h : writeVal t l x = .ok t') (hj : loadNode t j = .ok y) :
    ∃ v, loadNode t' j = .ok { y with val := v } := by
  cases l with
  | array i =>
    unfold writeVal at h
    dsimp only at h
    split at h
    · split_ifs at h
      · obtain rfl := Except.ok.inj h
        exact ⟨y.val, hj⟩
      · cases h
    · cases h
  | node i =>
    obtain ⟨n, hn, h⟩ := Exec.bind_eq_ok.mp h
    rw [storeNode_load h]
    by_cases hji : j = i
    · subst hji
      obtain rfl := Except.ok.inj (hn.symm.trans hj)
      exact ⟨x, if_pos rfl⟩
    · exact ⟨y.val, (if_neg hji).trans hj⟩

/-- Keys are found where they have been before a value is written. -/
theorem find_writeVal (h : writeVal t l x = .ok t') (hf : find fuel t c = .ok o) :
    find fuel t' c = .ok o := by
  obtain ⟨q, vs, ht⟩ := writeVal_fields h
  refine find_alike (P := fun _ ↦ True) (by rw [ht]) (by rw [ht]) (fun _ _ _ _ _ _ ↦ trivial)
    (fun i x _ hx ↦ ?_) trivial hf
  obtain ⟨v, hv⟩ := writeVal_load h hx
  refine ⟨v, hv, fun b hb ↦ ?_⟩
  rw [ht]
  exact hb

/-! ## Other strings -/

/-- Links lead to nodes. -/
theorem Shape.next_lt (h : Shape t E) (hi : i < t.sizenode) (hx : loadNode t i = .ok y)
    (hj : y.next = some j) : j < t.sizenode := by
  obtain ⟨C, hC, -, -⟩ := h.nodes
  cases hC with
  | dummy hn =>
    rw [loadNode_dummy hn] at hx
    split_ifs at hx
    · obtain rfl := Except.ok.inj hx
      cases hj
    · cases hx
  | nodes hn hl =>
    rcases hl.cases hi with ⟨w, F', rfl⟩ | ⟨L₁, k, L₂, C', rfl, rfl⟩
    · obtain rfl := Except.ok.inj ((loadNode_eq hn hl.holds_free).symm.trans hx)
      cases hj
    · obtain rfl := Except.ok.inj ((hl.load hn).symm.trans hx)
      cases L₂ with
      | nil => cases hj
      | cons k' L₂ =>
        obtain rfl : k'.addr = j := Option.some.inj hj
        rw [List.append_cons] at hl
        exact hl.addr_lt

/-- Keys are found where they have been if the strings of all keys that the loops can meet are
there. -/
theorem find_strings (hnext : ∀ i x j, P i → loadNode t i = .ok x → x.next = some j → P j)
    (hm : ∀ i x e, P i → loadNode t i = .ok x → x.key.content t.mem = some e →
      x.key.content m = some e)
    (hpos : P (c.pos t)) (w : List Int) (a : Nat) (hf : find fuel t c = .ok o) :
    find fuel { t with mem := m, voids := w, allocs := a } c = .ok o := by
  refine find_alike (t := t) (P := P) rfl rfl hnext
    (fun i x hi hx ↦ ⟨x.val, hx, fun b hb ↦ ?_⟩) hpos hf
  cases c with
  | int k => exact hb
  | str s =>
    cases hkey : x.key with
    | str q =>
      rw [hkey] at hb
      obtain ⟨u, hu, hb⟩ := Exec.bind_eq_ok.mp hb
      have hc : x.key.content t.mem = some (.str u) := by
        rw [hkey]
        exact content_str hu
      have hc' := hm i x _ hi hx hc
      rw [hkey] at hc'
      obtain ⟨q', hq, hu'⟩ := exists_of_content_str hc'
      obtain rfl := Key.str.inj hq
      change testStr m s (.str q) = _
      rw [testStr, hu']
      exact hb
    | int k =>
      rw [hkey] at hb
      exact hb
    | null =>
      rw [hkey] at hb
      exact hb
    | nil =>
      rw [hkey] at hb
      exact hb

/-- Keys are found where they have been as long as the strings of the entries are there. -/
theorem Shape.find_over (h : Shape t E) (hm : ∀ e ∈ E, e.1.content m = e.1.content t.mem)
    (w : List Int) (a : Nat) (hf : find fuel t c = .ok o) :
    find fuel { t with mem := m, voids := w, allocs := a } c = .ok o :=
  find_strings (P := fun i ↦ i < t.sizenode) (fun _ _ _ hi hx hj ↦ h.next_lt hi hx hj)
    (fun _ _ _ hi hx hc ↦ (hm _ (h.mem_of_load hi hx hc)).trans hc) (c.pos_lt t) w a hf

/-! ## Inserting a key -/

/-- A key is found in the node of its main position. -/
theorem find_first (hout : ∀ k, c = .int k → ¬ InArray t k) (hy : loadNode t (c.pos t) = .ok y)
    (hkey : y.key.content t.mem = some c) :
    ∃ fuel, find fuel t c = .ok (some (.node (c.pos t))) := by
  obtain ⟨same, hfind, hs⟩ := find_eq 1 hout
  refine ⟨1, ?_⟩
  rw [hfind, search, hy, Exec.ok_bind, hs, Content.test_self hkey]
  rfl

/-- A key is found in the next node. -/
theorem find_second (hout : ∀ k, c = .int k → ¬ InArray t k) (hy : loadNode t (c.pos t) = .ok y)
    (hfalse : c.test t.mem y.key = .ok false) (hnext : y.next = some j) (hz : loadNode t j = .ok z)
    (hkey : z.key.content t.mem = some c) : ∃ fuel, find fuel t c = .ok (some (.node j)) := by
  obtain ⟨same, hfind, hs⟩ := find_eq 2 hout
  refine ⟨2, ?_⟩
  rw [hfind, search, hy, Exec.ok_bind, hs, hfalse, Exec.ok_bind, hnext]
  change search t same 1 j = _
  rw [search, hz, Exec.ok_bind, hs, Content.test_self hkey]
  rfl

/-- A key that is not found is not in the node of its main position. -/
theorem test_of_find_none (hout : ∀ k, c = .int k → ¬ InArray t k)
    (hfind : find fuel t c = .ok none) (hy : loadNode t (c.pos t) = .ok y) :
    c.test t.mem y.key = .ok false := by
  obtain ⟨same, heq, hs⟩ := find_eq fuel hout
  rw [heq] at hfind
  cases fuel with
  | zero => cases hfind
  | succ fuel =>
    rw [search, hy, Exec.ok_bind, hs] at hfind
    obtain ⟨b, hb, hfind⟩ := Exec.bind_eq_ok.mp hfind
    cases b with
    | true => cases hfind
    | false => exact hb

/-- What the placing of a key leaves. -/
theorem placeKey_eq_ok (hrun : placeKey t i key = .ok (t', o)) : o = some (.node i) ∧
    ∃ y q, loadNode t i = .ok y ∧ t' = { t with node := q } ∧
      ∀ j, loadNode t' j = if j = i then .ok { y with key } else loadNode t j := by
  obtain ⟨y, hy, hrun⟩ := Exec.bind_eq_ok.mp hrun
  obtain ⟨t₁, hstore, hrun⟩ := Exec.bind_eq_ok.mp hrun
  obtain ⟨rfl, rfl⟩ := Prod.mk.inj (Except.ok.inj hrun)
  obtain ⟨q, rfl⟩ := storeNode_fields hstore
  exact ⟨rfl, y, q, hy, rfl, storeNode_load hstore⟩

/-- A key that has been put in its main position is found there. -/
theorem placeKey_finds (hk : key.content t.mem = some c) (hout : ∀ k, c = .int k → ¬ InArray t k)
    (hrun : placeKey t (c.pos t) key = .ok (t', some l)) :
    ∃ fuel, find fuel t' c = .ok (some l) := by
  obtain ⟨hl, y, q, -, rfl, hload⟩ := placeKey_eq_ok hrun
  obtain rfl := Option.some.inj hl
  have hpos : c.pos { t with node := q } = c.pos t := c.pos_congr rfl
  rw [← hpos]
  exact find_first hout ((hload _).trans (if_pos hpos)) hk

/-- A key that has been put in a free node is found there, or in its main position. -/
theorem insertFree_finds (hk : key.content t.mem = some c) (hout : ∀ k, c = .int k → ¬ InArray t k)
    (hfalse : ∀ y, loadNode t (c.pos t) = .ok y → c.test t.mem y.key = .ok false)
    (hrun : insertFree fuel t (c.pos t) n key = .ok (t', some l)) :
    ∃ fuel, find fuel t' c = .ok (some l) := by
  obtain ⟨y, hy, hrun⟩ := Exec.bind_eq_ok.mp hrun
  obtain ⟨othern, -, hrun⟩ := Exec.bind_eq_ok.mp hrun
  split_ifs at hrun
  · -- the key gets its main position
    obtain ⟨prev, -, hrun⟩ := Exec.bind_eq_ok.mp hrun
    obtain ⟨y₁, -, hrun⟩ := Exec.bind_eq_ok.mp hrun
    obtain ⟨t₁, h₁, hrun⟩ := Exec.bind_eq_ok.mp hrun
    obtain ⟨y₂, -, hrun⟩ := Exec.bind_eq_ok.mp hrun
    obtain ⟨t₂, h₂, hrun⟩ := Exec.bind_eq_ok.mp hrun
    obtain ⟨t₃, h₃, hrun⟩ := Exec.bind_eq_ok.mp hrun
    obtain ⟨q₁, rfl⟩ := storeNode_fields h₁
    obtain ⟨q₂, rfl⟩ := storeNode_fields h₂
    obtain ⟨q₃, rfl⟩ := storeNode_fields h₃
    have hpos : c.pos { t with node := q₃ } = c.pos t := c.pos_congr rfl
    refine placeKey_finds (t := { t with node := q₃ }) hk hout ?_
    rw [hpos]
    exact hrun
  · -- the key gets the free node
    obtain ⟨y₁, -, hrun⟩ := Exec.bind_eq_ok.mp hrun
    obtain ⟨t₁, h₁, hrun⟩ := Exec.bind_eq_ok.mp hrun
    obtain ⟨t₂, h₂, hrun⟩ := Exec.bind_eq_ok.mp hrun
    obtain ⟨q₁, rfl⟩ := storeNode_fields h₁
    obtain ⟨q₂, rfl⟩ := storeNode_fields h₂
    have hpos : c.pos { t with node := q₂ } = c.pos t := c.pos_congr rfl
    by_cases hn : n = c.pos t
    · refine placeKey_finds (t := { t with node := q₂ }) hk hout ?_
      rw [hpos, ← hn]
      exact hrun
    · obtain ⟨hl, z, q, -, rfl, hload⟩ := placeKey_eq_ok hrun
      obtain rfl := Option.some.inj hl
      have hpos' : c.pos { t with node := q } = c.pos t := c.pos_congr rfl
      refine find_second hout (y := { y with next := some n }) (z := { z with key }) ?_
        (hfalse y hy) rfl ((hload n).trans (if_pos rfl)) hk
      rw [hpos']
      exact (hload _).trans ((if_neg (Ne.symm hn)).trans ((storeNode_load h₂ _).trans (if_pos rfl)))

/-- There is a free node if there are fewer entries than nodes. -/
theorem getfreepos_some {C : Multiset (List Item)} (hC : Chains t C)
    (hcard : (nodeEntries C).card < capacity t) :
    ∃ k n, getfreepos t = .ok ({ t with lastfree := k }, some n) := by
  cases hC with
  | dummy hn =>
    rw [capacity_dummy hn] at hcard
    exact absurd hcard (Nat.not_lt_zero _)
  | nodes hn hl =>
    rcases getfreepos_spec hn hl with ⟨rfl, -⟩ | ⟨f, w, F', -, hrun, -⟩
    · have hnum := hl.card_eq
      rw [capacity_nodes hn] at hcard
      rw [Multiset.card_zero, Nat.add_zero] at hnum
      omega
    · exact ⟨_, f, hrun⟩

/-- A key that has not been found is found where it has been put. -/
theorem newkeyWith_finds (hset : SetsWell put)
    (hput : ∀ {t E t' l}, Shape t E → key.content t.mem = some c → put t key = .ok (t', some l) →
      ∃ fuel, find fuel t' c = .ok (some l))
    (h : Shape t E) (hk : key.content t.mem = some c) (hfind : find fuel t c = .ok none)
    (hrun : newkeyWith A put n t key = .ok (t', some l)) :
    ∃ fuel, find fuel t' c = .ok (some l) := by
  have hout : ∀ k, c = .int k → ¬ InArray t k := (h.not_found hfind).1
  obtain ⟨C, hC, rfl, hsep⟩ := h.nodes
  rcases newkeyWith_cases A put n hC (mainPos_eq hk) with
    ⟨-, -, -, -, -, hcard⟩ | ⟨k, hC', -, hroom⟩
  · -- there is a free node
    rw [newkeyWith, mainPos_eq hk, Exec.ok_bind] at hrun
    obtain ⟨y, hy, hrun⟩ := Exec.bind_eq_ok.mp hrun
    split_ifs at hrun
    · obtain ⟨k, f, hfree⟩ := getfreepos_some hC hcard
      rw [hfree, Exec.ok_bind] at hrun
      have hpos : c.pos { t with lastfree := k } = c.pos t := c.pos_congr rfl
      rw [← hpos] at hrun
      refine insertFree_finds (t := { t with lastfree := k }) hk hout (fun z hz ↦ ?_) hrun
      rw [hpos] at hz
      exact test_of_find_none (t := t) hout hfind hz
    · exact placeKey_finds hk hout hrun
  · -- there is a rehash
    rw [hroom] at hrun
    obtain ⟨⟨t₁, ok⟩, hre, hrun⟩ := Exec.bind_eq_ok.mp hrun
    cases ok with
    | false => cases hrun
    | true =>
      have h' : Shape { t with lastfree := k } (arrayEntries t + nodeEntries C) :=
        ⟨h.array, h.id, C, hC', rfl, hsep⟩
      obtain ⟨E', hshape, hf, -⟩ := rehash_spec hset h' hre
      refine hput hshape ?_ hrun
      rw [hf.mem]
      exact hk

/-- A key is found where `dl_set_l` has found it or put it. -/
theorem setL_finds (h : Shape t E) (hk : key.content t.mem = some c)
    (hrun : setL A fuel depth t key = .ok (t', some l)) :
    ∃ fuel, find fuel t' c = .ok (some l) := by
  induction depth generalizing t E t' l with
  | zero => cases hrun
  | succ depth ih =>
    obtain ⟨o, ho, hrun⟩ := Exec.bind_eq_ok.mp hrun
    rw [findL_eq hk] at ho
    cases o with
    | some l' =>
      obtain ⟨rfl, hl⟩ := Prod.mk.inj (Except.ok.inj hrun)
      obtain rfl := Option.some.inj hl
      exact ⟨fuel, ho⟩
    | none => exact newkeyWith_finds (setL_spec A fuel depth) ih h hk ho hrun

/-! ## Setters -/

/-- A key is found where its value will be written. -/
theorem slotFor_finds (hA : ∀ i < c.copies, A.fails (t.allocs + i) = false) (h : Good t E)
    (hfind : find fuel t c = .ok o)
    (hrun : slotFor A fuel depth t c o = .ok (t', some l)) : ∃ n, find n t' c = .ok (some l) := by
  cases o with
  | none =>
    obtain ⟨key, m, hk, hslot⟩ := slotFor_absent hA h hfind depth
    rw [hslot] at hrun
    have hfind' := h.shape.find_over (fun e he ↦ Owns.content_eq hk.same he) t.voids
      (t.allocs + c.copies) hfind
    exact newkeyWith_finds (setL_spec A fuel depth) setL_finds hk.shape hk.content hfind' hrun
  | some l' =>
    obtain ⟨k, e, v, R, -, -, hat, rfl, hnil⟩ := h.shape.at_find hfind
    rw [slotFor_some hat.read] at hrun
    obtain ⟨m, hm, hrun⟩ := Exec.bind_eq_ok.mp hrun
    obtain ⟨rfl, hl⟩ := Prod.mk.inj (Except.ok.inj hrun)
    obtain rfl := Option.some.inj hl
    obtain ⟨-, hagree⟩ := h.owns.release_slot (fun hv ↦ (hnil hv).imp fun i hi ↦ hi.2) hm
    refine ⟨fuel, h.shape.find_over (fun r hr ↦ ?_) (v.pointers ++ t.voids) t.allocs hfind⟩
    -- the released value is no key
    refine content_of_ownedWith (x := v) hagree ?_
    rw [Multiset.map_cons]
    rcases Multiset.mem_add.mp hr with hr | hr
    · unfold slotEntries at hr
      split_ifs at hr
      · cases hr
      · rw [Multiset.mem_singleton.mp hr]
        exact Multiset.mem_cons_self _ _
    · exact Multiset.mem_cons_of_mem (Multiset.mem_map_of_mem _ hr)

/-- A pointer that has been stored is found, if and only if it did not have the bits of a value of
another kind. -/
theorem setter_void_iff (hA : ∀ i, A.fails i = false) (hrun : Run A (fun _ _ ↦ True) t hist)
    (hcall : setter A fuel depth t c (.void p) = .ok (t', .ok)) :
    FindsPointer t' c p ↔ Effective t (.set c (.void p)) := by
  obtain ⟨E, h⟩ := hrun.good hA
  rw [setter_eq] at hcall
  obtain ⟨o, hfind, hcall⟩ := Exec.bind_eq_ok.mp hcall
  obtain ⟨b, hb, hcall⟩ := Exec.bind_eq_ok.mp hcall
  have hret := (steady_find t c).returns hfind
  cases b with
  | true =>
    -- the value is left alone
    obtain rfl : t = t' := (Prod.mk.inj (Except.ok.inj hcall)).1
    cases o with
    | none => cases hb
    | some l =>
      obtain ⟨v, hv, hb⟩ := Exec.bind_eq_ok.mp hb
      have hp : v.v = p := of_decide_eq_true (Except.ok.inj hb)
      refine ⟨?_, fun heff ↦ ⟨l, hret, ?_⟩⟩
      · rintro ⟨l', hl', hread⟩ l'' w hl'' hw -
        obtain rfl := Option.some.inj (hl'.unique hl'')
        rw [Except.ok.inj (hw.symm.trans hread)]
      · rw [hv, ← hp, ← heff l v hret hv hp]
  | false =>
    obtain ⟨⟨t₁, o₁⟩, hslot, hcall⟩ := Exec.bind_eq_ok.mp hcall
    cases o₁ with
    | none => cases hcall
    | some l =>
      obtain ⟨t₂, hwrite, hcall⟩ := Exec.bind_eq_ok.mp hcall
      obtain rfl : t₂ = t' := (Prod.mk.inj (Except.ok.inj hcall)).1
      obtain ⟨n, hn⟩ := slotFor_finds (fun i _ ↦ hA _) h hfind hslot
      refine iff_of_true ⟨l, (steady_find t₂ c).returns (find_writeVal hwrite hn),
        writeVal_read hwrite⟩ fun l' v hl' hv hp ↦ ?_
      -- the bits are not those of the pointer
      obtain rfl := hret.unique hl'
      obtain ⟨w, hw, hb⟩ := Exec.bind_eq_ok.mp hb
      obtain rfl := Except.ok.inj (hv.symm.trans hw)
      exact absurd hp (of_decide_eq_false (Except.ok.inj hb))

/-- A pointer under the integer `-2`, for which there is a rehash, and one that replaces the number
`7` of `-1`. -/
theorem setter_void_full : (∃ hist, Run .reliable (fun _ _ ↦ True) (full (-1)) hist) ∧
    (∃ t', setter .reliable 4 4 (full (-1)) (.int (-2)) (.void 8) = .ok (t', .ok) ∧
      t'.sizenode = 2 ∧ FindsPointer t' (.int (-2)) 8) ∧
    ∃ t', setter .reliable 4 4 (full (-1)) (.int (-1)) (.void 8) = .ok (t', .ok) ∧
      FindsPointer t' (.int (-1)) 8 := by
  have hrun : Run .reliable (fun _ _ ↦ True) (full (-1)) [(.set (.int (-1)) (.int 7), .ok)] :=
    run_full _ trivial rfl
  have hnew : Effective (full (-1)) (.set (.int (-2)) (.void 8)) := by
    intro l v hl
    have hnone : find 1 (full (-1)) (.int (-2)) = .ok none := rfl
    cases ((steady_find _ _).returns hnone).unique hl
  have hold : Effective (full (-1)) (.set (.int (-1)) (.void 8)) := by
    intro l v hl hv hp
    have hnode : find 1 (full (-1)) (.int (-1)) = .ok (some (.node 0)) := rfl
    obtain rfl := Option.some.inj (((steady_find _ _).returns hnode).unique hl)
    obtain rfl : ⟨7, .int⟩ = v := Except.ok.inj hv
    cases hp
  have hsteps : (setter .reliable 4 4 (full (-1)) (.int (-2)) (.void 8) >>= fun r ↦
      pure (r.2, r.1.sizenode)) = .ok (.ok, 2) := by decide +kernel
  obtain ⟨⟨t₁, st₁⟩, hstep₁, hrest⟩ := Exec.bind_eq_ok.mp hsteps
  obtain ⟨rfl, hsize⟩ := Prod.mk.inj (Except.ok.inj hrest)
  have hstep₂ : setter .reliable 4 4 (full (-1)) (.int (-1)) (.void 8) = .ok (_, .ok) := rfl
  exact ⟨⟨_, hrun⟩, ⟨t₁, hstep₁, hsize, (setter_void_iff (fun _ ↦ rfl) hrun hstep₁).mpr hnew⟩, _,
    hstep₂, (setter_void_iff (fun _ ↦ rfl) hrun hstep₂).mpr hold⟩

/-- The number `7` stays where the pointer with these bits is to be stored. -/
theorem setter_void_skips : ∃ t hist t', Run .reliable (fun _ _ ↦ True) t hist ∧
    setter .reliable 1 1 t (.int 1) (.void 7) = .ok (t', .ok) ∧
      ¬ FindsPointer t' (.int 1) 7 ∧
        ∃ o, Returns (fun fuel ↦ find fuel t' (.int 1)) o ∧ Yields t' o (some (.int 7)) := by
  have hfind : find 1 (full 1) (.int 1) = .ok (some (.node 0)) := rfl
  have hnode := (steady_find (full 1) (.int 1)).returns hfind
  refine ⟨full 1, _, full 1, run_full _ trivial rfl, rfl, ?_, some (.node 0), hnode,
    .val (v := ⟨7, .int⟩) rfl rfl⟩
  rintro ⟨l, hl, hv⟩
  obtain rfl := Option.some.inj (hnode.unique hl)
  cases hv

end Dlbase.Table
