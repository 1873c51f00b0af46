import Dlbase.Phash.Set
import Dlbase.Hash.Runs

/-!
# Runs of the map in a pool

The values that a key has been set to, in their order, and what the map keeps of them in each of
its modes.
-/

namespace Dlbase.Phash

open Cmem Hash

variable {h h' : Table} {key k : List UInt8} {v : Val} {M : Multimap Val} {S : List PoolSlot}

/-- Values are stored as they are. -/
def Decodes (_ : Mem Val) (v x : Val) : Prop := v = x

/-- A `long` is in the range of an `int`. -/
def Val.InRange : Val → Prop
  | int n => -2 ^ 31 ≤ n ∧ n < 2 ^ 31
  | _ => True

/-- The setter for the type of the value. -/
def setter (alloc : Allocator (Obj Val)) (fuel : Nat) (h : Table) (key : List UInt8) :
    Val → Exec (Table × Status)
  | .int n => setInt alloc fuel h key n
  | .str p => setStr alloc fuel h key p
  | .void p => setVoid alloc fuel h key p

/-- The tables that `dl_phash_init` and setters lead to, with the keys and values of the setters,
the last one first.  Each setter meets the condition `pre` on the table and the key. -/
inductive Run (pre : Table → List UInt8 → Prop) : Table → List (List UInt8 × Val) → Prop where
  /-- The map has been created. -/
  | init {m : Mem Val} (node slot : Nat) (unique replace : Bool) : m.Finite →
      Run pre (init m node slot unique replace) []
  /-- A key has been set. -/
  | set {alloc : Allocator (Obj Val)} {h h' : Table} {sets : List (List UInt8 × Val)}
      {key : List UInt8} {v : Val} {st : Status} : Run pre h sets → pre h key → v.InRange →
      Returns (fun fuel ↦ setter alloc fuel h key v) (h', st) → Run pre h' ((key, v) :: sets)

/-- What the map keeps of the values that a key has been set to, of which the last one comes first:
the first one, or the last one, or the first one and then the others, newest first. -/
def Table.kept (h : Table) (vs : List Val) : List Val :=
  if h.unique then vs.getLast?.toList
  else if h.replace then vs.head?.toList
  else match vs.getLast? with
    | some v => v :: vs.dropLast
    | none => []

/-- The values that a key has been set to, the last one first. -/
def valuesSet (sets : List (List UInt8 × Val)) (k : List UInt8) : List Val :=
  (sets.filter (·.1 = k)).map Prod.snd

/-- What the map should hold. -/
def Table.held (h : Table) (sets : List (List UInt8 × Val)) : Multimap Val :=
  fun k ↦ h.kept (valuesSet sets k)

/-- The values of a key after it has been set. -/
def Table.after (h : Table) (v : Val) (xs : List Val) : List Val :=
  if xs = [] then [v] else h.again v xs

/-- The result of setting a key. -/
def Table.status (h : Table) (xs : List Val) : Status := if xs ≠ [] ∧ h.unique then .again else .ok

/-- The number of values that setting a key adds. -/
def Table.added (h : Table) (xs : List Val) : Int :=
  if xs ≠ [] ∧ (h.unique ∨ h.replace) then 0 else 1

/-- The number of all values. -/
def Total (M : Multimap Val) (n : Int) : Prop :=
  ∃ ks : Finset (List UInt8), (∀ k, k ∈ ks ↔ M k ≠ []) ∧ (ks.sum fun k ↦ (M k).length : Nat) = n

/-- `dl_phash_find` finds a key if it has values: its node, in the slot of its hash. -/
def Finds (h : Table) (M : Multimap Val) (key : List UInt8) : Prop :=
  ∃ o, Returns (fun fuel ↦ find fuel h key) o ∧ (o = none ↔ M key = []) ∧
    ∀ a, o = some a → InSlot h.mem h.node h.slotTotal (slotIndex h.slotTotal key) a ∧
      KeyOf h.mem a key ∧ ValuesOf Decodes h.mem a (M key)

/-- A setter returns, it changes the values of its key only, and it has no effect if it is
refused. -/
def Does (h : Table) (M : Multimap Val) (v : Val) (key : List UInt8) : Prop :=
  ∀ alloc, ∃ h', Returns (fun fuel ↦ setter alloc fuel h key v) (h', h.status (M key)) ∧
    (h.status (M key) = .again → ∀ a, h.mem a ≠ none → h'.mem a = h.mem a) ∧
    Refines Decodes h'.mem h'.node h'.slotTotal (M.put key (h.after v (M key))) ∧
    Total (M.put key (h.after v (M key))) h'.elSum

/-- The map holds the values `M`, and the calls that tell their keys apart treat it so. -/
structure Exact (h : Table) (M : Multimap Val) : Prop where
  /-- Each key with values has one node with just these. -/
  refines : Refines Decodes h.mem h.node h.slotTotal M
  /-- `dl_phash_find` finds the node of its own key. -/
  finds : ∀ key, Told h.mem h.node h.slotTotal key → Finds h M key
  /-- The setters change the values of their own key. -/
  does : ∀ v key, Told h.mem h.node h.slotTotal key → v.InRange →
    h.elSum + h.added (M key) < 2 ^ 31 → Does h M v key

/-- The memory holds the slots of the table with the values `M`. -/
structure Inv (h : Table) (S : List PoolSlot) (M : Multimap Val) : Prop where
  /-- The slots are in memory. -/
  rep : Rep id noCells h.mem h.node S
  /-- These are all slots. -/
  length : S.length = h.slotTotal
  /-- The values. -/
  values : ∀ k, tableValues id S k = M k
  /-- The values are counted. -/
  total : Total M h.elSum
  /-- The number of values has not overflown. -/
  sum_lt : h.elSum < 2 ^ 31
  /-- There is no list of values if values are replaced. -/
  single : h.unique = false → h.replace = true → ∀ k, (M k).length ≤ 1

theorem pfillV_eq (hv : v.InRange) : pfillV v = v := by
  cases v with
  | int n =>
    obtain ⟨hlo, hhi⟩ := hv
    exact congrArg Val.int (Int.bmod_eq_of_le (by omega) (by omega))
  | str p => rfl
  | void p => rfl

/-! ## Values -/

theorem Table.after_ne_nil (v : Val) (xs : List Val) : h.after v xs ≠ [] := by
  unfold after again addValue
  split_ifs
  · exact List.cons_ne_nil _ _
  · assumption
  · exact List.cons_ne_nil _ _
  · cases xs <;> exact List.cons_ne_nil _ _

theorem Table.kept_nil : h.kept [] = [] := by
  unfold kept
  split_ifs <;> rfl

theorem Table.kept_cons (v : Val) (vs : List Val) : h.kept (v :: vs) = h.after v (h.kept vs) := by
  rcases List.eq_nil_or_concat vs with rfl | ⟨ws, w, rfl⟩
  · rw [after, if_pos kept_nil, kept]
    split_ifs <;> rfl
  · have hlast : (v :: (ws ++ [w])).getLast? = some w := by
      rw [← List.cons_append, List.getLast?_concat]
    have hdrop : (v :: (ws ++ [w])).dropLast = v :: ws := by
      rw [← List.cons_append, List.dropLast_concat]
    unfold kept after again addValue
    rw [List.concat_eq_append, hlast, hdrop, List.getLast?_concat, List.dropLast_concat]
    by_cases hu : h.unique = true
    · simp [hu]
    · by_cases hr : h.replace = true
      · cases ws <;> simp [hu, hr]
      · simp [hu, hr]

theorem held_cons (sets : List (List UInt8 × Val)) (key : List UInt8) (v : Val) :
    h.held ((key, v) :: sets) = (h.held sets).put key (h.after v (h.held sets key)) := by
  funext k
  rw [Multimap.put, Table.held, Table.held, valuesSet, List.filter_cons]
  by_cases hk : k = key
  · rw [if_pos (by simp [hk]), if_pos hk, List.map_cons, Table.kept_cons, hk]
    rfl
  · rw [if_neg (by simp [Ne.symm hk]), if_neg hk]
    rfl

theorem Total.put {n : Int} (ht : Total M n) (key : List UInt8) {xs : List Val} (hxs : xs ≠ []) :
    Total (M.put key xs) (n + xs.length - (M key).length) := by
  obtain ⟨ks, hks, rfl⟩ := ht
  refine ⟨insert key ks, fun k ↦ ?_, ?_⟩
  · rw [Finset.mem_insert, hks, Multimap.put]
    split_ifs with hk
    · exact ⟨fun _ ↦ hxs, fun _ ↦ .inl hk⟩
    · exact ⟨fun h ↦ h.resolve_left hk, .inr⟩
  · have hput : (M.put key xs key).length = xs.length := congrArg List.length (if_pos rfl)
    have hrest : ((ks.erase key).sum fun k ↦ (M.put key xs k).length) =
        (ks.erase key).sum fun k ↦ (M k).length :=
      Finset.sum_congr rfl fun k hk ↦ congrArg List.length (if_neg (Finset.ne_of_mem_erase hk))
    have hnew : ((insert key ks).sum fun k ↦ (M.put key xs k).length) =
        xs.length + (ks.erase key).sum fun k ↦ (M k).length := by
      rw [← Finset.insert_erase (Finset.mem_insert_self key ks), Finset.erase_insert_eq_erase,
        Finset.sum_insert (Finset.notMem_erase _ _), hput, hrest]
    have hold : (ks.sum fun k ↦ (M k).length) =
        (M key).length + (ks.erase key).sum fun k ↦ (M k).length := by
      by_cases hk : key ∈ ks
      · rw [Finset.add_sum_erase ks (fun k ↦ (M k).length) hk]
      · have hnil : M key = [] := by
          by_contra hne
          exact hk ((hks key).mpr hne)
        rw [Finset.erase_eq_of_notMem hk, hnil, List.length_nil, zero_add]
    omega

/-- The number of values changes by the number of values added. -/
theorem length_after (xs : List Val) (v : Val)
    (hs : h.unique = false → h.replace = true → xs.length ≤ 1) :
    ((h.after v xs).length : Int) = xs.length + h.added xs := by
  unfold Table.after Table.added Table.again
  cases xs with
  | nil => simp
  | cons x xs =>
    cases hu : h.unique with
    | true => simp
    | false =>
      cases hr : h.replace with
      | true =>
        have hlen := hs hu hr
        simp_all
      | false => simp [addValue]

/-! ## The calls -/

theorem inv_init {m : Mem Val} (node slot : Nat) (unique replace : Bool) (hm : m.Finite) :
    ∃ S, Inv (init m node slot unique replace) S fun _ ↦ [] := by
  have hpos : 0 < (if slot = 0 then 64 else slot) := by
    split_ifs <;> omega
  refine ⟨_, .zero hm hpos, List.length_replicate, fun k ↦ tableValues_zero, ⟨∅, ?_, rfl⟩,
    ?_, fun _ _ _ ↦ Nat.zero_le 1⟩
  · simp
  · exact Int.pow_pos (by decide)

theorem setEntries_spec (h : Table) (key : List UInt8) (v : Val)
    {E : List (Entry (List UInt8) Val)} (hE : ∀ e ∈ E, e.2 ≠ []) (hn : (E.map Prod.fst).Nodup) :
    ((setEntries h key v E).1.map Prod.fst).Nodup ∧
      (∀ k ∈ (setEntries h key v E).1.map Prod.fst, k = key ∨ k ∈ E.map Prod.fst) ∧
      (∀ k, values k (setEntries h key v E).1 =
        if k = key then h.after v (values key E) else values k E) ∧
      (setEntries h key v E).2 = (h.status (values key E), h.added (values key E)) := by
  unfold setEntries Table.after Table.status Table.added
  by_cases hmem : key ∈ E.map Prod.fst
  · have hne : values key E ≠ [] := (values_ne_nil hE).mpr hmem
    simp only [if_pos hmem, keys_update, ne_eq, hne, not_false_eq_true, true_and, if_false]
    exact ⟨hn, fun k hk ↦ .inr hk, fun k ↦ values_update hmem, trivial⟩
  · have hnil : values key E = [] := values_eq_nil hmem
    have hperm : ((insertSecond (key, [v]) E).map Prod.fst).Perm (key :: E.map Prod.fst) :=
      perm_insertSecond.map Prod.fst
    simp only [if_neg hmem, hnil, if_true, ne_eq, not_true_eq_false, false_and, if_false]
    exact ⟨hperm.nodup_iff.mpr (List.nodup_cons.mpr ⟨hmem, hn⟩),
      fun k hk ↦ List.mem_cons.mp (hperm.mem_iff.mp hk), fun k ↦ values_insertSecond hmem, trivial⟩

theorem decodes_id {m : Mem Val} {H : Cells (Obj Val)} (g : Val) (_ : Holds m (noCells g + H)) :
    Decodes m (id g) (id g) := rfl

namespace Inv

/-- What memory shows of the keys in a slot. -/
theorem of_slotKeys (hi : Inv h S M) {P : List (List UInt8) → Prop} (hP : P [])
    (ht : SlotKeys h.mem h.node h.slotTotal key P) : P (slotKeys S key) :=
  hi.rep.of_slotKeys hP (hi.length ▸ ht)

/-- The keys in a slot have values. -/
theorem values_ne_nil (hi : Inv h S M) (hk : k ∈ slotKeys S key) : M k ≠ [] := by
  rw [← hi.values]
  exact hi.rep.values_ne_nil hk

theorem slot_eq (hi : Inv h S M) : slot h (hashKey key) = h.node + slotIndex S.length key := by
  rw [hi.length]
  rfl

/-- Setting a key. -/
theorem set (alloc : Allocator (Obj Val)) (hi : Inv h S M) (hc : Clear key (slotKeys S key))
    (hv : v.InRange) : ∃ h' S' N, (∀ fuel, N ≤ fuel → setter alloc fuel h key v =
        if h.elSum + h.added (M key) < 2 ^ 31 then .ok (h', h.status (M key)) else Exec.undef) ∧
      (h.elSum + h.added (M key) < 2 ^ 31 → Inv h' S' (M.put key (h.after v (M key)))) ∧
      (h'.unique = h.unique ∧ h'.replace = h.replace) ∧
      (h.status (M key) = .again → ∀ a, h.mem a ≠ none → h'.mem a = h.mem a) := by
  obtain ⟨s, H, hs, hok, hm, hnodup, hval, hfocus⟩ := hi.rep.focus id key
  rw [slotKeys, hs] at hc
  rw [hi.values] at hval
  -- the setter makes a string of the key
  have hm₁ := (hm.alloc alloc (.str key)).of_eq (add_left_comm _ _ _)
  obtain ⟨m', s', st, n, hrun, hm', hok', hagain, hentries⟩ :=
    set_slot (h := { h with mem := h.mem.set (alloc.run h.mem) (.str key) }) alloc hm₁ hok
      hi.slot_eq hc hi.sum_lt v
  rw [pfillV_eq hv] at hentries
  have hspec := setEntries_spec h key v entries_ne_nil hnodup
  change _ = setEntries h key v (entries id s.items) at hentries
  rw [← hentries, ← hval] at hspec
  obtain ⟨hn, hk, hvals, hst⟩ := hspec
  obtain ⟨rfl, rfl⟩ := Prod.mk.inj hst
  obtain ⟨S', hr', hlen', -, hM', -⟩ := hfocus m' s' _ hm' hok' hn hk hvals
  refine ⟨{ h with mem := m', elSum := h.elSum + h.added (M key) }, S', s.items.length + 1,
    fun fuel hf ↦ ?_, fun hlt ↦ ?_, ⟨rfl, rfl⟩, fun hst a ha ↦ ?_⟩
  · have hset : setter alloc fuel h key v = setKey alloc fuel h key v := by
      cases v <;> rfl
    rw [hset]
    exact hrun fuel hf
  · have hsingle : h.unique = false → h.replace = true → (M key).length ≤ 1 := fun hu hr ↦
      hi.single hu hr key
    have hlen := length_after (M key) v hsingle
    refine ⟨hr', hlen'.trans hi.length, fun k ↦ ?_, ?_, hlt, fun hu hr k ↦ ?_⟩
    · rw [hM', hi.values]
      rfl
    · have ht := hi.total.put key (Table.after_ne_nil (h := h) v (M key))
      rw [hlen] at ht
      have hsum : h.elSum + (↑(M key).length + h.added (M key)) - (M key).length =
          h.elSum + h.added (M key) := by omega
      rwa [hsum] at ht
    · rw [Multimap.put]
      split_ifs
      · have hu : h.unique = false := hu
        have hr : h.replace = true := hr
        unfold Table.after Table.again
        simp [hu, hr]
      · exact hi.single hu hr k
  · change m' a = h.mem a
    have hfresh := alloc.fresh h.mem hi.rep.holds.finite
    rw [hagain hst]
    refine Function.update_of_ne ?_ _ _
    rintro rfl
    exact ha hfresh

/-- Looking for a key. -/
theorem find (hi : Inv h S M) (hc : Clear key (slotKeys S key)) : Finds h M key := by
  obtain ⟨o, N, hrun, hnone, hsome⟩ := hi.rep.lookup id decodes_id hc
  rw [hi.length] at hsome
  rw [hi.values] at hnone hsome
  refine ⟨o, ⟨N, fun fuel hf ↦ ?_⟩, hnone, hsome⟩
  unfold Phash.find
  simp only [hi.slot_eq]
  exact hrun fuel hf

theorem refines (hi : Inv h S M) : Refines Decodes h.mem h.node h.slotTotal M := by
  have hM : tableValues id S = M := funext hi.values
  rw [← hi.length, ← hM]
  exact hi.rep.refines decodes_id

theorem does (hi : Inv h S M) (hc : Clear key (slotKeys S key)) (hv : v.InRange)
    (hlt : h.elSum + h.added (M key) < 2 ^ 31) : Does h M v key := fun alloc ↦ by
  obtain ⟨h', S', N, hrun, hi', -, hagain⟩ := hi.set alloc hc hv
  have hi' := hi' hlt
  exact ⟨h', ⟨N, fun fuel hf ↦ (hrun fuel hf).trans (if_pos hlt)⟩, hagain, hi'.refines, hi'.total⟩

end Inv

/-! ## Runs -/

variable {pre : Table → List UInt8 → Prop} {sets : List (List UInt8 × Val)}

/-- Every table that is reached holds the values that it should. -/
theorem Run.inv (hpre : ∀ {h S sets key}, Run pre h sets → Inv h S (h.held sets) → pre h key →
    Clear key (slotKeys S key)) (hrun : Run pre h sets) : ∃ S, Inv h S (h.held sets) := by
  induction hrun with
  | @init m node slot unique replace hm =>
    obtain ⟨S, hi⟩ := inv_init node slot unique replace hm
    have hheld : (Phash.init m node slot unique replace).held [] = fun _ ↦ [] :=
      funext fun _ ↦ Table.kept_nil
    exact ⟨S, hheld ▸ hi⟩
  | @set alloc h h' sets key v st hrun hp hv hret ih =>
    obtain ⟨S, hi⟩ := ih
    obtain ⟨h₁, S', N, hset, hi', ⟨hu, hr⟩, -⟩ := hi.set alloc (hpre hrun hi hp) hv
    obtain ⟨N', hN'⟩ := hret
    have heq := (hset (max N N') (Nat.le_max_left N N')).symm.trans
      (hN' (max N N') (Nat.le_max_right N N'))
    by_cases hlt : h.elSum + h.added (h.held sets key) < 2 ^ 31
    · rw [if_pos hlt] at heq
      obtain ⟨rfl, -⟩ := Prod.mk.inj (Except.ok.inj heq)
      have hheld : h₁.held ((key, v) :: sets) = h.held ((key, v) :: sets) := by
        unfold Table.held Table.kept
        rw [hu, hr]
      rw [hheld, held_cons]
      exact ⟨S', hi' hlt⟩
    · rw [if_neg hlt] at heq
      cases heq

/-- The keys with values have been set. -/
theorem Run.mem_of_ne_nil {K : Set (List UInt8)} (hrun : Run (fun _ key ↦ key ∈ K) h sets)
    (hk : h.held sets k ≠ []) : k ∈ K := by
  have hset : ∀ {h sets}, Run (fun _ key ↦ key ∈ K) h sets → ∀ e ∈ sets, e.1 ∈ K := by
    intro h sets hrun
    induction hrun with
    | init => exact nofun
    | set hrun hp hv hret ih => exact List.forall_mem_cons.mpr ⟨hp, ih⟩
  by_contra hn
  refine hk ?_
  have hnil : valuesSet sets k = [] := by
    rw [valuesSet, List.map_eq_nil_iff, List.filter_eq_nil_iff]
    intro e he heq
    exact hn ((of_decide_eq_true heq) ▸ hset hrun e he)
  rw [Table.held, hnil, Table.kept_nil]

/-- If no key begins with another one, the map holds just the values that it should. -/
theorem phash_modes {K : Set (List UInt8)} (hK : PrefixFree K)
    (hrun : Run (fun _ key ↦ key ∈ K) h sets) :
    Refines Decodes h.mem h.node h.slotTotal (h.held sets) ∧ Total (h.held sets) h.elSum ∧
      (∀ key ∈ K, Finds h (h.held sets) key) ∧
      ∀ v key, key ∈ K → v.InRange → h.elSum + h.added (h.held sets key) < 2 ^ 31 →
        Does h (h.held sets) v key := by
  have hclear : ∀ {h S sets key}, Run (fun _ key ↦ key ∈ K) h sets → Inv h S (h.held sets) →
      key ∈ K → Clear key (slotKeys S key) := fun hrun hi hk ↦
    clear_of_forall fun s hs ↦ hK.separate (hrun.mem_of_ne_nil (hi.values_ne_nil hs)) hk
  obtain ⟨S, hi⟩ := hrun.inv hclear
  exact ⟨hi.refines, hi.total, fun key hk ↦ hi.find (hclear hrun hi hk),
    fun v key hk hv hlt ↦ hi.does (hclear hrun hi hk) hv hlt⟩

/-- Calls for keys that are told apart from one another. -/
theorem Run.told {K : Set (List UInt8)} (hK : ∀ a ∈ K, ∀ b ∈ K, Separate a b)
    (hrun : Run (fun _ key ↦ key ∈ K) h sets) :
    Run (fun h ↦ Told h.mem h.node h.slotTotal) h sets := by
  induction hrun with
  | init node slot unique replace hm => exact .init node slot unique replace hm
  | @set alloc h h' sets key v st hrun hk hv hret ih =>
    obtain ⟨S, hi⟩ := ih.inv fun _ hi hk ↦ hi.of_slotKeys trivial hk
    have hclear : Clear key (slotKeys S key) := clear_of_forall fun s hs ↦
      hK s (hrun.mem_of_ne_nil (hi.values_ne_nil hs)) key hk
    refine .set ih ?_ hv hret
    rw [Told, ← hi.length]
    exact hi.rep.to_slotKeys hclear

theorem Total.unique {n n' : Int} (ht : Total M n) (ht' : Total M n') : n' = n := by
  obtain ⟨ks, hks, rfl⟩ := ht
  obtain ⟨ks', hks', rfl⟩ := ht'
  obtain rfl : ks' = ks := Finset.ext fun k ↦ (hks' k).trans (hks k).symm
  rfl

/-- One more key is set; the map counts at most one more value. -/
theorem Run.exists_set {K : Set (List UInt8)} (hK : ∀ a ∈ K, ∀ b ∈ K, Separate a b)
    (hrun : Run (fun _ key ↦ key ∈ K) h sets) (hk : key ∈ K) (hv : v.InRange)
    (hlt : h.elSum + 1 < 2 ^ 31) : ∃ h', Run (fun _ key ↦ key ∈ K) h' ((key, v) :: sets) ∧
      h'.elSum ≤ h.elSum + 1 ∧ h'.unique = h.unique ∧ h'.replace = h.replace := by
  obtain ⟨S, hi⟩ := (hrun.told hK).inv fun _ hi hk ↦ hi.of_slotKeys trivial hk
  have hclear : Clear key (slotKeys S key) := clear_of_forall fun s hs ↦
    hK s (hrun.mem_of_ne_nil (hi.values_ne_nil hs)) key hk
  have hadded : h.added (h.held sets key) ≤ 1 := by
    unfold Table.added
    split_ifs <;> decide
  obtain ⟨h', S', N, hset, hi', ⟨hu, hr⟩, -⟩ := hi.set (.least _) hclear hv
  have hfits : h.elSum + h.added (h.held sets key) < 2 ^ 31 := by omega
  have hret : Returns (fun fuel ↦ setter (.least _) fuel h key v)
      (h', h.status (h.held sets key)) :=
    ⟨N, fun fuel hf ↦ (hset fuel hf).trans (if_pos hfits)⟩
  refine ⟨h', hrun.set hk hv hret, ?_, hu, hr⟩
  -- the values are counted before and after
  have htotal := hi.total.put key (Table.after_ne_nil (h := h) v (h.held sets key))
  have hlen := length_after (h.held sets key) v fun hu hr ↦ hi.single hu hr key
  have heq := htotal.unique (hi' hfits).total
  omega

theorem prefixFree_a_b : PrefixFree {[97], [98]} := by
  rintro s (rfl | rfl) u (rfl | rfl) hpre
  · rfl
  · exact absurd hpre (by decide)
  · exact absurd hpre (by decide)
  · rfl

/-- A map in which a key is set twice, so that it has a list of values, and another key once. -/
theorem phash_modes_list : ∃ h, Run (fun _ key ↦ key ∈ ({[97], [98]} : Set (List UInt8))) h
      [([98], .int 7), ([97], .int 6), ([97], .int 5)] ∧
    h.held [([98], .int 7), ([97], .int 6), ([97], .int 5)] [97] = [.int 5, .int 6] ∧
    Finds h (h.held [([98], .int 7), ([97], .int 6), ([97], .int 5)]) [97] ∧
    Total (h.held [([98], .int 7), ([97], .int 6), ([97], .int 5)]) h.elSum := by
  have hsep : ∀ a ∈ ({[97], [98]} : Set (List UInt8)), ∀ b ∈ ({[97], [98]} : Set (List UInt8)),
      Separate a b := fun _ ha _ hb ↦ prefixFree_a_b.separate ha hb
  have hinit : Run (fun _ key ↦ key ∈ ({[97], [98]} : Set (List UInt8)))
      (init (fun _ ↦ none) 1 1 false false) [] := .init _ _ _ _ ⟨0, fun _ _ ↦ rfl⟩
  have ha : [97] ∈ ({[97], [98]} : Set (List UInt8)) := .inl rfl
  have hb : [98] ∈ ({[97], [98]} : Set (List UInt8)) := .inr rfl
  have hr : ∀ n : Int, -2 ^ 31 ≤ n ∧ n < 2 ^ 31 → (Val.int n).InRange := fun _ h ↦ h
  obtain ⟨h₁, hrun₁, hsum₁, hu₁, hr₁⟩ := hinit.exists_set hsep ha (hr 5 (by decide)) (by decide)
  have hle₁ : h₁.elSum ≤ 1 := hsum₁
  obtain ⟨h₂, hrun₂, hsum₂, hu₂, hr₂⟩ := hrun₁.exists_set hsep ha (hr 6 (by decide)) (by omega)
  obtain ⟨h₃, hrun₃, -, hu₃, hr₃⟩ := hrun₂.exists_set hsep hb (hr 7 (by decide)) (by omega)
  obtain ⟨-, htotal, hfinds, -⟩ := phash_modes prefixFree_a_b hrun₃
  refine ⟨h₃, hrun₃, ?_, hfinds _ ha, htotal⟩
  have hu : h₃.unique = false := hu₃.trans (hu₂.trans hu₁)
  have hr : h₃.replace = false := hr₃.trans (hr₂.trans hr₁)
  rw [Table.held, Table.kept, hu, hr]
  rfl

/-- As long as keys are told apart, the map holds just the values that it should. -/
theorem Run.exact (hrun : Run (fun h ↦ Told h.mem h.node h.slotTotal) h sets) :
    Exact h (h.held sets) := by
  have hclear : ∀ {h S sets key}, Run (fun h ↦ Told h.mem h.node h.slotTotal) h sets →
      Inv h S (h.held sets) → Told h.mem h.node h.slotTotal key → Clear key (slotKeys S key) :=
    fun _ hi hk ↦ hi.of_slotKeys trivial hk
  obtain ⟨S, hi⟩ := hrun.inv hclear
  exact ⟨hi.refines, fun key hk ↦ hi.find (hclear hrun hi hk),
    fun v key hk hv hlt ↦ hi.does (hclear hrun hi hk) hv hlt⟩

end Dlbase.Phash
