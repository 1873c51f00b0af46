import Dlbase.Table.Delete

/-!
# The strings of a table

Each string that is a key or a value belongs to one entry of the table.  To free a string of one
entry thus does no harm to the other entries, and no more does a new string.
-/

namespace Dlbase.Table

open Cmem

/-- The string of a key. -/
def Key.addrs : Key → Multiset Nat
  | str p => {p}
  | _ => 0

/-- The string of a value. -/
def Value.addrs (v : Value) : Multiset Nat := if v.tt = .str then {v.v.toNat} else 0

/-- The strings of the entries. -/
def owned (E : Entries) : Multiset Nat := E.bind fun e ↦ e.1.addrs + e.2.addrs

/-- What a value stands for. -/
inductive Datum where
  /-- An integer. -/
  | int (n : Int)
  /-- A string. -/
  | str (s : List UInt8)
  /-- A pointer. -/
  | void (p : Int)
deriving DecidableEq, Repr

/-- What the value stands for in memory. -/
def Value.datum (m : Mem) (v : Value) : Option Datum :=
  match v.tt with
  | .int => some (.int v.v)
  | .str => (m v.v.toNat).join.map .str
  | .void => some (.void v.v)
  | _ => none

/-- The entries own their strings. -/
structure Owns (m : Mem) (E : Entries) : Prop where
  /-- There is room for more. -/
  finite : m.Finite
  /-- No string belongs to two entries, or is the key and the value of one. -/
  nodup : (owned E).Nodup
  /-- The strings are there. -/
  alive : ∀ a ∈ owned E, ∃ s, m a = some (some s)
  /-- The keys are integers or strings. -/
  keys : ∀ e ∈ E, ∃ c, e.1.content m = some c
  /-- The values are integers, strings or pointers. -/
  vals : ∀ e ∈ E, ∃ d, e.2.datum m = some d

variable {m m' : Mem} {E E' R : Entries} {k : Key} {v x : Value} {d : Datum} {s : List UInt8}

/-! ## Addresses -/

theorem owned_cons (k : Key) (v : Value) (E : Entries) :
    owned ((k, v) ::ₘ E) = k.addrs + v.addrs + owned E := Multiset.cons_bind _ _ _

theorem owned_eq (E : Entries) :
    owned E = (E.map Prod.fst).bind Key.addrs + (E.map Prod.snd).bind Value.addrs := by
  rw [Multiset.bind_map, Multiset.bind_map]
  exact Multiset.bind_add _ _ _

theorem bind_mono {α : Type} {K L : Multiset α} (h : K ≤ L) (f : α → Multiset Nat) :
    K.bind f ≤ L.bind f := by
  obtain ⟨M, rfl⟩ := Multiset.le_iff_exists_add.mp h
  rw [Multiset.add_bind]
  exact Multiset.le_add_right _ _

theorem mem_owned {a : Nat} : a ∈ owned E ↔ ∃ e ∈ E, a ∈ e.1.addrs ∨ a ∈ e.2.addrs := by
  rw [owned, Multiset.mem_bind]
  simp only [Multiset.mem_add]

/-- What a key stands for depends on its string. -/
theorem content_congr (h : ∀ a ∈ k.addrs, m' a = m a) : k.content m' = k.content m := by
  cases k with
  | str p => rw [Key.content, Key.content, h p (Multiset.mem_singleton_self p)]
  | int n => rfl
  | null => rfl
  | nil => rfl

/-- What a value stands for depends on its string. -/
theorem datum_congr (h : ∀ a ∈ v.addrs, m' a = m a) : v.datum m' = v.datum m := by
  unfold Value.datum
  cases htt : v.tt with
  | str =>
    have ha : v.v.toNat ∈ v.addrs := by
      rw [Value.addrs, if_pos htt]
      exact Multiset.mem_singleton_self _
    change (m' v.v.toNat).join.map _ = (m v.v.toNat).join.map _
    rw [h _ ha]
  | int => rfl
  | void => rfl
  | nil => rfl
  | null => rfl

/-! ## Changes of the memory -/

namespace Owns

theorem content_eq (h : ∀ a ∈ owned E, m' a = m a) {e : Key × Value} (he : e ∈ E) :
    e.1.content m' = e.1.content m :=
  content_congr fun a ha ↦ h a (mem_owned.mpr ⟨e, he, .inl ha⟩)

theorem datum_eq (h : ∀ a ∈ owned E, m' a = m a) {e : Key × Value} (he : e ∈ E) :
    e.2.datum m' = e.2.datum m :=
  datum_congr fun a ha ↦ h a (mem_owned.mpr ⟨e, he, .inr ha⟩)

/-- Only the strings of the entries matter. -/
theorem congr (h : Owns m E) (hf : m'.Finite) (hm : ∀ a ∈ owned E, m' a = m a) : Owns m' E where
  finite := hf
  nodup := h.nodup
  alive a ha := by
    rw [hm a ha]
    exact h.alive a ha
  keys e he := by
    rw [content_eq hm he]
    exact h.keys e he
  vals e he := by
    rw [datum_eq hm he]
    exact h.vals e he

/-- Some of the entries own their strings, too. -/
theorem mono (h : Owns m (R + E)) : Owns m E where
  finite := h.finite
  nodup := by
    have hn := h.nodup
    rw [owned, Multiset.add_bind] at hn
    exact Multiset.nodup_of_le (Multiset.le_add_left _ _) hn
  alive a ha := by
    refine h.alive a ?_
    rw [owned, Multiset.add_bind]
    exact Multiset.mem_add.mpr (.inr ha)
  keys e he := h.keys e (Multiset.mem_add.mpr (.inr he))
  vals e he := h.vals e (Multiset.mem_add.mpr (.inr he))

/-- Entries whose keys and values have been there own their strings. -/
theorem of_kept (h : Owns m E) (hk : E'.map Prod.fst ≤ E.map Prod.fst)
    (hv : E'.map Prod.snd ≤ E.map Prod.snd) : Owns m E' where
  finite := h.finite
  nodup := by
    have hn := h.nodup
    rw [owned_eq] at hn ⊢
    exact Multiset.nodup_of_le (add_le_add (bind_mono hk _) (bind_mono hv _)) hn
  alive a ha := by
    refine h.alive a ?_
    rw [owned_eq] at ha ⊢
    rcases Multiset.mem_add.mp ha with ha | ha
    · exact Multiset.mem_add.mpr (.inl (Multiset.mem_of_le (bind_mono hk _) ha))
    · exact Multiset.mem_add.mpr (.inr (Multiset.mem_of_le (bind_mono hv _) ha))
  keys e he := by
    obtain ⟨e', he', heq⟩ := Multiset.mem_map.mp
      (Multiset.mem_of_le hk (Multiset.mem_map_of_mem _ he))
    rw [← heq]
    exact h.keys e' he'
  vals e he := by
    obtain ⟨e', he', heq⟩ := Multiset.mem_map.mp
      (Multiset.mem_of_le hv (Multiset.mem_map_of_mem _ he))
    rw [← heq]
    exact h.vals e' he'

end Owns

/-! ## Freeing -/

theorem freedVal_spec (h : freedVal m v = .ok m') :
    (m.Finite → m'.Finite) ∧ ∀ a ∉ v.addrs, m' a = m a := by
  unfold freedVal at h
  unfold Value.addrs
  split_ifs at h ⊢ with hv
  · unfold Objects.free at h
    split_ifs at h
    · cases h
    · obtain rfl := Except.ok.inj h
      exact ⟨fun hf ↦ Holds.finite_set hf _ _, fun a ha ↦
        Function.update_of_ne (fun heq ↦ ha (Multiset.mem_singleton.mpr heq)) _ _⟩
  · obtain rfl := Except.ok.inj h
    exact ⟨id, fun _ _ ↦ rfl⟩

theorem freedKey_spec (h : freedKey m k = .ok m') :
    (m.Finite → m'.Finite) ∧ ∀ a ∉ k.addrs, m' a = m a := by
  cases k with
  | str p =>
    change Objects.free m p = _ at h
    unfold Objects.free at h
    split_ifs at h
    · cases h
    · obtain rfl := Except.ok.inj h
      exact ⟨fun hf ↦ Holds.finite_set hf _ _, fun a ha ↦
        Function.update_of_ne (fun heq ↦ ha (Multiset.mem_singleton.mpr heq)) _ _⟩
  | int n =>
    obtain rfl := Except.ok.inj h
    exact ⟨id, fun _ _ ↦ rfl⟩
  | null =>
    obtain rfl := Except.ok.inj h
    exact ⟨id, fun _ _ ↦ rfl⟩
  | nil =>
    obtain rfl := Except.ok.inj h
    exact ⟨id, fun _ _ ↦ rfl⟩

/-- The key and the other entries own their strings; the key has no value yet. -/
def Held (m : Mem) (k : Key) (R : Entries) : Prop := Owns m ((k, ⟨0, .int⟩) ::ₘ R)

/-- The strings of a key and of other entries. -/
def ownedWith (k : Key) (R : Entries) : Multiset Nat := k.addrs + owned R

theorem owned_held (k : Key) (n : Int) (R : Entries) :
    owned ((k, ⟨n, .int⟩) ::ₘ R) = ownedWith k R := by
  rw [owned_cons]
  exact congrArg (· + _) (add_zero k.addrs)

namespace Owns

theorem eq_of_freedVal_nil (hv : freedVal m v = .ok m') (hnil : v.tt = .nil) : m' = m := by
  unfold freedVal at hv
  rw [hnil] at hv
  exact (Except.ok.inj hv).symm

/-- A value is released. -/
theorem release (h : Owns m ((k, v) ::ₘ R)) (hv : freedVal m v = .ok m') :
    Held m' k R ∧ ∀ a ∈ ownedWith k R, m' a = m a := by
  obtain ⟨hfin, hsame⟩ := freedVal_spec hv
  have hn := h.nodup
  rw [owned_cons, add_right_comm, add_comm, Multiset.nodup_add] at hn
  have hagree : ∀ a ∈ ownedWith k R, m' a = m a := fun a ha ↦
    hsame a fun ha' ↦ Multiset.disjoint_left.mp hn.2.2 ha' ha
  have hheld : Held m k R := by
    refine ⟨h.finite, ?_, fun a ha ↦ h.alive a ?_, fun e he ↦ ?_, fun e he ↦ ?_⟩
    · rw [owned_held]
      exact hn.2.1
    · rw [owned_held, ownedWith] at ha
      rw [owned_cons, add_right_comm]
      exact Multiset.mem_add.mpr (.inl ha)
    · rcases Multiset.mem_cons.mp he with rfl | he
      · exact h.keys (k, v) (Multiset.mem_cons_self _ _)
      · exact h.keys e (Multiset.mem_cons_of_mem he)
    · rcases Multiset.mem_cons.mp he with rfl | he
      · exact ⟨_, rfl⟩
      · exact h.vals e (Multiset.mem_cons_of_mem he)
  exact ⟨Owns.congr hheld (hfin h.finite) fun a ha ↦ hagree a (by rwa [owned_held] at ha), hagree⟩

end Owns

/-- An integer owns nothing. -/
theorem held_int (h : Owns m R) (i : Int) : Held m (.int i) R where
  finite := h.finite
  nodup := by
    rw [owned_held, ownedWith]
    exact (zero_add (owned R)).symm ▸ h.nodup
  alive a ha := by
    rw [owned_held, ownedWith] at ha
    rcases Multiset.mem_add.mp ha with ha | ha
    · cases ha
    · exact h.alive a ha
  keys e he := by
    rcases Multiset.mem_cons.mp he with rfl | he
    · exact ⟨_, rfl⟩
    · exact h.keys e he
  vals e he := by
    rcases Multiset.mem_cons.mp he with rfl | he
    · exact ⟨_, rfl⟩
    · exact h.vals e he

namespace Held

/-- The other entries own their strings. -/
theorem rest (h : Held m k R) : Owns m R := by
  rw [Held, ← Multiset.singleton_add] at h
  exact Owns.mono h

/-- A value that is not a string is written. -/
theorem put (h : Held m k R) (hx : x.addrs = 0) (hd : x.datum m = some d) :
    Owns m ((k, x) ::ₘ R) where
  finite := h.finite
  nodup := by
    have hn := h.nodup
    rw [owned_held] at hn
    rwa [owned_cons, hx, add_zero]
  alive a ha := by
    refine h.alive a ?_
    rwa [owned_held, ownedWith, ← add_zero k.addrs, ← hx, ← owned_cons]
  keys e he := by
    rcases Multiset.mem_cons.mp he with rfl | he
    · exact h.keys (k, ⟨0, .int⟩) (Multiset.mem_cons_self _ _)
    · exact h.keys e (Multiset.mem_cons_of_mem he)
  vals e he := by
    rcases Multiset.mem_cons.mp he with rfl | he
    · exact ⟨_, hd⟩
    · exact h.vals e (Multiset.mem_cons_of_mem he)

/-- The key can be freed. -/
theorem exists_freedKey (h : Held m k R) : ∃ m', freedKey m k = .ok m' := by
  cases k with
  | str p =>
    obtain ⟨s, hs⟩ := h.alive p (by
      rw [owned_held]
      exact Multiset.mem_add.mpr (.inl (Multiset.mem_singleton_self _)))
    exact ⟨_, if_neg (by rw [hs]; exact nofun)⟩
  | int n => exact ⟨m, rfl⟩
  | null => exact ⟨m, rfl⟩
  | nil => exact ⟨m, rfl⟩

/-- A string is created and written. -/
theorem putStr (h : Held m k R) (A : Malloc) (s : List UInt8) :
    Owns (m.set (A.run m) (some s)) ((k, ⟨A.run m, .str⟩) ::ₘ R) := by
  have hfresh := A.fresh m h.finite
  have hnot : A.run m ∉ ownedWith k R := fun hmem ↦ by
    obtain ⟨u, hu⟩ := h.alive _ (by rwa [owned_held])
    cases hfresh.symm.trans hu
  have hsame : ∀ a ∈ ownedWith k R, (m.set (A.run m) (some s)) a = m a := fun a ha ↦ by
    have hne : a ≠ A.run m := by
      rintro rfl
      exact hnot ha
    exact Function.update_of_ne hne _ _
  have hheld : Held (m.set (A.run m) (some s)) k R :=
    Owns.congr h (Holds.finite_set h.finite _ _) fun a ha ↦ hsame a (by rwa [owned_held] at ha)
  have howned : owned ((k, (⟨A.run m, .str⟩ : Value)) ::ₘ R) = A.run m ::ₘ ownedWith k R := by
    rw [owned_cons, add_right_comm, add_comm]
    rfl
  refine ⟨hheld.finite, ?_, fun a ha ↦ ?_, fun e he ↦ ?_, fun e he ↦ ?_⟩
  · have hn := h.nodup
    rw [owned_held] at hn
    rw [howned]
    exact Multiset.nodup_cons.mpr ⟨hnot, hn⟩
  · rw [howned] at ha
    rcases Multiset.mem_cons.mp ha with rfl | ha
    · exact ⟨s, Function.update_self _ _ _⟩
    · exact hheld.alive a (by rwa [owned_held])
  · rcases Multiset.mem_cons.mp he with rfl | he
    · exact hheld.keys (k, ⟨0, .int⟩) (Multiset.mem_cons_self _ _)
    · exact hheld.keys e (Multiset.mem_cons_of_mem he)
  · rcases Multiset.mem_cons.mp he with rfl | he
    · refine ⟨.str s, ?_⟩
      change ((m.set (A.run m) (some s)) (A.run m)).join.map Datum.str = _
      rw [Objects.set, Function.update_self]
      rfl
    · exact hheld.vals e (Multiset.mem_cons_of_mem he)

end Held

namespace Owns

/-- A value that may be nil is released; a key without a value is an integer. -/
theorem release_slot (h : Owns m (slotEntries k v + R)) (hk : v.tt = .nil → ∃ i, k = .int i)
    (hv : freedVal m v = .ok m') : Held m' k R ∧ ∀ a ∈ ownedWith k R, m' a = m a := by
  by_cases hnil : v.tt = .nil
  · obtain ⟨i, rfl⟩ := hk hnil
    obtain rfl := eq_of_freedVal_nil hv hnil
    rw [slotEntries_nil hnil, zero_add] at h
    exact ⟨held_int h i, fun _ _ ↦ rfl⟩
  · rw [slotEntries_used hnil, Multiset.singleton_add] at h
    exact h.release hv

/-- An entry is deleted. -/
theorem delete_slot {m₁ : Mem} (h : Owns m (slotEntries k v + R))
    (hk : v.tt = .nil → ∃ i, k = .int i) (hv : freedVal m v = .ok m₁)
    (hkey : freedKey m₁ k = .ok m') : Owns m' R ∧ ∀ a ∈ owned R, m' a = m a := by
  obtain ⟨hheld, hsame⟩ := h.release_slot hk hv
  obtain ⟨hfin, hsame'⟩ := freedKey_spec hkey
  have hn := hheld.nodup
  rw [owned_held, ownedWith, Multiset.nodup_add] at hn
  have hagree : ∀ a ∈ owned R, m' a = m₁ a := fun a ha ↦
    hsame' a fun ha' ↦ Multiset.disjoint_left.mp hn.2.2 ha' ha
  refine ⟨Owns.congr (Held.rest hheld) (hfin hheld.finite) hagree, fun a ha ↦ ?_⟩
  rw [hagree a ha, hsame a (Multiset.mem_add.mpr (.inr ha))]

/-- A value can be released. -/
theorem exists_freedVal (h : Owns m (slotEntries k v + R)) : ∃ m', freedVal m v = .ok m' := by
  unfold freedVal
  split_ifs with hv
  · have hmem : v.v.toNat ∈ owned (slotEntries k v + R) := by
      have hne : v.tt ≠ .nil := by
        rw [hv]
        exact nofun
      refine mem_owned.mpr ⟨(k, v), ?_, .inr ?_⟩
      · rw [slotEntries_used hne]
        exact Multiset.mem_add.mpr (.inl (Multiset.mem_singleton_self _))
      · rw [Value.addrs, if_pos hv]
        exact Multiset.mem_singleton_self _
    obtain ⟨s, hs⟩ := h.alive _ hmem
    exact ⟨_, if_neg (by rw [hs]; exact nofun)⟩
  · exact ⟨m, rfl⟩

/-- A new string becomes a key. -/
theorem newStr (h : Owns m E) (A : Malloc) (s : List UInt8) :
    Held (m.set (A.run m) (some s)) (.str (A.run m)) E ∧
      ∀ a ∈ owned E, (m.set (A.run m) (some s)) a = m a := by
  have hfresh := A.fresh m h.finite
  have hnot : A.run m ∉ owned E := fun hmem ↦ by
    obtain ⟨u, hu⟩ := h.alive _ hmem
    cases hfresh.symm.trans hu
  have hsame : ∀ a ∈ owned E, (m.set (A.run m) (some s)) a = m a := fun a ha ↦ by
    have hne : a ≠ A.run m := by
      rintro rfl
      exact hnot ha
    exact Function.update_of_ne hne _ _
  have h' : Owns (m.set (A.run m) (some s)) E := h.congr (Holds.finite_set h.finite _ _) hsame
  have hthere : (m.set (A.run m) (some s)) (A.run m) = some (some s) := Function.update_self _ _ _
  refine ⟨⟨h'.finite, ?_, fun a ha ↦ ?_, fun e he ↦ ?_, fun e he ↦ ?_⟩, hsame⟩
  · rw [owned_held]
    exact Multiset.nodup_cons.mpr ⟨hnot, h.nodup⟩
  · rw [owned_held] at ha
    rcases Multiset.mem_add.mp ha with ha | ha
    · rw [Multiset.mem_singleton.mp ha]
      exact ⟨s, hthere⟩
    · exact h'.alive a ha
  · rcases Multiset.mem_cons.mp he with rfl | he
    · refine ⟨.str s, ?_⟩
      rw [Key.content, hthere]
      rfl
    · exact h'.keys e he
  · rcases Multiset.mem_cons.mp he with rfl | he
    · exact ⟨_, rfl⟩
    · exact h'.vals e he

end Owns

end Dlbase.Table
