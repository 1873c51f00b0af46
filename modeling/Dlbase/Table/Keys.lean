import Dlbase.Table.Layout

/-!
# Keys

What a key stands for, and which keys the loops over chains take for the same one.  A string is
compared by as many characters as the string that is looked for has, so that a longer one that
begins with it is found as well.
-/

namespace Dlbase.Table

open Cmem

/-- What a key stands for. -/
inductive Content where
  /-- An integer. -/
  | int (n : Int)
  /-- A string. -/
  | str (s : List UInt8)
deriving DecidableEq, Repr

/-- What the key stands for in memory. -/
def Key.content (m : Mem) : Key → Option Content
  | int n => some (.int n)
  | str p => (m p).join.map .str
  | _ => none

/-- The test for a string. -/
def testStr (m : Mem) (s : List UInt8) : Key → Exec Bool
  | .str p => do
    let u ← loadStr m p
    Hash.memcmpEq u s
  | _ => .ok false

/-- The test for an integer. -/
def testInt (n : Int) (k : Key) : Exec Bool := .ok (decide (k = .int n))

/-- The test for what a key stands for. -/
def Content.test (m : Mem) : Content → Key → Exec Bool
  | int n => testInt n
  | str s => testStr m s

/-- The position in the node part that it leads to. -/
def Content.pos (t : DlTable) : Content → Nat
  | int n => hashnum t n
  | str s => hashstr t s

/-- Finding a key by what it stands for. -/
def find (fuel : Nat) (t : DlTable) : Content → Exec (Option Loc)
  | .int n => findByIndex fuel t n
  | .str s => findByStr fuel t s

/-- The second one is a string that begins with the first one, or they are equal. -/
def Content.Begins : Content → Content → Prop
  | str s, str u => s <+: u
  | c, d => c = d

/-- No two of the keys stand for the same thing, and no string begins with another one. -/
def Apart (m : Mem) (K : Multiset Key) : Prop :=
  (K.map (Key.content m)).Nodup ∧ ∀ a ∈ K, ∀ b ∈ K, ∀ c d, a.content m = some c →
    b.content m = some d → c.Begins d → c = d

/-- Instead of the entries `E` there are the entries `E'`: no key and no value has been added, and
nothing has changed if the keys are told apart. -/
structure Kept (m : Mem) (E E' : Entries) : Prop where
  /-- The keys have been there. -/
  keys : E'.map Prod.fst ≤ E.map Prod.fst
  /-- The values have been there. -/
  vals : E'.map Prod.snd ≤ E.map Prod.snd
  /-- Usually nothing has changed. -/
  exact : Apart m (E.map Prod.fst) → E' = E

variable {m : Mem} {t t' : DlTable} {k key : Key} {E E' E'' T : Entries} {s : List UInt8} {p : Nat}

/-! ## Strings -/

theorem loadStr_eq_ok : loadStr m p = .ok s ↔ m p = some (some s) := by
  rw [loadStr, Objects.get]
  rcases m p with - | - | u <;> simp

theorem content_str (h : loadStr m p = .ok s) : (Key.str p).content m = some (.str s) := by
  rw [loadStr_eq_ok] at h
  rw [Key.content, h]
  rfl

theorem memcmpEq_true {u : List UInt8} (h : Hash.memcmpEq u s = .ok true) : s <+: u := by
  induction u generalizing s with
  | nil =>
    cases s with
    | nil => exact List.nil_prefix
    | cons d s => cases h
  | cons c u ih =>
    cases s with
    | nil => exact List.nil_prefix
    | cons d s =>
      rw [Hash.memcmpEq] at h
      split_ifs at h with hc
      · exact List.cons_prefix_cons.mpr ⟨hc.symm, ih h⟩
      · cases h

theorem memcmpEq_self (s : List UInt8) : Hash.memcmpEq s s = .ok true := by
  induction s with
  | nil => rfl
  | cons c s ih => rw [Hash.memcmpEq, if_pos rfl, ih]

/-- Strings can be compared unless the stored one ends before the other one. -/
theorem exists_memcmpEq {u : List UInt8} (h : u <+: s → u = s) :
    ∃ b, Hash.memcmpEq u s = .ok b := by
  induction u generalizing s with
  | nil =>
    obtain rfl := h List.nil_prefix
    exact ⟨true, rfl⟩
  | cons c u ih =>
    cases s with
    | nil => exact ⟨true, rfl⟩
    | cons d s =>
      rw [Hash.memcmpEq]
      split_ifs with hc
      · exact ih fun hpre ↦ (List.cons.inj (h (List.cons_prefix_cons.mpr ⟨hc, hpre⟩))).2
      · exact ⟨false, rfl⟩

/-- No loop over strings is without end. -/
theorem memcmpEq_ne_timeout (u s : List UInt8) : Hash.memcmpEq u s ≠ Exec.timeout := by
  induction u generalizing s with
  | nil => cases s <;> exact nofun
  | cons c u ih =>
    cases s with
    | nil => exact nofun
    | cons d s =>
      rw [Hash.memcmpEq]
      split_ifs
      · exact ih s
      · exact nofun

/-! ## Tests -/

theorem testStr_true (h : testStr m s k = .ok true) :
    ∃ u, k.content m = some (.str u) ∧ s <+: u := by
  cases k with
  | str p =>
    obtain ⟨u, hu, h⟩ := Exec.bind_eq_ok.mp h
    exact ⟨u, content_str hu, memcmpEq_true h⟩
  | null => cases h
  | nil => cases h
  | int n => cases h

theorem testStr_false (h : testStr m s k = .ok false) : k.content m ≠ some (.str s) := by
  cases k with
  | str p =>
    obtain ⟨u, hu, h⟩ := Exec.bind_eq_ok.mp h
    rw [content_str hu]
    intro heq
    obtain rfl := Content.str.inj (Option.some.inj heq)
    rw [memcmpEq_self] at h
    cases h
  | null => exact nofun
  | nil => exact nofun
  | int n => exact nofun

theorem testInt_true {n : Int} (h : testInt n k = .ok true) : k = .int n :=
  of_decide_eq_true (Except.ok.inj h)

theorem testInt_false {n : Int} (h : testInt n k = .ok false) : k ≠ .int n :=
  of_decide_eq_false (Except.ok.inj h)

theorem content_int {n : Int} (h : k.content m = some (.int n)) : k = .int n := by
  cases k with
  | int n' => exact congrArg Key.int (Content.int.inj (Option.some.inj h))
  | null => cases h
  | nil => cases h
  | str p =>
    obtain ⟨u, -, hu⟩ := Option.map_eq_some_iff.mp h
    cases hu

/-- A key that stands for a string is the address of the string. -/
theorem exists_of_content_str (h : k.content m = some (.str s)) :
    ∃ p, k = .str p ∧ loadStr m p = .ok s := by
  cases k with
  | str p =>
    obtain ⟨u, hu, hs⟩ := Option.map_eq_some_iff.mp h
    obtain rfl := Content.str.inj hs
    exact ⟨p, rfl, loadStr_eq_ok.mpr (Option.join_eq_some_iff.mp hu)⟩
  | int n => cases h
  | null => cases h
  | nil => cases h

theorem Content.test_true {c : Content} (h : c.test m k = .ok true) :
    ∃ d, k.content m = some d ∧ c.Begins d := by
  cases c with
  | int n =>
    rw [testInt_true h]
    exact ⟨_, rfl, rfl⟩
  | str s =>
    obtain ⟨u, hu, hpre⟩ := testStr_true h
    exact ⟨_, hu, hpre⟩

theorem Content.test_false {c : Content} (h : c.test m k = .ok false) : k.content m ≠ some c := by
  cases c with
  | int n => exact fun heq ↦ testInt_false h (content_int heq)
  | str s => exact testStr_false h

/-- The test can be made unless it would read beyond the end of a stored string. -/
theorem Content.exists_test {c d : Content} (hk : k.content m = some d)
    (h : d.Begins c → d = c) : ∃ b, c.test m k = .ok b := by
  cases c with
  | int n => exact ⟨_, rfl⟩
  | str s =>
    cases d with
    | int n =>
      rw [content_int hk]
      exact ⟨false, rfl⟩
    | str u =>
      obtain ⟨p, rfl, hp⟩ := exists_of_content_str hk
      obtain ⟨b, hb⟩ := exists_memcmpEq fun hpre ↦ Content.str.inj (h hpre)
      refine ⟨b, ?_⟩
      rw [Content.test, testStr, hp]
      exact hb

/-- The test for a key succeeds with the key itself. -/
theorem Content.test_self {c : Content} (h : key.content m = some c) : c.test m key = .ok true := by
  cases c with
  | int k =>
    rw [content_int h]
    exact congrArg Except.ok (decide_eq_true rfl)
  | str s =>
    obtain ⟨q, rfl, hq⟩ := exists_of_content_str h
    rw [Content.test, testStr, hq]
    exact memcmpEq_self s

theorem Content.test_ne_timeout (m : Mem) (c : Content) (k : Key) : c.test m k ≠ Exec.timeout := by
  cases c with
  | int n => exact nofun
  | str s =>
    cases k with
    | str p =>
      intro h
      rcases Exec.bind_eq_timeout.mp h with h | ⟨u, -, h⟩
      · unfold loadStr at h
        rcases Exec.bind_eq_timeout.mp h with h | ⟨o, -, h⟩
        · unfold Objects.get at h
          split at h <;> cases h
        · cases o <;> cases h
      · exact memcmpEq_ne_timeout u s h
    | int n => exact nofun
    | null => exact nofun
    | nil => exact nofun

/-- Free nodes and `_dummynode` are not found. -/
theorem Content.test_nil (m : Mem) (c : Content) : c.test m .nil = .ok false := by cases c <;> rfl

theorem Content.test_null (m : Mem) (c : Content) : c.test m .null = .ok false := by cases c <;> rfl

/-- The main position depends on what the key stands for. -/
theorem mainPos_eq {c : Content} (hk : k.content t.mem = some c) : mainPos t k = .ok (c.pos t) := by
  cases c with
  | int n =>
    rw [content_int hk]
    rfl
  | str s =>
    obtain ⟨p, rfl, hp⟩ := exists_of_content_str hk
    rw [mainPos, hp]
    rfl

/-- A key is found by what it stands for. -/
theorem findL_eq {c : Content} {fuel : Nat} (hk : k.content t.mem = some c) :
    findL fuel t k = find fuel t c := by
  cases c with
  | int n =>
    rw [content_int hk]
    rfl
  | str s =>
    obtain ⟨p, rfl, hp⟩ := exists_of_content_str hk
    rw [findL, hp]
    rfl

/-- Positions are those of nodes. -/
theorem Content.pos_lt (t : DlTable) (c : Content) : c.pos t < t.sizenode := by
  cases c with
  | int n => exact mainPos_lt (show mainPos t (.int n) = _ from rfl)
  | str s => exact Nat.mod_lt _ (sizenode_pos t)

theorem Content.pos_congr (c : Content) (h : t'.lsizenode = t.lsizenode) : c.pos t' = c.pos t := by
  have hsize : t'.sizenode = t.sizenode := congrArg (2 ^ ·) h
  cases c with
  | int k => rw [Content.pos, Content.pos, hashnum, hashnum, hsize]
  | str s => rw [Content.pos, Content.pos, hashstr, hashstr, hsize]

/-- A key with a main position stands for something. -/
theorem exists_content (h : mainPos t key = .ok p) : ∃ c, key.content t.mem = some c := by
  cases key with
  | int n => exact ⟨_, rfl⟩
  | str q =>
    obtain ⟨s, hs, -⟩ := Exec.bind_eq_ok.mp h
    exact ⟨_, content_str hs⟩
  | null => cases h
  | nil => cases h

/-! ## Keys that are told apart -/

theorem Apart.mono {K K' : Multiset Key} (h : Apart m K) (hle : K' ≤ K) : Apart m K' :=
  ⟨Multiset.nodup_of_le (Multiset.map_le_map hle) h.1, fun a ha b hb ↦
    h.2 a (Multiset.mem_of_le hle ha) b (Multiset.mem_of_le hle hb)⟩

/-- Only what the keys stand for matters. -/
theorem Apart.congr {m' : Mem} {K : Multiset Key} (h : Apart m K)
    (hm : ∀ a ∈ K, a.content m' = a.content m) : Apart m' K := by
  refine ⟨?_, fun a ha b hb c d hc hd ↦ ?_⟩
  · rw [Multiset.map_congr rfl hm]
    exact h.1
  · rw [hm a ha] at hc
    rw [hm b hb] at hd
    exact h.2 a ha b hb c d hc hd

/-- A key that is told apart from others is not found under one of them. -/
theorem Apart.not_begins {K : Multiset Key} (h : Apart m (key ::ₘ K)) (hk : k ∈ K) {c d : Content}
    (hc : key.content m = some c) (hd : k.content m = some d) : ¬ c.Begins d := fun hb ↦ by
  have heq := h.2 key (Multiset.mem_cons_self _ _) k (Multiset.mem_cons_of_mem hk) c d hc hd hb
  have hn := h.1
  rw [Multiset.map_cons, Multiset.nodup_cons] at hn
  refine hn.1 (Multiset.mem_map.mpr ⟨k, hk, ?_⟩)
  rw [hd, hc, heq]

theorem Content.begins_refl (c : Content) : c.Begins c := by
  cases c with
  | int n => rfl
  | str s => exact List.prefix_refl s

namespace Kept

theorem refl (E : Entries) : Kept m E E := ⟨le_rfl, le_rfl, fun _ ↦ rfl⟩

theorem trans (h : Kept m E E') (h' : Kept m E' E'') : Kept m E E'' where
  keys := h'.keys.trans h.keys
  vals := h'.vals.trans h.vals
  exact ha := by
    have heq := h.exact ha
    rw [h'.exact (ha.mono h.keys), heq]

theorem add (T : Entries) (h : Kept m E E') : Kept m (T + E) (T + E') where
  keys := by
    rw [Multiset.map_add, Multiset.map_add]
    exact Multiset.add_le_add_left h.keys
  vals := by
    rw [Multiset.map_add, Multiset.map_add]
    exact Multiset.add_le_add_left h.vals
  exact ha := by
    rw [Multiset.map_add] at ha
    rw [h.exact (ha.mono (Multiset.le_add_left _ _))]

theorem congr {m' : Mem} (h : Kept m E E')
    (hm : ∀ a ∈ E.map Prod.fst, a.content m' = a.content m) : Kept m' E E' :=
  ⟨h.keys, h.vals, fun ha ↦ h.exact (ha.congr fun a hk ↦ (hm a hk).symm)⟩

/-- The value of a key that is not told apart from the new one is overwritten. -/
theorem overwrite {v x : Value} (h : ¬ Apart m (key ::ₘ k ::ₘ T.map Prod.fst)) :
    Kept m ((key, x) ::ₘ (k, v) ::ₘ T) ((k, x) ::ₘ T) where
  keys := by
    rw [Multiset.map_cons, Multiset.map_cons, Multiset.map_cons]
    exact Multiset.le_cons_self _ _
  vals := by
    rw [Multiset.map_cons, Multiset.map_cons, Multiset.map_cons]
    exact Multiset.cons_le_cons _ (Multiset.le_cons_self _ _)
  exact ha := by
    rw [Multiset.map_cons, Multiset.map_cons] at ha
    exact absurd ha h

end Kept

end Dlbase.Table
