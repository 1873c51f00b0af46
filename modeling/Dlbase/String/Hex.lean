import Dlbase.String.Bounded
import Dlbase.String.Hextoi

/-!
# Hexadecimal dumps

`dl_bc2hex` writes two digits for each byte, with a prefix in front of them, and `dl_hex2bc` reads
such a text.  The reader goes on until the number of characters that are left is exactly zero, and
what it checks before is that the number of characters is even.  So it refuses an odd number of
bytes with a prefix of odd length, and it runs over the end of a text that is no multiple of what a
round takes, unless it meets a character that is no digit before.
-/

namespace Dlbase.DlString

open Cmem

/-! ## Writing -/

/-- The characters of a prefix up to its null character; a null pointer is no prefix. -/
def prefixChars (pfx : Option (List UInt8)) : List UInt8 := pfx.getD []

/-- `dl_c2hex`. -/
def c2hex (d : UInt8) : UInt8 := if d ≤ 9 then d + ch '0' else d - 10 + ch 'a'

/-- `%s%c%c`. -/
def dumpFormat : List UInt8 := [ch '%', ch 's', ch '%', ch 'c', ch '%', ch 'c']

/-- An unsigned character as an argument. -/
def charArg (c : UInt8) : Arg := .int (BitVec.ofNat 32 c.toNat)

/-- The loop of `dl_bc2hex`, with the bytes that are left; the counter is an `int`. -/
def bc2hexLoop (pfx : List UInt8) : List UInt8 → Nat → Output UInt8 → Exec (Output UInt8)
  | [], _, o => .ok o
  | c :: src, i, o => do
    let o ← sprintf o.mem o.pos dumpFormat
      [.chars pfx, charArg (c2hex (c >>> 4)), charArg (c2hex (c &&& 0xf))]
    if i + 1 = 2 ^ 31 then Exec.undef else bc2hexLoop pfx src (i + 1) o

/-- `dl_bc2hex`, with the output at `dst`. -/
def bc2hex (mem : Nat → UInt8) (dst : Nat) (src : List UInt8) (pfx : Option (List UInt8)) :
    Exec (Output UInt8) :=
  bc2hexLoop (prefixChars pfx ++ [0]) src 0 ⟨mem, dst⟩

/-! ## Reading -/

/-- `strlen(prefix)` as an `int`. -/
def prefixStep (pfx : Option (List UInt8)) : Int :=
  Int.bmod (prefixChars pfx).length (2 ^ 32)

/-- What may be read from `src + cur` on. -/
def readableAt (src : List UInt8) (cur : Int) : List UInt8 :=
  if 0 ≤ cur then src.drop cur.toNat else []

/-- The loop of `dl_hex2bc`, with the bytes that have been written.  The difference of the lengths
is a `size_t`, and the sum that is subtracted is an `int`. -/
def hex2bcLoop (src : List UInt8) (step : Int) :
    Nat → Int → Nat → List UInt8 → Exec (Option (List UInt8))
  | 0, _, _, _ => Exec.timeout
  | fuel + 1, cur, slen, dst =>
    if slen = 0 then .ok (some dst)
    else do
      let value ← hextoi (readableAt src (cur + step)) 2
      if value = dlError then pure none
      else if 2 ^ 31 ≤ 2 + step then Exec.undef
      else
        hex2bcLoop src step fuel (cur + step + 2) ((slen - (2 + step)) % 2 ^ 64).toNat
          (dst ++ [value.toUInt8])

/-- `dl_hex2bc` for a source of as many characters as `slen` says: the bytes that are written, or
nothing if a null pointer is returned. -/
def hex2bc (src : List UInt8) (pfx : Option (List UInt8)) (fuel : Nat) :
    Exec (Option (List UInt8)) :=
  if 0 < src.length ∧ src.length % 2 = 0 then
    hex2bcLoop src (prefixStep pfx) fuel 0 src.length []
  else .ok none

/-! ## Two digits -/

variable {a b c : UInt8} {l l' src dst : List UInt8} {k fuel n step x y : Nat}

theorem hextoi_two_nil : hextoi [] 2 = Exec.undef := rfl

theorem hextoi_two_cons (a : UInt8) (l : List UInt8) : hextoi (a :: l) 2 =
    (Hexadecimal.digit a).elim (.ok dlError) fun x ↦ hextoiLoop 1 l (UInt64.ofNat x) := by
  change hextoiLoop (1 + 1) (a :: l) 0 = _
  rw [hextoiLoop_cons (by decide)]
  simp only [UInt64.zero_mul, UInt64.zero_add]

/-- What becomes of two digits: they are not all there, one of them is no digit, or they are the two
halves of a byte. -/
theorem hextoi_two_cases (l : List UInt8) :
    hextoi l 2 = Exec.undef ∧ (l = [] ∨ ∃ a, l = [a] ∧ Hexadecimal.IsDigit a) ∨
    hextoi l 2 = .ok dlError ∧
      ((∃ a l', l = a :: l' ∧ ¬ Hexadecimal.IsDigit a) ∨
        ∃ a b l', l = a :: b :: l' ∧ ¬ Hexadecimal.IsDigit b) ∨
    ∃ a b l' x y, l = a :: b :: l' ∧ Hexadecimal.digit a = some x ∧ Hexadecimal.digit b = some y ∧
      hextoi l 2 = .ok (UInt64.ofNat (16 * x + y)) := by
  cases l with
  | nil => exact .inl ⟨hextoi_two_nil, .inl rfl⟩
  | cons a l =>
    rw [hextoi_two_cons]
    cases ha : Hexadecimal.digit a with
    | none =>
      refine .inr (.inl ⟨rfl, .inl ⟨a, l, rfl, ?_⟩⟩)
      rw [Hexadecimal.IsDigit, ha]
      nofun
    | some x =>
      have hx := Hexadecimal.digit_lt ha
      have hnat : (UInt64.ofNat x).toNat = x := by
        rw [UInt64.toNat_ofNat']
        exact Nat.mod_eq_of_lt (Nat.lt_trans hx (by decide))
      have hcut : ¬ cutoff < UInt64.ofNat x := not_cutoff_lt_iff.mpr (by omega)
      rw [Option.elim_some]
      cases l with
      | nil =>
        refine .inl ⟨?_, .inr ⟨a, rfl, Option.isSome_of_eq_some ha⟩⟩
        rw [hextoiLoop, if_neg hcut]
      | cons b l =>
        rw [hextoiLoop_cons hcut]
        cases hb : Hexadecimal.digit b with
        | none =>
          refine .inr (.inl ⟨rfl, .inr ⟨a, b, l, rfl, ?_⟩⟩)
          rw [Hexadecimal.IsDigit, hb]
          nofun
        | some y =>
          have hy := Hexadecimal.digit_lt hb
          refine .inr (.inr ⟨a, b, l, x, y, rfl, ha, hb, ?_⟩)
          rw [Option.elim_some, hextoiLoop]
          refine congrArg Except.ok (UInt64.toNat_inj.mp ?_)
          rw [toNat_digit (by omega), hnat, UInt64.toNat_ofNat']
          omega

/-! ## Rounds -/

/-- A character that is no digit is met before the end: the prefix in front of it takes `step`
characters, and there is none in front of the characters that are left after a round. -/
inductive Stops (step : Nat) : List UInt8 → Prop where
  /-- The first digit of a round. -/
  | first {a : UInt8} {l l' : List UInt8} : l.drop step = a :: l' → ¬ Hexadecimal.IsDigit a →
      Stops step l
  /-- The second digit of a round. -/
  | second {a b : UInt8} {l l' : List UInt8} : l.drop step = a :: b :: l' →
      ¬ Hexadecimal.IsDigit b → Stops step l
  /-- A later round. -/
  | next {a b : UInt8} {l l' : List UInt8} : l.drop step = a :: b :: l' → 2 + step < 2 ^ 31 →
      Stops step l' → Stops step l

theorem not_stops_of_nil (h : l.drop step = []) : ¬ Stops step l := by
  intro hstops
  cases hstops with
  | first h' _ => exact nomatch h.symm.trans h'
  | second h' _ => exact nomatch h.symm.trans h'
  | next h' _ _ => exact nomatch h.symm.trans h'

theorem not_stops_of_singleton (h : l.drop step = [a]) (ha : Hexadecimal.IsDigit a) :
    ¬ Stops step l := by
  intro hstops
  cases hstops with
  | first h' hna =>
    obtain ⟨rfl, -⟩ := List.cons.inj (h.symm.trans h')
    exact hna ha
  | second h' _ => exact nomatch (List.cons.inj (h.symm.trans h')).2
  | next h' _ _ => exact nomatch (List.cons.inj (h.symm.trans h')).2

/-- Two digits are read. -/
theorem stops_iff (h : l.drop step = a :: b :: l') (ha : Hexadecimal.IsDigit a)
    (hb : Hexadecimal.IsDigit b) : Stops step l ↔ 2 + step < 2 ^ 31 ∧ Stops step l' := by
  refine ⟨fun hstops ↦ ?_, fun ⟨hlt, hstops⟩ ↦ .next h hlt hstops⟩
  cases hstops with
  | first h' hna =>
    obtain ⟨rfl, -⟩ := List.cons.inj (h.symm.trans h')
    exact absurd ha hna
  | second h' hnb =>
    obtain ⟨-, htail⟩ := List.cons.inj (h.symm.trans h')
    obtain ⟨rfl, -⟩ := List.cons.inj htail
    exact absurd hb hnb
  | next h' hlt hstops =>
    obtain ⟨-, htail⟩ := List.cons.inj (h.symm.trans h')
    obtain ⟨-, rfl⟩ := List.cons.inj htail
    exact ⟨hlt, hstops⟩

/-- A round, where `l` is what is left. -/
theorem hex2bcLoop_succ (step : Nat) (hl : src.drop k = l) (hne : l ≠ []) (fuel : Nat)
    (dst : List UInt8) :
    hex2bcLoop src step (fuel + 1) k l.length dst =
      hextoi (l.drop step) 2 >>= fun value ↦
        if value = dlError then pure none
        else if 2 ^ 31 ≤ 2 + (step : Int) then Exec.undef
        else hex2bcLoop src step fuel (k + step + 2 : Nat)
          (((l.length : Int) - (2 + step)) % 2 ^ 64).toNat (dst ++ [value.toUInt8]) := by
  have hlen : l.length ≠ 0 := fun h ↦ hne (List.length_eq_zero_iff.mp h)
  have hread : readableAt src (k + step : Int) = l.drop step := by
    have hpos : 0 ≤ (k + step : Int) := by omega
    rw [readableAt, if_pos hpos, ← hl, List.drop_drop]
    rfl
  rw [hex2bcLoop, if_neg hlen, hread]
  rfl

/-- What a round does with what is left, of a source whose length is a `size_t`. -/
theorem hex2bcLoop_cases (step : Nat) (hsrc : src.length < 2 ^ 64) (hl : src.drop k = l)
    (hne : l ≠ []) :
    (∀ fuel dst, hex2bcLoop src step (fuel + 1) k l.length dst = Exec.undef) ∧
        ¬ (2 + step ≤ l.length ∧ 2 + step < 2 ^ 31) ∧ ¬ Stops step l ∨
    (∀ fuel dst, hex2bcLoop src step (fuel + 1) k l.length dst = .ok none) ∧ Stops step l ∨
    ∃ a b l' x y, l.drop step = a :: b :: l' ∧ 2 + step < 2 ^ 31 ∧
      Hexadecimal.digit a = some x ∧ Hexadecimal.digit b = some y ∧
      src.drop (k + step + 2) = l' ∧ l.length = l'.length + (2 + step) ∧
      (Stops step l ↔ Stops step l') ∧
      ∀ fuel dst, hex2bcLoop src step (fuel + 1) k l.length dst =
        hex2bcLoop src step fuel (k + step + 2 : Nat) l'.length
          (dst ++ [UInt8.ofNat (16 * x + y)]) := by
  have hround := hex2bcLoop_succ step hl hne
  have hdrop : (l.drop step).length = l.length - step := List.length_drop
  rcases hextoi_two_cases (l.drop step) with ⟨hrun, hshort⟩ | ⟨hrun, hstop⟩ |
    ⟨a, b, l', x, y, heq, ha, hb, hrun⟩
  · refine .inl ⟨fun fuel dst ↦ ?_, ?_, ?_⟩
    · rw [hround, hrun]
      rfl
    · rcases hshort with hnil | ⟨a, heq, -⟩
      · rw [hnil, List.length_nil] at hdrop
        omega
      · rw [heq, List.length_singleton] at hdrop
        omega
    · rcases hshort with hnil | ⟨a, heq, ha⟩
      · exact not_stops_of_nil hnil
      · exact not_stops_of_singleton heq ha
  · refine .inr (.inl ⟨fun fuel dst ↦ ?_, ?_⟩)
    · rw [hround, hrun]
      rfl
    · rcases hstop with ⟨a, l', heq, ha⟩ | ⟨a, b, l', heq, hb⟩
      · exact .first heq ha
      · exact .second heq hb
  · have hx := Hexadecimal.digit_lt ha
    have hy := Hexadecimal.digit_lt hb
    have hlen : l.length = l'.length + (2 + step) := by
      rw [heq, List.length_cons, List.length_cons] at hdrop
      omega
    have hle : l.length ≤ src.length := by
      rw [← hl, List.length_drop]
      omega
    have hvalue : UInt64.ofNat (16 * x + y) ≠ dlError := fun h ↦ by
      have hnat := congrArg UInt64.toNat h
      rw [UInt64.toNat_ofNat', toNat_dlError] at hnat
      omega
    have hiff := stops_iff heq (Option.isSome_of_eq_some ha) (Option.isSome_of_eq_some hb)
    by_cases hlt : 2 + step < 2 ^ 31
    · have hiff' : Stops step l ↔ Stops step l' := hiff.trans (and_iff_right hlt)
      refine .inr (.inr ⟨a, b, l', x, y, heq, hlt, ha, hb, ?_, hlen, hiff', fun fuel dst ↦ ?_⟩)
      · have hdrop' : src.drop (k + step + 2) = (l.drop step).drop 2 := by
          rw [← hl, List.drop_drop, List.drop_drop, Nat.add_assoc]
        rw [hdrop', heq]
        rfl
      · have hint : ¬ (2 ^ 31 : Int) ≤ 2 + (step : Int) := by omega
        have hslen : (((l.length : Int) - (2 + step)) % 2 ^ 64).toNat = l'.length := by omega
        have hbyte : (UInt64.ofNat (16 * x + y)).toUInt8 = UInt8.ofNat (16 * x + y) := by
          apply UInt8.toNat_inj.mp
          rw [UInt64.toNat_toUInt8, UInt64.toNat_ofNat', UInt8.toNat_ofNat']
          omega
        rw [hround, hrun, Exec.ok_bind, if_neg hvalue, if_neg hint, hslen, hbyte]
    · refine .inl ⟨fun fuel dst ↦ ?_, fun h ↦ hlt h.2, fun hstops ↦ hlt (hiff.mp hstops).1⟩
      have hint : (2 ^ 31 : Int) ≤ 2 + (step : Int) := by omega
      rw [hround, hrun, Exec.ok_bind, if_neg hvalue, if_pos hint]

theorem hex2bcLoop_nil (step : Int) (fuel : Nat) (cur : Int) (dst : List UInt8) :
    hex2bcLoop src step (fuel + 1) cur 0 dst = .ok (some dst) := by
  rw [hex2bcLoop, if_pos rfl]

theorem Stops.ne_nil (h : Stops step l) : l ≠ [] := by
  rintro rfl
  exact not_stops_of_nil List.drop_nil h

/-! ## Runs -/

/-- A null pointer is returned at a character that is no digit. -/
theorem Stops.returns (hsrc : src.length < 2 ^ 64) (hl : src.drop k = l) (h : Stops step l)
    (dst : List UInt8) :
    Returns (fun fuel ↦ hex2bcLoop src step fuel k l.length dst) none := by
  induction hn : l.length using Nat.strongRecOn generalizing k l dst with
  | ind n ih =>
    subst hn
    rcases hex2bcLoop_cases step hsrc hl h.ne_nil with ⟨-, -, hno⟩ | ⟨hrun, -⟩ |
      ⟨a, b, l', x, y, -, -, -, -, hl', hlen, hiff, hrun⟩
    · exact absurd h hno
    · exact returns_of_succ fun fuel ↦ hrun fuel dst
    · exact (ih l'.length (by omega) hl' (hiff.mp h) _ rfl).succ fun fuel ↦ hrun fuel dst

/-- The loop ends when the rounds fill what is left. -/
theorem hex2bcLoop_returns (hsrc : src.length < 2 ^ 64) (hl : src.drop k = l)
    (hlt : 2 + step < 2 ^ 31) (hdvd : 2 + step ∣ l.length) (dst : List UInt8) :
    ∃ r, Returns (fun fuel ↦ hex2bcLoop src step fuel k l.length dst) r := by
  induction hn : l.length using Nat.strongRecOn generalizing k l dst with
  | ind n ih =>
    subst hn
    by_cases hne : l = []
    · subst hne
      exact ⟨_, returns_of_succ fun fuel ↦ hex2bcLoop_nil step fuel k dst⟩
    · have hle : 2 + step ≤ l.length := Nat.le_of_dvd (List.length_pos_iff.mpr hne) hdvd
      rcases hex2bcLoop_cases step hsrc hl hne with ⟨-, hno, -⟩ | ⟨hrun, -⟩ |
        ⟨a, b, l', x, y, -, -, -, -, hl', hlen, -, hrun⟩
      · exact absurd ⟨hle, hlt⟩ hno
      · exact ⟨none, returns_of_succ fun fuel ↦ hrun fuel dst⟩
      · have hdvd' : 2 + step ∣ l'.length := by
          rw [hlen] at hdvd
          exact (Nat.dvd_add_iff_left (Nat.dvd_refl _)).mpr hdvd
        obtain ⟨r, hr⟩ := ih l'.length (by omega) hl' hdvd'
          (dst ++ [UInt8.ofNat (16 * x + y)]) rfl
        exact ⟨r, hr.succ fun fuel ↦ hrun fuel dst⟩

/-- What has happened when the loop ends: a character that is no digit has been met, or each round
has written a byte and the rounds have filled what was left. -/
theorem hex2bcLoop_ok (hsrc : src.length < 2 ^ 64) (hl : src.drop k = l) {r : Option (List UInt8)}
    (h : hex2bcLoop src step fuel k l.length dst = .ok r) :
    r = none ∧ Stops step l ∨ ∃ out n, r = some out ∧ out.length = dst.length + n ∧
      l.length = n * (2 + step) ∧ (l ≠ [] → 2 + step < 2 ^ 31) := by
  induction fuel generalizing k l dst with
  | zero => exact nomatch h
  | succ fuel ih =>
    by_cases hne : l = []
    · subst hne
      obtain rfl := Except.ok.inj ((hex2bcLoop_nil step fuel k dst).symm.trans h)
      exact .inr ⟨dst, 0, rfl, rfl, (Nat.zero_mul _).symm, fun hne ↦ absurd rfl hne⟩
    · rcases hex2bcLoop_cases step hsrc hl hne with ⟨hrun, -⟩ | ⟨hrun, hstops⟩ |
        ⟨a, b, l', x, y, -, hlt, -, -, hl', hlen, hiff, hrun⟩
      · exact nomatch (hrun fuel dst).symm.trans h
      · obtain rfl := Except.ok.inj ((hrun fuel dst).symm.trans h)
        exact .inl ⟨rfl, hstops⟩
      · rw [hrun] at h
        rcases ih hl' h with ⟨hr, hstops⟩ | ⟨out, n, hr, hout, hn, -⟩
        · exact .inl ⟨hr, hiff.mpr hstops⟩
        · refine .inr ⟨out, n + 1, hr, ?_, ?_, fun _ ↦ hlt⟩
          · rw [hout, List.length_append, List.length_singleton]
            omega
          · rw [hlen, hn, Nat.succ_mul]

/-- A prefix whose length is negative as an `int` leads in front of the source. -/
theorem hex2bcLoop_of_neg {step : Int} (h : step < 0) (hne : src ≠ []) (fuel : Nat) :
    hex2bcLoop src step (fuel + 1) 0 src.length [] = Exec.undef := by
  have hlen : src.length ≠ 0 := fun h ↦ hne (List.length_eq_zero_iff.mp h)
  have hread : readableAt src (0 + step) = [] := if_neg (by omega)
  rw [hex2bcLoop, if_neg hlen, hread]
  rfl

/-! ## Reading only the source -/

variable {pfx : Option (List UInt8)}

/-- `dl_hex2bc` ends without having read anything outside the source, and returns a null pointer if
the length of the source is no positive multiple of what a byte with its prefix takes. -/
def Hex2bcStays (src : List UInt8) (pfx : Option (List UInt8)) : Prop :=
  ∃ r, Returns (hex2bc src pfx) r ∧
    (¬ (0 < src.length ∧ (prefixChars pfx).length + 2 ∣ src.length) → r = none)

/-- The length of the source is refused at once, or the rounds meet a character that is no digit, or
they fill a source of the right length. -/
def ReadsSafely (src : List UInt8) (pfx : Option (List UInt8)) : Prop :=
  src.length = 0 ∨ src.length % 2 = 1 ∨ ∃ step : Nat, prefixStep pfx = step ∧
    (Stops step src ∨ 2 + step < 2 ^ 31 ∧ 2 + step ∣ src.length ∧
      (prefixChars pfx).length + 2 ∣ src.length)

/-- `dl_hex2bc` keeps to its source exactly when the parity check refuses the length, the rounds
meet a character that is no digit or they fill the source. -/
theorem hex2bc_stays_iff {src : List UInt8} (hsrc : src.length < 2 ^ 64)
    (pfx : Option (List UInt8)) : Hex2bcStays src pfx ↔ ReadsSafely src pfx := by
  by_cases heven : 0 < src.length ∧ src.length % 2 = 0
  · have hne : src ≠ [] := List.length_pos_iff.mp heven.1
    have hloop : hex2bc src pfx =
        fun fuel ↦ hex2bcLoop src (prefixStep pfx) fuel 0 src.length [] :=
      funext fun fuel ↦ if_pos heven
    rw [Hex2bcStays, hloop]
    refine ⟨fun ⟨r, hr, hnone⟩ ↦ .inr (.inr ?_), fun hsafe ↦ ?_⟩
    · rcases lt_or_ge (prefixStep pfx) 0 with hneg | hpos
      · obtain ⟨N, hN⟩ := hr
        exact nomatch (hex2bcLoop_of_neg hneg hne N).symm.trans (hN (N + 1) (Nat.le_succ N))
      · obtain ⟨step, hstep⟩ := Int.eq_ofNat_of_zero_le hpos
        rw [hstep] at hr
        obtain ⟨fuel, hr⟩ := hr.exists_fuel
        refine ⟨step, hstep, ?_⟩
        rcases hex2bcLoop_ok hsrc List.drop_zero hr with ⟨-, hstops⟩ | ⟨out, n, hout, -, hn, hlt⟩
        · exact .inl hstops
        · refine .inr ⟨hlt hne, Dvd.intro_left n hn.symm, ?_⟩
          by_contra hdvd
          exact nomatch (hnone fun h ↦ hdvd h.2).symm.trans hout
    · rcases hsafe with hz | hodd | ⟨step, hstep, hstops | ⟨hlt, hdvd, hmul⟩⟩
      · omega
      · omega
      · rw [hstep]
        exact ⟨none, hstops.returns hsrc List.drop_zero [], fun _ ↦ rfl⟩
      · rw [hstep]
        obtain ⟨r, hr⟩ := hex2bcLoop_returns hsrc List.drop_zero hlt hdvd []
        exact ⟨r, hr, fun hno ↦ absurd ⟨heven.1, hmul⟩ hno⟩
  · refine ⟨fun _ ↦ ?_, fun _ ↦ ⟨none, ⟨0, fun fuel _ ↦ if_neg heven⟩, fun _ ↦ rfl⟩⟩
    unfold ReadsSafely
    omega

/-- The dump of one byte with a prefix of two characters. -/
theorem hex2bc_stays_one :
    Hex2bcStays [ch '0', ch 'x', ch '4', ch '1'] (some [ch '0', ch 'x']) := by
  have hlt : [ch '0', ch 'x', ch '4', ch '1'].length < 2 ^ 64 := by decide
  have hdvd : 4 ∣ [ch '0', ch 'x', ch '4', ch '1'].length := Nat.dvd_refl 4
  exact (hex2bc_stays_iff hlt _).mpr (.inr (.inr ⟨2, rfl, .inr ⟨by decide, hdvd, hdvd⟩⟩))

/-- Two characters are taken for the prefix, and what is read lies behind them. -/
theorem not_hex2bc_stays : ¬ Hex2bcStays [ch '4', ch '1'] (some [ch '0', ch 'x']) := by
  rintro ⟨r, ⟨N, hN⟩, -⟩
  have hrun : hex2bc [ch '4', ch '1'] (some [ch '0', ch 'x']) (N + 1) = Exec.undef := rfl
  exact nomatch hrun.symm.trans (hN (N + 1) (Nat.le_succ N))

/-! ## Dumps -/

/-- What `dl_bc2hex` writes. -/
def dumpText (chars : List UInt8) (src : List UInt8) : List UInt8 :=
  src.flatMap fun c : UInt8 ↦ chars ++ [c2hex (c >>> 4), c2hex (c &&& 0xf)]

theorem dumpText_cons (chars : List UInt8) (c : UInt8) (src : List UInt8) :
    dumpText chars (c :: src) =
      chars ++ c2hex (c >>> 4) :: c2hex (c &&& 0xf) :: dumpText chars src := by
  rw [dumpText, List.flatMap_cons, List.append_assoc]
  rfl

theorem length_dumpText (chars src : List UInt8) :
    (dumpText chars src).length = src.length * (chars.length + 2) := by
  induction src with
  | nil => exact (Nat.zero_mul _).symm
  | cons c src ih =>
    rw [dumpText_cons, List.length_append, List.length_cons, List.length_cons, ih,
      List.length_cons, Nat.succ_mul]
    omega

/-- The digits are read back. -/
theorem digit_c2hex {d : UInt8} (h : d.toNat < 16) :
    Hexadecimal.digit (c2hex d) = some d.toNat := by
  have hall : ∀ i : Fin 16, Hexadecimal.digit (c2hex (UInt8.ofNat i)) = some i.val := by decide
  have hd := hall ⟨d.toNat, h⟩
  rwa [UInt8.ofNat_toNat] at hd

/-- The byte that the two digits hold. -/
theorem ofNat_halves (c : UInt8) :
    UInt8.ofNat (16 * (c >>> 4).toNat + (c &&& 0xf).toNat) = c := by
  rw [Hexadecimal.toNat_high, Hexadecimal.toNat_low, Nat.div_add_mod, UInt8.ofNat_toNat]

/-! ### Writing -/

variable {last : Nat} {o o' : Output UInt8} {fmt fmt' chars data : List UInt8}
  {args args' : List Arg}

theorem vslprintf_directive (hlt : o.pos < last)
    (h : directive last o fmt args = .ok (o', fmt', args')) :
    vslprintf last o (ch '%' :: fmt) args = vslprintf last o' fmt' args' := by
  rw [vslprintf, if_pos hlt, if_pos rfl]
  split
  · next h' =>
    obtain ⟨rfl, rfl, rfl⟩ := Prod.mk.inj (Except.ok.inj (h.symm.trans h'))
    rfl
  · next h' => cases h.symm.trans h'

theorem directive_s (last : Nat) (o : Output UInt8) (fmt data : List UInt8) (args : List Arg) :
    directive last o (ch 's' :: fmt) (.chars data :: args) =
      copyUntilNul last o data >>= fun o ↦ .ok (o, fmt, args) := by
  change ((putString last o data _ >>= fun o ↦ .ok (o, args)) >>= fun x ↦ .ok (x.1, fmt, x.2)) = _
  rw [putString, if_pos rfl]
  cases copyUntilNul last o data with
  | error e => rfl
  | ok o => rfl

theorem directive_c (last : Nat) (o : Output UInt8) (fmt : List UInt8) (c : UInt8)
    (args : List Arg) :
    directive last o (ch 'c' :: fmt) (charArg c :: args) = .ok (o.put c, fmt, args) := by
  have hc : UInt8.ofNat ((BitVec.ofNat 32 c.toNat).toNat % 256) = c := by
    have hlt := c.toNat_lt
    apply UInt8.toNat_inj.mp
    rw [BitVec.toNat_ofNat, UInt8.toNat_ofNat']
    omega
  change Except.ok (o.put (UInt8.ofNat ((BitVec.ofNat 32 c.toNat).toNat % 256)), fmt, args) = _
  rw [hc]

/-- A string with room for all of it. -/
theorem copyUntilNul_eq (hchars : 0 ∉ chars) (hroom : o.pos + chars.length ≤ last) :
    copyUntilNul last o (chars ++ [0]) = .ok (o.write chars) := by
  induction chars generalizing o with
  | nil =>
    have hnul : ¬ ((0 : UInt8) ≠ 0 ∧ o.pos < last) := fun h ↦ h.1 rfl
    exact if_neg hnul
  | cons c chars ih =>
    rw [List.length_cons] at hroom
    have hc : c ≠ 0 ∧ o.pos < last := by
      refine ⟨?_, by omega⟩
      rintro rfl
      exact hchars List.mem_cons_self
    rw [List.cons_append, copyUntilNul, if_pos hc, Output.write_cons]
    refine ih (fun h ↦ hchars (List.mem_cons_of_mem _ h)) ?_
    rw [Output.pos_put]
    omega

/-- One byte of a dump. -/
theorem sprintf_dump (mem : Nat → UInt8) {pos : Nat} (hchars : 0 ∉ chars)
    (hroom : pos + (chars.length + 2) < 2 ^ 64) (a b : UInt8) :
    sprintf mem pos dumpFormat [.chars (chars ++ [0]), charArg a, charArg b] =
      .ok (Output.write ⟨mem, pos⟩ (chars ++ [a, b])) := by
  have hcopy : copyUntilNul (2 ^ 64 - 1) ⟨mem, pos⟩ (chars ++ [0]) =
      .ok (Output.write ⟨mem, pos⟩ chars) := copyUntilNul_eq hchars (by dsimp only; omega)
  have hpos : (Output.write ⟨mem, pos⟩ chars).pos = pos + chars.length := Output.pos_write _ _
  have hs : directive (2 ^ 64 - 1) ⟨mem, pos⟩ (ch 's' :: [ch '%', ch 'c', ch '%', ch 'c'])
      [.chars (chars ++ [0]), charArg a, charArg b] =
        .ok (Output.write ⟨mem, pos⟩ chars, [ch '%', ch 'c', ch '%', ch 'c'],
          [charArg a, charArg b]) := by
    rw [directive_s, hcopy]
    rfl
  have ha : ((Output.write ⟨mem, pos⟩ chars).put a).pos = pos + chars.length + 1 := by
    rw [Output.pos_put, hpos]
  rw [sprintf, dumpFormat, vslprintf_directive (by dsimp only; omega) hs,
    vslprintf_directive (by omega) (directive_c _ _ _ a _),
    vslprintf_directive (by omega) (directive_c _ _ _ b _), vslprintf, Output.write_append]
  rfl

/-- The text of the bytes that are left is written, as far as the counter goes. -/
theorem bc2hexLoop_eq (hchars : 0 ∉ chars) {i : Nat} (hi : i + src.length < 2 ^ 31)
    (hroom : o.pos + src.length * (chars.length + 2) < 2 ^ 64) :
    bc2hexLoop (chars ++ [0]) src i o = .ok (o.write (dumpText chars src)) := by
  induction src generalizing i o with
  | nil => rfl
  | cons c src ih =>
    rw [List.length_cons] at hi
    rw [List.length_cons, Nat.succ_mul] at hroom
    have hne : ¬ i + 1 = 2 ^ 31 := by omega
    have htext : dumpText chars (c :: src) =
        (chars ++ [c2hex (c >>> 4), c2hex (c &&& 0xf)]) ++ dumpText chars src := by
      rw [dumpText_cons, List.append_assoc]
      rfl
    have hpos : (o.write (chars ++ [c2hex (c >>> 4), c2hex (c &&& 0xf)])).pos +
        src.length * (chars.length + 2) < 2 ^ 64 := by
      rw [Output.pos_write, List.length_append]
      change o.pos + (chars.length + 2) + _ < _
      omega
    rw [bc2hexLoop, sprintf_dump o.mem hchars (by omega), Exec.ok_bind, if_neg hne, htext]
    have hi' : i + 1 + src.length < 2 ^ 31 := by omega
    refine (ih hi' hpos).trans ?_
    rw [← Output.write_append]

/-- The counter keeps to an `int`. -/
theorem bc2hexLoop_ok {i : Nat} (hi : i < 2 ^ 31) (h : bc2hexLoop chars src i o = .ok o') :
    i + src.length < 2 ^ 31 := by
  induction src generalizing i o with
  | nil => exact hi
  | cons c src ih =>
    obtain ⟨o₁, -, h⟩ := Exec.bind_eq_ok.mp h
    by_cases hlast : i + 1 = 2 ^ 31
    · rw [if_pos hlast] at h
      exact nomatch h
    · rw [if_neg hlast] at h
      have hlt := ih (by omega) h
      rw [List.length_cons]
      omega

/-! ### Reading -/

theorem drop_dumpText (chars : List UInt8) (c : UInt8) (src : List UInt8) :
    (dumpText chars (c :: src)).drop chars.length =
      c2hex (c >>> 4) :: c2hex (c &&& 0xf) :: dumpText chars src := by
  rw [dumpText_cons]
  exact List.drop_left

theorem not_stops_dumpText (chars src : List UInt8) :
    ¬ Stops chars.length (dumpText chars src) := by
  induction src with
  | nil => exact not_stops_of_nil List.drop_nil
  | cons c src ih =>
    have hhigh := Option.isSome_of_eq_some (digit_c2hex (Hexadecimal.high_lt c))
    have hlow := Option.isSome_of_eq_some (digit_c2hex (Hexadecimal.low_lt c))
    rw [stops_iff (drop_dumpText chars c src) hhigh hlow]
    exact fun h ↦ ih h.2

/-- The text of the bytes that are left is read back. -/
theorem hex2bcLoop_dumpText (hsrc : src.length < 2 ^ 64) (hlt : 2 + chars.length < 2 ^ 31)
    {bytes : List UInt8} (hk : src.drop k = dumpText chars bytes) (dst : List UInt8) :
    Returns (fun fuel ↦ hex2bcLoop src chars.length fuel k (dumpText chars bytes).length dst)
      (some (dst ++ bytes)) := by
  induction bytes generalizing k dst with
  | nil =>
    rw [List.append_nil]
    exact returns_of_succ fun fuel ↦ hex2bcLoop_nil _ fuel k dst
  | cons c bytes ih =>
    have hlen : (dumpText chars (c :: bytes)).length =
        bytes.length * (chars.length + 2) + (chars.length + 2) := by
      rw [length_dumpText, List.length_cons, Nat.succ_mul]
    have hne : dumpText chars (c :: bytes) ≠ [] := fun h ↦ by
      rw [h, List.length_nil] at hlen
      omega
    rcases hex2bcLoop_cases chars.length hsrc hk hne with ⟨-, hno, -⟩ | ⟨-, hstops⟩ |
      ⟨a, b, l', x, y, heq, -, ha, hb, hl', -, -, hrun⟩
    · exact absurd ⟨by omega, hlt⟩ hno
    · exact absurd hstops (not_stops_dumpText chars (c :: bytes))
    · rw [drop_dumpText] at heq
      obtain ⟨rfl, htail⟩ := List.cons.inj heq
      obtain ⟨rfl, rfl⟩ := List.cons.inj htail
      obtain rfl := Option.some.inj ((digit_c2hex (Hexadecimal.high_lt c)).symm.trans ha)
      obtain rfl := Option.some.inj ((digit_c2hex (Hexadecimal.low_lt c)).symm.trans hb)
      rw [ofNat_halves] at hrun
      have hrest := ih hl' (dst ++ [c])
      rw [List.append_assoc] at hrest
      exact hrest.succ fun fuel ↦ hrun fuel dst

/-! ### The round trip -/

/-- `dl_hex2bc` with the same prefix gives back the bytes of the text that `dl_bc2hex` writes. -/
def HexRoundTrip (mem : Nat → UInt8) (dst : Nat) (src : List UInt8)
    (pfx : Option (List UInt8)) : Prop :=
  ∃ o, bc2hex mem dst src pfx = .ok o ∧
    Returns (hex2bc (Output.itemsAt o.mem dst (o.pos - dst)) pfx) (some src)

/-- What `dl_bc2hex` leaves in memory. -/
theorem bc2hex_eq (mem : Nat → UInt8) {pos : Nat} (hnul : 0 ∉ prefixChars pfx)
    (hsrc : src.length < 2 ^ 31)
    (hroom : pos + src.length * ((prefixChars pfx).length + 2) < 2 ^ 64) :
    ∃ o, bc2hex mem pos src pfx = .ok o ∧
      Output.itemsAt o.mem pos (o.pos - pos) = dumpText (prefixChars pfx) src := by
  have hrun := bc2hexLoop_eq (o := ⟨mem, pos⟩) (i := 0) hnul (by omega) hroom
  refine ⟨_, hrun, ?_⟩
  have hitems := Output.itemsAt_write ⟨mem, pos⟩ (dumpText (prefixChars pfx) src)
  have hpos : pos + (dumpText (prefixChars pfx) src).length - pos =
      (dumpText (prefixChars pfx) src).length := Nat.add_sub_cancel_left _ _
  rw [Output.pos_write, hpos]
  exact hitems

theorem prefixStep_eq (h : (prefixChars pfx).length < 2 ^ 31) :
    prefixStep pfx = (prefixChars pfx).length := by
  have hlt : ((prefixChars pfx).length : Int) * 2 < (2 ^ 32 : Nat) := by omega
  exact Int.bmod_eq_of_le_mul_two (by omega) hlt

/-- The reader takes a text whose length is even, if the length of a prefix with two digits is an
`int`. -/
theorem hex2bc_dumpText (hne : src ≠ []) (hlt : 2 + (prefixChars pfx).length < 2 ^ 31)
    (hsize : src.length * ((prefixChars pfx).length + 2) < 2 ^ 64)
    (heven : src.length * ((prefixChars pfx).length + 2) % 2 = 0) :
    Returns (hex2bc (dumpText (prefixChars pfx) src) pfx) (some src) := by
  have hlen := length_dumpText (prefixChars pfx) src
  have hpos : 0 < src.length * ((prefixChars pfx).length + 2) :=
    Nat.mul_pos (List.length_pos_iff.mpr hne) (Nat.succ_pos _)
  rw [← hlen] at hsize heven hpos
  have hstep : prefixStep pfx = (prefixChars pfx).length := prefixStep_eq (by omega)
  have hloop : hex2bc (dumpText (prefixChars pfx) src) pfx =
      fun fuel ↦ hex2bcLoop (dumpText (prefixChars pfx) src) (prefixChars pfx).length fuel
        (0 : Nat) (dumpText (prefixChars pfx) src).length [] := by
    funext fuel
    rw [hex2bc, if_pos ⟨hpos, heven⟩, hstep]
    rfl
  rw [hloop]
  exact hex2bcLoop_dumpText hsize hlt List.drop_zero []

/-- What follows when the reader gives as many bytes as have been written. -/
theorem of_hex2bc_dumpText (hne : src ≠ [])
    (hsize : src.length * ((prefixChars pfx).length + 2) < 2 ^ 64)
    (h : Returns (hex2bc (dumpText (prefixChars pfx) src) pfx) (some src)) :
    2 + (prefixChars pfx).length < 2 ^ 31 ∧
      src.length * ((prefixChars pfx).length + 2) % 2 = 0 := by
  have hlen := length_dumpText (prefixChars pfx) src
  have hpos : 0 < src.length := List.length_pos_iff.mpr hne
  have htext : 0 < (dumpText (prefixChars pfx) src).length := by
    rw [hlen]
    exact Nat.mul_pos hpos (Nat.succ_pos _)
  rw [← hlen] at hsize
  by_cases heven : 0 < (dumpText (prefixChars pfx) src).length ∧
      (dumpText (prefixChars pfx) src).length % 2 = 0
  · refine ⟨?_, hlen ▸ heven.2⟩
    obtain ⟨N, hN⟩ := h
    have hrun := hN (N + 1) (Nat.le_succ N)
    rw [hex2bc, if_pos heven] at hrun
    rcases lt_or_ge (prefixStep pfx) 0 with hneg | hge
    · rw [hex2bcLoop_of_neg hneg (List.length_pos_iff.mp htext)] at hrun
      exact nomatch hrun
    · obtain ⟨step, hstep⟩ := Int.eq_ofNat_of_zero_le hge
      rw [hstep] at hrun
      rcases hex2bcLoop_ok hsize List.drop_zero hrun with ⟨hr, -⟩ | ⟨out, n, hout, hn, hmul, hlt⟩
      · exact nomatch hr
      · obtain rfl := Option.some.inj hout
        rw [List.length_nil, Nat.zero_add] at hn
        have hlt' := hlt (List.length_pos_iff.mp htext)
        -- as many rounds as bytes, so the prefix is as long as the code takes it to be
        rw [hlen, ← hn] at hmul
        have heq := Nat.eq_of_mul_eq_mul_left hpos hmul
        omega
  · obtain ⟨N, hN⟩ := h
    have hrun := hN N (Nat.le_refl N)
    rw [hex2bc, if_neg heven] at hrun
    exact nomatch hrun

theorem mul_even_iff (n p : Nat) : n * (p + 2) % 2 = 0 ↔ p % 2 = 0 ∨ n % 2 = 0 := by
  have hmod : n * (p + 2) % 2 = n % 2 * (p % 2) % 2 := by
    rw [Nat.mul_mod, Nat.add_mod_right]
  rcases Nat.mod_two_eq_zero_or_one n with hn | hn
  · rw [hmod, hn, Nat.zero_mul]
    simp only [or_true]
  · rw [hmod, hn, Nat.one_mul, Nat.mod_mod]
    omega

/-- For a buffer that is long enough, the round trip gives back the bytes exactly when their number
is an `int`, the length of a prefix with two digits is one, and the text has an even length. -/
theorem hex_round_trip_iff (mem : Nat → UInt8) {dst : Nat} {src : List UInt8}
    {pfx : Option (List UInt8)} (hne : src ≠ []) (hnul : 0 ∉ prefixChars pfx)
    (hroom : dst + src.length * ((prefixChars pfx).length + 2) < 2 ^ 64) :
    HexRoundTrip mem dst src pfx ↔ src.length < 2 ^ 31 ∧
      2 + (prefixChars pfx).length < 2 ^ 31 ∧
        ((prefixChars pfx).length % 2 = 0 ∨ src.length % 2 = 0) := by
  have hsize : src.length * ((prefixChars pfx).length + 2) < 2 ^ 64 := by omega
  rw [← mul_even_iff]
  refine ⟨fun ⟨o, ho, hread⟩ ↦ ?_, fun ⟨hsrc, hlt, heven⟩ ↦ ?_⟩
  · have hsrc : 0 + src.length < 2 ^ 31 := bc2hexLoop_ok (by decide) ho
    rw [Nat.zero_add] at hsrc
    obtain ⟨o', ho', htext⟩ := bc2hex_eq mem hnul hsrc hroom
    obtain rfl := Except.ok.inj (ho.symm.trans ho')
    rw [htext] at hread
    exact ⟨hsrc, of_hex2bc_dumpText hne hsize hread⟩
  · obtain ⟨o, ho, htext⟩ := bc2hex_eq mem hnul hsrc hroom
    refine ⟨o, ho, ?_⟩
    rw [htext]
    exact hex2bc_dumpText hne hlt hsize heven

/-- Two bytes with a prefix of one character. -/
theorem hex_round_trip_two : HexRoundTrip (fun _ ↦ 0) 0 [65, 66] (some [ch 'x']) :=
  (hex_round_trip_iff (fun _ ↦ 0) (List.cons_ne_nil 65 [66]) (by decide) (by decide)).mpr
    (by decide)

/-- The dump of one byte with a prefix of one character is refused. -/
theorem not_hex_round_trip : ¬ HexRoundTrip (fun _ ↦ 0) 0 [65] (some [ch 'x']) := by
  rintro ⟨o, ho, N, hN⟩
  have hnul : 0 ∉ prefixChars (some [ch 'x']) := by decide
  have hsrc : [(65 : UInt8)].length < 2 ^ 31 := by decide
  obtain ⟨o', ho', htext⟩ := bc2hex_eq (fun _ ↦ 0) hnul hsrc (show 0 + 1 * 3 < 2 ^ 64 by decide)
  obtain rfl := Except.ok.inj (ho.symm.trans ho')
  have hrun := hN N (Nat.le_refl N)
  rw [htext] at hrun
  exact nomatch hrun

end Dlbase.DlString
