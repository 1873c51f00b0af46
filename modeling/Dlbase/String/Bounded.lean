import Dlbase.String.Format

/-!
# Bounded formatting is a prefix of unbounded formatting

Each part of a format has an output of its own, and whatever the limit is, the code writes that
output as far as it fits.
-/

namespace Dlbase.DlString

open Cmem

variable {last : Nat} {o : Output UInt8} {u w : List UInt8}

/-- The output `w` or the limit is in the lower half of the address space. -/
def Room (last : Nat) (o : Output UInt8) (w : List UInt8) : Prop :=
  o.pos + w.length ≤ 2 ^ 63 ∨ last ≤ 2 ^ 63

theorem Room.left (h : Room last o (u ++ w)) : Room last o u := by
  unfold Room at *
  rw [List.length_append] at h
  omega

theorem Room.right (h : Room last o (u ++ w)) : Room last (o.emit last u) w := by
  have hle : (o.emit last u).pos ≤ o.pos + u.length := Output.pos_emit_le_add
  unfold Room at *
  rw [List.length_append] at h
  omega

/-- The code writes `w`, cut off at the limit. -/
def Writes (run : Nat → Output UInt8 → Exec (Output UInt8)) (w : List UInt8) : Prop :=
  ∀ last o, last < 2 ^ 64 → o.pos ≤ last → Room last o w → run last o = .ok (o.emit last w)

/-- The same if there is room for one character at least. -/
def WritesIn (run : Nat → Output UInt8 → Exec (Output UInt8)) (w : List UInt8) : Prop :=
  ∀ last o, last < 2 ^ 64 → o.pos < last → Room last o w → run last o = .ok (o.emit last w)

theorem Writes.writesIn {run : Nat → Output UInt8 → Exec (Output UInt8)} (h : Writes run w) :
    WritesIn run w := fun last o hlast hlt hroom ↦ h last o hlast (Nat.le_of_lt hlt) hroom

/-! ## Strings -/

theorem cpymem_eq {data : List UInt8} {n : Nat} (hn : n ≤ data.length) :
    cpymem o data n = .ok (o.write (data.take n)) := if_pos hn

/-- A string with a length. -/
theorem writes_cpymem {data : List UInt8} {n : Nat} (hn : n ≤ data.length) :
    Writes (fun last o ↦ cpymem o data (min (Pool.subSize last o.pos) n)) (data.take n) := by
  intro last o hlast hle _
  change cpymem o data (min (Pool.subSize last o.pos) n) = _
  rw [Pool.subSize_eq hle hlast, cpymem_eq (Nat.le_trans (Nat.min_le_right _ _) hn), Output.emit,
    List.take_take]

/-- A string up to its null character. -/
theorem writes_copyUntilNul {data : List UInt8} (h : 0 ∈ data) :
    Writes (fun last o ↦ copyUntilNul last o data) (data.takeWhile (· ≠ 0)) := by
  intro last o hlast hle hroom
  induction data generalizing o with
  | nil => cases h
  | cons c data ih =>
    change (if c ≠ 0 ∧ o.pos < last then copyUntilNul last (o.put c) data else .ok o) = _
    by_cases hc : c = 0
    · rw [if_neg (fun h ↦ h.1 hc), List.takeWhile_cons_of_neg (by simpa using hc), Output.emit_nil]
    · have hcons : (c :: data).takeWhile (· ≠ 0) = c :: data.takeWhile (· ≠ 0) :=
        List.takeWhile_cons_of_pos (by simpa using hc)
      rw [hcons] at hroom ⊢
      by_cases hlt : o.pos < last
      · have hmem : 0 ∈ data := (List.mem_cons.mp h).resolve_left (Ne.symm hc)
        rw [if_pos ⟨hc, hlt⟩, Output.emit_cons hlt]
        refine ih hmem _ hlt ?_
        unfold Room at *
        rw [List.length_cons] at hroom
        rw [Output.pos_put]
        omega
      · rw [if_neg (fun h ↦ hlt h.2), Output.emit_of_ge (Nat.not_lt.mp hlt)]

theorem writes_putString {data : List UInt8} {f : Flags} (h : (Conversion.s data).Readable f) :
    ∃ w, Writes (fun last o ↦ putString last o data f) w := by
  change if f.slen = noLen then 0 ∈ data else f.slen ≤ data.length at h
  unfold putString
  by_cases hlen : f.slen = noLen
  · rw [if_pos hlen] at h
    simp only [if_pos hlen]
    exact ⟨_, writes_copyUntilNul h⟩
  · rw [if_neg hlen] at h
    simp only [if_neg hlen]
    exact ⟨_, writes_cpymem h⟩

/-! ## Numbers -/

theorem digitsLoop_eq_ok {digit : Nat → UInt8} {base room n : Nat} (p : List UInt8)
    (hbase : 0 < base) (hn : n < base ^ room) (hroom : 0 < room) :
    ∃ ds, digitsLoop digit base room n p = .ok ds := by
  induction room generalizing n p with
  | zero => cases hroom
  | succ room ih =>
    rw [digitsLoop]
    split_ifs with hz
    · exact ⟨_, rfl⟩
    · have hlt : n / base < base ^ room := by
        rw [Nat.div_lt_iff_lt_mul hbase, ← Nat.pow_succ]
        exact hn
      refine ih _ hlt (Nat.pos_of_ne_zero fun he ↦ hz ?_)
      rw [he, Nat.pow_zero] at hlt
      exact Nat.lt_one_iff.mp hlt

/-- There is room for the digits of a 64-bit number. -/
theorem digits_eq_ok {n : Nat} (hex : Nat) (hn : n < 2 ^ 64) : ∃ ds, digits n hex = .ok ds := by
  have hdec : n < 10 ^ int64Len := Nat.lt_trans hn (by decide)
  have hhex : n < 16 ^ int64Len := Nat.lt_trans hn (by decide)
  unfold digits
  split_ifs
  · exact digitsLoop_eq_ok _ (by decide) hdec (by decide)
  · exact digitsLoop_eq_ok _ (by decide) hhex (by decide)
  · exact digitsLoop_eq_ok _ (by decide) hhex (by decide)

theorem length_digitsLoop {digit : Nat → UInt8} {base room n : Nat} {p ds : List UInt8}
    (h : digitsLoop digit base room n p = .ok ds) : ds.length ≤ room + p.length := by
  induction room generalizing n p with
  | zero => cases h
  | succ room ih =>
    rw [digitsLoop] at h
    split_ifs at h
    · obtain rfl := Except.ok.inj h
      rw [List.length_cons]
      omega
    · have hle := ih h
      rw [List.length_cons] at hle
      omega

theorem length_digits {n hex : Nat} {ds : List UInt8} (h : digits n hex = .ok ds) :
    ds.length ≤ int64Len := by
  unfold digits at h
  split_ifs at h <;> exact length_digitsLoop h

theorem pad_eq (zero : UInt8) (n : Nat) (o : Output UInt8) :
    pad last zero n o = o.emit last (List.replicate n zero) := by
  induction n generalizing o with
  | zero => rw [pad, List.replicate_zero, Output.emit_nil]
  | succ n ih =>
    rw [pad, List.replicate_succ]
    split_ifs with hlt
    · rw [ih, Output.emit_cons hlt]
    · rw [Output.emit_of_ge (Nat.not_lt.mp hlt)]

/-- The padding and the digits of a number. -/
theorem writes_sprintfNum {n : Nat} (hn : n < 2 ^ 64) (zero : UInt8) (hex width : Nat) :
    ∃ w, Writes (fun last o ↦ sprintfNum o last n zero hex width) w := by
  obtain ⟨ds, hds⟩ := digits_eq_ok hex hn
  have hlen : ds.length ≤ 20 := length_digits hds
  refine ⟨List.replicate (width - ds.length) zero ++ ds, fun last o hlast hle hroom ↦ ?_⟩
  change sprintfNum o last n zero hex width = _
  unfold sprintfNum
  simp only [hds, Exec.ok_bind, pad_eq]
  rw [Output.emit_append]
  have hroom' := hroom.right
  have hle' : (o.emit last (List.replicate (width - ds.length) zero)).pos ≤ last :=
    Output.pos_emit_le hle
  generalize o.emit last (List.replicate (width - ds.length) zero) = o' at hroom' hle' ⊢
  -- the end of the digits does not wrap around
  have hmod : (o'.pos + ds.length) % 2 ^ 64 = o'.pos + ds.length := by
    refine Nat.mod_eq_of_lt ?_
    unfold Room at hroom'
    omega
  rw [hmod, Pool.subSize_eq hle' hlast, Output.emit]
  split_ifs with hlt
  · exact cpymem_eq (by omega)
  · rw [cpymem_eq (Nat.le_refl _), List.take_of_length_le (Nat.le_refl _),
      List.take_of_length_le (by omega)]

/-- A character is written without a check. -/
theorem Writes.put {run : Nat → Output UInt8 → Exec (Output UInt8)} (h : Writes run w) (c : UInt8) :
    WritesIn (fun last o ↦ run last (o.put c)) (c :: w) := by
  intro last o hlast hlt hroom
  rw [Output.emit_cons hlt]
  refine h last (o.put c) hlast hlt ?_
  unfold Room at *
  rw [List.length_cons] at hroom
  rw [Output.pos_put]
  omega

theorem writesIn_put (c : UInt8) : WritesIn (fun _ o ↦ .ok (o.put c)) [c] := by
  intro last o _ hlt _
  rw [Output.emit_singleton hlt]

/-- An integer with its sign. -/
theorem writesIn_putInteger {i64 : Int} {ui64 : Nat} (hi : i64 < 2 ^ 63) (hu : ui64 < 2 ^ 64)
    (zero : UInt8) (width : Nat) (f : Flags) :
    ∃ w, WritesIn (fun last o ↦ putInteger last o i64 ui64 zero width f) w := by
  unfold putInteger
  by_cases hs : f.sign = true
  · by_cases hneg : i64 < 0
    · have hlt : (-i64 % 2 ^ 64).toNat < 2 ^ 64 := by omega
      obtain ⟨w, hw⟩ := writes_sprintfNum hlt zero f.hex width
      simp only [if_pos hs, if_pos hneg]
      exact ⟨_, hw.put (ch '-')⟩
    · have hlt : i64.toNat < 2 ^ 64 := by omega
      obtain ⟨w, hw⟩ := writes_sprintfNum hlt zero f.hex width
      simp only [if_pos hs, if_neg hneg]
      exact ⟨w, hw.writesIn⟩
  · obtain ⟨w, hw⟩ := writes_sprintfNum hu zero f.hex width
    simp only [if_neg hs]
    exact ⟨w, hw.writesIn⟩

/-! ## Directives -/

/-- The end of a conversion that takes its arguments off the list. -/
theorem WritesIn.bind {run : Nat → Output UInt8 → Exec (Output UInt8)} (h : WritesIn run w)
    (args : List Arg) {x : Exec (Output UInt8 × List Arg)} (hlast : last < 2 ^ 64)
    (hlt : o.pos < last) (hroom : Room last o w)
    (hx : x = run last o >>= fun o ↦ .ok (o, args)) : x = .ok (o.emit last w, args) := by
  rw [hx, h last o hlast hlt hroom, Exec.ok_bind]

theorem Conversion.writesIn (v : Conversion) {f : Flags} (hv : v.Readable f) (zero : UInt8)
    (width : Nat) (args : List Arg) : ∃ w, ∀ last o, last < 2 ^ 64 → o.pos < last → Room last o w →
      convert last o v.char zero width f (v.args ++ args) = .ok (o.emit last w, args) := by
  have hconv : (∃ w run, WritesIn run w ∧ ∀ last o,
      convert last o v.char zero width f (v.args ++ args) =
        run last o >>= fun o ↦ .ok (o, args)) := by
    cases v with
    | V len data readable => exact ⟨_, _, (writes_cpymem readable).writesIn, fun _ _ ↦ rfl⟩
    | s data =>
      obtain ⟨w, hw⟩ := writes_putString hv
      exact ⟨w, _, hw.writesIn, fun _ _ ↦ rfl⟩
    | d v | D v =>
      have hint : v.toInt < 2 ^ 63 := Int.lt_trans v.toInt_lt (by decide)
      obtain ⟨w, hw⟩ := writesIn_putInteger hint (Nat.lt_trans v.isLt (by decide)) zero width f
      exact ⟨w, _, hw, fun _ _ ↦ rfl⟩
    | l v | L v =>
      obtain ⟨w, hw⟩ := writesIn_putInteger v.toInt_lt v.isLt zero width f
      exact ⟨w, _, hw, fun _ _ ↦ rfl⟩
    | p v =>
      obtain ⟨w, hw⟩ := writesIn_putInteger (show (0 : Int) < 2 ^ 63 by decide) v.isLt (ch '0') 16
        { f with hex := 2, sign := false }
      exact ⟨w, _, hw, fun _ _ ↦ rfl⟩
    | c v => exact ⟨_, _, writesIn_put _, fun _ _ ↦ rfl⟩
    | Z => exact ⟨_, _, writesIn_put _, fun _ _ ↦ rfl⟩
    | N => exact ⟨_, _, writesIn_put _, fun _ _ ↦ rfl⟩
    | self x other digit =>
      refine ⟨_, _, writesIn_put x, fun last o ↦ ?_⟩
      have hne : ∀ c ∈ "VsdDlLfpcZN".toList, x ≠ ch c := by
        have hsub : ∀ c ∈ "VsdDlLfpcZN".toList, c ∈ "VsdDlLfpcZNumXx.*".toList := by simp
        rintro c hc rfl
        exact other (List.mem_map_of_mem (hsub c hc))
      change convert last o x zero width f ([] ++ args) = _
      unfold convert
      rw [if_neg (hne _ (by decide)), if_neg (hne _ (by decide)),
        if_neg (not_or.mpr ⟨hne _ (by decide), hne _ (by decide)⟩),
        if_neg (not_or.mpr ⟨hne _ (by decide), hne _ (by decide)⟩), if_neg (hne _ (by decide)),
        if_neg (hne _ (by decide)), if_neg (hne _ (by decide)), if_neg (hne _ (by decide)),
        if_neg (hne _ (by decide))]
      rfl
  obtain ⟨w, run, hrun, heq⟩ := hconv
  exact ⟨w, fun last o hlast hlt hroom ↦ hrun.bind args hlast hlt hroom (heq last o)⟩

theorem Directive.writesIn (d : Directive) (fmt : List UInt8) (args : List Arg) :
    ∃ w, ∀ last o, last < 2 ^ 64 → o.pos < last → Room last o w →
      directive last o (d.text ++ fmt) (d.args ++ args) = .ok (o.emit last w, fmt, args) := by
  obtain ⟨zero, width, hread⟩ := d.read fmt args
  obtain ⟨w, hw⟩ := d.conv.writesIn d.readable zero width args
  refine ⟨w, fun last o hlast hlt hroom ↦ ?_⟩
  rw [hread, hw last o hlast hlt hroom, Exec.ok_bind]

/-! ## Formats -/

/-- A format prints its output as far as it fits. -/
theorem writes_vslprintf (items : List Item) (args : List Arg) :
    ∃ w, Writes (fun last o ↦
      vslprintf last o (items.flatMap Item.text) (items.flatMap Item.args ++ args)) w := by
  induction items with
  | nil =>
    refine ⟨[], fun last o _ _ _ ↦ ?_⟩
    change vslprintf last o [] _ = _
    rw [vslprintf, Output.emit_nil]
  | cons item items ih =>
    obtain ⟨w, hw⟩ := ih
    cases item with
    | plain c hc =>
      refine ⟨c :: w, fun last o hlast hle hroom ↦ ?_⟩
      change vslprintf last o (c :: items.flatMap Item.text) (items.flatMap Item.args ++ args) = _
      rw [vslprintf]
      split_ifs with hlt
      · exact hw.put c last o hlast hlt hroom
      · rw [Output.emit_of_ge (Nat.not_lt.mp hlt)]
    | directive d =>
      obtain ⟨u, hu⟩ := d.writesIn (items.flatMap Item.text) (items.flatMap Item.args ++ args)
      refine ⟨u ++ w, fun last o hlast hle hroom ↦ ?_⟩
      change vslprintf last o (ch '%' :: (d.text ++ items.flatMap Item.text))
        ((d.args ++ items.flatMap Item.args) ++ args) = _
      rw [vslprintf, List.append_assoc]
      by_cases hlt : o.pos < last
      · have hrun := hu last o hlast hlt hroom.left
        rw [if_pos hlt, if_pos rfl]
        split
        · next h =>
          obtain ⟨rfl, rfl, rfl⟩ := Prod.mk.inj (Except.ok.inj (hrun.symm.trans h))
          rw [Output.emit_append]
          exact hw last _ hlast (Output.pos_emit_le hle) hroom.right
        · next h => cases hrun.symm.trans h
      · rw [if_neg hlt, Output.emit_of_ge (Nat.not_lt.mp hlt)]

/-- With a buffer of `max` bytes, `dl_snprintf` writes the first `max` of the bytes that
`dl_sprintf` writes, and leaves all other memory as it is. -/
theorem snprintf_prefix (items : List Item) (args : List Arg) :
    ∃ n, ∀ mem' buf', buf' + n ≤ 2 ^ 63 →
      ∃ r', sprintf mem' buf' (items.flatMap Item.text) (items.flatMap Item.args ++ args) = .ok r' ∧
        r'.pos = buf' + n ∧ ∀ mem buf max, buf + max ≤ 2 ^ 63 →
          ∃ r, snprintf mem buf max (items.flatMap Item.text)
              (items.flatMap Item.args ++ args) = .ok r ∧
            r.pos = buf + min max n ∧ (∀ i < min max n, r.mem (buf + i) = r'.mem (buf' + i)) ∧
            ∀ x, x < buf ∨ buf + min max n ≤ x → r.mem x = mem x := by
  obtain ⟨w, hw⟩ := writes_vslprintf items args
  refine ⟨w.length, fun mem' buf' hbuf ↦ ?_⟩
  have hrun' := hw (2 ^ 64 - 1) ⟨mem', buf'⟩ (by decide) (by dsimp only; omega) (.inl hbuf)
  rw [Output.emit_of_le (by dsimp only; omega)] at hrun'
  refine ⟨_, hrun', Output.pos_write _ _, fun mem buf max hmax ↦ ?_⟩
  have hmod : (buf + max) % 2 ^ 64 = buf + max := Nat.mod_eq_of_lt (by omega)
  have hrun := hw (buf + max) ⟨mem, buf⟩ (by omega) (Nat.le_add_right _ _) (.inr hmax)
  rw [Output.emit, Nat.add_sub_cancel_left] at hrun
  refine ⟨Output.write ⟨mem, buf⟩ (w.take max), ?_, ?_, fun i hi ↦ ?_, fun x hx ↦ ?_⟩
  · rw [snprintf, hmod]
    exact hrun
  · rw [Output.pos_write, List.length_take]
  · have htake : i < (w.take max).length := by rwa [List.length_take]
    have hfull : i < w.length := Nat.lt_of_lt_of_le hi (Nat.min_le_right _ _)
    have hl : (Output.write ⟨mem, buf⟩ (w.take max)).mem (buf + i) = (w.take max)[i] :=
      Output.mem_write htake
    have hr : (Output.write ⟨mem', buf'⟩ w).mem (buf' + i) = w[i] := Output.mem_write hfull
    rw [hl, hr, List.getElem_take]
  · rcases hx with hx | hx
    · exact Output.mem_write_of_lt hx
    · exact Output.mem_write_of_le (by rwa [List.length_take])

end Dlbase.DlString
