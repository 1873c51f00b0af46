import Dlbase.String.Scan

/-!
# Reading beyond the format

The default of the second `switch` copies the character it is at and steps over it.  At the end of
the format this is the null character, and the loop goes on behind it.  This happens just to
formats that end in a directive without a conversion.
-/

namespace Dlbase.DlString

open Cmem

variable {D : Doubles} {last : Nat} {o : Output UInt8} {fmt : List UInt8} {args : List Arg}
  {doubles : List (BitVec 64)}

/-! ## Where a directive ends -/

/-- What is left of a directive behind the flags and the number after a dot. -/
def skipFlags : List UInt8 → List UInt8
  | [] => []
  | c :: fmt =>
    if c = ch 'u' then skipFlags fmt
    else if c = ch 'm' then skipFlags fmt
    else if c = ch 'X' then skipFlags fmt
    else if c = ch 'x' then skipFlags fmt
    else if c = ch '.' then fmt.dropWhile fun c ↦ IsDigit c
    else if c = ch '*' then skipFlags fmt
    else c :: fmt

/-- The conversion of a directive and what follows it. -/
def conversion (fmt : List UInt8) : List UInt8 := skipFlags (fmt.dropWhile fun c ↦ IsDigit c)

/-- The format ends in the middle of a directive. -/
inductive Unterminated : List UInt8 → Prop where
  /-- The directive has no conversion. -/
  | here {fmt : List UInt8} : conversion fmt = [] → Unterminated (ch '%' :: fmt)
  /-- The directive is behind a plain character. -/
  | plain {c : UInt8} {fmt : List UInt8} : c ≠ ch '%' → Unterminated fmt → Unterminated (c :: fmt)
  /-- The directive is behind a complete one. -/
  | directive {c : UInt8} {fmt rest : List UInt8} : conversion fmt = c :: rest →
      Unterminated rest → Unterminated (ch '%' :: fmt)

theorem not_isDigit_zero : ¬ IsDigit 0 := by decide

theorem readDigits_snd (fmt : List UInt8) (n : Nat) :
    (readDigits fmt n).2 = fmt.dropWhile fun c ↦ IsDigit c := by
  induction fmt generalizing n with
  | nil => rfl
  | cons c fmt ih =>
    rw [readDigits, List.dropWhile_cons]
    by_cases hc : IsDigit c
    · simp only [hc, if_true, decide_true, ih]
    · simp only [hc, if_false, decide_false, Bool.false_eq_true]

/-- A number ends before the null character. -/
theorem scanNumber_eq (fmt : List UInt8) (n : Nat) :
    scanNumber (fmt ++ [0]) n =
      .ok ((readDigits fmt n).1, fmt.dropWhile (fun c ↦ IsDigit c) ++ [0]) := by
  rw [← readDigits_snd fmt n]
  induction fmt generalizing n with
  | nil => exact if_neg not_isDigit_zero
  | cons c fmt ih =>
    rw [List.cons_append, scanNumber, readDigits]
    split_ifs
    · exact ih _
    · rfl

/-- So do the flags, if there are arguments for them. -/
theorem scanFlags_cases (fmt : List UInt8) (f : Flags) (args : List Arg) :
    scanFlags (fmt ++ [0]) f args = .error .undefined ∨
      ∃ f' n args', scanFlags (fmt ++ [0]) f args = .ok (f', n, skipFlags fmt ++ [0], args') := by
  induction fmt generalizing f args with
  | nil => exact .inr ⟨f, 0, args, rfl⟩
  | cons c fmt ih =>
    rw [List.cons_append, scanFlags, skipFlags]
    split_ifs
    · exact ih _ _
    · exact ih _ _
    · exact ih _ _
    · exact ih _ _
    · rw [scanNumber_eq]
      exact .inr ⟨f, _, args, rfl⟩
    · cases hv : vaLong args with
      | error e => exact .inl rfl
      | ok x => exact ih _ _
    · exact .inr ⟨f, 0, args, rfl⟩

/-- With arguments for them, the flags are read to their end. -/
theorem exists_scanFlags (fmt : List UInt8) (f : Flags) :
    ∃ a f' n, ∀ args, scanFlags (fmt ++ [0]) f (a ++ args) =
      .ok (f', n, skipFlags fmt ++ [0], args) := by
  induction fmt generalizing f with
  | nil => exact ⟨[], f, 0, fun _ ↦ rfl⟩
  | cons c fmt ih =>
    simp only [List.cons_append, scanFlags, skipFlags]
    split_ifs
    · exact ih _
    · exact ih _
    · exact ih _
    · exact ih _
    · exact ⟨[], f, _, fun args ↦ by rw [scanNumber_eq]; rfl⟩
    · obtain ⟨a, f', n, h⟩ := ih { f with slen := (0 : BitVec 64).toNat }
      exact ⟨.long 0 :: a, f', n, h⟩
    · exact ⟨[], f, 0, fun _ ↦ rfl⟩

theorem scanConvert_cases (D : Doubles) (last : Nat) (o : Output UInt8) (c zero : UInt8)
    (width n : Nat) (f : Flags) (args : List Arg) (doubles : List (BitVec 64)) :
    scanConvert D last o c zero width n f args doubles = .error .undefined ∨
      ∃ o' args' doubles',
        scanConvert D last o c zero width n f args doubles = .ok (o', args', doubles') := by
  unfold scanConvert
  split_ifs
  · cases doubles with
    | nil => exact .inl rfl
    | cons v doubles =>
      cases hput : putDouble D last o v zero width n with
      | error e => exact .inl (by simp only [hput]; rfl)
      | ok o' => exact .inr ⟨o', args, doubles, by simp only [hput]; rfl⟩
  · cases hconv : convert last o c zero width f args with
    | error e => exact .inl rfl
    | ok x => exact .inr ⟨x.1, x.2, doubles, rfl⟩

/-- A directive without a conversion takes the null character for one. -/
theorem scanDirective_cases (D : Doubles) (last : Nat) (o : Output UInt8) (fmt : List UInt8)
    (args : List Arg) (doubles : List (BitVec 64)) :
    scanDirective D last o (fmt ++ [0]) args doubles = .error .undefined ∨
      ∃ o' args' doubles', scanDirective D last o (fmt ++ [0]) args doubles =
        .ok (o', (conversion fmt ++ [0]).tail, args', doubles') := by
  obtain ⟨c, hc⟩ : ∃ c, peek (fmt ++ [0]) = .ok c := by cases fmt <;> exact ⟨_, rfl⟩
  obtain ⟨d, hd⟩ : ∃ d, peek (conversion fmt ++ [0]) = .ok d := by
    cases conversion fmt <;> exact ⟨_, rfl⟩
  unfold conversion at hd ⊢
  simp only [scanDirective, hc, scanNumber_eq, Scan.ok_bind]
  rcases scanFlags_cases (fmt.dropWhile fun c ↦ IsDigit c) { sign := true, hex := 0, slen := noLen }
    args with h | ⟨f, n, args₁, h⟩
  · exact .inl (by rw [h]; rfl)
  · simp only [h, Scan.ok_bind, hd]
    rcases scanConvert_cases D last o d (if c = ch '0' then ch '0' else ch ' ')
      (readDigits fmt 0).1 n f args₁ doubles with h | ⟨o', args₂, doubles₁, h⟩
    · exact .inl (by rw [h]; rfl)
    · exact .inr ⟨o', args₂, doubles₁, by rw [h]; rfl⟩

/-! ## The loop -/

theorem scan_nul (fmt : List UInt8) : scan D last o (0 :: fmt) args doubles = .ok o := by
  rw [scan, if_neg fun h ↦ h.1 rfl]

theorem scan_full (h : ¬ o.pos < last) (c : UInt8) (fmt : List UInt8) :
    scan D last o (c :: fmt) args doubles = .ok o := by
  rw [scan, if_neg fun hc ↦ h hc.2]

theorem scan_plain {c : UInt8} (hc : c ≠ 0) (hne : c ≠ ch '%') (h : o.pos < last) :
    scan D last o (c :: fmt) args doubles = scan D last (o.put c) fmt args doubles := by
  rw [scan, if_pos ⟨hc, h⟩, if_neg hne]

theorem scan_directive (h : o.pos < last) :
    scan D last o (ch '%' :: fmt) args doubles =
      scanDirective D last o fmt args doubles >>= fun x ↦ scan D last x.1 x.2.1 x.2.2.1 x.2.2.2 := by
  rw [scan, if_pos ⟨by decide, h⟩, if_pos rfl]
  split
  · next h => rw [h]; rfl
  · next h => rw [h]; rfl

/-- A conversion is part of the format. -/
theorem conversion_suffix (fmt : List UInt8) : conversion fmt <:+ fmt := by
  have hflags : ∀ fmt : List UInt8, skipFlags fmt <:+ fmt := by
    intro fmt
    induction fmt with
    | nil => exact List.suffix_rfl
    | cons c fmt ih =>
      have hcons := ih.trans (List.suffix_cons c fmt)
      rw [skipFlags]
      split_ifs
      · exact hcons
      · exact hcons
      · exact hcons
      · exact hcons
      · exact (List.dropWhile_suffix _).trans (List.suffix_cons c fmt)
      · exact hcons
      · exact List.suffix_rfl
  exact (hflags _).trans (List.dropWhile_suffix _)

/-- A read beyond the format is that of an unterminated one. -/
theorem unterminated_of_beyond (h0 : 0 ∉ fmt)
    (h : scan D last o (fmt ++ [0]) args doubles = .error .beyond) : Unterminated fmt := by
  induction hn : fmt.length using Nat.strongRecOn generalizing fmt o args doubles with
  | ind n ih =>
    cases fmt with
    | nil =>
      rw [List.nil_append, scan_nul] at h
      cases h
    | cons c fmt =>
      obtain ⟨hc, hfmt⟩ := not_or.mp (List.mem_cons.not.mp h0)
      rw [List.cons_append] at h
      by_cases hlt : o.pos < last
      · by_cases hne : c = ch '%'
        · subst hne
          rw [scan_directive hlt] at h
          rcases scanDirective_cases D last o fmt args doubles with
            hd | ⟨o', args', doubles', hd⟩
          · rw [hd] at h
            cases h
          · rw [hd, Scan.ok_bind] at h
            have hsuffix := conversion_suffix fmt
            cases hconv : conversion fmt with
            | nil => exact .here hconv
            | cons c rest =>
              rw [hconv] at h hsuffix
              have hlen := hsuffix.length_le
              rw [List.length_cons] at hlen hn
              exact .directive hconv (ih rest.length (by omega)
                (fun hmem ↦ hfmt (hsuffix.subset (List.mem_cons_of_mem _ hmem))) h rfl)
        · rw [scan_plain (Ne.symm hc) hne hlt] at h
          exact .plain hne (ih fmt.length (by rw [← hn]; exact Nat.lt_succ_self _) hfmt h rfl)
      · rw [scan_full hlt] at h
        cases h

/-! ## Arguments and room for a format -/

/-- The code writes `n` bytes at most if there is room for them. -/
def WritesUpTo (run : Nat → Output UInt8 → Exec (Output UInt8)) (n : Nat) : Prop :=
  ∀ last o, o.pos + n < last → ∃ o', run last o = .ok o' ∧ o'.pos ≤ o.pos + n

theorem WritesUpTo.put {run : Nat → Output UInt8 → Exec (Output UInt8)} {n : Nat}
    (h : WritesUpTo run n) (c : UInt8) : WritesUpTo (fun last o ↦ run last (o.put c)) (1 + n) := by
  intro last o hlt
  obtain ⟨o', hrun, hle⟩ := h last (o.put c) (by rw [Output.pos_put]; omega)
  rw [Output.pos_put] at hle
  exact ⟨o', hrun, by omega⟩

theorem writesUpTo_put (c : UInt8) : WritesUpTo (fun _ o ↦ .ok (o.put c)) 1 := fun _ o _ ↦
  ⟨o.put c, rfl, Nat.le_refl _⟩

theorem writesUpTo_sprintfNum {n : Nat} (hn : n < 2 ^ 64) (zero : UInt8) (hex width : Nat) :
    WritesUpTo (fun last o ↦ sprintfNum o last n zero hex width) (width + int64Len) := by
  obtain ⟨ds, hds⟩ := digits_eq_ok hex hn
  have hlen := length_digits hds
  intro last o hlt
  have hpos := Output.pos_emit o last (List.replicate (width - ds.length) zero)
  rw [List.length_replicate] at hpos
  simp only [sprintfNum, hds, Exec.ok_bind, pad_eq]
  generalize o.emit last (List.replicate (width - ds.length) zero) = o' at hpos ⊢
  have hmod := Nat.mod_le (o'.pos + ds.length) (2 ^ 64)
  rw [if_neg (by omega), cpymem_eq (Nat.le_refl _), List.take_of_length_le (Nat.le_refl _)]
  refine ⟨_, rfl, ?_⟩
  rw [Output.pos_write]
  omega

theorem writesUpTo_putInteger {i64 : Int} {ui64 : Nat} (hi : i64 < 2 ^ 63) (hu : ui64 < 2 ^ 64)
    (zero : UInt8) (width : Nat) (f : Flags) :
    ∃ n, WritesUpTo (fun last o ↦ putInteger last o i64 ui64 zero width f) n := by
  unfold putInteger
  by_cases hs : f.sign = true
  · by_cases hneg : i64 < 0
    · have hlt : (-i64 % 2 ^ 64).toNat < 2 ^ 64 := by omega
      simp only [if_pos hs, if_pos hneg]
      exact ⟨_, (writesUpTo_sprintfNum hlt zero f.hex width).put _⟩
    · have hlt : i64.toNat < 2 ^ 64 := by omega
      simp only [if_pos hs, if_neg hneg]
      exact ⟨_, writesUpTo_sprintfNum hlt zero f.hex width⟩
  · simp only [if_neg hs]
    exact ⟨_, writesUpTo_sprintfNum hu zero f.hex width⟩

/-- One after the other. -/
theorem WritesUpTo.bind {run run' : Nat → Output UInt8 → Exec (Output UInt8)} {n n' : Nat}
    (h : WritesUpTo run n) (h' : WritesUpTo run' n') :
    WritesUpTo (fun last o ↦ run last o >>= run' last) (n + n') := by
  intro last o hlt
  obtain ⟨o₁, hrun, hle⟩ := h last o (by omega)
  obtain ⟨o₂, hrun', hle'⟩ := h' last o₁ (by omega)
  exact ⟨o₂, by simp only [hrun, Exec.ok_bind, hrun'], by omega⟩

theorem writesUpTo_putMagnitude (D : Doubles) (f : BitVec 64) (zero : UInt8)
    (width fracWidth : Nat) :
    ∃ n, WritesUpTo (fun last o ↦ putMagnitude D last o f zero width fracWidth) n := by
  have hnum : ∀ (v : UInt64) (zero : UInt8) (width : Nat),
      WritesUpTo (fun last o ↦ sprintfNum o last v.toNat zero 0 width) (width + int64Len) :=
    fun v zero width ↦ writesUpTo_sprintfNum v.toNat_lt zero 0 width
  have hdot : WritesUpTo (fun last o ↦ .ok (if o.pos < last then o.put (ch '.') else o)) 1 := by
    intro last o hlt
    refine ⟨_, rfl, ?_⟩
    rw [if_pos (by omega)]
    exact Nat.le_refl _
  unfold putMagnitude
  by_cases hw : fracWidth = 0
  · simp only [if_pos hw]
    exact ⟨_, hnum _ zero width⟩
  · simp only [if_neg hw]
    exact ⟨_, (hnum _ zero width).bind (hdot.bind (hnum _ _ fracWidth))⟩

theorem writesUpTo_putDouble (D : Doubles) (f : BitVec 64) (zero : UInt8) (width fracWidth : Nat) :
    ∃ n, WritesUpTo (fun last o ↦ putDouble D last o f zero width fracWidth) n := by
  unfold putDouble
  by_cases hneg : D.negative f = true
  · obtain ⟨n, hn⟩ := writesUpTo_putMagnitude D (D.neg f) zero width fracWidth
    simp only [if_pos hneg]
    exact ⟨_, hn.put (ch '-')⟩
  · simp only [if_neg hneg]
    exact writesUpTo_putMagnitude D f zero width fracWidth

/-- Each character of a directive is a conversion for some argument. -/
theorem exists_convert (c zero : UInt8) (width : Nat) (f : Flags) (hc : c ≠ ch 'f') :
    ∃ a n run, WritesUpTo run n ∧ ∀ last o args,
      convert last o c zero width f (a ++ args) = run last o >>= fun o ↦ .ok (o, args) := by
  have hint : ((0 : BitVec 32).toInt : Int) < 2 ^ 63 := by decide
  have hlong : ((0 : BitVec 64).toInt : Int) < 2 ^ 63 := by decide
  have hcopy : ∀ m, WritesUpTo (fun last o ↦
      cpymem o (List.replicate m 0) (min (Pool.subSize last o.pos) m)) m := by
    intro m last o _
    refine ⟨_, cpymem_eq (by rw [List.length_replicate]; exact Nat.min_le_right _ _), ?_⟩
    rw [Output.pos_write, List.length_take, List.length_replicate]
    omega
  unfold convert
  split_ifs with hV hs hd hl hp hc' hZ hN
  · exact ⟨[.str 0 []], 0, _, hcopy 0, fun _ _ _ ↦ rfl⟩
  · by_cases hlen : f.slen = noLen
    · refine ⟨[.chars [0]], 0, fun _ o ↦ .ok o, fun _ o _ ↦ ⟨o, rfl, Nat.le_refl _⟩,
        fun last o args ↦ ?_⟩
      simp only [putString, if_pos hlen]
      rfl
    · refine ⟨[.chars (List.replicate f.slen 0)], f.slen, _, hcopy f.slen, fun last o args ↦ ?_⟩
      simp only [putString, if_neg hlen]
      rfl
  · obtain ⟨n, hn⟩ := writesUpTo_putInteger hint (show (0 : BitVec 32).toNat < 2 ^ 64 by decide)
      zero width f
    exact ⟨[.int 0], n, _, hn, fun _ _ _ ↦ rfl⟩
  · obtain ⟨n, hn⟩ := writesUpTo_putInteger hlong (show (0 : BitVec 64).toNat < 2 ^ 64 by decide)
      zero width f
    exact ⟨[.long 0], n, _, hn, fun _ _ _ ↦ rfl⟩
  · obtain ⟨n, hn⟩ := writesUpTo_putInteger (show (0 : Int) < 2 ^ 63 by decide)
      (show (0 : BitVec 64).toNat < 2 ^ 64 by decide) (ch '0') 16 { f with hex := 2, sign := false }
    exact ⟨[.ptr 0], n, _, hn, fun _ _ _ ↦ rfl⟩
  · exact ⟨[.int 0], 1, _, writesUpTo_put _, fun _ _ _ ↦ rfl⟩
  · exact ⟨[], 1, _, writesUpTo_put _, fun _ _ _ ↦ rfl⟩
  · exact ⟨[], 1, _, writesUpTo_put _, fun _ _ _ ↦ rfl⟩
  · exact ⟨[], 1, _, writesUpTo_put _, fun _ _ _ ↦ rfl⟩

theorem exists_scanConvert (D : Doubles) (c zero : UInt8) (width fracWidth : Nat) (f : Flags) :
    ∃ a d n, ∀ last o args doubles, o.pos + n < last → ∃ o', o'.pos ≤ o.pos + n ∧
      scanConvert D last o c zero width fracWidth f (a ++ args) (d ++ doubles) =
        .ok (o', args, doubles) := by
  by_cases hc : c = ch 'f'
  · obtain ⟨n, hn⟩ := writesUpTo_putDouble D 0 zero width fracWidth
    refine ⟨[], [0], n, fun last o args doubles hlt ↦ ?_⟩
    obtain ⟨o', hrun, hle⟩ := hn last o hlt
    refine ⟨o', hle, ?_⟩
    simp only [scanConvert, if_pos hc, List.singleton_append, hrun]
    rfl
  · obtain ⟨a, n, run, hn, heq⟩ := exists_convert c zero width f hc
    refine ⟨a, [], n, fun last o args doubles hlt ↦ ?_⟩
    obtain ⟨o', hrun, hle⟩ := hn last o hlt
    refine ⟨o', hle, ?_⟩
    simp only [scanConvert, if_neg hc, heq, hrun]
    rfl

/-- Each directive is read for some arguments. -/
theorem exists_scanDirective (D : Doubles) (fmt : List UInt8) :
    ∃ a d n, ∀ last o args doubles, o.pos + n < last → ∃ o', o'.pos ≤ o.pos + n ∧
      scanDirective D last o (fmt ++ [0]) (a ++ args) (d ++ doubles) =
        .ok (o', (conversion fmt ++ [0]).tail, args, doubles) := by
  obtain ⟨c, hc⟩ : ∃ c, peek (fmt ++ [0]) = .ok c := by cases fmt <;> exact ⟨_, rfl⟩
  obtain ⟨v, hv⟩ : ∃ v, peek (conversion fmt ++ [0]) = .ok v := by
    cases conversion fmt <;> exact ⟨_, rfl⟩
  obtain ⟨a₁, f, k, hflags⟩ := exists_scanFlags (fmt.dropWhile fun c ↦ IsDigit c)
    { sign := true, hex := 0, slen := noLen }
  obtain ⟨a₂, d, n, hconv⟩ := exists_scanConvert D v (if c = ch '0' then ch '0' else ch ' ')
    (readDigits fmt 0).1 k f
  refine ⟨a₁ ++ a₂, d, n, fun last o args doubles hlt ↦ ?_⟩
  obtain ⟨o', hle, hrun⟩ := hconv last o args doubles hlt
  refine ⟨o', hle, ?_⟩
  unfold conversion at hv ⊢
  simp only [scanDirective, hc, scanNumber_eq, Scan.ok_bind, List.append_assoc, hflags, hv, hrun]
  rfl

/-- An unterminated format leads beyond its end for some arguments and enough room. -/
theorem exists_beyond (D : Doubles) (hu : Unterminated fmt) (h0 : 0 ∉ fmt) :
    ∃ args doubles n, ∀ last o, o.pos + n < last →
      scan D last o (fmt ++ [0]) args doubles = .error .beyond := by
  induction hu with
  | @here fmt hconv =>
    obtain ⟨a, d, n, hrun⟩ := exists_scanDirective D fmt
    refine ⟨a, d, n, fun last o hlt ↦ ?_⟩
    obtain ⟨o', -, hrun⟩ := hrun last o [] [] hlt
    rw [List.append_nil, List.append_nil] at hrun
    rw [List.cons_append, scan_directive (by omega), hrun, hconv]
    exact scan.eq_1 _ _ _ _ _
  | @plain c fmt hne hu ih =>
    obtain ⟨hc, h0⟩ := not_or.mp (List.mem_cons.not.mp h0)
    obtain ⟨args, doubles, n, hrun⟩ := ih h0
    refine ⟨args, doubles, 1 + n, fun last o hlt ↦ ?_⟩
    rw [List.cons_append, scan_plain (Ne.symm hc) hne (by omega)]
    exact hrun last _ (by rw [Output.pos_put]; omega)
  | @directive c fmt rest hconv hu ih =>
    have hsuffix := conversion_suffix fmt
    rw [hconv] at hsuffix
    obtain ⟨args, doubles, n, hrun⟩ := ih fun hmem ↦
      h0 (List.mem_cons_of_mem _ (hsuffix.subset (List.mem_cons_of_mem _ hmem)))
    obtain ⟨a, d, m, hdir⟩ := exists_scanDirective D fmt
    refine ⟨a ++ args, d ++ doubles, m + n, fun last o hlt ↦ ?_⟩
    obtain ⟨o', hle, hdir⟩ := hdir last o args doubles (by omega)
    rw [List.cons_append, scan_directive (by omega), hdir, hconv]
    exact hrun last o' (by omega)

/-- Whatever the arguments and the buffer are, the code does not read beyond the null character of
a format, if and only if the format does not end in the middle of a directive. -/
theorem format_within_iff (D : Doubles) (h0 : 0 ∉ fmt) :
    (∀ last o args doubles, scan D last o (fmt ++ [0]) args doubles ≠ .error .beyond) ↔
      ¬ Unterminated fmt := by
  constructor
  · intro h hu
    obtain ⟨args, doubles, n, hrun⟩ := exists_beyond D hu h0
    exact h (n + 1) ⟨fun _ ↦ 0, 0⟩ args doubles (hrun _ _ (by dsimp only; omega))
  · intro hu last o args doubles h
    exact hu (unterminated_of_beyond h0 h)

/-- The operations of a machine whose only `double` is zero. -/
def zeroDoubles : Doubles := ⟨fun _ ↦ false, id, fun _ ↦ 0, fun _ _ _ ↦ 0⟩

/-- A format with a complete directive. -/
theorem format_within_number :
    scan zeroDoubles 2 ⟨fun _ ↦ 0, 0⟩ ([ch '%', ch 'd'] ++ [0]) [.int 0] [] ≠ .error .beyond := by
  refine (format_within_iff zeroDoubles (by decide)).mpr (fun hu ↦ ?_) _ _ _ _
  have hconv : conversion [ch 'd'] = [ch 'd'] := by decide
  rcases hu with h | ⟨h, -⟩ | ⟨h, hu⟩
  · rw [hconv] at h
    cases h
  · exact h rfl
  · rw [hconv] at h
    obtain ⟨-, rfl⟩ := List.cons.inj h
    cases hu

/-- With room for two bytes, the format `%` is left behind its null character. -/
theorem format_percent_beyond :
    scan zeroDoubles 2 ⟨fun _ ↦ 0, 0⟩ ([ch '%'] ++ [0]) [] [] = .error .beyond := by
  have hdir : scanDirective zeroDoubles 2 ⟨fun _ ↦ 0, 0⟩ [0] [] [] =
      .ok (Output.put ⟨fun _ ↦ 0, 0⟩ 0, [], [], []) := rfl
  rw [List.singleton_append, scan_directive (by decide), hdir]
  exact scan.eq_1 _ _ _ _ _

/-! ## The format without its null character -/

/-- Apart from `%f`, formats are read as they are without their null character. -/
theorem scanFlags_eq {f f' : Flags} {args' rest} (h : readFlags fmt f args = .ok (f', rest, args')) :
    ∃ n, scanFlags (fmt ++ [0]) f args = .ok (f', n, rest ++ [0], args') := by
  induction fmt generalizing f args with
  | nil =>
    obtain ⟨rfl, rfl, rfl⟩ := Except.ok.inj h
    exact ⟨0, rfl⟩
  | cons c fmt ih =>
    rw [readFlags] at h
    rw [List.cons_append, scanFlags]
    split_ifs at h ⊢
    · exact ih h
    · exact ih h
    · exact ih h
    · exact ih h
    · obtain ⟨rfl, rfl, rfl⟩ := Except.ok.inj h
      rw [scanNumber_eq, readDigits_snd]
      exact ⟨_, rfl⟩
    · obtain ⟨x, hx, h⟩ := Exec.bind_eq_ok.mp h
      rw [hx]
      exact ih h
    · obtain ⟨rfl, rfl, rfl⟩ := Except.ok.inj h
      exact ⟨0, rfl⟩

theorem scanDirective_eq {o' : Output UInt8} {rest : List UInt8} {args' : List Arg}
    (h : directive last o fmt args = .ok (o', rest, args')) :
    scanDirective D last o (fmt ++ [0]) args doubles = .ok (o', rest ++ [0], args', doubles) := by
  obtain ⟨⟨f, fmt₁, args₁⟩, hflags, h⟩ := Exec.bind_eq_ok.mp h
  obtain ⟨n, hscan⟩ := scanFlags_eq hflags
  cases fmt₁ with
  | nil => cases h
  | cons c fmt₁ =>
    obtain ⟨⟨o₁, args₂⟩, hconv, h⟩ := Exec.bind_eq_ok.mp h
    obtain ⟨rfl, rfl, rfl⟩ := Except.ok.inj h
    have hc : c ≠ ch 'f' := by
      rintro rfl
      cases hconv
    obtain ⟨v, hv, hzero⟩ : ∃ v, peek (fmt ++ [0]) = .ok v ∧
        (if v = ch '0' then ch '0' else ch ' ') =
          if fmt.head? = some (ch '0') then ch '0' else ch ' ' := by
      cases fmt with
      | nil => exact ⟨0, rfl, rfl⟩
      | cons v fmt => exact ⟨v, rfl, by simp⟩
    rw [readDigits_snd] at hscan
    have hpeek : ∀ fmt, peek (c :: fmt) = .ok c := fun _ ↦ rfl
    simp only [scanDirective, hv, scanNumber_eq, Scan.ok_bind, hscan, hzero, scanConvert,
      if_neg hc, hconv, List.cons_append, hpeek]
    rfl

/-- What follows a directive is part of the format. -/
theorem rest_suffix {o' : Output UInt8} {rest : List UInt8} {args' : List Arg}
    (h : directive last o fmt args = .ok (o', rest, args')) : rest <:+ fmt := by
  have hscan : scanDirective zeroDoubles last o (fmt ++ [0]) args [] =
      .ok (o', rest ++ [0], args', []) := scanDirective_eq h
  have hsuffix := conversion_suffix fmt
  rcases scanDirective_cases zeroDoubles last o fmt args [] with he | ⟨o₁, args₁, d, he⟩
  · exact nomatch he.symm.trans hscan
  · have htail : (conversion fmt ++ [0]).tail = rest ++ [0] :=
      congrArg (·.2.1) (Except.ok.inj (he.symm.trans hscan))
    cases hconv : conversion fmt with
    | nil =>
      rw [hconv] at htail
      exact absurd htail.symm (List.append_ne_nil_of_right_ne_nil _ (List.cons_ne_nil _ _))
    | cons c r =>
      rw [hconv] at htail hsuffix
      rw [← List.append_cancel_right htail]
      exact (List.suffix_cons c r).trans hsuffix

/-- A format that `vslprintf` prints is printed in the same way from memory. -/
theorem scan_eq {o' : Output UInt8} (h0 : 0 ∉ fmt) (h : vslprintf last o fmt args = .ok o') :
    scan D last o (fmt ++ [0]) args doubles = .ok o' := by
  induction hn : fmt.length using Nat.strongRecOn generalizing fmt o args with
  | ind n ih =>
    cases fmt with
    | nil =>
      rw [vslprintf] at h
      rw [List.nil_append, scan_nul, Except.ok.inj h]
    | cons c fmt =>
      obtain ⟨hc, hfmt⟩ := not_or.mp (List.mem_cons.not.mp h0)
      rw [vslprintf] at h
      rw [List.cons_append]
      by_cases hlt : o.pos < last
      · rw [if_pos hlt] at h
        by_cases hne : c = ch '%'
        · subst hne
          rw [if_pos rfl] at h
          rw [scan_directive hlt]
          split at h
          · next o₁ rest args₁ hdir =>
            have hrest := rest_suffix hdir
            rw [scanDirective_eq hdir, Scan.ok_bind]
            refine ih rest.length ?_ (fun hmem ↦ hfmt (hrest.subset hmem)) h rfl
            exact hn ▸ Nat.lt_succ_of_le hrest.length_le
          · cases h
        · rw [if_neg hne] at h
          rw [scan_plain (Ne.symm hc) hne hlt]
          exact ih fmt.length (by rw [← hn]; exact Nat.lt_succ_self _) hfmt h rfl
      · rw [if_neg hlt] at h
        rw [scan_full hlt, Except.ok.inj h]

end Dlbase.DlString
