import Dlbase.String.Model

/-!
# Formats and what they print

A format with arguments that match it is a list of plain characters and of directives, each of
which carries its arguments.  What it prints to a limit is what it prints without one, cut off.
-/

namespace Dlbase.DlString

open Cmem

/-! ## Directives with their arguments -/

/-- A flag, with its argument. -/
inductive Flag where
  /-- The number is unsigned. -/
  | u
  /-- No effect. -/
  | m
  /-- The number is hexadecimal in upper case. -/
  | X
  /-- The number is hexadecimal in lower case. -/
  | x
  /-- The string has this length. -/
  | star (len : BitVec 64)

/-- What a directive converts. -/
inductive Conversion where
  /-- A `dl_str`, all of which may be read. -/
  | V (len : Nat) (data : List UInt8) (readable : len ≤ data.length)
  /-- A string. -/
  | s (data : List UInt8)
  /-- An `int`. -/
  | d (v : BitVec 32)
  /-- An `int32_t`. -/
  | D (v : BitVec 32)
  /-- A `long`. -/
  | l (v : BitVec 64)
  /-- An `int64_t`. -/
  | L (v : BitVec 64)
  /-- A pointer. -/
  | p (v : BitVec 64)
  /-- A character. -/
  | c (v : BitVec 32)
  /-- The null character. -/
  | Z
  /-- The end of a line. -/
  | N
  /-- The character itself, if it is no other conversion and no flag; for example `%`. -/
  | self (x : UInt8) (other : x ∉ "VsdDlLfpcZNumXx.*".toList.map ch) (digit : ¬ IsDigit x)

/-- The character of a flag. -/
def Flag.char : Flag → UInt8
  | u => ch 'u'
  | m => ch 'm'
  | X => ch 'X'
  | x => ch 'x'
  | star _ => ch '*'

/-- The argument of a flag. -/
def Flag.args : Flag → List Arg
  | star len => [.long len]
  | _ => []

/-- The effect of a flag. -/
def Flag.set : Flag → Flags → Flags
  | u, f => { f with sign := false }
  | m, f => f
  | X, f => { f with hex := 2, sign := false }
  | x, f => { f with hex := 1, sign := false }
  | star len, f => { f with slen := len.toNat }

/-- The character of a conversion. -/
def Conversion.char : Conversion → UInt8
  | V .. => ch 'V'
  | s _ => ch 's'
  | d _ => ch 'd'
  | D _ => ch 'D'
  | l _ => ch 'l'
  | L _ => ch 'L'
  | p _ => ch 'p'
  | c _ => ch 'c'
  | Z => ch 'Z'
  | N => ch 'N'
  | self x .. => x

/-- The argument of a conversion. -/
def Conversion.args : Conversion → List Arg
  | V len data _ => [.str len data]
  | s data => [.chars data]
  | d v | D v | c v => [.int v]
  | l v | L v => [.long v]
  | p v => [.ptr v]
  | Z | N | self .. => []

/-- A string ends with a null character or is as long as the flags say. -/
def Conversion.Readable (f : Flags) : Conversion → Prop
  | s data => if f.slen = noLen then 0 ∈ data else f.slen ≤ data.length
  | _ => True

/-- What the flags set. -/
def setFlags (flags : List Flag) : Flags :=
  flags.foldl (fun f flag ↦ flag.set f) { sign := true, hex := 0, slen := noLen }

/-- A complete directive with its arguments. -/
structure Directive where
  /-- The digits of the width, the first of which may be a flag. -/
  width : List UInt8
  /-- The flags. -/
  flags : List Flag
  /-- The digits after a dot. -/
  frac : Option (List UInt8)
  /-- The conversion. -/
  conv : Conversion
  /-- The width is a number. -/
  width_digits : ∀ c ∈ width, IsDigit c
  /-- The part after the dot is a number. -/
  frac_digits : ∀ ds ∈ frac, ∀ c ∈ ds, IsDigit c
  /-- Strings may be read. -/
  readable : conv.Readable (setFlags flags)

/-- The text behind the `%`. -/
def Directive.text (d : Directive) : List UInt8 :=
  d.width ++ (d.flags.map Flag.char ++ ((d.frac.elim [] fun ds ↦ ch '.' :: ds) ++ [d.conv.char]))

/-- The arguments of the directive. -/
def Directive.args (d : Directive) : List Arg := d.flags.flatMap Flag.args ++ d.conv.args

/-- A part of a format with its arguments. -/
inductive Item where
  /-- A character that is copied. -/
  | plain (c : UInt8) (h : c ≠ ch '%')
  /-- A directive. -/
  | directive (d : Directive)

/-- The text of the part. -/
def Item.text : Item → List UInt8
  | plain c _ => [c]
  | directive d => ch '%' :: d.text

/-- The arguments of the part. -/
def Item.args : Item → List Arg
  | plain .. => []
  | directive d => d.args

/-! ## Reading a directive -/

variable {fmt : List UInt8}

theorem readDigits_append {ds : List UInt8} (h : ∀ c ∈ ds, IsDigit c) (n : Nat)
    (hfmt : ∀ c ∈ fmt.head?, ¬ IsDigit c) : ∃ k, readDigits (ds ++ fmt) n = (k, fmt) := by
  induction ds generalizing n with
  | nil =>
    cases fmt with
    | nil => exact ⟨n, rfl⟩
    | cons c fmt => exact ⟨n, if_neg (hfmt c rfl)⟩
  | cons d ds ih =>
    obtain ⟨k, hk⟩ := ih (fun c hc ↦ h c (List.mem_cons_of_mem _ hc)) ((n * 10 + d.toNat - 48) % 2 ^ 32)
    refine ⟨k, ?_⟩
    rw [List.cons_append, readDigits, if_pos (h d List.mem_cons_self), hk]

theorem readFlags_map (flags : List Flag) (f : Flags) (fmt : List UInt8) (args : List Arg) :
    readFlags (flags.map Flag.char ++ fmt) f (flags.flatMap Flag.args ++ args) =
      readFlags fmt (flags.foldl (fun f flag ↦ flag.set f) f) args := by
  induction flags generalizing f with
  | nil => rfl
  | cons flag flags ih =>
    cases flag <;> exact ih _

theorem Flag.char_mem (flag : Flag) : flag.char ∈ "umXx*".toList.map ch := by
  cases flag <;> simp [Flag.char]

theorem Flag.not_isDigit (flag : Flag) : ¬ IsDigit flag.char := by
  have hall : ∀ c ∈ "umXx*".toList.map ch, ¬ IsDigit c := by simp [IsDigit, ch]
  exact hall _ flag.char_mem

theorem Conversion.char_mem (v : Conversion) : v.char ∈ "VsdDlLpcZN".toList.map ch ∨
    v.char ∉ "VsdDlLfpcZNumXx.*".toList.map ch ∧ ¬ IsDigit v.char := by
  cases v
  case self x other digit => exact .inr ⟨other, digit⟩
  all_goals simp [Conversion.char]

theorem Conversion.not_isDigit (v : Conversion) : ¬ IsDigit v.char := by
  have hall : ∀ c ∈ "VsdDlLpcZN".toList.map ch, ¬ IsDigit c := by simp [IsDigit, ch]
  rcases v.char_mem with h | ⟨-, h⟩
  · exact hall _ h
  · exact h

/-- No conversion is taken for a flag. -/
theorem Conversion.char_ne (v : Conversion) {c : Char} (hc : c ∈ "umXx.*".toList) :
    v.char ≠ ch c := by
  have hall : ∀ x ∈ "VsdDlLpcZN".toList.map ch, ∀ c ∈ "umXx.*".toList, x ≠ ch c := by
    simp [ch]
  have hsub : ∀ c ∈ "umXx.*".toList, c ∈ "VsdDlLfpcZNumXx.*".toList := by simp
  rcases v.char_mem with h | ⟨h, -⟩
  · exact hall _ h c hc
  · intro he
    rw [he] at h
    exact h (List.mem_map_of_mem (hsub c hc))

theorem readFlags_char (v : Conversion) (f : Flags) (fmt : List UInt8) (args : List Arg) :
    readFlags (v.char :: fmt) f args = .ok (f, v.char :: fmt, args) := by
  rw [readFlags, if_neg (v.char_ne (by decide)), if_neg (v.char_ne (by decide)),
    if_neg (v.char_ne (by decide)), if_neg (v.char_ne (by decide)),
    if_neg (v.char_ne (by decide)), if_neg (v.char_ne (by decide))]

/-- The dot and the digits behind it. -/
def Directive.fraction (d : Directive) : List UInt8 := d.frac.elim [] fun ds ↦ ch '.' :: ds

theorem Directive.readFlags_fraction (d : Directive) (f : Flags) (fmt : List UInt8)
    (args : List Arg) : readFlags (d.fraction ++ d.conv.char :: fmt) f args =
      .ok (f, d.conv.char :: fmt, args) := by
  unfold Directive.fraction
  cases hfrac : d.frac with
  | none => exact readFlags_char _ _ _ _
  | some ds =>
    obtain ⟨k, hk⟩ : ∃ k, readDigits (ds ++ d.conv.char :: fmt) 0 = (k, d.conv.char :: fmt) :=
      readDigits_append (d.frac_digits ds hfrac) 0 (by
        rintro c ⟨⟩
        exact d.conv.not_isDigit)
    change Except.ok (_, (readDigits (ds ++ (d.conv.char :: fmt)) 0).2, _) = _
    rw [hk]

theorem Directive.head_not_isDigit (d : Directive) (fmt : List UInt8) :
    ∀ c ∈ (d.flags.map Flag.char ++ (d.fraction ++ d.conv.char :: fmt)).head?, ¬ IsDigit c := by
  unfold Directive.fraction
  cases d.flags with
  | cons flag flags =>
    rintro c ⟨⟩
    exact flag.not_isDigit
  | nil =>
    cases d.frac with
    | some ds =>
      rintro c ⟨⟩
      decide
    | none =>
      rintro c ⟨⟩
      exact d.conv.not_isDigit

/-- A complete directive is read as such. -/
theorem Directive.read (d : Directive) (fmt : List UInt8) (args : List Arg) :
    ∃ zero width, ∀ last o, directive last o (d.text ++ fmt) (d.args ++ args) =
      convert last o d.conv.char zero width (setFlags d.flags) (d.conv.args ++ args) >>=
        fun x ↦ .ok (x.1, fmt, x.2) := by
  obtain ⟨width, hwidth⟩ := readDigits_append d.width_digits 0 (d.head_not_isDigit fmt)
  have htext : d.text ++ fmt =
      d.width ++ (d.flags.map Flag.char ++ (d.fraction ++ d.conv.char :: fmt)) := by
    simp only [Directive.text, Directive.fraction, List.append_assoc, List.singleton_append]
  rw [← htext] at hwidth
  have hflags := readFlags_map d.flags { sign := true, hex := 0, slen := noLen }
    (d.fraction ++ d.conv.char :: fmt) (d.conv.args ++ args)
  rw [d.readFlags_fraction] at hflags
  refine ⟨if (d.text ++ fmt).head? = some (ch '0') then ch '0' else ch ' ', width,
    fun last o ↦ ?_⟩
  unfold directive
  simp only [hwidth, Directive.args, List.append_assoc, hflags, Exec.ok_bind]
  rfl

end Dlbase.DlString
