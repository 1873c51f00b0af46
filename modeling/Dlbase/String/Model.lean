import Dlbase.Lib.Output
import Dlbase.Pool.Model

/-!
# Formatted output of `dl_string.c`

A format is the list of its characters without the null character at the end.  An argument that is
a pointer to characters stands for the characters that may be read there, which do not overlap the
buffer.  The directive `%f` is left out: its argument is a `double`.
-/

namespace Dlbase.DlString

open Cmem

/-- A character of the source. -/
def ch (c : Char) : UInt8 := UInt8.ofNat c.toNat

/-- An argument of a variadic call. -/
inductive Arg where
  /-- An `int`, an `int32_t` or one of their unsigned counterparts. -/
  | int (v : BitVec 32)
  /-- A `long`, an `int64_t`, a `size_t` or one of their unsigned counterparts. -/
  | long (v : BitVec 64)
  /-- A `void *`. -/
  | ptr (v : BitVec 64)
  /-- A `char *` and what may be read from there on. -/
  | chars (data : List UInt8)
  /-- A `dl_str *`: its length and what may be read from its data on. -/
  | str (len : Nat) (data : List UInt8)
deriving DecidableEq, Repr

/-- `DL_INT64_LEN`. -/
def int64Len : Nat := 20

/-- `(size_t) -1`. -/
def noLen : Nat := 2 ^ 64 - 1

/-- `dl_cpymem`. -/
def cpymem (o : Output UInt8) (data : List UInt8) (n : Nat) : Exec (Output UInt8) :=
  if n ≤ data.length then .ok (o.write (data.take n)) else Exec.undef

/-! ## Numbers -/

/-- A character of `hex` or, in upper case, of `HEX`. -/
def hexDigit (upper : Bool) (d : Nat) : UInt8 :=
  if d < 10 then UInt8.ofNat (48 + d) else UInt8.ofNat ((if upper then 55 else 87) + d)

/-- The loops that write the digits of a number from the end of `temp` to the front; there is room
for `room` more. -/
def digitsLoop (digit : Nat → UInt8) (base : Nat) : Nat → Nat → List UInt8 → Exec (List UInt8)
  | 0, _, _ => Exec.undef
  | room + 1, n, p =>
    let p := digit (n % base) :: p
    if n / base = 0 then .ok p else digitsLoop digit base room (n / base) p

/-- The digits of a number.  A decimal number that fits in 32 bits is divided in 32 bits, which
makes no difference. -/
def digits (n hex : Nat) : Exec (List UInt8) :=
  if hex = 0 then digitsLoop (fun d ↦ UInt8.ofNat (d + 48)) 10 int64Len n []
  else if hex = 1 then digitsLoop (hexDigit false) 16 int64Len n []
  else digitsLoop (hexDigit true) 16 int64Len n []

/-- `while (len++ < width && buf < last)`, with `n` for what is left to `width`. -/
def pad (last : Nat) (zero : UInt8) : Nat → Output UInt8 → Output UInt8
  | 0, o => o
  | n + 1, o => if o.pos < last then pad last zero n (o.put zero) else o

/-- `dl_sprintf_num`. -/
def sprintfNum (o : Output UInt8) (last n : Nat) (zero : UInt8) (hex width : Nat) :
    Exec (Output UInt8) := do
  let p ← digits n hex
  let o := pad last zero (width - p.length) o
  let len := if (o.pos + p.length) % 2 ^ 64 > last then Pool.subSize last o.pos else p.length
  cpymem o p len

/-! ## Arguments -/

/-- `va_arg` for an `int`. -/
def vaInt : List Arg → Exec (BitVec 32 × List Arg)
  | .int v :: args => .ok (v, args)
  | _ => Exec.undef

/-- `va_arg` for a `long` or a `size_t`. -/
def vaLong : List Arg → Exec (BitVec 64 × List Arg)
  | .long v :: args => .ok (v, args)
  | _ => Exec.undef

/-- `va_arg` for a `void *`. -/
def vaPtr : List Arg → Exec (BitVec 64 × List Arg)
  | .ptr v :: args => .ok (v, args)
  | _ => Exec.undef

/-- `va_arg` for a `char *`. -/
def vaChars : List Arg → Exec (List UInt8 × List Arg)
  | .chars data :: args => .ok (data, args)
  | _ => Exec.undef

/-- `va_arg` for a `dl_str *`. -/
def vaStr : List Arg → Exec ((Nat × List UInt8) × List Arg)
  | .str len data :: args => .ok ((len, data), args)
  | _ => Exec.undef

/-! ## Directives -/

/-- What the flags of a directive set. -/
structure Flags where
  /-- Whether the number is signed. -/
  sign : Bool
  /-- Whether the number is decimal, or hexadecimal in lower or upper case. -/
  hex : Nat
  /-- The length of a string, or `noLen`. -/
  slen : Nat
deriving DecidableEq, Repr

/-- Whether a character is between `0` and `9`. -/
def IsDigit (c : UInt8) : Prop := ch '0' ≤ c ∧ c ≤ ch '9'

instance (c : UInt8) : Decidable (IsDigit c) := inferInstanceAs (Decidable (_ ∧ _))

/-- `c | 0x20` is a letter from `a` to `f`. -/
def IsHexLetter (c : UInt8) : Prop := ch 'a' ≤ c ||| 0x20 ∧ c ||| 0x20 ≤ ch 'f'

instance (c : UInt8) : Decidable (IsHexLetter c) := inferInstanceAs (Decidable (_ ∧ _))

/-- The loops that read a number of type `uint` from the format. -/
def readDigits : List UInt8 → Nat → Nat × List UInt8
  | [], n => (n, [])
  | c :: fmt, n =>
    if IsDigit c then readDigits fmt ((n * 10 + c.toNat - 48) % 2 ^ 32) else (n, c :: fmt)

/-- The loop that reads the flags.  The flag `m` sets a variable that is not used, and the number
after the dot is used by `%f` only. -/
def readFlags : List UInt8 → Flags → List Arg → Exec (Flags × List UInt8 × List Arg)
  | [], f, args => .ok (f, [], args)
  | c :: fmt, f, args =>
    if c = ch 'u' then readFlags fmt { f with sign := false } args
    else if c = ch 'm' then readFlags fmt f args
    else if c = ch 'X' then readFlags fmt { f with hex := 2, sign := false } args
    else if c = ch 'x' then readFlags fmt { f with hex := 1, sign := false } args
    else if c = ch '.' then .ok (f, (readDigits fmt 0).2, args)
    else if c = ch '*' then
      vaLong args >>= fun x ↦ readFlags fmt { f with slen := x.1.toNat } x.2
    else .ok (f, c :: fmt, args)

/-- `while (*p && buf < last)`. -/
def copyUntilNul (last : Nat) : Output UInt8 → List UInt8 → Exec (Output UInt8)
  | _, [] => Exec.undef
  | o, c :: p => if c ≠ 0 ∧ o.pos < last then copyUntilNul last (o.put c) p else .ok o

/-- The directive `%s`. -/
def putString (last : Nat) (o : Output UInt8) (p : List UInt8) (f : Flags) :
    Exec (Output UInt8) :=
  if f.slen = noLen then copyUntilNul last o p
  else cpymem o p (min (Pool.subSize last o.pos) f.slen)

/-- The end of an integer directive.  The number is `i64` if it is signed and `ui64` otherwise;
`-i64` wraps around. -/
def putInteger (last : Nat) (o : Output UInt8) (i64 : Int) (ui64 : Nat) (zero : UInt8)
    (width : Nat) (f : Flags) : Exec (Output UInt8) :=
  if f.sign then
    if i64 < 0 then sprintfNum (o.put (ch '-')) last (-i64 % 2 ^ 64).toNat zero f.hex width
    else sprintfNum o last i64.toNat zero f.hex width
  else
    sprintfNum o last ui64 zero f.hex width

/-- The second `switch`, with the character `c` of the directive. -/
def convert (last : Nat) (o : Output UInt8) (c zero : UInt8) (width : Nat) (f : Flags)
    (args : List Arg) : Exec (Output UInt8 × List Arg) :=
  if c = ch 'V' then do
    let ((len, data), args) ← vaStr args
    let o ← cpymem o data (min (Pool.subSize last o.pos) len)
    pure (o, args)
  else if c = ch 's' then do
    let (data, args) ← vaChars args
    let o ← putString last o data f
    pure (o, args)
  else if c = ch 'd' ∨ c = ch 'D' then do
    let (v, args) ← vaInt args
    let o ← putInteger last o v.toInt v.toNat zero width f
    pure (o, args)
  else if c = ch 'l' ∨ c = ch 'L' then do
    let (v, args) ← vaLong args
    let o ← putInteger last o v.toInt v.toNat zero width f
    pure (o, args)
  else if c = ch 'f' then
    Exec.undef
  else if c = ch 'p' then do
    let (v, args) ← vaPtr args
    let o ← putInteger last o 0 v.toNat (ch '0') 16 { f with hex := 2, sign := false }
    pure (o, args)
  else if c = ch 'c' then do
    let (v, args) ← vaInt args
    pure (o.put (UInt8.ofNat (v.toNat % 256)), args)
  else if c = ch 'Z' then
    pure (o.put 0, args)
  else if c = ch 'N' then
    pure (o.put 10, args)
  else
    pure (o.put c, args)

/-- What follows a `%`.  At the end of the format the null character would be written and the code
would read on behind it. -/
def directive (last : Nat) (o : Output UInt8) (fmt : List UInt8) (args : List Arg) :
    Exec (Output UInt8 × List UInt8 × List Arg) := do
  let zero := if fmt.head? = some (ch '0') then ch '0' else ch ' '
  let (width, fmt) := readDigits fmt 0
  let (f, fmt, args) ← readFlags fmt { sign := true, hex := 0, slen := noLen } args
  match fmt with
  | [] => Exec.undef
  | c :: fmt => do
    let (o, args) ← convert last o c zero width f args
    pure (o, fmt, args)

theorem length_readDigits (fmt : List UInt8) (n : Nat) :
    (readDigits fmt n).2.length ≤ fmt.length := by
  induction fmt generalizing n with
  | nil => exact Nat.le_refl _
  | cons c fmt ih =>
    rw [readDigits]
    split_ifs
    · exact Nat.le_succ_of_le (ih _)
    · exact Nat.le_refl _

theorem length_readFlags {fmt fmt' : List UInt8} {f f' : Flags} {args args' : List Arg}
    (h : readFlags fmt f args = .ok (f', fmt', args')) : fmt'.length ≤ fmt.length := by
  induction fmt generalizing f args with
  | nil =>
    obtain ⟨-, rfl, -⟩ := Except.ok.inj h
    exact Nat.le_refl _
  | cons c fmt ih =>
    rw [readFlags] at h
    split_ifs at h
    · exact Nat.le_succ_of_le (ih h)
    · exact Nat.le_succ_of_le (ih h)
    · exact Nat.le_succ_of_le (ih h)
    · exact Nat.le_succ_of_le (ih h)
    · obtain ⟨-, rfl, -⟩ := Except.ok.inj h
      exact Nat.le_succ_of_le (length_readDigits fmt 0)
    · obtain ⟨x, -, h⟩ := Exec.bind_eq_ok.mp h
      exact Nat.le_succ_of_le (ih h)
    · obtain ⟨-, rfl, -⟩ := Except.ok.inj h
      exact Nat.le_refl _

/-- A directive takes at least one character. -/
theorem length_directive {last : Nat} {o o' : Output UInt8} {fmt fmt' : List UInt8}
    {args args' : List Arg} (h : directive last o fmt args = .ok (o', fmt', args')) :
    fmt'.length < fmt.length := by
  obtain ⟨⟨f, rest, args₁⟩, hflags, h⟩ := Exec.bind_eq_ok.mp h
  have hle := Nat.le_trans (length_readFlags hflags) (length_readDigits fmt 0)
  cases rest with
  | nil => cases h
  | cons c rest =>
    obtain ⟨⟨o₁, args₂⟩, -, h⟩ := Exec.bind_eq_ok.mp h
    obtain ⟨-, rfl, -⟩ := Except.ok.inj h
    exact hle

/-- `dl_vslprintf`. -/
def vslprintf (last : Nat) (o : Output UInt8) (fmt : List UInt8) (args : List Arg) :
    Exec (Output UInt8) :=
  match fmt with
  | [] => .ok o
  | c :: fmt =>
    if o.pos < last then
      if c = ch '%' then
        match _h : directive last o fmt args with
        | .ok (o, fmt, args) => vslprintf last o fmt args
        | .error e => .error e
      else
        vslprintf last (o.put c) fmt args
    else
      .ok o
termination_by fmt.length
decreasing_by
  · exact Nat.lt_succ_of_lt (length_directive ‹_›)
  · exact Nat.lt_succ_self _

/-- `dl_sprintf` with the buffer at `buf`. -/
def sprintf (mem : Nat → UInt8) (buf : Nat) (fmt : List UInt8) (args : List Arg) :
    Exec (Output UInt8) :=
  vslprintf (2 ^ 64 - 1) ⟨mem, buf⟩ fmt args

/-- `dl_snprintf` with the buffer at `buf`. -/
def snprintf (mem : Nat → UInt8) (buf max : Nat) (fmt : List UInt8) (args : List Arg) :
    Exec (Output UInt8) :=
  vslprintf ((buf + max) % 2 ^ 64) ⟨mem, buf⟩ fmt args

end Dlbase.DlString
