import Dlbase.String.Bounded

/-!
# Formats in memory

`dl_vslprintf` on a format with its null character, which is the last element of the list here: an
empty list is a pointer behind the null character, where the code must not read.  All directives
are there, `%f` with the operations on `double` as a parameter.  The arguments of type `double`
are a list of their own.
-/

namespace Dlbase.DlString

open Cmem

/-- Why the code comes to a stop before it returns. -/
inductive Stop where
  /-- It reads a byte of the format behind the null character. -/
  | beyond
  /-- It does something else without a meaning; for example an argument is missing. -/
  | undefined
deriving DecidableEq, Repr

/-- A computation that reads the format. -/
abbrev Scan := Except Stop

@[simp] theorem Scan.ok_bind {α β : Type} (a : α) (f : α → Scan β) :
    ((.ok a : Scan α) >>= f) = f a := rfl

/-- A sequence returns if both parts do. -/
theorem Scan.bind_eq_ok {α β : Type} {x : Scan α} {f : α → Scan β} {b : β} :
    (x >>= f) = .ok b ↔ ∃ a, x = .ok a ∧ f a = .ok b := by
  cases x <;> simp [bind, Except.bind]

/-- A part of the code that does not read the format. -/
def unread {α : Type} : Exec α → Scan α
  | .ok x => .ok x
  | .error _ => .error .undefined

/-- The operations on `double` that the code uses. -/
structure Doubles where
  /-- `f < 0`. -/
  negative : BitVec 64 → Bool
  /-- `-f`. -/
  neg : BitVec 64 → BitVec 64
  /-- `(int64_t) f`. -/
  truncate : BitVec 64 → Int64
  /-- `(uint64_t) ((f - (double) ui64) * scale + 0.5)`. -/
  frac : BitVec 64 → UInt64 → UInt32 → UInt64

/-- `*fmt`. -/
def peek : List UInt8 → Scan UInt8
  | [] => .error .beyond
  | c :: _ => .ok c

/-- The loops that read a number of type `uint`. -/
def scanNumber : List UInt8 → Nat → Scan (Nat × List UInt8)
  | [], _ => .error .beyond
  | c :: fmt, n =>
    if IsDigit c then scanNumber fmt ((n * 10 + c.toNat - 48) % 2 ^ 32) else .ok (n, c :: fmt)

/-- The loop that reads the flags, and the number behind a dot. -/
def scanFlags : List UInt8 → Flags → List Arg → Scan (Flags × Nat × List UInt8 × List Arg)
  | [], _, _ => .error .beyond
  | c :: fmt, f, args =>
    if c = ch 'u' then scanFlags fmt { f with sign := false } args
    else if c = ch 'm' then scanFlags fmt f args
    else if c = ch 'X' then scanFlags fmt { f with hex := 2, sign := false } args
    else if c = ch 'x' then scanFlags fmt { f with hex := 1, sign := false } args
    else if c = ch '.' then do
      let (fracWidth, fmt) ← scanNumber fmt 0
      pure (f, fracWidth, fmt, args)
    else if c = ch '*' then do
      let (v, args) ← unread (vaLong args)
      scanFlags fmt { f with slen := v.toNat } args
    else .ok (f, 0, c :: fmt, args)

/-- The directive `%f` behind the sign. -/
def putMagnitude (D : Doubles) (last : Nat) (o : Output UInt8) (f : BitVec 64) (zero : UInt8)
    (width fracWidth : Nat) : Exec (Output UInt8) :=
  let ui64 := (D.truncate f).toUInt64
  if fracWidth = 0 then
    sprintfNum o last ui64.toNat zero 0 width
  else do
    let scale := UInt32.ofNat (10 ^ fracWidth)
    let frac := D.frac f ui64 scale
    let (ui64, frac) := if frac = scale.toUInt64 then (ui64 + 1, 0) else (ui64, frac)
    let o ← sprintfNum o last ui64.toNat zero 0 width
    let o := if o.pos < last then o.put (ch '.') else o
    sprintfNum o last frac.toNat (ch '0') 0 fracWidth

/-- The directive `%f`. -/
def putDouble (D : Doubles) (last : Nat) (o : Output UInt8) (f : BitVec 64) (zero : UInt8)
    (width fracWidth : Nat) : Exec (Output UInt8) :=
  if D.negative f then putMagnitude D last (o.put (ch '-')) (D.neg f) zero width fracWidth
  else putMagnitude D last o f zero width fracWidth

/-- The second `switch`. -/
def scanConvert (D : Doubles) (last : Nat) (o : Output UInt8) (c zero : UInt8)
    (width fracWidth : Nat) (f : Flags) (args : List Arg) (doubles : List (BitVec 64)) :
    Scan (Output UInt8 × List Arg × List (BitVec 64)) :=
  if c = ch 'f' then
    match doubles with
    | [] => .error .undefined
    | v :: doubles => do
      let o ← unread (putDouble D last o v zero width fracWidth)
      pure (o, args, doubles)
  else do
    let (o, args) ← unread (convert last o c zero width f args)
    pure (o, args, doubles)

/-- What follows a `%`.  Each conversion steps over its character; so does the default, which
copies it, for the null character too. -/
def scanDirective (D : Doubles) (last : Nat) (o : Output UInt8) (fmt : List UInt8)
    (args : List Arg) (doubles : List (BitVec 64)) :
    Scan (Output UInt8 × List UInt8 × List Arg × List (BitVec 64)) := do
  let c ← peek fmt
  let zero := if c = ch '0' then ch '0' else ch ' '
  let (width, fmt) ← scanNumber fmt 0
  let (f, fracWidth, fmt, args) ←
    scanFlags fmt { sign := true, hex := 0, slen := noLen } args
  let c ← peek fmt
  let (o, args, doubles) ← scanConvert D last o c zero width fracWidth f args doubles
  pure (o, fmt.tail, args, doubles)

theorem length_scanNumber {fmt fmt' : List UInt8} {n k : Nat}
    (h : scanNumber fmt n = .ok (k, fmt')) : fmt'.length ≤ fmt.length := by
  induction fmt generalizing n with
  | nil => cases h
  | cons c fmt ih =>
    rw [scanNumber] at h
    split_ifs at h
    · exact Nat.le_succ_of_le (ih h)
    · obtain ⟨-, rfl⟩ := Prod.mk.inj (Except.ok.inj h)
      exact Nat.le_refl _

theorem length_scanFlags {fmt fmt' : List UInt8} {f f' : Flags} {n : Nat} {args args' : List Arg}
    (h : scanFlags fmt f args = .ok (f', n, fmt', args')) : fmt'.length ≤ fmt.length := by
  induction fmt generalizing f args with
  | nil => cases h
  | cons c fmt ih =>
    rw [scanFlags] at h
    split_ifs at h
    · exact Nat.le_succ_of_le (ih h)
    · exact Nat.le_succ_of_le (ih h)
    · exact Nat.le_succ_of_le (ih h)
    · exact Nat.le_succ_of_le (ih h)
    · obtain ⟨⟨k, rest⟩, hnum, h⟩ := Scan.bind_eq_ok.mp h
      obtain ⟨-, -, rfl, -⟩ := Except.ok.inj h
      exact Nat.le_succ_of_le (length_scanNumber hnum)
    · obtain ⟨x, -, h⟩ := Scan.bind_eq_ok.mp h
      exact Nat.le_succ_of_le (ih h)
    · obtain ⟨-, -, rfl, -⟩ := Except.ok.inj h
      exact Nat.le_refl _

/-- A directive takes at least one character. -/
theorem length_scanDirective {D : Doubles} {last : Nat} {o o' : Output UInt8}
    {fmt fmt' : List UInt8} {args args' : List Arg} {doubles doubles' : List (BitVec 64)}
    (h : scanDirective D last o fmt args doubles = .ok (o', fmt', args', doubles')) :
    fmt'.length < fmt.length := by
  obtain ⟨c, hc, h⟩ := Scan.bind_eq_ok.mp h
  obtain ⟨⟨width, fmt₁⟩, hnum, h⟩ := Scan.bind_eq_ok.mp h
  obtain ⟨⟨f, n, fmt₂, args₁⟩, hflags, h⟩ := Scan.bind_eq_ok.mp h
  obtain ⟨c', hc', h⟩ := Scan.bind_eq_ok.mp h
  have hle := Nat.le_trans (length_scanFlags hflags) (length_scanNumber hnum)
  have htail : fmt₂.tail.length < fmt₂.length := by
    cases fmt₂ with
    | nil => cases hc'
    | cons c fmt₂ => exact Nat.lt_succ_self _
  obtain ⟨⟨o₁, args₂, doubles₁⟩, -, h⟩ := Scan.bind_eq_ok.mp h
  obtain ⟨-, rfl, -⟩ := Except.ok.inj h
  exact Nat.lt_of_lt_of_le htail hle

/-- `dl_vslprintf`. -/
def scan (D : Doubles) (last : Nat) (o : Output UInt8) (fmt : List UInt8) (args : List Arg)
    (doubles : List (BitVec 64)) : Scan (Output UInt8) :=
  match fmt with
  | [] => .error .beyond
  | c :: fmt =>
    if c ≠ 0 ∧ o.pos < last then
      if c = ch '%' then
        match _h : scanDirective D last o fmt args doubles with
        | .ok (o, fmt, args, doubles) => scan D last o fmt args doubles
        | .error e => .error e
      else
        scan D last (o.put c) fmt args doubles
    else
      .ok o
termination_by fmt.length
decreasing_by
  · exact Nat.lt_succ_of_lt (length_scanDirective ‹_›)
  · exact Nat.lt_succ_self _

end Dlbase.DlString
