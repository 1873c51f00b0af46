import Dlbase.String.Escape

/-!
# Unescaping

`dl_unescape_uri` reads and writes one memory through two pointers.  The destination may be the
source: what has been read and is still needed lies behind what is written, because a quoted
character takes at least as many bytes to read as to write.

What is written is a function of the bytes that are read.  That it undoes `dl_escape_uri` is shown
for that function.
-/

namespace Dlbase.DlString

open Cmem

/-- `DL_UNESCAPE_URI`. -/
def unescapeUriFlag : BitVec 32 := 1

/-- `DL_UNESCAPE_REDIRECT`. -/
def unescapeRedirectFlag : BitVec 32 := 2

/-- The flag is set. -/
def Flagged (type flag : BitVec 32) : Prop := type &&& flag ≠ 0

instance (type flag : BitVec 32) : Decidable (Flagged type flag) :=
  inferInstanceAs (Decidable (_ ≠ _))

/-- The states of `dl_unescape_uri`. -/
inductive Quoting where
  /-- `sw_usual`. -/
  | usual
  /-- `sw_quoted`. -/
  | quoted
  /-- `sw_quoted_second`. -/
  | quotedSecond
deriving DecidableEq, Repr

/-- What is done with a character. -/
inductive Unquoting where
  /-- The next state and `decoded`. -/
  | go (state : Quoting) (decoded : UInt8)
  /-- The character is written, and the state is `sw_usual`; whether this is the last one. -/
  | put (c : UInt8) (done : Bool)
  /-- `*d++ = '%'; *d++ = *(s - 2); *d++ = *(s - 1);`, and the state is `sw_usual`. -/
  | keep
  /-- Nothing is written, and the state is `sw_usual`. -/
  | drop
deriving DecidableEq, Repr

/-- `ch > '%' && ch < 0x7f`. -/
def IsSafe (c : UInt8) : Prop := ch '%' < c ∧ c < 0x7f

instance (c : UInt8) : Decidable (IsSafe c) := inferInstanceAs (Decidable (_ ∧ _))

/-- The `switch` of `dl_unescape_uri`. -/
def unquote (type : BitVec 32) (state : Quoting) (decoded c : UInt8) : Unquoting :=
  match state with
  | .usual =>
    if c = ch '?' ∧ Flagged type (unescapeUriFlag ||| unescapeRedirectFlag) then .put c true
    else if c = ch '%' then .go .quoted decoded
    else .put c false
  | .quoted =>
    if IsDigit c then .go .quotedSecond (c - ch '0')
    else if IsHexLetter c then .go .quotedSecond ((c ||| 0x20) - ch 'a' + 10)
    else .put c false
  | .quotedSecond =>
    if IsDigit c then
      let c := (decoded <<< 4) + (c - ch '0')
      if Flagged type unescapeRedirectFlag then
        if IsSafe c then .put c false else .keep
      else .put c false
    else if IsHexLetter c then
      let c := (decoded <<< 4) + ((c ||| 0x20) - ch 'a') + 10
      if Flagged type unescapeUriFlag then .put c (c = ch '?')
      else if Flagged type unescapeRedirectFlag then
        if c = ch '?' then .put c true
        else if IsSafe c then .put c false
        else .keep
      else .put c false
    else .drop

/-- The variables of `dl_unescape_uri`: the memory with `d`, `s`, `state` and `decoded`. -/
structure Unescaper where
  /-- The memory, and `d`. -/
  out : Output UInt8
  /-- `s`. -/
  s : Nat
  /-- `state`. -/
  state : Quoting
  /-- `decoded`. -/
  decoded : UInt8

/-- `*d++ = '%'; *d++ = *(s - 2); *d++ = *(s - 1);`. -/
def Unescaper.keep (x : Unescaper) : Output UInt8 :=
  let out := x.out.put (ch '%')
  let out := out.put (out.mem (x.s - 2))
  out.put (out.mem (x.s - 1))

/-- A round of the loop, and whether it is the last one. -/
def Unescaper.round (type : BitVec 32) (x : Unescaper) : Unescaper × Bool :=
  let c := x.out.mem x.s
  let x := { x with s := x.s + 1 }
  match unquote type x.state x.decoded c with
  | .go state decoded => ({ x with state, decoded }, false)
  | .put c done => ({ x with out := x.out.put c, state := .usual }, done)
  | .keep => ({ x with out := x.keep, state := .usual }, false)
  | .drop => ({ x with state := .usual }, false)

/-- The loop. -/
def unescapeLoop (type : BitVec 32) : Nat → Unescaper → Unescaper
  | 0, x => x
  | size + 1, x =>
    let (x, done) := x.round type
    if done then x else unescapeLoop type size x

/-- `dl_unescape_uri`, where `dst` and `src` are the values of `*dst` and `*src`. -/
def unescapeUri (mem : Nat → UInt8) (dst src size : Nat) (type : BitVec 32) : Unescaper :=
  unescapeLoop type size ⟨⟨mem, dst⟩, src, .usual, 0⟩

/-! ## What is written -/

/-- What is written for the bytes, and how many of them are read; `last` is the byte before them. -/
def unquoteAll (type : BitVec 32) : Quoting → UInt8 → UInt8 → List UInt8 → List UInt8 × Nat
  | _, _, _, [] => ([], 0)
  | state, decoded, last, c :: l =>
    match unquote type state decoded c with
    | .go state decoded =>
      let (out, n) := unquoteAll type state decoded c l
      (out, n + 1)
    | .put b true => ([b], 1)
    | .put b false =>
      let (out, n) := unquoteAll type .usual decoded c l
      (b :: out, n + 1)
    | .keep =>
      let (out, n) := unquoteAll type .usual decoded c l
      (ch '%' :: last :: c :: out, n + 1)
    | .drop =>
      let (out, n) := unquoteAll type .usual decoded c l
      (out, n + 1)

/-- The number of bytes of a quoted character that have been read. -/
def Quoting.held : Quoting → Nat
  | usual => 0
  | quoted => 1
  | quotedSecond => 2

variable {type : BitVec 32} {state state' : Quoting} {decoded decoded' last c b : UInt8}
  {l : List UInt8} {x : Unescaper} {done : Bool}

/-- The states follow one another. -/
theorem held_of_go (h : unquote type state decoded c = .go state' decoded') :
    state'.held = state.held + 1 := by
  unfold unquote at h
  cases state with
  | usual =>
    dsimp only at h
    split_ifs at h
    obtain ⟨rfl, -⟩ := Unquoting.go.inj h
    rfl
  | quoted =>
    dsimp only at h
    split_ifs at h
    all_goals
      obtain ⟨rfl, -⟩ := Unquoting.go.inj h
      rfl
  | quotedSecond =>
    dsimp only at h
    split_ifs at h

theorem eq_of_keep (h : unquote type state decoded c = .keep) : state = .quotedSecond := by
  unfold unquote at h
  cases state with
  | usual =>
    dsimp only at h
    split_ifs at h
  | quoted =>
    dsimp only at h
    split_ifs at h
  | quotedSecond => rfl

/-- No more bytes are written than are read. -/
theorem length_unquoteAll (type : BitVec 32) (state : Quoting) (decoded last : UInt8)
    (l : List UInt8) :
    (unquoteAll type state decoded last l).1.length ≤
      state.held + (unquoteAll type state decoded last l).2 := by
  induction l generalizing state decoded last with
  | nil => exact Nat.zero_le _
  | cons c l ih =>
    rw [unquoteAll]
    have husual := ih .usual decoded c
    change _ ≤ 0 + _ at husual
    cases hu : unquote type state decoded c with
    | go state' decoded' =>
      have hle := ih state' decoded' c
      rw [held_of_go hu] at hle
      dsimp only
      omega
    | put b done =>
      cases done with
      | true => exact Nat.le_add_left _ _
      | false =>
        dsimp only
        rw [List.length_cons]
        omega
    | keep =>
      obtain rfl := eq_of_keep hu
      change (unquoteAll type .usual decoded c l).1.length + 3 ≤
        2 + ((unquoteAll type .usual decoded c l).2 + 1)
      omega
    | drop =>
      dsimp only
      omega

/-- The pointers and the memory are such that the bytes `l` will be read: they are there, as is the
byte before them if it may be written once more, and what will be written does not reach them. -/
structure Unescaper.Reads (x : Unescaper) (last : UInt8) (l : List UInt8) : Prop where
  /-- The bytes. -/
  mem : ∀ i (hi : i < l.length), x.out.mem (x.s + i) = l[i]
  /-- The first digit of a quoted character. -/
  last : x.state = .quotedSecond → x.out.mem (x.s - 1) = last
  /-- The quoted character has been read. -/
  held_le : x.state.held ≤ x.s
  /-- The output. -/
  behind : Output.Behind x.out.pos (x.s - x.state.held) (x.state.held + l.length)

/-- After some bytes have been written for a character, no character is quoted. -/
theorem Unescaper.Reads.write (h : x.Reads last (c :: l)) {w : List UInt8}
    (hw : w.length ≤ x.state.held + 1) (last' decoded' : UInt8) :
    Unescaper.Reads ⟨x.out.write w, x.s + 1, .usual, decoded'⟩ last' l := by
  have hlen : (c :: l).length = l.length + 1 := List.length_cons
  have hle := h.held_le
  have hbase : x.s - x.state.held + (x.state.held + 1) = x.s + 1 := by omega
  refine ⟨fun i hi ↦ ?_, nofun, Nat.zero_le _, ?_⟩
  · have hmem := h.behind.mem_write (w := w) (j := x.state.held + 1 + i) (by omega) (by omega)
    have haddr : x.s - x.state.held + (x.state.held + 1 + i) = x.s + (i + 1) := by omega
    rw [haddr, h.mem (i + 1) (by omega)] at hmem
    have hadd : x.s + 1 + i = x.s + (i + 1) := by omega
    change (x.out.write w).mem (x.s + 1 + i) = _
    rw [hadd, hmem]
    rfl
  · have hadv := h.behind.advance (k := x.state.held + 1) hw (by omega)
    rw [hbase] at hadv
    change Output.Behind (x.out.write w).pos (x.s + 1 - 0) (0 + l.length)
    rw [Output.pos_write, Nat.sub_zero, Nat.zero_add]
    have hn : x.state.held + (c :: l).length - (x.state.held + 1) = l.length := by omega
    rwa [hn] at hadv

/-- A quoted character that is not complete. -/
theorem Unescaper.Reads.go (h : x.Reads last (c :: l))
    (hu : unquote type x.state x.decoded c = .go state' decoded') :
    Unescaper.Reads ⟨x.out, x.s + 1, state', decoded'⟩ c l := by
  have hlen : (c :: l).length = l.length + 1 := List.length_cons
  have hle := h.held_le
  have hheld := held_of_go hu
  refine ⟨fun i hi ↦ ?_, fun _ ↦ h.mem 0 (Nat.succ_pos _), ?_, ?_⟩
  · have hmem := h.mem (i + 1) (by omega)
    have hadd : x.s + 1 + i = x.s + (i + 1) := by omega
    change x.out.mem (x.s + 1 + i) = _
    rw [hadd, hmem]
    rfl
  · change state'.held ≤ x.s + 1
    omega
  · have hbase : x.s + 1 - state'.held = x.s - x.state.held := by omega
    have hn : state'.held + l.length = x.state.held + (c :: l).length := by omega
    change Output.Behind x.out.pos (x.s + 1 - state'.held) (state'.held + l.length)
    rw [hbase, hn]
    exact h.behind

/-- The quoted character is copied, although a part of it may have been overwritten. -/
theorem Unescaper.Reads.keep_eq (h : x.Reads last (c :: l)) (hstate : x.state = .quotedSecond) :
    Unescaper.keep { x with s := x.s + 1 } = x.out.write [ch '%', last, c] := by
  have hle := h.held_le
  have hbehind := h.behind
  rw [hstate] at hle hbehind
  change 2 ≤ _ at hle
  change Output.Behind x.out.pos (x.s - 2) (2 + (l.length + 1)) at hbehind
  have hfirst : (x.out.put (ch '%')).mem (x.s - 1) = last := by
    have hmem := hbehind.mem_write (w := [ch '%']) (j := 1) (Nat.le_refl _) (by omega)
    have hadd : x.s - 2 + 1 = x.s - 1 := by omega
    rw [hadd, h.last hstate] at hmem
    exact hmem
  have hsecond : ((x.out.put (ch '%')).put last).mem x.s = c := by
    have hmem := hbehind.mem_write (w := [ch '%', last]) (j := 2) (Nat.le_refl _) (by omega)
    have hadd : x.s - 2 + 2 = x.s := by omega
    rw [hadd] at hmem
    exact hmem.trans (h.mem 0 (Nat.succ_pos _))
  have hs₂ : x.s + 1 - 2 = x.s - 1 := by omega
  simp only [Unescaper.keep, hs₂, Nat.add_sub_cancel, hfirst, hsecond]
  rfl

/-- What the loop writes and reads. -/
theorem unescapeLoop_eq (type : BitVec 32) (h : x.Reads last l) :
    (unescapeLoop type l.length x).out =
        x.out.write (unquoteAll type x.state x.decoded last l).1 ∧
      (unescapeLoop type l.length x).s = x.s + (unquoteAll type x.state x.decoded last l).2 := by
  induction l generalizing x last with
  | nil => exact ⟨rfl, rfl⟩
  | cons c l ih =>
    have hc : x.out.mem x.s = c := h.mem 0 (Nat.succ_pos _)
    have hnext : ∀ {x' : Unescaper} {w : List UInt8}, x.round type = (x', false) →
        x'.out = x.out.write w → x'.s = x.s + 1 → x'.Reads c l →
        unquoteAll type x.state x.decoded last (c :: l) =
          (w ++ (unquoteAll type x'.state x'.decoded c l).1,
            (unquoteAll type x'.state x'.decoded c l).2 + 1) →
        (unescapeLoop type (c :: l).length x).out =
            x.out.write (unquoteAll type x.state x.decoded last (c :: l)).1 ∧
          (unescapeLoop type (c :: l).length x).s =
            x.s + (unquoteAll type x.state x.decoded last (c :: l)).2 := by
      intro x' w hround hout hs hreads heq
      obtain ⟨ihout, ihs⟩ := ih hreads
      rw [List.length_cons, unescapeLoop, hround]
      change (unescapeLoop type l.length x').out = _ ∧ (unescapeLoop type l.length x').s = _
      rw [ihout, ihs, heq, hout, hs, Output.write_append]
      exact ⟨rfl, by dsimp only; omega⟩
    cases hu : unquote type x.state x.decoded c with
    | go state' decoded' =>
      have hround : x.round type = (⟨x.out, x.s + 1, state', decoded'⟩, false) := by
        simp only [Unescaper.round, hc, hu]
      refine hnext (w := []) hround rfl rfl (h.go hu) ?_
      rw [unquoteAll, hu]
      rfl
    | put b done =>
      have hround : x.round type =
          (⟨x.out.write [b], x.s + 1, .usual, x.decoded⟩, done) := by
        simp only [Unescaper.round, hc, hu]
        rfl
      cases done with
      | true =>
        rw [List.length_cons, unescapeLoop, hround, unquoteAll, hu]
        exact ⟨rfl, rfl⟩
      | false =>
        refine hnext (w := [b]) hround rfl rfl (h.write (Nat.le_add_left _ _) _ _) ?_
        rw [unquoteAll, hu]
        rfl
    | keep =>
      have hstate := eq_of_keep hu
      have hround : x.round type =
          (⟨x.out.write [ch '%', last, c], x.s + 1, .usual, x.decoded⟩, false) := by
        rw [← h.keep_eq hstate]
        simp only [Unescaper.round, hc, hu]
      have hw : [ch '%', last, c].length ≤ x.state.held + 1 := by
        rw [hstate]
        exact Nat.le_refl _
      refine hnext (w := [ch '%', last, c]) hround rfl rfl (h.write hw _ _) ?_
      rw [unquoteAll, hu]
      rfl
    | drop =>
      have hround : x.round type = (⟨x.out.write [], x.s + 1, .usual, x.decoded⟩, false) := by
        simp only [Unescaper.round, hc, hu]
        rfl
      refine hnext (w := []) hround rfl rfl (h.write (Nat.zero_le _) _ _) ?_
      rw [unquoteAll, hu]
      rfl

/-! ## The destination and the source -/

/-- What is written, and how far is read. -/
theorem unescapeUri_eq (mem : Nat → UInt8) {dst src size : Nat} (type : BitVec 32)
    (h : Output.Behind dst src size) :
    (unescapeUri mem dst src size type).out =
        Output.write ⟨mem, dst⟩ (unquoteAll type .usual 0 0 (Output.itemsAt mem src size)).1 ∧
      (unescapeUri mem dst src size type).s =
        src + (unquoteAll type .usual 0 0 (Output.itemsAt mem src size)).2 := by
  have hlen := Output.length_itemsAt mem src size
  have hreads : Unescaper.Reads ⟨⟨mem, dst⟩, src, .usual, 0⟩ 0 (Output.itemsAt mem src size) := by
    refine ⟨fun i hi ↦ ?_, nofun, Nat.zero_le _, ?_⟩
    · exact (Output.getElem_itemsAt hi).symm
    · change Output.Behind dst (src - 0) (0 + _)
      rwa [hlen, Nat.sub_zero, Nat.zero_add]
  have heq := unescapeLoop_eq type hreads
  rw [hlen] at heq
  exact heq

/-- When the destination is the source, the bytes that are written are those that are written
elsewhere, as many bytes are read, and after any number of rounds nothing has been written beyond
what has been read. -/
theorem unescape_in_place (mem : Nat → UInt8) {dst src size : Nat} (type : BitVec 32)
    (h : dst + size ≤ src ∨ src + size ≤ dst) :
    (∃ w : List UInt8,
      (unescapeUri mem src src size type).out = Output.write ⟨mem, src⟩ w ∧
      (unescapeUri mem dst src size type).out = Output.write ⟨mem, dst⟩ w ∧
      (unescapeUri mem src src size type).out.pos = src + w.length ∧
      (unescapeUri mem dst src size type).out.pos = dst + w.length) ∧
    (unescapeUri mem src src size type).s = (unescapeUri mem dst src size type).s ∧
    ∀ n, (unescapeUri mem src src n type).out.pos ≤ (unescapeUri mem src src n type).s ∧
      ∀ a, a < src ∨ (unescapeUri mem src src n type).s ≤ a →
        (unescapeUri mem src src n type).out.mem a = mem a := by
  obtain ⟨hx, hxs⟩ := unescapeUri_eq mem type (Output.behind_self src size)
  obtain ⟨hy, hys⟩ := unescapeUri_eq mem type (Output.behind_of_disjoint h)
  refine ⟨⟨_, hx, hy, ?_, ?_⟩, hxs.trans hys.symm, fun n ↦ ?_⟩
  · rw [hx, Output.pos_write]
  · rw [hy, Output.pos_write]
  · obtain ⟨hz, hzs⟩ := unescapeUri_eq mem type (Output.behind_self src n)
    have hlen := length_unquoteAll type .usual 0 0 (Output.itemsAt mem src n)
    change _ ≤ 0 + _ at hlen
    have hpos : (unescapeUri mem src src n type).out.pos ≤ (unescapeUri mem src src n type).s := by
      rw [hz, hzs, Output.pos_write]
      dsimp only
      omega
    refine ⟨hpos, fun a ha ↦ ?_⟩
    rw [hz, Output.pos_write] at hpos
    rw [hz]
    rcases ha with hlt | hle
    · exact Output.mem_write_of_lt hlt
    · exact Output.mem_write_of_le (Nat.le_trans hpos hle)

/-- A quoted percent sign, which stays quoted. -/
theorem unescape_in_place_percent :
    let mem := fun i ↦ [ch '%', ch '2', ch '5', ch 'a'].getD i 0
    (unescapeUri mem 0 0 4 unescapeRedirectFlag).s =
        (unescapeUri mem 4 0 4 unescapeRedirectFlag).s ∧
      ∀ n, (unescapeUri mem 0 0 n unescapeRedirectFlag).out.pos ≤
        (unescapeUri mem 0 0 n unescapeRedirectFlag).s := by
  intro mem
  have hdis : 4 + 4 ≤ 0 ∨ 0 + 4 ≤ 4 := by decide
  obtain ⟨-, hs, hle⟩ := unescape_in_place mem unescapeRedirectFlag hdis
  exact ⟨hs, fun n ↦ (hle n).1⟩

/-! ## Unescaping what has been escaped -/

theorem unquote_quoted (type : BitVec 32) (decoded : UInt8) (i : Fin 16) :
    unquote type .quoted decoded (hexTable.get i) = .go .quotedSecond (UInt8.ofNat i) := by
  change unquote 0 .quoted 0 (hexTable.get i) = _
  revert i
  decide

theorem unquote_quotedSecond (decoded : UInt8) (i : Fin 16) :
    unquote 0 .quotedSecond decoded (hexTable.get i) =
      .put (decoded <<< 4 + UInt8.ofNat i) false := by
  rcases Nat.lt_or_ge i 10 with hi | hi
  · have hdigit : ∀ i : Fin 16, i.val < 10 →
        IsDigit (hexTable.get i) ∧ hexTable.get i - ch '0' = UInt8.ofNat i := by decide
    obtain ⟨hd, hval⟩ := hdigit i hi
    change (if IsDigit _ then _ else _) = _
    rw [if_pos hd, hval]
    rfl
  · have hletter : ∀ i : Fin 16, 10 ≤ i.val → ¬ IsDigit (hexTable.get i) ∧
        IsHexLetter (hexTable.get i) ∧
          (hexTable.get i ||| 0x20) - ch 'a' + 10 = UInt8.ofNat i := by decide
    obtain ⟨hd, hl, hval⟩ := hletter i hi
    change (if IsDigit _ then _ else _) = _
    rw [if_neg hd, if_pos hl, ← hval]
    simp only [UInt8.add_assoc]
    rfl

/-- The first digit of an escaped byte. -/
theorem unquote_hexHigh (decoded c : UInt8) :
    unquote 0 .quoted decoded (hexHigh c) = .go .quotedSecond (c >>> 4) := by
  rw [hexHigh, unquote_quoted, UInt8.ofNat_toNat]

/-- The second digit of an escaped byte. -/
theorem unquote_hexLow (c : UInt8) :
    unquote 0 .quotedSecond (c >>> 4) (hexLow c) = .put c false := by
  rw [hexLow, unquote_quotedSecond, UInt8.ofNat_toNat, Hexadecimal.high_add_low]

theorem unquote_percent (decoded : UInt8) :
    unquote 0 .usual decoded (ch '%') = .go .quoted decoded := rfl

theorem unquote_plain (h : c ≠ ch '%') (decoded : UInt8) :
    unquote 0 .usual decoded c = .put c false := by
  have hflag : ¬ (c = ch '?' ∧ Flagged 0 (unescapeUriFlag ||| unescapeRedirectFlag)) :=
    fun h ↦ absurd h.2 (by decide)
  rw [unquote, if_neg hflag, if_neg h]

/-- The tables that contain the percent sign. -/
theorem escapes_percent_iff (type : EscapeType) :
    type.map.Escapes (ch '%') ↔ type ≠ .refresh := by
  cases type
  all_goals decide

/-- The bytes are read back when the percent sign is escaped. -/
theorem unquoteAll_escapeUri {type : EscapeType} (h : type.map.Escapes (ch '%'))
    (src : List UInt8) (decoded last : UInt8) :
    unquoteAll 0 .usual decoded last (escapeUri type src) =
      (src, (escapeUri type src).length) := by
  induction src generalizing decoded last with
  | nil => rfl
  | cons c src ih =>
    rw [escapeUri]
    split_ifs with hc
    · rw [unquoteAll, unquote_percent]
      dsimp only
      rw [unquoteAll, unquote_hexHigh]
      dsimp only
      rw [unquoteAll, unquote_hexLow]
      dsimp only
      rw [ih]
      rfl
    · have hne : c ≠ ch '%' := by
        rintro rfl
        exact hc h
      rw [unquoteAll, unquote_plain hne]
      dsimp only
      rw [ih]
      rfl

/-- Upper-case hexadecimal digits. -/
def IsUpperHex (c : UInt8) : Prop := IsDigit c ∨ ch 'A' ≤ c ∧ c ≤ ch 'F'

instance (c : UInt8) : Decidable (IsUpperHex c) := inferInstanceAs (Decidable (_ ∨ _))

/-- Text of bytes that are not in the table and of percent signs with two upper-case hexadecimal
digits. -/
inductive UriText (escape : EscapeTable) : List UInt8 → Prop where
  /-- There is no text. -/
  | nil : UriText escape []
  /-- A byte that is not in the table. -/
  | plain {c : UInt8} {l : List UInt8} : ¬ escape.Escapes c → UriText escape l →
      UriText escape (c :: l)
  /-- An escaped byte. -/
  | quoted {a b : UInt8} {l : List UInt8} : IsUpperHex a → IsUpperHex b → UriText escape l →
      UriText escape (ch '%' :: a :: b :: l)

theorem isUpperHex_hexTable : ∀ i : Fin 16, IsUpperHex (hexTable.get i) := by decide

theorem uriText_escapeUri (type : EscapeType) (src : List UInt8) :
    UriText type.map (escapeUri type src) := by
  induction src with
  | nil => exact .nil
  | cons c src ih =>
    rw [escapeUri]
    split_ifs with hc
    · exact .quoted (isUpperHex_hexTable _) (isUpperHex_hexTable _) ih
    · exact .plain hc ih

/-- Escaped text consists of bytes that are not in the table and of percent signs with two digits,
and `dl_unescape_uri` gives the bytes back, in place or elsewhere, if the table contains the percent
sign. -/
theorem unescape_escape {type : EscapeType} (h : type.map.Escapes (ch '%')) (src : List UInt8) :
    UriText type.map (escapeUri type src) ∧
    ∀ (mem : Nat → UInt8) (d s : Nat),
      Output.itemsAt mem s (escapeUri type src).length = escapeUri type src →
      d = s ∨ d + (escapeUri type src).length ≤ s ∨ s + (escapeUri type src).length ≤ d →
      (unescapeUri mem d s (escapeUri type src).length 0).out = Output.write ⟨mem, d⟩ src ∧
      (unescapeUri mem d s (escapeUri type src).length 0).s =
        s + (escapeUri type src).length := by
  refine ⟨uriText_escapeUri type src, fun mem d s hmem hpos ↦ ?_⟩
  have hbehind : Output.Behind d s (escapeUri type src).length := by
    rcases hpos with rfl | hdis
    · exact Output.behind_self d _
    · exact Output.behind_of_disjoint hdis
  obtain ⟨hout, hs⟩ := unescapeUri_eq mem 0 hbehind
  rw [hmem, unquoteAll_escapeUri h] at hout hs
  exact ⟨hout, hs⟩

/-- A percent sign and a letter. -/
theorem unescape_escape_percent :
    let mem := fun i ↦ [ch '%', ch '2', ch '5', ch 'a'].getD i 0
    (unescapeUri mem 0 0 4 0).out = Output.write ⟨mem, 0⟩ [ch '%', ch 'a'] := by
  intro mem
  have hpercent : EscapeType.html.map.Escapes (ch '%') := by decide
  obtain ⟨-, hread⟩ := unescape_escape hpercent [ch '%', ch 'a']
  exact (hread mem 0 0 (by decide) (.inl rfl)).1

end Dlbase.DlString
