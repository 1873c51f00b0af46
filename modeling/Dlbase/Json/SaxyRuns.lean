import Dlbase.Json.Saxy

/-!
# Runs of `json_saxy_parse`

There is a text in the status exactly while a number is read: nothing makes one for a string.  So
the quotation mark at the end of a string leads nowhere, and a character of a string that should be
added to the text makes the function go wrong.
-/

namespace Dlbase.Json

open Cmem
open JsonToken (IsBlank IsDigit IsExponent)

/-- Inside a string. -/
def SaxyState.InString (state : SaxyState) : Prop :=
  state ∈ [.string, .escape, .unicode1, .unicode2, .unicode3, .unicode4]

/-- Inside a number. -/
def SaxyState.InNumber (state : SaxyState) : Prop :=
  state ∈ [.zero, .fracStart, .frac, .expStart, .exp, .expSign, .minus, .decimal]

/-- The character is one that should be added to the text of a string. -/
def SaxyState.Stores (state : SaxyState) (c : UInt8) : Prop :=
  match state with
  | .string => c ≠ ch '"'
  | .escape => IsShort c ∨ c = ch 'u'
  | .unicode1 | .unicode2 | .unicode3 | .unicode4 => IsHex c
  | _ => False

instance (state : SaxyState) : Decidable state.InString := inferInstanceAs (Decidable (_ ∈ _))

instance (state : SaxyState) : Decidable state.InNumber := inferInstanceAs (Decidable (_ ∈ _))

/-- There are all functions. -/
def SaxyFunctions.Complete (f : SaxyFunctions) : Prop :=
  f = ⟨true, true, true, true, true, true, true, true, true, true, true⟩

variable {s s' : SaxyStatus} {f : SaxyFunctions} {c d : UInt8} {n : Nat} {r : Rcstring}
  {w p q : List UInt8} {e : JsonError} {es : List SaxyEvent} {x : Exec SaxyResult}
  {k : SaxyStatus → List SaxyEvent → Exec SaxyResult}

/-! ## Texts -/

namespace SaxyStatus

theorem append_eq (ht : s.temp = some r) (hr : r.Holds w) (c : UInt8) :
    ∃ r', s.append c = .ok { s with temp := some r' } ∧ r'.Holds (w ++ [c]) := by
  obtain ⟨r', hr', hw⟩ := hr.catc c
  refine ⟨r', ?_, hw⟩
  rw [append, ht]
  dsimp only
  rw [hr']
  rfl

theorem restart_eq (s : SaxyStatus) (c : UInt8) (n : Nat) :
    ∃ r', s.restart c n = .ok { s with temp := some r' } ∧ r'.Holds [c] := by
  obtain ⟨r', hr', hw⟩ := (Rcstring.holds_create n).catc c
  refine ⟨r', ?_, hw⟩
  rw [restart, hr']
  rfl

theorem appendBelow_eq (ht : s.temp = some r) (hr : r.Holds w) (c : UInt8) (n : Nat) :
    ∃ l r' w', s.appendBelow c n = .ok { s with limit := l, temp := some r' } ∧ r'.Holds w' ∧
      (w' = w ∨ w' = w ++ [c]) := by
  unfold appendBelow
  split_ifs with hl
  · refine ⟨s.limit, r, w, ?_, hr, .inl rfl⟩
    rw [← ht]
  · simp only [ht]
    split_ifs
    · obtain ⟨r', hr', hw⟩ := append_eq ht hr c
      exact ⟨s.limit, r', _, hr', hw, .inr rfl⟩
    · refine ⟨true, r, w, ?_, hr, .inl rfl⟩
      rw [← ht]

theorem report_eq (ht : s.temp = some r) (hr : r.Holds w) (h0 : 0 ∉ w) :
    s.report f k = k { s with temp := none } (if f.newNumber then [.newNumber w] else []) := by
  have hread : readString r.text = .ok w := hr.unwrap h0
  rw [report, ht]
  dsimp only
  rw [hread]
  split_ifs <;> rfl

theorem release_eq (ht : s.temp = some r) (hr : r.Holds w) (h0 : 0 ∉ w) :
    s.release f k = k { s with temp := none } (if f.newNumber then [.newNumber w] else []) := by
  rw [release, report_eq ht hr h0]
  split_ifs <;> rfl

end SaxyStatus

/-! ## Outside strings -/

/-- There is a text if a number is read, and there is none otherwise. -/
def SaxyStatus.Ok (s : SaxyStatus) : Prop :=
  (s.state.InNumber → ∃ r w, s.temp = some r ∧ r.Holds w ∧ 0 ∉ w) ∧
  (¬ s.state.InNumber → s.temp = none)

theorem ok_of_none (ht : s.temp = none) (hs : ¬ s.state.InNumber) : s.Ok :=
  ⟨fun h ↦ absurd h hs, fun _ ↦ ht⟩

theorem ok_of_some (ht : s.temp = some r) (hr : r.Holds w) (h0 : 0 ∉ w) (hs : s.state.InNumber) :
    s.Ok := ⟨fun _ ↦ ⟨r, w, ht, hr, h0⟩, fun h ↦ absurd hs h⟩

/-- The call returns unless a function is missing; it reports no string, and it leaves the status
in order. -/
def Plain (f : SaxyFunctions) (x : Exec SaxyResult) : Prop :=
  (∃ e s' es, x = .ok (e, s', es) ∧ s'.Ok ∧ ∀ text, .newString text ∉ es) ∨
    x = Exec.undef ∧ ¬ f.Complete

theorem plain_fail (h : s.Ok) (e : JsonError) : Plain f (s.fail e) :=
  .inl ⟨e, s, [], rfl, h, fun _ ↦ List.not_mem_nil⟩

theorem plain_goTo {state : SaxyState} (h : ({ s with state } : SaxyStatus).Ok) :
    Plain f (s.goTo state) := .inl ⟨.ok, _, [], rfl, h, fun _ ↦ List.not_mem_nil⟩

theorem plain_goTo_none {state : SaxyState} (ht : s.temp = none) (h : ¬ state.InNumber) :
    Plain f (s.goTo state) := plain_goTo (ok_of_none ht h)

theorem plain_goTo_some {state : SaxyState} (ht : s.temp = some r) (hr : r.Holds w) (h0 : 0 ∉ w)
    (h : state.InNumber) : Plain f (s.goTo state) := plain_goTo (ok_of_some ht hr h0 h)

theorem Plain.ite {P : Prop} [Decidable P] {x y : Exec SaxyResult} (hx : P → Plain f x)
    (hy : ¬ P → Plain f y) : Plain f (if P then x else y) := by
  split_ifs with h
  · exact hx h
  · exact hy h

/-- An event that is not a string. -/
def SaxyEvent.Simple (e : SaxyEvent) : Prop := ∀ text, e ≠ .newString text

theorem plain_closeNumber {checked called : Bool} {e : SaxyEvent} {state : SaxyState}
    (h : ({ s with state } : SaxyStatus).Ok) (he : e.Simple) (hf : f.Complete → called = true)
    (hes : ∀ text, .newString text ∉ es) :
    Plain f (SaxyStatus.closeNumber checked called e state s es) := by
  unfold SaxyStatus.closeNumber notify
  split_ifs with hchecked hcalled
  · refine .inl ⟨.ok, _, es ++ [e], rfl, h, fun text hmem ↦ ?_⟩
    rcases List.mem_append.mp hmem with hmem | hmem
    · exact hes text hmem
    · exact he text (List.mem_singleton.mp hmem).symm
  · exact .inr ⟨rfl, fun h ↦ hcalled (hf h)⟩
  · exact .inl ⟨.ok, _, es ++ [], rfl, h, (List.append_nil es).symm ▸ hes⟩

theorem plain_call {checked called : Bool} {e : SaxyEvent} {state : SaxyState}
    (h : ({ s with state } : SaxyStatus).Ok) (he : e.Simple) (hf : f.Complete → called = true) :
    Plain f (s.call checked called e state) := by
  have hcall : s.call checked called e state =
      SaxyStatus.closeNumber checked called e state s [] := by
    unfold SaxyStatus.call SaxyStatus.closeNumber
    simp only [List.nil_append]
  rw [hcall]
  exact plain_closeNumber h he hf fun _ ↦ List.not_mem_nil

theorem plain_startNumber {state : SaxyState} (hc : c ≠ 0) (hs : state.InNumber) (n : Nat) :
    Plain f (s.startNumber c n state) := by
  obtain ⟨r, hr, hw⟩ := s.restart_eq c n
  rw [SaxyStatus.startNumber, hr, Exec.ok_bind]
  exact plain_goTo (ok_of_some rfl hw (fun h ↦ hc (List.mem_singleton.mp h).symm) hs)

theorem plain_digitStep {state : SaxyState} (ht : s.temp = some r) (hr : r.Holds w) (h0 : 0 ∉ w)
    (hc : c ≠ 0) (hs : state.InNumber) (n : Nat) : Plain f (s.digitStep c n state) := by
  obtain ⟨l, r', w', heq, hw', hcases⟩ := s.appendBelow_eq ht hr c n
  rw [SaxyStatus.digitStep, heq, Exec.ok_bind]
  refine plain_goTo (ok_of_some rfl hw' ?_ hs)
  rcases hcases with rfl | rfl
  · exact h0
  · exact fun h ↦ (List.mem_append.mp h).elim h0 fun h ↦ hc (List.mem_singleton.mp h).symm

theorem plain_append {state : SaxyState} (ht : s.temp = some r) (hr : r.Holds w) (h0 : 0 ∉ w)
    (hc : c ≠ 0) (hs : state.InNumber) :
    Plain f (s.append c >>= fun s ↦ s.goTo state) := by
  obtain ⟨r', heq, hw'⟩ := s.append_eq ht hr c
  rw [heq, Exec.ok_bind]
  refine plain_goTo (ok_of_some rfl hw' ?_ hs)
  exact fun h ↦ (List.mem_append.mp h).elim h0 fun h ↦ hc (List.mem_singleton.mp h).symm

theorem not_mem_newNumber (f : SaxyFunctions) (w text : List UInt8) :
    SaxyEvent.newString text ∉ if f.newNumber then [.newNumber w] else [] := by
  split_ifs
  · exact fun h ↦ nomatch List.mem_singleton.mp h
  · exact List.not_mem_nil

theorem plain_endNumber {separator : Bool} (ht : s.temp = some r) (hr : r.Holds w) (h0 : 0 ∉ w)
    {array comma : (SaxyStatus → List SaxyEvent → Exec SaxyResult) → Exec SaxyResult}
    (harray : array = s.report f ∨ array = s.release f)
    (hcomma : comma = s.report f ∨ comma = s.release f) (hx : Plain f x) :
    Plain f (s.endNumber f c array comma separator x) := by
  have heither : ∀ g, g = s.report f ∨ g = s.release f → ∀ k,
      g k = k { s with temp := none } (if f.newNumber then [.newNumber w] else []) := by
    rintro g (rfl | rfl) k
    · exact SaxyStatus.report_eq ht hr h0
    · exact SaxyStatus.release_eq ht hr h0
  have hnone : ∀ {state : SaxyState}, ¬ state.InNumber →
      ({ s with state, temp := none } : SaxyStatus).Ok := fun h ↦ ok_of_none rfl h
  unfold SaxyStatus.endNumber
  refine .ite (fun _ ↦ ?_) fun _ ↦ .ite (fun _ ↦ ?_) fun _ ↦ .ite (fun _ ↦ ?_) fun _ ↦
    .ite (fun _ ↦ ?_) fun _ ↦ hx
  · rw [SaxyStatus.report_eq ht hr h0]
    exact .inl ⟨.ok, _, _, rfl, hnone (by decide), not_mem_newNumber f w⟩
  · rw [SaxyStatus.report_eq ht hr h0]
    exact plain_closeNumber (hnone (by decide)) nofun (fun h ↦ h ▸ rfl) (not_mem_newNumber f w)
  · rw [heither array harray]
    exact plain_closeNumber (hnone (by decide)) nofun (fun h ↦ h ▸ rfl) (not_mem_newNumber f w)
  · rw [heither comma hcomma]
    exact plain_closeNumber (hnone (by decide)) nofun (fun h ↦ h ▸ rfl) (not_mem_newNumber f w)

theorem ne_zero_of_digit (h : IsDigit c) : c ≠ 0 := by
  rintro rfl
  exact absurd h (by decide)

theorem ne_zero_of_exponent (h : IsExponent c) : c ≠ 0 := by
  rintro rfl
  exact absurd h (by decide)

/-- What is done with the text in a number. -/
theorem plain_number (ht : s.temp = some r) (hr : r.Holds w) (h0 : 0 ∉ w)
    (hs : s.state.InNumber) (c : UInt8) : Plain f (saxyParse f s c) := by
  have hok : s.Ok := ok_of_some ht hr h0 hs
  have hfail : Plain f (s.fail .illegalCharacter) := plain_fail hok _
  have hgo : ∀ {state}, SaxyState.InNumber state → Plain f (s.goTo state) := fun h ↦
    plain_goTo_some ht hr h0 h
  unfold saxyParse
  cases hstate : s.state
  case zero =>
    refine plain_endNumber ht hr h0 (.inl rfl) (.inl rfl) (.ite (fun h ↦ ?_) fun _ ↦ hfail)
    exact plain_startNumber (h ▸ by decide) (by decide) 5
  case fracStart =>
    exact .ite (fun h ↦ plain_digitStep ht hr h0 (ne_zero_of_digit h) (by decide) _) fun _ ↦ hfail
  case frac =>
    refine plain_endNumber ht hr h0 (.inr rfl) (.inl rfl) (.ite (fun h ↦ ?_) fun _ ↦
      .ite (fun h ↦ ?_) fun _ ↦ hfail)
    · exact plain_digitStep ht hr h0 (ne_zero_of_digit h) (by decide) _
    · exact plain_append ht hr h0 (ne_zero_of_exponent h) (by decide)
  case expStart =>
    refine .ite (fun h ↦ ?_) fun _ ↦ .ite (fun h ↦ ?_) fun _ ↦ hfail
    · exact plain_append (s := { s with limit := false }) ht hr h0
        (h.elim (· ▸ by decide) (· ▸ by decide)) (by decide)
    · exact plain_digitStep ht hr h0 (ne_zero_of_digit h) (by decide) _
  case exp =>
    refine plain_endNumber ht hr h0 (.inr rfl) (.inr rfl) (.ite (fun h ↦ ?_) fun _ ↦ hfail)
    exact plain_digitStep ht hr h0 (ne_zero_of_digit h) (by decide) _
  case expSign =>
    exact .ite (fun h ↦ plain_digitStep ht hr h0 (ne_zero_of_digit h) (by decide) _) fun _ ↦ hfail
  case minus =>
    refine .ite (fun h ↦ plain_append ht hr h0 (h ▸ by decide) (by decide)) fun _ ↦
      .ite (fun h ↦ .ite (fun _ ↦ hgo (by decide)) fun _ ↦ ?_) fun _ ↦ hfail
    rw [ht]
    refine .ite (fun _ ↦ ?_) fun _ ↦ hgo (by decide)
    obtain ⟨r', hr', hw'⟩ := s.restart_eq c 5
    rw [hr', Exec.ok_bind]
    exact plain_goTo_some rfl hw'
      (fun h0 ↦ ne_zero_of_digit h (List.mem_singleton.mp h0).symm) (by decide)
  case decimal =>
    refine plain_endNumber ht hr h0 (.inl rfl) (.inl rfl) (.ite (fun h ↦ ?_) fun _ ↦
      .ite (fun h ↦ ?_) fun _ ↦ .ite (fun h ↦ ?_) fun _ ↦ hfail)
    · refine .ite (fun _ ↦ hgo (by decide)) fun _ ↦ ?_
      rw [ht]
      exact .ite (fun _ ↦ plain_startNumber (ne_zero_of_digit h) (by decide) 5) fun _ ↦
        plain_goTo_some rfl hr h0 (by decide)
    · exact plain_startNumber (h ▸ by decide) (by decide) 5
    · obtain ⟨r', hr', hw'⟩ := s.restart_eq c 5
      rw [hr', Exec.ok_bind]
      exact plain_goTo_some rfl hw'
        (fun h0 ↦ ne_zero_of_exponent h (List.mem_singleton.mp h0).symm) (by decide)
  all_goals exact absurd (hstate ▸ hs) (by decide)

/-- What is done between strings and numbers. -/
theorem plain_root (ht : s.temp = none) (hn : ¬ s.state.InNumber) (hs : ¬ s.state.InString)
    (c : UInt8) : Plain f (saxyParse f s c) := by
  have hok : s.Ok := ok_of_none ht hn
  have hfail : Plain f (s.fail .illegalCharacter) := plain_fail hok _
  have hstay : Plain f (.ok (.ok, s, [])) := .inl ⟨.ok, s, [], rfl, hok, fun _ ↦ List.not_mem_nil⟩
  have hgo : ∀ {state}, ¬ SaxyState.InNumber state → Plain f (s.goTo state) := fun h ↦
    plain_goTo_none ht h
  have hquote : ∀ {l}, Plain f (({ s with limit := l, temp := none } : SaxyStatus).goTo .string) :=
    plain_goTo_none rfl (by decide)
  have hcall : ∀ {called : Bool} {e : SaxyEvent} {state : SaxyState}, ¬ state.InNumber →
      e.Simple → (f.Complete → called = true) → Plain f (s.call called called e state) :=
    fun h he hf ↦ plain_call (ok_of_none ht h) he hf
  have hletter : ∀ {letter : UInt8} {state : SaxyState}, ¬ state.InNumber →
      Plain f (s.letterStep c letter state) := fun h ↦ .ite (fun _ ↦ hgo h) fun _ ↦ hfail
  have hlast : ∀ {letter : UInt8} {called : Bool} {e : SaxyEvent}, e.Simple →
      (f.Complete → called = true) → Plain f (s.lastStep c letter called e) := fun he hf ↦
    .ite (fun _ ↦ hcall (by decide) he hf) fun _ ↦ hfail
  unfold saxyParse
  cases hstate : s.state
  case start =>
    unfold SaxyStatus.startStep
    refine .ite (fun _ ↦ hstay) fun _ ↦ .ite (fun _ ↦ plain_goTo_none ht (by decide)) fun _ ↦ ?_
    iterate 4 refine .ite (fun _ ↦ hcall (by decide) nofun fun h ↦ h ▸ rfl) fun _ ↦ ?_
    iterate 3 refine .ite (fun _ ↦ hgo (by decide)) fun _ ↦ ?_
    iterate 2 refine .ite (fun _ ↦ hcall (by decide) nofun fun h ↦ h ▸ rfl) fun _ ↦ ?_
    exact .ite (fun h ↦ plain_startNumber (h ▸ by decide) (by decide) 5) fun _ ↦
      .ite (fun h ↦ plain_startNumber (ne_zero_of_digit h) (by decide) 5) fun _ ↦
      .ite (fun h ↦ plain_startNumber (h ▸ by decide) (by decide) 5) fun _ ↦ hfail
  case true1 | true2 | false1 | false2 | false3 | null1 | null2 => exact hletter (by decide)
  case true3 | false4 | null3 => exact hlast nofun fun h ↦ h ▸ rfl
  case openObject =>
    exact .ite (fun _ ↦ hstay) fun _ ↦ .ite (fun _ ↦ hquote) fun _ ↦
      .ite (fun _ ↦ hcall (by decide) nofun fun h ↦ h ▸ rfl) fun _ ↦ hfail
  case close =>
    unfold SaxyStatus.closeStep
    refine .ite (fun _ ↦ hstay) fun _ ↦ ?_
    iterate 3 refine .ite (fun _ ↦ hcall (by decide) nofun fun h ↦ h ▸ rfl) fun _ ↦ ?_
    exact hfail
  case sibling =>
    unfold SaxyStatus.siblingStep
    refine .ite (fun _ ↦ hstay) fun _ ↦ .ite (fun _ ↦ hquote) fun _ ↦ ?_
    iterate 2 refine .ite (fun _ ↦ hcall (by decide) nofun fun h ↦ h ▸ rfl) fun _ ↦ ?_
    iterate 3 refine .ite (fun _ ↦ hgo (by decide)) fun _ ↦ ?_
    exact .ite (fun h ↦ plain_startNumber (h ▸ by decide) (by decide) 5) fun _ ↦
      .ite (fun h ↦ plain_startNumber (ne_zero_of_digit h) (by decide) 5) fun _ ↦
      .ite (fun h ↦ plain_startNumber (h ▸ by decide) (by decide) _) fun _ ↦ hfail
  case string | escape | unicode1 | unicode2 | unicode3 | unicode4 =>
    exact absurd (hstate ▸ by decide) hs
  all_goals exact absurd (hstate ▸ by decide) hn

/-! ## Inside strings -/

/-- Without a text nothing can be added to it. -/
theorem appendBelow_none (ht : s.temp = none) (c : UInt8) (n : Nat) :
    s.appendBelow c n = if s.limit then .ok s else Exec.undef := by
  unfold SaxyStatus.appendBelow
  rw [ht]

/-- The call does not leave the string, or it goes wrong. -/
def Caught (x : Exec SaxyResult) : Prop :=
  ∃ e s', x = .ok (e, s', []) ∧ s'.state.InString ∧ s'.temp = none

theorem caught_fail (h : s.state.InString) (ht : s.temp = none) (e : JsonError) :
    Caught (s.fail e) := ⟨e, s, rfl, h, ht⟩

theorem appendBelow_goTo {state : SaxyState} (ht : s.temp = none) (h : state.InString)
    (c : UInt8) (n : Nat) :
    s.limit = false ∧ (s.appendBelow c n >>= fun s ↦ s.goTo state) = Exec.undef ∨
      s.limit = true ∧ Caught (s.appendBelow c n >>= fun s ↦ s.goTo state) := by
  rw [appendBelow_none ht]
  cases hl : s.limit with
  | false => exact .inl ⟨rfl, rfl⟩
  | true => exact .inr ⟨rfl, .ok, _, rfl, h, ht⟩

/-- In a string without a text a character that should be added makes the function go wrong, unless
the limit is taken to be reached; nothing else happens, and the string does not end. -/
theorem caught_string (ht : s.temp = none) (hs : s.state.InString) (c : UInt8) :
    (s.limit = false ∧ s.state.Stores c) ∧ saxyParse f s c = Exec.undef ∨
      ¬ (s.limit = false ∧ s.state.Stores c) ∧ Caught (saxyParse f s c) := by
  have hstored : ∀ {d n state}, SaxyState.InString state → s.state.Stores c →
      (s.limit = false ∧ s.state.Stores c) ∧
        (s.appendBelow d n >>= fun s ↦ s.goTo state) = Exec.undef ∨
      ¬ (s.limit = false ∧ s.state.Stores c) ∧
        Caught (s.appendBelow d n >>= fun s ↦ s.goTo state) := by
    intro d n state h hc
    rcases appendBelow_goTo ht h d n with ⟨hl, hx⟩ | ⟨hl, hx⟩
    · exact .inl ⟨⟨hl, hc⟩, hx⟩
    · exact .inr ⟨fun h ↦ Bool.noConfusion (h.1.symm.trans hl), hx⟩
  have hlost : ∀ {e}, ¬ s.state.Stores c →
      (s.limit = false ∧ s.state.Stores c) ∧ s.fail e = Exec.undef ∨
      ¬ (s.limit = false ∧ s.state.Stores c) ∧ Caught (s.fail e) := fun hc ↦
    .inr ⟨fun h ↦ hc h.2, caught_fail hs ht _⟩
  unfold saxyParse
  cases hstate : s.state
  all_goals rw [hstate] at hstored hlost
  case string =>
    dsimp only [SaxyStatus.stringStep]
    by_cases hback : c = ch '\\'
    · rw [if_pos hback]
      exact hstored (by decide) fun h ↦ absurd (hback.symm.trans h) (by decide)
    · rw [if_neg hback]
      by_cases hquote : c = ch '"'
      · rw [if_pos hquote, ht]
        exact hlost (not_not.mpr hquote)
      · rw [if_neg hquote]
        exact hstored (by decide) hquote
  case escape =>
    dsimp only [SaxyStatus.escapeStep]
    split_ifs with hshort hu
    · exact hstored (by decide) (.inl hshort)
    · exact hstored (by decide) (.inr hu)
    · exact hlost (not_or.mpr ⟨hshort, hu⟩)
  case unicode1 | unicode2 | unicode3 | unicode4 =>
    dsimp only [SaxyStatus.hexStep]
    split_ifs with hx
    · exact hstored (by decide) hx
    · exact hlost hx
  all_goals exact absurd (hstate ▸ hs) (by decide)

/-! ## Runs -/

theorem ok_of_inString (h : s.Ok) (hs : s.state.InString) : s.temp = none := by
  refine h.2 ?_
  revert hs
  generalize s.state = state
  cases state <;> decide

theorem SaxyState.Stores.inString {state : SaxyState} (h : state.Stores c) : state.InString := by
  cases state <;> first | exact h.elim | decide

/-- A call outside of strings. -/
theorem plain_of_not_inString (h : s.Ok) (hs : ¬ s.state.InString) (c : UInt8) :
    Plain f (saxyParse f s c) := by
  by_cases hn : s.state.InNumber
  · obtain ⟨r, w, ht, hr, h0⟩ := h.1 hn
    exact plain_number ht hr h0 hn c
  · exact plain_root (h.2 hn) hn hs c

/-- What a call that returns keeps, and that it reports no string. -/
theorem ok_saxyParse (h : s.Ok) (hx : saxyParse f s c = .ok (e, s', es)) :
    s'.Ok ∧ ∀ text, .newString text ∉ es := by
  by_cases hs : s.state.InString
  · rcases caught_string (f := f) (ok_of_inString h hs) hs c with
      ⟨-, hundef⟩ | ⟨-, e', s'', hx', hs', ht'⟩
    · exact absurd (hundef.symm.trans hx) nofun
    · obtain ⟨-, he⟩ := Prod.mk.inj (Except.ok.inj (hx'.symm.trans hx))
      obtain ⟨rfl, rfl⟩ := Prod.mk.inj he
      refine ⟨ok_of_none ht' ?_, fun _ ↦ List.not_mem_nil⟩
      revert hs'
      generalize s''.state = state
      cases state <;> decide
  · rcases plain_of_not_inString h hs c with ⟨e', s'', es', hx', hok, hes⟩ | ⟨hundef, -⟩
    · obtain ⟨-, he⟩ := Prod.mk.inj (Except.ok.inj (hx'.symm.trans hx))
      obtain ⟨rfl, rfl⟩ := Prod.mk.inj he
      exact ⟨hok, hes⟩
    · exact absurd (hundef.symm.trans hx) nofun

/-- The first of the calls, and the others. -/
theorem saxyFeed_cons_eq_ok {errors : List JsonError} :
    saxyFeed f (c :: p) s = .ok (errors, s', es) ↔ ∃ e s₁ es₁ errors' es',
      saxyParse f s c = .ok (e, s₁, es₁) ∧ saxyFeed f p s₁ = .ok (errors', s', es') ∧
        errors = e :: errors' ∧ es = es₁ ++ es' := by
  rw [saxyFeed]
  constructor
  · intro h
    obtain ⟨⟨e, s₁, es₁⟩, hx, h⟩ := Exec.bind_eq_ok.mp h
    obtain ⟨⟨errors', s₂, es'⟩, hp, h⟩ := Exec.bind_eq_ok.mp h
    obtain ⟨rfl, he⟩ := Prod.mk.inj (Except.ok.inj h)
    obtain ⟨rfl, rfl⟩ := Prod.mk.inj he
    exact ⟨e, s₁, es₁, errors', es', hx, hp, rfl, rfl⟩
  · rintro ⟨e, s₁, es₁, errors', es', hx, hp, rfl, rfl⟩
    rw [hx, Exec.ok_bind]
    dsimp only
    rw [hp]
    rfl

theorem ok_saxyFeed {errors : List JsonError} (h : s.Ok)
    (hx : saxyFeed f p s = .ok (errors, s', es)) : s'.Ok ∧ ∀ text, .newString text ∉ es := by
  induction p generalizing s errors es with
  | nil =>
    obtain ⟨-, he⟩ := Prod.mk.inj (Except.ok.inj hx)
    obtain ⟨rfl, rfl⟩ := Prod.mk.inj he
    exact ⟨h, fun _ ↦ List.not_mem_nil⟩
  | cons c p ih =>
    obtain ⟨e, s₁, es₁, errors', es', hc, hp, rfl, rfl⟩ := saxyFeed_cons_eq_ok.mp hx
    obtain ⟨h₁, hes₁⟩ := ok_saxyParse h hc
    obtain ⟨h', hes'⟩ := ih h₁ hp
    exact ⟨h', fun text hmem ↦ (List.mem_append.mp hmem).elim (hes₁ text) (hes' text)⟩

theorem caught_saxyFeed {errors : List JsonError} (ht : s.temp = none) (hs : s.state.InString)
    (hx : saxyFeed f p s = .ok (errors, s', es)) : es = [] ∧ s'.state.InString := by
  induction p generalizing s errors es with
  | nil =>
    obtain ⟨-, he⟩ := Prod.mk.inj (Except.ok.inj hx)
    obtain ⟨rfl, rfl⟩ := Prod.mk.inj he
    exact ⟨rfl, hs⟩
  | cons c p ih =>
    obtain ⟨e, s₁, es₁, errors', es', hc, hp, rfl, rfl⟩ := saxyFeed_cons_eq_ok.mp hx
    rcases caught_string (f := f) ht hs c with ⟨-, hundef⟩ | ⟨-, e', s'', hc', hs', ht'⟩
    · exact absurd (hundef.symm.trans hc) nofun
    · obtain ⟨-, he⟩ := Prod.mk.inj (Except.ok.inj (hc'.symm.trans hc))
      obtain ⟨rfl, rfl⟩ := Prod.mk.inj he
      exact ih ht' hs' hp

/-- The status before the first character. -/
theorem ok_start (b : Bool) : SaxyStatus.Ok ⟨.start, b, none⟩ :=
  ok_of_none rfl (show ¬ SaxyState.InNumber .start by decide)

/-- Whatever characters `json_saxy_parse` is given and whatever it returns for them, it never calls
`new_string`; and once it is inside a string it never leaves it and calls no function any more. -/
theorem saxyFeed_string {b : Bool} {errors : List JsonError}
    (h : saxyFeed f p ⟨.start, b, none⟩ = .ok (errors, s, es)) :
    (∀ text, .newString text ∉ es) ∧ ∀ q errors' s' es', s.state.InString →
      saxyFeed f q s = .ok (errors', s', es') → es' = [] ∧ s'.state.InString := by
  obtain ⟨hok, hes⟩ := ok_saxyFeed (ok_start b) h
  exact ⟨hes, fun q errors' s' es' hs hq ↦ caught_saxyFeed (ok_of_inString hok hs) hs hq⟩

/-- All functions. -/
def SaxyFunctions.all : SaxyFunctions :=
  ⟨true, true, true, true, true, true, true, true, true, true, true⟩

/-- The beginning of an array with an empty string. -/
theorem saxyFeed_string_empty : ∃ errors s es,
    saxyFeed .all [91, 34, 34] ⟨.start, false, none⟩ = .ok (errors, s, es) ∧
      s.state.InString ∧ ∀ text, .newString text ∉ es := by
  have h : saxyFeed .all [91, 34, 34] ⟨.start, false, none⟩ =
      .ok ([.ok, .ok, .unknownProblem], ⟨.string, false, none⟩, [.openArray]) := rfl
  exact ⟨_, _, _, h, by decide, (saxyFeed_string h).1⟩

/-- If there are all functions, a call goes wrong exactly if it should add a character to the text
of a string and the limit is not taken to be reached. -/
theorem saxyParse_cases (hf : f.Complete) (h : s.Ok) (c : UInt8) :
    (s.limit = false ∧ s.state.Stores c) ∧ saxyParse f s c = Exec.undef ∨
      ¬ (s.limit = false ∧ s.state.Stores c) ∧
        ∃ e s' es, saxyParse f s c = .ok (e, s', es) ∧ s'.Ok := by
  by_cases hs : s.state.InString
  · rcases caught_string (f := f) (ok_of_inString h hs) hs c with hundef | ⟨hno, e, s', hx, -⟩
    · exact .inl hundef
    · exact .inr ⟨hno, e, s', [], hx, (ok_saxyParse h hx).1⟩
  · rcases plain_of_not_inString (f := f) h hs c with ⟨e, s', es, hx, hok, -⟩ | ⟨-, hmissing⟩
    · exact .inr ⟨fun hno ↦ hs hno.2.inString, e, s', es, hx, hok⟩
    · exact absurd hf hmissing

theorem saxyFeed_undef_of_ok (hf : f.Complete) (h : s.Ok) (p : List UInt8) :
    saxyFeed f p s = Exec.undef ↔ ∃ q c r errors s' es, p = q ++ c :: r ∧
      saxyFeed f q s = .ok (errors, s', es) ∧ s'.limit = false ∧ s'.state.Stores c := by
  induction p generalizing s with
  | nil =>
    refine ⟨nofun, ?_⟩
    rintro ⟨q, c, r, errors, s', es, hp, -⟩
    exact absurd (List.append_ne_nil_of_right_ne_nil q (List.cons_ne_nil c r)) (not_not.mpr hp.symm)
  | cons c p ih =>
    rcases saxyParse_cases hf h c with ⟨hstored, hundef⟩ | ⟨hnot, e, s₁, es₁, hx, h₁⟩
    · refine ⟨fun _ ↦ ⟨[], c, p, [], s, [], rfl, rfl, hstored⟩, fun _ ↦ ?_⟩
      rw [saxyFeed, hundef]
      rfl
    · have hcons : saxyFeed f (c :: p) s = Exec.undef ↔ saxyFeed f p s₁ = Exec.undef := by
        rw [saxyFeed, hx, Exec.ok_bind]
        dsimp only
        cases saxyFeed f p s₁ with
        | error e => exact Iff.rfl
        | ok y => exact ⟨nofun, nofun⟩
      rw [hcons, ih h₁]
      constructor
      · rintro ⟨q, d, r, errors, s', es, rfl, hq, hd⟩
        exact ⟨c :: q, d, r, e :: errors, s', es₁ ++ es, rfl,
          saxyFeed_cons_eq_ok.mpr ⟨e, s₁, es₁, errors, es, hx, hq, rfl, rfl⟩, hd⟩
      · rintro ⟨q, d, r, errors, s', es, hp, hq, hd⟩
        cases q with
        | nil =>
          obtain ⟨rfl, rfl⟩ := List.cons.inj hp
          obtain ⟨-, he⟩ := Prod.mk.inj (Except.ok.inj hq)
          obtain ⟨rfl, rfl⟩ := Prod.mk.inj he
          exact absurd hd hnot
        | cons a q =>
          obtain ⟨rfl, rfl⟩ := List.cons.inj hp
          obtain ⟨e', s₂, es₂, errors', es', hx', hq', -, -⟩ := saxyFeed_cons_eq_ok.mp hq
          obtain ⟨-, he⟩ := Prod.mk.inj (Except.ok.inj (hx.symm.trans hx'))
          obtain ⟨rfl, rfl⟩ := Prod.mk.inj he
          exact ⟨q, d, r, errors', s', es', rfl, hq', hd⟩

/-- If there are all functions, `json_saxy_parse` goes wrong exactly at a character of a string, and
only while the limit is not taken to be reached. -/
theorem saxyFeed_undef_iff (hf : f.Complete) (b : Bool) (p : List UInt8) :
    saxyFeed f p ⟨.start, b, none⟩ = Exec.undef ↔ ∃ q c r errors s es, p = q ++ c :: r ∧
      saxyFeed f q ⟨.start, b, none⟩ = .ok (errors, s, es) ∧ s.limit = false ∧ s.state.Stores c :=
  saxyFeed_undef_of_ok hf (ok_start b) p

/-- The first letter of a label. -/
theorem saxyFeed_undef_label :
    saxyFeed .all [123, 34, 97] ⟨.start, false, none⟩ = Exec.undef :=
  (saxyFeed_undef_iff rfl false [123, 34, 97]).mpr
    ⟨[123, 34], 97, [], _, _, _, rfl, rfl, rfl, by change (97 : UInt8) ≠ ch '"'; decide⟩

end Dlbase.Json
