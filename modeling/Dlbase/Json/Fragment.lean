import Dlbase.Json.Document

/-!
# Documents in pieces

`json_parse_fragment` may be called with the pieces of a text one after the other.  It comes to the
same as if it were called once with all of the text, unless there is nothing in the first piece but
white space: it takes the end of such a piece for an error.
-/

namespace Dlbase.Json

open Cmem
open JsonToken

variable {A : Allocator Node} {m : Mem} {H : Cells Node} {s s' s₁ : Parse}
  {p p' rest : List UInt8} {e e' : JsonError}
  {v : LexValue} {state : ParseState} {type : ValueType} {x : JsonError × Parse}

/-! ## What a value that is not `LEX_MORE` leads to -/

/-- The parser does not wait for more behind this round, and it does not begin again. -/
def Settles (x : Round) : Prop :=
  ∀ s' o, x = .ok (s', o) → o ≠ some .waitingForEof ∧ o ≠ some .incompleteDocument ∧
    (o = none → s'.info.state ≠ .start)

theorem settles_undef : Settles Exec.undef := fun _ _ h ↦ absurd h (Exec.undef_ne_ok _)

theorem settles_goTo (s : Parse) (h : state ≠ .start) : Settles (s.goTo state) := by
  intro s' o heq
  cases heq
  exact ⟨nofun, nofun, fun _ ↦ h⟩

theorem settles_fail (s : Parse) (hw : e ≠ .waitingForEof) (hi : e ≠ .incompleteDocument) :
    Settles (s.fail e) := by
  intro s' o heq
  cases heq
  exact ⟨fun h ↦ hw (Option.some.inj h), fun h ↦ hi (Option.some.inj h), nofun⟩

theorem settles_bind {α : Type} {y : Exec α} {k : α → Round} (h : ∀ a, Settles (k a)) :
    Settles (y >>= k) := by
  intro s' o heq
  obtain ⟨a, -, ha⟩ := Exec.bind_eq_ok.mp heq
  exact h a s' o ha

theorem Settles.ite {P : Prop} [Decidable P] {y z : Round} (hy : Settles y) (hz : Settles z) :
    Settles (if P then y else z) := by
  split_ifs
  · exact hy
  · exact hz

theorem settles_insert (s : Parse) (temp : Nat) {k : Parse → Round} (hk : ∀ s, Settles (k s)) :
    Settles (s.insert temp k) :=
  settles_bind fun _ ↦ settles_bind fun _ ↦ .ite (hk _) (settles_fail _ nofun nofun)

theorem settles_insertText (s : Parse) {k : Parse → Nat → Round} (hk : ∀ s a, Settles (k s a)) :
    Settles (s.insertText A type k) := by
  unfold Parse.insertText
  dsimp only
  split
  · exact settles_undef
  · exact settles_bind fun _ ↦ settles_bind fun _ ↦ settles_insert _ _ fun _ ↦ hk _ _

theorem settles_insertLiteral (s : Parse) {k : Parse → Nat → Round} (hk : ∀ s a, Settles (k s a)) :
    Settles (s.insertLiteral A type k) :=
  settles_insert { s with mem := (newValue A s.mem type).1 } _ fun s ↦ hk s _

theorem settles_insertLabel (s : Parse) : Settles (s.insertLabel A) :=
  settles_insertText s fun _ _ ↦ settles_goTo _ nofun

theorem settles_endField (s : Parse) : Settles s.endField := by
  refine settles_bind fun n ↦ ?_
  dsimp only
  split <;> exact settles_goTo _ nofun

theorem settles_closeValue (s : Parse) {f : Parse → Round} (h : ∀ s, Settles (f s)) :
    Settles (s.closeValue f) := by
  refine settles_bind fun n ↦ ?_
  dsimp only
  split
  · exact settles_goTo _ nofun
  refine settles_bind fun n ↦ ?_
  split
  · split
    · exact h _
    · exact settles_bind fun _ ↦ .ite (settles_goTo _ nofun) (settles_fail _ nofun nofun)
  · exact settles_goTo _ nofun
  · exact settles_fail _ nofun nofun

theorem settles_onStart (s : Parse) (v : LexValue) : Settles (s.onStart v) := by
  cases v with
  | beginObject => exact settles_goTo _ nofun
  | _ => exact settles_fail _ nofun nofun

theorem settles_onOpenedObject (s : Parse) (hv : v ≠ .more) : Settles (s.onOpenedObject A v) := by
  cases v with
  | more => exact absurd rfl hv
  | string => exact settles_insertLabel s
  | endObject => exact settles_closeValue s fun _ ↦ settles_undef
  | _ => exact settles_fail _ nofun nofun

theorem settles_onField (s : Parse) (hv : v ≠ .more) : Settles (s.onField v) := by
  cases v with
  | more => exact absurd rfl hv
  | valueSeparator => exact settles_goTo _ nofun
  | endObject => exact settles_closeValue s fun _ ↦ settles_undef
  | _ => exact settles_fail _ nofun nofun

theorem settles_onSibling (s : Parse) (hv : v ≠ .more) : Settles (s.onSibling A v) := by
  cases v with
  | more => exact absurd rfl hv
  | string => exact settles_insertLabel s
  | _ => exact settles_fail _ nofun nofun

theorem settles_onLabel (s : Parse) (hv : v ≠ .more) : Settles (s.onLabel v) := by
  cases v with
  | more => exact absurd rfl hv
  | nameSeparator => exact settles_goTo _ nofun
  | _ => exact settles_fail _ nofun nofun

theorem settles_onLabelValue (s : Parse) (hv : v ≠ .more) : Settles (s.onLabelValue A v) := by
  cases v with
  | more => exact absurd rfl hv
  | string | number => exact settles_insertText s fun s _ ↦ settles_endField s
  | true | false | null =>
    exact settles_insertLiteral (k := fun s _ ↦ s.endField) s fun s _ ↦ settles_endField s
  | beginObject | beginArray => exact settles_goTo _ nofun
  | _ => exact settles_fail _ nofun nofun

theorem settles_onOpenedArray (s : Parse) (hv : v ≠ .more) : Settles (s.onOpenedArray A v) := by
  cases v with
  | more => exact absurd rfl hv
  | string | number =>
    exact settles_insertText (k := fun s _ ↦ s.goTo .element) s fun s _ ↦ settles_goTo s nofun
  | true | false | null =>
    exact settles_insertLiteral (k := fun s _ ↦ s.goTo .element) s fun s _ ↦ settles_goTo s nofun
  | beginObject | beginArray => exact settles_goTo _ nofun
  | endArray =>
    exact settles_closeValue (f := fun s ↦ s.fail .badTreeStructure) s
      fun s ↦ settles_fail s nofun nofun
  | _ => exact settles_fail _ nofun nofun

theorem settles_onElement (s : Parse) (hv : v ≠ .more) : Settles (s.onElement v) := by
  cases v with
  | more => exact absurd rfl hv
  | valueSeparator => exact settles_goTo _ nofun
  | endArray =>
    exact settles_closeValue (f := fun s ↦ s.goTo .finished) s fun s ↦ settles_goTo s nofun
  | _ => exact settles_fail _ nofun nofun

theorem settles_onFinished (s : Parse) (hv : v ≠ .more) : Settles (s.onFinished v) := by
  cases v with
  | more => exact absurd rfl hv
  | _ => exact settles_fail _ nofun nofun

/-- Of the values, only `LEX_MORE` makes the parser wait. -/
theorem settles_onValue (s : Parse) (hv : v ≠ .more) : Settles (s.onValue A v) := by
  unfold Parse.onValue
  split
  · exact settles_onStart s v
  · exact settles_onOpenedObject s hv
  · exact settles_onField s hv
  · exact settles_onSibling s hv
  · exact settles_onLabel s hv
  · exact settles_onLabelValue s hv
  · exact settles_onOpenedArray s hv
  · exact settles_onElement s hv
  · exact settles_onFinished s hv
  all_goals exact settles_undef

theorem settles_openValue (s : Parse) (h : state ≠ .start) :
    Settles (s.openValue A type state) := by
  unfold Parse.openValue
  split
  · exact settles_goTo _ h
  · exact settles_bind fun _ ↦
      .ite (settles_insertLiteral _ fun _ _ ↦ settles_goTo _ h) settles_undef

/-! ## Rounds -/

/-- The assertions of a state hold, or they do not. -/
theorem checked_cases (s : Parse) : (∀ y, s.checked y = y) ∨ ∃ e, ∀ y, s.checked y = .error e := by
  have htype : ∀ type, (∀ y, s.checkType type y = y) ∨ ∃ e, ∀ y, s.checkType type y = .error e := by
    intro type
    unfold Parse.checkType
    cases s.cursor with
    | error e => exact .inr ⟨e, fun _ ↦ rfl⟩
    | ok n =>
      by_cases h : n.2.data.type = type
      · exact .inl fun y ↦ if_pos h
      · exact .inr ⟨.undefined, fun y ↦ if_neg h⟩
  unfold Parse.checked
  split
  · exact htype _
  · exact htype _
  · exact htype _
  · exact htype _
  · exact htype _
  · exact htype _
  · cases deref s.info.cursor with
    | error e => exact .inr ⟨e, fun _ ↦ rfl⟩
    | ok a => exact .inl fun _ ↦ rfl
  · cases s.cursor with
    | error e => exact .inr ⟨e, fun _ ↦ rfl⟩
    | ok n =>
      by_cases h : n.2.parent = none
      · exact .inl fun y ↦ if_pos h
      · exact .inr ⟨.undefined, fun y ↦ if_neg h⟩
  · exact .inl fun _ ↦ rfl

theorem checked_eq_ok {y : Round} {z : Parse × Option JsonError} (h : s.checked y = .ok z) :
    (∀ y, s.checked y = y) ∧ y = .ok z := by
  rcases checked_cases s with hs | ⟨e, hs⟩
  · exact ⟨hs, (hs y).symm.trans h⟩
  · rw [hs] at h
    cases h

/-- A round in a state that calls `lexer`. -/
theorem round_calls (A : Allocator Node) (h : CallsLexer s.info.state) (p : List UInt8) :
    round A s p = (lexer p s.info.lex >>= fun x ↦
      s.checked (({ s with info := { s.info with lex := x.2.2 } } : Parse).onValue A x.1) >>=
        fun y ↦
        pure (y, x.2.1)) := by
  rw [round]
  split
  · exact absurd ‹_› h.1
  · exact absurd ‹_› h.2
  · rfl

theorem round_eq_ok {z : (Parse × Option JsonError) × List UInt8} (h : CallsLexer s.info.state) :
    round A s p = .ok z ↔ (∀ y, s.checked y = y) ∧ ∃ v lex, lexer p s.info.lex = .ok (v, z.2, lex) ∧
      ({ s with info := { s.info with lex } } : Parse).onValue A v = .ok z.1 := by
  rw [round_calls A h]
  constructor
  · intro heq
    obtain ⟨⟨v, l, lex⟩, hlexer, heq⟩ := Exec.bind_eq_ok.mp heq
    obtain ⟨y, hy, heq⟩ := Exec.bind_eq_ok.mp heq
    obtain rfl := Except.ok.inj heq
    obtain ⟨hs, hy⟩ := checked_eq_ok hy
    exact ⟨hs, v, lex, hlexer, hy⟩
  · rintro ⟨hs, v, lex, hlexer, hv⟩
    rw [hlexer, Exec.ok_bind, hs]
    dsimp only
    rw [hv]
    rfl

/-- A round that does not call `lexer`. -/
theorem round_open (h : ¬ CallsLexer s.info.state) : ∃ x : Round, Settles x ∧
    ∀ p, round A s p = (x >>= fun y ↦ pure (y, p)) := by
  by_cases ho : s.info.state = .openObject
  · have hsettles : Settles (s.openValue A .object .openedObject) :=
      settles_openValue s (by rintro ⟨⟩)
    refine ⟨_, hsettles, fun p ↦ ?_⟩
    rw [round, ho]
  · by_cases ha : s.info.state = .openArray
    · have hsettles : Settles (s.openValue A .array .openedArray) :=
        settles_openValue s (by rintro ⟨⟩)
      refine ⟨_, hsettles, fun p ↦ ?_⟩
      rw [round, ha]
    · exact absurd ⟨ho, ha⟩ h

/-- The piece has come to its end. -/
def Ends (p : List UInt8) (lex : Lex) : Prop := ∃ rest lex', lexer p lex = .ok (.more, rest, lex')

/-- A round in which the piece does not come to its end is the same if more follows, and the parser
does not wait then. -/
theorem round_append {o : Option JsonError} (h : round A s p = .ok ((s', o), rest))
    (hp : CallsLexer s.info.state → ¬ Ends p s.info.lex) (q : List UInt8) :
    round A s (p ++ q) = .ok ((s', o), rest ++ q) ∧ o ≠ some .waitingForEof ∧
      o ≠ some .incompleteDocument ∧ (o = none → s'.info.state ≠ .start) := by
  by_cases hc : CallsLexer s.info.state
  · obtain ⟨hs, v, lex, hlexer, hv⟩ := (round_eq_ok hc).mp h
    have hmore : v ≠ .more := by
      rintro rfl
      exact hp hc ⟨_, _, hlexer⟩
    exact ⟨(round_eq_ok hc).mpr ⟨hs, v, lex, lexer_append hlexer hmore q, hv⟩,
      settles_onValue _ hmore s' o hv⟩
  · obtain ⟨x, hx, hround⟩ := round_open (A := A) hc
    rw [hround] at h ⊢
    obtain ⟨y, hy, heq⟩ := Exec.bind_eq_ok.mp h
    obtain ⟨rfl, rfl⟩ := Prod.mk.inj (Except.ok.inj heq)
    rw [hy]
    exact ⟨rfl, hx s' o hy⟩

/-- A round in which the piece comes to its end is the beginning of the next one. -/
theorem round_ends {o : Option JsonError} (h : round A s p = .ok ((s', o), rest))
    (hc : CallsLexer s.info.state) (hp : Ends p s.info.lex) :
    o = some (moreError s.info.state) ∧ s'.info.state = s.info.state ∧
      ∀ q, round A s (p ++ q) = round A s' q := by
  obtain ⟨rest', lex, hmore⟩ := hp
  obtain ⟨-, v, lex', hlexer, hv⟩ := (round_eq_ok hc).mp h
  rw [hmore] at hlexer
  obtain ⟨rfl, hpair⟩ := Prod.mk.inj (Except.ok.inj hlexer)
  obtain ⟨-, rfl⟩ := Prod.mk.inj hpair
  rw [onValue_more (s := { s with info := { s.info with lex } }) hc] at hv
  obtain ⟨rfl, rfl⟩ := Prod.mk.inj (Except.ok.inj hv)
  refine ⟨rfl, rfl, fun q ↦ ?_⟩
  rw [round_calls A hc, round_calls (s := { s with info := { s.info with lex } }) A hc,
    (lexer_more hmore).2 q]
  rfl

/-! ## Pieces -/

theorem waits_moreError (h : Waits (moreError state)) :
    moreError state = if state = .finished then .waitingForEof else .incompleteDocument := by
  cases state <;> first | rfl | exact absurd h (by decide)

theorem start_of_not_waits (h : ¬ Waits (moreError state)) : state = .start := by
  cases state <;> first | rfl | exact absurd h (by decide)

theorem loop_congr (hp : p ≠ []) (hp' : p' ≠ []) (h : round A s p = round A s₁ p') (fuel : Nat) :
    fragmentLoop A fuel s p = fragmentLoop A fuel s₁ p' := by
  cases fuel with
  | zero => rfl
  | succ fuel => rw [fragmentLoop, fragmentLoop, if_neg hp, if_neg hp', h]

/-- A round behind which the loop goes on. -/
theorem loop_next_iff (hp : p ≠ []) (h : round A s p = .ok ((s', none), rest)) :
    Returns (fun fuel ↦ fragmentLoop A fuel s p) x ↔
      Returns (fun fuel ↦ fragmentLoop A fuel s' rest) x := by
  refine ⟨fun ⟨N, hN⟩ ↦ ⟨N, fun fuel hf ↦ ?_⟩, loop_next hp h⟩
  have hx : fragmentLoop A (fuel + 1) s p = .ok x := hN (fuel + 1) (Nat.le_succ_of_le hf)
  rwa [fragmentLoop, if_neg hp, h] at hx

/-- A piece with which the parser waits is the beginning of the next one, and one with which it
stops stops it whatever follows. -/
theorem fragmentLoop_append {fuel : Nat} (h : fragmentLoop A fuel s p = .ok (e, s₁))
    (q : List UInt8) :
    (Waits e → e = atEnd s₁ ∧ ∀ x, Returns (fun fuel ↦ fragmentLoop A fuel s (p ++ q)) x ↔
      Returns (fun fuel ↦ fragmentLoop A fuel s₁ q) x) ∧
    (¬ Waits e → s.info.state ≠ .start →
      Returns (fun fuel ↦ fragmentLoop A fuel s (p ++ q)) (e, s₁)) := by
  induction fuel generalizing s p with
  | zero => cases h
  | succ fuel ih =>
    rw [fragmentLoop] at h
    split_ifs at h with hp
    · obtain ⟨rfl, rfl⟩ := Prod.mk.inj (Except.ok.inj h)
      subst hp
      exact ⟨fun _ ↦ ⟨rfl, fun _ ↦ .rfl⟩, absurd (waits_atEnd s)⟩
    · have hne : ∀ q, p ++ q ≠ [] := fun q ↦ List.append_ne_nil_of_left_ne_nil hp q
      obtain ⟨⟨⟨s', o⟩, rest⟩, hround, h⟩ := Exec.bind_eq_ok.mp h
      by_cases hends : CallsLexer s.info.state ∧ Ends p s.info.lex
      · obtain ⟨rfl, hst, hresume⟩ := round_ends hround hends.1 hends.2
        obtain ⟨rfl, rfl⟩ := Prod.mk.inj (Except.ok.inj h)
        refine ⟨fun he ↦ ?_, fun he hs ↦ absurd (start_of_not_waits he) hs⟩
        have hend : moreError s.info.state = atEnd s' := by
          rw [waits_moreError he, atEnd, hst]
        refine ⟨hend, fun x ↦ ?_⟩
        by_cases hq : q = []
        · subst hq
          have hdone := loop_done hp hround
          rw [hend] at hdone
          rw [List.append_nil]
          exact ⟨fun hx ↦ hx.unique hdone ▸ loop_nil A s',
            fun hx ↦ hx.unique (loop_nil A s') ▸ hdone⟩
        · simp only [loop_congr (hne q) hq (hresume q)]
      · obtain ⟨hround', hw, hi, hstart⟩ := round_append hround (not_and.mp hends) q
        cases o with
        | some e' =>
          obtain ⟨rfl, rfl⟩ := Prod.mk.inj (Except.ok.inj h)
          refine ⟨fun he ↦ ?_, fun _ _ ↦ loop_done (hne q) hround'⟩
          rcases he with rfl | rfl
          · exact absurd rfl hw
          · exact absurd rfl hi
        | none =>
          obtain ⟨hwaits, hstops⟩ := ih h
          refine ⟨fun he ↦ ⟨(hwaits he).1, fun x ↦ ?_⟩, fun he _ ↦ ?_⟩
          · exact (loop_next_iff (hne q) hround').trans ((hwaits he).2 x)
          · exact loop_next (hne q) hround' (hstops he (hstart rfl))

/-! ## The first piece -/

/-- There is nothing but white space in front of the first brace. -/
def Opening (p : List UInt8) : Prop := ∃ w l, p = w ++ ch '{' :: l ∧ Blank w

/-- The brace is read from the first piece. -/
theorem round_opening (hs : s.info.state = .start) (hlex : s.info.lex.state = .root)
    {w : List UInt8} (hw : Blank w) :
    ∃ lex, lex.state = .root ∧ ∀ q, round A s (w ++ ch '{' :: q) =
      .ok ((⟨s.mem, ⟨.openObject, lex, s.info.cursor⟩⟩, none), q) := by
  obtain ⟨lex, hreads, hroot⟩ := reads_blank hlex hw
  refine ⟨lex, hroot, fun q ↦ ?_⟩
  have hstep : lex.step (ch '{') = .ok (.done .beginObject lex true) := by
    simp only [Lex.step, hroot]
    rfl
  have hlexer : lexer (w ++ ch '{' :: q) s.info.lex = .ok (.beginObject, q, lex) :=
    (hreads _).trans (lexer_done hstep q)
  have hc : CallsLexer s.info.state := by
    rw [hs]
    exact ⟨(by rintro ⟨⟩), (by rintro ⟨⟩)⟩
  refine (round_eq_ok hc).mpr ⟨fun y ↦ ?_, .beginObject, lex, hlexer, ?_⟩
  · unfold Parse.checked
    rw [hs]
  · unfold Parse.onValue
    simp only [hs]
    rfl

/-- A first piece with which the parser stops. -/
theorem fragmentLoop_opening (hs : s.info.state = .start) (hlex : s.info.lex.state = .root)
    (hp : Opening p) (h : Returns (fun fuel ↦ fragmentLoop A fuel s p) (e, s₁)) (he : ¬ Waits e)
    (q : List UInt8) : Returns (fun fuel ↦ fragmentLoop A fuel s (p ++ q)) (e, s₁) := by
  obtain ⟨w, l, rfl, hw⟩ := hp
  obtain ⟨lex, -, hround⟩ := round_opening (A := A) hs hlex hw
  have hne : ∀ q : List UInt8, w ++ ch '{' :: q ≠ [] := fun q ↦
    List.append_ne_nil_of_right_ne_nil w (List.cons_ne_nil _ q)
  obtain ⟨fuel, hl⟩ := ((loop_next_iff (hne l) (hround l)).mp h).exists_fuel
  rw [List.append_assoc, List.cons_append]
  exact loop_next (hne _) (hround _) ((fragmentLoop_append hl q).2 he nofun)

theorem Opening.append (h : Opening p) (q : List UInt8) : Opening (p ++ q) := by
  obtain ⟨w, l, rfl, hw⟩ := h
  exact ⟨w, l ++ q, by rw [List.append_assoc, List.cons_append], hw⟩

/-- The first piece that is not empty has the brace. -/
def Opens : List (List UInt8) → Prop
  | [] => True
  | p :: ps => p = [] ∧ Opens ps ∨ Opening p

/-- `json_parse_fragment` is called with the pieces one after the other, as long as it waits for
more. -/
def feed (A : Allocator Node) (fuel : Nat) : Parse → List (List UInt8) → Exec (JsonError × Parse)
  | s, [] => pure (atEnd s, s)
  | s, p :: ps => do
    let (e, s) ← parseFragment A fuel s p
    if Waits e then feed A fuel s ps else pure (e, s)

/-- The first of the pieces is read. -/
theorem feed_cons {q : List UInt8} {ps : List (List UInt8)}
    (h : Returns (fun fuel ↦ fragmentLoop A fuel s q) (e, s'))
    (hx : Returns (fun fuel ↦ if Waits e then feed A fuel s' ps else .ok (e, s')) x) :
    Returns (fun fuel ↦ feed A fuel s (q :: ps)) x := by
  obtain ⟨N, hN⟩ := h
  obtain ⟨M, hM⟩ := hx
  refine ⟨max N M, fun fuel hf ↦ ?_⟩
  have hq : parseFragment A fuel s q = .ok (e, s') :=
    hN fuel (Nat.le_trans (Nat.le_max_left N M) hf)
  change feed A fuel s (q :: ps) = .ok x
  rw [feed, hq, Exec.ok_bind]
  exact hM fuel (Nat.le_trans (Nat.le_max_right N M) hf)

/-- The parser returns for every text. -/
theorem exists_returns (hm : Exactly m H) (A : Allocator Node) (p : List UInt8) :
    ∃ e s', Returns (fun fuel ↦ fragmentLoop A fuel ⟨m, jpiInit⟩ p) (e, s') := by
  obtain ⟨e, s', hret, -⟩ := loop_stops A (exactly_empty hm) .start rfl p
  exact ⟨e, s', hret⟩

/-- More pieces behind those that have been read. -/
theorem feed_from (hm : Exactly m H) {ps : List (List UInt8)}
    (h : Returns (fun fuel ↦ fragmentLoop A fuel ⟨m, jpiInit⟩ p) (e, s)) (he : Waits e)
    (hopen : Opening p ∨ p = [] ∧ Opens ps) :
    ∃ x, Returns (fun fuel ↦ feed A fuel s ps) x ∧
      Returns (fun fuel ↦ fragmentLoop A fuel ⟨m, jpiInit⟩ (p ++ ps.flatten)) x := by
  induction ps generalizing p e s with
  | nil =>
    obtain ⟨fuel, hf⟩ := h.exists_fuel
    obtain ⟨rfl, -⟩ := (fragmentLoop_append hf []).1 he
    refine ⟨_, ⟨0, fun fuel _ ↦ rfl⟩, ?_⟩
    rwa [List.flatten_nil, List.append_nil]
  | cons q ps ih =>
    obtain ⟨e', s', hret⟩ := exists_returns hm A (p ++ q)
    obtain ⟨fuel, hf⟩ := h.exists_fuel
    have hq := (((fragmentLoop_append hf q).1 he).2 _).mp hret
    rw [List.flatten_cons, ← List.append_assoc]
    by_cases he' : Waits e'
    · have hopen' : Opening (p ++ q) ∨ p ++ q = [] ∧ Opens ps := by
        rcases hopen with hp | ⟨rfl, ⟨rfl, hps⟩ | hq⟩
        · exact .inl (hp.append q)
        · exact .inr ⟨rfl, hps⟩
        · exact .inl hq
      obtain ⟨x, hfeed, hx⟩ := ih hret he' hopen'
      exact ⟨x, feed_cons hq (by simpa only [he', if_true] using hfeed), hx⟩
    · have hpq : Opening (p ++ q) := by
        rcases hopen with hp | ⟨rfl, ⟨rfl, hps⟩ | hq⟩
        · exact hp.append q
        · obtain ⟨rfl, -⟩ := Prod.mk.inj (hret.unique (loop_nil A _))
          exact absurd (.inr rfl) he'
        · exact hq
      exact ⟨(e', s'), feed_cons hq ⟨0, fun fuel _ ↦ if_neg he'⟩,
        fragmentLoop_opening rfl rfl hpq hret he' ps.flatten⟩

/-- Reading a text piece by piece comes to the same as reading it at once, however it is cut: the
parser returns the same, and it leaves the same memory and the same state. -/
theorem feed_returns (hm : Exactly m H) (A : Allocator Node) {ps : List (List UInt8)}
    (h : Opens ps) : ∃ x, Returns (fun fuel ↦ feed A fuel ⟨m, jpiInit⟩ ps) x ∧
      Returns (fun fuel ↦ parseFragment A fuel ⟨m, jpiInit⟩ ps.flatten) x :=
  feed_from (p := []) hm (loop_nil A _) (.inr rfl) (.inr ⟨rfl, h⟩)

theorem feed_two : ∃ x, Returns (fun fuel ↦ feed (.least _) fuel ⟨fun _ ↦ none, jpiInit⟩
      [[32, 123, 34], [34, 58, 49, 125]]) x ∧
    Returns (fun fuel ↦ parseFragment (.least _) fuel ⟨fun _ ↦ none, jpiInit⟩
      [[32, 123, 34], [34, 58, 49, 125]].flatten) x :=
  feed_returns Exactly.nil (.least _)
    (.inr ⟨[32], [34], rfl, List.forall_mem_singleton.mpr (.inl rfl)⟩)

end Dlbase.Json
