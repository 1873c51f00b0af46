import Dlbase.Json.Free
import Dlbase.Json.Rounds

/-!
# `json_parse_document`

The function accepts the texts of documents, behind which there may be white space and a piece of
one more token.  It has built their tree then and nothing else; if it does not accept a text, it
returns an error.
-/

namespace Dlbase.Json

open Cmem Cmem.Rose
open JsonToken
open Reader (Explains)

variable {A : Allocator Node} {m : Mem} {H : Cells Node} {s s' : Parse} {q : List Spot}
  {r r' : Reader} {ts us : List Token} {k : Token} {p l u text : List UInt8} {e : JsonError}
  {t : Rose Data}

/-- The text is one of the tree, as far as the parser is concerned. -/
def Accepted (t : Rose Data) (text : List UInt8) : Prop :=
  ∃ l u ts, text = l ++ u ∧ Spells ts l ∧ Unfinished u ∧ Document t ts

/-! ## Rounds of the loop -/

/-- A state that calls `lexer`. -/
def CallsLexer (state : ParseState) : Prop := state ≠ .openObject ∧ state ≠ .openArray

theorem callsLexer_opened (r : Reader) : CallsLexer r.opened.state := by
  obtain ⟨state, path⟩ := r
  cases state <;> exact ⟨nofun, nofun⟩

theorem Reader.opened_of_callsLexer (h : CallsLexer r.state) : r.opened = r := by
  obtain ⟨state, path⟩ := r
  cases state
  case openObject => exact absurd rfl h.1
  case openArray => exact absurd rfl h.2
  all_goals rfl

theorem loop_nil (A : Allocator Node) (s : Parse) :
    Returns (fun fuel ↦ fragmentLoop A fuel s []) (atEnd s, s) := returns_of_succ fun _ ↦ rfl

theorem loop_done (hp : p ≠ []) (h : round A s p = .ok ((s', some e), l)) :
    Returns (fun fuel ↦ fragmentLoop A fuel s p) (e, s') := by
  refine returns_of_succ fun fuel ↦ ?_
  rw [fragmentLoop, if_neg hp, h]
  rfl

theorem loop_next {x : JsonError × Parse} (hp : p ≠ [])
    (h : round A s p = .ok ((s', none), l)) (hx : Returns (fun fuel ↦ fragmentLoop A fuel s' l) x) :
    Returns (fun fuel ↦ fragmentLoop A fuel s p) x := by
  refine hx.succ fun fuel ↦ ?_
  rw [fragmentLoop, if_neg hp, h]
  rfl

/-- A round that calls `lexer`. -/
theorem Rep.round_eq {v : LexValue} {lex : Lex} (h : Rep H s r q) (he : Explains r ts)
    (hc : CallsLexer r.state) (hlexer : lexer p s.info.lex = .ok (v, l, lex)) :
    round A s p = ({ s with info := { s.info with lex } }.onValue A v >>= fun x ↦ pure (x, l)) := by
  rw [← h.state] at hc
  rw [round]
  split
  · exact absurd ‹_› hc.1
  · exact absurd ‹_› hc.2
  · rw [hlexer, Exec.ok_bind]
    dsimp only
    rw [h.checked he]

/-- An object or an array is opened if it is due to be. -/
theorem Rep.exists_opened (h : Rep H s r q) (he : Explains r ts) (hp : p ≠ []) :
    ∃ s' q', Rep H s' r.opened q' ∧ s'.info.lex = s.info.lex ∧
      ∀ x, Returns (fun fuel ↦ fragmentLoop A fuel s' p) x →
        Returns (fun fuel ↦ fragmentLoop A fuel s p) x := by
  by_cases hc : CallsLexer r.state
  · rw [Reader.opened_of_callsLexer hc]
    exact ⟨s, q, h, rfl, fun _ ↦ id⟩
  · have hs := h.state
    have hround : ∀ {s' : Parse} {type : ValueType} {state : ParseState},
        round A s p = (s.openValue A type state >>= fun x ↦ pure (x, p)) →
        s.openValue A type state = .ok (s', none) →
        ∀ x, Returns (fun fuel ↦ fragmentLoop A fuel s' p) x →
          Returns (fun fuel ↦ fragmentLoop A fuel s p) x := fun h₁ h₂ x hx ↦
      loop_next hp (by rw [h₁, h₂, Exec.ok_bind]; rfl) hx
    cases he with
    | openObject hplace =>
      obtain ⟨s', q', heq, hrep, hlex⟩ := h.openValue hplace A .object .openedObject
      refine ⟨s', q', hrep, hlex, hround ?_ heq⟩
      rw [round, hs]
    | openArray hst hne =>
      obtain ⟨s', q', heq, hrep, hlex⟩ := h.openValue (.inr ⟨_, hst, hne⟩) A .array .openedArray
      refine ⟨s', q', hrep, hlex, hround ?_ heq⟩
      rw [round, hs]
    | _ => exact absurd ⟨nofun, nofun⟩ hc

/-- What is done with a token in a round. -/
theorem Rep.round_token {lex : Lex} (h : Rep H s r q) (he : Explains r ts)
    (hc : CallsLexer r.state) (hlexer : lexer p s.info.lex = .ok (value k, l, lex))
    (hcarries : lex.Carries k) (hok : k.Ok) :
    (∃ r' s' q', r.take k = .ok r' ∧ round A s p = .ok ((s', none), l) ∧ Rep H s' r' q' ∧
      s'.info.lex.state = lex.state) ∨
    ∃ e, r.take k = .error e ∧
      round A s p = .ok (({ s with info := { s.info with lex } }, some e), l) := by
  have hsim := (h.withLex lex).onValue he hcarries hok hc.1 hc.2 A
  rw [h.round_eq he hc hlexer]
  cases htake : r.take k with
  | ok r' =>
    rw [htake] at hsim
    obtain ⟨s', q', heq, hrep, hlex⟩ := hsim
    refine .inl ⟨r', s', q', rfl, ?_, hrep, hlex⟩
    rw [heq]
    rfl
  | error e =>
    rw [htake] at hsim
    refine .inr ⟨e, rfl, ?_⟩
    rw [show Parse.onValue A _ (value k) = _ from hsim]
    rfl

/-- The error for the end of a text in this state. -/
def moreError : ParseState → JsonError
  | .start => .malformedDocument
  | .finished => .waitingForEof
  | _ => .incompleteDocument

/-- The error for an illegal character in this state. -/
def invalidError : ParseState → JsonError
  | .sibling | .labelValue | .openedArray => .illegalCharacter
  | _ => .malformedDocument

theorem onValue_more (h : CallsLexer s.info.state) :
    s.onValue A .more = .ok (s, some (moreError s.info.state)) := by
  unfold Parse.onValue
  cases hs : s.info.state
  case openObject => exact absurd hs h.1
  case openArray => exact absurd hs h.2
  all_goals rfl

theorem onValue_invalid (h : CallsLexer s.info.state) :
    s.onValue A .invalidCharacter = .ok (s, some (invalidError s.info.state)) := by
  unfold Parse.onValue
  cases hs : s.info.state
  case openObject => exact absurd hs h.1
  case openArray => exact absurd hs h.2
  all_goals rfl

theorem Rep.round_more {lex : Lex} (h : Rep H s r q) (he : Explains r ts)
    (hc : CallsLexer r.state) (hlexer : lexer p s.info.lex = .ok (.more, l, lex)) :
    round A s p =
      .ok (({ s with info := { s.info with lex } }, some (moreError r.state)), l) := by
  rw [h.round_eq he hc hlexer, onValue_more (s := { s with info := { s.info with lex } })
    (show CallsLexer s.info.state by rwa [h.state]), ← h.state]
  rfl

theorem Rep.round_invalid {lex : Lex} (h : Rep H s r q) (he : Explains r ts)
    (hc : CallsLexer r.state) (hlexer : lexer p s.info.lex = .ok (.invalidCharacter, l, lex)) :
    round A s p =
      .ok (({ s with info := { s.info with lex } }, some (invalidError r.state)), l) := by
  rw [h.round_eq he hc hlexer, onValue_invalid (s := { s with info := { s.info with lex } })
    (show CallsLexer s.info.state by rwa [h.state]), ← h.state]
  rfl

/-! ## What the parser accepts -/

/-- The text of a document is accepted. -/
theorem loop_accepts (h : Rep H s r q) (he : Explains r ts) (hlex : s.info.lex.state = .root)
    (hl : Spells us l) (hu : Unfinished u) (hrun : r.run us = .ok r')
    (hfin : r'.state = .finished) :
    ∃ s' q', Returns (fun fuel ↦ fragmentLoop A fuel s (l ++ u)) (.waitingForEof, s') ∧
      Rep H s' r' q' := by
  induction us generalizing s r q ts l with
  | nil =>
    obtain rfl : r = r' := Except.ok.inj hrun
    have hc : CallsLexer r.state := by
      rw [hfin]
      exact ⟨nofun, nofun⟩
    by_cases hp : l ++ u = []
    · refine ⟨s, q, ?_, h⟩
      rw [hp]
      have hend := loop_nil A s
      rwa [atEnd, if_pos (h.state.trans hfin)] at hend
    · cases hl with
      | nil hw =>
        obtain ⟨lex, hreads, hroot⟩ := reads_blank hlex hw
        obtain ⟨lex', hmore⟩ := lexer_unfinished hroot hu
        have hround := h.round_more (A := A) he hc ((hreads u).trans hmore)
        rw [hfin] at hround
        exact ⟨_, q, loop_done hp hround, h.withLex lex'⟩
  | cons k us ih =>
    cases hl with
    | @cons w l _ _ hw hok hbefore hl =>
      have hp : w ++ (k.lexeme ++ l) ++ u ≠ [] := by
        obtain ⟨c, x, hx, -⟩ := hok.lexeme_eq_cons
        rw [hx]
        simp
      have hbefore' : k.MayPrecede (l ++ u) := by
        cases k with
        | number t =>
          obtain ⟨c, x, rfl, hcx⟩ := hbefore
          exact ⟨c, x ++ u, rfl, hcx⟩
        | _ => trivial
      have hrest : k.rest (l ++ u) = k.rest l ++ u := by
        cases k with
        | number t =>
          obtain ⟨c, x, rfl, hcx⟩ := hbefore
          rw [List.cons_append, Token.rest, Token.rest]
          split_ifs <;> rfl
        | _ => rfl
      obtain ⟨s₁, q₁, h₁, hlex₁, hnext⟩ := h.exists_opened (A := A) he hp
      obtain ⟨lex, hlexer, hroot, hcarries⟩ := lexer_token (hlex₁ ▸ hlex) hw hok hbefore'
      rw [List.append_assoc, List.append_assoc] at hp hnext ⊢
      rcases h₁.round_token (A := A) he.opened (callsLexer_opened r) hlexer hcarries hok with
        ⟨r₂, s₂, q₂, htake, hround, h₂, hroot₂⟩ | ⟨e, htake, -⟩
      · rw [Reader.run_cons_ok htake] at hrun
        rw [hrest] at hround
        obtain ⟨s', q', hret, hrep⟩ :=
          ih h₂ (he.opened.take htake) (hroot₂.trans hroot) (hl.rest k) hrun
        exact ⟨s', q', hnext _ (loop_next hp hround hret), hrep⟩
      · rw [Reader.run_cons, Reader.step, htake] at hrun
        cases hrun

/-- The parser waits for more. -/
def Waits (e : JsonError) : Prop := e = .waitingForEof ∨ e = .incompleteDocument

instance (e : JsonError) : Decidable (Waits e) := inferInstanceAs (Decidable (_ ∨ _))

theorem waits_atEnd (s : Parse) : Waits (atEnd s) := by
  unfold atEnd
  split_ifs
  · exact .inl rfl
  · exact .inr rfl

/-- The parser has stopped with `e` behind the tokens `ts` and those that it has read since. -/
def Stops (H : Cells Node) (ts : List Token) (p : List UInt8) (e : JsonError) (s' : Parse) : Prop :=
  ∃ r q us, Rep H s' r q ∧ Explains r (ts ++ us) ∧ e ≠ .ok ∧ (¬ Waits e → CallsLexer r.state) ∧
    (e = .waitingForEof → r.state = .finished ∧
      ∃ l u, p = l ++ u ∧ Spells us l ∧ Unfinished u)

theorem moreError_ne (state : ParseState) : moreError state ≠ .ok := by cases state <;> nofun

theorem invalidError_ne (state : ParseState) :
    invalidError state ≠ .ok ∧ invalidError state ≠ .waitingForEof := by
  cases state <;> exact ⟨nofun, nofun⟩

theorem finished_of_moreError {state : ParseState} (h : moreError state = .waitingForEof) :
    state = .finished := by
  cases state <;> first | rfl | cases h

theorem Reader.take_ne (h : r.take k = .error e) : e ≠ .ok ∧ e ≠ .waitingForEof := by
  obtain ⟨state, path⟩ := r
  cases state <;> cases k <;> cases h <;> exact ⟨nofun, nofun⟩

/-- A token in front of a text with which the parser stops. -/
theorem Stops.cons (h : Stops H (ts ++ [k]) l e s') (hp : Precedes k p l) : Stops H ts p e s' := by
  obtain ⟨r, q, us, hrep, hexp, hne, hcalls, hacc⟩ := h
  rw [List.append_assoc] at hexp
  refine ⟨r, q, k :: us, hrep, hexp, hne, hcalls, fun he ↦ ?_⟩
  obtain ⟨hfin, l', u, hl, hspells, hu⟩ := hacc he
  obtain ⟨v, hpv, hv⟩ := hp.2 us l' u hl hspells hu
  exact ⟨hfin, v, u, hpv, hv, hu⟩

/-- The parser stops with an error that says that the text is not accepted. -/
theorem stops_of_error (h : Rep H s r q) (he : Explains r ts) (hc : CallsLexer r.state)
    (hok : e ≠ .ok) (hwait : e ≠ .waitingForEof) (p : List UInt8) : Stops H ts p e s :=
  ⟨r, q, [], h, (List.append_nil ts).symm ▸ he, hok, fun _ ↦ hc, fun h ↦ absurd h hwait⟩

/-- The parser returns, and it has accepted nothing but the text of a document. -/
theorem loop_stops (A : Allocator Node) (h : Rep H s r q) (he : Explains r ts)
    (hlex : s.info.lex.state = .root) (p : List UInt8) :
    ∃ e s', Returns (fun fuel ↦ fragmentLoop A fuel s p) (e, s') ∧ Stops H ts p e s' := by
  -- a token takes characters away from the text
  induction hn : p.length using Nat.strong_induction_on generalizing s r q ts p with
  | _ n ih =>
  by_cases hp : p = []
  · subst hp
    have hnil : Explains r (ts ++ []) := (List.append_nil ts).symm ▸ he
    refine ⟨_, s, loop_nil A s, r, q, [], h, hnil, ?_, absurd (waits_atEnd s),
      fun hwait ↦ ⟨?_, [], [], rfl, .nil fun _ hc ↦ absurd hc List.not_mem_nil, unfinished_nil⟩⟩
    · exact (waits_atEnd s).elim (fun h ↦ h ▸ nofun) fun h ↦ h ▸ nofun
    · unfold atEnd at hwait
      split_ifs at hwait with hfin
      exact h.state.symm.trans hfin
  · obtain ⟨s₁, q₁, h₁, hlex₁, hnext⟩ := h.exists_opened (A := A) he hp
    have hc := callsLexer_opened r
    obtain ⟨v, rest, lex, hlexer, hcalled⟩ := lexer_called (reading_root (hlex₁ ▸ hlex)) p
    rcases hcalled.cases with ⟨rfl, w, u, hpu, hw, hu⟩ | rfl | ⟨k, rfl, hcarries, hok, hroot, hrest⟩
    · have hround := h₁.round_more (A := A) he.opened hc hlexer
      exact ⟨_, _, hnext _ (loop_done hp hround), r.opened, q₁, [], h₁.withLex lex,
        (List.append_nil ts).symm ▸ he.opened, moreError_ne _, fun _ ↦ hc,
        fun hwait ↦ ⟨finished_of_moreError hwait, w, u, hpu, .nil hw, hu⟩⟩
    · have hround := h₁.round_invalid (A := A) he.opened hc hlexer
      exact ⟨_, _, hnext _ (loop_done hp hround), stops_of_error (h₁.withLex lex) he.opened hc
        (invalidError_ne _).1 (invalidError_ne _).2 p⟩
    · rcases h₁.round_token (A := A) he.opened hc hlexer hcarries hok with
        ⟨r₂, s₂, q₂, htake, hround, h₂, hroot₂⟩ | ⟨e, htake, hround⟩
      · obtain ⟨e, s', hret, hstops⟩ := ih rest.length (hn ▸ hrest.1) h₂ (he.opened.take htake)
          (hroot₂.trans hroot) rest rfl
        exact ⟨e, s', hnext _ (loop_next hp hround hret), hstops.cons hrest⟩
      · exact ⟨e, _, hnext _ (loop_done hp hround), stops_of_error (h₁.withLex lex) he.opened hc
          (Reader.take_ne htake).1 (Reader.take_ne htake).2 p⟩

/-! ## Documents -/

theorem exactly_empty (hm : Exactly m H) : Rep H ⟨m, jpiInit⟩ .init [] :=
  ⟨rfl, rfl, hm.of_eq (zero_add H).symm, rfl⟩

/-- What is left in memory when the text is not accepted. -/
theorem pathCells_eq (q : List Spot) :
    pathCells q = 0 ∨ ∃ T : Placed Data, pathCells q = T.cells .none := by
  cases q with
  | nil => exact .inl rfl
  | cons x q => exact .inr ⟨_, rfl⟩

/-- The tree of a document that has been read completely. -/
theorem Rep.finished (h : Rep H s r q) (hr : r = ⟨.finished, [(t.val, t.children)]⟩) :
    ∃ T : Placed Data, T.erase = t ∧ s.info.cursor = some T.addr ∧
      Exactly s.mem (T.cells .none + H) := by
  obtain ⟨d, cs⟩ := t
  subst hr
  obtain ⟨a, ds, q, rfl, hds, hq⟩ := h.exists_cons rfl
  obtain rfl := List.map_eq_nil_iff.mp hq
  refine ⟨.node (a, d) ds, ?_, h.cursor, h.mem⟩
  rw [erase_node, hds]
  rfl

/-- What parsing a text comes to: if it is accepted, its tree has been added to the memory; if it is
not, there is an error, and what has been built of a tree is left there. -/
def Parsed (H : Cells Node) (text : List UInt8) (x : JsonError × Mem × Option Nat) : Prop :=
  (∀ t, Accepted t text → x.1 = .ok ∧ ∃ T : Placed Data, T.erase = t ∧ x.2.2 = some T.addr ∧
    Exactly x.2.1 (T.cells .none + H)) ∧
  ((∀ t, ¬ Accepted t text) → x.1 ≠ .ok ∧ x.2.2 = none ∧
    (Exactly x.2.1 H ∨ ∃ T : Placed Data, Exactly x.2.1 (T.cells .none + H)))

/-- What the parser does with a text. -/
theorem loop_outcome (hm : Exactly m H)
    (h : Returns (fun fuel ↦ fragmentLoop A fuel ⟨m, jpiInit⟩ text) (e, s')) :
    e ≠ .ok ∧ (Exactly s'.mem H ∨ ∃ T : Placed Data, Exactly s'.mem (T.cells .none + H)) ∧
      (e = .waitingForEof → Parsed H text (.ok, s'.mem, s'.info.cursor)) ∧
      (e ≠ .waitingForEof → ∀ t, ¬ Accepted t text) := by
  have hinit := exactly_empty hm
  obtain ⟨e', s'', hret, r, q, us, hrep, hexp, hok, -, hacc⟩ :=
    loop_stops A hinit Explains.start rfl text
  obtain ⟨rfl, rfl⟩ := Prod.mk.inj (h.unique hret)
  have haccepts : ∀ t, Accepted t text → e = .waitingForEof ∧ ∃ T : Placed Data, T.erase = t ∧
      s'.info.cursor = some T.addr ∧ Exactly s'.mem (T.cells .none + H) := by
    rintro t ⟨l, u, ts, rfl, hl, hu, ht⟩
    obtain ⟨s'', q', hret', hrep'⟩ := loop_accepts (A := A) hinit Explains.start rfl hl hu
      (Reader.run_document ht) rfl
    obtain ⟨rfl, rfl⟩ := Prod.mk.inj (hret.unique hret')
    exact ⟨rfl, hrep'.finished rfl⟩
  refine ⟨hok, ?_, fun he ↦ ⟨fun t ht ↦ ⟨rfl, (haccepts t ht).2⟩, fun hno ↦ ?_⟩,
    fun he t ht ↦ he (haccepts t ht).1⟩
  · have hmem := hrep.mem
    rcases pathCells_eq q with hq | ⟨T, hT⟩
    · rw [hq, zero_add] at hmem
      exact .inl hmem
    · rw [hT] at hmem
      exact .inr ⟨T, hmem⟩
  · obtain ⟨hfin, l, u, htext, hspells, hu⟩ := hacc he
    rw [List.nil_append] at hexp
    cases hexp with
    | @finished cs _ hd =>
      exact absurd ⟨l, u, _, htext, hspells, hu, rfl, hd⟩ (hno (.node objectData cs))
    | _ => cases hfin

/-- There may be a comma behind the last element of an array. -/
theorem accepted_nested : Accepted (.node objectData [.node (labelData [97])
    [.node arrayData [.node ⟨.number, some [49]⟩ []]]])
    [123, 34, 97, 34, 58, 91, 49, 44, 93, 125] := by
  have hone : Integer ([] ++ 49 :: []) := .digits (.inl rfl) (by decide) (by decide) nofun
  have hnumber : Number [49] := hone.number
  have hstring : JsonString.Text [97] := .plain (by decide) .nil
  refine ⟨_, [], [.beginObject, .string [97], .nameSeparator, .beginArray, .number [49],
    .valueSeparator, .endArray, .endObject], (List.append_nil _).symm, ?_, unfinished_nil, rfl, ?_⟩
  · have hend : Spells [] [] := .nil fun _ hc ↦ absurd hc List.not_mem_nil
    exact spells_cons trivial trivial (spells_cons hstring trivial (spells_cons trivial trivial
      (spells_cons trivial trivial (spells_cons hnumber ⟨44, _, rfl, .inr (.inr (.inr rfl))⟩
        (spells_cons trivial trivial (spells_cons trivial trivial
          (spells_cons trivial trivial hend)))))))
  · exact .object (.members (.firstMember (.member [97] (.array (.trailing (.firstElement
      (.scalar rfl)))))))

/-- What `json_parse_document` makes of what the parser has come to. -/
theorem parseDocument_loop
    (h : Returns (fun fuel ↦ fragmentLoop A fuel ⟨m, jpiInit⟩ text) (e, s')) :
    Returns (fun fuel ↦ parseDocument A fuel m text)
      (if e = .waitingForEof ∨ e = .ok then (.ok, s'.mem, s'.info.cursor)
        else (e, s'.mem, none)) := by
  obtain ⟨N, hN⟩ := h
  refine ⟨N, fun fuel hf ↦ ?_⟩
  have hparse : parseFragment A fuel ⟨m, jpiInit⟩ text = .ok (e, s') := hN fuel hf
  change parseDocument A fuel m text = _
  rw [parseDocument, hparse, Exec.ok_bind]
  dsimp only
  split_ifs <;> rfl

theorem exists_parsed (hm : Exactly m H) (A : Allocator Node) (text : List UInt8) :
    ∃ x, Returns (fun fuel ↦ parseDocument A fuel m text) x ∧ Parsed H text x := by
  obtain ⟨e, s', hret, -⟩ := loop_stops A (exactly_empty hm) Explains.start rfl text
  obtain ⟨hok, hmem, hyes, hno⟩ := loop_outcome hm hret
  have hdoc := parseDocument_loop hret
  by_cases he : e = .waitingForEof
  · rw [if_pos (.inl he)] at hdoc
    exact ⟨_, hdoc, hyes he⟩
  · rw [if_neg (not_or.mpr ⟨he, hok⟩)] at hdoc
    exact ⟨_, hdoc, fun t ht ↦ absurd ht (hno he t), fun _ ↦ ⟨hok, rfl, hmem⟩⟩

/-- `json_parse_document` returns for every text, and without an error exactly if the text is
accepted.  It has added the tree of the text to the memory then; after an error there is no tree to
be had, but what has been built of one may be left in memory. -/
theorem parseDocument_returns (hm : Exactly m H) (A : Allocator Node) (text : List UInt8) :
    ∃ e m' root, Returns (fun fuel ↦ parseDocument A fuel m text) (e, m', root) ∧
      (e = .ok ↔ ∃ t, Accepted t text) ∧
      (∀ t, Accepted t text → ∃ T : Placed Data, T.erase = t ∧ root = some T.addr ∧
        Exactly m' (T.cells .none + H)) ∧
      (e ≠ .ok → root = none ∧
        (Exactly m' H ∨ ∃ T : Placed Data, Exactly m' (T.cells .none + H))) := by
  obtain ⟨⟨e, m', root⟩, hret, hyes, hno⟩ := exists_parsed hm A text
  have hiff : e = .ok ↔ ∃ t, Accepted t text := by
    refine ⟨fun he ↦ ?_, fun ⟨t, ht⟩ ↦ (hyes t ht).1⟩
    by_contra hnone
    exact (hno (not_exists.mp hnone)).1 he
  refine ⟨e, m', root, hret, hiff, fun t ht ↦ (hyes t ht).2, fun he ↦ ?_⟩
  exact (hno (not_exists.mp fun h ↦ he (hiff.mpr h))).2

theorem parseDocument_nested : ∃ m' a,
    Returns (fun fuel ↦ parseDocument (.least _) fuel (fun _ ↦ none)
      [123, 34, 97, 34, 58, 91, 49, 44, 93, 125]) (.ok, m', some a) := by
  obtain ⟨e, m', root, hret, hiff, hacc, -⟩ := parseDocument_returns Exactly.nil (.least _)
    [123, 34, 97, 34, 58, 91, 49, 44, 93, 125]
  obtain rfl : e = .ok := hiff.mpr ⟨_, accepted_nested⟩
  obtain ⟨T, -, rfl, -⟩ := hacc _ accepted_nested
  exact ⟨m', T.addr, hret⟩

/-- Freeing the tree of a document leaves the memory as it was before the text was parsed. -/
theorem freeValue_parseDocument (hm : Exactly m H) (A : Allocator Node) (h : Accepted t text) :
    ∃ m' a, Returns (fun fuel ↦ parseDocument A fuel m text) (.ok, m', some a) ∧
      Returns (fun fuel ↦ freeValue fuel m' (some a)) m := by
  obtain ⟨⟨e, m', root⟩, hret, hacc, -⟩ := exists_parsed hm A text
  obtain ⟨rfl, T, -, rfl, hT⟩ := hacc t h
  obtain ⟨m'', hfree, hm''⟩ := freeValue_returns (c := []) hT
  rw [cut, zero_add] at hm''
  rw [hm''.unique hm] at hfree
  exact ⟨m', T.addr, hret, hfree⟩

theorem freeValue_nested : ∃ m' a,
    Returns (fun fuel ↦ parseDocument (.least _) fuel (fun _ ↦ none)
      [123, 34, 97, 34, 58, 91, 49, 44, 93, 125]) (.ok, m', some a) ∧
    Returns (fun fuel ↦ freeValue fuel m' (some a)) (fun _ ↦ none) :=
  freeValue_parseDocument Exactly.nil (.least _) accepted_nested

end Dlbase.Json
