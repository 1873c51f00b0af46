import Dlbase.Json.Fragment

/-!
# `json_stream_parse`

The function reads a file line by line and gives the parser one line after the other; a line that is
too long for the buffer comes in several pieces, and of a line with a null character only what is in
front of it is seen.  If the parser stops with an error, the value at its cursor is freed, and there
is none if the first line is not one that opens an object.
-/

namespace Dlbase.Json

open Cmem Cmem.Rose
open JsonToken
open Reader (Explains)

/-- What `fgets` stores of the file in a buffer for `n` characters, and what is left of it. -/
def readLine : Nat → List UInt8 → List UInt8 × List UInt8
  | 0, l => ([], l)
  | _ + 1, [] => ([], [])
  | n + 1, c :: l =>
    if c = 0x0a then ([c], l)
    else
      let (line, rest) := readLine n l
      (c :: line, rest)

/-- `fgets(buffer, 1024, file)`. -/
def fgets (file : List UInt8) : Option (List UInt8 × List UInt8) :=
  if file = [] then none else some (readLine 1023 file)

/-- The string in a buffer. -/
def cString (buffer : List UInt8) : List UInt8 := buffer.takeWhile (· ≠ 0)

/-- The loop of `json_stream_parse`: what it returns, the memory, and `*document`. -/
def streamLoop (A : Allocator Node) :
    Nat → JsonError → Parse → List UInt8 → Exec (JsonError × Mem × Option Nat)
  | 0, _, _, _ => Exec.timeout
  | fuel + 1, error, s, file =>
    if Waits error then
      match fgets file with
      | some (buffer, file) => do
        let (error, s) ← parseFragment A fuel s (cString buffer)
        if error = .ok ∨ Waits error then streamLoop A fuel error s file
        else do
          let mem ← freeValue fuel s.mem s.info.cursor
          pure (error, mem, none)
      | none =>
        streamLoop A fuel (if error = .waitingForEof then .ok else .unknownProblem) s file
    else pure (error, s.mem, if error = .ok then s.info.cursor else none)

/-- `json_stream_parse`. -/
def streamParse (A : Allocator Node) (fuel : Nat) (m : Mem) (file : List UInt8) :
    Exec (JsonError × Mem × Option Nat) :=
  streamLoop A fuel .incompleteDocument ⟨m, jpiInit⟩ file

variable {A : Allocator Node} {m : Mem} {H : Cells Node} {s s' s₁ : Parse} {file p : List UInt8}
  {ps : List (List UInt8)} {e e' : JsonError} {x : JsonError × Parse}

/-! ## Lines -/

theorem readLine_append (n : Nat) (l : List UInt8) : (readLine n l).1 ++ (readLine n l).2 = l := by
  induction n, l using readLine.induct with
  | case1 => rfl
  | case2 => rfl
  | case3 => simp [readLine]
  | case4 n c l hc line rest hline ih =>
    rw [readLine, if_neg hc]
    exact congrArg (c :: ·) ih

theorem length_readLine_lt (h : file ≠ []) : (readLine 1023 file).2.length < file.length := by
  cases file with
  | nil => exact absurd rfl h
  | cons c l =>
    rw [readLine]
    split_ifs
    · exact Nat.lt_succ_self _
    · have hlen := congrArg List.length (readLine_append 1022 l)
      rw [List.length_append] at hlen
      change (readLine 1022 l).2.length < l.length + 1
      omega

/-- The pieces of the file that the parser is given. -/
def lines (file : List UInt8) : List (List UInt8) :=
  if h : file = [] then []
  else
    have := length_readLine_lt h
    cString (readLine 1023 file).1 :: lines (readLine 1023 file).2
termination_by file.length

theorem lines_nil : lines [] = [] := by
  rw [lines, dif_pos rfl]

theorem lines_of_ne_nil (h : file ≠ []) :
    lines file = cString (readLine 1023 file).1 :: lines (readLine 1023 file).2 := by
  rw [lines, dif_neg h]

/-- All of a file without null characters is seen. -/
theorem flatten_lines (h : 0 ∉ file) : (lines file).flatten = file := by
  induction hn : file.length using Nat.strong_induction_on generalizing file with
  | _ n ih =>
    by_cases hf : file = []
    · rw [hf, lines_nil, List.flatten_nil]
    · have happend := readLine_append 1023 file
      have hzero : 0 ∉ (readLine 1023 file).1 ++ (readLine 1023 file).2 := happend.symm ▸ h
      rw [List.mem_append, not_or] at hzero
      have hstring : cString (readLine 1023 file).1 = (readLine 1023 file).1 :=
        List.takeWhile_eq_self_iff.mpr fun c hc ↦ decide_eq_true fun h0 ↦ hzero.1 (h0 ▸ hc)
      rw [lines_of_ne_nil hf, List.flatten_cons, hstring,
        ih _ (hn ▸ length_readLine_lt hf) hzero.2 rfl, happend]

/-! ## The loop -/

/-- What is done when the parser has stopped, or at the end of the file. -/
def streamEnd (fuel : Nat) (x : JsonError × Parse) : Exec (JsonError × Mem × Option Nat) :=
  if x.1 = .waitingForEof then .ok (.ok, x.2.mem, x.2.info.cursor)
  else if x.1 = .incompleteDocument then .ok (.unknownProblem, x.2.mem, none)
  else do
    let mem ← freeValue fuel x.2.mem x.2.info.cursor
    .ok (x.1, mem, none)

theorem steady_fragmentLoop (A : Allocator Node) (s : Parse) (p : List UInt8) :
    Steady fun fuel ↦ fragmentLoop A fuel s p := by
  intro fuel
  induction fuel generalizing s p with
  | zero => exact .timeout _
  | succ fuel ih =>
    dsimp only
    rw [fragmentLoop, fragmentLoop]
    refine .ite (.refl _) (.bind_right _ fun z ↦ ?_)
    obtain ⟨⟨s', o⟩, rest⟩ := z
    cases o with
    | none => exact ih s' rest
    | some e => exact .refl _

/-- The first of the pieces has been read. -/
theorem feed_cons_returns (h : Returns (fun fuel ↦ feed A fuel s (p :: ps)) x) :
    ∃ e s', Returns (fun fuel ↦ fragmentLoop A fuel s p) (e, s') ∧
      Returns (fun fuel ↦ if Waits e then feed A fuel s' ps else .ok (e, s')) x := by
  obtain ⟨N, hN⟩ := h
  have hfirst : feed A N s (p :: ps) = .ok x := hN N (Nat.le_refl N)
  rw [feed] at hfirst
  obtain ⟨⟨e, s'⟩, hret, -⟩ := Exec.bind_eq_ok.mp hfirst
  refine ⟨e, s', (steady_fragmentLoop A s p).returns hret, N, fun fuel hf ↦ ?_⟩
  have hall : feed A fuel s (p :: ps) = .ok x := hN fuel hf
  have hp : parseFragment A fuel s p = .ok (e, s') :=
    ((steady_fragmentLoop A s p).le hf).eq_ok hret
  rw [feed, hp, Exec.ok_bind] at hall
  exact hall

/-- The loop gives the parser the lines of the file. -/
theorem streamLoop_of_feed (h : Returns (fun fuel ↦ feed A fuel s (lines file)) x)
    (he : e = atEnd s) (hx : x.1 ≠ .ok) {z : Exec (JsonError × Mem × Option Nat)}
    (hz : ∃ N, ∀ fuel, N ≤ fuel → streamEnd fuel x = z) :
    ∃ N, ∀ fuel, N ≤ fuel → streamLoop A fuel e s file = z := by
  induction hn : file.length using Nat.strong_induction_on generalizing file s e with
  | _ n ih =>
  have hwaits : Waits e := he ▸ waits_atEnd s
  by_cases hf : file = []
  · subst hf
    rw [lines_nil] at h
    obtain rfl : (atEnd s, s) = x := Returns.unique ⟨0, fun _ _ ↦ rfl⟩ h
    obtain ⟨N, hN⟩ := hz
    refine ⟨2, fun fuel hfuel ↦ ?_⟩
    obtain ⟨fuel, rfl⟩ := Nat.exists_eq_add_of_le' hfuel
    rw [← hN N (Nat.le_refl N), streamLoop, if_pos hwaits]
    simp only [fgets, if_true]
    rw [streamLoop, streamEnd, ← he]
    rcases hwaits with rfl | rfl <;> rfl
  · rw [lines_of_ne_nil hf] at h
    obtain ⟨e₁, s₁, hfirst, hrest⟩ := feed_cons_returns h
    obtain ⟨N₁, hN₁⟩ := hfirst
    have hstep : ∀ fuel, N₁ ≤ fuel → streamLoop A (fuel + 1) e s file =
        if e₁ = .ok ∨ Waits e₁ then streamLoop A fuel e₁ s₁ (readLine 1023 file).2
        else freeValue fuel s₁.mem s₁.info.cursor >>= fun mem ↦ .ok (e₁, mem, none) := by
      intro fuel hfuel
      have hp : parseFragment A fuel s (cString (readLine 1023 file).1) = .ok (e₁, s₁) :=
        hN₁ fuel hfuel
      rw [streamLoop, if_pos hwaits]
      simp only [fgets, if_neg hf]
      rw [hp]
      rfl
    by_cases he₁ : Waits e₁
    · simp only [he₁, if_true] at hrest
      obtain ⟨fuel₁, hfuel₁⟩ := Returns.exists_fuel ⟨N₁, hN₁⟩
      obtain ⟨hend, -⟩ := (fragmentLoop_append hfuel₁ []).1 he₁
      obtain ⟨N, hN⟩ := ih _ (hn ▸ length_readLine_lt hf) hrest hend rfl
      refine ⟨max N N₁ + 1, fun fuel hfuel ↦ ?_⟩
      obtain ⟨fuel, rfl⟩ := Nat.exists_eq_add_of_le' (Nat.le_trans (Nat.le_add_left 1 _) hfuel)
      have hle := Nat.le_of_succ_le_succ hfuel
      rw [hstep fuel (Nat.le_trans (Nat.le_max_right _ _) hle), if_pos (.inr he₁)]
      exact hN fuel (Nat.le_trans (Nat.le_max_left _ _) hle)
    · simp only [he₁, if_false] at hrest
      obtain rfl : (e₁, s₁) = x := Returns.unique ⟨0, fun _ _ ↦ rfl⟩ hrest
      obtain ⟨N, hN⟩ := hz
      refine ⟨max N N₁ + 1, fun fuel hfuel ↦ ?_⟩
      obtain ⟨fuel, rfl⟩ := Nat.exists_eq_add_of_le' (Nat.le_trans (Nat.le_add_left 1 _) hfuel)
      have hle := Nat.le_of_succ_le_succ hfuel
      rw [hstep fuel (Nat.le_trans (Nat.le_max_right _ _) hle), if_neg (not_or.mpr ⟨hx, he₁⟩),
        ← hN fuel (Nat.le_trans (Nat.le_max_left _ _) hle), streamEnd,
        if_neg fun h ↦ he₁ (.inl h), if_neg fun h ↦ he₁ (.inr h)]

/-! ## Files that open an object -/

theorem Explains.path_ne_nil {r : Reader} {ts : List Token} (h : Explains r ts)
    (hc : CallsLexer r.state) (hts : ts ≠ []) : r.path ≠ [] := by
  cases h with
  | start => exact absurd rfl hts
  | openObject => exact absurd rfl hc.1
  | openArray => exact absurd rfl hc.2
  | _ => exact List.cons_ne_nil _ _

/-- When the parser has stopped, the value at the cursor can be freed. -/
theorem freeValue_cursor (hm : Exactly m H) (hp : Opening p)
    (h : Returns (fun fuel ↦ fragmentLoop A fuel ⟨m, jpiInit⟩ p) (e, s')) (he : ¬ Waits e) :
    ∃ m', Returns (fun fuel ↦ freeValue fuel s'.mem s'.info.cursor) m' ∧
      (Exactly m' H ∨ ∃ T : Placed Data, Exactly m' (T.cells .none + H)) := by
  obtain ⟨w, l, rfl, hw⟩ := hp
  obtain ⟨lex, hroot, hround⟩ := round_opening (A := A) (s := ⟨m, jpiInit⟩) rfl rfl hw
  have hrep : Rep H ⟨m, ⟨.openObject, lex, none⟩⟩ ⟨.openObject, []⟩ [] :=
    ⟨rfl, rfl, (exactly_empty hm).mem, rfl⟩
  have hl := (loop_next_iff (List.append_ne_nil_of_right_ne_nil w (List.cons_ne_nil _ l))
    (hround l)).mp h
  obtain ⟨e', s'', hret, r, q, us, hrep', hexp, -, hcalls, -⟩ :=
    loop_stops A hrep (.openObject (.inl ⟨rfl, rfl⟩)) hroot l
  obtain ⟨rfl, rfl⟩ := Prod.mk.inj (hl.unique hret)
  have hpath := Explains.path_ne_nil hexp (hcalls he) (List.append_ne_nil_of_left_ne_nil
    (List.append_ne_nil_of_right_ne_nil _ (List.cons_ne_nil _ _)) _)
  obtain ⟨x, p, hx⟩ := List.exists_cons_of_ne_nil hpath
  obtain ⟨a, cs, q, rfl, -, -⟩ := hrep'.exists_cons (show r.path = (x.1, x.2) :: p from hx)
  obtain ⟨m', hfree, hm'⟩ := freeValue_returns hrep'.mem
  rw [hrep'.cursor]
  refine ⟨m', hfree, ?_⟩
  cases q with
  | nil => exact .inl (hm'.of_eq (zero_add H))
  | cons x q => exact .inr ⟨_, hm'⟩

/-- What parsing a file comes to, beside `json_parse_document` on its text. -/
def Streamed (A : Allocator Node) (m : Mem) (H : Cells Node) (text : List UInt8)
    (x : JsonError × Mem × Option Nat) : Prop :=
  (x.1 = .ok → Returns (fun fuel ↦ parseDocument A fuel m text) x) ∧
  (x.1 ≠ .ok → x.2.2 = none ∧
    (Exactly x.2.1 H ∨ ∃ T : Placed Data, Exactly x.2.1 (T.cells .none + H)) ∧
    ∀ m' root, ¬ Returns (fun fuel ↦ parseDocument A fuel m text) (.ok, m', root))

theorem exists_streamed (hm : Exactly m H) (A : Allocator Node) (h : Opens (lines file)) :
    ∃ x, Returns (fun fuel ↦ streamParse A fuel m file) x ∧
      Streamed A m H (lines file).flatten x := by
  obtain ⟨⟨e, s'⟩, hfeed, hret⟩ :=
    feed_from (p := []) hm (loop_nil A _) (.inr rfl) (.inr ⟨rfl, h⟩)
  obtain ⟨hok, hmem, -⟩ := loop_outcome hm hret
  have hdoc := parseDocument_loop hret
  have hstream := fun z ↦ streamLoop_of_feed (e := .incompleteDocument) hfeed rfl hok (z := z)
  by_cases hw : e = .waitingForEof
  · rw [if_pos (.inl hw)] at hdoc
    refine ⟨_, hstream (.ok (.ok, s'.mem, s'.info.cursor)) ⟨0, fun fuel _ ↦ if_pos hw⟩,
      fun _ ↦ hdoc, fun he ↦ absurd rfl he⟩
  · rw [if_neg (not_or.mpr ⟨hw, hok⟩)] at hdoc
    have hparsed : ∀ m', (Exactly m' H ∨ ∃ T : Placed Data, Exactly m' (T.cells .none + H)) →
        ∀ e', e' ≠ .ok → Streamed A m H (lines file).flatten (e', m', none) := by
      refine fun m' hm' e' he' ↦ ⟨fun h ↦ absurd h he', fun _ ↦ ⟨rfl, hm', fun m'' root hd ↦ ?_⟩⟩
      exact hok (Prod.mk.inj (hdoc.unique hd)).1
    by_cases hi : e = .incompleteDocument
    · refine ⟨_, hstream (.ok (.unknownProblem, s'.mem, none)) ⟨0, fun fuel _ ↦ ?_⟩,
        hparsed _ hmem _ nofun⟩
      rw [streamEnd, if_neg hw, if_pos hi]
    · have hwaits : ¬ Waits e := not_or.mpr ⟨hw, hi⟩
      have hopening : Opening (lines file).flatten := by
        by_contra hno'
        have hnil : ∀ ps, Opens ps → ¬ Opening ps.flatten → ps.flatten = [] := by
          intro ps
          induction ps with
          | nil => exact fun _ _ ↦ rfl
          | cons p ps ih =>
            rintro (⟨rfl, hps⟩ | hp) hno
            · exact ih hps hno
            · exact absurd (hp.append ps.flatten) hno
        rw [hnil _ h hno'] at hret
        obtain ⟨rfl, -⟩ := Prod.mk.inj (hret.unique (loop_nil A _))
        exact hi rfl
      obtain ⟨m', ⟨N, hN⟩, hm'⟩ := freeValue_cursor hm hopening hret hwaits
      refine ⟨_, hstream (.ok (e, m', none)) ⟨N, fun fuel hf ↦ ?_⟩, hparsed _ hm' _ hok⟩
      have hfree : freeValue fuel s'.mem s'.info.cursor = .ok m' := hN fuel hf
      rw [streamEnd, if_neg hw, if_neg hi, hfree]
      rfl

theorem lines_two : lines [123, 10, 125] = [[123, 10], [125]] := by
  have hfirst : (readLine 1023 [123, 10, 125]).2 = [125] := rfl
  have hsecond : (readLine 1023 [125]).2 = [] := rfl
  rw [lines_of_ne_nil (List.cons_ne_nil _ _), hfirst, lines_of_ne_nil (List.cons_ne_nil _ _),
    hsecond, lines_nil]
  rfl

/-- A file without null characters whose first line opens an object is parsed like a text: either
`json_stream_parse` and `json_parse_document` return the same tree in the same memory, or both
return an error. -/
theorem streamParse_parseDocument (hm : Exactly m H) (A : Allocator Node) (h0 : 0 ∉ file)
    (h : Opens (lines file)) :
    (∃ m' root, Returns (fun fuel ↦ streamParse A fuel m file) (.ok, m', root) ∧
      Returns (fun fuel ↦ parseDocument A fuel m file) (.ok, m', root)) ∨
    ∃ e m₁ e' m₂, e ≠ .ok ∧ e' ≠ .ok ∧
      Returns (fun fuel ↦ streamParse A fuel m file) (e, m₁, none) ∧
      Returns (fun fuel ↦ parseDocument A fuel m file) (e', m₂, none) := by
  obtain ⟨⟨e, m₁, root⟩, hstream, hyes, hno⟩ := exists_streamed hm A h
  rw [flatten_lines h0] at hyes hno
  by_cases he : e = .ok
  · subst he
    exact .inl ⟨m₁, root, hstream, hyes rfl⟩
  · obtain ⟨rfl, -, hne⟩ := hno he
    obtain ⟨⟨e', m₂, root'⟩, hdoc, hacc, hrej⟩ := exists_parsed hm A file
    have hnot : ∀ t, ¬ Accepted t file := by
      intro t ht
      obtain ⟨rfl, -⟩ := hacc t ht
      exact hne _ _ hdoc
    obtain ⟨he', rfl, -⟩ := hrej hnot
    exact .inr ⟨e, m₁, e', m₂, he, he', hstream, hdoc⟩

theorem streamParse_two :
    (∃ m' root, Returns (fun fuel ↦ streamParse (.least _) fuel (fun _ ↦ none) [123, 10, 125])
        (.ok, m', root) ∧
      Returns (fun fuel ↦ parseDocument (.least _) fuel (fun _ ↦ none) [123, 10, 125])
        (.ok, m', root)) ∨
    ∃ e m₁ e' m₂, e ≠ .ok ∧ e' ≠ .ok ∧
      Returns (fun fuel ↦ streamParse (.least _) fuel (fun _ ↦ none) [123, 10, 125])
        (e, m₁, none) ∧
      Returns (fun fuel ↦ parseDocument (.least _) fuel (fun _ ↦ none) [123, 10, 125])
        (e', m₂, none) :=
  streamParse_parseDocument Exactly.nil (.least _) (by decide)
    (lines_two.symm ▸ .inr ⟨[], [10], rfl, fun _ hc ↦ absurd hc List.not_mem_nil⟩)

/-! ## Files that do not -/

/-- Of a piece that does not open an object, nothing is accepted. -/
theorem round_not_opening (hs : s.info.state = .start) (hlex : s.info.lex.state = .root)
    (hp : ¬ Opening p) :
    ∃ lex rest, round A s p =
      .ok (({ s with info := { s.info with lex } }, some .malformedDocument), rest) := by
  obtain ⟨v, rest, lex, hlexer, hcalled⟩ := lexer_called (reading_root hlex) p
  have hv : v ≠ .beginObject := by
    intro hv
    cases hcalled with
    | @token _ w q _ k hpw hw _ hok hx =>
      cases k
      case beginObject =>
        rw [List.nil_append] at hx
        subst hx
        exact hp ⟨w, rest, hpw, hw⟩
      all_goals cases hv
    | _ => cases hv
  have hc : CallsLexer s.info.state := by
    rw [hs]
    exact ⟨nofun, nofun⟩
  refine ⟨lex, rest, (round_eq_ok hc).mpr ⟨fun y ↦ ?_, v, lex, hlexer, ?_⟩⟩
  · unfold Parse.checked
    rw [hs]
  · unfold Parse.onValue
    simp only [hs]
    cases v
    case beginObject => exact absurd rfl hv
    all_goals rfl

/-- Pieces that do not open an object are not accepted, and there is no cursor then. -/
theorem feed_not_opens (A : Allocator Node) (hs : s.info.state = .start)
    (hlex : s.info.lex.state = .root) (hc : s.info.cursor = none) (h : ¬ Opens ps) :
    ∃ s', Returns (fun fuel ↦ feed A fuel s ps) (.malformedDocument, s') ∧
      s'.info.cursor = none := by
  induction ps with
  | nil => exact absurd trivial h
  | cons p ps ih =>
    obtain ⟨hps, hp⟩ := not_or.mp h
    by_cases hnil : p = []
    · obtain ⟨s', hfeed, hc'⟩ := ih fun h ↦ hps ⟨hnil, h⟩
      have hend : atEnd s = .incompleteDocument := if_neg (by rw [hs]; nofun)
      refine ⟨s', feed_cons (hnil ▸ loop_nil A s) ?_, hc'⟩
      rw [hend]
      simpa only [Waits, or_true, if_true] using hfeed
    · obtain ⟨lex, rest, hround⟩ := round_not_opening (A := A) hs hlex hp
      exact ⟨_, feed_cons (loop_done hnil hround) ⟨0, fun fuel _ ↦ rfl⟩, hc⟩

/-- `json_stream_parse` goes wrong exactly if there is something else than white space in front of
the first brace in the first line that is not empty, or no brace at all: an error there makes it
free a value that does not exist. -/
theorem streamParse_undef_iff (hm : Exactly m H) (A : Allocator Node) (file : List UInt8) :
    (∃ N, ∀ fuel, N ≤ fuel → streamParse A fuel m file = Exec.undef) ↔ ¬ Opens (lines file) := by
  constructor
  · rintro ⟨N, hN⟩ h
    obtain ⟨x, ⟨M, hM⟩, -⟩ := exists_streamed hm A h
    exact nomatch (hN (max N M) (Nat.le_max_left N M)).symm.trans
      (hM (max N M) (Nat.le_max_right N M))
  · intro h
    obtain ⟨s', hfeed, hc⟩ := feed_not_opens (s := ⟨m, jpiInit⟩) A rfl rfl rfl h
    refine streamLoop_of_feed (e := .incompleteDocument) hfeed rfl nofun ⟨0, fun fuel _ ↦ ?_⟩
    rw [streamEnd, hc]
    rfl

/-- An empty line in front of the object: the cursor is `NULL` when the file ends. -/
theorem streamParse_empty_line : ∃ N, ∀ fuel, N ≤ fuel →
    streamParse (.least _) fuel (fun _ ↦ none) [10, 123, 125] = Exec.undef := by
  refine (streamParse_undef_iff Exactly.nil (.least _) [10, 123, 125]).mpr ?_
  rw [lines_of_ne_nil (List.cons_ne_nil _ _)]
  change ¬ Opens ([10] :: _)
  rintro (⟨hnil, -⟩ | ⟨w, rest, heq, -⟩)
  · cases hnil
  · have hmem : 123 ∈ ([10] : List UInt8) := by
      rw [heq]
      exact List.mem_append_right _ List.mem_cons_self
    exact absurd hmem (by decide)

end Dlbase.Json
