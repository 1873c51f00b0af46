import Dlbase.Json.Stream

/-!
# `json_strip_white_spaces`

The function removes the white space of a text in place.  A quotation mark ends a string unless
there is a backslash in front of it; so the end of a string is missed if the text of the string ends
in a backslash, which is one that has been escaped.
-/

namespace Dlbase.Json

open Cmem Cmem.Rose
open JsonToken

/-- `text[i]`. -/
def readAt (text : List UInt8) (i : Nat) : Exec UInt8 :=
  if h : i < text.length then .ok text[i] else Exec.undef

/-- `text[i] = c`. -/
def writeAt (text : List UInt8) (i : Nat) (c : UInt8) : Exec (List UInt8) :=
  if i < text.length then .ok (text.set i c) else Exec.undef

/-- The loop of `json_strip_white_spaces`, for the last `n` characters; `inside` is `state`. -/
def stripLoop : Nat → List UInt8 → Nat → Nat → Bool → Exec (List UInt8)
  | 0, text, _, out, _ => writeAt text out 0
  | n + 1, text, pos, out, inside => do
    let c ← readAt text pos
    if IsBlank c then
      if inside then do
        let text ← writeAt text out c
        stripLoop n text (pos + 1) (out + 1) inside
      else stripLoop n text (pos + 1) out inside
    else if c = ch '"' then
      if inside then do
        let before ← readAt text (pos - 1)
        let text ← writeAt text out c
        stripLoop n text (pos + 1) (out + 1) (before = ch '\\')
      else do
        let text ← writeAt text out c
        stripLoop n text (pos + 1) (out + 1) true
    else do
      let text ← writeAt text out c
      stripLoop n text (pos + 1) (out + 1) inside

/-- `json_strip_white_spaces`, on the array with the text. -/
def jsonStripWhiteSpaces (text : List UInt8) : Exec (List UInt8) :=
  stripLoop (cString text).length text 0 0 false

variable {l w t : List UInt8} {c b : UInt8} {ts : List Token} {x : UInt8 × Bool}

/-! ## What is kept -/

/-- What the loop knows behind the character `c`: the character in front of it and whether it has
begun a string. -/
def advance (x : UInt8 × Bool) (c : UInt8) : UInt8 × Bool :=
  (c, if c = ch '"' then !x.2 || x.1 = ch '\\' else x.2)

/-- The characters that are kept. -/
def kept (x : UInt8 × Bool) : List UInt8 → List UInt8
  | [] => []
  | c :: l => if IsBlank c ∧ x.2 = false then kept (advance x c) l else c :: kept (advance x c) l

theorem kept_append (x : UInt8 × Bool) (l l' : List UInt8) :
    kept x (l ++ l') = kept x l ++ kept (l.foldl advance x) l' := by
  induction l generalizing x with
  | nil => rfl
  | cons c l ih =>
    rw [List.cons_append, kept, kept, ih, List.foldl_cons]
    split_ifs <;> rfl

/-! ## The loop -/

theorem readAt_append (a : List UInt8) (c : UInt8) (l : List UInt8) :
    readAt (a ++ c :: l) a.length = .ok c := by
  have hlt : a.length < (a ++ c :: l).length := by simp
  rw [readAt, dif_pos hlt, List.getElem_append_right (Nat.le_refl _)]
  simp

theorem writeAt_append (a : List UInt8) (b c : UInt8) (l : List UInt8) :
    writeAt (a ++ b :: l) a.length c = .ok (a ++ c :: l) := by
  rw [writeAt, if_pos (by simp), List.set_append_right _ _ (Nat.le_refl _), Nat.sub_self,
    List.set_cons_zero]

/-- The place to write at is not behind the one that has been read. -/
theorem write_behind {d g z : List UInt8} (c : UInt8) (l : List UInt8) :
    ∃ g', writeAt (d ++ g ++ c :: l ++ z) d.length c = .ok (d ++ [c] ++ g' ++ l ++ z) ∧
      g'.length = g.length ∧ (d ++ [c] ++ g').getLast? = some c := by
  cases g with
  | nil => exact ⟨[], by simpa using writeAt_append d c c (l ++ z), rfl, by simp⟩
  | cons b g =>
    refine ⟨g ++ [c], ?_, by simp, by rw [← List.append_assoc, List.getLast?_concat]⟩
    simpa using writeAt_append d b c (g ++ c :: l ++ z)

/-- The text is `d` so far, and `l` has not been read. -/
theorem stripLoop_eq {d g z : List UInt8} (hz : z ≠ [])
    (hx : x.2 = true → (d ++ g).getLast? = some x.1) :
    ∃ z', stripLoop l.length (d ++ g ++ l ++ z) (d ++ g).length d.length x.2 =
        .ok (d ++ kept x l ++ 0 :: z') ∧
      (d ++ kept x l ++ 0 :: z').length = (d ++ g ++ l ++ z).length := by
  induction l generalizing d g x with
  | nil =>
    obtain ⟨y, z', hy⟩ := List.exists_cons_of_ne_nil (List.append_ne_nil_of_right_ne_nil g hz)
    rw [List.append_nil, List.append_assoc, hy, kept, List.append_nil]
    refine ⟨z', writeAt_append d y 0 z', by simp⟩
  | cons c l ih =>
    have hread : readAt (d ++ g ++ c :: l ++ z) (d ++ g).length = .ok c := by
      rw [List.append_assoc, List.cons_append, readAt_append]
    rw [List.length_cons, stripLoop, hread, Exec.ok_bind]
    obtain ⟨g', hwrite, hlength, hlast⟩ := write_behind (d := d) (g := g) (z := z) c l
    -- what is left to be done when the character has been written
    have hkeep : ∀ s : Bool, s = (advance x c).2 → ∃ z',
        stripLoop l.length (d ++ [c] ++ g' ++ l ++ z) ((d ++ g).length + 1) (d.length + 1) s =
          .ok (d ++ c :: kept (advance x c) l ++ 0 :: z') ∧
        (d ++ c :: kept (advance x c) l ++ 0 :: z').length = (d ++ g ++ c :: l ++ z).length := by
      rintro s rfl
      obtain ⟨z', hloop, hlen⟩ := ih (x := advance x c) (d := d ++ [c]) (g := g') fun _ ↦ hlast
      have hpos : (d ++ [c] ++ g').length = (d ++ g).length + 1 := by simp; omega
      rw [hpos, show (d ++ [c]).length = d.length + 1 by simp] at hloop
      refine ⟨z', by simpa using hloop, ?_⟩
      simp at hlen ⊢
      omega
    by_cases hblank : IsBlank c
    · have hquote : c ≠ ch '"' := by
        rintro rfl
        exact absurd hblank (by decide)
      have hadvance : (advance x c).2 = x.2 := if_neg hquote
      rw [if_pos hblank, kept]
      cases hin : x.2 with
      | false =>
        rw [if_neg Bool.false_ne_true, if_pos ⟨hblank, rfl⟩]
        obtain ⟨z', hloop, hlen⟩ := ih (x := advance x c) (d := d) (g := g ++ [c]) fun h ↦ by
          rw [hadvance, hin] at h
          exact absurd h Bool.false_ne_true
        rw [hadvance, hin] at hloop
        exact ⟨z', by simpa [Nat.add_assoc] using hloop, by simpa using hlen⟩
      | true =>
        rw [if_pos rfl, if_neg fun h ↦ absurd h.2 nofun, hwrite, Exec.ok_bind]
        exact hkeep true (hin ▸ hadvance.symm)
    · rw [if_neg hblank, kept, if_neg (c := IsBlank c ∧ x.2 = false) fun h ↦ hblank h.1]
      by_cases hquote : c = ch '"'
      · rw [if_pos hquote]
        have hadvance : (advance x c).2 = (!x.2 || decide (x.1 = ch '\\')) := if_pos hquote
        cases hin : x.2 with
        | false =>
          rw [if_neg Bool.false_ne_true, hwrite, Exec.ok_bind]
          exact hkeep true (by rw [hadvance, hin]; rfl)
        | true =>
          obtain ⟨e, he⟩ := List.getLast?_eq_some_iff.mp (hx hin)
          have hbefore : readAt (d ++ g ++ c :: l ++ z) ((d ++ g).length - 1) = .ok x.1 := by
            rw [he]
            simpa using readAt_append e x.1 (c :: l ++ z)
          rw [if_pos rfl, hbefore, Exec.ok_bind, hwrite, Exec.ok_bind]
          exact hkeep _ (by rw [hadvance, hin]; rfl)
      · rw [if_neg hquote, hwrite, Exec.ok_bind]
        exact hkeep _ (if_neg hquote).symm

/-- The function leaves the characters in the array that are kept. -/
theorem jsonStripWhiteSpaces_eq (h : 0 ∉ l) : ∃ z,
    jsonStripWhiteSpaces (l ++ [0]) = .ok (kept (0, false) l ++ 0 :: z) ∧
      (kept (0, false) l ++ 0 :: z).length = l.length + 1 := by
  have hstring : cString (l ++ [0]) = l := by
    have hall : ∀ c ∈ l, decide (c ≠ 0) = true := fun c hc ↦ decide_eq_true fun h0 ↦ h (h0 ▸ hc)
    rw [cString, List.takeWhile_append_of_pos hall]
    exact List.append_nil l
  obtain ⟨z, hloop, hlen⟩ := stripLoop_eq (x := (0, false)) (l := l) (d := []) (g := []) (z := [0])
    (List.cons_ne_nil 0 []) nofun
  rw [jsonStripWhiteSpaces, hstring]
  exact ⟨z, hloop, by simpa using hlen⟩

/-! ## What is kept of a document -/

/-- The text of a string is kept as it is. -/
theorem kept_text (h : JsonString.Text t) (b : UInt8) : kept (b, true) t = t ∧
    t.foldl advance (b, true) = ((b :: t).getLast (List.cons_ne_nil b t), true) := by
  have hcons : ∀ (b c : UInt8) (t : List UInt8), c ≠ ch '"' ∨ b = ch '\\' →
      (kept (c, true) t = t ∧
        t.foldl advance (c, true) = ((c :: t).getLast (List.cons_ne_nil c t), true)) →
      kept (b, true) (c :: t) = c :: t ∧ (c :: t).foldl advance (b, true) =
        ((b :: c :: t).getLast (List.cons_ne_nil b _), true) := by
    intro b c t hc ⟨hkept, hfold⟩
    have hadvance : advance (b, true) c = (c, true) := by
      rw [advance]
      split_ifs with hquote
      · rw [hc.resolve_left fun h ↦ h hquote]
        rfl
      · rfl
    rw [kept, if_neg fun h ↦ absurd h.2 nofun, List.foldl_cons, hadvance, hkept, hfold,
      List.getLast_cons_cons]
    exact ⟨rfl, rfl⟩
  have hdigit : ∀ {c : UInt8}, Hexadecimal.IsDigit c → c ≠ ch '"' := by
    rintro c hc rfl
    exact absurd hc (by decide)
  induction h generalizing b with
  | nil => exact ⟨rfl, rfl⟩
  | plain hc _ ih => exact hcons _ _ _ (.inl hc.2.1) (ih _)
  | short _ _ ih => exact hcons _ _ _ (.inl (by decide)) (hcons _ _ _ (.inr rfl) (ih _))
  | unicode ha hb hc hd _ ih =>
    exact hcons _ _ _ (.inl (by decide)) <| hcons _ _ _ (.inl (by decide)) <|
      hcons _ _ _ (.inl (hdigit ha)) <| hcons _ _ _ (.inl (hdigit hb)) <|
      hcons _ _ _ (.inl (hdigit hc)) <| hcons _ _ _ (.inl (hdigit hd)) (ih _)

/-- Outside of strings white space is left out. -/
theorem kept_blank (hw : Blank w) (b : UInt8) :
    kept (b, false) w = [] ∧ (w.foldl advance (b, false)).2 = false := by
  induction w generalizing b with
  | nil => exact ⟨rfl, rfl⟩
  | cons c w ih =>
    obtain ⟨hc, hw⟩ := List.forall_mem_cons.mp hw
    have hquote : c ≠ ch '"' := by
      rintro rfl
      exact absurd hc (by decide)
    have hadvance : advance (b, false) c = (c, false) := by rw [advance, if_neg hquote]
    rw [kept, if_pos ⟨hc, rfl⟩, List.foldl_cons, hadvance]
    exact ih hw c

/-- Outside of strings anything else is kept. -/
theorem kept_dark (h : ∀ c ∈ w, ¬ IsBlank c ∧ c ≠ ch '"') (b : UInt8) :
    kept (b, false) w = w ∧ (w.foldl advance (b, false)).2 = false := by
  induction w generalizing b with
  | nil => exact ⟨rfl, rfl⟩
  | cons c w ih =>
    obtain ⟨⟨hc, hquote⟩, hw⟩ := List.forall_mem_cons.mp h
    have hadvance : advance (b, false) c = (c, false) := by rw [advance, if_neg hquote]
    rw [kept, if_neg fun h ↦ hc h.1, List.foldl_cons, hadvance, (ih hw c).1]
    exact ⟨rfl, (ih hw c).2⟩

/-- A token is kept. -/
theorem kept_lexeme {k : Token} (hok : k.Ok)
    (hend : ∀ t, k = .string t → t.getLast? ≠ some (ch '\\')) (b : UInt8) :
    kept (b, false) k.lexeme = k.lexeme ∧ (k.lexeme.foldl advance (b, false)).2 = false := by
  cases k with
  | string t =>
    obtain ⟨hkept, hfold⟩ := kept_text hok (ch '"')
    have hlast : (ch '"' :: t).getLast (List.cons_ne_nil _ t) ≠ ch '\\' := by
      intro h
      cases t with
      | nil => exact absurd h (by decide)
      | cons c t =>
        rw [List.getLast_cons (List.cons_ne_nil c t)] at h
        exact hend _ rfl (List.getLast?_eq_some_getLast (List.cons_ne_nil c t) ▸ congrArg some h)
    have hclose : ∀ {c : UInt8}, c ≠ ch '\\' → advance (c, true) (ch '"') = (ch '"', false) := by
      intro c hc
      rw [advance, if_pos rfl, decide_eq_false hc]
      rfl
    change kept (b, false) (ch '"' :: (t ++ [ch '"'])) = ch '"' :: (t ++ [ch '"']) ∧
      (List.foldl advance (ch '"', true) (t ++ [ch '"'])).2 = false
    rw [kept, if_neg fun h ↦ absurd h.1 (by decide)]
    change ch '"' :: kept (ch '"', true) (t ++ [ch '"']) = _ ∧ _
    rw [kept_append, hkept, hfold, List.foldl_append, hfold]
    exact ⟨rfl, congrArg Prod.snd (hclose hlast)⟩
  | number t =>
    exact kept_dark (fun c hc ↦ ⟨(hok.numeric c hc).not_blank, (hok.numeric c hc).ne (by decide)⟩) b
  | _ => exact kept_dark (List.all_iff_forall_prop.mp rfl) b

/-- The white space is left out, unless the text of a string ends in a backslash. -/
theorem kept_spells (h : Spells ts l) (hend : ∀ t, .string t ∈ ts → t.getLast? ≠ some (ch '\\'))
    (b : UInt8) : kept (b, false) l = spelling ts := by
  induction h generalizing b with
  | nil hw => exact (kept_blank hw b).1
  | @cons w l k ts hw hok _ _ ih =>
    obtain ⟨hblank, hstate⟩ := kept_blank hw b
    have hrest := fun b ↦ ih (fun t ht ↦ hend t (List.mem_cons_of_mem k ht)) b
    have hlex := fun b ↦ kept_lexeme hok (fun t ht ↦ hend t (ht ▸ List.mem_cons_self)) b
    rw [kept_append, hblank, List.nil_append, spelling_cons]
    generalize w.foldl advance (b, false) = x at hstate
    obtain ⟨c, s⟩ := x
    obtain rfl : s = false := hstate
    rw [kept_append, (hlex c).1]
    generalize hx : k.lexeme.foldl advance (c, false) = x
    obtain ⟨d, s⟩ := x
    obtain rfl : s = false := (congrArg Prod.snd hx).symm.trans (hlex c).2
    rw [hrest d]

theorem zero_notMem_lexeme {k : Token} (h : k.Ok) : 0 ∉ k.lexeme := by
  cases k with
  | string t =>
    intro h0
    rcases List.mem_cons.mp h0 with h0 | h0
    · exact absurd h0 (by decide)
    · rcases List.mem_append.mp h0 with h0 | h0
      exacts [zero_notMem_text h h0, absurd h0 (by decide)]
  | number t => exact Number.zero_notMem h
  | _ => decide

theorem zero_notMem_of_spells (h : Spells ts l) : 0 ∉ l := by
  have hblank : ∀ {w : List UInt8}, Blank w → 0 ∉ w := fun hw h0 ↦ absurd (hw 0 h0) (by decide)
  induction h with
  | nil hw => exact hblank hw
  | cons hw hok _ _ ih =>
    rw [List.mem_append, List.mem_append]
    rintro (h0 | h0 | h0)
    exacts [hblank hw h0, zero_notMem_lexeme hok h0, ih h0]

variable {t : Rose Data}

/-- If no string of a document has a text that ends in a backslash, exactly the white space between
the tokens is removed, and what is left is a text of the same document. -/
theorem jsonStripWhiteSpaces_document (h : Spells ts l) (hdoc : Document t ts)
    (hend : ∀ t, .string t ∈ ts → t.getLast? ≠ some (ch '\\')) :
    (∃ z, jsonStripWhiteSpaces (l ++ [0]) = .ok (spelling ts ++ 0 :: z) ∧
      (spelling ts ++ 0 :: z).length = l.length + 1) ∧ Accepted t (spelling ts) := by
  refine ⟨?_, _, [], ts, (List.append_nil _).symm, ?_, unfinished_nil, hdoc⟩
  · rw [← kept_spells h hend 0]
    exact jsonStripWhiteSpaces_eq (zero_notMem_of_spells h)
  · exact hdoc.spells h.ok (spaced_spelling ts)

/-- An object with one member, the number `1`. -/
theorem document_member {s : List UInt8} (hs : JsonString.Text s) :
    Document (.node objectData [.node (labelData s) [.node ⟨.number, some [49]⟩ []]])
        [.beginObject, .string s, .nameSeparator, .number [49], .endObject] ∧
      ∀ k ∈ [.beginObject, .string s, .nameSeparator, .number [49], .endObject], Token.Ok k := by
  have hone : Integer ([] ++ 49 :: []) := .digits (.inl rfl) (by decide) (by decide) nofun
  refine ⟨⟨rfl, .object (.members (.firstMember (.member _ (.scalar rfl))))⟩, ?_⟩
  simp only [List.forall_mem_cons]
  exact ⟨trivial, hs, trivial, hone.number, trivial, nofun⟩

/-- The only string of that document. -/
theorem string_mem_member {s t : List UInt8} (h : Token.string t ∈
    [.beginObject, .string s, .nameSeparator, .number [49], .endObject]) : t = s := by
  simpa using h

/-- The text `{"a b" : 1 }`. -/
theorem jsonStripWhiteSpaces_member : ∃ z,
    jsonStripWhiteSpaces ([123, 34, 97, 32, 98, 34, 32, 58, 32, 49, 32, 125] ++ [0]) =
      .ok ([123, 34, 97, 32, 98, 34, 58, 49, 125] ++ 0 :: z) := by
  have hblank : Blank [32] := List.forall_mem_singleton.mpr (.inl rfl)
  have htext : JsonString.Text [97, 32, 98] :=
    .plain (by decide) (.plain (by decide) (.plain (by decide) .nil))
  obtain ⟨hdoc, hok⟩ := document_member htext
  have hspaced : Spaced
      [.beginObject, .string [97, 32, 98], .nameSeparator, .number [49], .endObject]
      [123, 34, 97, 32, 98, 34, 32, 58, 32, 49, 32, 125] :=
    .cons blank_nil (.cons blank_nil (.cons hblank (.cons hblank (.cons hblank (.nil blank_nil)))))
  obtain ⟨⟨z, hz, -⟩, -⟩ := jsonStripWhiteSpaces_document (hdoc.spells hok hspaced) hdoc
    fun t ht ↦ by
      rw [string_mem_member ht]
      decide
  exact ⟨z, hz⟩

/-! ## Strings whose text ends in a backslash -/

/-- Outside of strings, a text without quotation marks. -/
theorem kept_of_quote_notMem (h : ch '"' ∉ w) (b : UInt8) :
    kept (b, false) w = w.filter (¬ IsBlank ·) ∧ (w.foldl advance (b, false)).2 = false := by
  induction w generalizing b with
  | nil => exact ⟨rfl, rfl⟩
  | cons c w ih =>
    rw [List.mem_cons, not_or] at h
    have hadvance : advance (b, false) c = (c, false) := by rw [advance, if_neg (Ne.symm h.1)]
    rw [kept, List.foldl_cons, hadvance, (ih h.2 c).1]
    refine ⟨?_, (ih h.2 c).2⟩
    by_cases hc : IsBlank c
    · rw [if_pos ⟨hc, rfl⟩, List.filter_cons_of_neg (by simpa using hc)]
    · rw [if_neg fun h ↦ hc h.1, List.filter_cons_of_pos (by simpa using hc)]

/-- The end of such a string is missed, so the next quotation mark is taken for it: the white space
in the string behind it is removed. -/
theorem jsonStripWhiteSpaces_backslash {t s : List UInt8} (ht : JsonString.Text t)
    (hend : t.getLast? = some (ch '\\')) (hs : JsonString.Text s) (hquote : ch '"' ∉ s) :
    ∃ z, jsonStripWhiteSpaces
        (spelling [.beginObject, .string t, .nameSeparator, .string s, .endObject] ++ [0]) =
      .ok (spelling [.beginObject, .string t, .nameSeparator,
        .string (s.filter (¬ IsBlank ·)), .endObject] ++ 0 :: z) := by
  have hzero : 0 ∉ spelling [.beginObject, .string t, .nameSeparator, .string s, .endObject] := by
    intro h0
    obtain ⟨k, hk, h0⟩ := List.mem_flatMap.mp h0
    refine zero_notMem_lexeme ?_ h0
    simp only [List.mem_cons, List.not_mem_nil, or_false] at hk
    rcases hk with rfl | rfl | rfl | rfl | rfl
    exacts [trivial, ht, trivial, hs, trivial]
  obtain ⟨z, hz, -⟩ := jsonStripWhiteSpaces_eq hzero
  refine ⟨z, hz.trans (congrArg (fun w ↦ Except.ok (w ++ 0 :: z)) ?_)⟩
  have hne : t ≠ [] := by
    rintro rfl
    exact absurd hend nofun
  have hlast : (ch '"' :: t).getLast (List.cons_ne_nil _ t) = ch '\\' := by
    rw [List.getLast_cons hne]
    exact Option.some.inj ((List.getLast?_eq_some_getLast hne).symm.trans hend)
  obtain ⟨hkept, hfold⟩ := kept_text ht (ch '"')
  obtain ⟨hkept', hfold'⟩ := kept_of_quote_notMem hquote (ch '"')
  -- the string, what is between the two strings, the other string, and what is behind it
  have hsplit : ∀ s : List UInt8,
      spelling [.beginObject, .string t, .nameSeparator, .string s, .endObject] =
        [ch '{', ch '"'] ++ (t ++ ([ch '"', ch ':', ch '"'] ++ (s ++ [ch '"', ch '}']))) := by
    intro s
    simp only [spelling, Token.lexeme, List.flatMap_cons, List.flatMap_nil, List.append_assoc,
      List.cons_append, List.nil_append]
    rfl
  have hopen : kept (0, false) [ch '{', ch '"'] = [ch '{', ch '"'] ∧
      [ch '{', ch '"'].foldl advance (0, false) = (ch '"', true) := by decide
  have hmissed : kept (ch '\\', true) [ch '"', ch ':', ch '"'] = [ch '"', ch ':', ch '"'] ∧
      [ch '"', ch ':', ch '"'].foldl advance (ch '\\', true) = (ch '"', false) := by decide
  rw [hsplit, hsplit, kept_append, hopen.1, hopen.2, kept_append, hkept, hfold, hlast, kept_append,
    hmissed.1, hmissed.2, kept_append, hkept']
  generalize hx : s.foldl advance (ch '"', false) = x at hfold' ⊢
  obtain ⟨d, b⟩ := x
  obtain rfl : b = false := hfold'
  rfl

/-- The text `{"\\":"b c"}`. -/
theorem jsonStripWhiteSpaces_escaped : ∃ z, jsonStripWhiteSpaces (spelling
      [.beginObject, .string [92, 92], .nameSeparator, .string [98, 32, 99], .endObject] ++ [0]) =
    .ok (spelling
      [.beginObject, .string [92, 92], .nameSeparator, .string [98, 99], .endObject] ++ 0 :: z) :=
  jsonStripWhiteSpaces_backslash (.short (by decide) .nil) rfl
    (.plain (by decide) (.plain (by decide) (.plain (by decide) .nil))) (by decide)

end Dlbase.Json
