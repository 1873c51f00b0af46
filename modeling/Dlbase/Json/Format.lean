import Dlbase.Json.Strip
import Dlbase.Lib.JsonPiece

/-!
# `json_format_string`

The function writes each member of an object on a line of its own, with as many tabulators in front
of it as there are objects around it.  Behind an escaped quotation mark it copies one more character
whatever that is, so a string may not have a quotation mark or a backslash there.
-/

namespace Dlbase.Json

open Cmem Cmem.Rose
open JsonToken
open JsonString (pieces)
open Rcstring (Adds)

/-- The loop that copies a string; what is left of the text behind it. -/
def formatString (output : Rcstring) : List UInt8 → Exec (Rcstring × List UInt8)
  | [] => .ok (output, [])
  | c :: text =>
    if c = ch '\\' then do
      let output ← output.catc (ch '\\')
      match text with
      -- the null character behind the text is copied
      | [] => do
        let output ← output.catc 0
        pure (output, [])
      | d :: text =>
        if d = ch '"' then do
          let output ← output.catc (ch '"')
          match text with
          | [] => do
            let output ← output.catc 0
            pure (output, [])
          | e :: text => do
            let output ← output.catc e
            formatString output text
        else do
          let output ← output.catc d
          formatString output text
    else do
      let output ← output.catc c
      if c = ch '"' then pure (output, text) else formatString output text

/-- `for (i = 0; i < indentation; i++) rcs_catc (output, '\t')`. -/
def formatTabs (output : Rcstring) : Nat → Exec Rcstring
  | 0 => .ok output
  | i + 1 => do
    let output ← output.catc 0x09
    formatTabs output i

/-- The loop of `json_format_string`; the indentation is an `unsigned int`. -/
def formatLoop : Nat → Rcstring → UInt32 → List UInt8 → Exec Rcstring
  | 0, _, _, _ => Exec.timeout
  | _ + 1, output, _, [] => .ok output
  | fuel + 1, output, indentation, c :: text =>
    if IsBlank c then formatLoop fuel output indentation text
    else if c = ch '{' then do
      let indentation := indentation + 1
      let output ← output.catcs [ch '{', 0x0a] 2
      let output ← formatTabs output indentation.toNat
      formatLoop fuel output indentation text
    else if c = ch '}' then do
      let indentation := indentation - 1
      let output ← output.catc 0x0a
      let output ← formatTabs output indentation.toNat
      let output ← output.catc (ch '}')
      formatLoop fuel output indentation text
    else if c = ch ':' then do
      let output ← output.catcs [ch ':', 0x20] 2
      formatLoop fuel output indentation text
    else if c = ch ',' then do
      let output ← output.catcs [ch ',', 0x0a] 2
      let output ← formatTabs output indentation.toNat
      formatLoop fuel output indentation text
    else if c = ch '"' then do
      let output ← output.catc c
      match text with
      -- the null character behind the text is copied
      | [] => output.catc 0
      | _ => do
        let (output, text) ← formatString output text
        formatLoop fuel output indentation text
    else do
      let output ← output.catc c
      formatLoop fuel output indentation text

/-- `json_format_string`. -/
def jsonFormatString (fuel : Nat) (text : List UInt8) : Exec (List UInt8) := do
  let output ← formatLoop fuel (Rcstring.create text.length) 0 text
  output.unwrap

variable {l w t : List UInt8} {r : Rcstring} {ts : List Token} {k : Token} {i : UInt32}

/-! ## What is written -/

/-- The indentation behind a token. -/
def indent (i : UInt32) : Token → UInt32
  | .beginObject => i + 1
  | .endObject => i - 1
  | _ => i

/-- What is written for a token. -/
def laidOut (i : UInt32) (k : Token) : List UInt8 :=
  match k with
  | .beginObject => k.lexeme ++ 0x0a :: List.replicate (indent i k).toNat 0x09
  | .endObject => 0x0a :: List.replicate (indent i k).toNat 0x09 ++ k.lexeme
  | .nameSeparator => k.lexeme ++ [0x20]
  | .valueSeparator => k.lexeme ++ 0x0a :: List.replicate i.toNat 0x09
  | _ => k.lexeme

/-- What is written for a text with the tokens. -/
def formatted (i : UInt32) : List Token → List UInt8
  | [] => []
  | k :: ts => laidOut i k ++ formatted (indent i k) ts

theorem blank_tabs (n : Nat) : Blank (0x0a :: List.replicate n 0x09) :=
  List.forall_mem_cons.mpr ⟨by decide, fun c hc ↦ by rw [List.eq_of_mem_replicate hc]; decide⟩

/-- Only white space is put between the tokens. -/
theorem spaced_formatted (i : UInt32) (ts : List Token) : Spaced ts (formatted i ts) := by
  induction ts generalizing i with
  | nil => exact .nil blank_nil
  | cons k ts ih =>
    have hbehind : ∀ {v : List UInt8}, Blank v → laidOut i k = k.lexeme ++ v →
        Spaced (k :: ts) (laidOut i k ++ formatted (indent i k) ts) := fun hv h ↦ by
      rw [h, List.append_assoc]
      exact .cons blank_nil ((ih _).blank_append hv)
    cases k with
    | beginObject => exact hbehind (blank_tabs _) rfl
    | endObject =>
      change Spaced _ ((0x0a :: List.replicate _ 0x09 ++ Token.endObject.lexeme) ++ _)
      rw [List.append_assoc]
      exact .cons (blank_tabs _) (ih _)
    | nameSeparator => exact hbehind (List.forall_mem_singleton.mpr (by decide)) rfl
    | valueSeparator => exact hbehind (blank_tabs _) rfl
    | _ => exact hbehind blank_nil (List.append_nil _).symm

/-! ## Strings -/

/-- Behind an escaped quotation mark there is neither a backslash nor the end of the string. -/
def Tame (t : List UInt8) : Prop :=
  ∀ c, c = ch '"' ∨ c = ch '\\' → ¬ [ch '\\', ch '"', c] <:+: t ++ [ch '"']

theorem Tame.of_append {u t : List UInt8} (h : Tame (u ++ t)) : Tame t := fun c hc hin ↦ by
  refine h c hc (hin.trans ?_)
  rw [List.append_assoc]
  exact (List.suffix_append u _).isInfix

/-- The text `u` is added to `w`, and `l` is left. -/
def Copies (w : List UInt8) (x : Exec (Rcstring × List UInt8)) (u l : List UInt8) : Prop :=
  ∃ r, x = .ok (r, l) ∧ r.Holds (w ++ u)

theorem Copies.bind {x : Exec Rcstring} {f : Rcstring → Exec (Rcstring × List UInt8)}
    {u v : List UInt8} (hx : Adds w x u) (hf : ∀ r, r.Holds (w ++ u) → Copies (w ++ u) (f r) v l) :
    Copies w (x >>= f) (u ++ v) l := by
  obtain ⟨r, rfl, hr⟩ := hx
  obtain ⟨r', hr', hholds⟩ := hf r hr
  exact ⟨r', hr', by rwa [← List.append_assoc]⟩

/-- A character that neither starts an escape nor ends the string. -/
theorem formatString_cons {u : List UInt8} {c : UInt8} (hc : c ≠ ch '\\' ∧ c ≠ ch '"')
    (h : ∀ w r, r.Holds w → Copies w (formatString r t) u l) (hr : r.Holds w) :
    Copies w (formatString r (c :: t)) (c :: u) l := by
  have hstep : formatString r (c :: t) = (r.catc c >>= fun r ↦ formatString r t) := by
    rw [formatString.eq_def]
    dsimp only
    rw [if_neg hc.1]
    simp only [if_neg hc.2]
  rw [hstep]
  exact Copies.bind (u := [c]) (hr.catc c) fun r hr ↦ h _ r hr

/-- A backslash and a character that is no quotation mark. -/
theorem formatString_escape {u : List UInt8} {d : UInt8} (hd : d ≠ ch '"')
    (h : ∀ w r, r.Holds w → Copies w (formatString r t) u l) (hr : r.Holds w) :
    Copies w (formatString r (ch '\\' :: d :: t)) (ch '\\' :: d :: u) l := by
  have hstep : formatString r (ch '\\' :: d :: t) =
      (r.catc (ch '\\') >>= fun r ↦ r.catc d >>= fun r ↦ formatString r t) := by
    rw [formatString.eq_def]
    dsimp only
    rw [if_pos rfl]
    simp only [if_neg hd]
  rw [hstep]
  exact Copies.bind (u := [ch '\\']) (hr.catc _) fun r hr ↦
    Copies.bind (u := [d]) (hr.catc d) fun r hr ↦ h _ r hr

/-- An escaped quotation mark and the character behind it. -/
theorem formatString_quote {u : List UInt8} {e : UInt8}
    (h : ∀ w r, r.Holds w → Copies w (formatString r t) u l) (hr : r.Holds w) :
    Copies w (formatString r (ch '\\' :: ch '"' :: e :: t)) (ch '\\' :: ch '"' :: e :: u) l := by
  have hstep : formatString r (ch '\\' :: ch '"' :: e :: t) = (r.catc (ch '\\') >>= fun r ↦
      r.catc (ch '"') >>= fun r ↦ r.catc e >>= fun r ↦ formatString r t) := by
    rw [formatString.eq_def]
    rfl
  rw [hstep]
  exact Copies.bind (u := [ch '\\']) (hr.catc _) fun r hr ↦
    Copies.bind (u := [ch '"']) (hr.catc _) fun r hr ↦
      Copies.bind (u := [e]) (hr.catc e) fun r hr ↦ h _ r hr

/-- A string is copied. -/
theorem formatString_copies {ps : List JsonString.Piece} (hok : ∀ p ∈ ps, p.Ok)
    (ht : Tame (pieces ps)) (l : List UInt8) (hr : r.Holds w) :
    Copies w (formatString r (pieces ps ++ ch '"' :: l))
      (pieces ps ++ [ch '"']) l := by
  have hdigit : ∀ {c : UInt8}, Hexadecimal.IsDigit c → c ≠ ch '\\' ∧ c ≠ ch '"' := fun hc ↦
    ⟨fun h ↦ absurd (h ▸ hc) (by decide), fun h ↦ absurd (h ▸ hc) (by decide)⟩
  induction hk : ps.length using Nat.strong_induction_on generalizing ps r w with
  | _ n ih =>
  subst hk
  cases ps with
  | nil =>
    have hstep : formatString r (ch '"' :: l) = (r.catc (ch '"') >>= fun r ↦ .ok (r, l)) := by
      rw [formatString.eq_def]
      rfl
    change Copies w (formatString r (ch '"' :: l)) ([ch '"'] ++ []) l
    rw [hstep]
    exact Copies.bind (hr.catc _) fun r hr ↦ ⟨r, rfl, (List.append_nil _).symm ▸ hr⟩
  | cons p ps =>
    obtain ⟨hp, hps⟩ := List.forall_mem_cons.mp hok
    rw [JsonString.pieces_cons] at ht ⊢
    have hrest := fun w r ↦ ih ps.length (Nat.lt_succ_self _) (r := r) (w := w) hps ht.of_append
    cases p with
    | plain c => exact formatString_cons ⟨hp.2.2, hp.2.1⟩ (fun w r hr ↦ hrest w r hr rfl) hr
    | unicode a b c d m =>
      obtain ⟨ha, hb, hc, hd, -⟩ : Hexadecimal.IsDigit a ∧ Hexadecimal.IsDigit b ∧
          Hexadecimal.IsDigit c ∧ Hexadecimal.IsDigit d ∧ ∀ x ∈ [], Hexadecimal.IsDigit x := by
        simpa only [List.forall_mem_cons] using Hexadecimal.isDigit_of_number hp
      refine formatString_escape (by decide) (fun w r hr ↦ ?_) hr
      refine formatString_cons (hdigit ha) (fun w r hr ↦ ?_) hr
      refine formatString_cons (hdigit hb) (fun w r hr ↦ ?_) hr
      refine formatString_cons (hdigit hc) (fun w r hr ↦ ?_) hr
      exact formatString_cons (hdigit hd) (fun w r hr ↦ hrest w r hr rfl) hr
    | short e b =>
      by_cases he : e = ch '"'
      · subst he
        have hfirst : ∀ c u, pieces ps ++ [ch '"'] = c :: u → ¬ (c = ch '"' ∨ c = ch '\\') := by
          intro c u hu hc
          exact ht c hc ⟨[], u, congrArg (fun x ↦ ch '\\' :: ch '"' :: x) hu.symm⟩
        cases ps with
        | nil => exact absurd (.inl rfl) (hfirst _ _ rfl)
        | cons q ps =>
          cases q with
          | plain c =>
            obtain ⟨-, hps⟩ := List.forall_mem_cons.mp hps
            have htame : Tame (pieces ps) := ht.of_append.of_append (u := [c])
            refine formatString_quote (fun w r hr ↦ ?_) hr
            exact ih ps.length (Nat.lt_succ_of_lt (Nat.lt_succ_self _)) hps htame hr rfl
          | _ => exact absurd (.inr rfl) (hfirst _ _ rfl)
      · exact formatString_escape he (fun w r hr ↦ hrest w r hr rfl) hr

/-! ## Tokens -/

theorem formatTabs_adds (n : Nat) (hr : r.Holds w) :
    Adds w (formatTabs r n) (List.replicate n 0x09) := by
  induction n generalizing r w with
  | zero => exact hr.adds_nil
  | succ n ih => exact (hr.catc 0x09).bind (u := [0x09]) fun r hr ↦ ih hr

/-- The loop writes `u` for the rest of the text. -/
def Formats (w : List UInt8) (r : Rcstring) (i : UInt32) (p u : List UInt8) : Prop :=
  ∃ r', Returns (fun fuel ↦ formatLoop fuel r i p) r' ∧ r'.Holds (w ++ u)

/-- A round of the loop writes `v`. -/
theorem Formats.round {p q u v : List UInt8} {j : UInt32} {x : Exec Rcstring} (hx : Adds w x v)
    (hstep : ∀ fuel, formatLoop (fuel + 1) r i p = (x >>= fun r ↦ formatLoop fuel r j q))
    (h : ∀ r, r.Holds (w ++ v) → Formats (w ++ v) r j q u) : Formats w r i p (v ++ u) := by
  obtain ⟨r', rfl, hr'⟩ := hx
  obtain ⟨r'', hret, hr''⟩ := h r' hr'
  exact ⟨r'', hret.succ hstep, by rwa [← List.append_assoc]⟩

/-- White space. -/
theorem formats_blank {v u : List UInt8} (hv : Blank v) (h : Formats w r i l u) :
    Formats w r i (v ++ l) u := by
  induction v with
  | nil => exact h
  | cons c v ih =>
    obtain ⟨hc, hv⟩ := List.forall_mem_cons.mp hv
    obtain ⟨r', hret, hr'⟩ := ih hv
    exact ⟨r', hret.succ fun fuel ↦ by rw [List.cons_append, formatLoop, if_pos hc], hr'⟩

/-- A character that is copied. -/
def IsCopied (c : UInt8) : Prop :=
  ¬ IsBlank c ∧ c ≠ ch '{' ∧ c ≠ ch '}' ∧ c ≠ ch ':' ∧ c ≠ ch ',' ∧ c ≠ ch '"'

instance (c : UInt8) : Decidable (IsCopied c) := inferInstanceAs (Decidable (_ ∧ _))

/-- Characters that are copied. -/
theorem formats_copied {v u : List UInt8} (hv : ∀ c ∈ v, IsCopied c) (hr : r.Holds w)
    (h : ∀ w r, r.Holds w → Formats w r i l u) : Formats w r i (v ++ l) (v ++ u) := by
  induction v generalizing w r with
  | nil => exact h w r hr
  | cons c v ih =>
    obtain ⟨⟨hblank, hopen, hclose, hcolon, hcomma, hquote⟩, hv⟩ := List.forall_mem_cons.mp hv
    refine Formats.round (v := [c]) (hr.catc c) (fun fuel ↦ ?_) fun r hr ↦ ih hv hr
    rw [List.cons_append, formatLoop, if_neg hblank, if_neg hopen, if_neg hclose, if_neg hcolon,
      if_neg hcomma, if_neg hquote]

theorem IsNumeric.copied {c : UInt8} (h : IsNumeric c) : IsCopied c :=
  ⟨h.not_blank, h.ne (by decide), h.ne (by decide), h.ne (by decide), h.ne (by decide),
    h.ne (by decide)⟩

/-- A token. -/
theorem formats_token {u : List UInt8} (hk : k.Ok) (htame : ∀ t, k = .string t → Tame t)
    (hr : r.Holds w) (h : ∀ w r, r.Holds w → Formats w r (indent i k) l u) :
    Formats w r i (k.lexeme ++ l) (laidOut i k ++ u) := by
  cases k with
  | beginObject =>
    have hadds : ∀ n, Adds w (r.catcs [ch '{', 0x0a] 2 >>= fun r ↦ formatTabs r n)
        ([ch '{', 0x0a] ++ List.replicate n 0x09) := fun n ↦
      (hr.catcs [ch '{', 0x0a]).bind fun r hr ↦ formatTabs_adds n hr
    refine Formats.round (hadds (indent i .beginObject).toNat) (fun fuel ↦ ?_) fun r hr ↦ h _ r hr
    exact (bind_assoc _ _ _).symm
  | endObject =>
    have hadds : ∀ n, Adds w (r.catc 0x0a >>= fun r ↦ formatTabs r n >>= fun r ↦ r.catc (ch '}'))
        ([0x0a] ++ (List.replicate n 0x09 ++ [ch '}'])) := fun n ↦
      (hr.catc 0x0a).bind fun r hr ↦ (formatTabs_adds n hr).bind fun r hr ↦ hr.catc (ch '}')
    refine Formats.round (hadds (indent i .endObject).toNat) (fun fuel ↦ ?_) fun r hr ↦ h _ r hr
    simp only [bind_assoc]
    rfl
  | nameSeparator =>
    exact Formats.round (hr.catcs [ch ':', 0x20]) (fun fuel ↦ rfl) fun r hr ↦ h _ r hr
  | valueSeparator =>
    refine Formats.round ((hr.catcs [ch ',', 0x0a]).bind fun r hr ↦ formatTabs_adds i.toNat hr)
      (fun fuel ↦ ?_) fun r hr ↦ h _ r hr
    exact (bind_assoc _ _ _).symm
  | string t =>
    obtain ⟨ps, hok, rfl⟩ := JsonString.Text.exists_pieces hk
    obtain ⟨r₁, hopen, hr₁⟩ := hr.catc (ch '"')
    obtain ⟨r₂, hcopy, hr₂⟩ := formatString_copies hok (htame _ rfl) l hr₁
    obtain ⟨r₃, hret, hr₃⟩ := h _ r₂ hr₂
    refine ⟨r₃, hret.succ fun fuel ↦ ?_, ?_⟩
    · have hstep : ∀ y, y ≠ [] → formatLoop (fuel + 1) r i (ch '"' :: y) = (r.catc (ch '"') >>=
          fun r ↦ formatString r y >>= fun x ↦ formatLoop fuel x.1 i x.2) := fun y hy ↦ by
        cases y with
        | nil => exact absurd rfl hy
        | cons => rfl
      have htext : Token.lexeme (.string (pieces ps)) ++ l =
          ch '"' :: (pieces ps ++ ch '"' :: l) := by
        change ch '"' :: (pieces ps ++ [ch '"'] ++ l) = _
        rw [List.append_assoc]
        rfl
      have hne : pieces ps ++ ch '"' :: l ≠ [] := List.append_ne_nil_of_right_ne_nil _ (by simp)
      rw [htext, hstep _ hne, hopen, Exec.ok_bind, hcopy, Exec.ok_bind]
      rfl
    · have htext : laidOut i (.string (pieces ps)) = [ch '"'] ++ (pieces ps ++ [ch '"']) := rfl
      rw [htext, ← List.append_assoc w, ← List.append_assoc w]
      exact hr₃
  | number t => exact formats_copied (fun c hc ↦ IsNumeric.copied (hk.numeric c hc)) hr h
  | _ => exact formats_copied (List.all_iff_forall_prop.mp rfl) hr h

/-- The loop on a text with the tokens. -/
theorem formats_spells (h : Spells ts l) (htame : ∀ t, .string t ∈ ts → Tame t) (hr : r.Holds w)
    (i : UInt32) : Formats w r i l (formatted i ts) := by
  induction h generalizing r w i with
  | @nil v hv =>
    rw [← List.append_nil v]
    exact formats_blank hv ⟨r, returns_of_succ fun _ ↦ rfl, (List.append_nil w).symm ▸ hr⟩
  | @cons v l k ts hv hok _ _ ih =>
    refine formats_blank hv (formats_token hok (fun t ht ↦ ?_) hr fun w r hr ↦ ?_)
    · exact htame t (ht ▸ List.mem_cons_self)
    · exact ih (fun t ht ↦ htame t (List.mem_cons_of_mem k ht)) hr _

variable {t : Rose Data}

/-- The text that is written for a document is one of the same document, and formatting that text
does not change it. -/
theorem jsonFormatString_document (h : Spells ts l) (hdoc : Document t ts)
    (htame : ∀ t, .string t ∈ ts → Tame t) :
    Returns (fun fuel ↦ jsonFormatString fuel l) (formatted 0 ts) ∧ Accepted t (formatted 0 ts) ∧
      Returns (fun fuel ↦ jsonFormatString fuel (formatted 0 ts)) (formatted 0 ts) := by
  have hspells := hdoc.spells h.ok (spaced_formatted 0 ts)
  have hformat : ∀ {l : List UInt8}, Spells ts l →
      Returns (fun fuel ↦ jsonFormatString fuel l) (formatted 0 ts) := by
    intro l h
    obtain ⟨r, hret, hr⟩ := formats_spells h htame (Rcstring.holds_create l.length) 0
    have hunwrap : Returns (fun _ ↦ r.unwrap) (formatted 0 ts) :=
      returns_of_succ fun _ ↦ hr.unwrap (zero_notMem_of_spells hspells)
    exact hret.bind hunwrap
  exact ⟨hformat h, ⟨_, [], ts, (List.append_nil _).symm, hspells, unfinished_nil, hdoc⟩,
    hformat hspells⟩

/-- The text `{"a\"b":1}`. -/
theorem jsonFormatString_member : Returns (fun fuel ↦ jsonFormatString fuel
      [123, 34, 97, 92, 34, 98, 34, 58, 49, 125])
    [123, 10, 9, 34, 97, 92, 34, 98, 34, 58, 32, 49, 10, 125] := by
  obtain ⟨hdoc, hok⟩ := document_member (.plain (by decide) (.short (by decide)
    (.plain (by decide) .nil)) : JsonString.Text [97, 92, 34, 98])
  refine (jsonFormatString_document (hdoc.spells hok (spaced_spelling _)) hdoc fun t ht ↦ ?_).1
  rw [string_mem_member ht]
  rintro c (rfl | rfl) <;> decide

end Dlbase.Json
