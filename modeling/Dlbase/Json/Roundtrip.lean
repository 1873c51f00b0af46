import Dlbase.Json.Document
import Dlbase.Json.Printing

/-!
# Parsing what has been printed

The tree of a document is printed as a text of that document: without white space, and without
commas behind the last elements of arrays.
-/

namespace Dlbase.Json

open Cmem Cmem.Rose
open JsonToken

variable {A : Allocator Node} {m : Mem} {H : Cells Node} {t : Rose Data} {cs ds : List (Rose Data)}
  {ts us vs : List Token} {n : Nonterminal} {w text : List UInt8} {d : Data}

/-! ## The tokens of a tree -/

/-- A part of a document is a list of labels or of values. -/
def Nonterminal.labels : Nonterminal → Bool
  | .member | .someMembers | .members => true
  | _ => false

theorem Written.append_assoc (W W' W'' : Written) :
    (W.append W').append W'' = W.append (W'.append W'') := by
  cases W with
  | error w => rfl
  | ok w =>
    cases W' with
    | error v => rfl
    | ok v =>
      cases W'' with
      | error u => exact congrArg Except.error (List.append_assoc w v u)
      | ok u => exact congrArg Except.ok (List.append_assoc w v u)

theorem renderAll_append (label first : Bool) (cs ds : List (Rose Data)) :
    renderAll label first (cs ++ ds) =
      (renderAll label first cs).append (renderAll label (first && cs.isEmpty) ds) := by
  induction cs generalizing first with
  | nil =>
    rw [renderAll, List.nil_append, List.isEmpty_nil, Bool.and_true]
    cases renderAll label first ds <;> rfl
  | cons c cs ih =>
    rw [List.cons_append, renderAll, renderAll, ih, Written.append_assoc, List.isEmpty_cons,
      Bool.and_false, Bool.false_and]

theorem renderAll_false (label : Bool) (t : Rose Data) (h : renderAll label true [t] = .ok w) :
    renderAll label false [t] = .ok (44 :: w) := by
  simp only [renderAll, Written.append_nil, if_true, if_false, Bool.false_eq_true] at h ⊢
  cases hr : render label t with
  | error v =>
    rw [hr] at h
    cases h
  | ok v =>
    rw [hr] at h
    obtain rfl := Except.ok.inj h
    rfl

/-- The tokens with which the trees are printed. -/
structure Canonical (n : Nonterminal) (cs : List (Rose Data)) (ts : List Token) : Prop where
  /-- They are tokens of the trees. -/
  derives : Derives n cs ts
  /-- They are allowed. -/
  ok : ∀ k ∈ ts, k.Ok
  /-- They are what is printed. -/
  renders : renderAll n.labels true cs = .ok (spelling ts)

theorem Derives.singleton_of_value (h : Derives .value cs ts) : ∃ t, cs = [t] := by
  cases h <;> exact ⟨_, rfl⟩

theorem Derives.singleton_of_member (h : Derives .member cs ts) : ∃ t, cs = [t] := by
  cases h
  exact ⟨_, rfl⟩

theorem Derives.ne_nil (h : Derives n cs ts) (hn : n = .someMembers ∨ n = .someElements) :
    cs ≠ [] := by
  induction h with
  | firstMember h =>
    obtain ⟨t, rfl⟩ := h.singleton_of_member
    exact List.cons_ne_nil _ _
  | firstElement h =>
    obtain ⟨t, rfl⟩ := h.singleton_of_value
    exact List.cons_ne_nil _ _
  | nextMember _ _ ih => exact List.append_ne_nil_of_left_ne_nil (ih (.inl rfl)) _
  | nextElement _ _ ih => exact List.append_ne_nil_of_left_ne_nil (ih (.inr rfl)) _
  | _ => rcases hn with hn | hn <;> cases hn

theorem renderAll_singleton (label : Bool) (t : Rose Data) :
    renderAll label true [t] = render label t := by
  rw [renderAll, renderAll, Written.append_nil, if_pos rfl]
  cases render label t <;> rfl

/-- A comma and the next tree. -/
theorem Canonical.next {n k : Nonterminal} (h : Canonical n cs ts) (h' : Canonical k ds us)
    (hne : cs ≠ []) (hds : ∃ t, ds = [t]) (hk : k.labels = n.labels)
    (hd : Derives n (cs ++ ds) (ts ++ .valueSeparator :: us)) :
    Canonical n (cs ++ ds) (ts ++ .valueSeparator :: us) := by
  refine ⟨hd, List.forall_mem_append.mpr ⟨h.ok, List.forall_mem_cons.mpr ⟨trivial, h'.ok⟩⟩, ?_⟩
  obtain ⟨t, rfl⟩ := hds
  have hcs : (true && cs.isEmpty) = false := by
    rw [Bool.true_and, List.isEmpty_eq_false_iff]
    exact hne
  have hrender := h'.renders
  rw [hk] at hrender
  rw [renderAll_append, h.renders, hcs, renderAll_false _ t hrender, spelling_append]
  rfl

/-- An object or an array. -/
theorem Canonical.parent {b e : Token} (h : Canonical n cs ts)
    (hd : Derives .value [.node d cs] us) (hus : us = b :: (ts ++ [e]))
    (hb : b.Ok) (he : e.Ok)
    (hr : render false (.node d cs) =
      ((renderAll n.labels true cs).prepend b.lexeme).append (.ok e.lexeme)) :
    Canonical .value [.node d cs] us := by
  subst hus
  refine ⟨hd, List.forall_mem_cons.mpr ⟨hb, List.forall_mem_append.mpr
    ⟨h.ok, List.forall_mem_singleton.mpr he⟩⟩, ?_⟩
  change renderAll false true _ = _
  rw [renderAll_singleton, hr, h.renders, spelling_cons, spelling_append]
  change Except.ok _ = Except.ok _
  rw [spelling_cons, List.append_assoc]
  exact congrArg (fun x ↦ Except.ok (b.lexeme ++ (spelling ts ++ x))) (List.append_nil _).symm

/-- Each part of a document has the tokens with which it is printed. -/
theorem exists_canonical (h : Derives n cs ts) (hok : ∀ k ∈ ts, k.Ok) :
    ∃ us, Canonical n cs us := by
  have hleft : ∀ {ts us : List Token}, (∀ k ∈ ts ++ us, k.Ok) → ∀ k ∈ ts, k.Ok :=
    fun h k hk ↦ h k (List.mem_append.mpr (.inl hk))
  have hright : ∀ {ts us : List Token} {k : Token}, (∀ j ∈ ts ++ k :: us, j.Ok) → ∀ j ∈ us, j.Ok :=
    fun h j hj ↦ h j (List.mem_append.mpr (.inr (List.mem_cons_of_mem _ hj)))
  induction h with
  | @scalar k d hk =>
    refine ⟨[k], .scalar hk, hok, ?_⟩
    change renderAll false true _ = _
    rw [renderAll_singleton]
    cases k with
    | string t =>
      cases hk
      rfl
    | number t =>
      cases hk
      exact congrArg Except.ok (List.append_nil t).symm
    | true | false | null =>
      cases hk
      rfl
    | _ => cases hk
  | object _ ih =>
    obtain ⟨us, hus⟩ := ih (hleft fun k hk ↦ hok k (List.mem_cons_of_mem _ hk))
    exact ⟨_, hus.parent (.object hus.derives) rfl trivial trivial rfl⟩
  | array _ ih =>
    obtain ⟨us, hus⟩ := ih (hleft fun k hk ↦ hok k (List.mem_cons_of_mem _ hk))
    exact ⟨_, hus.parent (.array hus.derives) rfl trivial trivial rfl⟩
  | @member v ts t h ih =>
    obtain ⟨us, hus⟩ := ih fun k hk ↦ hok k (List.mem_cons_of_mem _ (List.mem_cons_of_mem _ hk))
    refine ⟨_, .member t hus.derives, List.forall_mem_cons.mpr ⟨hok _ List.mem_cons_self,
      List.forall_mem_cons.mpr ⟨trivial, hus.ok⟩⟩, ?_⟩
    have hr : renderAll false true [v] = .ok (spelling us) := hus.renders
    change renderAll true true _ = _
    rw [renderAll_singleton, render]
    change (renderAll false true [v]).prepend (quoted (labelData t) ++ [ch ':']) = _
    rw [hr, Written.prepend, List.append_assoc]
    rfl
  | firstMember _ ih =>
    obtain ⟨us, hus⟩ := ih hok
    exact ⟨us, .firstMember hus.derives, hus.ok, hus.renders⟩
  | nextMember h h' ih ih' =>
    obtain ⟨us, hus⟩ := ih (hleft hok)
    obtain ⟨vs, hvs⟩ := ih' (hright hok)
    exact ⟨_, hus.next hvs (h.ne_nil (.inl rfl)) h'.singleton_of_member rfl
      (.nextMember hus.derives hvs.derives)⟩
  | noMembers => exact ⟨[], .noMembers, (by rintro _ ⟨⟩), rfl⟩
  | members _ ih =>
    obtain ⟨us, hus⟩ := ih hok
    exact ⟨us, .members hus.derives, hus.ok, hus.renders⟩
  | firstElement _ ih =>
    obtain ⟨us, hus⟩ := ih hok
    exact ⟨us, .firstElement hus.derives, hus.ok, hus.renders⟩
  | nextElement h h' ih ih' =>
    obtain ⟨us, hus⟩ := ih (hleft hok)
    obtain ⟨vs, hvs⟩ := ih' (hright hok)
    exact ⟨_, hus.next hvs (h.ne_nil (.inr rfl)) h'.singleton_of_value rfl
      (.nextElement hus.derives hvs.derives)⟩
  | noElements => exact ⟨[], .noElements, (by rintro _ ⟨⟩), rfl⟩
  | elements _ ih | trailing _ ih =>
    obtain ⟨us, hus⟩ := ih (by first | exact hok | exact hleft hok)
    exact ⟨us, .elements hus.derives, hus.ok, hus.renders⟩

/-! ## Documents -/

/-- The strings and the numbers of a document have texts. -/
theorem Derives.hasTexts (h : Derives n cs ts) (hok : ∀ k ∈ ts, k.Ok) : ∀ c ∈ cs, HasTexts c := by
  have hleft : ∀ {ts us : List Token}, (∀ k ∈ ts ++ us, k.Ok) → ∀ k ∈ ts, k.Ok :=
    fun h k hk ↦ h k (List.mem_append.mpr (.inl hk))
  have hright : ∀ {ts us : List Token} {k : Token}, (∀ j ∈ ts ++ k :: us, j.Ok) → ∀ j ∈ us, j.Ok :=
    fun h j hj ↦ h j (List.mem_append.mpr (.inr (List.mem_cons_of_mem _ hj)))
  have hnode : ∀ {d : Data} {cs : List (Rose Data)},
      (d.type = .string ∨ d.type = .number → ∃ s, d.text = some s ∧ 0 ∉ s) →
      (∀ c ∈ cs, HasTexts c) → ∀ c ∈ [Rose.node d cs], HasTexts c := by
    intro d cs hd hcs c hc x hx
    obtain rfl := List.mem_singleton.mp hc
    rcases List.mem_cons.mp hx with rfl | hx
    · exact hd
    · obtain ⟨c, hc, hx⟩ := mem_valuesAll.mp hx
      exact hcs c hc x hx
  have hplain : ∀ {d : Data}, d.type ≠ .string → d.type ≠ .number →
      d.type = .string ∨ d.type = .number → ∃ s, d.text = some s ∧ 0 ∉ s :=
    fun hs hn h ↦ absurd h (not_or.mpr ⟨hs, hn⟩)
  induction h with
  | @scalar k d hk =>
    have hk' := hok k List.mem_cons_self
    refine hnode ?_ fun _ hc ↦ absurd hc List.not_mem_nil
    cases k with
    | string t =>
      cases hk
      exact fun _ ↦ ⟨t, rfl, zero_notMem_text hk'⟩
    | number t =>
      cases hk
      exact fun _ ↦ ⟨t, rfl, Number.zero_notMem hk'⟩
    | true | false | null =>
      cases hk
      exact hplain nofun nofun
    | _ => cases hk
  | object _ ih =>
    exact hnode (hplain nofun nofun) (ih (hleft fun k hk ↦ hok k (List.mem_cons_of_mem _ hk)))
  | array _ ih =>
    exact hnode (hplain nofun nofun) (ih (hleft fun k hk ↦ hok k (List.mem_cons_of_mem _ hk)))
  | @member v ts t _ ih =>
    refine hnode (fun _ ↦ ⟨t, rfl, zero_notMem_text (hok _ List.mem_cons_self)⟩) (ih fun k hk ↦ ?_)
    exact hok k (List.mem_cons_of_mem _ (List.mem_cons_of_mem _ hk))
  | firstMember _ ih | firstElement _ ih | members _ ih | elements _ ih => exact ih hok
  | nextMember _ _ ih ih' | nextElement _ _ ih ih' =>
    exact List.forall_mem_append.mpr ⟨ih (hleft hok), ih' (hright hok)⟩
  | noMembers | noElements => exact fun _ hc ↦ absurd hc List.not_mem_nil
  | trailing _ ih => exact ih (hleft hok)

/-- A document is printed, and what is printed is accepted as a text of it. -/
theorem exists_printed (h : Document t ts) (hok : ∀ k ∈ ts, k.Ok) :
    ∃ w, render true t = .ok w ∧ Accepted t w := by
  obtain ⟨d, cs⟩ := t
  obtain ⟨rfl, hd⟩ := h
  obtain ⟨us, hus⟩ := exists_canonical hd hok
  have hdoc : Document (.node objectData cs) us := ⟨rfl, hus.derives⟩
  have hr : render true (.node objectData cs) = .ok (spelling us) := by
    have hall : renderAll false true [.node objectData cs] = .ok (spelling us) := hus.renders
    rw [renderAll_singleton, render] at hall
    rw [render]
    exact hall
  exact ⟨_, hr, _, [], us, (List.append_nil _).symm, hdoc.spells hus.ok (spaced_spelling us),
    unfinished_nil, hdoc⟩

/-- What is printed for a document is the same for all texts of it, and it is one of them. -/
theorem treeToString_parseDocument (hm : Exactly m H) (A : Allocator Node) (h : Accepted t text) :
    ∃ m' a w, Returns (fun fuel ↦ parseDocument A fuel m text) (.ok, m', some a) ∧
      Returns (fun fuel ↦ treeToString fuel m' a) (.ok, some w) ∧ render true t = .ok w ∧
      Accepted t w := by
  obtain ⟨⟨e, m', root⟩, hret, hacc, -⟩ := exists_parsed hm A text
  obtain ⟨rfl, T, rfl, rfl, hT⟩ := hacc t h
  obtain ⟨l, u, ts, -, hspells, -, hdoc⟩ := h
  obtain ⟨w, hw, haccepted⟩ := exists_printed hdoc hspells.ok
  have htexts : HasTexts T.erase := hdoc.2.hasTexts hspells.ok _ (List.mem_singleton_self _)
  have hprint := treeToString_returns (c := []) hT.toHolds htexts
  rw [labelAt, hw] at hprint
  exact ⟨m', T.addr, w, hret, hprint, hw, haccepted⟩

theorem treeToString_nested : ∃ m' a,
    Returns (fun fuel ↦ parseDocument (.least _) fuel (fun _ ↦ none)
      [123, 34, 97, 34, 58, 91, 49, 44, 93, 125]) (.ok, m', some a) ∧
    Returns (fun fuel ↦ treeToString fuel m' a)
      (.ok, some [123, 34, 97, 34, 58, 91, 49, 93, 125]) := by
  obtain ⟨m', a, w, hparse, hprint, hw, -⟩ :=
    treeToString_parseDocument Exactly.nil (.least _) accepted_nested
  obtain rfl : w = [123, 34, 97, 34, 58, 91, 49, 93, 125] := Except.ok.inj hw.symm
  exact ⟨m', a, hparse, hprint⟩

/-- The tree of a document is printed as a text from which a tree with the same values is built,
beside the one that is there. -/
theorem parseDocument_treeToString {T : Placed Data} (hm : Exactly m (T.cells .none + H))
    (hdoc : Document T.erase ts) (hok : ∀ k ∈ ts, k.Ok) (A : Allocator Node) :
    ∃ w m' T', Returns (fun fuel ↦ treeToString fuel m T.addr) (.ok, some w) ∧
      Returns (fun fuel ↦ parseDocument A fuel m w) (.ok, m', some (addr T')) ∧
      erase T' = T.erase ∧ Exactly m' (cells T' .none + (T.cells .none + H)) := by
  obtain ⟨w, hw, haccepted⟩ := exists_printed hdoc hok
  have htexts : HasTexts T.erase := hdoc.2.hasTexts hok _ (List.mem_singleton_self _)
  have hprint := treeToString_returns (c := []) hm.toHolds htexts
  rw [labelAt, hw] at hprint
  obtain ⟨⟨e, m', root⟩, hret, hacc, -⟩ := exists_parsed hm A w
  obtain ⟨rfl, T', herase, rfl, hT'⟩ := hacc _ haccepted
  exact ⟨w, m', T', hprint, hret, herase, hT'⟩

theorem parseDocument_treeToString_nested : ∃ m w m' a b,
    Returns (fun fuel ↦ treeToString fuel m a) (.ok, some w) ∧
      Returns (fun fuel ↦ parseDocument (.least _) fuel m w) (.ok, m', some b) := by
  obtain ⟨⟨e, m, root⟩, -, hacc, -⟩ := exists_parsed Exactly.nil (.least _)
    [123, 34, 97, 34, 58, 91, 49, 44, 93, 125]
  obtain ⟨-, T, herase, -, hT⟩ := hacc _ accepted_nested
  obtain ⟨l, u, ts, -, hspells, -, hdoc⟩ := accepted_nested
  rw [← herase] at hdoc
  obtain ⟨w, m', T', hprint, hparse, -, -⟩ :=
    parseDocument_treeToString hT hdoc hspells.ok (.least _)
  exact ⟨m, w, m', T.addr, T'.addr, hprint, hparse⟩

end Dlbase.Json
