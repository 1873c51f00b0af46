import Dlbase.Json.Printer

/-!
# What is printed

A tree is printed as its text says, and the memory is only read.
-/

namespace Dlbase.Json

open Cmem Cmem.Rose

variable {σ : Type} {K : Sink σ} {m : Mem} {H : Cells Node} {r a : Nat} {t : Placed Data}
  {v : Nat × Data} {l rs cs : List (Placed Data)} {c : List (Frame (Nat × Data))}
  {f : Frame (Nat × Data)} {out : σ} {w u : List UInt8} {W W' : Written} {n : Node}

/-! ## Runs that write -/

/-- The run `start` writes `W` behind `w`, and goes on with `finish` if nothing is wrong. -/
def Prints (K : Sink σ) (start : Nat → Exec (JsonError × σ))
    (finish : σ → Nat → Exec (JsonError × σ)) (w : List UInt8) : Written → Prop
  | .ok v => ∃ out, K.Shows out (w ++ v) ∧ ∀ x, Returns (finish out) x → Returns start x
  | .error v => ∃ out, K.Shows out (w ++ v) ∧ Returns start (.badTreeStructure, out)

variable {start start' : Nat → Exec (JsonError × σ)}
  {finish finish' : σ → Nat → Exec (JsonError × σ)}

theorem Prints.mono (h : Prints K start finish w W)
    (hstart : ∀ x, Returns start x → Returns start' x) : Prints K start' finish w W := by
  cases W with
  | ok v =>
    obtain ⟨out, hout, hx⟩ := h
    exact ⟨out, hout, fun x hf ↦ hstart x (hx x hf)⟩
  | error v =>
    obtain ⟨out, hout, hx⟩ := h
    exact ⟨out, hout, hstart _ hx⟩

theorem Prints.prepend (h : Prints K start finish (w ++ u) W) :
    Prints K start finish w (W.prepend u) := by
  cases W with
  | ok v =>
    change ∃ out, K.Shows out (w ++ u ++ v) ∧ _ at h
    rwa [List.append_assoc] at h
  | error v =>
    change ∃ out, K.Shows out (w ++ u ++ v) ∧ _ at h
    rwa [List.append_assoc] at h

theorem Prints.append (h : Prints K start finish w W)
    (h' : ∀ out v, W = .ok v → K.Shows out (w ++ v) → Prints K (finish out) finish' (w ++ v) W') :
    Prints K start finish' w (W.append W') := by
  cases W with
  | error v => exact h
  | ok v =>
    obtain ⟨out, hout, hx⟩ := h
    exact ((h' out v rfl hout).mono hx).prepend

/-- Nothing more is written. -/
theorem prints_nil (hout : K.Shows out w) : Prints K (finish out) finish w (.ok []) :=
  ⟨out, (List.append_nil w).symm ▸ hout, fun _ ↦ id⟩

/-! ## The nodes -/

theorem get_place (h : Holds m ((plug c t).cells .none + H)) :
    m.get t.addr = .ok (t.root (holeLinks .none c)) := by
  rw [cells_plug, cells_eq, add_assoc, add_assoc] at h
  exact h.get_eq Holds.mem_cell

/-- The value at this place would be a label if it was a string. -/
def labelAt : List (Frame (Nat × Data)) → Bool
  | [] => true
  | f :: _ => decide (f.val.2.type = .object)

/-- The comma in front of a value. -/
def commaAt (r : Nat) (c : List (Frame (Nat × Data))) (a : Nat) : List UInt8 :=
  if (holeLinks .none c).previous.isSome ∧ a ≠ r then [ch ','] else []

/-- The end of `state2`. -/
abbrev leave (K : Sink σ) (m : Mem) (r a : Nat) (out : σ) (fuel : Nat) : Exec (JsonError × σ) :=
  printLeave m r (printLoop K m r fuel) a out

/-- What is written when a value is closed. -/
def closer (type : ValueType) : List UInt8 :=
  match type with
  | .object => [ch '}']
  | .array => [ch ']']
  | _ => []

/-- A value is closed. -/
theorem prints_close (hget : m.get a = .ok n) (hout : K.Shows out w) :
    Prints K (fun fuel ↦ printLoop K m r fuel .closeValue a out) (leave K m r a) w
      (.ok (closer n.data.type)) := by
  have hchar : ∀ b, ∃ out', K.char out b = .ok out' ∧ K.Shows out' (w ++ [b]) :=
    fun b ↦ K.char_spec b hout
  have hclose : ∃ out', K.Shows out' (w ++ closer n.data.type) ∧ ∀ fuel,
      printLoop K m r (fuel + 1) .closeValue a out = leave K m r a out' fuel := by
    simp only [printLoop, printClose, hget, Exec.ok_bind]
    cases n.data.type
    case object =>
      obtain ⟨out', hc, hs⟩ := hchar (ch '}')
      exact ⟨out', hs, fun fuel ↦ by rw [hc, Exec.ok_bind]⟩
    case array =>
      obtain ⟨out', hc, hs⟩ := hchar (ch ']')
      exact ⟨out', hs, fun fuel ↦ by rw [hc, Exec.ok_bind]⟩
    all_goals exact ⟨out, (List.append_nil w).symm ▸ hout, fun fuel ↦ rfl⟩
  obtain ⟨out', hs, heq⟩ := hclose
  exact ⟨out', hs, fun x hx ↦ hx.succ heq⟩

/-! ## Children -/

/-- Opening the value at the place writes its text. -/
def PrintsAt (K : Sink σ) (m : Mem) (H : Cells Node) (r : Nat) (t : Placed Data) : Prop :=
  ∀ c out w, Holds m ((plug c t).cells .none + H) → r ∈ t.addr :: c.map Frame.addr →
    HasTexts t.erase → K.Shows out w →
    Prints K (fun fuel ↦ printLoop K m r fuel .openValue t.addr out) (leave K m r t.addr) w
      ((render (labelAt c) t.erase).prepend (commaAt r c t.addr))

/-- A child has been printed: the next one is opened, or the parent is closed. -/
theorem leave_child (h : Holds m ((plug (f :: c) t).cells .none + H))
    (hr : r ∈ (f :: c).map Frame.addr) (out : σ) (fuel : Nat) :
    leave K m r t.addr out fuel =
      printOn (printLoop K m r fuel) (headAddr none f.right) f.addr out := by
  unfold leave printLeave
  rw [get_place h, Exec.ok_bind]
  have hne := addr_ne_of_frame hr h
  simp only [root, holeLinks, if_neg hne]

theorem erase_mem_texts {s : Rose Data} {ss : List (Rose Data)} {d : Data}
    (h : HasTexts (.node d ss)) (hs : s ∈ ss) : HasTexts s := fun x hx ↦
  h x (List.mem_cons_of_mem _ (values_subset_valuesAll hs hx))

/-- The children are printed one after the other. -/
theorem prints_children (hcs : ∀ t ∈ rs, PrintsAt K m H r t)
    (h : Holds m ((plug c (.node v (l ++ rs))).cells .none + H))
    (hr : r ∈ v.1 :: c.map Frame.addr) (htexts : ∀ t ∈ rs, HasTexts t.erase)
    (hout : K.Shows out w) :
    Prints K (fun fuel ↦ printOn (printLoop K m r fuel) (headAddr none rs) v.1 out)
      (fun out fuel ↦ printLoop K m r fuel .closeValue v.1 out) w
      (renderAll (decide (v.2.type = .object)) l.isEmpty (rs.map erase)) := by
  induction rs generalizing l out w with
  | nil => exact prints_nil hout
  | cons t rs ih =>
    have hplace : Holds m ((plug (⟨v, l, rs⟩ :: c) t).cells .none + H) := h
    have hne := addr_ne_of_frame (c := ⟨v, l, rs⟩ :: c) hr hplace
    have hcomma : commaAt r (⟨v, l, rs⟩ :: c) t.addr = if l.isEmpty then [] else [ch ','] := by
      unfold commaAt
      rcases List.eq_nil_or_concat' l with rfl | ⟨ks, k, rfl⟩
      · rfl
      · rw [holeLinks, lastAddr_append_singleton, if_pos ⟨rfl, hne⟩]
        rw [if_neg]
        simp
    have hfirst := hcs t List.mem_cons_self (⟨v, l, rs⟩ :: c) out w hplace
      (List.mem_cons_of_mem _ hr) (htexts t List.mem_cons_self) hout
    rw [hcomma] at hfirst
    refine hfirst.append fun out' w' _ hout' ↦ ?_
    have hnext := ih (l := l ++ [t]) (fun u hu ↦ hcs u (List.mem_cons_of_mem _ hu))
      (by rwa [List.append_assoc, List.singleton_append])
      (fun u hu ↦ htexts u (List.mem_cons_of_mem _ hu)) hout'
    have hempty : (l ++ [t]).isEmpty = false := by simp
    rw [hempty] at hnext
    refine hnext.mono fun x hx ↦ ?_
    obtain ⟨N, hN⟩ := hx
    exact ⟨N, fun fuel hf ↦ (leave_child hplace hr out' fuel).trans (hN fuel hf)⟩

/-! ## Values -/

/-- A value with children that are neither a label's nor a scalar's: its first character, the
children and the last one. -/
theorem prints_parent {u : List UInt8} (hcs : ∀ t ∈ cs, PrintsAt K m H r t)
    (h : Holds m ((plug c (.node v cs)).cells .none + H)) (hr : r ∈ v.1 :: c.map Frame.addr)
    (htexts : ∀ t ∈ cs, HasTexts t.erase) (hout : K.Shows out (w ++ u))
    (hstart : ∀ x,
      Returns (fun fuel ↦ printOn (printLoop K m r fuel) (headAddr none cs) v.1 out) x →
      Returns start x) :
    Prints K start (leave K m r v.1) w
      (((renderAll (decide (v.2.type = .object)) true (cs.map erase)).prepend u).append
        (.ok (closer v.2.type))) := by
  have hget := get_place h
  have hchildren := prints_children (l := []) hcs h hr htexts hout
  refine ((hchildren.mono hstart).prepend).append fun out' w' _ hout' ↦ ?_
  exact prints_close hget hout'

/-- A value without children that are printed. -/
theorem prints_scalar (hget : m.get a = .ok n) (hout : K.Shows out (w ++ u))
    (hc : closer n.data.type = [])
    (hstart : ∀ x, Returns (fun fuel ↦ printLoop K m r fuel .closeValue a out) x →
      Returns start x) :
    Prints K start (leave K m r a) w (.ok u) := by
  have hclose := prints_close (K := K) (r := r) hget hout
  rw [hc] at hclose
  have hp := (hclose.mono hstart).prepend
  rwa [Written.prepend, List.append_nil] at hp

theorem isLabel_place (h : Holds m ((plug c t).cells .none + H)) :
    isLabel m (t.root (holeLinks .none c)) = .ok (labelAt c) := by
  cases c with
  | nil => rfl
  | cons f c =>
    have hget := get_place (c := c) (t := f.fill t) h
    rw [isLabel]
    simp only [root, holeLinks]
    rw [show m.get f.addr = _ from hget]
    rfl

/-- The characters of a string and its quotation marks are written. -/
theorem exists_quoted {d : Data} {t : List UInt8} (ht : d.text = some t) (hout : K.Shows out w) :
    ∃ out', (K.char out (ch '"') >>= fun out ↦ K.string out t >>= fun out ↦ K.char out (ch '"')) =
      .ok out' ∧ K.Shows out' (w ++ quoted d) := by
  obtain ⟨out₁, h₁, hs₁⟩ := K.char_spec (ch '"') hout
  obtain ⟨out₂, h₂, hs₂⟩ := K.string_spec t hs₁
  obtain ⟨out₃, h₃, hs₃⟩ := K.char_spec (ch '"') hs₂
  refine ⟨out₃, by rw [h₁, Exec.ok_bind, h₂, Exec.ok_bind, h₃], ?_⟩
  rw [List.append_assoc, List.append_assoc] at hs₃
  rwa [quoted, ht]

/-- A string is printed. -/
theorem prints_string (hcs : ∀ t ∈ cs, PrintsAt K m H r t)
    (h : Holds m ((plug c (.node v cs)).cells .none + H)) (hr : r ∈ v.1 :: c.map Frame.addr)
    (htexts : ∀ t ∈ cs, HasTexts t.erase) (hv : v.2.type = .string)
    (hout : K.Shows out (w ++ quoted v.2)) :
    Prints K (fun fuel ↦ printLabel K m (printLoop K m r fuel) v.1
      (root (.node v cs) (holeLinks .none c)) out) (leave K m r v.1) w
      (if labelAt c then
        if cs.isEmpty then .error (quoted v.2)
        else (renderAll false true (cs.map erase)).prepend (quoted v.2 ++ [ch ':'])
      else (renderAll false true (cs.map erase)).prepend (quoted v.2)) := by
  have hparent : ∀ {u : List UInt8} {out' : σ} {start : Nat → Exec (JsonError × σ)},
      K.Shows out' (w ++ u) →
      (∀ x, Returns (fun fuel ↦ printOn (printLoop K m r fuel) (headAddr none cs) v.1 out') x →
        Returns start x) →
      Prints K start (leave K m r v.1) w ((renderAll false true (cs.map erase)).prepend u) := by
    intro u out' start hout' hstart
    have hp := prints_parent hcs h hr htexts hout' hstart
    have hnone : closer .string = [] := rfl
    rw [hv, hnone, Written.append_nil] at hp
    exact hp
  cases hl : labelAt c with
  | false =>
    refine hparent hout fun x hx ↦ ?_
    simp only [printLabel, isLabel_place h, hl]
    exact hx
  | true =>
    cases cs with
    | nil =>
      refine ⟨out, hout, ⟨0, fun fuel _ ↦ ?_⟩⟩
      simp only [printLabel, isLabel_place h, hl]
      rfl
    | cons t cs =>
      obtain ⟨out', hc, hs⟩ := K.char_spec (ch ':') hout
      rw [List.append_assoc] at hs
      refine hparent hs fun x hx ↦ ?_
      simp only [printLabel, isLabel_place h, hl]
      simp only [root, children_node, headAddr_cons, Exec.ok_bind, if_true, Option.isSome_some, hc]
      exact hx

/-- The switch of `state1` writes the text of the value. -/
theorem prints_value (hcs : ∀ t ∈ cs, PrintsAt K m H r t)
    (h : Holds m ((plug c (.node v cs)).cells .none + H)) (hr : r ∈ v.1 :: c.map Frame.addr)
    (htexts : HasTexts (.node v.2 (cs.map erase))) (hout : K.Shows out w) :
    Prints K (fun fuel ↦ printValue K m (printLoop K m r fuel) v.1
      (root (.node v cs) (holeLinks .none c)) out) (leave K m r v.1) w
      (render (labelAt c) (.node v.2 (cs.map erase))) := by
  have hget := get_place h
  have htexts' : ∀ t ∈ cs, HasTexts t.erase := fun t ht ↦
    erase_mem_texts htexts (List.mem_map_of_mem ht)
  have htext : v.2.type = .string ∨ v.2.type = .number → ∃ t, v.2.text = some t ∧ 0 ∉ t :=
    htexts v.2 List.mem_cons_self
  have hisEmpty : (cs.map erase).isEmpty = cs.isEmpty := List.isEmpty_map
  have hscalar : ∀ u, closer v.2.type = [] → Prints K (fun fuel ↦ K.string out u >>= fun out ↦
      printLoop K m r fuel .closeValue v.1 out) (leave K m r v.1) w (.ok u) := by
    intro u hv
    obtain ⟨out', hc, hs⟩ := K.string_spec u hout
    simp only [hc, Exec.ok_bind]
    exact prints_scalar hget hs hv fun x ↦ id
  rw [render]
  cases hv : v.2.type
  case string =>
    obtain ⟨t, ht, -⟩ := htext (.inl hv)
    obtain ⟨out', hq, hs⟩ := exists_quoted ht hout
    rw [hisEmpty]
    refine (prints_string hcs h hr htexts' hv hs).mono fun x hx ↦ ?_
    have hrun : ∀ fuel, printValue K m (printLoop K m r fuel) v.1
        (root (.node v cs) (holeLinks .none c)) out = printLabel K m (printLoop K m r fuel) v.1
        (root (.node v cs) (holeLinks .none c)) out' := by
      intro fuel
      obtain ⟨out₁, h₁, hq⟩ := Exec.bind_eq_ok.mp hq
      obtain ⟨out₂, h₂, h₃⟩ := Exec.bind_eq_ok.mp hq
      simp only [printValue, root, val_node, hv, ht, h₁, h₂, h₃, Exec.ok_bind]
    simp only [hrun]
    exact hx
  case number =>
    obtain ⟨t, ht, -⟩ := htext (.inr hv)
    simp only [printValue, root, val_node, hv, ht, Option.getD_some]
    exact hscalar t (by rw [hv]; rfl)
  case object =>
    obtain ⟨out', hc, hs⟩ := K.char_spec (ch '{') hout
    simp only [printValue, root, val_node, hv, hc, Exec.ok_bind]
    have hp := prints_parent hcs h hr htexts' hs fun x ↦ id
    rw [hv] at hp
    exact hp
  case array =>
    obtain ⟨out', hc, hs⟩ := K.char_spec (ch '[') hout
    simp only [printValue, root, val_node, hv, hc, Exec.ok_bind]
    have hp := prints_parent hcs h hr htexts' hs fun x ↦ id
    rw [hv] at hp
    exact hp
  all_goals
    simp only [printValue, root, val_node, hv]
    exact hscalar _ (by rw [hv]; rfl)

/-- Every tree is printed as its text says. -/
theorem printsAt (K : Sink σ) (m : Mem) (H : Cells Node) (r : Nat) (t : Placed Data) :
    PrintsAt K m H r t := by
  induction t using Rose.ind with
  | step v cs ih =>
    intro c out w h hr htexts hout
    have hget := get_place h
    have herase : erase (.node v cs) = .node v.2 (cs.map erase) := map_node _ _ _
    rw [herase] at htexts ⊢
    have hcomma : ∃ out', (if (root (.node v cs) (holeLinks .none c)).previous.isSome ∧
        addr (.node v cs) ≠ r then K.char out (ch ',') else pure out) = .ok out' ∧
        K.Shows out' (w ++ commaAt r c (addr (.node v cs))) := by
      unfold commaAt
      split_ifs with hc hc' hc'
      · exact K.char_spec (ch ',') hout
      · exact absurd hc hc'
      · exact absurd hc' hc
      · exact ⟨out, rfl, (List.append_nil w).symm ▸ hout⟩
    obtain ⟨out', hc, hs⟩ := hcomma
    refine ((prints_value ih h hr htexts hs).mono fun x hx ↦ hx.succ fun fuel ↦ ?_).prepend
    rw [printLoop, printOpen, hget, Exec.ok_bind, hc, Exec.ok_bind]
    rfl

/-! ## Null characters -/

/-- There is no null character in what has been written. -/
def Written.Free (W : Written) : Prop := ∀ w, W = .ok w → 0 ∉ w

theorem free_ok (h : 0 ∉ w) : Written.Free (.ok w) := by
  rintro _ ⟨⟩
  exact h

theorem free_error (w : List UInt8) : Written.Free (.error w) := nofun

theorem Written.Free.prepend (h : W.Free) (hu : 0 ∉ u) : (W.prepend u).Free := by
  cases W with
  | ok w => exact free_ok fun h0 ↦ (List.mem_append.mp h0).elim hu (h w rfl)
  | error w => exact free_error _

theorem Written.Free.append (h : W.Free) (h' : W'.Free) : (W.append W').Free := by
  cases W with
  | ok w => exact h'.prepend (h w rfl)
  | error w => exact free_error _

theorem free_renderAll {label first : Bool} {ts : List (Rose Data)}
    (h : ∀ t ∈ ts, ∀ label, (render label t).Free) : (renderAll label first ts).Free := by
  induction ts generalizing first with
  | nil =>
    rw [renderAll]
    exact free_ok List.not_mem_nil
  | cons t ts ih =>
    rw [renderAll]
    refine ((h t List.mem_cons_self label).prepend ?_).append
      (ih fun u hu ↦ h u (List.mem_cons_of_mem _ hu))
    cases first <;> decide

theorem zero_notMem_quoted {d : Data} {s : List UInt8} (ht : d.text = some s) (h : 0 ∉ s) :
    0 ∉ quoted d := by
  rw [quoted, ht, Option.getD_some, List.mem_cons, List.mem_append, not_or, not_or]
  exact ⟨by decide, h, by decide⟩

/-- There is no null character in the text of a tree. -/
theorem free_render (t : Rose Data) : HasTexts t → ∀ label, (render label t).Free := by
  induction t using Rose.ind with
  | step d cs ih =>
    intro htexts label
    have hcs : ∀ l f, (renderAll l f cs).Free := fun l f ↦
      free_renderAll fun t ht ↦ ih t ht (erase_mem_texts htexts ht)
    have htext := htexts d List.mem_cons_self
    rw [render]
    cases hd : d.type
    case string =>
      obtain ⟨s, hs, h0⟩ := htext (.inl hd)
      have hq := zero_notMem_quoted hs h0
      dsimp only
      split_ifs
      · exact free_error _
      · refine (hcs _ _).prepend fun h ↦ (List.mem_append.mp h).elim hq (by decide)
      · exact (hcs _ _).prepend hq
    case number =>
      obtain ⟨s, hs, h0⟩ := htext (.inr hd)
      rw [hs]
      exact free_ok h0
    case object | array =>
      exact ((hcs _ _).prepend (by decide)).append (free_ok (by decide))
    all_goals exact free_ok (by decide)

/-! ## The two functions -/

theorem print_root (K : Sink σ) (h : Holds m ((plug c t).cells .none + H))
    (ht : HasTexts t.erase) (hout : K.Shows out w) :
    Prints K (fun fuel ↦ printLoop K m t.addr fuel .openValue t.addr out)
      (fun out _ ↦ .ok (.ok, out)) w (render (labelAt c) t.erase) := by
  have hp := printsAt K m H t.addr t c out w h List.mem_cons_self ht hout
  have hcomma : commaAt t.addr c t.addr = [] := if_neg fun h ↦ h.2 rfl
  have hprepend : ∀ W : Written, W.prepend [] = W := by
    rintro (W | W) <;> rfl
  have hleave : ∀ out fuel, leave K m t.addr t.addr out fuel = .ok (.ok, out) := by
    intro out fuel
    unfold leave printLeave
    rw [get_place h, Exec.ok_bind]
    cases c with
    | nil => rfl
    | cons f c => exact if_pos rfl
  rw [hcomma, hprepend] at hp
  have heq : leave K m t.addr t.addr = fun out _ ↦ .ok (.ok, out) := by
    funext out fuel
    exact hleave out fuel
  rwa [heq] at hp

/-- `json_tree_to_string` returns the text of the tree. -/
theorem treeToString_returns (h : Holds m ((plug c t).cells .none + H)) (ht : HasTexts t.erase) :
    Returns (fun fuel ↦ treeToString fuel m t.addr)
      (match render (labelAt c) t.erase with
        | .ok w => (.ok, some w)
        | .error _ => (.badTreeStructure, none)) := by
  have hp := print_root buffer h ht (Rcstring.holds_create rstringDefault)
  have hfree := free_render _ ht (labelAt c)
  cases hr : render (labelAt c) t.erase with
  | ok w =>
    rw [hr] at hp
    obtain ⟨out, hout, hx⟩ := hp
    obtain ⟨N, hN⟩ := hx (.ok, out) ⟨0, fun _ _ ↦ rfl⟩
    refine ⟨N, fun fuel hf ↦ ?_⟩
    have hloop : printLoop buffer m t.addr fuel .openValue t.addr
        (Rcstring.create rstringDefault) = .ok (.ok, out) := hN fuel hf
    have hunwrap : out.unwrap = .ok w := Rcstring.Holds.unwrap hout (hfree w hr)
    change treeToString fuel m t.addr = _
    rw [treeToString, hloop, Exec.ok_bind]
    simp only [if_true, hunwrap, Exec.ok_bind]
    rfl
  | error w =>
    rw [hr] at hp
    obtain ⟨out, -, N, hN⟩ := hp
    refine ⟨N, fun fuel hf ↦ ?_⟩
    have hloop : printLoop buffer m t.addr fuel .openValue t.addr
        (Rcstring.create rstringDefault) = .ok (.badTreeStructure, out) := hN fuel hf
    change treeToString fuel m t.addr = _
    rw [treeToString, hloop]
    rfl

/-- `json_stream_output` writes the text of the tree and the end of a line, or what there is of the
text in front of a label without a value. -/
theorem streamOutput_returns (h : Holds m ((plug c t).cells .none + H)) (ht : HasTexts t.erase)
    (file : List UInt8) :
    Returns (fun fuel ↦ streamOutput fuel m t.addr file)
      (match render (labelAt c) t.erase with
        | .ok w => (.ok, file ++ w ++ [0x0a])
        | .error w => (.badTreeStructure, file ++ w)) := by
  have hp := print_root stream h ht (show stream.Shows file file from rfl)
  cases hr : render (labelAt c) t.erase with
  | ok w =>
    rw [hr] at hp
    obtain ⟨out, rfl, hx⟩ := hp
    obtain ⟨N, hN⟩ := hx (.ok, file ++ w) ⟨0, fun _ _ ↦ rfl⟩
    refine ⟨N, fun fuel hf ↦ ?_⟩
    have hloop : printLoop stream m t.addr fuel .openValue t.addr file = .ok (.ok, file ++ w) :=
      hN fuel hf
    change streamOutput fuel m t.addr file = _
    rw [streamOutput, hloop]
    rfl
  | error w =>
    rw [hr] at hp
    obtain ⟨out, rfl, N, hN⟩ := hp
    refine ⟨N, fun fuel hf ↦ ?_⟩
    have hloop : printLoop stream m t.addr fuel .openValue t.addr file =
        .ok (.badTreeStructure, file ++ w) := hN fuel hf
    change streamOutput fuel m t.addr file = _
    rw [streamOutput, hloop]
    rfl

/-- Both functions go without recursion through the tree below any value of a larger tree; they
produce the same text, or come to the same error at the same place. -/
theorem treeToString_streamOutput (h : Holds m ((plug c t).cells .none + H))
    (ht : HasTexts t.erase) (file : List UInt8) :
    (∃ w, render (labelAt c) t.erase = .ok w ∧
      Returns (fun fuel ↦ treeToString fuel m t.addr) (.ok, some w) ∧
      Returns (fun fuel ↦ streamOutput fuel m t.addr file) (.ok, file ++ w ++ [0x0a])) ∨
    ∃ w, render (labelAt c) t.erase = .error w ∧
      Returns (fun fuel ↦ treeToString fuel m t.addr) (.badTreeStructure, none) ∧
      Returns (fun fuel ↦ streamOutput fuel m t.addr file) (.badTreeStructure, file ++ w) := by
  have hstring := treeToString_returns h ht
  have hstream := streamOutput_returns h ht file
  cases hr : render (labelAt c) t.erase with
  | ok w =>
    rw [hr] at hstring hstream
    exact .inl ⟨w, rfl, hstring, hstream⟩
  | error w =>
    rw [hr] at hstring hstream
    exact .inr ⟨w, rfl, hstring, hstream⟩

/-- An array has no text, and neither has `null`. -/
theorem hasTexts_array : HasTexts (.node ⟨.array, none⟩ [.node ⟨.null, none⟩ []]) := by
  have htypes : ∀ d ∈ [(⟨.array, none⟩ : Data), ⟨.null, none⟩],
      ¬ (d.type = .string ∨ d.type = .number) := by decide
  exact fun d hd h ↦ absurd h (htypes d hd)

theorem treeToString_streamOutput_array : ∃ m a,
    Returns (fun fuel ↦ treeToString fuel m a) (.ok, some [91, 110, 117, 108, 108, 93]) ∧
    Returns (fun fuel ↦ streamOutput fuel m a [32])
      (.ok, [32, 91, 110, 117, 108, 108, 93, 10]) := by
  obtain ⟨m, a, b, hm⟩ := exists_exactly (⟨.array, none⟩ : Data) ⟨.null, none⟩
  rcases treeToString_streamOutput (c := []) hm.toHolds hasTexts_array [32] with
    ⟨w, hw, hstring, hstream⟩ | ⟨w, hw, -⟩
  · obtain rfl : w = [91, 110, 117, 108, 108, 93] := Except.ok.inj hw.symm
    exact ⟨m, a, hstring, hstream⟩
  · cases hw

end Dlbase.Json
