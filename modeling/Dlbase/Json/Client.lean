import Dlbase.Json.Free
import Dlbase.Json.Grammar
import Dlbase.Json.Insert
import Dlbase.Json.Printing

/-!
# The calls of a client

A client has some trees in memory.  It makes nodes, inserts a tree below a node of another one and
frees nodes, with all that is below them.  Whatever it does, the memory holds its trees and the
labels of the pairs that have been refused, to which nothing leads any more; so nothing is left if
all trees have been freed and no pair has been refused.  Each object whose labels have texts can be
searched, and each node can be printed if the strings and numbers below it have texts.
-/

namespace Dlbase.Json

open Cmem Cmem.Rose

/-- A call of a function of the library. -/
inductive Call where
  /-- `json_new_value`. -/
  | newValue (type : ValueType)
  /-- `json_new_string`. -/
  | newString (text : List UInt8)
  /-- `json_new_number`. -/
  | newNumber (text : List UInt8)
  /-- `json_insert_child`. -/
  | insertChild (parent child : Nat)
  /-- `json_insert_pair_into_object`. -/
  | insertPair (parent : Nat) (textLabel : List UInt8) (value : Nat)
  /-- `json_free_value`. -/
  | freeValue (value : Nat)
deriving DecidableEq, Repr

/-- What a call returns. -/
inductive Answer where
  /-- A new node. -/
  | node (a : Nat)
  /-- An error, or none. -/
  | error (e : JsonError)
  /-- Nothing. -/
  | nothing
deriving DecidableEq, Repr

/-- Making a call. -/
def Call.exec (A : Allocator Node) (fuel : Nat) (m : Mem) : Call → Exec (Mem × Answer)
  | newValue type => .ok ((Json.newValue A m type).1, .node (Json.newValue A m type).2)
  | newString text => .ok ((Json.newString A m text).1, .node (Json.newString A m text).2)
  | newNumber text => .ok ((Json.newNumber A m text).1, .node (Json.newNumber A m text).2)
  | insertChild parent child => do
    let (m, e) ← Json.insertChild m parent child
    pure (m, .error e)
  | insertPair parent textLabel value => do
    let (m, e) ← insertPairIntoObject A m parent textLabel value
    pure (m, .error e)
  | freeValue value => do
    let m ← Json.freeValue fuel m (some value)
    pure (m, .nothing)

/-! ## The trees of a client -/

/-- The trees of a client. -/
abbrev Forest := List (Placed Data)

/-- Their nodes. -/
def forest (F : Forest) : Cells Node := (F.map (cells · .none)).sum

/-- The tree may become a child of a node with these data. -/
def fits (d : Data) (t : Placed Data) : Bool :=
  accepts (root (.node (0, d) []) .none) (t.root .none)

/-- What is left of a tree without the part at a place. -/
def remaining : List (Frame (Nat × Data)) → Forest
  | [] => []
  | f :: c => [plug c (.node f.val (f.left ++ f.right))]

/-- What a call does to the trees of a client that may make it, and the nodes that it leaves behind:
a child is a tree of the client, and its parent is a node of another one. -/
inductive Effect (A : Allocator Node) (m : Mem) :
    Forest → Call → Answer → Forest → Forest → Prop where
  /-- A node without a text. -/
  | newValue {F : Forest} {type : ValueType} :
      Effect A m F (.newValue type) (.node (A.run m)) (.node (A.run m, ⟨type, none⟩) [] :: F) []
  /-- A string. -/
  | newString {F : Forest} {text : List UInt8} : 0 ∉ text →
      Effect A m F (.newString text) (.node (A.run m))
        (.node (A.run m, ⟨.string, some text⟩) [] :: F) []
  /-- A number. -/
  | newNumber {F : Forest} {text : List UInt8} : 0 ∉ text →
      Effect A m F (.newNumber text) (.node (A.run m))
        (.node (A.run m, ⟨.number, some text⟩) [] :: F) []
  /-- A child becomes the last one. -/
  | insertChild {F G : Forest} {c : List (Frame (Nat × Data))} {v : Nat × Data} {cs : Forest}
      {t : Placed Data} : F.Perm (plug c (.node v cs) :: t :: G) → fits v.2 t →
      Effect A m F (.insertChild v.1 t.addr) (.error .ok) (plug c (.node v (cs ++ [t])) :: G) []
  /-- A child that is not accepted. -/
  | refuseChild {F G : Forest} {c : List (Frame (Nat × Data))} {v : Nat × Data} {cs : Forest}
      {t : Placed Data} : F.Perm (plug c (.node v cs) :: t :: G) → ¬ fits v.2 t →
      Effect A m F (.insertChild v.1 t.addr) (.error .badTreeStructure) F []
  /-- A label and its value become the last member. -/
  | insertPair {F G : Forest} {c : List (Frame (Nat × Data))} {v : Nat × Data} {cs : Forest}
      {t : Placed Data} {text : List UInt8} : F.Perm (plug c (.node v cs) :: t :: G) →
      v.2.type = .object → 0 ∉ text → fits (labelData text) t →
      Effect A m F (.insertPair v.1 text t.addr) (.error .ok)
        (plug c (.node v (cs ++ [.node (A.run m, labelData text) [t]])) :: G) []
  /-- If the value is not accepted, the label is left behind: the client gets no pointer to it. -/
  | refusePair {F G : Forest} {c : List (Frame (Nat × Data))} {v : Nat × Data} {cs : Forest}
      {t : Placed Data} {text : List UInt8} : F.Perm (plug c (.node v cs) :: t :: G) →
      v.2.type = .object → 0 ∉ text → ¬ fits (labelData text) t →
      Effect A m F (.insertPair v.1 text t.addr) (.error .badTreeStructure) F
        [.node (A.run m, labelData text) []]
  /-- A node is freed, with all that is below it. -/
  | freeValue {F G : Forest} {c : List (Frame (Nat × Data))} {t : Placed Data} :
      F.Perm (plug c t :: G) → Effect A m F (.freeValue t.addr) .nothing (remaining c ++ G) []

/-- Whether a call is one of `json_insert_pair_into_object` that does not accept the value. -/
def refused : Call × Answer → Bool
  | (.insertPair _ _ _, .error .badTreeStructure) => true
  | _ => false

/-- The calls that a client makes one after the other, with what they return; the last argument are
the nodes that have been left behind. -/
inductive Run (A : Allocator Node) :
    Mem → Forest → List (Call × Answer) → Mem → Forest → Forest → Prop where
  /-- No call is made. -/
  | nil {m : Mem} {F : Forest} : Run A m F [] m F []
  /-- A call is made that the client may make. -/
  | cons {m m' m'' : Mem} {F F' F'' L L' : Forest} {k : Call} {a : Answer}
      {ks : List (Call × Answer)} : Effect A m F k a F' L →
      Returns (fun fuel ↦ k.exec A fuel m) (m', a) → Run A m' F' ks m'' F'' L' →
      Run A m F ((k, a) :: ks) m'' F'' (L ++ L')

variable {A : Allocator Node} {m m' : Mem} {H : Cells Node} {F F' G L L' : Forest} {k : Call}
  {a : Answer} {c : List (Frame (Nat × Data))} {t t' : Placed Data} {v : Nat × Data} {cs : Forest}
  {d : Data} {x : Links} {text : List UInt8}

/-! ## Single calls -/

theorem forest_cons (t : Placed Data) (F : Forest) : forest (t :: F) = t.cells .none + forest F :=
  List.sum_cons

theorem forest_append (F G : Forest) : forest (F ++ G) = forest F + forest G := by
  rw [forest, List.map_append, List.sum_append]
  rfl

theorem forest_perm (h : F.Perm G) : forest F = forest G := (h.map _).sum_eq

theorem forest_remaining (c : List (Frame (Nat × Data))) (G : Forest) :
    forest (remaining c ++ G) = cut c + forest G := by
  cases c with
  | nil => exact (zero_add _).symm
  | cons f c => exact forest_cons _ G

/-- A new node is a tree of its own. -/
theorem exactly_new (h : Exactly m (forest F + H)) (A : Allocator Node) (type : ValueType)
    (text : Option (List UInt8)) : Exactly (m.set (A.run m) (newNode type text))
      (forest (.node (A.run m, ⟨type, text⟩) [] :: F) + H) := by
  refine (h.alloc A _).of_eq ?_
  rw [forest_cons, cells, cellsAll, add_zero, add_assoc]
  rfl

/-- A tree that fits becomes the last child of a node of another one. -/
theorem insertChild_plug (h : Exactly m ((plug c (.node v cs)).cells .none + (t.cells .none + H)))
    (hfits : fits v.2 t) : ∃ m', insertChild m v.1 t.addr = .ok (m', .ok) ∧
      Exactly m' ((plug c (.node v (cs ++ [t]))).cells .none + H) := by
  rw [cells_plug] at h
  have hwhere : Exactly m ((Rose.node v cs).cells (holeLinks .none c) +
      (t.cells .none + (around .none c v.1 + H))) := h.of_eq (by rw [addr_node]; abel)
  obtain ⟨m', hm', hx⟩ := insertChild_spec hwhere hfits
  refine ⟨m', hm', hx.of_eq ?_⟩
  rw [cells_plug, addr_node, add_assoc]

/-- The nodes that a call is about. -/
theorem get_nodes (h : Exactly m ((plug c (.node v cs)).cells .none + (t.cells .none + H))) :
    m.get v.1 = .ok (root (.node v cs) (holeLinks .none c)) ∧
      m.get t.addr = .ok (t.root .none) ∧ v.1 ≠ t.addr := by
  rw [cells_plug, cells_eq] at h
  have hparent : Exactly m (cell v.1 (root (.node v cs) (holeLinks .none c)) +
      (t.cells .none + (under (.node v cs) + around .none c v.1 + H))) :=
    h.of_eq (by rw [addr_node]; abel)
  have hchild : Exactly m (cell t.addr (t.root .none) + (t.under +
      (cell v.1 (root (.node v cs) (holeLinks .none c)) +
        (under (.node v cs) + around .none c v.1 + H)))) :=
    hparent.of_eq (by rw [cells_eq t]; abel)
  refine ⟨hparent.get_eq, hchild.get_eq, fun he ↦ ?_⟩
  refine hparent.toHolds.ne (e := (t.addr, t.root .none)) (Multiset.mem_add.mpr (.inl ?_)) he.symm
  rw [cells_eq]
  exact Holds.mem_cell

/-- A tree that does not fit changes nothing. -/
theorem insertChild_refused
    (h : Exactly m ((plug c (.node v cs)).cells .none + (t.cells .none + H)))
    (hfits : ¬ fits v.2 t) : insertChild m v.1 t.addr = .ok (m, .badTreeStructure) := by
  obtain ⟨hparent, hchild, hne⟩ := get_nodes h
  have hacc : ¬ accepts (root (.node v cs) (holeLinks .none c)) (t.root .none) := hfits
  rw [insertChild, if_neg hne, hparent, Exec.ok_bind, hchild, Exec.ok_bind, if_pos hacc]
  rfl

/-- The first part of `json_insert_pair_into_object` makes the label. -/
theorem insertPairIntoObject_eq
    (h : Exactly m ((plug c (.node v cs)).cells .none + (t.cells .none + H)))
    (hobject : v.2.type = .object) (A : Allocator Node) (text : List UInt8) :
    insertPairIntoObject A m v.1 text t.addr =
      (insertChild (newString A m text).1 (A.run m) t.addr >>= fun x ↦
        if x.2 ≠ .ok then pure (x.1, x.2) else insertChild x.1 v.1 (A.run m)) := by
  obtain ⟨hparent, -, hne⟩ := get_nodes h
  rw [insertPairIntoObject, if_neg hne, hparent, Exec.ok_bind,
    if_neg (c := (root (.node v cs) (holeLinks .none c)).data.type ≠ .object) (not_not.mpr hobject)]
  rfl

/-- The members of an object are labels. -/
theorem fits_object (hd : d.type = .object) : fits d t ↔ t.val.2.type = .string := by
  unfold fits accepts
  simp only [root, val_node, hd]
  exact decide_eq_true_iff

/-- The label is a tree of the client until it is inserted. -/
theorem exactly_label (h : Exactly m (forest F + H)) (hF : F.Perm (plug c (.node v cs) :: t :: G))
    (A : Allocator Node) (text : List UInt8) : Exactly (newString A m text).1
      ((Rose.node (A.run m, labelData text) []).cells .none +
        (t.cells .none + ((plug c (.node v cs)).cells .none + (forest G + H)))) := by
  refine (exactly_new h A .string (some text)).of_eq ?_
  rw [forest_cons, forest_perm hF, forest_cons, forest_cons, labelData]
  abel

/-- A call that the client may make returns what it should, and the memory is that of the trees that
the client has then and of what has been left behind. -/
theorem Effect.returns (h : Exactly m (forest F + H)) (he : Effect A m F k a F' L) :
    ∃ m', Returns (fun fuel ↦ k.exec A fuel m) (m', a) ∧
      Exactly m' (forest F' + (forest L + H)) := by
  have hnone : forest [] + H = H := zero_add H
  cases he with
  | newValue | newString | newNumber =>
    rw [hnone]
    exact ⟨_, returns_of_succ fun _ ↦ rfl, exactly_new h A _ _⟩
  | @insertChild G c v cs t hF hfits =>
    rw [forest_perm hF, forest_cons, forest_cons, add_assoc, add_assoc] at h
    obtain ⟨m', hm', hx⟩ := insertChild_plug h hfits
    refine ⟨m', returns_of_succ fun _ ↦ ?_, hx.of_eq (by rw [forest_cons, add_assoc, hnone])⟩
    rw [Call.exec, hm']
    rfl
  | @refuseChild G c v cs t hF hfits =>
    have hm := h
    rw [forest_perm hF, forest_cons, forest_cons, add_assoc, add_assoc] at h
    refine ⟨m, returns_of_succ fun _ ↦ ?_, hm.of_eq (by rw [hnone])⟩
    rw [Call.exec, insertChild_refused h hfits]
    rfl
  | @insertPair G c v cs t text hF hobject _ hfits =>
    have hlabel := exactly_label h hF A text
    rw [forest_perm hF, forest_cons, forest_cons, add_assoc, add_assoc] at h
    obtain ⟨m₁, hm₁, hx₁⟩ := insertChild_plug (c := []) hlabel hfits
    have hpair : Exactly m₁ ((plug c (.node v cs)).cells .none +
        ((Rose.node (A.run m, labelData text) [t]).cells .none + (forest G + H))) :=
      hx₁.of_eq (add_left_comm _ _ _)
    obtain ⟨m₂, hm₂, hx₂⟩ := insertChild_plug hpair ((fits_object hobject).mpr rfl)
    refine ⟨m₂, returns_of_succ fun _ ↦ ?_, hx₂.of_eq (by rw [forest_cons, add_assoc, hnone])⟩
    have hok : insertPairIntoObject A m v.1 text t.addr = .ok (m₂, .ok) := by
      rw [insertPairIntoObject_eq h hobject, hm₁, Exec.ok_bind, if_neg (not_not.mpr rfl)]
      exact hm₂
    rw [Call.exec, hok]
    rfl
  | @refusePair G c v cs t text hF hobject _ hfits =>
    have hm : Exactly (Json.newString A m text).1
        (forest F + (forest [.node (A.run m, labelData text) []] + H)) := by
      refine (exactly_new h A .string (some text)).of_eq ?_
      rw [forest_cons, forest_cons, labelData, show forest [] = 0 from rfl]
      abel
    have hlabel := exactly_label h hF A text
    rw [forest_perm hF, forest_cons, forest_cons, add_assoc, add_assoc] at h
    refine ⟨(Json.newString A m text).1, returns_of_succ fun _ ↦ ?_, hm⟩
    have hbad : insertPairIntoObject A m v.1 text t.addr =
        .ok ((Json.newString A m text).1, .badTreeStructure) := by
      rw [insertPairIntoObject_eq h hobject, insertChild_refused (c := []) hlabel hfits,
        Exec.ok_bind, if_pos nofun]
      rfl
    rw [Call.exec, hbad]
    rfl
  | @freeValue G c t hF =>
    rw [forest_perm hF, forest_cons, add_assoc] at h
    obtain ⟨m', ⟨N, hN⟩, hx⟩ := freeValue_returns h
    refine ⟨m', ⟨N, fun fuel hf ↦ ?_⟩, hx.of_eq (by rw [forest_remaining, add_assoc, hnone])⟩
    have hfree : Json.freeValue fuel m (some t.addr) = .ok m' := hN fuel hf
    change Call.exec A fuel m (.freeValue t.addr) = _
    rw [Call.exec, hfree]
    rfl

/-! ## The texts of the trees -/

/-- The texts of a tree have no null character. -/
inductive Terminated : Placed Data → Prop where
  /-- A node and what is below it. -/
  | node {v : Nat × Data} {cs : Forest} : (∀ s, v.2.text = some s → 0 ∉ s) →
      (∀ t ∈ cs, Terminated t) → Terminated (.node v cs)

theorem Terminated.root_text (h : Terminated t) : ∀ s, t.val.2.text = some s → 0 ∉ s := by
  cases h
  assumption

theorem Terminated.children (h : Terminated t) : ∀ u ∈ t.children, Terminated u := by
  cases h
  assumption

/-- A part of a tree. -/
theorem Terminated.of_plug (h : Terminated (plug c t)) : Terminated t := by
  induction c generalizing t with
  | nil => exact h
  | cons f c ih => exact (ih h).children t (List.mem_append.mpr (.inr List.mem_cons_self))

/-- A part of a tree is replaced by another one. -/
theorem Terminated.plug (h : Terminated (plug c t)) (h' : Terminated t') :
    Terminated (Rose.plug c t') := by
  induction c generalizing t t' with
  | nil => exact h'
  | cons f c ih =>
    have hfill := h.of_plug (c := c)
    refine ih h (.node hfill.root_text fun u hu ↦ ?_)
    rcases List.mem_append.mp hu with hu | hu
    · exact hfill.children u (List.mem_append.mpr (.inl hu))
    · rcases List.mem_cons.mp hu with rfl | hu
      · exact h'
      · exact hfill.children u (List.mem_append.mpr (.inr (List.mem_cons_of_mem _ hu)))

/-- One more child. -/
theorem Terminated.append (h : Terminated (.node v cs)) (ht : Terminated t) :
    Terminated (.node v (cs ++ [t])) :=
  .node h.root_text (List.forall_mem_append.mpr ⟨h.children, List.forall_mem_singleton.mpr ht⟩)

/-- A part of a tree is cut off. -/
theorem Terminated.remaining (h : Terminated (Rose.plug c t)) :
    ∀ u ∈ remaining c, Terminated u := by
  cases c with
  | nil => exact fun _ hu ↦ absurd hu List.not_mem_nil
  | cons f c =>
    have hfill := h.of_plug (c := c)
    have hsub : ∀ u ∈ f.left ++ f.right, u ∈ f.left ++ t :: f.right := fun u hu ↦
      List.mem_append.mpr ((List.mem_append.mp hu).imp_right (List.mem_cons_of_mem t))
    refine List.forall_mem_singleton.mpr (h.plug (c := c) (t := f.fill t) ?_)
    exact .node hfill.root_text fun u hu ↦ hfill.children u (hsub u hu)

/-- The texts that are printed. -/
theorem Terminated.hasTexts (h : Terminated t)
    (htexts : ∀ d ∈ t.erase.values, d.type = .string ∨ d.type = .number → d.text ≠ none) :
    HasTexts t.erase := by
  have hterm : ∀ d ∈ t.erase.values, ∀ s, d.text = some s → 0 ∉ s := by
    clear htexts
    induction h with
    | @node v cs htext _ ih =>
      intro d hd
      rw [erase, map_node] at hd
      rcases List.mem_cons.mp hd with rfl | hd
      · exact htext
      · obtain ⟨u, hu, hd⟩ := mem_valuesAll.mp hd
        obtain ⟨w, hw, rfl⟩ := List.mem_map.mp hu
        exact ih w hw d hd
  intro d hd htype
  obtain ⟨s, hs⟩ := Option.ne_none_iff_exists'.mp (htexts d hd htype)
  exact ⟨s, hs, hterm d hd s hs⟩

/-- Whatever a client does, the texts of its trees have no null character. -/
theorem Effect.terminated (h : Effect A m F k a F' L) (hF : ∀ t ∈ F, Terminated t) :
    ∀ t ∈ F', Terminated t := by
  have hnew : ∀ {d : Data}, (∀ s, d.text = some s → 0 ∉ s) → Terminated (.node (A.run m, d) []) :=
    fun h ↦ .node h fun t ht ↦ absurd ht List.not_mem_nil
  have hsome : ∀ {text : List UInt8}, 0 ∉ text → ∀ s, some text = some s → 0 ∉ s := by
    rintro text h s ⟨⟩
    exact h
  cases h with
  | newValue =>
    refine List.forall_mem_cons.mpr ⟨hnew ?_, hF⟩
    rintro s ⟨⟩
  | newString htext | newNumber htext => exact List.forall_mem_cons.mpr ⟨hnew (hsome htext), hF⟩
  | insertChild hperm =>
    have hall := fun t ht ↦ hF t (hperm.mem_iff.mpr ht)
    simp only [List.forall_mem_cons] at hall
    obtain ⟨hplug, ht, hG⟩ := hall
    exact List.forall_mem_cons.mpr ⟨hplug.plug (hplug.of_plug.append ht), hG⟩
  | refuseChild | refusePair => exact hF
  | insertPair hperm _ htext =>
    have hall := fun t ht ↦ hF t (hperm.mem_iff.mpr ht)
    simp only [List.forall_mem_cons] at hall
    obtain ⟨hplug, ht, hG⟩ := hall
    have hpair := (hnew (d := labelData _) (hsome htext)).append ht
    exact List.forall_mem_cons.mpr ⟨hplug.plug (hplug.of_plug.append hpair), hG⟩
  | freeValue hperm =>
    have hall := fun t ht ↦ hF t (hperm.mem_iff.mpr ht)
    obtain ⟨hplug, hG⟩ := List.forall_mem_cons.mp hall
    exact List.forall_mem_append.mpr ⟨hplug.remaining, hG⟩

/-! ## Runs -/

theorem Run.exactly {ks : List (Call × Answer)} (h : Run A m F ks m' F' L)
    (hm : Exactly m (forest F + H)) : Exactly m' (forest F' + (forest L + H)) := by
  induction h generalizing H with
  | nil => exact hm.of_eq (congrArg _ (zero_add H).symm)
  | @cons m m' m'' F F' F'' L L' k a ks he hret _ ih =>
    obtain ⟨m₁, hret₁, hm₁⟩ := he.returns hm
    obtain ⟨rfl, -⟩ := Prod.mk.inj (hret.unique hret₁)
    refine (ih hm₁).of_eq ?_
    rw [forest_append, add_left_comm (forest L'), ← add_assoc (forest L)]

/-- A refused pair leaves its label behind, and nothing else is left behind. -/
theorem Effect.leaves (h : Effect A m F k a F' L) : L.length = (if refused (k, a) then 1 else 0) ∧
    ∀ t ∈ L, ∃ b text, t = .node (b, labelData text) [] := by
  cases h with
  | refusePair => exact ⟨rfl, List.forall_mem_singleton.mpr ⟨_, _, rfl⟩⟩
  | _ => exact ⟨rfl, fun t ht ↦ absurd ht List.not_mem_nil⟩

theorem Run.leaves {ks : List (Call × Answer)} (h : Run A m F ks m' F' L) :
    L.length = ks.countP refused ∧ ∀ t ∈ L, ∃ b text, t = .node (b, labelData text) [] := by
  induction h with
  | nil => exact ⟨rfl, fun t ht ↦ absurd ht List.not_mem_nil⟩
  | cons he _ _ ih =>
    obtain ⟨hlen, hlabel⟩ := he.leaves
    refine ⟨?_, List.forall_mem_append.mpr ⟨hlabel, ih.2⟩⟩
    rw [List.length_append, hlen, ih.1, List.countP_cons, add_comm]

/-- After any calls of a client the memory holds its trees and the labels of the pairs that have
been refused besides what has been there before, and nothing else; if the client has no tree left
and no pair has been refused, it is as it was.  Each call that the client may make next returns what
it should. -/
theorem client_exactly (hm : Exactly m H) {ks : List (Call × Answer)} (h : Run A m [] ks m' F L) :
    Exactly m' (forest F + (forest L + H)) ∧
      (L.length = ks.countP refused ∧ ∀ t ∈ L, ∃ b text, t = .node (b, labelData text) []) ∧
      (F = [] → ks.countP refused = 0 → m' = m) ∧
      ∀ k a F' L', Effect A m' F k a F' L' →
        ∃ m'', Returns (fun fuel ↦ k.exec A fuel m') (m'', a) := by
  have hm' : Exactly m' (forest F + (forest L + H)) := h.exactly (hm.of_eq (zero_add H).symm)
  refine ⟨hm', h.leaves, fun hF hnone ↦ ?_, fun k a F' L' he ↦ ?_⟩
  · obtain rfl := List.length_eq_zero_iff.mp (h.leaves.1.trans hnone)
    subst hF
    exact (hm'.of_eq ((zero_add _).trans (zero_add H))).unique hm
  · obtain ⟨m'', hret, -⟩ := he.returns hm'
    exact ⟨m'', hret⟩

theorem Run.terminated {ks : List (Call × Answer)} (h : Run A m F ks m' F' L)
    (hF : ∀ t ∈ F, Terminated t) : ∀ t ∈ F', Terminated t := by
  induction h with
  | nil => exact hF
  | cons he _ _ ih => exact ih (he.terminated hF)

/-- A call before a run. -/
theorem Effect.run_cons (h : Exactly m (forest F + H)) (he : Effect A m F k a F' L) :
    ∃ m', Exactly m' (forest F' + (forest L + H)) ∧ ∀ {ks : List (Call × Answer)} {m'' : Mem}
      {F'' L' : Forest}, Run A m' F' ks m'' F'' L' → Run A m F ((k, a) :: ks) m'' F'' (L ++ L') := by
  obtain ⟨m', hret, hm'⟩ := he.returns h
  exact ⟨m', hm', fun hrun ↦ .cons he hret hrun⟩

/-- A client that makes an object with one member. -/
theorem exists_run : ∃ m' ks a b d, Run (.least _) (fun _ ↦ none) [] ks m'
    [.node (a, objectData) [.node (b, labelData [97]) [.node (d, ⟨.number, some [49]⟩) []]]] [] := by
  have h₁ : Effect (.least _) (fun _ ↦ none) [] (.newValue .object) _ _ _ := .newValue
  obtain ⟨m₁, hm₁, hrun₁⟩ := h₁.run_cons (H := 0) Exactly.nil
  generalize Allocator.run _ _ = a at hm₁ hrun₁ h₁
  have h₂ : Effect (.least _) m₁ [.node (a, objectData) []] (.newNumber [49]) _ _ _ :=
    .newNumber (by decide)
  obtain ⟨m₂, hm₂, hrun₂⟩ := h₂.run_cons hm₁
  generalize Allocator.run _ _ = d at hm₂ hrun₂ h₂
  have h₃ : Effect (.least _) m₂ [.node (d, ⟨.number, some [49]⟩) [], .node (a, objectData) []]
      (.insertPair a [97] d) _ _ _ := .insertPair (c := []) (.swap _ _ []) rfl (by decide) rfl
  obtain ⟨m₃, -, hrun₃⟩ := h₃.run_cons hm₂
  exact ⟨m₃, _, _, _, _, hrun₁ (hrun₂ (hrun₃ .nil))⟩

/-- A client that tries to insert a string with a child as the value of a pair; the string has no
text. -/
theorem exists_refused : ∃ m' ks a b d e, Run (.least _) (fun _ ↦ none) [] ks m'
    [.node (b, ⟨.string, none⟩) [.node (d, ⟨.null, none⟩) []], .node (a, objectData) []]
    [.node (e, labelData [97]) []] := by
  have h₁ : Effect (.least _) (fun _ ↦ none) [] (.newValue .object) _ _ _ := .newValue
  obtain ⟨m₁, hm₁, hrun₁⟩ := h₁.run_cons (H := 0) Exactly.nil
  generalize Allocator.run _ _ = a at hm₁ hrun₁ h₁
  have h₂ : Effect (.least _) m₁ [.node (a, objectData) []] (.newValue .string) _ _ _ := .newValue
  obtain ⟨m₂, hm₂, hrun₂⟩ := h₂.run_cons hm₁
  generalize Allocator.run _ _ = b at hm₂ hrun₂ h₂
  have h₃ : Effect (.least _) m₂ [.node (b, ⟨.string, none⟩) [], .node (a, objectData) []]
      (.newValue .null) _ _ _ := .newValue
  obtain ⟨m₃, hm₃, hrun₃⟩ := h₃.run_cons hm₂
  generalize Allocator.run _ _ = d at hm₃ hrun₃ h₃
  have h₄ : Effect (.least _) m₃ [.node (d, ⟨.null, none⟩) [], .node (b, ⟨.string, none⟩) [],
      .node (a, objectData) []] (.insertChild b d) _ _ _ :=
    .insertChild (c := []) (.swap _ _ _) rfl
  obtain ⟨m₄, hm₄, hrun₄⟩ := h₄.run_cons hm₃
  have h₅ : Effect (.least _) m₄ [.node (b, ⟨.string, none⟩) [.node (d, ⟨.null, none⟩) []],
      .node (a, objectData) []] (.insertPair a [97] b) _ _ _ :=
    .refusePair (c := []) (.swap _ _ []) rfl (by decide) Bool.false_ne_true
  obtain ⟨m₅, -, hrun₅⟩ := h₅.run_cons hm₄
  exact ⟨m₅, _, _, _, _, _, hrun₁ (hrun₂ (hrun₃ (hrun₄ (hrun₅ .nil))))⟩

theorem client_exactly_refused : ∃ m' F L, F.length = 2 ∧ L.length = 1 ∧
    Exactly m' (forest F + (forest L + 0)) := by
  obtain ⟨m', ks, a, b, d, e, h⟩ := exists_refused
  exact ⟨m', _, _, rfl, rfl, (client_exactly Exactly.nil h).1⟩

/-! ## Looking for members and printing -/

/-- The loop of `json_find_first_label` along the members. -/
theorem findLabelLoop_returns {parent previous next : Option Nat} {ls : Forest}
    (h : Holds m (cellsAll ls parent previous next + H)) (hnext : next = none)
    (htext : ∀ t ∈ ls, ∃ s, t.val.2.text = some s) (label : List UInt8) :
    Returns (fun fuel ↦ findLabelLoop m label fuel (headAddr next ls))
      ((ls.find? fun t ↦ t.val.2.text = some label).map addr) := by
  induction ls generalizing previous H with
  | nil =>
    subst hnext
    exact returns_of_succ fun _ ↦ rfl
  | cons t ls ih =>
    obtain ⟨⟨s, hs⟩, hls⟩ := List.forall_mem_cons.mp htext
    rw [cellsAll, cells_eq] at h
    have hget : m.get t.addr = .ok (t.root ⟨parent, previous, headAddr next ls⟩) :=
      h.get_eq (Multiset.mem_add.mpr (.inl (Multiset.mem_add.mpr (.inl Holds.mem_cell))))
    have hrest : Holds m (cellsAll ls parent (some t.addr) next + (cell t.addr
        (t.root ⟨parent, previous, headAddr next ls⟩) + t.under + H)) := h.of_eq (by abel)
    have hstep : ∀ fuel, findLabelLoop m label (fuel + 1) (some t.addr) =
        if s = label then .ok (some t.addr) else findLabelLoop m label fuel (headAddr next ls) := by
      intro fuel
      rw [findLabelLoop, hget, Exec.ok_bind]
      simp only [root, hs]
      rfl
    by_cases hlabel : s = label
    · rw [List.find?_cons_of_pos (by rw [hs, hlabel]; exact decide_eq_true rfl)]
      exact returns_of_succ fun fuel ↦ (hstep fuel).trans (if_pos hlabel)
    · rw [List.find?_cons_of_neg (by rw [hs]; simpa using hlabel)]
      exact (ih hrest hls).succ fun fuel ↦ (hstep fuel).trans (if_neg hlabel)

/-- In every state that a client reaches, the first member of an object with a label is found if
there is one, provided that the labels of the object have texts; and each value is printed, or found
to have a label without a value, provided that its strings and numbers have texts. -/
theorem client_observe (hm : Exactly m H) {ks : List (Call × Answer)} (h : Run A m [] ks m' F L)
    (hF : F.Perm (plug c (.node v cs) :: G)) :
    (v.2.type = .object → (∀ t ∈ cs, t.val.2.text ≠ none) → ∀ label,
      Returns (fun fuel ↦ findFirstLabel fuel m' v.1 label)
        ((cs.find? fun t ↦ t.val.2.text = some label).map addr)) ∧
    ((∀ d ∈ (Rose.node v cs).erase.values, d.type = .string ∨ d.type = .number → d.text ≠ none) →
      Returns (fun fuel ↦ treeToString fuel m' v.1)
        (match render (labelAt c) (Rose.node v cs).erase with
          | .ok w => (.ok, some w)
          | .error _ => (.badTreeStructure, none))) := by
  have hm' := (h.exactly (hm.of_eq (zero_add H).symm)).toHolds
  rw [forest_perm hF, forest_cons, add_assoc] at hm'
  have hterm : Terminated (.node v cs) :=
    (h.terminated (fun t ht ↦ absurd ht List.not_mem_nil) _
      (hF.mem_iff.mpr List.mem_cons_self)).of_plug
  refine ⟨fun hobject htext label ↦ ?_, fun htexts ↦
    treeToString_returns hm' (hterm.hasTexts htexts)⟩
  rw [cells_plug, cells] at hm'
  have hget : m'.get v.1 = .ok (root (.node v cs) (holeLinks .none c)) :=
    hm'.get_eq (by simp only [add_assoc]; exact Holds.mem_cell)
  have hchildren : Holds m' (cellsAll cs (some v.1) none none +
      (cell v.1 (root (.node v cs) (holeLinks .none c)) + around .none c v.1 +
        (forest G + (forest L + H)))) := hm'.of_eq (by rw [addr_node]; abel)
  obtain ⟨N, hN⟩ := findLabelLoop_returns hchildren rfl
    (fun t ht ↦ Option.ne_none_iff_exists'.mp (htext t ht)) label
  refine ⟨N, fun fuel hf ↦ ?_⟩
  have hloop : findLabelLoop m' label fuel (headAddr none cs) = _ := hN fuel hf
  change findFirstLabel fuel m' v.1 label = _
  rw [findFirstLabel, hget, Exec.ok_bind,
    if_neg (c := (root (.node v cs) (holeLinks .none c)).data.type ≠ .object) (not_not.mpr hobject)]
  exact hloop

theorem client_observe_object : ∃ m' a b,
    Returns (fun fuel ↦ findFirstLabel fuel m' a [97]) (some b) ∧
    Returns (fun fuel ↦ treeToString fuel m' a) (.ok, some [123, 34, 97, 34, 58, 49, 125]) := by
  obtain ⟨m', ks, a, b, d, h⟩ := exists_run
  have hlabels : ∀ t ∈ [(.node (b, labelData [97]) [.node (d, ⟨.number, some [49]⟩) []] :
      Placed Data)], t.val.2.text ≠ none := List.forall_mem_singleton.mpr (Option.some_ne_none _)
  have htexts : ∀ x ∈ [objectData, labelData [97], ⟨.number, some [49]⟩],
      x.type = .string ∨ x.type = .number → x.text ≠ none := by decide
  obtain ⟨hfind, hprint⟩ := client_observe Exactly.nil h (c := []) (List.Perm.refl _)
  exact ⟨m', a, b, hfind rfl hlabels [97], hprint htexts⟩

end Dlbase.Json
