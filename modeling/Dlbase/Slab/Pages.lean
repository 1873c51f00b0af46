import Dlbase.Slab.Gap

/-!
# Allocating pages

`dl_slab_alloc_pages` looks for a free run that is long enough, takes the first pages of it off the
free list, and marks them.
-/

namespace Dlbase.Slab

open Cmem

variable {s s' : Pool} {i j k m n : Nat} {T A B : List Seg} {seg : Seg} {r q : Ref}
  {l : List Ref} {x : Option (Ref × Nat)} {v : Page}

/-! ## Free runs next to each other -/

/-- A part that is not free keeps other parts apart. -/
theorem Separated.insert (hA : Separated A) (hB : Separated B) (hseg : ¬ seg.IsFree) :
    Separated (A ++ seg :: B) :=
  List.isChain_append.mpr ⟨hA, List.isChain_cons.mpr ⟨fun _ _ h ↦ hseg h.1, hB⟩,
    fun a _ b hb h ↦ by
      obtain rfl := Option.some.inj hb
      exact hseg h.2⟩

/-- A free run may be put between parts that are not free. -/
theorem Separated.insertFree (hA : Separated A) (hB : Separated B)
    (hlast : ∀ a ∈ A.getLast?, ¬ a.IsFree) (hhead : ∀ b ∈ B.head?, ¬ b.IsFree) :
    Separated (A ++ .free n :: B) :=
  List.isChain_append.mpr ⟨hA, List.isChain_cons.mpr ⟨fun b hb h ↦ hhead b hb h.2, hB⟩,
    fun a ha _ _ h ↦ hlast a ha h.1⟩

/-- The length of a free run does not matter. -/
theorem Separated.resize (h : Separated (.free n :: B)) : Separated (.free m :: B) :=
  List.isChain_cons.mpr ⟨fun b hb hf ↦ (List.isChain_cons.mp h).1 b hb ⟨trivial, hf.2⟩, h.of_cons⟩

/-! ## Setting descriptors -/

/-- The descriptors of `n` pages are set to `v`. -/
def Pool.fill (s : Pool) (v : Page) (i : Nat) : Nat → Exec Pool
  | 0 => .ok s
  | n + 1 => do
    let s ← s.store (some (.page i)) fun _ ↦ v
    s.fill v (i + 1) n

theorem busyPages_eq : s.busyPages i n = s.fill ⟨busy, none, none, .page⟩ i n := by
  induction n generalizing s i with
  | zero => rfl
  | succ n ih => simp only [Pool.busyPages, Pool.fill, ih]

theorem clearPages_eq : s.clearPages i n = s.fill ⟨0, none, none, .page⟩ i n := by
  induction n generalizing s i with
  | zero => rfl
  | succ n ih => simp only [Pool.clearPages, Pool.fill, ih]

namespace Gap

/-- Pages of the gap are set. -/
theorem fill (hg : Gap s A n B x) (hi : total A ≤ i) (hk : i + k ≤ total A + n)
    (hx : ∀ h j, x = some (h, j) → j < i ∨ i + k ≤ j) :
    ∃ s', s.fill v i k = .ok s' ∧ Gap s' A n B x ∧ Kept s s' ∧
      (∀ j, i ≤ j → j < i + k → s'.node (.page j) = v) ∧
      ∀ r : Ref, (∀ j, r = .page j → j < i ∨ i + k ≤ j) → s'.node r = s.node r := by
  induction k generalizing s i with
  | zero => exact ⟨s, rfl, hg, .refl s, fun j hj hj' ↦ absurd hj' (by omega), fun _ _ ↦ rfl⟩
  | succ k ih =>
    have hg' : Gap (s.put (.page i) fun _ ↦ v) A n B x := hg.put ⟨hi, by omega⟩ fun h hxi ↦ by
      have := hx h i hxi
      omega
    obtain ⟨s', hs, hg', hkept, hin, hout⟩ := ih hg' (Nat.le_succ_of_le hi) (by omega)
      fun h j hxj ↦ by
        have := hx h j hxj
        omega
    refine ⟨s', ?_, hg', (Kept.put _ _ _).trans hkept, fun j hj hj' ↦ ?_, fun r hr ↦ ?_⟩
    · rw [Pool.fill, store_eq (hg.has (by omega)), Exec.ok_bind]
      exact hs
    · by_cases hij : j = i
      · subst hij
        rw [hout _ fun j' hj' ↦ .inl (by rw [← Ref.page.inj hj']; exact Nat.lt_succ_self _),
          node_put_self]
      · exact hin j (by omega) (by omega)
    · rw [hout r fun j hj ↦ by
        have := hr j hj
        omega]
      exact node_put_of_ne (fun heq ↦ by
        have := hr i heq
        omega) _

end Gap

/-! ## Looking for a run -/

/-- The loop finds the first run of the list that is long enough, if there is one. -/
theorem findRun_spec (hp : Path s.next s.prev q l .free)
    (hl : ∀ r ∈ l, ∃ j, r = .page j ∧ s.Has r) :
    ∃ o, (∀ fuel, l.length < fuel → s.findRun n fuel (some (l.headD .free)) = .ok o) ∧
      (∀ i, o = some i → .page i ∈ l ∧ n ≤ (s.node (.page i)).slab.toNat) ∧
      (o = none → ∀ r ∈ l, (s.node r).slab.toNat < n) := by
  induction l generalizing q with
  | nil =>
    refine ⟨none, fun fuel hfuel ↦ ?_, nofun, fun _ ↦ nofun⟩
    obtain ⟨fuel, rfl⟩ := Nat.exists_eq_add_one_of_ne_zero (Nat.ne_zero_of_lt hfuel)
    unfold Pool.findRun
    exact if_pos rfl
  | cons r l ih =>
    obtain ⟨j, rfl, hhas⟩ := hl _ List.mem_cons_self
    obtain ⟨-, -, hp⟩ := hp
    have hstep : ∀ fuel, s.findRun n (fuel + 1) (some (.page j)) =
        if n ≤ (s.node (.page j)).slab.toNat then .ok (some j)
        else s.findRun n fuel (s.node (.page j)).next := fun fuel ↦ by
      rw [Pool.findRun, if_neg nofun, load_eq hhas, Exec.ok_bind]
    by_cases hn : n ≤ (s.node (.page j)).slab.toNat
    · refine ⟨some j, fun fuel hfuel ↦ ?_, fun i hi ↦ ?_, nofun⟩
      · obtain ⟨fuel, rfl⟩ := Nat.exists_eq_add_one_of_ne_zero (Nat.ne_zero_of_lt hfuel)
        exact (hstep fuel).trans (if_pos hn)
      · obtain rfl := Option.some.inj hi
        exact ⟨List.mem_cons_self, hn⟩
    · obtain ⟨o, ho, hsome, hnone⟩ := ih hp fun r hr ↦ hl r (List.mem_cons_of_mem _ hr)
      refine ⟨o, fun fuel hfuel ↦ ?_, fun i hi ↦ ?_, fun hi r hr ↦ ?_⟩
      · obtain ⟨fuel, rfl⟩ := Nat.exists_eq_add_one_of_ne_zero (Nat.ne_zero_of_lt hfuel)
        have hnext : (s.node (.page j)).next = some (l.headD .free) := hp.next_first
        rw [List.headD_cons, hstep, if_neg hn, hnext]
        exact ho fuel (Nat.lt_of_succ_lt_succ hfuel)
      · exact ⟨List.mem_cons_of_mem _ (hsome i hi).1, (hsome i hi).2⟩
      · rcases List.mem_cons.mp hr with rfl | hr
        · exact Nat.lt_of_not_le hn
        · exact hnone hi r hr

/-! ## Taking a run off the free list -/

/-- What is left behind the first `n` pages of a free run of `m` pages. -/
def rest (n m : Nat) (B : List Seg) : List Seg := if n = m then B else .free (m - n) :: B

theorem pieces_rest (hnm : n ≤ m) {start : Nat} :
    pieces start (i + n) (rest n m B) = pieces start (i + m) B := by
  rw [rest]
  split_ifs with heq
  · rw [heq]
  · change piecesOf start (i + n, .free (m - n)) ++ pieces start (i + n + (m - n)) B = _
    rw [Nat.add_assoc, Nat.add_sub_cancel' hnm]
    rfl

theorem freeTotal_rest (hnm : n ≤ m) : n + freeTotal (rest n m B) = m + freeTotal B := by
  rw [rest]
  split_ifs with heq
  · rw [heq]
  · rw [freeTotal_cons, Seg.freeLen]
    omega

theorem toNat_ofNat_lt (hn : n < 2 ^ 32) : (BitVec.ofNat 64 n).toNat = n :=
  Nat.mod_eq_of_lt (Nat.lt_trans hn (by decide))

theorem unlink_congr (p p' : Page) (hnext : p.next = p'.next) (hprev : p.prev = p'.prev)
    (htype : p.type = p'.type) : s.unlink p = s.unlink p' := by
  rw [Pool.unlink, Pool.unlink, hnext, hprev, htype]

/-- The first `n` pages of a free run are taken off the free list. -/
theorem isolate_spec (hs : Shape s (A ++ .free m :: B)) (hn : 0 < n) (hnm : n ≤ m) :
    ∃ s', s.isolate (total A) n (s.node (.page (total A))) = .ok s' ∧
      Gap s' A n (rest n m B) none ∧ Kept s s' := by
  have hlen := hs.length
  rw [total_append, total_cons] at hlen
  have hlt := hs.base.pages_lt
  change total A + (m + total B) = s.pages at hlen
  have hg : Gap s A m B (some (.free, total A)) := hs.gap (by omega)
  obtain ⟨hslab, htype, hne, hblank, -, -⟩ : SegOk s (total A) (.free m) := hs.segs _ (by
    rw [placed_middle, Nat.zero_add]
    exact List.mem_append_right _ List.mem_cons_self)
  have hnat : (s.node (.page (total A))).slab.toNat = m := by rw [hslab, toNat_ofNat_lt (by omega)]
  rw [Pool.isolate, hnat, rest]
  by_cases heq : n = m
  · subst heq
    rw [if_neg (Nat.lt_irrefl n), if_pos rfl]
    obtain ⟨s', hu, hg', hf⟩ := hg.unlink
    exact ⟨s', hu, hg', hf.toKept⟩
  have hnm : n < m := Nat.lt_of_le_of_ne hnm heq
  rw [if_pos hnm, if_neg heq]
  let f : Page → Page := fun p ↦ { p with prev := some (.page (total A + n)), type := .page }
  let p := s.node (.page (total A))
  let v : Page := ⟨p.slab - BitVec.ofNat 64 n, p.next, p.prev, p.type⟩
  -- the last page of the run is linked back to the new head, which gets the links of the old one
  obtain ⟨s₁, hs₁⟩ : ∃ s₁, s.put (.page (total A + m - 1)) f = s₁ := ⟨_, rfl⟩
  obtain ⟨s₂, hs₂⟩ : ∃ s₂, s₁.put (.page (total A + n)) (fun _ ↦ v) = s₂ := ⟨_, rfl⟩
  have hg₁ : Gap s₁ A m B (some (.free, total A)) := hs₁ ▸ hg.put (by omega) fun h hx ↦ by
    have := (Prod.mk.inj (Option.some.inj hx)).2
    omega
  have hg₂ : Gap s₂ A m B (some (.free, total A)) := hs₂ ▸ hg₁.put (by omega) fun h hx ↦ by
    have := (Prod.mk.inj (Option.some.inj hx)).2
    omega
  have hkept : Kept s s₂ := hs₂ ▸ hs₁ ▸ (Kept.put _ _ _).trans (.put _ _ _)
  have hnew : s₂.node (.page (total A + n)) = v := hs₂ ▸ node_put_self _ _
  have hlast : n + 1 < m → s₂.node (.page (total A + m - 1)) =
      f (s.node (.page (total A + m - 1))) := fun hlt ↦ by
    rw [← hs₂, node_put_of_ne fun heq ↦ absurd (Ref.page.inj heq) (by omega), ← hs₁, node_put_self]
  have hold : ∀ j, j ≠ total A + m - 1 → j ≠ total A + n → s₂.node (.page j) = s.node (.page j) :=
    fun j hj hj' ↦ by
    rw [← hs₂, node_put_of_ne fun heq ↦ hj' (Ref.page.inj heq), ← hs₁,
      node_put_of_ne fun heq ↦ hj (Ref.page.inj heq)]
  have hhead : s₂.node (.page (total A)) = p := hold _ (by omega) (by omega)
  obtain ⟨s', a, b, ha, hb, hha, hhb, hs', hg', hf⟩ := hg₂.replace (j := total A + n) (by omega)
    (by omega) (by rw [hnew, hhead]) (by rw [hnew, hhead]) (by rw [hnew]; exact htype)
  rw [hhead] at ha hb
  have hrun : (s.store (some (.page (total A + m - 1))) f >>= fun s ↦
      s.store (some (.page (total A + n))) (fun _ ↦ v) >>= fun s ↦
      s.store p.prev (fun p ↦ { p with next := some (.page (total A + n)) }) >>= fun s ↦
      s.store p.next fun p ↦ { p with prev := some (.page (total A + n)), type := .page }) =
      .ok s' := by
    rw [store_eq (hg.has (by omega)), Exec.ok_bind, hs₁, store_eq (hg₁.has (by omega)),
      Exec.ok_bind, hs₂, ha, store_eq hha, Exec.ok_bind, hb, store_eq (by rwa [has_put]), hs']
    rfl
  refine ⟨s', hrun, ?_, hkept.trans hf.toKept⟩
  have hle : n + (m - n) = m := Nat.add_sub_cancel' (Nat.le_of_lt hnm)
  have hinner : ∀ j, total A + n < j → j < total A + m →
      (s'.node (.page j)).slab = 0 ∧ (s'.node (.page j)).next = none ∧
        (s'.node (.page j)).type = .page := fun j hj hj' ↦ by
    rw [hf.node j (by omega) hj']
    obtain ⟨hb₁, hb₂, hb₃⟩ := hblank j (by omega) hj'
    by_cases hjl : j = total A + m - 1
    · subst hjl
      rw [hlast (by omega)]
      exact ⟨hb₁, hb₂, rfl⟩
    · rw [hold j hjl (by omega)]
      exact ⟨hb₁, hb₂, hb₃⟩
  have hok : SegOk s' (total A + n) (.free (m - n)) := by
    have hnode : s'.node (.page (total A + n)) = v := (hf.node _ (by omega) (by omega)).trans hnew
    refine ⟨?_, ?_, ?_, fun j hj hj' ↦ hinner j hj (by omega), .inl (by omega), fun hlt _ ↦ ?_⟩
    · rw [hnode]
      change p.slab - _ = _
      rw [hslab, ← BitVec.ofNat_sub_ofNat_of_le _ _ (by omega) hnm.le]
    · rw [hnode]
      exact htype
    · rw [hnode]
      exact hne
    · have heq : total A + n + (m - n) - 1 = total A + m - 1 := by omega
      rw [heq, hf.node _ (by omega) (by omega), hlast (by omega)]
  exact Gap.narrow (by rwa [Seg.len, hle]) hn hok
    (Separated.resize hs.separated.right_of_append)

/-! ## Allocating a run -/

/-- The pages of the gap are marked as a run that is allocated. -/
theorem mark_spec (hg : Gap s A n B none) (hlt : n + (freeTotal A + freeTotal B) < 2 ^ 32)
    (hfree : s.pfree = BitVec.ofNat 32 (n + (freeTotal A + freeTotal B))) :
    ∃ s', (s.store (some (.page (total A)))
        (fun _ ↦ ⟨BitVec.ofNat 64 n ||| pageStart, none, none, .page⟩) >>= fun s ↦
      Pool.busyPages { s with pfree := s.pfree - BitVec.ofNat 32 n } (total A + 1) (n - 1)) =
        .ok s' ∧
      Shape s' (A ++ .alloc n :: B) ∧ Same s s' ∧ s'.words = s.words ∧ s'.stats = s.stats := by
  have hn := hg.pos
  let v : Page := ⟨BitVec.ofNat 64 n ||| pageStart, none, none, .page⟩
  obtain ⟨s₁, hs₁⟩ : ∃ s₁, s.put (.page (total A)) (fun _ ↦ v) = s₁ := ⟨_, rfl⟩
  have hg₁ : Gap s₁ A n B none := hs₁ ▸ hg.put (by omega) nofun
  have hkept : Kept s s₁ := hs₁ ▸ .put _ _ _
  obtain ⟨s₂, hs₂⟩ : ∃ s₂ : Pool, { s₁ with pfree := s₁.pfree - BitVec.ofNat 32 n } = s₂ := ⟨_, rfl⟩
  have hg₂ : Gap s₂ A n B none := hs₂ ▸ hg₁.count _ _
  have hnode : s₂.node = s₁.node := hs₂ ▸ rfl
  obtain ⟨s', hs', hg', hkept', hin, hout⟩ := hg₂.fill
    (i := total A + 1) (k := n - 1) (v := ⟨busy, none, none, .page⟩) (by omega) (by omega) nofun
  have hhead : s'.node (.page (total A)) = v := by
    rw [hout _ fun j hj ↦ .inl (by rw [← Ref.page.inj hj]; exact Nat.lt_succ_self _), hnode, ← hs₁,
      node_put_self]
  have hfree' : s'.pfree = BitVec.ofNat 32 (freeTotal (A ++ .alloc n :: B)) := by
    have hpf : s₂.pfree = s.pfree - BitVec.ofNat 32 n := by rw [← hs₂, ← hkept.pfree]
    rw [hkept'.pfree, hpf, hfree, BitVec.ofNat_sub_ofNat_of_le _ _ (by omega) (by omega),
      Nat.add_sub_cancel_left, freeTotal_middle]
    change _ = BitVec.ofNat 32 (freeTotal A + (0 + freeTotal B))
    rw [Nat.zero_add]
  refine ⟨s', ?_, hg'.shape ⟨hn, ?_, ?_, ?_, fun j hj hj' ↦ ?_⟩
    (hg.separated.1.insert hg.separated.2 not_false) hfree', ?_, ?_, ?_⟩
  · rw [store_eq (hg.has (by omega)), Exec.ok_bind, hs₁, hs₂, busyPages_eq]
    exact hs'
  · rw [hhead]
  · rw [hhead]
  · rw [hhead]
  · rw [hin j (by omega) (by omega)]
    exact ⟨rfl, rfl, rfl⟩
  · exact (hkept.layout.trans (hs₂ ▸ ⟨rfl, rfl, rfl, rfl, rfl, rfl, rfl⟩)).trans hkept'.layout
  · rw [hkept'.words, ← hs₂, ← hkept.words]
  · rw [hkept'.stats, ← hs₂, ← hkept.stats]

/-- The nodes of the free list are there. -/
theorem Shape.has_free (hs : Shape s T) (hr : r ∈ members .free 0 T) :
    ∃ j m, r = .page j ∧ s.Has r ∧ (j, Seg.free m) ∈ placed 0 T := by
  obtain ⟨⟨j, seg⟩, he, hl, rfl⟩ := mem_members.mp hr
  have hb := bounds he
  have hlen := hs.length
  have hle := hs.base.pages_le
  have hdescs := hs.base.descs_pos
  cases seg with
  | alloc m => cases hl
  | chunks shift cs =>
    rw [Seg.list] at hl
    split_ifs at hl
    cases Option.some.inj hl
  | free m =>
    refine ⟨j, m, rfl, decide_eq_true ?_, he⟩
    by_cases hp : s.pages = 0
    · dsimp only at hb ⊢
      omega
    · have := hs.segs.pos hp _ he
      dsimp only at hb this ⊢
      omega

/-- `dl_slab_alloc_pages` allocates the first pages of a free run, or there is no run that is long
enough. -/
theorem allocPages_spec (hs : Shape s T) (hn : 0 < n) :
    (Returns (fun fuel ↦ s.allocPages fuel n) (s, none) ∧
      ∀ j m, (j, Seg.free m) ∈ placed 0 T → m < n) ∨
    ∃ A m B s', T = A ++ .free m :: B ∧ n ≤ m ∧
      Returns (fun fuel ↦ s.allocPages fuel n) (s', some (total A)) ∧
      Shape s' (A ++ .alloc n :: rest n m B) ∧ Same s s' ∧ s'.words = s.words ∧
      s'.stats = s.stats := by
  have hlt := hs.base.pages_lt
  have hlen := hs.length
  obtain ⟨l, hc, hl⟩ := hs.lists .free trivial
  have hmem : ∀ r ∈ l, ∃ j m, r = .page j ∧ s.Has r ∧ (j, Seg.free m) ∈ placed 0 T := fun r hr ↦
    hs.has_free (hl.mem_iff.mp hr)
  have hslab : ∀ j m, (j, Seg.free m) ∈ placed 0 T → (s.node (.page j)).slab.toNat = m :=
    fun j m he ↦ by
    have hb := bounds he
    rw [(hs.segs _ he).1]
    change _ ∧ j + m ≤ _ at hb
    exact toNat_ofNat_lt (by omega)
  have hload : s.load (some .free) = .ok (s.node .free) := load_eq rfl
  have hnext : (s.node .free).next = some (l.headD .free) := hc.next_head
  obtain ⟨o, ho, hsome, hnone⟩ := findRun_spec (n := n) hc fun r hr ↦ by
    obtain ⟨j, m, hj, hhas, -⟩ := hmem r hr
    exact ⟨j, hj, hhas⟩
  have hrun : ∀ fuel, l.length < fuel → s.allocPages fuel n = (match o with
      | none => pure (s, none)
      | some i => do
        let page ← s.load (some (.page i))
        let s ← s.isolate i n page
        let s ← s.store (some (.page i))
          fun _ ↦ ⟨BitVec.ofNat 64 n ||| pageStart, none, none, .page⟩
        let s ← { s with pfree := s.pfree - BitVec.ofNat 32 n }.busyPages (i + 1) (n - 1)
        pure (s, some i)) := fun fuel hfuel ↦ by
    rw [Pool.allocPages, hload, Exec.ok_bind, hnext, ho fuel hfuel, Exec.ok_bind]
    cases o <;> rfl
  cases o with
  | none =>
    refine .inl ⟨⟨l.length + 1, fun fuel hfuel ↦ hrun fuel hfuel⟩, fun j m he ↦ ?_⟩
    rw [← hslab j m he]
    exact hnone rfl _ (hl.mem_iff.mpr (mem_members.mpr ⟨_, he, rfl, rfl⟩))
  | some i =>
    obtain ⟨hi, hle⟩ := hsome i rfl
    obtain ⟨j, m, heq, hhas, he⟩ := hmem _ hi
    obtain rfl := Ref.page.inj heq
    rw [hslab i m he] at hle
    obtain ⟨A, B, rfl, hA⟩ := exists_split he
    rw [Nat.zero_add] at hA
    change total A = i at hA
    subst hA
    obtain ⟨s₁, hs₁, hg, hkept⟩ := isolate_spec hs hn hle
    have htotal := freeTotal_rest (B := B) hle
    have hfree := hs.pfree
    have hfle := freeTotal_le (T := A ++ .free m :: B)
    rw [freeTotal_middle] at hfree hfle
    change _ = BitVec.ofNat 32 (freeTotal A + (m + freeTotal B)) at hfree
    change freeTotal A + (m + freeTotal B) ≤ _ at hfle
    change total (A ++ .free m :: B) = _ at hlen
    obtain ⟨s', hs', hshape, hsame, hwords, hstats⟩ := mark_spec hg (by omega) (by
      rw [hkept.pfree, hfree]
      congr 1
      omega)
    obtain ⟨s₂, hs₂, hs'⟩ := Exec.bind_eq_ok.mp hs'
    refine .inr ⟨A, m, B, s', rfl, hle, ⟨l.length + 1, fun fuel hfuel ↦ ?_⟩, hshape,
      hkept.layout.trans hsame, hwords.trans hkept.words, hstats.trans hkept.stats⟩
    refine (hrun fuel hfuel).trans ?_
    change (s.load (some (.page (total A))) >>= _) = _
    rw [load_eq hhas, Exec.ok_bind, hs₁, Exec.ok_bind, hs₂, Exec.ok_bind, hs']
    rfl

end Dlbase.Slab
