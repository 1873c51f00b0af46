import Dlbase.Pool.Model

/-!
# The blocks of a pool and what lies in them

A range that is in use lies below the cursor of a block or in a large block, and no two of them
overlap.  Handing out memory adds a range.
-/

namespace Dlbase.Pool

open Cmem

variable {size n i c : Nat} {s s' : State} {G G' used used' : List Range} {r g : Range} {b : Block}
  {pre post blocks : List Block} {alloc : Malloc Value} {align : Bool} {m : Nat}

/-- A block of `size` bytes is in order. -/
structure Block.Ok (size : Nat) (regions : List Range) (b : Block) : Prop where
  /-- The block ends after `size` bytes. -/
  end_eq : b.end = b.start + size
  /-- The block is aligned. -/
  aligned : 16 ∣ b.start
  /-- The block lies in the lower half of the address space. -/
  lt : b.end < 2 ^ 63
  /-- The cursor is behind the header. -/
  last_ge : b.start + sizeofPool ≤ b.last
  /-- The cursor is in the block. -/
  last_le : b.last ≤ b.end
  /-- The block has not been freed. -/
  region : ⟨b.start, size⟩ ∈ regions

/-- The range lies below the cursor of the block. -/
def Block.Has (b : Block) (r : Range) : Prop :=
  b.start + sizeofPool ≤ r.base ∧ r.base + r.size ≤ b.end ∧
    (r.size = 0 ∨ r.base + r.size ≤ b.last)

/-- The range lies in one of the blocks or in one of the large blocks `G`. -/
def Placed (blocks : List Block) (G : List Range) (r : Range) : Prop :=
  (∃ b ∈ blocks, b.Has r) ∨ ∃ g ∈ G, r.Within g

/-- A pool of blocks of `size` bytes with the large blocks `G`, in which `used` is in use. -/
structure Sound (size : Nat) (s : State) (G used : List Range) : Prop where
  /-- The size of the blocks is a multiple of the alignment. -/
  dvd : 8 ∣ size
  /-- There is room for a record in an empty block. -/
  le : sizeofPool + sizeofLarge ≤ size
  /-- The blocks of the heap are apart. -/
  wf : s.heap.Wf
  /-- The largest request that is served from the blocks. -/
  max : s.max = min (size - sizeofPool) maxAllocFromPool
  /-- The blocks of the pool are in order. -/
  block : ∀ b ∈ s.blocks, b.Ok size s.heap.regions
  /-- No block is in the chain twice. -/
  starts : (s.blocks.map (·.start)).Nodup
  /-- The place from which on room is looked for is in the chain. -/
  current : s.current < s.blocks.length
  /-- The large blocks have not been freed and are not in the chain. -/
  larges : ∀ g ∈ G, g ∈ s.heap.regions ∧ 16 ∣ g.base ∧ ∀ b ∈ s.blocks, b.start ≠ g.base
  /-- No two ranges in use overlap. -/
  apart : used.Pairwise Range.Disjoint
  /-- The ranges in use lie in the pool. -/
  placed : ∀ r ∈ used, Placed s.blocks G r

/-! ## Arithmetic of cursors -/

theorem le_alignPtr (m : Nat) : m ≤ alignPtr m := by
  unfold alignPtr
  omega

theorem dvd_alignPtr (m : Nat) : 8 ∣ alignPtr m := Nat.dvd_mul_left 8 _

theorem alignPtr_le {e : Nat} (h : m ≤ e) (he : 8 ∣ e) : alignPtr m ≤ e := by
  unfold alignPtr
  omega

theorem alignPtr_eq (h : 8 ∣ m) : alignPtr m = m := by
  unfold alignPtr
  omega

/-- Where a block places a request. -/
def Block.slot (b : Block) (align : Bool) : Nat := if align then alignPtr b.last else b.last

theorem Block.le_slot (b : Block) (align : Bool) : b.last ≤ b.slot align := by
  cases align
  · exact Nat.le_refl _
  · exact le_alignPtr _

theorem Block.dvd_slot (b : Block) : 8 ∣ b.slot true := dvd_alignPtr _

theorem Block.Ok.slot_le {regions : List Range} (hb : b.Ok size regions) (hd : 8 ∣ size)
    (align : Bool) : b.slot align ≤ b.end := by
  have hle := hb.last_le
  cases align
  · exact hle
  · refine alignPtr_le hle ?_
    have := hb.end_eq
    have := hb.aligned
    omega

/-! ## The two loops over the chain -/

theorem serve_eq_some {blocks' : List Block} (h : serve n align blocks = some (blocks', m)) :
    ∃ pre b post, blocks = pre ++ b :: post ∧ m = b.slot align ∧ n ≤ subSize b.end m ∧
      blocks' = pre ++ { b with last := m + n } :: post := by
  induction blocks generalizing blocks' with
  | nil => cases h
  | cons p ps ih =>
    unfold serve at h
    change (if n ≤ subSize p.end (p.slot align) then
      some ({ p with last := p.slot align + n } :: ps, p.slot align) else _) = _ at h
    by_cases hfit : n ≤ subSize p.end (p.slot align)
    · rw [if_pos hfit] at h
      cases h
      exact ⟨[], p, ps, rfl, rfl, hfit, rfl⟩
    · rw [if_neg hfit] at h
      obtain ⟨⟨qs, m'⟩, hserve, heq⟩ := Option.map_eq_some_iff.mp h
      cases heq
      obtain ⟨pre, b, post, hps, hm, hfit, hqs⟩ := ih hserve
      exact ⟨p :: pre, b, post, congrArg (p :: ·) hps, hm, hfit, congrArg (p :: ·) hqs⟩

/-- The block but for its count of failures. -/
def Block.erase (b : Block) : Block := { b with failed := 0 }

theorem map_erase_countFailed (i c : Nat) (blocks : List Block) :
    (countFailed i c blocks).1.map Block.erase = blocks.map Block.erase := by
  fun_induction countFailed i c blocks with
  | case1 i c p q ps c' r ih => exact congrArg (p.erase :: ·) ih
  | case2 => rfl

theorem countFailed_current (i c : Nat) (blocks : List Block) :
    (countFailed i c blocks).2 = c ∨ (countFailed i c blocks).2 < i + blocks.length := by
  fun_induction countFailed i c blocks with
  | case1 i c p q ps c' r ih =>
    have hc : c' = c ∨ c' = i + 1 := by
      by_cases hf : p.failed > 4
      · exact .inr (if_pos hf)
      · exact .inl (if_neg hf)
    change r.2 = c' ∨ r.2 < i + 1 + (ps.length + 1) at ih
    change r.2 = c ∨ r.2 < i + (ps.length + 1 + 1)
    clear_value c' r
    omega
  | case2 => exact .inl rfl

theorem map_erase_blocks (s : State) :
    (s.blocks.take s.current ++
      (countFailed s.current s.current (s.blocks.drop s.current)).1).map Block.erase =
    s.blocks.map Block.erase := by
  rw [List.map_append, map_erase_countFailed, ← List.map_append, List.take_append_drop]

theorem erase_eq_iff {b b' : Block} :
    b.erase = b'.erase ↔ b.start = b'.start ∧ b.last = b'.last ∧ b.end = b'.end := by
  simp [Block.erase]

theorem Block.Ok.of_erase {regions regions' : List Range} {b' : Block} (hb : b.Ok size regions)
    (he : b.erase = b'.erase) (hr : ∀ r ∈ regions, r ∈ regions') : b'.Ok size regions' := by
  obtain ⟨hstart, hlast, hend⟩ := erase_eq_iff.mp he
  exact ⟨hstart ▸ hend ▸ hb.end_eq, hstart ▸ hb.aligned, hend ▸ hb.lt, hstart ▸ hlast ▸ hb.last_ge,
    hlast ▸ hend ▸ hb.last_le, hr _ (hstart ▸ hb.region)⟩

theorem exists_of_erase {blocks' : List Block} {b' : Block}
    (he : blocks'.map Block.erase = blocks.map Block.erase) (hb' : b' ∈ blocks') :
    ∃ b ∈ blocks, b'.erase = b.erase := by
  have hb := List.mem_map_of_mem (f := Block.erase) hb'
  rw [he] at hb
  obtain ⟨b, hb, heq⟩ := List.mem_map.mp hb
  exact ⟨b, hb, heq.symm⟩

theorem starts_of_erase {blocks' : List Block}
    (he : blocks'.map Block.erase = blocks.map Block.erase) :
    blocks'.map (·.start) = blocks.map (·.start) := by
  have hst := congrArg (List.map Block.start) he
  simpa [Function.comp_def, Block.erase] using hst

theorem length_of_erase {blocks' : List Block}
    (he : blocks'.map Block.erase = blocks.map Block.erase) : blocks'.length = blocks.length := by
  have hl := congrArg List.length he
  simpa using hl

/-! ## Handing out memory -/

theorem Block.Has.within {regions : List Range} (hr : b.Has r) (hb : b.Ok size regions) :
    r.Within ⟨b.start, size⟩ := by
  have hend := hb.end_eq
  unfold Block.Has sizeofPool at hr
  unfold Range.Within
  change b.start ≤ r.base ∧ r.base + r.size ≤ b.start + size
  omega

namespace Sound

theorem eq_of_start_eq {b b' : Block} (h : Sound size s G used) (hb : b ∈ s.blocks)
    (hb' : b' ∈ s.blocks) (he : b.start = b'.start) : b = b' :=
  List.inj_on_of_nodup_map h.starts hb hb' he

theorem blocks_disjoint {b b' : Block} (h : Sound size s G used) (hb : b ∈ s.blocks)
    (hb' : b' ∈ s.blocks) (hne : b ≠ b') : Range.Disjoint ⟨b.start, size⟩ ⟨b'.start, size⟩ :=
  h.wf.disjoint.forall (h.block b hb).region (h.block b' hb').region fun he ↦
    hne (h.eq_of_start_eq hb hb' (congrArg Range.base he))

theorem large_disjoint (h : Sound size s G used) (hb : b ∈ s.blocks) (hg : g ∈ G) :
    Range.Disjoint ⟨b.start, size⟩ g := by
  obtain ⟨hreg, -, hne⟩ := h.larges g hg
  exact h.wf.disjoint.forall (h.block b hb).region hreg fun he ↦
    hne b hb (congrArg Range.base he)

/-- What is in use may be read and written. -/
theorem exists_region (h : Sound size s G used) (hr : r ∈ used) :
    ∃ t ∈ s.heap.regions, r.Within t := by
  rcases h.placed r hr with ⟨b, hb, hhas⟩ | ⟨g, hg, hin⟩
  · exact ⟨_, (h.block b hb).region, hhas.within (h.block b hb)⟩
  · exact ⟨g, (h.larges g hg).1, hin⟩

theorem allows (h : Sound size s G used) (hr : r ∈ used) : s.heap.Allows r := h.exists_region hr

/-- A range in use either has nothing in common with a block or lies below its cursor. -/
theorem disjoint_or_below (h : Sound size s G used) (hb : b ∈ s.blocks) (hr : r ∈ used) :
    r.Disjoint ⟨b.start, size⟩ ∨
      b.start + sizeofPool ≤ r.base ∧ (r.size = 0 ∨ r.base + r.size ≤ b.last) := by
  rcases h.placed r hr with ⟨b', hb', hhas⟩ | ⟨g, hg, hin⟩
  · by_cases he : b = b'
    · subst he
      exact .inr ⟨hhas.1, hhas.2.2⟩
    · exact .inl ((h.blocks_disjoint hb hb' he).symm.within (hhas.within (h.block b' hb')))
  · exact .inl ((h.large_disjoint hb hg).symm.within hin)

theorem perm (h : Sound size s G used) (hp : used.Perm used') : Sound size s G used' :=
  { h with
    apart := (hp.pairwise_iff fun hd ↦ hd.symm).mp h.apart
    placed := fun r hr ↦ h.placed r (hp.mem_iff.mpr hr) }

theorem sublist (h : Sound size s G used) (hs : used'.Sublist used) : Sound size s G used' :=
  { h with
    apart := h.apart.sublist hs
    placed := fun r hr ↦ h.placed r (hs.subset hr) }

/-- Only the contents of the heap have changed, and what does not concern the blocks. -/
theorem of_eq (h : Sound size s G used) (hheap : s'.heap.regions = s.heap.regions)
    (hblocks : s'.blocks = s.blocks) (hmax : s'.max = s.max) (hcur : s'.current = s.current) :
    Sound size s' G used where
  dvd := h.dvd
  le := h.le
  wf := ⟨hheap ▸ h.wf.size_pos, hheap ▸ h.wf.disjoint⟩
  max := hmax.trans h.max
  block := by
    rw [hblocks, hheap]
    exact h.block
  starts := hblocks ▸ h.starts
  current := by
    rw [hblocks, hcur]
    exact h.current
  larges := by
    rw [hblocks, hheap]
    exact h.larges
  apart := h.apart
  placed := by
    rw [hblocks]
    exact h.placed

/-- The cursor of a block is moved. -/
theorem setLast {l : Nat} (h : Sound size s G used) (hs : s.blocks = pre ++ b :: post)
    (hs' : s'.blocks = pre ++ { b with last := l } :: post) (hheap : s'.heap = s.heap)
    (hmax : s'.max = s.max) (hcur : s'.current = s.current) (hlo : b.start + sizeofPool ≤ l)
    (hhi : l ≤ b.end) (hap : used'.Pairwise Range.Disjoint)
    (hp : ∀ r ∈ used', Placed s'.blocks G r) : Sound size s' G used' where
  dvd := h.dvd
  le := h.le
  wf := hheap ▸ h.wf
  max := hmax.trans h.max
  block c hc := by
    rw [hheap]
    rw [hs', List.mem_append, List.mem_cons] at hc
    rcases hc with hc | rfl | hc
    · exact h.block c (by simp [hs, hc])
    · exact { h.block b (by simp [hs]) with last_ge := hlo, last_le := hhi }
    · exact h.block c (by simp [hs, hc])
  starts := by
    have hst := h.starts
    rw [hs] at hst
    rw [hs']
    simpa using hst
  current := by
    have hc := h.current
    rw [hs] at hc
    rw [hs', hcur]
    simpa using hc
  larges g hg := by
    obtain ⟨hreg, hal, hne⟩ := h.larges g hg
    refine ⟨hheap ▸ hreg, hal, fun c hc ↦ ?_⟩
    rw [hs', List.mem_append, List.mem_cons] at hc
    rcases hc with hc | rfl | hc
    · exact hne c (by simp [hs, hc])
    · exact hne b (by simp [hs])
    · exact hne c (by simp [hs, hc])
  apart := hap
  placed := hp

end Sound

/-- The blocks are still in the chain, and no cursor has been moved back. -/
def Grows (blocks blocks' : List Block) : Prop :=
  ∀ b ∈ blocks, ∃ b' ∈ blocks', b'.start = b.start ∧ b'.end = b.end ∧ b.last ≤ b'.last

theorem Grows.refl (blocks : List Block) : Grows blocks blocks :=
  fun b hb ↦ ⟨b, hb, rfl, rfl, Nat.le_refl _⟩

theorem Grows.trans {blocks' blocks'' : List Block} (h : Grows blocks blocks')
    (h' : Grows blocks' blocks'') : Grows blocks blocks'' := by
  intro b hb
  obtain ⟨b', hb', hstart, hend, hlast⟩ := h b hb
  obtain ⟨b'', hb'', hstart', hend', hlast'⟩ := h' b' hb'
  exact ⟨b'', hb'', hstart'.trans hstart, hend'.trans hend, Nat.le_trans hlast hlast'⟩

theorem grows_of_erase {blocks' : List Block}
    (he : blocks'.map Block.erase = blocks.map Block.erase) : Grows blocks blocks' := by
  intro b hb
  obtain ⟨b', hb', heq⟩ := exists_of_erase he.symm hb
  obtain ⟨hstart, hlast, hend⟩ := erase_eq_iff.mp heq
  exact ⟨b', hb', hstart.symm, hend.symm, Nat.le_of_eq hlast⟩

theorem grows_append (blocks post : List Block) : Grows blocks (blocks ++ post) := fun b hb ↦
  ⟨b, List.mem_append_left _ hb, rfl, rfl, Nat.le_refl _⟩

theorem Grows.has {blocks' : List Block} (h : Grows blocks blocks') (hr : ∃ b ∈ blocks, b.Has r) :
    ∃ b ∈ blocks', b.Has r := by
  obtain ⟨b, hmem, hhas⟩ := hr
  obtain ⟨b', hmem', hstart, hend, hlast⟩ := h b hmem
  refine ⟨b', hmem', ?_⟩
  unfold Block.Has at *
  omega

theorem Placed.mono {blocks' : List Block} (h : Placed blocks G r) (hb : Grows blocks blocks')
    (hG : ∀ g ∈ G, g ∈ G') : Placed blocks' G' r := by
  rcases h with hhas | ⟨g, hg, hin⟩
  · exact .inl (hb.has hhas)
  · exact .inr ⟨g, hG g hg, hin⟩

/-- What a request for `n` bytes from the blocks achieves. -/
structure Served (size : Nat) (s : State) (G used : List Range) (n : Nat) (align : Bool) (s' : State)
    (o : Option Nat) : Prop where
  /-- The bytes that are handed out are in use, and nothing else. -/
  sound : Sound size s' G (o.toList.map (⟨·, n⟩) ++ used)
  /-- They are aligned. -/
  aligned : align = true → ∀ m ∈ o, 8 ∣ m
  /-- What was in use keeps its contents. -/
  agree : ∀ r ∈ used, Memory.Agree r s.heap.mem s'.heap.mem
  /-- The list of large blocks is the same. -/
  large : s'.large = s.large
  /-- The list of cleanups is the same. -/
  cleanup : s'.cleanup = s.cleanup
  /-- The pool is where it was. -/
  address : s'.address = s.address
  /-- Without memory nothing happens. -/
  same : o = none → s' = s
  /-- What lies in the blocks is still there. -/
  grows : Grows s.blocks s'.blocks
  /-- The bytes that are handed out lie in a block. -/
  has : ∀ m ∈ o, ∃ b ∈ s'.blocks, b.Has ⟨m, n⟩

theorem Served.refused (h : Sound size s G used) : Served size s G used n align s none where
  sound := h
  aligned _ _ hm := nomatch hm
  agree r _ := .refl r _
  large := rfl
  cleanup := rfl
  address := rfl
  same _ := rfl
  grows := .refl _
  has _ hm := nomatch hm

/-- Counting failures first changes nothing else. -/
theorem Served.after_recount (he : blocks.map Block.erase = s.blocks.map Block.erase)
    (h : Served size { s with blocks, current := c } G used n align s' (some m)) :
    Served size s G used n align s' (some m) where
  sound := h.sound
  aligned := h.aligned
  agree := h.agree
  large := h.large
  cleanup := h.cleanup
  address := by
    rw [h.address, State.address, State.address, ← List.head?_map, ← List.head?_map]
    exact congrArg List.head? (starts_of_erase he)
  same := by rintro ⟨⟩
  grows := (grows_of_erase he).trans h.grows
  has := h.has

/-! ## A new block -/

theorem within_newBlock {p : Nat} (hle : sizeofPool + sizeofLarge ≤ size)
    (hn : n ≤ size - sizeofPool) : Range.Within ⟨p + sizeofPool, n⟩ ⟨p, size⟩ := by
  refine ⟨Nat.le_add_right _ _, ?_⟩
  unfold sizeofPool sizeofLarge at *
  change p + 72 + n ≤ p + size
  omega

theorem has_newBlock {p : Nat} (hle : sizeofPool + sizeofLarge ≤ size)
    (hn : n ≤ size - sizeofPool) :
    Block.Has ⟨p, p + sizeofPool + n, p + size, 0⟩ ⟨p + sizeofPool, n⟩ :=
  ⟨Nat.le_refl _, (within_newBlock hle hn).2, .inr (Nat.le_refl _)⟩

theorem base_ne_of_disjoint {r r' : Range} (hr : 0 < r.size) (hr' : 0 < r'.size)
    (hd : r'.Disjoint r) : r.base ≠ r'.base := by
  unfold Range.Disjoint at hd
  omega

namespace Sound

theorem exists_cons (h : Sound size s G used) : ∃ pool rest, s.blocks = pool :: rest :=
  List.exists_cons_of_length_pos (Nat.lt_of_le_of_lt (Nat.zero_le _) h.current)

/-- Memory that is not allocated is not in use. -/
theorem disjoint_fresh (h : Sound size s G used) (hf : ∀ t ∈ s.heap.regions, Range.Disjoint g t) :
    ∀ r ∈ used, r.Disjoint g := fun r hr ↦ by
  obtain ⟨t, ht, hin⟩ := h.exists_region hr
  exact (hf t ht).symm.within hin

/-- A block with enough room serves a request. -/
theorem served (h : Sound size s G used) (hs : s.blocks = pre ++ b :: post)
    (hfit : n ≤ subSize b.end (b.slot align)) :
    Served size s G used n align
      { s with blocks := pre ++ { b with last := b.slot align + n } :: post }
      (some (b.slot align)) := by
  have hmem : b ∈ s.blocks := by simp [hs]
  have hb := h.block b hmem
  have hlo := b.le_slot align
  have hhi := hb.slot_le h.dvd align
  have hlt := hb.lt
  have hge := hb.last_ge
  have hend := hb.end_eq
  rw [subSize_eq hhi (by omega)] at hfit
  unfold sizeofPool at hge
  have hgrows : Grows s.blocks (pre ++ { b with last := b.slot align + n } :: post) := by
    intro c hc
    rw [hs, List.mem_append, List.mem_cons] at hc
    rcases hc with hc | rfl | hc
    · exact ⟨c, by simp [hc], rfl, rfl, Nat.le_refl _⟩
    · exact ⟨_, List.mem_append_right _ List.mem_cons_self, rfl, rfl,
        Nat.le_trans hlo (Nat.le_add_right _ _)⟩
    · exact ⟨c, by simp [hc], rfl, rfl, Nat.le_refl _⟩
  have hhas : Block.Has { b with last := b.slot align + n } ⟨b.slot align, n⟩ := by
    refine ⟨?_, ?_, .inr (Nat.le_refl _)⟩
    · change b.start + sizeofPool ≤ b.slot align
      unfold sizeofPool
      omega
    · change b.slot align + n ≤ b.end
      omega
  refine ⟨?_, fun ha m hm ↦ ?_, fun r _ ↦ .refl r _, rfl, rfl, ?_, nofun, hgrows, fun m hm ↦ ?_⟩
  · refine h.setLast hs rfl rfl rfl rfl (by unfold sizeofPool; omega) (by omega) ?_ fun r hr ↦ ?_
    · refine List.pairwise_cons.mpr ⟨fun r hr ↦ ?_, h.apart⟩
      rcases h.disjoint_or_below hmem hr with hd | ⟨-, hbelow⟩
      · refine (hd.symm.within ⟨?_, ?_⟩)
        · change b.start ≤ b.slot align
          omega
        · change b.slot align + n ≤ b.start + size
          omega
      · unfold Range.Disjoint
        change n = 0 ∨ r.size = 0 ∨ b.slot align + n ≤ r.base ∨ r.base + r.size ≤ b.slot align
        omega
    · rcases List.mem_cons.mp hr with rfl | hr
      · exact .inl ⟨_, List.mem_append_right _ List.mem_cons_self, hhas⟩
      · exact (h.placed r hr).mono hgrows fun g hg ↦ hg
  · obtain rfl := Option.some.inj hm
    rw [ha]
    exact b.dvd_slot
  · unfold State.address
    rw [hs]
    cases pre <;> rfl
  · obtain rfl := Option.some.inj hm
    exact ⟨_, List.mem_append_right _ List.mem_cons_self, hhas⟩

/-- Counting failures changes nothing else. -/
theorem recount (h : Sound size s G used) (he : blocks.map Block.erase = s.blocks.map Block.erase)
    (hc : c < s.blocks.length) : Sound size { s with blocks, current := c } G used where
  dvd := h.dvd
  le := h.le
  wf := h.wf
  max := h.max
  block b' hb' := by
    obtain ⟨b, hb, heq⟩ := exists_of_erase he hb'
    exact (h.block b hb).of_erase heq.symm fun r hr ↦ hr
  starts := by
    rw [starts_of_erase he]
    exact h.starts
  current := by
    rw [length_of_erase he]
    exact hc
  larges g hg := by
    obtain ⟨hreg, hal, hne⟩ := h.larges g hg
    refine ⟨hreg, hal, fun b' hb' ↦ ?_⟩
    obtain ⟨b, hb, heq⟩ := exists_of_erase he hb'
    exact (erase_eq_iff.mp heq).1 ▸ hne b hb
  apart := h.apart
  placed r hr := (h.placed r hr).mono (grows_of_erase he) fun _ hg ↦ hg

/-- A new block at the end of the chain, with `n` bytes handed out behind its header. -/
theorem append {p : Nat} (h : Sound size s G used) (ha : alloc.Sound)
    (hp : alloc s.heap size = some p) (hn : n ≤ size - sizeofPool) :
    Sound size { s with
        heap := ⟨s.heap.mem.clear ⟨p, size⟩, ⟨p, size⟩ :: s.heap.regions⟩
        blocks := s.blocks ++ [⟨p, p + sizeofPool + n, p + size, 0⟩] } G
      (⟨p + sizeofPool, n⟩ :: used) := by
  have hle := h.le
  unfold sizeofPool sizeofLarge at hle
  have hsize : 0 < size := by omega
  have hfresh := ha.fresh hp
  have hdis := h.disjoint_fresh hfresh
  have hroom := within_newBlock (p := p) h.le hn
  refine ⟨h.dvd, h.le, h.wf.cons ha hp hsize _, h.max, fun b hb ↦ ?_, ?_, ?_, fun g hg ↦ ?_, ?_,
    fun r hr ↦ ?_⟩
  · rcases List.mem_append.mp hb with hb | hb
    · exact (h.block b hb).of_erase rfl fun r hr ↦ List.mem_cons_of_mem _ hr
    · obtain rfl := List.mem_singleton.mp hb
      exact ⟨rfl, ha.aligned hp, ha.lt hp, Nat.le_add_right _ _, hroom.2, List.mem_cons_self⟩
  · change ((s.blocks ++ [_]).map Block.start).Nodup
    rw [List.map_append, List.nodup_append]
    refine ⟨h.starts, List.nodup_singleton _, fun a ha' c hc ↦ ?_⟩
    obtain ⟨b, hb, rfl⟩ := List.mem_map.mp ha'
    obtain rfl : c = p := List.mem_singleton.mp hc
    exact base_ne_of_disjoint hsize hsize (hfresh _ (h.block b hb).region)
  · change s.current < (s.blocks ++ [_]).length
    rw [List.length_append]
    exact Nat.lt_add_right _ h.current
  · obtain ⟨hreg, hal, hne⟩ := h.larges g hg
    refine ⟨List.mem_cons_of_mem _ hreg, hal, fun b hb ↦ ?_⟩
    rcases List.mem_append.mp hb with hb | hb
    · exact hne b hb
    · obtain rfl := List.mem_singleton.mp hb
      exact (base_ne_of_disjoint (h.wf.size_pos g hreg) hsize (hfresh g hreg)).symm
  · exact List.pairwise_cons.mpr ⟨fun r hr ↦ (hdis r hr).symm.within hroom, h.apart⟩
  · rcases List.mem_cons.mp hr with rfl | hr
    · exact .inl ⟨_, List.mem_append_right _ List.mem_cons_self, has_newBlock h.le hn⟩
    · exact (h.placed r hr).mono (grows_append _ _) fun g hg ↦ hg

/-- A new block serves a request of at most what it has room for. -/
theorem served_append {p : Nat} (h : Sound size s G used) (ha : alloc.Sound)
    (hp : alloc s.heap size = some p) (hn : n ≤ size - sizeofPool) :
    Served size s G used n true { s with
        heap := ⟨s.heap.mem.clear ⟨p, size⟩, ⟨p, size⟩ :: s.heap.regions⟩
        blocks := s.blocks ++ [⟨p, p + sizeofPool + n, p + size, 0⟩] }
      (some (p + sizeofPool)) where
  sound := h.append ha hp hn
  aligned _ m hm := by
    obtain rfl := Option.some.inj hm
    have hdvd := ha.aligned hp
    unfold sizeofPool
    omega
  agree r hr := Memory.agree_clear _ (h.disjoint_fresh (ha.fresh hp) r hr)
  large := rfl
  cleanup := rfl
  address := by
    obtain ⟨pool, rest, hs⟩ := h.exists_cons
    simp [State.address, hs]
  same := by rintro ⟨⟩
  grows := grows_append _ _
  has m hm := by
    obtain rfl := Option.some.inj hm
    exact ⟨_, List.mem_append_right _ List.mem_cons_self, has_newBlock h.le hn⟩

/-- A new block serves a request that none of the others has room for. -/
theorem pallocBlock (h : Sound size s G used) (ha : alloc.Sound) (hn : n ≤ size - sizeofPool) :
    ∃ s' o, Pool.pallocBlock alloc s n = .ok (s', o) ∧ Served size s G used n true s' o := by
  obtain ⟨pool, rest, hs⟩ := h.exists_cons
  have hpool := h.block pool (by simp [hs])
  have hpsize : subSize pool.end pool.start = size := by
    have hlt := hpool.lt
    have hend := hpool.end_eq
    rw [subSize_eq (by omega) (by omega)]
    omega
  unfold Pool.pallocBlock
  simp only [hs, hpsize]
  rw [← hs]
  cases hp : alloc s.heap size with
  | none =>
    simp only [Arena.malloc, hp]
    exact ⟨s, none, rfl, .refused h⟩
  | some p =>
    have hdvd := ha.aligned hp
    have hle := h.le
    have hallow : Arena.Allows ⟨s.heap.mem.clear ⟨p, size⟩, ⟨p, size⟩ :: s.heap.regions⟩
        ⟨p, sizeofPool⟩ := by
      refine ⟨_, List.mem_cons_self, Nat.le_refl _, ?_⟩
      unfold sizeofPool sizeofLarge at *
      change p + 72 ≤ p + size
      omega
    have halign : alignPtr (p + sizeofPool) = p + sizeofPool := by
      refine alignPtr_eq ?_
      unfold sizeofPool
      omega
    simp only [Arena.malloc, hp, if_pos hallow, halign]
    have hcur : (countFailed s.current s.current (s.blocks.drop s.current)).2 < s.blocks.length := by
      have hc := h.current
      have hcount := countFailed_current s.current s.current (s.blocks.drop s.current)
      rw [List.length_drop] at hcount
      omega
    exact ⟨_, _, rfl, ((h.recount (map_erase_blocks s) hcur).served_append ha hp hn).after_recount
      (map_erase_blocks s)⟩

/-- A request of at most what an empty block has room for is served from the blocks. -/
theorem pallocSmall (h : Sound size s G used) (ha : alloc.Sound) (hn : n ≤ size - sizeofPool)
    (align : Bool) :
    ∃ s' o, Pool.pallocSmall alloc s n align = .ok (s', o) ∧ Served size s G used n align s' o := by
  unfold Pool.pallocSmall
  cases hserve : serve n align (s.blocks.drop s.current) with
  | none =>
    obtain ⟨s', o, hrun, hserved⟩ := h.pallocBlock ha hn
    exact ⟨s', o, hrun, { hserved with aligned := fun _ ↦ hserved.aligned rfl }⟩
  | some q =>
    obtain ⟨blocks', m⟩ := q
    obtain ⟨pre, b, post, hdrop, rfl, hfit, rfl⟩ := serve_eq_some hserve
    have hs : s.blocks = (s.blocks.take s.current ++ pre) ++ b :: post := by
      rw [List.append_assoc, ← hdrop, List.take_append_drop]
    have hserved := h.served hs hfit
    rw [List.append_assoc] at hserved
    exact ⟨_, _, rfl, hserved⟩

end Sound

end Dlbase.Pool
