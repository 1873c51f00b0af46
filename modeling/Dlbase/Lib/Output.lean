import Mathlib

/-!
# Output that is cut off

Items are written to memory one after another.  Output to a limit writes what fits below the limit
and leaves out the rest; whether it is written in one go or in several makes no difference.
-/

namespace Cmem

variable {β : Type _}

/-- A memory and the address to which the next item is written. -/
structure Output (β : Type _) where
  /-- The memory. -/
  mem : Nat → β
  /-- Where the next item goes. -/
  pos : Nat

namespace Output

variable {o : Output β} {last x : Nat} {u w : List β} {c : β}

/-- `*buf++ = c`. -/
def put (o : Output β) (c : β) : Output β := ⟨Function.update o.mem o.pos c, o.pos + 1⟩

/-- The output after all of `w` has been written. -/
def write (o : Output β) (w : List β) : Output β := w.foldl put o

/-- The output after `w` has been written as far as it fits below `last`. -/
def emit (o : Output β) (last : Nat) (w : List β) : Output β := o.write (w.take (last - o.pos))

@[simp] theorem write_nil (o : Output β) : o.write [] = o := rfl

@[simp] theorem write_cons (o : Output β) (c : β) (w : List β) :
    o.write (c :: w) = (o.put c).write w := rfl

theorem write_append (o : Output β) (u w : List β) : o.write (u ++ w) = (o.write u).write w :=
  List.foldl_append

@[simp] theorem pos_put (o : Output β) (c : β) : (o.put c).pos = o.pos + 1 := rfl

@[simp] theorem pos_write (o : Output β) (w : List β) : (o.write w).pos = o.pos + w.length := by
  induction w generalizing o with
  | nil => rfl
  | cons c w ih =>
    rw [write_cons, ih, pos_put, List.length_cons]
    omega

/-- Memory in front of the output is unchanged. -/
theorem mem_write_of_lt (hx : x < o.pos) : (o.write w).mem x = o.mem x := by
  induction w generalizing o with
  | nil => rfl
  | cons c w ih =>
    rw [write_cons, ih (Nat.lt_succ_of_lt hx)]
    exact Function.update_of_ne (Nat.ne_of_lt hx) _ _

/-- Memory behind the output is unchanged. -/
theorem mem_write_of_le (hx : o.pos + w.length ≤ x) : (o.write w).mem x = o.mem x := by
  induction w generalizing o with
  | nil => rfl
  | cons c w ih =>
    rw [List.length_cons] at hx
    rw [write_cons, ih (by rw [pos_put]; omega)]
    exact Function.update_of_ne (by omega) _ _

/-- Memory that is not written to is unchanged. -/
theorem mem_write_of_ne (hx : ∀ i < w.length, o.pos + i ≠ x) : (o.write w).mem x = o.mem x := by
  rcases Nat.lt_or_ge x o.pos with hlt | hle
  · exact mem_write_of_lt hlt
  · refine mem_write_of_le (Nat.le_of_not_lt fun hlt ↦ ?_)
    exact hx (x - o.pos) (by omega) (by omega)

/-- What has been written is in memory. -/
theorem mem_write {i : Nat} (hi : i < w.length) : (o.write w).mem (o.pos + i) = w[i] := by
  induction w generalizing o i with
  | nil => exact absurd hi (Nat.not_lt_zero i)
  | cons c w ih =>
    cases i with
    | zero =>
      rw [write_cons, mem_write_of_lt (Nat.lt_succ_self _)]
      exact Function.update_self _ _ _
    | succ i =>
      have hi' : i < w.length := Nat.lt_of_succ_lt_succ hi
      have hpos : o.pos + (i + 1) = (o.put c).pos + i := by
        rw [pos_put]
        omega
      rw [write_cons, hpos, ih hi']
      rfl

/-- The `n` items of a memory from `pos` on. -/
def itemsAt (mem : Nat → β) (pos n : Nat) : List β := (List.range n).map fun i ↦ mem (pos + i)

theorem length_itemsAt (mem : Nat → β) (pos n : Nat) : (itemsAt mem pos n).length = n := by
  rw [itemsAt, List.length_map, List.length_range]

theorem getElem_itemsAt {mem : Nat → β} {pos n i : Nat} (h : i < (itemsAt mem pos n).length) :
    (itemsAt mem pos n)[i] = mem (pos + i) := by
  simp only [itemsAt, List.getElem_map, List.getElem_range]

/-- What has been written is read back. -/
theorem itemsAt_write (o : Output β) (w : List β) : itemsAt (o.write w).mem o.pos w.length = w := by
  refine List.ext_getElem (length_itemsAt _ _ _) fun i _ hi ↦ ?_
  rw [getElem_itemsAt]
  exact mem_write hi

/-! ## Output to a limit -/

@[simp] theorem emit_nil (o : Output β) (last : Nat) : o.emit last [] = o := by
  rw [emit, List.take_nil, write_nil]

theorem pos_emit (o : Output β) (last : Nat) (w : List β) :
    (o.emit last w).pos = o.pos + min (last - o.pos) w.length := by
  rw [emit, pos_write, List.length_take]

theorem pos_emit_le (h : o.pos ≤ last) : (o.emit last w).pos ≤ last := by
  rw [pos_emit]
  omega

theorem pos_emit_le_add : (o.emit last w).pos ≤ o.pos + w.length := by
  rw [pos_emit]
  omega

/-- There is no room. -/
theorem emit_of_ge (h : last ≤ o.pos) : o.emit last w = o := by
  rw [emit, Nat.sub_eq_zero_of_le h, List.take_zero, write_nil]

/-- There is room for everything. -/
theorem emit_of_le (h : o.pos + w.length ≤ last) : o.emit last w = o.write w := by
  rw [emit, List.take_of_length_le (by omega)]

/-- There is room for one item. -/
theorem emit_singleton (h : o.pos < last) : o.emit last [c] = o.put c :=
  emit_of_le h

/-- Two outputs are one. -/
theorem emit_append (o : Output β) (last : Nat) (u w : List β) :
    o.emit last (u ++ w) = (o.emit last u).emit last w := by
  unfold emit
  rw [List.take_append, write_append, pos_write, List.length_take]
  congr 2
  omega

theorem emit_cons (h : o.pos < last) : o.emit last (c :: w) = (o.put c).emit last w := by
  rw [← List.singleton_append, emit_append, emit_singleton h]

/-! ## Output that stays behind the input -/

/-- What is written from `pos` on does not reach what is still to be read of the `n` items from
`base` on, as long as no more items are written than have been read. -/
def Behind (pos base n : Nat) : Prop := ∀ i j, i < j → j < n → pos + i ≠ base + j

variable {pos base n k : Nat}

/-- The output starts where the input does. -/
theorem behind_self (base n : Nat) : Behind base base n := fun _ _ hij _ ↦ by omega

/-- The output is somewhere else. -/
theorem behind_of_disjoint (h : pos + n ≤ base ∨ base + n ≤ pos) : Behind pos base n :=
  fun _ _ hij hj ↦ by omega

/-- As many items are read as are written, or more. -/
theorem Behind.advance {i : Nat} (h : Behind pos base n) (hik : i ≤ k) (hkn : k ≤ n) :
    Behind (pos + i) (base + k) (n - k) := fun i' j' hij hj ↦ by
  have hne := h (i + i') (k + j') (by omega) (by omega)
  omega

/-- What is still to be read is unchanged. -/
theorem Behind.mem_write (h : Behind o.pos base n) {j : Nat} (hj : w.length ≤ j) (hn : j < n) :
    (o.write w).mem (base + j) = o.mem (base + j) :=
  mem_write_of_ne fun i hi ↦ h i j (Nat.lt_of_lt_of_le hi hj) hn

end Output

end Cmem
