import Dlbase.Fifo.Queue

/-!
# The ring buffer between two threads

One producer calls `dl_fifo_in` and one consumer calls `dl_fifo_out`, without a lock, on
sequentially consistent memory.  Each call is split into steps: the length is fixed from the two
counters, the bytes are copied one by one and in any order, and the call's own counter is
published.  The steps of the two threads interleave in any way.

Either thread knows the other one's counter only from when it fixed its length.  That is enough:
the counter has moved on since, which can only have made more room or more elements.
-/

namespace Dlbase.Fifo

open Cmem

/-- Where the copy of `len` elements from the slot of `off` on puts or finds its byte `i`. -/
def place (f : DlFifo) (len off : UInt32) (i : Nat) : Nat :=
  let start := scale f (off &&& f.mask)
  let l := dlMin (scale f len) (scale f (f.mask + 1) - start)
  if i < l.toNat then start.toNat + i else i - l.toNat

/-- What the producer is doing. -/
inductive Producer where
  /-- It is not in a call. -/
  | idle
  /-- It copies the first `len` elements of `buf`, and `done` are the bytes it has copied. -/
  | filling (buf : List UInt8) (len off : UInt32) (done : List Nat)

/-- What the consumer is doing. -/
inductive Consumer where
  /-- It is not in a call. -/
  | idle
  /-- It copies `len` elements to `buf`, and `done` are the bytes it has copied. -/
  | draining (buf : List UInt8) (len off : UInt32) (done : List Nat)

/-- The buffer, the two threads and what has been published on both sides. -/
structure State where
  /-- The buffer. -/
  fifo : DlFifo
  /-- The producer. -/
  producer : Producer
  /-- The consumer. -/
  consumer : Consumer
  /-- The bytes of the elements produced. -/
  produced : List UInt8
  /-- The bytes of the elements consumed. -/
  consumed : List UInt8

/-- The number of bytes of `len` elements. -/
def bytes (f : DlFifo) (len : UInt32) : Nat := len.toNat * f.esize.toNat

/-- The length on which `dl_fifo_in` settles. -/
def inLen (f : DlFifo) (len : UInt32) : UInt32 :=
  if len > (unused f).toUInt32 then (unused f).toUInt32 else len

/-- The length on which `dl_fifo_out` settles. -/
def outLen (f : DlFifo) (len : UInt32) : UInt32 := if len > f.in - f.out then f.in - f.out else len

/-- One step of one of the threads. -/
inductive Step : State → State → Prop where
  /-- `dl_fifo_in` reads the counters; the caller's buffer has the elements. -/
  | enterIn {f : DlFifo} {c : Consumer} {A R buf : List UInt8} {len : UInt32} :
      bytes f (inLen f len) ≤ buf.length →
      Step ⟨f, .idle, c, A, R⟩ ⟨f, .filling buf (inLen f len) f.in [], c, A, R⟩
  /-- `dl_fifo_in` copies a byte. -/
  | store {f : DlFifo} {c : Consumer} {A R buf : List UInt8} {len off : UInt32} {done : List Nat}
      {i : Nat} {b : UInt8} :
      i < bytes f len → buf[i]? = some b →
      Step ⟨f, .filling buf len off done, c, A, R⟩
        ⟨{ f with data := f.data.set (place f len off i) b }, .filling buf len off (i :: done), c,
          A, R⟩
  /-- `dl_fifo_in` publishes its counter. -/
  | publish {f : DlFifo} {c : Consumer} {A R buf : List UInt8} {len off : UInt32} {done : List Nat} :
      (∀ i < bytes f len, i ∈ done) →
      Step ⟨f, .filling buf len off done, c, A, R⟩
        ⟨{ f with «in» := f.in + len }, .idle, c, A ++ buf.take (bytes f len), R⟩
  /-- `dl_fifo_out` reads the counters; the caller's buffer has room for the elements. -/
  | enterOut {f : DlFifo} {p : Producer} {A R buf : List UInt8} {len : UInt32} :
      bytes f (outLen f len) ≤ buf.length →
      Step ⟨f, p, .idle, A, R⟩ ⟨f, p, .draining buf (outLen f len) f.out [], A, R⟩
  /-- `dl_fifo_out` copies a byte. -/
  | load {f : DlFifo} {p : Producer} {A R buf : List UInt8} {len off : UInt32} {done : List Nat}
      {i : Nat} {b : UInt8} :
      i < bytes f len → f.data[place f len off i]? = some b →
      Step ⟨f, p, .draining buf len off done, A, R⟩
        ⟨f, p, .draining (buf.set i b) len off (i :: done), A, R⟩
  /-- `dl_fifo_out` publishes its counter. -/
  | release {f : DlFifo} {p : Producer} {A R buf : List UInt8} {len off : UInt32} {done : List Nat} :
      (∀ i < bytes f len, i ∈ done) →
      Step ⟨f, p, .draining buf len off done, A, R⟩
        ⟨{ f with out := f.out + len }, p, .idle, A, R ++ buf.take (bytes f len)⟩

/-- The states reached from an unused buffer. -/
inductive Reached (f₀ : DlFifo) : State → Prop where
  /-- Both threads are about to start. -/
  | init : Reached f₀ ⟨f₀, .idle, .idle, [], []⟩
  /-- One more step. -/
  | step {s s' : State} : Reached f₀ s → Step s s' → Reached f₀ s'

/-- The position `p` belongs to a slot that is published and not yet released. -/
def Held (f : DlFifo) (p : Nat) : Prop :=
  ∃ j < (f.in - f.out).toNat, ∃ b < f.esize.toNat,
    p = ((f.out + UInt32.ofNat j) &&& f.mask).toNat * f.esize.toNat + b

variable {f : DlFifo} {k a r i p : Nat} {len off : UInt32} {A R buf : List UInt8} {s s' : State}

/-! ## Positions -/

theorem Sized.place_eq (h : Sized f k) (hlen : len.toNat ≤ 2 ^ k) (hi : i < bytes f len) :
    place f len off i = (off.toNat % 2 ^ k * f.esize.toNat + i) % f.data.length := by
  have hs : Spans f k len off := h.exact.spans hlen
  have hle := hs.start_le
  have hle' := hs.bytes_le
  unfold bytes at hi
  simp only [place, hs.toNat_min, hs.start]
  generalize off.toNat % 2 ^ k * f.esize.toNat = o at *
  split_ifs with hlt
  · rw [Nat.mod_eq_of_lt (by omega)]
  · rw [Nat.mod_eq_sub_mod (by omega), Nat.mod_eq_of_lt (by omega)]
    omega

theorem mul_add_mod_mul {x n e b : Nat} (hb : b < e) :
    (x * e + b) % (n * e) = x % n * e + b := by
  rcases Nat.eq_zero_or_pos n with rfl | hn
  · simp
  · have hlt : x % n * e + b < n * e := by
      have hle : (x % n + 1) * e ≤ n * e := Nat.mul_le_mul_right e (Nat.mod_lt x hn)
      rw [Nat.add_mul, Nat.one_mul] at hle
      omega
    have hx : x * e + b = (x % n * e + b) + x / n * (n * e) := by
      conv_lhs => rw [← Nat.mod_add_div x n]
      ring
    rw [hx, Nat.add_mul_mod_self_right, Nat.mod_eq_of_lt hlt]

/-- The positions held are those of the bytes between the two counters. -/
theorem Holds.held_iff (h : Holds k f A R a r) :
    Held f p ↔ ∃ q, r * f.esize.toNat ≤ q ∧ q < a * f.esize.toNat ∧ p = q % f.data.length := by
  have hle := h.le
  have hroom := h.room
  have hk := two_pow_le h.sized.le
  have hslot : ∀ j < a - r, ∀ b < f.esize.toNat,
      ((f.out + UInt32.ofNat j) &&& f.mask).toNat * f.esize.toNat + b =
        ((r + j) * f.esize.toNat + b) % f.data.length := by
    intro j hj b hb
    have hj' : (UInt32.ofNat j).toNat = j := UInt32.toNat_ofNat_of_lt (show j < 2 ^ 32 by omega)
    have hc : (f.out + UInt32.ofNat j).toNat = (r + j) % 2 ^ 32 := by
      rw [UInt32.toNat_add, hj', h.out_eq]
      omega
    have hdvd : 2 ^ k ∣ 2 ^ 32 := Nat.pow_dvd_pow 2 (by have := h.sized.le; omega)
    rw [h.sized.exact.toNat_and_mask, hc, Nat.mod_mod_of_dvd _ hdvd, h.sized.length, mul_add_mod_mul hb]
  unfold Held
  rw [h.toNat_stored]
  constructor
  · rintro ⟨j, hj, b, hb, rfl⟩
    refine ⟨(r + j) * f.esize.toNat + b, ?_, ?_, hslot j hj b hb⟩
    · rw [Nat.add_mul]
      omega
    · have hle : (r + j + 1) * f.esize.toNat ≤ a * f.esize.toNat := Nat.mul_le_mul_right _ (by omega)
      rw [Nat.add_mul _ 1, Nat.one_mul] at hle
      omega
  · rintro ⟨q, hr, ha, rfl⟩
    have he : 0 < f.esize.toNat := by
      rcases Nat.eq_zero_or_pos f.esize.toNat with h0 | h0
      · rw [h0] at ha
        omega
      · exact h0
    have hdiv : r ≤ q / f.esize.toNat := (Nat.le_div_iff_mul_le he).mpr hr
    have hdiv' : q / f.esize.toNat < a := (Nat.div_lt_iff_lt_mul he).mpr ha
    refine ⟨q / f.esize.toNat - r, by omega, q % f.esize.toNat, Nat.mod_lt _ he, ?_⟩
    rw [hslot _ (by omega) _ (Nat.mod_lt _ he), Nat.add_sub_cancel' hdiv, Nat.mul_comm,
      Nat.div_add_mod]

/-! ## The invariant -/

/-- The bytes a producer has copied are in place behind the published ones. -/
def Filling (k : Nat) (f : DlFifo) (a r : Nat) : Producer → Prop
  | .idle => True
  | .filling buf len off done => off = f.in ∧ a + len.toNat ≤ r + 2 ^ k ∧
      bytes f len ≤ buf.length ∧ ∀ i ∈ done, i < bytes f len →
        f.data[(a * f.esize.toNat + i) % f.data.length]? = buf[i]?

/-- The bytes a consumer has copied are the next ones of the sequence. -/
def Draining (f : DlFifo) (A : List UInt8) (a r : Nat) : Consumer → Prop
  | .idle => True
  | .draining buf len off done => off = f.out ∧ r + len.toNat ≤ a ∧ bytes f len ≤ buf.length ∧
      ∀ i ∈ done, i < bytes f len → buf[i]? = A[r * f.esize.toNat + i]?

/-- What holds between any two steps. -/
structure Inv (k : Nat) (f₀ : DlFifo) (s : State) : Prop where
  /-- The published elements are a queue, and the threads copy from and to its ends. -/
  holds : ∃ a r, Holds k s.fifo s.produced s.consumed a r ∧ Filling k s.fifo a r s.producer ∧
    Draining s.fifo s.produced a r s.consumer
  /-- The size of the elements does not change. -/
  esize : s.fifo.esize = f₀.esize
  /-- Neither does the number of slots. -/
  mask : s.fifo.mask = f₀.mask

theorem toNat_inLen (h : Holds k f A R a r) :
    (inLen f len).toNat = min len.toNat (2 ^ k - (a - r)) := by
  rw [inLen, toNat_clamp, h.toNat_unused]

theorem toNat_outLen (h : Holds k f A R a r) : (outLen f len).toNat = min len.toNat (a - r) := by
  rw [outLen, toNat_clamp, h.toNat_stored]

/-- Where the producer writes. -/
theorem Holds.place_in (h : Holds k f A R a r) (hlen : a + len.toNat ≤ r + 2 ^ k)
    (hi : i < bytes f len) :
    place f len f.in i = (a * f.esize.toNat + i) % f.data.length := by
  have hle := h.le
  rw [h.sized.place_eq (by omega) hi, h.sized.slot h.in_eq, Nat.mod_add_mod]

/-- Where the consumer reads. -/
theorem Holds.place_out (h : Holds k f A R a r) (hlen : r + len.toNat ≤ a) (hi : i < bytes f len) :
    place f len f.out i = (r * f.esize.toNat + i) % f.data.length := by
  have hroom := h.room
  rw [h.sized.place_eq (by omega) hi, h.sized.slot h.out_eq, Nat.mod_add_mod]

/-- Bytes to be written lie less than the size of the ring behind the first byte held. -/
theorem Holds.fill_lt (h : Holds k f A R a r) (hlen : a + len.toNat ≤ r + 2 ^ k)
    (hi : i < bytes f len) : a * f.esize.toNat + i < r * f.esize.toNat + f.data.length := by
  have hle : (a + len.toNat) * f.esize.toNat ≤ (r + 2 ^ k) * f.esize.toNat :=
    Nat.mul_le_mul_right _ hlen
  rw [Nat.add_mul, Nat.add_mul, ← h.sized.length] at hle
  unfold bytes at hi
  omega

/-- Writing one byte behind the published ones. -/
theorem Holds.store {b : UInt8} (h : Holds k f A R a r) (hlen : a + len.toNat ≤ r + 2 ^ k)
    (hi : i < bytes f len) :
    Holds k { f with data := f.data.set ((a * f.esize.toNat + i) % f.data.length) b } A R a r :=
  { h with
    sized := { h.sized with length := (List.length_set ..).trans h.sized.length }
    ring := by
      intro q hlo hq
      have hlt := h.fill_lt hlen hi
      change r * f.esize.toNat ≤ q at hlo
      change (f.data.set _ b)[q % (f.data.set _ b).length]? = _
      rw [List.length_set, List.getElem?_set_ne, h.ring q hlo hq]
      rw [h.length] at hq
      exact (mod_ne (by omega) (by omega)).symm }

theorem Holds.drain_lt (h : Holds k f A R a r) (hlen : r + len.toNat ≤ a) (hi : i < bytes f len) :
    r * f.esize.toNat + i < A.length := by
  have hle : (r + len.toNat) * f.esize.toNat ≤ a * f.esize.toNat := Nat.mul_le_mul_right _ hlen
  rw [h.length]
  rw [Nat.add_mul] at hle
  unfold bytes at hi
  omega

/-- Publishing elements that are in place. -/
theorem Holds.publish (h : Holds k f A R a r) (hlen : a + len.toNat ≤ r + 2 ^ k)
    (hbuf : bytes f len ≤ buf.length)
    (hdone : ∀ i < bytes f len, f.data[(a * f.esize.toNat + i) % f.data.length]? = buf[i]?) :
    Holds k { f with «in» := f.in + len } (A ++ buf.take (bytes f len)) R (a + len.toNat) r where
  sized := { h.sized with }
  in_eq := by
    change (f.in + len).toNat = _
    rw [UInt32.toNat_add, h.in_eq]
    omega
  out_eq := h.out_eq
  le := by
    have := h.le
    omega
  room := hlen
  length := by
    rw [List.length_append, List.length_take_of_le hbuf, h.length, Nat.add_mul]
    rfl
  returned := by
    have hr : r * f.esize.toNat ≤ A.length := h.length ▸ Nat.mul_le_mul_right _ h.le
    exact h.returned.trans (List.take_append_of_le_length hr).symm
  ring := by
    intro q hlo hq
    rw [List.length_append, List.length_take_of_le hbuf] at hq
    rcases Nat.lt_or_ge q A.length with hqA | hqA
    · rw [List.getElem?_append_left hqA]
      exact h.ring q hlo hqA
    · obtain ⟨i, rfl⟩ := Nat.exists_eq_add_of_le hqA
      rw [List.getElem?_append_right (by omega), Nat.add_sub_cancel_left, List.getElem?_take,
        if_pos (by omega), h.length]
      exact hdone i (by omega)

/-- Releasing elements that have been copied. -/
theorem Holds.release (h : Holds k f A R a r) (hlen : r + len.toNat ≤ a)
    (hdone : ∀ i < bytes f len, buf[i]? = A[r * f.esize.toNat + i]?) :
    Holds k { f with out := f.out + len } A (R ++ buf.take (bytes f len)) a (r + len.toNat) where
  sized := { h.sized with }
  in_eq := h.in_eq
  out_eq := by
    change (f.out + len).toNat = _
    rw [UInt32.toNat_add, h.out_eq]
    omega
  le := hlen
  room := by
    have := h.room
    omega
  length := h.length
  returned := by
    have htake : buf.take (bytes f len) = (A.drop (r * f.esize.toNat)).take (bytes f len) := by
      refine List.ext_getElem? fun i ↦ ?_
      rw [List.getElem?_take, List.getElem?_take, List.getElem?_drop]
      split_ifs with hi
      · exact hdone i hi
      · rfl
    change _ = A.take ((r + len.toNat) * f.esize.toNat)
    rw [htake, Nat.add_mul, List.take_add, h.returned]
    rfl
  ring := by
    change Ring f.data A ((r + len.toNat) * f.esize.toNat)
    rw [Nat.add_mul]
    exact h.ring.drop

theorem Step.inv {f₀ : DlFifo} (hs : Step s s') (h : Inv k f₀ s) : Inv k f₀ s' := by
  obtain ⟨⟨a, r, hh, hp, hc⟩, he, hm⟩ := h
  have hle := hh.le
  have hroom := hh.room
  cases hs with
  | enterIn hbuf =>
    refine ⟨⟨a, r, hh, ⟨rfl, ?_, hbuf, nofun⟩, hc⟩, he, hm⟩
    rw [toNat_inLen hh]
    omega
  | @store f c A R buf len off done i b hi hb =>
    obtain ⟨hoff, hlen, hbuf, hdone⟩ := hp
    change off = f.in at hoff
    change Holds k f A R a r at hh
    subst hoff
    have hplace := hh.place_in hlen hi
    have hlt := hh.fill_lt hlen hi
    have hr : r * f.esize.toNat ≤ a * f.esize.toNat := Nat.mul_le_mul_right _ hle
    have hh' := hh.store (b := b) hlen hi
    rw [hplace]
    refine ⟨⟨a, r, hh', ⟨rfl, hlen, hbuf, fun j hj hjlt ↦ ?_⟩, ?_⟩, he, hm⟩
    · change (f.data.set _ b)[_ % (f.data.set _ b).length]? = _
      rw [List.length_set]
      change (f.data.set _ b)[(a * f.esize.toNat + j) % f.data.length]? = _
      change j < bytes f len at hjlt
      have hjlt' := hh.fill_lt hlen hjlt
      rcases Nat.lt_trichotomy i j with hij | rfl | hij
      · rw [List.getElem?_set_ne (mod_ne (by omega) (by omega))]
        exact hdone j ((List.mem_cons.mp hj).resolve_left (Nat.ne_of_gt hij)) hjlt
      · rw [List.getElem?_set_self (Nat.mod_lt _ (by omega)), hb]
      · rw [List.getElem?_set_ne (mod_ne (by omega) (by omega)).symm]
        exact hdone j ((List.mem_cons.mp hj).resolve_left (Nat.ne_of_lt hij)) hjlt
    · cases c with
      | idle => trivial
      | draining => exact hc
  | @publish f c A R buf len off done hall =>
    obtain ⟨hoff, hlen, hbuf, hdone⟩ := hp
    refine ⟨⟨a + len.toNat, r, hh.publish hlen hbuf fun i hi ↦ hdone i (hall i hi) hi, trivial, ?_⟩,
      he, hm⟩
    cases c with
    | idle => trivial
    | draining dst n off' done' =>
      obtain ⟨hoff', hn, hdst, hgot⟩ := hc
      refine ⟨hoff', by omega, hdst, fun i hi hilt ↦ (hgot i hi hilt).trans ?_⟩
      exact (List.getElem?_append_left (hh.drain_lt hn hilt)).symm
  | enterOut hbuf =>
    refine ⟨⟨a, r, hh, hp, rfl, ?_, hbuf, nofun⟩, he, hm⟩
    rw [toNat_outLen hh]
    omega
  | @load f p A R buf len off done i b hi hb =>
    obtain ⟨hoff, hlen, hbuf, hdone⟩ := hc
    change off = f.out at hoff
    subst hoff
    refine ⟨⟨a, r, hh, hp, rfl, hlen, (List.length_set ..).symm ▸ hbuf, fun j hj hjlt ↦ ?_⟩, he, hm⟩
    by_cases hij : i = j
    · subst hij
      rw [List.getElem?_set_self (Nat.lt_of_lt_of_le hi hbuf), ← hb, hh.place_out hlen hi]
      exact hh.ring _ (Nat.le_add_right ..) (hh.drain_lt hlen hi)
    · rw [List.getElem?_set_ne hij]
      exact hdone j ((List.mem_cons.mp hj).resolve_left (Ne.symm hij)) hjlt
  | @release f p A R buf len off done hall =>
    obtain ⟨hoff, hlen, hbuf, hdone⟩ := hc
    refine ⟨⟨a, r + len.toNat, hh.release hlen fun i hi ↦ hdone i (hall i hi) hi, ?_, trivial⟩, he, hm⟩
    cases p with
    | idle => trivial
    | filling src n off' done' =>
      obtain ⟨hoff', hn, hsrc, hput⟩ := hp
      exact ⟨hoff', by omega, hsrc, hput⟩

theorem Reached.inv {f₀ : DlFifo} (hf₀ : Holds k f₀ [] [] 0 0) (h : Reached f₀ s) : Inv k f₀ s := by
  induction h with
  | init => exact ⟨⟨0, 0, hf₀, trivial, trivial⟩, rfl, rfl⟩
  | step _ hs ih => exact hs.inv ih

/-! ## The steps of one call -/

/-- The steps of a `dl_fifo_in` that nothing comes between do what the call does. -/
theorem Holds.fifoIn_steps {c : Consumer} {f' : DlFifo} {n : UInt32} (h : Holds k f A R a r)
    (hbuf : bytes f (inLen f len) ≤ buf.length) (hrun : Fifo.fifoIn f buf len = .ok (f', n)) :
    Relation.ReflTransGen Step ⟨f, .idle, c, A, R⟩ ⟨f', .idle, c, A ++ buf.take (bytes f n), R⟩ := by
  have hlen : (inLen f len).toNat = min len.toNat (2 ^ k - (a - r)) := toNat_inLen h
  have hle := h.le
  have hroom := h.room
  obtain ⟨data, hcopy, hw⟩ := copyIn_spec f.in (inLen f len) h.sized (by omega) hbuf
  rw [h.sized.slot h.in_eq] at hw
  have hrun' : Fifo.fifoIn f buf len =
      .ok ({ f with data, «in» := f.in + inLen f len }, inLen f len) := by
    have hunfold : Fifo.fifoIn f buf len = copyIn f buf (inLen f len) f.in >>= fun g ↦
      pure ({ g with «in» := g.in + inLen f len }, inLen f len) := rfl
    rw [hunfold, hcopy]
    rfl
  obtain ⟨rfl, rfl⟩ := Prod.mk.inj (Except.ok.inj (hrun.symm.trans hrun'))
  have hsize : bytes f (inLen f len) ≤ f.data.length := by
    rw [h.sized.length]
    exact Nat.mul_le_mul_right _ (by omega)
  -- after `m` bytes
  have hstores : ∀ m ≤ bytes f (inLen f len), ∃ d done,
      Wrapped f.data (a * f.esize.toNat % f.data.length) m buf d ∧ (∀ i < m, i ∈ done) ∧
      Relation.ReflTransGen Step ⟨f, .filling buf (inLen f len) f.in [], c, A, R⟩
        ⟨{ f with data := d }, .filling buf (inLen f len) f.in done, c, A, R⟩ := by
    intro m hm
    induction m with
    | zero => exact ⟨f.data, [], wrapped_zero .., nofun, .refl⟩
    | succ m ih =>
      obtain ⟨d, done, hd, hdone, hsteps⟩ := ih (by omega)
      obtain ⟨b, hb⟩ : ∃ b, buf[m]? = some b := ⟨_, List.getElem?_eq_getElem (by omega)⟩
      have hsized : Sized { f with data := d } k :=
        { h.sized with length := hd.length.trans h.sized.length }
      have hm' : m < bytes { f with data := d } (inLen f len) := hm
      have hplace : place { f with data := d } (inLen f len) f.in m =
          (a * f.esize.toNat % f.data.length + m) % f.data.length := by
        rw [hsized.place_eq (by omega) hm']
        change (_ % 2 ^ k * f.esize.toNat + m) % d.length = _
        rw [hd.length, h.sized.slot h.in_eq]
      refine ⟨_, m :: done, hd.succ (by omega) hb, fun i hi ↦ ?_,
        hsteps.tail (hplace ▸ .store hm' hb)⟩
      rcases Nat.lt_or_ge i m with him | him
      · exact List.mem_cons_of_mem _ (hdone i him)
      · obtain rfl : i = m := by omega
        exact List.mem_cons_self ..
  obtain ⟨d, done, hd, hdone, hsteps⟩ := hstores _ (Nat.le_refl _)
  obtain rfl := hd.unique hw
  exact ((Relation.ReflTransGen.single (.enterIn hbuf)).trans hsteps).tail (.publish hdone)

/-- The steps of a `dl_fifo_out` that nothing comes between do what the call does. -/
theorem Holds.fifoOut_steps {p : Producer} {f' : DlFifo} {n : UInt32} {out : List UInt8}
    (h : Holds k f A R a r) (hbuf : bytes f (outLen f len) ≤ buf.length)
    (hrun : Fifo.fifoOut f buf len = .ok (f', out, n)) :
    Relation.ReflTransGen Step ⟨f, p, .idle, A, R⟩ ⟨f', p, .idle, A, R ++ out.take (bytes f n)⟩ := by
  have hlen : (outLen f len).toNat = min len.toNat (a - r) := toNat_outLen h
  have hle := h.le
  have hroom := h.room
  obtain ⟨dst, hcopy, hu⟩ := copyOut_spec f.out (outLen f len) h.sized (by omega) hbuf
  rw [h.sized.slot h.out_eq] at hu
  have hrun' : Fifo.fifoOut f buf len =
      .ok ({ f with out := f.out + outLen f len }, dst, outLen f len) := by
    have hunfold : Fifo.fifoOut f buf len = (copyOut f buf (outLen f len) f.out.toInt32 >>= fun b ↦
      pure (b, outLen f len)) >>= fun x ↦ pure ({ f with out := f.out + x.2 }, x.1, x.2) := rfl
    rw [hunfold, hcopy]
    rfl
  obtain ⟨rfl, hout⟩ := Prod.mk.inj (Except.ok.inj (hrun.symm.trans hrun'))
  obtain ⟨rfl, rfl⟩ := Prod.mk.inj hout
  have hsize : bytes f (outLen f len) ≤ f.data.length := by
    rw [h.sized.length]
    exact Nat.mul_le_mul_right _ (by omega)
  -- after `m` bytes
  have hloads : ∀ m ≤ bytes f (outLen f len), ∃ d done,
      Unwrapped f.data (r * f.esize.toNat % f.data.length) m buf d ∧ (∀ i < m, i ∈ done) ∧
      Relation.ReflTransGen Step ⟨f, p, .draining buf (outLen f len) f.out [], A, R⟩
        ⟨f, p, .draining d (outLen f len) f.out done, A, R⟩ := by
    intro m hm
    induction m with
    | zero => exact ⟨buf, [], unwrapped_zero .., nofun, .refl⟩
    | succ m ih =>
      obtain ⟨d, done, hd, hdone, hsteps⟩ := ih (by omega)
      have hm' : m < bytes f (outLen f len) := hm
      have hplace : place f (outLen f len) f.out m =
          (r * f.esize.toNat % f.data.length + m) % f.data.length := by
        rw [h.sized.place_eq (by omega) hm', h.sized.slot h.out_eq]
      obtain ⟨b, hb⟩ : ∃ b, f.data[place f (outLen f len) f.out m]? = some b :=
        ⟨_, List.getElem?_eq_getElem (hplace ▸ Nat.mod_lt _ (by omega))⟩
      refine ⟨_, m :: done, hd.succ (by omega) (hplace ▸ hb), fun i hi ↦ ?_,
        hsteps.tail (.load hm' hb)⟩
      rcases Nat.lt_or_ge i m with him | him
      · exact List.mem_cons_of_mem _ (hdone i him)
      · obtain rfl : i = m := by omega
        exact List.mem_cons_self ..
  obtain ⟨d, done, hd, hdone, hsteps⟩ := hloads _ (Nat.le_refl _)
  obtain rfl := hd.unique hu
  exact ((Relation.ReflTransGen.single (.enterOut hbuf)).trans hsteps).tail (.release hdone)

/-! ## Safety -/

/-- Whatever the two threads have done so far, the producer writes to no slot that is published and
not released, the consumer reads no other slots, and what has been consumed is a prefix of what
has been produced.  A whole call of one thread, with no step of the other thread in between, is one
of these interleavings. -/
theorem threads_safe {alloc : Nat → Option (List UInt8)} {size esize : UInt32} {f₀ : DlFifo}
    (halloc : ∀ n b, alloc n = some b → b.length = n) (hinit : init alloc size esize = .ok (some f₀))
    (hsize : (f₀.mask.toNat + 1) * esize.toNat < 2 ^ 31) (h : Reached f₀ s) :
    s.consumed <+: s.produced ∧
      s.produced.length = s.consumed.length + (s.fifo.in - s.fifo.out).toNat * esize.toNat ∧
      (s.fifo.in - s.fifo.out).toNat ≤ f₀.mask.toNat + 1 ∧
      (∀ buf len off done, s.producer = .filling buf len off done → ∀ i < bytes s.fifo len,
        place s.fifo len off i < s.fifo.data.length ∧ ¬ Held s.fifo (place s.fifo len off i)) ∧
      (∀ buf len off done, s.consumer = .draining buf len off done → ∀ i < bytes s.fifo len,
        place s.fifo len off i < s.fifo.data.length ∧ Held s.fifo (place s.fifo len off i)) ∧
      (∀ buf len f n, s.producer = .idle → bytes s.fifo (inLen s.fifo len) ≤ buf.length →
        Fifo.fifoIn s.fifo buf len = .ok (f, n) → Relation.ReflTransGen Step s
          { s with fifo := f, produced := s.produced ++ buf.take (bytes s.fifo n) }) ∧
      ∀ buf len f out n, s.consumer = .idle → bytes s.fifo (outLen s.fifo len) ≤ buf.length →
        Fifo.fifoOut s.fifo buf len = .ok (f, out, n) → Relation.ReflTransGen Step s
          { s with fifo := f, consumed := s.consumed ++ out.take (bytes s.fifo n) } := by
  obtain ⟨k, hf₀, he₀⟩ := holds_init halloc hinit hsize
  obtain ⟨⟨a, r, hh, hp, hc⟩, he, hm⟩ := h.inv hf₀
  have hle := hh.le
  have hroom := hh.room
  have hr : r * s.fifo.esize.toNat ≤ a * s.fifo.esize.toNat := Nat.mul_le_mul_right _ hle
  rw [hh.toNat_stored, ← hm, hh.sized.mask, ← he₀, ← he]
  refine ⟨?_, ?_, by omega, fun buf len off done hs i hi ↦ ?_, fun buf len off done hs i hi ↦ ?_,
    fun buf len f n hs hbuf hrun ↦ ?_, fun buf len f out n hs hbuf hrun ↦ ?_⟩
  · rw [hh.returned]
    exact List.take_prefix _ _
  · rw [hh.returned, List.length_take_of_le (hh.length ▸ hr), hh.length, Nat.sub_mul]
    omega
  · rw [hs] at hp
    obtain ⟨rfl, hlen, -⟩ := hp
    have hlt := hh.fill_lt hlen hi
    rw [hh.held_iff, hh.place_in hlen hi]
    refine ⟨Nat.mod_lt _ (by omega), ?_⟩
    rintro ⟨q, hrq, hqa, he⟩
    exact mod_ne (by omega) (by omega) he.symm
  · rw [hs] at hc
    obtain ⟨rfl, hlen, -⟩ := hc
    have hlt := hh.drain_lt hlen hi
    rw [hh.length] at hlt
    rw [hh.held_iff, hh.place_out hlen hi]
    refine ⟨Nat.mod_lt _ ?_, _, Nat.le_add_right .., hlt, rfl⟩
    have hle : a * s.fifo.esize.toNat ≤ (r + 2 ^ k) * s.fifo.esize.toNat :=
      Nat.mul_le_mul_right _ hroom
    rw [Nat.add_mul, ← hh.sized.length] at hle
    omega
  · obtain ⟨f', p, c, A, R⟩ := s
    obtain rfl : p = .idle := hs
    exact hh.fifoIn_steps hbuf hrun
  · obtain ⟨f', p, c, A, R⟩ := s
    obtain rfl : c = .idle := hs
    exact hh.fifoOut_steps hbuf hrun

/-- An element has gone in and is being taken out, while the next one goes in. -/
theorem threads_safe_overlapping :
    Reached empty ⟨⟨1, 0, 2, 3, [7, 8, 5, 0, 0, 0, 0, 0]⟩, .filling [5, 6] 1 1 [0],
      .draining [7, 0] 1 0 [0], [7, 8], []⟩ ∧
    ¬ Held ⟨1, 0, 2, 3, [7, 8, 5, 0, 0, 0, 0, 0]⟩ (place ⟨1, 0, 2, 3, [7, 8, 5, 0, 0, 0, 0, 0]⟩ 1 1 1) := by
  have hfirst : Reached empty ⟨empty, .filling [7, 8] 1 0 [], .idle, [], []⟩ :=
    Reached.init.step (.enterIn (f := empty)
      (show bytes empty (inLen empty 1) ≤ [(7 : UInt8), 8].length by decide))
  have hstored : Reached empty ⟨⟨0, 0, 2, 3, [7, 8, 0, 0, 0, 0, 0, 0]⟩, .filling [7, 8] 1 0 [1, 0],
      .idle, [], []⟩ :=
    (hfirst.step (.store (i := 0) (b := 7) (by decide) rfl)).step
      (.store (i := 1) (b := 8) (by decide) rfl)
  have hpublished : Reached empty ⟨⟨1, 0, 2, 3, [7, 8, 0, 0, 0, 0, 0, 0]⟩, .idle, .idle, [7, 8], []⟩ :=
    hstored.step (.publish (by decide))
  have hboth : Reached empty ⟨⟨1, 0, 2, 3, [7, 8, 0, 0, 0, 0, 0, 0]⟩, .filling [5, 6] 1 1 [],
      .draining [0, 0] 1 0 [], [7, 8], []⟩ :=
    (hpublished.step (.enterIn
      (show bytes empty (inLen ⟨1, 0, 2, 3, [7, 8, 0, 0, 0, 0, 0, 0]⟩ 1) ≤ [(5 : UInt8), 6].length
        by decide))).step (.enterOut
      (show bytes empty (outLen ⟨1, 0, 2, 3, [7, 8, 0, 0, 0, 0, 0, 0]⟩ 1) ≤ [(0 : UInt8), 0].length
        by decide))
  have hreached : Reached empty ⟨⟨1, 0, 2, 3, [7, 8, 5, 0, 0, 0, 0, 0]⟩, .filling [5, 6] 1 1 [0],
      .draining [7, 0] 1 0 [0], [7, 8], []⟩ :=
    (hboth.step (.store (i := 0) (b := 5) (by decide) rfl)).step
      (.load (i := 0) (b := 7) (by decide) rfl)
  have hsafe := threads_safe length_zeros init_three (by decide) hreached
  exact ⟨hreached, (hsafe.2.2.2.1 _ _ _ _ rfl 1 (by decide)).2⟩

end Dlbase.Fifo
