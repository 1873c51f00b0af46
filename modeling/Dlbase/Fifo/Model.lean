import Dlbase.Lib.Ring
import Dlbase.Table.Log2

/-!
# The ring buffer of `dl_fifo.c`

The counters `in` and `out` run free in 32 bits; the mask takes them to slots.  Elements are
copied as bytes.
-/

namespace Dlbase.Fifo

open Cmem

/-- A `dl_fifo`. -/
structure DlFifo where
  /-- How many elements have gone in. -/
  «in» : UInt32
  /-- How many elements have come out. -/
  out : UInt32
  /-- The size of an element in bytes. -/
  esize : UInt32
  /-- The number of slots less one. -/
  mask : UInt32
  /-- The memory of the slots. -/
  data : List UInt8
deriving DecidableEq, Repr

/-- `1 << l`, converted to an `unsigned int`. -/
def shiftOne (l : Int) : Exec UInt32 :=
  if 0 ≤ l ∧ l < 32 then .ok (UInt32.ofNat (2 ^ l.toNat)) else Exec.undef

/-- `sizeof(dl_fifo)`. -/
def sizeofFifo : Nat := 32

/-- `dl_fifo_init`; `alloc` is `dl_alloc` or `dl_palloc` of a pool. -/
def init (alloc : Nat → Option (List UInt8)) (size esize : UInt32) : Exec (Option DlFifo) := do
  if alloc sizeofFifo = none then
    pure none
  else
    let size ← shiftOne (Table.ceillog2 32 size.toNat)
    if size < 2 then
      pure none
    else
      match alloc (size * esize).toNat with
      | none => pure none
      | some data => pure (some { «in» := 0, out := 0, esize, mask := size - 1, data })

/-- A number of elements as a number of bytes. -/
def scale (f : DlFifo) (n : UInt32) : UInt32 := if f.esize ≠ 1 then n * f.esize else n

/-- `dl_min`. -/
def dlMin (m n : UInt32) : UInt32 := if m > n then n else m

/-- `dl_fifo_copy_in`. -/
def copyIn (f : DlFifo) (src : List UInt8) (len off : UInt32) : Exec DlFifo := do
  let size := scale f (f.mask + 1)
  let off := scale f (off &&& f.mask)
  let len := scale f len
  let l := dlMin len (size - off)
  let data ← memcpy f.data off.toNat src 0 l.toNat
  let data ← memcpy data 0 src l.toNat (len - l).toNat
  pure { f with data }

/-- `dl_fifo_unused`. -/
def unused (f : DlFifo) : Int32 := ((f.mask + 1) - (f.in - f.out)).toInt32

/-- `dl_fifo_in`: the number of elements that have gone in. -/
def fifoIn (f : DlFifo) (buf : List UInt8) (len : UInt32) : Exec (DlFifo × UInt32) := do
  let l := (unused f).toUInt32
  let len := if len > l then l else len
  let f ← copyIn f buf len f.in
  pure ({ f with «in» := f.in + len }, len)

/-- `dl_fifo_copy_out`: the new contents of the destination. -/
def copyOut (f : DlFifo) (dst : List UInt8) (len : UInt32) (off : Int32) : Exec (List UInt8) := do
  let size := scale f (f.mask + 1)
  let off := (off.toUInt32 &&& f.mask).toInt32
  let off := (scale f off.toUInt32).toInt32
  let len := scale f len
  let l := dlMin len (size - off.toUInt32)
  if off < 0 then
    Exec.undef
  else
    let dst ← memcpy dst 0 f.data off.toUInt32.toNat l.toNat
    memcpy dst l.toNat f.data 0 (len - l).toNat

/-- `dl_fifo_out_peek`: the destination and the number of elements in it. -/
def fifoOutPeek (f : DlFifo) (buf : List UInt8) (len : UInt32) : Exec (List UInt8 × UInt32) := do
  let l := f.in - f.out
  let len := if len > l then l else len
  let buf ← copyOut f buf len f.out.toInt32
  pure (buf, len)

/-- `dl_fifo_out`. -/
def fifoOut (f : DlFifo) (buf : List UInt8) (len : UInt32) :
    Exec (DlFifo × List UInt8 × UInt32) := do
  let (buf, len) ← fifoOutPeek f buf len
  pure ({ f with out := f.out + len }, buf, len)

end Dlbase.Fifo
