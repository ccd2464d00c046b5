import Mcoap.Lib.ByteProg
import Mcoap.Header

/-! # Buffers

    `mcoap/mc_buffer.c` and the byte copies of `msys/ms_copy.c`.

    An `mc_buffer_t` is a length and a pointer.  A function that works
    inside a buffer somebody else owns (the read buffer, the write buffer)
    is a program over that buffer's bytes (`Prog`), with `nbytes` as an
    argument: it can touch indices past `nbytes`, and the position it is
    passed by reference comes back with its result.  A buffer that is only
    passed around is a value. -/

namespace Mcoap

open ByteMem ByteProg

/-- `mc_buffer_t`. -/
structure McBuffer where
  nbytes : UInt32
  bytes  : Mem

/-- The bytes a buffer owns. -/
def McBuffer.toList (buffer : McBuffer) : List UInt8 :=
  slice buffer.bytes 0 buffer.nbytes.toNat

/-- The buffer that owns exactly these bytes. -/
def McBuffer.ofList (bs : List UInt8) : McBuffer :=
  ⟨UInt32.ofNat bs.length, ByteMem.ofList bs⟩

theorem McBuffer.ofList_toList {bs : List UInt8} (h : bs.length < 2 ^ 32) :
    (McBuffer.ofList bs).toList = bs := by
  have hlen : (McBuffer.ofList bs).nbytes.toNat = bs.length := ofNat32_toNat h
  rw [McBuffer.toList, hlen]
  exact slice_ofList bs

theorem McBuffer.toList_length (buffer : McBuffer) :
    buffer.toList.length = buffer.nbytes.toNat := slice_length _ _ _

/-- The bytes of a buffer that may be the null pointer; null reads as no bytes. -/
def bytesOf (buffer : Option McBuffer) : List UInt8 :=
  (buffer.map McBuffer.toList).getD []

@[simp] theorem bytesOf_none : bytesOf none = [] := rfl

@[simp] theorem bytesOf_some (buffer : McBuffer) : bytesOf (some buffer) = buffer.toList := rfl

/-- A decoder: the values of its uninitialised locals are 16 bits wide. -/
abbrev Code (α : Type) : Type := Prog UInt16 α

/-! ## Reading a value at a position -/

def mcBufferNextUint8 (bpos : UInt32) : Code (UInt8 × UInt32) := do
  let byte ← Prog.readByte bpos.toNat
  return (byte, bpos + 1)

/-- Note, no swapping.  The source calls `memcpy` with source and
    destination exchanged: the local is never set, and it is the buffer
    that is written. -/
def mcBufferNextUint16 (bpos : UInt32) : Code (UInt16 × UInt32) := do
  let result ← Prog.drawn
  Prog.writeBytes bpos.toNat (image16 result)
  return (result, bpos + 2)

/-- Note, no swapping. -/
def mcBufferNextUint32 (bpos : UInt32) : Code (UInt32 × UInt32) := do
  let b0 ← Prog.readByte bpos.toNat
  let b1 ← Prog.readByte (bpos.toNat + 1)
  let b2 ← Prog.readByte (bpos.toNat + 2)
  let b3 ← Prog.readByte (bpos.toNat + 3)
  return (msWord32 b3 b2 b1 b0, bpos + 4)

/-- The pointer returned is the position of its first byte.  The
    difference that is tested is unsigned. -/
def mcBufferNextPtr (nbytes len bpos : UInt32) : Option UInt32 × UInt32 :=
  if nbytes - len - bpos < 0 then (none, bpos) else (some bpos, bpos + len)

/-- `ms_copy_uint8(count, ptr)`, with a pointer into the buffer. -/
def msCopyUint8 (count : UInt32) (ptr : Option UInt32) : Code (List UInt8) :=
  match ptr with
  | some p => Prog.readBytes p.toNat count.toNat
  | none => Prog.abort

/-- The test of `mc_buffer_next_ptr` never fails. -/
@[simp] theorem mcBufferNextPtr_eq (nbytes len bpos : UInt32) :
    mcBufferNextPtr nbytes len bpos = (some bpos, bpos + len) := by
  have h : ¬ nbytes - len - bpos < 0 := UInt32.not_lt_zero
  simp only [mcBufferNextPtr, if_neg h]

/-! ## Copying between buffers -/

/-- Copy without performing size checks. -/
def copyTo (dest : McBuffer) (dpos : UInt32) (src : McBuffer) (spos nbytes : UInt32) : McBuffer :=
  { dest with bytes := blit dest.bytes dpos.toNat (slice src.bytes spos.toNat nbytes.toNat) }

/-- The two bounds tests of `mc_buffer_copy_to`. -/
def copyFits (destNbytes dpos srcNbytes spos nbytes : UInt32) : Bool :=
  if destNbytes - dpos < nbytes then false
  else if srcNbytes - spos < nbytes then false
  else true

/-- `mc_buffer_copy_to`: whether it returns a buffer, and what dest holds
    then. -/
def mcBufferCopyBetween (dest : Option McBuffer) (dpos : UInt32) (src : Option McBuffer)
    (spos nbytes : UInt32) : Bool × Option McBuffer :=
  match dest, src with
  | none, _ => (false, none)
  | some dest, none => (true, some dest)
  | some dest, some src =>
    if copyFits dest.nbytes dpos src.nbytes spos nbytes then
      (true, some (copyTo dest dpos src spos nbytes))
    else
      (false, some dest)

/-- `mc_buffer_copy_to` into the buffer the program works in. -/
def mcBufferCopyTo (destNbytes dpos : UInt32) (src : McBuffer) (spos nbytes : UInt32) :
    Code Bool := do
  if copyFits destNbytes dpos src.nbytes spos nbytes then
    Prog.writeBytes dpos.toNat (slice src.bytes spos.toNat nbytes.toNat)
    return true
  else
    return false

/-- `mc_buffer_copy_to` out of the buffer the program works in. -/
def mcBufferCopyFrom (dest : McBuffer) (dpos srcNbytes spos nbytes : UInt32) :
    Code (Option McBuffer) := do
  if copyFits dest.nbytes dpos srcNbytes spos nbytes then
    let bs ← Prog.readBytes spos.toNat nbytes.toNat
    return some { dest with bytes := blit dest.bytes dpos.toNat bs }
  else
    return none

def mcBufferCopy (src : Option McBuffer) (spos nbytes : UInt32) : Option McBuffer :=
  match src with
  | none => none
  | some src =>
    if src.nbytes - spos < nbytes then none
    else some (copyTo ⟨nbytes, ofList []⟩ 0 src spos nbytes)

end Mcoap
