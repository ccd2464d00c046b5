import Mcoap.Lib.StableSort
import Mcoap.Buffer

/-! # Options and options lists

    `mcoap/mc_option.c` and `mcoap/mc_options_list.c`: the in-memory list,
    its size on the wire, the encoder and the two-pass decoder.

    The encoder and the decoder are programs over the bytes of the buffer
    they are given.  A function of the source that returns the buffer
    pointer or 0 returns a `Bool` here; a position passed by reference is
    returned.  A null `bpos` stands for a local position that starts at 0
    and that the caller does not see. -/

namespace Mcoap

open ByteMem ByteProg StableSort

/-! ## Section 1: The list -/

/-- `mc_option_t`. -/
structure McOption where
  optionNum : UInt16
  value     : McBuffer

/-- `mc_options_list_t`: the array, which carries its own length. -/
structure McOptionsList where
  options : List McOption

def McOptionsList.noptions (list : McOptionsList) : UInt32 :=
  UInt32.ofNat list.options.length

def mcOptionInit (optionNum : UInt16) (nbytes : UInt32) (bytes : List UInt8) : McOption :=
  ⟨optionNum, nbytes, ofList bytes⟩

/-- An option with the characters of a string; the trailing null is not
    included. -/
def mcOptionInitStr (optionNum : UInt16) (value : List UInt8) : McOption :=
  mcOptionInit optionNum (UInt32.ofNat value.length) value

/-- An option with a number in network order, in one, two or four bytes. -/
def mcOptionInitUint32 (optionNum : UInt16) (value : UInt32) : McOption :=
  if value ≤ 0xff then mcOptionInit optionNum 1 [value.toUInt8]
  else if value ≤ 0xffff then mcOptionInit optionNum 2 (image16 (msSwapU16 value.toUInt16))
  else mcOptionInit optionNum 4 (image32 (msSwapU32 value))

/-- Compare two items by tag. -/
def compareOptions (left right : McOption) : Int :=
  (left.optionNum.toNat : Int) - (right.optionNum.toNat : Int)

theorem compareOptions_isOrder : IsOrder compareOptions where
  total a b := by simp only [compareOptions]; omega
  trans a b c h1 h2 := by simp only [compareOptions] at *; omega
  equal a b := by simp only [compareOptions]; omega

/-- Sort an array of items by tag. -/
def optionsSort (qsort : Qsort McOption) (items : List McOption) : List McOption :=
  qsort.sort compareOptions items

def mcOptionsListInit (qsort : Qsort McOption) (options : List McOption) : McOptionsList :=
  ⟨optionsSort qsort options⟩

/-- Copy an option to a destination that has no bytes yet. -/
def mcOptionCopyTo (source : McOption) : McOption :=
  mcOptionInit source.optionNum source.value.nbytes source.value.toList

def mcOptionsListCopy (qsort : Qsort McOption) (list : Option McOptionsList) :
    Option McOptionsList :=
  match list with
  | none => none
  | some list => some (mcOptionsListInit qsort (list.options.map mcOptionCopyTo))

/-- Create a new list from two lists.  Together they have fewer than 2^32
    options. -/
def mcOptionsListMerge (qsort : Qsort McOption) (list1 list2 : Option McOptionsList) :
    Option McOptionsList :=
  match list1, list2 with
  | none, list2 => mcOptionsListCopy qsort list2
  | list1, none => mcOptionsListCopy qsort list1
  | some list1, some list2 =>
    -- the first list's options stand before the second's when they are sorted
    some (mcOptionsListInit qsort
      (list1.options.map mcOptionCopyTo ++ list2.options.map mcOptionCopyTo))

/-! ## Section 2: Size on the wire -/

def extendedIntSize (delta : UInt32) : UInt32 :=
  if delta < 13 then 1
  else if delta < 269 then 2
  else if delta < 65805 then 3
  else 0

/-- The number of bytes to store the option in a network buffer.  It
    depends on the number of the previous option of the list. -/
def mcOptionBufferSize (option : McOption) (prevOptionNum : UInt32) : UInt32 :=
  let delta := option.optionNum.toUInt32 - prevOptionNum
  let nbytes := option.value.nbytes
  extendedIntSize delta + extendedIntSize nbytes + nbytes - 1

def optionsBufferSize : List McOption → UInt32 → UInt32 → UInt32
  | [], _, size => size
  | current :: rest, prevOptionNum, size =>
    optionsBufferSize rest current.optionNum.toUInt32
      (size + mcOptionBufferSize current prevOptionNum)

def mcOptionsListBufferSize (list : Option McOptionsList) : UInt32 :=
  match list with
  | none => 0
  | some list => optionsBufferSize list.options 0 0

/-! ## Section 3: Encoder -/

/-- Result code, head and extension; the caller's `head` and `extended`
    start at 0 and keep it where they are not set. -/
def valueToEncodedInt (value : UInt16) : Nat × UInt8 × UInt16 :=
  if value < 13 then (1, value.toUInt8, 0)
  else if value < 269 then (2, 13, value - 13)
  else if value.toNat < 65805 then (3, 14, value - 269)
  else (0, 0, 0)

def uint8ToBuffer (nbytes : UInt32) (extended : UInt16) (bpos : UInt32) :
    Code (Bool × UInt32) := do
  if nbytes - bpos < 1 then
    return (false, bpos)
  else
    Prog.writeByte bpos.toNat extended.toUInt8
    return (true, bpos + 1)

/-- Note, performs swapping. -/
def uint16ToBuffer (nbytes : UInt32) (extended : UInt16) (bpos : UInt32) :
    Code (Bool × UInt32) := do
  if nbytes - bpos < 2 then
    return (false, bpos)
  else
    Prog.writeBytes bpos.toNat (image16 (msSwapU16 extended))
    return (true, bpos + 2)

def extendedNumToBuffer (nbytes : UInt32) (head : UInt8) (extended : UInt16) (bpos : UInt32) :
    Code (Bool × UInt32) :=
  if head = 13 then uint8ToBuffer nbytes extended bpos
  else if head = 14 then uint16ToBuffer nbytes extended bpos
  else if head = 15 then return (false, bpos)
  -- the head is the number itself
  else return (true, bpos)

def bytesToBuffer (nbytes : UInt32) (src : McBuffer) (bpos : UInt32) :
    Code (Bool × UInt32) := do
  if nbytes - bpos < src.nbytes then
    return (false, bpos)
  else
    Prog.writeBytes bpos.toNat src.toList
    return (true, bpos + src.nbytes)

/-- The length is a `uint32_t` and is passed on as a `uint16_t`. -/
def optionToBuffer (nbytes : UInt32) (option : McOption) (prevOptionNum : UInt16)
    (bpos : UInt32) : Code (Bool × UInt32) := do
  let delta := option.optionNum - prevOptionNum
  if nbytes - bpos < 1 then
    return (false, bpos)
  else
    let (ncode, numHead, numExt) := valueToEncodedInt delta
    if ncode = 0 then
      return (false, bpos)
    else
      let (lcode, lenHead, lenExt) := valueToEncodedInt option.value.nbytes.toUInt16
      if lcode = 0 then
        return (false, bpos)
      else
        -- the delta nibble and the length nibble make the option's prefix byte
        Prog.writeByte bpos.toNat ((numHead <<< 4) ||| lenHead)
        let (ok, bpos) ← extendedNumToBuffer nbytes numHead numExt (bpos + 1)
        if ok then
          let (ok, bpos) ← extendedNumToBuffer nbytes lenHead lenExt bpos
          if ok then bytesToBuffer nbytes option.value bpos else return (false, bpos)
        else
          return (false, bpos)

def optionsToBuffer (nbytes : UInt32) :
    List McOption → UInt16 → UInt32 → Code (Bool × UInt32)
  | [], _, bpos => return (true, bpos)
  | option :: rest, prevOptionNum, bpos => do
    let (ok, bpos) ← optionToBuffer nbytes option prevOptionNum bpos
    if ok then optionsToBuffer nbytes rest option.optionNum bpos else return (false, bpos)

/-- The position at which the encoder stopped comes back also on failure. -/
def mcOptionsListToBuffer (list : Option McOptionsList) (nbytes bpos : UInt32) :
    Code (Bool × UInt32) :=
  match list with
  | none => return (true, bpos)
  | some list => optionsToBuffer nbytes list.options 0 bpos

/-! ## Section 4: Decoder -/

/-- The value a nibble and its extension stand for.  The result code of the
    source is not used by its callers. -/
def encodedIntToValue (head : UInt8) (extended : UInt16) : UInt16 :=
  if head < 13 then head.toUInt16
  else if head = 13 then extended + 13
  else if head = 14 then extended + 269
  else 0

/-- Prefix 15 is not an error here: it is the value 15. -/
def optionNumFromBuffer (nibble : UInt8) (bpos : UInt32) : Code (UInt16 × UInt32) := do
  if nibble = 13 then
    let (extended, bpos) ← mcBufferNextUint8 bpos
    return (encodedIntToValue nibble extended.toUInt16, bpos)
  else if nibble = 14 then
    let (extended, bpos) ← mcBufferNextUint16 bpos
    return (encodedIntToValue nibble (msSwapU16 extended), bpos)
  else
    return (nibble.toUInt16, bpos)

/-- The loop of `count_options`.  Every iteration moves the position
    forward, so `nbytes + 1` iterations are enough unless the position wraps
    around; a loop that takes more is one with no defined end. -/
def countOptionsLoop (nbytes : UInt32) : Nat → UInt32 → UInt32 → Code UInt32
  | 0, _, _ => Prog.abort
  | fuel + 1, bpos, total => do
    if bpos < nbytes then
      let byte ← Prog.readByte bpos.toNat
      let bpos := bpos + 1
      -- the payload marker ends the options
      if byte = 0xff then
        return total
      else
        let delta := byte >>> 4
        let len := byte &&& 0x0f
        -- skip the extended part of the option delta
        let bpos := if delta = 13 then bpos + 1 else if delta = 14 then bpos + 2 else bpos
        let (extended, bpos) ← optionNumFromBuffer len bpos
        let bpos := bpos + extended.toUInt32
        -- only the end of the value is compared with the buffer's end
        if bpos > nbytes then return 0 else countOptionsLoop nbytes fuel bpos (total + 1)
    else
      return total

def countOptions (nbytes bpos : UInt32) : Code UInt32 :=
  if nbytes < 4 then return 0 else countOptionsLoop nbytes (nbytes.toNat + 1) bpos 0

def optionFromBuffer (nbytes : UInt32) (prevnum : UInt16) (bpos : UInt32) :
    Code (Option McOption × UInt32) := do
  -- the test is on the whole buffer, not on what is left of it at `bpos`
  if nbytes < 1 then
    return (none, bpos)
  else
    let (byte, bpos) ← mcBufferNextUint8 bpos
    let delta := byte >>> 4
    let len := byte &&& 0x0f
    let (optnum, bpos) ← optionNumFromBuffer delta bpos
    -- a `uint16_t` sum: it wraps around
    let optnum := optnum + prevnum
    let (optlen, bpos) ← optionNumFromBuffer len bpos
    let (optbytes, bpos) := mcBufferNextPtr nbytes optlen.toUInt32 bpos
    let bytes ← msCopyUint8 optlen.toUInt32 optbytes
    return (some (mcOptionInit optnum optlen.toUInt32 bytes), bpos)

/-- The calls of `option_from_buffer`: the first one with 0 as the previous
    number, each of the others with the number of the option before it. -/
def optionsFromBuffer (nbytes : UInt32) :
    Nat → UInt16 → UInt32 → Code (Option (List McOption) × UInt32)
  | 0, _, bpos => return (some [], bpos)
  | n + 1, prevnum, bpos => do
    let (current, bpos) ← optionFromBuffer nbytes prevnum bpos
    match current with
    | none => return (none, bpos)
    | some current =>
      let (rest, bpos) ← optionsFromBuffer nbytes n current.optionNum bpos
      return (rest.map (current :: ·), bpos)

def mcOptionsListFromBuffer (qsort : Qsort McOption) (nbytes bpos : UInt32) :
    Code (Option McOptionsList × UInt32) := do
  let noptions ← countOptions nbytes bpos
  if noptions = 0 then
    return (none, bpos)
  else
    let (options, bpos) ← optionsFromBuffer nbytes noptions.toNat 0 bpos
    return (options.map (mcOptionsListInit qsort), bpos)

end Mcoap
