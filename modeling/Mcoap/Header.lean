import Mathlib.Tactic.IntervalCases

/-! # Byte order and the CoAP header word

    `msys/ms_endian.c` and `mcoap/mc_header.c`.

    The four header bytes are one `uint32_t`: version (2 bits), type (2),
    token length (4), code (8), message id (16), from the top bit down.
    The host is little-endian, so a word lies in memory with its low byte
    first, and `ms_swap_u32` before a `memcpy` puts it in network order. -/

namespace Mcoap

/-! ## Words and their bytes -/

/-- The word `(c1 << 8) + c2`. -/
def msWord16 (c1 c2 : UInt8) : UInt16 :=
  (c1.toUInt16 <<< 8) + c2.toUInt16

/-- The word `(c1 << 24) + (c2 << 16) + (c3 << 8) + c4`. -/
def msWord32 (c1 c2 c3 c4 : UInt8) : UInt32 :=
  (c1.toUInt32 <<< 24) + (c2.toUInt32 <<< 16) + (c3.toUInt32 <<< 8) + c4.toUInt32

def msSwapU16 (i : UInt16) : UInt16 :=
  let c1 := (i &&& 0xFF).toUInt8
  let c2 := ((i >>> 8) &&& 0xFF).toUInt8
  msWord16 c1 c2

def msSwapU32 (i : UInt32) : UInt32 :=
  let c1 := (i &&& 0xFF).toUInt8
  let c2 := ((i >>> 8) &&& 0xFF).toUInt8
  let c3 := ((i >>> 16) &&& 0xFF).toUInt8
  let c4 := ((i >>> 24) &&& 0xFF).toUInt8
  msWord32 c1 c2 c3 c4

/-- A `uint16_t` as it lies in the memory of the host. -/
def image16 (v : UInt16) : List UInt8 := [v.toUInt8, (v >>> 8).toUInt8]

/-- A `uint32_t` as it lies in the memory of the host. -/
def image32 (v : UInt32) : List UInt8 :=
  [v.toUInt8, (v >>> 8).toUInt8, (v >>> 16).toUInt8, (v >>> 24).toUInt8]

@[simp] theorem image16_length (v : UInt16) : (image16 v).length = 2 := rfl

@[simp] theorem image32_length (v : UInt32) : (image32 v).length = 4 := rfl

/-- A number that a word has room for. -/
theorem ofNat16_toNat {n : Nat} (h : n < 2 ^ 16) : (UInt16.ofNat n).toNat = n :=
  UInt16.toNat_ofNat_of_lt' h

theorem ofNat32_toNat {n : Nat} (h : n < 2 ^ 32) : (UInt32.ofNat n).toNat = n :=
  UInt32.toNat_ofNat_of_lt' h

theorem ofInt32_natCast {n : Nat} (h : n < 2 ^ 32) : UInt32.ofInt (n : Int) = UInt32.ofNat n := by
  have hmod : ((n : Int) % 2 ^ 32).toNat = n := by omega
  rw [UInt32.ofInt, hmod]

/-- A count that fits is not taken for 0. -/
theorem ofNat32_ne_zero {n : Nat} (h0 : n ≠ 0) (h : n < 2 ^ 32) : UInt32.ofNat n ≠ 0 := by
  intro hzero
  have hnat := ofNat32_toNat h
  rw [hzero] at hnat
  exact h0 hnat.symm

theorem msWord16_toNat (c1 c2 : UInt8) :
    (msWord16 c1 c2).toNat = c1.toNat * 256 + c2.toNat := by
  have h1 := c1.toNat_lt
  have h2 := c2.toNat_lt
  simp [msWord16, UInt16.toNat_add, UInt16.toNat_shiftLeft, Nat.shiftLeft_eq]
  omega

theorem msWord32_toNat (c1 c2 c3 c4 : UInt8) :
    (msWord32 c1 c2 c3 c4).toNat =
      c1.toNat * 16777216 + c2.toNat * 65536 + c3.toNat * 256 + c4.toNat := by
  have h1 := c1.toNat_lt
  have h2 := c2.toNat_lt
  have h3 := c3.toNat_lt
  have h4 := c4.toNat_lt
  simp [msWord32, UInt32.toNat_add, UInt32.toNat_shiftLeft, Nat.shiftLeft_eq]
  omega

theorem msWord16_bytes (c1 c2 : UInt8) : image16 (msWord16 c1 c2) = [c2, c1] := by
  have h1 := c1.toNat_lt
  have h2 := c2.toNat_lt
  simp only [image16, List.cons.injEq, and_true]
  refine ⟨?_, ?_⟩ <;> apply UInt8.toNat_inj.mp <;>
    simp [msWord16_toNat, Nat.shiftRight_eq_div_pow]
  omega

theorem msWord32_bytes (c1 c2 c3 c4 : UInt8) :
    image32 (msWord32 c1 c2 c3 c4) = [c4, c3, c2, c1] := by
  have h1 := c1.toNat_lt
  have h2 := c2.toNat_lt
  have h3 := c3.toNat_lt
  have h4 := c4.toNat_lt
  simp only [image32, List.cons.injEq, and_true]
  refine ⟨?_, ?_, ?_, ?_⟩ <;> apply UInt8.toNat_inj.mp <;>
    simp [msWord32_toNat, Nat.shiftRight_eq_div_pow] <;> omega

theorem msWord16_self (i : UInt16) : msWord16 (i >>> 8).toUInt8 i.toUInt8 = i := by
  apply UInt16.toNat_inj.mp
  have h := i.toNat_lt
  simp [msWord16_toNat, Nat.shiftRight_eq_div_pow]
  omega

theorem msWord32_self (i : UInt32) :
    msWord32 (i >>> 24).toUInt8 (i >>> 16).toUInt8 (i >>> 8).toUInt8 i.toUInt8 = i := by
  apply UInt32.toNat_inj.mp
  have h := i.toNat_lt
  simp [msWord32_toNat, Nat.shiftRight_eq_div_pow]
  omega

theorem low_byte16 (i : UInt16) : (i &&& 0xFF).toUInt8 = i.toUInt8 := by
  apply UInt8.toBitVec_inj.mp
  ext k hk
  interval_cases k <;> simp

theorem low_byte32 (i : UInt32) : (i &&& 0xFF).toUInt8 = i.toUInt8 := by
  apply UInt8.toBitVec_inj.mp
  ext k hk
  interval_cases k <;> simp

/-- Swapping reverses the bytes. -/
theorem msSwapU16_eq (i : UInt16) : msSwapU16 i = msWord16 i.toUInt8 (i >>> 8).toUInt8 := by
  simp only [msSwapU16, low_byte16]

theorem msSwapU32_eq (i : UInt32) :
    msSwapU32 i =
      msWord32 i.toUInt8 (i >>> 8).toUInt8 (i >>> 16).toUInt8 (i >>> 24).toUInt8 := by
  simp only [msSwapU32, low_byte32]

/-- A swapped word lies in memory with its high byte first. -/
theorem image16_swap (i : UInt16) : image16 (msSwapU16 i) = [(i >>> 8).toUInt8, i.toUInt8] := by
  rw [msSwapU16_eq, msWord16_bytes]

theorem image32_swap (i : UInt32) :
    image32 (msSwapU32 i) =
      [(i >>> 24).toUInt8, (i >>> 16).toUInt8, (i >>> 8).toUInt8, i.toUInt8] := by
  rw [msSwapU32_eq, msWord32_bytes]

@[simp] theorem msSwapU16_swap (i : UInt16) : msSwapU16 (msSwapU16 i) = i := by
  have h := image16_swap i
  simp only [image16, List.cons.injEq, and_true] at h
  obtain ⟨h0, h1⟩ := h
  rw [msSwapU16_eq (msSwapU16 i), h0, h1, msWord16_self]

@[simp] theorem msSwapU32_swap (i : UInt32) : msSwapU32 (msSwapU32 i) = i := by
  have h := image32_swap i
  simp only [image32, List.cons.injEq, and_true] at h
  obtain ⟨h0, h1, h2, h3⟩ := h
  rw [msSwapU32_eq (msSwapU32 i), h0, h1, h2, h3, msWord32_self]

/-- What lies in memory with its high byte first, read and swapped. -/
theorem msSwapU16_word (b0 b1 : UInt8) : msSwapU16 (msWord16 b1 b0) = msWord16 b0 b1 := by
  have hbytes := msWord16_bytes b1 b0
  simp only [image16, List.cons.injEq, and_true] at hbytes
  rw [msSwapU16_eq, hbytes.1, hbytes.2]

theorem msSwapU32_word (b0 b1 b2 b3 : UInt8) :
    msSwapU32 (msWord32 b3 b2 b1 b0) = msWord32 b0 b1 b2 b3 := by
  have hbytes := msWord32_bytes b3 b2 b1 b0
  simp only [image32, List.cons.injEq, and_true] at hbytes
  obtain ⟨h0, h1, h2, h3⟩ := hbytes
  rw [msSwapU32_eq, h0, h1, h2, h3]

/-! ## The header word -/

def versionMask : UInt32 := 0xC0000000
def mtypeMask   : UInt32 := 0x30000000
def tklenMask   : UInt32 := 0x0F000000
def codeMask    : UInt32 := 0x00FF0000
def midMask     : UInt32 := 0x0000FFFF

def versionOffset : UInt32 := 30
def mtypeOffset   : UInt32 := 28
def tklenOffset   : UInt32 := 24
def codeOffset    : UInt32 := 16

/-- Given the header components format the header.  The arguments are not
    checked: what does not fit its field is cut off by the mask. -/
def mcHeaderCreate (version messageType : UInt8) (tokenLen : UInt32) (code : UInt8)
    (messageId : UInt16) : UInt32 :=
  let header := versionMask &&& (version.toUInt32 <<< versionOffset)
  let header := header ||| (mtypeMask &&& (messageType.toUInt32 <<< mtypeOffset))
  let header := header ||| (tklenMask &&& (tokenLen <<< tklenOffset))
  let header := header ||| (codeMask &&& (code.toUInt32 <<< codeOffset))
  header ||| (midMask &&& messageId.toUInt32)

def mcHeaderGetVersion (header : UInt32) : UInt8 :=
  ((versionMask &&& header) >>> versionOffset).toUInt8

def mcHeaderGetMessageType (header : UInt32) : UInt8 :=
  ((mtypeMask &&& header) >>> mtypeOffset).toUInt8

def mcHeaderGetTokenLength (header : UInt32) : UInt8 :=
  ((tklenMask &&& header) >>> tklenOffset).toUInt8

def mcHeaderGetCode (header : UInt32) : UInt8 :=
  ((codeMask &&& header) >>> codeOffset).toUInt8

def mcHeaderGetMessageId (header : UInt32) : UInt16 :=
  (midMask &&& header).toUInt16

section getters
variable (version messageType : UInt8) (tokenLen : UInt32) (code : UInt8) (messageId : UInt16)

/-! Each getter returns its own component, cut to the width of its field. -/

theorem mcHeaderGetVersion_create :
    mcHeaderGetVersion (mcHeaderCreate version messageType tokenLen code messageId) =
      version &&& 3 := by
  apply UInt8.toBitVec_inj.mp
  ext k hk
  interval_cases k <;>
    simp [mcHeaderGetVersion, mcHeaderCreate, versionMask, mtypeMask, tklenMask, codeMask,
      midMask, versionOffset, mtypeOffset, tklenOffset, codeOffset]

theorem mcHeaderGetMessageType_create :
    mcHeaderGetMessageType (mcHeaderCreate version messageType tokenLen code messageId) =
      messageType &&& 3 := by
  apply UInt8.toBitVec_inj.mp
  ext k hk
  interval_cases k <;>
    simp [mcHeaderGetMessageType, mcHeaderCreate, versionMask, mtypeMask, tklenMask, codeMask,
      midMask, versionOffset, mtypeOffset, tklenOffset, codeOffset]

theorem mcHeaderGetTokenLength_create :
    mcHeaderGetTokenLength (mcHeaderCreate version messageType tokenLen code messageId) =
      tokenLen.toUInt8 &&& 15 := by
  apply UInt8.toBitVec_inj.mp
  ext k hk
  interval_cases k <;>
    simp [mcHeaderGetTokenLength, mcHeaderCreate, versionMask, mtypeMask, tklenMask, codeMask,
      midMask, versionOffset, mtypeOffset, tklenOffset, codeOffset]

theorem mcHeaderGetCode_create :
    mcHeaderGetCode (mcHeaderCreate version messageType tokenLen code messageId) = code := by
  apply UInt8.toBitVec_inj.mp
  ext k hk
  interval_cases k <;>
    simp [mcHeaderGetCode, mcHeaderCreate, versionMask, mtypeMask, tklenMask, codeMask,
      midMask, versionOffset, mtypeOffset, tklenOffset, codeOffset]

theorem mcHeaderGetMessageId_create :
    mcHeaderGetMessageId (mcHeaderCreate version messageType tokenLen code messageId) =
      messageId := by
  apply UInt16.toBitVec_inj.mp
  ext k hk
  interval_cases k <;>
    simp [mcHeaderGetMessageId, mcHeaderCreate, versionMask, mtypeMask, tklenMask, codeMask,
      midMask, versionOffset, mtypeOffset, tklenOffset, codeOffset]

end getters

theorem and_three_of_lt {b : UInt8} (h : b < 4) : b &&& 3 = b := by
  apply UInt8.toNat_inj.mp
  have hb : b.toNat < 4 := h
  rw [UInt8.toNat_and]
  have hm := Nat.and_two_pow_sub_one_eq_mod b.toNat 2
  simp only [Nat.reducePow, Nat.add_one_sub_one] at hm
  simpa [hm] using Nat.mod_eq_of_lt hb

theorem and_fifteen_of_le {b : UInt8} (h : b ≤ 15) : b &&& 15 = b := by
  apply UInt8.toNat_inj.mp
  have hb : b.toNat ≤ 15 := h
  rw [UInt8.toNat_and]
  have hm := Nat.and_two_pow_sub_one_eq_mod b.toNat 4
  simp only [Nat.reducePow, Nat.add_one_sub_one] at hm
  simpa [hm] using Nat.mod_eq_of_lt (Nat.lt_succ_of_le hb)

end Mcoap
