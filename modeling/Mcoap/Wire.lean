import Mathlib.Data.List.Basic
import Mathlib.Tactic.IntervalCases

/-! # The wire format

    The header and the encoding of a sequence of options that RFC 7252 3
    and 3.1 describe, on their own terms: numbers are natural numbers,
    values are byte lists.

    * `headerBytes`: the header;
    * `nibble`, `extension`: the three forms of a number (4 bits, 4 + 8
      bits, 4 + 16 bits);
    * `encodeOption`, `encodeOptions`: an option after the one before it,
      and a whole sequence;
    * `Ascending`: option numbers never go down;
    * `Small`: only the first two forms are used. -/

namespace Wire

/-! ## Numbers -/

/-- The 4-bit part of a number. -/
def nibble (n : Nat) : Nat :=
  if n < 13 then n else if n < 269 then 13 else 14

/-- The bytes that follow it. -/
def extension (n : Nat) : List UInt8 :=
  if n < 13 then []
  else if n < 269 then [UInt8.ofNat (n - 13)]
  else [UInt8.ofNat ((n - 269) / 256), UInt8.ofNat ((n - 269) % 256)]

theorem nibble_le (n : Nat) : nibble n ≤ 14 := by
  unfold nibble
  split
  · omega
  · split <;> omega

theorem nibble_small {n : Nat} (h : n < 13) : nibble n = n := if_pos h

theorem nibble_medium {n : Nat} (h1 : 13 ≤ n) (h2 : n < 269) : nibble n = 13 := by
  rw [nibble, if_neg (by omega), if_pos h2]

theorem nibble_large {n : Nat} (h : 269 ≤ n) : nibble n = 14 := by
  rw [nibble, if_neg (by omega), if_neg (by omega)]

theorem extension_small {n : Nat} (h : n < 13) : extension n = [] := if_pos h

theorem extension_medium {n : Nat} (h1 : 13 ≤ n) (h2 : n < 269) :
    extension n = [UInt8.ofNat (n - 13)] := by
  rw [extension, if_neg (by omega), if_pos h2]

theorem extension_large {n : Nat} (h : 269 ≤ n) :
    extension n = [UInt8.ofNat ((n - 269) / 256), UInt8.ofNat ((n - 269) % 256)] := by
  rw [extension, if_neg (by omega), if_neg (by omega)]

/-- How many bytes follow a 4-bit part. -/
def extensionSize (nib : Nat) : Nat :=
  if nib = 13 then 1 else if nib = 14 then 2 else 0

theorem extension_length (n : Nat) : (extension n).length = extensionSize (nibble n) := by
  by_cases h1 : n < 13
  · have hne13 : n ≠ 13 := by omega
    have hne14 : n ≠ 14 := by omega
    simp [extension_small h1, nibble_small h1, extensionSize, hne13, hne14]
  · by_cases h2 : n < 269
    · simp [extension_medium (by omega) h2, nibble_medium (by omega) h2, extensionSize]
    · simp [extension_large (by omega : 269 ≤ n), nibble_large (by omega : 269 ≤ n), extensionSize]

theorem extensionSize_le (nib : Nat) : extensionSize nib ≤ 2 := by
  unfold extensionSize
  split
  · omega
  · split <;> omega

theorem extension_length_le (n : Nat) : (extension n).length ≤ 2 := by
  rw [extension_length]
  exact extensionSize_le _

/-! ## Header -/

/-- The four header bytes: version (2 bits), type (2), token length (4),
    code (8), message id (16). -/
def headerBytes (version messageType tokenLen code : UInt8) (messageId : UInt16) : List UInt8 :=
  [(version <<< 6) ||| (messageType <<< 4) ||| tokenLen, code,
    (messageId >>> 8).toUInt8, messageId.toUInt8]

/-! ## Options -/

/-- An option: its number and its value. -/
structure Opt where
  num   : Nat
  value : List UInt8
  deriving DecidableEq, Repr

/-- The head byte of an option. -/
def headByte (delta len : Nat) : UInt8 := UInt8.ofNat (nibble delta * 16 + nibble len)

/-- An option after an option with the number `prev`. -/
def encodeOption (prev : Nat) (o : Opt) : List UInt8 :=
  headByte (o.num - prev) o.value.length ::
    (extension (o.num - prev) ++ (extension o.value.length ++ o.value))

/-- A sequence of options after an option with the number `prev`. -/
def encodeOptions (prev : Nat) : List Opt → List UInt8
  | [] => []
  | o :: os => encodeOption prev o ++ encodeOptions o.num os

/-- Option numbers never go down. -/
def Ascending (prev : Nat) : List Opt → Prop
  | [] => True
  | o :: os => prev ≤ o.num ∧ Ascending o.num os

/-- Only the one- and two-byte forms of a delta and of a length are used. -/
def Small (prev : Nat) : List Opt → Prop
  | [] => True
  | o :: os => (o.num - prev < 269 ∧ o.value.length < 269) ∧ Small o.num os

instance decidableSmall : (prev : Nat) → (os : List Opt) → Decidable (Small prev os)
  | _, [] => isTrue trivial
  | prev, o :: os =>
    have : Decidable (Small o.num os) := decidableSmall o.num os
    inferInstanceAs (Decidable ((o.num - prev < 269 ∧ o.value.length < 269) ∧ Small o.num os))

theorem Small.values {prev : Nat} {os : List Opt} (h : Small prev os) :
    ∀ o ∈ os, o.value.length < 269 := by
  induction os generalizing prev with
  | nil => exact fun o ho => absurd ho List.not_mem_nil
  | cons o os ih =>
    intro o' ho'
    rcases List.mem_cons.mp ho' with rfl | ho'
    · exact h.1.2
    · exact ih h.2 o' ho'

/-- No option has a lower number than one before it. -/
theorem Ascending.pairwise {prev : Nat} {os : List Opt} (h : Ascending prev os) :
    (∀ o ∈ os, prev ≤ o.num) ∧ os.Pairwise fun o o' => o.num ≤ o'.num := by
  induction os generalizing prev with
  | nil => exact ⟨fun o ho => absurd ho List.not_mem_nil, List.Pairwise.nil⟩
  | cons o os ih =>
    obtain ⟨hprev, hrest⟩ := h
    obtain ⟨hle, hpairwise⟩ := ih hrest
    constructor
    · intro o' ho'
      rcases List.mem_cons.mp ho' with rfl | ho'
      · exact hprev
      · exact Nat.le_trans hprev (hle o' ho')
    · exact List.pairwise_cons.mpr ⟨hle, hpairwise⟩

theorem headByte_toNat (delta len : Nat) :
    (headByte delta len).toNat = nibble delta * 16 + nibble len := by
  have hd := nibble_le delta
  have hl := nibble_le len
  rw [headByte, UInt8.toNat_ofNat']
  exact Nat.mod_eq_of_lt (by omega)

/-- A head byte is never the payload marker. -/
theorem headByte_ne_marker (delta len : Nat) : headByte delta len ≠ 0xff := by
  intro h
  have hl := nibble_le len
  have hn := headByte_toNat delta len
  rw [h] at hn
  have : (0xff : UInt8).toNat = 255 := by decide
  omega

theorem headByte_high (delta len : Nat) :
    (headByte delta len >>> 4).toNat = nibble delta := by
  have hl := nibble_le len
  rw [UInt8.toNat_shiftRight, headByte_toNat, show (4 : UInt8).toNat % 8 = 4 by decide,
    Nat.shiftRight_eq_div_pow]
  omega

theorem headByte_low (delta len : Nat) :
    (headByte delta len &&& 0x0f).toNat = nibble len := by
  have hl := nibble_le len
  rw [UInt8.toNat_and, headByte_toNat, show (0x0f : UInt8).toNat = 2 ^ 4 - 1 by decide,
    Nat.and_two_pow_sub_one_eq_mod]
  omega

theorem encodeOption_length (prev : Nat) (o : Opt) :
    (encodeOption prev o).length =
      1 + (extension (o.num - prev)).length + (extension o.value.length).length
        + o.value.length := by
  simp only [encodeOption, List.length_cons, List.length_append]
  omega

theorem encodeOption_length_pos (prev : Nat) (o : Opt) : 0 < (encodeOption prev o).length := by
  simp [encodeOption]

/-- Every option takes at least one byte. -/
theorem length_le_encodeOptions (prev : Nat) (os : List Opt) :
    os.length ≤ (encodeOptions prev os).length := by
  induction os generalizing prev with
  | nil => simp
  | cons o os ih =>
    have hpos := encodeOption_length_pos prev o
    have htl := ih o.num
    simp only [encodeOptions, List.length_cons, List.length_append]
    omega

end Wire
