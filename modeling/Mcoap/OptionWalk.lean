import Mcoap.Datagram

/-! # The walk over the option headers

    What the bytes of a buffer say, and where the decoder gets to in them.

    * `Encoded`: from a position on, the bytes are a sequence of complete
      options, up to the end or a marker;
    * `Reaches` (of the walk) and `Encoded.walk`: over such a sequence the
      walk goes from option to option;
    * `encoded_of_rightHeaders`: what the walk passes over is such a
      sequence when its headers are right;
    * `walk_ends`: the three ways in which a walk can end.

    A number has exactly one encoding, so the options are the only ones
    with these bytes (`Encoded.unique`). -/

namespace Mcoap

open ByteMem ByteProg StableSort

/-! ## Section 1: Numbers in a buffer -/

/-- The number that a 4-bit part and the bytes at `q` stand for. -/
def numberValue (m : Mem) (q : Nat) (nib : UInt8) : Nat :=
  if nib = 13 then (m q).toNat + 13
  else if nib = 14 then 256 * (m q).toNat + (m (q + 1)).toNat + 269
  else nib.toNat

/-- Every 4-bit part but 15 is that of the number, and the bytes that follow
    it are the number's extension. -/
theorem numberValue_canonical {m : Mem} {q : Nat} {nib : UInt8} (h : nib.toNat ≤ 14) :
    Wire.nibble (numberValue m q nib) = nib.toNat ∧
      Holds m q (Wire.extension (numberValue m q nib)) ∧ numberValue m q nib ≤ 65804 := by
  have hb0 := (m q).toNat_lt
  have hb1 := (m (q + 1)).toNat_lt
  unfold numberValue
  by_cases h13 : nib = 13
  · have hnib : nib.toNat = 13 := by
      rw [h13]
      rfl
    rw [if_pos h13, Wire.nibble_medium (by omega) (by omega),
      Wire.extension_medium (by omega) (by omega), hnib, Nat.add_sub_cancel, UInt8.ofNat_toNat]
    exact ⟨rfl, ⟨rfl, trivial⟩, by omega⟩
  · have hne13 : nib.toNat ≠ 13 := fun hn => h13 (nibble_eq_iff.mpr hn)
    by_cases h14 : nib = 14
    · have hnib : nib.toNat = 14 := by
        rw [h14]
        rfl
      have hhigh : (256 * (m q).toNat + (m (q + 1)).toNat + 269 - 269) / 256 = (m q).toNat := by
        omega
      have hlow : (256 * (m q).toNat + (m (q + 1)).toNat + 269 - 269) % 256 =
          (m (q + 1)).toNat := by omega
      rw [if_neg h13, if_pos h14, Wire.nibble_large (by omega), Wire.extension_large (by omega),
        hnib, hhigh, hlow, UInt8.ofNat_toNat, UInt8.ofNat_toNat]
      exact ⟨rfl, ⟨rfl, rfl, trivial⟩, by omega⟩
    · have hne14 : nib.toNat ≠ 14 := fun hn => h14 (nibble_eq_iff.mpr hn)
      rw [if_neg h13, if_neg h14, Wire.nibble_small (by omega), Wire.extension_small (by omega)]
      exact ⟨rfl, trivial, by omega⟩

/-- A number is read back from its 4-bit part and its extension. -/
theorem numberValue_unique {m : Mem} {q n : Nat} {nib : UInt8} (hn : n ≤ 65804)
    (hnib : nib.toNat = Wire.nibble n) (hheld : Holds m q (Wire.extension n)) :
    numberValue m q nib = n := by
  unfold numberValue
  by_cases h13 : n < 13
  · rw [Wire.nibble_small h13] at hnib
    have hne13 : nib ≠ 13 := fun h => by
      have hn := nibble_eq_iff.mp h
      have h' : (13 : UInt8).toNat = 13 := rfl
      omega
    have hne14 : nib ≠ 14 := fun h => by
      have hn := nibble_eq_iff.mp h
      have h' : (14 : UInt8).toNat = 14 := rfl
      omega
    rw [if_neg hne13, if_neg hne14, hnib]
  · by_cases h269 : n < 269
    · rw [Wire.nibble_medium (by omega) h269] at hnib
      rw [Wire.extension_medium (by omega) h269] at hheld
      have hbyte : m q = UInt8.ofNat (n - 13) := hheld.1
      rw [if_pos (nibble_eq_iff.mpr hnib), hbyte, UInt8.toNat_ofNat']
      omega
    · rw [Wire.nibble_large (by omega)] at hnib
      rw [Wire.extension_large (by omega)] at hheld
      obtain ⟨hhigh, hlow, _⟩ := hheld
      have hne13 : nib ≠ 13 := fun h => by
        have hn := nibble_eq_iff.mp h
        have h' : (13 : UInt8).toNat = 13 := rfl
        omega
      rw [if_neg hne13, if_pos (nibble_eq_iff.mpr hnib), hhigh, hlow, UInt8.toNat_ofNat',
        UInt8.toNat_ofNat']
      omega

/-- The delta that the option at `p` announces. -/
def announcedDelta (m : Mem) (p : Nat) : Nat := numberValue m (p + 1) (m p >>> 4)

theorem announcedLength_eq {m : Mem} {p : Nat} (h : m p &&& 0x0f ≠ 14) :
    numberValue m (lengthAt m p) (m p &&& 0x0f) = announcedLength m p := by
  rw [numberValue, announcedLength, if_neg h]

theorem announcedLength_lt (m : Mem) (p : Nat) : announcedLength m p < 269 := by
  have hbyte := (m (lengthAt m p)).toNat_lt
  have hnib := (m p &&& 0x0f).toNat_lt
  rw [announcedLength]
  split
  · omega
  · omega

/-! ## Section 2: Options in a buffer -/

/-- A byte is made of its two halves. -/
theorem byte_halves (b : UInt8) :
    b = UInt8.ofNat ((b >>> 4).toNat * 16 + (b &&& 0x0f).toNat) ∧ (b >>> 4).toNat ≤ 15 ∧
      (b &&& 0x0f).toNat ≤ 15 := by
  have hb := b.toNat_lt
  have hhigh : (b >>> 4).toNat = b.toNat / 16 := by
    rw [UInt8.toNat_shiftRight, show (4 : UInt8).toNat % 8 = 4 by decide,
      Nat.shiftRight_eq_div_pow]
  have hlow : (b &&& 0x0f).toNat = b.toNat % 16 := by
    rw [UInt8.toNat_and, show (0x0f : UInt8).toNat = 2 ^ 4 - 1 by decide,
      Nat.and_two_pow_sub_one_eq_mod]
  refine ⟨?_, by omega, by omega⟩
  apply UInt8.toNat_inj.mp
  rw [UInt8.toNat_ofNat', hhigh, hlow]
  omega

theorem nibble_le_fourteen {nib : UInt8} (hle : nib.toNat ≤ 15) (hne : nib ≠ 15) :
    nib.toNat ≤ 14 := by
  have h : nib.toNat ≠ 15 := fun hn => hne (nibble_eq_iff.mpr hn)
  omega

/-- The option at `p`, after an option with the number `prev`. -/
def optionAt (m : Mem) (prev p : Nat) : Wire.Opt :=
  ⟨prev + announcedDelta m p,
    slice m (lengthAt m p + Wire.extensionSize (m p &&& 0x0f).toNat) (announcedLength m p)⟩

/-- The bytes of an option with right headers are its encoding. -/
theorem holds_optionAt {m : Mem} {p : Nat} (prev : Nat) (hhigh : m p >>> 4 ≠ 15)
    (hlow : m p &&& 0x0f ≠ 15) (hshort : m p &&& 0x0f ≠ 14) :
    Holds m p (Wire.encodeOption prev (optionAt m prev p)) ∧
      p + (Wire.encodeOption prev (optionAt m prev p)).length = optionEnd m p := by
  obtain ⟨hbyte, hhigh15, hlow15⟩ := byte_halves (m p)
  obtain ⟨hdnib, hdext, _⟩ :=
    numberValue_canonical (m := m) (q := p + 1) (nibble_le_fourteen hhigh15 hhigh)
  obtain ⟨hlnib, hlext, _⟩ :=
    numberValue_canonical (m := m) (q := lengthAt m p) (nibble_le_fourteen hlow15 hlow)
  rw [announcedLength_eq hshort] at hlnib hlext
  have hdelta : (optionAt m prev p).num - prev = numberValue m (p + 1) (m p >>> 4) :=
    Nat.add_sub_cancel_left ..
  have hlen : (optionAt m prev p).value.length = announcedLength m p := slice_length ..
  have hat : p + 1 + (Wire.extension (numberValue m (p + 1) (m p >>> 4))).length =
      lengthAt m p := by rw [Wire.extension_length, hdnib, lengthAt]
  have hext : (Wire.extension (announcedLength m p)).length =
      Wire.extensionSize (m p &&& 0x0f).toNat := by rw [Wire.extension_length, hlnib]
  rw [Wire.encodeOption_length, hdelta, hlen, Wire.encodeOption, hdelta, hlen, holds_cons,
    holds_append, holds_append, hat, hext]
  refine ⟨⟨?_, hdext, hlext, ?_⟩, ?_⟩
  · rw [Wire.headByte, hdnib, hlnib]
    exact hbyte
  · exact holds_slice m _ _
  · rw [optionEnd]
    omega

/-- What the bytes at `p` say when an option is encoded there. -/
structure OptionIn (m : Mem) (prev p : Nat) (o : Wire.Opt) : Prop where
  high   : m p >>> 4 ≠ 15
  low    : m p &&& 0x0f ≠ 15
  delta  : prev + announcedDelta m p = o.num
  length : numberValue m (lengthAt m p) (m p &&& 0x0f) = o.value.length
  value  : Holds m (lengthAt m p + Wire.extensionSize (m p &&& 0x0f).toNat) o.value
  ends   : lengthAt m p + Wire.extensionSize (m p &&& 0x0f).toNat + o.value.length =
    p + (Wire.encodeOption prev o).length

theorem optionIn_of_holds {m : Mem} {prev p : Nat} {o : Wire.Opt}
    (hheld : Holds m p (Wire.encodeOption prev o)) (hprev : prev ≤ o.num) (hnum : o.num ≤ 65535)
    (hlen : o.value.length ≤ 65804) : OptionIn m prev p o := by
  obtain ⟨hbyte, hdext, hlext, hvalue⟩ := holds_encodeOption hheld
  have hdnib : (m p >>> 4).toNat = Wire.nibble (o.num - prev) := by
    rw [hbyte, Wire.headByte_high]
  have hlnib : (m p &&& 0x0f).toNat = Wire.nibble o.value.length := by
    rw [hbyte, Wire.headByte_low]
  have hdle := Wire.nibble_le (o.num - prev)
  have hlle := Wire.nibble_le o.value.length
  have hat : p + 1 + (Wire.extension (o.num - prev)).length = lengthAt m p := by
    rw [Wire.extension_length, ← hdnib, lengthAt]
  rw [hat] at hlext hvalue
  rw [Wire.extension_length, ← hlnib] at hvalue
  constructor
  · intro h
    rw [h] at hdnib
    have h15 : (15 : UInt8).toNat = 15 := rfl
    omega
  · intro h
    rw [h] at hlnib
    have h15 : (15 : UInt8).toNat = 15 := rfl
    omega
  · rw [announcedDelta, numberValue_unique (by omega) hdnib hdext]
    omega
  · exact numberValue_unique hlen hlnib hlext
  · exact hvalue
  · rw [Wire.encodeOption_length, Wire.extension_length o.value.length, ← hlnib]
    omega

/-! ## Section 3: Sequences of options -/

/-- From `p` on, up to the end of the buffer or a marker, the bytes are the
    options `os` after an option with the number `prev`. -/
structure Encoded (m : Mem) (nbytes : UInt32) (prev p : Nat) (os : List Wire.Opt) : Prop where
  held      : Holds m p (Wire.encodeOptions prev os)
  ascending : Wire.Ascending prev os
  nums      : ∀ o ∈ os, o.num ≤ 65535
  lengths   : ∀ o ∈ os, o.value.length ≤ 65804
  stop      : AtStop m nbytes (p + (Wire.encodeOptions prev os).length)

theorem AtStop.le {m : Mem} {nbytes : UInt32} {p : Nat} (h : AtStop m nbytes p) :
    p ≤ nbytes.toNat := by
  rcases h with h | ⟨h, _⟩
  · exact Nat.le_of_eq h
  · exact Nat.le_of_lt h

/-- A header is no stop. -/
theorem AtStop.not_header {m : Mem} {nbytes : UInt32} {p : Nat} (h : AtStop m nbytes p)
    (hp : p < nbytes.toNat) : m p = 0xff := by
  rcases h with h | ⟨_, h⟩
  · omega
  · exact h

section encoded
variable {m : Mem} {nbytes : UInt32} {prev p : Nat} {o : Wire.Opt} {os : List Wire.Opt}

/-- The first option, and the ones after it. -/
theorem Encoded.cons (h : Encoded m nbytes prev p (o :: os)) :
    OptionIn m prev p o ∧
      Encoded m nbytes o.num (p + (Wire.encodeOption prev o).length) os := by
  obtain ⟨hheld, ⟨hprev, hasc⟩, hnums, hlengths, hstop⟩ := h
  rw [Wire.encodeOptions, holds_append] at hheld
  rw [Wire.encodeOptions, List.length_append, ← Nat.add_assoc] at hstop
  constructor
  · exact optionIn_of_holds hheld.1 hprev (hnums o List.mem_cons_self)
      (hlengths o List.mem_cons_self)
  · exact ⟨hheld.2, hasc, fun o' ho' => hnums o' (List.mem_cons_of_mem _ ho'),
      fun o' ho' => hlengths o' (List.mem_cons_of_mem _ ho'), hstop⟩

/-- Where options start there is a header. -/
theorem Encoded.header (h : Encoded m nbytes prev p (o :: os)) :
    p < nbytes.toNat ∧ m p ≠ 0xff := by
  have hle := h.stop.le
  have hpos := Wire.encodeOption_length_pos prev o
  rw [Wire.encodeOptions, List.length_append] at hle
  constructor
  · omega
  · have hbyte : m p = Wire.headByte (o.num - prev) o.value.length := h.held.1
    rw [hbyte]
    exact Wire.headByte_ne_marker _ _

/-- No two sequences have the same bytes. -/
theorem Encoded.unique {os' : List Wire.Opt} (h : Encoded m nbytes prev p os)
    (h' : Encoded m nbytes prev p os') : os = os' := by
  induction os generalizing prev p os' with
  | nil =>
    cases os' with
    | nil => rfl
    | cons o' os' =>
      obtain ⟨hp, hmark⟩ := h'.header
      exact absurd (h.stop.not_header hp) hmark
  | cons o os ih =>
    cases os' with
    | nil =>
      obtain ⟨hp, hmark⟩ := h.header
      exact absurd (h'.stop.not_header hp) hmark
    | cons o' os' =>
      obtain ⟨hin, hrest⟩ := h.cons
      obtain ⟨hin', hrest'⟩ := h'.cons
      -- number and length are in the header, and the value is what lies there
      have hnum : o.num = o'.num := hin.delta.symm.trans hin'.delta
      have hlen : o.value.length = o'.value.length := hin.length.symm.trans hin'.length
      have hvalue : o.value = o'.value := by
        rw [← slice_of_holds hin.value, ← slice_of_holds hin'.value, hlen]
      have hends := hin.ends
      have hends' := hin'.ends
      have hat : p + (Wire.encodeOption prev o).length =
          p + (Wire.encodeOption prev o').length := by omega
      have hsame : o = o' := by
        cases o
        cases o'
        simp only [Wire.Opt.mk.injEq]
        exact ⟨hnum, hvalue⟩
      rw [hnum, hat] at hrest
      rw [hsame, ih hrest hrest']

end encoded

/-- `k` options on, from `p` and the number `prev`: no 4-bit part is 15, and
    no option number is above 65535. -/
def RightHeaders (m : Mem) : Nat → Nat → Nat → Prop
  | 0, _, _ => True
  | k + 1, prev, p =>
    (m p >>> 4 ≠ 15 ∧ m p &&& 0x0f ≠ 15 ∧ prev + announcedDelta m p ≤ 65535) ∧
      RightHeaders m k (prev + announcedDelta m p) (optionEnd m p)

/-- `k` options on from `p`: no delta has two extension bytes. -/
def ShortDeltas (m : Mem) : Nat → Nat → Prop
  | 0, _ => True
  | k + 1, p => m p >>> 4 ≠ 14 ∧ ShortDeltas m k (optionEnd m p)

/-- Over a sequence of options the walk goes from option to option. -/
theorem Encoded.walk {m : Mem} {nbytes : UInt32} {k prev p q : Nat} {os : List Wire.Opt}
    (hreach : Reaches m nbytes.toNat k p q) (h : Encoded m nbytes prev p os) :
    RightHeaders m k prev p ∧ ∃ prev' os', Encoded m nbytes prev' q os' ∧
      p + (Wire.encodeOptions prev os).length = q + (Wire.encodeOptions prev' os').length := by
  induction hreach generalizing prev os with
  | here p => exact ⟨trivial, prev, os, h, rfl⟩
  | @option k p q hp hmark hlen hend hrest ih =>
    cases os with
    | nil => exact absurd (h.stop.not_header hp) hmark
    | cons o os =>
      obtain ⟨hin, htail⟩ := h.cons
      -- the announced end is the end of the encoding
      have hlength : announcedLength m p = o.value.length := by
        rw [← announcedLength_eq hlen]
        exact hin.length
      have hat : p + (Wire.encodeOption prev o).length = optionEnd m p := by
        rw [optionEnd, hlength]
        exact hin.ends.symm
      have hnum : prev + announcedDelta m p ≤ 65535 := by
        rw [hin.delta]
        exact h.nums o List.mem_cons_self
      rw [hat, ← hin.delta] at htail
      obtain ⟨hright, prev', os', hencoded, hlast⟩ := ih htail
      refine ⟨⟨⟨hin.high, hin.low, hnum⟩, hright⟩, prev', os', hencoded, ?_⟩
      rw [Wire.encodeOptions, List.length_append, ← Nat.add_assoc, hat, ← hlast, hin.delta]

/-- What a walk passes over, up to a stop, is a sequence of options when its
    headers are right. -/
theorem encoded_of_rightHeaders {m : Mem} {nbytes : UInt32} {k prev p q : Nat}
    (hreach : Reaches m nbytes.toNat k p q) (hstop : AtStop m nbytes q)
    (hright : RightHeaders m k prev p) :
    ∃ os, os.length = k ∧ Encoded m nbytes prev p os ∧
      p + (Wire.encodeOptions prev os).length = q ∧ (ShortDeltas m k p → Wire.Small prev os) := by
  induction hreach generalizing prev with
  | here p =>
    refine ⟨[], rfl, ⟨trivial, trivial, ?_, ?_, hstop⟩, rfl, fun _ => trivial⟩
    · exact fun o ho => absurd ho List.not_mem_nil
    · exact fun o ho => absurd ho List.not_mem_nil
  | @option k p q hp hmark hlen hend hrest ih =>
    obtain ⟨⟨hhigh, hlow, hnum⟩, hright⟩ := hright
    obtain ⟨os, hcount, hencoded, hlast, hsmall⟩ := ih hstop hright
    obtain ⟨hheld, hat⟩ := holds_optionAt prev hhigh hlow hlen
    have hvalue : (optionAt m prev p).value.length < 269 := by
      rw [show (optionAt m prev p).value.length = announcedLength m p from slice_length ..]
      exact announcedLength_lt m p
    have hlength : p + (Wire.encodeOptions prev (optionAt m prev p :: os)).length = q := by
      rw [Wire.encodeOptions, List.length_append, ← Nat.add_assoc, hat]
      exact hlast
    refine ⟨optionAt m prev p :: os, by simp [hcount], ⟨?_, ?_, ?_, ?_, ?_⟩, hlength, ?_⟩
    · rw [Wire.encodeOptions, holds_append, hat]
      exact ⟨hheld, hencoded.held⟩
    · exact ⟨Nat.le_add_right .., hencoded.ascending⟩
    · intro o ho
      rcases List.mem_cons.mp ho with rfl | ho
      · exact hnum
      · exact hencoded.nums o ho
    · intro o ho
      rcases List.mem_cons.mp ho with rfl | ho
      · omega
      · exact hencoded.lengths o ho
    · rw [hlength]
      exact hstop
    · rintro ⟨hshort, hshorts⟩
      -- a delta without two extension bytes is in one of the first two forms
      have hdelta : announcedDelta m p < 269 := by
        have hbyte := (m (p + 1)).toNat_lt
        have hnib := (m p >>> 4).toNat_lt
        rw [announcedDelta, numberValue, if_neg hshort]
        split
        · omega
        · omega
      refine ⟨⟨?_, hvalue⟩, hsmall hshorts⟩
      show prev + announcedDelta m p - prev < 269
      omega

/-! ## Section 4: How a walk ends -/

/-- An option that starts at `q` runs over the end of the buffer. -/
def FallsOff (m : Mem) (n q : Nat) : Prop :=
  q < n ∧ m q ≠ 0xff ∧ n < (if m q &&& 0x0f = 14 then lengthAt m q + 2 else optionEnd m q)

/-- A length nibble 14 at `q`, with both extension bytes inside. -/
def LongLength (m : Mem) (n q : Nat) : Prop :=
  q < n ∧ m q ≠ 0xff ∧ m q &&& 0x0f = 14 ∧ lengthAt m q + 2 ≤ n

/-- The three ways in which a walk can end. -/
theorem walk_ends {m : Mem} {nbytes : UInt32} {p : Nat} (hp : p ≤ nbytes.toNat) :
    ∃ k q, Reaches m nbytes.toNat k p q ∧
      (AtStop m nbytes q ∨ FallsOff m nbytes.toNat q ∨ LongLength m nbytes.toNat q) := by
  -- by induction on what is left of the buffer
  induction hk : nbytes.toNat - p using Nat.strongRecOn generalizing p with
  | _ d ih =>
    have hgt := lengthAt_gt m p
    have hgt' := lengthAt_le_optionEnd m p
    by_cases hend : p = nbytes.toNat
    · exact ⟨0, p, Reaches.here p, Or.inl (Or.inl hend)⟩
    have hlt : p < nbytes.toNat := by omega
    by_cases hmark : m p = 0xff
    · exact ⟨0, p, Reaches.here p, Or.inl (Or.inr ⟨hlt, hmark⟩)⟩
    by_cases h14 : m p &&& 0x0f = 14
    · refine ⟨0, p, Reaches.here p, Or.inr ?_⟩
      by_cases hext : lengthAt m p + 2 ≤ nbytes.toNat
      · exact Or.inr ⟨hlt, hmark, h14, hext⟩
      · refine Or.inl ⟨hlt, hmark, ?_⟩
        rw [if_pos h14]
        omega
    by_cases hover : optionEnd m p ≤ nbytes.toNat
    · obtain ⟨k, q, hreach, hlast⟩ := ih _ (by omega) hover rfl
      exact ⟨k + 1, q, Reaches.option hlt hmark h14 hover hreach, hlast⟩
    · refine ⟨0, p, Reaches.here p, Or.inr (Or.inl ⟨hlt, hmark, ?_⟩)⟩
      rw [if_neg h14]
      omega

/-- No sequence of options runs over the end. -/
theorem Encoded.not_fallsOff {m : Mem} {nbytes : UInt32} {prev p : Nat} {os : List Wire.Opt}
    (h : Encoded m nbytes prev p os) : ¬ FallsOff m nbytes.toNat p := by
  intro ⟨hp, hmark, hover⟩
  cases os with
  | nil => exact hmark (h.stop.not_header hp)
  | cons o os =>
    obtain ⟨hin, htail⟩ := h.cons
    have hends := hin.ends
    have hstop := htail.stop.le
    by_cases h14 : m p &&& 0x0f = 14
    · have hsize : Wire.extensionSize (m p &&& 0x0f).toNat = 2 := by
        rw [h14]
        rfl
      rw [if_pos h14] at hover
      omega
    · have hlength := hin.length
      rw [announcedLength_eq h14] at hlength
      rw [if_neg h14, optionEnd] at hover
      omega

/-- A long length has at least as many bytes behind it. -/
theorem Encoded.long_room {m : Mem} {nbytes : UInt32} {prev p : Nat} {os : List Wire.Opt}
    (h : Encoded m nbytes prev p os) (hlong : LongLength m nbytes.toNat p) :
    lengthAt m p + 2 + 269 ≤ nbytes.toNat := by
  obtain ⟨hp, hmark, h14, _⟩ := hlong
  cases os with
  | nil => exact absurd (h.stop.not_header hp) hmark
  | cons o os =>
    obtain ⟨hin, htail⟩ := h.cons
    have hends := hin.ends
    have hstop := htail.stop.le
    have hlength := hin.length
    have hne : ¬ m p &&& 0x0f = 13 := by
      rw [h14]
      decide
    have hsize : Wire.extensionSize (m p &&& 0x0f).toNat = 2 := by
      rw [h14]
      rfl
    rw [numberValue, if_neg hne, if_pos h14] at hlength
    omega

end Mcoap
