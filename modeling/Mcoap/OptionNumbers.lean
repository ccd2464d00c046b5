import Mcoap.OptionMemory

/-! # Numbers in options

    `mc_option_as_uint32` on the value of an option, and on what
    `mc_option_init_uint32` has written there.

    A value of one, two or four bytes is read for what it is.  Any other
    length is taken for 4, so the reader runs past the end of an empty value
    and of one of three bytes.  The writer makes neither.

    * `bigEndian`: the number that bytes denote;
    * `ReadsBack`: it is what is read, and nothing but the value is;
    * `readsBack_iff`: which values are;
    * `Trip`: an option is copied from place to place;
    * `uint_values_iff`: both together. -/

namespace Mcoap

open Blocks

/-! ## Section 1: Reading a number -/

/-- The number that bytes in network order denote. -/
def bigEndian (bs : List UInt8) : Nat := bs.foldl (fun n b => n * 256 + b.toNat) 0

/-- The memory in which the bytes of an option end behind its value. -/
def Memory.cut (mem : Memory) (cell : OptionCell) (value : List UInt8) : Memory :=
  match cell.bytes with
  | none => mem
  | some p => { mem with store := mem.store.store p (.bytes value) }

/-- The option reads as the number its value denotes, and no byte outside
    the value is read. -/
def ReadsBack (mem : Memory) (cell : OptionCell) (o : Wire.Opt) : Prop :=
  mem.mcOptionAsUint32 (some cell) = .ok (UInt32.ofNat (bigEndian o.value)) ∧
    ∃ v, (mem.cut cell o.value).mcOptionAsUint32 (some cell) = .ok v

section

variable {mem : Memory} {cell : OptionCell} {p : Ptr} {value rest : List UInt8}

theorem loadByte_value (hblock : mem.store.blocks p = some (.bytes (value ++ rest))) {i : Nat}
    (hi : i < value.length) : mem.loadByte p i = .ok (value[i]) := by
  have hget : (value ++ rest)[i]? = some (value[i]) := by
    rw [List.getElem?_append_left hi, List.getElem?_eq_getElem hi]
  simp only [Memory.loadByte, hblock, hget]

/-- One, two and four bytes are read as they are meant. -/
theorem asUint32_value (hp : cell.bytes = some p) (hcount : cell.nbytes.toNat = value.length)
    (hblock : mem.store.blocks p = some (.bytes (value ++ rest)))
    (hlen : value.length = 1 ∨ value.length = 2 ∨ value.length = 4) :
    mem.mcOptionAsUint32 (some cell) = .ok (UInt32.ofNat (bigEndian value)) := by
  have hload := fun i hi => loadByte_value (i := i) hblock hi
  rcases hlen with h1 | h2 | h4
  · obtain ⟨b0, rfl⟩ := List.length_eq_one_iff.mp h1
    have hone : cell.nbytes = 1 := UInt32.toNat_inj.mp (hcount.trans h1)
    have hb0 : mem.loadByte p 0 = .ok b0 := hload 0 (by simp)
    simp only [Memory.mcOptionAsUint32, hp, if_pos hone, hb0]
    simp [bind, Except.bind, pure, Except.pure, bigEndian]
  · obtain ⟨b0, b1, rfl⟩ := List.length_eq_two.mp h2
    have htwo : cell.nbytes = 2 := UInt32.toNat_inj.mp (hcount.trans h2)
    have hone : cell.nbytes ≠ 1 := by rw [htwo]; decide
    have hb0 : mem.loadByte p 0 = .ok b0 := hload 0 (by simp)
    have hb1 : mem.loadByte p 1 = .ok b1 := hload 1 (by simp)
    simp only [Memory.mcOptionAsUint32, hp, if_neg hone, if_pos htwo, hb0, hb1, msSwapU16_word]
    simp only [bind, Except.bind, pure, Except.pure, Except.ok.injEq]
    apply UInt32.toNat_inj.mp
    have h0 := b0.toNat_lt
    have h1 := b1.toNat_lt
    have hsum : bigEndian [b0, b1] = b0.toNat * 256 + b1.toNat := by simp [bigEndian]
    rw [UInt16.toNat_toUInt32, msWord16_toNat, hsum, ofNat32_toNat (by omega)]
  · obtain ⟨b0, b1, b2, b3, rfl⟩ : ∃ b0 b1 b2 b3, value = [b0, b1, b2, b3] := by
      match value, h4 with
      | [b0, b1, b2, b3], _ => exact ⟨b0, b1, b2, b3, rfl⟩
    have hfour : cell.nbytes = 4 := UInt32.toNat_inj.mp (hcount.trans h4)
    have hone : cell.nbytes ≠ 1 := by rw [hfour]; decide
    have htwo : cell.nbytes ≠ 2 := by rw [hfour]; decide
    have hb0 : mem.loadByte p 0 = .ok b0 := hload 0 (by simp)
    have hb1 : mem.loadByte p 1 = .ok b1 := hload 1 (by simp)
    have hb2 : mem.loadByte p 2 = .ok b2 := hload 2 (by simp)
    have hb3 : mem.loadByte p 3 = .ok b3 := hload 3 (by simp)
    simp only [Memory.mcOptionAsUint32, hp, if_neg hone, if_neg htwo, hb0, hb1, hb2, hb3,
      msSwapU32_word]
    simp only [bind, Except.bind, pure, Except.pure, Except.ok.injEq]
    apply UInt32.toNat_inj.mp
    have h0 := b0.toNat_lt
    have h1 := b1.toNat_lt
    have h2 := b2.toNat_lt
    have h3 := b3.toNat_lt
    have hsum : bigEndian [b0, b1, b2, b3] =
        b0.toNat * 16777216 + b1.toNat * 65536 + b2.toNat * 256 + b3.toNat := by
      simp only [bigEndian, List.foldl_cons, List.foldl_nil]
      omega
    rw [msWord32_toNat, hsum, ofNat32_toNat (by omega)]

/-- For no byte and for three, four are read. -/
theorem asUint32_outside (hp : cell.bytes = some p) (hcount : cell.nbytes.toNat = value.length)
    (hblock : mem.store.blocks p = some (.bytes value))
    (hlen : value.length = 0 ∨ value.length = 3) :
    mem.mcOptionAsUint32 (some cell) = .error .outOfBounds := by
  have hone : cell.nbytes ≠ 1 := by
    intro h
    rw [h, UInt32.toNat_one] at hcount
    omega
  have htwo : cell.nbytes ≠ 2 := by
    intro h
    have : (2 : UInt32).toNat = 2 := rfl
    rw [h] at hcount
    omega
  simp only [Memory.mcOptionAsUint32, hp, if_neg hone, if_neg htwo]
  rcases hlen with h0 | h3
  · rw [List.length_eq_zero_iff.mp h0] at hblock
    simp only [Memory.loadByte, hblock]
    rfl
  · obtain ⟨b0, b1, b2, rfl⟩ := List.length_eq_three.mp h3
    simp only [Memory.loadByte, hblock]
    rfl

/-- Values of one, two and four bytes are read back, and an empty one if
    there is no pointer to it. -/
theorem readsBack_iff {o : Wire.Opt} (h : OptionAt mem cell o) (hlen : o.value.length ≤ 4) :
    ReadsBack mem cell o ↔
      (o.value.length = 1 ∨ o.value.length = 2 ∨ o.value.length = 4) ∨ cell.bytes = none := by
  obtain ⟨_, hcount, ⟨hnull, hempty⟩ | ⟨p, rest, hp, _, hblock⟩⟩ := h
  · refine iff_of_true ?_ (Or.inr hnull)
    have hzero : mem.mcOptionAsUint32 (some cell) = .ok 0 := by
      simp only [Memory.mcOptionAsUint32, hnull]
      rfl
    refine ⟨by rw [hzero, hempty]; rfl, 0, ?_⟩
    rw [Memory.cut, hnull]
    exact hzero
  · have hcut : (mem.cut cell o.value).store.blocks p = some (.bytes o.value) := by
      rw [Memory.cut, hp]
      exact mem.store.store_self _ hblock
    have hnone : cell.bytes ≠ none := by
      rw [hp]
      exact Option.some_ne_none p
    constructor
    · rintro ⟨_, v, hv⟩
      by_contra hother
      have houtside := asUint32_outside hp hcount hcut (by omega)
      rw [houtside] at hv
      cases hv
    · intro hgood
      have hgood := hgood.resolve_right hnone
      have hend : (mem.cut cell o.value).store.blocks p = some (.bytes (o.value ++ [])) := by
        rw [List.append_nil]
        exact hcut
      exact ⟨asUint32_value hp hcount hblock hgood, _, asUint32_value hp hcount hend hgood⟩

end

/-! ## Section 2: Numbers that were written -/

/-- What `mc_option_init_uint32` writes. -/
def uintValue (value : UInt32) : List UInt8 :=
  if value ≤ 0xff then [value.toUInt8]
  else if value ≤ 0xffff then image16 (msSwapU16 value.toUInt16)
  else image32 (msSwapU32 value)

theorem uintValue_length (value : UInt32) :
    (uintValue value).length = 1 ∨ (uintValue value).length = 2 ∨
      (uintValue value).length = 4 := by
  unfold uintValue
  split
  · exact Or.inl rfl
  · split
    · exact Or.inr (Or.inl rfl)
    · exact Or.inr (Or.inr rfl)

theorem uintValue_bigEndian (value : UInt32) : bigEndian (uintValue value) = value.toNat := by
  have hlt := value.toNat_lt
  have h255 : (0xff : UInt32).toNat = 255 := rfl
  have h65535 : (0xffff : UInt32).toNat = 65535 := rfl
  unfold uintValue
  split
  · next h8 =>
    rw [UInt32.le_iff_toNat_le] at h8
    have hmod : value.toNat % 256 = value.toNat := Nat.mod_eq_of_lt (by omega)
    simpa [bigEndian] using hmod
  · split
    · next h16 =>
      rw [UInt32.le_iff_toNat_le] at h16
      rw [image16_swap]
      simp [bigEndian, UInt16.toNat_shiftRight, Nat.shiftRight_eq_div_pow]
      omega
    · rw [image32_swap]
      simp [bigEndian, UInt32.toNat_shiftRight, Nat.shiftRight_eq_div_pow]
      omega

section

open Memory

variable {mem mem' : Memory} {cell cell' option : OptionCell}

theorem msFree_spec (h : Freeable mem cell) : ∃ mem', mem.msFree cell.bytes = .ok mem' := by
  cases hbytes : cell.bytes with
  | none => exact ⟨mem, rfl⟩
  | some p =>
    obtain ⟨block, hblock⟩ := Option.isSome_iff_exists.mp (h p hbytes)
    exact ⟨_, msFree_live hblock⟩

/-- The option that holds the number. -/
theorem initUint32_at (h : Freeable mem option) (optionNum : UInt16) (value : UInt32) :
    ∃ cell mem', mem.mcOptionInitUint32 option optionNum value = .ok (cell, mem') ∧
      OptionAt mem' cell ⟨optionNum.toNat, uintValue value⟩ := by
  obtain ⟨mem1, hfree⟩ := msFree_spec h
  rw [Memory.mcOptionInitUint32, hfree]
  simp only [bind, Except.bind]
  have hnew : ∀ (nbytes : UInt32) (bs : List UInt8), nbytes.toNat = bs.length →
      OptionAt (mem1.allocate false (.bytes bs)).2
        ⟨optionNum, nbytes, (mem1.allocate false (.bytes bs)).1⟩ ⟨optionNum.toNat, bs⟩ := by
    intro nbytes bs hcount
    refine ⟨rfl, hcount, Or.inr ⟨mem1.store.brk, [], rfl, Nat.zero_le _, ?_⟩⟩
    rw [List.append_nil]
    exact mem1.store.alloc_self _
  unfold uintValue
  split
  · exact ⟨_, _, rfl, hnew 1 _ rfl⟩
  · split
    · exact ⟨_, _, rfl, hnew 2 _ rfl⟩
    · exact ⟨_, _, rfl, hnew 4 _ rfl⟩

/-- What was written is read. -/
theorem asUint32_uintValue {n : Nat} {value : UInt32}
    (h : OptionAt mem cell ⟨n, uintValue value⟩) : mem.mcOptionAsUint32 (some cell) = .ok value := by
  have hlength := uintValue_length value
  have hle : (uintValue value).length ≤ 4 := by omega
  rw [((readsBack_iff h hle).mpr (Or.inl hlength)).1, uintValue_bigEndian, UInt32.ofNat_toNat]

/-- An option is copied any number of times, each time from the last copy;
    in between other blocks are used and freed. -/
inductive Trip (mem : Memory) (cell : OptionCell) : Memory → OptionCell → Prop where
  | start : Trip mem cell mem cell
  | copy {mem' mem'' : Memory} {cell' target copied : OptionCell} (htrip : Trip mem cell mem' cell')
      (hfree : Freeable mem' target)
      (hcopy : mem'.mcOptionCopyTo (some target) cell' = .ok (some copied, mem'')) :
      Trip mem cell mem'' copied
  | other {mem' mem'' : Memory} {cell' : OptionCell} (htrip : Trip mem cell mem' cell')
      (hkept : ∀ p, cell'.bytes = some p → mem''.store.blocks p = mem'.store.blocks p) :
      Trip mem cell mem'' cell'

theorem copyTo_at {o : Wire.Opt} {source target : OptionCell} (h : OptionAt mem source o)
    (hfree : Freeable mem target) :
    ∃ copied mem', mem.mcOptionCopyTo (some target) source = .ok (some copied, mem') ∧
      OptionAt mem' copied o := by
  obtain ⟨copied, mem', hcopy, hat⟩ := copyOption_at h hfree
  refine ⟨copied, mem', ?_, hat⟩
  rw [Memory.mcOptionCopyTo, hcopy]
  rfl

/-- The last copy holds what the option held. -/
theorem Trip.optionAt {o : Wire.Opt} (h : OptionAt mem cell o) (htrip : Trip mem cell mem' cell') :
    OptionAt mem' cell' o := by
  induction htrip with
  | start => exact h
  | copy _ hfree hcopy ih =>
    obtain ⟨copied, mem2, hcopied, hat⟩ := copyTo_at ih hfree
    cases hcopy.symm.trans hcopied
    exact hat
  | other _ hkept ih =>
    obtain ⟨hnum, hcount, hnull | ⟨p, rest, hp, hlo, hblock⟩⟩ := ih
    · exact ⟨hnum, hcount, Or.inl hnull⟩
    · exact ⟨hnum, hcount, Or.inr ⟨p, rest, hp, hlo, (hkept p hp).trans hblock⟩⟩

end

/-- A value of at most four bytes is read back exactly if it has one, two or
    four bytes, or is empty and has no pointer; and a number that was
    written is always read back, after any copies. -/
theorem uint_values_iff (mem : Memory) :
    (∀ (cell : OptionCell) (o : Wire.Opt), OptionAt mem cell o → o.value.length ≤ 4 →
      (ReadsBack mem cell o ↔
        (o.value.length = 1 ∨ o.value.length = 2 ∨ o.value.length = 4) ∨ cell.bytes = none)) ∧
    ∀ (option : OptionCell) (optionNum : UInt16) (v : UInt32), Freeable mem option →
      ∃ cell mem1, mem.mcOptionInitUint32 option optionNum v = .ok (cell, mem1) ∧
        ∀ mem2 cell', Trip mem1 cell mem2 cell' →
          mem2.mcOptionAsUint32 (some cell') = .ok v ∧
          ∀ target, Freeable mem2 target →
            ∃ copied mem3, mem2.mcOptionCopyTo (some target) cell' = .ok (some copied, mem3) := by
  constructor
  · exact fun cell o h hlen => readsBack_iff h hlen
  · intro option optionNum v hfree
    obtain ⟨cell, mem1, hinit, hat⟩ := initUint32_at hfree optionNum v
    refine ⟨cell, mem1, hinit, ?_⟩
    intro mem2 cell' htrip
    have hat2 := htrip.optionAt hat
    constructor
    · exact asUint32_uintValue hat2
    · intro target hfree2
      obtain ⟨copied, mem3, hcopy, _⟩ := copyTo_at hat2 hfree2
      exact ⟨copied, mem3, hcopy⟩

/-- A block of bytes, and nothing else. -/
def bytesMemory (bs : List UInt8) : Memory := ⟨(Store.empty.alloc (.bytes bs)).2, false⟩

theorem bytesMemory_at (optionNum : UInt16) (nbytes : UInt32) {bs : List UInt8}
    (h : nbytes.toNat = bs.length) :
    OptionAt (bytesMemory bs) ⟨optionNum, nbytes, some 0⟩ ⟨optionNum.toNat, bs⟩ := by
  refine ⟨rfl, h, Or.inr ⟨0, [], rfl, Nat.le_refl 0, ?_⟩⟩
  rw [List.append_nil]
  exact Store.empty.alloc_self _

/-- A Max-Age of 65536 in three bytes, and a Content-Format of 0 in none. -/
theorem uint_values_lost :
    OptionAt (bytesMemory [1, 0, 0]) ⟨14, 3, some 0⟩ ⟨14, [1, 0, 0]⟩ ∧
      ¬ ReadsBack (bytesMemory [1, 0, 0]) ⟨14, 3, some 0⟩ ⟨14, [1, 0, 0]⟩ ∧
      OptionAt (bytesMemory []) ⟨12, 0, some 0⟩ ⟨12, []⟩ ∧
      ¬ ReadsBack (bytesMemory []) ⟨12, 0, some 0⟩ ⟨12, []⟩ := by
  refine ⟨bytesMemory_at 14 3 rfl, ?_, bytesMemory_at 12 0 rfl, ?_⟩
  · rintro ⟨hread, _⟩
    cases hread
  · rintro ⟨hread, _⟩
    cases hread

/-- The witness: both parts on one block each. -/
theorem uint_values_iff_block :
    ReadsBack (bytesMemory [1, 0]) ⟨7, 2, some 0⟩ ⟨7, [1, 0]⟩ ∧
      ¬ ReadsBack (bytesMemory [1, 0, 0]) ⟨14, 3, some 0⟩ ⟨14, [1, 0, 0]⟩ ∧
      ∃ cell mem1, (bytesMemory []).mcOptionInitUint32 ⟨0, 0, none⟩ 14 65536 = .ok (cell, mem1) ∧
        mem1.mcOptionAsUint32 (some cell) = .ok 65536 := by
  refine ⟨?_, ?_, ?_⟩
  · have hread := (uint_values_iff (bytesMemory [1, 0])).1 ⟨7, 2, some 0⟩ ⟨7, [1, 0]⟩
      (bytesMemory_at 7 2 rfl) (by decide)
    exact hread.mpr (by decide)
  · have hread := (uint_values_iff (bytesMemory [1, 0, 0])).1 ⟨14, 3, some 0⟩ ⟨14, [1, 0, 0]⟩
      (bytesMemory_at 14 3 rfl) (by decide)
    exact fun hback => absurd (hread.mp hback) (by decide)
  · obtain ⟨cell, mem1, hinit, htrip⟩ := (uint_values_iff (bytesMemory [])).2 ⟨0, 0, none⟩ 14 65536
      (fun p hp => by cases hp)
    exact ⟨cell, mem1, hinit, (htrip mem1 cell Trip.start).1⟩

end Mcoap
