import Mcoap.Message

/-! # The decoder on encoded options

    What the two passes of `mc_options_list_from_buffer` do when the buffer
    holds the encoding of a sequence of options.

    * One step lemma for each pass: an option in one of the first two forms
      is passed over, and the memory stays as it was.  In the counting pass
      this only concerns the form of the length.
    * One run lemma for each pass, by induction on the options.
    * `mcOptionsListFromBuffer_encoded` joins the two passes.
    * `mcMessageFromBuffer_reads` says what the message decoder does around
      them.

    The mode is left open: it has to allow reads below `nbytes`, and
    nothing else. -/

namespace Mcoap

open ByteMem ByteProg StableSort

/-- The mode allows the reads inside the buffer. -/
def ReadsBelow (md : Mode UInt16) (nbytes : UInt32) : Prop :=
  ∀ i, i < nbytes.toNat → md.reads i

/-! ## Section 1: Numbers -/

theorem nibble_eq_iff {b c : UInt8} : b = c ↔ b.toNat = c.toNat := UInt8.toNat_inj.symm

/-- Moving past the extended part of a number. -/
theorem skip_toNat {d : UInt8} {p : UInt32}
    (h : p.toNat + Wire.extensionSize d.toNat < 2 ^ 32) :
    (if d = 13 then p + 1 else if d = 14 then p + 2 else p).toNat =
      p.toNat + Wire.extensionSize d.toNat := by
  by_cases h13 : d = 13
  · have hn : d.toNat = 13 := by rw [h13]; rfl
    rw [hn] at h ⊢
    rw [if_pos h13]
    exact position_no_wrap (k := 1) h
  · have hn13 : d.toNat ≠ 13 := fun hn => h13 (nibble_eq_iff.mpr hn)
    by_cases h14 : d = 14
    · have hn : d.toNat = 14 := by rw [h14]; rfl
      rw [hn] at h ⊢
      rw [if_neg h13, if_pos h14]
      exact position_no_wrap (k := 2) h
    · have hn14 : d.toNat ≠ 14 := fun hn => h14 (nibble_eq_iff.mpr hn)
      rw [if_neg h13, if_neg h14, Wire.extensionSize, if_neg hn13, if_neg hn14, Nat.add_zero]

/-- A number in one of the first two forms is read back. -/
theorem optionNumFromBuffer_small {md : Mode UInt16} {nbytes p : UInt32} {m : Mem} {nib : UInt8}
    {n : Nat} {Q : UInt16 × UInt32 → Mem → Prop} (hr : ReadsBelow md nbytes)
    (hnib : nib.toNat = Wire.nibble n) (hn : n < 269)
    (hheld : Holds m p.toNat (Wire.extension n))
    (hin : p.toNat + (Wire.extension n).length ≤ nbytes.toNat)
    (hQ : ∀ value p', value.toNat = n → p'.toNat = p.toNat + (Wire.extension n).length →
      Q (value, p') m) :
    wp md (optionNumFromBuffer nib p) Q m := by
  unfold optionNumFromBuffer
  by_cases h13 : n < 13
  -- the nibble is the number
  · rw [Wire.nibble_small h13] at hnib
    have hne13 : nib ≠ 13 := fun h => by
      have := nibble_eq_iff.mp h
      have h' : (13 : UInt8).toNat = 13 := rfl
      omega
    have hne14 : nib ≠ 14 := fun h => by
      have := nibble_eq_iff.mp h
      have h' : (14 : UInt8).toNat = 14 := rfl
      omega
    rw [if_neg hne13, if_neg hne14, wp_pure]
    apply hQ
    · rw [UInt8.toNat_toUInt16, hnib]
    · rw [Wire.extension_small h13, List.length_nil, Nat.add_zero]
  -- 13 is taken off by the encoder and put back here
  · rw [Wire.nibble_medium (by omega) hn] at hnib
    rw [Wire.extension_medium (by omega) hn] at hheld hin hQ
    have heq13 : nib = 13 := nibble_eq_iff.mpr hnib
    have hbyte : m p.toNat = UInt8.ofNat (n - 13) := hheld.1
    have hlt : ¬ nib < 13 := by
      rw [heq13]
      decide
    simp only [List.length_singleton] at hin hQ
    simp only [if_pos heq13, mcBufferNextUint8, wp_bind, wp_readByte, wp_pure, hbyte]
    refine ⟨hr _ (by omega), hQ _ _ ?_ ?_⟩
    · rw [encodedIntToValue, if_neg hlt, if_pos heq13, UInt16.toNat_add, UInt8.toNat_toUInt16,
        UInt8.toNat_ofNat']
      have h13' : (13 : UInt16).toNat = 13 := rfl
      omega
    · exact position_add (k := 1) nbytes hin

/-! ## Section 2: The parts of an option in the buffer -/

/-- Where the parts of an option lie that starts at `p`. -/
theorem holds_encodeOption {m : Mem} {p prev : Nat} {o : Wire.Opt}
    (h : Holds m p (Wire.encodeOption prev o)) :
    m p = Wire.headByte (o.num - prev) o.value.length ∧
      Holds m (p + 1) (Wire.extension (o.num - prev)) ∧
      Holds m (p + 1 + (Wire.extension (o.num - prev)).length) (Wire.extension o.value.length) ∧
      Holds m (p + 1 + (Wire.extension (o.num - prev)).length
        + (Wire.extension o.value.length).length) o.value := by
  obtain ⟨hb, hrest⟩ := h
  rw [holds_append, holds_append] at hrest
  exact ⟨hb, hrest.1, hrest.2.1, hrest.2.2⟩

/-! ## Section 3: The counting pass -/

/-- Where the counting pass looks for the length: it passes over the delta's
    extension without reading it. -/
theorem skipDelta_toNat {nbytes p : UInt32} {prev : Nat} {o : Wire.Opt}
    (hin : p.toNat + (1 + (Wire.extension (o.num - prev)).length
      + (Wire.extension o.value.length).length + o.value.length) ≤ nbytes.toNat) :
    (if Wire.headByte (o.num - prev) o.value.length >>> 4 = 13 then p + 1 + 1
      else if Wire.headByte (o.num - prev) o.value.length >>> 4 = 14 then p + 1 + 2
      else p + 1).toNat = p.toNat + 1 + (Wire.extension (o.num - prev)).length := by
  have hn := nbytes.toNat_lt
  have h1 := position_succ (show p.toNat < nbytes.toNat by omega)
  have hhigh := Wire.headByte_high (o.num - prev) o.value.length
  rw [skip_toNat (by rw [hhigh, ← Wire.extension_length, h1]; omega), h1, hhigh,
    ← Wire.extension_length]

/-- One iteration: an option whose length is in one of the first two forms. -/
theorem countOptionsLoop_step {md : Mode UInt16} {nbytes p total : UInt32} {fuel prev : Nat}
    {m : Mem} {o : Wire.Opt} {Q : UInt32 → Mem → Prop} (hr : ReadsBelow md nbytes)
    (hlen : o.value.length < 269) (hheld : Holds m p.toNat (Wire.encodeOption prev o))
    (hin : p.toNat + (Wire.encodeOption prev o).length ≤ nbytes.toNat)
    (hnext : ∀ p', p'.toNat = p.toNat + (Wire.encodeOption prev o).length →
      wp md (countOptionsLoop nbytes fuel p' (total + 1)) Q m) :
    wp md (countOptionsLoop nbytes (fuel + 1) p total) Q m := by
  obtain ⟨hbyte, _, hext, _⟩ := holds_encodeOption hheld
  rw [Wire.encodeOption_length] at hin hnext
  have hplt : p < nbytes := UInt32.lt_iff_toNat_lt.mpr (by omega)
  have hlow := Wire.headByte_low (o.num - prev) o.value.length
  have hskip := skipDelta_toNat hin
  simp only [countOptionsLoop, if_pos hplt, wp_bind, wp_readByte, hbyte]
  refine ⟨hr _ (by omega), ?_⟩
  -- a prefix byte is never taken for a marker
  rw [if_neg (Wire.headByte_ne_marker _ _), wp_bind]
  apply optionNumFromBuffer_small hr hlow hlen
  · rw [hskip]
    exact hext
  · rw [hskip]
    omega
  · intro value p' hvalue hp'
    have hv : value.toUInt32.toNat = o.value.length := by rw [UInt16.toNat_toUInt32, hvalue]
    have hend : (p' + value.toUInt32).toNat = p.toNat + (1 + (Wire.extension (o.num - prev)).length
        + (Wire.extension o.value.length).length + o.value.length) := by
      rw [position_add nbytes (by rw [hp', hskip, hv]; omega), hp', hskip, hv]
      omega
    -- so the test for a value that runs past the end lets it pass
    have hover : ¬ p' + value.toUInt32 > nbytes := by
      show ¬ nbytes < p' + value.toUInt32
      rw [UInt32.lt_iff_toNat_lt, hend]
      omega
    simp only [if_neg hover]
    exact hnext _ hend

/-- The loop passes over a sequence of such options. -/
theorem countOptionsLoop_options {md : Mode UInt16} {nbytes : UInt32} {m : Mem}
    {Q : UInt32 → Mem → Prop} (hr : ReadsBelow md nbytes) (os : List Wire.Opt)
    {p total : UInt32} {fuel prev : Nat} (hlen : ∀ o ∈ os, o.value.length < 269)
    (hheld : Holds m p.toNat (Wire.encodeOptions prev os))
    (hin : p.toNat + (Wire.encodeOptions prev os).length ≤ nbytes.toNat)
    (hnext : ∀ p', p'.toNat = p.toNat + (Wire.encodeOptions prev os).length →
      wp md (countOptionsLoop nbytes fuel p' (total + UInt32.ofNat os.length)) Q m) :
    wp md (countOptionsLoop nbytes (os.length + fuel) p total) Q m := by
  induction os generalizing p total prev with
  | nil =>
    have h := hnext p rfl
    rw [List.length_nil, Nat.zero_add]
    simpa using h
  | cons o os ih =>
    rw [Wire.encodeOptions, holds_append] at hheld
    rw [Wire.encodeOptions, List.length_append] at hin hnext
    have hfuel : (o :: os).length + fuel = os.length + fuel + 1 := by
      rw [List.length_cons]
      omega
    rw [hfuel]
    apply countOptionsLoop_step hr (hlen o List.mem_cons_self) hheld.1 (by omega)
    intro p' hp'
    apply ih (fun o' ho' => hlen o' (List.mem_cons_of_mem _ ho'))
    · rw [hp']
      exact hheld.2
    · omega
    · intro p'' hp''
      rw [← count_succ]
      exact hnext p'' (by omega)

/-- The end of the buffer, or a payload marker in it. -/
def AtStop (m : Mem) (nbytes : UInt32) (p : Nat) : Prop :=
  p = nbytes.toNat ∨ (p < nbytes.toNat ∧ m p = 0xff)

theorem countOptionsLoop_stop {md : Mode UInt16} {nbytes p total : UInt32} {fuel : Nat} {m : Mem}
    {Q : UInt32 → Mem → Prop} (hr : ReadsBelow md nbytes) (hstop : AtStop m nbytes p.toNat)
    (hQ : Q total m) : wp md (countOptionsLoop nbytes (fuel + 1) p total) Q m := by
  unfold countOptionsLoop
  rcases hstop with hend | ⟨hlt, hmark⟩
  · have hn : ¬ p < nbytes := by
      rw [UInt32.lt_iff_toNat_lt, hend]
      exact Nat.lt_irrefl _
    rw [if_neg hn]
    exact hQ
  · have hp : p < nbytes := UInt32.lt_iff_toNat_lt.mpr hlt
    simp only [if_pos hp, wp_bind, wp_readByte, hmark, if_true]
    exact ⟨hr _ hlt, hQ⟩

/-- The counting pass counts the options. -/
theorem countOptions_encoded {md : Mode UInt16} {nbytes p : UInt32} {m : Mem} (prev : Nat)
    {os : List Wire.Opt} {Q : UInt32 → Mem → Prop} (hr : ReadsBelow md nbytes)
    (h4 : 4 ≤ nbytes.toNat) (hlen : ∀ o ∈ os, o.value.length < 269)
    (hheld : Holds m p.toNat (Wire.encodeOptions prev os))
    (hin : p.toNat + (Wire.encodeOptions prev os).length ≤ nbytes.toNat)
    (hstop : AtStop m nbytes (p.toNat + (Wire.encodeOptions prev os).length))
    (hQ : Q (UInt32.ofNat os.length) m) : wp md (countOptions nbytes p) Q m := by
  have hn4 : ¬ nbytes < 4 := UInt32.not_lt.mpr (UInt32.le_iff_toNat_le.mpr h4)
  -- every option takes at least a byte, so one iteration for each and one
  -- for the stop are within the bound on the iterations
  have hcount := Wire.length_le_encodeOptions prev os
  have hfuel : nbytes.toNat + 1 = os.length + (nbytes.toNat - os.length + 1) := by omega
  unfold countOptions
  rw [if_neg hn4, hfuel]
  apply countOptionsLoop_options hr os hlen hheld hin
  intro p' hp'
  apply countOptionsLoop_stop hr
  · rw [hp']
    exact hstop
  · rw [UInt32.zero_add]
    exact hQ

/-! ## Section 4: The parsing pass -/

/-- One call of `option_from_buffer` reads one option back. -/
theorem optionFromBuffer_step {md : Mode UInt16} {nbytes p : UInt32} {prevnum : UInt16} {m : Mem}
    {o : Wire.Opt} {Q : Option McOption × UInt32 → Mem → Prop} (hr : ReadsBelow md nbytes)
    (hprev : prevnum.toNat ≤ o.num) (hnum : o.num ≤ 65535)
    (hdelta : o.num - prevnum.toNat < 269) (hlen : o.value.length < 269)
    (hheld : Holds m p.toNat (Wire.encodeOption prevnum.toNat o))
    (hin : p.toNat + (Wire.encodeOption prevnum.toNat o).length ≤ nbytes.toNat)
    (hnext : ∀ (current : McOption) (p' : UInt32), current.wire = o →
      p'.toNat = p.toNat + (Wire.encodeOption prevnum.toNat o).length →
      Q (some current, p') m) :
    wp md (optionFromBuffer nbytes prevnum p) Q m := by
  obtain ⟨hbyte, hext1, hext2, hval⟩ := holds_encodeOption hheld
  rw [Wire.encodeOption_length] at hin hnext
  have hn1 : ¬ nbytes < 1 := not_lt_one (by omega)
  have h1 := position_succ (show p.toNat < nbytes.toNat by omega)
  have hhigh := Wire.headByte_high (o.num - prevnum.toNat) o.value.length
  have hlow := Wire.headByte_low (o.num - prevnum.toNat) o.value.length
  unfold optionFromBuffer
  simp only [if_neg hn1, mcBufferNextUint8, wp_bind, wp_readByte, wp_pure, hbyte]
  refine ⟨hr _ (by omega), ?_⟩
  -- the number
  apply optionNumFromBuffer_small hr hhigh hdelta
  · rw [h1]
    exact hext1
  · omega
  intro delta p1 hd hp1
  rw [h1] at hp1
  dsimp only
  -- the length
  apply optionNumFromBuffer_small hr hlow hlen
  · rw [hp1]
    exact hext2
  · omega
  intro optlen p2 hl hp2
  have hl32 : optlen.toUInt32.toNat = o.value.length := by rw [UInt16.toNat_toUInt32, hl]
  -- the value
  simp only [mcBufferNextPtr_eq, msCopyUint8, wp_readBytes]
  refine ⟨fun i _ hi => hr i (by omega), ?_⟩
  apply hnext
  · have hslice : slice m p2.toNat optlen.toUInt32.toNat = o.value := by
      rw [hl32]
      apply slice_of_holds
      rw [hp2, hp1]
      exact hval
    -- the sum does not wrap around: the option had this number before
    have hoptnum : (delta + prevnum).toNat = o.num := by
      rw [UInt16.toNat_add, hd]
      omega
    rw [hslice, McOption.wire, mcOptionInit, hoptnum]
    simp only [McBuffer.toList, hl32, slice_ofList]
  · rw [position_add nbytes (by omega)]
    omega

/-- The calls of `option_from_buffer` read a sequence of options back. -/
theorem optionsFromBuffer_encoded {md : Mode UInt16} {nbytes : UInt32} {m : Mem}
    (hr : ReadsBelow md nbytes) (os : List Wire.Opt) {p : UInt32} (prevnum : UInt16)
    {Q : Option (List McOption) × UInt32 → Mem → Prop}
    (hasc : Wire.Ascending prevnum.toNat os) (hnum : ∀ o ∈ os, o.num ≤ 65535)
    (hsmall : Wire.Small prevnum.toNat os)
    (hheld : Holds m p.toNat (Wire.encodeOptions prevnum.toNat os))
    (hin : p.toNat + (Wire.encodeOptions prevnum.toNat os).length ≤ nbytes.toNat)
    (hnext : ∀ (options : List McOption) (p' : UInt32), wireOptions options = os →
      p'.toNat = p.toNat + (Wire.encodeOptions prevnum.toNat os).length →
      Q (some options, p') m) :
    wp md (optionsFromBuffer nbytes os.length prevnum p) Q m := by
  induction os generalizing p prevnum Q with
  | nil => exact hnext [] p rfl rfl
  | cons o os ih =>
    obtain ⟨hprev, hasc⟩ := hasc
    obtain ⟨⟨hdelta, hlen⟩, hsmall⟩ := hsmall
    rw [Wire.encodeOptions, holds_append] at hheld
    rw [Wire.encodeOptions, List.length_append] at hin hnext
    simp only [List.length_cons, optionsFromBuffer, wp_bind]
    apply optionFromBuffer_step hr hprev (hnum o List.mem_cons_self) hdelta hlen hheld.1 (by omega)
    intro current p' hcurrent hp'
    -- the next option's delta is taken from the number just read
    have hcnum : current.optionNum.toNat = o.num := by rw [← hcurrent]; rfl
    simp only [wp_bind]
    apply ih (p := p') current.optionNum
    · rw [hcnum]
      exact hasc
    · exact fun o' ho' => hnum o' (List.mem_cons_of_mem _ ho')
    · rw [hcnum]
      exact hsmall
    · rw [hcnum, hp']
      exact hheld.2
    · rw [hcnum]
      omega
    · intro options p'' hoptions hp''
      rw [hcnum] at hp''
      rw [wp_pure]
      dsimp only
      apply hnext
      · rw [wireOptions, List.map_cons, hcurrent]
        exact congrArg (o :: ·) hoptions
      · omega

/-! ## Section 5: Both passes -/

theorem sorted_of_ascending {options : List McOption} {prev : Nat}
    (h : Wire.Ascending prev (wireOptions options)) :
    Sorted compareOptions options ∧ ∀ o ∈ options, prev ≤ o.optionNum.toNat := by
  induction options generalizing prev with
  | nil => exact ⟨List.Pairwise.nil, fun o ho => absurd ho List.not_mem_nil⟩
  | cons option rest ih =>
    obtain ⟨hprev, hrest⟩ := h
    rw [McOption.wire_num] at hprev
    obtain ⟨hs, hle⟩ := ih hrest
    refine ⟨List.pairwise_cons.mpr ⟨fun o ho => ?_, hs⟩, fun o ho => ?_⟩
    · have := hle o ho
      rw [McOption.wire_num] at this
      simp only [compareOptions]
      omega
    · rcases List.mem_cons.mp ho with rfl | ho
      · exact hprev
      · exact Nat.le_trans hprev (hle o ho)

/-- A list in wire order comes out of `mc_options_list_init` as it went in. -/
theorem mcOptionsListInit_ascending {qsort : Qsort McOption} (hq : qsort.Stable)
    {options : List McOption} (h : Wire.Ascending 0 (wireOptions options)) :
    mcOptionsListInit qsort options = ⟨options⟩ := by
  rw [mcOptionsListInit, optionsSort, hq.sort_sorted compareOptions_isOrder (sorted_of_ascending h).1]

/-- Sorting leaves every list of the options `os` as it is. -/
def SortKeeps (qsort : Qsort McOption) (os : List Wire.Opt) : Prop :=
  ∀ options, wireOptions options = os →
    wireOptions (mcOptionsListInit qsort options).options = os

theorem sortKeeps_of_stable {qsort : Qsort McOption} (hq : qsort.Stable) {os : List Wire.Opt}
    (h : Wire.Ascending 0 os) : SortKeeps qsort os := by
  intro options hoptions
  rw [mcOptionsListInit_ascending hq (hoptions.symm ▸ h)]
  exact hoptions

/-- Options in the first two forms, up to the end of the buffer or a
    marker: the decoder reads them back and leaves the memory as it was. -/
theorem mcOptionsListFromBuffer_kept {qsort : Qsort McOption} {md : Mode UInt16}
    {nbytes p : UInt32} {m : Mem} {os : List Wire.Opt} (hkeep : SortKeeps qsort os)
    {Q : Option McOptionsList × UInt32 → Mem → Prop} (hr : ReadsBelow md nbytes)
    (h4 : 4 ≤ nbytes.toNat) (hasc : Wire.Ascending 0 os) (hnum : ∀ o ∈ os, o.num ≤ 65535)
    (hsmall : Wire.Small 0 os) (hlen : ∀ o ∈ os, o.value.length < 269)
    (hheld : Holds m p.toNat (Wire.encodeOptions 0 os))
    (hin : p.toNat + (Wire.encodeOptions 0 os).length ≤ nbytes.toNat)
    (hstop : AtStop m nbytes (p.toNat + (Wire.encodeOptions 0 os).length))
    (hQ : ∀ (list : Option McOptionsList) (p' : UInt32), wireOptions (listOptions list) = os →
      (list = none ↔ os = []) → p'.toNat = p.toNat + (Wire.encodeOptions 0 os).length →
      Q (list, p') m) :
    wp md (mcOptionsListFromBuffer qsort nbytes p) Q m := by
  have hn := nbytes.toNat_lt
  have hcount := Wire.length_le_encodeOptions 0 os
  unfold mcOptionsListFromBuffer
  rw [wp_bind]
  apply countOptions_encoded 0 hr h4 hlen hheld hin hstop
  have hlength : (UInt32.ofNat os.length).toNat = os.length := ofNat32_toNat (by omega)
  by_cases hos : os = []
  -- no option: the decoder gives no list at all
  · have hzero : UInt32.ofNat os.length = 0 := by
      rw [hos]
      rfl
    rw [if_pos hzero, wp_pure]
    apply hQ none p
    · rw [hos]
      rfl
    · simp [hos]
    · simp [hos, Wire.encodeOptions]
  · have hpos := ofNat32_ne_zero (mt List.eq_nil_of_length_eq_zero hos)
      (show os.length < 2 ^ 32 by omega)
    rw [if_neg hpos, wp_bind, hlength]
    apply optionsFromBuffer_encoded hr os (0 : UInt16) hasc hnum hsmall hheld hin
    intro options p' hoptions hp'
    simp only [wp_pure, Option.map_some]
    apply hQ (some (mcOptionsListInit qsort options)) p'
    · exact hkeep options hoptions
    · simp [hos]
    · exact hp'

/-- The numbers only go up, so a stable sort changes nothing. -/
theorem mcOptionsListFromBuffer_encoded {qsort : Qsort McOption} (hq : qsort.Stable)
    {md : Mode UInt16} {nbytes p : UInt32} {m : Mem} {os : List Wire.Opt}
    {Q : Option McOptionsList × UInt32 → Mem → Prop} (hr : ReadsBelow md nbytes)
    (h4 : 4 ≤ nbytes.toNat) (hasc : Wire.Ascending 0 os) (hnum : ∀ o ∈ os, o.num ≤ 65535)
    (hsmall : Wire.Small 0 os) (hlen : ∀ o ∈ os, o.value.length < 269)
    (hheld : Holds m p.toNat (Wire.encodeOptions 0 os))
    (hin : p.toNat + (Wire.encodeOptions 0 os).length ≤ nbytes.toNat)
    (hstop : AtStop m nbytes (p.toNat + (Wire.encodeOptions 0 os).length))
    (hQ : ∀ (list : Option McOptionsList) (p' : UInt32), wireOptions (listOptions list) = os →
      (list = none ↔ os = []) → p'.toNat = p.toNat + (Wire.encodeOptions 0 os).length →
      Q (list, p') m) :
    wp md (mcOptionsListFromBuffer qsort nbytes p) Q m :=
  mcOptionsListFromBuffer_kept (sortKeeps_of_stable hq hasc) hr h4 hasc hnum hsmall hlen hheld hin
    hstop hQ

/-! ## Section 6: The message around the options -/

/-- The token length is the low nibble of the first byte. -/
theorem tokenLength_word (b0 b1 b2 b3 : UInt8) :
    (mcHeaderGetTokenLength (msSwapU32 (msWord32 b3 b2 b1 b0))).toUInt32.toNat =
      (b0 &&& 0x0f).toNat := by
  have hb1 := b1.toNat_lt
  have hb2 := b2.toNat_lt
  have hb3 := b3.toNat_lt
  have hhigh : (msWord32 b0 b1 b2 b3).toNat >>> 24 = b0.toNat := by
    rw [msWord32_toNat, Nat.shiftRight_eq_div_pow]
    omega
  have hmask : (tklenMask.toNat >>> 24) = 2 ^ 4 - 1 := by decide
  have hoff : tklenOffset.toNat % 32 = 24 := by decide
  rw [msSwapU32_word, mcHeaderGetTokenLength, UInt8.toNat_toUInt32, UInt32.toNat_toUInt8,
    UInt32.toNat_shiftRight, UInt32.toNat_and, hoff, Nat.shiftRight_and_distrib, hmask, hhigh,
    Nat.and_comm, Nat.and_two_pow_sub_one_eq_mod, UInt8.toNat_and,
    show (0x0f : UInt8).toNat = 2 ^ 4 - 1 by decide, Nat.and_two_pow_sub_one_eq_mod]
  omega

/-- The header word of a datagram. -/
def headerAt (m : Mem) : UInt32 := msSwapU32 (msWord32 (m 3) (m 2) (m 1) (m 0))

/-- The token length a datagram announces. -/
def tokenLengthAt (m : Mem) : Nat := (m 0 &&& 0x0f).toNat

/-- The token of a datagram. -/
def tokenAt (m : Mem) : McBuffer :=
  ⟨(mcHeaderGetTokenLength (headerAt m)).toUInt32, ofList (slice m 4 (tokenLengthAt m))⟩

/-- The message whose options and payload have been read. -/
def messageAt (m : Mem) (options : Option McOptionsList) (payload : Option McBuffer) : McMessage :=
  ⟨headerAt m, tokenAt m, options, payload, none⟩

theorem tokenAt_length (m : Mem) : (tokenAt m).nbytes.toNat = tokenLengthAt m :=
  tokenLength_word (m 0) (m 1) (m 2) (m 3)

/-- Where the options of a datagram start. -/
def optionsAt (m : Mem) : UInt32 := UInt32.ofNat (4 + tokenLengthAt m)

theorem optionsAt_toNat (m : Mem) : (optionsAt m).toNat = 4 + tokenLengthAt m := by
  have hlt := (m 0 &&& 0x0f).toNat_lt
  have hle : tokenLengthAt m < 256 := hlt
  exact ofNat32_toNat (by omega)

theorem tokenAt_toList (m : Mem) : (tokenAt m).toList = slice m 4 (tokenLengthAt m) := by
  have hof := slice_ofList (slice m 4 (tokenLengthAt m))
  rw [slice_length] at hof
  rw [McBuffer.toList, tokenAt_length]
  exact hof

theorem optionsAt_eq (m : Mem) :
    0 + 4 + (mcHeaderGetTokenLength (headerAt m)).toUInt32 = optionsAt m := by
  have htk := tokenAt_length m
  have hlt := (m 0 &&& 0x0f).toNat_lt
  have hle : tokenLengthAt m < 256 := hlt
  apply UInt32.toNat_inj.mp
  rw [optionsAt_toNat, UInt32.zero_add, position_no_wrap]
  · exact congrArg (4 + ·) htk
  · show 4 + (tokenAt m).nbytes.toNat < 2 ^ 32
    omega

/-- The bytes of the header and of the token. -/
theorem head_reads {S : Nat → Prop} {tokenLen : Nat} {R : Prop} :
    (S 0 ∧ S 1 ∧ S 2 ∧ S 3 ∧ (∀ i, 4 ≤ i → i < 4 + tokenLen → S i) ∧ R) ↔
      (∀ i, i < 4 + tokenLen → S i) ∧ R := by
  constructor
  · intro ⟨h0, h1, h2, h3, htoken, hrest⟩
    refine ⟨fun i hi => ?_, hrest⟩
    by_cases h : 4 ≤ i
    · exact htoken i h hi
    · obtain rfl | rfl | rfl | rfl : i = 0 ∨ i = 1 ∨ i = 2 ∨ i = 3 := by omega
      · exact h0
      · exact h1
      · exact h2
      · exact h3
  · intro ⟨hall, hrest⟩
    exact ⟨hall 0 (by omega), hall 1 (by omega), hall 2 (by omega), hall 3 (by omega),
      fun i _ hi => hall i hi, hrest⟩

/-- The decoder reads the header and the token, and then the options and the
    payload. -/
theorem mcMessageFromBuffer_reads {qsort : Qsort McOption} {md : Mode UInt16} {nbytes : UInt32}
    {m : Mem} {Q : Option McMessage × UInt32 → Mem → Prop} (h4 : 4 ≤ nbytes.toNat) :
    wp md (mcMessageFromBuffer qsort nbytes 0) Q m ↔
      (∀ i, i < 4 + tokenLengthAt m → md.reads i) ∧
      wp md (mcOptionsListFromBuffer qsort nbytes (optionsAt m))
        (fun r m1 => wp md (payloadFromBuffer nbytes r.2)
          (fun r' m2 => Q (r'.1.map (messageAt m r.1), r'.2) m2) m1) m := by
  have hn4 : ¬ nbytes < 4 := UInt32.not_lt.mpr (UInt32.le_iff_toNat_le.mpr h4)
  have hheader : msSwapU32 (msWord32 (m 3) (m 2) (m 1) (m 0)) = headerAt m := rfl
  have htk : (mcHeaderGetTokenLength (headerAt m)).toUInt32.toNat = tokenLengthAt m :=
    tokenAt_length m
  have h04 : (0 + 4 : UInt32).toNat = 4 := rfl
  simp only [mcMessageFromBuffer, if_neg hn4, mcBufferNextUint32, mcBufferNextPtr_eq, msCopyUint8,
    wp_bind, wp_readByte, wp_readBytes, wp_pure, UInt32.toNat_zero, Nat.zero_add, hheader, htk,
    optionsAt_eq, h04]
  rw [head_reads]
  apply and_congr_right
  intro _
  constructor
  · intro hrest
    apply wp_mono ?_ hrest
    intro r m1 h
    apply wp_mono ?_ h
    rintro ⟨payload, p'⟩ m2 hQ
    cases payload with
    | none => exact hQ
    | some payload => exact hQ
  · intro hrest
    apply wp_mono ?_ hrest
    intro r m1 h
    apply wp_mono ?_ h
    rintro ⟨payload, p'⟩ m2 hQ
    cases payload with
    | none => exact hQ
    | some payload => exact hQ

/-- Behind the marker the payload has the rest of the buffer, and the copy
    is allowed. -/
theorem payload_room {nbytes p : UInt32} (hp : p.toNat < nbytes.toNat) :
    (p + 1).toNat = p.toNat + 1 ∧ (nbytes - p - 1).toNat = nbytes.toNat - p.toNat - 1 ∧
      copyFits (nbytes - p - 1) 0 nbytes (p + 1) (nbytes - p - 1) = true := by
  have hrem := position_room (Nat.le_of_lt hp)
  have h1 : (1 : UInt32).toNat = 1 := rfl
  have hp1 := position_succ hp
  have hlen : (nbytes - p - 1).toNat = nbytes.toNat - p.toNat - 1 := by
    rw [UInt32.toNat_sub_of_le _ _ (UInt32.le_iff_toNat_le.mpr (by omega)), hrem, h1]
  have hd : ¬ nbytes - p - 1 - 0 < nbytes - p - 1 := by
    rw [UInt32.sub_zero]
    exact UInt32.lt_irrefl _
  have hs : ¬ nbytes - (p + 1) < nbytes - p - 1 := by
    rw [UInt32.lt_iff_toNat_lt, position_room (by omega), hp1, hlen]
    omega
  refine ⟨hp1, hlen, ?_⟩
  rw [copyFits, if_neg hd, if_neg hs]

end Mcoap
