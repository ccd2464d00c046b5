import Mcoap.OptionWalk

/-! # What the options decoder accepts

    `mc_options_list_from_buffer` against the options of RFC 7252 3.1.

    The counting pass decides.  When its walk stops after one option or
    more, the list is accepted; when an option runs over the end, it is
    rejected; at a length with two extension bytes both can happen, since
    the length used is that of an uninitialised local.

    * `AcceptsExactly`: the decoder accepts when the bytes are a sequence of
      options, and leaves the position alone when they are not;
    * `accepts_exactly_iff`: when it does. -/

namespace Mcoap

open ByteMem ByteProg StableSort

/-! ## Section 1: The counting pass -/

section count
variable {nbytes p : UInt32} {m : Mem} {k q : Nat} {Q : UInt32 → Mem → Prop}

/-- As many iterations as there are options, and some to spare. -/
theorem walk_fuel (hp : p.toNat ≤ nbytes.toNat) (hreach : Reaches m nbytes.toNat k p.toNat q) :
    nbytes.toNat + 1 = k + (nbytes.toNat - k + 1) ∧ (UInt32.ofNat q).toNat = q ∧
      (UInt32.ofNat k).toNat = k := by
  have hn := nbytes.toNat_lt
  have hle := hreach.le
  have hin := hreach.inside hp
  exact ⟨by omega, ofNat32_toNat (by omega), ofNat32_toNat (by omega)⟩

/-- A walk that stops: the options are counted. -/
theorem countOptions_stop {md : Mode UInt16} (hd : ∀ w, md.draws w) (hw : ∀ i, md.writes i)
    (hr : ReadsBelow md nbytes) (h4 : 4 ≤ nbytes.toNat) (hwrap : NoWrap nbytes)
    (hp : p.toNat ≤ nbytes.toNat) (hreach : Reaches m nbytes.toNat k p.toNat q)
    (hstop : AtStop m nbytes q) (hQ : Q (UInt32.ofNat k) m) :
    wp md (countOptions nbytes p) Q m := by
  have hn4 : ¬ nbytes < 4 := UInt32.not_lt.mpr (UInt32.le_iff_toNat_le.mpr h4)
  obtain ⟨hfuel, hpos, _⟩ := walk_fuel hp hreach
  unfold countOptions
  rw [if_neg hn4, hfuel, countOptionsLoop_reaches hd hw hr hwrap hreach rfl hpos]
  apply countOptionsLoop_stop hr
  · rw [hpos]
    exact hstop
  · rw [UInt32.zero_add]
    exact hQ

/-- Whatever the length comes out as, the option's end is outside. -/
theorem FallsOff.past {n : Nat} {m' : Mem} {value : UInt16} (h : FallsOff m n q)
    (hv : NumberAt m (lengthAt m q) (m q &&& 0x0f) value m') :
    n < lengthAt m q + Wire.extensionSize (m q &&& 0x0f).toNat + value.toNat := by
  obtain ⟨_, _, hover⟩ := h
  by_cases h14 : m q &&& 0x0f = 14
  · have hsize : Wire.extensionSize (m q &&& 0x0f).toNat = 2 := by
      rw [h14]
      rfl
    rw [if_pos h14] at hover
    omega
  · obtain ⟨_, hend⟩ := numberAt_small h14 hv
    rw [if_neg h14] at hover
    omega

/-- A walk that runs over the end: nothing is counted, and the bytes up to
    the last header are as they were. -/
theorem countOptions_fallsOff (h4 : 4 ≤ nbytes.toNat) (hwrap : NoWrap nbytes)
    (hp : p.toNat ≤ nbytes.toNat) (hreach : Reaches m nbytes.toNat k p.toNat q)
    (hfall : FallsOff m nbytes.toNat q) (hQ : ∀ m', (∀ i, i ≤ q → m' i = m i) → Q 0 m') :
    wp Mode.total (countOptions nbytes p) Q m := by
  have hfall' := hfall
  obtain ⟨hlt, hmark, _⟩ := hfall'
  have hn4 : ¬ nbytes < 4 := UInt32.not_lt.mpr (UInt32.le_iff_toNat_le.mpr h4)
  obtain ⟨hfuel, hpos, _⟩ := walk_fuel hp hreach
  unfold countOptions
  rw [if_neg hn4, hfuel, countOptionsLoop_reaches (fun _ => trivial) (fun _ => trivial)
    (fun _ _ => trivial) hwrap hreach rfl hpos, countOptionsLoop_reads (fun _ => trivial)
    (fun _ => trivial) hwrap (by rw [hpos]; exact hlt) (by rw [hpos]; exact hmark) trivial, hpos]
  refine ⟨fun _ => trivial, fun value m' p' hv hp' => ?_⟩
  have hgt := lengthAt_gt m q
  have hpast : p' > nbytes := by
    show nbytes < p'
    rw [UInt32.lt_iff_toNat_lt, hp']
    exact hfall.past hv
  rw [if_pos hpast]
  exact hQ m' fun i hi => hv.outside (Or.inl (by omega))

end count

/-! ## Section 2: Runs of the counting pass -/

/-- The indices inside the buffer. -/
def Inside (nbytes : UInt32) (i : Nat) : Prop := i < nbytes.toNat

/-- A number can be read as anything that `NumberAt` allows. -/
theorem optionNumFromBuffer_can {S : Nat → Prop} {p p' : UInt32} {nib : UInt8} {value : UInt16}
    {m m' : Mem} {Q : UInt16 × UInt32 → Mem → Prop} (hp : p.toNat + 2 < 2 ^ 32)
    (hS : nib = 13 → S p.toNat) (hv : NumberAt m p.toNat nib value m')
    (hp' : p'.toNat = p.toNat + Wire.extensionSize nib.toNat) (hQ : Q (value, p') m') :
    can S (optionNumFromBuffer nib p) Q m := by
  have hpos := skip_toNat (d := nib) (p := p) (by
    have := Wire.extensionSize_le nib.toNat
    omega)
  have hpeq := UInt32.toNat_inj.mp (hp'.trans hpos.symm)
  unfold optionNumFromBuffer
  unfold NumberAt at hv
  by_cases h13 : nib = 13
  · have hlt : ¬ nib < 13 := by
      rw [h13]
      decide
    rw [if_pos h13] at hv hpeq
    obtain ⟨hv, rfl⟩ := hv
    have hbyte := (m' p.toNat).toNat_lt
    have h13' : (13 : UInt16).toNat = 13 := rfl
    have hveq : value = encodedIntToValue nib (m' p.toNat).toUInt16 := by
      apply UInt16.toNat_inj.mp
      rw [encodedIntToValue, if_neg hlt, if_pos h13, UInt16.toNat_add, UInt8.toNat_toUInt16]
      omega
    simp only [if_pos h13, mcBufferNextUint8, can_bind, can_readByte, can_pure]
    rw [← hveq, ← hpeq]
    exact ⟨hS h13, hQ⟩
  · by_cases h14 : nib = 14
    · have hlt : ¬ nib < 13 := by
        rw [h14]
        decide
      rw [if_neg h13, if_pos h14] at hv hpeq
      obtain ⟨w, rfl, rfl⟩ := hv
      simp only [if_neg h13, if_pos h14, mcBufferNextUint16, can_bind, can_drawn, can_writeBytes,
        can_pure, encodedIntToValue, if_neg hlt]
      rw [← hpeq]
      exact ⟨w, hQ⟩
    · rw [if_neg h13, if_neg h14] at hv hpeq
      obtain ⟨hv, rfl⟩ := hv
      have hveq : value = nib.toUInt16 :=
        UInt16.toNat_inj.mp (by rw [UInt8.toNat_toUInt16]; exact hv)
      simp only [if_neg h13, if_neg h14, can_pure]
      rw [← hveq, ← hpeq]
      exact hQ

/-- One iteration at a header. -/
theorem countOptionsLoop_can {nbytes p p' total : UInt32} {fuel : Nat} {value : UInt16}
    {m m' : Mem} {Q : UInt32 → Mem → Prop} (hwrap : NoWrap nbytes) (hp : p.toNat < nbytes.toNat)
    (hmark : m p.toNat ≠ 0xff)
    (hread : m p.toNat &&& 0x0f = 13 → lengthAt m p.toNat < nbytes.toNat)
    (hv : NumberAt m (lengthAt m p.toNat) (m p.toNat &&& 0x0f) value m')
    (hp' : p'.toNat = lengthAt m p.toNat + Wire.extensionSize (m p.toNat &&& 0x0f).toNat
      + value.toNat)
    (hQ : if p' > nbytes then Q 0 m'
      else can (Inside nbytes) (countOptionsLoop nbytes fuel p' (total + 1)) Q m') :
    can (Inside nbytes) (countOptionsLoop nbytes (fuel + 1) p total) Q m := by
  unfold NoWrap at hwrap
  have hplt : p < nbytes := UInt32.lt_iff_toNat_lt.mpr hp
  have h1 := position_succ (show p.toNat < nbytes.toNat by omega)
  have hext := Wire.extensionSize_le (m p.toNat >>> 4).toNat
  have hext' := Wire.extensionSize_le (m p.toNat &&& 0x0f).toNat
  have hvlt := value.toNat_lt
  have hat := lengthAt_le m p.toNat
  have hskip : (if m p.toNat >>> 4 = 13 then p + 1 + 1
      else if m p.toNat >>> 4 = 14 then p + 1 + 2 else p + 1).toNat = lengthAt m p.toNat := by
    rw [skip_toNat (by omega), h1, lengthAt]
  obtain ⟨mid, hmid⟩ : ∃ mid : UInt32, mid.toNat =
      lengthAt m p.toNat + Wire.extensionSize (m p.toNat &&& 0x0f).toNat :=
    ⟨_, ofNat32_toNat (by omega)⟩
  have hpeq : mid + value.toUInt32 = p' := by
    apply UInt32.toNat_inj.mp
    rw [position_no_wrap (by rw [hmid, UInt16.toNat_toUInt32]; omega), hmid,
      UInt16.toNat_toUInt32, hp']
  simp only [countOptionsLoop, if_pos hplt, can_bind, can_readByte, if_neg hmark]
  refine ⟨hp, ?_⟩
  apply optionNumFromBuffer_can (by rw [hskip]; omega) (by rw [hskip]; exact hread)
    (by rw [hskip]; exact hv) (show mid.toNat = _ by rw [hskip]; exact hmid)
  dsimp only
  rw [hpeq]
  split
  · next hover =>
    rw [if_pos hover] at hQ
    exact hQ
  · next hover =>
    rw [if_neg hover] at hQ
    exact hQ

theorem countOptionsLoop_can_reaches {nbytes : UInt32} {m : Mem} {Q : UInt32 → Mem → Prop}
    (hwrap : NoWrap nbytes) {k x y fuel : Nat} (hreach : Reaches m nbytes.toNat k x y)
    {p p' total : UInt32} (hp : p.toNat = x) (hp' : p'.toNat = y)
    (h : can (Inside nbytes) (countOptionsLoop nbytes fuel p' (total + UInt32.ofNat k)) Q m) :
    can (Inside nbytes) (countOptionsLoop nbytes (k + fuel) p total) Q m := by
  induction hreach generalizing p total with
  | here q =>
    have heq : p' = p := UInt32.toNat_inj.mp (by rw [hp', hp])
    rw [Nat.zero_add]
    simpa [heq] using h
  | @option k q y hlt hmark hne hend hrest ih =>
    subst hp
    obtain ⟨hpos, hover⟩ := optionEnd_inside hend
    have hfuel : k + 1 + fuel = k + fuel + 1 := by omega
    obtain ⟨value, m', hv⟩ := numberAt_exists m (lengthAt m p.toNat) (m p.toNat &&& 0x0f)
    obtain ⟨rfl, hoption⟩ := numberAt_small hne hv
    rw [count_succ] at h
    rw [hfuel]
    apply countOptionsLoop_can hwrap hlt hmark ?_ hv (hpos.trans hoption.symm)
    · rw [if_neg hover]
      exact ih hpos hp' h
    · intro h13
      have hsize : Wire.extensionSize (m' p.toNat &&& 0x0f).toNat = 1 := by
        rw [h13]
        rfl
      omega

section
variable {nbytes p : UInt32} {m : Mem} {k q : Nat}

theorem countOptions_can_stop {Q : UInt32 → Mem → Prop} (h4 : 4 ≤ nbytes.toNat)
    (hwrap : NoWrap nbytes) (hp : p.toNat ≤ nbytes.toNat)
    (hreach : Reaches m nbytes.toNat k p.toNat q) (hstop : AtStop m nbytes q)
    (hQ : Q (UInt32.ofNat k) m) : can (Inside nbytes) (countOptions nbytes p) Q m := by
  have hn4 : ¬ nbytes < 4 := UInt32.not_lt.mpr (UInt32.le_iff_toNat_le.mpr h4)
  obtain ⟨hfuel, hpos, _⟩ := walk_fuel hp hreach
  unfold countOptions
  rw [if_neg hn4, hfuel]
  apply countOptionsLoop_can_reaches hwrap hreach rfl hpos
  rw [UInt32.zero_add, countOptionsLoop, hpos]
  rcases hstop with hend | ⟨hlt, hmark⟩
  · have hn : ¬ UInt32.ofNat q < nbytes := by
      rw [UInt32.lt_iff_toNat_lt, hpos, hend]
      exact Nat.lt_irrefl _
    rw [if_neg hn]
    exact hQ
  · have hn : UInt32.ofNat q < nbytes := by
      rw [UInt32.lt_iff_toNat_lt, hpos]
      exact hlt
    simp only [if_pos hn, can_bind, can_readByte, hmark, if_true, can_pure]
    exact ⟨hlt, hQ⟩

/-- An option that runs over the end, and needs no byte from outside for it. -/
theorem countOptions_can_fallsOff {Q : UInt32 → Mem → Prop} (h4 : 4 ≤ nbytes.toNat)
    (hwrap : NoWrap nbytes) (hp : p.toNat ≤ nbytes.toNat)
    (hreach : Reaches m nbytes.toNat k p.toNat q) (hfall : FallsOff m nbytes.toNat q)
    (hlow : m q &&& 0x0f ≠ 13) (hQ : ∀ m', Q 0 m') :
    can (Inside nbytes) (countOptions nbytes p) Q m := by
  have hfall' := hfall
  obtain ⟨hlt, hmark, _⟩ := hfall'
  have hn4 : ¬ nbytes < 4 := UInt32.not_lt.mpr (UInt32.le_iff_toNat_le.mpr h4)
  have hat := lengthAt_le m q
  have hsize := Wire.extensionSize_le (m q &&& 0x0f).toNat
  obtain ⟨hfuel, hpos, _⟩ := walk_fuel hp hreach
  obtain ⟨value, m', hv⟩ := numberAt_exists m (lengthAt m q) (m q &&& 0x0f)
  have hvlt := value.toNat_lt
  obtain ⟨past, hpast⟩ : ∃ past : UInt32, past.toNat =
      lengthAt m q + Wire.extensionSize (m q &&& 0x0f).toNat + value.toNat := by
    unfold NoWrap at hwrap
    exact ⟨_, ofNat32_toNat (by omega)⟩
  have hover : past > nbytes := by
    show nbytes < past
    rw [UInt32.lt_iff_toNat_lt, hpast]
    exact hfall.past hv
  unfold countOptions
  rw [if_neg hn4, hfuel]
  apply countOptionsLoop_can_reaches hwrap hreach rfl hpos
  apply countOptionsLoop_can hwrap (by rw [hpos]; exact hlt) (by rw [hpos]; exact hmark)
    (by rw [hpos]; exact fun h13 => absurd h13 hlow) (by rw [hpos]; exact hv)
    (show past.toNat = _ by rw [hpos, hpast])
  rw [if_pos hover]
  exact hQ m'

/-- An extension byte outside the buffer is read in every run. -/
theorem countOptions_not_can {Q : UInt32 → Mem → Prop} (h4 : 4 ≤ nbytes.toNat)
    (hwrap : NoWrap nbytes) (hp : p.toNat < nbytes.toNat) (hmark : m p.toNat ≠ 0xff)
    (hlow : m p.toNat &&& 0x0f = 13) (hext : nbytes.toNat ≤ lengthAt m p.toNat) :
    ¬ can (Inside nbytes) (countOptions nbytes p) Q m := by
  unfold NoWrap at hwrap
  have hn4 : ¬ nbytes < 4 := UInt32.not_lt.mpr (UInt32.le_iff_toNat_le.mpr h4)
  have hplt : p < nbytes := UInt32.lt_iff_toNat_lt.mpr hp
  have h1 := position_succ hp
  have hsize := Wire.extensionSize_le (m p.toNat >>> 4).toNat
  have hskip : (if m p.toNat >>> 4 = 13 then p + 1 + 1
      else if m p.toNat >>> 4 = 14 then p + 1 + 2 else p + 1).toNat = lengthAt m p.toNat := by
    rw [skip_toNat (by omega), h1, lengthAt]
  intro h
  unfold countOptions at h
  simp only [if_neg hn4, countOptionsLoop, if_pos hplt, can_bind, can_readByte, if_neg hmark,
    optionNumFromBuffer, if_pos hlow, mcBufferNextUint8, hskip] at h
  exact absurd h.2.1 (Nat.not_lt.mpr hext)

/-- A long length comes out as any value: the pass goes on after it, or
    gives up. -/
theorem countOptions_can_long (h4 : 4 ≤ nbytes.toNat) (hwrap : NoWrap nbytes)
    (hp : p.toNat ≤ nbytes.toNat) (hreach : Reaches m nbytes.toNat k p.toNat q)
    (hlong : LongLength m nbytes.toNat q) (value : UInt16) :
    ∃ m1, (∀ i, i < lengthAt m q ∨ lengthAt m q + 2 ≤ i → m1 i = m i) ∧
      ∀ Q : UInt32 → Mem → Prop,
        (nbytes.toNat < lengthAt m q + 2 + value.toNat → Q 0 m1) →
        (lengthAt m q + 2 + value.toNat = nbytes.toNat → Q (UInt32.ofNat (k + 1)) m1) →
        nbytes.toNat ≤ lengthAt m q + 2 + value.toNat →
        can (Inside nbytes) (countOptions nbytes p) Q m := by
  obtain ⟨hlt, hmark, h14, hroom⟩ := hlong
  have hn4 : ¬ nbytes < 4 := UInt32.not_lt.mpr (UInt32.le_iff_toNat_le.mpr h4)
  have hle := hreach.le
  have hvlt := value.toNat_lt
  obtain ⟨_, hpos, _⟩ := walk_fuel hp hreach
  have hfuel : nbytes.toNat + 1 = k + (nbytes.toNat - k - 1 + 1 + 1) := by omega
  have hsize : Wire.extensionSize (m q &&& 0x0f).toNat = 2 := by
    rw [h14]
    rfl
  have hne : ¬ m q &&& 0x0f = 13 := by
    rw [h14]
    decide
  obtain ⟨m1, hv⟩ := numberAt_any m (lengthAt m q) value
  rw [← h14] at hv
  refine ⟨m1, fun i hi => hv.outside (by rw [hsize]; exact hi), fun Q hover hlast hend => ?_⟩
  unfold NoWrap at hwrap
  obtain ⟨past, hpast⟩ : ∃ past : UInt32, past.toNat = lengthAt m q + 2 + value.toNat :=
    ⟨_, ofNat32_toNat (by omega)⟩
  unfold countOptions
  rw [if_neg hn4, hfuel]
  apply countOptionsLoop_can_reaches hwrap hreach rfl hpos
  apply countOptionsLoop_can hwrap (by rw [hpos]; exact hlt) (by rw [hpos]; exact hmark)
    (by rw [hpos]; exact fun h13 => absurd h13 hne) (by rw [hpos]; exact hv)
    (show past.toNat = _ by rw [hpos, hsize, hpast])
  split
  · next h =>
    have h' : nbytes < past := h
    rw [UInt32.lt_iff_toNat_lt, hpast] at h'
    exact hover h'
  · next h =>
    have h' : ¬ nbytes < past := h
    rw [UInt32.lt_iff_toNat_lt, hpast] at h'
    -- the pass is at the end of the buffer, and stops
    have hn : ¬ past < nbytes := by
      rw [UInt32.lt_iff_toNat_lt, hpast]
      omega
    have hsum : 0 + UInt32.ofNat k + 1 = UInt32.ofNat (k + 1) := by
      rw [UInt32.ofNat_add, UInt32.zero_add]
      rfl
    rw [countOptionsLoop, if_neg hn, hsum]
    exact hlast (by omega)

end

/-! ## Section 3: Runs of the parsing pass -/

/-- One call of the parsing pass. -/
theorem optionFromBuffer_can {nbytes p p1 p2 : UInt32} {prevnum delta optlen : UInt16}
    {m m1 m2 : Mem} {Q : Option McOption × UInt32 → Mem → Prop} (hwrap : NoWrap nbytes)
    (hp : p.toNat < nbytes.toNat) (hd : NumberAt m (p.toNat + 1) (m p.toNat >>> 4) delta m1)
    (hl : NumberAt m1 (lengthAt m p.toNat) (m p.toNat &&& 0x0f) optlen m2)
    (hp1 : p1.toNat = lengthAt m p.toNat + Wire.extensionSize (m p.toNat &&& 0x0f).toNat)
    (hp2 : p2.toNat = p1.toNat + optlen.toNat) (hend : p2.toNat ≤ nbytes.toNat)
    (hQ : Q (some (mcOptionInit (delta + prevnum) optlen.toUInt32
      (slice m2 p1.toNat optlen.toNat)), p2) m2) :
    can (Inside nbytes) (optionFromBuffer nbytes prevnum p) Q m := by
  unfold NoWrap at hwrap
  have hn1 : ¬ nbytes < 1 := not_lt_one (by omega)
  have h1 := position_succ (show p.toNat < nbytes.toNat by omega)
  have hatdef : lengthAt m p.toNat = p.toNat + 1 + Wire.extensionSize (m p.toNat >>> 4).toNat := rfl
  obtain ⟨at', hat⟩ : ∃ at' : UInt32, at'.toNat = lengthAt m p.toNat :=
    ⟨_, ofNat32_toNat (by omega)⟩
  have hpeq : p1 + optlen.toUInt32 = p2 := by
    apply UInt32.toNat_inj.mp
    rw [position_no_wrap (by rw [hp1, UInt16.toNat_toUInt32]; omega), UInt16.toNat_toUInt32, hp2]
  unfold optionFromBuffer
  simp only [if_neg hn1, mcBufferNextUint8, mcBufferNextPtr_eq, msCopyUint8, can_bind,
    can_readByte, can_pure, can_readBytes]
  refine ⟨hp, ?_⟩
  apply optionNumFromBuffer_can (by omega) ?_ (by rw [h1]; exact hd)
    (show at'.toNat = _ by rw [h1, hat, hatdef])
  · dsimp only
    apply optionNumFromBuffer_can (by omega) ?_ (by rw [hat]; exact hl)
      (show p1.toNat = _ by rw [hat, hp1])
    · dsimp only
      rw [UInt16.toNat_toUInt32, hpeq]
      exact ⟨fun i _ hi => show i < nbytes.toNat by omega, hQ⟩
    · intro h13
      have hsize : Wire.extensionSize (m p.toNat &&& 0x0f).toNat = 1 := by
        rw [h13]
        rfl
      show at'.toNat < nbytes.toNat
      omega
  · intro h13
    have hsize : Wire.extensionSize (m p.toNat >>> 4).toNat = 1 := by
      rw [h13]
      rfl
    show (p + 1).toNat < nbytes.toNat
    omega

/-- The values of the options lie in the buffer, behind a header at `p` or later. -/
def ValuesInside (nbytes : UInt32) (p : Nat) (options : List McOption) : Prop :=
  ∀ option ∈ options, p + 1 + option.value.nbytes.toNat ≤ nbytes.toNat

theorem ValuesInside.cons {nbytes : UInt32} {p x : Nat} {option : McOption} {l : List McOption}
    (hvalue : p + 1 + option.value.nbytes.toNat ≤ nbytes.toNat) (hl : ValuesInside nbytes x l)
    (hx : p ≤ x) : ValuesInside nbytes p (option :: l) := by
  intro o ho
  rcases List.mem_cons.mp ho with rfl | ho
  · exact hvalue
  · have hlater := hl o ho
    omega

/-- The parsing pass at a complete option, with a delta of its choice. -/
theorem optionsFromBuffer_can_step {nbytes p : UInt32} {m m1 : Mem} {delta : UInt16}
    (hwrap : NoWrap nbytes) (hlt : p.toNat < nbytes.toNat) (hne : m p.toNat &&& 0x0f ≠ 14)
    (hend : optionEnd m p.toNat ≤ nbytes.toNat) (prevnum : UInt16)
    (hd : NumberAt m (p.toNat + 1) (m p.toNat >>> 4) delta m1) :
    ∃ (p' : UInt32) (option : McOption), p'.toNat = optionEnd m p.toNat ∧
      option.optionNum = delta + prevnum ∧
      p.toNat + 1 + option.value.nbytes.toNat ≤ nbytes.toNat ∧
      ∀ k (Q : Option (List McOption) × UInt32 → Mem → Prop),
        can (Inside nbytes) (optionsFromBuffer nbytes k (delta + prevnum) p')
          (fun r m' => Q (r.1.map (option :: ·), r.2) m') m1 →
        can (Inside nbytes) (optionsFromBuffer nbytes (k + 1) prevnum p) Q m := by
  have hn := nbytes.toNat_lt
  have hgt := lengthAt_gt m p.toNat
  have hopt : optionEnd m p.toNat = lengthAt m p.toNat
    + Wire.extensionSize (m p.toNat &&& 0x0f).toNat + announcedLength m p.toNat := rfl
  have hsame : m1 (lengthAt m p.toNat) = m (lengthAt m p.toNat) :=
    hd.outside (Or.inr (Nat.le_refl _))
  obtain ⟨optlen, m2, hl⟩ :=
    numberAt_exists m1 (lengthAt m p.toNat) (m p.toNat &&& 0x0f)
  obtain ⟨rfl, hvalue⟩ := numberAt_length hne hsame hl
  obtain ⟨p1, hp1⟩ : ∃ p1 : UInt32, p1.toNat =
      lengthAt m p.toNat + Wire.extensionSize (m p.toNat &&& 0x0f).toNat :=
    ⟨_, ofNat32_toNat (by omega)⟩
  obtain ⟨p2, hp2⟩ : ∃ p2 : UInt32, p2.toNat = optionEnd m p.toNat :=
    ⟨_, ofNat32_toNat (by omega)⟩
  refine ⟨p2, mcOptionInit (delta + prevnum) optlen.toUInt32 (slice m2 p1.toNat optlen.toNat),
    hp2, rfl, ?_, fun k Q h => ?_⟩
  · show p.toNat + 1 + optlen.toUInt32.toNat ≤ nbytes.toNat
    rw [UInt16.toNat_toUInt32]
    omega
  · simp only [optionsFromBuffer, can_bind]
    apply optionFromBuffer_can hwrap hlt hd hl hp1 (show p2.toNat = _ by omega) (by omega)
    simp only [can_bind]
    apply can_mono ?_ h
    intro r m' hQ
    exact hQ

/-- The parsing pass can read complete options and leave the bytes past
    them as they were. -/
theorem optionsFromBuffer_can_reaches {nbytes : UInt32} (hwrap : NoWrap nbytes) {k x y : Nat}
    {m : Mem} (hreach : Reaches m nbytes.toNat k x y) {p : UInt32}
    (prevnum : UInt16) (hp : p.toNat = x) :
    ∃ p' prevnum' l m', p'.toNat = y ∧ l.length = k ∧ ValuesInside nbytes x l ∧
      (∀ i, y ≤ i → m' i = m i) ∧ ∀ j (Q : Option (List McOption) × UInt32 → Mem → Prop),
        can (Inside nbytes) (optionsFromBuffer nbytes j prevnum' p')
          (fun r m'' => Q (r.1.map (l ++ ·), r.2) m'') m' →
        can (Inside nbytes) (optionsFromBuffer nbytes (k + j) prevnum p) Q m := by
  induction k generalizing x m p prevnum with
  | zero =>
    cases hreach
    refine ⟨p, prevnum, [], m, hp, rfl, fun o ho => absurd ho List.not_mem_nil, fun _ _ => rfl,
      fun j Q h => ?_⟩
    rw [Nat.zero_add]
    apply can_mono ?_ h
    intro r m'' hQ
    simpa using hQ
  | succ k ih =>
    cases hreach with
    | option hlt hmark hne hend hrest =>
      subst hp
      have hle := hrest.le
      have hgt := lengthAt_gt m p.toNat
      have hgt' := lengthAt_le_optionEnd m p.toNat
      obtain ⟨delta, m1, hd⟩ := numberAt_exists m (p.toNat + 1) (m p.toNat >>> 4)
      have hsame : ∀ i, lengthAt m p.toNat ≤ i → m1 i = m i := fun i hi =>
        hd.outside (Or.inr hi)
      obtain ⟨p2, option, hp2, _, hvalue, hstep⟩ :=
        optionsFromBuffer_can_step hwrap hlt hne hend prevnum hd
      obtain ⟨p', prevnum', l, m', hp', hcount, hvalues, hm', hcan⟩ :=
        ih (hrest.congr fun i hi _ => hsame i (by omega)) (delta + prevnum) hp2
      refine ⟨p', prevnum', option :: l, m', hp', by simp [hcount],
        ValuesInside.cons hvalue hvalues (by omega),
        fun i hi => by rw [hm' i hi, hsame i (by omega)], fun j Q h => ?_⟩
      have hfuel : k + 1 + j = k + j + 1 := by omega
      rw [hfuel]
      apply hstep
      apply hcan
      apply can_mono ?_ h
      intro r m'' hQ
      simp only [Option.map_map]
      exact hQ

/-- When a delta has two extension bytes, the parsing pass can give an
    option any number. -/
theorem optionsFromBuffer_can_number {nbytes : UInt32} (hwrap : NoWrap nbytes) {k x y : Nat}
    {m : Mem} (hreach : Reaches m nbytes.toNat k x y) (hlong : ¬ ShortDeltas m k x) {p : UInt32}
    (prevnum : UInt16) (hp : p.toNat = x) (number : UInt16) :
    ∃ (p' : UInt32) (l : List McOption) (m' : Mem), p'.toNat = y ∧ l.length = k ∧
      ValuesInside nbytes x l ∧ (∃ option ∈ l, option.optionNum = number) ∧
      (∀ i, y ≤ i → m' i = m i) ∧ ∀ Q : Option (List McOption) × UInt32 → Mem → Prop,
        Q (some l, p') m' → can (Inside nbytes) (optionsFromBuffer nbytes k prevnum p) Q m := by
  induction k generalizing x m p prevnum with
  | zero => exact absurd trivial hlong
  | succ k ih =>
    cases hreach with
    | option hlt hmark hne hend hrest =>
      subst hp
      have hle := hrest.le
      have hgt := lengthAt_gt m p.toNat
      have hgt' := lengthAt_le_optionEnd m p.toNat
      by_cases h14 : m p.toNat >>> 4 = 14
      -- the delta that makes the sum come out right
      · obtain ⟨m1, hd⟩ := numberAt_any m (p.toNat + 1) (number - prevnum)
        rw [← h14] at hd
        have hsum : number - prevnum + prevnum = number := UInt16.sub_add_cancel number prevnum
        have hsame : ∀ i, lengthAt m p.toNat ≤ i → m1 i = m i := fun i hi =>
          hd.outside (Or.inr hi)
        obtain ⟨p2, option, hp2, hnum, hvalue, hstep⟩ :=
          optionsFromBuffer_can_step hwrap hlt hne hend prevnum hd
        obtain ⟨p', prevnum', l, m', hp', hcount, hvalues, hm', hcan⟩ :=
          optionsFromBuffer_can_reaches hwrap (hrest.congr fun i hi _ => hsame i (by omega))
            (number - prevnum + prevnum) hp2
        refine ⟨p', option :: l, m', hp', by simp [hcount],
          ValuesInside.cons hvalue hvalues (by omega), ⟨option, List.mem_cons_self, ?_⟩,
          fun i hi => by rw [hm' i hi, hsame i (by omega)], fun Q hQ => ?_⟩
        · rw [hnum, hsum]
        · apply hstep
          apply hcan 0
          simp only [optionsFromBuffer, can_pure, Option.map_some, List.append_nil]
          exact hQ
      · have hrestlong : ¬ ShortDeltas m k (optionEnd m p.toNat) := fun h => hlong ⟨h14, h⟩
        obtain ⟨delta, m1, hd⟩ := numberAt_exists m (p.toNat + 1) (m p.toNat >>> 4)
        -- without two extension bytes nothing is stored
        obtain rfl : m1 = m := hd.unchanged h14
        obtain ⟨p2, option, hp2, _, hvalue, hstep⟩ :=
          optionsFromBuffer_can_step hwrap hlt hne hend prevnum hd
        obtain ⟨p', l, m', hp', hcount, hvalues, ⟨o, ho, hnumber⟩, hm', hcan⟩ :=
          ih hrest hrestlong (delta + prevnum) hp2
        refine ⟨p', option :: l, m', hp', by simp [hcount],
          ValuesInside.cons hvalue hvalues (by omega), ⟨o, List.mem_cons_of_mem _ ho, hnumber⟩,
          hm', fun Q hQ => ?_⟩
        apply hstep
        apply hcan
        exact hQ

/-! ## Section 4: Runs of the list decoder -/

section
variable {qsort : Qsort McOption} {nbytes p : UInt32} {m m1 : Mem} {k q : Nat}

/-- What was counted is parsed. -/
theorem mcOptionsListFromBuffer_can {Q : Option McOptionsList × UInt32 → Mem → Prop}
    (hk0 : k ≠ 0) (hk : k < 2 ^ 32)
    (hcount : ∀ Q : UInt32 → Mem → Prop, Q (UInt32.ofNat k) m1 →
      can (Inside nbytes) (countOptions nbytes p) Q m)
    (hparse : can (Inside nbytes) (optionsFromBuffer nbytes k 0 p)
      (fun r m' => Q (r.1.map (mcOptionsListInit qsort), r.2) m') m1) :
    can (Inside nbytes) (mcOptionsListFromBuffer qsort nbytes p) Q m := by
  have hnat : (UInt32.ofNat k).toNat = k := ofNat32_toNat hk
  have hne := ofNat32_ne_zero hk0 hk
  unfold mcOptionsListFromBuffer
  rw [can_bind]
  apply hcount
  simp only [if_neg hne, can_bind, hnat]
  apply can_mono ?_ hparse
  intro r m' hQ
  exact hQ

/-- When nothing is counted there is no list. -/
theorem mcOptionsListFromBuffer_can_none {Q : Option McOptionsList × UInt32 → Mem → Prop}
    (hcount : can (Inside nbytes) (countOptions nbytes p) (fun c m' => c = 0 ∧ Q (none, p) m') m) :
    can (Inside nbytes) (mcOptionsListFromBuffer qsort nbytes p) Q m := by
  unfold mcOptionsListFromBuffer
  rw [can_bind]
  apply can_mono ?_ hcount
  intro c m' ⟨hc, hQ⟩
  rw [if_pos hc, can_pure]
  exact hQ

/-- A walk that stops after some options can give them. -/
theorem mcOptionsListFromBuffer_can_stop (h4 : 4 ≤ nbytes.toNat) (hp : p.toNat ≤ nbytes.toNat)
    (hwrap : NoWrap nbytes) (hk0 : k ≠ 0) (hreach : Reaches m nbytes.toNat k p.toNat q)
    (hstop : AtStop m nbytes q) :
    ∃ l, l.length = k ∧ ValuesInside nbytes p.toNat l ∧
      ∀ (qsort : Qsort McOption) (Q : Option McOptionsList × UInt32 → Mem → Prop),
        (∀ p' m', p'.toNat = q → (∀ i, q ≤ i → m' i = m i) →
          Q (some (mcOptionsListInit qsort l), p') m') →
        can (Inside nbytes) (mcOptionsListFromBuffer qsort nbytes p) Q m := by
  have hn := nbytes.toNat_lt
  have hle := hreach.le
  have hin := hreach.inside hp
  obtain ⟨p', prevnum', l, m', hp', hcount, hvalues, hm', hcan⟩ :=
    optionsFromBuffer_can_reaches hwrap hreach 0 rfl
  refine ⟨l, hcount, hvalues, fun qsort Q hQ => ?_⟩
  apply mcOptionsListFromBuffer_can hk0 (by omega)
    (fun _ h => countOptions_can_stop h4 hwrap hp hreach hstop h)
  apply hcan 0
  simp only [optionsFromBuffer, can_pure, Option.map_some, List.append_nil]
  exact hQ p' m' hp' hm'

/-- With a delta of two extension bytes on the way, one of them can have any
    number. -/
theorem mcOptionsListFromBuffer_can_number (qsort : Qsort McOption) (h4 : 4 ≤ nbytes.toNat)
    (hp : p.toNat ≤ nbytes.toNat) (hwrap : NoWrap nbytes)
    (hreach : Reaches m nbytes.toNat k p.toNat q) (hstop : AtStop m nbytes q)
    (hlong : ¬ ShortDeltas m k p.toNat) (number : UInt16) :
    ∃ l, l.length = k ∧ ValuesInside nbytes p.toNat l ∧ (∃ option ∈ l, option.optionNum = number) ∧
      ∀ Q : Option McOptionsList × UInt32 → Mem → Prop,
        (∀ p' m', p'.toNat = q → (∀ i, q ≤ i → m' i = m i) →
          Q (some (mcOptionsListInit qsort l), p') m') →
        can (Inside nbytes) (mcOptionsListFromBuffer qsort nbytes p) Q m := by
  have hn := nbytes.toNat_lt
  have hle := hreach.le
  have hin := hreach.inside hp
  have hk0 : k ≠ 0 := by
    rintro rfl
    exact hlong trivial
  obtain ⟨p', l, m', hp', hcount, hvalues, hnumber, hm', hcan⟩ :=
    optionsFromBuffer_can_number hwrap hreach hlong 0 rfl number
  refine ⟨l, hcount, hvalues, hnumber, fun Q hQ => ?_⟩
  apply mcOptionsListFromBuffer_can hk0 (by omega)
    (fun _ h => countOptions_can_stop h4 hwrap hp hreach hstop h)
  apply hcan
  exact hQ p' m' hp' hm'

/-- At a long length the list can be rejected, and it can be given with any
    length that fits; the options before it are the same. -/
theorem mcOptionsListFromBuffer_can_long (qsort : Qsort McOption) (h4 : 4 ≤ nbytes.toNat)
    (hp : p.toNat ≤ nbytes.toNat) (hsmall : nbytes.toNat ≤ 65535)
    (hreach : Reaches m nbytes.toNat k p.toNat q) (hlong : LongLength m nbytes.toNat q) :
    can (Inside nbytes) (mcOptionsListFromBuffer qsort nbytes p) (fun r _ => r.1 = none) m ∧
      ∃ l, l.length = k ∧ ValuesInside nbytes p.toNat l ∧
        ∀ value : UInt16, lengthAt m q + 2 + value.toNat ≤ nbytes.toNat →
          ∃ option : McOption, option.value.nbytes.toNat = value.toNat ∧
            ∀ Q : Option McOptionsList × UInt32 → Mem → Prop,
              (∀ p' m', p'.toNat = lengthAt m q + 2 + value.toNat →
                Q (some (mcOptionsListInit qsort (l ++ [option])), p') m') →
              can (Inside nbytes) (mcOptionsListFromBuffer qsort nbytes p) Q m := by
  have hwrap := noWrap_of_small hsmall
  have hle := hreach.le
  have hgt := lengthAt_gt m q
  have hlong' := hlong
  obtain ⟨hlt, hmark, h14, hroom⟩ := hlong'
  have h65535 : (65535 : UInt16).toNat = 65535 := by decide
  constructor
  -- a length of 65535 is too much for the buffer
  · obtain ⟨m1, _, hcount⟩ := countOptions_can_long h4 hwrap hp hreach hlong 65535
    unfold mcOptionsListFromBuffer
    rw [can_bind]
    apply hcount
    · intro _
      simp only [if_true, can_pure]
    · omega
    · omega
  -- one that ends with the buffer is counted
  have hfit : (UInt16.ofNat (nbytes.toNat - (lengthAt m q + 2))).toNat =
      nbytes.toNat - (lengthAt m q + 2) := ofNat16_toNat (by omega)
  obtain ⟨m1, hm1, hcount⟩ := countOptions_can_long h4 hwrap hp hreach hlong
    (UInt16.ofNat (nbytes.toNat - (lengthAt m q + 2)))
  have hreach' := hreach.congr fun i _ hi => hm1 i (Or.inl (by omega))
  obtain ⟨p', prevnum', l, m', hp', hlen, hvalues, hm', hcan⟩ :=
    optionsFromBuffer_can_reaches hwrap hreach' 0 rfl
  have hhead : m' q = m q := by rw [hm' q (Nat.le_refl q), hm1 q (Or.inl hgt)]
  have hat : lengthAt m' q = lengthAt m q := by rw [lengthAt, lengthAt, hhead]
  have hsize : Wire.extensionSize (m q &&& 0x0f).toNat = 2 := by
    rw [h14]
    rfl
  obtain ⟨delta, m2, hd⟩ := numberAt_exists m' (q + 1) (m' q >>> 4)
  refine ⟨l, hlen, hvalues, fun value hvalue => ?_⟩
  obtain ⟨m3, hl⟩ := numberAt_any m2 (lengthAt m' q) value
  obtain ⟨p1, hp1⟩ : ∃ p1 : UInt32, p1.toNat = lengthAt m q + 2 := ⟨_, ofNat32_toNat (by omega)⟩
  obtain ⟨p2, hp2⟩ : ∃ p2 : UInt32, p2.toNat = lengthAt m q + 2 + value.toNat :=
    ⟨_, ofNat32_toNat (by omega)⟩
  refine ⟨mcOptionInit (delta + prevnum') value.toUInt32 (slice m3 p1.toNat value.toNat), ?_,
    fun Q hQ => ?_⟩
  · exact UInt16.toNat_toUInt32 value
  · apply mcOptionsListFromBuffer_can (Nat.succ_ne_zero k) (by omega)
      (fun Q' h => hcount Q' (fun hover => absurd hover (by omega)) (fun _ => h) (by omega))
    apply hcan 1
    simp only [optionsFromBuffer, can_bind]
    subst hp'
    have hnib : m' p'.toNat &&& 0x0f = 14 := by rw [hhead, h14]
    apply optionFromBuffer_can hwrap hlt hd (by rw [hnib]; exact hl)
      (show p1.toNat = _ by rw [hp1, hat, hhead, hsize])
      (show p2.toNat = _ by rw [hp2, hp1]) (by omega)
    exact hQ p2 m3 hp2

end

/-! ## Section 5: Acceptance -/

/-- The parsing pass always gives an array. -/
theorem optionsFromBuffer_returns {nbytes : UInt32} (h1 : 1 ≤ nbytes.toNat) (k : Nat)
    (prevnum : UInt16) (p : UInt32) (m : Mem) :
    wp Mode.total (optionsFromBuffer nbytes k prevnum p) (fun r _ => r.1 ≠ none) m := by
  have hnum : ∀ (nib : UInt8) (p : UInt32) (m : Mem) (Q : UInt16 × UInt32 → Mem → Prop),
      (∀ r m', Q r m') → wp Mode.total (optionNumFromBuffer nib p) Q m := by
    intro nib p m Q hQ
    unfold optionNumFromBuffer mcBufferNextUint8 mcBufferNextUint16
    split
    · exact ⟨trivial, hQ _ _⟩
    · split
      · simp only [wp_bind, wp_drawn, wp_writeBytes, wp_pure]
        exact fun w _ => ⟨fun _ _ _ => trivial, hQ _ _⟩
      · exact hQ _ _
  have hn1 : ¬ nbytes < 1 := not_lt_one (by omega)
  induction k generalizing prevnum p m with
  | zero =>
    intro h
    cases h
  | succ k ih =>
    unfold optionsFromBuffer optionFromBuffer
    simp only [if_neg hn1, mcBufferNextUint8, mcBufferNextPtr_eq, msCopyUint8, wp_bind,
      wp_readByte, wp_pure, wp_readBytes]
    refine ⟨trivial, ?_⟩
    apply hnum
    intro r m'
    apply hnum
    intro r' m''
    refine ⟨fun _ _ _ => trivial, ?_⟩
    apply wp_mono ?_ (ih _ _ _)
    intro rest _ hrest
    simpa using hrest

section
variable (qsort : Qsort McOption) {nbytes p : UInt32} {m : Mem} {k q : Nat}

theorem mcOptionsListFromBuffer_stop (h4 : 4 ≤ nbytes.toNat) (hp : p.toNat ≤ nbytes.toNat)
    (hwrap : NoWrap nbytes) (hreach : Reaches m nbytes.toNat k p.toNat q)
    (hstop : AtStop m nbytes q) :
    wp Mode.total (mcOptionsListFromBuffer qsort nbytes p)
      (fun r _ => if k = 0 then r = (none, p) else r.1 ≠ none) m := by
  obtain ⟨_, _, hk⟩ := walk_fuel hp hreach
  unfold mcOptionsListFromBuffer
  rw [wp_bind]
  apply countOptions_stop (fun _ => trivial) (fun _ => trivial) (fun _ _ => trivial) h4 hwrap hp
    hreach hstop
  by_cases hk0 : k = 0
  · simp [hk0]
  · have hle := hreach.le
    have hn := nbytes.toNat_lt
    have hne := ofNat32_ne_zero hk0 (by omega)
    simp only [if_neg hk0, if_neg hne, wp_bind, wp_pure]
    apply wp_mono ?_ (optionsFromBuffer_returns (by omega) _ 0 p m)
    intro r _ hr
    simpa using hr

theorem mcOptionsListFromBuffer_fallsOff (h4 : 4 ≤ nbytes.toNat) (hp : p.toNat ≤ nbytes.toNat)
    (hwrap : NoWrap nbytes) (hreach : Reaches m nbytes.toNat k p.toNat q)
    (hfall : FallsOff m nbytes.toNat q) :
    wp Mode.total (mcOptionsListFromBuffer qsort nbytes p)
      (fun r m' => r = (none, p) ∧ ∀ i, i ≤ q → m' i = m i) m := by
  unfold mcOptionsListFromBuffer
  rw [wp_bind]
  apply countOptions_fallsOff h4 hwrap hp hreach hfall
  intro m' hm'
  simp only [if_true, wp_pure, true_and]
  exact hm'

end

/-- From `p` on, up to the end of the buffer or a marker, the bytes are one
    option or more: complete, without a 4-bit part 15, and with no number
    above 65535. -/
def WellFormedOptions (m : Mem) (nbytes : UInt32) (p : Nat) : Prop :=
  ∃ os, os ≠ [] ∧ Encoded m nbytes 0 p os

/-- Whatever the uninitialised locals hold: a list comes back exactly for
    well-formed options, and otherwise the position is as it was. -/
def AcceptsExactly (qsort : Qsort McOption) (nbytes p : UInt32) (m : Mem) : Prop :=
  ∀ s, ∃ r, (run (mcOptionsListFromBuffer qsort nbytes p) m s).value = some r ∧
    (r.1 ≠ none ↔ WellFormedOptions m nbytes p.toNat) ∧
    (¬ WellFormedOptions m nbytes p.toNat → r = (none, p))

/-- The walk runs over the end, or it stops and its headers are right. -/
def WalkedRight (m : Mem) (nbytes : UInt32) (p : Nat) : Prop :=
  ∃ k q, Reaches m nbytes.toNat k p q ∧
    (FallsOff m nbytes.toNat q ∨ (AtStop m nbytes q ∧ RightHeaders m k 0 p))

/-- What a run can give is what the bytes say. -/
theorem AcceptsExactly.of_can {qsort : Qsort McOption} {nbytes p : UInt32} {m : Mem}
    {S : Nat → Prop} {P : Option McOptionsList → Prop} (h : AcceptsExactly qsort nbytes p m)
    (hcan : can S (mcOptionsListFromBuffer qsort nbytes p) (fun r _ => P r.1) m) :
    ∃ list, P list ∧ (list ≠ none ↔ WellFormedOptions m nbytes p.toNat) := by
  obtain ⟨s, _, r, hr, hP⟩ := (can_iff_run _ m).mp hcan
  obtain ⟨r', hr', hiff, _⟩ := h s
  rw [hr] at hr'
  cases hr'
  exact ⟨r.1, hP, hiff⟩

/-- When the decoder accepts exactly the well-formed options. -/
theorem accepts_exactly_iff (qsort : Qsort McOption) (nbytes p : UInt32) (m : Mem)
    (h4 : 4 ≤ nbytes.toNat) (hsmall : nbytes.toNat ≤ 65535) (hp : p.toNat ≤ nbytes.toNat) :
    AcceptsExactly qsort nbytes p m ↔ WalkedRight m nbytes p.toNat := by
  have hwrap := noWrap_of_small hsmall
  constructor
  · intro h
    rcases walk_ends hp with ⟨k, q, hreach, hstop | hfall | hlong⟩
    · refine ⟨k, q, hreach, Or.inr ⟨hstop, ?_⟩⟩
      by_cases hk0 : k = 0
      · rw [hk0]
        trivial
      -- the list is accepted, so the bytes are options, and the walk has gone over them
      · obtain ⟨r, hr, hiff, _⟩ := h fun _ => 0
        have haccept := (run_meets (mcOptionsListFromBuffer_stop qsort h4 hp hwrap hreach hstop)
          (fun _ => 0) fun _ => trivial).post hr
        rw [if_neg hk0] at haccept
        obtain ⟨os, _, hencoded⟩ := hiff.mp haccept
        exact (hencoded.walk hreach).1
    · exact ⟨k, q, hreach, Or.inl hfall⟩
    -- the list can be rejected, and it can be accepted
    · obtain ⟨hreject, l, _, _, hgive⟩ :=
        mcOptionsListFromBuffer_can_long qsort h4 hp hsmall hreach hlong
      obtain ⟨list, hnone, hiff⟩ := h.of_can (P := (· = none)) hreject
      obtain ⟨_, _, hcan⟩ := hgive 0 (by simpa using hlong.2.2.2)
      obtain ⟨list', hsome, hiff'⟩ := h.of_can (P := (· ≠ none)) (hcan _ fun _ _ _ => by simp)
      exact absurd (hiff.mpr (hiff'.mp hsome)) (not_not_intro hnone)
  · intro ⟨k, q, hreach, hends⟩ s
    rcases hends with hfall | ⟨hstop, hright⟩
    · have hmalformed : ¬ WellFormedOptions m nbytes p.toNat := by
        intro ⟨os, _, hencoded⟩
        obtain ⟨_, _, _, hrest, _⟩ := hencoded.walk hreach
        exact hrest.not_fallsOff hfall
      obtain ⟨r, hr, rfl, _⟩ := (run_meets (mcOptionsListFromBuffer_fallsOff qsort h4 hp hwrap
        hreach hfall) s fun _ => trivial).returns id
      exact ⟨_, hr, iff_of_false (not_not_intro rfl) hmalformed, fun _ => rfl⟩
    · obtain ⟨r, hr, hgiven⟩ := (run_meets (mcOptionsListFromBuffer_stop qsort h4 hp hwrap hreach
        hstop) s fun _ => trivial).returns id
      by_cases hk0 : k = 0
      · rw [if_pos hk0] at hgiven
        have hmalformed : ¬ WellFormedOptions m nbytes p.toNat := by
          intro ⟨os, hne, hencoded⟩
          subst hk0
          cases hreach
          cases os with
          | nil => exact hne rfl
          | cons o os =>
            obtain ⟨hlt, hmark⟩ := hencoded.header
            exact hmark (hstop.not_header hlt)
        rw [hgiven] at hr
        exact ⟨_, hr, iff_of_false (not_not_intro rfl) hmalformed, fun _ => rfl⟩
      · rw [if_neg hk0] at hgiven
        obtain ⟨os, hcount, hencoded, _⟩ := encoded_of_rightHeaders hreach hstop hright
        have hformed : WellFormedOptions m nbytes p.toNat := by
          refine ⟨os, ?_, hencoded⟩
          intro hnil
          rw [hnil] at hcount
          exact hk0 hcount.symm
        exact ⟨r, hr, iff_of_true hgiven hformed, fun hmalformed => absurd hformed hmalformed⟩

/-- An option whose delta nibble is 15 is accepted. -/
theorem reserved_nibble_accepted :
    ¬ AcceptsExactly (insertion McOption) 5 4 (ofList [0x40, 1, 0, 7, 0xf0]) := by
  intro h
  obtain ⟨r, hr, hiff, _⟩ := h fun _ => 0
  have haccepted : ((run (mcOptionsListFromBuffer (insertion McOption) 5 4)
      (ofList [0x40, 1, 0, 7, 0xf0]) fun _ => 0).value.map (·.1.isSome)) = some true := by decide
  rw [hr] at haccepted
  obtain ⟨os, hne, hencoded⟩ := hiff.mp (by
    intro hnone
    rw [Option.map_some, hnone] at haccepted
    exact absurd haccepted (by decide))
  cases os with
  | nil => exact hne rfl
  | cons o os => exact hencoded.cons.1.high (by decide)

/-- The witness: a datagram with one option of one byte. -/
theorem accepts_exactly_path :
    AcceptsExactly (insertion McOption) 6 4 (ofList [0x40, 1, 0, 7, 0xb1, 0x61]) := by
  apply (accepts_exactly_iff (insertion McOption) 6 4 (ofList [0x40, 1, 0, 7, 0xb1, 0x61])
    (by decide) (by decide) (by decide)).mpr
  have hend : optionEnd (ofList [0x40, 1, 0, 7, 0xb1, 0x61]) 4 = 6 := by decide
  refine ⟨1, 6, Reaches.option (by decide) (by decide) (by decide) (by decide) ?_,
    Or.inr ⟨Or.inl rfl, ⟨by decide, by decide, by decide⟩, trivial⟩⟩
  show Reaches _ _ 0 (optionEnd (ofList [0x40, 1, 0, 7, 0xb1, 0x61]) 4) 6
  rw [hend]
  exact Reaches.here 6

end Mcoap
