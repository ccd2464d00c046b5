import Mcoap.Reencoding
import Mcoap.TwoPasses

/-! # A parser for datagrams

    What `mc_message_from_buffer` computes, as a function of the bytes of
    the datagram.

    * `parseMessage`: the parser; `parseMessage_congr`: it looks at the
      datagram only;
    * `mcMessageFromBuffer_parses`: where no header has a 4-bit part 14 the
      decoder gives what the parser gives, if it finds the bytes that it
      reads;
    * `mcMessageFromBuffer_unread`: and if it does not, it leaves the block.

    The decoder works in a read buffer of `room` bytes, of which the
    datagram takes up the first `nbytes`. -/

namespace Mcoap

open ByteMem ByteProg StableSort

/-! ## Section 1: The parser -/

/-- What a datagram says. -/
structure Parsed where
  header  : UInt32
  token   : List UInt8
  options : List Wire.Opt
  payload : List UInt8

/-- The end of a datagram, from `p` on: nothing, or one byte that is not
    looked at, or a marker and the payload. -/
def parsePayload (m : Mem) (n p : Nat) : Option (List UInt8) :=
  if n ≤ p + 1 then some []
  else if m p = 0xff then some (slice m (p + 1) (n - p - 1))
  else none

/-- Options that run over the end count as none. -/
def parseMessage (m : Mem) (n : Nat) : Option Parsed :=
  let start := 4 + tokenLengthAt m
  if n < start then none
  else
    let found := (parseOptions m n 0 start).getD ([], start)
    (parsePayload m n found.2).map fun payload =>
      ⟨headerAt m, slice m 4 (tokenLengthAt m), found.1, payload⟩

/-- No header that the scan over the options meets has a 4-bit part 14. -/
def ShortDatagram (m : Mem) (n : Nat) : Prop := ShortForms m n (4 + tokenLengthAt m)

/-- The scan comes to a length whose extension byte is past the room. -/
def RunsOut (m : Mem) (n room : Nat) : Prop :=
  ∃ k q, Reaches m n k (4 + tokenLengthAt m) q ∧ q < n ∧ m q ≠ 0xff ∧ m q &&& 0x0f = 13 ∧
    room ≤ lengthAt m q

/-! ### The parser looks at the datagram only -/

theorem parseOptions_end {m : Mem} {n prev p : Nat} {r : List Wire.Opt × Nat} (hp : p ≤ n)
    (h : parseOptions m n prev p = some r) : r.2 ≤ n := by
  induction hd : n - p using Nat.strongRecOn generalizing prev p r with
  | _ d ih =>
    have hgt := lengthAt_gt m p
    rw [parseOptions] at h
    split at h
    · simp only at h
      split at h
      · rename_i hend
        obtain ⟨r', hrest, rfl⟩ := Option.map_eq_some_iff.mp h
        exact ih _ (by omega) hend (r := r') hrest rfl
      · cases h
    · cases h
      exact hp

/-- A number is said by the bytes of its extension. -/
theorem numberValue_congr {m m' : Mem} {q : Nat} {nib : UInt8}
    (hm : ∀ i, q ≤ i → i < q + Wire.extensionSize nib.toNat → m' i = m i) :
    numberValue m' q nib = numberValue m q nib := by
  rw [numberValue, numberValue]
  by_cases h13 : nib = 13
  · subst h13
    rw [if_pos rfl, if_pos rfl, hm q (Nat.le_refl q) (Nat.lt_succ_self q)]
  · by_cases h14 : nib = 14
    · subst h14
      have hsize : Wire.extensionSize (14 : UInt8).toNat = 2 := rfl
      rw [hsize] at hm
      rw [if_neg h13, if_neg h13, if_pos rfl, if_pos rfl, hm q (by omega) (by omega),
        hm (q + 1) (by omega) (by omega)]
    · rw [if_neg h13, if_neg h13, if_neg h14, if_neg h14]

theorem parseOptions_congr {m m' : Mem} {n : Nat} (hm : ∀ i, i < n → m' i = m i) (prev p : Nat) :
    parseOptions m' n prev p = parseOptions m n prev p := by
  induction hd : n - p using Nat.strongRecOn generalizing prev p with
  | _ d ih =>
    rw [parseOptions, parseOptions]
    by_cases hp : p < n ∧ m p ≠ 0xff
    · have hhead := hm p hp.1
      have hat : lengthAt m' p = lengthAt m p := by rw [lengthAt, lengthAt, hhead]
      have hgt := lengthAt_gt m p
      have hlow : lengthAt m p = p + 1 + Wire.extensionSize (m p >>> 4).toNat := rfl
      rw [hhead, hat, if_pos hp, if_pos hp, announcedDelta, announcedDelta, hhead]
      by_cases hstart : lengthAt m p + Wire.extensionSize (m p &&& 0x0f).toNat ≤ n
      · -- both extensions are inside
        have hlen : numberValue m' (lengthAt m p) (m p &&& 0x0f) =
            numberValue m (lengthAt m p) (m p &&& 0x0f) :=
          numberValue_congr fun i _ hi => hm i (by omega)
        have hdelta : numberValue m' (p + 1) (m p >>> 4) = numberValue m (p + 1) (m p >>> 4) :=
          numberValue_congr fun i _ hi => hm i (by omega)
        simp only [hlen, hdelta]
        split
        · rw [ih _ (by omega) _ _ rfl, slice_congr fun i _ hi => hm i (by omega)]
        · rfl
      · rw [if_neg (by omega), if_neg (by omega)]
    · have hp' : ¬ (p < n ∧ m' p ≠ 0xff) := by
        rintro ⟨hlt, hmark⟩
        rw [hm p hlt] at hmark
        exact hp ⟨hlt, hmark⟩
      rw [if_neg hp', if_neg hp]

/-- The datagram is all that the parser looks at. -/
theorem parseMessage_congr {m m' : Mem} {n : Nat} (hm : ∀ i, i < n → m' i = m i) :
    parseMessage m' n = parseMessage m n := by
  unfold parseMessage
  by_cases h4 : n < 4
  · rw [if_pos (by omega), if_pos (by omega)]
  · have hhead : headerAt m' = headerAt m := by
      rw [headerAt, headerAt, hm 0 (by omega), hm 1 (by omega), hm 2 (by omega), hm 3 (by omega)]
    have htoken : tokenLengthAt m' = tokenLengthAt m := by
      rw [tokenLengthAt, tokenLengthAt, hm 0 (by omega)]
    rw [hhead, htoken]
    by_cases hstart : n < 4 + tokenLengthAt m
    · rw [if_pos hstart, if_pos hstart]
    · have hslice : slice m' 4 (tokenLengthAt m) = slice m 4 (tokenLengthAt m) :=
        slice_congr fun i _ hi => hm i (by omega)
      have hpayload : ∀ p, parsePayload m' n p = parsePayload m n p := by
        intro p
        unfold parsePayload
        by_cases hlast : n ≤ p + 1
        · rw [if_pos hlast, if_pos hlast]
        · rw [if_neg hlast, if_neg hlast, hm p (by omega),
            slice_congr fun i _ hi => hm i (by omega)]
      rw [if_neg hstart, if_neg hstart, parseOptions_congr hm, hslice]
      simp only [hpayload]

/-! ## Section 2: The decoder finds what it reads -/

/-- The program reads in the block, writes nothing and always returns. -/
def roomMode (room : Nat) : Mode UInt16 :=
  ⟨fun _ => True, fun i => i < room, fun _ => False, False⟩

section found
variable {nbytes p : UInt32} {m : Mem} {room k q : Nat}

theorem optionNumFromBuffer_short {nib : UInt8} {Q : UInt16 × UInt32 → Mem → Prop}
    (hne : nib ≠ 14) (hpos : p.toNat + 1 < 2 ^ 32) (hr : nib = 13 → p.toNat < room)
    (hQ : ∀ value p', value.toNat = numberValue m p.toNat nib →
      p'.toNat = p.toNat + Wire.extensionSize nib.toNat → Q (value, p') m) :
    wp (roomMode room) (optionNumFromBuffer nib p) Q m := by
  unfold optionNumFromBuffer
  unfold numberValue at hQ
  by_cases h13 : nib = 13
  · subst h13
    simp only [if_true, mcBufferNextUint8, wp_bind, wp_readByte, wp_pure] at hQ ⊢
    refine ⟨hr rfl, hQ _ _ ?_ (position_no_wrap (k := 1) hpos)⟩
    have hbyte := (m p.toNat).toNat_lt
    have h13' : (13 : UInt16).toNat = 13 := rfl
    rw [encodedIntToValue, if_neg (by decide), if_pos rfl, UInt16.toNat_add,
      UInt8.toNat_toUInt16]
    omega
  · have hne13 : nib.toNat ≠ 13 := fun hn => h13 (nibble_eq_iff.mpr hn)
    have hne14 : nib.toNat ≠ 14 := fun hn => hne (nibble_eq_iff.mpr hn)
    rw [if_neg h13, if_neg hne] at hQ ⊢
    rw [Wire.extensionSize, if_neg hne13, if_neg hne14] at hQ
    exact hQ _ _ (UInt8.toNat_toUInt16 nib) rfl

/-- One iteration of the counting pass. -/
theorem countOptionsLoop_short {total : UInt32} {fuel : Nat} {Q : UInt32 → Mem → Prop}
    (hwrap : NoWrap nbytes) (hroom : nbytes.toNat ≤ room) (hp : p.toNat < nbytes.toNat)
    (hmark : m p.toNat ≠ 0xff) (hlen : m p.toNat &&& 0x0f ≠ 14)
    (hext : m p.toNat &&& 0x0f = 13 → lengthAt m p.toNat < room)
    (hQ : ∀ p', p'.toNat = optionEnd m p.toNat →
      if p' > nbytes then Q 0 m
      else wp (roomMode room) (countOptionsLoop nbytes fuel p' (total + 1)) Q m) :
    wp (roomMode room) (countOptionsLoop nbytes (fuel + 1) p total) Q m := by
  unfold NoWrap at hwrap
  have h1 := position_succ hp
  have hat := lengthAt_le m p.toNat
  have hsize := Wire.extensionSize_le (m p.toNat >>> 4).toNat
  have hsize' := Wire.extensionSize_le (m p.toNat &&& 0x0f).toNat
  have hskip : (if m p.toNat >>> 4 = 13 then p + 1 + 1
      else if m p.toNat >>> 4 = 14 then p + 1 + 2 else p + 1).toNat = lengthAt m p.toNat := by
    rw [skip_toNat (by omega), h1, lengthAt]
  simp only [countOptionsLoop, if_pos (UInt32.lt_iff_toNat_lt.mpr hp), wp_bind, wp_readByte,
    if_neg hmark]
  refine ⟨hp.trans_le hroom, ?_⟩
  apply optionNumFromBuffer_short hlen (by omega) (by rw [hskip]; exact hext)
  intro value p' hvalue hp'
  rw [hskip, announcedLength_eq hlen] at hvalue
  rw [hskip] at hp'
  have hlt := value.toNat_lt
  have hend : (p' + value.toUInt32).toNat = optionEnd m p.toNat := by
    rw [position_no_wrap (by rw [UInt16.toNat_toUInt32]; omega), UInt16.toNat_toUInt32, hp',
      hvalue, optionEnd]
  rw [wp_ite]
  exact hQ _ hend

/-- The counting pass goes over complete options. -/
theorem countOptionsLoop_counts {Q : UInt32 → Mem → Prop} (hwrap : NoWrap nbytes)
    (hroom : nbytes.toNat ≤ room) {x y fuel : Nat} (hreach : Reaches m nbytes.toNat k x y)
    {p' total : UInt32} (hp : p.toNat = x) (hp' : p'.toNat = y)
    (hQ : wp (roomMode room) (countOptionsLoop nbytes fuel p' (total + UInt32.ofNat k)) Q m) :
    wp (roomMode room) (countOptionsLoop nbytes (k + fuel) p total) Q m := by
  induction hreach generalizing p total with
  | here q =>
    have heq : p' = p := UInt32.toNat_inj.mp (by rw [hp', hp])
    rw [heq] at hQ
    simpa using hQ
  | @option k q y hlt hmark hne hend hrest ih =>
    subst hp
    obtain ⟨hpos, hover⟩ := optionEnd_inside hend
    have hopt : optionEnd m p.toNat = lengthAt m p.toNat
      + Wire.extensionSize (m p.toNat &&& 0x0f).toNat + announcedLength m p.toNat := rfl
    rw [show k + 1 + fuel = k + fuel + 1 by omega]
    apply countOptionsLoop_short hwrap hroom hlt hmark hne
    · intro h13
      have hsize : Wire.extensionSize (m p.toNat &&& 0x0f).toNat = 1 := by
        rw [h13]
        rfl
      omega
    · intro p'' hp''
      have hsame : p'' = UInt32.ofNat (optionEnd m p.toNat) :=
        UInt32.toNat_inj.mp (by rw [hp'', hpos])
      rw [hsame, if_neg hover]
      rw [count_succ] at hQ
      exact ih hpos hp' hQ

/-- Over options up to a stop: they are counted. -/
theorem countOptions_counts {Q : UInt32 → Mem → Prop} (h4 : 4 ≤ nbytes.toNat)
    (hwrap : NoWrap nbytes) (hroom : nbytes.toNat ≤ room) (hp : p.toNat ≤ nbytes.toNat)
    (hreach : Reaches m nbytes.toNat k p.toNat q) (hstop : AtStop m nbytes q)
    (hQ : Q (UInt32.ofNat k) m) : wp (roomMode room) (countOptions nbytes p) Q m := by
  have hn4 : ¬ nbytes < 4 := UInt32.not_lt.mpr (UInt32.le_iff_toNat_le.mpr h4)
  obtain ⟨hfuel, hpos, _⟩ := walk_fuel hp hreach
  unfold countOptions
  rw [if_neg hn4, hfuel]
  apply countOptionsLoop_counts hwrap hroom hreach rfl hpos
  apply countOptionsLoop_stop fun i hi => Nat.lt_of_lt_of_le hi hroom
  · rw [hpos]
    exact hstop
  · rw [UInt32.zero_add]
    exact hQ

/-- Over options of which the last one runs over the end: none is counted. -/
theorem countOptions_overruns {Q : UInt32 → Mem → Prop} (h4 : 4 ≤ nbytes.toNat)
    (hwrap : NoWrap nbytes) (hroom : nbytes.toNat ≤ room) (hp : p.toNat ≤ nbytes.toNat)
    (hreach : Reaches m nbytes.toNat k p.toNat q) (hfall : FallsOff m nbytes.toNat q)
    (hlen : m q &&& 0x0f ≠ 14) (hext : m q &&& 0x0f = 13 → lengthAt m q < room) (hQ : Q 0 m) :
    wp (roomMode room) (countOptions nbytes p) Q m := by
  obtain ⟨hlt, hmark, hover⟩ := hfall
  have hn4 : ¬ nbytes < 4 := UInt32.not_lt.mpr (UInt32.le_iff_toNat_le.mpr h4)
  obtain ⟨hfuel, hpos, _⟩ := walk_fuel hp hreach
  rw [if_neg hlen] at hover
  unfold countOptions
  rw [if_neg hn4, hfuel]
  apply countOptionsLoop_counts hwrap hroom hreach rfl hpos
  rw [← hpos] at hlt hmark hlen hext hover
  apply countOptionsLoop_short hwrap hroom hlt hmark hlen hext
  intro p' hp'
  have hpast : p' > nbytes := by
    show nbytes < p'
    rw [UInt32.lt_iff_toNat_lt, hp']
    exact hover
  rw [if_pos hpast]
  exact hQ

/-- One call of `option_from_buffer`. -/
theorem optionFromBuffer_short {prevnum : UInt16} {Q : Option McOption × UInt32 → Mem → Prop}
    (hwrap : NoWrap nbytes) (hroom : nbytes.toNat ≤ room) (hp : p.toNat < nbytes.toNat)
    (hdelta : m p.toNat >>> 4 ≠ 14) (hlen : m p.toNat &&& 0x0f ≠ 14)
    (hend : optionEnd m p.toNat ≤ nbytes.toNat)
    (hQ : ∀ (option : McOption) (p' : UInt32),
      option.optionNum.toNat = (prevnum.toNat + announcedDelta m p.toNat) % 65536 →
      option.value.toList = (optionAt m prevnum.toNat p.toNat).value →
      p'.toNat = optionEnd m p.toNat → Q (some option, p') m) :
    wp (roomMode room) (optionFromBuffer nbytes prevnum p) Q m := by
  unfold NoWrap at hwrap
  have hn1 : ¬ nbytes < 1 := not_lt_one (by omega)
  have h1 := position_succ hp
  have hat : lengthAt m p.toNat = p.toNat + 1 + Wire.extensionSize (m p.toNat >>> 4).toNat := rfl
  have hopt : optionEnd m p.toNat = lengthAt m p.toNat
    + Wire.extensionSize (m p.toNat &&& 0x0f).toNat + announcedLength m p.toNat := rfl
  have h13size : Wire.extensionSize (13 : UInt8).toNat = 1 := rfl
  unfold optionFromBuffer
  simp only [if_neg hn1, mcBufferNextUint8, wp_bind, wp_readByte, wp_pure]
  refine ⟨hp.trans_le hroom, ?_⟩
  -- the number
  apply optionNumFromBuffer_short hdelta (by omega)
  · intro h13
    rw [h13, h13size] at hat
    omega
  intro delta p1 hd hp1
  rw [h1] at hd hp1
  rw [← hat] at hp1
  dsimp only
  -- the length
  apply optionNumFromBuffer_short hlen (by omega)
  · intro h13
    rw [h13, h13size] at hopt
    omega
  intro optlen p2 hl hp2
  rw [hp1, announcedLength_eq hlen] at hl
  rw [hp1] at hp2
  -- the value
  simp only [mcBufferNextPtr_eq, msCopyUint8, wp_readBytes, UInt16.toNat_toUInt32]
  refine ⟨fun i _ hi => show i < room by omega, ?_⟩
  apply hQ
  · show (delta + prevnum).toNat = _
    rw [UInt16.toNat_add, hd, Nat.add_comm]
    rfl
  · have hl32 : optlen.toUInt32.toNat = (slice m p2.toNat optlen.toNat).length := by
      rw [slice_length, UInt16.toNat_toUInt32]
    have hwire := McOption.wire_init (delta + prevnum) hl32
    rw [hp2, hl] at hwire ⊢
    exact congrArg Wire.Opt.value hwire
  · rw [position_no_wrap (by rw [UInt16.toNat_toUInt32]; omega), UInt16.toNat_toUInt32]
    omega

/-- All the calls. -/
theorem optionsFromBuffer_short {x y : Nat} (hwrap : NoWrap nbytes) (hroom : nbytes.toNat ≤ room)
    (hreach : Reaches m nbytes.toNat k x y) (hstop : AtStop m nbytes y)
    (hshort : ShortForms m nbytes.toNat x) (prevnum : UInt16) (hp : p.toNat = x) :
    wp (roomMode room) (optionsFromBuffer nbytes k prevnum p) (fun r m' =>
      m' = m ∧ r.2.toNat = y ∧ ∃ options, r.1 = some options ∧ options.length = k ∧
        parseOptions m nbytes.toNat prevnum.toNat x = some (wireOptions options, y)) m := by
  induction hreach generalizing p prevnum with
  | here x => exact ⟨rfl, hp, [], rfl, rfl, parseOptions_stop hstop _⟩
  | @option k x y hlt hmark hlen hend hrest ih =>
    subst hp
    obtain ⟨hdelta, _⟩ := hshort 0 p.toNat (Reaches.here _) hlt hmark
    have hshort' : ShortForms m nbytes.toNat (optionEnd m p.toNat) :=
      fun j q hj => hshort (j + 1) q (Reaches.option hlt hmark hlen hend hj)
    simp only [optionsFromBuffer, wp_bind]
    apply optionFromBuffer_short hwrap hroom hlt hdelta hlen hend
    intro option p' hnum hvalue hp'
    simp only [wp_bind, wp_pure]
    apply wp_mono ?_ (ih hstop hshort' option.optionNum hp')
    rintro ⟨options, p''⟩ m' ⟨hm', hp'', l, hl, hcount, hparse⟩
    cases hl
    refine ⟨hm', hp'', option :: l, rfl, congrArg (· + 1) hcount, ?_⟩
    rw [parseOptions_option _ hlt hmark hlen hend, ← hnum, hparse, ← hvalue]
    rfl

/-- The two passes and the sorting. -/
theorem mcOptionsListFromBuffer_short {qsort : Qsort McOption} (hq : qsort.Stable)
    (h4 : 4 ≤ nbytes.toNat) (hwrap : NoWrap nbytes) (hroom : nbytes.toNat ≤ room)
    (hp : p.toNat ≤ nbytes.toNat) (hshort : ShortForms m nbytes.toNat p.toNat)
    (hread : ∀ k q, Reaches m nbytes.toNat k p.toNat q → q < nbytes.toNat → m q ≠ 0xff →
      m q &&& 0x0f = 13 → lengthAt m q < room) :
    wp (roomMode room) (mcOptionsListFromBuffer qsort nbytes p) (fun r m' =>
      let found := (parseOptions m nbytes.toNat 0 p.toNat).getD ([], p.toNat)
      m' = m ∧ r.2.toNat = found.2 ∧ InNumberOrder found.1 (wireOptions (listOptions r.1)) ∧
        (found.1 = [] → r.1 = none)) m := by
  have hnil : InNumberOrder [] (wireOptions (listOptions none)) := ⟨List.Pairwise.nil, fun _ => rfl⟩
  unfold mcOptionsListFromBuffer
  rw [wp_bind]
  rcases walk_ends hp with ⟨k, q, hreach, hstop | hfall | hlong⟩
  · obtain ⟨_, _, hk⟩ := walk_fuel hp hreach
    apply countOptions_counts h4 hwrap hroom hp hreach hstop
    by_cases hk0 : k = 0
    · subst hk0
      cases hreach
      rw [if_pos (show UInt32.ofNat 0 = 0 from rfl), parseOptions_stop hstop]
      exact ⟨rfl, rfl, hnil, fun _ => rfl⟩
    · have hle := hreach.le
      have hn := nbytes.toNat_lt
      have hin := hreach.inside hp
      rw [if_neg (ofNat32_ne_zero hk0 (by omega)), hk, wp_bind]
      apply wp_mono ?_ (optionsFromBuffer_short hwrap hroom hreach hstop hshort 0 rfl)
      rintro ⟨l, p'⟩ m' ⟨hm', hp', options, hl, hlength, hparse⟩
      cases hl
      rw [UInt16.toNat_zero] at hparse
      rw [hparse]
      refine ⟨hm', hp', inNumberOrder_init hq options, fun hempty => ?_⟩
      have hzero := congrArg List.length hempty
      rw [Option.getD_some, wireOptions_length, hlength] at hzero
      exact absurd hzero hk0
  · have hlt := hfall.1
    have hmark := hfall.2.1
    apply countOptions_overruns h4 hwrap hroom hp hreach hfall (hshort k q hreach hlt hmark).2
      (hread k q hreach hlt hmark)
    rw [if_pos rfl, parseOptions_fallsOff hreach hfall hshort]
    exact ⟨rfl, rfl, hnil, fun _ => rfl⟩
  · obtain ⟨hlt, hmark, h14, _⟩ := hlong
    exact absurd h14 (hshort k q hreach hlt hmark).2

theorem payloadFromBuffer_short (hroom : nbytes.toNat ≤ room) (hp : p.toNat ≤ nbytes.toNat) :
    wp (roomMode room) (payloadFromBuffer nbytes p) (fun r m' =>
      m' = m ∧ r.1.map bytesOf = parsePayload m nbytes.toNat p.toNat ∧
        ∀ payload, r.1 = some payload → bytesOf payload = [] → payload = none) m := by
  have hrem := position_room hp
  have h1 : (1 : UInt32).toNat = 1 := rfl
  unfold payloadFromBuffer parsePayload
  by_cases hgt : nbytes - p > 1
  -- more than the marker is left
  · have hgt' : 1 < (nbytes - p).toNat := UInt32.lt_iff_toNat_lt.mp hgt
    have hmarker : p.toNat < nbytes.toNat := by omega
    rw [if_neg (show ¬ nbytes.toNat ≤ p.toNat + 1 by omega)]
    simp only [if_pos hgt, wp_bind, wp_readByte]
    refine ⟨hmarker.trans_le hroom, ?_⟩
    by_cases hmark : m p.toNat = 0xff
    · obtain ⟨hp1, hpl, hfits⟩ := payload_room hmarker
      simp only [hmark, ne_eq, not_true, if_false, mcBufferCopyFrom, hfits, if_true, wp_bind,
        wp_readBytes, wp_pure, hp1, hpl]
      have hbytes : bytesOf (some ⟨nbytes - p - 1, blit (ofList []) (0 : UInt32).toNat
          (slice m (p.toNat + 1) (nbytes.toNat - p.toNat - 1))⟩) =
          slice m (p.toNat + 1) (nbytes.toNat - p.toNat - 1) := by
        have hlen : (nbytes - p - 1).toNat =
            (slice m (p.toNat + 1) (nbytes.toNat - p.toNat - 1)).length := by
          rw [slice_length, hpl]
        rw [bytesOf_some, McBuffer.toList, UInt32.toNat_zero, hlen]
        exact slice_of_holds (holds_blit _ 0 _)
      refine ⟨fun i _ hi => show i < room by omega, trivial, ?_, ?_⟩
      · exact congrArg some hbytes
      · intro payload hpayload hempty
        cases hpayload
        rw [hbytes] at hempty
        have hzero := congrArg List.length hempty
        rw [slice_length, List.length_nil] at hzero
        omega
    · simp only [hmark, ne_eq, not_false_eq_true, if_true, wp_pure, if_false]
      exact ⟨trivial, rfl, fun payload hpayload => absurd hpayload (by simp)⟩
  · have hle : nbytes.toNat ≤ p.toNat + 1 := by
      have hnot := mt UInt32.lt_iff_toNat_lt.mpr hgt
      omega
    simp only [if_neg hgt, wp_pure, if_pos hle]
    refine ⟨trivial, rfl, fun payload hpayload _ => ?_⟩
    cases hpayload
    rfl

end found

/-- The message of a datagram; its options are in number order. -/
structure McMessage.Parses (message : McMessage) (parsed : Parsed) : Prop where
  header    : message.header = parsed.header
  token     : message.token.toList = parsed.token
  options   : InNumberOrder parsed.options (wireOptions (listOptions message.options))
  payload   : bytesOf message.payload = parsed.payload
  noOptions : parsed.options = [] → message.options = none
  noPayload : parsed.payload = [] → message.payload = none

/-- The message, or null, that goes with what is parsed. -/
def GivesParsed (msg : Option McMessage) (parsed : Option Parsed) : Prop :=
  match parsed with
  | none => msg = none
  | some parsed => ∃ message, msg = some message ∧ message.Parses parsed

/-- The decoder gives what the parser gives. -/
theorem mcMessageFromBuffer_parses {qsort : Qsort McOption} {nbytes : UInt32} {m : Mem}
    {room : Nat} (hq : qsort.Stable) (hwrap : NoWrap nbytes) (hroom : nbytes.toNat ≤ room)
    (hshort : ShortDatagram m nbytes.toNat)
    (htoken : nbytes.toNat < 4 ∨ 4 + tokenLengthAt m ≤ nbytes.toNat)
    (hread : ¬ RunsOut m nbytes.toNat room) :
    wp (roomMode room) (mcMessageFromBuffer qsort nbytes 0)
      (fun r _ => GivesParsed r.1 (parseMessage m nbytes.toNat)) m := by
  by_cases h4 : nbytes.toNat < 4
  · have hn4 : nbytes < 4 := UInt32.lt_iff_toNat_lt.mpr h4
    unfold mcMessageFromBuffer parseMessage
    rw [if_pos hn4, if_pos (by omega)]
    exact rfl
  · have hstart : 4 + tokenLengthAt m ≤ nbytes.toNat := htoken.resolve_left h4
    have hp := optionsAt_toNat m
    rw [mcMessageFromBuffer_reads (by omega)]
    refine ⟨fun i hi => show i < room by omega, ?_⟩
    apply wp_mono ?_ (mcOptionsListFromBuffer_short hq (by omega) hwrap hroom (by omega)
      (by rw [hp]; exact hshort) (by
        rw [hp]
        intro k q hreach hlt hmark h13
        by_contra hout
        exact hread ⟨k, q, hreach, hlt, hmark, h13, Nat.le_of_not_lt hout⟩))
    rintro ⟨options, p⟩ m1 ⟨hm1, hpos, horder, hnone⟩
    subst hm1
    rw [hp] at hpos horder hnone
    have hinside : p.toNat ≤ nbytes.toNat := by
      rw [hpos]
      cases hparse : parseOptions m1 nbytes.toNat 0 (4 + tokenLengthAt m1) with
      | none => exact hstart
      | some found => exact parseOptions_end hstart hparse
    apply wp_mono ?_ (payloadFromBuffer_short hroom hinside)
    rintro ⟨payload, p'⟩ m2 ⟨hm2, hpayload, hempty⟩
    subst hm2
    rw [hpos] at hpayload
    unfold parseMessage
    simp only [if_neg (Nat.not_lt.mpr hstart), ← hpayload]
    cases payload with
    | none => exact rfl
    | some payload =>
      exact ⟨messageAt m2 options payload, rfl, rfl, tokenAt_toList m2, horder, rfl, hnone,
        hempty payload rfl⟩

/-! ## Section 3: The decoder leaves the block -/

section unread
variable {nbytes p : UInt32} {m : Mem} {S : Nat → Prop}

/-- A number with the nibble 13 is read where it lies. -/
theorem optionNumFromBuffer_can_extended {Q : UInt16 × UInt32 → Mem → Prop}
    (h : can S (optionNumFromBuffer 13 p) Q m) : S p.toNat := by
  simp only [optionNumFromBuffer, if_true, mcBufferNextUint8, can_bind, can_readByte] at h
  exact h.1

/-- One iteration of the counting pass, if the run goes through it. -/
theorem countOptionsLoop_can_short {total : UInt32} {fuel : Nat} {Q : UInt32 → Mem → Prop}
    (hwrap : NoWrap nbytes) (hp : p.toNat < nbytes.toNat) (hmark : m p.toNat ≠ 0xff)
    (hlen : m p.toNat &&& 0x0f ≠ 14)
    (h : can S (countOptionsLoop nbytes (fuel + 1) p total) Q m) :
    (m p.toNat &&& 0x0f = 13 → S (lengthAt m p.toNat)) ∧
      ∃ p', p'.toNat = optionEnd m p.toNat ∧
        if p' > nbytes then Q 0 m else can S (countOptionsLoop nbytes fuel p' (total + 1)) Q m := by
  unfold NoWrap at hwrap
  have h1 := position_succ hp
  have hat := lengthAt_le m p.toNat
  have hsize := Wire.extensionSize_le (m p.toNat >>> 4).toNat
  have hsize' := Wire.extensionSize_le (m p.toNat &&& 0x0f).toNat
  have hskip : (if m p.toNat >>> 4 = 13 then p + 1 + 1
      else if m p.toNat >>> 4 = 14 then p + 1 + 2 else p + 1).toNat = lengthAt m p.toNat := by
    rw [skip_toNat (by omega), h1, lengthAt]
  simp only [countOptionsLoop, if_pos (UInt32.lt_iff_toNat_lt.mpr hp), can_bind, can_readByte,
    if_neg hmark] at h
  obtain ⟨_, h⟩ := h
  constructor
  · intro h13
    rw [h13] at h
    rw [← hskip]
    exact optionNumFromBuffer_can_extended h
  -- a number that is read has its value
  · have hnum := @optionNumFromBuffer_short (if m p.toNat >>> 4 = 13 then p + 1 + 1
      else if m p.toNat >>> 4 = 14 then p + 1 + 2 else p + 1) m (2 ^ 32) (m p.toNat &&& 0x0f)
      (fun r m' => m' = m ∧ r.1.toNat = announcedLength m p.toNat ∧
        r.2.toNat = lengthAt m p.toNat + Wire.extensionSize (m p.toNat &&& 0x0f).toNat)
      hlen (by omega) (fun _ => by omega) (by
        intro value p' hvalue hp'
        rw [hskip] at hvalue hp'
        rw [announcedLength_eq hlen] at hvalue
        exact ⟨rfl, hvalue, hp'⟩)
    obtain ⟨⟨value, p'⟩, m', hrest, hm', hvalue, hp'⟩ := can_wp (fun _ => trivial) h hnum
    subst hm'
    have hlt := value.toNat_lt
    refine ⟨p' + value.toUInt32, ?_, ?_⟩
    · dsimp only at hvalue hp'
      rw [position_no_wrap (by rw [UInt16.toNat_toUInt32]; omega), UInt16.toNat_toUInt32, hp',
        hvalue, optionEnd]
    · split at hrest
      · rename_i hpast
        rw [if_pos hpast]
        exact hrest
      · rename_i hpast
        rw [if_neg hpast]
        exact hrest

/-- The run goes over complete options. -/
theorem countOptionsLoop_can_counts {Q : UInt32 → Mem → Prop} (hwrap : NoWrap nbytes)
    {k x y fuel : Nat} (hreach : Reaches m nbytes.toNat k x y) {total : UInt32}
    (hp : p.toNat = x) (h : can S (countOptionsLoop nbytes (k + fuel) p total) Q m) :
    ∃ p' total', p'.toNat = y ∧ can S (countOptionsLoop nbytes fuel p' total') Q m := by
  induction hreach generalizing p total with
  | here q =>
    rw [Nat.zero_add] at h
    exact ⟨p, total, hp, h⟩
  | @option k q y hlt hmark hne hend hrest ih =>
    subst hp
    rw [show k + 1 + fuel = k + fuel + 1 by omega] at h
    obtain ⟨_, p', hp', hnext⟩ := countOptionsLoop_can_short hwrap hlt hmark hne h
    have hover : ¬ p' > nbytes := by
      show ¬ nbytes < p'
      rw [UInt32.lt_iff_toNat_lt, hp']
      omega
    rw [if_neg hover] at hnext
    exact ih hp' hnext

/-- A missing extension byte is read all the same. -/
theorem countOptions_can_extended {Q : UInt32 → Mem → Prop} {k q : Nat} (h4 : 4 ≤ nbytes.toNat)
    (hwrap : NoWrap nbytes) (hp : p.toNat ≤ nbytes.toNat)
    (hreach : Reaches m nbytes.toNat k p.toNat q) (hlt : q < nbytes.toNat) (hmark : m q ≠ 0xff)
    (h13 : m q &&& 0x0f = 13) (h : can S (countOptions nbytes p) Q m) : S (lengthAt m q) := by
  have hn4 : ¬ nbytes < 4 := UInt32.not_lt.mpr (UInt32.le_iff_toNat_le.mpr h4)
  obtain ⟨hfuel, _, _⟩ := walk_fuel hp hreach
  unfold countOptions at h
  rw [if_neg hn4, hfuel] at h
  obtain ⟨p', total', hp', h'⟩ := countOptionsLoop_can_counts hwrap hreach rfl h
  rw [← hp'] at hlt hmark h13 ⊢
  have hne : m p'.toNat &&& 0x0f ≠ 14 := by
    rw [h13]
    decide
  exact (countOptionsLoop_can_short hwrap hlt hmark hne h').1 h13

/-- A token that is longer than the datagram: the payload is taken from
    where the token ends, up to the end of the address space. -/
theorem mcMessageFromBuffer_can_token {qsort : Qsort McOption}
    {Q : Option McMessage × UInt32 → Mem → Prop} (h4 : 4 ≤ nbytes.toNat)
    (hshort : nbytes.toNat < 4 + tokenLengthAt m)
    (h : can S (mcMessageFromBuffer qsort nbytes 0) Q m) (hQ : ∀ r m', Q r m' → r.1 ≠ none) :
    ∃ i, 2 ^ 32 ≤ i ∧ S i := by
  have hp := optionsAt_toNat m
  have hn4 : ¬ nbytes < 4 := UInt32.not_lt.mpr (UInt32.le_iff_toNat_le.mpr h4)
  have hpast : ¬ optionsAt m < nbytes := by
    rw [UInt32.lt_iff_toNat_lt, hp]
    omega
  rw [mcMessageFromBuffer_can h4] at h
  obtain ⟨_, h⟩ := h
  simp only [mcOptionsListFromBuffer, countOptions, if_neg hn4, countOptionsLoop, if_neg hpast,
    can_bind, can_pure, if_true] at h
  -- the differences wrap around
  have hlow := (m 0 &&& 0x0f).toNat_lt
  have hle : tokenLengthAt m < 256 := hlow
  have h1 : (1 : UInt32).toNat = 1 := rfl
  have hrem : (nbytes - optionsAt m).toNat = 2 ^ 32 - (4 + tokenLengthAt m) + nbytes.toNat := by
    rw [UInt32.toNat_sub, hp]
    omega
  have hgt : nbytes - optionsAt m > 1 := by
    show 1 < nbytes - optionsAt m
    rw [UInt32.lt_iff_toNat_lt]
    omega
  have hpl : (nbytes - optionsAt m - 1).toNat =
      2 ^ 32 - (4 + tokenLengthAt m) + nbytes.toNat - 1 := by
    rw [UInt32.toNat_sub, hrem]
    omega
  have hstart : (optionsAt m + 1).toNat = 4 + tokenLengthAt m + 1 := by
    rw [UInt32.toNat_add, hp]
    omega
  have hsame : nbytes - (optionsAt m + 1) = nbytes - optionsAt m - 1 := by
    apply UInt32.toNat_inj.mp
    rw [hpl, UInt32.toNat_sub, hstart]
    omega
  have hfits : copyFits (nbytes - optionsAt m - 1) 0 nbytes (optionsAt m + 1)
      (nbytes - optionsAt m - 1) = true := by
    rw [copyFits, UInt32.sub_zero, hsame, if_neg (UInt32.lt_irrefl _), if_neg (UInt32.lt_irrefl _)]
  simp only [payloadFromBuffer, if_pos hgt, can_bind, can_readByte] at h
  obtain ⟨_, h⟩ := h
  split at h
  · exact absurd rfl (hQ _ _ h)
  · simp only [mcBufferCopyFrom, hfits, if_true, can_bind, can_readBytes] at h
    refine ⟨2 ^ 32 + nbytes.toNat - 1, by omega, h.1 _ (by omega) (by omega)⟩

/-- A run that stays in the block and gives a message finds what it reads. -/
theorem mcMessageFromBuffer_unread {qsort : Qsort McOption} {room : Nat} (hwrap : NoWrap nbytes)
    (hroom : room ≤ 2 ^ 32)
    (h : can (fun i => i < room) (mcMessageFromBuffer qsort nbytes 0) (fun r _ => r.1 ≠ none) m) :
    4 + tokenLengthAt m ≤ nbytes.toNat ∧ ¬ RunsOut m nbytes.toNat room := by
  have h4 : 4 ≤ nbytes.toNat := by
    by_contra hlt
    have hn4 : nbytes < 4 := UInt32.lt_iff_toNat_lt.mpr (Nat.lt_of_not_le hlt)
    unfold mcMessageFromBuffer at h
    rw [if_pos hn4] at h
    exact absurd rfl h
  have htoken : 4 + tokenLengthAt m ≤ nbytes.toNat := by
    by_contra hlong
    obtain ⟨i, hi, hin⟩ :=
      mcMessageFromBuffer_can_token h4 (Nat.lt_of_not_le hlong) h fun _ _ hr => hr
    omega
  refine ⟨htoken, ?_⟩
  rintro ⟨k, q, hreach, hlt, hmark, h13, hout⟩
  have hp := optionsAt_toNat m
  rw [mcMessageFromBuffer_can h4] at h
  obtain ⟨_, h⟩ := h
  unfold mcOptionsListFromBuffer at h
  rw [can_bind] at h
  have hin := countOptions_can_extended h4 hwrap (by rw [hp]; exact htoken)
    (by rw [hp]; exact hreach) hlt hmark h13 h
  exact absurd hin (Nat.not_lt.mpr hout)

end unread

/-! ## Section 4: What the conditions look at -/

section datagram
variable {m m' : Mem} {n room : Nat}

theorem tokenLengthAt_congr (hm : ∀ i, i < n → m' i = m i) (hn : 0 < n) :
    tokenLengthAt m' = tokenLengthAt m := by rw [tokenLengthAt, tokenLengthAt, hm 0 hn]

theorem ShortDatagram.congr (h : ShortDatagram m n) (hm : ∀ i, i < n → m' i = m i) :
    ShortDatagram m' n := by
  intro k q hreach hlt hmark
  rw [tokenLengthAt_congr hm (by omega)] at hreach
  rw [hm q hlt] at hmark ⊢
  exact h k q (hreach.congr fun i _ hi => (hm i (by omega)).symm) hlt hmark

theorem RunsOut.congr (h : RunsOut m n room) (hm : ∀ i, i < n → m' i = m i) :
    RunsOut m' n room := by
  obtain ⟨k, q, hreach, hlt, hmark, h13, hout⟩ := h
  rw [← tokenLengthAt_congr hm (by omega)] at hreach
  have hhead := hm q hlt
  refine ⟨k, q, hreach.congr fun i _ hi => hm i (by omega), hlt, ?_, ?_, ?_⟩
  · rw [hhead]
    exact hmark
  · rw [hhead]
    exact h13
  · rw [lengthAt, hhead]
    exact hout

/-- Three bytes behind the datagram are always enough. -/
theorem not_runsOut (hroom : n + 3 ≤ room) : ¬ RunsOut m n room := by
  rintro ⟨k, q, _, hlt, _, _, hout⟩
  have hat := lengthAt_le m q
  omega

end datagram

end Mcoap
