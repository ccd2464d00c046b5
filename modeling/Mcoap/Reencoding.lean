import Mcoap.OptionOrder
import Mcoap.OptionsAccepted
import Mcoap.RoundTrip

/-! # Encoding what was decoded

    When `mc_message_to_buffer` gives back the datagram that
    `mc_message_from_buffer` has accepted.

    * `Reproduced`: a message is encoded to the bytes of a datagram;
    * `EncodingUndoes`: every run of the decoder that keeps inside the
      datagram and accepts it gives such a message;
    * `encoding_undoes_iff`: when this is so.

    What the decoder accepts and the encoder does not give back: a single
    byte after the token or after the options, a 4-bit part 15, a number
    that wraps around, and every number with two extension bytes. -/

namespace Mcoap

open ByteMem ByteProg StableSort

/-! ## Section 1: Messages that give a datagram back -/

/-- The message is encoded to the `nbytes` bytes of the datagram in `m`. -/
def Reproduced (message : McMessage) (nbytes : UInt32) (m : Mem) : Prop :=
  ∀ (dest : Mem) (s : Supply UInt16),
    (run (mcMessageToBuffer message nbytes) dest s).value = some nbytes ∧
      slice (run (mcMessageToBuffer message nbytes) dest s).mem 0 nbytes.toNat =
        slice m 0 nbytes.toNat

/-- Every run of the decoder that accepts the datagram and reads inside it
    gives a message that is encoded to the datagram. -/
def EncodingUndoes (qsort : Qsort McOption) (nbytes : UInt32) (m : Mem) : Prop :=
  ∀ s message pos,
    (run (mcMessageFromBuffer qsort nbytes 0) m s).value = some (some message, pos) →
    (∀ i, Access.rd i ∈ (run (mcMessageFromBuffer qsort nbytes 0) m s).trace → i < nbytes.toNat) →
    Reproduced message nbytes m

theorem encodingUndoes_iff_can (qsort : Qsort McOption) (nbytes : UInt32) (m : Mem) :
    EncodingUndoes qsort nbytes m ↔ ¬ can (Inside nbytes) (mcMessageFromBuffer qsort nbytes 0)
      (fun r _ => ∃ message, r.1 = some message ∧ ¬ Reproduced message nbytes m) m := by
  rw [can_iff_run]
  constructor
  · intro h ⟨s, hread, ⟨result, pos⟩, hvalue, message, hmessage, hnot⟩
    dsimp only at hmessage
    subst hmessage
    exact hnot (h s message pos hvalue hread)
  · intro h s message pos hvalue hread
    by_contra hnot
    exact h ⟨s, hread, _, hvalue, message, rfl, hnot⟩

/-- The encoder's result is the bytes of the message, so the datagram has to
    be just these. -/
theorem reproduced_iff {message : McMessage} {nbytes : UInt32} {m : Mem}
    (hlist : ListEncodable message.options) (hsize : (messageBytes message).length < 2 ^ 32)
    (h4 : 4 ≤ nbytes.toNat) :
    Reproduced message nbytes m ↔
      (messageBytes message).length = nbytes.toNat ∧ Holds m 0 (messageBytes message) := by
  have hbuffer : (mcMessageBufferSize message).toNat = (messageBytes message).length := by
    rw [mcMessageBufferSize_eq hlist]
    exact ofNat32_toNat hsize
  constructor
  · intro h
    obtain ⟨hvalue, hbytes⟩ := h m fun _ => 0
    by_cases hfit : (messageBytes message).length ≤ nbytes.toNat
    · obtain ⟨r, hr, hlen, hmem⟩ := (run_meets (mcMessageToBuffer_writes hlist hfit m)
        (fun _ => 0) fun _ => trivial).returns id
      rw [hvalue] at hr
      cases hr
      refine ⟨hlen.symm, ?_⟩
      rw [holds_iff_slice, ← hlen, ← hbytes, hmem, hlen]
      exact slice_of_holds (holds_blit m 0 _)
    -- a message that is too long is refused
    · have htest : mcMessageBufferSize message > nbytes := by
        show nbytes < mcMessageBufferSize message
        rw [UInt32.lt_iff_toNat_lt, hbuffer]
        omega
      rw [mcMessageToBuffer, if_pos htest] at hvalue
      have hzero : (0 : UInt32) = nbytes := Option.some.inj hvalue
      rw [← hzero] at h4
      exact absurd h4 (by decide)
  · intro ⟨hlen, hheld⟩ dest s
    obtain ⟨r, hr, hrlen, hmem⟩ := (run_meets (mcMessageToBuffer_writes hlist (Nat.le_of_eq hlen)
      dest) s fun _ => trivial).returns id
    have hreturn : r = nbytes := UInt32.toNat_inj.mp (hrlen.trans hlen)
    subst hreturn
    refine ⟨hr, ?_⟩
    rw [hmem, ← hlen, slice_of_holds hheld]
    exact slice_of_holds (holds_blit dest 0 _)

/-! ## Section 2: The decoder around the options -/

theorem optionsAt_le {m : Mem} {nbytes : UInt32} (h : 4 + tokenLengthAt m ≤ nbytes.toNat) :
    (optionsAt m).toNat ≤ nbytes.toNat := by
  rw [optionsAt_toNat]
  exact h

section
variable {qsort : Qsort McOption} {nbytes : UInt32} {m : Mem}
  {Q : Option McMessage × UInt32 → Mem → Prop}

theorem mcMessageFromBuffer_can {S : Nat → Prop} (h4 : 4 ≤ nbytes.toNat) :
    can S (mcMessageFromBuffer qsort nbytes 0) Q m ↔
      (∀ i, i < 4 + tokenLengthAt m → S i) ∧
      can S (mcOptionsListFromBuffer qsort nbytes (optionsAt m))
        (fun r m1 => can S (payloadFromBuffer nbytes r.2)
          (fun r' m2 => Q (r'.1.map (messageAt m r.1), r'.2) m2) m1) m := by
  have hn4 : ¬ nbytes < 4 := UInt32.not_lt.mpr (UInt32.le_iff_toNat_le.mpr h4)
  have hheader : msSwapU32 (msWord32 (m 3) (m 2) (m 1) (m 0)) = headerAt m := rfl
  have htk : (mcHeaderGetTokenLength (headerAt m)).toUInt32.toNat = tokenLengthAt m :=
    tokenAt_length m
  have h04 : (0 + 4 : UInt32).toNat = 4 := rfl
  simp only [mcMessageFromBuffer, if_neg hn4, mcBufferNextUint32, mcBufferNextPtr_eq, msCopyUint8,
    can_bind, can_readByte, can_readBytes, can_pure, UInt32.toNat_zero, Nat.zero_add, hheader, htk,
    optionsAt_eq, h04]
  rw [head_reads]
  apply and_congr_right
  intro _
  constructor
  · intro hrest
    apply can_mono ?_ hrest
    intro r m1 h
    apply can_mono ?_ h
    rintro ⟨payload, p'⟩ m2 hQ
    cases payload with
    | none => exact hQ
    | some payload => exact hQ
  · intro hrest
    apply can_mono ?_ hrest
    intro r m1 h
    apply can_mono ?_ h
    rintro ⟨payload, p'⟩ m2 hQ
    cases payload with
    | none => exact hQ
    | some payload => exact hQ

end

/-! ## Section 3: The payload -/

section
variable {nbytes p : UInt32} {m : Mem}

/-- A payload is read, or there is none; only a byte that is no marker, with
    others after it, is refused. -/
theorem payloadFromBuffer_can (hp : p.toNat ≤ nbytes.toNat)
    (haccept : nbytes.toNat ≤ p.toNat + 1 ∨ m p.toNat = 0xff) :
    can (Inside nbytes) (payloadFromBuffer nbytes p)
      (fun r _ => ∃ payload, r.1 = some payload ∧
        (bytesOf payload).length < nbytes.toNat + 1) m := by
  have hrem := position_room hp
  unfold payloadFromBuffer
  by_cases hgt : nbytes - p > 1
  · have hgt' : 1 < (nbytes - p).toNat := UInt32.lt_iff_toNat_lt.mp hgt
    have hmark : m p.toNat = 0xff := by
      rcases haccept with h | h
      · omega
      · exact h
    have hmarker : p.toNat < nbytes.toNat := by omega
    obtain ⟨hp1, hpl, hfits⟩ := payload_room hmarker
    simp only [if_pos hgt, can_bind, can_readByte, hmark, ne_eq, not_true, if_false,
      mcBufferCopyFrom, hfits, if_true, can_readBytes, can_pure]
    refine ⟨hmarker, fun i _ hi => show i < nbytes.toNat by omega, _, rfl, ?_⟩
    rw [bytesOf_some, McBuffer.toList_length]
    show (nbytes - p - 1).toNat < nbytes.toNat + 1
    omega
  · simp only [if_neg hgt, can_pure]
    refine ⟨none, rfl, ?_⟩
    rw [bytesOf_none]
    exact Nat.succ_pos _

theorem payloadFromBuffer_refused (hp : p.toNat + 1 < nbytes.toNat) (hmark : m p.toNat ≠ 0xff) :
    wp Mode.total (payloadFromBuffer nbytes p) (fun r _ => r.1 = none) m := by
  have hgt : nbytes - p > 1 := by
    show 1 < nbytes - p
    rw [UInt32.lt_iff_toNat_lt, position_room (by omega)]
    show 1 < nbytes.toNat - p.toNat
    omega
  unfold payloadFromBuffer
  simp only [if_pos hgt, wp_bind, wp_readByte, ne_eq, hmark, not_false_eq_true, if_true, wp_pure,
    and_true]
  trivial

end

/-! ## Section 4: What a datagram is that is given back -/

theorem encodeOptions_length_le {os : List Wire.Opt} {len : Nat} (prev : Nat)
    (h : ∀ o ∈ os, o.value.length ≤ len) :
    (Wire.encodeOptions prev os).length ≤ os.length * (5 + len) := by
  induction os generalizing prev with
  | nil => exact Nat.zero_le _
  | cons o os ih =>
    have ho := h o List.mem_cons_self
    have hrest := ih o.num fun o' ho' => h o' (List.mem_cons_of_mem _ ho')
    have hdelta := Wire.extension_length_le (o.num - prev)
    have hlength := Wire.extension_length_le o.value.length
    rw [Wire.encodeOptions, List.length_append, Wire.encodeOption_length, List.length_cons,
      Nat.add_mul, Nat.one_mul]
    omega

/-- Options whose values lie in the buffer are encoded to fewer than 2^32 bytes. -/
theorem mcOptionsListInit_bounded (qsort : Qsort McOption) {nbytes : UInt32} {p : Nat}
    {l : List McOption} (hsmall : nbytes.toNat ≤ 65535) (hp : 4 ≤ p)
    (hcount : p + l.length ≤ nbytes.toNat) (hvalues : ValuesInside nbytes p l) :
    ListEncodable (some (mcOptionsListInit qsort l)) ∧
      (listBytes (some (mcOptionsListInit qsort l))).length ≤ 65531 * 65535 := by
  have hlength : (mcOptionsListInit qsort l).options.length = l.length :=
    (qsort.perm compareOptions l).length_eq
  constructor
  · apply mcOptionsListInit_encodable
    intro option ho
    have hvalue := hvalues option ho
    omega
  · have hlengths : ∀ o ∈ wireOptions (mcOptionsListInit qsort l).options,
        o.value.length ≤ 65530 := by
      intro o ho
      obtain ⟨option, hoption, rfl⟩ := List.mem_map.mp ho
      have hvalue := hvalues option ((qsort.perm compareOptions l).mem_iff.mp hoption)
      rw [McOption.wire_value, McBuffer.toList_length]
      omega
    have hbound := encodeOptions_length_le 0 hlengths
    rw [wireOptions_length, hlength] at hbound
    exact Nat.le_trans hbound (Nat.mul_le_mul (by omega) (Nat.le_refl _))

section
variable {qsort : Qsort McOption} {nbytes : UInt32} {m : Mem} {options : Option McOptionsList}

/-- Behind the token a datagram that is given back has the options of the
    message, and no single byte after them. -/
theorem Reproduced.encoded {payload : Option McBuffer}
    (h : Reproduced (messageAt m options payload) nbytes m) (h4 : 4 ≤ nbytes.toNat)
    (hsmall : nbytes.toNat ≤ 65535) (hlist : ListEncodable options)
    (hsize : (listBytes options).length ≤ 65531 * 65535)
    (hpayload : (bytesOf payload).length < nbytes.toNat + 1) :
    Encoded m nbytes 0 (4 + tokenLengthAt m) (wireOptions (listOptions options)) ∧
      4 + tokenLengthAt m + (listBytes options).length + 1 ≠ nbytes.toNat := by
  have hlen := messageBytes_length (messageAt m options payload)
  have htoken : (messageAt m options payload).token.nbytes.toNat = tokenLengthAt m :=
    tokenAt_length m
  have htokenLen := (tokenAt m).toList_length
  rw [tokenAt_length] at htokenLen
  have hlt : tokenLengthAt m < 256 := (m 0 &&& 0x0f).toNat_lt
  have hpl : (payloadBytes payload).length = 0 ∨ 2 ≤ (payloadBytes payload).length ∧
      (payloadBytes payload).length = (bytesOf payload).length + 1 := by
    rw [payloadBytes]
    split
    · left
      rfl
    · next hne =>
      right
      have hpos := List.length_pos_of_ne_nil hne
      rw [List.length_cons]
      omega
  rw [htoken] at hlen
  change _ = 4 + (tokenLengthAt m + ((listBytes options).length + (payloadBytes payload).length))
    at hlen
  rw [reproduced_iff hlist (by omega) h4] at h
  obtain ⟨htotal, hheld⟩ := h
  rw [messageBytes, holds_append, holds_append, holds_append, image32_length] at hheld
  obtain ⟨_, _, hoptions, hpayload⟩ := hheld
  change Holds m (0 + 4 + (tokenAt m).toList.length) (listBytes options) at hoptions
  change Holds m (0 + 4 + (tokenAt m).toList.length + (listBytes options).length)
    (payloadBytes payload) at hpayload
  rw [htokenLen, Nat.zero_add] at hoptions hpayload
  refine ⟨⟨hoptions, hlist.sorted, wireOptions_num, ?_, ?_⟩, by omega⟩
  · intro o ho
    obtain ⟨option, hoption, rfl⟩ := List.mem_map.mp ho
    have hfit := hlist.fit option hoption
    rw [McOption.wire_value, McBuffer.toList_length]
    omega
  · exact atStop_payload hpayload (by
      show 4 + tokenLengthAt m + (listBytes options).length + _ = _
      omega)

/-- What the options of a run say about the datagram. -/
theorem EncodingUndoes.encoded (h : EncodingUndoes qsort nbytes m) (hsmall : nbytes.toNat ≤ 65535)
    (htoken : 4 + tokenLengthAt m ≤ nbytes.toNat) (hlist : ListEncodable options)
    (hsize : (listBytes options).length ≤ 65531 * 65535)
    (hcan : can (Inside nbytes) (mcOptionsListFromBuffer qsort nbytes (optionsAt m))
      (fun r m1 => r.1 = options ∧ r.2.toNat ≤ nbytes.toNat ∧
        (nbytes.toNat ≤ r.2.toNat + 1 ∨ m1 r.2.toNat = 0xff)) m) :
    Encoded m nbytes 0 (4 + tokenLengthAt m) (wireOptions (listOptions options)) ∧
      4 + tokenLengthAt m + (listBytes options).length + 1 ≠ nbytes.toNat := by
  have h4 : 4 ≤ nbytes.toNat := by omega
  by_contra hnot
  rw [encodingUndoes_iff_can] at h
  apply h
  rw [mcMessageFromBuffer_can h4]
  refine ⟨fun i hi => show i < nbytes.toNat by omega, ?_⟩
  apply can_mono ?_ hcan
  rintro ⟨list, p⟩ m1 ⟨rfl, hp, haccept⟩
  apply can_mono ?_ (payloadFromBuffer_can hp haccept)
  rintro ⟨_, p'⟩ m2 ⟨payload, rfl, hpayload⟩
  exact ⟨_, rfl, fun hr => hnot (hr.encoded h4 hsmall hlist hsize hpayload)⟩

/-- The same for a run that counts no options. -/
theorem EncodingUndoes.encoded_none (h : EncodingUndoes qsort nbytes m)
    (hsmall : nbytes.toNat ≤ 65535) (htoken : 4 + tokenLengthAt m ≤ nbytes.toNat)
    (hcan : can (Inside nbytes) (countOptions nbytes (optionsAt m))
      (fun count m1 => count = 0 ∧ (nbytes.toNat ≤ 4 + tokenLengthAt m + 1 ∨
        m1 (4 + tokenLengthAt m) = 0xff)) m) :
    Encoded m nbytes 0 (4 + tokenLengthAt m) [] ∧ 4 + tokenLengthAt m + 1 ≠ nbytes.toNat := by
  apply h.encoded hsmall htoken listEncodable_none (Nat.zero_le _)
  apply mcOptionsListFromBuffer_can_none
  apply can_mono ?_ hcan
  intro count m1 ⟨hcount, haccept⟩
  rw [optionsAt_toNat]
  exact ⟨hcount, rfl, htoken, haccept⟩

end

/-! ## Section 5: The condition -/

/-- The datagram is too short for its token; or its options run over the end,
    and more than one byte is left or that byte's own extension is missing;
    or the walk stops, no single byte is left, and its headers are right and
    have no two extension bytes. -/
def Reencodable (m : Mem) (nbytes : UInt32) : Prop :=
  nbytes.toNat < 4 + tokenLengthAt m ∨
    ∃ k q, Reaches m nbytes.toNat k (4 + tokenLengthAt m) q ∧
      ((FallsOff m nbytes.toNat q ∧
        (4 + tokenLengthAt m + 1 < nbytes.toNat ∨ m (4 + tokenLengthAt m) &&& 0x0f = 13)) ∨
      (AtStop m nbytes q ∧ q + 1 ≠ nbytes.toNat ∧ RightHeaders m k 0 (4 + tokenLengthAt m) ∧
        ShortDeltas m k (4 + tokenLengthAt m)))

/-- Some 16-bit number is not among those of fewer than 2^16 options. -/
theorem exists_unused_number {os : List Wire.Opt} (h : os.length < 65536) :
    ∃ number : UInt16, ∀ o ∈ os, o.num ≠ number.toNat := by
  by_contra hall
  have hsub : List.range 65536 ⊆ os.map Wire.Opt.num := by
    intro n hn
    have hlt := List.mem_range.mp hn
    by_contra hnot
    apply hall
    refine ⟨UInt16.ofNat n, fun o ho hnum => hnot ?_⟩
    rw [ofNat16_toNat hlt] at hnum
    rw [← hnum]
    exact List.mem_map_of_mem ho
  have hle := (List.subperm_of_subset List.nodup_range hsub).length_le
  rw [List.length_range, List.length_map] at hle
  omega

section
variable {qsort : Qsort McOption} {nbytes : UInt32} {m : Mem} {k q : Nat}

/-- Where the walk stops, the payload is read or there is none. -/
theorem AtStop.accepts {m' : Mem} {p' : UInt32} (h : AtStop m nbytes q) (hp' : p'.toNat = q)
    (hm' : ∀ i, q ≤ i → m' i = m i) :
    p'.toNat ≤ nbytes.toNat ∧ (nbytes.toNat ≤ p'.toNat + 1 ∨ m' p'.toNat = 0xff) := by
  rw [hp']
  rcases h with hend | ⟨hlt, hmark⟩
  · exact ⟨Nat.le_of_eq hend, Or.inl (by omega)⟩
  · rw [hm' q (Nat.le_refl q)]
    exact ⟨Nat.le_of_lt hlt, Or.inr hmark⟩

/-- When the walk stops after some options, a run gives an array of them, and
    the sorted array is in the datagram. -/
theorem encoded_of_stop (hsmall : nbytes.toNat ≤ 65535)
    (htoken : 4 + tokenLengthAt m ≤ nbytes.toNat) (hk0 : k ≠ 0)
    (hreach : Reaches m nbytes.toNat k (4 + tokenLengthAt m) q) (hstop : AtStop m nbytes q) :
    ∃ l, ∀ qsort, EncodingUndoes qsort nbytes m →
      Encoded m nbytes 0 (4 + tokenLengthAt m) (wireOptions (mcOptionsListInit qsort l).options) ∧
        4 + tokenLengthAt m + (listBytes (some (mcOptionsListInit qsort l))).length + 1 ≠
          nbytes.toNat := by
  have hwrap := noWrap_of_small hsmall
  have hle := hreach.le
  have hin := hreach.inside htoken
  rw [← optionsAt_toNat] at hreach
  have hp := optionsAt_le htoken
  obtain ⟨l, hcount, hvalues, hcan⟩ :=
    mcOptionsListFromBuffer_can_stop (by omega) hp hwrap hk0 hreach hstop
  rw [optionsAt_toNat] at hvalues
  refine ⟨l, fun qsort h => ?_⟩
  obtain ⟨hlist, hsize⟩ :=
    mcOptionsListInit_bounded qsort hsmall (Nat.le_add_right ..) (by omega) hvalues
  apply h.encoded hsmall htoken hlist hsize
  apply hcan
  exact fun p' m' hp' hm' => ⟨rfl, hstop.accepts hp' hm'⟩

/-- The options behind the token, when the walk stops. -/
theorem EncodingUndoes.options_of_stop (h : EncodingUndoes qsort nbytes m)
    (hsmall : nbytes.toNat ≤ 65535) (htoken : 4 + tokenLengthAt m ≤ nbytes.toNat)
    (hreach : Reaches m nbytes.toNat k (4 + tokenLengthAt m) q) (hstop : AtStop m nbytes q) :
    ∃ os, Encoded m nbytes 0 (4 + tokenLengthAt m) os ∧
      4 + tokenLengthAt m + (Wire.encodeOptions 0 os).length + 1 ≠ nbytes.toNat := by
  by_cases hk0 : k = 0
  · have hat := optionsAt_toNat m
    subst hk0
    cases hreach
    obtain ⟨_, haccept⟩ := hstop.accepts hat fun _ _ => rfl
    refine ⟨_, h.encoded_none hsmall htoken ?_⟩
    rw [← hat] at hstop ⊢
    exact countOptions_can_stop (by omega) (noWrap_of_small hsmall) (by omega) (Reaches.here _)
      hstop ⟨rfl, haccept⟩
  · obtain ⟨l, hencoded⟩ := encoded_of_stop hsmall htoken hk0 hreach hstop
    exact ⟨_, hencoded qsort h⟩

/-- No delta on the way has two extension bytes. -/
theorem EncodingUndoes.shortDeltas (h : EncodingUndoes qsort nbytes m)
    (hsmall : nbytes.toNat ≤ 65535) (htoken : 4 + tokenLengthAt m ≤ nbytes.toNat)
    (hreach : Reaches m nbytes.toNat k (4 + tokenLengthAt m) q) (hstop : AtStop m nbytes q) :
    ShortDeltas m k (4 + tokenLengthAt m) := by
  have hwrap := noWrap_of_small hsmall
  obtain ⟨os, hencoded, _⟩ := h.options_of_stop hsmall htoken hreach hstop
  have hcount := Wire.length_le_encodeOptions 0 os
  have hend := hencoded.stop.le
  have hle := hreach.le
  have hin := hreach.inside htoken
  by_contra hlong
  -- the delta can come out so that the option gets a number that no option has
  obtain ⟨number, hunused⟩ := exists_unused_number (show os.length < 65536 by omega)
  rw [← optionsAt_toNat] at hreach hlong
  have hp := optionsAt_le htoken
  obtain ⟨l, hlen, hvalues, ⟨option, hoption, hnumber⟩, hcan⟩ :=
    mcOptionsListFromBuffer_can_number qsort (by omega) hp hwrap hreach hstop hlong number
  rw [optionsAt_toNat] at hvalues
  obtain ⟨hlist, hsize⟩ :=
    mcOptionsListInit_bounded qsort hsmall (Nat.le_add_right ..) (by omega) hvalues
  have hencoded' := (h.encoded hsmall htoken hlist hsize
    (hcan _ fun p' m' hp' hm' => ⟨rfl, hstop.accepts hp' hm'⟩)).1
  have hsame := hencoded'.unique hencoded
  have hmem : option.wire ∈ os := by
    rw [← hsame]
    exact List.mem_map_of_mem ((qsort.perm compareOptions l).mem_iff.mpr hoption)
  apply hunused option.wire hmem
  rw [McOption.wire_num, hnumber]

/-- The last option of an array is known from the sorted array and the others. -/
theorem last_of_sorted {l : List McOption} {option option' : McOption}
    (h : wireOptions (mcOptionsListInit qsort (l ++ [option])).options =
      wireOptions (mcOptionsListInit qsort (l ++ [option'])).options) :
    option.wire = option'.wire := by
  have hsorted := (qsort.perm compareOptions (l ++ [option])).map McOption.wire
  have hsorted' := (qsort.perm compareOptions (l ++ [option'])).map McOption.wire
  have hperm := (hsorted.symm.trans (List.Perm.of_eq h)).trans hsorted'
  rw [List.map_append, List.map_append, List.perm_append_left_iff] at hperm
  exact List.mem_singleton.mp (hperm.mem_iff.mp List.mem_cons_self)

/-- At a long length two runs give the last option two lengths. -/
theorem EncodingUndoes.not_longLength (h : EncodingUndoes qsort nbytes m)
    (hsmall : nbytes.toNat ≤ 65535) (htoken : 4 + tokenLengthAt m ≤ nbytes.toNat)
    (hreach : Reaches m nbytes.toNat k (4 + tokenLengthAt m) q) :
    ¬ LongLength m nbytes.toNat q := by
  intro hlong
  have hle := hreach.le
  have hgt := lengthAt_gt m q
  have hroom := hlong.2.2.2
  have hreach' := hreach
  rw [← optionsAt_toNat] at hreach'
  have hp := optionsAt_le htoken
  obtain ⟨_, l, hlen, hvalues, hgive⟩ :=
    mcOptionsListFromBuffer_can_long qsort (by omega) hp hsmall hreach' hlong
  rw [optionsAt_toNat] at hvalues
  -- each length that leaves at most one byte behind is accepted
  have haccepted : ∀ value : UInt16, lengthAt m q + 2 + value.toNat ≤ nbytes.toNat →
      nbytes.toNat ≤ lengthAt m q + 2 + value.toNat + 1 →
      ∃ option : McOption, option.value.nbytes.toNat = value.toNat ∧
        Encoded m nbytes 0 (4 + tokenLengthAt m)
          (wireOptions (mcOptionsListInit qsort (l ++ [option])).options) := by
    intro value hvalue hlast
    obtain ⟨option, hoption, hcan⟩ := hgive value hvalue
    have hvalues' : ValuesInside nbytes (4 + tokenLengthAt m) (l ++ [option]) := by
      intro o ho
      rcases List.mem_append.mp ho with ho | ho
      · exact hvalues o ho
      · rw [List.mem_singleton.mp ho, hoption]
        omega
    obtain ⟨hlist, hsize⟩ := mcOptionsListInit_bounded qsort hsmall (Nat.le_add_right ..)
      (by rw [List.length_append, List.length_singleton]; omega) hvalues'
    refine ⟨option, hoption, (h.encoded hsmall htoken hlist hsize (hcan _ ?_)).1⟩
    intro p' m' hp'
    refine ⟨rfl, ?_, Or.inl ?_⟩
    · rw [hp']
      exact hvalue
    · rw [hp']
      exact hlast
  have hfull : (UInt16.ofNat (nbytes.toNat - (lengthAt m q + 2))).toNat =
      nbytes.toNat - (lengthAt m q + 2) := ofNat16_toNat (by omega)
  have hless : (UInt16.ofNat (nbytes.toNat - (lengthAt m q + 2) - 1)).toNat =
      nbytes.toNat - (lengthAt m q + 2) - 1 := ofNat16_toNat (by omega)
  obtain ⟨option, hoption, hencoded⟩ := haccepted _ (by rw [hfull]; omega) (by rw [hfull]; omega)
  -- the length in the datagram is at least 269, so there is room for less
  obtain ⟨_, _, _, hrest, _⟩ := hencoded.walk hreach
  have hlonger := hrest.long_room hlong
  obtain ⟨option', hoption', hencoded'⟩ :=
    haccepted _ (by rw [hless]; omega) (by rw [hless]; omega)
  have hsame := hencoded.unique hencoded'
  have hwire := last_of_sorted hsame
  have hlength := congrArg (fun o => o.value.length) hwire
  simp only [McOption.wire_value, McBuffer.toList_length] at hlength
  omega

/-- A datagram that is given back meets the condition. -/
theorem EncodingUndoes.reencodable (h : EncodingUndoes qsort nbytes m)
    (hsmall : nbytes.toNat ≤ 65535) : Reencodable m nbytes := by
  by_cases htoken : 4 + tokenLengthAt m ≤ nbytes.toNat
  · right
    rcases walk_ends htoken with ⟨k, q, hreach, hstop | hfall | hlong⟩
    · refine ⟨k, q, hreach, Or.inr ⟨hstop, ?_, ?_, h.shortDeltas hsmall htoken hreach hstop⟩⟩
      all_goals
        obtain ⟨os, hencoded, hlast⟩ := h.options_of_stop hsmall htoken hreach hstop
        obtain ⟨hright, prev', os', hrest, hend⟩ := hencoded.walk hreach
      · -- behind the walk there are no more options
        cases os' with
        | nil =>
          rw [hend] at hlast
          exact hlast
        | cons o os' =>
          obtain ⟨hlt, hmark⟩ := hrest.header
          exact absurd (hstop.not_header hlt) hmark
      · exact hright
    · refine ⟨k, q, hreach, Or.inl ⟨hfall, ?_⟩⟩
      by_contra hnot
      rw [not_or] at hnot
      obtain ⟨hone, hlow⟩ := hnot
      have hle := hreach.le
      have hlt := hfall.1
      obtain rfl : k = 0 := by omega
      cases hreach
      have hat := optionsAt_toNat m
      rw [← hat] at hfall hlow
      obtain ⟨hencoded, _⟩ := h.encoded_none hsmall htoken (by
        apply countOptions_can_fallsOff (by omega) (noWrap_of_small hsmall) (by omega)
          (Reaches.here _) hfall hlow
        exact fun m' => ⟨rfl, Or.inl (by omega)⟩)
      rw [hat] at hfall
      exact hfall.2.1 (hencoded.stop.not_header hlt)
    · exact absurd hlong (h.not_longLength hsmall htoken hreach)
  · left
    omega

end

/-! ## Section 6: Datagrams that are given back -/

/-- Options in number order, equal when they have the same number, have only
    one order, which every sort gives. -/
theorem sortKeeps_of_same (qsort : Qsort McOption) {os : List Wire.Opt}
    (hasc : Wire.Ascending 0 os) (hsame : ∀ x ∈ os, ∀ y ∈ os, x.num = y.num → x = y) :
    SortKeeps qsort os := by
  intro options hoptions
  have hperm : (wireOptions (mcOptionsListInit qsort options).options).Perm os := by
    rw [← hoptions]
    exact (qsort.perm compareOptions options).map McOption.wire
  have hsorted := wireOptions_ordered (qsort.sorted compareOptions options compareOptions_isOrder)
  apply List.Perm.eq_of_pairwise ?_ hsorted hasc.pairwise.2 hperm
  intro x y hx hy hle hge
  exact hsame x (hperm.mem_iff.mp hx) y hy (Nat.le_antisymm hle hge)

/-- Options of the wire can be held in memory. -/
theorem exists_options {os : List Wire.Opt} (hnums : ∀ o ∈ os, o.num ≤ 65535)
    (hlengths : ∀ o ∈ os, o.value.length ≤ 65804) :
    ∃ options : List McOption, wireOptions options = os := by
  induction os with
  | nil => exact ⟨[], rfl⟩
  | cons o os ih =>
    obtain ⟨options, hoptions⟩ := ih (fun o' ho' => hnums o' (List.mem_cons_of_mem _ ho'))
      (fun o' ho' => hlengths o' (List.mem_cons_of_mem _ ho'))
    have hnum := hnums o List.mem_cons_self
    have hlen := hlengths o List.mem_cons_self
    have hwire : (McOption.mk (UInt16.ofNat o.num) (McBuffer.ofList o.value)).wire = o := by
      rw [McOption.wire, ofNat16_toNat (by omega), McBuffer.ofList_toList (by omega)]
    refine ⟨⟨UInt16.ofNat o.num, McBuffer.ofList o.value⟩ :: options, ?_⟩
    rw [wireOptions, List.map_cons, hwire]
    exact congrArg (o :: ·) hoptions

section
variable {qsort : Qsort McOption} {nbytes : UInt32} {m : Mem} {k q : Nat}

/-- What is left where options stop is a payload, or nothing. -/
theorem exists_payload (hstop : AtStop m nbytes q) (hlast : q + 1 ≠ nbytes.toNat) :
    ∃ payload, Holds m q (payloadBytes payload) ∧
      q + (payloadBytes payload).length = nbytes.toNat := by
  have hn := nbytes.toNat_lt
  rcases hstop with hend | ⟨hlt, hmark⟩
  · exact ⟨none, trivial, hend⟩
  · refine ⟨some (McBuffer.ofList (slice m (q + 1) (nbytes.toNat - q - 1))), ?_⟩
    have hlen := slice_length m (q + 1) (nbytes.toNat - q - 1)
    have hbytes : (McBuffer.ofList (slice m (q + 1) (nbytes.toNat - q - 1))).toList =
        slice m (q + 1) (nbytes.toNat - q - 1) := McBuffer.ofList_toList (by omega)
    have hne : ¬ slice m (q + 1) (nbytes.toNat - q - 1) = [] := by
      rw [← List.length_eq_zero_iff, hlen]
      omega
    rw [payloadBytes, bytesOf_some, hbytes, if_neg hne]
    constructor
    · exact ⟨hmark, holds_slice m _ _⟩
    · rw [List.length_cons, hlen]
      omega

/-- A datagram that is the encoding of small options is one of a message. -/
theorem exists_message {os : List Wire.Opt}
    (hencoded : Encoded m nbytes 0 (4 + tokenLengthAt m) os) (hsmall : Wire.Small 0 os)
    (hlast : 4 + tokenLengthAt m + (Wire.encodeOptions 0 os).length + 1 ≠ nbytes.toNat) :
    ∃ options payload, wireOptions (listOptions options) = os ∧ ListEncodable options ∧
      Holds m 0 (messageBytes (messageAt m options payload)) ∧
      (messageBytes (messageAt m options payload)).length = nbytes.toNat := by
  obtain ⟨options, rfl⟩ := exists_options hencoded.nums hencoded.lengths
  obtain ⟨payload, hpayload, hend⟩ := exists_payload hencoded.stop hlast
  have hword : image32 (msSwapU32 (headerAt m)) = [m 0, m 1, m 2, m 3] := by
    rw [headerAt, msSwapU32_swap, msWord32_bytes]
  have htokenLen : (messageAt m (some ⟨options⟩) payload).token.nbytes.toNat = tokenLengthAt m :=
    tokenAt_length m
  refine ⟨some ⟨options⟩, payload, rfl, ⟨hencoded.ascending, valuesFit_of_small hsmall⟩, ?_, ?_⟩
  · rw [messageBytes, holds_append, holds_append, holds_append, image32_length]
    show Holds m 0 (image32 (msSwapU32 (headerAt m))) ∧ Holds m (0 + 4) (tokenAt m).toList ∧ _
    have hlength : (messageAt m (some ⟨options⟩) payload).token.toList.length =
        tokenLengthAt m := by
      rw [McBuffer.toList_length, htokenLen]
    rw [hword, tokenAt_toList, hlength, Nat.zero_add]
    exact ⟨⟨rfl, rfl, rfl, rfl, trivial⟩, holds_slice m _ _, hencoded.held, hpayload⟩
  · rw [messageBytes_length, htokenLen, ← hend, Nat.add_assoc, Nat.add_assoc]
    rfl

/-- Two messages that are the same have the same bytes. -/
theorem McMessage.Same.bytes {a b : McMessage} (h : a.Same b) :
    messageBytes a = messageBytes b := by
  rw [messageBytes, messageBytes, h.header, h.token, listBytes, listBytes, h.options, payloadBytes,
    payloadBytes, h.payload]

/-- A walk that stops as the condition says: every run gives the datagram back. -/
theorem reproduced_of_stop (hkeep : ∀ os, Encoded m nbytes 0 (4 + tokenLengthAt m) os →
      SortKeeps qsort os) (h4 : 4 ≤ nbytes.toNat)
    (hreach : Reaches m nbytes.toNat k (4 + tokenLengthAt m) q) (hstop : AtStop m nbytes q)
    (hlast : q + 1 ≠ nbytes.toNat) (hright : RightHeaders m k 0 (4 + tokenLengthAt m))
    (hshort : ShortDeltas m k (4 + tokenLengthAt m)) :
    wp (readerMode nbytes) (mcMessageFromBuffer qsort nbytes 0)
      (fun r _ => ∀ message, r.1 = some message → Reproduced message nbytes m) m := by
  have hn := nbytes.toNat_lt
  obtain ⟨os, _, hencoded, hend, hsmall⟩ := encoded_of_rightHeaders hreach hstop hright
  obtain ⟨options, payload, rfl, hlist, hheld, hlen⟩ :=
    exists_message hencoded (hsmall hshort) (by rw [hend]; exact hlast)
  have htoken : (mcHeaderGetTokenLength (messageAt m options payload).header).toNat =
      (messageAt m options payload).token.nbytes.toNat := (UInt8.toNat_toUInt32 _).symm
  apply wp_mono ?_ (mcMessageFromBuffer_kept (hkeep _ hencoded) htoken hlist (hsmall hshort)
    hheld hlen)
  intro r m' ⟨_, _, message', hr, hsame, _⟩ message hmessage
  rw [hr] at hmessage
  cases hmessage
  have hwire : wireOptions (listOptions message'.options) = wireOptions (listOptions options) :=
    hsame.options
  have hsmall' := hsmall hshort
  rw [← hwire] at hsmall'
  have hlist' : ListEncodable message'.options := by
    constructor
    · rw [hwire]
      exact hlist.sorted
    · exact valuesFit_of_small hsmall'
  rw [reproduced_iff hlist' (by rw [hsame.bytes, hlen]; omega) h4, hsame.bytes]
  exact ⟨hlen, hheld⟩

/-- A datagram whose options run over the end is rejected, or read outside. -/
theorem not_can_of_fallsOff {Q : McMessage → Prop} (h4 : 4 ≤ nbytes.toNat)
    (hsmall : nbytes.toNat ≤ 65535)
    (hreach : Reaches m nbytes.toNat k (4 + tokenLengthAt m) q) (hfall : FallsOff m nbytes.toNat q)
    (hends : 4 + tokenLengthAt m + 1 < nbytes.toNat ∨ m (4 + tokenLengthAt m) &&& 0x0f = 13) :
    ¬ can (Inside nbytes) (mcMessageFromBuffer qsort nbytes 0)
      (fun r _ => ∃ message, r.1 = some message ∧ Q message) m := by
  intro hcan
  have hwrap := noWrap_of_small hsmall
  have hle := hreach.le
  have hlt := hfall.1
  have hat := optionsAt_toNat m
  have hp : (optionsAt m).toNat ≤ nbytes.toNat := by omega
  -- the first header is no marker
  have hmark : m (optionsAt m).toNat ≠ 0xff := by
    rw [hat]
    cases hreach with
    | here => exact hfall.2.1
    | option _ hmark => exact hmark
  rw [← hat] at hreach hends
  by_cases hmore : (optionsAt m).toNat + 1 < nbytes.toNat
  · have hrejected : wp Mode.total (mcMessageFromBuffer qsort nbytes 0)
        (fun r _ => r.1 = none) m := by
      rw [mcMessageFromBuffer_reads h4]
      refine ⟨fun _ _ => trivial, ?_⟩
      apply wp_mono ?_ (mcOptionsListFromBuffer_fallsOff qsort h4 hp hwrap hreach hfall)
      rintro r m1 ⟨rfl, hm1⟩
      have hkept : m1 (optionsAt m).toNat ≠ 0xff := by
        rw [hm1 _ (by omega)]
        exact hmark
      apply wp_mono ?_ (payloadFromBuffer_refused hmore hkept)
      rintro r' _ hr'
      rw [hr']
      rfl
    obtain ⟨r, _, ⟨message, hmessage, _⟩, hnone⟩ := can_wp (fun _ => trivial) hcan hrejected
    rw [hnone] at hmessage
    cases hmessage
  · -- the one byte that is left has an extension behind the end
    have hlow := hends.resolve_left hmore
    have hlength := lengthAt_gt m (optionsAt m).toNat
    have hoptions := ((mcMessageFromBuffer_can h4).mp hcan).2
    rw [mcOptionsListFromBuffer, can_bind] at hoptions
    exact countOptions_not_can h4 hwrap (by omega) hmark hlow (by omega) hoptions

/-- A datagram that meets the condition is given back, if sorting leaves its
    options in their order. -/
theorem encodingUndoes_of_reencodable (hsmall : nbytes.toNat ≤ 65535)
    (hkeep : ∀ os, Encoded m nbytes 0 (4 + tokenLengthAt m) os → SortKeeps qsort os)
    (h : Reencodable m nbytes) : EncodingUndoes qsort nbytes m := by
  rw [encodingUndoes_iff_can]
  intro hcan
  by_cases h4 : 4 ≤ nbytes.toNat
  · rcases h with hshort | ⟨k, q, hreach, ⟨hfall, hends⟩ | ⟨hstop, hlast, hright, hdeltas⟩⟩
    -- the token is read, and a byte of it is outside
    · have hread := ((mcMessageFromBuffer_can h4).mp hcan).1 nbytes.toNat hshort
      exact absurd hread (Nat.lt_irrefl _)
    · exact not_can_of_fallsOff h4 hsmall hreach hfall hends hcan
    · obtain ⟨r, _, ⟨message, hmessage, hnot⟩, hreproduced⟩ := can_wp (fun _ => trivial) hcan
        (reproduced_of_stop hkeep h4 hreach hstop hlast hright hdeltas)
      exact hnot (hreproduced message hmessage)
  · have hn4 : nbytes < 4 := UInt32.lt_iff_toNat_lt.mpr (Nat.lt_of_not_le h4)
    rw [mcMessageFromBuffer, if_pos hn4] at hcan
    obtain ⟨message, hmessage, _⟩ := hcan
    cases hmessage

end

/-! ## Section 7: When encoding undoes decoding -/

/-- Two options of a datagram with the same number are the same. -/
def RepeatedSame (m : Mem) (nbytes : UInt32) : Prop :=
  ∀ os, Encoded m nbytes 0 (4 + tokenLengthAt m) os → ∀ x ∈ os, ∀ y ∈ os, x.num = y.num → x = y

/-- When every sort gives the datagram back, repeated options do not differ. -/
theorem repeatedSame_of_all {nbytes : UInt32} {m : Mem} (hsmall : nbytes.toNat ≤ 65535)
    (h : ∀ qsort, EncodingUndoes qsort nbytes m) : RepeatedSame m nbytes := by
  intro os hencoded x hx y hy hnum
  have htoken : 4 + tokenLengthAt m ≤ nbytes.toNat := by
    have hle := hencoded.stop.le
    omega
  obtain ⟨k, q, hreach, hends⟩ := walk_ends htoken
  obtain ⟨_, _, _, hrest, _⟩ := hencoded.walk hreach
  have hstop : AtStop m nbytes q := by
    rcases hends with hstop | hfall | hlong
    · exact hstop
    · exact absurd hfall hrest.not_fallsOff
    · exact absurd hlong ((h (insertion McOption)).not_longLength hsmall htoken hreach)
  by_cases hk0 : k = 0
  · subst hk0
    cases hreach
    cases os with
    | nil => exact absurd hx List.not_mem_nil
    | cons o os =>
      obtain ⟨hlt, hmark⟩ := hencoded.header
      exact absurd (hstop.not_header hlt) hmark
  · obtain ⟨l, hl⟩ := encoded_of_stop hsmall htoken hk0 hreach hstop
    -- all sorted arrays are the options of the datagram
    have hsorted : ∀ qsort, wireOptions (mcOptionsListInit qsort l).options = os :=
      fun qsort => (hl qsort (h qsort)).1.unique hencoded
    have hkeeps : ∀ qsort, KeepsOrder l (mcOptionsListInit qsort l).options := by
      intro qsort
      have hstable := keepsOrder_of_stable (insertion_stable McOption) l
      exact hstable.congr ((hsorted qsort).trans (hsorted _).symm)
    have huniform := (init_keeps_iff l).mp hkeeps
    have hmem : ∀ o ∈ os, ∃ option ∈ l, option.wire = o := by
      intro o ho
      rw [← hsorted (insertion McOption)] at ho
      obtain ⟨option, hoption, hwire⟩ := List.mem_map.mp ho
      exact ⟨option, ((insertion McOption).perm compareOptions l).mem_iff.mp hoption, hwire⟩
    obtain ⟨a, ha, rfl⟩ := hmem x hx
    obtain ⟨b, hb, rfl⟩ := hmem y hy
    have hsame : a.optionNum = b.optionNum := UInt16.toNat_inj.mp hnum
    exact (wire_eq_iff hsame).mpr (huniform a ha b hb hsame)

/-- When a datagram is given back: by every conforming `qsort`, and by one
    that is stable. -/
theorem encoding_undoes_iff (nbytes : UInt32) (m : Mem) (hsmall : nbytes.toNat ≤ 65535) :
    ((∀ qsort, EncodingUndoes qsort nbytes m) ↔ Reencodable m nbytes ∧ RepeatedSame m nbytes) ∧
      ∀ qsort, qsort.Stable → (EncodingUndoes qsort nbytes m ↔ Reencodable m nbytes) := by
  constructor
  · constructor
    · intro h
      exact ⟨(h (insertion McOption)).reencodable hsmall, repeatedSame_of_all hsmall h⟩
    · intro ⟨hreencodable, hsame⟩ qsort
      apply encodingUndoes_of_reencodable hsmall ?_ hreencodable
      intro os hencoded
      exact sortKeeps_of_same qsort hencoded.ascending (hsame os hencoded)
  · intro qsort hq
    constructor
    · intro h
      exact h.reencodable hsmall
    · apply encodingUndoes_of_reencodable hsmall
      intro os hencoded
      exact sortKeeps_of_stable hq hencoded.ascending

/-- One byte after the header, which is no marker: it is accepted, and does
    not come back. -/
theorem last_byte_dropped :
    ¬ EncodingUndoes (insertion McOption) 5 (ofList [0x40, 1, 0, 7, 0x01]) := by
  intro h
  have hat : tokenLengthAt (ofList [0x40, 1, 0, 7, 0x01]) = 0 := by decide
  rcases h.reencodable (by decide) with hshort | ⟨k, q, hreach, hends⟩
  · rw [hat] at hshort
    exact absurd hshort (by decide)
  · rw [hat] at hreach hends
    -- the option that the byte announces runs over the end
    cases hreach with
    | here =>
      rcases hends with ⟨_, hmore | hlow⟩ | ⟨hstop, _⟩
      · exact absurd hmore (by decide)
      · exact absurd hlow (by decide)
      · exact absurd (hstop.not_header (by decide)) (by decide)
    | option _ _ _ hend => exact absurd hend (by decide)

/-- The witness: a datagram with one option of one byte. -/
theorem encoding_undoes_path :
    EncodingUndoes (insertion McOption) 6 (ofList [0x40, 1, 0, 7, 0xb1, 0x61]) := by
  apply ((encoding_undoes_iff 6 (ofList [0x40, 1, 0, 7, 0xb1, 0x61]) (by decide)).2 _
    (insertion_stable McOption)).mpr
  have hat : 4 + tokenLengthAt (ofList [0x40, 1, 0, 7, 0xb1, 0x61]) = 4 := by decide
  have hend : optionEnd (ofList [0x40, 1, 0, 7, 0xb1, 0x61]) 4 = 6 := by decide
  rw [Reencodable, hat]
  refine Or.inr ⟨1, 6, Reaches.option (by decide) (by decide) (by decide) (by decide) ?_,
    Or.inr ⟨Or.inl rfl, by decide, ⟨⟨by decide, by decide, by decide⟩, trivial⟩, by decide,
      trivial⟩⟩
  rw [hend]
  exact Reaches.here 6

end Mcoap
