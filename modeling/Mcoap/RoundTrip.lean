import Mcoap.Decoder

/-! # Message round trip

    Decoding what was encoded.

    * `mcMessageFromBuffer_encoded`: the decoder on the bytes of a message
      whose options use the first two forms;
    * `message_roundtrip`: the encoder's output goes back to the message. -/

namespace Mcoap

open ByteMem ByteProg StableSort

/-! ## Section 1: The decoder on a message -/

/-- The decoder reads below `nbytes`, writes nothing and always returns. -/
def readerMode (nbytes : UInt32) : Mode UInt16 :=
  ⟨fun _ => True, fun i => i < nbytes.toNat, fun _ => False, False⟩

theorem readerMode_reads (nbytes : UInt32) : ReadsBelow (readerMode nbytes) nbytes :=
  fun _ hi => hi

/-- The same header, token bytes, options and payload bytes; null and empty
    are not told apart. -/
structure McMessage.Same (a b : McMessage) : Prop where
  header  : a.header = b.header
  token   : a.token.toList = b.token.toList
  options : wireOptions (listOptions a.options) = wireOptions (listOptions b.options)
  payload : bytesOf a.payload = bytesOf b.payload

theorem wireOptions_num {options : List McOption} : ∀ o ∈ wireOptions options, o.num ≤ 65535 := by
  intro o ho
  obtain ⟨option, _, rfl⟩ := List.mem_map.mp ho
  have := option.optionNum.toNat_lt
  rw [McOption.wire_num]
  omega

/-- The rest of the buffer after the options: a marker and a payload, or nothing. -/
theorem payloadFromBuffer_encoded {nbytes p : UInt32} {m : Mem} (payload : Option McBuffer)
    (hheld : Holds m p.toNat (payloadBytes payload))
    (hend : p.toNat + (payloadBytes payload).length = nbytes.toNat) :
    wp (readerMode nbytes) (payloadFromBuffer nbytes p)
      (fun r m' => m' = m ∧ r.2 = nbytes ∧ ∃ payload', r.1 = some payload' ∧
        bytesOf payload' = bytesOf payload ∧ (bytesOf payload = [] → payload' = none)) m := by
  -- the remaining bytes are the payload's, and the marker in front of them
  have hrem : (nbytes - p).toNat = (payloadBytes payload).length := by
    rw [position_room (by omega)]
    omega
  have h1 : (1 : UInt32).toNat = 1 := rfl
  unfold payloadFromBuffer
  by_cases hempty : bytesOf payload = []
  · rw [payloadBytes, if_pos hempty, List.length_nil] at hrem hend
    have hle : ¬ nbytes - p > 1 := by
      show ¬ 1 < nbytes - p
      rw [UInt32.lt_iff_toNat_lt]
      omega
    simp only [if_neg hle, wp_pure]
    refine ⟨trivial, UInt32.toNat_inj.mp (by omega), none, rfl, ?_, fun _ => rfl⟩
    rw [hempty, bytesOf_none]
  · rw [payloadBytes, if_neg hempty] at hheld hrem hend
    rw [List.length_cons] at hrem hend
    obtain ⟨hmark, hbytes⟩ := hheld
    have hpos : 0 < (bytesOf payload).length := List.length_pos_of_ne_nil hempty
    have hgt : nbytes - p > 1 := by
      show 1 < nbytes - p
      rw [UInt32.lt_iff_toNat_lt]
      omega
    have hin : p.toNat < nbytes.toNat := by omega
    obtain ⟨hp1, hrest, hfits⟩ := payload_room hin
    have hpl : (nbytes - p - 1).toNat = (bytesOf payload).length := by omega
    have hread : ∀ i, (p + 1).toNat ≤ i → i < (p + 1).toNat + (nbytes - p - 1).toNat →
        (readerMode nbytes).reads i := fun i _ hi => show i < nbytes.toNat by omega
    have hslice : slice m (p + 1).toNat (nbytes - p - 1).toNat = bytesOf payload := by
      rw [hpl]
      apply slice_of_holds
      rw [hp1]
      exact hbytes
    simp only [if_pos hgt, wp_bind, wp_readByte, hmark, ne_eq, not_true, if_false,
      mcBufferCopyFrom, hfits, if_true, wp_readBytes, wp_pure, hslice]
    refine ⟨hin, hread, trivial, ?_, _, rfl, ?_, fun hc => absurd hc hempty⟩
    · apply UInt32.toNat_inj.mp
      rw [position_add nbytes (by omega)]
      omega
    · rw [bytesOf_some, McBuffer.toList, UInt32.toNat_zero, hpl]
      exact slice_of_holds (holds_blit _ 0 _)

/-- After the options comes the end of the buffer, or a payload's marker. -/
theorem atStop_payload {m : Mem} {nbytes : UInt32} {p : Nat} {payload : Option McBuffer}
    (hheld : Holds m p (payloadBytes payload))
    (hend : p + (payloadBytes payload).length = nbytes.toNat) : AtStop m nbytes p := by
  by_cases hempty : bytesOf payload = []
  · left
    rw [payloadBytes, if_pos hempty, List.length_nil] at hend
    exact hend
  · right
    rw [payloadBytes, if_neg hempty] at hheld hend
    rw [List.length_cons] at hend
    exact ⟨by omega, hheld.1⟩

/-- The decoder on exactly the bytes of a message; without options and
    without a payload it gives null for them. -/
theorem mcMessageFromBuffer_kept {qsort : Qsort McOption} {message : McMessage}
    {nbytes : UInt32} {m : Mem}
    (hkeep : SortKeeps qsort (wireOptions (listOptions message.options)))
    (htok : (mcHeaderGetTokenLength message.header).toNat = message.token.nbytes.toNat)
    (hlist : ListEncodable message.options)
    (hsmall : Wire.Small 0 (wireOptions (listOptions message.options)))
    (hheld : Holds m 0 (messageBytes message))
    (hend : (messageBytes message).length = nbytes.toNat) :
    wp (readerMode nbytes) (mcMessageFromBuffer qsort nbytes 0)
      (fun r m' => m' = m ∧ r.2 = nbytes ∧ ∃ message', r.1 = some message' ∧
        message'.Same message ∧ (listOptions message.options = [] → message'.options = none) ∧
        (bytesOf message.payload = [] → message'.payload = none)) m := by
  have htoklen := message.token.toList_length
  simp only [messageBytes, List.length_append, image32_length, htoklen] at hend
  rw [messageBytes, holds_append, holds_append, holds_append, image32_length, htoklen] at hheld
  obtain ⟨hword, htoken, hoptions, hpayload⟩ := hheld
  rw [Nat.zero_add] at htoken hoptions hpayload
  have h4 : 4 ≤ nbytes.toNat := by omega
  -- header and token
  have hheader : headerAt m = message.header := by
    obtain ⟨hw0, hw1, hw2, hw3, _⟩ := hword
    simp only [Nat.zero_add] at hw1 hw2 hw3
    rw [headerAt, hw0, hw1, hw2, hw3, msWord32_self, msSwapU32_swap]
  have hlength : tokenLengthAt m = message.token.nbytes.toNat := by
    rw [← tokenAt_length, ← htok, ← hheader]
    exact UInt8.toNat_toUInt32 _
  have htokenSame : (tokenAt m).toList = message.token.toList := by
    rw [tokenAt_toList, hlength, ← htoklen]
    exact slice_of_holds htoken
  rw [mcMessageFromBuffer_reads h4, hlength]
  refine ⟨fun i hi => show i < nbytes.toNat by omega, ?_⟩
  -- the options
  have hat : (optionsAt m).toNat = 4 + message.token.nbytes.toNat := by
    rw [optionsAt_toNat, hlength]
  rw [← hat] at hoptions
  have hstop : AtStop m nbytes ((optionsAt m).toNat + (listBytes message.options).length) := by
    rw [hat]
    exact atStop_payload hpayload (by omega)
  have hoptEnd : (optionsAt m).toNat + (listBytes message.options).length ≤ nbytes.toNat := by
    omega
  apply mcOptionsListFromBuffer_kept hkeep (readerMode_reads nbytes) h4 hlist.sorted
    wireOptions_num hsmall hsmall.values hoptions hoptEnd hstop
  intro list p' hlist' hnull hp'
  change p'.toNat = _ + (listBytes message.options).length at hp'
  rw [hat] at hp'
  rw [← hp'] at hpayload
  -- the payload
  apply wp_mono ?_ (payloadFromBuffer_encoded message.payload hpayload (by omega))
  intro r m' hr
  obtain ⟨rest, pos⟩ := r
  obtain ⟨rfl, hpos, payload', rfl, hsame, habsent⟩ := hr
  refine ⟨rfl, hpos, messageAt m' list payload', rfl, ⟨hheader, htokenSame, hlist', hsame⟩, ?_,
    habsent⟩
  intro hempty
  apply hnull.mpr
  rw [hempty]
  rfl

theorem mcMessageFromBuffer_encoded {qsort : Qsort McOption} (hq : qsort.Stable)
    {message : McMessage} {nbytes : UInt32} {m : Mem}
    (htok : (mcHeaderGetTokenLength message.header).toNat = message.token.nbytes.toNat)
    (hlist : ListEncodable message.options)
    (hsmall : Wire.Small 0 (wireOptions (listOptions message.options)))
    (hheld : Holds m 0 (messageBytes message))
    (hend : (messageBytes message).length = nbytes.toNat) :
    wp (readerMode nbytes) (mcMessageFromBuffer qsort nbytes 0)
      (fun r m' => m' = m ∧ r.2 = nbytes ∧ ∃ message', r.1 = some message' ∧
        message'.Same message ∧ (listOptions message.options = [] → message'.options = none) ∧
        (bytesOf message.payload = [] → message'.payload = none)) m :=
  mcMessageFromBuffer_kept (sortKeeps_of_stable hq hlist.sorted) htok hlist hsmall hheld hend

/-! ## Section 2: Messages -/

theorem valuesFit_of_small {prev : Nat} {options : List McOption}
    (h : Wire.Small prev (wireOptions options)) : ValuesFit options := by
  intro option ho
  have hlen := h.values option.wire (List.mem_map_of_mem ho)
  rw [McOption.wire_value, McBuffer.toList_length] at hlen
  omega

/-- A sorted list in the first two forms, or a null list, is encodable. -/
theorem mcOptionsListInit_small {qsort : Qsort McOption} {options : Option (List McOption)}
    (h : Wire.Small 0 (wireOptions (listOptions (options.map (mcOptionsListInit qsort))))) :
    ListEncodable (options.map (mcOptionsListInit qsort)) where
  sorted := by
    cases options with
    | none => trivial
    | some options =>
      exact ascending_of_sorted (fun _ _ => Nat.zero_le _)
        (qsort.sorted _ options compareOptions_isOrder)
  fit := valuesFit_of_small h

/-- The fields of a header that was created for them. -/
theorem getters_of_create {message : McMessage} {version messageType code : UInt8}
    {tokenLen : UInt32} {messageId : UInt16} (hversion : version < 4) (htype : messageType < 4)
    (h : message.header = mcHeaderCreate version messageType tokenLen code messageId) :
    mcMessageGetVersion message = version ∧ mcMessageGetType message = messageType ∧
      mcMessageGetCode message = code ∧ mcMessageGetMessageId message = messageId := by
  rw [mcMessageGetVersion, mcMessageGetType, mcMessageGetCode, mcMessageGetMessageId, h,
    mcHeaderGetVersion_create, mcHeaderGetMessageType_create, mcHeaderGetCode_create,
    mcHeaderGetMessageId_create, and_three_of_lt hversion, and_three_of_lt htype]
  exact ⟨rfl, rfl, rfl, rfl⟩

/-- The token length in the header is that of the token. -/
theorem mcMessageInit_tokenLen {version messageType code : UInt8} {messageId : UInt16}
    {token : McBuffer} {options : Option McOptionsList} {payload : Option McBuffer}
    (h : token.nbytes ≤ 15) :
    (mcMessageGetTokenLen
      (mcMessageInit version messageType code messageId token options payload)).toNat =
      token.nbytes.toNat := by
  have hle : token.nbytes.toNat ≤ 15 := UInt32.le_iff_toNat_le.mp h
  have hcast : token.nbytes.toUInt8.toNat = token.nbytes.toNat := by
    rw [UInt32.toNat_toUInt8]
    exact Nat.mod_eq_of_lt (by omega)
  have hle8 : token.nbytes.toUInt8 ≤ 15 := by
    rw [UInt8.le_iff_toNat_le, hcast]
    exact hle
  rw [mcMessageGetTokenLen, mcMessageInit, mcHeaderGetTokenLength_create,
    and_fifteen_of_le hle8, hcast]

/-- Decoding the bytes the encoder reports gives the message back. -/
theorem message_roundtrip {qsort : Qsort McOption} (hq : qsort.Stable)
    (version messageType code : UInt8) (messageId : UInt16) (token : McBuffer)
    (options : Option (List McOption)) (payload : Option McBuffer)
    (hversion : version < 4) (htype : messageType < 4) (htoken : token.nbytes ≤ 15)
    (hsmall : Wire.Small 0
      (wireOptions (listOptions (options.map (mcOptionsListInit qsort)))))
    (hsize : (messageBytes (mcMessageInit version messageType code messageId token
      (options.map (mcOptionsListInit qsort)) payload)).length < 2 ^ 32)
    (nbytes : UInt32)
    (hroom : mcMessageBufferSize (mcMessageInit version messageType code messageId token
      (options.map (mcOptionsListInit qsort)) payload) ≤ nbytes)
    (m : Mem) (s s' : Supply UInt16) :
    ∃ n message',
      (run (mcMessageToBuffer (mcMessageInit version messageType code messageId token
        (options.map (mcOptionsListInit qsort)) payload) nbytes) m s).value = some n ∧
      (run (mcMessageFromBuffer qsort n 0)
        (run (mcMessageToBuffer (mcMessageInit version messageType code messageId token
          (options.map (mcOptionsListInit qsort)) payload) nbytes) m s).mem s').value =
        some (some message', n) ∧
      mcMessageGetVersion message' = version ∧
      mcMessageGetType message' = messageType ∧
      (mcMessageGetTokenLen message').toNat = token.nbytes.toNat ∧
      mcMessageGetCode message' = code ∧
      mcMessageGetMessageId message' = messageId ∧
      message'.token.toList = token.toList ∧
      wireOptions (listOptions message'.options) =
        wireOptions (listOptions (options.map (mcOptionsListInit qsort))) ∧
      bytesOf message'.payload = bytesOf payload := by
  have hlist := mcOptionsListInit_small hsmall
  generalize hlistdef : options.map (mcOptionsListInit qsort) = list at *
  generalize hmessage : mcMessageInit version messageType code messageId token list payload =
    message at *
  have hheader : message.header =
      mcHeaderCreate version messageType token.nbytes code messageId := by rw [← hmessage]; rfl
  have hopts : message.options = list := by rw [← hmessage]; rfl
  have htok : (mcHeaderGetTokenLength message.header).toNat = message.token.nbytes.toNat := by
    rw [← hmessage]
    exact mcMessageInit_tokenLen htoken
  have hfit : (messageBytes message).length ≤ nbytes.toNat := by
    rw [mcMessageBufferSize_eq (hopts ▸ hlist), UInt32.le_iff_toNat_le, UInt32.toNat_ofNat',
      Nat.mod_eq_of_lt hsize] at hroom
    exact hroom
  -- the encoder
  obtain ⟨n, hn, hlen, hmem⟩ :=
    (run_meets (mcMessageToBuffer_writes (hopts ▸ hlist) hfit m) s (fun _ => trivial)).returns id
  have hheld : Holds (run (mcMessageToBuffer message nbytes) m s).mem 0 (messageBytes message) := by
    rw [hmem]
    exact holds_blit m 0 _
  -- the decoder
  have hdec := mcMessageFromBuffer_encoded hq htok (hopts ▸ hlist) (hopts ▸ hsmall) hheld hlen.symm
  obtain ⟨⟨r, pos⟩, hr, _, hpos, message', hr', hsame, _⟩ :=
    (run_meets hdec s' (fun _ => trivial)).returns id
  dsimp only at hpos hr'
  subst hpos hr'
  have hcreate : message'.header =
      mcHeaderCreate version messageType token.nbytes code messageId :=
    hsame.header.trans hheader
  obtain ⟨hgetVersion, hgetType, hgetCode, hgetId⟩ := getters_of_create hversion htype hcreate
  refine ⟨_, message', hn, hr, hgetVersion, hgetType, ?_, hgetCode, hgetId, ?_, ?_, ?_⟩
  · rw [mcMessageGetTokenLen, hsame.header, htok, ← hmessage]
    rfl
  · rw [hsame.token, ← hmessage]
    rfl
  · rw [hsame.options, hopts]
  · rw [hsame.payload, ← hmessage]
    rfl

/-- The witness message: a get with a two-byte token, two options out of
    order and a payload that looks like a marker. -/
theorem message_roundtrip_get :
    ∃ n message',
      (run (mcMessageToBuffer (mcMessageInit 1 0 1 7 (McBuffer.ofList [5, 6])
        ((some [⟨11, McBuffer.ofList [97, 98]⟩, ⟨3, McBuffer.ofList [255]⟩]).map
          (mcOptionsListInit (insertion McOption))) (some (McBuffer.ofList [255, 0]))) 64)
        (fun _ => 9) (fun _ => 0)).value = some n ∧
      (run (mcMessageFromBuffer (insertion McOption) n 0)
        (run (mcMessageToBuffer (mcMessageInit 1 0 1 7 (McBuffer.ofList [5, 6])
          ((some [⟨11, McBuffer.ofList [97, 98]⟩, ⟨3, McBuffer.ofList [255]⟩]).map
            (mcOptionsListInit (insertion McOption))) (some (McBuffer.ofList [255, 0]))) 64)
          (fun _ => 9) (fun _ => 0)).mem (fun _ => 0)).value = some (some message', n) ∧
      mcMessageGetVersion message' = 1 ∧
      mcMessageGetType message' = 0 ∧
      (mcMessageGetTokenLen message').toNat = (McBuffer.ofList [5, 6]).nbytes.toNat ∧
      mcMessageGetCode message' = 1 ∧
      mcMessageGetMessageId message' = 7 ∧
      message'.token.toList = (McBuffer.ofList [5, 6]).toList ∧
      wireOptions (listOptions message'.options) =
        wireOptions (listOptions
          ((some [⟨11, McBuffer.ofList [97, 98]⟩, ⟨3, McBuffer.ofList [255]⟩]).map
            (mcOptionsListInit (insertion McOption)))) ∧
      bytesOf message'.payload = bytesOf (some (McBuffer.ofList [255, 0])) :=
  message_roundtrip (insertion_stable McOption) 1 0 1 7 (McBuffer.ofList [5, 6])
    (some [⟨11, McBuffer.ofList [97, 98]⟩, ⟨3, McBuffer.ofList [255]⟩])
    (some (McBuffer.ofList [255, 0])) (by decide) (by decide) (by decide) (by decide)
    (by decide) 64 (by decide) (fun _ => 9) (fun _ => 0) (fun _ => 0)

end Mcoap
