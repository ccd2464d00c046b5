import Mcoap.Datagram

/-! # What the message encoder writes

    `mc_message_to_buffer` against RFC 7252 3.

    * `message_written`: a message the encoder handles is written in full,
      byte for byte, or nothing is;
    * `lengths_kept_iff`: when the lengths in the bytes written are those of
      the token and of the values.  The header has four bits for the token
      length, and a value's length is passed on as a `uint16_t`; what does
      not fit is cut off without an error. -/

namespace Mcoap

open ByteMem ByteProg StableSort

/-! ## Section 1: Exact bytes -/

/-- The header word in network order. -/
theorem image32_header (version messageType code : UInt8) (messageId : UInt16)
    {tokenLen : UInt32} (h : tokenLen.toNat ≤ 15) :
    image32 (msSwapU32 (mcHeaderCreate version messageType tokenLen code messageId)) =
      Wire.headerBytes (version &&& 3) (messageType &&& 3) tokenLen.toUInt8 code messageId := by
  have hlen : tokenLen.toUInt8 = tokenLen.toUInt8 &&& 15 := by
    symm
    apply and_fifteen_of_le
    rw [UInt8.le_iff_toNat_le, UInt32.toNat_toUInt8]
    exact le_trans (Nat.mod_le _ _) h
  rw [image32_swap, Wire.headerBytes, hlen]
  simp only [List.cons.injEq, and_true]
  -- every bit of the four bytes comes from one component
  refine ⟨?_, ?_, ?_, ?_⟩ <;> apply UInt8.toBitVec_inj.mp <;> ext k hk <;>
    interval_cases k <;>
    simp [mcHeaderCreate, versionMask, mtypeMask, tklenMask, codeMask,
      midMask, versionOffset, mtypeOffset, tklenOffset, codeOffset]

/-- A message as RFC 7252 3 draws it: header, token, options, and a payload
    marker in front of a payload that is not empty. -/
def wireMessage (version messageType code : UInt8) (messageId : UInt16) (token : McBuffer)
    (options : List McOption) (payload : Option McBuffer) : List UInt8 :=
  Wire.headerBytes (version &&& 3) (messageType &&& 3) token.nbytes.toUInt8 code messageId ++
    (token.toList ++ (Wire.encodeOptions 0 (wireOptions options) ++ payloadBytes payload))

theorem messageBytes_init {version messageType code : UInt8} {messageId : UInt16}
    {token : McBuffer} {list : Option McOptionsList} {payload : Option McBuffer}
    (htok : token.nbytes.toNat ≤ 15) :
    messageBytes (mcMessageInit version messageType code messageId token list payload) =
      wireMessage version messageType code messageId token (listOptions list) payload := by
  rw [wireMessage, ← image32_header version messageType code messageId htok]
  rfl

/-- The encoder writes a message of fewer than 2^32 bytes in full, byte for
    byte, or writes nothing. -/
theorem message_written (qsort : Qsort McOption) (version messageType code : UInt8)
    (messageId : UInt16) (token : McBuffer) (list : Option McOptionsList)
    (payload : Option McBuffer) (nbytes : UInt32) (m : Mem) (s : Supply UInt16)
    (htok : token.nbytes.toNat ≤ 15)
    (hlist : list = none ∨
      ∃ options, list = some (mcOptionsListInit qsort options) ∧ ValuesFit options)
    (hsize : (wireMessage version messageType code messageId token
      (listOptions list) payload).length < 2 ^ 32) :
    let message := mcMessageInit version messageType code messageId token list payload
    let bytes := wireMessage version messageType code messageId token (listOptions list) payload
    let out := run (mcMessageToBuffer message nbytes) m s
    (mcMessageBufferSize message).toNat = bytes.length ∧
      (nbytes < mcMessageBufferSize message → out.value = some 0 ∧ out.mem = m) ∧
      (¬ nbytes < mcMessageBufferSize message →
        out.value = some (mcMessageBufferSize message) ∧ Holds out.mem 0 bytes ∧
          (∀ i, bytes.length ≤ i → out.mem i = m i) ∧
          ∀ access ∈ out.trace, access.index < nbytes.toNat) := by
  intro message bytes out
  have hencodable : ListEncodable message.options := by
    rcases hlist with hnull | ⟨options, hsorted, hfit⟩
    · show ListEncodable list
      rw [hnull]
      exact listEncodable_none
    · show ListEncodable list
      rw [hsorted]
      exact mcOptionsListInit_encodable qsort hfit
  have hbytes : messageBytes message = bytes := messageBytes_init htok
  have hlen : (mcMessageBufferSize message).toNat = bytes.length := by
    rw [mcMessageBufferSize_eq hencodable, hbytes]
    exact ofNat32_toNat hsize
  refine ⟨hlen, ?_, ?_⟩
  · intro htest
    have hout : out = ⟨some 0, m, s, []⟩ := by
      show run (mcMessageToBuffer message nbytes) m s = _
      rw [mcMessageToBuffer, if_pos (show mcMessageBufferSize message > nbytes from htest)]
      rfl
    rw [hout]
    exact ⟨rfl, rfl⟩
  · intro htest
    have hfit : (messageBytes message).length ≤ nbytes.toNat := by
      rw [UInt32.lt_iff_toNat_lt, hlen] at htest
      rw [hbytes]
      omega
    -- once the size check has passed there is nothing left that could fail
    have hmeets := run_meets (mcMessageToBuffer_writes hencodable hfit m) s fun _ => trivial
    obtain ⟨r, hvalue, hr, hmem⟩ := hmeets.returns id
    rw [hbytes] at hr hmem
    have hmem : out.mem = blit m 0 bytes := hmem
    have hreturn : r = mcMessageBufferSize message := UInt32.toNat_inj.mp (by rw [hr, hlen])
    refine ⟨hreturn ▸ hvalue, ?_, ?_, ?_⟩
    · rw [hmem]
      exact holds_blit m 0 bytes
    · intro i hi
      rw [hmem]
      exact blit_outside m 0 bytes i (Or.inr (by omega))
    · intro access haccess
      cases access with
      | rd i => exact (hmeets.1 i haccess).elim
      | wr i => exact hmeets.2.1 i haccess

/-- The witness message: a get with a token, one option and a payload. -/
theorem message_written_get :
    (run (mcMessageToBuffer (mcMessageInit 1 0 1 7 (McBuffer.ofList [0x61])
        (some (mcOptionsListInit (insertion McOption) [mcOptionInit 11 1 [0x62]]))
        (some (McBuffer.ofList [0x63]))) 16) (ofList []) fun _ => 0).value = some 9 := by
  have h := message_written (insertion McOption) 1 0 1 7 (McBuffer.ofList [0x61])
    (some (mcOptionsListInit (insertion McOption) [mcOptionInit 11 1 [0x62]]))
    (some (McBuffer.ofList [0x63])) 16 (ofList []) (fun _ => 0) (by decide)
    (Or.inr ⟨[mcOptionInit 11 1 [0x62]], rfl, by
      intro option ho
      rw [List.mem_singleton.mp ho]
      decide⟩) (by decide)
  exact (h.2.2 (by decide)).1

/-! ## Section 2: Lengths -/

/-- The length an option that starts at `p` states on the wire. -/
def lengthField (m : Mem) (p : Nat) : Nat :=
  if m p &&& 0x0f = 13 then (m (lengthAt m p)).toNat + 13
  else if m p &&& 0x0f = 14 then
    (m (lengthAt m p)).toNat * 256 + (m (lengthAt m p + 1)).toNat + 269
  else (m p &&& 0x0f).toNat

/-- Where its value starts. -/
def valueAt (m : Mem) (p : Nat) : Nat :=
  lengthAt m p + Wire.extensionSize (m p &&& 0x0f).toNat

/-- The options that start at `p` state the lengths of their values; each
    one starts where the value before it ends. -/
def LengthFields (m : Mem) (p : Nat) : List McOption → Prop
  | [] => True
  | option :: rest =>
    lengthField m p = option.value.nbytes.toNat ∧
      LengthFields m (valueAt m p + option.value.nbytes.toNat) rest

/-- A message the wire format has room for. -/
def Representable (token : McBuffer) (options : List McOption) : Prop :=
  token.nbytes.toNat ≤ 15 ∧ ∀ option ∈ options, option.value.nbytes.toNat ≤ 65804

/-- A positive count means that every length written is right, and a
    message the wire format has no room for gives 0. -/
structure LengthsKept (message : McMessage) (nbytes : UInt32) (m : Mem) : Prop where
  stated : ∀ s r, let out := run (mcMessageToBuffer message nbytes) m s
    (∀ access ∈ out.trace, access.index < nbytes.toNat) → out.value = some r → 0 < r →
      (out.mem 0 &&& 0x0f).toNat = message.token.nbytes.toNat ∧
        LengthFields out.mem (4 + message.token.nbytes.toNat) (listOptions message.options)
  refused : ¬ Representable message.token (listOptions message.options) →
    ∀ s, let out := run (mcMessageToBuffer message nbytes) m s
      (∀ access ∈ out.trace, access.index < nbytes.toNat) ∧ out.value = some 0

/-- The bytes do not fit, and the first one that does not is one the encoder
    writes without a test: one of the header, or the payload marker. -/
def Overruns (message : McMessage) (nbytes : UInt32) : Prop :=
  nbytes.toNat < 4 ∨ (payloadBytes message.payload ≠ [] ∧
    (writtenBytes message).length = nbytes.toNat + (payloadBytes message.payload).length)

/-- The length field of an option as the encoder writes it. -/
theorem lengthField_written {m : Mem} {p : Nat} {option : McOption} {prev : UInt16}
    (hheld : Holds m p (writtenOption prev option)) :
    lengthField m p = option.value.nbytes.toNat % 65536 ∧
      valueAt m p + option.value.nbytes.toNat = p + (writtenOption prev option).length := by
  have hlen : option.value.nbytes.toUInt16.toNat = option.value.nbytes.toNat % 65536 :=
    UInt32.toNat_toUInt16 _
  have hsize : (writtenOption prev option).length =
      1 + ((Wire.extension (option.optionNum - prev).toNat).length +
        ((Wire.extension option.value.nbytes.toUInt16.toNat).length +
          option.value.nbytes.toNat)) := by
    rw [writtenOption, List.length_cons, List.length_append, List.length_append,
      McBuffer.toList_length]
    omega
  rw [writtenOption, holds_cons, holds_append, holds_append] at hheld
  obtain ⟨hhead, _, hext, _⟩ := hheld
  have hat : lengthAt m p = p + 1 + (Wire.extension (option.optionNum - prev).toNat).length := by
    rw [lengthAt, hhead, Wire.headByte_high, Wire.extension_length]
  rw [← hat] at hext
  have hlow : (m p &&& 0x0f).toNat = Wire.nibble option.value.nbytes.toUInt16.toNat := by
    rw [hhead, Wire.headByte_low]
  constructor
  · rw [← hlen]
    generalize option.value.nbytes.toUInt16.toNat = len at *
    have hnib : ∀ b : UInt8, m p &&& 0x0f = b ↔ Wire.nibble len = b.toNat := by
      intro b
      rw [← hlow]
      exact UInt8.toNat_inj.symm
    unfold lengthField
    rw [hlow]
    by_cases h1 : len < 13
    · rw [if_neg, if_neg, Wire.nibble_small h1]
      · rw [hnib, Wire.nibble_small h1]
        exact fun h => absurd h (by simp; omega)
      · rw [hnib, Wire.nibble_small h1]
        exact fun h => absurd h (by simp; omega)
    · by_cases h2 : len < 269
      · rw [Wire.extension_medium (by omega) h2, holds_cons] at hext
        rw [if_pos ((hnib 13).mpr (Wire.nibble_medium (by omega) h2)), hext.1,
          UInt8.toNat_ofNat', Nat.mod_eq_of_lt (by omega)]
        omega
      · rw [Wire.extension_large (by omega), holds_cons, holds_cons] at hext
        have h14 : Wire.nibble len = 14 := Wire.nibble_large (by omega)
        rw [if_neg, if_pos ((hnib 14).mpr h14), hext.1, hext.2.1, UInt8.toNat_ofNat',
          UInt8.toNat_ofNat', Nat.mod_eq_of_lt (show (len - 269) / 256 < 2 ^ 8 by omega),
          Nat.mod_eq_of_lt (show (len - 269) % 256 < 2 ^ 8 by omega)]
        · omega
        · rw [hnib, h14]
          decide
  · rw [valueAt, hat, hlow, ← Wire.extension_length, hsize]
    omega

/-- The fields state the lengths of the values exactly when none was cut. -/
theorem lengthFields_written {m : Mem} {p : Nat} {options : List McOption} {prev : UInt16}
    (hheld : Holds m p (writtenOptions prev options)) :
    LengthFields m p options ↔ ValuesFit options := by
  induction options generalizing p prev with
  | nil => exact ⟨fun _ option ho => absurd ho List.not_mem_nil, fun _ => trivial⟩
  | cons option rest ih =>
    rw [writtenOptions, holds_append] at hheld
    obtain ⟨hfield, hnext⟩ := lengthField_written hheld.1
    have hrest := ih hheld.2
    have hcons : ValuesFit (option :: rest) ↔
        option.value.nbytes.toNat ≤ 65535 ∧ ValuesFit rest := List.forall_mem_cons
    rw [LengthFields, hnext, hrest, hfield, hcons]
    constructor
    · rintro ⟨hlen, hfit⟩
      exact ⟨by omega, hfit⟩
    · rintro ⟨hlen, hfit⟩
      exact ⟨Nat.mod_eq_of_lt (by omega), hfit⟩

/-! ## Section 3: Messages that do not fit -/

theorem mcBufferCopyTo_overflows {nbytes p : UInt32} (src : McBuffer)
    (hp : p.toNat ≤ nbytes.toNat) (hover : nbytes.toNat < p.toNat + src.nbytes.toNat) (m : Mem) :
    wp (encoderMode nbytes) (mcBufferCopyTo nbytes p src 0 src.nbytes)
      (fun r _ => r = false) m := by
  have hroom : nbytes - p < src.nbytes := by
    rw [UInt32.lt_iff_toNat_lt, position_room hp]
    omega
  have hfits : ¬ copyFits nbytes p src.nbytes 0 src.nbytes = true := by
    rw [copyFits, if_pos hroom]
    exact Bool.false_ne_true
  unfold mcBufferCopyTo
  rw [if_neg hfits]
  rfl

/-- A payload that does not fit is noticed, unless its marker is the first
    byte that does not. -/
theorem payloadToBuffer_overflows {nbytes p : UInt32} (payload : Option McBuffer)
    (hp : p.toNat ≤ nbytes.toNat)
    (hover : nbytes.toNat < p.toNat + (payloadBytes payload).length)
    (hmarker : p.toNat ≠ nbytes.toNat) (m : Mem) :
    wp (encoderMode nbytes) (payloadToBuffer nbytes payload p) (fun r _ => r = 0) m := by
  unfold payloadToBuffer
  cases payload with
  | none => exact absurd hover (by rw [show payloadBytes none = [] from rfl]; simp; omega)
  | some payload =>
    by_cases h : payload.nbytes > 0
    · rw [payloadBytes_of_pos h, List.length_cons, payload.toList_length] at hover
      have hmark := position_succ (show p.toNat < nbytes.toNat by omega)
      simp only [if_pos h, wp_bind, wp_writeByte]
      refine ⟨show p.toNat < nbytes.toNat by omega, ?_⟩
      apply wp_mono ?_ (mcBufferCopyTo_overflows (p := p + 1) payload (by omega) (by omega) _)
      intro r m' hr
      rw [hr]
      rfl
    · rw [payloadBytes_of_zero h, List.length_nil] at hover
      omega

/-- An encoder whose bytes do not fit fails inside the buffer. -/
theorem Emits.overflows {nbytes p : UInt32} {x : UInt32 → Code (Bool × UInt32)} {bs : List UInt8}
    (hx : Emits nbytes x bs) (hp : p.toNat ≤ nbytes.toNat)
    (hover : nbytes.toNat < p.toNat + bs.length) (m : Mem) :
    wp (encoderMode nbytes) (x p) (fun r _ => r.1 = false) m := by
  apply wp_mono ?_ (hx p m hp)
  intro r m' h
  obtain ⟨k, _, hin, _, _, hok⟩ := h
  cases hr : r.1 with
  | false => rfl
  | true =>
    rw [hr, if_pos rfl] at hok
    omega

/-- The encoder up to the payload: header, token and options are written,
    or the result is 0. -/
theorem mcMessageToBuffer_head {message : McMessage} {nbytes : UInt32}
    (htest : ¬ mcMessageBufferSize message > nbytes) (h4 : 4 ≤ nbytes.toNat) (m : Mem)
    (Q : UInt32 → Mem → Prop)
    (hshort : nbytes.toNat < (writtenBytes message).length - (payloadBytes message.payload).length →
      ∀ m', Q 0 m')
    (hrest : ∀ p m', p.toNat + (payloadBytes message.payload).length =
        (writtenBytes message).length → p.toNat ≤ nbytes.toNat →
      wp (encoderMode nbytes) (payloadToBuffer nbytes message.payload p) Q m') :
    wp (encoderMode nbytes) (mcMessageToBuffer message nbytes) Q m := by
  have h4' : (4 : UInt32).toNat = 4 := rfl
  rw [writtenBytes_length] at hshort hrest
  unfold mcMessageToBuffer
  rw [if_neg htest, wp_bind, wp_writeBytes]
  refine ⟨fun i _ hi => show i < nbytes.toNat from ?_, ?_⟩
  · rw [image32_length] at hi
    omega
  rw [wp_bind]
  by_cases htoken : 4 + message.token.nbytes.toNat ≤ nbytes.toNat
  · apply wp_mono ?_ (mcBufferCopyTo_fits message.token (by omega) _)
    intro r m' hr
    have hpos : (4 + message.token.nbytes).toNat = 4 + message.token.nbytes.toNat :=
      position_add (p := 4) nbytes (by omega)
    rw [hr.1, if_pos rfl, wp_bind]
    have hemits := mcOptionsListToBuffer_emits nbytes message.options
    by_cases hlist : 4 + message.token.nbytes.toNat +
        (writtenOptions 0 (listOptions message.options)).length ≤ nbytes.toNat
    · apply wp_mono ?_ (hemits.fits (by omega) m')
      intro r m'' hr
      obtain ⟨hok, hp, _⟩ := hr
      simp only [hok, if_true]
      exact hrest r.2 m'' (by omega) (by omega)
    · apply wp_mono ?_ (hemits.overflows (by omega) (by omega) m')
      intro r m'' hr
      simp only [hr, Bool.false_eq_true, if_false]
      exact hshort (by omega) m''
  · apply wp_mono ?_ (mcBufferCopyTo_overflows message.token (by omega) (by omega) _)
    intro r m' hr
    rw [hr]
    exact hshort (by omega) m'

/-- A message that does not fit gives 0, unless the encoder runs over the end. -/
theorem mcMessageToBuffer_overflows {message : McMessage} {nbytes : UInt32}
    (htest : ¬ mcMessageBufferSize message > nbytes)
    (hover : nbytes.toNat < (writtenBytes message).length)
    (hinside : ¬ Overruns message nbytes) (m : Mem) :
    wp (encoderMode nbytes) (mcMessageToBuffer message nbytes) (fun r _ => r = 0) m := by
  have h4 : 4 ≤ nbytes.toNat := by
    by_contra hc
    exact hinside (Or.inl (by omega))
  apply mcMessageToBuffer_head htest h4
  · intro _ _
    rfl
  · intro p m' hp hle
    apply payloadToBuffer_overflows _ hle (by omega)
    intro hend
    apply hinside
    right
    constructor
    · intro hnil
      rw [hnil, List.length_nil] at hp
      omega
    · omega

/-- An encoder that runs over the end leaves the buffer. -/
theorem mcMessageToBuffer_overruns {message : McMessage} {nbytes : UInt32}
    (htest : ¬ mcMessageBufferSize message > nbytes) (hover : Overruns message nbytes)
    (m : Mem) (s : Supply UInt16) :
    ∃ access ∈ (run (mcMessageToBuffer message nbytes) m s).trace,
      nbytes.toNat ≤ access.index := by
  have h4' : (4 : UInt32).toNat = 4 := rfl
  unfold mcMessageToBuffer
  rw [if_neg htest]
  by_cases h4 : nbytes.toNat < 4
  -- the last header byte
  · refine ⟨Access.wr 3, ?_, show nbytes.toNat ≤ 3 by omega⟩
    exact List.mem_cons_of_mem _ (List.mem_cons_of_mem _
      (List.mem_cons_of_mem _ List.mem_cons_self))
  rcases hover with hshort | ⟨hpayload, hend⟩
  · exact absurd hshort h4
  rw [writtenBytes_length] at hend
  apply run_bind_touches (a := ()) rfl
  -- header, token and options fit, and the position is the end of the buffer
  have hfit : (4 : UInt32).toNat + message.token.nbytes.toNat ≤ nbytes.toNat := by omega
  obtain ⟨ok, hok, rfl, _⟩ := (run_meets
    (mcBufferCopyTo_fits message.token hfit _) _ fun _ => trivial).returns id
  apply run_bind_touches hok
  have hpos : (4 + message.token.nbytes).toNat = 4 + message.token.nbytes.toNat :=
    position_add (p := 4) nbytes (by omega)
  have hlist : (4 + message.token.nbytes).toNat +
      (writtenOptions 0 (listOptions message.options)).length ≤ nbytes.toNat := by omega
  obtain ⟨⟨ok, p⟩, hvalue, hok, hp, _⟩ := (run_meets
    ((mcOptionsListToBuffer_emits nbytes message.options).fits hlist _) _
      fun _ => trivial).returns id
  apply run_bind_touches hvalue
  simp only at hok hp
  simp only [hok, if_true]
  unfold payloadToBuffer
  cases hp' : message.payload with
  | none =>
    rw [hp'] at hpayload
    exact absurd rfl hpayload
  | some payload =>
    by_cases hpos' : payload.nbytes > 0
    -- the marker goes to the first byte past the buffer
    · refine ⟨Access.wr p.toNat, ?_, show nbytes.toNat ≤ p.toNat by omega⟩
      simp only [if_pos hpos']
      exact List.mem_cons_self
    · rw [hp', payloadBytes_of_zero hpos'] at hpayload
      exact absurd rfl hpayload

/-! ## Section 4: When the lengths are kept -/

/-- What a run of the encoder ends with. -/
theorem mcMessageToBuffer_cases (message : McMessage) (nbytes : UInt32) (m : Mem)
    (s : Supply UInt16) :
    let out := run (mcMessageToBuffer message nbytes) m s
    (¬ mcMessageBufferSize message > nbytes ∧ (writtenBytes message).length ≤ nbytes.toNat ∧
      (∃ r, out.value = some r ∧ 0 < r) ∧ Holds out.mem 0 (writtenBytes message) ∧
      ∀ access ∈ out.trace, access.index < nbytes.toNat) ∨
    ((mcMessageBufferSize message > nbytes ∨
        (nbytes.toNat < (writtenBytes message).length ∧ ¬ Overruns message nbytes)) ∧
      out.value = some 0 ∧ ∀ access ∈ out.trace, access.index < nbytes.toNat) ∨
    (¬ mcMessageBufferSize message > nbytes ∧ Overruns message nbytes ∧
      nbytes.toNat < (writtenBytes message).length ∧
      ∃ access ∈ out.trace, nbytes.toNat ≤ access.index) := by
  intro out
  -- the encoder never reads
  have htrace : ∀ {Q : UInt32 → Mem → Prop}, out.Meets (encoderMode nbytes) Q →
      ∀ access ∈ out.trace, access.index < nbytes.toNat := by
    intro Q hmeets access haccess
    cases access with
    | rd i => exact (hmeets.1 i haccess).elim
    | wr i => exact hmeets.2.1 i haccess
  by_cases htest : mcMessageBufferSize message > nbytes
  · right
    left
    have hout : out = ⟨some 0, m, s, []⟩ := by
      show run (mcMessageToBuffer message nbytes) m s = _
      rw [mcMessageToBuffer, if_pos htest]
      rfl
    rw [hout]
    exact ⟨Or.inl htest, rfl, fun access ha => absurd ha List.not_mem_nil⟩
  by_cases hfit : (writtenBytes message).length ≤ nbytes.toNat
  · left
    have hmeets := run_meets (mcMessageToBuffer_fits htest hfit m) s fun _ => trivial
    obtain ⟨r, hvalue, hr, hmem⟩ := hmeets.returns id
    refine ⟨htest, hfit, ⟨r, hvalue, ?_⟩, ?_, htrace hmeets⟩
    · rw [UInt32.lt_iff_toNat_lt, hr, writtenBytes_length, UInt32.toNat_zero]
      omega
    · rw [hmem]
      exact holds_blit m 0 _
  right
  by_cases hover : Overruns message nbytes
  · right
    exact ⟨htest, hover, by omega, mcMessageToBuffer_overruns htest hover m s⟩
  · left
    have hmeets := run_meets (mcMessageToBuffer_overflows htest (by omega) hover m) s
      fun _ => trivial
    obtain ⟨r, hvalue, rfl⟩ := hmeets.returns id
    exact ⟨Or.inr ⟨by omega, hover⟩, hvalue, htrace hmeets⟩

/-- The token length on the wire: four bits of it. -/
theorem tokenNibble_written {version messageType code : UInt8} {messageId : UInt16}
    {token : McBuffer} {list : Option McOptionsList} {payload : Option McBuffer} {m : Mem}
    (hheld : Holds m 0 (writtenBytes
      (mcMessageInit version messageType code messageId token list payload))) :
    (m 0 &&& 0x0f).toNat = token.nbytes.toNat % 16 := by
  have hbyte : m 0 =
      (mcHeaderCreate version messageType token.nbytes code messageId >>> 24).toUInt8 := by
    rw [writtenBytes, image32_swap] at hheld
    exact hheld.1
  have hbits : m 0 &&& 0x0f = token.nbytes.toUInt8 &&& 15 := by
    rw [hbyte]
    apply UInt8.toBitVec_inj.mp
    ext k hk
    interval_cases k <;>
      simp [mcHeaderCreate, versionMask, mtypeMask, tklenMask, codeMask,
        midMask, versionOffset, mtypeOffset, tklenOffset, codeOffset]
  rw [hbits, UInt8.toNat_and, show (15 : UInt8).toNat = 2 ^ 4 - 1 by decide,
    Nat.and_two_pow_sub_one_eq_mod, UInt32.toNat_toUInt8]
  omega

/-- The lengths are kept exactly when the token and the values have lengths
    that are not cut, or the message does not fit and that is noticed in
    time. -/
theorem lengths_kept_iff (version messageType code : UInt8) (messageId : UInt16)
    (token : McBuffer) (list : Option McOptionsList) (payload : Option McBuffer)
    (nbytes : UInt32) (m : Mem) :
    let message := mcMessageInit version messageType code messageId token list payload
    LengthsKept message nbytes m ↔
      (token.nbytes.toNat ≤ 15 ∧ ValuesFit (listOptions list)) ∨
        nbytes < mcMessageBufferSize message ∨
        (nbytes.toNat < (writtenBytes message).length ∧
          (Representable token (listOptions list) ∨ ¬ Overruns message nbytes)) := by
  intro message
  have hfields : ∀ mem, Holds mem 0 (writtenBytes message) →
      (LengthFields mem (4 + token.nbytes.toNat) (listOptions list) ↔
        ValuesFit (listOptions list)) := by
    intro mem hheld
    rw [writtenBytes, holds_append, holds_append, holds_append, image32_length,
      McBuffer.toList_length, Nat.zero_add] at hheld
    exact lengthFields_written hheld.2.2.1
  have hfitting : token.nbytes.toNat ≤ 15 ∧ ValuesFit (listOptions list) →
      Representable token (listOptions list) := by
    rintro ⟨htok, hvalues⟩
    refine ⟨htok, fun option ho => ?_⟩
    have := hvalues option ho
    omega
  constructor
  · intro hkept
    obtain ⟨_, _, ⟨r, hvalue, hr⟩, hheld, hinside⟩ | ⟨hsize | ⟨hover, hrun⟩, _, _⟩ |
      ⟨_, _, hover, access, haccess, hout⟩ :=
        mcMessageToBuffer_cases message nbytes m fun _ => 0
    · left
      obtain ⟨htoken, hlist⟩ := hkept.stated _ r hinside hvalue hr
      rw [tokenNibble_written hheld] at htoken
      have htoken : token.nbytes.toNat % 16 = token.nbytes.toNat := htoken
      exact ⟨by omega, (hfields _ hheld).mp hlist⟩
    · exact Or.inr (Or.inl hsize)
    · exact Or.inr (Or.inr ⟨hover, Or.inr hrun⟩)
    · right
      right
      refine ⟨hover, Or.inl ?_⟩
      by_contra hrep
      have hin := (hkept.refused hrep fun _ => 0).1 access haccess
      omega
  · intro hcond
    constructor
    · intro s r out hinside hvalue hr
      obtain ⟨htest, hfit, _, hheld, _⟩ | ⟨_, hzero, _⟩ | ⟨_, _, _, access, haccess, hout⟩ :=
        mcMessageToBuffer_cases message nbytes m s
      · rcases hcond with ⟨htok, hvalues⟩ | hsize | ⟨hover, _⟩
        · refine ⟨?_, (hfields _ hheld).mpr hvalues⟩
          rw [tokenNibble_written hheld]
          exact Nat.mod_eq_of_lt (by omega)
        · exact absurd hsize htest
        · omega
      · have hvalue : (run (mcMessageToBuffer message nbytes) m s).value = some r := hvalue
        rw [hzero] at hvalue
        cases hvalue
        exact absurd hr (by decide)
      · have hin := hinside access haccess
        omega
    · intro hrep s out
      obtain ⟨htest, hfit, _⟩ | ⟨_, hzero, hinside⟩ | ⟨htest, hrun, _, _⟩ :=
        mcMessageToBuffer_cases message nbytes m s
      · rcases hcond with hfits | hsize | ⟨hover, _⟩
        · exact absurd (hfitting hfits) hrep
        · exact absurd hsize htest
        · omega
      · exact ⟨hinside, hzero⟩
      · rcases hcond with hfits | hsize | ⟨_, hnot | hnot⟩
        · exact absurd (hfitting hfits) hrep
        · exact absurd hsize htest
        · exact absurd hnot hrep
        · exact absurd hrun hnot

/-- A token of 16 bytes in a buffer of 20: the token length written is 0. -/
theorem token_length_cut :
    ¬ LengthsKept (mcMessageInit 1 0 1 7 (McBuffer.ofList (List.replicate 16 0x61)) none none)
      20 (ofList []) := by
  intro h
  have hzero := (h.refused (fun hrep => absurd hrep.1 (by decide)) fun _ => 0).2
  exact absurd hzero (by decide)

end Mcoap
