import Mcoap.Encoder

/-! # Messages

    `mcoap/mc_message.c`: building a message, its size, writing it into a
    buffer and reading it back.

    A message always has a token: `mc_message_init` reads its length, and
    `mc_message_from_buffer` sets it.  The options and the payload may be
    null, and so may the sender's address. -/

namespace Mcoap

open ByteMem ByteProg StableSort

/-! ## Section 1: The message -/

/-- `sockaddr_t`, seen as an internet address. -/
structure SockAddr where
  family : UInt16
  port   : UInt16
  addr   : UInt32
  zero   : UInt64
  deriving DecidableEq, Repr

def mnSockaddrCopy (src : SockAddr) : SockAddr := src

/-- `mc_message_t`; `fromAddr` is the field `from`. -/
structure McMessage where
  header   : UInt32
  token    : McBuffer
  options  : Option McOptionsList
  payload  : Option McBuffer
  fromAddr : Option SockAddr

def messageVersion : UInt8 := 1

def mcConfirm   : UInt8 := 0
def mcNoconfirm : UInt8 := 1
def mcAck       : UInt8 := 2

def mcMessageInit (version messageType code : UInt8) (messageId : UInt16) (token : McBuffer)
    (options : Option McOptionsList) (payload : Option McBuffer) : McMessage where
  header   := mcHeaderCreate version messageType token.nbytes code messageId
  token    := token
  options  := options
  payload  := payload
  fromAddr := none

def mcMessageConInit (code : UInt8) (messageId : UInt16) (token : McBuffer)
    (options : Option McOptionsList) (payload : Option McBuffer) : McMessage :=
  mcMessageInit messageVersion mcConfirm code messageId token options payload

def mcMessageNonInit (code : UInt8) (messageId : UInt16) (token : McBuffer)
    (options : Option McOptionsList) (payload : Option McBuffer) : McMessage :=
  mcMessageInit messageVersion mcNoconfirm code messageId token options payload

def mcMessageGetVersion (message : McMessage) : UInt8 := mcHeaderGetVersion message.header

def mcMessageGetType (message : McMessage) : UInt8 := mcHeaderGetMessageType message.header

/-- A null message is no ack. -/
def mcMessageIsAck (msg : Option McMessage) : Bool :=
  match msg with
  | none => false
  | some msg => mcAck == mcMessageGetType msg

def mcMessageIsConfirmable (msg : McMessage) : Bool := mcConfirm == mcMessageGetType msg

def mcMessageGetTokenLen (message : McMessage) : UInt8 := mcHeaderGetTokenLength message.header

def mcMessageGetCode (message : McMessage) : UInt8 := mcHeaderGetCode message.header

def mcMessageGetMessageId (message : McMessage) : UInt16 := mcHeaderGetMessageId message.header

/-! ## Section 2: Writing a message -/

/-- If there are payload bytes, one more for the payload marker. -/
def payloadBufferSize (payload : Option McBuffer) : UInt32 :=
  match payload with
  | none => 0
  | some payload => if payload.nbytes > 0 then 1 + payload.nbytes else 0

def mcMessageBufferSize (message : McMessage) : UInt32 :=
  4 + message.token.nbytes + mcOptionsListBufferSize message.options
    + payloadBufferSize message.payload

/-- The end of `mc_message_to_buffer`: the start of payload marker and the
    payload.  There is no test of its own for the marker's byte. -/
def payloadToBuffer (nbytes : UInt32) (payload : Option McBuffer) (bpos : UInt32) :
    Code UInt32 := do
  match payload with
  | none => return bpos
  | some payload =>
    if payload.nbytes > 0 then
      Prog.writeByte bpos.toNat 0xff
      let bpos := bpos + 1
      if ← mcBufferCopyTo nbytes bpos payload 0 payload.nbytes then
        return bpos + payload.nbytes
      else
        return 0
    else
      return bpos

/-- Returns the number of bytes written, or 0. -/
def mcMessageToBuffer (message : McMessage) (nbytes : UInt32) : Code UInt32 := do
  if mcMessageBufferSize message > nbytes then
    return 0
  else
    -- the header goes to the front without a test of its own
    Prog.writeBytes 0 (image32 (msSwapU32 message.header))
    let bpos := 4
    if ← mcBufferCopyTo nbytes bpos message.token 0 message.token.nbytes then
      let bpos := bpos + message.token.nbytes
      let (ok, bpos) ← mcOptionsListToBuffer message.options nbytes bpos
      if ok then payloadToBuffer nbytes message.payload bpos else return 0
    else
      return 0

/-! ## Section 3: Reading a message -/

/-- The end of `mc_message_from_buffer`: the marker and the payload.  The
    number of remaining bytes is an unsigned difference.  A single byte
    left over is not looked at. -/
def payloadFromBuffer (nbytes bpos : UInt32) :
    Code (Option (Option McBuffer) × UInt32) := do
  let remaining := nbytes - bpos
  if remaining > 1 then
    let marker ← Prog.readByte bpos.toNat
    if marker ≠ 0xff then
      return (none, bpos)
    else
      let bpos := bpos + 1
      -- a marker always has at least one byte after it here
      let pllen := remaining - 1
      let payload ← mcBufferCopyFrom ⟨pllen, ofList []⟩ 0 nbytes bpos pllen
      match payload with
      | none => return (none, bpos)
      | some payload => return (some (some payload), bpos + pllen)
  else
    return (some none, bpos)

/-- Reads into a message fresh from `mc_message_alloc`; `none` is the null
    pointer the source returns for a buffer it rejects. -/
def mcMessageFromBuffer (qsort : Qsort McOption) (nbytes bpos : UInt32) :
    Code (Option McMessage × UInt32) := do
  -- must have enough bytes for the header
  if nbytes < 4 then
    return (none, bpos)
  else
    let (word, bpos) ← mcBufferNextUint32 bpos
    let header := msSwapU32 word
    let tklen := (mcHeaderGetTokenLength header).toUInt32
    let (tkdata, bpos) := mcBufferNextPtr nbytes tklen bpos
    let token ← msCopyUint8 tklen tkdata
    let (options, bpos) ← mcOptionsListFromBuffer qsort nbytes bpos
    let (payload, bpos) ← payloadFromBuffer nbytes bpos
    match payload with
    | none => return (none, bpos)
    | some payload =>
      return (some ⟨header, ⟨tklen, ofList token⟩, options, payload, none⟩, bpos)

/-! ## Section 4: The bytes of a message -/

/-- The marker and the payload; nothing for an empty payload. -/
def payloadBytes (payload : Option McBuffer) : List UInt8 :=
  if bytesOf payload = [] then [] else 0xff :: bytesOf payload

/-- Header, token, options, payload. -/
def messageBytes (message : McMessage) : List UInt8 :=
  image32 (msSwapU32 message.header) ++
    (message.token.toList ++ (listBytes message.options ++ payloadBytes message.payload))

theorem payloadBytes_of_pos {payload : McBuffer} (h : payload.nbytes > 0) :
    payloadBytes (some payload) = 0xff :: payload.toList := by
  have hne : payload.toList ≠ [] := fun he => by
    have hlen := payload.toList_length
    have hpos := UInt32.lt_iff_toNat_lt.mp h
    rw [he] at hlen
    simp only [List.length_nil, UInt32.toNat_zero] at hlen hpos
    omega
  rw [payloadBytes, bytesOf_some, if_neg hne]

theorem payloadBytes_of_zero {payload : McBuffer} (h : ¬ payload.nbytes > 0) :
    payloadBytes (some payload) = [] := by
  have he : payload.toList = [] := by
    apply List.eq_nil_of_length_eq_zero
    rw [payload.toList_length]
    have := mt UInt32.lt_iff_toNat_lt.mpr h
    simp only [UInt32.toNat_zero] at this
    omega
  rw [payloadBytes, bytesOf_some, if_pos he]

theorem payloadBufferSize_eq (payload : Option McBuffer) :
    payloadBufferSize payload = UInt32.ofNat (payloadBytes payload).length := by
  cases payload with
  | none => rfl
  | some payload =>
    by_cases h : payload.nbytes > 0
    · rw [payloadBytes_of_pos h, payloadBufferSize, if_pos h, List.length_cons,
        payload.toList_length, UInt32.ofNat_add, UInt32.ofNat_toNat, UInt32.add_comm]
      rfl
    · rw [payloadBytes_of_zero h, payloadBufferSize, if_neg h]
      rfl

theorem messageBytes_length (message : McMessage) : (messageBytes message).length =
    4 + (message.token.nbytes.toNat +
      ((listBytes message.options).length + (payloadBytes message.payload).length)) := by
  rw [messageBytes, List.length_append, List.length_append, List.length_append, image32_length,
    McBuffer.toList_length]

/-- The size function counts the bytes of the message, as a `uint32_t`. -/
theorem mcMessageBufferSize_eq {message : McMessage} (hlist : ListEncodable message.options) :
    mcMessageBufferSize message = UInt32.ofNat (messageBytes message).length := by
  rw [mcMessageBufferSize, mcOptionsListBufferSize_eq hlist, payloadBufferSize_eq, messageBytes]
  simp only [List.length_append, image32_length, UInt32.ofNat_add, message.token.toList_length,
    UInt32.ofNat_toNat, UInt32.add_assoc]
  rfl

/-! ## Section 5: What the encoder writes -/

/-- An encoder whose bytes fit writes them all. -/
theorem Emits.fits {nbytes p : UInt32} {x : UInt32 → Code (Bool × UInt32)} {bs : List UInt8}
    (hx : Emits nbytes x bs) (hfit : p.toNat + bs.length ≤ nbytes.toNat) (m : Mem) :
    wp (encoderMode nbytes) (x p)
      (fun r m' => r.1 = true ∧ r.2.toNat = p.toNat + bs.length ∧ m' = blit m p.toNat bs) m := by
  apply wp_mono ?_ (hx p m (by omega))
  intro r m' h
  obtain ⟨k, _, _, hpos, hm, hok⟩ := h
  cases hr : r.1 with
  | true =>
    rw [hr, if_pos rfl] at hok
    subst hok
    rw [List.take_length] at hm
    exact ⟨rfl, hpos, hm⟩
  | false =>
    rw [hr] at hok
    simp only [Bool.false_eq_true, if_false] at hok
    omega

theorem mcBufferCopyTo_fits {nbytes p : UInt32} (src : McBuffer)
    (hfit : p.toNat + src.nbytes.toNat ≤ nbytes.toNat) (m : Mem) :
    wp (encoderMode nbytes) (mcBufferCopyTo nbytes p src 0 src.nbytes)
      (fun r m' => r = true ∧ m' = blit m p.toNat src.toList) m := by
  have hroom : ¬ nbytes - p < src.nbytes := by
    rw [UInt32.lt_iff_toNat_lt, position_room (by omega)]
    omega
  have hsrc : ¬ src.nbytes - 0 < src.nbytes := by
    rw [UInt32.sub_zero]
    exact UInt32.lt_irrefl _
  have hfits : copyFits nbytes p src.nbytes 0 src.nbytes = true := by
    rw [copyFits, if_neg hroom, if_neg hsrc]
  unfold mcBufferCopyTo
  rw [if_pos hfits, wp_bind, wp_writeBytes, wp_pure]
  refine ⟨fun i _ hi => show i < nbytes.toNat from ?_, rfl, rfl⟩
  rw [slice_length] at hi
  omega

theorem payloadToBuffer_fits {nbytes p : UInt32} (payload : Option McBuffer)
    (hfit : p.toNat + (payloadBytes payload).length ≤ nbytes.toNat) (m : Mem) :
    wp (encoderMode nbytes) (payloadToBuffer nbytes payload p)
      (fun r m' => r.toNat = p.toNat + (payloadBytes payload).length ∧
        m' = blit m p.toNat (payloadBytes payload)) m := by
  unfold payloadToBuffer
  cases payload with
  | none => exact ⟨rfl, rfl⟩
  | some payload =>
    by_cases h : payload.nbytes > 0
    · rw [payloadBytes_of_pos h, List.length_cons, payload.toList_length] at hfit ⊢
      have hmark := position_succ (show p.toNat < nbytes.toNat by omega)
      simp only [if_pos h, wp_bind, wp_writeByte]
      -- the marker's byte is counted in what fits
      refine ⟨show p.toNat < nbytes.toNat by omega, ?_⟩
      apply wp_mono ?_ (mcBufferCopyTo_fits (p := p + 1) payload (by omega) _)
      intro r m' hr
      obtain ⟨rfl, rfl⟩ := hr
      rw [if_pos rfl, wp_pure, hmark]
      refine ⟨?_, rfl⟩
      rw [position_add nbytes (by omega), hmark]
      omega
    · rw [payloadBytes_of_zero h] at hfit ⊢
      simp only [if_neg h]
      exact ⟨rfl, rfl⟩

/-- What the encoder writes for a message of any size: the token length and
    the lengths of the values are cut to their fields. -/
def writtenBytes (message : McMessage) : List UInt8 :=
  image32 (msSwapU32 message.header) ++
    (message.token.toList ++
      (writtenOptions 0 (listOptions message.options) ++ payloadBytes message.payload))

theorem writtenBytes_eq {message : McMessage} (hlist : ListEncodable message.options) :
    writtenBytes message = messageBytes message := by
  rw [writtenBytes, messageBytes, writtenOptions_list hlist]

theorem writtenBytes_length (message : McMessage) : (writtenBytes message).length =
    4 + (message.token.nbytes.toNat +
      ((writtenOptions 0 (listOptions message.options)).length +
        (payloadBytes message.payload).length)) := by
  rw [writtenBytes, List.length_append, List.length_append, List.length_append, image32_length,
    McBuffer.toList_length]

/-- Bytes that fit are all written. -/
theorem mcMessageToBuffer_fits {message : McMessage} {nbytes : UInt32}
    (htest : ¬ mcMessageBufferSize message > nbytes)
    (hfit : (writtenBytes message).length ≤ nbytes.toNat) (m : Mem) :
    wp (encoderMode nbytes) (mcMessageToBuffer message nbytes)
      (fun r m' => r.toNat = (writtenBytes message).length ∧
        m' = blit m 0 (writtenBytes message)) m := by
  have htok := message.token.toList_length
  have h4 : (4 : UInt32).toNat = 4 := rfl
  rw [writtenBytes_length] at hfit
  unfold mcMessageToBuffer
  rw [if_neg htest, wp_bind, wp_writeBytes]
  refine ⟨fun i _ hi => show i < nbytes.toNat from ?_, ?_⟩
  · rw [image32_length] at hi
    omega
  rw [wp_bind]
  apply wp_mono ?_ (mcBufferCopyTo_fits message.token (by omega) _)
  intro r m' hr
  obtain ⟨rfl, rfl⟩ := hr
  -- the position after the token, then the one after the options
  have hpos : (4 + message.token.nbytes).toNat = 4 + message.token.nbytes.toNat :=
    position_add (p := 4) nbytes (by omega)
  rw [if_pos rfl, wp_bind]
  apply wp_mono ?_ ((mcOptionsListToBuffer_emits nbytes message.options).fits (by omega) _)
  intro r m' hr
  obtain ⟨ok, p⟩ := r
  obtain ⟨hok, hp, rfl⟩ := hr
  simp only at hok hp
  simp only [hok, if_true]
  apply wp_mono ?_ (payloadToBuffer_fits (p := p) message.payload (by omega) _)
  intro r m' hr
  obtain ⟨hr, rfl⟩ := hr
  -- four stretches one after the other are one stretch
  constructor
  · rw [writtenBytes_length]
    omega
  · rw [writtenBytes, blit_append, blit_append, blit_append, hp, hpos, htok]
    rfl

/-- The encoder writes exactly the bytes of the message. -/
theorem mcMessageToBuffer_writes {message : McMessage} {nbytes : UInt32}
    (hlist : ListEncodable message.options)
    (hfit : (messageBytes message).length ≤ nbytes.toNat) (m : Mem) :
    wp (encoderMode nbytes) (mcMessageToBuffer message nbytes)
      (fun r m' => r.toNat = (messageBytes message).length ∧
        m' = blit m 0 (messageBytes message)) m := by
  have hn := nbytes.toNat_lt
  have hsize : (mcMessageBufferSize message).toNat = (messageBytes message).length := by
    rw [mcMessageBufferSize_eq hlist, UInt32.toNat_ofNat']
    exact Nat.mod_eq_of_lt (by omega)
  -- the size the source computes is the true one, so its test lets the message pass
  have htest : ¬ mcMessageBufferSize message > nbytes := by
    show ¬ nbytes < mcMessageBufferSize message
    rw [UInt32.lt_iff_toNat_lt, hsize]
    omega
  rw [← writtenBytes_eq hlist] at hfit ⊢
  exact mcMessageToBuffer_fits htest hfit m

end Mcoap
