import Mcoap.Reencoding
import Mcoap.UriRequests

/-! # Delivery

    A datagram that holds the bytes of a message, received by an endpoint.

    * `recvMessage_encoded`: the first half of `mc_endpt_udp_recv` gives the
      message back, and touches the read buffer and the clock only;
    * `mcEndptUdpRecv_plain`: so does the whole function if the message is
      no ack. -/

namespace Mcoap

open ByteMem ByteProg StableSort DList

/-- A message whose bytes can be written and read back. -/
structure McMessage.Sendable (message : McMessage) : Prop where
  token  : (mcHeaderGetTokenLength message.header).toNat = message.token.nbytes.toNat
  list   : ListEncodable message.options
  small  : Wire.Small 0 (wireOptions (listOptions message.options))

/-- What receiving and decoding leaves alone. -/
structure RecvFrame (endpt endpt' : Endpoint) : Prop where
  confirmq : endpt'.confirmq = endpt.confirmq
  nextid   : endpt'.nextid = endpt.nextid
  trace    : endpt'.trace = endpt.trace
  rdsize   : endpt'.rdbuffer.nbytes = endpt.rdbuffer.nbytes
  wrbuffer : endpt'.wrbuffer = endpt.wrbuffer

theorem recvMessage_recvFrame {qsort : Qsort McOption} {arrival : Arrival} {endpt endpt' : Endpoint}
    {err : Int} {msg : Option McMessage}
    (h : recvMessage qsort arrival endpt = .ok (err, msg, endpt')) : RecvFrame endpt endpt' := by
  obtain ⟨hqueue, hnextid, htrace, hsize, _⟩ := recvMessage_frame h
  refine ⟨hqueue, hnextid, htrace, hsize, ?_⟩
  unfold recvMessage at h
  simp only at h
  split at h
  · cases h
    rfl
  · obtain ⟨⟨⟨decoded, _⟩, block, host⟩, _, hrest⟩ := bind_eq_ok.mp h
    cases decoded with
    | none => exact absurd hrest (by simp)
    | some message =>
      cases hrest
      rfl

/-- The message that was sent, with the address of its sender. -/
structure McMessage.DeliveredFrom (message' message : McMessage) (source : SockAddr) : Prop where
  same     : message'.Same message
  source   : message'.fromAddr = some source
  options  : listOptions message.options = [] → message'.options = none
  payload  : bytesOf message.payload = [] → message'.payload = none

section

variable {qsort : Qsort McOption} {endpt : Endpoint} {message : McMessage} {source : SockAddr}

theorem messageBytes_ne_nil (message : McMessage) : messageBytes message ≠ [] := by
  intro hnil
  have hlen := messageBytes_length message
  rw [hnil, List.length_nil] at hlen
  omega

/-- Receiving the bytes of a message that fits into the read buffer. -/
theorem recvMessage_encoded (hq : qsort.Stable) (hsend : message.Sendable)
    (hfit : (messageBytes message).length ≤ endpt.rdbuffer.nbytes.toNat) :
    ∃ message' endpt', recvMessage qsort (.datagram (messageBytes message) source) endpt =
        .ok (mnDone, some message', endpt') ∧
      message'.DeliveredFrom message source ∧ RecvFrame endpt endpt' := by
  have htaken : (messageBytes message).take endpt.rdbuffer.nbytes.toNat = messageBytes message :=
    List.take_of_length_le hfit
  have hcount : (UInt32.ofNat (messageBytes message).length).toNat =
      (messageBytes message).length := by
    have hlt := endpt.rdbuffer.nbytes.toNat_lt
    exact ofNat32_toNat (by omega)
  -- the decoder stays inside the datagram, and so inside the read buffer
  have hdecode := mcMessageFromBuffer_encoded hq hsend.token hsend.list hsend.small
    (holds_blit endpt.rdbuffer.bytes 0 (messageBytes message)) hcount.symm
  obtain ⟨⟨r, pos⟩, bytes, host, hrun, _, _, message', hr, hsame, hoptions, hpayload⟩ :=
    @runIn_returns _ _ _ _
      ⟨endpt.rdbuffer.nbytes, blit endpt.rdbuffer.bytes 0 (messageBytes message)⟩ hdecode
      (fun _ => trivial) (fun i (hi : i < _) => by rw [hcount] at hi; exact hi.trans_le hfit)
      (fun _ hw => absurd hw id) id
      (mnTimeoutMarkstart endpt.tmout endpt.host).2
  cases hr
  have hcode : recvMessage qsort (.datagram (messageBytes message) source) endpt =
      .ok (mnDone, some { message' with fromAddr := some (mnSockaddrCopy source) },
        { endpt with
          tmout := (mnTimeoutMarkstart endpt.tmout endpt.host).1
          rdbuffer := ⟨endpt.rdbuffer.nbytes, bytes⟩
          host := host }) := by
    simp only [recvMessage, mnSocketRecvfrom, htaken, if_neg (messageBytes_ne_nil message)]
    simp only [ne_eq, not_true_eq_false, if_false]
    show (runIn _ _ _ >>= _) = _
    rw [hrun]
    rfl
  refine ⟨_, _, hcode, ⟨?_, rfl, hoptions, hpayload⟩, recvMessage_recvFrame hcode⟩
  exact ⟨hsame.header, hsame.token, hsame.options, hsame.payload⟩

/-- A message that is no ack is returned. -/
theorem mcEndptUdpRecv_plain (hq : qsort.Stable) (hsend : message.Sendable)
    (hfit : (messageBytes message).length ≤ endpt.rdbuffer.nbytes.toNat)
    (hack : mcMessageIsAck (some message) = false) :
    ∃ message' endpt', mcEndptUdpRecv qsort (.datagram (messageBytes message) source) endpt =
        .ok (some message', endpt') ∧
      message'.DeliveredFrom message source ∧ RecvFrame endpt endpt' := by
  obtain ⟨message', endpt', hdecode, hdelivered, hframe⟩ :=
    @recvMessage_encoded qsort endpt message source hq hsend hfit
  have hack' : mcMessageIsAck (some message') = false := by
    rw [mcMessageIsAck, mcMessageGetType] at hack ⊢
    rw [hdelivered.same.header]
    exact hack
  refine ⟨message', endpt', ?_, hdelivered, hframe⟩
  unfold mcEndptUdpRecv
  rw [hdecode]
  show (if mcMessageIsAck (some message') = true then _ else _) = _
  rw [hack']
  rfl

/-- Nothing arrives, or the socket fails. -/
theorem mcEndptUdpRecv_nothing (qsort : Qsort McOption) (endpt : Endpoint) {err : Int}
    (herr : err ≠ mnDone) : ∃ endpt',
      mcEndptUdpRecv qsort (.failed err herr) endpt = .ok (none, endpt') ∧
      RecvFrame endpt endpt' := by
  have hcode : recvMessage qsort (.failed err herr) endpt =
      .ok (err, none, { endpt with
        tmout := (mnTimeoutMarkstart endpt.tmout endpt.host).1
        rdbuffer := ⟨endpt.rdbuffer.nbytes, endpt.rdbuffer.bytes⟩
        host := (mnTimeoutMarkstart endpt.tmout endpt.host).2 }) := by
    simp only [recvMessage, mnSocketRecvfrom, ne_eq, herr, not_false_eq_true, if_true]
    rfl
  refine ⟨_, ?_, recvMessage_recvFrame hcode⟩
  unfold mcEndptUdpRecv
  rw [hcode]
  rfl

end

end Mcoap
