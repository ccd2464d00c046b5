import Mcoap.Parser
import Mcoap.Delivery
import Mcoap.Receive
import Mcoap.SendOutcome

/-! # Which operations return

    What an endpoint does with a datagram, and when an operation does not
    come back.

    * `recv_parsed`: a receive is the parser, and a look-up in the queue for
      an ack;
    * `returns_iff`: in every state that a run leads to, an operation
      returns exactly when its message fits, or its datagram is parsed and
      is no ack of an id that is not queued.

    The datagrams are those that UDP can carry, without a 4-bit part 14 in
    a header that is met. -/

namespace Mcoap

open ByteMem ByteProg StableSort DList Runs

/-! ## Section 1: The first half of a receive -/

/-- What of a datagram gets into the read buffer. -/
def received (endpt : Endpoint) (bytes : List UInt8) : List UInt8 :=
  bytes.take endpt.rdbuffer.nbytes.toNat

/-- What a datagram says to this endpoint. -/
def parsedBy (endpt : Endpoint) (bytes : List UInt8) : Option Parsed :=
  parseMessage (ofList (received endpt bytes)) (received endpt bytes).length

/-- The decoder finds the extension bytes that it reads. -/
def FindsBytes (endpt : Endpoint) (bytes : List UInt8) : Prop :=
  ¬ RunsOut (ofList (received endpt bytes)) (received endpt bytes).length
    endpt.rdbuffer.nbytes.toNat

/-- No header that is met has a 4-bit part 14, and the datagram is no longer
    than UDP allows. -/
def Carried (endpt : Endpoint) (bytes : List UInt8) : Prop :=
  bytes.length ≤ 65535 ∧
    ShortDatagram (ofList (received endpt bytes)) (received endpt bytes).length

section

variable {qsort : Qsort McOption} {endpt : Endpoint} {bytes : List UInt8} {source : SockAddr}

/-- A program that has returned has stayed in its block. -/
theorem runIn_can {α : Type} {x : Code α} {block block' : McBuffer} {host host' : Host} {value : α}
    (h : runIn x block host = .ok (value, block', host')) :
    can (fun i => i < block.nbytes.toNat) x (fun a _ => a = value) block.bytes := by
  unfold runIn at h
  simp only at h
  split at h
  · rename_i hinside
    split at h
    · cases h
    · rename_i a hvalue
      rw [can_iff_run]
      refine ⟨host.junk, fun i hi => hinside _ hi, a, hvalue, ?_⟩
      cases h
      rfl
  · cases h

/-- The buffer after the datagram has come in, and what it says. -/
theorem received_buffer (hne : received endpt bytes ≠ []) :
    mnSocketRecvfrom (.datagram bytes source) endpt.rdbuffer = (mnDone, some source,
      ⟨UInt32.ofNat (received endpt bytes).length,
        blit endpt.rdbuffer.bytes 0 (received endpt bytes)⟩) := by
  unfold received at hne ⊢
  simp only [mnSocketRecvfrom, if_neg hne]

/-- The read buffer holds the datagram. -/
theorem received_agree (m : Mem) (bs : List UInt8) : ∀ i, i < bs.length →
    blit m 0 bs i = ofList bs i := by
  intro i hi
  exact (holds_ofList bs).agree (holds_blit m 0 bs) i (Nat.zero_le i) (by omega)

theorem received_length (endpt : Endpoint) (bytes : List UInt8) :
    (UInt32.ofNat (received endpt bytes).length).toNat = (received endpt bytes).length ∧
      (received endpt bytes).length ≤ endpt.rdbuffer.nbytes.toNat := by
  have hn := endpt.rdbuffer.nbytes.toNat_lt
  have hle : (received endpt bytes).length ≤ endpt.rdbuffer.nbytes.toNat := List.length_take_le _ _
  exact ⟨ofNat32_toNat (by omega), hle⟩

/-- Only a datagram with its whole token is parsed. -/
theorem parseMessage_token {m : Mem} {n : Nat} {parsed : Parsed}
    (h : parseMessage m n = some parsed) : 4 + tokenLengthAt m ≤ n := by
  unfold parseMessage at h
  by_contra hlong
  rw [if_pos (Nat.lt_of_not_le hlong)] at h
  exact absurd h (by simp)

/-- A datagram that is parsed is decoded. -/
theorem recvMessage_parsed (hq : qsort.Stable) (hcar : Carried endpt bytes)
    (hfinds : FindsBytes endpt bytes) {parsed : Parsed} (hparse : parsedBy endpt bytes = some parsed) :
    ∃ message endpt', recvMessage qsort (.datagram bytes source) endpt =
        .ok (mnDone, some message, endpt') ∧
      message.Parses parsed ∧ message.fromAddr = some source ∧ RecvFrame endpt endpt' := by
  obtain ⟨hcount, hroom⟩ := received_length endpt bytes
  have htoken := parseMessage_token hparse
  have hne : received endpt bytes ≠ [] := by
    intro hnil
    rw [hnil, List.length_nil] at htoken
    omega
  have hlen : (received endpt bytes).length ≤ 65535 :=
    (List.length_take_le' _ _).trans hcar.1
  have hagree := received_agree endpt.rdbuffer.bytes (received endpt bytes)
  have hagree' := fun i hi => (hagree i hi).symm
  have hdecode := @mcMessageFromBuffer_parses qsort (UInt32.ofNat (received endpt bytes).length)
    (blit endpt.rdbuffer.bytes 0 (received endpt bytes)) endpt.rdbuffer.nbytes.toNat hq
    (noWrap_of_small (by rw [hcount]; exact hlen)) (by rw [hcount]; exact hroom)
    (by rw [hcount]; exact hcar.2.congr hagree)
    (Or.inr (by rw [hcount, tokenLengthAt_congr hagree (by omega)]; exact htoken))
    (by rw [hcount]; exact fun hout => hfinds (hout.congr hagree'))
  rw [hcount, parseMessage_congr hagree] at hdecode
  obtain ⟨⟨msg, pos⟩, block, host, hrun, hgives⟩ := @runIn_returns _ _ _ _
    ⟨endpt.rdbuffer.nbytes, blit endpt.rdbuffer.bytes 0 (received endpt bytes)⟩ hdecode
    (fun _ => trivial) (fun _ hi => hi) (fun _ hw => absurd hw id) id
    (mnTimeoutMarkstart endpt.tmout endpt.host).2
  rw [parsedBy] at hparse
  rw [hparse] at hgives
  obtain ⟨message, rfl, hparses⟩ := hgives
  have hcode : recvMessage qsort (.datagram bytes source) endpt =
      .ok (mnDone, some { message with fromAddr := some (mnSockaddrCopy source) },
        { endpt with
          tmout := (mnTimeoutMarkstart endpt.tmout endpt.host).1
          rdbuffer := ⟨endpt.rdbuffer.nbytes, block⟩
          host := host }) := by
    simp only [recvMessage, received_buffer hne]
    simp only [ne_eq, not_true_eq_false, if_false]
    show (runIn _ _ _ >>= _) = _
    rw [hrun]
    rfl
  refine ⟨_, _, hcode, ?_, rfl, recvMessage_recvFrame hcode⟩
  exact ⟨hparses.header, hparses.token, hparses.options, hparses.payload, hparses.noOptions,
    hparses.noPayload⟩

/-- A datagram that is decoded is parsed. -/
theorem recvMessage_returns (hq : qsort.Stable) (hcar : Carried endpt bytes)
    (hne : received endpt bytes ≠ []) {r : Int × Option McMessage × Endpoint}
    (h : recvMessage qsort (.datagram bytes source) endpt = .ok r) :
    FindsBytes endpt bytes ∧ ∃ parsed, parsedBy endpt bytes = some parsed := by
  obtain ⟨hcount, hroom⟩ := received_length endpt bytes
  have hn := endpt.rdbuffer.nbytes.toNat_lt
  have hlen : (received endpt bytes).length ≤ 65535 :=
    (List.length_take_le' _ _).trans hcar.1
  have hwrap : NoWrap (UInt32.ofNat (received endpt bytes).length) :=
    noWrap_of_small (by rw [hcount]; exact hlen)
  have hagree := received_agree endpt.rdbuffer.bytes (received endpt bytes)
  have hagree' := fun i hi => (hagree i hi).symm
  have hpos := List.length_pos_of_ne_nil hne
  -- the run that has returned gave a message
  simp only [recvMessage, received_buffer hne, ne_eq, not_true_eq_false, if_false] at h
  obtain ⟨⟨⟨msg, bpos⟩, block, host⟩, hrun, hrest⟩ := bind_eq_ok.mp h
  have hsome : msg ≠ none := by
    rintro rfl
    exact absurd hrest (by simp)
  have hgot (a : Option McMessage × UInt32) (_ : Mem) (ha : a = (msg, bpos)) : a.1 ≠ none := by
    rw [ha]
    exact hsome
  have hcan := can_mono hgot (runIn_can hrun)
  obtain ⟨htoken, hfinds⟩ := mcMessageFromBuffer_unread hwrap hn.le hcan
  rw [hcount] at htoken hfinds
  rw [tokenLengthAt_congr hagree hpos] at htoken
  have hfinds' : FindsBytes endpt bytes := fun hout => hfinds (hout.congr hagree)
  have hdecode := @mcMessageFromBuffer_parses qsort _ _ endpt.rdbuffer.nbytes.toNat hq hwrap
    (by rw [hcount]; exact hroom) (by rw [hcount]; exact hcar.2.congr hagree)
    (Or.inr (by rw [hcount, tokenLengthAt_congr hagree hpos]; exact htoken))
    (by rw [hcount]; exact hfinds)
  rw [hcount, parseMessage_congr hagree] at hdecode
  obtain ⟨_, _, hone, hgives⟩ := can_wp (fun _ => trivial) (runIn_can hrun) hdecode
  refine ⟨hfinds', ?_⟩
  rw [hone] at hgives
  rcases hparse : parsedBy endpt bytes with _ | parsed
  · rw [parsedBy] at hparse
    rw [hparse] at hgives
    exact absurd hgives hsome
  · exact ⟨parsed, rfl⟩

end

/-! ## Section 2: What is received -/

/-- An ack, by its header. -/
def Parsed.IsAck (parsed : Parsed) : Prop := mcHeaderGetMessageType parsed.header = mcAck

def Parsed.msgid (parsed : Parsed) : UInt16 := mcHeaderGetMessageId parsed.header

/-- What a receive does: the message is what the datagram says; an ack
    removes the first entry with its id, and calls that entry's result
    function with `MN_DONE`; anything else leaves the queue alone. -/
structure Received (endpt endpt' : Endpoint) (l : Nodes Pending) (parsed : Parsed)
    (message : McMessage) (source : SockAddr) : Prop where
  parses : message.Parses parsed
  source : message.fromAddr = some source
  plain  : ¬ parsed.IsAck → endpt'.confirmq = endpt.confirmq ∧ endpt'.trace = endpt.trace
  ack    : parsed.IsAck → ∃ xs a v ys, l = xs ++ (a, v) :: ys ∧ v.msgid = parsed.msgid ∧
    (∀ x ∈ xs, x.2.msgid ≠ parsed.msgid) ∧ endpt'.confirmq.Reps (xs ++ ys) ∧
    endpt'.trace = endpt.trace ++ (resultOf a v mnDone ++ [.removed a .recv])

/-- A receive comes back from this datagram. -/
def RecvReturns (endpt : Endpoint) (l : Nodes Pending) (bytes : List UInt8) : Prop :=
  received endpt bytes = [] ∨
    (FindsBytes endpt bytes ∧ ∃ parsed, parsedBy endpt bytes = some parsed ∧
      (parsed.IsAck → ∃ x ∈ l, x.2.msgid = parsed.msgid))

section

variable {qsort : Qsort McOption} {endpt : Endpoint} {bytes : List UInt8} {source : SockAddr}
  {l : Nodes Pending}

theorem McMessage.Parses.isAck {message : McMessage} {parsed : Parsed} (h : message.Parses parsed) :
    mcMessageIsAck (some message) = true ↔ parsed.IsAck := by
  rw [mcMessageIsAck, mcMessageGetType, h.header, beq_iff_eq, Parsed.IsAck]
  exact eq_comm

theorem McMessage.Parses.msgid {message : McMessage} {parsed : Parsed} (h : message.Parses parsed) :
    mcMessageGetMessageId message = parsed.msgid := by
  rw [mcMessageGetMessageId, h.header, Parsed.msgid]

/-- Nothing of the datagram gets into the buffer. -/
theorem recv_empty (hempty : received endpt bytes = []) : ∃ endpt',
    mcEndptUdpRecv qsort (.datagram bytes source) endpt = .ok (none, endpt') ∧
    RecvFrame endpt endpt' := by
  have hcode : recvMessage qsort (.datagram bytes source) endpt =
      .ok (mnClosed, none, { endpt with
        tmout := (mnTimeoutMarkstart endpt.tmout endpt.host).1
        rdbuffer := ⟨endpt.rdbuffer.nbytes, endpt.rdbuffer.bytes⟩
        host := (mnTimeoutMarkstart endpt.tmout endpt.host).2 }) := by
    unfold received at hempty
    simp only [recvMessage, mnSocketRecvfrom, if_pos hempty]
    rfl
  refine ⟨_, ?_, recvMessage_recvFrame hcode⟩
  unfold mcEndptUdpRecv
  rw [hcode]
  rfl

/-- A datagram that is parsed, and is no ack of an id that is not queued, is
    received. -/
theorem recv_received (hq : qsort.Stable) (hreps : endpt.confirmq.Reps l)
    (hcar : Carried endpt bytes) (hfinds : FindsBytes endpt bytes) {parsed : Parsed}
    (hparse : parsedBy endpt bytes = some parsed)
    (hqueued : parsed.IsAck → ∃ x ∈ l, x.2.msgid = parsed.msgid) :
    ∃ message endpt', mcEndptUdpRecv qsort (.datagram bytes source) endpt =
        .ok (some message, endpt') ∧ Received endpt endpt' l parsed message source := by
  obtain ⟨message, endpt1, hdecode, hparses, hsource, hframe⟩ :=
    @recvMessage_parsed qsort endpt bytes source hq hcar hfinds parsed hparse
  by_cases hack : parsed.IsAck
  · obtain ⟨x, hx, hid⟩ := hqueued hack
    have hack' := hparses.isAck.mpr hack
    rcases hfound : findId parsed.msgid l with _ | a
    · exact absurd hid (findId_none.mp hfound x hx)
    · obtain ⟨xs, v, ys, hl, hv, hxs⟩ := findId_some hfound
      have hv' := hv.trans hparses.msgid.symm
      have hxs' : ∀ x ∈ xs, x.2.msgid ≠ mcMessageGetMessageId message := by
        rw [hparses.msgid]
        exact hxs
      obtain ⟨endpt', hrecv, hreps', htrace⟩ := ack_found hreps hdecode hack' hl hv' hxs'
      exact ⟨message, endpt', hrecv, hparses, hsource, fun hno => absurd hack hno,
        fun _ => ⟨xs, a, v, ys, hl, hv, hxs, hreps', htrace⟩⟩
  · have hplain : mcMessageIsAck (some message) = false := by
      rw [← Bool.not_eq_true]
      exact mt hparses.isAck.mp hack
    refine ⟨message, endpt1, ?_, hparses, hsource, fun _ => ⟨hframe.confirmq, hframe.trace⟩,
      fun hyes => absurd hyes hack⟩
    unfold mcEndptUdpRecv
    rw [hdecode]
    show (if mcMessageIsAck (some message) = true then _ else _) = _
    rw [hplain]
    rfl

/-- From nothing else does a receive come back. -/
theorem recv_returns_iff (hq : qsort.Stable) (hreps : endpt.confirmq.Reps l)
    (hcar : Carried endpt bytes) :
    (∃ r, mcEndptUdpRecv qsort (.datagram bytes source) endpt = .ok r) ↔
      RecvReturns endpt l bytes := by
  constructor
  · rintro ⟨r, hrecv⟩
    by_cases hempty : received endpt bytes = []
    · exact Or.inl hempty
    · obtain ⟨⟨err, msg, endpt1⟩, hdecode, hrest⟩ := bind_eq_ok.mp hrecv
      obtain ⟨hfinds, parsed, hparse⟩ := recvMessage_returns hq hcar hempty hdecode
      refine Or.inr ⟨hfinds, parsed, hparse, fun hack => ?_⟩
      obtain ⟨message, endpt2, hdecode', hparses, _⟩ :=
        @recvMessage_parsed qsort endpt bytes source hq hcar hfinds parsed hparse
      by_contra hnone
      have hunmatched : ∀ x ∈ l, x.2.msgid ≠ mcMessageGetMessageId message := by
        intro x hx hid
        exact hnone ⟨x, hx, hid.trans hparses.msgid⟩
      rw [ack_unmatched hreps hdecode' (hparses.isAck.mpr hack) hunmatched] at hrecv
      exact absurd hrecv (by simp)
  · rintro (hempty | ⟨hfinds, parsed, hparse, hqueued⟩)
    · obtain ⟨endpt', hrecv, _⟩ := @recv_empty qsort endpt bytes source hempty
      exact ⟨_, hrecv⟩
    · obtain ⟨message, endpt', hrecv, _⟩ :=
        @recv_received qsort endpt bytes source l hq hreps hcar hfinds parsed hparse hqueued
      exact ⟨_, hrecv⟩

end

/-- In every state that a run leads to, whatever a receive gives back is
    what the parser makes of the datagram, and the queue has changed as an
    ack demands. -/
theorem recv_parsed {qsort : Qsort McOption} {rdsize wrsize : UInt32} {host : Host}
    {ops : List EndpointOp} {endpt endpt' : Endpoint} {bytes : List UInt8} {source : SockAddr}
    {msg : Option McMessage} (hq : qsort.Stable)
    (hrun : Run (endptStep qsort) (mcEndptUdpInit rdsize wrsize host) ops endpt)
    (hcar : Carried endpt bytes)
    (hrecv : mcEndptUdpRecv qsort (.datagram bytes source) endpt = .ok (msg, endpt')) :
    ∃ l, endpt.confirmq.Reps l ∧
      ((received endpt bytes = [] ∧ msg = none ∧ RecvFrame endpt endpt') ∨
        ∃ parsed message, parsedBy endpt bytes = some parsed ∧ msg = some message ∧
          Received endpt endpt' l parsed message source) := by
  obtain ⟨s, hshows, _⟩ := reachable_shows hrun
  refine ⟨s.entries, hshows.reps, ?_⟩
  rcases (recv_returns_iff hq hshows.reps hcar).mp ⟨_, hrecv⟩ with
    hempty | ⟨hfinds, parsed, hparse, hqueued⟩
  · obtain ⟨endpt'', hrecv', hframe⟩ := @recv_empty qsort endpt bytes source hempty
    rw [hrecv] at hrecv'
    cases hrecv'
    exact Or.inl ⟨hempty, rfl, hframe⟩
  · obtain ⟨message, endpt'', hrecv', hreceived⟩ := @recv_received qsort endpt bytes source
      s.entries hq hshows.reps hcar hfinds parsed hparse hqueued
    rw [hrecv] at hrecv'
    cases hrecv'
    exact Or.inr ⟨parsed, message, hparse, rfl, hreceived⟩

/-- An ack of the message 7, with a response in it. -/
def response : List UInt8 := [0x60, 0x45, 0, 7, 0xc1, 0x32, 0xff, 0x68]

theorem response_short : ShortDatagram (ofList response) 8 := by
  intro k q hreach hlt hmark
  cases hreach with
  | here p => decide
  | option _ _ _ _ hrest =>
    -- behind the only option stands the marker
    have hend : optionEnd (ofList response) (4 + tokenLengthAt (ofList response)) = 6 := by decide
    rw [hend] at hrest
    cases hrest with
    | here p => exact absurd rfl hmark
    | option _ hmark' => exact absurd rfl hmark'

theorem response_parsed : parseMessage (ofList response) 8 =
    some ⟨0x60450007, [], [⟨12, [0x32]⟩], [0x68]⟩ := by
  have hoptions : parseOptions (ofList response) 8 0 4 = some ([⟨12, [0x32]⟩], 6) := by
    rw [parseOptions_option 0 (by decide) (by decide) (by decide) (by decide)]
    have hstop : AtStop (ofList response) 8 6 := Or.inr ⟨by decide, rfl⟩
    exact congrArg _ (parseOptions_stop hstop 12)
  have hstart : 4 + tokenLengthAt (ofList response) = 4 := by decide
  rw [parseMessage, hstart, hoptions]
  rfl

/-- The message it answers is queued. -/
theorem response_queued : ∃ endpt l,
    mcEndptUdpSend (mcEndptUdpInit 64 64 stillHost) peer ping 9 = .ok (mnDone, endpt) ∧
    endpt.confirmq.Reps l ∧ (∃ x ∈ l, x.2.msgid = 7) ∧ received endpt response = response ∧
    endpt.rdbuffer.nbytes = 64 := by
  obtain ⟨endpt, hsend, hreceived, hsize⟩ : ∃ endpt,
      mcEndptUdpSend (mcEndptUdpInit 64 64 stillHost) peer ping 9 = .ok (mnDone, endpt) ∧
      received endpt response = response ∧ endpt.rdbuffer.nbytes = 64 := ⟨_, rfl, rfl, rfl⟩
  obtain ⟨v, hfresh, hfirst⟩ :=
    (mcEndptUdpSend_spec (mcEndptUdpInit_shows 64 64 stillHost).reps hsend).con rfl
  obtain ⟨hreps, _⟩ := hfirst.done rfl
  exact ⟨endpt, _, hsend, hreps, ⟨_, List.mem_append_right _ List.mem_cons_self, hfresh.msgid⟩,
    hreceived, hsize⟩

theorem response_carried {endpt : Endpoint} (h : received endpt response = response) :
    Carried endpt response := by
  refine ⟨by decide, ?_⟩
  rw [h]
  exact response_short

theorem response_received {endpt : Endpoint} {l : Nodes Pending} (hreps : endpt.confirmq.Reps l)
    (hqueued : ∃ x ∈ l, x.2.msgid = 7) (htaken : received endpt response = response)
    (hsize : endpt.rdbuffer.nbytes = 64) : ∃ message endpt',
      mcEndptUdpRecv (insertion McOption) (.datagram response peer) endpt =
        .ok (some message, endpt') := by
  have hparse : parsedBy endpt response = some ⟨0x60450007, [], [⟨12, [0x32]⟩], [0x68]⟩ := by
    rw [parsedBy, htaken]
    exact response_parsed
  have hfinds : FindsBytes endpt response := by
    rw [FindsBytes, htaken, hsize]
    exact not_runsOut (by decide)
  obtain ⟨message, endpt', hrecv, _⟩ := @recv_received (insertion McOption) endpt response peer l
    (insertion_stable McOption) hreps (response_carried htaken) hfinds _ hparse fun _ => hqueued
  exact ⟨message, endpt', hrecv⟩

/-- The witness: the response to a message that was sent just before. -/
theorem recv_parsed_response :
    ∃ endpt endpt' msg,
      mcEndptUdpSend (mcEndptUdpInit 64 64 stillHost) peer ping 9 = .ok (mnDone, endpt) ∧
      mcEndptUdpRecv (insertion McOption) (.datagram response peer) endpt = .ok (msg, endpt') ∧
      ∃ l, endpt.confirmq.Reps l ∧
        ((received endpt response = [] ∧ msg = none ∧ RecvFrame endpt endpt') ∨
          ∃ parsed message, parsedBy endpt response = some parsed ∧ msg = some message ∧
            Received endpt endpt' l parsed message peer) := by
  obtain ⟨endpt, l, hsend, hreps, hqueued, htaken, hsize⟩ := response_queued
  obtain ⟨message, endpt', hrecv⟩ := response_received hreps hqueued htaken hsize
  exact ⟨endpt, endpt', some message, hsend, hrecv, recv_parsed (insertion_stable McOption)
    (run_ping hsend) (response_carried htaken) hrecv⟩

/-! ## Section 3: Every operation -/

/-- The arrivals that are considered. -/
def EndpointOp.Carried (endpt : Endpoint) : EndpointOp → Prop
  | .recv (.datagram bytes _) => Mcoap.Carried endpt bytes
  | _ => True

/-- The operation comes back. -/
def EndpointOp.Returns (endpt : Endpoint) (l : Nodes Pending) : EndpointOp → Prop
  | .send _ msg _ => ¬ LeavesBuffer msg endpt.wrbuffer.nbytes
  | .recv (.datagram bytes _) => RecvReturns endpt l bytes
  | .recv (.failed _ _) => True
  | .checkQueues | .nextid | .rand => True

/-- In every state that a run leads to: the next operation comes back unless
    it sends a message that the encoder writes past the buffer, or receives
    a datagram that is not parsed, or one whose bytes are not all there, or
    an ack of an id that is not queued. -/
theorem returns_iff {qsort : Qsort McOption} {rdsize wrsize : UInt32} {host : Host}
    {ops : List EndpointOp} {endpt : Endpoint} {op : EndpointOp} (hq : qsort.Stable)
    (hrun : Run (endptStep qsort) (mcEndptUdpInit rdsize wrsize host) ops endpt)
    (hcar : op.Carried endpt) :
    ∃ l, endpt.confirmq.Reps l ∧ ((∃ endpt', endptStep qsort endpt op endpt') ↔ op.Returns endpt l) := by
  obtain ⟨s, hshows, _⟩ := reachable_shows hrun
  refine ⟨s.entries, hshows.reps, ?_⟩
  cases op with
  | send toaddr msg resultfn =>
    rw [EndpointOp.Returns, ← mcEndptUdpSend_returns_iff hshows.reps toaddr msg resultfn]
    constructor
    · rintro ⟨endpt', hstep⟩
      obtain ⟨r, hsend, _⟩ := bind_eq_ok.mp hstep
      exact ⟨r, hsend⟩
    · rintro ⟨⟨err, endpt'⟩, hsend⟩
      exact ⟨endpt', bind_eq_ok.mpr ⟨_, hsend, rfl⟩⟩
  | recv arrival =>
    cases arrival with
    | failed err hne =>
      obtain ⟨endpt', hrecv, _⟩ := mcEndptUdpRecv_nothing qsort endpt hne
      exact ⟨fun _ => trivial, fun _ => ⟨endpt', bind_eq_ok.mpr ⟨_, hrecv, rfl⟩⟩⟩
    | datagram bytes source =>
      rw [EndpointOp.Returns, ← @recv_returns_iff qsort endpt bytes source _ hq hshows.reps hcar]
      constructor
      · rintro ⟨endpt', hstep⟩
        obtain ⟨r, hrecv, _⟩ := bind_eq_ok.mp hstep
        exact ⟨r, hrecv⟩
      · rintro ⟨⟨msg, endpt'⟩, hrecv⟩
        exact ⟨endpt', bind_eq_ok.mpr ⟨_, hrecv, rfl⟩⟩
  | checkQueues =>
    obtain ⟨endpt', hcheck, _⟩ := mcEndptUdpCheckQueues_spec hshows.reps
    exact ⟨fun _ => trivial, fun _ => ⟨endpt', hcheck⟩⟩
  | nextid => exact ⟨fun _ => trivial, fun _ => ⟨_, rfl⟩⟩
  | rand => exact ⟨fun _ => trivial, fun _ => ⟨_, rfl⟩⟩

/-- The witness: the same response. -/
theorem returns_iff_response :
    ∃ endpt, mcEndptUdpSend (mcEndptUdpInit 64 64 stillHost) peer ping 9 = .ok (mnDone, endpt) ∧
      ∃ l, endpt.confirmq.Reps l ∧
        ((∃ endpt', endptStep (insertion McOption) endpt (.recv (.datagram response peer)) endpt') ↔
          EndpointOp.Returns endpt l (.recv (.datagram response peer))) := by
  obtain ⟨endpt, _, hsend, _, _, htaken, _⟩ := response_queued
  have hcar : EndpointOp.Carried endpt (.recv (.datagram response peer)) := response_carried htaken
  exact ⟨endpt, hsend, returns_iff (insertion_stable McOption) (run_ping hsend) hcar⟩

end Mcoap
