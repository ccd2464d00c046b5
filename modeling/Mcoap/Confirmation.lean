import Mathlib.Data.List.Pairwise
import Mcoap.MessageWritten
import Mcoap.PendingIds

/-! # Two endpoints and a network

    Two endpoints send each other requests and acks over a network that
    loses, repeats, delays and reorders datagrams, and makes none up.

    * `headerOf`: the header that a datagram starts with;
    * `PartyOp`, `netStep`: what an endpoint does, and what the network lets
      it receive;
    * `Honest`: what one endpoint's trace says about the datagrams it has
      sent: where they come from, and which ids they carry;
    * `no_false_confirmation`: a result function that is called with
      `MN_DONE` is called for a message that the other endpoint has
      received. -/

namespace Mcoap

open ByteMem ByteProg StableSort DList Runs

/-! ## Section 1: The header of a datagram -/

/-- The first four bytes, in network order. -/
def headerOf : List UInt8 → Option UInt32
  | b0 :: b1 :: b2 :: b3 :: _ => some (msSwapU32 (msWord32 b3 b2 b1 b0))
  | _ => none

/-- The header is in the first bytes that are read. -/
theorem headerOf_take {bytes : List UInt8} {n : Nat} {header : UInt32}
    (h : headerOf (bytes.take n) = some header) : headerOf bytes = some header := by
  rcases bytes with _ | ⟨b0, _ | ⟨b1, _ | ⟨b2, _ | ⟨b3, rest⟩⟩⟩⟩
  all_goals
    rcases n with _ | _ | _ | _ | n
    all_goals
      simp [headerOf] at h ⊢
  exact h

theorem headerOf_slice {m : Mem} {n : Nat} {header : UInt32}
    (h : headerOf (slice m 0 n) = some header) :
    header = msSwapU32 (msWord32 (m 3) (m 2) (m 1) (m 0)) ∧ 4 ≤ n := by
  rcases n with _ | _ | _ | _ | n
  all_goals
    simp [headerOf, slice] at h
  exact ⟨h.symm, by omega⟩

/-- Any bytes the encoder has left in the buffer start with the header of
    the message, if they are enough for one. -/
theorem mcMessageToBuffer_header {msg : McMessage} {block block' : McBuffer} {host host' : Host}
    {nbytes : UInt32} {header : UInt32}
    (hrun : runIn (mcMessageToBuffer msg block.nbytes) block host = .ok (nbytes, block', host'))
    (hheader : headerOf (slice block'.bytes 0 nbytes.toNat) = some header) :
    header = msg.header := by
  obtain ⟨hvalue, hbytes, hinside⟩ := runIn_ok hrun
  obtain ⟨rfl, hn⟩ := headerOf_slice hheader
  rcases mcMessageToBuffer_cases msg block.nbytes block.bytes host.junk with
    ⟨_, _, _, hheld, _⟩ | ⟨_, hzero, _⟩ | ⟨_, _, _, access, haccess, hout⟩
  · rw [hbytes]
    rw [writtenBytes, holds_append] at hheld
    obtain ⟨⟨h0, h1, h2, h3, _⟩, _⟩ := hheld
    simp only [Nat.zero_add] at h0 h1 h2 h3
    rw [h0, h1, h2, h3, msWord32_self, msSwapU32_swap]
  · -- nothing was written
    rw [hzero] at hvalue
    cases hvalue
    exact absurd hn (by decide)
  · exact absurd (hinside access haccess) (Nat.not_lt.mpr hout)

/-- A message that was decoded has the header its bytes start with. -/
theorem mcMessageFromBuffer_header (qsort : Qsort McOption) (nbytes : UInt32) (m : Mem) :
    wp Mode.free (mcMessageFromBuffer qsort nbytes 0)
      (fun r _ => ∀ message, r.1 = some message →
        headerOf (slice m 0 nbytes.toNat) = some message.header) m := by
  unfold mcMessageFromBuffer
  split
  · exact fun message h => absurd h (by simp)
  next hn =>
    have h4 : 4 ≤ nbytes.toNat := by
      have hle := UInt32.le_iff_toNat_le.mp (UInt32.not_lt.mp hn)
      exact hle
    have hslice : headerOf (slice m 0 nbytes.toNat) =
        some (msSwapU32 (msWord32 (m 3) (m 2) (m 1) (m 0))) := by
      obtain ⟨k, hk⟩ : ∃ k, nbytes.toNat = k + 4 := ⟨nbytes.toNat - 4, by omega⟩
      rw [hk]
      rfl
    simp only [mcBufferNextUint32, mcBufferNextPtr_eq, msCopyUint8, wp_bind, wp_readByte,
      wp_pure, wp_readBytes, UInt32.toNat_zero, Nat.zero_add]
    refine ⟨trivial, trivial, trivial, trivial, fun _ _ _ => trivial, ?_⟩
    -- whatever the options and the payload are, the header is not read again
    apply wp_mono ?_ (wp_free _ m)
    intro options m1 _
    apply wp_mono ?_ (wp_free _ m1)
    intro payload m2 _
    split
    · exact fun message h => absurd h (by simp)
    · intro message h
      cases h
      exact hslice

theorem recvMessage_header {qsort : Qsort McOption} {bytes : List UInt8} {source : SockAddr}
    {endpt endpt' : Endpoint} {err : Int} {message : McMessage}
    (h : recvMessage qsort (.datagram bytes source) endpt = .ok (err, some message, endpt')) :
    headerOf bytes = some message.header ∧ message.fromAddr = some source := by
  by_cases hempty : bytes.take endpt.rdbuffer.nbytes.toNat = []
  -- an empty datagram does not decode to a message
  · simp only [recvMessage, mnSocketRecvfrom, if_pos hempty] at h
    exact absurd h (by simp [mnClosed, mnDone, pure, Except.pure])
  · simp only [recvMessage, mnSocketRecvfrom, if_neg hempty] at h
    simp only [ne_eq, not_true_eq_false, if_false] at h
    obtain ⟨⟨⟨decoded, bpos⟩, block, host⟩, hrun, hrest⟩ := bind_eq_ok.mp h
    cases decoded with
    | none => exact absurd hrest (by simp)
    | some decoded =>
      cases hrest
      refine ⟨?_, rfl⟩
      have htaken : (UInt32.ofNat (bytes.take endpt.rdbuffer.nbytes.toNat).length).toNat =
          (bytes.take endpt.rdbuffer.nbytes.toNat).length := by
        have hlt := endpt.rdbuffer.nbytes.toNat_lt
        have hle := List.length_take_le endpt.rdbuffer.nbytes.toNat bytes
        exact ofNat32_toNat (by omega)
      have hpost := (run_meets (mcMessageFromBuffer_header qsort _ _) _ fun _ => trivial).post
        (runIn_ok hrun).1 _ rfl
      rw [htaken] at hpost
      rw [slice_of_holds (holds_blit _ 0 _)] at hpost
      exact headerOf_take hpost

/-! ## Section 2: Parties -/

/-- A datagram that `mc_endpt_udp_recv` has returned a message for. -/
structure Returned where
  datagram : List UInt8
  message  : McMessage

/-- An endpoint, and what its receives have returned. -/
structure Party where
  endpt    : Endpoint
  returned : List Returned

/-- What is done with an endpoint: a get, put, post or delete; a confirmable
    message of any other kind, with the next id; an ack; and the rest. -/
inductive PartyOp where
  | request (op : ClientOp)
  | send (toaddr : SockAddr) (resultfn : ResultFn) (code : UInt8) (token : McBuffer)
      (list : Option McOptionsList) (payload : Option McBuffer)
  | ack (message : McMessage) (toaddr : SockAddr) (token : McBuffer)
  | recv (arrival : Arrival)
  | checkQueues

/-- The operations that draw an id. -/
def PartyOp.draws : PartyOp → Nat
  | .request _ | .send .. => 1
  | .ack .. | .recv _ | .checkQueues => 0

/-- What a receive adds to what was returned. -/
def returnedBy : Arrival → Option McMessage → List Returned
  | .datagram bytes _, some message => [⟨bytes, message⟩]
  | _, _ => []

section

variable (qsort : Qsort McOption) (mcUriToOptions : UriToOptions)

def PartyOp.exec : PartyOp → Party → Except Fault Party
  | .request op, party => do
    let endpt ← op.exec qsort mcUriToOptions party.endpt
    return { party with endpt := endpt }
  | .send toaddr resultfn code token list payload, party => do
    let (msgid, endpt) := mcEndptUdpNextid party.endpt
    let (_, endpt) ← mcEndptUdpSend endpt toaddr (mcMessageConInit code msgid token list payload)
      resultfn
    return { party with endpt := endpt }
  | .ack message toaddr token, party => do
    let (_, endpt) ← mcEndptUdpAck party.endpt toaddr token (mcMessageGetMessageId message)
    return { party with endpt := endpt }
  | .recv arrival, party => do
    let (msg, endpt) ← mcEndptUdpRecv qsort arrival party.endpt
    return { endpt := endpt, returned := party.returned ++ returnedBy arrival msg }
  | .checkQueues, party => do
    let endpt ← mcEndptUdpCheckQueues party.endpt
    return { party with endpt := endpt }

end

/-! ## Section 3: The network -/

/-- The two sides. -/
inductive Side where
  | alice
  | bob
  deriving DecidableEq, Repr

def Side.peer : Side → Side
  | .alice => .bob
  | .bob => .alice

@[simp] theorem Side.peer_peer (x : Side) : x.peer.peer = x := by
  cases x
  · rfl
  · rfl

abbrev World := Side → Party

/-- What a side may do: request what it likes; ack a confirmable message
    its own receive returned, to that message's source; and receive what
    the other side has sent to its address, as often as it likes, or an
    error. -/
def Allowed (addrOf : Side → SockAddr) (w : World) (x : Side) : PartyOp → Prop
  | .request op => op.isRequest = true
  | .send .. => True
  | .ack message toaddr _ => (∃ r ∈ (w x).returned, r.message = message) ∧
      mcMessageIsConfirmable message = true ∧ message.fromAddr = some toaddr
  | .recv (.datagram bytes source) => source = addrOf x.peer ∧
      ∃ owner err, .sent owner bytes (addrOf x) err ∈ (w x.peer).endpt.trace
  | .recv (.failed _ _) => True
  | .checkQueues => True

/-- One step: one side does something. -/
def netStep (qsort : Qsort McOption) (mcUriToOptions : UriToOptions) (addrOf : Side → SockAddr)
    (w : World) (move : Side × PartyOp) (w' : World) : Prop :=
  Allowed addrOf w move.1 move.2 ∧
    ∃ party, move.2.exec qsort mcUriToOptions (w move.1) = .ok party ∧
      w' = Function.update w move.1 party

/-- Both sides start with fresh endpoints. -/
def netInit (rdsize wrsize : Side → UInt32) (host : Side → Host) : World := fun x =>
  { endpt := mcEndptUdpInit (rdsize x) (wrsize x) (host x), returned := [] }

/-- How many ids a side has drawn. -/
def drawn (x : Side) (moves : List (Side × PartyOp)) : Nat :=
  (moves.map fun move => if move.1 = x then move.2.draws else 0).sum

theorem drawn_snoc (x y : Side) (moves : List (Side × PartyOp)) (op : PartyOp) :
    drawn x (moves ++ [(y, op)]) = drawn x moves + if y = x then op.draws else 0 := by
  simp [drawn]

/-! ## Section 4: Where datagrams come from -/

/-- The events that bring new bytes into the world: a message goes into the
    confirm queue, or is sent without. -/
def Event.isOrigin : Event → Bool
  | .queued _ _ _ _ _ => true
  | .sent none _ _ _ => true
  | _ => false

def origins (trace : List Event) : List Event := trace.filter Event.isOrigin

theorem origins_append (trace trace' : List Event) :
    origins (trace ++ trace') = origins trace ++ origins trace' := List.filter_append ..

/-- The call of a result function with `MN_DONE`. -/
def Event.isConfirmed : Event → Bool
  | .called _ _ _ err => decide (err = mnDone)
  | _ => false

/-- Events that neither bring new bytes nor confirm anything. -/
def Plain (events : List Event) : Prop :=
  ∀ event ∈ events, event.isOrigin = false ∧ event.isConfirmed = false

theorem Plain.origins {events : List Event} (h : Plain events) : origins events = [] := by
  rw [Mcoap.origins, List.filter_eq_nil_iff]
  intro event hevent
  rw [(h event hevent).1]
  exact Bool.false_ne_true

theorem Plain.append {events events' : List Event} (h : Plain events) (h' : Plain events') :
    Plain (events ++ events') := by
  intro event hevent
  rcases List.mem_append.mp hevent with hevent | hevent
  · exact h event hevent
  · exact h' event hevent

theorem plain_failed {owner : Addr} {v : Pending} {err : Int} (herr : err ≠ mnDone)
    (remover : Remover) : Plain (resultOf owner v err ++ [.removed owner remover]) := by
  apply Plain.append
  · intro event hevent
    unfold resultOf at hevent
    split at hevent
    · rw [List.mem_singleton.mp hevent]
      exact ⟨rfl, decide_eq_false herr⟩
    · exact absurd hevent List.not_mem_nil
  · intro event hevent
    rw [List.mem_singleton.mp hevent]
    exact ⟨rfl, rfl⟩

theorem plain_sent {owner : Addr} {data : List UInt8} {dest : SockAddr} {err : Int} :
    Plain [.sent (some owner) data dest err] := by
  intro event hevent
  rw [List.mem_singleton.mp hevent]
  exact ⟨rfl, rfl⟩

/-- The pass over the confirm queue sends copies, and confirms nothing. -/
theorem visitEntry_plain (a : Addr) (v : Pending) (tmout : MnTimeout) (host : Host) :
    Plain (visitEntry a v tmout host).events := by
  unfold visitEntry
  simp only
  split
  · unfold resendEntry
    split
    · exact plain_failed (by decide) _
    · simp only
      split
      · next herr => exact plain_sent.append (plain_failed herr _)
      · exact plain_sent
  · exact fun event hevent => absurd hevent List.not_mem_nil

theorem checkPass_plain (l : Nodes Pending) (tmout : MnTimeout) (host : Host) :
    Plain (checkPass l tmout host).events := by
  induction l generalizing tmout host with
  | nil => exact fun event hevent => absurd hevent List.not_mem_nil
  | cons x l ih => exact (visitEntry_plain x.1 x.2 tmout host).append (ih _ _)

/-- The origin of a message that is sent. -/
def originOf (a : Addr) (msg : McMessage) (dest : SockAddr) (resultfn : ResultFn)
    (data : List UInt8) (err : Int) : Event :=
  if mcMessageIsConfirmable msg then .queued a (mcMessageGetMessageId msg) dest data resultfn
  else .sent none data dest err

theorem originOf_isOrigin (a : Addr) (msg : McMessage) (dest : SockAddr) (resultfn : ResultFn)
    (data : List UInt8) (err : Int) : (originOf a msg dest resultfn data err).isOrigin = true := by
  unfold originOf
  split
  · rfl
  · rfl

/-- A send brings one datagram into the world, which starts with the
    message's header if it has room for one; and it confirms nothing. -/
theorem mcEndptUdpSend_origin {endpt endpt' : Endpoint} {l : Nodes Pending}
    (h : endpt.confirmq.Reps l) {toaddr : SockAddr} {msg : McMessage} {resultfn : ResultFn}
    {err : Int} (hsend : mcEndptUdpSend endpt toaddr msg resultfn = .ok (err, endpt')) :
    ∃ data events, endpt'.trace = endpt.trace ++
        (originOf endpt.confirmq.brk msg toaddr resultfn data err :: events) ∧ Plain events ∧
      (∀ header, headerOf data = some header → header = msg.header) ∧
      endpt'.nextid = endpt.nextid := by
  obtain ⟨nbytes, wrbuffer, host, hrun, hdata⟩ := mcEndptUdpSend_data h hsend
  have hheader : ∀ header, headerOf (slice wrbuffer.bytes 0 nbytes.toNat) = some header →
      header = msg.header := fun header => mcMessageToBuffer_header hrun
  rcases hcon : mcMessageIsConfirmable msg with _ | _
  · obtain ⟨_, hnextid, htrace⟩ := hdata.non hcon
    refine ⟨_, [], ?_, fun event hevent => absurd hevent List.not_mem_nil, hheader, hnextid⟩
    rw [htrace, originOf, hcon]
    rfl
  · obtain ⟨v, hfresh, hv, hfirst⟩ := hdata.con hcon
    have hqueued : queuedEvent endpt.confirmq.brk v = originOf endpt.confirmq.brk msg toaddr
        resultfn (slice wrbuffer.bytes 0 nbytes.toNat) err := by
      rw [queuedEvent, hfresh.msgid, hfresh.dest, hfresh.resultfn, hv, originOf, hcon]
      rfl
    by_cases herr : err = mnDone
    · have htrace := (hfirst.done herr).2
      rw [hqueued] at htrace
      exact ⟨_, _, htrace, plain_sent, hheader, hfirst.nextid⟩
    · have htrace := (hfirst.failed herr).2
      rw [hqueued] at htrace
      exact ⟨_, _, htrace, plain_sent.append (plain_failed herr _), hheader, hfirst.nextid⟩

/-! ## Section 5: One honest endpoint -/

/-- The ack of a message that was received: to its sender, with its id. -/
def Acks (returned : List Returned) (header : UInt32) (dest : SockAddr) : Prop :=
  ∃ r ∈ returned, mcMessageIsConfirmable r.message = true ∧
    mcMessageGetMessageId r.message = mcHeaderGetMessageId header ∧
    r.message.fromAddr = some dest

/-- What the header of a datagram says where it comes from: a confirmable
    one is queued under its id, and an ack is for a message received. -/
def Event.Truthful (returned : List Returned) : Event → Prop
  | .queued _ msgid _ data _ => ∀ header, headerOf data = some header →
      mcHeaderGetMessageType header = mcConfirm ∧ mcHeaderGetMessageId header = msgid
  | .sent none data dest _ => ∀ header, headerOf data = some header →
      mcHeaderGetMessageType header ≠ mcConfirm ∧
      (mcHeaderGetMessageType header = mcAck → Acks returned header dest)
  | _ => True

/-- The id of a message that is queued. -/
def Event.queuedId : Event → Option UInt16
  | .queued _ msgid _ _ _ => some msgid
  | _ => none

/-- After `n` draws, with `first` drawn first: every entry's story is told,
    datagrams say where they come from, and the messages that were queued
    carry ids in the order of their draws. -/
structure Honest (first n : Nat) (party : Party) : Prop where
  told     : ∃ s, party.endpt.Shows s ∧ s.Sound
  nextid   : party.endpt.nextid.toNat = idAfter first n
  truthful : ∀ event ∈ origins party.endpt.trace, event.Truthful party.returned
  ids      : ∃ ds : List Nat, ds.Pairwise (· < ·) ∧ (∀ d ∈ ds, d < n) ∧
    ((origins party.endpt.trace).filterMap Event.queuedId).map UInt16.toNat =
      ds.map (idAfter first)

/-- An operation that sends one message, from the endpoint `drawn` that may
    have drawn an id: a confirmable message has this id, and an ack is for
    a message received. -/
structure OneSend (party : Party) (draws : Nat) (drawn : Endpoint) (toaddr : SockAddr)
    (msg : McMessage) (resultfn : ResultFn) (err : Int) (endpt' : Endpoint) : Prop where
  send   : mcEndptUdpSend drawn toaddr msg resultfn = .ok (err, endpt')
  queue  : drawn.confirmq = party.endpt.confirmq
  trace  : drawn.trace = party.endpt.trace
  nextid : ∀ {first n}, party.endpt.nextid.toNat = idAfter first n →
    drawn.nextid.toNat = idAfter first (n + draws)
  id     : mcMessageIsConfirmable msg = true →
    draws = 1 ∧ mcMessageGetMessageId msg = party.endpt.nextid
  ack    : mcMessageIsAck (some msg) = true → Acks party.returned msg.header toaddr

section

variable {first n : Nat} {party : Party} {endpt : Endpoint} {returned : List Returned}

theorem Event.Truthful.mono {returned' : List Returned} {event : Event}
    (h : event.Truthful returned) (hsub : ∀ r ∈ returned, r ∈ returned') :
    event.Truthful returned' := by
  unfold Event.Truthful at h ⊢
  split at h
  · exact h
  · intro header hheader
    obtain ⟨hne, hack⟩ := h header hheader
    refine ⟨hne, fun htype => ?_⟩
    obtain ⟨r, hr, hrest⟩ := hack htype
    exact ⟨r, hsub r hr, hrest⟩
  · trivial

/-- Nothing that is new comes from this endpoint. -/
theorem Honest.quiet (h : Honest first n party) (htold : ∃ s, endpt.Shows s ∧ s.Sound)
    (hnextid : endpt.nextid = party.endpt.nextid)
    (horigins : origins endpt.trace = origins party.endpt.trace)
    (hsub : ∀ r ∈ party.returned, r ∈ returned) : Honest first n ⟨endpt, returned⟩ := by
  refine ⟨htold, ?_, ?_, ?_⟩
  · rw [hnextid]
    exact h.nextid
  · intro event hevent
    rw [horigins] at hevent
    exact (h.truthful event hevent).mono hsub
  · rw [horigins]
    exact h.ids

/-- The header of the datagram is that of the message. -/
theorem originOf_truthful {a : Addr} {msg : McMessage} {dest : SockAddr} {resultfn : ResultFn}
    {data : List UInt8} {err : Int}
    (hheader : ∀ header, headerOf data = some header → header = msg.header)
    (hack : mcMessageIsAck (some msg) = true → Acks returned msg.header dest) :
    (originOf a msg dest resultfn data err).Truthful returned := by
  rw [originOf]
  split
  · next hcon =>
    intro header hh
    rw [hheader header hh]
    exact ⟨(beq_iff_eq.mp hcon).symm, rfl⟩
  · next hcon =>
    intro header hh
    rw [hheader header hh]
    constructor
    · exact fun htype => hcon (beq_iff_eq.mpr htype.symm)
    · exact fun htype => hack (beq_iff_eq.mpr htype.symm)

/-- One more id, after all the others. -/
theorem increasing_snoc {ds : List Nat} (hincreasing : ds.Pairwise (· < ·))
    (hbelow : ∀ d ∈ ds, d < n) :
    (ds ++ [n]).Pairwise (· < ·) ∧ ∀ d ∈ ds ++ [n], d < n + 1 := by
  constructor
  · rw [List.pairwise_append]
    refine ⟨hincreasing, List.pairwise_singleton _ _, ?_⟩
    intro d hd m hm
    rw [List.mem_singleton.mp hm]
    exact hbelow d hd
  · intro d hd
    rcases List.mem_append.mp hd with hd | hd
    · exact Nat.lt_succ_of_lt (hbelow d hd)
    · rw [List.mem_singleton.mp hd]
      exact Nat.lt_succ_self n

/-- A message is sent. -/
theorem Honest.sends {draws : Nat} (h : Honest first n party) {drawn endpt' : Endpoint}
    {toaddr : SockAddr} {msg : McMessage} {resultfn : ResultFn} {err : Int}
    (hsends : OneSend party draws drawn toaddr msg resultfn err endpt') :
    Honest first (n + draws) ⟨endpt', party.returned⟩ := by
  obtain ⟨hsend, hqueue, htrace, hnextid, hid, hack⟩ := hsends
  obtain ⟨s, hshows, hsound⟩ := h.told
  have hshows' : drawn.Shows s := by
    refine ⟨?_, ?_, htrace.trans hshows.trace⟩
    · rw [hqueue]
      exact hshows.reps
    · rw [hqueue]
      exact hshows.next
  obtain ⟨s', hshows1, hmoves⟩ := (mcEndptUdpSend_spec hshows'.reps hsend).moves hshows'
  obtain ⟨data, events, htrace', hplain, hheader, hnextid'⟩ :=
    mcEndptUdpSend_origin hshows'.reps hsend
  have horigins : origins endpt'.trace = origins party.endpt.trace ++
      [originOf drawn.confirmq.brk msg toaddr resultfn data err] := by
    rw [htrace', htrace, ← List.singleton_append, origins_append, origins_append,
      hplain.origins, List.append_nil]
    congr 1
    exact List.filter_cons_of_pos (originOf_isOrigin ..)
  refine ⟨⟨s', hshows1, moves_sound hmoves hsound⟩, ?_, ?_, ?_⟩
  · show endpt'.nextid.toNat = _
    rw [hnextid']
    exact hnextid h.nextid
  · intro event hevent
    rw [horigins] at hevent
    rcases List.mem_append.mp hevent with hold | hnew
    · exact h.truthful event hold
    rw [List.mem_singleton.mp hnew]
    exact originOf_truthful hheader hack
  · obtain ⟨ds, hincreasing, hbelow, hids⟩ := h.ids
    show ∃ ds : List Nat, _ ∧ _ ∧ ((origins endpt'.trace).filterMap _).map _ = _
    rw [horigins, List.filterMap_append, List.map_append, hids]
    rcases hcon : mcMessageIsConfirmable msg with _ | _
    -- nothing is queued
    · refine ⟨ds, hincreasing, fun d hd => Nat.lt_add_right _ (hbelow d hd), ?_⟩
      rw [originOf, hcon]
      exact List.append_nil _
    -- what is queued carries the id that was drawn last
    · obtain ⟨rfl, hmsgid⟩ := hid hcon
      obtain ⟨hincreasing', hbelow'⟩ := increasing_snoc hincreasing hbelow
      refine ⟨ds ++ [n], hincreasing', hbelow', ?_⟩
      rw [originOf, hcon, List.map_append, List.map_singleton, ← h.nextid, ← hmsgid]
      rfl

/-- The header of any datagram that was sent, a copy or not. -/
theorem Honest.sent_header (h : Honest first n party) {owner : Option Addr} {data : List UInt8}
    {dest : SockAddr} {err : Int} {header : UInt32}
    (hsent : .sent owner data dest err ∈ party.endpt.trace)
    (hheader : headerOf data = some header) :
    (mcHeaderGetMessageType header = mcConfirm → ∃ a resultfn,
      .queued a (mcHeaderGetMessageId header) dest data resultfn ∈ party.endpt.trace) ∧
    (mcHeaderGetMessageType header = mcAck → Acks party.returned header dest) := by
  cases owner with
  | none =>
    obtain ⟨hne, hack⟩ := h.truthful _ (List.mem_filter.mpr ⟨hsent, rfl⟩) header hheader
    exact ⟨fun hcon => absurd hcon hne, hack⟩
  | some a =>
    -- it is a copy of what was queued
    obtain ⟨s, hshows, hsound⟩ := h.told
    rw [hshows.trace] at hsent
    obtain ⟨msgid, resultfn, hqueued⟩ := hsound.sent_queued hsent
    rw [← hshows.trace] at hqueued
    obtain ⟨hcon, hid⟩ := h.truthful _ (List.mem_filter.mpr ⟨hqueued, rfl⟩) header hheader
    refine ⟨fun _ => ⟨a, resultfn, ?_⟩, fun hack => ?_⟩
    · rw [hid]
      exact hqueued
    · rw [hcon] at hack
      exact absurd hack (by decide)

/-- Two messages that were queued under one id are one message, as long as
    the ids suffice. -/
theorem Honest.queued_unique (h : Honest first n party) (hfew : n ≤ 65535) {e e' : Event}
    {msgid : UInt16} (he : e ∈ party.endpt.trace) (he' : e' ∈ party.endpt.trace)
    (hid : e.queuedId = some msgid) (hid' : e'.queuedId = some msgid) : e = e' := by
  obtain ⟨ds, hincreasing, hbelow, hids⟩ := h.ids
  have hnodup : (ds.map (idAfter first)).Nodup := by
    rw [List.nodup_iff_pairwise_ne, List.pairwise_map]
    refine hincreasing.imp_of_mem ?_
    intro d d' hd hd' hlt heq
    have hmod := idAfter_inj.mp heq
    have hd := hbelow d hd
    have hd' := hbelow d' hd'
    rw [Nat.mod_eq_of_lt (by omega), Nat.mod_eq_of_lt (by omega)] at hmod
    omega
  rw [← hids] at hnodup
  have hpairwise := List.pairwise_filterMap.mp (List.nodup_iff_pairwise_ne.mp hnodup.of_map)
  have hmem : ∀ event ∈ party.endpt.trace, event.queuedId = some msgid →
      event ∈ origins party.endpt.trace := by
    intro event hevent hsome
    refine List.mem_filter.mpr ⟨hevent, ?_⟩
    cases event with
    | queued _ _ _ _ _ => rfl
    | sent _ _ _ _ => exact absurd hsome (by simp [Event.queuedId])
    | called _ _ _ _ => exact absurd hsome (by simp [Event.queuedId])
    | removed _ _ => exact absurd hsome (by simp [Event.queuedId])
  by_contra hne
  have : Std.Symm fun a a' : Event =>
      ∀ b, a.queuedId = some b → ∀ b', a'.queuedId = some b' → b ≠ b' :=
    ⟨fun a a' hr b hb b' hb' heq => hr b' hb' b hb heq.symm⟩
  exact hpairwise.forall (hmem e he hid) (hmem e' he' hid') hne msgid hid msgid hid' rfl

end

/-! ## Section 6: Both endpoints -/

/-- What an endpoint has received: it came from the other side, under the
    other side's address. -/
structure FromPeer (addrOf : Side → SockAddr) (w : World) (x : Side) (r : Returned) : Prop where
  source : r.message.fromAddr = some (addrOf x.peer)
  header : headerOf r.datagram = some r.message.header
  sent   : ∃ owner err, .sent owner r.datagram (addrOf x) err ∈ (w x.peer).endpt.trace

section

variable {qsort : Qsort McOption} {mcUriToOptions : UriToOptions} {addrOf : Side → SockAddr}
  {w w' : World} {x : Side} {first n : Nat} {op : PartyOp} {party : Party}

/-- A get, put, post or delete sends one message. -/
theorem request_sends {op : ClientOp} {endpt' : Endpoint} (hop : op.isRequest = true)
    (hexec : op.exec qsort mcUriToOptions party.endpt = .ok endpt') :
    ∃ drawn toaddr msg resultfn err, OneSend party 1 drawn toaddr msg resultfn err endpt' := by
  have hsent : ∀ {addr resultfn code uri extra payload r},
      sendMsg qsort mcUriToOptions party.endpt addr resultfn code uri extra payload =
        .ok (r, endpt') →
      ∃ drawn toaddr msg resultfn err, OneSend party 1 drawn toaddr msg resultfn err endpt' := by
    intro addr resultfn code uri extra payload r hsend
    obtain ⟨drawn, msg, err, hqueue, htrace, hnextid, hid, hack, hsent⟩ := sendMsg_draws hsend
    refine ⟨drawn, addr, msg, resultfn, err, hsent, hqueue, htrace, ?_, fun _ => ⟨rfl, hid⟩, ?_⟩
    · intro first n hn
      rw [hnextid]
      exact mcEndptUdpNextid_idAfter hn
    · intro hc
      rw [hack] at hc
      exact absurd hc Bool.false_ne_true
  cases op with
  | get addr resultfn uri extra =>
    obtain ⟨⟨r, endpt1⟩, hsend, hret⟩ := bind_eq_ok.mp hexec
    cases hret
    exact hsent hsend
  | put addr resultfn uri extra payload =>
    obtain ⟨⟨r, endpt1⟩, hsend, hret⟩ := bind_eq_ok.mp hexec
    cases hret
    exact hsent hsend
  | post addr resultfn uri extra payload =>
    obtain ⟨⟨r, endpt1⟩, hsend, hret⟩ := bind_eq_ok.mp hexec
    cases hret
    exact hsent hsend
  | delete addr resultfn uri extra =>
    obtain ⟨⟨r, endpt1⟩, hsend, hret⟩ := bind_eq_ok.mp hexec
    cases hret
    exact hsent hsend
  | recv arrival => exact absurd hop (by simp [ClientOp.isRequest])
  | checkQueues => exact absurd hop (by simp [ClientOp.isRequest])

/-- The three kinds of operations. -/
theorem exec_cases (hallowed : Allowed addrOf w x op)
    (hexec : op.exec qsort mcUriToOptions (w x) = .ok party) :
    (∃ drawn toaddr msg resultfn err endpt', party = ⟨endpt', (w x).returned⟩ ∧
      OneSend (w x) op.draws drawn toaddr msg resultfn err endpt') ∨
    (∃ arrival msg endpt', op = .recv arrival ∧
      party = ⟨endpt', (w x).returned ++ returnedBy arrival msg⟩ ∧
      mcEndptUdpRecv qsort arrival (w x).endpt = .ok (msg, endpt')) ∨
    (∃ endpt', op = .checkQueues ∧ party = ⟨endpt', (w x).returned⟩ ∧
      mcEndptUdpCheckQueues (w x).endpt = .ok endpt') := by
  cases op with
  | request op =>
    obtain ⟨endpt', hstep, hret⟩ := bind_eq_ok.mp hexec
    cases hret
    obtain ⟨drawn, toaddr, msg, resultfn, err, hsends⟩ := request_sends hallowed hstep
    exact Or.inl ⟨drawn, toaddr, msg, resultfn, err, endpt', rfl, hsends⟩
  | send toaddr resultfn code token list payload =>
    obtain ⟨⟨err, endpt'⟩, hsend, hret⟩ := bind_eq_ok.mp hexec
    cases hret
    refine Or.inl ⟨_, _, _, _, _, endpt', rfl, hsend, rfl, rfl, mcEndptUdpNextid_idAfter,
      fun _ => ⟨rfl, ?_⟩, ?_⟩
    · exact mcHeaderGetMessageId_create ..
    · intro hc
      have htype : mcHeaderGetMessageType (mcMessageConInit code (w x).endpt.nextid token list
          payload).header = mcConfirm &&& 3 := mcHeaderGetMessageType_create ..
      have hack : mcAck = mcConfirm &&& 3 := (beq_iff_eq.mp hc).trans htype
      exact absurd hack (by decide)
  | ack message toaddr token =>
    obtain ⟨⟨err, endpt'⟩, hsend, hret⟩ := bind_eq_ok.mp hexec
    cases hret
    obtain ⟨⟨r, hr, rfl⟩, hcon, hfrom⟩ := hallowed
    have htype : mcHeaderGetMessageType (mcMessageInit 1 mcAck 0
        (mcMessageGetMessageId r.message) token none none).header = mcAck &&& 3 :=
      mcHeaderGetMessageType_create ..
    refine Or.inl ⟨_, _, _, _, _, endpt', rfl, hsend, rfl, rfl, fun hn => hn, fun hc => ?_,
      fun _ => ?_⟩
    · have hcon' : mcConfirm = mcAck &&& 3 := (beq_iff_eq.mp hc).trans htype
      exact absurd hcon' (by decide)
    · exact ⟨r, hr, hcon, (mcHeaderGetMessageId_create ..).symm, hfrom⟩
  | recv arrival =>
    obtain ⟨⟨msg, endpt'⟩, hrecv, hret⟩ := bind_eq_ok.mp hexec
    cases hret
    exact Or.inr (Or.inl ⟨arrival, msg, endpt', rfl, rfl, hrecv⟩)
  | checkQueues =>
    obtain ⟨endpt', hcheck, hret⟩ := bind_eq_ok.mp hexec
    cases hret
    exact Or.inr (Or.inr ⟨endpt', rfl, rfl, hcheck⟩)

/-- A receive that returns a message has decoded its header. -/
theorem mcEndptUdpRecv_header {bytes : List UInt8} {source : SockAddr} {endpt endpt' : Endpoint}
    {message : McMessage}
    (h : mcEndptUdpRecv qsort (.datagram bytes source) endpt = .ok (some message, endpt')) :
    headerOf bytes = some message.header ∧ message.fromAddr = some source := by
  obtain ⟨⟨err, decoded, endpt1⟩, hdecode, hrest⟩ := bind_eq_ok.mp h
  cases decoded with
  | none => cases hrest
  | some decoded =>
    simp only at hrest
    split at hrest
    · obtain ⟨endpt2, _, hret⟩ := bind_eq_ok.mp hrest
      cases hret
      exact recvMessage_header hdecode
    · cases hrest
      exact recvMessage_header hdecode

/-- A receive that fails returns null. -/
theorem mcEndptUdpRecv_failed {err : Int} {hne : err ≠ mnDone} {endpt endpt' : Endpoint}
    {msg : Option McMessage}
    (h : mcEndptUdpRecv qsort (.failed err hne) endpt = .ok (msg, endpt')) : msg = none := by
  obtain ⟨⟨err', decoded, endpt1⟩, hdecode, hrest⟩ := bind_eq_ok.mp h
  unfold recvMessage at hdecode
  simp only [mnSocketRecvfrom, ne_eq, hne, not_false_eq_true, if_true] at hdecode
  cases hdecode
  cases hrest
  rfl

/-- A receive brings nothing new into the world. -/
theorem Receives.origins {endpt endpt' : Endpoint} {l : Nodes Pending} {msg : Option McMessage}
    (h : Receives endpt endpt' l msg) : origins endpt'.trace = origins endpt.trace := by
  rcases hack : mcMessageIsAck msg with _ | _
  · rw [(h.other hack).2]
  · obtain ⟨message, xs, a, v, ys, _, _, _, _, _, htrace⟩ := h.ack hack
    rw [htrace, origins_append]
    have hnone : Mcoap.origins (resultOf a v mnDone ++ [.removed a .recv]) = [] := by
      unfold resultOf
      split
      · rfl
      · rfl
    rw [hnone, List.append_nil]

/-- Step: the endpoint that does something stays honest. -/
theorem Honest.step (h : Honest first n (w x)) (hallowed : Allowed addrOf w x op)
    (hexec : op.exec qsort mcUriToOptions (w x) = .ok party) :
    Honest first (n + op.draws) party := by
  obtain ⟨s, hshows, hsound⟩ := h.told
  rcases exec_cases hallowed hexec with ⟨_, _, _, _, _, endpt', rfl, hsends⟩ |
    ⟨arrival, msg, endpt', rfl, rfl, hrecv⟩ | ⟨endpt', rfl, rfl, hcheck⟩
  · exact h.sends hsends
  · have hspec := mcEndptUdpRecv_spec hshows.reps hrecv
    obtain ⟨s', hshows', hmoves⟩ := hspec.moves hshows
    exact h.quiet ⟨s', hshows', moves_sound hmoves hsound⟩ hspec.nextid hspec.origins
      fun r hr => List.mem_append_left _ hr
  · obtain ⟨endpt1, hcheck', hpassed⟩ := mcEndptUdpCheckQueues_spec hshows.reps
    have heq : Except.ok endpt' = Except.ok endpt1 := hcheck.symm.trans hcheck'
    cases heq
    obtain ⟨s', hshows', hmoves⟩ := hpassed.moves hshows
    refine h.quiet ⟨s', hshows', moves_sound hmoves hsound⟩ hpassed.nextid ?_ fun r hr => hr
    rw [hpassed.trace, origins_append, (checkPass_plain _ _ _).origins, List.append_nil]

/-- What an operation records; only a receive confirms anything. -/
theorem exec_records {l : Nodes Pending} (h : (w x).endpt.confirmq.Reps l)
    (hallowed : Allowed addrOf w x op)
    (hexec : op.exec qsort mcUriToOptions (w x) = .ok party) :
    ∃ events, party.endpt.trace = (w x).endpt.trace ++ events ∧
      ((∃ event ∈ events, event.isConfirmed = true) → ∃ arrival, op = .recv arrival) := by
  rcases exec_cases hallowed hexec with ⟨drawn, toaddr, msg, resultfn, err, endpt', rfl, hsends⟩ |
    ⟨arrival, msg, endpt', rfl, rfl, hrecv⟩ | ⟨endpt', rfl, rfl, hcheck⟩
  · have hreps : drawn.confirmq.Reps l := by
      rw [hsends.queue]
      exact h
    obtain ⟨data, events, htrace, hplain, _⟩ := mcEndptUdpSend_origin hreps hsends.send
    rw [hsends.trace] at htrace
    refine ⟨_, htrace, ?_⟩
    rintro ⟨event, hevent, hconfirmed⟩
    rcases List.mem_cons.mp hevent with rfl | hevent
    · unfold originOf at hconfirmed
      split at hconfirmed
      · exact absurd hconfirmed Bool.false_ne_true
      · exact absurd hconfirmed Bool.false_ne_true
    · rw [(hplain event hevent).2] at hconfirmed
      exact absurd hconfirmed Bool.false_ne_true
  · have hspec := mcEndptUdpRecv_spec h hrecv
    rcases hack : mcMessageIsAck msg with _ | _
    · refine ⟨[], ?_, fun _ => ⟨arrival, rfl⟩⟩
      rw [List.append_nil]
      exact (hspec.other hack).2
    · obtain ⟨message, xs, a, v, ys, _, _, _, _, _, htrace⟩ := hspec.ack hack
      exact ⟨_, htrace, fun _ => ⟨arrival, rfl⟩⟩
  · obtain ⟨endpt1, hcheck', hpassed⟩ := mcEndptUdpCheckQueues_spec h
    have heq : Except.ok endpt' = Except.ok endpt1 := hcheck.symm.trans hcheck'
    cases heq
    refine ⟨_, hpassed.trace, ?_⟩
    rintro ⟨event, hevent, hconfirmed⟩
    rw [(checkPass_plain _ _ _ event hevent).2] at hconfirmed
    exact absurd hconfirmed Bool.false_ne_true

/-- What a receive has returned came from the other side. -/
theorem recv_fromPeer {arrival : Arrival} {msg : Option McMessage} {endpt' : Endpoint}
    (hallowed : Allowed addrOf w x (.recv arrival))
    (hrecv : mcEndptUdpRecv qsort arrival (w x).endpt = .ok (msg, endpt')) :
    ∀ r ∈ returnedBy arrival msg, FromPeer addrOf w x r := by
  intro r hr
  cases arrival with
  | failed err hne =>
    cases msg with
    | none => exact absurd hr List.not_mem_nil
    | some message => exact absurd hr List.not_mem_nil
  | datagram bytes source =>
    cases msg with
    | none => exact absurd hr List.not_mem_nil
    | some message =>
      obtain rfl := List.mem_singleton.mp hr
      obtain ⟨rfl, hsent⟩ := hallowed
      obtain ⟨hheader, hsource⟩ := mcEndptUdpRecv_header hrecv
      exact ⟨hsource, hheader, hsent⟩

/-- The invariant of the two endpoints. -/
structure BothHonest (addrOf : Side → SockAddr) (first : Side → Nat)
    (moves : List (Side × PartyOp)) (w : World) : Prop where
  honest   : ∀ x, Honest (first x) (drawn x moves) (w x)
  received : ∀ x, ∀ r ∈ (w x).returned, FromPeer addrOf w x r

/-- Step: both endpoints stay honest. -/
theorem BothHonest.step {first : Side → Nat} {moves : List (Side × PartyOp)}
    {move : Side × PartyOp} (h : BothHonest addrOf first moves w)
    (hstep : netStep qsort mcUriToOptions addrOf w move w') :
    BothHonest addrOf first (moves ++ [move]) w' := by
  obtain ⟨x, op⟩ := move
  obtain ⟨hallowed, party, hexec, rfl⟩ := hstep
  obtain ⟨s, hshows, _⟩ := (h.honest x).told
  obtain ⟨events, htrace, _⟩ := exec_records hshows.reps hallowed hexec
  -- traces only grow
  have hgrows : ∀ y event, event ∈ (w y).endpt.trace →
      event ∈ (Function.update w x party y).endpt.trace := by
    intro y event hevent
    by_cases hy : y = x
    · subst hy
      rw [Function.update_self, htrace]
      exact List.mem_append_left _ hevent
    · rw [Function.update_of_ne hy]
      exact hevent
  have hkeeps : ∀ y r, FromPeer addrOf w y r →
      FromPeer addrOf (Function.update w x party) y r := by
    intro y r hr
    obtain ⟨owner, err, hsent⟩ := hr.sent
    exact ⟨hr.source, hr.header, owner, err, hgrows _ _ hsent⟩
  constructor
  · intro y
    rw [drawn_snoc]
    by_cases hy : y = x
    · subst hy
      rw [Function.update_self, if_pos rfl]
      exact (h.honest y).step hallowed hexec
    · rw [Function.update_of_ne hy, if_neg (fun hxy => hy hxy.symm)]
      exact h.honest y
  · intro y r hr
    by_cases hy : y = x
    · subst hy
      rw [Function.update_self] at hr
      rcases exec_cases hallowed hexec with ⟨_, _, _, _, _, endpt', rfl, _⟩ |
        ⟨arrival, msg, endpt', rfl, rfl, hrecv⟩ | ⟨endpt', rfl, rfl, _⟩
      · exact hkeeps y r (h.received y r hr)
      · rcases List.mem_append.mp hr with hr | hr
        · exact hkeeps y r (h.received y r hr)
        · exact hkeeps y r (recv_fromPeer hallowed hrecv r hr)
      · exact hkeeps y r (h.received y r hr)
    · rw [Function.update_of_ne hy] at hr
      exact hkeeps y r (h.received y r hr)

/-- Run: they are honest in every state that is reached. -/
theorem run_honest {rdsize wrsize : Side → UInt32} {host : Side → Host}
    {moves : List (Side × PartyOp)}
    (hrun : Run (netStep qsort mcUriToOptions addrOf) (netInit rdsize wrsize host) moves w) :
    BothHonest addrOf (fun x => (netInit rdsize wrsize host x).endpt.nextid.toNat) moves w := by
  refine hrun.history (P := BothHonest addrOf _) ⟨?_, ?_⟩ fun _ _ _ _ h hstep => h.step hstep
  · intro x
    have hpos : 0 < (netInit rdsize wrsize host x).endpt.nextid.toNat :=
      mcEndptUdpInit_nextid _ _ _
    have hlt := (netInit rdsize wrsize host x).endpt.nextid.toNat_lt
    refine ⟨⟨_, mcEndptUdpInit_shows _ _ _, Ledger.sound_empty⟩,
      (idAfter_zero hpos (by omega)).symm, fun event hevent => absurd hevent List.not_mem_nil,
      [], List.Pairwise.nil, fun d hd => absurd hd List.not_mem_nil, rfl⟩
  · intro x r hr
    exact absurd hr List.not_mem_nil

end

/-! ## Section 7: No false confirmation -/

/-- The message with this address, id and result function was queued by
    `x`, and the other side's receive has returned the very datagram. -/
def Delivered (addrOf : Side → SockAddr) (w : World) (x : Side) (a : Addr) (msgid : UInt16)
    (resultfn : ResultFn) : Prop :=
  ∃ dest data, .queued a msgid dest data resultfn ∈ (w x).endpt.trace ∧
    ∃ r ∈ (w x.peer).returned, r.datagram = data ∧ mcMessageIsConfirmable r.message = true ∧
      mcMessageGetMessageId r.message = msgid ∧ r.message.fromAddr = some (addrOf x)

/-- When a step calls a result function with `MN_DONE`, the other side has
    returned the message from a receive before, in every run in which each
    side has drawn fewer than 65535 ids. -/
theorem no_false_confirmation {qsort : Qsort McOption} {mcUriToOptions : UriToOptions}
    {addrOf : Side → SockAddr} {rdsize wrsize : Side → UInt32} {host : Side → Host}
    {moves : List (Side × PartyOp)} {w w' : World}
    (hrun : Run (netStep qsort mcUriToOptions addrOf) (netInit rdsize wrsize host) moves w)
    (hfew : ∀ x, drawn x moves < 65535) {x : Side} {op : PartyOp}
    (hstep : netStep qsort mcUriToOptions addrOf w (x, op) w') {events : List Event}
    (htrace : (w' x).endpt.trace = (w x).endpt.trace ++ events) {a : Addr} {resultfn : ResultFn}
    {msgid : UInt16} (hcalled : .called a resultfn msgid mnDone ∈ events) :
    Delivered addrOf w x a msgid resultfn := by
  obtain ⟨hallowed, party, hexec, rfl⟩ := hstep
  rw [Function.update_self] at htrace
  have hboth := run_honest hrun
  obtain ⟨s, hshows, hsound⟩ := (hboth.honest x).told
  -- only a receive confirms
  obtain ⟨events', htrace', honly⟩ := exec_records hshows.reps hallowed hexec
  obtain rfl := List.append_cancel_left (htrace.symm.trans htrace')
  obtain ⟨arrival, rfl⟩ := honly ⟨_, hcalled, rfl⟩
  obtain ⟨⟨msg, endpt'⟩, hrecv, hret⟩ := bind_eq_ok.mp hexec
  cases hret
  have hspec := mcEndptUdpRecv_spec hshows.reps hrecv
  rcases hack : mcMessageIsAck msg with _ | _
  · rw [(hspec.other hack).2] at htrace
    rw [List.self_eq_append_right.mp htrace] at hcalled
    exact absurd hcalled List.not_mem_nil
  obtain ⟨message, xs, b, v, ys, rfl, hentries, hv, _, _, hrecorded⟩ := hspec.ack hack
  -- it confirms the entry that it removes
  rw [List.append_cancel_left (htrace.symm.trans hrecorded)] at hcalled
  have hentry : a = b ∧ resultfn = v.resultfn ∧ msgid = v.msgid := by
    rcases List.mem_append.mp hcalled with hresult | hremoved
    · unfold resultOf at hresult
      split at hresult
      · have heq := List.mem_singleton.mp hresult
        simp only [Event.called.injEq] at heq
        exact ⟨heq.1, heq.2.1, heq.2.2.1⟩
      · exact absurd hresult List.not_mem_nil
    · exact absurd (List.mem_singleton.mp hremoved) (by simp)
  obtain ⟨rfl, rfl, rfl⟩ := hentry
  have hqueued : queuedEvent a v ∈ (w x).endpt.trace := by
    rw [hshows.trace]
    apply hsound.queuedEvent_mem
    rw [hentries]
    exact List.mem_append_right _ List.mem_cons_self
  cases arrival with
  | failed err hne => exact absurd (mcEndptUdpRecv_failed hrecv) (by simp)
  | datagram bytes source =>
    obtain ⟨_, owner, err, hsent⟩ := hallowed
    obtain ⟨hheader, _⟩ := mcEndptUdpRecv_header hrecv
    -- the other side has sent the ack for a message it had received
    obtain ⟨r, hr, hcon, hid, hfrom⟩ :=
      ((hboth.honest x.peer).sent_header hsent hheader).2 (beq_iff_eq.mp hack).symm
    have hpeer := hboth.received x.peer r hr
    obtain ⟨owner', err', hsent'⟩ := hpeer.sent
    rw [Side.peer_peer] at hsent'
    -- which this side had queued under the same id
    obtain ⟨a', resultfn', hqueued'⟩ :=
      ((hboth.honest x).sent_header hsent' hpeer.header).1 (beq_iff_eq.mp hcon).symm
    have hsame : mcHeaderGetMessageId r.message.header = v.msgid := hid.trans hv.symm
    have heq := (hboth.honest x).queued_unique (Nat.le_of_lt (hfew x)) hqueued hqueued' rfl
      (congrArg some hsame)
    simp only [queuedEvent, Event.queued.injEq] at heq
    exact ⟨_, _, hqueued, r, hr, heq.2.2.2.1.symm, hcon, hsame, hfrom⟩

/-- Two ports of one machine. -/
def twoPorts : Side → SockAddr
  | .alice => ⟨2, 5678, 1, 0⟩
  | .bob => ⟨2, 5679, 1, 0⟩

/-- Fresh endpoints on that machine. -/
def twoFresh : World := netInit (fun _ => 64) (fun _ => 64) fun _ => stillHost

def pingOp : PartyOp := .send (twoPorts .bob) 9 0 ⟨0, fun _ => 0⟩ none none

/-- Alice sends an empty message to Bob, and receives its ack. -/
theorem alice_acked : ∃ party party',
    pingOp.exec (insertion McOption) peerUriToOptions (twoFresh .alice) = .ok party ∧
    .sent (some 0) [0x40, 0, 0, 1] (twoPorts .bob) mnDone ∈ party.endpt.trace ∧
    (PartyOp.recv (.datagram [0x60, 0, 0, 1] (twoPorts .bob))).exec (insertion McOption)
      peerUriToOptions party = .ok party' ∧
    party'.endpt.trace = party.endpt.trace ++ [.called 0 9 1 mnDone, .removed 0 .recv] :=
  ⟨_, _, rfl, by decide, rfl, rfl⟩

/-- Bob receives that message, and acks it. -/
theorem bob_acks : ∃ party party' message,
    (PartyOp.recv (.datagram [0x40, 0, 0, 1] (twoPorts .alice))).exec (insertion McOption)
      peerUriToOptions (twoFresh .bob) = .ok party ∧
    (∃ r ∈ party.returned, r.message = message) ∧ mcMessageIsConfirmable message = true ∧
    message.fromAddr = some (twoPorts .alice) ∧
    (PartyOp.ack message (twoPorts .alice) ⟨0, fun _ => 0⟩).exec (insertion McOption)
      peerUriToOptions party = .ok party' ∧
    .sent none [0x60, 0, 0, 1] (twoPorts .alice) mnDone ∈ party'.endpt.trace :=
  ⟨_, _, _, rfl, ⟨_, List.mem_singleton.mpr rfl, rfl⟩, rfl, rfl, rfl, by decide⟩

/-- The witness: the two in one run. -/
theorem no_false_confirmation_ping :
    ∃ moves w, Run (netStep (insertion McOption) peerUriToOptions twoPorts) twoFresh moves w ∧
      Delivered twoPorts w .alice 0 1 9 := by
  obtain ⟨a1, a2, hsend, hsent, hrecv, htrace⟩ := alice_acked
  obtain ⟨b1, b2, message, hrecv', hreturned, hcon, hfrom, hack, hsent'⟩ := bob_acks
  have h1 : netStep (insertion McOption) peerUriToOptions twoPorts twoFresh (.alice, pingOp)
      (Function.update twoFresh .alice a1) := ⟨trivial, a1, hsend, rfl⟩
  have h2 : netStep (insertion McOption) peerUriToOptions twoPorts
      (Function.update twoFresh .alice a1)
      (.bob, .recv (.datagram [0x40, 0, 0, 1] (twoPorts .alice)))
      (Function.update (Function.update twoFresh .alice a1) .bob b1) :=
    ⟨⟨rfl, _, _, hsent⟩, b1, hrecv', rfl⟩
  have h3 : netStep (insertion McOption) peerUriToOptions twoPorts
      (Function.update (Function.update twoFresh .alice a1) .bob b1)
      (.bob, .ack message (twoPorts .alice) ⟨0, fun _ => 0⟩)
      (Function.update (Function.update (Function.update twoFresh .alice a1) .bob b1) .bob b2) :=
    ⟨⟨hreturned, hcon, hfrom⟩, b2, hack, rfl⟩
  have h4 : netStep (insertion McOption) peerUriToOptions twoPorts
      (Function.update (Function.update (Function.update twoFresh .alice a1) .bob b1) .bob b2)
      (.alice, .recv (.datagram [0x60, 0, 0, 1] (twoPorts .bob)))
      (Function.update (Function.update (Function.update (Function.update twoFresh .alice a1)
        .bob b1) .bob b2) .alice a2) :=
    ⟨⟨rfl, _, _, hsent'⟩, a2, hrecv, rfl⟩
  have hrun := ((Run.single h1).snoc h2).snoc h3
  refine ⟨_, _, hrun, no_false_confirmation hrun ?_ h4 htrace List.mem_cons_self⟩
  intro x
  cases x
  · exact (by decide : (1 : Nat) < 65535)
  · exact (by decide : (0 : Nat) < 65535)
end Mcoap
