import Mcoap.Ledger

/-! # Acks and malformed datagrams

    What `mc_endpt_udp_recv` makes of a datagram that arrives in any state
    a run leads to.

    * `ack_handled_iff`: an ack is dealt with as it should be if and only
      if its id is queued;
    * `rejected_dropped_iff`: a datagram that the decoder rejects is dropped
      only if nothing of it gets into the read buffer;
    * `removed_by_ack`: an entry that a receive removes is the first one of
      the ack's id, wherever the ack came from. -/

namespace Mcoap

open ByteMem ByteProg StableSort DList Runs Relation

/-! ## Section 1: Acks -/

/-- A well-formed ack that carries no queued id changes nothing; one that
    does removes the first entry of its id, and calls that entry's result
    function with `MN_DONE`.  The message is returned in both cases. -/
def AckHandled (qsort : Qsort McOption) (arrival : Arrival) (endpt : Endpoint)
    (message : McMessage) (l : Nodes Pending) : Prop :=
  ∃ endpt', mcEndptUdpRecv qsort arrival endpt = .ok (some message, endpt') ∧
    ((∀ x ∈ l, x.2.msgid ≠ mcMessageGetMessageId message) →
      endpt'.confirmq = endpt.confirmq ∧ endpt'.trace = endpt.trace) ∧
    ∀ xs a v ys, l = xs ++ (a, v) :: ys → v.msgid = mcMessageGetMessageId message →
      (∀ x ∈ xs, x.2.msgid ≠ mcMessageGetMessageId message) →
      endpt'.confirmq.Reps (xs ++ ys) ∧
      endpt'.trace = endpt.trace ++ (resultOf a v mnDone ++ [.removed a .recv])

theorem findId_first {msgid : UInt16} {xs ys : Nodes Pending} {a : Addr} {v : Pending}
    (hv : v.msgid = msgid) (hxs : ∀ x ∈ xs, x.2.msgid ≠ msgid) :
    findId msgid (xs ++ (a, v) :: ys) = some a := by
  induction xs with
  | nil => rw [List.nil_append, findId_cons, if_pos hv]
  | cons x xs ih =>
    rw [List.cons_append, findId_cons, if_neg (hxs x List.mem_cons_self)]
    exact ih fun y hy => hxs y (List.mem_cons_of_mem _ hy)

section

variable {qsort : Qsort McOption} {arrival : Arrival} {endpt endpt1 : Endpoint} {err : Int}
  {message : McMessage} {l : Nodes Pending}

/-- An ack is passed on to the second half of the function. -/
theorem mcEndptUdpRecv_ack
    (hdecode : recvMessage qsort arrival endpt = .ok (err, some message, endpt1))
    (hack : mcMessageIsAck (some message) = true) :
    mcEndptUdpRecv qsort arrival endpt =
      (recvAck endpt1 (mcMessageGetMessageId message) mnDone).map fun endpt =>
        (some message, endpt) := by
  obtain ⟨_, _, _, _, hdone⟩ := recvMessage_frame hdecode
  rw [hdone (by simp)] at hdecode
  unfold mcEndptUdpRecv
  rw [hdecode]
  show (if mcMessageIsAck (some message) = true then _ else _) = _
  rw [if_pos hack]
  cases recvAck endpt1 (mcMessageGetMessageId message) mnDone with
  | ok endpt' => rfl
  | error fault => rfl

/-- What happens to an ack of a queued id. -/
theorem ack_found (h : endpt.confirmq.Reps l)
    (hdecode : recvMessage qsort arrival endpt = .ok (err, some message, endpt1))
    (hack : mcMessageIsAck (some message) = true) {xs ys : Nodes Pending} {a : Addr}
    {v : Pending} (hl : l = xs ++ (a, v) :: ys) (hv : v.msgid = mcMessageGetMessageId message)
    (hxs : ∀ x ∈ xs, x.2.msgid ≠ mcMessageGetMessageId message) :
    ∃ endpt', mcEndptUdpRecv qsort arrival endpt = .ok (some message, endpt') ∧
      endpt'.confirmq.Reps (xs ++ ys) ∧
      endpt'.trace = endpt.trace ++ (resultOf a v mnDone ++ [.removed a .recv]) := by
  obtain ⟨hqueue, _, htrace, _, _⟩ := recvMessage_frame hdecode
  subst hl
  have h1 : endpt1.confirmq.Reps (xs ++ (a, v) :: ys) := by
    rw [hqueue]
    exact h
  obtain ⟨endpt', hremove, hreps, _, _, htrace'⟩ := recvAck_found h1 (findId_first hv hxs) mnDone
  refine ⟨endpt', ?_, hreps, ?_⟩
  · rw [mcEndptUdpRecv_ack hdecode hack, hremove]
    rfl
  · rw [htrace', htrace]

/-- What happens to an ack of any other id. -/
theorem ack_unmatched (h : endpt.confirmq.Reps l)
    (hdecode : recvMessage qsort arrival endpt = .ok (err, some message, endpt1))
    (hack : mcMessageIsAck (some message) = true)
    (hnone : ∀ x ∈ l, x.2.msgid ≠ mcMessageGetMessageId message) :
    mcEndptUdpRecv qsort arrival endpt = .error .nullDeref := by
  obtain ⟨hqueue, _, _, _, _⟩ := recvMessage_frame hdecode
  have h1 : endpt1.confirmq.Reps l := by
    rw [hqueue]
    exact h
  rw [mcEndptUdpRecv_ack hdecode hack, recvAck_none h1 (findId_none.mpr hnone)]
  rfl

end

/-- In every state that a run leads to: an ack is handled if and only if an
    entry with its id is queued. -/
theorem ack_handled_iff {qsort : Qsort McOption} {rdsize wrsize : UInt32} {host : Host}
    {ops : List EndpointOp} {endpt endpt1 : Endpoint} {arrival : Arrival} {err : Int}
    {message : McMessage}
    (hrun : Run (endptStep qsort) (mcEndptUdpInit rdsize wrsize host) ops endpt)
    (hdecode : recvMessage qsort arrival endpt = .ok (err, some message, endpt1))
    (hack : mcMessageIsAck (some message) = true) :
    ∃ l, endpt.confirmq.Reps l ∧ (AckHandled qsort arrival endpt message l ↔
      ∃ x ∈ l, x.2.msgid = mcMessageGetMessageId message) := by
  obtain ⟨s, hshows, _⟩ := reachable_shows hrun
  have h := hshows.reps
  refine ⟨s.entries, h, ?_⟩
  constructor
  -- without an entry the function does not even return
  · intro ⟨endpt', hrecv, _, _⟩
    by_contra hnone
    rw [ack_unmatched h hdecode hack fun x hx hid => hnone ⟨x, hx, hid⟩] at hrecv
    exact absurd hrecv (by simp)
  · intro ⟨x, hx, hid⟩
    rcases hfound : findId (mcMessageGetMessageId message) s.entries with _ | a
    · exact absurd hid (findId_none.mp hfound x hx)
    -- with one, the first of its id is found
    · obtain ⟨xs, v, ys, hl, hv, hxs⟩ := findId_some hfound
      obtain ⟨endpt', hrecv, _⟩ := ack_found h hdecode hack hl hv hxs
      refine ⟨endpt', hrecv, fun hnone => absurd hid (hnone x hx), ?_⟩
      intro xs' a' v' ys' hl' hv' hxs'
      obtain ⟨endpt'', hrecv', hafter⟩ := ack_found h hdecode hack hl' hv' hxs'
      rw [hrecv] at hrecv'
      cases hrecv'
      exact hafter

/-- The acknowledgement of a message that was sent just before. -/
theorem ack_handled_sent :
    ∃ endpt endpt1 err message,
      mcEndptUdpSend (mcEndptUdpInit 64 64 stillHost) peer ping 9 = .ok (mnDone, endpt) ∧
      recvMessage (insertion McOption) (.datagram [0x60, 0, 0, 7] peer) endpt =
        .ok (err, some message, endpt1) ∧
      ∃ l, endpt.confirmq.Reps l ∧
        (AckHandled (insertion McOption) (.datagram [0x60, 0, 0, 7] peer) endpt
          message l ↔ ∃ x ∈ l, x.2.msgid = mcMessageGetMessageId message) :=
  ⟨_, _, _, _, rfl, rfl, ack_handled_iff (run_ping rfl) rfl rfl⟩

/-- An ack that arrives before anything was sent. -/
theorem ack_unqueued_not_handled :
    ∃ endpt1 err message,
      recvMessage (insertion McOption) (.datagram [0x60, 0, 0, 7] peer)
        (mcEndptUdpInit 64 64 stillHost) = .ok (err, some message, endpt1) ∧
      mcMessageIsAck (some message) = true ∧
      (mcEndptUdpInit 64 64 stillHost).confirmq.Reps [] ∧
      ¬ AckHandled (insertion McOption) (.datagram [0x60, 0, 0, 7] peer)
        (mcEndptUdpInit 64 64 stillHost) message [] := by
  refine ⟨_, _, _, rfl, rfl, (mcEndptUdpInit_shows 64 64 stillHost).reps, ?_⟩
  intro ⟨endpt', hrecv, _⟩
  have hfault : mcEndptUdpRecv (insertion McOption)
      (.datagram [0x60, 0, 0, 7] peer) (mcEndptUdpInit 64 64 stillHost) =
      .error .nullDeref := rfl
  rw [hfault] at hrecv
  exact absurd hrecv (by simp)

/-! ## Section 2: Malformed datagrams -/

/-- The decoder returns null for the bytes of a datagram that get into the
    read buffer. -/
def Rejected (qsort : Qsort McOption) (bytes : List UInt8) (source : SockAddr)
    (endpt : Endpoint) : Prop :=
  let rdbuffer := (mnSocketRecvfrom (.datagram bytes source) endpt.rdbuffer).2.2
  ∃ bpos block host,
    runIn (mcMessageFromBuffer qsort rdbuffer.nbytes 0) ⟨endpt.rdbuffer.nbytes, rdbuffer.bytes⟩
      (mnTimeoutMarkstart endpt.tmout endpt.host).2 = .ok ((none, bpos), block, host)

/-- The arrival is dropped: null is returned, the read buffer has its size
    again, the confirm queue is as it was, and no result function is called. -/
def Dropped (qsort : Qsort McOption) (arrival : Arrival) (endpt : Endpoint) : Prop :=
  ∃ endpt', mcEndptUdpRecv qsort arrival endpt = .ok (none, endpt') ∧
    endpt'.rdbuffer.nbytes = endpt.rdbuffer.nbytes ∧ endpt'.confirmq = endpt.confirmq ∧
    endpt'.trace = endpt.trace

section

variable {qsort : Qsort McOption} {bytes : List UInt8} {source : SockAddr} {endpt : Endpoint}

/-- Nothing gets in of an empty datagram, and nothing gets into an empty
    buffer. -/
theorem take_rdbuffer_nil :
    bytes.take endpt.rdbuffer.nbytes.toNat = [] ↔ bytes = [] ∨ endpt.rdbuffer.nbytes = 0 := by
  have hzero : endpt.rdbuffer.nbytes.toNat = 0 ↔ endpt.rdbuffer.nbytes = 0 :=
    (UInt32.toNat_inj (b := 0))
  rw [List.take_eq_nil_iff, hzero, or_comm]

/-- A datagram of which something gets in: the sender's address is stored
    into the null message. -/
theorem recv_rejected (h : Rejected qsort bytes source endpt)
    (hsome : bytes.take endpt.rdbuffer.nbytes.toNat ≠ []) :
    mcEndptUdpRecv qsort (.datagram bytes source) endpt = .error .nullDeref := by
  obtain ⟨bpos, block, host, hrun⟩ := h
  have hdecode : recvMessage qsort (.datagram bytes source) endpt = .error .nullDeref := by
    simp only [mnSocketRecvfrom, if_neg hsome] at hrun
    simp only [recvMessage, mnSocketRecvfrom, if_neg hsome, ne_eq, not_true_eq_false, if_false]
    show (runIn _ _ _ >>= _) = _
    rw [hrun]
    rfl
  unfold mcEndptUdpRecv
  rw [hdecode]
  rfl

/-- One of which nothing gets in counts as a closed socket, and is not
    decoded. -/
theorem recv_nothing (hnone : bytes.take endpt.rdbuffer.nbytes.toNat = []) :
    Dropped qsort (.datagram bytes source) endpt := by
  have hclosed : mnClosed ≠ mnDone := by decide
  unfold Dropped mcEndptUdpRecv
  simp only [recvMessage, mnSocketRecvfrom, if_pos hnone, if_pos hclosed]
  exact ⟨_, rfl, rfl, rfl, rfl⟩

end

/-- A datagram that the decoder rejects is dropped if and only if nothing of
    it gets into the read buffer: it is empty, or the buffer is. -/
theorem rejected_dropped_iff {qsort : Qsort McOption} {bytes : List UInt8} {source : SockAddr}
    {endpt : Endpoint} (h : Rejected qsort bytes source endpt) :
    Dropped qsort (.datagram bytes source) endpt ↔ bytes = [] ∨ endpt.rdbuffer.nbytes = 0 := by
  rw [← take_rdbuffer_nil]
  constructor
  · intro ⟨endpt', hrecv, _⟩
    by_contra hsome
    rw [recv_rejected h hsome] at hrecv
    exact absurd hrecv (by simp)
  · exact recv_nothing

/-- The witness: a datagram whose only option runs past its end, and an
    empty one. -/
theorem rejected_dropped_iff_option :
    (Dropped (insertion McOption) (.datagram [0x40, 1, 0, 7, 0xb5, 0x61] peer)
        (mcEndptUdpInit 64 64 stillHost) ↔
      ([0x40, 1, 0, 7, 0xb5, 0x61] : List UInt8) = [] ∨
        (mcEndptUdpInit 64 64 stillHost).rdbuffer.nbytes = 0) ∧
    (Dropped (insertion McOption) (.datagram [] peer) (mcEndptUdpInit 64 64 stillHost) ↔
      ([] : List UInt8) = [] ∨ (mcEndptUdpInit 64 64 stillHost).rdbuffer.nbytes = 0) :=
  ⟨rejected_dropped_iff ⟨_, _, _, rfl⟩, rejected_dropped_iff ⟨_, _, _, rfl⟩⟩

/-- A datagram that is too short for the header. -/
theorem short_not_dropped :
    Rejected (insertion McOption) [0x40] peer (mcEndptUdpInit 64 64 stillHost) ∧
      ¬ Dropped (insertion McOption) (.datagram [0x40] peer)
        (mcEndptUdpInit 64 64 stillHost) := by
  refine ⟨⟨_, _, _, rfl⟩, ?_⟩
  intro ⟨endpt', hrecv, _⟩
  have hfault : mcEndptUdpRecv (insertion McOption) (.datagram [0x40] peer)
      (mcEndptUdpInit 64 64 stillHost) = .error .nullDeref := rfl
  rw [hfault] at hrecv
  exact absurd hrecv (by simp)

/-! ## Section 3: Where an ack comes from -/

section

variable {qsort : Qsort McOption} {bytes : List UInt8} {source : SockAddr}
  {endpt endpt1 : Endpoint} {err : Int}

/-- The sender's address goes into the message, and nowhere else. -/
theorem recvMessage_source {message : McMessage} (source' : SockAddr)
    (h : recvMessage qsort (.datagram bytes source) endpt = .ok (err, some message, endpt1)) :
    recvMessage qsort (.datagram bytes source') endpt =
      .ok (err, some { message with fromAddr := some source' }, endpt1) := by
  by_cases hempty : bytes.take endpt.rdbuffer.nbytes.toNat = []
  -- an empty datagram does not decode to a message
  · simp only [recvMessage, mnSocketRecvfrom, if_pos hempty] at h
    exact absurd h (by simp [mnClosed, mnDone, pure, Except.pure])
  · simp only [recvMessage, mnSocketRecvfrom, if_neg hempty] at h ⊢
    simp only [ne_eq, not_true_eq_false, if_false] at h ⊢
    obtain ⟨⟨⟨decoded, bpos⟩, block, host⟩, hrun, hrest⟩ := bind_eq_ok.mp h
    rw [hrun]
    cases decoded with
    | none => exact absurd hrest (by simp)
    | some decoded =>
      cases hrest
      rfl

/-- A receive that removes an entry has decoded an ack. -/
theorem recv_removes {arrival : Arrival} {endpt' : Endpoint} {l : Nodes Pending}
    (h : endpt.confirmq.Reps l) {msg : Option McMessage} {events : List Event} {a : Addr}
    (hrecv : mcEndptUdpRecv qsort arrival endpt = .ok (msg, endpt'))
    (htrace : endpt'.trace = endpt.trace ++ events) (hremoved : .removed a .recv ∈ events) :
    ∃ message xs v ys, msg = some message ∧ mcMessageIsAck msg = true ∧
      l = xs ++ (a, v) :: ys ∧ v.msgid = mcMessageGetMessageId message ∧
      (∀ x ∈ xs, x.2.msgid ≠ mcMessageGetMessageId message) ∧
      endpt'.confirmq.Reps (xs ++ ys) ∧ events = resultOf a v mnDone ++ [.removed a .recv] := by
  have hspec := mcEndptUdpRecv_spec h hrecv
  rcases hack : mcMessageIsAck msg with _ | _
  -- anything but an ack leaves the trace alone
  · rw [(hspec.other hack).2] at htrace
    have hnil : events = [] := List.self_eq_append_right.mp htrace
    rw [hnil] at hremoved
    exact absurd hremoved List.not_mem_nil
  · obtain ⟨message, xs, b, v, ys, hmsg, hl, hv, hxs, hreps, htrace'⟩ := hspec.ack hack
    rw [htrace] at htrace'
    have hevents := List.append_cancel_left htrace'
    -- the only removal it records is that of the entry it found
    rw [hevents] at hremoved
    have hab := removed_result hremoved rfl
    cases hab
    exact ⟨message, xs, v, ys, hmsg, rfl, hl, hv, hxs, hreps, hevents⟩

/-- The same bytes from anybody else have the same effect. -/
theorem recv_source {endpt' : Endpoint} {message : McMessage} (source' : SockAddr)
    (h : mcEndptUdpRecv qsort (.datagram bytes source) endpt = .ok (some message, endpt')) :
    mcEndptUdpRecv qsort (.datagram bytes source') endpt =
      .ok (some { message with fromAddr := some source' }, endpt') := by
  obtain ⟨⟨err, decoded, endpt1⟩, hdecode, hrest⟩ := bind_eq_ok.mp h
  rcases decoded with _ | decoded
  · cases hrest
  · unfold mcEndptUdpRecv
    rw [recvMessage_source source' hdecode]
    have hsame : mcMessageIsAck (some { decoded with fromAddr := some source' }) =
        mcMessageIsAck (some decoded) := rfl
    show (if mcMessageIsAck (some { decoded with fromAddr := some source' }) = true then _
      else _) = _
    simp only at hrest
    rw [hsame]
    by_cases hack : mcMessageIsAck (some decoded) = true
    · rw [if_pos hack] at hrest ⊢
      obtain ⟨endpt2, hconfirm, hrest⟩ := bind_eq_ok.mp hrest
      cases hrest
      exact bind_eq_ok.mpr ⟨endpt', hconfirm, rfl⟩
    · rw [if_neg hack] at hrest ⊢
      cases hrest
      rfl

end

/-- Whenever a receive removes an entry in a run, the datagram was an ack,
    and the entry is the first one that carries its id.  Its source does
    not matter. -/
theorem removed_by_ack {qsort : Qsort McOption} {rdsize wrsize : UInt32} {host : Host}
    {ops : List EndpointOp} {endpt endpt' : Endpoint} {arrival : Arrival}
    {msg : Option McMessage} {events : List Event} {a : Addr}
    (hrun : Run (endptStep qsort) (mcEndptUdpInit rdsize wrsize host) ops endpt)
    (hrecv : mcEndptUdpRecv qsort arrival endpt = .ok (msg, endpt'))
    (htrace : endpt'.trace = endpt.trace ++ events) (hremoved : .removed a .recv ∈ events) :
    ∃ bytes source message xs v ys, arrival = .datagram bytes source ∧ msg = some message ∧
      mcMessageIsAck msg = true ∧
      endpt.confirmq.Reps (xs ++ (a, v) :: ys) ∧ v.msgid = mcMessageGetMessageId message ∧
      (∀ x ∈ xs, x.2.msgid ≠ mcMessageGetMessageId message) ∧
      endpt'.confirmq.Reps (xs ++ ys) ∧ events = resultOf a v mnDone ++ [.removed a .recv] ∧
      ∀ source', mcEndptUdpRecv qsort (.datagram bytes source') endpt =
        .ok (some { message with fromAddr := some source' }, endpt') := by
  obtain ⟨s, hshows, _⟩ := reachable_shows hrun
  obtain ⟨message, xs, v, ys, rfl, hack, hl, hv, hxs, hreps, hevents⟩ :=
    recv_removes hshows.reps hrecv htrace hremoved
  have h := hshows.reps
  rw [hl] at h
  cases arrival with
  | failed err hne =>
    -- nothing was received, and null is returned
    obtain ⟨⟨_, _, _⟩, hdecode, hrest⟩ := bind_eq_ok.mp hrecv
    simp only [recvMessage, mnSocketRecvfrom, ne_eq, hne, not_false_eq_true, if_true] at hdecode
    cases hdecode
    cases hrest
  | datagram bytes source =>
    exact ⟨bytes, source, message, xs, v, ys, rfl, rfl, hack, h, hv, hxs, hreps, hevents,
      fun source' => recv_source source' hrecv⟩

/-- The acknowledgement of a message that was sent just before. -/
theorem removed_by_ack_sent :
    ∃ endpt endpt' msg,
      mcEndptUdpSend (mcEndptUdpInit 64 64 stillHost) peer ping 9 = .ok (mnDone, endpt) ∧
      mcEndptUdpRecv (insertion McOption) (.datagram [0x60, 0, 0, 7] peer) endpt =
        .ok (msg, endpt') ∧
      ∃ bytes source message xs v ys,
        Arrival.datagram [0x60, 0, 0, 7] peer = .datagram bytes source ∧
        msg = some message ∧ mcMessageIsAck msg = true ∧
        endpt.confirmq.Reps (xs ++ (0, v) :: ys) ∧ v.msgid = mcMessageGetMessageId message ∧
        (∀ x ∈ xs, x.2.msgid ≠ mcMessageGetMessageId message) ∧
        endpt'.confirmq.Reps (xs ++ ys) ∧
        [.called 0 9 7 mnDone, .removed 0 .recv] = resultOf 0 v mnDone ++ [.removed 0 .recv] ∧
        ∀ source', mcEndptUdpRecv (insertion McOption) (.datagram bytes source') endpt =
          .ok (some { message with fromAddr := some source' }, endpt') := by
  exact ⟨_, _, _, rfl, rfl, removed_by_ack (run_ping rfl) rfl rfl (by simp)⟩

/-- The same, but the ack comes from another address than the message went to. -/
theorem removed_by_stranger :
    ∃ endpt endpt' msg,
      mcEndptUdpSend (mcEndptUdpInit 64 64 stillHost) peer ping 9 = .ok (mnDone, endpt) ∧
      endpt.confirmq.first = some 0 ∧
      (endpt.confirmq.cells 0).map (fun entry => entry.val.dest) = some peer ∧
      mcEndptUdpRecv (insertion McOption) (.datagram [0x60, 0, 0, 7] ⟨2, 5683, 2, 0⟩) endpt =
        .ok (msg, endpt') ∧
      endpt'.trace = endpt.trace ++ [.called 0 9 7 mnDone, .removed 0 .recv] ∧
      endpt'.confirmq.first = none :=
  ⟨_, _, _, rfl, rfl, rfl, rfl, rfl, rfl⟩

end Mcoap
