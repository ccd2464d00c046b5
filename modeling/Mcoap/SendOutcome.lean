import Mcoap.Ledger
import Mcoap.MessageWritten

/-! # How a send ends

    `mc_endpt_udp_send` seen from the confirm queue, for every message and
    everything the socket can answer.

    * `mcEndptUdpSend_returns_iff`: it returns unless the encoder leaves
      the write buffer;
    * `send_atomic`: a send that fails leaves the queue as it was and calls
      the result function, one that does not leaves one new entry;
    * `oversized_not_refused`: a message too large for the write buffer is
      not stopped; the socket gets an empty datagram for it. -/

namespace Mcoap

open ByteMem ByteProg StableSort DList Runs

/-! ## Section 1: When a send returns -/

/-- The encoder passes its own size check and leaves the buffer all the same. -/
def LeavesBuffer (msg : McMessage) (nbytes : UInt32) : Prop :=
  ¬ mcMessageBufferSize msg > nbytes ∧ Overruns msg nbytes

/-- A message that fails the size check: the count is 0, and nothing is written. -/
theorem runIn_oversized {msg : McMessage} {block : McBuffer}
    (hsize : mcMessageBufferSize msg > block.nbytes) (host : Host) :
    runIn (mcMessageToBuffer msg block.nbytes) block host = .ok (0, block, host) := by
  have hnone : ∀ access ∈ ([] : List Access), access.index < block.nbytes.toNat :=
    fun access haccess => absurd haccess List.not_mem_nil
  unfold mcMessageToBuffer runIn
  rw [if_pos hsize]
  exact if_pos hnone

/-- An encoder that keeps to the write buffer returns no more than its size. -/
theorem runIn_mcMessageToBuffer {msg : McMessage} {block : McBuffer}
    (hinside : ¬ LeavesBuffer msg block.nbytes) (host : Host) :
    ∃ nbytes wrbuffer host', runIn (mcMessageToBuffer msg block.nbytes) block host =
      .ok (nbytes, wrbuffer, host') ∧ nbytes ≤ block.nbytes := by
  by_cases htest : mcMessageBufferSize msg > block.nbytes
  · exact ⟨0, block, host, runIn_oversized htest host,
      UInt32.le_iff_toNat_le.mpr (Nat.zero_le _)⟩
  · by_cases hfit : (writtenBytes msg).length ≤ block.nbytes.toNat
    · obtain ⟨nbytes, bytes, host', hrun, hlen, _⟩ := runIn_returns
        (mcMessageToBuffer_fits htest hfit block.bytes) (fun _ => trivial)
        (fun _ hr => absurd hr id) (fun _ hw => hw) id host
      refine ⟨nbytes, _, host', hrun, ?_⟩
      rw [UInt32.le_iff_toNat_le, hlen]
      exact hfit
    · obtain ⟨nbytes, bytes, host', hrun, rfl⟩ := runIn_returns
        (mcMessageToBuffer_overflows htest (Nat.lt_of_not_le hfit)
          (fun hover => hinside ⟨htest, hover⟩) block.bytes) (fun _ => trivial)
        (fun _ hr => absurd hr id) (fun _ hw => hw) id host
      exact ⟨0, _, host', hrun, UInt32.le_iff_toNat_le.mpr (Nat.zero_le _)⟩

theorem runIn_leavesBuffer {msg : McMessage} {block : McBuffer}
    (hover : LeavesBuffer msg block.nbytes) (host : Host) :
    runIn (mcMessageToBuffer msg block.nbytes) block host = .error .outOfBounds := by
  obtain ⟨access, haccess, hout⟩ :=
    mcMessageToBuffer_overruns hover.1 hover.2 block.bytes host.junk
  exact if_neg fun hinside => absurd (hinside access haccess) (Nat.not_lt.mpr hout)

/-- A send returns, whatever the socket does, unless the encoder leaves the
    write buffer. -/
theorem mcEndptUdpSend_returns_iff {endpt : Endpoint} {l : Nodes Pending}
    (h : endpt.confirmq.Reps l) (toaddr : SockAddr) (msg : McMessage) (resultfn : ResultFn) :
    (∃ r, mcEndptUdpSend endpt toaddr msg resultfn = .ok r) ↔
      ¬ LeavesBuffer msg endpt.wrbuffer.nbytes := by
  constructor
  · rintro ⟨r, hsend⟩ hover
    rw [mcEndptUdpSend, runIn_leavesBuffer hover] at hsend
    exact absurd hsend (by simp [bind, Except.bind])
  · intro hinside
    obtain ⟨nbytes, wrbuffer, host, hrun, hn⟩ := runIn_mcMessageToBuffer hinside endpt.host
    obtain ⟨err, endpt', hsend, _⟩ := mcEndptUdpSend_encoded h hrun hn toaddr resultfn
    exact ⟨(err, endpt'), hsend⟩

/-! ## Section 2: Send is atomic on the queue -/

/-- What a send that returned `err` has done to the queue, which stood for
    `l`, and whom it has told: `events` is what it recorded, `data` what it
    serialized. -/
structure SendAtomic (endpt endpt' : Endpoint) (l : Nodes Pending) (toaddr : SockAddr)
    (msg : McMessage) (resultfn : ResultFn) (err : Int) (events : List Event)
    (data : List UInt8) : Prop where
  /-- an error leaves the entries as they were -/
  kept   : err ≠ mnDone → endpt'.confirmq.Reps l
  /-- and the result function of a confirmable message is called with it -/
  told   : err ≠ mnDone → mcMessageIsConfirmable msg = true → resultfn > 1 →
    events.filter Event.isCalled =
      [.called endpt.confirmq.brk resultfn (mcMessageGetMessageId msg) err]
  /-- without an error no result function is called -/
  silent : err = mnDone → events.filter Event.isCalled = []
  /-- a message that is not confirmable leaves no entry -/
  non    : err = mnDone → mcMessageIsConfirmable msg = false → endpt'.confirmq.Reps l
  /-- a confirmable one leaves one entry, at the end -/
  con    : err = mnDone → mcMessageIsConfirmable msg = true → ∃ v,
    endpt'.confirmq.Reps (l ++ [(endpt.confirmq.brk, v)]) ∧
    v.msgid = mcMessageGetMessageId msg ∧ v.dest = toaddr ∧ v.msg.toList = data ∧
    v.xmitcounter = 1 ∧ v.resultfn = resultfn

section

variable {endpt endpt' : Endpoint} {l : Nodes Pending} {toaddr : SockAddr} {msg : McMessage}
  {resultfn : ResultFn} {err : Int} {data : List UInt8}

/-- The two ways the first transmission of a confirmable message can end. -/
theorem FirstSend.atomic {v : Pending} (hcon : mcMessageIsConfirmable msg = true)
    (hfresh : Fresh v toaddr msg resultfn) (hdata : v.msg.toList = data)
    (hfirst : FirstSend endpt endpt' l v err) :
    ∃ events, endpt'.trace = endpt.trace ++ events ∧
      SendAtomic endpt endpt' l toaddr msg resultfn err events data := by
  have hnon : ∀ {P : Prop}, mcMessageIsConfirmable msg = false → P := fun hc =>
    absurd hcon (by simp [hc])
  by_cases herr : err = mnDone
  · obtain ⟨hreps, htrace⟩ := hfirst.done herr
    refine ⟨_, htrace, fun hne => absurd herr hne, fun hne => absurd herr hne, fun _ => rfl,
      fun _ => hnon, fun _ _ => ⟨_, hreps, hfresh.msgid, hfresh.dest, hdata, rfl,
        hfresh.resultfn⟩⟩
  · obtain ⟨hreps, htrace⟩ := hfirst.failed herr
    refine ⟨_, htrace, fun _ => hreps, fun _ _ hfn => ?_, fun hdone => absurd hdone herr,
      fun hdone => absurd hdone herr, fun hdone => absurd hdone herr⟩
    -- the call is the only one among the events
    have hv : v.resultfn > 1 := by
      rw [hfresh.resultfn]
      exact hfn
    have hcalled := called_result (a := endpt.confirmq.brk) hv err .send
    rw [hfresh.resultfn, hfresh.msgid] at hcalled
    exact hcalled

theorem SendsData.atomic (h : endpt.confirmq.Reps l)
    (hsent : SendsData endpt endpt' l toaddr msg resultfn err data) :
    ∃ events, endpt'.trace = endpt.trace ++ events ∧
      SendAtomic endpt endpt' l toaddr msg resultfn err events data := by
  rcases hcon : mcMessageIsConfirmable msg with _ | _
  -- without an entry, the only event is the transmission
  · obtain ⟨hqueue, _, htrace⟩ := hsent.non hcon
    have hreps : endpt'.confirmq.Reps l := by
      rw [hqueue]
      exact h
    exact ⟨_, htrace, fun _ => hreps, fun _ hc => absurd hc (by simp [hcon]), fun _ => rfl,
      fun _ _ => hreps, fun _ hc => absurd hc (by simp [hcon])⟩
  · obtain ⟨v, hfresh, hdata, hfirst⟩ := hsent.con hcon
    exact hfirst.atomic hcon hfresh hdata

end

/-- For every message and everything the socket can answer: a send returns,
    if the encoder keeps to the write buffer, and a send that returns either
    fails and changes nothing, or appends the one entry it should. -/
theorem send_atomic {endpt : Endpoint} {l : Nodes Pending} (h : endpt.confirmq.Reps l)
    (toaddr : SockAddr) (msg : McMessage) (resultfn : ResultFn) :
    (¬ LeavesBuffer msg endpt.wrbuffer.nbytes →
      ∃ r, mcEndptUdpSend endpt toaddr msg resultfn = .ok r) ∧
    ∀ err endpt', mcEndptUdpSend endpt toaddr msg resultfn = .ok (err, endpt') →
      ∃ events nbytes wrbuffer host, endpt'.trace = endpt.trace ++ events ∧
        runIn (mcMessageToBuffer msg endpt.wrbuffer.nbytes) endpt.wrbuffer endpt.host =
          .ok (nbytes, wrbuffer, host) ∧
        SendAtomic endpt endpt' l toaddr msg resultfn err events
          (slice wrbuffer.bytes 0 nbytes.toNat) := by
  constructor
  · exact (mcEndptUdpSend_returns_iff h toaddr msg resultfn).mpr
  · intro err endpt' hsend
    obtain ⟨nbytes, wrbuffer, host, hrun, hsent⟩ := mcEndptUdpSend_data h hsend
    obtain ⟨events, htrace, hatomic⟩ := hsent.atomic h
    exact ⟨events, nbytes, wrbuffer, host, htrace, hrun, hatomic⟩

/-- A confirmable message on a fresh endpoint. -/
theorem send_atomic_ping : ∃ endpt',
    mcEndptUdpSend (mcEndptUdpInit 64 64 stillHost) peer ping 9 = .ok (mnDone, endpt') ∧
    ∃ events nbytes wrbuffer host, endpt'.trace = [] ++ events ∧
      runIn (mcMessageToBuffer ping 64) (mcEndptUdpInit 64 64 stillHost).wrbuffer
        (mcEndptUdpInit 64 64 stillHost).host = .ok (nbytes, wrbuffer, host) ∧
      SendAtomic (mcEndptUdpInit 64 64 stillHost) endpt' [] peer ping 9 mnDone events
        (slice wrbuffer.bytes 0 nbytes.toNat) :=
  ⟨_, rfl, (send_atomic (mcEndptUdpInit_shows 64 64 stillHost).reps peer ping 9).2 _ _ rfl⟩

/-! ## Section 3: Messages that are too large -/

/-- A send fails and hands the socket nothing at all; the confirm queue
    stands for the entries it stood for before. -/
def Refuses (endpt : Endpoint) (toaddr : SockAddr) (msg : McMessage) (resultfn : ResultFn) :
    Prop :=
  ∃ err endpt' events, mcEndptUdpSend endpt toaddr msg resultfn = .ok (err, endpt') ∧
    err ≠ mnDone ∧ endpt'.trace = endpt.trace ++ events ∧
    events.filter Event.isSent = [] ∧
    ∀ l, endpt.confirmq.Reps l → endpt'.confirmq.Reps l

/-- What happens instead: the send fails and leaves the queue alone, but the
    socket gets one datagram, and it is empty. -/
def SendsEmpty (endpt : Endpoint) (toaddr : SockAddr) (msg : McMessage) (resultfn : ResultFn) :
    Prop :=
  ∃ err endpt' events owner, mcEndptUdpSend endpt toaddr msg resultfn = .ok (err, endpt') ∧
    err ≠ mnDone ∧ endpt'.trace = endpt.trace ++ events ∧
    events.filter Event.isSent = [.sent owner [] toaddr err] ∧
    ∀ l, endpt.confirmq.Reps l → endpt'.confirmq.Reps l

theorem not_refuses_of_sendsEmpty {endpt : Endpoint} {toaddr : SockAddr} {msg : McMessage}
    {resultfn : ResultFn} (h : SendsEmpty endpt toaddr msg resultfn) :
    ¬ Refuses endpt toaddr msg resultfn := by
  obtain ⟨err, endpt', events, owner, hsend, _, htrace, hsent, _⟩ := h
  rintro ⟨err', endpt'', events', hsend', _, htrace', hnone, _⟩
  rw [hsend] at hsend'
  cases hsend'
  rw [htrace] at htrace'
  rw [List.append_cancel_left htrace', hnone] at hsent
  exact absurd hsent (by simp)

/-- An empty datagram never counts as sent. -/
theorem mnSocketSendto_empty (host : Host) : (mnSocketSendto 0 host).1 ≠ mnDone := by
  show (if host.sends host.nsends = 0 ∧ 0 = 0 then mnClosed else host.sends host.nsends) ≠ mnDone
  by_cases hzero : host.sends host.nsends = 0
  · rw [if_pos ⟨hzero, rfl⟩]
    decide
  · rw [if_neg fun hc => hzero hc.1]
    exact hzero

/-- The count 0 of an encoder that failed is sent like any other count. -/
theorem oversized_sendsEmpty {endpt : Endpoint} {l : Nodes Pending} (h : endpt.confirmq.Reps l)
    (toaddr : SockAddr) {msg : McMessage}
    (hsize : endpt.wrbuffer.nbytes < mcMessageBufferSize msg) (resultfn : ResultFn) :
    SendsEmpty endpt toaddr msg resultfn := by
  have hempty : (0 : UInt32) ≤ endpt.wrbuffer.nbytes :=
    UInt32.le_iff_toNat_le.mpr (Nat.zero_le _)
  obtain ⟨err, endpt', hsend, hsent, _, hcode⟩ :=
    mcEndptUdpSend_encoded h (runIn_oversized hsize endpt.host) hempty toaddr resultfn
  have herr : err ≠ mnDone := by
    rw [hcode]
    exact mnSocketSendto_empty endpt.host
  -- the queue stands for one list only
  have hkept : endpt'.confirmq.Reps l → ∀ l', endpt.confirmq.Reps l' → endpt'.confirmq.Reps l' := by
    intro hreps l' h'
    rw [h'.unique h]
    exact hreps
  rcases hcon : mcMessageIsConfirmable msg with _ | _
  · obtain ⟨hqueue, _, htrace⟩ := hsent.non hcon
    refine ⟨err, endpt', _, none, hsend, herr, htrace, rfl, fun l' h' => ?_⟩
    rw [hqueue]
    exact h'
  · obtain ⟨v, hfresh, hdata, hfirst⟩ := hsent.con hcon
    obtain ⟨hreps, htrace⟩ := hfirst.failed herr
    refine ⟨err, endpt', _, some endpt.confirmq.brk, hsend, herr, htrace, ?_, hkept hreps⟩
    rw [hdata, hfresh.dest, List.filter_append, sent_removed]
    rfl

/-- No message that is too large for the write buffer is refused. -/
theorem oversized_not_refused {endpt : Endpoint} {l : Nodes Pending} (h : endpt.confirmq.Reps l)
    (toaddr : SockAddr) {msg : McMessage}
    (hsize : endpt.wrbuffer.nbytes < mcMessageBufferSize msg) (resultfn : ResultFn) :
    SendsEmpty endpt toaddr msg resultfn ∧ ¬ Refuses endpt toaddr msg resultfn := by
  have hempty := oversized_sendsEmpty h toaddr hsize resultfn
  exact ⟨hempty, not_refuses_of_sendsEmpty hempty⟩

/-- A confirmable message of 21 bytes. -/
def longPing : McMessage :=
  mcMessageConInit 0 7 ⟨0, fun _ => 0⟩ none (some (McBuffer.ofList (List.replicate 16 0x61)))

/-- A write buffer of 16 bytes is too small for it. -/
theorem oversized_not_refused_ping :
    SendsEmpty (mcEndptUdpInit 64 16 stillHost) peer longPing 9 ∧
      ¬ Refuses (mcEndptUdpInit 64 16 stillHost) peer longPing 9 :=
  oversized_not_refused (mcEndptUdpInit_shows 64 16 stillHost).reps peer (by decide) 9

/-- Not every message that is too large is refused. -/
theorem oversized_ping_sent : ¬ ∀ (endpt : Endpoint) (toaddr : SockAddr) (msg : McMessage)
    (resultfn : ResultFn), endpt.wrbuffer.nbytes < mcMessageBufferSize msg →
      (∃ l, endpt.confirmq.Reps l) → Refuses endpt toaddr msg resultfn := by
  intro hall
  have hsize : (mcEndptUdpInit 64 16 stillHost).wrbuffer.nbytes < mcMessageBufferSize longPing := by
    decide
  have hreps := (mcEndptUdpInit_shows 64 16 stillHost).reps
  obtain ⟨err, endpt', events, hsend, _, htrace, hnone, _⟩ :=
    hall (mcEndptUdpInit 64 16 stillHost) peer longPing 9 hsize ⟨[], hreps⟩
  cases hsend
  have hevents : events = [.queued 0 7 peer [] 9, .sent (some 0) [] peer mnClosed,
      .called 0 9 7 mnClosed, .removed 0 .send] := List.append_cancel_left htrace.symm
  rw [hevents] at hnone
  exact absurd hnone (by decide)

end Mcoap
