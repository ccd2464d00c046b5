import Mathlib.Algebra.Order.Archimedean.Basic
import Mcoap.WaitLoop
import Mcoap.Requests
import Mcoap.PendingIds
import Mcoap.SendOutcome
import Mcoap.Parser

/-! # The core tests

    `testbase/accessor.c`, and the programs of `testbase/core01_get_con.c`
    and `testbase/core02_delete_con.c` up to their asserts: a client that
    sends one confirmable request from a fresh endpoint, whose socket is
    created and bound, keeps a copy of its token, and waits.

    * `copyQueuedToken_found`: the copy is the token that was sent;
    * `core_test_ends`: the program comes to its asserts, unless a receive
      faults;
    * `core_test_outcome`: what it has then. -/

namespace Mcoap

open ByteMem ByteProg StableSort DList Runs

/-! ## Section 1: The program -/

/-- Copy a token from a serialized buffer in the output confirmation queue. -/
def mcEndptUdpCopyQueuedToken (endpt : Endpoint) (msgid : UInt16) :
    Except Fault (Option McBuffer) := do
  let found ← mcBufferQueueGet endpt.confirmq msgid
  match found with
  | none => return none
  | some a =>
    let (_, entry) ← entryAt endpt.confirmq.cells (some a)
    let ((word, _), _) ← runIn (mcBufferNextUint32 0) entry.val.msg endpt.host
    let tklen := mcHeaderGetTokenLength (msSwapU32 word)
    return mcBufferCopy (some entry.val.msg) 4 tklen.toUInt32

/-- `test_get_con` and `test_delete_con`. -/
inductive CoreTest where
  | getCon
  | deleteCon

/-- What a test has when it comes to its asserts. -/
structure Exchanged where
  msgid : UInt16
  token : Option McBuffer
  msg   : Option McMessage
  endpt : Endpoint

section

variable (qsort : Qsort McOption) (mcUriToOptions : UriToOptions)

/-- The request that a test sends. -/
def CoreTest.request : CoreTest → Endpoint → SockAddr → ResultFn → List UInt8 →
    Option McOptionsList → Except Fault (UInt16 × Endpoint)
  | .getCon => mcEndptUdpGet qsort mcUriToOptions
  | .deleteCon => mcEndptUdpDelete qsort mcUriToOptions

/-- A test that waits `fuel` rounds at most. -/
def CoreTest.run (test : CoreTest) (host : Host) (addr : SockAddr) (uri : List UInt8)
    (resultfn : ResultFn) (arrivals : Nat → Arrival) (fuel : Nat) :
    Except Fault (Option Exchanged) := do
  let endpt := mcEndptUdpInit 1024 1024 host
  let (msgid, endpt) ← test.request qsort mcUriToOptions endpt addr resultfn uri none
  let token ← mcEndptUdpCopyQueuedToken endpt msgid
  let result ← waitLoop qsort resultfn arrivals fuel 0 none endpt
  return result.map fun r => ⟨msgid, token, r.1, r.2⟩

end

/-! ## Section 2: The token -/

section

variable {endpt endpt' : Endpoint} {l : Nodes Pending} {a : Addr} {v : Pending} {msgid : UInt16}

/-- The copy of some bytes in the middle of a buffer. -/
theorem mcBufferCopy_middle {src : McBuffer} {pre bs suf : List UInt8} {spos nbytes : UInt32}
    (hsrc : src.toList = pre ++ (bs ++ suf)) (hpre : spos.toNat = pre.length)
    (hbs : nbytes.toNat = bs.length) :
    ∃ copy, mcBufferCopy (some src) spos nbytes = some copy ∧ copy.toList = bs := by
  have hlen := src.toList_length
  rw [hsrc, List.length_append, List.length_append] at hlen
  have hroom : ¬ src.nbytes - spos < nbytes := by
    rw [UInt32.lt_iff_toNat_lt, position_room (by omega)]
    omega
  refine ⟨copyTo ⟨nbytes, ofList []⟩ 0 src spos nbytes, ?_, ?_⟩
  · rw [mcBufferCopy, if_neg hroom]
  · have hheld : Holds src.bytes 0 (pre ++ (bs ++ suf)) := by
      rw [← hsrc]
      exact holds_slice _ _ _
    rw [holds_append, holds_append, Nat.zero_add] at hheld
    have hslice : slice src.bytes spos.toNat nbytes.toNat = bs := by
      rw [hpre, hbs]
      exact slice_of_holds hheld.2.1
    show slice (blit (ofList []) 0 (slice src.bytes spos.toNat nbytes.toNat)) 0 nbytes.toNat = bs
    rw [hslice, hbs]
    exact slice_of_holds (holds_blit _ 0 _)

/-- The first four bytes of a buffer, as a word. -/
theorem runIn_nextUint32 {block : McBuffer} {word : UInt32} {rest : List UInt8}
    (hdata : block.toList = image32 word ++ rest) (host : Host) :
    ∃ block' host', runIn (mcBufferNextUint32 0) block host = .ok ((word, 4), block', host') := by
  have hlen := block.toList_length
  rw [hdata, List.length_append, image32_length] at hlen
  have hheld : Holds block.bytes 0 (image32 word ++ rest) := by
    rw [← hdata]
    exact holds_slice _ _ _
  rw [holds_append] at hheld
  obtain ⟨⟨h0, h1, h2, h3, _⟩, _⟩ := hheld
  simp only [Nat.zero_add] at h0 h1 h2 h3
  have hwp : wp (roomMode block.nbytes.toNat) (mcBufferNextUint32 0)
      (fun r _ => r = (word, 4)) block.bytes := by
    simp only [mcBufferNextUint32, wp_bind, wp_readByte, wp_pure, UInt32.toNat_zero, Nat.zero_add,
      h0, h1, h2, h3, msWord32_self]
    have hroom : ∀ i, i < 4 → i < block.nbytes.toNat := fun i hi => by omega
    exact ⟨hroom 0 (by omega), hroom 1 (by omega), hroom 2 (by omega), hroom 3 (by omega), rfl⟩
  obtain ⟨_, bytes, host', hrun, rfl⟩ := runIn_returns hwp (fun _ => trivial) (fun _ hr => hr)
    (fun _ hw => absurd hw id) id host
  exact ⟨_, host', hrun⟩

/-- The token of the message that is found in the queue. -/
theorem copyQueuedToken_found {xs ys : Nodes Pending} {header : UInt32} {token rest : List UInt8}
    (hreps : endpt.confirmq.Reps (xs ++ (a, v) :: ys))
    (hfound : findId msgid (xs ++ (a, v) :: ys) = some a)
    (hdata : v.msg.toList = image32 (msSwapU32 header) ++ (token ++ rest))
    (htoken : (mcHeaderGetTokenLength header).toNat = token.length) :
    ∃ copy, mcEndptUdpCopyQueuedToken endpt msgid = .ok (some copy) ∧ copy.toList = token := by
  obtain ⟨block, host, hword⟩ := runIn_nextUint32 hdata endpt.host
  have hcount : (mcHeaderGetTokenLength header).toUInt32.toNat = token.length := by
    rw [UInt8.toNat_toUInt32]
    exact htoken
  obtain ⟨copy, hcopy, hbytes⟩ := @mcBufferCopy_middle v.msg _ token rest 4 _ hdata rfl hcount
  refine ⟨copy, ?_, hbytes⟩
  unfold mcEndptUdpCopyQueuedToken
  rw [mcBufferQueueGet_spec hreps, hfound]
  show (entryAt endpt.confirmq.cells (some a) >>= _) = _
  rw [entryAt_some hreps.isList.node]
  show (runIn (mcBufferNextUint32 0) v.msg endpt.host >>= _) = _
  rw [hword]
  show Except.ok (mcBufferCopy (some v.msg) 4
    (mcHeaderGetTokenLength (msSwapU32 (msSwapU32 header))).toUInt32) = _
  rw [msSwapU32_swap, hcopy]

theorem copyQueuedToken_none (hreps : endpt.confirmq.Reps l) (hnone : findId msgid l = none) :
    mcEndptUdpCopyQueuedToken endpt msgid = .ok none := by
  unfold mcEndptUdpCopyQueuedToken
  rw [mcBufferQueueGet_spec hreps, hnone]
  rfl

/-! ## Section 3: The request -/

/-- What the socket takes is the whole message. -/
theorem mcEndptUdpSend_whole (h : endpt.confirmq.Reps l) {toaddr : SockAddr} {msg : McMessage}
    {resultfn : ResultFn} (hsend : mcEndptUdpSend endpt toaddr msg resultfn = .ok (mnDone, endpt')) :
    SendsData endpt endpt' l toaddr msg resultfn mnDone (writtenBytes msg) := by
  obtain ⟨nbytes, wrbuffer, host, hrun, hn⟩ := mcEndptUdpSend_returns hsend
  obtain ⟨err, endpt1, hsend', hspec, _, hcode⟩ := mcEndptUdpSend_encoded h hrun hn toaddr resultfn
  rw [hsend] at hsend'
  cases hsend'
  have hpos : nbytes ≠ 0 := by
    rintro rfl
    exact mnSocketSendto_empty endpt.host hcode.symm
  by_cases htest : mcMessageBufferSize msg > endpt.wrbuffer.nbytes
  · rw [runIn_oversized htest] at hrun
    cases hrun
    exact absurd rfl hpos
  by_cases hfit : (writtenBytes msg).length ≤ endpt.wrbuffer.nbytes.toNat
  · obtain ⟨count, bytes, host', hrun', hlen, hbytes⟩ := runIn_returns
      (mcMessageToBuffer_fits htest hfit endpt.wrbuffer.bytes) (fun _ => trivial)
      (fun _ hr => absurd hr id) (fun _ hw => hw) id endpt.host
    rw [hrun] at hrun'
    cases hrun'
    have hdata : slice bytes 0 nbytes.toNat = writtenBytes msg := by
      rw [hlen, hbytes]
      exact slice_of_holds (holds_blit _ 0 _)
    rw [hdata] at hspec
    exact hspec
  -- the encoder gives up, or leaves the buffer
  · by_cases hover : Overruns msg endpt.wrbuffer.nbytes
    · rw [runIn_leavesBuffer ⟨htest, hover⟩] at hrun
      cases hrun
    · obtain ⟨count, bytes, host', hrun', rfl⟩ := runIn_returns
        (mcMessageToBuffer_overflows htest (Nat.lt_of_not_le hfit) hover endpt.wrbuffer.bytes)
        (fun _ => trivial) (fun _ hr => absurd hr id) (fun _ hw => hw) id endpt.host
      rw [hrun] at hrun'
      cases hrun'
      exact absurd rfl hpos

/-- The message that a request sends. -/
structure RequestMessage (msg : McMessage) (msgid : UInt16) (suffix : UInt32) : Prop where
  con   : mcMessageIsConfirmable msg = true
  id    : mcMessageGetMessageId msg = msgid
  count : mcHeaderGetTokenLength msg.header = 6
  token : msg.token.toList = image16 msgid ++ image32 suffix

/-- A request with a result function sends a confirmable message with the
    next id, and a token that starts with it. -/
theorem sendMsg_request {qsort : Qsort McOption} {mcUriToOptions : UriToOptions} {addr : SockAddr}
    {resultfn : ResultFn} {code : UInt8} {uri : List UInt8} {extra : Option McOptionsList}
    {payload : Option McBuffer} {r : UInt16} (hfn : resultfn > 1)
    (hsend : sendMsg qsort mcUriToOptions endpt addr resultfn code uri extra payload =
      .ok (r, endpt')) :
    ∃ drawn msg suffix err, drawn.confirmq = endpt.confirmq ∧ drawn.trace = endpt.trace ∧
      RequestMessage msg endpt.nextid suffix ∧
      mcEndptUdpSend drawn addr msg resultfn = .ok (err, endpt') ∧
      r = if err ≠ mnDone then 0 else endpt.nextid := by
  obtain ⟨⟨list, host⟩, _, hrest⟩ := bind_eq_ok.mp hsend
  have hne : resultfn ≠ 0 := by
    rintro rfl
    exact absurd hfn (by decide)
  simp only [mkMessage, if_pos hne] at hrest
  obtain ⟨⟨err, endpt1⟩, hsent, hret⟩ := bind_eq_ok.mp hrest
  cases hret
  refine ⟨_, _, UInt32.ofNat (rand host).1, err, ?_, ?_, ⟨?_, ?_, ?_, ?_⟩, hsent, rfl⟩
  · rfl
  · rfl
  · show (mcConfirm == mcHeaderGetMessageType (mcHeaderCreate _ _ _ _ _)) = true
    rw [mcHeaderGetMessageType_create]
    rfl
  · exact mcHeaderGetMessageId_create ..
  · show mcHeaderGetTokenLength (mcHeaderCreate _ _ _ _ _) = 6
    have hsix (msgid : UInt16) (host : Host) : (mcTokenCreate2 msgid host).1.nbytes = 6 := rfl
    rw [mcHeaderGetTokenLength_create, hsix]
    rfl
  · exact McBuffer.ofList_toList (by simp)

end

/-! ## Section 4: The loop of a test -/

/-- The calls of result functions. -/
def Endpoint.calls (endpt : Endpoint) : List Event := endpt.trace.filter Event.isCalled

/-- How a test's loop can end: with the ack of the request, with any other
    message before or after the request was given up, or without one. -/
inductive Ended (resultfn : ResultFn) (msgid : UInt16) : Option McMessage → List Event → Prop where
  | acked {message : McMessage} (hack : mcMessageIsAck (some message) = true)
    (hid : mcMessageGetMessageId message = msgid) :
    Ended resultfn msgid (some message) [.called 0 resultfn msgid mnDone]
  | other {message : McMessage} (hother : mcMessageIsAck (some message) = false) :
    Ended resultfn msgid (some message) []
  | late {message : McMessage} {err : Int} (hother : mcMessageIsAck (some message) = false)
    (herr : err ≠ mnDone) :
    Ended resultfn msgid (some message) [.called 0 resultfn msgid err]
  | silent {err : Int} (herr : err ≠ mnDone) :
    Ended resultfn msgid none [.called 0 resultfn msgid err]

/-- The request is the only message in the queue, and nobody has been told
    anything. -/
structure Waits (resultfn : ResultFn) (msgid : UInt16) (endpt : Endpoint) : Prop where
  entry : ∃ v, endpt.confirmq.Reps [(0, v)] ∧ v.msgid = msgid ∧ v.resultfn = resultfn
  calls : endpt.calls = []

section

variable {qsort : Qsort McOption} {resultfn : ResultFn} {msgid : UInt16} {arrivals : Nat → Arrival}
  {arrival : Arrival} {endpt endpt' : Endpoint} {msg : Option McMessage} {a : Addr} {v : Pending}

theorem calls_append {events : List Event} (htrace : endpt'.trace = endpt.trace ++ events) :
    endpt'.calls = endpt.calls ++ events.filter Event.isCalled := by
  rw [Endpoint.calls, htrace, List.filter_append]
  rfl

theorem completed_of_calls {err : Int} (h : endpt.calls = [.called 0 resultfn msgid err]) :
    completed resultfn endpt = true := by
  have hmem : Event.called 0 resultfn msgid err ∈ endpt.calls := by
    rw [h]
    exact List.mem_singleton_self _
  exact List.any_eq_true.mpr ⟨_, (List.mem_filter.mp hmem).1, beq_self_eq_true resultfn⟩

theorem not_completed_of_calls (h : endpt.calls = []) : completed resultfn endpt = false := by
  rw [completed, List.any_eq_false]
  intro event hevent hcalls
  have hcalled : event.isCalled = true := by
    cases event with
    | called _ _ _ _ => rfl
    | queued _ _ _ _ _ => exact absurd hcalls (by simp [Event.callsFn])
    | sent _ _ _ _ => exact absurd hcalls (by simp [Event.callsFn])
    | removed _ _ => exact absurd hcalls (by simp [Event.callsFn])
  have hmem : event ∈ endpt.calls := List.mem_filter.mpr ⟨hevent, hcalled⟩
  rw [h] at hmem
  exact absurd hmem List.not_mem_nil

/-- What a pass does to the only entry: it stays what it is a message of, or
    it leaves and its result function is told. -/
theorem visitEntry_calls (hfn : v.resultfn > 1) (tmout : MnTimeout) (host : Host) :
    (∃ v', (visitEntry a v tmout host).entry = some v' ∧ v'.msgid = v.msgid ∧
      v'.resultfn = v.resultfn ∧ (visitEntry a v tmout host).events.filter Event.isCalled = []) ∨
    ((visitEntry a v tmout host).entry = none ∧ ∃ err, err ≠ mnDone ∧
      (visitEntry a v tmout host).events.filter Event.isCalled =
        [.called a v.resultfn v.msgid err]) := by
  unfold visitEntry
  simp only
  split
  · unfold resendEntry
    split
    · exact Or.inr ⟨rfl, mnTimeout, by decide, called_result hfn _ _⟩
    · simp only
      split
      · next herr => exact Or.inr ⟨rfl, _, herr, called_result hfn _ _⟩
      · exact Or.inl ⟨_, rfl, rfl, rfl, rfl⟩
  · exact Or.inl ⟨v, rfl, rfl, rfl, rfl⟩

/-- The pass over the only entry. -/
theorem Waits.check (h : Waits resultfn msgid endpt) (hfn : resultfn > 1)
    (hcheck : mcEndptUdpCheckQueues endpt = .ok endpt') :
    Waits resultfn msgid endpt' ∨
      ∃ err, err ≠ mnDone ∧ endpt'.calls = [.called 0 resultfn msgid err] := by
  obtain ⟨⟨v, hreps, rfl, rfl⟩, hcalls⟩ := h
  obtain ⟨endpt1, hcheck', hpassed⟩ := mcEndptUdpCheckQueues_spec hreps
  rw [hcheck] at hcheck'
  cases hcheck'
  have hgrow := calls_append hpassed.trace
  have hevents : (checkPass [(0, v)] endpt.tmout endpt.host).events =
      (visitEntry 0 v endpt.tmout endpt.host).events := List.append_nil _
  rw [hcalls, List.nil_append, hevents] at hgrow
  have hentries : (checkPass [(0, v)] endpt.tmout endpt.host).entries =
      ((visitEntry 0 v endpt.tmout endpt.host).entry.map fun v => (0, v)).toList :=
    List.append_nil _
  have hreps' := hpassed.reps
  rw [hentries] at hreps'
  rcases visitEntry_calls hfn endpt.tmout endpt.host with
    ⟨v', hentry, hid, hfn', hnone⟩ | ⟨_, err, herr, hcalled⟩
  · rw [hentry] at hreps'
    exact Or.inl ⟨⟨v', hreps', hid, hfn'⟩, hgrow.trans hnone⟩
  · exact Or.inr ⟨err, herr, hgrow.trans hcalled⟩

/-- Step: a round ends the loop, or leaves everything as it was. -/
theorem Waits.round (h : Waits resultfn msgid endpt) (hfn : resultfn > 1)
    (hround : waitRound qsort arrival endpt = .ok (msg, endpt')) :
    (msg = none ∧ Waits resultfn msgid endpt') ∨ Ended resultfn msgid msg endpt'.calls := by
  obtain ⟨⟨msg', endpt1⟩, hrecv, hrest⟩ := bind_eq_ok.mp hround
  obtain ⟨endpt2, hcheck, hret⟩ := bind_eq_ok.mp hrest
  cases hret
  obtain ⟨v, hreps, hid, hfn'⟩ := h.entry
  have hspec := mcEndptUdpRecv_spec hreps hrecv
  rcases hack : mcMessageIsAck msg with _ | _
  · obtain ⟨hqueue, htrace⟩ := hspec.other hack
    have h1 : Waits resultfn msgid endpt1 := by
      refine ⟨⟨v, ?_, hid, hfn'⟩, ?_⟩
      · rw [hqueue]
        exact hreps
      · rw [Endpoint.calls, htrace]
        exact h.calls
    rcases h1.check hfn hcheck with hwaits | ⟨err, herr, hcalled⟩
    · cases msg with
      | none => exact Or.inl ⟨rfl, hwaits⟩
      | some message =>
        right
        rw [hwaits.calls]
        exact Ended.other hack
    · right
      rw [hcalled]
      cases msg with
      | none => exact Ended.silent herr
      | some message => exact Ended.late hack herr
  -- an ack is of the only message there is
  · right
    obtain ⟨message, xs, b, u, ys, rfl, hl, hu, _, hreps1, htrace⟩ := hspec.ack hack
    obtain ⟨rfl, hlast⟩ : xs = [] ∧ (b, u) :: ys = [(0, v)] := by
      cases xs with
      | nil => exact ⟨rfl, hl.symm⟩
      | cons x xs => exact absurd hl (by simp)
    cases hlast
    obtain ⟨endpt3, hcheck', hpassed⟩ := mcEndptUdpCheckQueues_spec hreps1
    rw [hcheck] at hcheck'
    cases hcheck'
    rw [calls_append hpassed.trace, calls_append htrace, h.calls,
      called_result (by rw [hfn']; exact hfn), hfn', hid]
    exact Ended.acked hack (hu.symm.trans hid)

theorem Ended.stops (h : Ended resultfn msgid msg endpt.calls) :
    ¬ (msg.isNone ∧ completed resultfn endpt = false) := by
  rintro ⟨hnone, hopen⟩
  generalize hcalls : endpt.calls = calls at h
  cases h with
  | acked hack hid => exact absurd hnone (by simp)
  | other hother => exact absurd hnone (by simp)
  | late hother herr => exact absurd hnone (by simp)
  | silent herr =>
    rw [completed_of_calls hcalls] at hopen
    exact absurd hopen (by simp)

/-- Run: by induction on the rounds. -/
theorem Waits.loop (h : Waits resultfn msgid endpt) (hfn : resultfn > 1) {fuel iround : Nat}
    (hloop : waitLoop qsort resultfn arrivals fuel iround none endpt = .ok (some (msg, endpt'))) :
    Ended resultfn msgid msg endpt'.calls := by
  induction fuel generalizing iround endpt with
  | zero =>
    rw [waitLoop, if_pos ⟨rfl, not_completed_of_calls h.calls⟩] at hloop
    cases hloop
  | succ fuel ih =>
    rw [waitLoop, if_pos ⟨rfl, not_completed_of_calls h.calls⟩] at hloop
    obtain ⟨⟨msg1, endpt1⟩, hround, hrest⟩ := bind_eq_ok.mp hloop
    rcases h.round hfn hround with ⟨rfl, hwaits⟩ | hended
    · exact ih hwaits hrest
    · have hstop := (waitLoop_stop hended.stops fuel (iround + 1)).symm.trans hrest
      cases hstop
      exact hended

end

/-! ## Section 5: A test -/

/-- What a test's endpoint is like after its request: the socket has taken
    the whole message, which is the only one in the queue, or the result
    function has been told that it has not. -/
inductive Requested (addr : SockAddr) (resultfn : ResultFn) (endpt : Endpoint) : UInt16 → Prop where
  | sent {msgid : UInt16} {suffix header : UInt32} {v : Pending} {rest : List UInt8}
    (hne : msgid ≠ 0) (hreps : endpt.confirmq.Reps [(0, v)]) (hid : v.msgid = msgid)
    (hfn : v.resultfn = resultfn) (hcount : (mcHeaderGetTokenLength header).toNat = 6)
    (hdata : v.msg.toList =
      image32 (msSwapU32 header) ++ (image16 msgid ++ image32 suffix ++ rest))
    (hsent : .sent (some 0) v.msg.toList addr mnDone ∈ endpt.trace) (hcalls : endpt.calls = []) :
    Requested addr resultfn endpt msgid
  | failed {id : UInt16} {err : Int} (hreps : endpt.confirmq.Reps []) (herr : err ≠ mnDone)
    (hcalls : endpt.calls = [.called 0 resultfn id err]) : Requested addr resultfn endpt 0

section

variable {qsort : Qsort McOption} {mcUriToOptions : UriToOptions} {test : CoreTest} {host : Host}
  {addr : SockAddr} {uri : List UInt8} {resultfn : ResultFn} {arrivals : Nat → Arrival}
  {msgid : UInt16} {endpt : Endpoint}

/-- Both requests are made by `send_msg`. -/
theorem CoreTest.request_sends (endpt : Endpoint) : ∃ code,
    test.request qsort mcUriToOptions endpt addr resultfn uri none =
      sendMsg qsort mcUriToOptions endpt addr resultfn code uri none none := by
  cases test with
  | getCon => exact ⟨mcGet, rfl⟩
  | deleteCon => exact ⟨mcDelete, rfl⟩

theorem request_made (hfn : resultfn > 1)
    (hrequest : test.request qsort mcUriToOptions (mcEndptUdpInit 1024 1024 host) addr resultfn uri
      none = .ok (msgid, endpt)) :
    Requested addr resultfn endpt msgid ∧ ∃ s, endpt.Shows s ∧ s.Sound := by
  obtain ⟨code, hmakes⟩ := @CoreTest.request_sends qsort mcUriToOptions test addr uri resultfn
    (mcEndptUdpInit 1024 1024 host)
  rw [hmakes] at hrequest
  obtain ⟨drawn, msg, suffix, err, hqueue, htrace, hmsg, hsend, hid⟩ :=
    sendMsg_request hfn hrequest
  have hshows : drawn.Shows ⟨[], 0, []⟩ := by
    have hinit := mcEndptUdpInit_shows 1024 1024 host
    refine ⟨?_, ?_, htrace⟩
    · rw [hqueue]
      exact hinit.reps
    · rw [hqueue]
      exact hinit.next
  have hspec := mcEndptUdpSend_spec hshows.reps hsend
  obtain ⟨s, hshows', hmoves⟩ := hspec.moves hshows
  refine ⟨?_, s, hshows', moves_sound hmoves Ledger.sound_empty⟩
  have hnext : drawn.confirmq.brk = 0 := hshows.next
  by_cases herr : err = mnDone
  -- the socket has taken it
  · subst herr
    rw [if_neg (by simp)] at hid
    have hne : msgid ≠ 0 := by
      intro hzero
      have hpos := mcEndptUdpInit_nextid 1024 1024 host
      rw [← hid, hzero] at hpos
      exact absurd hpos (by decide)
    obtain ⟨v, hfresh, hdata, hfirst⟩ := (mcEndptUdpSend_whole hshows.reps hsend).con hmsg.con
    obtain ⟨hreps, hgrow⟩ := hfirst.done rfl
    rw [hnext, List.nil_append] at hreps
    rw [hnext, hfresh.dest, hshows.trace, List.nil_append] at hgrow
    have hcount : (mcHeaderGetTokenLength msg.header).toNat = 6 := by
      rw [hmsg.count]
      rfl
    rw [writtenBytes, hmsg.token, ← hid] at hdata
    have hmsgid : v.msgid = msgid := (hfresh.msgid.trans hmsg.id).trans hid.symm
    have hsent : .sent (some 0) v.msg.toList addr mnDone ∈ endpt.trace := by
      rw [hgrow]
      exact List.mem_cons_of_mem _ List.mem_cons_self
    have hcalls : endpt.calls = [] := by
      rw [Endpoint.calls, hgrow]
      rfl
    exact Requested.sent hne hreps hmsgid hfresh.resultfn hcount hdata hsent hcalls
  · rw [if_pos herr] at hid
    subst hid
    obtain ⟨v, hfresh, hfirst⟩ := hspec.con hmsg.con
    obtain ⟨hreps, hgrow⟩ := hfirst.failed herr
    rw [hnext, hshows.trace, List.nil_append] at hgrow
    have hcalls : endpt.calls = [.called 0 resultfn v.msgid err] := by
      rw [Endpoint.calls, hgrow, List.filter_append,
        called_result (by rw [hfresh.resultfn]; exact hfn), hfresh.resultfn]
      rfl
    exact Requested.failed hreps herr hcalls

/-- What a test has when it comes to its asserts: nothing, if the request
    was not sent; or else the id and the token of the datagram that was
    sent, and one of the four ends of the loop. -/
inductive Outcome (addr : SockAddr) (resultfn : ResultFn) (x : Exchanged) : Prop where
  | unsent {id : UInt16} {err : Int} (herr : err ≠ mnDone) (hid : x.msgid = 0)
    (htoken : x.token = none) (hmsg : x.msg = none)
    (hcalls : x.endpt.calls = [.called 0 resultfn id err])
  | sent {token : McBuffer} {suffix header : UInt32} {rest : List UInt8} (hid : x.msgid ≠ 0)
    (htoken : x.token = some token) (hbytes : token.toList = image16 x.msgid ++ image32 suffix)
    (hcount : (mcHeaderGetTokenLength header).toNat = token.toList.length)
    (hsent : .sent (some 0) (image32 (msSwapU32 header) ++ (token.toList ++ rest)) addr mnDone
      ∈ x.endpt.trace)
    (hended : Ended resultfn x.msgid x.msg x.endpt.calls)

/-- The copy of the token is made, whatever has become of the request. -/
theorem Requested.copied (h : Requested addr resultfn endpt msgid) :
    ∃ token, mcEndptUdpCopyQueuedToken endpt msgid = .ok token ∧ (msgid = 0 → token = none) ∧
      (msgid ≠ 0 → ∃ copy suffix header rest, token = some copy ∧
        copy.toList = image16 msgid ++ image32 suffix ∧
        (mcHeaderGetTokenLength header).toNat = copy.toList.length ∧
        .sent (some 0) (image32 (msSwapU32 header) ++ (copy.toList ++ rest)) addr mnDone
          ∈ endpt.trace) := by
  cases h with
  | @sent _ suffix header v rest hne hreps hid hfn hcount hdata hsent hcalls =>
    have hreps' : endpt.confirmq.Reps ([] ++ (0, v) :: []) := hreps
    have hfound : findId msgid ([] ++ (0, v) :: []) = some 0 := by
      rw [List.nil_append, findId_cons, if_pos hid]
    obtain ⟨copy, hcopy, hbytes⟩ := copyQueuedToken_found hreps' hfound hdata hcount
    refine ⟨some copy, hcopy, fun hzero => absurd hzero hne,
      fun _ => ⟨copy, suffix, header, rest, rfl, hbytes, ?_, ?_⟩⟩
    · rw [hbytes]
      exact hcount
    · rw [hbytes, ← hdata]
      exact hsent
  | failed hreps herr hcalls =>
    exact ⟨none, copyQueuedToken_none hreps rfl, fun _ => rfl, fun hne => absurd rfl hne⟩

/-- A test, once its request has been made. -/
theorem CoreTest.run_eq {token : Option McBuffer}
    (hrequest : test.request qsort mcUriToOptions (mcEndptUdpInit 1024 1024 host) addr resultfn uri
      none = .ok (msgid, endpt))
    (htoken : mcEndptUdpCopyQueuedToken endpt msgid = .ok token) (fuel : Nat) :
    test.run qsort mcUriToOptions host addr uri resultfn arrivals fuel =
      (waitLoop qsort resultfn arrivals fuel 0 none endpt).map
        fun result => result.map fun r => ⟨msgid, token, r.1, r.2⟩ := by
  unfold CoreTest.run
  simp only
  rw [hrequest]
  show (mcEndptUdpCopyQueuedToken endpt msgid >>= _) = _
  rw [htoken]
  cases waitLoop qsort resultfn arrivals fuel 0 none endpt with
  | ok result => rfl
  | error fault => rfl

end

/-- A test that has made its request copies the token, and comes to its
    asserts after some number of rounds, whatever arrives, if the clock goes
    on for ever; unless there is a round of its loop whose receive faults. -/
theorem core_test_ends {qsort : Qsort McOption} {mcUriToOptions : UriToOptions} {test : CoreTest}
    {host : Host} {addr : SockAddr} {uri : List UInt8} {resultfn : ResultFn} {msgid : UInt16}
    {endpt : Endpoint} (hfn : resultfn > 1)
    (hrequest : test.request qsort mcUriToOptions (mcEndptUdpInit 1024 1024 host) addr resultfn uri
      none = .ok (msgid, endpt))
    (hclock : ∀ t, ∃ n, ∀ m, n ≤ m → t ≤ endpt.host.clock m) (arrivals : Nat → Arrival) :
    (∃ token, mcEndptUdpCopyQueuedToken endpt msgid = .ok token) ∧ ∃ fuel,
      (∃ x, test.run qsort mcUriToOptions host addr uri resultfn arrivals fuel = .ok (some x)) ∨
      ∃ fault k endpt',
        test.run qsort mcUriToOptions host addr uri resultfn arrivals fuel = .error fault ∧
        Run (waitStep qsort resultfn arrivals) endpt (List.range k) endpt' ∧
        completed resultfn endpt' = false ∧
        mcEndptUdpRecv qsort (arrivals k) endpt' = .error fault := by
  obtain ⟨hmade, s, hshows, hsound⟩ := request_made hfn hrequest
  obtain ⟨token, htoken, _⟩ := hmade.copied
  have hends : ∃ fuel, waitLoop qsort resultfn arrivals fuel 0 none endpt ≠ .ok none := by
    cases hmade with
    | @sent _ _ _ v _ _ hreps _ hv _ _ _ _ =>
      have hentry : (0, v) ∈ s.entries := by
        rw [hshows.reps.unique hreps]
        exact List.mem_singleton_self _
      rw [← hv] at hfn ⊢
      exact waitLoop_ends hshows hsound hentry hfn hclock arrivals
    | failed _ _ hcalls =>
      have hdone := completed_of_calls hcalls
      refine ⟨0, ?_⟩
      rw [waitLoop_stop (by simp [hdone])]
      simp
  obtain ⟨fuel, hfuel⟩ := hends
  refine ⟨⟨token, htoken⟩, fuel, ?_⟩
  rw [CoreTest.run_eq hrequest htoken]
  rcases hloop : waitLoop qsort resultfn arrivals fuel 0 none endpt with fault | result
  · obtain ⟨k, endpt', hrun, hopen, hrecv⟩ := waitLoop_faults hshows.reps hloop
    rw [← List.range_eq_range'] at hrun
    rw [Nat.zero_add] at hrecv
    exact Or.inr ⟨fault, k, endpt', rfl, hrun, hopen, hrecv⟩
  · cases result with
    | none => exact absurd hloop hfuel
    | some r => exact Or.inl ⟨_, rfl⟩

/-- The request of the get test, on a host whose clock goes on by 1000
    seconds at every look. -/
theorem getCon_request : ∃ msgid endpt,
    CoreTest.getCon.request (insertion McOption) peerUriToOptions
      (mcEndptUdpInit 1024 1024 slowHost) peer 9 peerUri none = .ok (msgid, endpt) ∧
    endpt.host.clock = slowHost.clock := ⟨_, _, rfl, rfl⟩

theorem slowHost_goes_on (t : ℚ) : ∃ n, ∀ m, n ≤ m → t ≤ slowHost.clock m := by
  obtain ⟨n, hn⟩ := exists_nat_ge t
  refine ⟨n, fun m hm => ?_⟩
  have hcast : (n : ℚ) ≤ m := Nat.cast_le.mpr hm
  show t ≤ 1000 * (m : ℚ)
  linarith

/-- The witness: nothing arrives. -/
theorem core_test_ends_silent : ∃ fuel x,
    CoreTest.getCon.run (insertion McOption) peerUriToOptions slowHost peer peerUri 9
      (fun _ => .failed mnTimeout (by decide)) fuel = .ok (some x) := by
  obtain ⟨msgid, endpt, hrequest, hclock⟩ := getCon_request
  have hgoes : ∀ t, ∃ n, ∀ m, n ≤ m → t ≤ endpt.host.clock m := by
    rw [hclock]
    exact slowHost_goes_on
  obtain ⟨_, fuel, hends | ⟨fault, k, endpt', _, _, _, hrecv⟩⟩ :=
    core_test_ends (by decide) hrequest hgoes fun _ => .failed mnTimeout (by decide)
  · exact ⟨fuel, hends⟩
  -- a receive that fails does not fault
  · obtain ⟨r, hreturns⟩ : ∃ r, mcEndptUdpRecv (insertion McOption)
        (.failed mnTimeout (by decide)) endpt' = .ok r := ⟨_, rfl⟩
    cases hreturns.symm.trans hrecv

/-- What a test has when it comes to its asserts, whatever arrives: the
    request was not sent, and the result function has been told so; or it
    has the token of the datagram that was sent, and its loop has ended in
    one of four ways. -/
theorem core_test_outcome {qsort : Qsort McOption} {mcUriToOptions : UriToOptions}
    {test : CoreTest} {host : Host} {addr : SockAddr} {uri : List UInt8} {resultfn : ResultFn}
    {arrivals : Nat → Arrival} {fuel : Nat} {x : Exchanged} (hfn : resultfn > 1)
    (hrun : test.run qsort mcUriToOptions host addr uri resultfn arrivals fuel = .ok (some x)) :
    Outcome addr resultfn x := by
  obtain ⟨⟨msgid, endpt⟩, hrequest, hrest⟩ := bind_eq_ok.mp hrun
  obtain ⟨hmade, s, hshows, _⟩ := request_made hfn hrequest
  obtain ⟨token, htoken, hnone, hsome⟩ := hmade.copied
  rw [CoreTest.run_eq hrequest htoken] at hrun
  rcases hloop : waitLoop qsort resultfn arrivals fuel 0 none endpt with fault | result
  · rw [hloop] at hrun
    cases hrun
  rw [hloop] at hrun
  cases result with
  | none => cases hrun
  | some r =>
    cases hrun
    cases hmade with
    | sent hne hreps hid hv hcount hdata hsent hcalls =>
      obtain ⟨copy, suffix, header, rest, hcopy, hbytes, hlength, hsent'⟩ := hsome hne
      -- the loop only adds to the trace
      obtain ⟨ops, hops⟩ := waitLoop_run hloop
      obtain ⟨s', hshows', hmoves⟩ := run_moves hshows hops
      obtain ⟨events, hevents⟩ := (moves_grow hmoves).1
      have hkept : .sent (some 0) (image32 (msSwapU32 header) ++ (copy.toList ++ rest)) addr mnDone
          ∈ r.2.trace := by
        rw [hshows'.trace, hevents, ← hshows.trace]
        exact List.mem_append_left _ hsent'
      have hwaits : Waits resultfn msgid endpt := ⟨⟨_, hreps, hid, hv⟩, hcalls⟩
      exact Outcome.sent hne hcopy hbytes hlength hkept (hwaits.loop hfn hloop)
    | failed hreps herr hcalls =>
      have hdone := completed_of_calls hcalls
      rw [waitLoop_stop (by simp [hdone])] at hloop
      cases hloop
      exact Outcome.unsent herr rfl (hnone rfl) rfl hcalls

/-- The witness: the ack of the request arrives. -/
theorem core_test_outcome_acked : ∃ x,
    CoreTest.getCon.run (insertion McOption) peerUriToOptions stillHost peer peerUri 9
      (fun _ => .datagram [0x60, 0, 0, 1] peer) 1 = .ok (some x) ∧ Outcome peer 9 x := by
  have hrun : ∃ x, CoreTest.getCon.run (insertion McOption) peerUriToOptions stillHost peer peerUri 9
      (fun _ => .datagram [0x60, 0, 0, 1] peer) 1 = .ok (some x) := ⟨_, rfl⟩
  obtain ⟨x, hrun⟩ := hrun
  exact ⟨x, hrun, core_test_outcome (by decide) hrun⟩

end Mcoap
