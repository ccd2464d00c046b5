import Mcoap.Endpoint
import Mcoap.QueueRefine

/-! # What the endpoint's functions do to the list of entries

    One lemma for each function that changes the confirm queue: what it
    returns and records, and which list the queue stands for afterwards,
    given the list it stood for before.

    * `sendConMsg_spec`, `mcEndptUdpSend_spec`: a send;
    * `recvMessage_frame`, `mcEndptUdpRecv_spec`: a receive;
    * `checkPass`: the pass over the confirm queue, on lists, and
      `mcEndptUdpCheckQueues_spec`: the pass of the code is that one. -/

namespace Mcoap

open ByteMem ByteProg StableSort DList

/-! ## Section 1: Entries and calls -/

/-- The call of the result function of an entry, if it has one. -/
def resultOf (owner : Addr) (v : Pending) (err : Int) : List Event :=
  if v.resultfn > 1 then [.called owner v.resultfn v.msgid err] else []

theorem callResultFn_eq (endpt : Endpoint) (owner : Addr) (v : Pending) (err : Int) :
    callResultFn endpt owner v.resultfn v.msgid err =
      { endpt with trace := endpt.trace ++ resultOf owner v err } := by
  unfold callResultFn resultOf
  by_cases h : v.resultfn > 1
  · rw [if_pos h, if_pos h]
    rfl
  · rw [if_neg h, if_neg h, List.append_nil]

/-- Changing an entry changes it in the list. -/
theorem setEntry_spec {endpt : Endpoint} {xs ys : Nodes Pending} {a : Addr} {v : Pending}
    (h : endpt.confirmq.Reps (xs ++ (a, v) :: ys)) (f : Pending → Pending) :
    ∃ confirmq, endpt.setEntry a f = .ok { endpt with confirmq := confirmq } ∧
      confirmq.Reps (xs ++ (a, f v) :: ys) ∧ confirmq.brk = endpt.confirmq.brk := by
  have hnode := h.isList.node
  -- the entry keeps its links, so the list keeps its shape
  refine ⟨{ endpt.confirmq with
    cells := modify endpt.confirmq.cells a fun entry => { entry with val := f entry.val } },
    ?_, ⟨?_, ?_⟩, rfl⟩
  · unfold Endpoint.setEntry
    rw [entryAt_some hnode]
    rfl
  · have hval := h.isList.setVal (f v)
    have hsame : (modify endpt.confirmq.cells a fun entry => { entry with val := f entry.val }) =
        modify endpt.confirmq.cells a fun node => { node with val := f v } := by
      unfold DList.modify
      rw [hnode]
      rfl
    show IsList (modify endpt.confirmq.cells a _) _ _ _
    rw [hsame]
    exact hval
  · intro b hb
    have hlt : a < b := (h.lt (by simp)).trans_le hb
    exact (modify_ne _ _ (Nat.ne_of_gt hlt)).trans (h.fresh b hb)

/-- The copy that goes into the queue holds the bytes that are sent. -/
theorem mcBufferCopy_toList {src copy : McBuffer} {nbytes : UInt32}
    (h : mcBufferCopy (some src) 0 nbytes = some copy) :
    nbytes ≤ src.nbytes ∧ copy.toList = slice src.bytes 0 nbytes.toNat := by
  simp only [mcBufferCopy, UInt32.sub_zero] at h
  by_cases hlt : src.nbytes < nbytes
  -- a copy of more bytes than there are is null
  · rw [if_pos hlt] at h
    exact absurd h (by simp)
  · rw [if_neg hlt] at h
    cases h
    refine ⟨UInt32.not_lt.mp hlt, ?_⟩
    have hslice := slice_of_holds (holds_blit (ofList []) 0 (slice src.bytes 0 nbytes.toNat))
    rw [slice_length] at hslice
    exact hslice

/-! ## Section 2: Sending -/

/-- The event of an entry that goes into the queue. -/
def queuedEvent (owner : Addr) (v : Pending) : Event :=
  .queued owner v.msgid v.dest v.msg.toList v.resultfn

/-- What a send leaves alone: the read buffer, the size of the write buffer,
    and what the socket has in store. -/
structure SendFrame (endpt endpt' : Endpoint) : Prop where
  rdbuffer : endpt'.rdbuffer = endpt.rdbuffer
  wrsize   : endpt'.wrbuffer.nbytes = endpt.wrbuffer.nbytes
  sends    : endpt'.host.sends = endpt.host.sends

theorem SendFrame.trans {endpt endpt1 endpt2 : Endpoint} (h : SendFrame endpt endpt1)
    (h' : SendFrame endpt1 endpt2) : SendFrame endpt endpt2 where
  rdbuffer := h'.rdbuffer.trans h.rdbuffer
  wrsize := h'.wrsize.trans h.wrsize
  sends := h'.sends.trans h.sends

/-- The first transmission of an entry `v`: it stays in the queue if the
    socket takes it, and has left the queue again if not. -/
structure FirstSend (endpt endpt' : Endpoint) (l : Nodes Pending) (v : Pending) (err : Int) :
    Prop where
  nextid : endpt'.nextid = endpt.nextid
  brk    : endpt'.confirmq.brk = endpt.confirmq.brk + 1
  done   : err = mnDone →
    endpt'.confirmq.Reps (l ++ [(endpt.confirmq.brk, { v with xmitcounter := 1 })]) ∧
    endpt'.trace = endpt.trace ++ [queuedEvent endpt.confirmq.brk v,
      .sent (some endpt.confirmq.brk) v.msg.toList v.dest err]
  failed : err ≠ mnDone →
    endpt'.confirmq.Reps l ∧
    endpt'.trace = endpt.trace ++ ([queuedEvent endpt.confirmq.brk v,
      .sent (some endpt.confirmq.brk) v.msg.toList v.dest err] ++
      (resultOf endpt.confirmq.brk v err ++ [.removed endpt.confirmq.brk .send]))

/-- A new entry for a message: not sent yet, and waiting from now on. -/
structure Fresh (v : Pending) (toaddr : SockAddr) (msg : McMessage) (resultfn : ResultFn) :
    Prop where
  msgid       : v.msgid = mcMessageGetMessageId msg
  dest        : v.dest = toaddr
  resultfn    : v.resultfn = resultfn
  xmitcounter : v.xmitcounter = 0
  block       : v.timeout.block = -1
  total       : 0 ≤ v.timeout.total

theorem newPending_fresh (toaddr : SockAddr) (msg : McMessage) (copy : McBuffer)
    (resultfn : ResultFn) (host : Host) :
    Fresh (newPending (mcMessageGetMessageId msg) toaddr copy resultfn host) toaddr msg resultfn where
  msgid := rfl
  dest := rfl
  resultfn := rfl
  xmitcounter := rfl
  block := rfl
  total := by
    show (0 : ℚ) ≤ ackTimeout + ((host.rands host.nrands : ℚ) / (host.randMax : ℚ)) *
      (ackTimeout * ackRandomFactor - ackTimeout)
    -- a random fraction of a positive span is added
    have hfraction : (0 : ℚ) ≤ (host.rands host.nrands : ℚ) / (host.randMax : ℚ) :=
      div_nonneg (Nat.cast_nonneg _) (Nat.cast_nonneg _)
    have hdelta : (0 : ℚ) ≤ ackTimeout * ackRandomFactor - ackTimeout := by
      unfold ackTimeout ackRandomFactor
      norm_num
    have hack : (0 : ℚ) ≤ ackTimeout := by
      unfold ackTimeout
      norm_num
    exact add_nonneg hack (mul_nonneg hfraction hdelta)

theorem sendEndptBuffer_ok {endpt : Endpoint} {nbytes : UInt32}
    (hn : nbytes ≤ endpt.wrbuffer.nbytes) (owner : Option Addr) (toaddr : SockAddr) :
    sendEndptBuffer endpt owner nbytes toaddr =
      .ok (sendtoSocket endpt owner (slice endpt.wrbuffer.bytes 0 nbytes.toNat) toaddr) := by
  unfold sendEndptBuffer
  rw [if_neg (UInt32.not_lt.mpr hn)]

theorem sendConMsg_eq {endpt : Endpoint} {nbytes : UInt32} {toaddr : SockAddr} {msg : McMessage}
    {resultfn : ResultFn} {copy : McBuffer} {a : Addr} {queue : McBufferQueue} {host : Host}
    (hn : nbytes ≤ endpt.wrbuffer.nbytes)
    (hcopy : mcBufferCopy (some endpt.wrbuffer) 0 nbytes = some copy)
    (hadd : mcBufferQueueAdd endpt.confirmq (mcMessageGetMessageId msg) toaddr copy resultfn
      endpt.host = .ok (a, queue, host)) :
    sendConMsg endpt nbytes toaddr msg resultfn =
      let data := slice endpt.wrbuffer.bytes 0 nbytes.toNat
      let sent := sendtoSocket ({ endpt with confirmq := queue, host := host }.note
        (.queued a (mcMessageGetMessageId msg) toaddr data resultfn)) (some a) data toaddr
      afterFirstSend sent.2 a (mcMessageGetMessageId msg) resultfn sent.1 := by
  unfold sendConMsg
  simp only [hcopy]
  show (mcBufferQueueAdd endpt.confirmq (mcMessageGetMessageId msg) toaddr copy resultfn
    endpt.host >>= _) = _
  rw [hadd]
  show (sendEndptBuffer _ _ _ _ >>= _) = _
  rw [sendEndptBuffer_ok]
  · rfl
  · exact hn

/-- A datagram of some bytes that the socket takes. -/
theorem mnSocketSendto_done {count : Nat} {host : Host} (hcount : count ≠ 0)
    (htakes : host.sends host.nsends = mnDone) : (mnSocketSendto count host).1 = mnDone := by
  show (if host.sends host.nsends = 0 ∧ count = 0 then mnClosed
    else host.sends host.nsends) = mnDone
  rw [if_neg fun hc => hcount hc.2, htakes]

theorem sendtoSocket_frame {endpt endpt' : Endpoint} {owner : Option Addr} {data : List UInt8}
    {dest : SockAddr} {err : Int} (h : sendtoSocket endpt owner data dest = (err, endpt')) :
    endpt'.confirmq = endpt.confirmq ∧ endpt'.nextid = endpt.nextid ∧
      endpt'.trace = endpt.trace ++ [.sent owner data dest err] ∧ SendFrame endpt endpt' ∧
      err = (mnSocketSendto data.length endpt.host).1 := by
  cases h
  exact ⟨rfl, rfl, rfl, ⟨rfl, rfl, rfl⟩, rfl⟩

/-- The entry at the end of the queue is kept, or removed again. -/
theorem afterFirstSend_spec {endpt : Endpoint} {l : Nodes Pending} {a : Addr} {v : Pending}
    (h : endpt.confirmq.Reps (l ++ [(a, v)])) (err : Int) :
    ∃ endpt', afterFirstSend endpt a v.msgid v.resultfn err = .ok (err, endpt') ∧
      endpt'.nextid = endpt.nextid ∧ endpt'.confirmq.brk = endpt.confirmq.brk ∧
      SendFrame endpt endpt' ∧
      (err = mnDone →
        endpt'.confirmq.Reps (l ++ [(a, { v with xmitcounter := v.xmitcounter + 1 })]) ∧
        endpt'.trace = endpt.trace) ∧
      (err ≠ mnDone → endpt'.confirmq.Reps l ∧
        endpt'.trace = endpt.trace ++ (resultOf a v err ++ [.removed a .send])) := by
  unfold afterFirstSend
  by_cases herr : err = mnDone
  · obtain ⟨confirmq, hset, hreps, hbrk⟩ :=
      setEntry_spec h fun v => { v with xmitcounter := v.xmitcounter + 1 }
    rw [if_pos herr, hset]
    exact ⟨_, rfl, rfl, hbrk, ⟨rfl, rfl, rfl⟩, fun _ => ⟨hreps, rfl⟩, fun hne => absurd herr hne⟩
  · obtain ⟨confirmq, hremove, hreps, hbrk, _⟩ := mcBufferQueueRemoveEntry_spec h
    rw [List.append_nil] at hreps
    rw [if_neg herr, callResultFn_eq]
    have hcode : (mcBufferQueueRemoveEntry endpt.confirmq (some a) >>= fun removed =>
        pure (err, { endpt with
          confirmq := removed.2
          trace := endpt.trace ++ resultOf a v err ++ [.removed a .send] })) =
        (.ok (err, { endpt with
          confirmq := confirmq
          trace := endpt.trace ++ resultOf a v err ++ [.removed a .send] }) :
          Except Fault (Int × Endpoint)) := by
      rw [hremove]
      rfl
    exact ⟨_, hcode, rfl, hbrk, ⟨rfl, rfl, rfl⟩, fun hdone => absurd hdone herr,
      fun _ => ⟨hreps, List.append_assoc ..⟩⟩

theorem sendConMsg_spec {endpt : Endpoint} {l : Nodes Pending} (h : endpt.confirmq.Reps l)
    {nbytes : UInt32} (hn : nbytes ≤ endpt.wrbuffer.nbytes) (toaddr : SockAddr) (msg : McMessage)
    (resultfn : ResultFn) :
    ∃ err endpt' v, sendConMsg endpt nbytes toaddr msg resultfn = .ok (err, endpt') ∧
      Fresh v toaddr msg resultfn ∧ v.msg.toList = slice endpt.wrbuffer.bytes 0 nbytes.toNat ∧
      FirstSend endpt endpt' l v err ∧ SendFrame endpt endpt' ∧
      err = (mnSocketSendto nbytes.toNat endpt.host).1 := by
  obtain ⟨copy, hcopy⟩ : ∃ copy, mcBufferCopy (some endpt.wrbuffer) 0 nbytes = some copy := by
    simp only [mcBufferCopy, UInt32.sub_zero, if_neg (UInt32.not_lt.mpr hn)]
    exact ⟨_, rfl⟩
  obtain ⟨queue, hadd, hreps, hbrk⟩ := mcBufferQueueAdd_spec h (mcMessageGetMessageId msg) toaddr
    copy resultfn endpt.host
  have hfresh := newPending_fresh toaddr msg copy resultfn endpt.host
  have hcode := sendConMsg_eq hn hcopy hadd
  have hlength : copy.toList.length = nbytes.toNat := by
    rw [(mcBufferCopy_toList hcopy).2, slice_length]
  rw [← (mcBufferCopy_toList hcopy).2] at hcode
  simp only at hcode
  generalize hsent : sendtoSocket _ (some endpt.confirmq.brk) copy.toList toaddr = sent at hcode
  obtain ⟨err, endpt1⟩ := sent
  obtain ⟨hqueue, hnextid, htrace, hkeeps, hcount⟩ := sendtoSocket_frame hsent
  rw [hlength] at hcount
  have hreps1 : endpt1.confirmq.Reps (l ++ [(endpt.confirmq.brk,
      newPending (mcMessageGetMessageId msg) toaddr copy resultfn endpt.host)]) := by
    rw [hqueue]
    exact hreps
  obtain ⟨endpt', hafter, hnextid', hbrk', hkeeps', hdone, hfailed⟩ :=
    afterFirstSend_spec hreps1 err
  refine ⟨err, endpt', _, hcode.trans hafter, hfresh, (mcBufferCopy_toList hcopy).2,
    ⟨hnextid'.trans hnextid, ?_, ?_, ?_⟩, ⟨(hkeeps.trans hkeeps').rdbuffer, (hkeeps.trans hkeeps').wrsize,
      (hkeeps.trans hkeeps').sends⟩, hcount⟩
  · rw [hbrk', hqueue]
    exact hbrk
  · intro herr
    obtain ⟨hreps', htrace'⟩ := hdone herr
    refine ⟨hreps', ?_⟩
    rw [htrace', htrace]
    exact List.append_assoc ..
  · intro herr
    obtain ⟨hreps', htrace'⟩ := hfailed herr
    refine ⟨hreps', ?_⟩
    rw [htrace', htrace]
    simp only [Endpoint.note, List.append_assoc]
    rfl

/-- A program that returns has kept to its block. -/
theorem runIn_ok {α : Type} {x : Code α} {block block' : McBuffer} {host host' : Host}
    {value : α} (h : runIn x block host = .ok (value, block', host')) :
    (run x block.bytes host.junk).value = some value ∧
      block'.bytes = (run x block.bytes host.junk).mem ∧
      ∀ access ∈ (run x block.bytes host.junk).trace, access.index < block.nbytes.toNat := by
  unfold runIn at h
  simp only at h
  split at h
  · next hinside =>
    split at h
    · exact absurd h (by simp)
    · next hvalue =>
      cases h
      exact ⟨hvalue, rfl, hinside⟩
  · exact absurd h (by simp)

theorem runIn_frame {α : Type} {x : Code α} {block block' : McBuffer} {host host' : Host}
    {value : α} (h : runIn x block host = .ok (value, block', host')) :
    block'.nbytes = block.nbytes ∧ host' = { host with junk := host'.junk } := by
  unfold runIn at h
  simp only at h
  split at h
  · split at h
    · exact absurd h (by simp)
    · cases h
      exact ⟨rfl, rfl⟩
  · exact absurd h (by simp)

/-- A program that keeps to its block returns. -/
theorem runIn_returns {α : Type} {md : Mode UInt16} {Q : α → Mem → Prop} {x : Code α}
    {block : McBuffer} (hwp : wp md x Q block.bytes) (hdraws : ∀ w, md.draws w)
    (hreads : ∀ i, md.reads i → i < block.nbytes.toNat)
    (hwrites : ∀ i, md.writes i → i < block.nbytes.toNat) (haborts : ¬ md.aborts) (host : Host) :
    ∃ value bytes host', runIn x block host = .ok (value, { block with bytes := bytes }, host') ∧
      Q value bytes := by
  have hmeets := run_meets hwp host.junk fun n => hdraws (host.junk n)
  obtain ⟨value, hvalue, hpost⟩ := hmeets.returns haborts
  have hinside : ∀ access ∈ (run x block.bytes host.junk).trace,
      access.index < block.nbytes.toNat := by
    intro access haccess
    cases access with
    | rd i => exact hreads i (hmeets.1 i haccess)
    | wr i => exact hwrites i (hmeets.2.1 i haccess)
  refine ⟨value, _, { host with junk := (run x block.bytes host.junk).supply }, ?_, hpost⟩
  unfold runIn
  simp only [if_pos hinside, hvalue]

/-- What a send does: a confirmable message goes through the queue, any
    other one does not touch it. -/
structure Sends (endpt endpt' : Endpoint) (l : Nodes Pending) (toaddr : SockAddr)
    (msg : McMessage) (resultfn : ResultFn) (err : Int) : Prop where
  con : mcMessageIsConfirmable msg = true →
    ∃ v, Fresh v toaddr msg resultfn ∧ FirstSend endpt endpt' l v err
  non : mcMessageIsConfirmable msg = false →
    endpt'.confirmq = endpt.confirmq ∧ endpt'.nextid = endpt.nextid ∧
    ∃ data, endpt'.trace = endpt.trace ++ [.sent none data toaddr err]

/-- The same for a given datagram: it is what is queued, and what the socket
    gets. -/
structure SendsData (endpt endpt' : Endpoint) (l : Nodes Pending) (toaddr : SockAddr)
    (msg : McMessage) (resultfn : ResultFn) (err : Int) (data : List UInt8) : Prop where
  con : mcMessageIsConfirmable msg = true →
    ∃ v, Fresh v toaddr msg resultfn ∧ v.msg.toList = data ∧ FirstSend endpt endpt' l v err
  non : mcMessageIsConfirmable msg = false →
    endpt'.confirmq = endpt.confirmq ∧ endpt'.nextid = endpt.nextid ∧
    endpt'.trace = endpt.trace ++ [.sent none data toaddr err]

theorem SendsData.sends {endpt endpt' : Endpoint} {l : Nodes Pending} {toaddr : SockAddr}
    {msg : McMessage} {resultfn : ResultFn} {err : Int} {data : List UInt8}
    (h : SendsData endpt endpt' l toaddr msg resultfn err data) :
    Sends endpt endpt' l toaddr msg resultfn err where
  con hcon := by
    obtain ⟨v, hfresh, _, hfirst⟩ := h.con hcon
    exact ⟨v, hfresh, hfirst⟩
  non hnon := by
    obtain ⟨hqueue, hnextid, htrace⟩ := h.non hnon
    exact ⟨hqueue, hnextid, data, htrace⟩

/-- A send whose message was encoded returns. -/
theorem mcEndptUdpSend_encoded {endpt : Endpoint} {l : Nodes Pending} (h : endpt.confirmq.Reps l)
    {msg : McMessage} {nbytes : UInt32} {wrbuffer : McBuffer} {host : Host}
    (hrun : runIn (mcMessageToBuffer msg endpt.wrbuffer.nbytes) endpt.wrbuffer endpt.host =
      .ok (nbytes, wrbuffer, host))
    (hn : nbytes ≤ endpt.wrbuffer.nbytes) (toaddr : SockAddr) (resultfn : ResultFn) :
    ∃ err endpt', mcEndptUdpSend endpt toaddr msg resultfn = .ok (err, endpt') ∧
      SendsData endpt endpt' l toaddr msg resultfn err (slice wrbuffer.bytes 0 nbytes.toNat) ∧
      SendFrame endpt endpt' ∧ err = (mnSocketSendto nbytes.toNat endpt.host).1 := by
  obtain ⟨hsize, hhost⟩ := runIn_frame hrun
  have hn' : nbytes ≤ wrbuffer.nbytes := by
    rw [hsize]
    exact hn
  have h' : ({ endpt with wrbuffer := wrbuffer, host := host } : Endpoint).confirmq.Reps l := h
  have hoffers : host.sends = endpt.host.sends := by
    rw [hhost]
  have hkeeps : SendFrame endpt { endpt with wrbuffer := wrbuffer, host := host } :=
    ⟨rfl, hsize, hoffers⟩
  have hcode : ∀ count, (mnSocketSendto count host).1 = (mnSocketSendto count endpt.host).1 := by
    intro count
    rw [hhost]
    rfl
  unfold mcEndptUdpSend
  rw [hrun]
  rcases hcon : mcMessageIsConfirmable msg with _ | _
  · obtain ⟨⟨err, endpt'⟩, hsent⟩ : ∃ sent, sendtoSocket
        { endpt with wrbuffer := wrbuffer, host := host } none
        (slice wrbuffer.bytes 0 nbytes.toNat) toaddr = sent := ⟨_, rfl⟩
    obtain ⟨hqueue, hnextid, htrace, hkeeps', hcount⟩ := sendtoSocket_frame hsent
    rw [slice_length, hcode] at hcount
    exact ⟨err, endpt', (sendEndptBuffer_ok hn' none toaddr).trans (congrArg _ hsent),
      ⟨fun hc => absurd hc (by simp [hcon]), fun _ => ⟨hqueue, hnextid, htrace⟩⟩,
      hkeeps.trans hkeeps', hcount⟩
  · obtain ⟨err, endpt', v, hsend, hfresh, hdata, hfirst, hkeeps', hcount⟩ :=
      sendConMsg_spec h' hn' toaddr msg resultfn
    rw [hcode] at hcount
    refine ⟨err, endpt', hsend,
      ⟨fun _ => ⟨v, hfresh, hdata, ?_⟩, fun hc => absurd hc (by simp [hcon])⟩,
      hkeeps.trans hkeeps', hcount⟩
    exact ⟨hfirst.nextid, hfirst.brk, hfirst.done, hfirst.failed⟩

/-- A message that can be encoded, and fits into the write buffer, is sent. -/
theorem mcEndptUdpSend_fits {endpt : Endpoint} {l : Nodes Pending} (h : endpt.confirmq.Reps l)
    (msg : McMessage) (hlist : ListEncodable msg.options)
    (hfit : (messageBytes msg).length ≤ endpt.wrbuffer.nbytes.toNat) (toaddr : SockAddr)
    (resultfn : ResultFn) :
    ∃ err endpt', mcEndptUdpSend endpt toaddr msg resultfn = .ok (err, endpt') ∧
      SendsData endpt endpt' l toaddr msg resultfn err (messageBytes msg) ∧
      SendFrame endpt endpt' ∧
      err = (mnSocketSendto (messageBytes msg).length endpt.host).1 := by
  obtain ⟨nbytes, bytes, host, hrun, hlen, hbytes⟩ := runIn_returns
    (mcMessageToBuffer_writes hlist hfit endpt.wrbuffer.bytes) (fun _ => trivial)
    (fun _ hr => absurd hr id) (fun _ hw => hw) id endpt.host
  have hn : nbytes ≤ endpt.wrbuffer.nbytes := by
    rw [UInt32.le_iff_toNat_le, hlen]
    exact hfit
  -- the write buffer starts with the message
  have hdata : slice bytes 0 (messageBytes msg).length = messageBytes msg := by
    rw [hbytes]
    exact slice_of_holds (holds_blit _ 0 _)
  obtain ⟨err, endpt', hsend, hsent, hframe, hcount⟩ :=
    mcEndptUdpSend_encoded h hrun hn toaddr resultfn
  rw [hlen] at hsent hcount
  exact ⟨err, endpt', hsend, hdata ▸ hsent, hframe, hcount⟩

/-- A send that returns has handed the socket no more than it encoded. -/
theorem mcEndptUdpSend_returns {endpt : Endpoint} {toaddr : SockAddr} {msg : McMessage}
    {resultfn : ResultFn} {r : Int × Endpoint}
    (hsend : mcEndptUdpSend endpt toaddr msg resultfn = .ok r) :
    ∃ nbytes wrbuffer host,
      runIn (mcMessageToBuffer msg endpt.wrbuffer.nbytes) endpt.wrbuffer endpt.host =
        .ok (nbytes, wrbuffer, host) ∧ nbytes ≤ endpt.wrbuffer.nbytes := by
  obtain ⟨⟨nbytes, wrbuffer, host⟩, hrun, hrest⟩ := bind_eq_ok.mp hsend
  refine ⟨nbytes, wrbuffer, host, hrun, ?_⟩
  by_contra hn
  -- more bytes than the write buffer has: both paths read past its end
  have hgt : nbytes > wrbuffer.nbytes := by
    rw [(runIn_frame hrun).1]
    exact UInt32.not_le.mp hn
  simp only at hrest
  split at hrest
  · simp only [sendConMsg, mcBufferCopy, UInt32.sub_zero, if_pos hgt] at hrest
    exact absurd hrest (by simp)
  · simp only [sendEndptBuffer, if_pos hgt] at hrest
    exact absurd hrest (by simp)

/-- What is sent is the start of the write buffer, after the message was
    written there. -/
theorem mcEndptUdpSend_data {endpt endpt' : Endpoint} {l : Nodes Pending}
    (h : endpt.confirmq.Reps l) {toaddr : SockAddr} {msg : McMessage} {resultfn : ResultFn}
    {err : Int} (hsend : mcEndptUdpSend endpt toaddr msg resultfn = .ok (err, endpt')) :
    ∃ nbytes wrbuffer host,
      runIn (mcMessageToBuffer msg endpt.wrbuffer.nbytes) endpt.wrbuffer endpt.host =
        .ok (nbytes, wrbuffer, host) ∧
      SendsData endpt endpt' l toaddr msg resultfn err (slice wrbuffer.bytes 0 nbytes.toNat) := by
  obtain ⟨nbytes, wrbuffer, host, hrun, hn⟩ := mcEndptUdpSend_returns hsend
  obtain ⟨err', endpt'', hsend', hspec, _⟩ := mcEndptUdpSend_encoded h hrun hn toaddr resultfn
  rw [hsend'] at hsend
  cases hsend
  exact ⟨nbytes, wrbuffer, host, hrun, hspec⟩

theorem mcEndptUdpSend_spec {endpt endpt' : Endpoint} {l : Nodes Pending}
    (h : endpt.confirmq.Reps l) {toaddr : SockAddr} {msg : McMessage} {resultfn : ResultFn}
    {err : Int} (hsend : mcEndptUdpSend endpt toaddr msg resultfn = .ok (err, endpt')) :
    Sends endpt endpt' l toaddr msg resultfn err := by
  obtain ⟨_, _, _, _, hsent⟩ := mcEndptUdpSend_data h hsend
  exact hsent.sends

/-! ## Section 3: Receiving -/

/-- Receiving and decoding touches the read buffer, the clock and the
    endpoint's timeout only; the read buffer keeps its size. -/
theorem recvMessage_frame {qsort : Qsort McOption} {arrival : Arrival} {endpt endpt' : Endpoint}
    {err : Int} {msg : Option McMessage}
    (h : recvMessage qsort arrival endpt = .ok (err, msg, endpt')) :
    endpt'.confirmq = endpt.confirmq ∧ endpt'.nextid = endpt.nextid ∧
      endpt'.trace = endpt.trace ∧ endpt'.rdbuffer.nbytes = endpt.rdbuffer.nbytes ∧
      (msg ≠ none → err = mnDone) := by
  unfold recvMessage at h
  simp only at h
  split at h
  · cases h
    exact ⟨rfl, rfl, rfl, rfl, fun hne => absurd rfl hne⟩
  · rename_i herr
    obtain ⟨⟨⟨decoded, _⟩, block, host⟩, hrun, hrest⟩ := bind_eq_ok.mp h
    cases decoded with
    | none => exact absurd hrest (by simp)
    | some message =>
      obtain ⟨hsize, _⟩ := runIn_frame hrun
      cases hrest
      exact ⟨rfl, rfl, rfl, hsize, fun _ => not_not.mp herr⟩

/-- An ack whose id is queued removes the first entry of that id. -/
theorem recvAck_found {endpt : Endpoint} {xs ys : Nodes Pending} {a : Addr} {v : Pending}
    (h : endpt.confirmq.Reps (xs ++ (a, v) :: ys)) {msgid : UInt16}
    (hfound : findId msgid (xs ++ (a, v) :: ys) = some a) (err : Int) :
    ∃ endpt', recvAck endpt msgid err = .ok endpt' ∧ endpt'.confirmq.Reps (xs ++ ys) ∧
      endpt'.confirmq.brk = endpt.confirmq.brk ∧ endpt'.nextid = endpt.nextid ∧
      endpt'.trace = endpt.trace ++ (resultOf a v err ++ [.removed a .recv]) := by
  obtain ⟨confirmq, hremove, hreps, hbrk, _⟩ := mcBufferQueueRemoveEntry_spec h
  have hcode : recvAck endpt msgid err = .ok { endpt with
      confirmq := confirmq
      trace := endpt.trace ++ resultOf a v err ++ [.removed a .recv] } := by
    unfold recvAck
    rw [mcBufferQueueGet_spec h msgid, hfound]
    show (entryAt endpt.confirmq.cells (some a) >>= _) = _
    rw [entryAt_some h.isList.node]
    show (mcBufferQueueRemoveEntry
      (callResultFn endpt a v.resultfn v.msgid err).confirmq (some a) >>= _) = _
    rw [callResultFn_eq]
    show (mcBufferQueueRemoveEntry endpt.confirmq (some a) >>= _) = _
    rw [hremove]
    rfl
  exact ⟨_, hcode, hreps, hbrk, rfl, List.append_assoc ..⟩

/-- An ack whose id is not queued makes the endpoint read through null. -/
theorem recvAck_none {endpt : Endpoint} {l : Nodes Pending} (h : endpt.confirmq.Reps l)
    {msgid : UInt16} (hnone : findId msgid l = none) (err : Int) :
    recvAck endpt msgid err = .error .nullDeref := by
  unfold recvAck
  rw [mcBufferQueueGet_spec h msgid, hnone]
  rfl

/-- What a receive does: an ack removes the first entry of its id and calls
    that entry's result function, anything else leaves the queue alone. -/
structure Receives (endpt endpt' : Endpoint) (l : Nodes Pending) (msg : Option McMessage) :
    Prop where
  nextid : endpt'.nextid = endpt.nextid
  brk    : endpt'.confirmq.brk = endpt.confirmq.brk
  other  : mcMessageIsAck msg = false →
    endpt'.confirmq = endpt.confirmq ∧ endpt'.trace = endpt.trace
  ack    : mcMessageIsAck msg = true → ∃ message xs a v ys, msg = some message ∧
    l = xs ++ (a, v) :: ys ∧ v.msgid = mcMessageGetMessageId message ∧
    (∀ x ∈ xs, x.2.msgid ≠ mcMessageGetMessageId message) ∧
    endpt'.confirmq.Reps (xs ++ ys) ∧
    endpt'.trace = endpt.trace ++ (resultOf a v mnDone ++ [.removed a .recv])

theorem mcEndptUdpRecv_spec {qsort : Qsort McOption} {arrival : Arrival}
    {endpt endpt' : Endpoint} {l : Nodes Pending} (h : endpt.confirmq.Reps l)
    {msg : Option McMessage} (hrecv : mcEndptUdpRecv qsort arrival endpt = .ok (msg, endpt')) :
    Receives endpt endpt' l msg := by
  obtain ⟨⟨err, decoded, endpt1⟩, hdecode, hrest⟩ := bind_eq_ok.mp hrecv
  obtain ⟨hqueue, hnextid, htrace, _, hdone⟩ := recvMessage_frame hdecode
  have h1 : endpt1.confirmq.Reps l := by
    rw [hqueue]
    exact h
  rcases decoded with _ | message
  · cases hrest
    exact ⟨hnextid, congrArg _ hqueue, fun _ => ⟨hqueue, htrace⟩,
      fun hack => absurd hack (by simp [mcMessageIsAck])⟩
  · have herr := hdone (by simp)
    subst herr
    simp only at hrest
    rcases hack : mcMessageIsAck (some message) with _ | _
    · rw [if_neg (by simp [hack])] at hrest
      cases hrest
      exact ⟨hnextid, congrArg _ hqueue, fun _ => ⟨hqueue, htrace⟩,
        fun hc => absurd hc (by simp [hack])⟩
    · rw [if_pos hack] at hrest
      obtain ⟨endpt2, hconfirm, hrest⟩ := bind_eq_ok.mp hrest
      rcases hfound : findId (mcMessageGetMessageId message) l with _ | a
      · rw [recvAck_none h1 hfound] at hconfirm
        exact absurd hconfirm (by simp)
      -- otherwise the first entry of the id is the one that goes
      · obtain ⟨xs, v, ys, rfl, hv, hxs⟩ := findId_some hfound
        obtain ⟨endpt3, hconfirm', hreps, hbrk', hnextid', htrace'⟩ :=
          recvAck_found h1 hfound mnDone
        rw [hconfirm'] at hconfirm
        cases hconfirm
        cases hrest
        refine ⟨hnextid'.trans hnextid, hbrk'.trans (congrArg _ hqueue),
          fun hc => absurd hc (by simp [hack]),
          fun _ => ⟨message, xs, a, v, ys, rfl, rfl, hv, hxs, hreps, ?_⟩⟩
        rw [htrace', htrace]

/-! ## Section 4: The pass over the confirm queue -/

/-- What the pass makes of one entry: the entry, if it stays, and what was
    recorded. -/
structure Visit where
  entry  : Option Pending
  events : List Event
  tmout  : MnTimeout
  host   : Host

/-- An entry whose time is up is sent again, or given up. -/
def resendEntry (a : Addr) (v : Pending) (tmout : MnTimeout) (host : Host) : Visit :=
  if v.xmitcounter ≥ maxRetransmit then
    ⟨none, resultOf a v mnTimeout ++ [.removed a .checkQueues], tmout, host⟩
  else
    let (tmout, host) := mnTimeoutMarkstart tmout host
    let (err, host) := mnSocketSendto v.msg.toList.length host
    let sent := Event.sent (some a) v.msg.toList v.dest err
    if err ≠ mnDone then
      ⟨none, sent :: (resultOf a v err ++ [.removed a .checkQueues]), tmout, host⟩
    else
      ⟨some { v with xmitcounter := v.xmitcounter + 1 }, [sent], tmout, host⟩

def visitEntry (a : Addr) (v : Pending) (tmout : MnTimeout) (host : Host) : Visit :=
  let (left, host) := mnTimeoutGet v.timeout host
  if left = 0 then
    let (timeout, host) := mnTimeoutMarkstart (mnTimeoutInit (-1) (v.timeout.total * 2)) host
    resendEntry a { v with timeout := timeout } tmout host
  else
    ⟨some v, [], tmout, host⟩

/-- What the pass makes of a list of entries. -/
structure Pass where
  entries : Nodes Pending
  events  : List Event
  tmout   : MnTimeout
  host    : Host

def checkPass : Nodes Pending → MnTimeout → Host → Pass
  | [], tmout, host => ⟨[], [], tmout, host⟩
  | (a, v) :: rest, tmout, host =>
    let visit := visitEntry a v tmout host
    let pass := checkPass rest visit.tmout visit.host
    ⟨(visit.entry.map fun v => (a, v)).toList ++ pass.entries, visit.events ++ pass.events,
      pass.tmout, pass.host⟩

/-- An endpoint after a part of the pass. -/
structure Passed (endpt endpt' : Endpoint) (l : Nodes Pending) (events : List Event)
    (tmout : MnTimeout) (host : Host) : Prop where
  reps   : endpt'.confirmq.Reps l
  brk    : endpt'.confirmq.brk = endpt.confirmq.brk
  nextid : endpt'.nextid = endpt.nextid
  trace  : endpt'.trace = endpt.trace ++ events
  tmout  : endpt'.tmout = tmout
  host   : endpt'.host = host

theorem Passed.andThen {endpt endpt1 endpt2 : Endpoint} {l l' : Nodes Pending}
    {events events' : List Event} {tmout tmout' : MnTimeout} {host host' : Host}
    (h : Passed endpt endpt1 l events tmout host)
    (h' : Passed endpt1 endpt2 l' events' tmout' host') :
    Passed endpt endpt2 l' (events ++ events') tmout' host' where
  reps := h'.reps
  brk := h'.brk.trans h.brk
  nextid := h'.nextid.trans h.nextid
  trace := by rw [h'.trace, h.trace, List.append_assoc]
  tmout := h'.tmout
  host := h'.host

/-- The transmission of an entry that is due. -/
theorem sendEntryBuffer_spec {endpt : Endpoint} {xs ys : Nodes Pending} {a : Addr} {v : Pending}
    (h : endpt.confirmq.Reps (xs ++ (a, v) :: ys)) (hlt : ¬ v.xmitcounter ≥ maxRetransmit) :
    ∃ endpt', sendEntryBuffer endpt a =
        .ok ((sendtoSocket endpt (some a) v.msg.toList v.dest).1, endpt') ∧
      Passed endpt endpt' (xs ++ (a, { v with xmitcounter := v.xmitcounter + 1 }) :: ys)
        [.sent (some a) v.msg.toList v.dest (sendtoSocket endpt (some a) v.msg.toList v.dest).1]
        (sendtoSocket endpt (some a) v.msg.toList v.dest).2.tmout
        (sendtoSocket endpt (some a) v.msg.toList v.dest).2.host := by
  have h1 : (sendtoSocket endpt (some a) v.msg.toList v.dest).2.confirmq.Reps
      (xs ++ (a, v) :: ys) := h
  obtain ⟨confirmq, hset, hreps, hbrk⟩ :=
    setEntry_spec h1 fun v => { v with xmitcounter := v.xmitcounter + 1 }
  refine ⟨{ (sendtoSocket endpt (some a) v.msg.toList v.dest).2 with confirmq := confirmq }, ?_,
    hreps, hbrk, rfl, rfl, rfl, rfl⟩
  unfold sendEntryBuffer
  rw [entryAt_some h.isList.node]
  show (if v.xmitcounter ≥ maxRetransmit then _ else _) = _
  rw [if_neg hlt]
  show (Endpoint.setEntry (sendtoSocket endpt (some a) v.msg.toList v.dest).2 a _ >>= _) = _
  rw [hset]
  rfl

theorem sendEntryBuffer_exhausted {endpt : Endpoint} {xs ys : Nodes Pending} {a : Addr}
    {v : Pending} (h : endpt.confirmq.Reps (xs ++ (a, v) :: ys))
    (hge : v.xmitcounter ≥ maxRetransmit) : sendEntryBuffer endpt a = .ok (mnTimeout, endpt) := by
  unfold sendEntryBuffer
  rw [entryAt_some h.isList.node]
  show (if v.xmitcounter ≥ maxRetransmit then _ else _) = _
  rw [if_pos hge]
  rfl

/-- Giving an entry up: its result function is called, and it is removed. -/
theorem notify_spec {endpt : Endpoint} {xs ys : Nodes Pending} {a : Addr} {v : Pending}
    (h : endpt.confirmq.Reps (xs ++ (a, v) :: ys)) (err : Int) :
    ∃ confirmq, mcBufferQueueRemoveEntry (callResultFn endpt a v.resultfn v.msgid err).confirmq
        (some a) = .ok (headOf ys none, confirmq) ∧
      Passed endpt ({ callResultFn endpt a v.resultfn v.msgid err with
        confirmq := confirmq }.note (.removed a .checkQueues)) (xs ++ ys)
        (resultOf a v err ++ [.removed a .checkQueues]) endpt.tmout endpt.host := by
  obtain ⟨confirmq, hremove, hreps, hbrk, _⟩ := mcBufferQueueRemoveEntry_spec h
  rw [callResultFn_eq]
  exact ⟨confirmq, hremove, hreps, hbrk, rfl, List.append_assoc .., rfl, rfl⟩

theorem resendEntry_exhausted {a : Addr} {v : Pending} {tmout : MnTimeout} {host : Host}
    (hge : v.xmitcounter ≥ maxRetransmit) :
    resendEntry a v tmout host =
      ⟨none, resultOf a v mnTimeout ++ [.removed a .checkQueues], tmout, host⟩ := by
  unfold resendEntry
  rw [if_pos hge]

theorem resendEntry_failed {endpt : Endpoint} {a : Addr} {v : Pending}
    (hlt : ¬ v.xmitcounter ≥ maxRetransmit)
    (herr : (sendtoSocket endpt (some a) v.msg.toList v.dest).1 ≠ mnDone) :
    resendEntry a v endpt.tmout endpt.host =
      let sent := sendtoSocket endpt (some a) v.msg.toList v.dest
      ⟨none, .sent (some a) v.msg.toList v.dest sent.1 ::
        (resultOf a v sent.1 ++ [.removed a .checkQueues]), sent.2.tmout, sent.2.host⟩ := by
  unfold resendEntry
  rw [if_neg hlt]
  exact if_pos herr

theorem resendEntry_done {endpt : Endpoint} {a : Addr} {v : Pending}
    (hlt : ¬ v.xmitcounter ≥ maxRetransmit)
    (herr : (sendtoSocket endpt (some a) v.msg.toList v.dest).1 = mnDone) :
    resendEntry a v endpt.tmout endpt.host =
      let sent := sendtoSocket endpt (some a) v.msg.toList v.dest
      ⟨some { v with xmitcounter := v.xmitcounter + 1 },
        [.sent (some a) v.msg.toList v.dest sent.1], sent.2.tmout, sent.2.host⟩ := by
  unfold resendEntry
  rw [if_neg hlt]
  exact if_neg (not_not.mpr herr)

theorem resendOrNotify_spec {endpt : Endpoint} {xs ys : Nodes Pending} {a : Addr} {v : Pending}
    (h : endpt.confirmq.Reps (xs ++ (a, v) :: ys)) :
    ∃ endpt', resendOrNotify endpt a = .ok (headOf ys none, endpt') ∧
      Passed endpt endpt'
        (xs ++ (((resendEntry a v endpt.tmout endpt.host).entry.map fun v => (a, v)).toList ++ ys))
        (resendEntry a v endpt.tmout endpt.host).events
        (resendEntry a v endpt.tmout endpt.host).tmout
        (resendEntry a v endpt.tmout endpt.host).host := by
  unfold resendOrNotify
  by_cases hge : v.xmitcounter ≥ maxRetransmit
  -- sent often enough: nothing is sent, and the entry is given up
  · obtain ⟨confirmq, hremove, hpassed⟩ := notify_spec h mnTimeout
    rw [sendEntryBuffer_exhausted h hge, resendEntry_exhausted hge]
    refine ⟨_, ?_, hpassed⟩
    show (entryAt endpt.confirmq.cells (some a) >>= _) = _
    rw [entryAt_some h.isList.node]
    show (mcBufferQueueRemoveEntry
      (callResultFn endpt a v.resultfn v.msgid mnTimeout).confirmq (some a) >>= _) = _
    rw [hremove]
    rfl
  · obtain ⟨endpt1, hsend, hsent⟩ := sendEntryBuffer_spec h hge
    rw [hsend]
    by_cases herr : (sendtoSocket endpt (some a) v.msg.toList v.dest).1 = mnDone
    -- the loop goes on with the entry's own next link
    · rw [resendEntry_done hge herr]
      refine ⟨endpt1, ?_, hsent⟩
      show (entryAt endpt1.confirmq.cells (some a) >>= _) = _
      rw [entryAt_some hsent.reps.isList.node]
      show (if (sendtoSocket endpt (some a) v.msg.toList v.dest).1 ≠ mnDone then _ else _) = _
      rw [if_neg (not_not.mpr herr)]
      rfl
    -- the loop goes on with what the removal returns
    · obtain ⟨confirmq, hremove, hpassed⟩ :=
        notify_spec hsent.reps (sendtoSocket endpt (some a) v.msg.toList v.dest).1
      rw [resendEntry_failed hge herr]
      have hafter := hsent.andThen hpassed
      rw [hsent.tmout, hsent.host] at hafter
      refine ⟨_, ?_, hafter⟩
      show (entryAt endpt1.confirmq.cells (some a) >>= _) = _
      rw [entryAt_some hsent.reps.isList.node]
      show (if (sendtoSocket endpt (some a) v.msg.toList v.dest).1 ≠ mnDone then _ else _) = _
      rw [if_pos herr]
      show (mcBufferQueueRemoveEntry
        (callResultFn endpt1 a v.resultfn v.msgid _).confirmq (some a) >>= _) = _
      rw [hremove]
      rfl

theorem backOff_spec {endpt : Endpoint} {xs ys : Nodes Pending} {a : Addr} {v : Pending}
    (h : endpt.confirmq.Reps (xs ++ (a, v) :: ys)) (total : ℚ) :
    ∃ endpt', backOff endpt a total = .ok endpt' ∧
      Passed endpt endpt' (xs ++ (a, { v with timeout :=
        (mnTimeoutMarkstart (mnTimeoutInit (-1) (total * 2)) endpt.host).1 }) :: ys) []
        endpt.tmout (mnTimeoutMarkstart (mnTimeoutInit (-1) (total * 2)) endpt.host).2 := by
  have h1 : ({ endpt with
      host := (mnTimeoutMarkstart (mnTimeoutInit (-1) (total * 2)) endpt.host).2 } :
        Endpoint).confirmq.Reps (xs ++ (a, v) :: ys) := h
  obtain ⟨confirmq, hset, hreps, hbrk⟩ := setEntry_spec h1 fun v => { v with timeout :=
    (mnTimeoutMarkstart (mnTimeoutInit (-1) (total * 2)) endpt.host).1 }
  exact ⟨_, hset, hreps, hbrk, rfl, (List.append_nil _).symm, rfl, rfl⟩

/-- One round of the loop is one visit. -/
theorem checkEntry_spec {endpt : Endpoint} {xs ys : Nodes Pending} {a : Addr} {v : Pending}
    (h : endpt.confirmq.Reps (xs ++ (a, v) :: ys)) :
    ∃ endpt', checkEntry endpt a = .ok (headOf ys none, endpt') ∧
      Passed endpt endpt'
        (xs ++ (((visitEntry a v endpt.tmout endpt.host).entry.map fun v => (a, v)).toList ++ ys))
        (visitEntry a v endpt.tmout endpt.host).events
        (visitEntry a v endpt.tmout endpt.host).tmout
        (visitEntry a v endpt.tmout endpt.host).host := by
  unfold checkEntry visitEntry
  rw [entryAt_some h.isList.node]
  show ∃ endpt', (if (mnTimeoutGet v.timeout endpt.host).1 = 0 then _ else _) = _ ∧ _
  by_cases hleft : (mnTimeoutGet v.timeout endpt.host).1 = 0
  · simp only [if_pos hleft]
    have h1 : ({ endpt with host := (mnTimeoutGet v.timeout endpt.host).2 } :
        Endpoint).confirmq.Reps (xs ++ (a, v) :: ys) := h
    obtain ⟨endpt1, hback, hbacked⟩ := backOff_spec h1 v.timeout.total
    obtain ⟨endpt2, hresend, hresent⟩ := resendOrNotify_spec hbacked.reps
    have hafter := hbacked.andThen hresent
    rw [hbacked.tmout, hbacked.host] at hafter
    refine ⟨endpt2, ?_, hafter.reps, hafter.brk, hafter.nextid, hafter.trace, hafter.tmout,
      hafter.host⟩
    show (backOff { endpt with host := (mnTimeoutGet v.timeout endpt.host).2 } a
      v.timeout.total >>= _) = _
    rw [hback]
    exact hresend
  · simp only [if_neg hleft]
    exact ⟨_, rfl, h, rfl, rfl, (List.append_nil _).symm, rfl, rfl⟩

/-- The loop is the pass over the rest of the list. -/
theorem checkQueuesLoop_spec {endpt : Endpoint} {xs l : Nodes Pending}
    (h : endpt.confirmq.Reps (xs ++ l)) {fuel : Nat} (hfuel : l.length < fuel) :
    ∃ endpt', checkQueuesLoop fuel (headOf l none) endpt = .ok endpt' ∧
      Passed endpt endpt' (xs ++ (checkPass l endpt.tmout endpt.host).entries)
        (checkPass l endpt.tmout endpt.host).events (checkPass l endpt.tmout endpt.host).tmout
        (checkPass l endpt.tmout endpt.host).host := by
  induction l generalizing xs endpt fuel with
  | nil =>
    refine ⟨endpt, ?_, h, rfl, rfl, (List.append_nil _).symm, rfl, rfl⟩
    simp [headOf, checkQueuesLoop]
  | cons x l ih =>
    obtain ⟨a, v⟩ := x
    obtain ⟨n, rfl⟩ : ∃ n, fuel = n + 1 := ⟨fuel - 1, by omega⟩
    rw [List.length_cons] at hfuel
    obtain ⟨endpt1, hentry, hvisited⟩ := checkEntry_spec h
    -- what is left of this entry joins the part already visited
    have h1 := hvisited.reps
    rw [← List.append_assoc] at h1
    obtain ⟨endpt', hloop, hpassed⟩ := ih h1 (Nat.lt_of_succ_lt_succ hfuel)
    have hafter := hvisited.andThen hpassed
    rw [hvisited.tmout, hvisited.host, List.append_assoc] at hafter
    refine ⟨endpt', ?_, hafter⟩
    show (checkEntry endpt a >>= _) = _
    rw [hentry]
    exact hloop

/-- The pass returns, whatever is queued. -/
theorem mcEndptUdpCheckQueues_spec {endpt : Endpoint} {l : Nodes Pending}
    (h : endpt.confirmq.Reps l) :
    ∃ endpt', mcEndptUdpCheckQueues endpt = .ok endpt' ∧
      Passed endpt endpt' (checkPass l endpt.tmout endpt.host).entries
        (checkPass l endpt.tmout endpt.host).events (checkPass l endpt.tmout endpt.host).tmout
        (checkPass l endpt.tmout endpt.host).host := by
  have h' : endpt.confirmq.Reps ([] ++ l) := h
  unfold mcEndptUdpCheckQueues
  rw [h.isList.first_eq]
  exact checkQueuesLoop_spec h' (Nat.lt_succ_of_le h.length_le)

end Mcoap
