import Mcoap.BufferQueue

/-! # The endpoint

    `mcoap/mc_endpt_udp.c`: sending, receiving, and the pass over the
    confirm queue.

    An endpoint carries the host it runs on, and a trace of what it has
    done: the messages it put into the confirm queue, the datagrams it
    handed to the socket, the result functions it called and the entries it
    removed.  The trace is not in the source, and no function reads it.
    The address of an entry names its message in the trace.

    A result function is handed the endpoint; it is taken not to call back
    into it, so that a call is only recorded.  The socket is open. -/

namespace Mcoap

open ByteMem ByteProg StableSort DList

def maxRetransmit : UInt16 := 4
def defaultEndptTimeout : ℚ := 1 / 20

/-! ## Section 1: The state -/

/-- The function that removes an entry. -/
inductive Remover where
  | recv
  | send
  | checkQueues
  deriving DecidableEq, Repr

/-- What an endpoint does. -/
inductive Event where
  | queued (owner : Addr) (msgid : UInt16) (dest : SockAddr) (data : List UInt8)
      (resultfn : ResultFn)
  | sent (owner : Option Addr) (data : List UInt8) (dest : SockAddr) (err : Int)
  | called (owner : Addr) (resultfn : ResultFn) (msgid : UInt16) (err : Int)
  | removed (owner : Addr) (remover : Remover)
  deriving DecidableEq, Repr

/-- `mc_endpt_udp_t` without its socket, thread and read function.  The
    blocks of the two buffers have `nbytes` bytes. -/
structure Endpoint where
  tmout    : MnTimeout
  rdbuffer : McBuffer
  wrbuffer : McBuffer
  confirmq : McBufferQueue
  nextid   : UInt16
  host     : Host
  trace    : List Event

/-- Record an event. -/
def Endpoint.note (endpt : Endpoint) (event : Event) : Endpoint :=
  { endpt with trace := endpt.trace ++ [event] }

/-- Change the entry at an address. -/
def Endpoint.setEntry (endpt : Endpoint) (a : Addr) (f : Pending → Pending) :
    Except Fault Endpoint := do
  let _ ← entryAt endpt.confirmq.cells (some a)
  return { endpt with confirmq := { endpt.confirmq with
    cells := modify endpt.confirmq.cells a fun entry => { entry with val := f entry.val } } }

/-- Run a program over the block of a buffer. -/
def runIn {α : Type} (x : Code α) (block : McBuffer) (host : Host) :
    Except Fault (α × McBuffer × Host) :=
  let outcome := run x block.bytes host.junk
  if ∀ access ∈ outcome.trace, access.index < block.nbytes.toNat then
    match outcome.value with
    -- `mcBufferNextPtr` never gives null, so this is the loop of `count_options`
    | none => .error .endless
    | some value =>
      .ok (value, { block with bytes := outcome.mem }, { host with junk := outcome.supply })
  else
    .error .outOfBounds

/-! ## Section 2: Starting -/

/-- RFC7252 4.4 recommends choosing a random initial value. -/
def randomId (host : Host) : UInt16 × Host :=
  -- the clock seeds the random numbers
  let (_, host) := mnGettime host
  let (value, host) := rand host
  (UInt16.ofNat value, host)

/-- `mc_endpt_udp_init` up to the socket, which is taken to be created and
    bound: then it does not block.  No entry has been allocated yet. -/
def mcEndptUdpInit (rdsize wrsize : UInt32) (host : Host) : Endpoint :=
  let (nextid, host) := randomId host
  { tmout    := mnTimeoutInit defaultEndptTimeout (-1)
    rdbuffer := ⟨rdsize, fun _ => 0⟩
    wrbuffer := ⟨wrsize, fun _ => 0⟩
    confirmq := mcBufferQueueInit ⟨fun _ => none, 0, none, none⟩
    nextid   := if nextid = 0 then 1 else nextid
    host     := host
    trace    := [] }

def mcEndptUdpNextid (endpt : Endpoint) : UInt16 × Endpoint :=
  let result := endpt.nextid
  let nextid := endpt.nextid + 1
  (result, { endpt with nextid := if nextid = 0 then 1 else nextid })

/-! ## Section 3: Receiving -/

/-- What the socket has for `mn_socket_recvfrom`. -/
inductive Arrival where
  | datagram (bytes : List UInt8) (source : SockAddr)
  | failed (err : Int) (nonzero : err ≠ mnDone)

/-- `mn_socket_recvfrom` into a buffer: the part of the datagram that does
    not fit is lost, and an empty one counts as closed. -/
def mnSocketRecvfrom (arrival : Arrival) (buffer : McBuffer) : Int × Option SockAddr × McBuffer :=
  match arrival with
  | .failed err _ => (err, none, { buffer with nbytes := 0 })
  | .datagram bytes source =>
    let taken := bytes.take buffer.nbytes.toNat
    if taken = [] then
      (mnClosed, none, { buffer with nbytes := 0 })
    else
      (mnDone, some source, ⟨UInt32.ofNat taken.length, blit buffer.bytes 0 taken⟩)

def callResultFn (endpt : Endpoint) (owner : Addr) (resultfn : ResultFn) (msgid : UInt16)
    (err : Int) : Endpoint :=
  if resultfn > 1 then endpt.note (.called owner resultfn msgid err) else endpt

/-- The first half of `mc_endpt_udp_recv`: what has arrived is decoded and
    gets its sender's address.  The decoder works inside the whole read
    buffer, which `rdsize` is the size of. -/
def recvMessage (qsort : Qsort McOption) (arrival : Arrival) (endpt : Endpoint) :
    Except Fault (Int × Option McMessage × Endpoint) := do
  let rdsize := endpt.rdbuffer.nbytes
  let (tmout, host) := mnTimeoutMarkstart endpt.tmout endpt.host
  let (err, source, rdbuffer) := mnSocketRecvfrom arrival endpt.rdbuffer
  let endpt := { endpt with tmout := tmout, host := host }
  if err ≠ mnDone then
    return (err, none, { endpt with rdbuffer := { rdbuffer with nbytes := rdsize } })
  else
    let ((msg, _), block, host) ←
      runIn (mcMessageFromBuffer qsort rdbuffer.nbytes 0) ⟨rdsize, rdbuffer.bytes⟩ endpt.host
    match msg with
    | none => .error .nullDeref
    | some msg =>
      let msg := { msg with fromAddr := source.map mnSockaddrCopy }
      -- the read buffer's size is reset to its original value
      return (err, some msg, { endpt with rdbuffer := block, host := host })

/-- The second half, for an ack: the entry it confirms is looked up, told
    and removed. -/
def recvAck (endpt : Endpoint) (msgid : UInt16) (err : Int) : Except Fault Endpoint := do
  let found ← mcBufferQueueGet endpt.confirmq msgid
  let (a, entry) ← entryAt endpt.confirmq.cells found
  let endpt := callResultFn endpt a entry.val.resultfn entry.val.msgid err
  let (_, confirmq) ← mcBufferQueueRemoveEntry endpt.confirmq (some a)
  return { endpt with confirmq := confirmq }.note (.removed a .recv)

def mcEndptUdpRecv (qsort : Qsort McOption) (arrival : Arrival) (endpt : Endpoint) :
    Except Fault (Option McMessage × Endpoint) := do
  let (err, msg, endpt) ← recvMessage qsort arrival endpt
  match msg with
  | none => return (none, endpt)
  | some message =>
    if mcMessageIsAck (some message) then
      -- the entry is used without a test for null
      let endpt ← recvAck endpt (mcMessageGetMessageId message) err
      return (some message, endpt)
    else
      return (some message, endpt)

/-! ## Section 4: Sending -/

/-- Hand a datagram to the socket. -/
def sendtoSocket (endpt : Endpoint) (owner : Option Addr) (data : List UInt8) (dest : SockAddr) :
    Int × Endpoint :=
  let (tmout, host) := mnTimeoutMarkstart endpt.tmout endpt.host
  let (err, host) := mnSocketSendto data.length host
  (err, { endpt with tmout := tmout, host := host }.note (.sent owner data dest err))

def sendEntryBuffer (endpt : Endpoint) (a : Addr) : Except Fault (Int × Endpoint) := do
  let (_, entry) ← entryAt endpt.confirmq.cells (some a)
  if entry.val.xmitcounter ≥ maxRetransmit then
    return (mnTimeout, endpt)
  else
    -- the entry's own copy of the bytes, not the write buffer
    let (err, endpt) := sendtoSocket endpt (some a) entry.val.msg.toList entry.val.dest
    let endpt ← endpt.setEntry a fun v => { v with xmitcounter := v.xmitcounter + 1 }
    return (err, endpt)

/-- Message has already been serialized into the output buffer. -/
def sendEndptBuffer (endpt : Endpoint) (owner : Option Addr) (nbytes : UInt32)
    (toaddr : SockAddr) : Except Fault (Int × Endpoint) :=
  if nbytes > endpt.wrbuffer.nbytes then .error .outOfBounds
  else .ok (sendtoSocket endpt owner (slice endpt.wrbuffer.bytes 0 nbytes.toNat) toaddr)

/-- The second half of `send_con_msg`: the entry is counted as sent once,
    or leaves the queue again. -/
def afterFirstSend (endpt : Endpoint) (a : Addr) (msgid : UInt16) (resultfn : ResultFn)
    (err : Int) : Except Fault (Int × Endpoint) :=
  if err = mnDone then do
    let endpt ← endpt.setEntry a fun v => { v with xmitcounter := v.xmitcounter + 1 }
    return (err, endpt)
  else do
    -- whatever the error is, the message is given up at once
    let endpt := callResultFn endpt a resultfn msgid err
    let (_, confirmq) ← mcBufferQueueRemoveEntry endpt.confirmq (some a)
    return (err, { endpt with confirmq := confirmq }.note (.removed a .send))

/-- Only used the first time we send a confirmable msg as this loads it
    into the confirm queue. -/
def sendConMsg (endpt : Endpoint) (nbytes : UInt32) (toaddr : SockAddr) (msg : McMessage)
    (resultfn : ResultFn) : Except Fault (Int × Endpoint) := do
  let msgid := mcMessageGetMessageId msg
  match mcBufferCopy (some endpt.wrbuffer) 0 nbytes with
  | none =>
    -- more bytes than the write buffer has: the send would read past it
    .error .outOfBounds
  | some copy =>
    let (a, confirmq, host) ←
      mcBufferQueueAdd endpt.confirmq msgid (mnSockaddrCopy toaddr) copy resultfn endpt.host
    let endpt := { endpt with confirmq := confirmq, host := host }.note
      (.queued a msgid toaddr (slice endpt.wrbuffer.bytes 0 nbytes.toNat) resultfn)
    let (err, endpt) ← sendEndptBuffer endpt (some a) nbytes toaddr
    afterFirstSend endpt a msgid resultfn err

def mcEndptUdpSend (endpt : Endpoint) (toaddr : SockAddr) (msg : McMessage)
    (resultfn : ResultFn) : Except Fault (Int × Endpoint) := do
  let (nbytes, wrbuffer, host) ←
    runIn (mcMessageToBuffer msg endpt.wrbuffer.nbytes) endpt.wrbuffer endpt.host
  let endpt := { endpt with wrbuffer := wrbuffer, host := host }
  if mcMessageIsConfirmable msg then
    sendConMsg endpt nbytes toaddr msg resultfn
  else
    sendEndptBuffer endpt none nbytes toaddr

/-! ## Section 5: The pass over the confirm queue -/

/-- Double the timeout we'll wait for the confirm: the exponential back off. -/
def backOff (endpt : Endpoint) (a : Addr) (total : ℚ) : Except Fault Endpoint := do
  let (timeout, host) := mnTimeoutMarkstart (mnTimeoutInit (-1) (total * 2)) endpt.host
  { endpt with host := host }.setEntry a fun v => { v with timeout := timeout }

/-- The part of the loop's body after the back off: the entry is sent
    again, or its client notified and the entry removed. -/
def resendOrNotify (endpt : Endpoint) (a : Addr) : Except Fault (Option Addr × Endpoint) := do
  let (err, endpt) ← sendEntryBuffer endpt a
  let (_, current) ← entryAt endpt.confirmq.cells (some a)
  if err ≠ mnDone then
    -- the entry is not removed until after the result function is called
    let endpt := callResultFn endpt a current.val.resultfn current.val.msgid err
    let (next, confirmq) ← mcBufferQueueRemoveEntry endpt.confirmq (some a)
    return (next, { endpt with confirmq := confirmq }.note (.removed a .checkQueues))
  else
    return (current.next, endpt)

/-- The body of the loop; returns the entry the loop goes on with. -/
def checkEntry (endpt : Endpoint) (a : Addr) : Except Fault (Option Addr × Endpoint) := do
  let (_, current) ← entryAt endpt.confirmq.cells (some a)
  let (left, host) := mnTimeoutGet current.val.timeout endpt.host
  let endpt := { endpt with host := host }
  if left = 0 then
    -- the new timeout starts before the entry is sent
    let endpt ← backOff endpt a current.val.timeout.total
    resendOrNotify endpt a
  else
    return (current.next, endpt)

def checkQueuesLoop : Nat → Option Addr → Endpoint → Except Fault Endpoint
  | _, none, endpt => .ok endpt
  | 0, some _, _ => .error .endless
  | fuel + 1, some a, endpt => do
    let (current, endpt) ← checkEntry endpt a
    checkQueuesLoop fuel current endpt

/-- Iterate over the confirmation queue entries, if timeout retransmit or
    notify client of error if too many tries. -/
def mcEndptUdpCheckQueues (endpt : Endpoint) : Except Fault Endpoint :=
  checkQueuesLoop (endpt.confirmq.brk + 1) endpt.confirmq.first endpt

/-! ## Section 6: Acks -/

/-- Send an "ack only" message, without a piggy backed response; returns
    the send error code. -/
def mcEndptUdpAck (endpt : Endpoint) (addr : SockAddr) (token : McBuffer) (msgid : UInt16) :
    Except Fault (Int × Endpoint) :=
  mcEndptUdpSend endpt addr (mcMessageInit 1 mcAck 0 msgid token none none) 0

/-! ## Section 7: Runs -/

/-- The operations of an endpoint.  The last two are what a request does
    before it sends: it draws an id, and a random number for its token. -/
inductive EndpointOp where
  | send (toaddr : SockAddr) (msg : McMessage) (resultfn : ResultFn)
  | recv (arrival : Arrival)
  | checkQueues
  | nextid
  | rand

def EndpointOp.exec (qsort : Qsort McOption) : EndpointOp → Endpoint → Except Fault Endpoint
  | .send toaddr msg resultfn, endpt => do
    let (_, endpt) ← mcEndptUdpSend endpt toaddr msg resultfn
    return endpt
  | .recv arrival, endpt => do
    let (_, endpt) ← mcEndptUdpRecv qsort arrival endpt
    return endpt
  | .checkQueues, endpt => mcEndptUdpCheckQueues endpt
  | .nextid, endpt => return (mcEndptUdpNextid endpt).2
  | .rand, endpt => return { endpt with host := (Mcoap.rand endpt.host).2 }

/-- One operation that returns. -/
def endptStep (qsort : Qsort McOption) (endpt : Endpoint) (op : EndpointOp) (endpt' : Endpoint) :
    Prop := op.exec qsort endpt = .ok endpt'

end Mcoap
