import Mcoap.Endpoint

/-! # Requests

    `mcoap/mc_token.c`, and the part of `mcoap/mc_endpt_udp.c` that makes a
    message out of a URI and sends it.

    What `mc_uri_to_options` makes of a destination and a URI is a
    parameter.  It may ask the host, return null or a list, and fault;
    nothing is assumed of it. -/

namespace Mcoap

open ByteMem ByteProg StableSort

/-- `mc_uri_to_options` into a new list, of the bytes of a URI. -/
abbrev UriToOptions : Type :=
  SockAddr → List UInt8 → Host → Except Fault (Option McOptionsList × Host)

def mcGet    : UInt8 := 1
def mcPost   : UInt8 := 2
def mcPut    : UInt8 := 3
def mcDelete : UInt8 := 4

/-! ## Section 1: Making a message -/

/-- Create a token with caller specified 2 byte prefix and 4 byte random
    suffix; both are stored the way they lie in memory. -/
def mcTokenCreate2 (leading : UInt16) (host : Host) : McBuffer × Host :=
  let (value, host) := rand host
  let suffix := UInt32.ofNat value
  (McBuffer.ofList (image16 leading ++ image32 suffix), host)

section

variable (qsort : Qsort McOption) (mcUriToOptions : UriToOptions)

/-- Create options from URI and to address.  If there are extra options
    merge them into the list, which must not be null then: it is freed. -/
def mkOptions (uri : List UInt8) (addr : SockAddr) (extra : Option McOptionsList) (host : Host) :
    Except Fault (Option McOptionsList × Host) := do
  let (list, host) ← mcUriToOptions addr uri host
  match extra with
  | none => return (list, host)
  | some extra =>
    let merged := mcOptionsListMerge qsort list (some extra)
    match list with
    -- `mc_options_list_deinit` reads the options of a null list
    | none => .error .nullDeref
    | some _ => return (merged, host)

/-- The message takes the next id, which its token starts with. -/
def mkMessage (endpt : Endpoint) (code : UInt8) (resultfn : ResultFn)
    (list : Option McOptionsList) (payload : Option McBuffer) : UInt16 × McMessage × Endpoint :=
  let (msgid, endpt) := mcEndptUdpNextid endpt
  let (token, host) := mcTokenCreate2 msgid endpt.host
  let endpt := { endpt with host := host }
  -- who passes a result function wants to know, and gets an ack or a timeout
  if resultfn ≠ 0 then (msgid, mcMessageConInit code msgid token list payload, endpt)
  else (msgid, mcMessageNonInit code msgid token list payload, endpt)

/-! ## Section 2: Sending it -/

/-- Generic message sending function; returns the message id, or 0. -/
def sendMsg (endpt : Endpoint) (addr : SockAddr) (resultfn : ResultFn) (code : UInt8)
    (uri : List UInt8) (extra : Option McOptionsList) (payload : Option McBuffer) :
    Except Fault (UInt16 × Endpoint) := do
  let (list, host) ← mkOptions qsort mcUriToOptions uri addr extra endpt.host
  let (msgid, msg, endpt) := mkMessage { endpt with host := host } code resultfn list payload
  -- the id is drawn, and stays drawn if the send fails
  let (err, endpt) ← mcEndptUdpSend endpt addr msg resultfn
  return (if err ≠ mnDone then 0 else msgid, endpt)

def mcEndptUdpDelete (endpt : Endpoint) (addr : SockAddr) (resultfn : ResultFn)
    (uri : List UInt8) (extra : Option McOptionsList) : Except Fault (UInt16 × Endpoint) :=
  sendMsg qsort mcUriToOptions endpt addr resultfn mcDelete uri extra none

def mcEndptUdpGet (endpt : Endpoint) (addr : SockAddr) (resultfn : ResultFn)
    (uri : List UInt8) (extra : Option McOptionsList) : Except Fault (UInt16 × Endpoint) :=
  sendMsg qsort mcUriToOptions endpt addr resultfn mcGet uri extra none

def mcEndptUdpPost (endpt : Endpoint) (addr : SockAddr) (resultfn : ResultFn)
    (uri : List UInt8) (extra : Option McOptionsList) (payload : Option McBuffer) :
    Except Fault (UInt16 × Endpoint) :=
  sendMsg qsort mcUriToOptions endpt addr resultfn mcPost uri extra payload

def mcEndptUdpPut (endpt : Endpoint) (addr : SockAddr) (resultfn : ResultFn)
    (uri : List UInt8) (extra : Option McOptionsList) (payload : Option McBuffer) :
    Except Fault (UInt16 × Endpoint) :=
  sendMsg qsort mcUriToOptions endpt addr resultfn mcPut uri extra payload

/-! ## Section 3: Runs -/

/-- What a client does with an endpoint. -/
inductive ClientOp where
  | get (addr : SockAddr) (resultfn : ResultFn) (uri : List UInt8) (extra : Option McOptionsList)
  | put (addr : SockAddr) (resultfn : ResultFn) (uri : List UInt8) (extra : Option McOptionsList)
      (payload : Option McBuffer)
  | post (addr : SockAddr) (resultfn : ResultFn) (uri : List UInt8) (extra : Option McOptionsList)
      (payload : Option McBuffer)
  | delete (addr : SockAddr) (resultfn : ResultFn) (uri : List UInt8)
      (extra : Option McOptionsList)
  | recv (arrival : Arrival)
  | checkQueues

def ClientOp.exec : ClientOp → Endpoint → Except Fault Endpoint
  | .get addr resultfn uri extra, endpt => do
    let (_, endpt) ← mcEndptUdpGet qsort mcUriToOptions endpt addr resultfn uri extra
    return endpt
  | .put addr resultfn uri extra payload, endpt => do
    let (_, endpt) ← mcEndptUdpPut qsort mcUriToOptions endpt addr resultfn uri extra payload
    return endpt
  | .post addr resultfn uri extra payload, endpt => do
    let (_, endpt) ← mcEndptUdpPost qsort mcUriToOptions endpt addr resultfn uri extra payload
    return endpt
  | .delete addr resultfn uri extra, endpt => do
    let (_, endpt) ← mcEndptUdpDelete qsort mcUriToOptions endpt addr resultfn uri extra
    return endpt
  | .recv arrival, endpt => do
    let (_, endpt) ← mcEndptUdpRecv qsort arrival endpt
    return endpt
  | .checkQueues, endpt => mcEndptUdpCheckQueues endpt

/-- One operation that returns. -/
def clientStep (endpt : Endpoint) (op : ClientOp) (endpt' : Endpoint) : Prop :=
  op.exec qsort mcUriToOptions endpt = .ok endpt'

end

end Mcoap
