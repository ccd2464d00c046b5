import Mathlib.Data.Nat.Digits.Lemmas
import Mcoap.Delivery
import Mcoap.ReadLoop
import Mcoap.UriAddress

/-! # The time server and its clients

    `examples/tmserver/tmserver.c` and `examples/tmclient/tmclient.c`: a
    server that echoes what it is sent, and any number of clients that post
    numbered packets to it and print what comes back.

    The network loses, repeats, delays and reorders datagrams, and makes
    none up.

    * `requestHandler`, `serveOnce`: the server, one iteration of its read
      loop at a time; `serveOnce_loops`: it is the loop of `ReadLoop`;
    * `mkPayload`, `postPacket`, `processResp`: the client;
    * `echoStep`: the server, the clients and the network;
    * `echo_service`: nobody faults, the server sends back what it gets, and
      a client prints packets that it has posted. -/

namespace Mcoap

open ByteMem ByteProg StableSort DList Runs CString

/-! ## Section 1: The server -/

/-- `request_handler`: currently just echoing the message. -/
def requestHandler (endpt : Endpoint) (msg : McMessage) : Except Fault (Int × Endpoint) :=
  match msg.fromAddr with
  | none => .ok (1, endpt)
  | some addr => do
    let (_, endpt) ← mcEndptUdpSend endpt addr msg 0
    return (1, endpt)

/-- One iteration of `endpt_udp_loop` with this read function. -/
def serveOnce (qsort : Qsort McOption) (arrival : Arrival) (endpt : Endpoint) :
    Except Fault Endpoint := do
  let (msg, endpt) ← mcEndptUdpRecv qsort arrival endpt
  match msg with
  | none => mcEndptUdpCheckQueues endpt
  | some msg =>
    let (_, endpt) ← requestHandler endpt msg
    mcEndptUdpCheckQueues endpt

/-- What the read function does with the endpoint. -/
theorem requestHandler_run {qsort : Qsort McOption} {endpt endpt' : Endpoint} {msg : McMessage}
    {value : Int} (h : requestHandler endpt msg = .ok (value, endpt')) :
    value = 1 ∧ ∃ ops, Run (endptStep qsort) endpt ops endpt' := by
  unfold requestHandler at h
  split at h
  · cases h
    exact ⟨rfl, [], Run.nil⟩
  · obtain ⟨⟨err, endpt1⟩, hsend, hret⟩ := bind_eq_ok.mp h
    cases hret
    exact ⟨rfl, _, run_send hsend⟩

/-- An iteration is one of the read loop whose flag is set: it comes back to
    the test of the flag, which is still set. -/
theorem serveOnce_loops {qsort : Qsort McOption} {arrival : Arrival} {endpt endpt' : Endpoint}
    (h : serveOnce qsort arrival endpt = .ok endpt') :
    ∃ ops, Run (loopStep qsort) (mcEndptUdpLoop endpt) ops (mcEndptUdpLoop endpt') := by
  obtain ⟨⟨msg, endpt1⟩, hrecv, hrest⟩ := bind_eq_ok.mp h
  have henter : loopStep qsort (mcEndptUdpLoop endpt) .enter ⟨1, .recv, endpt⟩ :=
    ⟨rfl, Int.one_ne_zero, rfl⟩
  have hread : loopStep qsort ⟨1, .recv, endpt⟩ (.recv arrival) ⟨1, afterRecv msg, endpt1⟩ :=
    ⟨rfl, msg, endpt1, hrecv, rfl⟩
  have hrun := (Run.single henter).snoc hread
  cases msg with
  | none =>
    have hcheck : loopStep qsort ⟨1, .check, endpt1⟩ .check (mcEndptUdpLoop endpt') :=
      ⟨rfl, endpt', hrest, rfl⟩
    exact ⟨_, hrun.snoc hcheck⟩
  | some msg =>
    obtain ⟨⟨value, endpt2⟩, hhandler, hcheck'⟩ := bind_eq_ok.mp hrest
    obtain ⟨rfl, ops, hops⟩ := @requestHandler_run qsort _ _ _ _ hhandler
    have hreturn : loopStep qsort ⟨1, .read msg, endpt1⟩ (.readfn 1 ops) ⟨1, .store 1, endpt2⟩ :=
      ⟨msg, rfl, endpt2, hops, rfl⟩
    have hstore : loopStep qsort ⟨1, .store 1, endpt2⟩ .store ⟨1, .check, endpt2⟩ := ⟨1, rfl, rfl⟩
    have hcheck : loopStep qsort ⟨1, .check, endpt2⟩ .check (mcEndptUdpLoop endpt') :=
      ⟨rfl, endpt', hcheck', rfl⟩
    exact ⟨_, ((hrun.snoc hreturn).snoc hstore).snoc hcheck⟩

/-! ## Section 2: The client -/

/-- "127.0.0.1" -/
def loopback : List UInt8 := [0x31, 0x32, 0x37, 0x2e, 0x30, 0x2e, 0x30, 0x2e, 0x31]

/-- "gettime" -/
def gettime : List UInt8 := [0x67, 0x65, 0x74, 0x74, 0x69, 0x6d, 0x65]

/-- `%u`. -/
def decimalText (n : Nat) : List UInt8 := (Nat.digits 10 n).reverse.map fun d => UInt8.ofNat (0x30 + d)

/-- coap://127.0.0.1:%u/gettime -/
def gettimeUri (srvport : UInt16) : List UInt8 :=
  schemeCoap ++ (schemeEnd ++
    (loopback ++ (colon :: (decimalText srvport.toNat ++ slash :: gettime))))

/-- How many doubles are sent: at least three, and 256 bytes at most. -/
def ndoubles (nbytes : UInt16) : Nat :=
  let nbytes := if nbytes < 24 then 24 else nbytes
  let nbytes := if nbytes > 256 then 256 else nbytes
  (nbytes / 8).toNat

/-- A number as it lies in memory, in `n` bytes. -/
def imageOf : Nat → Nat → List UInt8
  | 0, _ => []
  | n + 1, v => UInt8.ofNat v :: imageOf n (v / 256)

/-- The number that lies in memory so. -/
def numberOf : List UInt8 → Nat
  | [] => 0
  | c :: cs => c.toNat + 256 * numberOf cs

@[simp] theorem imageOf_length (n v : Nat) : (imageOf n v).length = n := by
  induction n generalizing v with
  | zero => rfl
  | succ n ih => exact congrArg Nat.succ (ih (v / 256))

/-- What is stored is read back, as far as there is room for it. -/
theorem numberOf_imageOf (n v : Nat) : numberOf (imageOf n v) = v % 256 ^ n := by
  induction n generalizing v with
  | zero => exact (Nat.mod_one v).symm
  | succ n ih =>
    have hbyte : (UInt8.ofNat v).toNat = v % 256 := UInt8.toNat_ofNat'
    rw [imageOf, numberOf, ih, hbyte, Nat.pow_succ', Nat.mod_mul]

/-- The bits of the double that a packet's number is converted to. -/
def float64Bits (npacket : UInt16) : UInt64 := (Float.Model.ofUInt16 npacket).toBits

/-- `mk_payload`: the number of the packet as a double, and zeros. -/
def mkPayload (ndoubles : Nat) (npacket : UInt16) : McBuffer :=
  McBuffer.ofList (imageOf 8 (float64Bits npacket).toNat ++ List.replicate (8 * ndoubles - 8) 0)

/-- `process_resp`: the first eight bytes of the payload are printed as an
    integer, and how many bytes it has. -/
def processResp (msg : Option McMessage) : Except Fault (Option (UInt64 × UInt32)) :=
  match msg with
  | none => .ok none
  | some msg =>
    match msg.payload with
    | none => .error .nullDeref
    | some payload =>
      if payload.nbytes < 8 then .error .outOfBounds
      else .ok (some (UInt64.ofNat (numberOf (slice payload.bytes 0 8)), payload.nbytes))

/-! ### The options of the client's URI -/

theorem decimalText_digits (n : Nat) : ∀ c ∈ decimalText n, isdigit c = true := by
  intro c hc
  obtain ⟨d, hd, rfl⟩ := List.mem_map.mp hc
  have hlt : d < 10 := Nat.digits_lt_base (by decide) (List.mem_reverse.mp hd)
  rw [isdigit_iff, UInt8.toNat_ofNat']
  omega

/-- Reading the text gives the number back. -/
theorem decimal_decimalText (n : Nat) : decimal (decimalText n) = n := by
  have hfold : ∀ ds : List Nat, (∀ d ∈ ds, d < 10) →
      (ds.map fun d => UInt8.ofNat (0x30 + d)).foldr (fun c n => n * 10 + (c.toNat - 0x30)) 0 =
        Nat.ofDigits 10 ds := by
    intro ds hds
    induction ds with
    | nil => rfl
    | cons d ds ih =>
      have hd := hds d List.mem_cons_self
      rw [List.map_cons, List.foldr_cons, ih fun e he => hds e (List.mem_cons_of_mem _ he),
        Nat.ofDigits_cons, UInt8.toNat_ofNat']
      omega
  rw [decimal, decimalText, List.map_reverse, List.foldl_reverse, hfold, Nat.ofDigits_digits]
  exact fun d hd => Nat.digits_lt_base (by decide) hd

theorem coap_valid : schemeCoap = schemeCoap ∨ schemeCoap = schemeCoaps := Or.inl rfl

theorem loopback_free : ∀ c ∈ loopback, c ∉ [colon, slash, question, openBracket] := by
  simp [loopback, colon, slash, question, openBracket]

theorem gettime_free : ∀ s ∈ [gettime], s ≠ [] ∧ ∀ c ∈ s, c ∉ [slash, question] := by
  simp [gettime, slash, question]

theorem gettime_noZero : ∀ w ∈ loopback :: ([gettime] ++ []), ∀ c ∈ w, c ≠ 0 := by
  simp [loopback, gettime]

theorem port_decimal {srvport : UInt16} (hport : srvport ≠ 0) :
    1 ≤ decimal (decimalText srvport.toNat) ∧ decimal (decimalText srvport.toNat) ≤ 65535 := by
  rw [decimal_decimalText]
  constructor
  · exact Nat.one_le_iff_ne_zero.mpr fun h0 => hport (UInt16.toNat_inj.mp h0)
  · exact Nat.le_of_lt_succ srvport.toNat_lt

theorem none_free : ∀ a ∈ ([] : List (List UInt8)), a ≠ [] ∧ ∀ c ∈ a, c ∉ [ampersand] := by simp

/-- The URI by its parts. -/
def gettimeParts (srvport : UInt16) (hport : srvport ≠ 0) : UriParts where
  scheme        := schemeCoap
  host          := loopback
  text          := loopback
  port          := decimalText srvport.toNat
  segments      := [gettime]
  arguments     := []
  validScheme   := coap_valid
  hostText      := HostText.name (List.cons_ne_nil _ _) loopback_free
  portDigits    := decimalText_digits _
  portLow       := (port_decimal hport).1
  portHigh      := (port_decimal hport).2
  segmentsFree  := gettime_free
  argumentsFree := none_free
  noZero        := gettime_noZero

/-- What the parser makes of the URI: host and port, unless the destination
    is the address the URI names, and the path. -/
def gettimeOptions (env : UriEnv) (addr : SockAddr) (srvport : UInt16) : List Wire.Opt :=
  (if equaladdr env.past (mnSockaddrInetInit env.resolve env.uriaddr loopback srvport).2 (some addr)
    then [] else [⟨3, loopback⟩, ⟨7, portValue srvport.toNat⟩]) ++ [⟨11, gettime⟩]

theorem gettimeParts_uri {srvport : UInt16} (hport : srvport ≠ 0) :
    (gettimeParts srvport hport).uri = gettimeUri srvport := by
  simp [UriParts.uri, UriParts.tail, gettimeParts, gettimeUri, pathText, queryText]

theorem gettimeParts_fits {srvport : UInt16} (hport : srvport ≠ 0) :
    (gettimeParts srvport hport).Fits := by
  refine ⟨(by decide : 9 < 2 ^ 32 - 1), ?_, ?_, ?_, ?_⟩
  · -- five digits at most stand in front of the '/'
    have hlen : (decimalText srvport.toNat).length ≤ 5 := by
      rw [decimalText, List.length_map, List.length_reverse]
      exact (Nat.digits_length_le_iff (by decide) _).mpr (srvport.toNat_lt.trans (by decide))
    have hspan : strcspn (decimalText srvport.toNat ++ slash :: gettime) [slash] =
        (decimalText srvport.toNat).length := by
      apply strcspn_append
      · intro c hc hin
        have hdigit := (isdigit_iff c).mp (decimalText_digits _ c hc)
        rw [List.mem_singleton.mp hin] at hdigit
        exact absurd hdigit (by decide)
      · simp [StopsAt]
    have htail : (gettimeParts srvport hport).port ++ (gettimeParts srvport hport).tail =
        decimalText srvport.toNat ++ slash :: gettime := by
      simp [UriParts.tail, gettimeParts, pathText, queryText]
    rw [htail, hspan]
    omega
  · intro s hs
    rw [List.mem_singleton.mp hs]
    exact (by decide : 7 < 2 ^ 32 - 1)
  · exact fun a ha => absurd ha List.not_mem_nil
  · exact (by decide : 1 + 2 < 2 ^ 32)

/-- The parser accepts the URI. -/
theorem gettime_accepted {qsort : Qsort McOption} (hq : qsort.Stable) (env : UriEnv)
    (addr : SockAddr) {srvport : UInt16} (hport : srvport ≠ 0) :
    ∃ list, mcUriToOptions qsort env (some addr) (gettimeUri srvport) = .ok (some list) ∧
      wireOptions list.options = gettimeOptions env addr srvport := by
  have hfits := gettimeParts_fits hport
  have harray := (gettimeParts srvport hport).uriArray_uri hfits env (some addr)
  rw [gettimeParts_uri] at harray
  have hdecimal : decimal (gettimeParts srvport hport).port = srvport.toNat := decimal_decimalText _
  have helided : (gettimeParts srvport hport).elided env (some addr) =
      equaladdr env.past (mnSockaddrInetInit env.resolve env.uriaddr loopback srvport).2
        (some addr) := by
    rw [UriParts.elided, hdecimal]
    have hcast : (UInt32.ofNat srvport.toNat).toUInt16 = srvport := by
      apply UInt16.toNat_inj.mp
      have hlt := srvport.toNat_lt
      rw [UInt32.toNat_toUInt16, ofNat32_toNat (by omega)]
      exact Nat.mod_eq_of_lt hlt
    rw [hcast]
    rfl
  rw [helided] at harray
  refine ⟨_, by rw [mcUriToOptions, harray]; rfl, ?_⟩
  -- the array is in number order already
  have hsorted := (gettimeParts srvport hport).sorted_array
  have hcomponents := (gettimeParts srvport hport).components_wire hfits
  rw [wireOptions] at hcomponents
  rw [gettimeOptions]
  split
  · have hsort : (mcOptionsListInit qsort (gettimeParts srvport hport).components).options =
        (gettimeParts srvport hport).components :=
      hq.sort_sorted compareOptions_isOrder (List.pairwise_append.mp hsorted).2.1
    rw [List.nil_append, hsort, wireOptions, hcomponents]
    rfl
  · have hsort : (mcOptionsListInit qsort ((gettimeParts srvport hport).authority ++
        (gettimeParts srvport hport).components)).options =
        (gettimeParts srvport hport).authority ++ (gettimeParts srvport hport).components :=
      hq.sort_sorted compareOptions_isOrder hsorted
    have hhigh := (gettimeParts srvport hport).portHigh
    rw [hsort, wireOptions, List.map_append, hcomponents, UriParts.authority, List.map_cons,
      List.map_cons, mcOptionInitStr_wire _ hfits.host, mcOptionInitUint32_wire _ hhigh, hdecimal]
    rfl

/-- They are in the short forms, and take 21 bytes at most. -/
theorem gettimeOptions_small (env : UriEnv) (addr : SockAddr) (srvport : UInt16) :
    Wire.Small 0 (gettimeOptions env addr srvport) ∧
      (Wire.encodeOptions 0 (gettimeOptions env addr srvport)).length ≤ 21 := by
  unfold gettimeOptions portValue
  split
  · decide
  · split
    · exact ⟨by simp [Wire.Small, loopback, gettime],
        by simp [Wire.encodeOptions, Wire.encodeOption, Wire.extension, loopback, gettime]⟩
    · exact ⟨by simp [Wire.Small, loopback, gettime],
        by simp [Wire.encodeOptions, Wire.encodeOption, Wire.extension, loopback, gettime]⟩

/-! ### One packet -/

/-- A packet: its number, and the message id, the options and the payload
    it is sent with. -/
structure Packet where
  number  : UInt16
  msgid   : UInt16
  options : List Wire.Opt
  payload : McBuffer

/-- The post in `run_client`'s loop. -/
def postPacket (qsort : Qsort McOption) (env : UriEnv)
    (endpt : Endpoint) (addr : SockAddr) (srvport nbytes itimes : UInt16) :
    Except Fault (UInt16 × Endpoint) :=
  -- we pass in 0 for the result function so the message is nonconfirmable
  mcEndptUdpPost qsort (uriToOptions qsort env) endpt addr 0 (gettimeUri srvport) none
    (some (mkPayload (ndoubles nbytes) itimes))

/-- The packet that is posted. -/
def packetOf (env : UriEnv) (endpt : Endpoint) (addr : SockAddr)
    (srvport nbytes itimes : UInt16) : Packet :=
  ⟨itimes, endpt.nextid, gettimeOptions env addr srvport, mkPayload (ndoubles nbytes) itimes⟩

/-- The message of a packet. -/
structure CarriedBy (message : McMessage) (packet : Packet) : Prop where
  built    : message = mcMessageInit messageVersion mcNoconfirm mcPost packet.msgid message.token
    message.options (some packet.payload)
  token    : message.token.nbytes = 6
  sendable : message.Sendable
  options  : wireOptions (listOptions message.options) = packet.options
  size     : (messageBytes message).length ≤ 288
  payload  : 24 ≤ packet.payload.toList.length

theorem ndoubles_bounds (nbytes : UInt16) : 3 ≤ ndoubles nbytes ∧ ndoubles nbytes ≤ 32 := by
  have h24 : (24 : UInt16).toNat = 24 := rfl
  have h256 : (256 : UInt16).toNat = 256 := rfl
  have h8 : (8 : UInt16).toNat = 8 := rfl
  unfold ndoubles
  simp only
  split
  · decide
  · rename_i hlow
    have hlow' : 24 ≤ nbytes.toNat := by
      rw [UInt16.lt_iff_toNat_lt, h24] at hlow
      omega
    split
    · decide
    · rename_i hhigh
      have hhigh' : nbytes.toNat ≤ 256 := by
        rw [gt_iff_lt, UInt16.lt_iff_toNat_lt, h256] at hhigh
        omega
      rw [UInt16.toNat_div, h8]
      omega

theorem mkPayload_toList (nbytes npacket : UInt16) :
    (mkPayload (ndoubles nbytes) npacket).toList =
      imageOf 8 (float64Bits npacket).toNat ++ List.replicate (8 * ndoubles nbytes - 8) 0 := by
  have hbounds := ndoubles_bounds nbytes
  apply McBuffer.ofList_toList
  rw [List.length_append, imageOf_length, List.length_replicate]
  omega

section

variable {qsort : Qsort McOption} {env : UriEnv}
  {endpt : Endpoint} {l : Nodes Pending} {addr : SockAddr} {srvport nbytes itimes : UInt16}
  {message message' : McMessage} {packet : Packet} {source : SockAddr}

theorem carriedBy_init {list : McOptionsList} {token : McBuffer}
    (htoken : token.nbytes = 6) (hlist : ListEncodable (some list))
    (hwire : wireOptions list.options = packet.options) (hsmall : Wire.Small 0 packet.options)
    (hshort : (Wire.encodeOptions 0 packet.options).length ≤ 21)
    (hlow : 24 ≤ packet.payload.toList.length) (hhigh : packet.payload.toList.length ≤ 256) :
    CarriedBy (mcMessageInit messageVersion mcNoconfirm mcPost packet.msgid token (some list)
      (some packet.payload)) packet := by
  refine ⟨rfl, htoken, ⟨?_, hlist, ?_⟩, hwire, ?_, hlow⟩
  · apply mcMessageInit_tokenLen
    rw [htoken]
    decide
  · show Wire.Small 0 (wireOptions list.options)
    rw [hwire]
    exact hsmall
  · have hlong : (payloadBytes (some packet.payload)).length ≤ 257 := by
      rw [payloadBytes]
      split
      · exact Nat.zero_le _
      · rw [List.length_cons, bytesOf_some]
        omega
    rw [messageBytes_length]
    show 4 + (token.nbytes.toNat + ((Wire.encodeOptions 0 (wireOptions list.options)).length +
      (payloadBytes (some packet.payload)).length)) ≤ 288
    rw [htoken, hwire]
    have h6 : (6 : UInt32).toNat = 6 := rfl
    omega

/-- A request whose message was handed over, whatever the socket said. -/
theorem sendMsg_sent {mcUriToOptions : UriToOptions} {resultfn : ResultFn} {code : UInt8}
    {uri : List UInt8} {extra list : Option McOptionsList} {payload : Option McBuffer}
    {host : Host} {msgid : UInt16} {err : Int} {endpt1 endpt' : Endpoint}
    (hoptions : mkOptions qsort mcUriToOptions uri addr extra endpt.host = .ok (list, host))
    (hmade : mkMessage { endpt with host := host } code resultfn list payload =
      (msgid, message, endpt1))
    (hsent : mcEndptUdpSend endpt1 addr message resultfn = .ok (err, endpt')) :
    sendMsg qsort mcUriToOptions endpt addr resultfn code uri extra payload =
      .ok (if err ≠ mnDone then 0 else msgid, endpt') := by
  unfold sendMsg
  rw [hoptions]
  show (mcEndptUdpSend (mkMessage { endpt with host := host } code resultfn list payload).2.2 addr
    (mkMessage { endpt with host := host } code resultfn list payload).2.1 resultfn >>= fun sent =>
      pure (if sent.1 ≠ mnDone then 0
        else (mkMessage { endpt with host := host } code resultfn list payload).1, sent.2)) = _
  rw [hmade, hsent]
  rfl

/-- A post of a packet returns, whatever the socket says, and hands over the
    packet's message. -/
theorem postPacket_spec (hq : qsort.Stable) (h : endpt.confirmq.Reps l) (hport : srvport ≠ 0)
    (hroom : 288 ≤ endpt.wrbuffer.nbytes.toNat) :
    ∃ r endpt' message err,
      postPacket qsort env endpt addr srvport nbytes itimes = .ok (r, endpt') ∧
      CarriedBy message (packetOf env endpt addr srvport nbytes itimes) ∧
      endpt'.confirmq = endpt.confirmq ∧
      endpt'.trace = endpt.trace ++ [.sent none (messageBytes message) addr err] ∧
      SendFrame endpt endpt' := by
  obtain ⟨list, hlist, hwire⟩ := gettime_accepted hq env addr hport
  obtain ⟨hsmall, hshort⟩ := gettimeOptions_small env addr srvport
  have hencodable : ListEncodable (some list) := by
    obtain ⟨_, _, options, _, _, rfl⟩ := mcUriToOptions_ok hlist
    apply @mcOptionsListInit_small qsort (some options)
    rw [Option.map_some, listOptions_some, hwire]
    exact hsmall
  have hoptions : mkOptions qsort (uriToOptions qsort env) (gettimeUri srvport) addr none
      endpt.host = .ok (some list, endpt.host) := by
    unfold mkOptions
    rw [uriToOptions_ok hlist]
    rfl
  have hbounds := ndoubles_bounds nbytes
  have hbytes : (mkPayload (ndoubles nbytes) itimes).toList.length = 8 * ndoubles nbytes := by
    rw [mkPayload_toList, List.length_append, imageOf_length, List.length_replicate]
    omega
  obtain ⟨token, host, htoken, hmade, hhost⟩ := mkMessage_eq endpt mcPost 0 (some list)
    (some (mkPayload (ndoubles nbytes) itimes))
  rw [if_pos rfl] at hmade
  have hcarried := @carriedBy_init (packetOf env endpt addr srvport nbytes itimes) list token
    htoken hencodable hwire hsmall hshort (by rw [packetOf, hbytes]; omega)
    (by rw [packetOf, hbytes]; omega)
  have hnon := isConfirmable_request 0 mcPost endpt.nextid token (some list)
    (some (mkPayload (ndoubles nbytes) itimes))
  rw [if_pos rfl, decide_eq_false (not_not.mpr rfl)] at hnon
  have hreps : ({ (mcEndptUdpNextid endpt).2 with host := host } : Endpoint).confirmq.Reps l := h
  obtain ⟨err, endpt', hsend, hsent, hframe, _⟩ := mcEndptUdpSend_fits hreps _
    hcarried.sendable.list (hcarried.size.trans hroom) addr 0
  obtain ⟨hqueue, _, htrace⟩ := hsent.non hnon
  have hmade' : mkMessage { endpt with host := endpt.host } mcPost 0 (some list)
      (some (mkPayload (ndoubles nbytes) itimes)) = _ := hmade
  have hpost := sendMsg_sent hoptions hmade' hsend
  have hcode : postPacket qsort env endpt addr srvport nbytes itimes =
      .ok (if err ≠ mnDone then 0 else endpt.nextid, endpt') := hpost
  refine ⟨_, endpt', _, err, hcode, hcarried, ?_, ?_, ?_⟩
  · exact hqueue
  · exact htrace
  · have hsends : host.sends = endpt.host.sends := by
      rw [hhost]
      rfl
    exact ⟨hframe.rdbuffer, hframe.wrsize, hframe.sends.trans hsends⟩

/-! ### What comes back -/

theorem CarriedBy.not_ack (h : CarriedBy message packet) : mcMessageIsAck (some message) = false := by
  rw [h.built]
  show (mcAck == mcHeaderGetMessageType (mcHeaderCreate _ _ _ _ _)) = false
  rw [mcHeaderGetMessageType_create]
  rfl

theorem CarriedBy.not_confirmable (h : CarriedBy message packet) :
    mcMessageIsConfirmable message = false := by
  rw [h.built]
  show (mcConfirm == mcHeaderGetMessageType (mcHeaderCreate _ _ _ _ _)) = false
  rw [mcHeaderGetMessageType_create]
  rfl

/-- What arrives is the request as it was built. -/
theorem CarriedBy.asBuilt (h : CarriedBy message packet)
    (hdelivered : message'.DeliveredFrom message source) :
    AsBuilt message' packet.msgid mcPost 0 packet.options (some packet.payload) := by
  have hheader : message'.header = mcHeaderCreate messageVersion mcNoconfirm message.token.nbytes
      mcPost packet.msgid := by
    rw [hdelivered.same.header, h.built]
    rfl
  have hpayload : bytesOf message.payload = bytesOf (some packet.payload) := by
    rw [h.built]
    rfl
  obtain ⟨hversion, htype, hcode, hid⟩ := getters_of_create (by decide) (by decide) hheader
  refine ⟨hversion, ?_, hcode, hid, ?_, hdelivered.same.options.trans h.options, ?_,
    hdelivered.same.payload.trans hpayload, ?_⟩
  · rw [mcMessageIsConfirmable, htype]
    decide
  · rw [hdelivered.same.token, McBuffer.toList_length, h.token]
    rfl
  · intro hnone
    rw [← h.options] at hnone
    exact hdelivered.options (List.map_eq_nil_iff.mp hnone)
  · intro hnone
    rw [← hpayload] at hnone
    exact hdelivered.payload hnone

/-- The client prints the start and the size of the payload. -/
theorem CarriedBy.printed (h : CarriedBy message packet)
    (hdelivered : message'.DeliveredFrom message source) :
    processResp (some message') =
      .ok (some (UInt64.ofNat (numberOf (packet.payload.toList.take 8)),
        UInt32.ofNat packet.payload.toList.length)) := by
  have hbytes := (h.asBuilt hdelivered).bytes
  have hlong := h.payload
  rw [bytesOf_some] at hbytes
  unfold processResp
  cases hpayload : message'.payload with
  | none =>
    rw [hpayload, bytesOf_none] at hbytes
    rw [← hbytes, List.length_nil] at hlong
    omega
  | some payload =>
    rw [hpayload, bytesOf_some] at hbytes
    have hcount : payload.nbytes.toNat = packet.payload.toList.length := by
      rw [← hbytes, McBuffer.toList_length]
    have hroom : ¬ payload.nbytes < 8 := by
      rw [UInt32.lt_iff_toNat_lt, hcount]
      show ¬ packet.payload.toList.length < 8
      omega
    simp only [hpayload, if_neg hroom]
    rw [← hbytes, payload.toList_length, UInt32.ofNat_toNat, McBuffer.toList]
    have htake : (slice payload.bytes 0 payload.nbytes.toNat).take 8 = slice payload.bytes 0 8 :=
      slice_take payload.bytes 0 (by omega)
    rw [htake]

/-- A message that is the same can be sent as well. -/
theorem McMessage.Sendable.same (h : message.Sendable) (hsame : message'.Same message) :
    message'.Sendable := by
  have hsmall : Wire.Small 0 (wireOptions (listOptions message'.options)) := by
    rw [hsame.options]
    exact h.small
  refine ⟨?_, ⟨?_, valuesFit_of_small hsmall⟩, hsmall⟩
  · rw [hsame.header, h.token, ← McBuffer.toList_length, ← McBuffer.toList_length, hsame.token]
  · rw [hsame.options]
    exact h.list.sorted

/-- A pass over an empty queue does nothing. -/
theorem mcEndptUdpCheckQueues_empty (h : endpt.confirmq.Reps []) :
    mcEndptUdpCheckQueues endpt = .ok endpt := by
  unfold mcEndptUdpCheckQueues
  rw [h.isList.first_eq]
  rfl

/-- The server sends a packet back to where it came from. -/
theorem serveOnce_echo (hq : qsort.Stable) (h : endpt.confirmq.Reps [])
    (hcarried : CarriedBy message packet) (hread : 288 ≤ endpt.rdbuffer.nbytes.toNat)
    (hroom : 288 ≤ endpt.wrbuffer.nbytes.toNat) :
    ∃ endpt' err, serveOnce qsort (.datagram (messageBytes message) source) endpt = .ok endpt' ∧
      endpt'.confirmq.Reps [] ∧
      endpt'.trace = endpt.trace ++ [.sent none (messageBytes message) source err] ∧
      endpt'.rdbuffer.nbytes = endpt.rdbuffer.nbytes ∧
      endpt'.wrbuffer.nbytes = endpt.wrbuffer.nbytes := by
  obtain ⟨message', endpt1, hrecv, hdelivered, hframe⟩ :=
    @mcEndptUdpRecv_plain qsort endpt message source hq hcarried.sendable
      (hcarried.size.trans hread) hcarried.not_ack
  have hreps : endpt1.confirmq.Reps [] := by
    rw [hframe.confirmq]
    exact h
  -- the same message has the same bytes
  have hbytes := hdelivered.same.bytes
  have hfit : (messageBytes message').length ≤ endpt1.wrbuffer.nbytes.toNat := by
    rw [hbytes, hframe.wrbuffer]
    exact hcarried.size.trans hroom
  have hnon : mcMessageIsConfirmable message' = false := by
    have hnon := hcarried.not_confirmable
    rw [mcMessageIsConfirmable, mcMessageGetType] at hnon ⊢
    rw [hdelivered.same.header]
    exact hnon
  obtain ⟨err, endpt2, hsend, hsent, hkeeps, _⟩ := mcEndptUdpSend_fits hreps message'
    (hcarried.sendable.same hdelivered.same).list hfit source 0
  obtain ⟨hqueue, _, htrace⟩ := hsent.non hnon
  have hreps2 : endpt2.confirmq.Reps [] := by
    rw [hqueue]
    exact hreps
  refine ⟨endpt2, err, ?_, hreps2, ?_, ?_, ?_⟩
  · have hecho : requestHandler endpt1 message' = .ok (1, endpt2) := by
      unfold requestHandler
      simp only [hdelivered.source]
      rw [hsend]
      rfl
    unfold serveOnce
    rw [hrecv]
    show (requestHandler endpt1 message' >>= _) = _
    rw [hecho]
    exact mcEndptUdpCheckQueues_empty hreps2
  · rw [htrace, hframe.trace, hbytes]
  · rw [hkeeps.rdbuffer, hframe.rdsize]
  · rw [hkeeps.wrsize, hframe.wrbuffer]

end

/-! ## Section 3: The network -/

/-- A client: its endpoint, the address `mc_uri_to_address` has given it,
    what it has posted, and what it has received and printed. -/
structure EchoClient where
  endpt    : Endpoint
  addr     : SockAddr
  posted   : List Packet
  received : List McMessage
  printed  : List (UInt64 × UInt32)

/-- The server, the datagrams that have arrived there with their sources,
    and the clients. -/
structure EchoWorld (ι : Type) where
  server  : Endpoint
  served  : List (List UInt8 × SockAddr)
  clients : ι → EchoClient

/-- What does not change: the server's address, and the address and the
    options of each client.  `getport` has seen to it that a port is not 0. -/
structure EchoSetup (ι : Type) where
  qsort    : Qsort McOption
  stable   : qsort.Stable
  server   : SockAddr
  addrOf   : ι → SockAddr
  distinct : Function.Injective addrOf
  srvport  : ι → UInt16
  hasPort  : ∀ i, srvport i ≠ 0
  nbytes   : ι → UInt16

inductive EchoOp (ι : Type) where
  /-- one iteration of the server's loop -/
  | serve (arrival : Arrival)
  /-- a client posts a packet -/
  | post (i : ι) (env : UriEnv) (itimes : UInt16)
  /-- a client receives and prints -/
  | recv (i : ι) (arrival : Arrival)

/-- `run_client`, as far as its loop; the result of `mc_uri_to_address` is
    not looked at. -/
def startClient (env : UriEnv) (junk : SockAddr) (srvport : UInt16) (host : Host) :
    Except Fault EchoClient := do
  let (_, addr) ← mcUriToAddress env junk (gettimeUri srvport)
  return {
    endpt    := mcEndptUdpInit 1024 1024 host
    addr     := addr
    posted   := []
    received := []
    printed  := [] }

structure EchoStart {ι : Type} (setup : EchoSetup ι) (w : EchoWorld ι) : Prop where
  server  : ∃ host, w.server = mcEndptUdpInit 1024 1024 host
  served  : w.served = []
  clients : ∀ i, ∃ env junk host, startClient env junk (setup.srvport i) host = .ok (w.clients i)

/-- A datagram that arrives at the server. -/
def servedBy : Arrival → List (List UInt8 × SockAddr)
  | .datagram bytes source => [(bytes, source)]
  | .failed _ _ => []

section

variable {ι : Type} [DecidableEq ι] (setup : EchoSetup ι)

/-- The network delivers what was sent to an address, as often as it likes,
    or an error. -/
def EchoOp.Allowed (w : EchoWorld ι) : EchoOp ι → Prop
  | .serve (.datagram bytes source) => ∃ i, source = setup.addrOf i ∧
      ∃ owner err, .sent owner bytes setup.server err ∈ (w.clients i).endpt.trace
  | .recv i (.datagram bytes source) => source = setup.server ∧
      ∃ owner err, .sent owner bytes (setup.addrOf i) err ∈ w.server.trace
  | _ => True

def EchoWorld.setClient (w : EchoWorld ι) (i : ι) (c : EchoClient) : EchoWorld ι :=
  { w with clients := Function.update w.clients i c }

@[simp] theorem EchoWorld.setClient_self (w : EchoWorld ι) (i : ι) (c : EchoClient) :
    (w.setClient i c).clients i = c := Function.update_self ..

theorem EchoWorld.setClient_ne (w : EchoWorld ι) {i j : ι} (h : j ≠ i) (c : EchoClient) :
    (w.setClient i c).clients j = w.clients j := Function.update_of_ne h ..

def EchoOp.exec : EchoOp ι → EchoWorld ι → Except Fault (EchoWorld ι)
  | .serve arrival, w => do
    let server ← serveOnce setup.qsort arrival w.server
    return { w with server := server, served := w.served ++ servedBy arrival }
  | .post i env itimes, w => do
    let c := w.clients i
    let (_, endpt) ← postPacket setup.qsort env c.endpt c.addr (setup.srvport i)
      (setup.nbytes i) itimes
    let packet := packetOf env c.endpt c.addr (setup.srvport i) (setup.nbytes i) itimes
    return w.setClient i { c with endpt := endpt, posted := c.posted ++ [packet] }
  | .recv i arrival, w => do
    let c := w.clients i
    let (msg, endpt) ← mcEndptUdpRecv setup.qsort arrival c.endpt
    let line ← processResp msg
    return w.setClient i { c with
      endpt    := endpt
      received := c.received ++ msg.toList
      printed  := c.printed ++ line.toList }

def echoStep (w : EchoWorld ι) (op : EchoOp ι) (w' : EchoWorld ι) : Prop :=
  op.Allowed setup w ∧ op.exec setup w = .ok w'

end

/-! ## Section 4: Every run -/

/-- An endpoint that waits for no ack, and whose buffers hold any packet. -/
structure Idle (endpt : Endpoint) : Prop where
  queue : endpt.confirmq.Reps []
  read  : 288 ≤ endpt.rdbuffer.nbytes.toNat
  room  : 288 ≤ endpt.wrbuffer.nbytes.toNat

section

variable {ι : Type} (setup : EchoSetup ι)

/-- The bytes of a packet that was posted. -/
def PostedBytes (posted : List Packet) (bytes : List UInt8) : Prop :=
  ∃ message, ∃ packet ∈ posted, bytes = messageBytes message ∧ CarriedBy message packet

/-- A message that was received and a line that was printed: a packet that
    was posted, come back from the server. -/
def Prints (i : ι) (posted : List Packet) (message : McMessage) (line : UInt64 × UInt32) :
    Prop :=
  ∃ packet ∈ posted,
    AsBuilt message packet.msgid mcPost 0 packet.options (some packet.payload) ∧
    message.fromAddr = some setup.server ∧
    line = (float64Bits packet.number, UInt32.ofNat (8 * ndoubles (setup.nbytes i)))

/-- The server has handed over one datagram for each that has arrived. -/
def Echoed (event : Event) (arrived : List UInt8 × SockAddr) : Prop :=
  ∃ err, event = .sent none arrived.1 arrived.2 err

structure ClientInv (i : ι) (c : EchoClient) : Prop where
  idle    : Idle c.endpt
  sent    : ∀ event ∈ c.endpt.trace, ∃ bytes err, event = .sent none bytes c.addr err ∧
    PostedBytes c.posted bytes
  packets : ∀ packet ∈ c.posted,
    packet.payload = mkPayload (ndoubles (setup.nbytes i)) packet.number
  printed : List.Forall₂ (Prints setup i c.posted) c.received c.printed

structure EchoInv (w : EchoWorld ι) : Prop where
  idle    : Idle w.server
  echoed  : List.Forall₂ Echoed w.server.trace w.served
  genuine : ∀ arrived ∈ w.served, ∃ i, arrived.2 = setup.addrOf i ∧
    PostedBytes (w.clients i).posted arrived.1
  clients : ∀ i, ClientInv setup i (w.clients i)

variable {setup}

theorem PostedBytes.mono {posted posted' : List Packet} {bytes : List UInt8}
    (h : PostedBytes posted bytes) (hsub : posted ⊆ posted') : PostedBytes posted' bytes := by
  obtain ⟨message, packet, hmem, hrest⟩ := h
  exact ⟨message, packet, hsub hmem, hrest⟩

theorem Prints.mono {i : ι} {posted posted' : List Packet} {message : McMessage}
    {line : UInt64 × UInt32} (h : Prints setup i posted message line)
    (hsub : posted ⊆ posted') : Prints setup i posted' message line := by
  obtain ⟨packet, hmem, hrest⟩ := h
  exact ⟨packet, hsub hmem, hrest⟩

theorem forall₂_mem {α β : Type} {R : α → β → Prop} {as : List α} {bs : List β}
    (h : List.Forall₂ R as bs) {a : α} (ha : a ∈ as) : ∃ b ∈ bs, R a b := by
  induction h with
  | nil => exact absurd ha List.not_mem_nil
  | @cons c b cs bs hhead _ ih =>
    rcases List.mem_cons.mp ha with rfl | ha
    · exact ⟨b, List.mem_cons_self, hhead⟩
    · obtain ⟨b', hmem, hb⟩ := ih ha
      exact ⟨b', List.mem_cons_of_mem _ hmem, hb⟩

/-- What the server sends to a client, the client has posted. -/
theorem EchoInv.posted {w : EchoWorld ι} (h : EchoInv setup w) {i : ι} {bytes : List UInt8}
    {owner : Option Addr} {err : Int}
    (hsent : .sent owner bytes (setup.addrOf i) err ∈ w.server.trace) :
    PostedBytes (w.clients i).posted bytes := by
  obtain ⟨arrived, hmem, err', hevent⟩ := forall₂_mem h.echoed hsent
  simp only [Event.sent.injEq] at hevent
  obtain ⟨_, rfl, hdest, _⟩ := hevent
  obtain ⟨j, haddr, hposted⟩ := h.genuine arrived hmem
  rw [setup.distinct (hdest.trans haddr)]
  exact hposted

variable [DecidableEq ι]

/-- A client changes, and forgets no packet. -/
theorem EchoInv.setClient {w : EchoWorld ι} (h : EchoInv setup w) {i : ι} {c : EchoClient}
    (hc : ClientInv setup i c) (hsub : (w.clients i).posted ⊆ c.posted) :
    EchoInv setup (w.setClient i c) := by
  have hposted : ∀ j, (w.clients j).posted ⊆ ((w.setClient i c).clients j).posted := by
    intro j
    by_cases hj : j = i
    · subst hj
      rw [EchoWorld.setClient_self]
      exact hsub
    · rw [w.setClient_ne hj]
      exact List.Subset.refl _
  refine ⟨h.idle, h.echoed, ?_, ?_⟩
  · intro arrived hmem
    obtain ⟨j, haddr, hbytes⟩ := h.genuine arrived hmem
    exact ⟨j, haddr, hbytes.mono (hposted j)⟩
  · intro j
    by_cases hj : j = i
    · subst hj
      rw [EchoWorld.setClient_self]
      exact hc
    · rw [w.setClient_ne hj]
      exact h.clients j

/-- The server goes round once. -/
theorem EchoInv.serve {w : EchoWorld ι} (h : EchoInv setup w) {arrival : Arrival}
    (hallowed : (EchoOp.serve arrival : EchoOp ι).Allowed setup w) :
    ∃ w', (EchoOp.serve arrival : EchoOp ι).exec setup w = .ok w' ∧ EchoInv setup w' := by
  cases arrival with
  | failed err herr =>
    obtain ⟨endpt', hrecv, hframe⟩ := mcEndptUdpRecv_nothing setup.qsort w.server herr
    have hreps : endpt'.confirmq.Reps [] := by
      rw [hframe.confirmq]
      exact h.idle.queue
    have hserve : serveOnce setup.qsort (.failed err herr) w.server = .ok endpt' := by
      unfold serveOnce
      rw [hrecv]
      exact mcEndptUdpCheckQueues_empty hreps
    refine ⟨_, bind_eq_ok.mpr ⟨_, hserve, rfl⟩, ⟨hreps, ?_, ?_⟩, ?_, ?_, h.clients⟩
    · rw [hframe.rdsize]
      exact h.idle.read
    · rw [hframe.wrbuffer]
      exact h.idle.room
    · rw [hframe.trace, servedBy, List.append_nil]
      exact h.echoed
    · rw [servedBy, List.append_nil]
      exact h.genuine
  | datagram bytes source =>
    obtain ⟨i, rfl, owner, err, hsent⟩ := hallowed
    obtain ⟨bytes', err', hevent, hposted⟩ := (h.clients i).sent _ hsent
    simp only [Event.sent.injEq] at hevent
    obtain ⟨_, rfl, _, _⟩ := hevent
    obtain ⟨message, packet, hmem, rfl, hcarried⟩ := id hposted
    obtain ⟨endpt', err', hserve, hreps, htrace, hread, hroom⟩ :=
      @serveOnce_echo _ _ _ _ (setup.addrOf i) setup.stable h.idle.queue hcarried h.idle.read
        h.idle.room
    refine ⟨_, bind_eq_ok.mpr ⟨_, hserve, rfl⟩, ⟨hreps, ?_, ?_⟩, ?_, ?_, h.clients⟩
    · rw [hread]
      exact h.idle.read
    · rw [hroom]
      exact h.idle.room
    · rw [htrace]
      exact List.rel_append h.echoed (List.Forall₂.cons ⟨err', rfl⟩ List.Forall₂.nil)
    · intro arrived harrived
      rcases List.mem_append.mp harrived with hold | hnew
      · exact h.genuine arrived hold
      · rw [List.mem_singleton.mp hnew]
        exact ⟨i, rfl, hposted⟩

/-- A client posts a packet. -/
theorem EchoInv.post {w : EchoWorld ι} (h : EchoInv setup w) (i : ι) (env : UriEnv)
    (itimes : UInt16) :
    ∃ w', (EchoOp.post i env itimes).exec setup w = .ok w' ∧ EchoInv setup w' := by
  obtain ⟨hidle, hsent, hpackets, hprinted⟩ := h.clients i
  obtain ⟨r, endpt', message, err, hpost, hcarried, hqueue, htrace, hframe⟩ :=
    @postPacket_spec _ env _ _ (w.clients i).addr _ (setup.nbytes i) itimes
      setup.stable hidle.queue (setup.hasPort i) hidle.room
  have hsub := List.subset_append_left (w.clients i).posted [packetOf env
    (w.clients i).endpt (w.clients i).addr (setup.srvport i) (setup.nbytes i) itimes]
  refine ⟨_, bind_eq_ok.mpr ⟨_, hpost, rfl⟩, h.setClient ⟨⟨?_, ?_, ?_⟩, ?_, ?_, ?_⟩ hsub⟩
  · show endpt'.confirmq.Reps []
    rw [hqueue]
    exact hidle.queue
  · show 288 ≤ endpt'.rdbuffer.nbytes.toNat
    rw [hframe.rdbuffer]
    exact hidle.read
  · show 288 ≤ endpt'.wrbuffer.nbytes.toNat
    rw [hframe.wrsize]
    exact hidle.room
  · intro event hevent
    rw [htrace] at hevent
    rcases List.mem_append.mp hevent with hold | hnew
    · obtain ⟨bytes, err', heq, hposted⟩ := hsent event hold
      exact ⟨bytes, err', heq, hposted.mono hsub⟩
    · exact ⟨_, err, List.mem_singleton.mp hnew, message, _, by simp, rfl, hcarried⟩
  · intro packet hmem
    rcases List.mem_append.mp hmem with hold | hnew
    · exact hpackets packet hold
    · rw [List.mem_singleton.mp hnew]
      rfl
  · exact hprinted.imp fun _ _ hprints => hprints.mono hsub

/-- A client receives what the server has sent to it. -/
theorem EchoInv.recv {w : EchoWorld ι} (h : EchoInv setup w) {i : ι} {arrival : Arrival}
    (hallowed : (EchoOp.recv i arrival).Allowed setup w) :
    ∃ w', (EchoOp.recv i arrival).exec setup w = .ok w' ∧ EchoInv setup w' := by
  obtain ⟨hidle, hsent, hpackets, hprinted⟩ := h.clients i
  have hframed : ∀ {endpt' : Endpoint} {received printed},
      RecvFrame (w.clients i).endpt endpt' →
      List.Forall₂ (Prints setup i (w.clients i).posted) received printed →
      ClientInv setup i ⟨endpt', (w.clients i).addr, (w.clients i).posted, received, printed⟩ := by
    intro endpt' received printed hframe hlines
    refine ⟨⟨?_, ?_, ?_⟩, ?_, hpackets, hlines⟩
    · rw [hframe.confirmq]
      exact hidle.queue
    · rw [hframe.rdsize]
      exact hidle.read
    · rw [hframe.wrbuffer]
      exact hidle.room
    · rw [hframe.trace]
      exact hsent
  cases arrival with
  | failed err herr =>
    obtain ⟨endpt', hrecv, hframe⟩ := mcEndptUdpRecv_nothing setup.qsort (w.clients i).endpt herr
    refine ⟨_, bind_eq_ok.mpr ⟨_, hrecv, rfl⟩, h.setClient ?_ (List.Subset.refl _)⟩
    have hlines : List.Forall₂ (Prints setup i (w.clients i).posted)
        ((w.clients i).received ++ []) ((w.clients i).printed ++ []) := by
      rw [List.append_nil, List.append_nil]
      exact hprinted
    exact hframed hframe hlines
  | datagram bytes source =>
    obtain ⟨rfl, owner, err, hserver⟩ := hallowed
    obtain ⟨message, packet, hmem, rfl, hcarried⟩ := h.posted hserver
    obtain ⟨message', endpt', hrecv, hdelivered, hframe⟩ :=
      @mcEndptUdpRecv_plain setup.qsort (w.clients i).endpt message setup.server setup.stable
        hcarried.sendable (hcarried.size.trans hidle.read) hcarried.not_ack
    have hprint := hcarried.printed hdelivered
    refine ⟨_, bind_eq_ok.mpr ⟨_, hrecv, bind_eq_ok.mpr ⟨_, hprint, rfl⟩⟩,
      h.setClient ?_ (List.Subset.refl _)⟩
    apply hframed hframe
    apply List.rel_append hprinted (List.Forall₂.cons ?_ List.Forall₂.nil)
    refine ⟨packet, hmem, hcarried.asBuilt hdelivered, hdelivered.source, ?_⟩
    have hbounds := ndoubles_bounds (setup.nbytes i)
    have hbytes : packet.payload.toList.length = 8 * ndoubles (setup.nbytes i) := by
      rw [hpackets packet hmem, mkPayload_toList, List.length_append, imageOf_length,
        List.length_replicate]
      omega
    have hstart : packet.payload.toList.take 8 = imageOf 8 (float64Bits packet.number).toNat := by
      rw [hpackets packet hmem, mkPayload_toList, List.take_left' (imageOf_length 8 _)]
    have hnumber : numberOf (imageOf 8 (float64Bits packet.number).toNat) =
        (float64Bits packet.number).toNat := by
      rw [numberOf_imageOf]
      exact Nat.mod_eq_of_lt (float64Bits packet.number).toNat_lt
    rw [hbytes, hstart, hnumber, UInt64.ofNat_toNat]

/-- Step: whatever the network allows, can be done. -/
theorem EchoInv.step {w : EchoWorld ι} (h : EchoInv setup w) {op : EchoOp ι}
    (hallowed : op.Allowed setup w) : ∃ w', op.exec setup w = .ok w' ∧ EchoInv setup w' := by
  cases op with
  | serve arrival => exact h.serve hallowed
  | post i env itimes => exact h.post i env itimes
  | recv i arrival => exact h.recv hallowed

omit [DecidableEq ι] in
theorem echoInv_start {w : EchoWorld ι} (h : EchoStart setup w) : EchoInv setup w := by
  have hidle : ∀ host, Idle (mcEndptUdpInit 1024 1024 host) := fun host =>
    ⟨(mcEndptUdpInit_shows 1024 1024 host).reps, (by decide : 288 ≤ (1024 : UInt32).toNat),
      (by decide : 288 ≤ (1024 : UInt32).toNat)⟩
  obtain ⟨host, hserver⟩ := h.server
  refine ⟨?_, ?_, ?_, ?_⟩
  · rw [hserver]
    exact hidle host
  · rw [hserver, h.served]
    exact List.Forall₂.nil
  · intro arrived hmem
    rw [h.served] at hmem
    exact absurd hmem List.not_mem_nil
  · intro i
    obtain ⟨env, junk, host, hstart⟩ := h.clients i
    obtain ⟨⟨found, addr⟩, _, hret⟩ := bind_eq_ok.mp hstart
    have hclient := Except.ok.inj hret
    rw [← hclient]
    exact ⟨hidle host, fun _ he => absurd he List.not_mem_nil,
      fun _ hp => absurd hp List.not_mem_nil, List.Forall₂.nil⟩

end

/-- In every run of the server, the clients and the network: whatever comes
    next, nobody faults; the server has handed over exactly one datagram for
    each that has arrived, with the same bytes, back to where it came from;
    and a client has received nothing but its own packets, and printed
    the bits of their numbers, and their sizes. -/
theorem echo_service {ι : Type} [DecidableEq ι] {setup : EchoSetup ι} {start w : EchoWorld ι}
    {ops : List (EchoOp ι)} (hstart : EchoStart setup start)
    (hrun : Run (echoStep setup) start ops w) :
    (∀ op, op.Allowed setup w → ∃ w', echoStep setup w op w') ∧
    List.Forall₂ Echoed w.server.trace w.served ∧
    ∀ i, List.Forall₂ (Prints setup i (w.clients i).posted) (w.clients i).received
      (w.clients i).printed := by
  have hinv : EchoInv setup w := hrun.invariant (echoInv_start hstart) (by
    intro t op t' ht hstep
    obtain ⟨hallowed, hexec⟩ := hstep
    obtain ⟨t'', hexec', ht'⟩ := ht.step hallowed
    rw [hexec] at hexec'
    cases hexec'
    exact ht')
  refine ⟨?_, hinv.echoed, fun i => (hinv.clients i).printed⟩
  intro op hallowed
  obtain ⟨w', hexec, _⟩ := hinv.step hallowed
  exact ⟨w', hallowed, hexec⟩

/-- One client on the server's host, that sends as little as it can. -/
def oneClient : EchoSetup Unit where
  qsort    := insertion McOption
  stable   := insertion_stable McOption
  server   := localAddr 0
  addrOf _ := ⟨afInet, msSwapU16 5684, 0x0100007f, 0⟩
  distinct := fun _ _ _ => rfl
  srvport _ := 5683
  hasPort  := by decide
  nbytes _ := 0

def oneClientStart : EchoWorld Unit where
  server    := mcEndptUdpInit 1024 1024 stillHost
  served    := []
  clients _ := ⟨mcEndptUdpInit 1024 1024 stillHost, localAddr 0, [], [], []⟩

/-- Its first packet, with the number 5. -/
def fifth : List UInt8 :=
  [0x51 + 5, 2, 0, 1, 1, 0, 0, 0, 0, 0, 0xb7] ++ gettime ++
    [0xff, 0, 0, 0, 0, 0, 0, 0x14, 0x40] ++ List.replicate 16 0

/-- It is posted, echoed and printed. -/
def fifthOps : List (EchoOp Unit) :=
  [.post () localEnv 5, .serve (.datagram fifth (oneClient.addrOf ())),
    .recv () (.datagram fifth oneClient.server)]

theorem ok_of_toOption {α β : Type} {x : Except Fault α} {f : α → β} {b : β}
    (h : x.toOption.map f = some b) : ∃ a, x = .ok a ∧ f a = b := by
  cases x with
  | error fault => exact absurd h (by simp [Except.toOption])
  | ok a => exact ⟨a, rfl, Option.some.inj h⟩

theorem oneClient_address :
    (mcUriToAddress localEnv ⟨0, 0, 0, 0⟩ (gettimeUri 5683)).toOption.map id =
      some (true, localAddr 0) := by
  decide +kernel

theorem oneClient_starts : EchoStart oneClient oneClientStart where
  server := ⟨stillHost, rfl⟩
  served := rfl
  clients _ := by
    obtain ⟨_, haddr, rfl⟩ := ok_of_toOption oneClient_address
    exact ⟨localEnv, ⟨0, 0, 0, 0⟩, stillHost, bind_eq_ok.mpr ⟨_, haddr, rfl⟩⟩

/-- The world after the first `n` operations. -/
def fifthWorld (n : Nat) : Except Fault (EchoWorld Unit) :=
  (fifthOps.take n).foldlM (fun w op => op.exec oneClient w) oneClientStart

theorem fifthWorld_one : (fifthWorld 1).toOption.map (fun w => (w.clients ()).endpt.trace) =
    some [.sent none fifth oneClient.server 0] := by
  decide +kernel

theorem fifthWorld_two : (fifthWorld 2).toOption.map (fun w => w.server.trace) =
    some [.sent none fifth (oneClient.addrOf ()) 0] := by
  decide +kernel

theorem fifthWorld_three : (fifthWorld 3).toOption.map (fun w => (w.clients ()).printed) =
    some [(4617315517961601024, 24)] := by
  decide +kernel

theorem fifth_runs : ∃ w, Run (echoStep oneClient) oneClientStart fifthOps w ∧
    (w.clients ()).printed = [(4617315517961601024, 24)] := by
  obtain ⟨w1, hw1, hposted⟩ := ok_of_toOption fifthWorld_one
  obtain ⟨w2, hw2, hechoed⟩ := ok_of_toOption fifthWorld_two
  obtain ⟨w3, hw3, hprinted⟩ := ok_of_toOption fifthWorld_three
  obtain ⟨_, hpost, hret⟩ := bind_eq_ok.mp hw1
  cases hret
  obtain ⟨_, hpost2, hserve'⟩ := bind_eq_ok.mp hw2
  cases hpost.symm.trans hpost2
  obtain ⟨_, hserve, hret⟩ := bind_eq_ok.mp hserve'
  cases hret
  obtain ⟨_, hpost3, hrest⟩ := bind_eq_ok.mp hw3
  cases hpost.symm.trans hpost3
  obtain ⟨_, hserve3, hrecv'⟩ := bind_eq_ok.mp hrest
  cases hserve.symm.trans hserve3
  obtain ⟨_, hrecv, hret⟩ := bind_eq_ok.mp hrecv'
  cases hret
  have hstep1 : echoStep oneClient oneClientStart (.post () localEnv 5) w1 := ⟨trivial, hpost⟩
  have hstep2 : echoStep oneClient w1 (.serve (.datagram fifth (oneClient.addrOf ()))) w2 :=
    ⟨⟨(), rfl, none, 0, by rw [hposted]; exact List.mem_cons_self⟩, hserve⟩
  have hstep3 : echoStep oneClient w2 (.recv () (.datagram fifth oneClient.server)) w3 :=
    ⟨⟨rfl, none, 0, by rw [hechoed]; exact List.mem_cons_self⟩, hrecv⟩
  exact ⟨w3, ((Run.single hstep1).snoc hstep2).snoc hstep3, hprinted⟩

theorem echo_service_fifth : ∃ w, Run (echoStep oneClient) oneClientStart fifthOps w ∧
    (w.clients ()).printed = [(4617315517961601024, 24)] ∧
    List.Forall₂ Echoed w.server.trace w.served ∧
    List.Forall₂ (Prints oneClient () (w.clients ()).posted) (w.clients ()).received
      (w.clients ()).printed := by
  obtain ⟨w, hrun, hprinted⟩ := fifth_runs
  obtain ⟨_, hechoed, hlines⟩ := echo_service oneClient_starts hrun
  exact ⟨w, hrun, hprinted, hechoed, hlines ()⟩

end Mcoap
