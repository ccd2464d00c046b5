import Mcoap.OptionOrder
import Mcoap.RoundTrip
import Mcoap.PendingIds

/-! # Requests for a URI

    The requests of an endpoint with the URI parser of `mcoap/mc_uri.c`:
    what becomes of a request whose URI the parser rejects, and of one whose
    URI it accepts.

    * `clientRun_run`: a run of a client is a run of its endpoint;
    * `datagrams`: what a trace has handed to the socket;
    * `sendMsg_rejected_extra`, `sendMsg_datagram`: the null list of a
      rejected URI is read through if there are extra options, and is a
      message without options if not;
    * `rejected_uri_sent`: so no request with such a URI keeps quiet;
    * `request_arrives`: an accepted URI is sent as a message that decodes
      to the request. -/

namespace Mcoap

open ByteMem ByteProg StableSort DList CString Runs

/-! ## Section 1: The URI parser in a request -/

/-- `mc_uri_to_options` as `mk_options` calls it: with a destination.  The
    resolver keeps its own state, and the host is left alone. -/
def uriToOptions (qsort : Qsort McOption) (env : UriEnv) : UriToOptions :=
  fun addr uri host => do
    let list ← mcUriToOptions qsort env (some addr) uri
    return (list, host)

theorem uriToOptions_ok {qsort : Qsort McOption} {env : UriEnv} {addr : SockAddr}
    {uri : List UInt8} {list : Option McOptionsList}
    (h : mcUriToOptions qsort env (some addr) uri = .ok list) (host : Host) :
    uriToOptions qsort env addr uri host = .ok (list, host) := by
  unfold uriToOptions
  rw [h]
  rfl

/-- The options of a request are made without the host. -/
theorem mkOptions_host {qsort : Qsort McOption} {env : UriEnv} {uri : List UInt8}
    {addr : SockAddr} {extra list : Option McOptionsList} {host host' : Host}
    (h : mkOptions qsort (uriToOptions qsort env) uri addr extra host = .ok (list, host')) :
    host' = host := by
  obtain ⟨⟨made, host1⟩, hmade, hrest⟩ := bind_eq_ok.mp h
  obtain ⟨parsed, _, hparsed⟩ := bind_eq_ok.mp hmade
  cases hparsed
  cases extra with
  | none =>
    cases hrest
    rfl
  | some extra =>
    cases made with
    | none => exact absurd hrest (by simp)
    | some made =>
      cases hrest
      rfl

section

variable {qsort : Qsort McOption} {env : UriEnv} {endpt endpt' : Endpoint}

/-- A request is three operations of the endpoint: it draws an id and a
    random number, and sends. -/
theorem sendMsg_run {addr : SockAddr} {resultfn : ResultFn} {code : UInt8} {uri : List UInt8}
    {extra : Option McOptionsList} {payload : Option McBuffer} {r : UInt16}
    (hsend : sendMsg qsort (uriToOptions qsort env) endpt addr resultfn code uri extra payload =
      .ok (r, endpt')) :
    ∃ msg, Run (endptStep qsort) endpt [.nextid, .rand, .send addr msg resultfn] endpt' := by
  obtain ⟨⟨list, host⟩, hmade, hrest⟩ := bind_eq_ok.mp hsend
  obtain rfl := mkOptions_host hmade
  obtain ⟨token, host, _, hmessage, rfl⟩ := mkMessage_eq endpt code resultfn list payload
  simp only [hmessage] at hrest
  obtain ⟨⟨err, endpt1⟩, hsent, hret⟩ := bind_eq_ok.mp hrest
  cases hret
  have hnextid : endptStep qsort endpt .nextid (mcEndptUdpNextid endpt).2 := rfl
  have hrand : endptStep qsort (mcEndptUdpNextid endpt).2 .rand
    { (mcEndptUdpNextid endpt).2 with host := (rand endpt.host).2 } := rfl
  exact ⟨_, ((run_send hsent).cons hrand).cons hnextid⟩

/-- So is every operation of a client, one after the other. -/
theorem clientStep_run {op : ClientOp}
    (hstep : clientStep qsort (uriToOptions qsort env) endpt op endpt') :
    ∃ ops, Run (endptStep qsort) endpt ops endpt' := by
  have hrequest : ∀ {addr resultfn code uri extra payload},
      (sendMsg qsort (uriToOptions qsort env) endpt addr resultfn code uri extra payload >>=
        fun r => Except.ok r.2) = Except.ok endpt' → ∃ ops, Run (endptStep qsort) endpt ops endpt' := by
    intro addr resultfn code uri extra payload h
    obtain ⟨⟨r, endpt1⟩, hsend, hret⟩ := bind_eq_ok.mp h
    cases hret
    obtain ⟨msg, hrun⟩ := sendMsg_run hsend
    exact ⟨_, hrun⟩
  cases op with
  | get addr resultfn uri extra => exact hrequest hstep
  | put addr resultfn uri extra payload => exact hrequest hstep
  | post addr resultfn uri extra payload => exact hrequest hstep
  | delete addr resultfn uri extra => exact hrequest hstep
  | recv arrival => exact ⟨[.recv arrival], Run.single hstep⟩
  | checkQueues => exact ⟨[.checkQueues], Run.single hstep⟩

/-- What holds after every run of the endpoint holds after every run of a
    client. -/
theorem clientRun_run {ops : List ClientOp}
    (hrun : Run (clientStep qsort (uriToOptions qsort env)) endpt ops endpt') :
    ∃ ops', Run (endptStep qsort) endpt ops' endpt' :=
  hrun.invariant (P := fun t => ∃ ops', Run (endptStep qsort) endpt ops' t) ⟨[], Run.nil⟩
    fun _ _ _ ⟨ops', hbefore⟩ hstep => by
      obtain ⟨more, hmore⟩ := clientStep_run hstep
      exact ⟨ops' ++ more, hbefore.append hmore⟩

end

/-! ## Section 2: What is handed to the socket -/

/-- The calls of `mn_socket_sendto`, in their order. -/
def datagrams (trace : List Event) : List Event := trace.filter Event.isSent

theorem datagrams_append (trace trace' : List Event) :
    datagrams (trace ++ trace') = datagrams trace ++ datagrams trace' := List.filter_append ..

theorem datagrams_resultOf (owner : Addr) (v : Pending) (err : Int) :
    datagrams (resultOf owner v err) = [] := sent_resultOf owner v err

/-- A send that returns has handed over one datagram, whatever came of it. -/
theorem SendsData.datagrams {endpt endpt' : Endpoint} {l : Nodes Pending} {toaddr : SockAddr}
    {msg : McMessage} {resultfn : ResultFn} {err : Int} {data : List UInt8}
    (h : SendsData endpt endpt' l toaddr msg resultfn err data) :
    ∃ owner, datagrams endpt'.trace = datagrams endpt.trace ++ [.sent owner data toaddr err] := by
  rcases hcon : mcMessageIsConfirmable msg with _ | _
  · obtain ⟨_, _, htrace⟩ := h.non hcon
    exact ⟨none, by rw [htrace, datagrams_append]; rfl⟩
  · obtain ⟨v, hfresh, rfl, hfirst⟩ := h.con hcon
    refine ⟨some endpt.confirmq.brk, ?_⟩
    rw [← hfresh.dest]
    by_cases herr : err = mnDone
    · rw [(hfirst.done herr).2, datagrams_append]
      rfl
    · rw [(hfirst.failed herr).2, datagrams_append, datagrams_append, datagrams_append,
        datagrams_resultOf]
      rfl

/-! ## Section 3: A rejected URI -/

/-- A request that keeps quiet: it returns 0, hands no datagram to the
    socket and leaves the confirm queue unchanged. -/
def KeepsQuiet (endpt : Endpoint) (request : Except Fault (UInt16 × Endpoint)) : Prop :=
  ∃ endpt', request = .ok (0, endpt') ∧ datagrams endpt'.trace = datagrams endpt.trace ∧
    ∀ l, endpt.confirmq.Reps l → endpt'.confirmq.Reps l

section

variable {qsort : Qsort McOption} {env : UriEnv} {endpt : Endpoint} {l : Nodes Pending}
  {addr : SockAddr} {uri : List UInt8}

/-- With extra options the null list is merged, and then freed. -/
theorem sendMsg_rejected_extra (hrejected : mcUriToOptions qsort env (some addr) uri = .ok none)
    (resultfn : ResultFn) (code : UInt8) (extra : McOptionsList) (payload : Option McBuffer) :
    sendMsg qsort (uriToOptions qsort env) endpt addr resultfn code uri (some extra) payload =
      .error .nullDeref := by
  unfold sendMsg mkOptions
  rw [uriToOptions_ok hrejected]
  rfl

/-- A request that returns has handed over one datagram; without extra
    options a null list is a message without options, which is sent as well. -/
theorem sendMsg_datagram {mcUriToOptions : UriToOptions} (h : endpt.confirmq.Reps l)
    {resultfn : ResultFn} {code : UInt8} {extra : Option McOptionsList}
    {payload : Option McBuffer} {r : UInt16} {endpt' : Endpoint}
    (hsend : sendMsg qsort mcUriToOptions endpt addr resultfn code uri extra payload =
      .ok (r, endpt')) :
    ∃ owner data err,
      datagrams endpt'.trace = datagrams endpt.trace ++ [.sent owner data addr err] := by
  obtain ⟨drawn, msg, err, hqueue, htrace, _, _, _, hsent⟩ := sendMsg_draws hsend
  have hreps : drawn.confirmq.Reps l := by
    rw [hqueue]
    exact h
  obtain ⟨_, _, _, _, hdata⟩ := mcEndptUdpSend_data hreps hsent
  obtain ⟨owner, hhanded⟩ := hdata.datagrams
  rw [htrace] at hhanded
  exact ⟨owner, _, err, hhanded⟩

theorem sendMsg_not_quiet (h : endpt.confirmq.Reps l)
    (hrejected : mcUriToOptions qsort env (some addr) uri = .ok none) (resultfn : ResultFn)
    (code : UInt8) (extra : Option McOptionsList) (payload : Option McBuffer) :
    ¬ KeepsQuiet endpt (sendMsg qsort (uriToOptions qsort env) endpt addr resultfn code uri extra
      payload) := by
  rintro ⟨endpt', hsend, hquiet, _⟩
  cases extra with
  | some extra =>
    rw [sendMsg_rejected_extra hrejected] at hsend
    exact absurd hsend (by simp)
  | none =>
    obtain ⟨owner, data, err, hhanded⟩ := sendMsg_datagram h hsend
    rw [hquiet] at hhanded
    exact absurd hhanded (by simp)

end

/-- No get, put, post or delete of a rejected URI keeps quiet: whatever the
    endpoint, the extra options, the payload and the result function are, it
    reads through null or hands a datagram to the socket. -/
theorem rejected_uri_sent {qsort : Qsort McOption} {env : UriEnv} {endpt : Endpoint}
    {l : Nodes Pending} (h : endpt.confirmq.Reps l) {addr : SockAddr} {uri : List UInt8}
    (hrejected : mcUriToOptions qsort env (some addr) uri = .ok none) (resultfn : ResultFn)
    (extra : Option McOptionsList) (payload : Option McBuffer) :
    let parser := uriToOptions qsort env
    ¬ KeepsQuiet endpt (mcEndptUdpGet qsort parser endpt addr resultfn uri extra) ∧
      ¬ KeepsQuiet endpt (mcEndptUdpPut qsort parser endpt addr resultfn uri extra payload) ∧
      ¬ KeepsQuiet endpt (mcEndptUdpPost qsort parser endpt addr resultfn uri extra payload) ∧
      ¬ KeepsQuiet endpt (mcEndptUdpDelete qsort parser endpt addr resultfn uri extra) := by
  intro parser
  refine ⟨?_, ?_, ?_, ?_⟩
  · exact sendMsg_not_quiet h hrejected resultfn mcGet extra none
  · exact sendMsg_not_quiet h hrejected resultfn mcPut extra payload
  · exact sendMsg_not_quiet h hrejected resultfn mcPost extra payload
  · exact sendMsg_not_quiet h hrejected resultfn mcDelete extra none

/-- An environment in which no name has an address. -/
def bareEnv : UriEnv := ⟨fun _ => none, ⟨0, 0, 0, 0⟩, false, id⟩

/-- `cop://h`, whose scheme is unknown. -/
def copUri : List UInt8 := [0x63, 0x6f, 0x70, colon, slash, slash, 0x68]

theorem copUri_rejected :
    mcUriToOptions (insertion McOption) bareEnv (some peer) copUri = .ok none := by
  rfl

/-- The witness: a delete of `cop://h` from a fresh endpoint. -/
theorem rejected_uri_sent_cop :
    ¬ KeepsQuiet (mcEndptUdpInit 64 64 stillHost)
      (mcEndptUdpDelete (insertion McOption) (uriToOptions (insertion McOption) bareEnv)
        (mcEndptUdpInit 64 64 stillHost) peer 9 copUri none) :=
  (rejected_uri_sent (mcBufferQueueInit_reps fun _ => rfl) copUri_rejected 9 none none).2.2.2

/-- A get of `cop://h` returns the id 1, having handed its datagram to the
    socket; with extra options it reads through null. -/
theorem cop_uri_sent :
    mcUriToOptions (insertion McOption) bareEnv (some peer) copUri = .ok none ∧
    (∃ endpt, mcEndptUdpGet (insertion McOption) (uriToOptions (insertion McOption) bareEnv)
        (mcEndptUdpInit 64 64 stillHost) peer 9 copUri none = .ok (1, endpt) ∧
      datagrams endpt.trace = [.sent (some 0) [0x46, 1, 0, 1, 1, 0, 0, 0, 0, 0] peer 0]) ∧
    mcEndptUdpGet (insertion McOption) (uriToOptions (insertion McOption) bareEnv)
      (mcEndptUdpInit 64 64 stillHost) peer 9 copUri (some peerOptions) = .error .nullDeref := by
  refine ⟨copUri_rejected, ⟨_, rfl, ?_⟩, ?_⟩
  · decide
  · exact sendMsg_rejected_extra copUri_rejected 9 mcGet peerOptions none

/-! ## Section 4: The options of a request -/

theorem wireOptions_copies (options : List McOption) :
    wireOptions (options.map mcOptionCopyTo) = wireOptions options := by
  rw [wireOptions, wireOptions, List.map_map]
  exact List.map_congr_left fun o _ => mcOptionCopyTo_wire o

/-- The options of a request: those of the URI and then the extra ones, in
    number order. -/
theorem mkOptions_accepted {qsort : Qsort McOption} (hq : qsort.Stable) {env : UriEnv}
    {addr : SockAddr} {uri : List UInt8} {list : McOptionsList}
    (huri : mcUriToOptions qsort env (some addr) uri = .ok (some list))
    (extra : Option McOptionsList) (host : Host) :
    ∃ options, mkOptions qsort (uriToOptions qsort env) uri addr extra host =
        .ok (some (mcOptionsListInit qsort options), host) ∧
      InNumberOrder (wireOptions (list.options ++ listOptions extra))
        (wireOptions (mcOptionsListInit qsort options).options) := by
  unfold mkOptions
  rw [uriToOptions_ok huri]
  cases extra with
  | none =>
    obtain ⟨_, _, options, _, _, rfl⟩ := mcUriToOptions_ok huri
    refine ⟨options, rfl, ⟨(inNumberOrder_init hq options).ordered, fun n => ?_⟩⟩
    rw [listOptions_none, List.append_nil]
  | some extra =>
    refine ⟨(list.options ++ extra.options).map mcOptionCopyTo, ?_, ?_⟩
    · show Except.ok (mcOptionsListMerge qsort (some list) (some extra), host) = _
      rw [mcOptionsListMerge_eq]
      rfl
    have horder := inNumberOrder_init hq ((list.options ++ extra.options).map mcOptionCopyTo)
    rw [wireOptions_copies] at horder
    exact horder

/-! ## Section 5: An accepted URI -/

/-- The message of a request, with the options `os` on the wire. -/
structure AsBuilt (message : McMessage) (msgid : UInt16) (code : UInt8) (resultfn : ResultFn)
    (os : List Wire.Opt) (payload : Option McBuffer) : Prop where
  version     : mcMessageGetVersion message = 1
  confirmable : mcMessageIsConfirmable message = true ↔ resultfn ≠ 0
  code        : mcMessageGetCode message = code
  msgid       : mcMessageGetMessageId message = msgid
  token       : message.token.toList.length = 6
  options     : wireOptions (listOptions message.options) = os
  noOptions   : os = [] → message.options = none
  bytes       : bytesOf message.payload = bytesOf payload
  noPayload   : bytesOf payload = [] → message.payload = none

/-- A request that is sent as `data`: the socket gets the datagram, whoever
    decodes it has the request, and the confirm queue has gained an entry at
    its end if and only if the message is confirmable. -/
structure Arrives (endpt endpt' : Endpoint) (l : Nodes Pending) (addr : SockAddr)
    (resultfn : ResultFn) (code : UInt8) (os : List Wire.Opt) (payload : Option McBuffer)
    (data : List UInt8) : Prop where
  size     : data.length ≤ endpt.wrbuffer.nbytes.toNat
  handed   : ∃ owner,
    datagrams endpt'.trace = datagrams endpt.trace ++ [.sent owner data addr mnDone]
  decoded  : ∀ qsort : Qsort McOption, qsort.Stable → ∀ nbytes : UInt32,
    nbytes.toNat = data.length → ∀ m s, Holds m 0 data →
      ∃ message, (run (mcMessageFromBuffer qsort nbytes 0) m s).value =
          some (some message, nbytes) ∧
        AsBuilt message endpt.nextid code resultfn os payload
  queued   : resultfn ≠ 0 → ∃ v, endpt'.confirmq.Reps (l ++ [(endpt.confirmq.brk, v)]) ∧
    v.msg.toList = data ∧ v.msgid = endpt.nextid
  unqueued : resultfn = 0 → endpt'.confirmq.Reps l

/-- The bytes of a request fit into the write buffer: 4 of the header, 6 of
    the token, the options and the payload. -/
def RequestFits (endpt : Endpoint) (os : List Wire.Opt) (payload : Option McBuffer) : Prop :=
  10 + ((Wire.encodeOptions 0 os).length + (payloadBytes payload).length) ≤
    endpt.wrbuffer.nbytes.toNat

instance (endpt : Endpoint) (os : List Wire.Opt) (payload : Option McBuffer) :
    Decidable (RequestFits endpt os payload) := Nat.decLe _ _

/-- Decoding the bytes of the message of a request. -/
theorem asBuilt_of_encoded {qsort : Qsort McOption} (hq : qsort.Stable) {resultfn : ResultFn}
    {code : UInt8} {msgid : UInt16} {token : McBuffer} {list : Option McOptionsList}
    {payload : Option McBuffer} {message : McMessage}
    (hmessage : message = mcMessageInit messageVersion
      (if resultfn = 0 then mcNoconfirm else mcConfirm) code msgid token list payload)
    (htoken : token.nbytes = 6) (hlist : ListEncodable list)
    (hsmall : Wire.Small 0 (wireOptions (listOptions list))) {nbytes : UInt32} {m : Mem}
    (hlen : nbytes.toNat = (messageBytes message).length) (hheld : Holds m 0 (messageBytes message))
    (s : Supply UInt16) :
    ∃ decoded, (run (mcMessageFromBuffer qsort nbytes 0) m s).value =
        some (some decoded, nbytes) ∧
      AsBuilt decoded msgid code resultfn (wireOptions (listOptions list)) payload := by
  subst hmessage
  have htokenLen : (mcMessageGetTokenLen (mcMessageInit messageVersion
      (if resultfn = 0 then mcNoconfirm else mcConfirm) code msgid token list payload)).toNat =
      token.nbytes.toNat := by
    apply mcMessageInit_tokenLen
    rw [htoken]
    decide
  obtain ⟨⟨r, pos⟩, hr, _, hpos, decoded, hr', hsame, hnone, habsent⟩ :=
    (run_meets (mcMessageFromBuffer_encoded hq htokenLen hlist hsmall hheld hlen.symm) s
      (fun _ => trivial)).returns id
  dsimp only at hpos hr'
  subst hpos hr'
  have htype : (if resultfn = 0 then mcNoconfirm else mcConfirm) < 4 := by
    split
    · decide
    · decide
  obtain ⟨hgetVersion, _, hgetCode, hgetId⟩ := getters_of_create (by decide) htype hsame.header
  refine ⟨decoded, hr, hgetVersion, ?_, hgetCode, hgetId, ?_, hsame.options, ?_, hsame.payload,
    habsent⟩
  · have hcon := isConfirmable_request resultfn code msgid token list payload
    rw [mcMessageIsConfirmable, mcMessageGetType] at hcon ⊢
    rw [hsame.header, hcon, decide_eq_true_eq]
  · rw [hsame.token]
    show token.toList.length = 6
    rw [McBuffer.toList_length, htoken]
    rfl
  · intro hempty
    exact hnone (List.map_eq_nil_iff.mp hempty)

section

variable {qsort : Qsort McOption} {env : UriEnv} {endpt : Endpoint} {l : Nodes Pending}
  {addr : SockAddr} {uri : List UInt8} {list : McOptionsList} {extra : Option McOptionsList}
  {os : List Wire.Opt}

theorem sendMsg_arrives (hq : qsort.Stable) (h : endpt.confirmq.Reps l)
    (huri : mcUriToOptions qsort env (some addr) uri = .ok (some list))
    (horder : InNumberOrder (wireOptions (list.options ++ listOptions extra)) os)
    (hsmall : Wire.Small 0 os) {payload : Option McBuffer} (hfit : RequestFits endpt os payload)
    (hsocket : endpt.host.sends endpt.host.nsends = mnDone) (resultfn : ResultFn) (code : UInt8) :
    ∃ endpt' data,
      sendMsg qsort (uriToOptions qsort env) endpt addr resultfn code uri extra payload =
        .ok (endpt.nextid, endpt') ∧
      Arrives endpt endpt' l addr resultfn code os payload data := by
  obtain ⟨options, hoptions, hmerged⟩ := mkOptions_accepted hq huri extra endpt.host
  obtain rfl := hmerged.unique horder
  have hlist : ListEncodable (some (mcOptionsListInit qsort options)) :=
    @mcOptionsListInit_small qsort (some options) hsmall
  obtain ⟨token, host, htoken, hmade, hhost⟩ :=
    mkMessage_eq endpt code resultfn (some (mcOptionsListInit qsort options)) payload
  obtain ⟨message, hmessage⟩ : ∃ message, message = mcMessageInit messageVersion
    (if resultfn = 0 then mcNoconfirm else mcConfirm) code endpt.nextid token
    (some (mcOptionsListInit qsort options)) payload := ⟨_, rfl⟩
  rw [← hmessage] at hmade
  have hlength : (messageBytes message).length = 10 + ((Wire.encodeOptions 0
      (wireOptions (mcOptionsListInit qsort options).options)).length +
        (payloadBytes payload).length) := by
    rw [messageBytes_length, hmessage, ← Nat.add_assoc]
    show 4 + token.nbytes.toNat + _ = _
    rw [htoken]
    rfl
  have hroom : (messageBytes message).length ≤ endpt.wrbuffer.nbytes.toNat := by
    rw [hlength]
    exact hfit
  have hreps : ({ (mcEndptUdpNextid endpt).2 with host := host } : Endpoint).confirmq.Reps l := h
  have hencodable : ListEncodable message.options := by
    rw [hmessage]
    exact hlist
  obtain ⟨err, endpt', hsend, hsent, _, herr⟩ :=
    mcEndptUdpSend_fits hreps message hencodable hroom addr resultfn
  -- the datagram has at least the header, so it does not count as closed
  have hdone : err = mnDone := by
    have houtcome : host.sends host.nsends = mnDone := by
      rw [hhost]
      exact hsocket
    exact herr.trans (mnSocketSendto_done (by omega) houtcome)
  rw [hdone] at hsend hsent
  have hcon : mcMessageIsConfirmable message = decide (resultfn ≠ 0) := by
    rw [hmessage]
    exact isConfirmable_request ..
  refine ⟨endpt', messageBytes message, sendMsg_eq hoptions hmade hsend, hroom, hsent.datagrams,
    ?_, ?_, ?_⟩
  · intro qsort' hq' nbytes hnbytes m s hheld
    exact asBuilt_of_encoded hq' hmessage htoken hlist hsmall hnbytes hheld s
  · intro hfn
    obtain ⟨v, hfresh, hdata, hfirst⟩ := hsent.con (by rw [hcon, decide_eq_true hfn])
    refine ⟨_, (hfirst.done rfl).1, hdata, hfresh.msgid.trans ?_⟩
    rw [hmessage]
    exact mcHeaderGetMessageId_create ..
  · intro hfn
    obtain ⟨hqueue, _⟩ := hsent.non (by rw [hcon, decide_eq_false (not_not.mpr hfn)])
    rw [hqueue]
    exact h

end

/-- A request that returns the id the endpoint had for it, not 0, and whose
    datagram arrives as it was built. -/
def SentAsBuilt (endpt : Endpoint) (l : Nodes Pending) (addr : SockAddr) (resultfn : ResultFn)
    (os : List Wire.Opt) (code : UInt8) (payload : Option McBuffer)
    (request : Except Fault (UInt16 × Endpoint)) : Prop :=
  ∃ msgid endpt' data, request = .ok (msgid, endpt') ∧ msgid = endpt.nextid ∧ msgid ≠ 0 ∧
    Arrives endpt endpt' l addr resultfn code os payload data

/-- Every get, put, post and delete of a URI that is accepted is sent with
    the options of the URI followed by the extra ones, in number order. -/
theorem request_arrives {qsort : Qsort McOption} (hq : qsort.Stable) {env : UriEnv}
    {endpt : Endpoint} {l : Nodes Pending} (h : endpt.confirmq.Reps l) (hid : endpt.nextid ≠ 0)
    {addr : SockAddr} {uri : List UInt8} {list : McOptionsList}
    (huri : mcUriToOptions qsort env (some addr) uri = .ok (some list))
    {extra : Option McOptionsList} {os : List Wire.Opt}
    (horder : InNumberOrder (wireOptions (list.options ++ listOptions extra)) os)
    (hsmall : Wire.Small 0 os) (hsocket : endpt.host.sends endpt.host.nsends = mnDone)
    (resultfn : ResultFn) (payload : Option McBuffer) :
    let parser := uriToOptions qsort env
    (RequestFits endpt os none →
      SentAsBuilt endpt l addr resultfn os mcGet none
        (mcEndptUdpGet qsort parser endpt addr resultfn uri extra) ∧
      SentAsBuilt endpt l addr resultfn os mcDelete none
        (mcEndptUdpDelete qsort parser endpt addr resultfn uri extra)) ∧
    (RequestFits endpt os payload →
      SentAsBuilt endpt l addr resultfn os mcPut payload
        (mcEndptUdpPut qsort parser endpt addr resultfn uri extra payload) ∧
      SentAsBuilt endpt l addr resultfn os mcPost payload
        (mcEndptUdpPost qsort parser endpt addr resultfn uri extra payload)) := by
  intro parser
  have hsent : ∀ code payload, RequestFits endpt os payload →
      SentAsBuilt endpt l addr resultfn os code payload
        (sendMsg qsort parser endpt addr resultfn code uri extra payload) := by
    intro code payload hfit
    obtain ⟨endpt', data, hsend, harrives⟩ :=
      sendMsg_arrives hq h huri horder hsmall hfit hsocket resultfn code
    exact ⟨_, endpt', data, hsend, rfl, hid, harrives⟩
  constructor
  · intro hfit
    exact ⟨hsent mcGet none hfit, hsent mcDelete none hfit⟩
  · intro hfit
    exact ⟨hsent mcPut payload hfit, hsent mcPost payload hfit⟩

/-- A Content-Format, whose place is between the path and the query. -/
def formatOption : McOptionsList := ⟨[mcOptionInit 12 1 [50]]⟩

/-- The witness: a put to coap://h:1000/a/b?q&r with a Content-Format and two
    bytes of payload, on a fresh endpoint. -/
theorem request_arrives_put :
    SentAsBuilt (mcEndptUdpInit 64 64 stillHost) [] peer 9
      [⟨3, [0x68]⟩, ⟨7, [0x03, 0xe8]⟩, ⟨11, [0x61]⟩, ⟨11, [0x62]⟩, ⟨12, [50]⟩, ⟨15, [0x71]⟩,
        ⟨15, [0x72]⟩] mcPut
      (some (McBuffer.ofList [255, 0]))
      (mcEndptUdpPut (insertion McOption) (uriToOptions (insertion McOption) bareEnv)
        (mcEndptUdpInit 64 64 stillHost) peer 9 partsOfGet.uri (some formatOption)
        (some (McBuffer.ofList [255, 0]))) := by
  have huri : mcUriToOptions (insertion McOption) bareEnv (some peer) partsOfGet.uri =
      .ok (some (mcOptionsListInit (insertion McOption)
        (partsOfGet.authority ++ partsOfGet.components))) := rfl
  have horder := inNumberOrder_init (insertion_stable McOption)
    ((mcOptionsListInit (insertion McOption)
      (partsOfGet.authority ++ partsOfGet.components)).options ++ listOptions (some formatOption))
  exact ((request_arrives (insertion_stable McOption) (mcBufferQueueInit_reps fun _ => rfl)
    (by decide) huri horder (by decide) rfl 9 (some (McBuffer.ofList [255, 0]))).2 (by decide)).1

end Mcoap
