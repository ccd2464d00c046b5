import Mcoap.CoreTests
import Mcoap.EndpointReturns
import Mcoap.Mcget
import Mcoap.UriAddress

/-! # The requests of the get program

    * `requests_in_order`: in a run that comes to its end there is one get
      for each URI of the command line, in their order, and at most three
      receives for each;
    * `getUri_returns_iff`: a request that has been made comes back unless
      the first datagram to arrive is not parsed, or is an ack. -/

namespace Mcoap

namespace Mcget

open ByteMem ByteProg StableSort DList CString

/-! ## Section 1: A receive while nothing is queued -/

/-- Nothing a message is made of. -/
def NoMessage : Arrival → Prop
  | .failed _ _ => True
  | .datagram bytes _ => bytes = []

section

variable {qsort : Qsort McOption} {arrival : Arrival} {endpt endpt' : Endpoint}
  {msg : Option McMessage} {message : McMessage} {bytes : List UInt8} {source : SockAddr}

/-- The decoder's part of what is received. -/
theorem recvMessage_arrival {err : Int} (hsize : 0 < endpt.rdbuffer.nbytes.toNat)
    (h : recvMessage qsort arrival endpt = .ok (err, msg, endpt')) :
    (msg = none → NoMessage arrival) ∧ ∀ message, msg = some message →
      ∃ bytes source, arrival = .datagram bytes source ∧ bytes ≠ [] ∧
        message.fromAddr = some source := by
  cases arrival with
  | failed err' hne =>
    simp only [recvMessage, mnSocketRecvfrom, ne_eq, hne, not_false_eq_true, if_true] at h
    cases h
    exact ⟨fun _ => trivial, by simp⟩
  | datagram bytes source =>
    by_cases hnil : bytes = []
    · simp only [recvMessage, mnSocketRecvfrom, hnil, List.take_nil, if_true] at h
      cases h
      exact ⟨fun _ => hnil, by simp⟩
    · have htaken : bytes.take endpt.rdbuffer.nbytes.toNat ≠ [] := by
        intro hempty
        rcases List.take_eq_nil_iff.mp hempty with hzero | hempty
        · omega
        · exact hnil hempty
      simp only [recvMessage, mnSocketRecvfrom, if_neg htaken, ne_eq, not_true_eq_false,
        if_false] at h
      obtain ⟨⟨⟨decoded, _⟩, _, _⟩, _, hrest⟩ := bind_eq_ok.mp h
      cases decoded with
      | none => exact absurd hrest (by simp)
      | some decoded =>
        cases hrest
        refine ⟨by simp, fun message hsome => ?_⟩
        cases hsome
        exact ⟨bytes, source, rfl, hnil, rfl⟩

/-- No ack is received by an endpoint that waits for none, and everything
    but the read buffer stays as it is. -/
theorem recv_idle (hidle : endpt.confirmq.Reps []) (hsize : 0 < endpt.rdbuffer.nbytes.toNat)
    (h : mcEndptUdpRecv qsort arrival endpt = .ok (msg, endpt')) :
    RecvFrame endpt endpt' ∧ mcMessageIsAck msg = false ∧ (msg = none → NoMessage arrival) ∧
      ∀ message, msg = some message → ∃ bytes source, arrival = .datagram bytes source ∧
        bytes ≠ [] ∧ message.fromAddr = some source := by
  have hplain : mcMessageIsAck msg = false := by
    by_contra hack
    obtain ⟨_, xs, _, _, _, _, hl, _⟩ := (mcEndptUdpRecv_spec hidle h).ack (by simpa using hack)
    exact absurd hl (by simp)
  obtain ⟨⟨err, decoded, endpt1⟩, hdecode, hrest⟩ := bind_eq_ok.mp h
  have hframe := recvMessage_recvFrame hdecode
  have harrival := recvMessage_arrival hsize hdecode
  cases decoded with
  | none =>
    cases hrest
    exact ⟨hframe, hplain, harrival⟩
  | some message =>
    simp only at hrest
    split at hrest
    · next hack =>
      obtain ⟨_, _, hret⟩ := bind_eq_ok.mp hrest
      cases hret
      rw [hack] at hplain
      cases hplain
    · cases hrest
      exact ⟨hframe, hplain, harrival⟩

/-- What a datagram says depends on the size of the read buffer only. -/
theorem received_congr (hsize : endpt'.rdbuffer.nbytes = endpt.rdbuffer.nbytes)
    (bytes : List UInt8) : received endpt' bytes = received endpt bytes := by
  rw [received, hsize, received]

theorem parsedBy_congr (hsize : endpt'.rdbuffer.nbytes = endpt.rdbuffer.nbytes)
    (bytes : List UInt8) : parsedBy endpt' bytes = parsedBy endpt bytes := by
  rw [parsedBy, received_congr hsize, parsedBy]

theorem carried_congr (hsize : endpt'.rdbuffer.nbytes = endpt.rdbuffer.nbytes)
    (bytes : List UInt8) : Carried endpt' bytes ↔ Carried endpt bytes := by
  rw [Carried, received_congr hsize, Carried]

theorem recvReturns_congr (hsize : endpt'.rdbuffer.nbytes = endpt.rdbuffer.nbytes)
    (l : Nodes Pending) (bytes : List UInt8) :
    RecvReturns endpt' l bytes ↔ RecvReturns endpt l bytes := by
  rw [RecvReturns, FindsBytes, received_congr hsize, parsedBy_congr hsize, hsize, RecvReturns,
    FindsBytes]

/-- What is received is what the datagram says. -/
theorem recv_parses (hq : qsort.Stable) (hidle : endpt.confirmq.Reps [])
    (hcar : Carried endpt bytes)
    (h : mcEndptUdpRecv qsort (.datagram bytes source) endpt = .ok (some message, endpt')) :
    ∃ parsed, parsedBy endpt bytes = some parsed ∧ message.Parses parsed := by
  rcases (recv_returns_iff hq hidle hcar).mp ⟨_, h⟩ with hempty | ⟨hfinds, parsed, hparse, hqueued⟩
  · obtain ⟨_, hrecv, _⟩ := @recv_empty qsort endpt bytes source hempty
    rw [h] at hrecv
    cases hrecv
  · obtain ⟨_, _, hrecv, hreceived⟩ := @recv_received qsort endpt bytes source [] hq hidle hcar
      hfinds parsed hparse hqueued
    rw [h] at hrecv
    cases hrecv
    exact ⟨parsed, hparse, hreceived.parses⟩

end

/-! ## Section 2: The loop of a request -/

/-- What a request hears from the try `first` on, with `left` tries: nothing
    at all, or after a time of silence a message that is no ack. -/
inductive Heard (endpt : Endpoint) (arrivals : Nat → Arrival) (left first : Nat) :
    Nat → Option McMessage → Prop where
  | silent (hquiet : ∀ i, i < left → NoMessage (arrivals (first + i))) :
    Heard endpt arrivals left first (first + left) none
  | answered {n : Nat} {bytes : List UInt8} {source : SockAddr} {message : McMessage}
    (hlt : n < left) (hquiet : ∀ i, i < n → NoMessage (arrivals (first + i)))
    (harrival : arrivals (first + n) = .datagram bytes source) (hne : bytes ≠ [])
    (hsource : message.fromAddr = some source) (hplain : mcMessageIsAck (some message) = false)
    (hparses : Carried endpt bytes → ∃ parsed, parsedBy endpt bytes = some parsed ∧
      message.Parses parsed) :
    Heard endpt arrivals left first (first + n + 1) (some message)

section

variable {qsort : Qsort McOption} {arrivals : Nat → Arrival} {endpt endpt' endpt'' : Endpoint}
  {left first n : Nat} {msg : Option McMessage}

theorem recvFrame_trans (h : RecvFrame endpt endpt') (h' : RecvFrame endpt' endpt'') :
    RecvFrame endpt endpt'' where
  confirmq := h'.confirmq.trans h.confirmq
  nextid   := h'.nextid.trans h.nextid
  trace    := h'.trace.trans h.trace
  rdsize   := h'.rdsize.trans h.rdsize
  wrbuffer := h'.wrbuffer.trans h.wrbuffer

/-- A property of the tries after the first one, and of the first one. -/
theorem forall_tries {P : Nat → Prop} (hfirst : P first)
    (hrest : ∀ i, i < n → P (first + 1 + i)) : ∀ i, i < n + 1 → P (first + i) := by
  intro i hi
  cases i with
  | zero => exact hfirst
  | succ i =>
    have hnext := hrest i (by omega)
    rw [Nat.add_right_comm] at hnext
    exact hnext

/-- One more try in front, which has brought nothing. -/
theorem Heard.later (hfirst : NoMessage (arrivals first))
    (hsize : endpt'.rdbuffer.nbytes = endpt.rdbuffer.nbytes)
    (h : Heard endpt' arrivals left (first + 1) n msg) :
    Heard endpt arrivals (left + 1) first n msg := by
  cases h with
  | silent hquiet =>
    rw [Nat.add_assoc, Nat.add_comm 1 left]
    exact .silent (@forall_tries first left (fun i => NoMessage (arrivals i)) hfirst hquiet)
  | @answered k bytes source message hlt hquiet harrival hne hsource hplain hparses =>
    rw [carried_congr hsize, parsedBy_congr hsize] at hparses
    have hplace : first + 1 + k = first + (k + 1) := by omega
    rw [hplace] at harrival ⊢
    exact .answered (by omega)
      (@forall_tries first k (fun i => NoMessage (arrivals i)) hfirst hquiet)
      harrival hne hsource hplain hparses

theorem Heard.congr (hsize : endpt'.rdbuffer.nbytes = endpt.rdbuffer.nbytes)
    (h : Heard endpt' arrivals left first n msg) : Heard endpt arrivals left first n msg := by
  cases h with
  | silent hquiet => exact .silent hquiet
  | @answered k bytes source message hlt hquiet harrival hne hsource hplain hparses =>
    rw [carried_congr hsize, parsedBy_congr hsize] at hparses
    exact .answered hlt hquiet harrival hne hsource hplain hparses

/-- Run: by induction on the tries that are left. -/
theorem recvLoop_heard (hq : qsort.Stable) (hidle : endpt.confirmq.Reps [])
    (hsize : 0 < endpt.rdbuffer.nbytes.toNat)
    (h : recvLoop qsort arrivals left first endpt = .ok (n, msg, endpt')) :
    RecvFrame endpt endpt' ∧ Heard endpt arrivals left first n msg := by
  induction left generalizing first endpt with
  | zero =>
    cases h
    exact ⟨⟨rfl, rfl, rfl, rfl, rfl⟩, .silent fun i hi => absurd hi (Nat.not_lt_zero i)⟩
  | succ left ih =>
    obtain ⟨⟨msg1, endpt1⟩, hrecv, hrest⟩ := bind_eq_ok.mp h
    obtain ⟨hframe, hplain, hnone, hsome⟩ := recv_idle hidle hsize hrecv
    cases msg1 with
    | some message =>
      cases hrest
      obtain ⟨bytes, source, harrival, hne, hsource⟩ := hsome message rfl
      rw [harrival] at hrecv
      exact ⟨hframe, .answered (Nat.succ_pos left) (fun i hi => absurd hi (Nat.not_lt_zero i))
        harrival hne hsource hplain fun hcar => recv_parses hq hidle hcar hrecv⟩
    | none =>
      have hidle1 : endpt1.confirmq.Reps [] := by
        rw [hframe.confirmq]
        exact hidle
      have hsize1 : 0 < endpt1.rdbuffer.nbytes.toNat := by
        rw [hframe.rdsize]
        exact hsize
      obtain ⟨hframe1, hheard⟩ := ih hidle1 hsize1 hrest
      exact ⟨recvFrame_trans hframe hframe1, hheard.later (hnone rfl) hframe.rdsize⟩

/-- The first datagram of the tries that are left is one from which a
    receive comes back. -/
def FirstReturns (endpt : Endpoint) (arrivals : Nat → Arrival) (left first : Nat) : Prop :=
  ∀ i, i < left → (∀ j, j < i → NoMessage (arrivals (first + j))) → ∀ bytes source,
    arrivals (first + i) = .datagram bytes source → RecvReturns endpt [] bytes

theorem firstReturns_succ : FirstReturns endpt arrivals (left + 1) first ↔
    (∀ bytes source, arrivals first = .datagram bytes source → RecvReturns endpt [] bytes) ∧
      (NoMessage (arrivals first) → FirstReturns endpt arrivals left (first + 1)) := by
  constructor
  · intro h
    refine ⟨fun bytes source => h 0 (Nat.succ_pos left)
      (fun j hj => absurd hj (Nat.not_lt_zero j)) bytes source, ?_⟩
    intro hfirst i hi hquiet bytes source harrival
    rw [Nat.add_right_comm] at harrival
    exact h (i + 1) (by omega)
      (@forall_tries first i (fun i => NoMessage (arrivals i)) hfirst hquiet) bytes source harrival
  · rintro ⟨hnow, hlater⟩ i hi hquiet bytes source harrival
    cases i with
    | zero => exact hnow bytes source harrival
    | succ i =>
      refine hlater (hquiet 0 (Nat.succ_pos i)) i (by omega) ?_ bytes source ?_
      · intro j hj
        have hnext := hquiet (j + 1) (by omega)
        rw [← Nat.add_assoc, Nat.add_right_comm] at hnext
        exact hnext
      · rw [Nat.add_right_comm]
        exact harrival

theorem firstReturns_congr (hsize : endpt'.rdbuffer.nbytes = endpt.rdbuffer.nbytes) :
    FirstReturns endpt' arrivals left first ↔ FirstReturns endpt arrivals left first := by
  simp only [FirstReturns, recvReturns_congr hsize]

/-- The loop comes back if every receive it gets to does. -/
theorem recvLoop_returns_iff (hq : qsort.Stable) (hidle : endpt.confirmq.Reps [])
    (hsize : 0 < endpt.rdbuffer.nbytes.toNat)
    (hcar : ∀ i bytes source, arrivals i = .datagram bytes source → Carried endpt bytes) :
    (∃ r, recvLoop qsort arrivals left first endpt = .ok r) ↔
      FirstReturns endpt arrivals left first := by
  induction left generalizing first endpt with
  | zero => exact ⟨fun _ i hi => absurd hi (Nat.not_lt_zero i), fun _ => ⟨_, rfl⟩⟩
  | succ left ih =>
    rw [firstReturns_succ]
    have hrest : ∀ endpt1, RecvFrame endpt endpt1 →
        ((∃ r, recvLoop qsort arrivals left (first + 1) endpt1 = .ok r) ↔
          FirstReturns endpt arrivals left (first + 1)) := by
      intro endpt1 hframe
      rw [← firstReturns_congr hframe.rdsize]
      apply ih
      · rw [hframe.confirmq]
        exact hidle
      · rw [hframe.rdsize]
        exact hsize
      · intro i bytes source harrival
        rw [carried_congr hframe.rdsize]
        exact hcar i bytes source harrival
    constructor
    · rintro ⟨r, h⟩
      obtain ⟨⟨msg1, endpt1⟩, hrecv, hloop⟩ := bind_eq_ok.mp h
      obtain ⟨hframe, _, _, hsome⟩ := recv_idle hidle hsize hrecv
      refine ⟨fun bytes source harrival => ?_, fun hquiet => ?_⟩
      · rw [harrival] at hrecv
        exact (recv_returns_iff hq hidle (hcar first bytes source harrival)).mp ⟨_, hrecv⟩
      · cases msg1 with
        | none => exact (hrest endpt1 hframe).mp ⟨r, hloop⟩
        | some message =>
          obtain ⟨bytes, source, harrival, hne, _⟩ := hsome message rfl
          rw [harrival] at hquiet
          exact absurd hquiet hne
    · rintro ⟨hnow, hlater⟩
      have hrecv : ∃ r, mcEndptUdpRecv qsort (arrivals first) endpt = .ok r := by
        cases harrival : arrivals first with
        | failed err hne =>
          obtain ⟨endpt1, hrecv, _⟩ := mcEndptUdpRecv_nothing qsort endpt hne
          exact ⟨_, hrecv⟩
        | datagram bytes source =>
          exact (recv_returns_iff hq hidle (hcar first bytes source harrival)).mpr
            (hnow bytes source harrival)
      obtain ⟨⟨msg1, endpt1⟩, hrecv⟩ := hrecv
      obtain ⟨hframe, _, hnone, _⟩ := recv_idle hidle hsize hrecv
      cases msg1 with
      | some message => exact ⟨_, bind_eq_ok.mpr ⟨_, hrecv, rfl⟩⟩
      | none =>
        obtain ⟨r, hloop⟩ := (hrest endpt1 hframe).mpr (hlater (hnone rfl))
        exact ⟨r, bind_eq_ok.mpr ⟨_, hrecv, hloop⟩⟩

end

/-! ## Section 3: A request -/

/-- The get of a URI with these options. -/
def getMessage (msgid : UInt16) (suffix : UInt32) (list : Option McOptionsList) : McMessage :=
  mcMessageNonInit mcGet msgid (McBuffer.ofList (image16 msgid ++ image32 suffix)) list none

/-- The endpoint of a request, after the look at the clock. -/
def Surroundings.endpt (around : Surroundings) : Endpoint :=
  let endpt := mcEndptUdpInit 1024 1024 around.host
  { endpt with host := (mnGettime endpt.host).2 }

/-- What a request comes to: it has sent one datagram, to the address that
    it has from the URI, and if the socket has taken that, it is a get with
    the options of the URI; it has heard what there was to hear, and nothing
    is left in its queue. -/
structure Fetched (qsort : Qsort McOption) (around : Surroundings) (fetch : Fetch) : Prop where
  address : ∃ ok, mcUriToAddress around.env around.addr fetch.uri = .ok (ok, fetch.addr)
  request : ∃ list suffix data err,
    mcUriToOptions qsort around.env (some fetch.addr) fetch.uri = .ok list ∧
    fetch.endpt.trace = [.sent none data fetch.addr err] ∧
    fetch.msgid = (if err ≠ mnDone then 0 else around.endpt.nextid) ∧
    (err = mnDone → data = writtenBytes (getMessage around.endpt.nextid suffix list))
  queue   : fetch.endpt.confirmq.Reps []
  heard   : Heard around.endpt around.arrivals 3 0 fetch.ntries fetch.msg

section

variable {qsort : Qsort McOption} {around : Surroundings} {port msgid : UInt16} {uri : Arg}
  {addr : SockAddr} {fetch : Fetch} {endpt endpt' : Endpoint}

/-- The message of a get takes the next id, and without a result function
    it is nonconfirmable. -/
theorem mkMessage_get (endpt : Endpoint) (list : Option McOptionsList) : ∃ drawn suffix,
    mkMessage endpt mcGet 0 list none =
      (endpt.nextid, getMessage endpt.nextid suffix list, drawn) ∧
    drawn.confirmq = endpt.confirmq ∧ drawn.rdbuffer = endpt.rdbuffer ∧
    drawn.trace = endpt.trace :=
  ⟨_, UInt32.ofNat (rand endpt.host).1, rfl, rfl, rfl, rfl⟩

theorem getMessage_non (msgid : UInt16) (suffix : UInt32) (list : Option McOptionsList) :
    mcMessageIsConfirmable (getMessage msgid suffix list) = false :=
  isConfirmable_request 0 mcGet msgid _ list none

/-- The get of an endpoint that waits for nothing. -/
theorem get_sent (hidle : endpt.confirmq.Reps [])
    (h : mcEndptUdpGet qsort (uriToOptions qsort around.env) endpt addr 0 uri none =
      .ok (msgid, endpt')) :
    ∃ list suffix data err, mcUriToOptions qsort around.env (some addr) uri = .ok list ∧
      endpt'.confirmq = endpt.confirmq ∧ endpt'.rdbuffer = endpt.rdbuffer ∧
      endpt'.trace = endpt.trace ++ [.sent none data addr err] ∧
      msgid = (if err ≠ mnDone then 0 else endpt.nextid) ∧
      (err = mnDone → data = writtenBytes (getMessage endpt.nextid suffix list)) := by
  obtain ⟨⟨list, host⟩, hoptions, hrest⟩ := bind_eq_ok.mp h
  obtain ⟨⟨list', host'⟩, hparsed, hret⟩ := bind_eq_ok.mp hoptions
  cases hret
  obtain ⟨list'', huri, hret⟩ := bind_eq_ok.mp hparsed
  cases hret
  obtain ⟨drawn, suffix, hmade, hqueue, hbuffer, htrace⟩ := mkMessage_get endpt list
  obtain ⟨⟨err, endpt1⟩, hsent, hret⟩ :
      ∃ r, mcEndptUdpSend drawn addr (getMessage endpt.nextid suffix list) 0 = .ok r ∧
        (.ok (if r.1 ≠ mnDone then 0 else endpt.nextid, r.2) : Except Fault _) =
          .ok (msgid, endpt') := by
    have hmade' : mkMessage { endpt with host := endpt.host } mcGet 0 list none =
      (endpt.nextid, getMessage endpt.nextid suffix list, drawn) := hmade
    simp only [hmade'] at hrest
    exact bind_eq_ok.mp hrest
  cases hret
  have hreps : drawn.confirmq.Reps [] := by
    rw [hqueue]
    exact hidle
  have hnon := getMessage_non endpt.nextid suffix list
  obtain ⟨nbytes, wrbuffer, host, hrun, hn⟩ := mcEndptUdpSend_returns hsent
  obtain ⟨err', endpt2, hsent', hspec, hframe, _⟩ := mcEndptUdpSend_encoded hreps hrun hn addr 0
  cases hsent.symm.trans hsent'
  rw [← hqueue, ← hbuffer, ← htrace]
  by_cases herr : err = mnDone
  · subst herr
    obtain ⟨hsame, _, hgrow⟩ := (mcEndptUdpSend_whole hreps hsent).non hnon
    exact ⟨list, suffix, _, mnDone, huri, hsame, hframe.rdbuffer, hgrow, rfl, fun _ => rfl⟩
  · obtain ⟨hsame, _, hgrow⟩ := hspec.non hnon
    exact ⟨list, suffix, _, err, huri, hsame, hframe.rdbuffer, hgrow, rfl,
      fun hdone => absurd hdone herr⟩

/-- Before its request it waits for nothing. -/
theorem Surroundings.idle (around : Surroundings) : around.endpt.confirmq.Reps [] :=
  (mcEndptUdpInit_shows 1024 1024 around.host).reps

theorem getUri_fetched (hq : qsort.Stable) (h : getUri qsort around port uri = .ok fetch) :
    fetch.port = port ∧ fetch.uri = uri ∧ Fetched qsort around fetch := by
  obtain ⟨⟨ok, addr⟩, haddr, hrest⟩ := bind_eq_ok.mp h
  obtain ⟨⟨msgid, endpt⟩, hget, hrest⟩ := bind_eq_ok.mp hrest
  obtain ⟨⟨ntries, msg, endpt'⟩, hloop, hret⟩ := bind_eq_ok.mp hrest
  cases hret
  obtain ⟨list, suffix, data, err, huri, hqueue, hbuffer, htrace, hid, hdata⟩ :=
    get_sent around.idle hget
  have hidle : endpt.confirmq.Reps [] := by
    rw [hqueue]
    exact around.idle
  have hsize : endpt.rdbuffer.nbytes = 1024 := congrArg McBuffer.nbytes hbuffer
  obtain ⟨hframe, hheard⟩ := recvLoop_heard hq hidle (by rw [hsize]; decide) hloop
  refine ⟨rfl, rfl, ⟨ok, haddr⟩, ⟨list, suffix, data, err, huri, ?_, hid, hdata⟩, ?_,
    hheard.congr hsize⟩
  · exact hframe.trace.trans htrace
  · show endpt'.confirmq.Reps []
    rw [hframe.confirmq]
    exact hidle

/-- Run: by induction on the URIs that are left. -/
theorem getUris_fetched (hq : qsort.Stable) {arounds : Nat → Surroundings} {uris : List Arg}
    {left iuri : Nat} {fetches : List Fetch}
    (h : getUris qsort arounds port uris left iuri = .ok fetches) :
    fetches.map Fetch.uri = (uris.drop iuri).take left ∧ ∀ i fetch, fetches[i]? = some fetch →
      fetch.port = port ∧ Fetched qsort (arounds (iuri + i)) fetch := by
  induction left generalizing iuri fetches with
  | zero =>
    cases h
    exact ⟨rfl, fun i fetch hi => nomatch hi⟩
  | succ left ih =>
    obtain ⟨uri, harg, hrest⟩ := bind_eq_ok.mp h
    obtain ⟨fetch, hfetch, hrest⟩ := bind_eq_ok.mp hrest
    obtain ⟨fetches', hloop, hret⟩ := bind_eq_ok.mp hrest
    cases hret
    obtain ⟨hport, huri, hfetched⟩ := getUri_fetched hq hfetch
    obtain ⟨huris, hall⟩ := ih hloop
    constructor
    · have hget : uris[iuri]? = some uri := by
        unfold argAt at harg
        split at harg
        · next arg hget =>
          cases harg
          exact hget
        · cases harg
      obtain ⟨hlt, hget⟩ := List.getElem?_eq_some_iff.mp hget
      rw [List.drop_eq_getElem_cons hlt, List.take_succ_cons, List.map_cons, huris, huri, hget]
    · intro i fetch' hi
      cases i with
      | zero =>
        cases hi
        exact ⟨hport, hfetched⟩
      | succ i =>
        have hplace : iuri + (i + 1) = iuri + 1 + i := by omega
        rw [hplace]
        exact hall i fetch' hi

end

/-- The program, up to the first fault: the usage is printed if the option
    for the port is wrong or no URI is left; or else there is one get for
    each URI, in their order, and nothing else is sent. -/
theorem requests_in_order {qsort : Qsort McOption} {overflow : Int → Int}
    {arounds : Nat → Surroundings} {name : Arg} {args : List Arg} {result : Option (List Fetch)}
    (hq : qsort.Stable) (h : main qsort overflow arounds (name :: args) = .ok result) :
    ((result = none ↔ (portGiven overflow name args mcDefaultPort.toUInt16).1 ≠ 0 ∨
        uriArgs args = []) ∧
      ∀ fetches, result = some fetches → fetches.map Fetch.uri = uriArgs args ∧
        ∀ i fetch, fetches[i]? = some fetch →
          fetch.port = (portGiven overflow name args mcDefaultPort.toUInt16).2 ∧
          Fetched qsort (arounds i) fetch) := by
  obtain ⟨argv', hpack, htake⟩ := packargs_spec name args
  unfold main at h
  rw [getport_spec] at h
  obtain ⟨⟨err, port⟩, hport, hrest⟩ := bind_eq_ok.mp h
  rw [Except.ok.inj hport]
  obtain ⟨⟨argc, argv⟩, hpack', hrest⟩ := bind_eq_ok.mp hrest
  cases hpack.symm.trans hpack'
  have hargc : (uriArgs args).length < 1 ↔ uriArgs args = [] := by
    rw [Nat.lt_one_iff, List.length_eq_zero_iff]
  simp only [hargc] at hrest
  split at hrest
  · next husage =>
    cases hrest
    exact ⟨⟨fun _ => husage, fun _ => rfl⟩, fun _ hsome => nomatch hsome⟩
  · next husage =>
    obtain ⟨fetches, hloop, hret⟩ := bind_eq_ok.mp hrest
    cases hret
    refine ⟨⟨fun hnone => (nomatch hnone), fun hwrong => absurd hwrong husage⟩, ?_⟩
    intro fetches' hsome
    cases hsome
    obtain ⟨huris, hall⟩ := getUris_fetched hq hloop
    rw [List.drop_zero, htake] at huris
    refine ⟨huris, fun i fetch hi => ?_⟩
    have hone := hall i fetch hi
    rw [Nat.zero_add] at hone
    exact hone

theorem timeout_not_done : mnTimeout ≠ mnDone := by decide

/-- A host named h, and silence. -/
def silentAround : Surroundings :=
  ⟨localEnv, ⟨0, 0, 0, 0⟩, stillHost, fun _ => .failed mnTimeout timeout_not_done⟩

/-- The witness: coap://h -p 80 coap://h. -/
theorem requests_in_order_twice : ∃ fetches,
    main (insertion McOption) id (fun _ => silentAround) [[0x67], localUri, dashP, [0x38, 0x30],
      localUri] = .ok (some fetches) ∧ fetches.map Fetch.uri = [localUri, localUri] ∧
    ∀ (i : Nat) (fetch : Fetch), fetches[i]? = some fetch →
      fetch.port = 80 ∧ Fetched (insertion McOption) silentAround fetch := by
  obtain ⟨fetches, hrun⟩ : ∃ fetches,
      main (insertion McOption) id (fun _ => silentAround) [[0x67], localUri, dashP, [0x38, 0x30],
        localUri] = .ok (some fetches) := ⟨_, rfl⟩
  exact ⟨fetches, hrun, (requests_in_order (insertion_stable McOption) hrun).2 fetches rfl⟩

/-- A request that has been made comes back unless the first datagram that
    arrives in its three tries is not parsed, or its bytes are not all
    there, or it is an ack, of whatever message. -/
theorem getUri_returns_iff {qsort : Qsort McOption} {around : Surroundings} {port msgid : UInt16}
    {uri : Arg} {ok : Bool} {addr : SockAddr} {endpt : Endpoint} (hq : qsort.Stable)
    (haddr : mcUriToAddress around.env around.addr uri = .ok (ok, addr))
    (hget : mcEndptUdpGet qsort (uriToOptions qsort around.env) around.endpt addr 0 uri none =
      .ok (msgid, endpt))
    (hcar : ∀ i bytes source, around.arrivals i = .datagram bytes source → Carried endpt bytes) :
    (∃ fetch, getUri qsort around port uri = .ok fetch) ↔
      ∀ i, i < 3 → (∀ j, j < i → NoMessage (around.arrivals j)) → ∀ bytes source,
        around.arrivals i = .datagram bytes source →
          received endpt bytes = [] ∨ (FindsBytes endpt bytes ∧ ∃ parsed,
            parsedBy endpt bytes = some parsed ∧ ¬ parsed.IsAck) := by
  obtain ⟨_, _, _, _, _, hqueue, hbuffer, _⟩ := get_sent around.idle hget
  have hidle : endpt.confirmq.Reps [] := by
    rw [hqueue]
    exact around.idle
  have hsize : endpt.rdbuffer.nbytes = 1024 := congrArg McBuffer.nbytes hbuffer
  have hloop : (∃ fetch, getUri qsort around port uri = .ok fetch) ↔
      ∃ r, recvLoop qsort around.arrivals 3 0 endpt = .ok r := by
    unfold getUri
    rw [haddr]
    show (∃ fetch, (mcEndptUdpGet qsort (uriToOptions qsort around.env) around.endpt addr 0 uri none
      >>= _) = _) ↔ _
    rw [hget]
    constructor
    · rintro ⟨fetch, h⟩
      obtain ⟨_, hmade, hrest⟩ := bind_eq_ok.mp h
      cases hmade
      obtain ⟨r, hloop, _⟩ := bind_eq_ok.mp hrest
      exact ⟨r, hloop⟩
    · rintro ⟨r, hloop⟩
      exact ⟨_, bind_eq_ok.mpr ⟨_, rfl, bind_eq_ok.mpr ⟨r, hloop, rfl⟩⟩⟩
  rw [hloop, recvLoop_returns_iff hq hidle (by rw [hsize]; decide) hcar]
  simp only [FirstReturns, Nat.zero_add, RecvReturns, List.not_mem_nil, false_and, exists_false]

/-- The same host, and the ack of message 1. -/
def ackAround : Surroundings :=
  ⟨localEnv, ⟨0, 0, 0, 0⟩, stillHost, fun _ => .datagram [0x60, 0, 0, 1] peer⟩

theorem ackAround_carried {endpt : Endpoint} (hsize : endpt.rdbuffer.nbytes = 1024) :
    received endpt [0x60, 0, 0, 1] = [0x60, 0, 0, 1] ∧ Carried endpt [0x60, 0, 0, 1] ∧
      parsedBy endpt [0x60, 0, 0, 1] = some ⟨0x60000001, [], [], []⟩ := by
  have htaken : received endpt [0x60, 0, 0, 1] = [0x60, 0, 0, 1] := by
    rw [received, hsize]
    rfl
  refine ⟨htaken, ⟨by decide, ?_⟩, ?_⟩
  · rw [htaken]
    intro k q hreach hlt _
    have hle := hreach.le
    have hstart : 4 + tokenLengthAt (ofList [0x60, 0, 0, 1]) = 4 := by decide
    rw [hstart] at hle
    exact absurd hlt (by simp; omega)
  · rw [parsedBy, htaken]
    have hstop : AtStop (ofList [0x60, 0, 0, 1]) 4 4 := Or.inl rfl
    have hoptions : parseOptions (ofList [0x60, 0, 0, 1]) 4 0 4 = some ([], 4) :=
      parseOptions_stop hstop 0
    have hstart : 4 + tokenLengthAt (ofList [0x60, 0, 0, 1]) = 4 := by decide
    show parseMessage (ofList [0x60, 0, 0, 1]) 4 = _
    rw [parseMessage, hstart, hoptions]
    rfl

/-- The witness: the ack is received, and the program is at its end. -/
theorem getUri_returns_iff_ack :
    ¬ ∃ fetch, getUri (insertion McOption) ackAround 5683 localUri = .ok fetch := by
  have haddr : mcUriToAddress localEnv ⟨0, 0, 0, 0⟩ localUri = .ok (true, localAddr 0) := rfl
  obtain ⟨msgid, endpt, hget⟩ : ∃ msgid endpt,
      mcEndptUdpGet (insertion McOption) (uriToOptions (insertion McOption) ackAround.env)
        ackAround.endpt (localAddr 0) 0 localUri none = .ok (msgid, endpt) := ⟨_, _, rfl⟩
  obtain ⟨_, _, _, _, _, _, hbuffer, _⟩ := get_sent ackAround.idle hget
  have hsize : endpt.rdbuffer.nbytes = 1024 := congrArg McBuffer.nbytes hbuffer
  obtain ⟨htaken, hcarried, hparsed⟩ := ackAround_carried hsize
  intro hreturns
  have hcar : ∀ i bytes source, ackAround.arrivals i = .datagram bytes source →
      Carried endpt bytes := by
    intro i bytes source harrival
    cases harrival
    exact hcarried
  rcases (@getUri_returns_iff _ ackAround 5683 msgid localUri true (localAddr 0) endpt
    (insertion_stable McOption) haddr hget hcar).mp hreturns 0 (by decide)
    (fun j hj => absurd hj (Nat.not_lt_zero j)) _ _ rfl with hnil | ⟨_, parsed, hparse, hplain⟩
  · rw [htaken] at hnil
    cases hnil
  · rw [hparsed] at hparse
    cases hparse
    exact hplain rfl

end Mcget

end Mcoap
