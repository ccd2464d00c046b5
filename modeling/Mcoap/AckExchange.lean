import Mcoap.Confirmation
import Mcoap.EndpointReturns

/-! # Acks between two endpoints

    What becomes of the acks that an endpoint is sent, however the network
    delays, repeats and reorders them.

    * `acked_message`: an ack is of a message that was queued, and that the
      other side has received;
    * `ack_completes`: receiving it comes back as long as that message is
      queued, and then removes the message's entry and no other;
    * `acks_once`: the acks an endpoint has received have different ids, and
      each has confirmed its own message. -/

namespace Mcoap

open ByteMem ByteProg StableSort DList Runs

/-! ## Section 1: The message that is acked -/

/-- A datagram starts with the header that is parsed. -/
theorem parsedBy_header {endpt : Endpoint} {bytes : List UInt8} {parsed : Parsed}
    (h : parsedBy endpt bytes = some parsed) : headerOf bytes = some parsed.header := by
  have hlong := parseMessage_token h
  unfold parsedBy parseMessage at h
  rw [if_neg (Nat.not_lt.mpr hlong)] at h
  obtain ⟨_, _, rfl⟩ := Option.map_eq_some_iff.mp h
  apply @headerOf_take _ endpt.rdbuffer.nbytes.toNat
  show headerOf (received endpt bytes) = some (headerAt (ofList (received endpt bytes)))
  rcases hbytes : received endpt bytes with _ | ⟨b0, _ | ⟨b1, _ | ⟨b2, _ | ⟨b3, rest⟩⟩⟩⟩
  all_goals
    rw [hbytes] at hlong
    simp only [List.length_cons, List.length_nil] at hlong
  -- the four bytes are there
  · omega
  · omega
  · omega
  · omega
  · rfl

section

variable {qsort : Qsort McOption} {mcUriToOptions : UriToOptions} {addrOf : Side → SockAddr}
  {w w' : World} {x : Side} {first n : Nat} {party : Party} {s : Ledger} {a b : Addr}
  {v : Pending} {msgid : UInt16} {dest : SockAddr} {data : List UInt8} {resultfn : ResultFn}

/-- An ack is of a message that was queued, and that the other side has
    received. -/
theorem acked_message {firsts : Side → Nat} {moves : List (Side × PartyOp)}
    (h : BothHonest addrOf firsts moves w) {owner : Option Addr} {bytes : List UInt8} {err : Int}
    {header : UInt32} (hsent : .sent owner bytes (addrOf x) err ∈ (w x.peer).endpt.trace)
    (hheader : headerOf bytes = some header) (hack : mcHeaderGetMessageType header = mcAck) :
    ∃ a resultfn, Delivered addrOf w x a (mcHeaderGetMessageId header) resultfn := by
  obtain ⟨r, hr, hcon, hid, hfrom⟩ := ((h.honest x.peer).sent_header hsent hheader).2 hack
  have hpeer := h.received x.peer r hr
  obtain ⟨owner', err', hsent'⟩ := hpeer.sent
  rw [Side.peer_peer] at hsent'
  obtain ⟨a, resultfn, hqueued⟩ :=
    ((h.honest x).sent_header hsent' hpeer.header).1 (beq_iff_eq.mp hcon).symm
  have hid' : mcHeaderGetMessageId r.message.header = mcHeaderGetMessageId header := hid
  rw [hid'] at hqueued
  exact ⟨a, resultfn, _, _, hqueued, r, hr, rfl, hcon, hid, hfrom⟩

/-- An entry that is queued is as it was put in. -/
theorem Ledger.Sound.queued_entry (h : s.Sound) (hv : (a, v) ∈ s.entries)
    (hqueued : .queued a msgid dest data resultfn ∈ s.trace) :
    msgid = v.msgid ∧ resultfn = v.resultfn := by
  have hmem := (mem_story rfl).mpr hqueued
  rw [(h.queued a v hv).told, ← List.append_nil (opening a v _)] at hmem
  obtain ⟨hid, _, _, hfn⟩ := queued_of_opening (fun _ he => absurd he List.not_mem_nil) hmem
  exact ⟨hid, hfn⟩

/-- It has not been removed. -/
theorem Ledger.Sound.not_removed (h : s.Sound) (hv : (a, v) ∈ s.entries) (remover : Remover) :
    .removed a remover ∉ s.trace := by
  intro hremoved
  have hmem := (mem_story rfl).mpr hremoved
  rw [(h.queued a v hv).told] at hmem
  exact absurd (removed_opening _ hmem) (by simp [Event.isRemoved])

/-- The entry with the id of a message is that message's. -/
theorem Honest.entry_is (h : Honest first n party) (hfew : n ≤ 65535)
    (hshows : party.endpt.Shows s) (hsound : s.Sound) (hv : (b, v) ∈ s.entries)
    (hqueued : .queued a v.msgid dest data resultfn ∈ party.endpt.trace) : b = a := by
  have hentry : queuedEvent b v ∈ party.endpt.trace := by
    rw [hshows.trace]
    exact hsound.queuedEvent_mem hv
  have heq := h.queued_unique hfew hentry hqueued rfl rfl
  simp only [queuedEvent, Event.queued.injEq] at heq
  exact heq.1

/-! ## Section 2: A receive of an ack -/

/-- The receive of an ack of the message `a`: its entry leaves the queue,
    after the call of its result function with `MN_DONE`, and no other does;
    the other side does nothing. -/
structure Completes (w w' : World) (x : Side) (l : Nodes Pending) (a : Addr) (msgid : UInt16)
    (resultfn : ResultFn) : Prop where
  entry : ∃ xs v ys, l = xs ++ (a, v) :: ys ∧ v.msgid = msgid ∧ v.resultfn = resultfn ∧
    (w' x).endpt.confirmq.Reps (xs ++ ys) ∧
    (w' x).endpt.trace = (w x).endpt.trace ++ (resultOf a v mnDone ++ [.removed a .recv])
  other : w' x.peer = w x.peer

/-- A receive, as a step. -/
theorem recv_step_iff {arrival : Arrival} : netStep qsort mcUriToOptions addrOf w (x, .recv arrival) w' ↔
    Allowed addrOf w x (.recv arrival) ∧ ∃ msg endpt',
      mcEndptUdpRecv qsort arrival (w x).endpt = .ok (msg, endpt') ∧
      w' = Function.update w x ⟨endpt', (w x).returned ++ returnedBy arrival msg⟩ := by
  constructor
  · rintro ⟨hallowed, party, hexec, rfl⟩
    obtain ⟨⟨msg, endpt'⟩, hrecv, hret⟩ := bind_eq_ok.mp hexec
    cases hret
    exact ⟨hallowed, msg, endpt', hrecv, rfl⟩
  · rintro ⟨hallowed, msg, endpt', hrecv, rfl⟩
    exact ⟨hallowed, _, bind_eq_ok.mpr ⟨_, hrecv, rfl⟩, rfl⟩

theorem Side.peer_ne (x : Side) : x.peer ≠ x := by
  cases x
  · exact (by decide)
  · exact (by decide)

/-- An ack that the other side has sent is of one message, which was queued
    and which the other side has received. To receive it comes back if and
    only if the message is still queued, and then completes the message, in
    every run in which this side has drawn no more than 65535 ids. -/
theorem ack_completes {rdsize wrsize : Side → UInt32} {host : Side → Host}
    {moves : List (Side × PartyOp)} {bytes : List UInt8} {parsed : Parsed} (hq : qsort.Stable)
    (hrun : Run (netStep qsort mcUriToOptions addrOf) (netInit rdsize wrsize host) moves w)
    (hfew : drawn x moves ≤ 65535)
    (hallowed : Allowed addrOf w x (.recv (.datagram bytes (addrOf x.peer))))
    (hcar : Carried (w x).endpt bytes) (hfinds : FindsBytes (w x).endpt bytes)
    (hparse : parsedBy (w x).endpt bytes = some parsed) (hack : parsed.IsAck) :
    ∃ l a resultfn, (w x).endpt.confirmq.Reps l ∧ Delivered addrOf w x a parsed.msgid resultfn ∧
      ((∃ w', netStep qsort mcUriToOptions addrOf w
        (x, .recv (.datagram bytes (addrOf x.peer))) w') ↔ a ∈ addrs l) ∧
      ∀ w', netStep qsort mcUriToOptions addrOf w (x, .recv (.datagram bytes (addrOf x.peer))) w' →
        Completes w w' x l a parsed.msgid resultfn := by
  have hboth := run_honest hrun
  have hhonest := hboth.honest x
  obtain ⟨s, hshows, hsound⟩ := hhonest.told
  obtain ⟨_, owner, err, hsent⟩ := id hallowed
  obtain ⟨a, resultfn, hdelivered⟩ := acked_message hboth hsent (parsedBy_header hparse) hack
  obtain ⟨dest, data, hqueued, _⟩ := id hdelivered
  -- the entry with the id of the ack is the message's
  have hentry : ∀ b v, (b, v) ∈ s.entries → v.msgid = parsed.msgid → b = a := by
    rintro b v hv hid
    rw [Parsed.msgid] at hid
    rw [← hid] at hqueued
    exact hhonest.entry_is hfew hshows hsound hv hqueued
  have hkept : ∀ v, (a, v) ∈ s.entries → v.msgid = parsed.msgid ∧ v.resultfn = resultfn := by
    intro v hv
    rw [hshows.trace] at hqueued
    obtain ⟨hid, hfn⟩ := hsound.queued_entry hv hqueued
    exact ⟨hid.symm, hfn.symm⟩
  -- a receive that comes back has found it
  have hcompletes : ∀ w', netStep qsort mcUriToOptions addrOf w
      (x, .recv (.datagram bytes (addrOf x.peer))) w' →
      Completes w w' x s.entries a parsed.msgid resultfn := by
    intro w' hstep
    obtain ⟨_, msg, endpt', hrecv, rfl⟩ := recv_step_iff.mp hstep
    rcases (recv_returns_iff hq hshows.reps hcar).mp ⟨_, hrecv⟩ with
      hempty | ⟨_, parsed', hparse', hfound⟩
    · have hlong := parseMessage_token hparse
      rw [hempty, List.length_nil] at hlong
      omega
    rw [hparse] at hparse'
    cases hparse'
    obtain ⟨message, endpt1, hrecv', hreceived⟩ :=
      @recv_received _ _ _ (addrOf x.peer) _ hq hshows.reps hcar hfinds _ hparse hfound
    rw [hrecv] at hrecv'
    cases hrecv'
    obtain ⟨xs, b, v, ys, hl, hid, _, hreps, htrace⟩ := hreceived.ack hack
    have hv : (b, v) ∈ s.entries := by
      rw [hl]
      exact List.mem_append_right _ List.mem_cons_self
    obtain rfl := hentry b v hv hid
    refine ⟨⟨xs, v, ys, hl, hid, (hkept v hv).2, ?_, ?_⟩, Function.update_of_ne x.peer_ne _ _⟩
    · rw [Function.update_self]
      exact hreps
    · rw [Function.update_self]
      exact htrace
  refine ⟨s.entries, a, resultfn, hshows.reps, hdelivered, ⟨?_, ?_⟩, hcompletes⟩
  · rintro ⟨w', hstep⟩
    obtain ⟨xs, v, ys, hl, _⟩ := (hcompletes w' hstep).entry
    rw [hl]
    exact mem_addrs.mpr ⟨v, List.mem_append_right _ List.mem_cons_self⟩
  · intro hmem
    obtain ⟨v, hv⟩ := mem_addrs.mp hmem
    obtain ⟨message, endpt', hrecv, _⟩ := @recv_received _ _ _ (addrOf x.peer) _ hq hshows.reps hcar
      hfinds _ hparse fun _ => ⟨_, hv, (hkept v hv).1⟩
    exact ⟨_, recv_step_iff.mpr ⟨hallowed, _, _, hrecv, rfl⟩⟩

/-- The ack that Bob sends for Alice's message. -/
def emptyAck : List UInt8 := [0x60, 0, 0, 1]

theorem emptyAck_stop : AtStop (ofList emptyAck) 4 4 := Or.inl rfl

theorem emptyAck_short : ShortDatagram (ofList emptyAck) 4 := by
  intro k q hreach hlt hmark
  cases hreach with
  | here p => exact absurd hlt (by decide)
  | option hlt' _ _ _ _ => exact absurd hlt' (by decide)

theorem emptyAck_parsed :
    parseMessage (ofList emptyAck) 4 = some ⟨0x60000001, [], [], []⟩ := by
  have hoptions : parseOptions (ofList emptyAck) 4 0 4 = some ([], 4) :=
    parseOptions_stop emptyAck_stop 0
  have hstart : 4 + tokenLengthAt (ofList emptyAck) = 4 := by decide
  rw [parseMessage, hstart, hoptions]
  rfl

/-- What Alice's endpoint is like after its send. -/
theorem alice_waits : ∃ party,
    pingOp.exec (insertion McOption) peerUriToOptions (twoFresh .alice) = .ok party ∧
    received party.endpt emptyAck = emptyAck ∧ party.endpt.rdbuffer.nbytes = 64 :=
  ⟨_, rfl, rfl, rfl⟩

/-- Alice sends, Bob receives and acks, and Alice can receive the ack. -/
theorem ping_exchange : ∃ moves w w',
    Run (netStep (insertion McOption) peerUriToOptions twoPorts) twoFresh moves w ∧
    drawn .alice moves ≤ 65535 ∧
    netStep (insertion McOption) peerUriToOptions twoPorts w
      (.alice, .recv (.datagram emptyAck (twoPorts .bob))) w' ∧
    received (w .alice).endpt emptyAck = emptyAck ∧ (w .alice).endpt.rdbuffer.nbytes = 64 := by
  obtain ⟨a1, a2, hsend, hsent, hrecv, _⟩ := alice_acked
  obtain ⟨b1, b2, message, hrecv', hreturned, hcon, hfrom, hack, hsent'⟩ := bob_acks
  obtain ⟨a1', hsend', htaken, hsize⟩ := alice_waits
  rw [hsend] at hsend'
  cases hsend'
  have h1 : netStep (insertion McOption) peerUriToOptions twoPorts twoFresh (.alice, pingOp)
      (Function.update twoFresh .alice a1) := ⟨trivial, a1, hsend, rfl⟩
  have h2 : netStep (insertion McOption) peerUriToOptions twoPorts
      (Function.update twoFresh .alice a1)
      (.bob, .recv (.datagram [0x40, 0, 0, 1] (twoPorts .alice)))
      (Function.update (Function.update twoFresh .alice a1) .bob b1) :=
    ⟨⟨rfl, _, _, hsent⟩, b1, hrecv', rfl⟩
  have h3 : netStep (insertion McOption) peerUriToOptions twoPorts
      (Function.update (Function.update twoFresh .alice a1) .bob b1)
      (.bob, .ack message (twoPorts .alice) ⟨0, fun _ => 0⟩)
      (Function.update (Function.update (Function.update twoFresh .alice a1) .bob b1) .bob b2) :=
    ⟨⟨hreturned, hcon, hfrom⟩, b2, hack, rfl⟩
  exact ⟨_, _, _, ((Run.single h1).snoc h2).snoc h3, (by decide : (1 : Nat) ≤ 65535),
    ⟨⟨rfl, _, _, hsent'⟩, a2, hrecv, rfl⟩, htaken, hsize⟩

/-- The witness: the ack of that message. -/
theorem ack_completes_ping : ∃ moves w w',
    Run (netStep (insertion McOption) peerUriToOptions twoPorts) twoFresh moves w ∧
    netStep (insertion McOption) peerUriToOptions twoPorts w
      (.alice, .recv (.datagram emptyAck (twoPorts .bob))) w' ∧
    ∃ l a resultfn, (w .alice).endpt.confirmq.Reps l ∧ a ∈ addrs l ∧
      Delivered twoPorts w .alice a 1 resultfn ∧ Completes w w' .alice l a 1 resultfn := by
  obtain ⟨moves, w, w', hrun, hfew, hstep, htaken, hsize⟩ := ping_exchange
  have hcar : Carried (w .alice).endpt emptyAck := by
    refine ⟨by decide, ?_⟩
    rw [htaken]
    exact emptyAck_short
  have hfinds : FindsBytes (w .alice).endpt emptyAck := by
    rw [FindsBytes, htaken, hsize]
    exact not_runsOut (by decide)
  have hparse : parsedBy (w .alice).endpt emptyAck = some ⟨0x60000001, [], [], []⟩ := by
    rw [parsedBy, htaken]
    exact emptyAck_parsed
  have hack : Parsed.IsAck ⟨0x60000001, [], [], []⟩ := by
    rw [Parsed.IsAck]
    decide
  obtain ⟨l, a, resultfn, hreps, hdelivered, hiff, hcompletes⟩ := ack_completes
    (insertion_stable McOption) hrun hfew hstep.1 hcar hfinds hparse hack
  exact ⟨moves, w, w', hrun, hstep, l, a, resultfn, hreps, hiff.mp ⟨w', hstep⟩, hdelivered,
    hcompletes w' hstep⟩

/-! ## Section 3: Every ack once -/

def Returned.isAck (r : Returned) : Bool := mcMessageIsAck (some r.message)

/-- The ids of the acks that were received. -/
def ackIds (returned : List Returned) : List UInt16 :=
  (returned.filter Returned.isAck).map fun r => mcMessageGetMessageId r.message

theorem ackIds_append (rs rs' : List Returned) : ackIds (rs ++ rs') = ackIds rs ++ ackIds rs' := by
  rw [ackIds, List.filter_append, List.map_append]
  rfl

theorem ackIds_ack {r : Returned} (h : r.isAck = true) :
    ackIds [r] = [mcMessageGetMessageId r.message] := by
  rw [ackIds, List.filter_cons_of_pos h]
  rfl

/-- What is no ack adds no id. -/
theorem ackIds_returnedBy (arrival : Arrival) {msg : Option McMessage}
    (h : mcMessageIsAck msg = false) : ackIds (returnedBy arrival msg) = [] := by
  cases arrival with
  | failed err hne => rfl
  | datagram bytes source =>
    cases msg with
    | none => rfl
    | some message =>
      have hother : ¬ Returned.isAck ⟨bytes, message⟩ = true := by
        rw [Returned.isAck, h]
        exact Bool.false_ne_true
      rw [returnedBy, ackIds, List.filter_cons_of_neg hother]
      rfl

/-- The message with this id was queued, and an ack has removed it, after
    its result function was told. -/
def TakenOff (trace : List Event) (a : Addr) (msgid : UInt16) (resultfn : ResultFn) : Prop :=
  (∃ dest data, .queued a msgid dest data resultfn ∈ trace) ∧ .removed a .recv ∈ trace ∧
    (resultfn > 1 → .called a resultfn msgid mnDone ∈ trace)

theorem TakenOff.append {trace : List Event} (h : TakenOff trace a msgid resultfn)
    (events : List Event) : TakenOff (trace ++ events) a msgid resultfn := by
  obtain ⟨⟨dest, data, hqueued⟩, hremoved, hcalled⟩ := h
  exact ⟨⟨dest, data, List.mem_append_left _ hqueued⟩, List.mem_append_left _ hremoved,
    fun hfn => List.mem_append_left _ (hcalled hfn)⟩

/-- The acks that were received have different ids, and have taken their
    messages off the queue. -/
structure AcksTaken (party : Party) : Prop where
  nodup : (ackIds party.returned).Nodup
  taken : ∀ msgid ∈ ackIds party.returned, ∃ a resultfn,
    TakenOff party.endpt.trace a msgid resultfn

/-- No ack is received. -/
theorem AcksTaken.quiet {party' : Party} (h : AcksTaken party)
    (hids : ackIds party'.returned = ackIds party.returned) {events : List Event}
    (htrace : party'.endpt.trace = party.endpt.trace ++ events) : AcksTaken party' := by
  constructor
  · rw [hids]
    exact h.nodup
  · intro msgid hmem
    rw [hids] at hmem
    obtain ⟨a, resultfn, htaken⟩ := h.taken msgid hmem
    rw [htrace]
    exact ⟨a, resultfn, htaken.append events⟩

/-- An ack is received: it is of a message whose entry was still there. -/
theorem AcksTaken.recv {endpt' : Endpoint} {bytes : List UInt8} {source : SockAddr}
    {message : McMessage} (h : AcksTaken party) (hhonest : Honest first n party)
    (hfew : n ≤ 65535)
    (hrecv : mcEndptUdpRecv qsort (.datagram bytes source) party.endpt = .ok (some message, endpt'))
    (hack : mcMessageIsAck (some message) = true) :
    AcksTaken ⟨endpt', party.returned ++ [⟨bytes, message⟩]⟩ := by
  obtain ⟨s, hshows, hsound⟩ := hhonest.told
  obtain ⟨_, xs, b, v, ys, heq, hl, hid, _, _, htrace⟩ :=
    (mcEndptUdpRecv_spec hshows.reps hrecv).ack hack
  cases heq
  have hv : (b, v) ∈ s.entries := by
    rw [hl]
    exact List.mem_append_right _ List.mem_cons_self
  have hnew : ackIds [⟨bytes, message⟩] = [v.msgid] := by
    rw [hid]
    exact ackIds_ack hack
  constructor
  · rw [ackIds_append, hnew, List.nodup_append]
    refine ⟨h.nodup, List.nodup_singleton _, ?_⟩
    intro msgid hmem msgid' hmem' heq
    rw [List.mem_singleton.mp hmem'] at heq
    subst heq
    -- the older ack would have removed this entry
    obtain ⟨a, resultfn, ⟨dest, data, hqueued⟩, hremoved, _⟩ := h.taken _ hmem
    obtain rfl := hhonest.entry_is hfew hshows hsound hv hqueued
    rw [hshows.trace] at hremoved
    exact hsound.not_removed hv _ hremoved
  · intro msgid hmem
    rw [ackIds_append, hnew] at hmem
    rw [htrace]
    rcases List.mem_append.mp hmem with hmem | hmem
    · obtain ⟨a, resultfn, htaken⟩ := h.taken msgid hmem
      exact ⟨a, resultfn, htaken.append _⟩
    · rw [List.mem_singleton.mp hmem]
      have hqueued : queuedEvent b v ∈ party.endpt.trace := by
        rw [hshows.trace]
        exact hsound.queuedEvent_mem hv
      refine ⟨b, v.resultfn, ⟨_, _, List.mem_append_left _ hqueued⟩, ?_, fun hfn => ?_⟩
      · exact List.mem_append_right _ (List.mem_append_right _ List.mem_cons_self)
      · rw [resultOf, if_pos hfn]
        exact List.mem_append_right _ List.mem_cons_self

/-- Step: every ack is received once. -/
theorem AcksTaken.step {firsts : Side → Nat} {moves : List (Side × PartyOp)}
    {move : Side × PartyOp} (h : AcksTaken (w x)) (hboth : BothHonest addrOf firsts moves w)
    (hfew : drawn x moves ≤ 65535) (hstep : netStep qsort mcUriToOptions addrOf w move w') :
    AcksTaken (w' x) := by
  obtain ⟨y, op⟩ := move
  obtain ⟨hallowed, party, hexec, rfl⟩ := hstep
  by_cases hy : x = y
  · subst hy
    rw [Function.update_self]
    obtain ⟨s, hshows, _⟩ := (hboth.honest x).told
    obtain ⟨events, htrace, _⟩ := exec_records hshows.reps hallowed hexec
    rcases exec_cases hallowed hexec with ⟨_, _, _, _, _, endpt', rfl, _⟩ |
      ⟨arrival, msg, endpt', rfl, rfl, hrecv⟩ | ⟨endpt', rfl, rfl, _⟩
    · exact h.quiet rfl htrace
    · rcases hack : mcMessageIsAck msg with _ | _
      · refine h.quiet ?_ htrace
        rw [ackIds_append, ackIds_returnedBy arrival hack, List.append_nil]
      -- only a datagram is an ack
      · cases arrival with
        | failed err hne =>
          rw [mcEndptUdpRecv_failed hrecv] at hack
          exact absurd hack (by simp [mcMessageIsAck])
        | datagram bytes source =>
          cases msg with
          | none => exact absurd hack (by simp [mcMessageIsAck])
          | some message => exact h.recv (hboth.honest x) hfew hrecv hack
    · exact h.quiet rfl htrace
  · rw [Function.update_of_ne hy]
    exact h

end

theorem drawn_le (x : Side) (moves : List (Side × PartyOp)) (move : Side × PartyOp) :
    drawn x moves ≤ drawn x (moves ++ [move]) := by
  rw [drawn_snoc]
  exact Nat.le_add_right _ _

/-- Run: in every state that is reached. -/
theorem run_acksTaken {qsort : Qsort McOption} {mcUriToOptions : UriToOptions}
    {addrOf : Side → SockAddr} {rdsize wrsize : Side → UInt32} {host : Side → Host}
    {moves : List (Side × PartyOp)} {w : World} {x : Side}
    (hrun : Run (netStep qsort mcUriToOptions addrOf) (netInit rdsize wrsize host) moves w)
    (hfew : drawn x moves ≤ 65535) : AcksTaken (w x) := by
  induction hrun with
  | nil => exact ⟨List.nodup_nil, fun msgid hmem => absurd hmem List.not_mem_nil⟩
  | snoc hrun hstep ih =>
    have hbefore := (drawn_le x _ _).trans hfew
    exact (ih hbefore).step (run_honest hrun) hbefore hstep

/-- In every run in which an endpoint has drawn no more than 65535 ids, the
    acks that it has received have pairwise different ids, however often the
    network repeats them; and each is of a message that the other side has
    received, whose result function has been called with `MN_DONE`, and
    which has left the queue. -/
theorem acks_once {qsort : Qsort McOption} {mcUriToOptions : UriToOptions}
    {addrOf : Side → SockAddr} {rdsize wrsize : Side → UInt32} {host : Side → Host}
    {moves : List (Side × PartyOp)} {w : World} {x : Side}
    (hrun : Run (netStep qsort mcUriToOptions addrOf) (netInit rdsize wrsize host) moves w)
    (hfew : drawn x moves ≤ 65535) :
    (ackIds (w x).returned).Nodup ∧
      ∀ r ∈ (w x).returned, r.isAck = true → ∃ a resultfn,
        Delivered addrOf w x a (mcMessageGetMessageId r.message) resultfn ∧
        TakenOff (w x).endpt.trace a (mcMessageGetMessageId r.message) resultfn := by
  have hboth := run_honest hrun
  obtain ⟨hnodup, htaken⟩ := run_acksTaken hrun hfew
  refine ⟨hnodup, ?_⟩
  intro r hr hack
  obtain ⟨_, hheader, owner, err, hsent⟩ := hboth.received x r hr
  obtain ⟨a, resultfn, hdelivered⟩ := acked_message hboth hsent hheader (beq_iff_eq.mp hack).symm
  obtain ⟨b, resultfn', htakenoff⟩ := htaken (mcMessageGetMessageId r.message)
    (List.mem_map.mpr ⟨r, List.mem_filter.mpr ⟨hr, hack⟩, rfl⟩)
  -- they are one message
  obtain ⟨dest, data, hqueued, hreturned⟩ := hdelivered
  obtain ⟨⟨dest', data', hqueued'⟩, hremoved⟩ := htakenoff
  have heq := (hboth.honest x).queued_unique hfew hqueued hqueued' rfl rfl
  simp only [Event.queued.injEq] at heq
  obtain ⟨rfl, _, _, _, rfl⟩ := heq
  exact ⟨a, resultfn, ⟨dest, data, hqueued, hreturned⟩, ⟨⟨dest', data', hqueued'⟩, hremoved⟩⟩

/-- The witness: Alice has received the ack. -/
theorem acks_once_ping : ∃ moves w,
    Run (netStep (insertion McOption) peerUriToOptions twoPorts) twoFresh moves w ∧
    (ackIds (w .alice).returned).Nodup ∧
      ∀ r ∈ (w .alice).returned, r.isAck = true → ∃ a resultfn,
        Delivered twoPorts w .alice a (mcMessageGetMessageId r.message) resultfn ∧
        TakenOff (w .alice).endpt.trace a (mcMessageGetMessageId r.message) resultfn := by
  obtain ⟨moves, w, w', hrun, hfew, hstep, _⟩ := ping_exchange
  have hfew' : drawn .alice (moves ++ [(.alice, .recv (.datagram emptyAck (twoPorts .bob)))]) ≤
      65535 := by
    rw [drawn_snoc]
    exact hfew
  exact ⟨_, w', hrun.snoc hstep, acks_once (hrun.snoc hstep) hfew'⟩

end Mcoap
