import Mathlib.Tactic.Linarith
import Mcoap.Ledger

/-! # The retransmission budget

    How often a confirmable message is sent when nobody answers.

    * `Unanswered`: a run without end in which the socket takes everything,
      no ack removes the message, and the queue is checked again and again
      after its timeout;
    * `checkPass_due`: a pass does something about every entry that is due;
    * `budget_one_short`: the message is sent four times in all, three
      times after the first, before its result function is called;
    * `pinged_unanswered`: such a run. -/

namespace Mcoap

open ByteMem ByteProg StableSort DList Runs Relation

/-! ## Section 1: Entries that are due -/

/-- The time of the entry is up, whenever the clock is read from now on. -/
def Due (host : Host) (v : Pending) : Prop :=
  ∀ n, host.ticks ≤ n → v.timeout.start + v.timeout.total ≤ host.clock n

/-- The host has only been used. -/
structure Later (host host' : Host) : Prop where
  clock : host'.clock = host.clock
  ticks : host.ticks ≤ host'.ticks

theorem Later.refl (host : Host) : Later host host := ⟨rfl, Nat.le_refl _⟩

theorem Later.trans {host host' host'' : Host} (h : Later host host') (h' : Later host' host'') :
    Later host host'' := ⟨h'.clock.trans h.clock, h.ticks.trans h'.ticks⟩

theorem Due.later {host host' : Host} {v : Pending} (h : Due host v) (hlater : Later host host') :
    Due host' v := by
  intro n hn
  rw [hlater.clock]
  exact h n (hlater.ticks.trans hn)

theorem mnGettime_later (host : Host) : Later host (mnGettime host).2 := ⟨rfl, Nat.le_succ _⟩

theorem mnTimeoutMarkstart_later (tout : MnTimeout) (host : Host) :
    Later host (mnTimeoutMarkstart tout host).2 := mnGettime_later host

theorem mnTimeoutGet_later (tout : MnTimeout) (host : Host) :
    Later host (mnTimeoutGet tout host).2 := by
  unfold mnTimeoutGet
  split
  · exact Later.refl host
  · split
    · exact mnGettime_later host
    · split
      · exact Later.refl host
      · exact mnGettime_later host

theorem mnSocketSendto_later (count : Nat) (host : Host) :
    Later host (mnSocketSendto count host).2 := ⟨rfl, Nat.le_refl _⟩

theorem resendEntry_later (a : Addr) (v : Pending) (tmout : MnTimeout) (host : Host) :
    Later host (resendEntry a v tmout host).host := by
  have hsent := (mnTimeoutMarkstart_later tmout host).trans
    (mnSocketSendto_later v.msg.toList.length (mnTimeoutMarkstart tmout host).2)
  unfold resendEntry
  split
  · exact Later.refl host
  · simp only
    split
    · exact hsent
    · exact hsent

theorem visitEntry_later (a : Addr) (v : Pending) (tmout : MnTimeout) (host : Host) :
    Later host (visitEntry a v tmout host).host := by
  unfold visitEntry
  simp only
  split
  · exact ((mnTimeoutGet_later _ _).trans (mnTimeoutMarkstart_later _ _)).trans
      (resendEntry_later _ _ _ _)
  · exact mnTimeoutGet_later _ _

theorem checkPass_later (l : Nodes Pending) (tmout : MnTimeout) (host : Host) :
    Later host (checkPass l tmout host).host := by
  induction l generalizing tmout host with
  | nil => exact Later.refl host
  | cons x l ih => exact (visitEntry_later _ _ _ _).trans (ih _ _)

/-- A due entry has no time left. -/
theorem mnTimeoutGet_due {host : Host} {v : Pending} (hwait : Waiting v) (hdue : Due host v) :
    (mnTimeoutGet v.timeout host).1 = 0 := by
  have hup := hdue host.ticks (Nat.le_refl _)
  have hblock : v.timeout.block < 0 := by
    rw [hwait.block]
    norm_num
  unfold mnTimeoutGet
  rw [if_neg fun h => absurd hwait.total (not_le.mpr h.2), if_pos hblock]
  show (if v.timeout.total - host.clock host.ticks + v.timeout.start > 0 then _ else (0 : ℚ)) = 0
  -- the difference is not positive, so the source rounds it up to 0
  rw [if_neg]
  linarith

theorem resendEntry_events (a : Addr) (v : Pending) (tmout : MnTimeout) (host : Host) :
    ∃ event ∈ (resendEntry a v tmout host).events, event.owner = some a := by
  unfold resendEntry
  split
  · exact ⟨.removed a .checkQueues, by simp, rfl⟩
  · simp only
    split
    · exact ⟨_, List.mem_cons_self, rfl⟩
    · exact ⟨_, List.mem_cons_self, rfl⟩

/-- A pass does something about every entry that is due. -/
theorem checkPass_due {l : Nodes Pending} {a : Addr} {v : Pending} (hmem : (a, v) ∈ l)
    (hwait : Waiting v) {host : Host} (hdue : Due host v) (tmout : MnTimeout) :
    ∃ event ∈ (checkPass l tmout host).events, event.owner = some a := by
  induction l generalizing host tmout with
  | nil => exact absurd hmem List.not_mem_nil
  | cons x l ih =>
    obtain ⟨b, w⟩ := x
    rcases List.mem_cons.mp hmem with heq | hmem
    -- the entry itself
    · cases heq
      have hleft := mnTimeoutGet_due hwait hdue
      have hvisit : ∃ event ∈ (visitEntry a v tmout host).events, event.owner = some a := by
        unfold visitEntry
        simp only [hleft, if_true]
        exact resendEntry_events a _ _ _
      obtain ⟨event, hevent, howner⟩ := hvisit
      exact ⟨event, List.mem_append_left _ hevent, howner⟩
    -- one before it: the host is used, but the time stays up
    · obtain ⟨event, hevent, howner⟩ := ih hmem (hdue.later (visitEntry_later b w tmout host))
        (visitEntry b w tmout host).tmout
      exact ⟨event, List.mem_append_right _ hevent, howner⟩

/-! ## Section 2: Nobody answers -/

/-- The entry is in the confirm queue. -/
def Endpoint.Queues (endpt : Endpoint) (a : Addr) (v : Pending) : Prop :=
  ∃ l, endpt.confirmq.Reps l ∧ (a, v) ∈ l

/-- A run without end in which nobody answers the message `a`. -/
structure Unanswered (qsort : Qsort McOption) (states : Nat → Endpoint)
    (ops : Nat → EndpointOp) (a : Addr) : Prop where
  run    : Infinite (endptStep qsort) states ops
  /-- every datagram is sent -/
  sends  : ∀ n owner data dest err, .sent owner data dest err ∈ (states n).trace → err = mnDone
  /-- no ack removes the message -/
  noAck  : ∀ n, .removed a .recv ∉ (states n).trace
  /-- as long as it is queued, the queue is checked again when its time is up -/
  checks : ∀ n v, (states n).Queues a v → ∃ m, n ≤ m ∧ ops m = .checkQueues ∧
    ∀ w, (states m).Queues a w → Due (states m).host w

/-- The message is retransmitted `MAX_RETRANSMIT` times after its first
    transmission, and its result function is called once, with `MN_TIMEOUT`. -/
def FullBudget (trace : List Event) (a : Addr) (msgid : UInt16) (resultfn : ResultFn) : Prop :=
  ((story a trace).filter Event.isSent).length = 1 + maxRetransmit.toNat ∧
    (story a trace).filter Event.isCalled = [.called a resultfn msgid mnTimeout]

/-- One retransmission less. -/
def OneShort (trace : List Event) (a : Addr) (msgid : UInt16) (resultfn : ResultFn) : Prop :=
  ((story a trace).filter Event.isSent).length = maxRetransmit.toNat ∧
    (story a trace).filter Event.isCalled = [.called a resultfn msgid mnTimeout]

section

variable {trace : List Event} {a : Addr} {v : Pending} {msgid : UInt16} {dest : SockAddr}
  {data : List UInt8} {resultfn : ResultFn}

/-- If every datagram is sent and no ack removes the message, only one end
    of its story is left. -/
theorem HasLeft.only_exhausted (h : HasLeft a (story a trace))
    (hsends : ∀ owner data dest err, .sent owner data dest err ∈ trace → err = mnDone)
    (hnoAck : .removed a .recv ∉ trace) :
    ∃ v, story a trace = opening a v maxRetransmit.toNat ++
      (resultOf a v mnTimeout ++ [.removed a .checkQueues]) := by
  obtain ⟨v, k, ending, htold, hend⟩ := h
  have hin : ∀ event ∈ ending, event ∈ trace := by
    intro event hevent
    have hmem : event ∈ story a trace := by
      rw [htold]
      exact List.mem_append_right _ hevent
    exact (mem_story (hend.ownedBy event hevent)).mp hmem
  -- the other two ends leave an event behind that is excluded
  cases hend with
  | acked _ _ => exact absurd (hin _ (by simp)) hnoAck
  | exhausted => exact ⟨v, htold⟩
  | failed _ herr _ => exact absurd (hsends _ _ _ _ (hin _ List.mem_cons_self)) herr

theorem oneShort_of_exhausted
    (htold : story a trace = opening a v maxRetransmit.toNat ++
      (resultOf a v mnTimeout ++ [.removed a .checkQueues]))
    (hqueued : .queued a msgid dest data resultfn ∈ trace) (hfn : resultfn > 1) :
    OneShort trace a msgid resultfn := by
  have hq : .queued a msgid dest data resultfn ∈ story a trace := (mem_story rfl).mpr hqueued
  have hend : Ending a v maxRetransmit.toNat _ := Ending.exhausted
  rw [htold] at hq
  obtain ⟨rfl, _, _, rfl⟩ := queued_of_opening (hend.not_queued _ _ _ _) hq
  constructor
  · rw [htold, List.filter_append, sent_opening, sent_removed, List.append_nil,
      List.length_replicate]
  · rw [htold, List.filter_append, called_opening, called_result hfn]
    rfl

/-- A message that is still queued has not had its result function called. -/
theorem not_fullBudget_of_inQueue (h : InQueue a v (story a trace)) :
    ¬ FullBudget trace a msgid resultfn := by
  intro ⟨_, hcalled⟩
  rw [h.told, called_opening] at hcalled
  exact absurd hcalled (by simp)

theorem not_fullBudget_of_oneShort (h : OneShort trace a msgid resultfn) :
    ¬ FullBudget trace a msgid resultfn := by
  intro ⟨hsent, _⟩
  rw [h.1] at hsent
  exact absurd hsent (by decide)

end

/-! ## Section 3: Every such run -/

/-- The states of a run without end: each is reachable, and the traces grow. -/
structure Narrated (states : Nat → Endpoint) (a : Addr) : Prop where
  shows : ∀ n, ∃ s, (states n).Shows s ∧ s.Sound ∧ a < s.next
  grows : ∀ n m, n ≤ m → ∃ events, (states m).trace = (states n).trace ++ events

theorem infinite_narrated {qsort : Qsort McOption} {states : Nat → Endpoint}
    {ops : Nat → EndpointOp} (hrun : Infinite (endptStep qsort) states ops) {s : Ledger} {a : Addr}
    (hshows : (states 0).Shows s) (hsound : s.Sound) (ha : a < s.next) : Narrated states a := by
  have hall : ∀ n, ∃ s, (states n).Shows s ∧ s.Sound ∧ a < s.next := by
    intro n
    have hpiece := hrun.run 0 n
    rw [Nat.zero_add] at hpiece
    obtain ⟨s', hshows', hmoves⟩ := run_moves hshows hpiece
    exact ⟨s', hshows', moves_sound hmoves hsound, ha.trans_le (moves_grow hmoves).2⟩
  refine ⟨hall, ?_⟩
  intro n m hnm
  obtain ⟨k, rfl⟩ := Nat.exists_eq_add_of_le hnm
  obtain ⟨s1, hshows1, _, _⟩ := hall n
  obtain ⟨s2, hshows2, hmoves⟩ := run_moves hshows1 (hrun.run n k)
  obtain ⟨events, hevents⟩ := (moves_grow hmoves).1
  rw [hshows2.trace, hshows1.trace]
  exact ⟨events, hevents⟩

section

variable {states : Nat → Endpoint} {a : Addr}

/-- A message is queued, or its story has ended. -/
theorem Narrated.told (h : Narrated states a) (n : Nat) :
    (∃ v, (states n).Queues a v ∧ InQueue a v (story a (states n).trace)) ∨
      ((∀ v, ¬ (states n).Queues a v) ∧ HasLeft a (story a (states n).trace)) := by
  obtain ⟨s, hshows, hsound, ha⟩ := h.shows n
  rw [hshows.trace]
  rcases hsound.told ha with ⟨v, hv, hin⟩ | ⟨hout, hleft⟩
  · exact Or.inl ⟨v, ⟨s.entries, hshows.reps, hv⟩, hin⟩
  · right
    refine ⟨?_, hleft⟩
    intro v ⟨l, hreps, hv⟩
    rw [hreps.unique hshows.reps] at hv
    exact hout (mem_addrs.mpr ⟨v, hv⟩)

theorem Narrated.queues (h : Narrated states a) (n : Nat) {v : Pending} (hv : (states n).Queues a v) :
    InQueue a v (story a (states n).trace) := by
  obtain ⟨s, hshows, hsound, _⟩ := h.shows n
  obtain ⟨l, hreps, hmem⟩ := hv
  rw [hreps.unique hshows.reps] at hmem
  rw [hshows.trace]
  exact hsound.queued a v hmem

theorem Narrated.story_grows (h : Narrated states a) {n m : Nat} (hnm : n ≤ m) :
    ∃ events, story a (states m).trace = story a (states n).trace ++ story a events := by
  obtain ⟨events, hevents⟩ := h.grows n m hnm
  exact ⟨events, by rw [hevents, story_append]⟩

/-- What has left does not come back. -/
theorem Narrated.stays_out (h : Narrated states a) {n m : Nat} (hnm : n ≤ m)
    (hout : ∀ v, ¬ (states n).Queues a v) (v : Pending) : ¬ (states m).Queues a v := by
  intro hv
  rcases h.told n with ⟨w, hw, _⟩ | ⟨_, w, k, ending, htold, hend⟩
  · exact hout w hw
  · obtain ⟨init, remover, hlast, _⟩ := hend.last
    obtain ⟨events, hevents⟩ := h.story_grows hnm
    have hremoved : .removed a remover ∈ story a (states m).trace := by
      rw [hevents, htold, hlast]
      simp
    -- but the story of a queued entry has no removal in it
    rw [(h.queues m hv).told] at hremoved
    exact absurd (removed_opening _ hremoved) (by simp [Event.isRemoved])

/-- A check that finds the message due adds to its story. -/
theorem Narrated.check_grows (h : Narrated states a) {qsort : Qsort McOption} {n : Nat}
    (hstep : endptStep qsort (states n) .checkQueues (states (n + 1))) {v : Pending}
    (hv : (states n).Queues a v) (hdue : Due (states n).host v) :
    (story a (states n).trace).length < (story a (states (n + 1)).trace).length := by
  have hwait := (h.queues n hv).waiting
  obtain ⟨l, hreps, hmem⟩ := hv
  obtain ⟨endpt', hcheck, hpassed⟩ := mcEndptUdpCheckQueues_spec hreps
  have heq : Except.ok (states (n + 1)) = Except.ok endpt' := hstep.symm.trans hcheck
  cases heq
  obtain ⟨event, hevent, howner⟩ := checkPass_due hmem hwait hdue (states n).tmout
  have hpos := List.length_pos_of_mem ((mem_story howner).mpr hevent)
  rw [hpassed.trace, story_append, List.length_append]
  omega

/-- The message leaves the queue: it can be found due only so often. -/
theorem Unanswered.leaves (h : Narrated states a) {qsort : Qsort McOption}
    {ops : Nat → EndpointOp} (hun : Unanswered qsort states ops a) :
    ∃ n, ∀ v, ¬ (states n).Queues a v := by
  -- the length of the story is the measure: it is bounded while the
  -- message is queued, and every check that finds it due adds to it
  have hmono : ∀ n m, n ≤ m →
      (story a (states n).trace).length ≤ (story a (states m).trace).length := by
    intro n m hnm
    obtain ⟨events, hevents⟩ := h.story_grows hnm
    rw [hevents, List.length_append]
    exact Nat.le_add_right _ _
  have hbound : ∀ n, (∃ v, (states n).Queues a v) →
      (story a (states n).trace).length ≤ maxRetransmit.toNat + 1 := by
    intro n ⟨v, hv⟩
    have hin := h.queues n hv
    rw [hin.told, opening, List.length_cons, List.length_replicate]
    exact Nat.succ_le_succ hin.le
  have hprogress : ∀ n, (∃ v, (states n).Queues a v) → ∃ m, n ≤ m ∧
      ((∃ v, (states m).Queues a v) →
        (story a (states m).trace).length < (story a (states (m + 1)).trace).length) := by
    intro n ⟨v, hv⟩
    obtain ⟨m, hnm, hop, hdue⟩ := hun.checks n v hv
    refine ⟨m, hnm, ?_⟩
    intro ⟨w, hw⟩
    have hstep := hun.run m
    rw [hop] at hstep
    exact h.check_grows hstep hw (hdue w hw)
  obtain ⟨n, hn⟩ := ends_of_progress _ _ _ hmono hbound hprogress
  exact ⟨n, fun v hv => hn ⟨v, hv⟩⟩

end

/-- A confirmable message that nobody answers is transmitted four times in
    all, and then its result function is called with `MN_TIMEOUT`: at no
    point of the run has it been retransmitted `MAX_RETRANSMIT` times. -/
theorem budget_one_short {qsort : Qsort McOption} {rdsize wrsize : UInt32} {host : Host}
    {before : List EndpointOp} {endpt : Endpoint} {toaddr : SockAddr} {msg : McMessage}
    {resultfn : ResultFn} {err : Int} {states : Nat → Endpoint} {ops : Nat → EndpointOp}
    (hbefore : Run (endptStep qsort) (mcEndptUdpInit rdsize wrsize host) before endpt)
    (hcon : mcMessageIsConfirmable msg = true) (hfn : resultfn > 1)
    (hsend : mcEndptUdpSend endpt toaddr msg resultfn = .ok (err, states 0))
    (hun : Unanswered qsort states ops endpt.confirmq.brk) :
    (∃ n, ∀ m, n ≤ m →
      OneShort (states m).trace endpt.confirmq.brk (mcMessageGetMessageId msg) resultfn) ∧
    ∀ n, ¬ FullBudget (states n).trace endpt.confirmq.brk (mcMessageGetMessageId msg) resultfn := by
  obtain ⟨s, hshows, hsound⟩ := reachable_shows hbefore
  have hsends := mcEndptUdpSend_spec hshows.reps hsend
  obtain ⟨s0, hshows0, hmoves⟩ := hsends.moves hshows
  obtain ⟨data, rest, hbrk, htrace⟩ := hsends.begins hcon
  have hlt : endpt.confirmq.brk < s0.next := by
    rw [← hshows0.next, hbrk]
    exact Nat.lt_succ_self _
  have h := infinite_narrated hun.run hshows0 (moves_sound hmoves hsound) hlt
  -- the event that names the message stays in the trace
  have hqueued : ∀ n, .queued endpt.confirmq.brk (mcMessageGetMessageId msg) toaddr data
      resultfn ∈ (states n).trace := by
    intro n
    obtain ⟨events, hevents⟩ := h.grows 0 n (Nat.zero_le n)
    rw [hevents, htrace]
    simp
  have hleft : ∀ n, HasLeft endpt.confirmq.brk (story endpt.confirmq.brk (states n).trace) →
      OneShort (states n).trace endpt.confirmq.brk (mcMessageGetMessageId msg) resultfn := by
    intro n hleft
    obtain ⟨w, htold⟩ := hleft.only_exhausted (hun.sends n) (hun.noAck n)
    exact oneShort_of_exhausted htold (hqueued n) hfn
  constructor
  · obtain ⟨n, hn⟩ := hun.leaves h
    refine ⟨n, ?_⟩
    intro m hnm
    rcases h.told m with ⟨w, hw, _⟩ | ⟨_, hstory⟩
    · exact absurd hw (h.stays_out hnm hn w)
    · exact hleft m hstory
  · intro n
    rcases h.told n with ⟨w, _, hin⟩ | ⟨_, hstory⟩
    · exact not_fullBudget_of_inQueue hin
    · exact not_fullBudget_of_oneShort (hleft n hstory)

/-! ## Section 4: A run nobody answers

    The ping is sent, and the queue is checked for ever.  The fifth pass and
    all later ones find an empty queue. -/

/-- `n` passes over a list of entries, one after the other. -/
def passes (l : Nodes Pending) (tmout : MnTimeout) (host : Host) : Nat → Pass
  | 0 => ⟨l, [], tmout, host⟩
  | n + 1 =>
    let before := passes l tmout host n
    let pass := checkPass before.entries before.tmout before.host
    { pass with events := before.events ++ pass.events }

section

variable {l : Nodes Pending} {tmout : MnTimeout} {host : Host}

/-- An endpoint after `n` passes, and one more check. -/
theorem Passed.check {endpt endpt1 : Endpoint} {n : Nat}
    (h : Passed endpt endpt1 (passes l tmout host n).entries (passes l tmout host n).events
      (passes l tmout host n).tmout (passes l tmout host n).host) :
    ∃ endpt2, mcEndptUdpCheckQueues endpt1 = .ok endpt2 ∧
      Passed endpt endpt2 (passes l tmout host (n + 1)).entries
        (passes l tmout host (n + 1)).events (passes l tmout host (n + 1)).tmout
        (passes l tmout host (n + 1)).host := by
  obtain ⟨endpt2, hcheck, hpassed⟩ := mcEndptUdpCheckQueues_spec h.reps
  rw [h.tmout, h.host] at hpassed
  exact ⟨endpt2, hcheck, h.andThen hpassed⟩

/-- A pass over an empty queue changes nothing. -/
theorem passes_stay {n m : Nat} (hnone : (passes l tmout host n).entries = []) (hnm : n ≤ m) :
    passes l tmout host m = passes l tmout host n := by
  induction m, hnm using Nat.le_induction with
  | base => rfl
  | succ m _ ih =>
    have hpass : passes l tmout host (m + 1) =
        { checkPass (passes l tmout host m).entries (passes l tmout host m).tmout
            (passes l tmout host m).host with
          events := (passes l tmout host m).events ++
            (checkPass (passes l tmout host m).entries (passes l tmout host m).tmout
              (passes l tmout host m).host).events } := rfl
    rw [hpass, ih, hnone, checkPass, List.append_nil, ← hnone]

theorem passes_later (l : Nodes Pending) (tmout : MnTimeout) (host : Host) (n : Nat) :
    Later host (passes l tmout host n).host := by
  induction n with
  | zero => exact Later.refl host
  | succ n ih => exact ih.trans (checkPass_later _ _ _)

end

/-- A host that looks at its clock once in 1000 seconds. -/
def slowHost : Host := { stillHost with clock := fun n => 1000 * n }

/-- The endpoint from which the ping has been sent. -/
def pinged : Endpoint :=
  match mcEndptUdpSend (mcEndptUdpInit 64 64 slowHost) peer ping 9 with
  | .ok (_, endpt) => endpt
  | .error _ => mcEndptUdpInit 64 64 slowHost

theorem send_pinged :
    mcEndptUdpSend (mcEndptUdpInit 64 64 slowHost) peer ping 9 = .ok (mnDone, pinged) := rfl

/-- What is in its queue. -/
def pingedEntries : Nodes Pending :=
  (pinged.confirmq.cells 0).toList.map fun entry => (0, entry.val)

def pingedPasses : Nat → Pass := passes pingedEntries pinged.tmout pinged.host

theorem pinged_reps : pinged.confirmq.Reps pingedEntries := by
  have hinit := mcEndptUdpInit_shows 64 64 slowHost
  obtain ⟨v, _, hfirst⟩ := (mcEndptUdpSend_spec hinit.reps send_pinged).con rfl
  obtain ⟨hreps, _⟩ := hfirst.done rfl
  have hreps' : pinged.confirmq.Reps ([] ++ (0, { v with xmitcounter := 1 }) :: []) := hreps
  have hentries : pingedEntries = [(0, { v with xmitcounter := 1 })] := by
    unfold pingedEntries
    rw [hreps'.isList.node]
    rfl
  rw [hentries]
  exact hreps

/-- A datagram that was handed over was taken. -/
def Event.isTaken : Event → Bool
  | .sent _ _ _ err => err == mnDone
  | _ => true

theorem pingedPasses_empty : (pingedPasses 4).entries = [] :=
  List.length_eq_zero_iff.mp (by decide +kernel)

theorem pingedPasses_events : ∀ n < 5, ∀ event ∈ pinged.trace ++ (pingedPasses n).events,
    event.isTaken = true ∧ event ≠ .removed 0 .recv := by
  decide +kernel

theorem pingedPasses_sent : ∀ n < 5, ((story 0 (pinged.trace ++ (pingedPasses n).events)).filter
    Event.isSent).length ≤ 4 := by
  decide +kernel

theorem pingedPasses_start : ∀ n < 5, ∀ x ∈ (pingedPasses n).entries,
    x.2.timeout.start + x.2.timeout.total ≤ 1000 * (pingedPasses n).host.ticks := by
  decide +kernel

/-- There are only five kinds of states. -/
theorem pingedPasses_all {P : Pass → Prop} (h : ∀ n < 5, P (pingedPasses n)) (n : Nat) :
    P (pingedPasses n) := by
  rcases Nat.lt_or_ge n 5 with hlt | hge
  · exact h n hlt
  · have hstay : pingedPasses n = pingedPasses 4 := passes_stay pingedPasses_empty (by omega)
    rw [hstay]
    exact h 4 (by decide)

/-- What is queued is due at the next check. -/
theorem pingedPasses_due {n : Nat} {x : Addr × Pending} (hx : x ∈ (pingedPasses n).entries) :
    Due (pingedPasses n).host x.2 := by
  intro k hk
  have hlater := passes_later pingedEntries pinged.tmout pinged.host n
  have hclock : (pingedPasses n).host.clock k = 1000 * (k : ℚ) := congrFun hlater.clock k
  have hstart : ∀ x ∈ (pingedPasses n).entries,
      x.2.timeout.start + x.2.timeout.total ≤ 1000 * ((pingedPasses n).host.ticks : ℚ) :=
    pingedPasses_all (P := fun pass => ∀ x ∈ pass.entries,
      x.2.timeout.start + x.2.timeout.total ≤ 1000 * (pass.host.ticks : ℚ)) pingedPasses_start n
  have hup := hstart x hx
  have hcast : ((pingedPasses n).host.ticks : ℚ) ≤ (k : ℚ) := Nat.cast_le.mpr hk
  rw [hclock]
  linarith

/-- Nobody answers the ping, and it is sent no more than four times. -/
theorem pinged_unanswered : ∃ states, states 0 = pinged ∧
    Unanswered (insertion McOption) states (fun _ => .checkQueues) 0 ∧
    ∀ n, ((story 0 (states n).trace).filter Event.isSent).length ≤ 4 := by
  have hwalk : ∃ states : Nat → Endpoint, states 0 = pinged ∧
      Infinite (endptStep (insertion McOption)) states (fun _ => .checkQueues) ∧
      ∀ n, Passed pinged (states n) (pingedPasses n).entries (pingedPasses n).events
        (pingedPasses n).tmout (pingedPasses n).host :=
    Infinite.exists_of_steps (P := fun n endpt => Passed pinged endpt (pingedPasses n).entries
        (pingedPasses n).events (pingedPasses n).tmout (pingedPasses n).host)
      ⟨pinged_reps, rfl, rfl, (List.append_nil _).symm, rfl, rfl⟩
      fun _ _ hpassed => hpassed.check
  obtain ⟨states, hfirst, hrun, hpassed⟩ := hwalk
  have hevents : ∀ n, ∀ event ∈ (states n).trace,
      event.isTaken = true ∧ event ≠ .removed 0 .recv := by
    intro n
    rw [(hpassed n).trace]
    exact pingedPasses_all (P := fun pass => ∀ event ∈ pinged.trace ++ pass.events,
      event.isTaken = true ∧ event ≠ .removed 0 .recv) pingedPasses_events n
  refine ⟨states, hfirst, ⟨hrun, ?_, ?_, ?_⟩, ?_⟩
  · intro n owner data dest err hmem
    exact eq_of_beq (hevents n _ hmem).1
  · intro n hmem
    exact (hevents n _ hmem).2 rfl
  · intro n v _
    refine ⟨n, Nat.le_refl n, rfl, ?_⟩
    intro w ⟨l, hreps, hw⟩
    rw [hreps.unique (hpassed n).reps] at hw
    rw [(hpassed n).host]
    exact pingedPasses_due hw
  · intro n
    rw [(hpassed n).trace]
    exact pingedPasses_all (P := fun pass =>
      ((story 0 (pinged.trace ++ pass.events)).filter Event.isSent).length ≤ 4) pingedPasses_sent n

theorem budget_one_short_ping : ∃ states : Nat → Endpoint,
    Unanswered (insertion McOption) states (fun _ => .checkQueues) 0 ∧
    (∃ n, ∀ m, n ≤ m → OneShort (states m).trace 0 7 9) ∧
    ∀ n, ¬ FullBudget (states n).trace 0 7 9 := by
  obtain ⟨states, hfirst, hun, _⟩ := pinged_unanswered
  have hsend := send_pinged
  rw [← hfirst] at hsend
  exact ⟨states, hun, budget_one_short Run.nil rfl (by decide) hsend hun⟩

/-- Nobody answers the ping, and its fourth retransmission never comes. -/
theorem ping_not_retransmitted : ∃ states,
    mcEndptUdpSend (mcEndptUdpInit 64 64 slowHost) peer ping 9 = .ok (mnDone, states 0) ∧
    Unanswered (insertion McOption) states (fun _ => .checkQueues) 0 ∧
    ∀ n, ¬ FullBudget (states n).trace 0 7 9 := by
  obtain ⟨states, hfirst, hun, hsent⟩ := pinged_unanswered
  refine ⟨states, ?_, hun, ?_⟩
  · rw [hfirst]
    exact send_pinged
  · intro n ⟨hfull, _⟩
    have hle := hsent n
    rw [hfull] at hle
    exact absurd hle (by decide)

end Mcoap
