import Mcoap.Budget
import Mcoap.BackOff
import Mcoap.Delivery

/-! # Waiting for an answer

    The loop in which a client waits for the answer to a confirmable
    message: it receives and checks the queue until it has a message or its
    result function has been called.

    * `waitRound`, `waitLoop`: the loop; its rounds are the fuel;
    * `waitRound_quiet`: what a round without a message does;
    * `waitLoop_ends`: if the clock goes on for ever, the loop comes to an
      end, whatever arrives;
    * `waitLoop_faults`: nothing faults but the receive of one of its
      rounds.

    The socket is created and bound, so that it does not block: a receive
    comes back by the time its wait is over. -/

namespace Mcoap

open ByteMem ByteProg StableSort DList Runs

/-! ## Section 1: The loop -/

/-- The call of a result function. -/
def Event.callsFn (resultfn : ResultFn) : Event → Bool
  | .called _ fn _ _ => fn == resultfn
  | _ => false

/-- `completed`, which the result function sets to 1. -/
def completed (resultfn : ResultFn) (endpt : Endpoint) : Bool :=
  endpt.trace.any (Event.callsFn resultfn)

section

variable (qsort : Qsort McOption) (resultfn : ResultFn) (arrivals : Nat → Arrival)

/-- The body of the loop. -/
def waitRound (arrival : Arrival) (endpt : Endpoint) :
    Except Fault (Option McMessage × Endpoint) := do
  let (msg, endpt) ← mcEndptUdpRecv qsort arrival endpt
  let endpt ← mcEndptUdpCheckQueues endpt
  return (msg, endpt)

/-- `while ((msg == 0) && (completed == 0))`; no value if the fuel is up. -/
def waitLoop : Nat → Nat → Option McMessage → Endpoint →
    Except Fault (Option (Option McMessage × Endpoint))
  | 0, _, msg, endpt =>
    if msg.isNone ∧ completed resultfn endpt = false then .ok none else .ok (some (msg, endpt))
  | fuel + 1, iround, msg, endpt =>
    if msg.isNone ∧ completed resultfn endpt = false then do
      let (msg, endpt) ← waitRound qsort (arrivals iround) endpt
      waitLoop fuel (iround + 1) msg endpt
    else
      .ok (some (msg, endpt))

/-- A round in which nothing arrives that is a message. -/
def quietStep (endpt : Endpoint) (iround : Nat) (endpt' : Endpoint) : Prop :=
  waitRound qsort (arrivals iround) endpt = .ok (none, endpt')

/-- A round of the loop that is not its last one. -/
def waitStep (endpt : Endpoint) (iround : Nat) (endpt' : Endpoint) : Prop :=
  completed resultfn endpt = false ∧ quietStep qsort arrivals endpt iround endpt'

end

/-! ## Section 2: A round -/

section

variable {qsort : Qsort McOption} {resultfn : ResultFn} {arrivals : Nat → Arrival}
  {arrival : Arrival} {endpt endpt' : Endpoint} {l : Nodes Pending} {msg : Option McMessage}
  {a : Addr} {v : Pending}

/-- A receive that gives null has read the clock once, and has left the
    queue alone. -/
theorem recv_none (h : mcEndptUdpRecv qsort arrival endpt = .ok (none, endpt')) :
    RecvFrame endpt endpt' ∧ endpt'.host = (mnGettime endpt.host).2 := by
  obtain ⟨⟨err, decoded, endpt1⟩, hdecode, hrest⟩ := bind_eq_ok.mp h
  cases decoded with
  | some message =>
    simp only at hrest
    split at hrest
    · obtain ⟨_, _, hret⟩ := bind_eq_ok.mp hrest
      cases hret
    · cases hrest
  | none =>
    cases hrest
    refine ⟨recvMessage_recvFrame hdecode, ?_⟩
    unfold recvMessage at hdecode
    simp only at hdecode
    split at hdecode
    · cases hdecode
      rfl
    · obtain ⟨⟨⟨decoded, _⟩, _, _⟩, _, hret⟩ := bind_eq_ok.mp hdecode
      cases decoded with
      | none => exact absurd hret (by simp)
      | some message => cases hret

/-- A round without a message is a pass over the queue, after one look at
    the clock. -/
theorem waitRound_quiet (hreps : endpt.confirmq.Reps l)
    (h : waitRound qsort arrival endpt = .ok (none, endpt')) :
    ∃ tmout, Passed endpt endpt' (checkPass l tmout (mnGettime endpt.host).2).entries
      (checkPass l tmout (mnGettime endpt.host).2).events
      (checkPass l tmout (mnGettime endpt.host).2).tmout
      (checkPass l tmout (mnGettime endpt.host).2).host := by
  obtain ⟨⟨msg, endpt1⟩, hrecv, hrest⟩ := bind_eq_ok.mp h
  obtain ⟨endpt2, hcheck, hret⟩ := bind_eq_ok.mp hrest
  cases hret
  obtain ⟨hframe, hhost⟩ := recv_none hrecv
  have hreps1 : endpt1.confirmq.Reps l := by
    rw [hframe.confirmq]
    exact hreps
  obtain ⟨endpt3, hcheck', hpassed⟩ := mcEndptUdpCheckQueues_spec hreps1
  have heq : Except.ok endpt' = Except.ok endpt3 := hcheck.symm.trans hcheck'
  cases heq
  rw [hhost] at hpassed
  refine ⟨endpt1.tmout, hpassed.reps, ?_, ?_, ?_, hpassed.tmout, hpassed.host⟩
  · rw [hpassed.brk, hframe.confirmq]
  · rw [hpassed.nextid, hframe.nextid]
  · rw [hpassed.trace, hframe.trace]

/-- Its two operations. -/
theorem waitRound_run (h : waitRound qsort arrival endpt = .ok (msg, endpt')) :
    Run (endptStep qsort) endpt [.recv arrival, .checkQueues] endpt' := by
  obtain ⟨⟨msg', endpt1⟩, hrecv, hrest⟩ := bind_eq_ok.mp h
  obtain ⟨endpt2, hcheck, hret⟩ := bind_eq_ok.mp hrest
  cases hret
  have hstep : endptStep qsort endpt (.recv arrival) endpt1 := bind_eq_ok.mpr ⟨_, hrecv, rfl⟩
  exact (Run.single hstep).snoc hcheck

/-- An entry that the pass records nothing about stays as it is. -/
theorem checkPass_stays (hmem : (a, v) ∈ l) (tmout : MnTimeout) (host : Host)
    (hnone : ∀ event ∈ (checkPass l tmout host).events, event.owner ≠ some a) :
    (a, v) ∈ (checkPass l tmout host).entries := by
  induction l generalizing tmout host with
  | nil => exact absurd hmem List.not_mem_nil
  | cons x l ih =>
    obtain ⟨b, u⟩ := x
    rcases List.mem_cons.mp hmem with heq | hmem
    · cases heq
      apply List.mem_append_left
      have hvisit : ∀ event ∈ (visitEntry a v tmout host).events, event.owner ≠ some a :=
        fun event hevent => hnone event (List.mem_append_left _ hevent)
      unfold visitEntry at hvisit ⊢
      simp only at hvisit ⊢
      split
      · next hleft =>
        rw [if_pos hleft] at hvisit
        obtain ⟨event, hevent, howner⟩ := resendEntry_events a _ tmout _
        exact absurd howner (hvisit event hevent)
      · exact List.mem_singleton_self _
    · apply List.mem_append_right
      exact ih hmem _ _ fun event hevent => hnone event (List.mem_append_right _ hevent)

/-! ## Section 3: Rounds without end -/

/-- A loop that never ends goes on with a round that gives no message. -/
theorem waitLoop_goes_on {iround : Nat}
    (h : ∀ fuel, waitLoop qsort resultfn arrivals fuel iround none endpt = .ok none) :
    completed resultfn endpt = false ∧ ∃ endpt', quietStep qsort arrivals endpt iround endpt' ∧
      ∀ fuel, waitLoop qsort resultfn arrivals fuel (iround + 1) none endpt' = .ok none := by
  have hopen : completed resultfn endpt = false := by
    by_contra hdone
    have hnow := h 0
    rw [waitLoop, if_neg fun hc => hdone hc.2] at hnow
    cases hnow
  have hround : ∀ fuel, (waitRound qsort (arrivals iround) endpt >>= fun r =>
      waitLoop qsort resultfn arrivals fuel (iround + 1) r.1 r.2) = .ok none := by
    intro fuel
    have hnext := h (fuel + 1)
    rw [waitLoop, if_pos ⟨rfl, hopen⟩] at hnext
    exact hnext
  obtain ⟨⟨msg, endpt'⟩, hstep, hzero⟩ := bind_eq_ok.mp (hround 0)
  have hrest : ∀ fuel, waitLoop qsort resultfn arrivals fuel (iround + 1) msg endpt' = .ok none := by
    intro fuel
    have hthis := hround fuel
    rw [hstep] at hthis
    exact hthis
  cases msg with
  | none => exact ⟨hopen, endpt', hstep, hrest⟩
  | some message =>
    -- the loop would have ended with this message
    have hended := hrest 0
    rw [waitLoop, if_neg fun hc => absurd hc.1 (by simp)] at hended
    cases hended

end

section

variable {qsort : Qsort McOption} {resultfn : ResultFn} {arrivals : Nat → Arrival}
  {states : Nat → Endpoint} {a : Addr} {s : Ledger}

/-- The operations of the rounds from one to another. -/
theorem rounds_run (hrounds : Infinite (quietStep qsort arrivals) states id) {n m : Nat}
    (hnm : n ≤ m) : ∃ ops, Run (endptStep qsort) (states n) ops (states m) := by
  induction m, hnm using Nat.le_induction with
  | base => exact ⟨[], Run.nil⟩
  | succ m _ ih =>
    obtain ⟨ops, hrun⟩ := ih
    exact ⟨_, hrun.append (waitRound_run (hrounds m))⟩

theorem rounds_narrated (hrounds : Infinite (quietStep qsort arrivals) states id)
    (hshows : (states 0).Shows s) (hsound : s.Sound) (ha : a < s.next) : Narrated states a := by
  constructor
  · intro n
    obtain ⟨ops, hrun⟩ := rounds_run hrounds (Nat.zero_le n)
    obtain ⟨s', hshows', hmoves⟩ := run_moves hshows hrun
    exact ⟨s', hshows', moves_sound hmoves hsound, ha.trans_le (moves_grow hmoves).2⟩
  · intro n m hnm
    obtain ⟨ops, hrun⟩ := rounds_run hrounds (Nat.zero_le n)
    obtain ⟨s1, hshows1, _⟩ := run_moves hshows hrun
    obtain ⟨ops', hrun'⟩ := rounds_run hrounds hnm
    obtain ⟨s2, hshows2, hmoves⟩ := run_moves hshows1 hrun'
    obtain ⟨events, hevents⟩ := (moves_grow hmoves).1
    rw [hshows2.trace, hshows1.trace]
    exact ⟨events, hevents⟩

/-- Every round looks at the clock. -/
theorem rounds_clock (hrounds : Infinite (quietStep qsort arrivals) states id)
    (hshows : (states 0).Shows s) (n : Nat) :
    (states n).host.clock = (states 0).host.clock ∧ n ≤ (states n).host.ticks := by
  induction n with
  | zero => exact ⟨rfl, Nat.zero_le _⟩
  | succ n ih =>
    obtain ⟨ops, hrun⟩ := rounds_run hrounds (Nat.zero_le n)
    obtain ⟨s', hshows', _⟩ := run_moves hshows hrun
    obtain ⟨tmout, hpassed⟩ := waitRound_quiet hshows'.reps (hrounds n)
    have hlater := checkPass_later s'.entries tmout (mnGettime (states n).host).2
    rw [← hpassed.host] at hlater
    have hticks : (mnGettime (states n).host).2.ticks = (states n).host.ticks + 1 := rfl
    have hcount := hlater.ticks
    exact ⟨hlater.clock.trans ih.1, by omega⟩

/-- As long as nothing is recorded about the message, its entry stays as it
    is. -/
theorem rounds_stay
    (hrounds : Infinite (quietStep qsort arrivals) states id) {n m : Nat} (hnm : n ≤ m)
    (hstill : ∀ k, n ≤ k → story a (states (k + 1)).trace = story a (states k).trace)
    {v : Pending} (hv : (states n).Queues a v) : (states m).Queues a v := by
  induction m, hnm using Nat.le_induction with
  | base => exact hv
  | succ m hnm ih =>
    obtain ⟨l, hreps, hmem⟩ := ih
    obtain ⟨tmout, hpassed⟩ := waitRound_quiet hreps (hrounds m)
    have hsame := hstill m hnm
    rw [hpassed.trace, story_append, List.append_right_eq_self] at hsame
    refine ⟨_, hpassed.reps, checkPass_stays hmem _ _ ?_⟩
    intro event hevent howner
    have hin := (mem_story howner).mpr hevent
    rw [hsame] at hin
    exact absurd hin List.not_mem_nil

/-- A round that finds the message due adds to its story. -/
theorem round_grows (h : Narrated states a)
    (hrounds : Infinite (quietStep qsort arrivals) states id) {n : Nat} {v : Pending}
    (hv : (states n).Queues a v) (hdue : Due (states n).host v) :
    story a (states (n + 1)).trace ≠ story a (states n).trace := by
  have hwait := (h.queues n hv).waiting
  obtain ⟨l, hreps, hmem⟩ := hv
  obtain ⟨tmout, hpassed⟩ := waitRound_quiet hreps (hrounds n)
  obtain ⟨event, hevent, howner⟩ :=
    checkPass_due hmem hwait (hdue.later (mnGettime_later _)) tmout
  have hin := (mem_story howner).mpr hevent
  intro hsame
  rw [hpassed.trace, story_append, List.append_right_eq_self] at hsame
  rw [hsame] at hin
  exact absurd hin List.not_mem_nil

/-- A message in the queue does not stay there without end. -/
theorem rounds_leave (h : Narrated states a)
    (hrounds : Infinite (quietStep qsort arrivals) states id) (hshows : (states 0).Shows s)
    (hclock : ∀ t, ∃ n, ∀ m, n ≤ m → t ≤ (states 0).host.clock m) :
    ∃ n, ∀ v, ¬ (states n).Queues a v := by
  -- the length of the story is the measure, as for a message nobody answers
  have hmono : ∀ n m, n ≤ m →
      (story a (states n).trace).length ≤ (story a (states m).trace).length := by
    intro n m hnm
    obtain ⟨events, hevents⟩ := h.story_grows hnm
    rw [hevents, List.length_append]
    exact Nat.le_add_right _ _
  have hbound : ∀ n, (∃ v, (states n).Queues a v) →
      (story a (states n).trace).length ≤ maxRetransmit.toNat + 1 := by
    rintro n ⟨v, hv⟩
    have hin := h.queues n hv
    rw [hin.told, opening, List.length_cons, List.length_replicate]
    exact Nat.succ_le_succ hin.le
  have hprogress : ∀ n, (∃ v, (states n).Queues a v) → ∃ m, n ≤ m ∧
      ((∃ v, (states m).Queues a v) →
        (story a (states m).trace).length < (story a (states (m + 1)).trace).length) := by
    rintro n ⟨v, hv⟩
    by_cases hstill : ∀ k, n ≤ k → story a (states (k + 1)).trace = story a (states k).trace
    -- the entry waits for the same time from now on, until it is up
    · exfalso
      obtain ⟨N, hN⟩ := hclock (v.timeout.start + v.timeout.total)
      have hstays := rounds_stay hrounds (Nat.le_max_left n N) hstill hv
      obtain ⟨hsame, hticks⟩ := rounds_clock hrounds hshows (max n N)
      have hdue : Due (states (max n N)).host v := by
        intro m hm
        rw [hsame]
        exact hN m ((Nat.le_max_right n N).trans (hticks.trans hm))
      exact round_grows h hrounds hstays hdue (hstill _ (Nat.le_max_left n N))
    · push Not at hstill
      obtain ⟨k, hnk, hchange⟩ := hstill
      refine ⟨k, hnk, fun _ => ?_⟩
      obtain ⟨events, hevents⟩ := h.story_grows (Nat.le_succ k)
      rw [hevents] at hchange ⊢
      rw [List.length_append]
      have hpos := List.length_pos_of_ne_nil (mt List.append_right_eq_self.mpr hchange)
      omega
  obtain ⟨n, hn⟩ := ends_of_progress _ _ _ hmono hbound hprogress
  exact ⟨n, fun v hv => hn ⟨v, hv⟩⟩

/-- A message that has left the queue has had its result function called. -/
theorem completed_of_left {endpt : Endpoint} (hleft : HasLeft a (story a endpt.trace))
    {msgid : UInt16} {dest : SockAddr} {data : List UInt8} (hfn : resultfn > 1)
    (hqueued : .queued a msgid dest data resultfn ∈ endpt.trace) :
    completed resultfn endpt = true := by
  obtain ⟨v, k, ending, htold, hend⟩ := hleft
  have hin := (mem_story rfl).mpr hqueued
  rw [htold] at hin
  obtain ⟨_, _, _, rfl⟩ := queued_of_opening (hend.not_queued _ _ _ _) hin
  obtain ⟨err, hcalled, _⟩ := hend.called hfn
  have hcall : Event.called a v.resultfn v.msgid err ∈ ending := by
    have hmem : Event.called a v.resultfn v.msgid err ∈ ending.filter Event.isCalled := by
      rw [hcalled]
      exact List.mem_singleton_self _
    exact (List.mem_filter.mp hmem).1
  have htrace : Event.called a v.resultfn v.msgid err ∈ endpt.trace := by
    apply (mem_story rfl).mp
    rw [htold]
    exact List.mem_append_right _ hcall
  exact List.any_eq_true.mpr ⟨_, htrace, beq_self_eq_true v.resultfn⟩

end

/-! ## Section 4: The end of the loop -/

section

variable {qsort : Qsort McOption} {resultfn : ResultFn} {arrivals : Nat → Arrival}
  {endpt endpt' : Endpoint} {msg : Option McMessage} {s : Ledger} {a : Addr} {v : Pending}

/-- Whoever waits for the answer to a message that is queued does not wait
    for ever, whatever arrives, if the clock goes on for ever. -/
theorem waitLoop_ends (hshows : endpt.Shows s) (hsound : s.Sound) (hv : (a, v) ∈ s.entries)
    (hfn : v.resultfn > 1) (hclock : ∀ t, ∃ n, ∀ m, n ≤ m → t ≤ endpt.host.clock m)
    (arrivals : Nat → Arrival) :
    ∃ fuel, waitLoop qsort v.resultfn arrivals fuel 0 none endpt ≠ .ok none := by
  by_contra hall
  push Not at hall
  obtain ⟨states, hstart, hrounds, hopen⟩ := @Infinite.exists_of_steps Endpoint Nat
    (quietStep qsort arrivals) endpt id
    (fun n t => ∀ fuel, waitLoop qsort v.resultfn arrivals fuel n none t = .ok none) hall
    fun n t h => (waitLoop_goes_on h).2
  subst hstart
  have h := rounds_narrated hrounds hshows hsound (hsound.below a (mem_addrs.mpr ⟨v, hv⟩))
  obtain ⟨n, hn⟩ := rounds_leave h hrounds hshows hclock
  -- it has left, so its result function was called
  have hqueued : queuedEvent a v ∈ (states n).trace := by
    obtain ⟨events, hevents⟩ := h.grows 0 n (Nat.zero_le n)
    rw [hevents, hshows.trace]
    exact List.mem_append_left _ (hsound.queuedEvent_mem hv)
  rcases h.told n with ⟨w, hw, _⟩ | ⟨_, hleft⟩
  · exact hn w hw
  · have hdone := completed_of_left hleft hfn hqueued
    rw [(waitLoop_goes_on (hopen n)).1] at hdone
    cases hdone

/-- A loop that ends has done nothing but receive and check. -/
theorem waitLoop_run {fuel iround : Nat} {msg' : Option McMessage}
    (h : waitLoop qsort resultfn arrivals fuel iround msg endpt = .ok (some (msg', endpt'))) :
    ∃ ops, Run (endptStep qsort) endpt ops endpt' := by
  induction fuel generalizing iround msg endpt with
  | zero =>
    rw [waitLoop] at h
    split at h
    · cases h
    · cases h
      exact ⟨[], Run.nil⟩
  | succ fuel ih =>
    rw [waitLoop] at h
    split at h
    · obtain ⟨⟨msg1, endpt1⟩, hround, hrest⟩ := bind_eq_ok.mp h
      obtain ⟨ops, hrun⟩ := ih hrest
      exact ⟨_, (waitRound_run hround).append hrun⟩
    · cases h
      exact ⟨[], Run.nil⟩

/-- A queue stays one. -/
theorem recv_reps {arrival : Arrival} {l : Nodes Pending} (hreps : endpt.confirmq.Reps l)
    (h : mcEndptUdpRecv qsort arrival endpt = .ok (msg, endpt')) :
    ∃ l', endpt'.confirmq.Reps l' := by
  have hspec := mcEndptUdpRecv_spec hreps h
  rcases hack : mcMessageIsAck msg with _ | _
  · rw [(hspec.other hack).1]
    exact ⟨l, hreps⟩
  · obtain ⟨_, xs, _, _, ys, _, _, _, _, hreps', _⟩ := hspec.ack hack
    exact ⟨xs ++ ys, hreps'⟩

/-- The loop is over as soon as it has a message or has been told. -/
theorem waitLoop_stop (h : ¬ (msg.isNone ∧ completed resultfn endpt = false)) (fuel iround : Nat) :
    waitLoop qsort resultfn arrivals fuel iround msg endpt = .ok (some (msg, endpt)) := by
  cases fuel with
  | zero => rw [waitLoop, if_neg h]
  | succ fuel => rw [waitLoop, if_neg h]

/-- Only the loop's own receive can fault, with what arrives in that round,
    after rounds in which nothing has happened that would end the loop. -/
theorem waitLoop_faults {fuel iround : Nat} {fault : Fault} {l : Nodes Pending}
    (hreps : endpt.confirmq.Reps l)
    (h : waitLoop qsort resultfn arrivals fuel iround msg endpt = .error fault) :
    ∃ k endpt', Run (waitStep qsort resultfn arrivals) endpt (List.range' iround k) endpt' ∧
      completed resultfn endpt' = false ∧
      mcEndptUdpRecv qsort (arrivals (iround + k)) endpt' = .error fault := by
  induction fuel generalizing iround msg endpt l with
  | zero =>
    rw [waitLoop] at h
    split at h
    · cases h
    · cases h
  | succ fuel ih =>
    rw [waitLoop] at h
    split at h
    · next hopen =>
      rcases hrecv : mcEndptUdpRecv qsort (arrivals iround) endpt with fault' | ⟨msg', endpt1⟩
      · rw [waitRound, hrecv] at h
        cases h
        exact ⟨0, endpt, Run.nil, hopen.2, hrecv⟩
      · obtain ⟨l1, hreps1⟩ := recv_reps hreps hrecv
        obtain ⟨endpt2, hcheck, hpassed⟩ := mcEndptUdpCheckQueues_spec hreps1
        have hround : waitRound qsort (arrivals iround) endpt = .ok (msg', endpt2) :=
          bind_eq_ok.mpr ⟨_, hrecv, bind_eq_ok.mpr ⟨_, hcheck, rfl⟩⟩
        rw [hround] at h
        have hrest : waitLoop qsort resultfn arrivals fuel (iround + 1) msg' endpt2 =
            .error fault := h
        cases msg' with
        | some message =>
          -- the loop would have ended with this message
          rw [waitLoop_stop (by simp)] at hrest
          cases hrest
        | none =>
          obtain ⟨k, endpt', hrun, hopen', hrecv'⟩ := ih hpassed.reps hrest
          refine ⟨k + 1, endpt', ?_, hopen', ?_⟩
          · rw [List.range'_succ]
            exact Run.cons ⟨hopen.2, hround⟩ hrun
          · rw [Nat.add_comm k, ← Nat.add_assoc]
            exact hrecv'
    · cases h

end

end Mcoap
