import Mcoap.BackOff

/-! # The transmit span

    How long a confirmable message can stay in the confirm queue.

    Nothing in the endpoint looks at the clock by itself, so the answer
    depends on how often the queue is checked.

    * `polledStep`: an operation of an endpoint whose clock never shows more
      than `δ` since the last pass over the queue began;
    * `Spanned`: what `k` retransmissions have made of an entry, and when
      the next one is due at the latest;
    * `transmit_span`: `MAX_TRANSMIT_SPAN + 4 * δ` after it was sent, a
      message has left the queue, and its result function has been called
      once. -/

namespace Mcoap

open ByteMem ByteProg StableSort DList Runs Relation

/-- ACK_TIMEOUT * ((2 ** MAX_RETRANSMIT) - 1) * ACK_RANDOM_FACTOR -/
def maxTransmitSpan : ℚ := 45

/-! ## Section 1: Polling -/

/-- The next reading of the clock. -/
def Endpoint.now (endpt : Endpoint) : ℚ := endpt.host.clock endpt.host.ticks

/-- An endpoint, and the time at which the last pass over its queue began. -/
structure Polled where
  endpt   : Endpoint
  checked : ℚ

/-- When the last pass began, after one more operation. -/
def checkedAfter (s : Polled) : EndpointOp → ℚ
  | .checkQueues => s.endpt.now
  | _ => s.checked

/-- An operation that returns within `δ` of the beginning of the last pass. -/
structure polledStep (qsort : Qsort McOption) (δ : ℚ) (s : Polled) (op : EndpointOp)
    (s' : Polled) : Prop where
  step    : endptStep qsort s.endpt op s'.endpt
  prompt  : s'.endpt.now ≤ s.checked + δ
  checked : s'.checked = checkedAfter s op

theorem polledStep.run {qsort : Qsort McOption} {δ : ℚ} {s s' : Polled} {ops : List EndpointOp}
    (h : Run (polledStep qsort δ) s ops s') : Run (endptStep qsort) s.endpt ops s'.endpt :=
  h.history (P := fun ops t => Run (endptStep qsort) s.endpt ops t.endpt) Run.nil
    fun _ _ _ _ hrun hstep => hrun.snoc hstep.step

theorem Later.monotone {host host' : Host} (h : Later host host') (hclock : Monotone host.clock) :
    Monotone host'.clock := by
  rw [h.clock]
  exact hclock

theorem Later.now_le {endpt endpt' : Endpoint} (h : Later endpt.host endpt'.host)
    (hclock : Monotone endpt.host.clock) : endpt.now ≤ endpt'.now := by
  unfold Endpoint.now
  rw [h.clock]
  exact hclock h.ticks

/-! ## Section 2: One entry -/

/-- The entry of a message that was sent at `t0` with a timeout `T0`, after
    `k` retransmissions: it was not due when the last pass began, and it is
    due before the passes that came `δ` late add up to more than `k * δ`. -/
structure Spanned (T0 t0 δ checked : ℚ) (v : Pending) (k : Nat) : Prop where
  sent    : v.xmitcounter.toNat = k + 1
  le      : k + 1 ≤ maxRetransmit.toNat
  block   : v.timeout.block = -1
  total   : v.timeout.total = T0 * 2 ^ k
  due     : v.timeout.start + v.timeout.total ≤ t0 + T0 * (2 ^ (k + 1) - 1) + k * δ
  checked : checked ≤ v.timeout.start + v.timeout.total

section

variable {T0 t0 δ checked : ℚ} {a : Addr} {u v : Pending} {k : Nat} {host reading last : Host}
  {events : List Event} {l kept : Nodes Pending}

theorem Spanned.total_nonneg (h : Spanned T0 t0 δ checked v k) (hT0 : 0 ≤ T0) :
    0 ≤ v.timeout.total := by
  rw [h.total]
  exact mul_nonneg hT0 (pow_nonneg (by norm_num) k)

/-- However long the entry has been queued, the sum of its timeouts and of
    four delays is more. -/
theorem Spanned.now_le (h : Spanned T0 t0 δ checked v k) (hT0 : 0 ≤ T0) (hδ : 0 ≤ δ) {now : ℚ}
    (hprompt : now ≤ checked + δ) : now ≤ t0 + T0 * 15 + 4 * δ := by
  have hle : k + 1 ≤ 4 := h.le
  have hpow : (2 : ℚ) ^ (k + 1) ≤ 2 ^ 4 := pow_le_pow_right₀ (by norm_num) hle
  have hk : (k : ℚ) ≤ 3 := by
    exact_mod_cast Nat.le_of_succ_le_succ hle
  calc now ≤ checked + δ := hprompt
    _ ≤ v.timeout.start + v.timeout.total + δ := add_le_add_left h.checked δ
    _ ≤ t0 + T0 * (2 ^ (k + 1) - 1) + k * δ + δ := add_le_add_left h.due δ
    _ ≤ t0 + T0 * 15 + 3 * δ + δ := by
        have htimes : T0 * (2 ^ (k + 1) - 1) ≤ T0 * 15 :=
          mul_le_mul_of_nonneg_left (by linarith) hT0
        have hdelays : k * δ ≤ 3 * δ := mul_le_mul_of_nonneg_right hk hδ
        linarith
    _ = t0 + T0 * 15 + 4 * δ := by ring

/-- A pass that leaves the entry in the queue has found it not due, or has
    sent it again. -/
theorem Spanned.visit (h : Spanned T0 t0 δ checked v k) (hT0 : 0 ≤ T0)
    (hclock : Monotone reading.clock) (hwork : EntryWork a v reading (some u) events) {now : ℚ}
    (hnow : now ≤ reading.clock reading.ticks)
    (hprompt : reading.clock (reading.ticks + 1) ≤ checked + δ) :
    ∃ k', Spanned T0 t0 δ now u k' := by
  have htotal := h.total_nonneg hT0
  cases hwork with
  | waiting hleft =>
    rw [mnTimeoutGet_total h.block htotal] at hleft
    have hwait : reading.clock reading.ticks ≤ u.timeout.start + u.timeout.total := by
      by_contra hup
      apply hleft
      simp only [gt_iff_lt]
      rw [if_neg (by linarith)]
    exact ⟨k, h.sent, h.le, h.block, h.total, h.due, hnow.trans hwait⟩
  | @due timeout host' _ _ hdue hstart hresent =>
    rw [mnTimeoutGet_total h.block htotal] at hstart
    cases hstart
    cases hresent with
    | done hlt =>
      have hcount : v.xmitcounter.toNat < maxRetransmit.toNat := hlt
      have hstep : (v.xmitcounter + 1).toNat = v.xmitcounter.toNat + 1 := succ_toNat hcount
      have hdouble : v.timeout.total * 2 = T0 * 2 ^ (k + 1) := by
        rw [h.total]
        ring
      have hstart' : now ≤ reading.clock (reading.ticks + 1) :=
        hnow.trans (hclock (Nat.le_succ _))
      refine ⟨k + 1, ?_, ?_, rfl, hdouble, ?_, ?_⟩
      · exact hstep.trans (congrArg (· + 1) h.sent)
      · rw [h.sent] at hcount
        exact hcount
      -- the new start is late by `δ` at most
      · show reading.clock (reading.ticks + 1) + v.timeout.total * 2 ≤ _
        have hlate := hprompt.trans (add_le_add_left (h.checked.trans h.due) δ)
        push_cast
        rw [hdouble]
        have hpow : T0 * (2 ^ (k + 1 + 1) - 1) =
            T0 * (2 ^ (k + 1) - 1) + T0 * 2 ^ (k + 1) := by ring
        rw [hpow]
        linarith
      · show now ≤ reading.clock (reading.ticks + 1) + v.timeout.total * 2
        linarith

theorem PassWork.later (h : PassWork host l kept events last) : Later host last := by
  induction h with
  | nil host => exact Later.refl host
  | visit hbefore _ hafter _ ih =>
    exact hbefore.trans ((mnTimeoutGet_later _ _).trans (hafter.trans ih))

/-- What the pass has done about an entry that it leaves in the queue. -/
theorem PassWork.entry (h : PassWork host l kept events last) (hu : (a, u) ∈ kept) :
    ∃ v reading work, (a, v) ∈ l ∧ Later host reading ∧
      Later (mnTimeoutGet v.timeout reading).2 last ∧ EntryWork a v reading (some u) work := by
  induction h with
  | nil host => exact absurd hu List.not_mem_nil
  | @visit host reading host' last b w out rest kept work events' hbefore hwork hafter hrest ih =>
    rcases List.mem_append.mp hu with hu | hu
    · obtain ⟨w', hout, heq⟩ := Option.map_eq_some_iff.mp (Option.mem_toList.mp hu)
      cases heq
      cases hout
      exact ⟨w, reading, work, List.mem_cons_self, hbefore, hafter.trans hrest.later, hwork⟩
    · obtain ⟨v, reading', work', hmem, hlater, hlast, hentry⟩ := ih hu
      have hstart := hbefore.trans ((mnTimeoutGet_later w.timeout reading).trans hafter)
      exact ⟨v, reading', work', List.mem_cons_of_mem _ hmem, hstart.trans hlater, hlast, hentry⟩

end

/-! ## Section 3: Every operation -/

/-- The message `a` as long as it is queued, in an endpoint that is polled. -/
structure Timed (T0 t0 δ : ℚ) (a : Addr) (first : Endpoint) (s : Polled) (l : Nodes Pending) :
    Prop where
  reps   : s.endpt.confirmq.Reps l
  below  : a < s.endpt.confirmq.brk
  later  : Later first.host s.endpt.host
  behind : s.checked ≤ s.endpt.now
  prompt : s.endpt.now ≤ s.checked + δ
  entry  : ∀ v, (a, v) ∈ l → ∃ k, Spanned T0 t0 δ s.checked v k

section

variable {T0 t0 δ : ℚ} {a : Addr} {first : Endpoint} {s s' : Polled} {l l' : Nodes Pending}
  {qsort : Qsort McOption} {op : EndpointOp}

/-- An operation that leaves the entry alone, and is no pass. -/
theorem Timed.keep (h : Timed T0 t0 δ a first s l) (hclock : Monotone first.host.clock)
    (hprompt : s'.endpt.now ≤ s.checked + δ)
    (hchecked : s'.checked = s.checked) (hreps : s'.endpt.confirmq.Reps l')
    (hbrk : s.endpt.confirmq.brk ≤ s'.endpt.confirmq.brk)
    (hlater : Later s.endpt.host s'.endpt.host) (hsame : ∀ v, (a, v) ∈ l' → (a, v) ∈ l) :
    Timed T0 t0 δ a first s' l' := by
  refine ⟨hreps, h.below.trans_le hbrk, h.later.trans hlater, ?_, ?_, ?_⟩
  · rw [hchecked]
    exact h.behind.trans (hlater.now_le (h.later.monotone hclock))
  · rw [hchecked]
    exact hprompt
  · intro v hv
    rw [hchecked]
    exact h.entry v (hsame v hv)

theorem Timed.send (h : Timed T0 t0 δ a first s l) (hclock : Monotone first.host.clock)
    {toaddr : SockAddr} {msg : McMessage}
    {resultfn : ResultFn} {err : Int} (hprompt : s'.endpt.now ≤ s.checked + δ)
    (hchecked : s'.checked = s.checked)
    (hsend : mcEndptUdpSend s.endpt toaddr msg resultfn = .ok (err, s'.endpt)) :
    ∃ l', Timed T0 t0 δ a first s' l' := by
  have hsends := mcEndptUdpSend_spec h.reps hsend
  have hlater := mcEndptUdpSend_later h.reps hsend
  rcases hcon : mcMessageIsConfirmable msg with _ | _
  · obtain ⟨hqueue, _⟩ := hsends.non hcon
    refine ⟨l, h.keep hclock hprompt hchecked ?_ (Nat.le_of_eq (by rw [hqueue])) hlater fun _ hv => hv⟩
    rw [hqueue]
    exact h.reps
  · obtain ⟨w, _, hfirst⟩ := hsends.con hcon
    have hbrk : s.endpt.confirmq.brk ≤ s'.endpt.confirmq.brk := by
      rw [hfirst.brk]
      exact Nat.le_succ _
    by_cases herr : err = mnDone
    · refine ⟨_, h.keep hclock hprompt hchecked (hfirst.done herr).1 hbrk hlater ?_⟩
      intro v hv
      rcases List.mem_append.mp hv with hv | hv
      · exact hv
      -- the new entry has an address of its own
      · exact absurd (congrArg Prod.fst (List.mem_singleton.mp hv)) (Nat.ne_of_lt h.below)
    · exact ⟨l, h.keep hclock hprompt hchecked (hfirst.failed herr).1 hbrk hlater fun _ hv => hv⟩

theorem Timed.recv (h : Timed T0 t0 δ a first s l) (hclock : Monotone first.host.clock)
    {arrival : Arrival} {msg : Option McMessage} (hprompt : s'.endpt.now ≤ s.checked + δ) (hchecked : s'.checked = s.checked)
    (hrecv : mcEndptUdpRecv qsort arrival s.endpt = .ok (msg, s'.endpt)) :
    ∃ l', Timed T0 t0 δ a first s' l' := by
  have hspec := mcEndptUdpRecv_spec h.reps hrecv
  have hlater := mcEndptUdpRecv_later hrecv
  have hbrk : s.endpt.confirmq.brk ≤ s'.endpt.confirmq.brk := Nat.le_of_eq hspec.brk.symm
  rcases hack : mcMessageIsAck msg with _ | _
  · obtain ⟨hqueue, _⟩ := hspec.other hack
    refine ⟨l, h.keep hclock hprompt hchecked ?_ hbrk hlater fun _ hv => hv⟩
    rw [hqueue]
    exact h.reps
  · obtain ⟨_, xs, b, v, ys, _, rfl, _, _, hreps, _⟩ := hspec.ack hack
    refine ⟨xs ++ ys, h.keep hclock hprompt hchecked hreps hbrk hlater ?_⟩
    intro u hu
    rcases List.mem_append.mp hu with hu | hu
    · exact List.mem_append_left _ hu
    · exact List.mem_append_right _ (List.mem_cons_of_mem _ hu)

/-- A pass: what it leaves in the queue is not due when it began. -/
theorem Timed.check (h : Timed T0 t0 δ a first s l) (hT0 : 0 ≤ T0)
    (hclock : Monotone first.host.clock) (hprompt : s'.endpt.now ≤ s.checked + δ)
    (hchecked : s'.checked = s.endpt.now) (hcheck : mcEndptUdpCheckQueues s.endpt = .ok s'.endpt) :
    ∃ l', Timed T0 t0 δ a first s' l' := by
  obtain ⟨endpt', hcode, hpassed⟩ := mcEndptUdpCheckQueues_spec h.reps
  rw [hcheck] at hcode
  cases hcode
  have hwork := checkPass_work l s.endpt.tmout s.endpt.host
  have hlater := hwork.later
  rw [← hpassed.host] at hlater
  have hclock' := h.later.monotone hclock
  refine ⟨_, hpassed.reps, h.below.trans_le (Nat.le_of_eq hpassed.brk.symm),
    h.later.trans hlater, ?_, ?_, ?_⟩
  · rw [hchecked]
    exact hlater.now_le hclock'
  · rw [hchecked]
    exact hprompt.trans (add_le_add_left h.behind δ)
  · intro u hu
    obtain ⟨v, reading, _, hmem, hbefore, hafter, hentry⟩ := hwork.entry hu
    obtain ⟨k, hspan⟩ := h.entry v hmem
    rw [mnTimeoutGet_total hspan.block (hspan.total_nonneg hT0), ← hpassed.host] at hafter
    have hread := hbefore.monotone hclock'
    have hnow : s.endpt.now ≤ reading.clock reading.ticks := by
      rw [hbefore.clock]
      exact hclock' hbefore.ticks
    -- the second reading is one the pass has made before it returns
    have hstart : reading.clock (reading.ticks + 1) ≤ s'.endpt.now := by
      unfold Endpoint.now
      rw [hafter.clock]
      exact hread hafter.ticks
    rw [hchecked]
    exact hspan.visit hT0 hread hentry hnow (hstart.trans hprompt)

/-- Step: the message stays on time. -/
theorem Timed.step (h : Timed T0 t0 δ a first s l) (hT0 : 0 ≤ T0)
    (hclock : Monotone first.host.clock) (hstep : polledStep qsort δ s op s') :
    ∃ l', Timed T0 t0 δ a first s' l' := by
  obtain ⟨hdone, hprompt, hchecked⟩ := hstep
  cases op with
  | send toaddr msg resultfn =>
    obtain ⟨⟨err, endpt1⟩, hsend, hret⟩ := bind_eq_ok.mp hdone
    cases hret
    exact h.send hclock hprompt hchecked hsend
  | recv arrival =>
    obtain ⟨⟨msg, endpt1⟩, hrecv, hret⟩ := bind_eq_ok.mp hdone
    cases hret
    exact h.recv hclock hprompt hchecked hrecv
  | checkQueues => exact h.check hT0 hclock hprompt hchecked hdone
  | nextid =>
    obtain ⟨endpt', checked'⟩ := s'
    cases hdone
    exact ⟨l, h.keep hclock hprompt hchecked h.reps (Nat.le_refl _) (Later.refl _) fun _ hv => hv⟩
  | rand =>
    obtain ⟨endpt', checked'⟩ := s'
    cases hdone
    exact ⟨l, h.keep hclock hprompt hchecked h.reps (Nat.le_refl _) ⟨rfl, Nat.le_refl _⟩
      fun _ hv => hv⟩

/-- Run: it does after every run. -/
theorem Timed.run (h : Timed T0 t0 δ a first s l) (hT0 : 0 ≤ T0)
    (hclock : Monotone first.host.clock) {ops : List EndpointOp}
    (hrun : Run (polledStep qsort δ) s ops s') : ∃ l', Timed T0 t0 δ a first s' l' :=
  hrun.invariant (P := fun s' => ∃ l', Timed T0 t0 δ a first s' l') ⟨l, h⟩
    fun _ _ _ ⟨_, htimed⟩ hstep => htimed.step hT0 hclock hstep

end

/-! ## Section 4: From the first transmission on -/

/-- The entry that a first transmission leaves, before anything else happens. -/
theorem timed_first {endpt first : Endpoint} {l : Nodes Pending} {toaddr : SockAddr}
    {msg : McMessage} {resultfn : ResultFn} {δ : ℚ} (h : endpt.confirmq.Reps l)
    (hclock : Monotone endpt.host.clock) (hcon : mcMessageIsConfirmable msg = true)
    (hsend : mcEndptUdpSend endpt toaddr msg resultfn = .ok (mnDone, first))
    (hfirst : first.now ≤ endpt.now + δ) :
    ∃ l', Timed (mkTimeout endpt.host).1 endpt.now δ endpt.confirmq.brk first
      ⟨first, endpt.now⟩ l' := by
  have hlater := mcEndptUdpSend_later h hsend
  obtain ⟨v, hreps, htimeout⟩ := mcEndptUdpSend_timeout h hcon hsend
  obtain ⟨w, hfresh, hdone⟩ := (mcEndptUdpSend_spec h hsend).con hcon
  have hreps' := (hdone.done rfl).1
  have hv : v.xmitcounter = 1 := by
    have hlists := hreps.unique hreps'
    have hlast := List.append_cancel_left hlists
    rw [(Prod.mk.inj (List.cons.inj hlast).1).2]
  have hT0 := mkTimeout_nonneg endpt.host
  refine ⟨_, hreps, hreps.lt (by simp), Later.refl _, hlater.now_le hclock, hfirst, ?_⟩
  intro u hu
  rw [entry_unique hreps.isList.nodup hu]
  refine ⟨0, ?_, by decide, ?_, ?_, ?_, ?_⟩
  · rw [hv]
    rfl
  · rw [htimeout]
  · rw [htimeout]
    ring
  · rw [htimeout]
    show endpt.now + (mkTimeout endpt.host).1 ≤ _
    apply le_of_eq
    push_cast
    ring
  · rw [htimeout]
    show endpt.now ≤ endpt.now + (mkTimeout endpt.host).1
    linarith

/-- Let the socket take a confirmable message, and let no operation after it
    return later than `δ` after the last pass over the queue began.  As soon
    as the clock shows that more than `MAX_TRANSMIT_SPAN + 4 * δ` have gone
    by, the message has left the queue, whatever else was sent and received
    in between, and its result function has been called exactly once. -/
theorem transmit_span {qsort : Qsort McOption} {rdsize wrsize : UInt32} {host : Host}
    {before ops : List EndpointOp} {endpt first : Endpoint} {toaddr : SockAddr} {msg : McMessage}
    {resultfn : ResultFn} {δ : ℚ} {s : Polled}
    (hbefore : Run (endptStep qsort) (mcEndptUdpInit rdsize wrsize host) before endpt)
    (hclock : Monotone endpt.host.clock)
    (hrand : endpt.host.rands endpt.host.nrands ≤ endpt.host.randMax)
    (hcon : mcMessageIsConfirmable msg = true)
    (hsend : mcEndptUdpSend endpt toaddr msg resultfn = .ok (mnDone, first))
    (hfirst : first.now ≤ endpt.now + δ)
    (hrun : Run (polledStep qsort δ) ⟨first, endpt.now⟩ ops s)
    (hlate : endpt.now + maxTransmitSpan + 4 * δ < s.endpt.now) :
    (∀ v, ¬ s.endpt.Queues endpt.confirmq.brk v) ∧
    (resultfn > 1 → ∃ err, (story endpt.confirmq.brk s.endpt.trace).filter Event.isCalled =
      [.called endpt.confirmq.brk resultfn (mcMessageGetMessageId msg) err]) := by
  obtain ⟨ledger, hshows, hsound⟩ := reachable_shows hbefore
  have hlater := mcEndptUdpSend_later hshows.reps hsend
  have hT0 := mkTimeout_nonneg endpt.host
  have hδ : 0 ≤ δ := by
    have hmono := hlater.now_le hclock
    linarith
  obtain ⟨l0, hstart⟩ := timed_first hshows.reps hclock hcon hsend hfirst
  obtain ⟨l, htimed⟩ := hstart.run hT0 (hlater.monotone hclock) hrun
  have hout : ∀ v, ¬ s.endpt.Queues endpt.confirmq.brk v := by
    rintro v ⟨l', hreps', hv⟩
    rw [hreps'.unique htimed.reps] at hv
    obtain ⟨k, hspan⟩ := htimed.entry v hv
    have hnow := hspan.now_le hT0 hδ htimed.prompt
    have hmost : (mkTimeout endpt.host).1 ≤ 3 := by
      have hbound := (mkTimeout_bounds hrand).2
      unfold ackTimeout ackRandomFactor at hbound
      linarith
    unfold maxTransmitSpan at hlate
    linarith
  refine ⟨hout, ?_⟩
  intro hfn
  -- the ledger says what has happened to a message that is out
  have hsends := mcEndptUdpSend_spec hshows.reps hsend
  obtain ⟨ledger1, hshows1, hmoves1⟩ := hsends.moves hshows
  obtain ⟨ledger2, hshows2, hmoves2⟩ := run_moves hshows1 (polledStep.run hrun)
  have hsound2 := moves_sound (hmoves1.trans hmoves2) hsound
  obtain ⟨data, rest, hbrk, htrace⟩ := hsends.begins hcon
  obtain ⟨⟨events, hgrow⟩, hnext⟩ := moves_grow hmoves2
  have hlt : endpt.confirmq.brk < ledger2.next := by
    rw [← hshows1.next, hbrk] at hnext
    exact hnext
  have hqueued : .queued endpt.confirmq.brk (mcMessageGetMessageId msg) toaddr data resultfn
      ∈ ledger2.trace := by
    rw [hgrow, ← hshows1.trace, htrace]
    simp
  have hgone : endpt.confirmq.brk ∉ addrs ledger2.entries := by
    intro hmem
    obtain ⟨v, hv⟩ := mem_addrs.mp hmem
    exact hout v ⟨_, hshows2.reps, hv⟩
  obtain ⟨err, hcalled, _⟩ := (hsound2.accounted hlt hqueued).once hgone hfn
  rw [hshows2.trace]
  exact ⟨err, hcalled⟩

/-- The state after a list of operations, if they are all in time. -/
def polledRun (qsort : Qsort McOption) (δ : ℚ) : List EndpointOp → Polled → Option Polled
  | [], s => some s
  | op :: ops, s =>
    match op.exec qsort s.endpt with
    | .error _ => none
    | .ok endpt =>
      if endpt.now ≤ s.checked + δ then polledRun qsort δ ops ⟨endpt, checkedAfter s op⟩ else none

theorem polledRun_run {qsort : Qsort McOption} {δ : ℚ} {ops : List EndpointOp} {s s' : Polled}
    (h : polledRun qsort δ ops s = some s') : Run (polledStep qsort δ) s ops s' := by
  induction ops generalizing s with
  | nil =>
    cases h
    exact Run.nil
  | cons op ops ih =>
    rw [polledRun] at h
    split at h
    · exact absurd h (by simp)
    · rename_i endpt hexec
      split at h
      · rename_i hprompt
        have hstep : polledStep qsort δ s op ⟨endpt, checkedAfter s op⟩ := ⟨hexec, hprompt, rfl⟩
        exact (ih h).cons hstep
      · exact absurd h (by simp)

/-- A host whose clock goes on by 100 seconds now and then, and whose socket
    takes one datagram only. -/
def unsteadyHost : Host :=
  { stillHost with
    clock := fun n => if n < 8 then 100 * (n / 4 : Nat) else 100 * (n - 6 : Nat)
    sends := fun n => if n = 0 then 0 else 5 }

/-- The ping is sent from it. -/
def unsteady : Endpoint :=
  match mcEndptUdpSend (mcEndptUdpInit 64 64 unsteadyHost) peer ping 9 with
  | .ok (_, endpt) => endpt
  | .error _ => mcEndptUdpInit 64 64 unsteadyHost

theorem send_unsteady :
    mcEndptUdpSend (mcEndptUdpInit 64 64 unsteadyHost) peer ping 9 = .ok (mnDone, unsteady) := rfl

/-- Nothing arrives, and the queue is checked. -/
def quiet : List EndpointOp := [.recv (.failed mnTimeout (by decide)), .checkQueues]

theorem transmit_span_ping : ∃ s,
    Run (polledStep (insertion McOption) 100) ⟨unsteady, 0⟩
      (quiet ++ quiet ++ quiet ++ quiet ++ quiet) s ∧
    (∀ v, ¬ s.endpt.Queues 0 v) ∧
    ∃ err, (story 0 s.endpt.trace).filter Event.isCalled = [.called 0 9 7 err] := by
  have hend : (polledRun (insertion McOption) 100 (quiet ++ quiet ++ quiet ++ quiet ++ quiet)
      ⟨unsteady, 0⟩).map (fun s => s.endpt.now) = some 500 := by decide +kernel
  obtain ⟨s, hs, hnow⟩ := Option.map_eq_some_iff.mp hend
  have hrun := polledRun_run hs
  have hclock : Monotone (mcEndptUdpInit 64 64 unsteadyHost).host.clock := by
    intro n m hnm
    show (if n < 8 then _ else _ : ℚ) ≤ if m < 8 then _ else _
    split
    · split
      · exact_mod_cast Nat.mul_le_mul_left 100 (Nat.div_le_div_right hnm)
      · exact_mod_cast (by omega : 100 * (n / 4) ≤ 100 * (m - 6))
    · rw [if_neg (by omega)]
      exact_mod_cast (by omega : 100 * (n - 6) ≤ 100 * (m - 6))
  have h0 : (mcEndptUdpInit 64 64 unsteadyHost).now = 0 := by decide +kernel
  have hfirst : unsteady.now ≤ (mcEndptUdpInit 64 64 unsteadyHost).now + 100 := by decide +kernel
  have hlate : (mcEndptUdpInit 64 64 unsteadyHost).now + maxTransmitSpan + 4 * 100 <
      s.endpt.now := by
    rw [hnow, h0]
    unfold maxTransmitSpan
    norm_num
  rw [← h0] at hrun
  obtain ⟨hout, hcalled⟩ := transmit_span Run.nil hclock (Nat.zero_le _) rfl send_unsteady hfirst
    hrun hlate
  rw [h0] at hrun
  exact ⟨s, hrun, hout, hcalled (by decide)⟩

end Mcoap
