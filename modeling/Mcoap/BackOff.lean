import Mathlib.Tactic.Linarith
import Mathlib.Tactic.Ring
import Mcoap.QueuePass

/-! # Exponential back off

    When a confirmable message is sent again, and when it is given up.

    * `walkStep`: the endpoint step by step, a pass over the confirm queue
      one entry at a time, so that a clock reading belongs to each step;
      `run_walks`: every run of the endpoint is such a walk;
    * `BackedOff`: what `k` expiries have made of an entry's timeout;
    * `backoff_not_shortened`: the `k`-th retransmission, or giving up in
      its place, comes no earlier than `T0 * (2 ^ k - 1)` after the message. -/

namespace Mcoap

open ByteMem ByteProg StableSort DList Runs Relation

/-! ## Section 1: Walks -/

/-- The endpoint, and the entry the pass has come to if one is under way. -/
structure Walk where
  endpt   : Endpoint
  current : Option (Option Addr)

inductive WalkOp where
  /-- any operation but a pass -/
  | op (op : EndpointOp)
  /-- a pass starts at the first entry -/
  | enter
  /-- it goes over one entry -/
  | visit (a : Addr)
  /-- it has come to the end -/
  | leave

def walkStep (qsort : Qsort McOption) (w : Walk) (op : WalkOp) (w' : Walk) : Prop :=
  match op with
  | .op op => w.current = none ∧ op ≠ .checkQueues ∧ endptStep qsort w.endpt op w'.endpt ∧
      w'.current = none
  | .enter => w.current = none ∧ w' = ⟨w.endpt, some w.endpt.confirmq.first⟩
  | .visit a => w.current = some (some a) ∧ ∃ next, checkEntry w.endpt a = .ok (next, w'.endpt) ∧
      w'.current = some next
  | .leave => w.current = some none ∧ w' = ⟨w.endpt, none⟩

theorem checkQueuesLoop_walks {qsort : Qsort McOption} {fuel : Nat} {current : Option Addr}
    {endpt endpt' : Endpoint} (h : checkQueuesLoop fuel current endpt = .ok endpt') :
    ∃ ops, Run (walkStep qsort) ⟨endpt, some current⟩ ops ⟨endpt', some none⟩ := by
  induction fuel generalizing current endpt with
  | zero =>
    cases current with
    | none =>
      cases h
      exact ⟨[], Run.nil⟩
    | some a => exact absurd h (by simp [checkQueuesLoop])
  | succ fuel ih =>
    cases current with
    | none =>
      cases h
      exact ⟨[], Run.nil⟩
    | some a =>
      obtain ⟨⟨next, endpt1⟩, hvisit, hrest⟩ := bind_eq_ok.mp h
      obtain ⟨ops, hrun⟩ := ih hrest
      have hstep : walkStep qsort ⟨endpt, some (some a)⟩ (.visit a) ⟨endpt1, some next⟩ :=
        ⟨rfl, next, hvisit, rfl⟩
      exact ⟨.visit a :: ops, hrun.cons hstep⟩

theorem endptStep_walks {qsort : Qsort McOption} {endpt endpt' : Endpoint} {op : EndpointOp}
    (h : endptStep qsort endpt op endpt') :
    ∃ ops, Run (walkStep qsort) ⟨endpt, none⟩ ops ⟨endpt', none⟩ := by
  by_cases hop : op = .checkQueues
  · subst hop
    have hloop : ∃ ops, Run (walkStep qsort) ⟨endpt, some endpt.confirmq.first⟩ ops
        ⟨endpt', some none⟩ := checkQueuesLoop_walks h
    obtain ⟨ops, hrun⟩ := hloop
    have henter : walkStep qsort ⟨endpt, none⟩ .enter ⟨endpt, some endpt.confirmq.first⟩ :=
      ⟨rfl, rfl⟩
    have hleave : walkStep qsort ⟨endpt', some none⟩ .leave ⟨endpt', none⟩ := ⟨rfl, rfl⟩
    exact ⟨_, (hrun.cons henter).snoc hleave⟩
  · exact ⟨[.op op], Run.single ⟨rfl, hop, h, rfl⟩⟩

/-- Every run of the endpoint is a walk. -/
theorem run_walks {qsort : Qsort McOption} {endpt endpt' : Endpoint} {ops : List EndpointOp}
    (h : Run (endptStep qsort) endpt ops endpt') :
    ∃ steps, Run (walkStep qsort) ⟨endpt, none⟩ steps ⟨endpt', none⟩ :=
  h.invariant (P := fun e => ∃ steps, Run (walkStep qsort) ⟨endpt, none⟩ steps ⟨e, none⟩)
    ⟨[], Run.nil⟩ fun _ _ _ ⟨steps, hwalk⟩ hstep => by
      obtain ⟨more, hmore⟩ := endptStep_walks hstep
      exact ⟨steps ++ more, hwalk.append hmore⟩

/-! ## Section 2: The timeout of an entry -/

/-- The timeout that `mk_timeout` draws. -/
theorem mkTimeout_bounds {host : Host} (hrand : host.rands host.nrands ≤ host.randMax) :
    ackTimeout ≤ (mkTimeout host).1 ∧ (mkTimeout host).1 ≤ ackTimeout * ackRandomFactor := by
  have hnonneg : (0 : ℚ) ≤ (host.rands host.nrands : ℚ) / (host.randMax : ℚ) :=
    div_nonneg (Nat.cast_nonneg _) (Nat.cast_nonneg _)
  have hone : (host.rands host.nrands : ℚ) / (host.randMax : ℚ) ≤ 1 :=
    div_le_one_of_le₀ (Nat.cast_le.mpr hrand) (Nat.cast_nonneg _)
  have hdrawn : (mkTimeout host).1 = ackTimeout +
      ((host.rands host.nrands : ℚ) / (host.randMax : ℚ)) *
        (ackTimeout * ackRandomFactor - ackTimeout) := rfl
  rw [hdrawn]
  unfold ackTimeout ackRandomFactor
  constructor
  · linarith
  · linarith

/-- The timeout of an entry after `k` expiries, if it began at `t0` with
    `T0` to wait. -/
structure BackedOff (T0 t0 : ℚ) (v : Pending) (k : Nat) : Prop where
  block : v.timeout.block = -1
  total : v.timeout.total = T0 * 2 ^ k
  start : t0 + T0 * (2 ^ k - 1) ≤ v.timeout.start

/-- The time that is left of a timeout without a limit for a block. -/
theorem mnTimeoutGet_total {tout : MnTimeout} (hblock : tout.block = -1) (htotal : 0 ≤ tout.total)
    (host : Host) :
    mnTimeoutGet tout host =
      (if tout.total - host.clock host.ticks + tout.start > 0
        then tout.total - host.clock host.ticks + tout.start else 0, (mnGettime host).2) := by
  have hneg : tout.block < 0 := by
    rw [hblock]
    norm_num
  unfold mnTimeoutGet
  rw [if_neg fun h => absurd htotal (not_le.mpr h.2), if_pos hneg]
  rfl

/-- An entry that is due has waited long enough, and waits twice as long
    from then on. -/
theorem BackedOff.expires {T0 t0 : ℚ} {v : Pending} {k : Nat} (h : BackedOff T0 t0 v k)
    (hT0 : 0 ≤ T0) {host host' : Host} (hclock : Monotone host.clock) {timeout : MnTimeout}
    (hdue : (mnTimeoutGet v.timeout host).1 = 0)
    (hstart : mnTimeoutMarkstart (mnTimeoutInit (-1) (v.timeout.total * 2))
      (mnTimeoutGet v.timeout host).2 = (timeout, host')) :
    t0 + T0 * (2 ^ (k + 1) - 1) ≤ host.clock host.ticks ∧
      ∀ n, BackedOff T0 t0 { v with timeout := timeout, xmitcounter := n } (k + 1) := by
  have htotal : 0 ≤ v.timeout.total := by
    rw [h.total]
    exact mul_nonneg hT0 (pow_nonneg (by norm_num) k)
  rw [mnTimeoutGet_total h.block htotal] at hdue hstart
  have hup : v.timeout.start + v.timeout.total ≤ host.clock host.ticks := by
    by_contra hleft
    simp only [gt_iff_lt] at hdue
    rw [if_pos (by linarith)] at hdue
    linarith
  -- `T0 * (2 ^ k - 1)` before the last start, and `T0 * 2 ^ k` since
  have hbound : t0 + T0 * (2 ^ (k + 1) - 1) ≤ host.clock host.ticks := by
    calc t0 + T0 * (2 ^ (k + 1) - 1) = (t0 + T0 * (2 ^ k - 1)) + T0 * 2 ^ k := by ring
      _ ≤ v.timeout.start + v.timeout.total := by
          rw [h.total]
          exact add_le_add_left h.start _
      _ ≤ host.clock host.ticks := hup
  refine ⟨hbound, fun n => ?_⟩
  cases hstart
  refine ⟨rfl, ?_, ?_⟩
  · show v.timeout.total * 2 = T0 * 2 ^ (k + 1)
    rw [h.total]
    ring
  · exact hbound.trans (hclock (Nat.le_succ host.ticks))

/-! ## Section 3: One entry along a walk -/

/-- How often an entry has been handed to the socket. -/
def transmissions (a : Addr) (events : List Event) : Nat :=
  ((story a events).filter Event.isSent).length

/-- The message `a` is handed to the socket, or given up by the pass. -/
def Event.Expires (a : Addr) : Event → Prop
  | .sent owner _ _ _ => owner = some a
  | .removed b remover => b = a ∧ remover = .checkQueues
  | _ => False

theorem transmissions_append (a : Addr) (events events' : List Event) :
    transmissions a (events ++ events') = transmissions a events + transmissions a events' := by
  rw [transmissions, story_append, List.filter_append, List.length_append]
  rfl

theorem transmissions_sent (a : Addr) (v : Pending) (err : Int) :
    transmissions a [sentEvent a v err] = 1 := by
  have howned : OwnedBy a [sentEvent a v err] := OwnedBy.cons rfl OwnedBy.nil
  rw [transmissions, howned.story_self]
  rfl

theorem transmissions_other {a b : Addr} {events : List Event} (h : OwnedBy b events)
    (hne : a ≠ b) : transmissions a events = 0 := by
  rw [transmissions, h.story_other hne]
  rfl

theorem not_expires_other {a b : Addr} {events : List Event} (h : OwnedBy b events)
    (hne : a ≠ b) : ∀ event ∈ events, ¬ event.Expires a := by
  intro event hevent hexpires
  have howner := h event hevent
  cases event with
  | sent owner data dest err =>
    rw [Event.Expires] at hexpires
    rw [Event.owner, hexpires] at howner
    exact hne (Option.some.inj howner)
  | removed c remover =>
    rw [Event.Expires] at hexpires
    rw [Event.owner] at howner
    exact hne (hexpires.1.symm.trans (Option.some.inj howner))
  | queued _ _ _ _ _ => exact hexpires
  | called _ _ _ _ => exact hexpires

/-- Where the walk stands in the list of entries. -/
def AtEntry (w : Walk) (l : Nodes Pending) : Prop :=
  ∀ current, w.current = some current → ∃ xs ys, l = xs ++ ys ∧ current = headOf ys none

/-- The entry `a`, as long as it is queued, has backed off once for every
    transmission among `events`, which have happened since `first`. -/
structure Tracked (T0 t0 : ℚ) (a : Addr) (first : Endpoint) (events : List Event)
    (l : Nodes Pending) (w : Walk) : Prop where
  reps  : w.endpt.confirmq.Reps l
  place : AtEntry w l
  below : a < w.endpt.confirmq.brk
  later : Later first.host w.endpt.host
  trace : w.endpt.trace = first.trace ++ events
  entry : ∀ v, (a, v) ∈ l → BackedOff T0 t0 v (transmissions a events)

/-- What a step of the walk may do: `a` expires in time, and stays on track. -/
def StepsOn (T0 t0 : ℚ) (a : Addr) (first : Endpoint) (events : List Event) (w w' : Walk) :
    Prop :=
  ∃ more l', Tracked T0 t0 a first (events ++ more) l' w' ∧
    ∀ event ∈ more, event.Expires a →
      t0 + T0 * (2 ^ (transmissions a events + 1) - 1) ≤ w.endpt.host.clock w.endpt.host.ticks

section

variable {T0 t0 : ℚ} {a : Addr} {first : Endpoint} {events : List Event} {l : Nodes Pending}
  {w w' : Walk} {qsort : Qsort McOption}

/-- A step that does not expire `a`, and leaves its entry alone. -/
theorem Tracked.keep (h : Tracked T0 t0 a first events l w) {l' : Nodes Pending}
    {more : List Event} (hreps : w'.endpt.confirmq.Reps l') (hplace : AtEntry w' l')
    (hbrk : w.endpt.confirmq.brk ≤ w'.endpt.confirmq.brk)
    (hlater : Later w.endpt.host w'.endpt.host)
    (htrace : w'.endpt.trace = w.endpt.trace ++ more)
    (hsame : ∀ v, (a, v) ∈ l' → (a, v) ∈ l) (hnone : transmissions a more = 0)
    (hquiet : ∀ event ∈ more, ¬ event.Expires a) : StepsOn T0 t0 a first events w w' := by
  refine ⟨more, l', ⟨hreps, hplace, h.below.trans_le hbrk, h.later.trans hlater, ?_, ?_⟩,
    fun event hevent hexpires => absurd hexpires (hquiet event hevent)⟩
  · rw [htrace, h.trace, List.append_assoc]
  · intro v hv
    rw [transmissions_append, hnone, Nat.add_zero]
    exact h.entry v (hsame v hv)

/-- A walk between two operations is at no entry. -/
theorem atEntry_idle (hidle : w.current = none) : AtEntry w l := fun current hcurrent =>
  absurd (hidle.symm.trans hcurrent) (by simp)

/-- A step that changes neither the queue nor the trace. -/
theorem Tracked.quiet (h : Tracked T0 t0 a first events l w) (hplace : AtEntry w' l)
    (hqueue : w'.endpt.confirmq = w.endpt.confirmq) (htrace : w'.endpt.trace = w.endpt.trace)
    (hlater : Later w.endpt.host w'.endpt.host) : StepsOn T0 t0 a first events w w' := by
  have hreps : w'.endpt.confirmq.Reps l := by
    rw [hqueue]
    exact h.reps
  apply h.keep hreps hplace (Nat.le_of_eq (by rw [hqueue])) hlater
    (htrace.trans (List.append_nil _).symm) (fun _ hv => hv) rfl
  exact fun _ he => absurd he List.not_mem_nil

/-- Other messages are sent. -/
theorem Tracked.send (h : Tracked T0 t0 a first events l w) {toaddr : SockAddr}
    {msg : McMessage} {resultfn : ResultFn} {err : Int}
    (hsend : mcEndptUdpSend w.endpt toaddr msg resultfn = .ok (err, w'.endpt))
    (hidle : w'.current = none) : StepsOn T0 t0 a first events w w' := by
  have hsends := mcEndptUdpSend_spec h.reps hsend
  have hlater := mcEndptUdpSend_later h.reps hsend
  rcases hcon : mcMessageIsConfirmable msg with _ | _
  · obtain ⟨hqueue, _, data, htrace⟩ := hsends.non hcon
    have hreps : w'.endpt.confirmq.Reps l := by
      rw [hqueue]
      exact h.reps
    apply h.keep hreps (atEntry_idle hidle) (Nat.le_of_eq (by rw [hqueue])) hlater htrace
      (fun _ hv => hv) rfl
    intro event hevent
    rw [List.mem_singleton.mp hevent]
    exact fun hexpires => absurd hexpires (by simp [Event.Expires])
  -- a new entry has an address of its own
  · obtain ⟨v, hfresh, hfirst⟩ := hsends.con hcon
    have hne : a ≠ w.endpt.confirmq.brk := Nat.ne_of_lt h.below
    have hbrk : w.endpt.confirmq.brk ≤ w'.endpt.confirmq.brk := by
      rw [hfirst.brk]
      exact Nat.le_succ _
    by_cases herr : err = mnDone
    · obtain ⟨hreps, htrace⟩ := hfirst.done herr
      have hown : OwnedBy w.endpt.confirmq.brk [queuedEvent w.endpt.confirmq.brk v,
          .sent (some w.endpt.confirmq.brk) v.msg.toList v.dest err] :=
        OwnedBy.cons rfl (OwnedBy.cons rfl OwnedBy.nil)
      apply h.keep hreps (atEntry_idle hidle) hbrk hlater htrace ?_ (transmissions_other hown hne)
        (not_expires_other hown hne)
      intro u hu
      rcases List.mem_append.mp hu with hu | hu
      · exact hu
      · exact absurd (congrArg Prod.fst (List.mem_singleton.mp hu)) hne
    · obtain ⟨hreps, htrace⟩ := hfirst.failed herr
      have hown : OwnedBy w.endpt.confirmq.brk ([queuedEvent w.endpt.confirmq.brk v,
          .sent (some w.endpt.confirmq.brk) v.msg.toList v.dest err] ++
          (resultOf w.endpt.confirmq.brk v err ++ [.removed w.endpt.confirmq.brk .send])) :=
        OwnedBy.cons rfl (OwnedBy.cons rfl (ownedBy_result _ v _ _))
      exact h.keep hreps (atEntry_idle hidle) hbrk hlater htrace (fun _ hu => hu)
        (transmissions_other hown hne) (not_expires_other hown hne)

/-- What a result function and a removal leave in the trace. -/
theorem transmissions_result (b : Addr) (v : Pending) (err : Int) (remover : Remover) :
    transmissions a (resultOf b v err ++ [.removed b remover]) = 0 := by
  rw [transmissions, story, List.filter_comm, sent_removed]
  rfl

theorem not_expires_acked (b : Addr) (v : Pending) (err : Int) :
    ∀ event ∈ resultOf b v err ++ [.removed b .recv], ¬ event.Expires a := by
  intro event hevent hexpires
  unfold resultOf at hevent
  split at hevent
  · rcases List.mem_cons.mp hevent with rfl | hevent
    · exact hexpires
    · rw [List.mem_singleton.mp hevent] at hexpires
      exact absurd hexpires.2 (by decide)
  · rw [List.mem_singleton.mp hevent] at hexpires
    exact absurd hexpires.2 (by decide)

theorem mcEndptUdpRecv_later {endpt endpt' : Endpoint} {arrival : Arrival}
    {msg : Option McMessage} (h : mcEndptUdpRecv qsort arrival endpt = .ok (msg, endpt')) :
    Later endpt.host endpt'.host := by
  obtain ⟨⟨err, decoded, endpt1⟩, hdecode, hrest⟩ := bind_eq_ok.mp h
  have hread : Later endpt.host endpt1.host := by
    have hmarked := mnTimeoutMarkstart_later endpt.tmout endpt.host
    unfold recvMessage at hdecode
    simp only at hdecode
    split at hdecode
    · cases hdecode
      exact hmarked
    · obtain ⟨⟨⟨decoded', _⟩, block, host⟩, hrun, hrest'⟩ := bind_eq_ok.mp hdecode
      cases decoded' with
      | none => exact absurd hrest' (by simp)
      | some message =>
        cases hrest'
        exact hmarked.trans (runIn_later hrun)
  cases decoded with
  | none =>
    cases hrest
    exact hread
  | some message =>
    simp only at hrest
    split at hrest
    · obtain ⟨endpt2, hack, hret⟩ := bind_eq_ok.mp hrest
      cases hret
      -- looking the entry up and removing it reads no clock
      obtain ⟨found, _, hack⟩ := bind_eq_ok.mp hack
      obtain ⟨⟨b, entry⟩, _, hack⟩ := bind_eq_ok.mp hack
      obtain ⟨_, _, hack⟩ := bind_eq_ok.mp hack
      cases hack
      have hhost : (callResultFn endpt1 b entry.val.resultfn entry.val.msgid err).host =
          endpt1.host := by
        rw [callResultFn_eq]
      show Later endpt.host (callResultFn endpt1 b entry.val.resultfn entry.val.msgid err).host
      rw [hhost]
      exact hread
    · cases hrest
      exact hread

/-- Datagrams arrive, acks among them. -/
theorem Tracked.recv (h : Tracked T0 t0 a first events l w) {arrival : Arrival}
    {msg : Option McMessage} (hrecv : mcEndptUdpRecv qsort arrival w.endpt = .ok (msg, w'.endpt))
    (hidle : w'.current = none) : StepsOn T0 t0 a first events w w' := by
  have hspec := mcEndptUdpRecv_spec h.reps hrecv
  have hlater := mcEndptUdpRecv_later hrecv
  have hbrk : w.endpt.confirmq.brk ≤ w'.endpt.confirmq.brk := Nat.le_of_eq hspec.brk.symm
  rcases hack : mcMessageIsAck msg with _ | _
  · obtain ⟨hqueue, htrace⟩ := hspec.other hack
    have hreps : w'.endpt.confirmq.Reps l := by
      rw [hqueue]
      exact h.reps
    rw [← List.append_nil w.endpt.trace] at htrace
    exact h.keep hreps (atEntry_idle hidle) hbrk hlater htrace (fun _ hv => hv) rfl
      fun _ he => absurd he List.not_mem_nil
  · obtain ⟨message, xs, b, v, ys, _, rfl, _, _, hreps, htrace⟩ := hspec.ack hack
    apply h.keep hreps (atEntry_idle hidle) hbrk hlater htrace ?_ (transmissions_result b v _ _)
      (not_expires_acked b v _)
    intro u hu
    rcases List.mem_append.mp hu with hu | hu
    · exact List.mem_append_left _ hu
    · exact List.mem_append_right _ (List.mem_cons_of_mem _ hu)

/-- The pass goes over one entry. -/
theorem Tracked.visit (h : Tracked T0 t0 a first events l w) (hT0 : 0 ≤ T0)
    (hclock : Monotone first.host.clock) {b : Addr} {next : Option Addr}
    (hat : w.current = some (some b)) (hvisit : checkEntry w.endpt b = .ok (next, w'.endpt))
    (hnext : w'.current = some next) : StepsOn T0 t0 a first events w w' := by
  obtain ⟨xs, ys', rfl, hhead⟩ := h.place _ hat
  -- the entry the pass has come to
  obtain ⟨v, ys, rfl⟩ : ∃ v ys, ys' = (b, v) :: ys := by
    cases ys' with
    | nil => exact absurd hhead (by simp [headOf])
    | cons y ys =>
      obtain ⟨c, v⟩ := y
      cases hhead
      exact ⟨v, ys, rfl⟩
  obtain ⟨endpt', hcode, hpassed⟩ := checkEntry_spec h.reps
  rw [hvisit] at hcode
  cases hcode
  obtain ⟨hwork, hafter⟩ := visitEntry_work b v w.endpt.tmout w.endpt.host
  have hlater := visitEntry_later b v w.endpt.tmout w.endpt.host
  rw [← hpassed.host] at hlater
  have hbrk : w.endpt.confirmq.brk ≤ w'.endpt.confirmq.brk := Nat.le_of_eq hpassed.brk.symm
  generalize hout : (visitEntry b v w.endpt.tmout w.endpt.host).entry = out at *
  generalize hmore : (visitEntry b v w.endpt.tmout w.endpt.host).events = more at *
  have hreps := hpassed.reps
  have hplace : AtEntry w' (xs ++ ((out.map fun v => (b, v)).toList ++ ys)) := by
    intro current hcurrent
    rw [hnext] at hcurrent
    cases hcurrent
    exact ⟨xs ++ (out.map fun v => (b, v)).toList, ys, (List.append_assoc ..).symm, rfl⟩
  by_cases hab : a = b
  · subst hab
    obtain ⟨hout', hnodup⟩ := nodup_middle_iff.mp h.reps.isList.nodup
    have hgone : ∀ u, (a, u) ∉ xs ++ ys := fun u hu => hout' (mem_addrs.mpr ⟨u, hu⟩)
    have hentry := h.entry v (List.mem_append_right _ List.mem_cons_self)
    cases hwork with
    | waiting hleft =>
      exact h.keep hreps hplace hbrk hlater hpassed.trace (fun _ hu => hu) rfl
        fun _ he => absurd he List.not_mem_nil
    | due hdue hstart hresent =>
      have hclock' : Monotone w.endpt.host.clock := by
        rw [h.later.clock]
        exact hclock
      obtain ⟨hbound, hbacked⟩ := hentry.expires hT0 hclock' hdue hstart
      refine ⟨more, _, ⟨hreps, hplace, h.below.trans_le hbrk, h.later.trans hlater, ?_, ?_⟩,
        fun _ _ _ => hbound⟩
      · rw [hpassed.trace, h.trace, List.append_assoc]
      · intro u hu
        cases hresent with
        | done hlt =>
          -- one transmission more, and one expiry more
          rw [entry_unique hreps.isList.nodup hu, transmissions_append, transmissions_sent]
          exact hbacked _
        | failed hlt herr => exact absurd hu (hgone u)
        | exhausted hge => exact absurd hu (hgone u)
  · have hown := hwork.ownedBy
    apply h.keep hreps hplace hbrk hlater hpassed.trace ?_ (transmissions_other hown hab)
      (not_expires_other hown hab)
    intro u hu
    rcases List.mem_append.mp hu with hu | hu
    · exact List.mem_append_left _ hu
    · rcases List.mem_append.mp hu with hu | hu
      · cases out with
        | none => exact absurd hu List.not_mem_nil
        | some v' => exact absurd (congrArg Prod.fst (List.mem_singleton.mp hu)) hab
      · exact List.mem_append_right _ (List.mem_cons_of_mem _ hu)

/-- Step: whatever the endpoint does next, the entry stays on track. -/
theorem Tracked.step (h : Tracked T0 t0 a first events l w) (hT0 : 0 ≤ T0)
    (hclock : Monotone first.host.clock) {op : WalkOp} (hstep : walkStep qsort w op w') :
    StepsOn T0 t0 a first events w w' := by
  cases op with
  | op op =>
    obtain ⟨_, hop, hdone, hidle⟩ := hstep
    cases op with
    | send toaddr msg resultfn =>
      obtain ⟨⟨err, endpt1⟩, hsend, hret⟩ := bind_eq_ok.mp hdone
      cases hret
      exact h.send hsend hidle
    | recv arrival =>
      obtain ⟨⟨msg, endpt1⟩, hrecv, hret⟩ := bind_eq_ok.mp hdone
      cases hret
      exact h.recv hrecv hidle
    | checkQueues => exact absurd rfl hop
    | nextid =>
      obtain ⟨endpt', current'⟩ := w'
      cases hdone
      exact h.quiet (atEntry_idle hidle) rfl rfl (Later.refl _)
    | rand =>
      obtain ⟨endpt', current'⟩ := w'
      cases hdone
      exact h.quiet (atEntry_idle hidle) rfl rfl ⟨rfl, Nat.le_refl _⟩
  | enter =>
    obtain ⟨_, rfl⟩ := hstep
    have hplace : AtEntry ⟨w.endpt, some w.endpt.confirmq.first⟩ l := by
      intro current hcurrent
      cases hcurrent
      exact ⟨[], l, rfl, h.reps.isList.first_eq⟩
    exact h.quiet hplace rfl rfl (Later.refl _)
  | visit b =>
    obtain ⟨hat, next, hvisit, hnext⟩ := hstep
    exact h.visit hT0 hclock hat hvisit hnext
  | leave =>
    obtain ⟨_, rfl⟩ := hstep
    exact h.quiet (atEntry_idle rfl) rfl rfl (Later.refl _)

/-- Run: it is on track after every walk. -/
theorem Tracked.run (h : Tracked T0 t0 a first [] l ⟨first, none⟩) (hT0 : 0 ≤ T0)
    (hclock : Monotone first.host.clock) {ops : List WalkOp}
    (hrun : Run (walkStep qsort) ⟨first, none⟩ ops w) :
    ∃ events l', Tracked T0 t0 a first events l' w :=
  hrun.invariant (P := fun w => ∃ events l', Tracked T0 t0 a first events l' w)
    ⟨[], l, h⟩ fun _ _ _ ⟨_, _, htracked⟩ hstep => by
      obtain ⟨more, l', htracked', _⟩ := htracked.step hT0 hclock hstep
      exact ⟨_, l', htracked'⟩

end

/-! ## Section 4: From the first transmission on -/

section

variable {endpt endpt' : Endpoint} {l : Nodes Pending} {toaddr : SockAddr} {msg : McMessage}
  {resultfn : ResultFn}

/-- The entry that a first transmission leaves is the one it added. -/
theorem sendConMsg_entry (h : endpt.confirmq.Reps l) {nbytes : UInt32}
    (hn : nbytes ≤ endpt.wrbuffer.nbytes)
    (hsend : sendConMsg endpt nbytes toaddr msg resultfn = .ok (mnDone, endpt')) :
    ∃ copy, endpt'.confirmq.Reps (l ++ [(endpt.confirmq.brk,
      { newPending (mcMessageGetMessageId msg) toaddr copy resultfn endpt.host with
        xmitcounter := 1 })]) := by
  obtain ⟨copy, hcopy⟩ : ∃ copy, mcBufferCopy (some endpt.wrbuffer) 0 nbytes = some copy := by
    simp only [mcBufferCopy, UInt32.sub_zero, if_neg (UInt32.not_lt.mpr hn)]
    exact ⟨_, rfl⟩
  obtain ⟨queue, hadd, hreps, _⟩ := mcBufferQueueAdd_spec h (mcMessageGetMessageId msg) toaddr
    copy resultfn endpt.host
  have hcode := sendConMsg_eq hn hcopy hadd
  rw [hsend] at hcode
  simp only at hcode
  generalize hsent : sendtoSocket _ (some endpt.confirmq.brk) _ toaddr = sent at hcode
  obtain ⟨err, endpt1⟩ := sent
  obtain ⟨hqueue, _⟩ := sendtoSocket_frame hsent
  have hreps1 : endpt1.confirmq.Reps (l ++ [(endpt.confirmq.brk,
      newPending (mcMessageGetMessageId msg) toaddr copy resultfn endpt.host)]) := by
    rw [hqueue]
    exact hreps
  obtain ⟨endpt'', hafter, _, _, _, hdone, _⟩ := afterFirstSend_spec hreps1 err
  have hboth := hcode.trans hafter
  cases hboth
  exact ⟨copy, (hdone rfl).1⟩

/-- The timeout it waits with: drawn and started when it was added. -/
theorem mcEndptUdpSend_timeout (h : endpt.confirmq.Reps l)
    (hcon : mcMessageIsConfirmable msg = true)
    (hsend : mcEndptUdpSend endpt toaddr msg resultfn = .ok (mnDone, endpt')) :
    ∃ v, endpt'.confirmq.Reps (l ++ [(endpt.confirmq.brk, v)]) ∧
      v.timeout = ⟨-1, (mkTimeout endpt.host).1, endpt.host.clock endpt.host.ticks⟩ := by
  obtain ⟨nbytes, wrbuffer, host, hrun, hn⟩ := mcEndptUdpSend_returns hsend
  obtain ⟨hsize, hhost⟩ := runIn_frame hrun
  rw [mcEndptUdpSend, hrun] at hsend
  have hcode : sendConMsg { endpt with wrbuffer := wrbuffer, host := host } nbytes toaddr msg
      resultfn = .ok (mnDone, endpt') := by
    rw [← hsend]
    exact (if_pos hcon).symm
  rw [← hsize] at hn
  have h' : ({ endpt with wrbuffer := wrbuffer, host := host } : Endpoint).confirmq.Reps l := h
  obtain ⟨copy, hreps⟩ := sendConMsg_entry h' hn hcode
  refine ⟨_, hreps, ?_⟩
  -- encoding draws no random number and reads no clock
  rw [hhost]
  rfl

theorem mkTimeout_nonneg (host : Host) : 0 ≤ (mkTimeout host).1 :=
  (newPending_fresh peer ping ⟨0, fun _ => 0⟩ 0 host).total

end

/-- Let the socket take a confirmable message at `t0`, with a timeout `T0`.
    However the endpoint is used afterwards, the timeout is `T0 * 2 ^ k`
    after `k` retransmissions, and the clock reading in front of the next
    one, or of giving up, is no earlier than `t0 + T0 * (2 ^ (k + 1) - 1)`. -/
theorem backoff_not_shortened {qsort : Qsort McOption} {endpt first : Endpoint}
    {l : Nodes Pending} {toaddr : SockAddr} {msg : McMessage} {resultfn : ResultFn}
    (h : endpt.confirmq.Reps l) (hclock : Monotone endpt.host.clock)
    (hcon : mcMessageIsConfirmable msg = true)
    (hsend : mcEndptUdpSend endpt toaddr msg resultfn = .ok (mnDone, first)) :
    let a := endpt.confirmq.brk
    let T0 := (mkTimeout endpt.host).1
    let t0 := endpt.host.clock endpt.host.ticks
    (∃ v, first.Queues a v ∧ v.timeout.total = T0 ∧ v.timeout.start = t0) ∧
    ((∀ n, endpt.host.rands n ≤ endpt.host.randMax) →
      ackTimeout ≤ T0 ∧ T0 ≤ ackTimeout * ackRandomFactor) ∧
    ∀ ops w, Run (walkStep qsort) ⟨first, none⟩ ops w →
      ∃ events, w.endpt.trace = first.trace ++ events ∧
        (∀ v, w.endpt.Queues a v → v.timeout.total = T0 * 2 ^ transmissions a events) ∧
        ∀ op w', walkStep qsort w op w' →
          ∃ more, w'.endpt.trace = w.endpt.trace ++ more ∧
            ∀ event ∈ more, event.Expires a →
              t0 + T0 * (2 ^ (transmissions a events + 1) - 1) ≤
                endpt.host.clock w.endpt.host.ticks := by
  intro a T0 t0
  obtain ⟨v, hreps, htimeout⟩ := mcEndptUdpSend_timeout h hcon hsend
  have hlater := mcEndptUdpSend_later h hsend
  have hT0 : 0 ≤ T0 := mkTimeout_nonneg endpt.host
  have hclock' : Monotone first.host.clock := by
    rw [hlater.clock]
    exact hclock
  have htracked : Tracked T0 t0 a first [] (l ++ [(a, v)]) ⟨first, none⟩ := by
    refine ⟨hreps, atEntry_idle rfl, ?_, Later.refl _, (List.append_nil _).symm, ?_⟩
    · exact hreps.lt (by simp [a])
    · intro u hu
      rw [entry_unique hreps.isList.nodup hu]
      refine ⟨by rw [htimeout], ?_, ?_⟩
      · rw [htimeout]
        show T0 = T0 * 2 ^ 0
        ring
      · rw [htimeout]
        show t0 + T0 * (2 ^ 0 - 1) ≤ t0
        linarith
  refine ⟨⟨v, ⟨_, hreps, by simp [a]⟩, by rw [htimeout], by rw [htimeout]⟩,
    fun hrand => mkTimeout_bounds (hrand _), ?_⟩
  intro ops w hrun
  obtain ⟨events, l', hafter⟩ := htracked.run hT0 hclock' hrun
  refine ⟨events, hafter.trace, ?_, ?_⟩
  · rintro u ⟨l'', hreps'', hu⟩
    rw [hreps''.unique hafter.reps] at hu
    exact (hafter.entry u hu).total
  · intro op w' hstep
    obtain ⟨more, l'', hnext, hbound⟩ := hafter.step hT0 hclock' hstep
    refine ⟨more, ?_, ?_⟩
    · rw [hnext.trace, hafter.trace, List.append_assoc]
    · intro event hevent hexpires
      have hread := hbound event hevent hexpires
      rw [hafter.later.clock, hlater.clock] at hread
      exact hread

/-- A ping on a host whose clock is read once in 1000 seconds. -/
theorem backoff_not_shortened_ping :
    (∃ v, pinged.Queues 0 v ∧ v.timeout.total = 2 ∧ v.timeout.start = 1000) ∧
    ∀ ops w, Run (walkStep (insertion McOption)) ⟨pinged, none⟩ ops w →
      ∃ events, w.endpt.trace = pinged.trace ++ events ∧
        (∀ v, w.endpt.Queues 0 v → v.timeout.total = 2 * 2 ^ transmissions 0 events) ∧
        ∀ op w', walkStep (insertion McOption) w op w' →
          ∃ more, w'.endpt.trace = w.endpt.trace ++ more ∧
            ∀ event ∈ more, event.Expires 0 →
              1000 + 2 * (2 ^ (transmissions 0 events + 1) - 1) ≤
                slowHost.clock w.endpt.host.ticks := by
  have hclock : Monotone (mcEndptUdpInit 64 64 slowHost).host.clock := by
    intro n m hnm
    show (1000 : ℚ) * n ≤ 1000 * m
    exact mul_le_mul_of_nonneg_left (Nat.cast_le.mpr hnm) (by norm_num)
  have hT0 : (mkTimeout (mcEndptUdpInit 64 64 slowHost).host).1 = 2 := by decide +kernel
  have ht0 : (mcEndptUdpInit 64 64 slowHost).host.clock
      (mcEndptUdpInit 64 64 slowHost).host.ticks = 1000 := by decide +kernel
  have hall := @backoff_not_shortened (insertion McOption) _ _ _ _ _ _
    (mcEndptUdpInit_shows 64 64 slowHost).reps hclock rfl send_pinged
  simp only [hT0, ht0] at hall
  exact ⟨hall.1, hall.2.2⟩

end Mcoap
