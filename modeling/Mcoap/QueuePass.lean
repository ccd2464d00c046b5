import Mcoap.Budget
import Mcoap.PendingIds

/-! # One pass over the confirm queue

    `mc_endpt_udp_check_queues`, also with result functions that send new
    messages while the pass is under way.

    * `checkQueuesLoopWith`: the loop, with the result functions run at the
      place where they are called;
    * `PassWork`: what a pass should do, entry by entry;
    * `pass_exact`: it does that and no more, and new entries end up behind
      the old ones. -/

namespace Mcoap

open ByteMem ByteProg StableSort DList Runs Relation

/-! ## Section 1: The pass with result functions that call back -/

/-- What the result functions do to the endpoint they are handed. -/
abbrev Callback : Type := ResultFn → UInt16 → Int → Endpoint → Except Fault Endpoint

def callResultFnWith (callback : Callback) (endpt : Endpoint) (owner : Addr)
    (resultfn : ResultFn) (msgid : UInt16) (err : Int) : Except Fault Endpoint :=
  if resultfn > 1 then
    callback resultfn msgid err (endpt.note (.called owner resultfn msgid err))
  else
    .ok endpt

/-- `resendOrNotify`; the queue that the entry is removed from is the one
    that the result function leaves. -/
def resendOrNotifyWith (callback : Callback) (endpt : Endpoint) (a : Addr) :
    Except Fault (Option Addr × Endpoint) := do
  let (err, endpt) ← sendEntryBuffer endpt a
  let (_, current) ← entryAt endpt.confirmq.cells (some a)
  if err ≠ mnDone then
    let endpt ← callResultFnWith callback endpt a current.val.resultfn current.val.msgid err
    let (next, confirmq) ← mcBufferQueueRemoveEntry endpt.confirmq (some a)
    return (next, { endpt with confirmq := confirmq }.note (.removed a .checkQueues))
  else
    return (current.next, endpt)

def checkEntryWith (callback : Callback) (endpt : Endpoint) (a : Addr) :
    Except Fault (Option Addr × Endpoint) := do
  let (_, current) ← entryAt endpt.confirmq.cells (some a)
  let (left, host) := mnTimeoutGet current.val.timeout endpt.host
  let endpt := { endpt with host := host }
  if left = 0 then
    let endpt ← backOff endpt a current.val.timeout.total
    resendOrNotifyWith callback endpt a
  else
    return (current.next, endpt)

/-- The loop, for a number of rounds. -/
def checkQueuesLoopWith (callback : Callback) : Nat → Option Addr → Endpoint → Except Fault Endpoint
  | _, none, endpt => .ok endpt
  | 0, some _, _ => .error .endless
  | fuel + 1, some a, endpt => do
    let (current, endpt) ← checkEntryWith callback endpt a
    checkQueuesLoopWith callback fuel current endpt

/-- Result functions that leave the endpoint alone. -/
def idle : Callback := fun _ _ _ endpt => .ok endpt

theorem resendOrNotifyWith_idle (endpt : Endpoint) (a : Addr) :
    resendOrNotifyWith idle endpt a = resendOrNotify endpt a := by
  have hcall : ∀ (e : Endpoint) (resultfn : ResultFn) (msgid : UInt16) (err : Int),
      callResultFnWith idle e a resultfn msgid err =
        .ok (callResultFn e a resultfn msgid err) := by
    intro e resultfn msgid err
    unfold callResultFnWith callResultFn idle
    split
    · rfl
    · rfl
  simp only [resendOrNotifyWith, resendOrNotify, hcall]
  rfl

theorem checkEntryWith_idle (endpt : Endpoint) (a : Addr) :
    checkEntryWith idle endpt a = checkEntry endpt a := by
  simp only [checkEntryWith, checkEntry, resendOrNotifyWith_idle]

/-- Without callbacks it is the loop of before. -/
theorem checkQueuesLoopWith_idle (fuel : Nat) (current : Option Addr) (endpt : Endpoint) :
    checkQueuesLoopWith idle fuel current endpt = checkQueuesLoop fuel current endpt := by
  induction fuel generalizing current endpt with
  | zero =>
    cases current with
    | none => rfl
    | some a => rfl
  | succ fuel ih =>
    cases current with
    | none => rfl
    | some a => simp only [checkQueuesLoopWith, checkQueuesLoop, checkEntryWith_idle, ih]

/-- The states at which the loop tests `current`. -/
inductive Reached (callback : Callback) (start : Endpoint) : Option Addr → Endpoint → Prop where
  | start : Reached callback start start.confirmq.first start
  | round {a : Addr} {endpt endpt' : Endpoint} {next : Option Addr}
      (hreached : Reached callback start (some a) endpt)
      (hround : checkEntryWith callback endpt a = .ok (next, endpt')) :
      Reached callback start next endpt'

/-! ## Section 2: Result functions that enqueue messages -/

/-- What it takes to enqueue a message. -/
inductive Enqueues : Endpoint → Endpoint → Prop where
  /-- a confirmable message is sent, and the socket takes it -/
  | sends {endpt endpt' : Endpoint} {toaddr : SockAddr} {msg : McMessage} {resultfn : ResultFn}
      (hcon : mcMessageIsConfirmable msg = true)
      (hsend : mcEndptUdpSend endpt toaddr msg resultfn = .ok (mnDone, endpt')) :
      Enqueues endpt endpt'
  /-- before that an id is drawn for it -/
  | nextid (endpt : Endpoint) : Enqueues endpt (mcEndptUdpNextid endpt).2
  /-- and the host is asked, for its token or its options -/
  | asks {endpt : Endpoint} {host : Host} (hlater : Later endpt.host host) :
      Enqueues endpt { endpt with host := host }

/-- Result functions that do nothing but that, any number of times. -/
def Enqueuing (callback : Callback) : Prop :=
  ∀ resultfn msgid err endpt, ∃ endpt', callback resultfn msgid err endpt = .ok endpt' ∧
    ReflTransGen Enqueues endpt endpt'

/-- The result functions called in the pass from `start` do nothing but
    that: each round goes as it would with functions of this kind. -/
def EnqueuesOnly (callback : Callback) (start : Endpoint) : Prop :=
  ∀ a endpt, Reached callback start (some a) endpt →
    ∃ callback', Enqueuing callback' ∧
      checkEntryWith callback endpt a = checkEntryWith callback' endpt a

/-- No entry that came in during the pass is due when the pass reaches it. -/
def NewNotDue (callback : Callback) (start : Endpoint) : Prop :=
  ∀ a endpt entry, Reached callback start (some a) endpt → start.confirmq.brk ≤ a →
    endpt.confirmq.cells a = some entry → (mnTimeoutGet entry.val.timeout endpt.host).1 ≠ 0

/-! ## Section 3: What a pass should do -/

/-- What happens to an entry that is due: what is left of it, and what is
    recorded. -/
inductive Resent (a : Addr) (v : Pending) : Option Pending → List Event → Prop where
  /-- it is sent and counts one more transmission -/
  | done (hlt : v.xmitcounter < maxRetransmit) :
      Resent a v (some { v with xmitcounter := v.xmitcounter + 1 }) [sentEvent a v mnDone]
  /-- it leaves when sending it fails -/
  | failed {err : Int} (hlt : v.xmitcounter < maxRetransmit) (herr : err ≠ mnDone) :
      Resent a v none (sentEvent a v err :: (resultOf a v err ++ [.removed a .checkQueues]))
  /-- or when it has been sent `MAX_RETRANSMIT` times -/
  | exhausted (hge : v.xmitcounter ≥ maxRetransmit) :
      Resent a v none (resultOf a v mnTimeout ++ [.removed a .checkQueues])

/-- What happens to an entry when the clock is read at `host`: nothing if
    it is not due; if it is, its timeout is doubled and started again, and
    it is sent or given up. -/
inductive EntryWork (a : Addr) (v : Pending) (host : Host) : Option Pending → List Event → Prop where
  | waiting (hleft : (mnTimeoutGet v.timeout host).1 ≠ 0) : EntryWork a v host (some v) []
  | due {timeout : MnTimeout} {host' : Host} {out : Option Pending} {events : List Event}
      (hdue : (mnTimeoutGet v.timeout host).1 = 0)
      (hstart : mnTimeoutMarkstart (mnTimeoutInit (-1) (v.timeout.total * 2))
        (mnTimeoutGet v.timeout host).2 = (timeout, host'))
      (hresent : Resent a { v with timeout := timeout } out events) :
      EntryWork a v host out events

/-- The same for a list, in order: the entries that are left, and what is
    recorded.  The clock is read for each entry after the one before it. -/
inductive PassWork : Host → Nodes Pending → Nodes Pending → List Event → Host → Prop where
  | nil (host : Host) : PassWork host [] [] [] host
  | visit {host reading host' last : Host} {a : Addr} {v : Pending} {out : Option Pending}
      {rest kept : Nodes Pending} {events events' : List Event}
      (hbefore : Later host reading) (hwork : EntryWork a v reading out events)
      (hafter : Later (mnTimeoutGet v.timeout reading).2 host')
      (hrest : PassWork host' rest kept events' last) :
      PassWork host ((a, v) :: rest) ((out.map fun v => (a, v)).toList ++ kept)
        (events ++ events') last

/-- What is recorded about the entries of a list. -/
def about (l : Nodes Pending) (event : Event) : Bool :=
  (addrs l).any fun a => event.owner = some a

/-- An entry that came in, and was sent once. -/
def enqueuedEvents (l : Nodes Pending) : List Event :=
  l.flatMap fun x => [queuedEvent x.1 x.2, sentEvent x.1 x.2 mnDone]

/-- A pass over the queue that stood for `l` has done its work; the entries
    `news` came in meanwhile. -/
structure PassExact (endpt endpt' : Endpoint) (l news : Nodes Pending) : Prop where
  work  : ∃ kept events last, PassWork endpt.host l kept (events.filter (about l)) last ∧
    Later last endpt'.host ∧ endpt'.confirmq.Reps (kept ++ news) ∧
    endpt'.trace = endpt.trace ++ events ∧
    events.filter (fun event => !about l event) = enqueuedEvents news
  fresh : ∀ x ∈ news, endpt.confirmq.brk ≤ x.1 ∧ x.2.xmitcounter = 1

/-! ## Section 4: Sends only use the host up -/

theorem runIn_later {α : Type} {x : Code α} {block block' : McBuffer} {host host' : Host}
    {value : α} (h : runIn x block host = .ok (value, block', host')) : Later host host' := by
  obtain ⟨_, hhost⟩ := runIn_frame h
  rw [hhost]
  exact ⟨rfl, Nat.le_refl _⟩

theorem queueEntryInit_later (msgid : UInt16) (dest : SockAddr) (msg : McBuffer)
    (resultfn : ResultFn) (prev next : Option Addr) (host : Host) :
    Later host (queueEntryInit msgid dest msg resultfn prev next host).2 :=
  ⟨rfl, Nat.le_succ _⟩

theorem sendtoSocket_later (endpt : Endpoint) (owner : Option Addr) (data : List UInt8)
    (dest : SockAddr) : Later endpt.host (sendtoSocket endpt owner data dest).2.host :=
  ⟨rfl, Nat.le_succ _⟩

theorem sendEndptBuffer_later {endpt endpt' : Endpoint} {owner : Option Addr} {nbytes : UInt32}
    {toaddr : SockAddr} {err : Int}
    (h : sendEndptBuffer endpt owner nbytes toaddr = .ok (err, endpt')) :
    Later endpt.host endpt'.host := by
  unfold sendEndptBuffer at h
  split at h
  · exact absurd h (by simp)
  · have hlater := sendtoSocket_later endpt owner (slice endpt.wrbuffer.bytes 0 nbytes.toNat) toaddr
    rw [Except.ok.inj h] at hlater
    exact hlater

theorem afterFirstSend_host {endpt endpt' : Endpoint} {a : Addr} {msgid : UInt16}
    {resultfn : ResultFn} {err err' : Int}
    (h : afterFirstSend endpt a msgid resultfn err = .ok (err', endpt')) :
    endpt'.host = endpt.host := by
  unfold afterFirstSend at h
  split at h
  · obtain ⟨endpt1, hset, hret⟩ := bind_eq_ok.mp h
    obtain ⟨_, _, hset⟩ := bind_eq_ok.mp hset
    cases hset
    cases hret
    rfl
  · obtain ⟨_, _, hret⟩ := bind_eq_ok.mp h
    cases hret
    show (callResultFn endpt a resultfn msgid err).host = endpt.host
    unfold callResultFn
    split
    · rfl
    · rfl

theorem sendConMsg_later {endpt endpt' : Endpoint} {l : Nodes Pending}
    (h : endpt.confirmq.Reps l) {nbytes : UInt32} {toaddr : SockAddr} {msg : McMessage}
    {resultfn : ResultFn} {err : Int}
    (hsend : sendConMsg endpt nbytes toaddr msg resultfn = .ok (err, endpt')) :
    Later endpt.host endpt'.host := by
  unfold sendConMsg at hsend
  simp only at hsend
  split at hsend
  · exact absurd hsend (by simp)
  · rename_i copy _
    obtain ⟨queue, hadd, _⟩ := mcBufferQueueAdd_spec h (mcMessageGetMessageId msg)
      (mnSockaddrCopy toaddr) copy resultfn endpt.host
    obtain ⟨⟨a, queue', host⟩, hadd', hrest⟩ := bind_eq_ok.mp hsend
    rw [hadd] at hadd'
    cases hadd'
    obtain ⟨⟨err1, endpt1⟩, hfirst, hrest⟩ := bind_eq_ok.mp hrest
    have hadded := queueEntryInit_later (mcMessageGetMessageId msg) (mnSockaddrCopy toaddr) copy
      resultfn none none endpt.host
    rw [afterFirstSend_host hrest]
    exact hadded.trans (sendEndptBuffer_later hfirst)

theorem mcEndptUdpSend_later {endpt endpt' : Endpoint} {l : Nodes Pending}
    (h : endpt.confirmq.Reps l) {toaddr : SockAddr} {msg : McMessage} {resultfn : ResultFn}
    {err : Int} (hsend : mcEndptUdpSend endpt toaddr msg resultfn = .ok (err, endpt')) :
    Later endpt.host endpt'.host := by
  obtain ⟨⟨nbytes, wrbuffer, host⟩, hrun, hrest⟩ := bind_eq_ok.mp hsend
  have hencoded := runIn_later hrun
  simp only at hrest
  split at hrest
  · have hreps : { endpt with wrbuffer := wrbuffer, host := host }.confirmq.Reps l := h
    have hsent : Later host endpt'.host := sendConMsg_later hreps hrest
    exact hencoded.trans hsent
  · exact hencoded.trans (sendEndptBuffer_later hrest)

/-! ## Section 5: What enqueuing does -/

theorem enqueuedEvents_append (l l' : Nodes Pending) :
    enqueuedEvents (l ++ l') = enqueuedEvents l ++ enqueuedEvents l' := List.flatMap_append ..

/-- A part of the pass: the queue stands for `l` now, and the entries
    `added` came in. -/
structure Progress (endpt endpt' : Endpoint) (l added : Nodes Pending) (events : List Event) :
    Prop where
  reps  : endpt'.confirmq.Reps l
  brk   : endpt.confirmq.brk ≤ endpt'.confirmq.brk
  trace : endpt'.trace = endpt.trace ++ events
  host  : Later endpt.host endpt'.host
  fresh : ∀ x ∈ added, endpt.confirmq.brk ≤ x.1 ∧ x.2.xmitcounter = 1

theorem Progress.refl {endpt : Endpoint} {l : Nodes Pending} (h : endpt.confirmq.Reps l) :
    Progress endpt endpt l [] [] where
  reps := h
  brk := Nat.le_refl _
  trace := (List.append_nil _).symm
  host := Later.refl _
  fresh _ hx := absurd hx List.not_mem_nil

theorem Progress.trans {endpt endpt1 endpt2 : Endpoint} {l l' added added' : Nodes Pending}
    {events events' : List Event} (h : Progress endpt endpt1 l added events)
    (h' : Progress endpt1 endpt2 l' added' events') :
    Progress endpt endpt2 l' (added ++ added') (events ++ events') where
  reps := h'.reps
  brk := h.brk.trans h'.brk
  trace := by rw [h'.trace, h.trace, List.append_assoc]
  host := h.host.trans h'.host
  fresh x hx := by
    rcases List.mem_append.mp hx with hx | hx
    · exact h.fresh x hx
    · exact ⟨h.brk.trans (h'.fresh x hx).1, (h'.fresh x hx).2⟩

/-- The steps of the pass that nothing comes in during. -/
theorem Passed.progress {endpt endpt' : Endpoint} {l : Nodes Pending} {events : List Event}
    {tmout : MnTimeout} {host : Host} (h : Passed endpt endpt' l events tmout host)
    (hhost : Later endpt.host host) : Progress endpt endpt' l [] events where
  reps := h.reps
  brk := Nat.le_of_eq h.brk.symm
  trace := h.trace
  host := by
    rw [h.host]
    exact hhost
  fresh _ hx := absurd hx List.not_mem_nil

theorem Enqueues.progress {endpt endpt' : Endpoint} {l : Nodes Pending}
    (h : endpt.confirmq.Reps l) (hstep : Enqueues endpt endpt') :
    ∃ added, Progress endpt endpt' (l ++ added) added (enqueuedEvents added) := by
  cases hstep with
  | sends hcon hsend =>
    obtain ⟨v, hfresh, hfirst⟩ := (mcEndptUdpSend_spec h hsend).con hcon
    obtain ⟨hreps, htrace⟩ := hfirst.done rfl
    refine ⟨[(endpt.confirmq.brk, { v with xmitcounter := 1 })], hreps, ?_, htrace,
      mcEndptUdpSend_later h hsend, ?_⟩
    · rw [hfirst.brk]
      exact Nat.le_succ _
    · intro x hx
      rw [List.mem_singleton.mp hx]
      exact ⟨Nat.le_refl _, rfl⟩
  -- nothing comes in
  | nextid =>
    refine ⟨[], ?_, Nat.le_refl _, (List.append_nil _).symm, Later.refl _,
      fun _ hx => absurd hx List.not_mem_nil⟩
    rw [List.append_nil]
    exact h
  | asks hlater =>
    refine ⟨[], ?_, Nat.le_refl _, (List.append_nil _).symm, hlater,
      fun _ hx => absurd hx List.not_mem_nil⟩
    rw [List.append_nil]
    exact h

theorem enqueues_progress {endpt endpt' : Endpoint} {l : Nodes Pending}
    (h : endpt.confirmq.Reps l) (hsends : ReflTransGen Enqueues endpt endpt') :
    ∃ added, Progress endpt endpt' (l ++ added) added (enqueuedEvents added) := by
  induction hsends with
  | refl =>
    refine ⟨[], ?_⟩
    rw [List.append_nil]
    exact Progress.refl h
  | tail _ hstep ih =>
    obtain ⟨added, hprogress⟩ := ih
    obtain ⟨more, hnext⟩ := hstep.progress hprogress.reps
    refine ⟨added ++ more, ?_⟩
    rw [← List.append_assoc, enqueuedEvents_append]
    exact hprogress.trans hnext

/-- A request with a result function that returns its id: what makes its
    options may ask the host. -/
theorem sendMsg_enqueues {qsort : Qsort McOption} {mcUriToOptions : UriToOptions}
    (hasks : ∀ {addr uri host list host'}, mcUriToOptions addr uri host = .ok (list, host') →
      Later host host') {endpt endpt' : Endpoint} {addr : SockAddr} {resultfn : ResultFn}
    {code : UInt8} {uri : List UInt8} {extra : Option McOptionsList} {payload : Option McBuffer}
    {r : UInt16} (hfn : resultfn ≠ 0) (hr : r ≠ 0)
    (hsend : sendMsg qsort mcUriToOptions endpt addr resultfn code uri extra payload =
      .ok (r, endpt')) : ReflTransGen Enqueues endpt endpt' := by
  obtain ⟨⟨list, host⟩, hmade, hrest⟩ := bind_eq_ok.mp hsend
  obtain ⟨token, _, _, hmessage, rfl⟩ :=
    mkMessage_eq { endpt with host := host } code resultfn list payload
  simp only [hmessage] at hrest
  obtain ⟨⟨err, endpt1⟩, hsent, hret⟩ := bind_eq_ok.mp hrest
  cases hret
  have hdone : err = mnDone := by
    by_contra herr
    exact hr (if_pos herr)
  subst hdone
  have hcon := isConfirmable_request resultfn code endpt.nextid token list payload
  rw [decide_eq_true hfn] at hcon
  have hlater : Later endpt.host host := by
    obtain ⟨⟨made, host1⟩, huri, hmerged⟩ := bind_eq_ok.mp hmade
    have hasked := hasks huri
    cases extra with
    | none =>
      cases hmerged
      exact hasked
    | some extra =>
      cases made with
      | none => exact absurd hmerged (by simp)
      | some made =>
        cases hmerged
        exact hasked
  -- the options, the id, the token, and the message
  have hoptions : Enqueues endpt { endpt with host := host } := Enqueues.asks hlater
  have hid := Enqueues.nextid { endpt with host := host }
  have htoken : Enqueues (mcEndptUdpNextid { endpt with host := host }).2
      { (mcEndptUdpNextid { endpt with host := host }).2 with host := (rand host).2 } :=
    Enqueues.asks ⟨rfl, Nat.le_refl _⟩
  exact (((ReflTransGen.single hoptions).tail hid).tail htoken).tail (Enqueues.sends hcon hsent)

/-- A call of a result function: the entry it is about stays in the queue
    until the function has returned. -/
theorem callResultFnWith_spec {callback : Callback} (hcallback : Enqueuing callback)
    {endpt : Endpoint} {l : Nodes Pending} (h : endpt.confirmq.Reps l) (a : Addr) (v : Pending)
    (err : Int) :
    ∃ endpt' added, callResultFnWith callback endpt a v.resultfn v.msgid err = .ok endpt' ∧
      Progress endpt endpt' (l ++ added) added (resultOf a v err ++ enqueuedEvents added) := by
  unfold callResultFnWith resultOf
  by_cases hfn : v.resultfn > 1
  · obtain ⟨endpt', hcall, hsends⟩ := hcallback v.resultfn v.msgid err
      (endpt.note (.called a v.resultfn v.msgid err))
    have hnoted : Progress endpt (endpt.note (.called a v.resultfn v.msgid err)) l []
        [.called a v.resultfn v.msgid err] :=
      ⟨h, Nat.le_refl _, rfl, Later.refl _, fun _ hx => absurd hx List.not_mem_nil⟩
    obtain ⟨added, hprogress⟩ := enqueues_progress hnoted.reps hsends
    rw [if_pos hfn, if_pos hfn]
    exact ⟨endpt', added, hcall, hnoted.trans hprogress⟩
  · rw [if_neg hfn, if_neg hfn]
    refine ⟨endpt, [], rfl, ?_⟩
    rw [List.append_nil]
    exact Progress.refl h

/-! ## Section 6: One round -/

/-- Giving an entry up: the loop goes on with the successor it has by then. -/
theorem notifyWith_spec {callback : Callback} (hcallback : Enqueuing callback)
    {endpt : Endpoint} {xs ys : Nodes Pending} {a : Addr} {v : Pending}
    (h : endpt.confirmq.Reps (xs ++ (a, v) :: ys)) (err : Int) :
    ∃ endpt1 confirmq added,
      callResultFnWith callback endpt a v.resultfn v.msgid err = .ok endpt1 ∧
      mcBufferQueueRemoveEntry endpt1.confirmq (some a) =
        .ok (headOf (ys ++ added) none, confirmq) ∧
      Progress endpt ({ endpt1 with confirmq := confirmq }.note (.removed a .checkQueues))
        (xs ++ (ys ++ added)) added
        (resultOf a v err ++ (enqueuedEvents added ++ [.removed a .checkQueues])) := by
  obtain ⟨endpt1, added, hcall, hcalled⟩ := callResultFnWith_spec hcallback h a v err
  have hreps := hcalled.reps
  rw [List.append_assoc, List.cons_append] at hreps
  obtain ⟨confirmq, hremove, hreps', hbrk, _⟩ := mcBufferQueueRemoveEntry_spec hreps
  refine ⟨endpt1, confirmq, added, hcall, hremove, hreps', ?_, ?_, hcalled.host, hcalled.fresh⟩
  · show endpt.confirmq.brk ≤ confirmq.brk
    rw [hbrk]
    exact hcalled.brk
  · show endpt1.trace ++ [.removed a .checkQueues] = _
    rw [hcalled.trace]
    simp only [List.append_assoc]

theorem resendOrNotifyWith_spec {callback : Callback} (hcallback : Enqueuing callback)
    {endpt : Endpoint} {xs ys : Nodes Pending} {a : Addr} {v : Pending}
    (h : endpt.confirmq.Reps (xs ++ (a, v) :: ys)) :
    ∃ endpt' out added pre post, resendOrNotifyWith callback endpt a =
        .ok (headOf (ys ++ added) none, endpt') ∧ Resent a v out (pre ++ post) ∧
      Progress endpt endpt' (xs ++ ((out.map fun v => (a, v)).toList ++ (ys ++ added))) added
        (pre ++ (enqueuedEvents added ++ post)) := by
  unfold resendOrNotifyWith
  by_cases hge : v.xmitcounter ≥ maxRetransmit
  · obtain ⟨endpt1, confirmq, added, hcall, hremove, hprogress⟩ :=
      notifyWith_spec hcallback h mnTimeout
    refine ⟨_, none, added, resultOf a v mnTimeout, [.removed a .checkQueues], ?_,
      Resent.exhausted hge, hprogress⟩
    rw [sendEntryBuffer_exhausted h hge]
    show (entryAt endpt.confirmq.cells (some a) >>= _) = _
    rw [entryAt_some h.isList.node]
    show (callResultFnWith callback endpt a v.resultfn v.msgid mnTimeout >>= _) = _
    rw [hcall]
    show (mcBufferQueueRemoveEntry endpt1.confirmq (some a) >>= _) = _
    rw [hremove]
    rfl
  · have hlt : v.xmitcounter < maxRetransmit := UInt16.not_le.mp hge
    obtain ⟨endpt1, hsend, hsent⟩ := sendEntryBuffer_spec h hge
    have hsent' := hsent.progress (sendtoSocket_later endpt (some a) v.msg.toList v.dest)
    rw [hsend]
    generalize (sendtoSocket endpt (some a) v.msg.toList v.dest).1 = err at *
    by_cases herr : err = mnDone
    -- the loop goes on with the entry's own next link
    · subst herr
      refine ⟨endpt1, _, [], [sentEvent a v mnDone], [], ?_, Resent.done hlt, ?_⟩
      · show (entryAt endpt1.confirmq.cells (some a) >>= _) = _
        rw [entryAt_some hsent.reps.isList.node, List.append_nil]
        rfl
      · rw [List.append_nil]
        exact hsent'
    · obtain ⟨endpt2, confirmq, added, hcall, hremove, hprogress⟩ :=
        notifyWith_spec hcallback hsent.reps err
      refine ⟨_, none, added, sentEvent a v err :: resultOf a v err, [.removed a .checkQueues],
        ?_, Resent.failed hlt herr, hsent'.trans hprogress⟩
      show (entryAt endpt1.confirmq.cells (some a) >>= _) = _
      rw [entryAt_some hsent.reps.isList.node]
      show (if err ≠ mnDone then _ else _) = _
      rw [if_pos herr]
      show (callResultFnWith callback endpt1 a v.resultfn v.msgid err >>= _) = _
      rw [hcall]
      show (mcBufferQueueRemoveEntry endpt2.confirmq (some a) >>= _) = _
      rw [hremove]
      rfl

/-- An entry that is not due is passed over. -/
theorem checkEntryWith_waiting {endpt : Endpoint} {xs ys : Nodes Pending} {a : Addr} {v : Pending}
    (h : endpt.confirmq.Reps (xs ++ (a, v) :: ys))
    (hleft : (mnTimeoutGet v.timeout endpt.host).1 ≠ 0) (callback : Callback) :
    checkEntryWith callback endpt a =
      .ok (headOf ys none, { endpt with host := (mnTimeoutGet v.timeout endpt.host).2 }) := by
  unfold checkEntryWith
  rw [entryAt_some h.isList.node]
  exact if_neg hleft

/-- Step: one round does what it should do about its entry. -/
theorem checkEntryWith_spec {callback : Callback} (hcallback : Enqueuing callback)
    {endpt : Endpoint} {xs ys : Nodes Pending} {a : Addr} {v : Pending}
    (h : endpt.confirmq.Reps (xs ++ (a, v) :: ys)) :
    ∃ endpt' out added pre post, checkEntryWith callback endpt a =
        .ok (headOf (ys ++ added) none, endpt') ∧
      EntryWork a v endpt.host out (pre ++ post) ∧
      Later (mnTimeoutGet v.timeout endpt.host).2 endpt'.host ∧
      Progress endpt endpt' (xs ++ ((out.map fun v => (a, v)).toList ++ (ys ++ added))) added
        (pre ++ (enqueuedEvents added ++ post)) := by
  have hread := mnTimeoutGet_later v.timeout endpt.host
  have hgot : Progress endpt { endpt with host := (mnTimeoutGet v.timeout endpt.host).2 }
      (xs ++ (a, v) :: ys) [] [] :=
    ⟨h, Nat.le_refl _, (List.append_nil _).symm, hread, fun _ hx => absurd hx List.not_mem_nil⟩
  by_cases hleft : (mnTimeoutGet v.timeout endpt.host).1 = 0
  · obtain ⟨endpt1, hback, hbacked⟩ := backOff_spec hgot.reps v.timeout.total
    have hstarted := mnTimeoutMarkstart_later (mnTimeoutInit (-1) (v.timeout.total * 2))
      (mnTimeoutGet v.timeout endpt.host).2
    have hbacked' := hbacked.progress hstarted
    obtain ⟨endpt2, out, added, pre, post, hresend, hresent, hprogress⟩ :=
      resendOrNotifyWith_spec hcallback hbacked.reps
    refine ⟨endpt2, out, added, pre, post, ?_, EntryWork.due hleft rfl hresent,
      hbacked'.host.trans hprogress.host, (hgot.trans hbacked').trans hprogress⟩
    unfold checkEntryWith
    rw [entryAt_some h.isList.node]
    show (if (mnTimeoutGet v.timeout endpt.host).1 = 0 then _ else _) = _
    rw [if_pos hleft]
    show (backOff { endpt with host := (mnTimeoutGet v.timeout endpt.host).2 } a
      v.timeout.total >>= _) = _
    rw [hback]
    exact hresend
  · refine ⟨{ endpt with host := (mnTimeoutGet v.timeout endpt.host).2 }, some v, [], [], [], ?_,
      EntryWork.waiting hleft, Later.refl _, ?_⟩
    · rw [List.append_nil]
      exact checkEntryWith_waiting h hleft callback
    · rw [List.append_nil]
      exact hgot

/-! ## Section 7: The whole pass -/

section

variable {callback : Callback} {start : Endpoint} {l : Nodes Pending}

theorem Resent.ownedBy {a : Addr} {v : Pending} {out : Option Pending} {events : List Event}
    (h : Resent a v out events) : OwnedBy a events := by
  cases h with
  | done _ => exact OwnedBy.cons rfl OwnedBy.nil
  | failed _ _ => exact OwnedBy.cons rfl (ownedBy_result a v _ _)
  | exhausted _ => exact ownedBy_result a v _ _

theorem EntryWork.ownedBy {a : Addr} {v : Pending} {host : Host} {out : Option Pending}
    {events : List Event} (h : EntryWork a v host out events) : OwnedBy a events := by
  cases h with
  | waiting _ => exact OwnedBy.nil
  | due _ _ hresent => exact hresent.ownedBy

theorem about_owned {a : Addr} (ha : a ∈ addrs l) {events : List Event} (h : OwnedBy a events) :
    ∀ event ∈ events, about l event = true := by
  intro event hevent
  unfold about
  rw [List.any_eq_true]
  exact ⟨a, ha, decide_eq_true (h event hevent)⟩

theorem about_enqueued {added : Nodes Pending} (hnew : ∀ x ∈ added, x.1 ∉ addrs l) :
    ∀ event ∈ enqueuedEvents added, about l event = false := by
  intro event hevent
  obtain ⟨x, hx, hevent⟩ := List.mem_flatMap.mp hevent
  have howner : event.owner = some x.1 := by
    rcases List.mem_cons.mp hevent with rfl | hevent
    · rfl
    · rw [List.mem_singleton.mp hevent]
      rfl
  unfold about
  rw [List.any_eq_false]
  intro a ha hequal
  rw [howner] at hequal
  have hxa : x.1 = a := Option.some.inj (of_decide_eq_true hequal)
  exact hnew x hx (hxa ▸ ha)

/-- The events of a round: those about its entry, around those about the
    entries that came in. -/
theorem about_round {a : Addr} (ha : a ∈ addrs l) {pre post : List Event}
    (hown : OwnedBy a (pre ++ post)) {added : Nodes Pending}
    (hnew : ∀ x ∈ added, x.1 ∉ addrs l) :
    (pre ++ (enqueuedEvents added ++ post)).filter (about l) = pre ++ post ∧
      (pre ++ (enqueuedEvents added ++ post)).filter (fun event => !about l event) =
        enqueuedEvents added := by
  have hpre := about_owned ha fun event he => hown event (List.mem_append_left _ he)
  have hpost := about_owned ha fun event he => hown event (List.mem_append_right _ he)
  have henq := about_enqueued hnew
  have hall : ∀ {es : List Event}, (∀ event ∈ es, about l event = true) →
      es.filter (about l) = es ∧ es.filter (fun event => !about l event) = [] := by
    intro es hes
    exact ⟨List.filter_eq_self.mpr hes, List.filter_eq_nil_iff.mpr fun e he => by simp [hes e he]⟩
  have hnone : (enqueuedEvents added).filter (about l) = [] :=
    List.filter_eq_nil_iff.mpr fun e he => by simp [henq e he]
  have hself : (enqueuedEvents added).filter (fun event => !about l event) =
      enqueuedEvents added := List.filter_eq_self.mpr fun e he => by simp [henq e he]
  simp only [List.filter_append, (hall hpre).1, (hall hpre).2, (hall hpost).1, (hall hpost).2,
    hnone, hself, List.nil_append, List.append_nil, and_self]

/-- Run: the rounds over the old entries.  `ys` is what is left of them,
    `news` what has come in so far. -/
theorem checkQueuesLoopWith_old (hcalls : EnqueuesOnly callback start)
    (hbelow : ∀ a ∈ addrs l, a < start.confirmq.brk) {xs ys news : Nodes Pending}
    {endpt : Endpoint} (hreached : Reached callback start (headOf (ys ++ news) none) endpt)
    (h : endpt.confirmq.Reps (xs ++ (ys ++ news))) (hbrk : start.confirmq.brk ≤ endpt.confirmq.brk)
    (hold : ∀ a ∈ addrs ys, a ∈ addrs l) :
    ∃ endpt' kept added events last,
      (∀ fuel, checkQueuesLoopWith callback (ys.length + fuel) (headOf (ys ++ news) none) endpt =
        checkQueuesLoopWith callback fuel (headOf (news ++ added) none) endpt') ∧
      Reached callback start (headOf (news ++ added) none) endpt' ∧
      PassWork endpt.host ys kept (events.filter (about l)) last ∧ Later last endpt'.host ∧
      events.filter (fun event => !about l event) = enqueuedEvents added ∧
      Progress endpt endpt' (xs ++ (kept ++ (news ++ added))) added events := by
  induction ys generalizing xs news endpt with
  | nil =>
    refine ⟨endpt, [], [], [], endpt.host, ?_, ?_, PassWork.nil _, Later.refl _, rfl, ?_⟩
    · intro fuel
      rw [List.append_nil, List.length_nil, Nat.zero_add]
      rfl
    · rw [List.append_nil]
      exact hreached
    · rw [List.append_nil]
      exact Progress.refl h
  | cons y ys ih =>
    obtain ⟨a, v⟩ := y
    obtain ⟨callback', hcallback, hsame⟩ := hcalls a endpt hreached
    have h' : endpt.confirmq.Reps (xs ++ (a, v) :: (ys ++ news)) := h
    obtain ⟨endpt1, out, added, pre, post, hround, hwork, hafter, hprogress⟩ :=
      checkEntryWith_spec hcallback h'
    rw [← hsame] at hround
    have ha : a ∈ addrs l := hold a List.mem_cons_self
    have hnew : ∀ x ∈ added, x.1 ∉ addrs l := fun x hx hmem =>
      absurd (hbrk.trans (hprogress.fresh x hx).1) (Nat.not_le.mpr (hbelow x.1 hmem))
    obtain ⟨habout, hother⟩ := about_round ha hwork.ownedBy hnew
    -- what is left of this entry joins the part already visited
    have hreps := hprogress.reps
    rw [List.append_assoc, ← List.append_assoc] at hreps
    have hreached' := hreached.round hround
    rw [List.append_assoc] at hreached' hround
    obtain ⟨endpt2, kept, added', events, last, hloop, hend, hrest, hlast, hothers, hprogress'⟩ :=
      ih hreached' hreps (hbrk.trans hprogress.brk) fun b hb => hold b (List.mem_cons_of_mem _ hb)
    refine ⟨endpt2, (out.map fun v => (a, v)).toList ++ kept, added ++ added',
      (pre ++ (enqueuedEvents added ++ post)) ++ events, last, ?_, ?_, ?_, hlast, ?_, ?_⟩
    · intro fuel
      rw [List.length_cons, Nat.succ_add, ← List.append_assoc, ← hloop fuel]
      show (checkEntryWith callback endpt a >>= _) = _
      rw [hround]
      rfl
    · rw [← List.append_assoc]
      exact hend
    · rw [List.filter_append, habout]
      exact PassWork.visit (Later.refl _) hwork hafter hrest
    · rw [List.filter_append, hother, hothers, enqueuedEvents_append]
    · have hall := hprogress.trans hprogress'
      simp only [List.append_assoc] at hall ⊢
      exact hall

/-- Run: the rounds over the new entries, none of which is due. -/
theorem checkQueuesLoopWith_new (hnew : NewNotDue callback start) {xs ys : Nodes Pending}
    {endpt : Endpoint} (hreached : Reached callback start (headOf ys none) endpt)
    (h : endpt.confirmq.Reps (xs ++ ys)) (hfresh : ∀ a ∈ addrs ys, start.confirmq.brk ≤ a) :
    ∃ endpt', (∀ fuel, checkQueuesLoopWith callback (ys.length + fuel) (headOf ys none) endpt =
        .ok endpt') ∧ Progress endpt endpt' (xs ++ ys) [] [] := by
  induction ys generalizing xs endpt with
  | nil =>
    refine ⟨endpt, fun fuel => ?_, Progress.refl h⟩
    simp [headOf, checkQueuesLoopWith]
  | cons y ys ih =>
    obtain ⟨a, v⟩ := y
    have hleft := hnew a endpt _ hreached (hfresh a List.mem_cons_self) h.isList.node
    have hround := checkEntryWith_waiting h hleft callback
    have hread : Progress endpt { endpt with host := (mnTimeoutGet v.timeout endpt.host).2 }
        (xs ++ (a, v) :: ys) [] [] :=
      ⟨h, Nat.le_refl _, (List.append_nil _).symm, mnTimeoutGet_later _ _,
        fun _ hx => absurd hx List.not_mem_nil⟩
    have hreps : ({ endpt with host := (mnTimeoutGet v.timeout endpt.host).2 } :
        Endpoint).confirmq.Reps ((xs ++ [(a, v)]) ++ ys) := by
      rw [List.append_assoc]
      exact h
    obtain ⟨endpt', hloop, hprogress⟩ := ih (hreached.round hround) hreps
      fun b hb => hfresh b (List.mem_cons_of_mem _ hb)
    refine ⟨endpt', ?_, ?_⟩
    · intro fuel
      rw [List.length_cons, Nat.succ_add]
      show (checkEntryWith callback endpt a >>= _) = _
      rw [hround]
      exact hloop fuel
    · have hall := hread.trans hprogress
      simp only [List.append_assoc] at hall
      exact hall

/-- All that is recorded is about the entries of the list. -/
theorem PassWork.about {host last : Host} {kept : Nodes Pending} {events : List Event}
    (h : PassWork host l kept events last) : ∀ event ∈ events, about l event = true := by
  induction h with
  | nil host => exact fun _ he => absurd he List.not_mem_nil
  | @visit host reading host' last a v out rest kept events events' _ hwork _ _ ih =>
    intro event hevent
    rcases List.mem_append.mp hevent with he | he
    · exact about_owned (by simp) hwork.ownedBy event he
    · have hrest := ih event he
      unfold Mcoap.about at hrest ⊢
      rw [addrs_cons, List.any_cons, hrest, Bool.or_true]

/-- The pass without callbacks, entry by entry. -/
theorem visitEntry_work (a : Addr) (v : Pending) (tmout : MnTimeout) (host : Host) :
    EntryWork a v host (visitEntry a v tmout host).entry (visitEntry a v tmout host).events ∧
      Later (mnTimeoutGet v.timeout host).2 (visitEntry a v tmout host).host := by
  unfold visitEntry
  simp only
  split
  · rename_i hdue
    refine ⟨EntryWork.due hdue rfl ?_, (mnTimeoutMarkstart_later _ _).trans
      (resendEntry_later _ _ _ _)⟩
    unfold resendEntry
    split
    · rename_i hge
      exact Resent.exhausted hge
    · rename_i hge
      simp only
      split
      · rename_i herr
        exact Resent.failed (UInt16.not_le.mp hge) herr
      · rename_i herr
        rw [not_not.mp herr]
        exact Resent.done (UInt16.not_le.mp hge)
  · rename_i hleft
    exact ⟨EntryWork.waiting hleft, Later.refl _⟩

theorem checkPass_work (l : Nodes Pending) (tmout : MnTimeout) (host : Host) :
    PassWork host l (checkPass l tmout host).entries (checkPass l tmout host).events
      (checkPass l tmout host).host := by
  induction l generalizing tmout host with
  | nil => exact PassWork.nil host
  | cons x l ih =>
    obtain ⟨hwork, hafter⟩ := visitEntry_work x.1 x.2 tmout host
    exact PassWork.visit (Later.refl host) hwork hafter (ih _ _)

/-- The pass over a queue whose result functions leave the endpoint alone. -/
theorem check_exact {endpt : Endpoint} (h : endpt.confirmq.Reps l) :
    ∃ endpt', mcEndptUdpCheckQueues endpt = .ok endpt' ∧ PassExact endpt endpt' l [] := by
  obtain ⟨endpt', hcheck, hpassed⟩ := mcEndptUdpCheckQueues_spec h
  have hwork := checkPass_work l endpt.tmout endpt.host
  have hself : (checkPass l endpt.tmout endpt.host).events.filter (about l) =
      (checkPass l endpt.tmout endpt.host).events := List.filter_eq_self.mpr hwork.about
  rw [← hself] at hwork
  refine ⟨endpt', hcheck, ⟨_, _, _, hwork, ?_, ?_, hpassed.trace, ?_⟩,
    fun _ hx => absurd hx List.not_mem_nil⟩
  · rw [hpassed.host]
    exact Later.refl _
  · rw [List.append_nil]
    exact hpassed.reps
  · rw [← hself]
    exact List.filter_eq_nil_iff.mpr fun event he => by
      simp [(List.mem_filter.mp he).2]

/-- The pass over a queue whose result functions enqueue new messages. -/
theorem checkWith_exact {endpt : Endpoint} (h : endpt.confirmq.Reps l)
    (hcalls : EnqueuesOnly callback endpt) (hnew : NewNotDue callback endpt) :
    ∃ rounds endpt' news, (∀ fuel, rounds ≤ fuel →
        checkQueuesLoopWith callback fuel endpt.confirmq.first endpt = .ok endpt') ∧
      PassExact endpt endpt' l news := by
  have hfirst : endpt.confirmq.first = headOf (l ++ []) none := by
    rw [List.append_nil]
    exact h.isList.first_eq
  have hreached : Reached callback endpt (headOf (l ++ []) none) endpt := by
    rw [← hfirst]
    exact Reached.start
  have hreps : endpt.confirmq.Reps ([] ++ (l ++ [])) := by
    rw [List.append_nil]
    exact h
  obtain ⟨endpt1, kept, news, events, last, hold, hreached1, hwork, hlast, hothers, hprogress⟩ :=
    checkQueuesLoopWith_old hcalls (fun _ => h.lt) hreached hreps (Nat.le_refl _) fun _ ha => ha
  have hfresh : ∀ a ∈ addrs news, endpt.confirmq.brk ≤ a := by
    intro a ha
    obtain ⟨v, hv⟩ := mem_addrs.mp ha
    exact (hprogress.fresh (a, v) hv).1
  have hkept : endpt1.confirmq.Reps (kept ++ news) := hprogress.reps
  obtain ⟨endpt', hend, hprogress'⟩ :=
    checkQueuesLoopWith_new hnew hreached1 hkept hfresh
  refine ⟨l.length + news.length, endpt', news, ?_, ?_⟩
  · intro fuel hfuel
    obtain ⟨k, rfl⟩ := Nat.exists_eq_add_of_le hfuel
    rw [hfirst, Nat.add_assoc, hold]
    exact hend k
  · refine ⟨⟨kept, events, last, hwork, hlast.trans hprogress'.host, hprogress'.reps, ?_, hothers⟩,
      hprogress.fresh⟩
    rw [hprogress'.trace, hprogress.trace, List.append_nil]

end

/-- One pass over any queue does exactly its work.  It also does when the
    result functions enqueue messages that the socket takes and that are
    not due before the pass is over. -/
theorem pass_exact {endpt : Endpoint} {l : Nodes Pending} (h : endpt.confirmq.Reps l) :
    (∃ endpt', mcEndptUdpCheckQueues endpt = .ok endpt' ∧ PassExact endpt endpt' l []) ∧
    ∀ callback, EnqueuesOnly callback endpt → NewNotDue callback endpt →
      ∃ rounds endpt' news, (∀ fuel, rounds ≤ fuel →
          checkQueuesLoopWith callback fuel endpt.confirmq.first endpt = .ok endpt') ∧
        PassExact endpt endpt' l news :=
  ⟨check_exact h, fun _ hcalls hnew => checkWith_exact h hcalls hnew⟩

/-! ## Section 8: A result function that sends again

    The retransmission of the ping fails, and its result function makes a
    request. -/

/-- The clock jumps after the ping has been sent, and the second datagram
    is refused. -/
def jumpingHost : Host :=
  { stillHost with
    clock := fun n => if n < 3 then 0 else 1000
    sends := fun n => if n = 1 then 5 else mnDone }

/-- The endpoint from which the ping has been sent. -/
def jumped : Endpoint :=
  match mcEndptUdpSend (mcEndptUdpInit 64 64 jumpingHost) peer ping 9 with
  | .ok (_, endpt) => endpt
  | .error _ => mcEndptUdpInit 64 64 jumpingHost

theorem send_jumped :
    mcEndptUdpSend (mcEndptUdpInit 64 64 jumpingHost) peer ping 9 = .ok (mnDone, jumped) := rfl

/-- A get with an id of its own, which the socket takes here. -/
def getInstead : Callback := fun _ _ _ endpt =>
  match mcEndptUdpGet (insertion McOption) peerUriToOptions endpt peer 9 peerUri none with
  | .ok (r, endpt') => if r = 0 then .ok endpt else .ok endpt'
  | .error _ => .ok endpt

theorem getInstead_enqueuing : Enqueuing getInstead := by
  intro resultfn msgid err endpt
  unfold getInstead
  rcases hget : mcEndptUdpGet (insertion McOption) peerUriToOptions endpt peer 9 peerUri none
    with fault | ⟨r, endpt'⟩
  · exact ⟨endpt, rfl, ReflTransGen.refl⟩
  · by_cases hr : r = 0
    · exact ⟨endpt, if_pos hr, ReflTransGen.refl⟩
    · refine ⟨endpt', if_neg hr, sendMsg_enqueues ?_ (by decide) hr hget⟩
      intro addr uri host list host' hmade
      cases hmade
      exact Later.refl _

/-- The endpoint after the round that gives the ping up. -/
def jumpedOn : Endpoint :=
  match checkEntryWith getInstead jumped 0 with
  | .ok (_, endpt) => endpt
  | .error _ => jumped

theorem round_jumped : checkEntryWith getInstead jumped 0 = .ok (some 1, jumpedOn) := by
  have hnext : (checkEntryWith getInstead jumped 0).map Prod.fst = .ok (some 1) := by
    decide +kernel
  unfold jumpedOn
  rcases hround : checkEntryWith getInstead jumped 0 with fault | ⟨next, endpt⟩
  · rw [hround] at hnext
    exact absurd hnext (by simp [Except.map])
  · rw [hround] at hnext
    cases hnext
    rfl

/-- The pass reaches the ping, the get, and the end. -/
theorem jumped_reached {current : Option Addr} {endpt : Endpoint}
    (h : Reached getInstead jumped current endpt) :
    (current = some 0 ∧ endpt = jumped) ∨ (current = some 1 ∧ endpt = jumpedOn) ∨
      current = none := by
  induction h with
  | start => exact Or.inl ⟨rfl, rfl⟩
  | @round a endpt endpt' next _ hround ih =>
    rcases ih with ⟨hcurrent, hendpt⟩ | ⟨hcurrent, hendpt⟩ | hcurrent
    · cases hcurrent
      rw [hendpt, round_jumped] at hround
      cases hround
      exact Or.inr (Or.inl ⟨rfl, rfl⟩)
    · cases hcurrent
      have hlast : (checkEntryWith getInstead jumpedOn 1).map Prod.fst = .ok none := by
        decide +kernel
      rw [hendpt] at hround
      rw [hround] at hlast
      cases hlast
      exact Or.inr (Or.inr rfl)
    · exact absurd hcurrent (by simp)

theorem jumped_newNotDue : NewNotDue getInstead jumped := by
  intro a endpt entry hreached hnew hentry
  rcases jumped_reached hreached with ⟨hcurrent, _⟩ | ⟨hcurrent, rfl⟩ | hcurrent
  · cases hcurrent
    exact absurd hnew (by decide)
  · cases hcurrent
    have hleft : (jumpedOn.confirmq.cells 1).all (fun entry =>
        decide ((mnTimeoutGet entry.val.timeout jumpedOn.host).1 ≠ 0)) = true := by
      decide +kernel
    rw [hentry] at hleft
    exact of_decide_eq_true hleft
  · exact absurd hcurrent (by simp)

theorem pass_exact_jumped : ∃ l, jumped.confirmq.Reps l ∧
    ∃ rounds endpt' news, (∀ fuel, rounds ≤ fuel →
        checkQueuesLoopWith getInstead fuel jumped.confirmq.first jumped = .ok endpt') ∧
      PassExact jumped endpt' l news := by
  obtain ⟨v, _, hfirst⟩ := (mcEndptUdpSend_spec (mcEndptUdpInit_shows 64 64 jumpingHost).reps
    send_jumped).con rfl
  obtain ⟨hreps, _⟩ := hfirst.done rfl
  exact ⟨_, hreps, (pass_exact hreps).2 getInstead
    (fun a endpt _ => ⟨getInstead, getInstead_enqueuing, rfl⟩) jumped_newNotDue⟩

end Mcoap
