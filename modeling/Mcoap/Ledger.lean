import Mathlib.Logic.Relation
import Mcoap.Lib.Runs
import Mcoap.EndpointSpec

/-! # The ledger of confirmable messages

    What an endpoint does about confirmable messages, without its heap, its
    buffers and its clock.

    * `Move`: everything that can happen to the list of entries and the
      trace, one message at a time;
    * `endptStep_moves`: every operation of the endpoint is a sequence of
      moves;
    * `Ledger.Sound`: the trace tells the whole story of every entry, and
      how that story ended if the entry has left;
    * `confirmable_accounted`: what this says about one message, after
      every run. -/

namespace Mcoap

open ByteMem ByteProg StableSort DList Runs Relation

/-! ## Section 1: Moves -/

/-- The entries of the confirm queue, the address the next one gets, and
    the trace. -/
structure Ledger where
  entries : Nodes Pending
  next    : Addr
  trace   : List Event

/-- The endpoint's queue and trace are those of the ledger. -/
structure Endpoint.Shows (endpt : Endpoint) (s : Ledger) : Prop where
  reps  : endpt.confirmq.Reps s.entries
  next  : endpt.confirmq.brk = s.next
  trace : endpt.trace = s.trace

/-- The transmission of an entry, and what the socket said. -/
def sentEvent (a : Addr) (v : Pending) (err : Int) : Event :=
  .sent (some a) v.msg.toList v.dest err

/-- The timeout of an entry: no limit for a block, one in total. -/
structure Waiting (v : Pending) : Prop where
  block : v.timeout.block = -1
  total : 0 ≤ v.timeout.total

inductive Move : Ledger → Ledger → Prop where
  /-- a message that is not confirmable is sent -/
  | plain {l b t} (data : List UInt8) (dest : SockAddr) (err : Int) :
    Move ⟨l, b, t⟩ ⟨l, b, t ++ [.sent none data dest err]⟩
  /-- a confirmable one is sent for the first time -/
  | first {l b t} {v : Pending} (hnew : v.xmitcounter = 0) (hwait : Waiting v) :
    Move ⟨l, b, t⟩
      ⟨l ++ [(b, { v with xmitcounter := 1 })], b + 1, t ++ [queuedEvent b v, sentEvent b v mnDone]⟩
  /-- its first transmission fails -/
  | firstFailed {l b t} (v : Pending) {err : Int} (herr : err ≠ mnDone) :
    Move ⟨l, b, t⟩
      ⟨l, b + 1, t ++ (queuedEvent b v :: sentEvent b v err ::
        (resultOf b v err ++ [.removed b .send]))⟩
  /-- it is sent again -/
  | resent {xs ys a v b t} (start : ℚ) (hlt : ¬ v.xmitcounter ≥ maxRetransmit) :
    Move ⟨xs ++ (a, v) :: ys, b, t⟩
      ⟨xs ++ (a, { v with
          xmitcounter := v.xmitcounter + 1
          timeout := ⟨-1, v.timeout.total * 2, start⟩ }) :: ys, b,
        t ++ [sentEvent a v mnDone]⟩
  /-- sending it again fails -/
  | resendFailed {xs ys a v b t} {err : Int} (hlt : ¬ v.xmitcounter ≥ maxRetransmit)
      (herr : err ≠ mnDone) :
    Move ⟨xs ++ (a, v) :: ys, b, t⟩
      ⟨xs ++ ys, b, t ++ (sentEvent a v err :: (resultOf a v err ++ [.removed a .checkQueues]))⟩
  /-- it has been sent often enough -/
  | exhausted {xs ys a v b t} (hge : v.xmitcounter ≥ maxRetransmit) :
    Move ⟨xs ++ (a, v) :: ys, b, t⟩
      ⟨xs ++ ys, b, t ++ (resultOf a v mnTimeout ++ [.removed a .checkQueues])⟩
  /-- it is acknowledged -/
  | acked {xs ys a v b t} :
    Move ⟨xs ++ (a, v) :: ys, b, t⟩
      ⟨xs ++ ys, b, t ++ (resultOf a v mnDone ++ [.removed a .recv])⟩

theorem visitEntry_moves (xs ys : Nodes Pending) (a : Addr) (v : Pending) (b : Addr)
    (t : List Event) (tmout : MnTimeout) (host : Host) :
    ReflTransGen Move ⟨xs ++ (a, v) :: ys, b, t⟩
      ⟨xs ++ (((visitEntry a v tmout host).entry.map fun v => (a, v)).toList ++ ys), b,
        t ++ (visitEntry a v tmout host).events⟩ := by
  unfold visitEntry
  simp only
  split
  · -- the time of the entry is up; what is sent does not depend on its timeout
    unfold resendEntry
    split
    · rename_i hge
      exact ReflTransGen.single (Move.exhausted (v := v) hge)
    · rename_i hlt
      simp only
      split
      · rename_i herr
        exact ReflTransGen.single (Move.resendFailed (v := v) hlt herr)
      · rename_i herr
        have hdone := not_not.mp herr
        rw [hdone]
        exact ReflTransGen.single (Move.resent _ hlt)
  · rw [List.append_nil]
    exact ReflTransGen.refl

theorem checkPass_moves (xs l : Nodes Pending) (b : Addr) (t : List Event) (tmout : MnTimeout)
    (host : Host) :
    ReflTransGen Move ⟨xs ++ l, b, t⟩
      ⟨xs ++ (checkPass l tmout host).entries, b, t ++ (checkPass l tmout host).events⟩ := by
  induction l generalizing xs t tmout host with
  | nil =>
    simp only [checkPass, List.append_nil]
    exact ReflTransGen.refl
  | cons x l ih =>
    obtain ⟨a, v⟩ := x
    have hvisit := visitEntry_moves xs l a v b t tmout host
    have hrest := ih (xs ++ ((visitEntry a v tmout host).entry.map fun v => (a, v)).toList)
      (t ++ (visitEntry a v tmout host).events) (visitEntry a v tmout host).tmout
      (visitEntry a v tmout host).host
    simp only [List.append_assoc] at hvisit hrest
    exact hvisit.trans hrest

/-! ## Section 2: Every operation is a sequence of moves -/

section

variable {endpt endpt' : Endpoint} {s : Ledger}

theorem Sends.moves {toaddr : SockAddr} {msg : McMessage} {resultfn : ResultFn} {err : Int}
    (h : endpt.Shows s) (hsend : Sends endpt endpt' s.entries toaddr msg resultfn err) :
    ∃ s', endpt'.Shows s' ∧ ReflTransGen Move s s' := by
  obtain ⟨l, b, t⟩ := s
  have hb := h.next
  have ht := h.trace
  simp only at hb ht
  rcases hcon : mcMessageIsConfirmable msg with _ | _
  -- a message that is not confirmable leaves no entry
  · obtain ⟨hqueue, _, data, htrace⟩ := hsend.non hcon
    rw [ht] at htrace
    refine ⟨_, ⟨?_, ?_, htrace⟩, ReflTransGen.single (Move.plain data toaddr err)⟩
    · rw [hqueue]
      exact h.reps
    · rw [hqueue]
      exact h.next
  · obtain ⟨v, hfresh, hfirst⟩ := hsend.con hcon
    have hbrk := hfirst.brk
    rw [hb] at hbrk
    by_cases herr : err = mnDone
    · obtain ⟨hreps, htrace⟩ := hfirst.done herr
      rw [hb] at hreps htrace
      rw [ht, herr] at htrace
      refine ⟨_, ?_,
        ReflTransGen.single (Move.first hfresh.xmitcounter ⟨hfresh.block, hfresh.total⟩)⟩
      exact ⟨hreps, hbrk, htrace⟩
    · obtain ⟨hreps, htrace⟩ := hfirst.failed herr
      rw [hb, ht] at htrace
      refine ⟨_, ?_, ReflTransGen.single (Move.firstFailed v herr)⟩
      exact ⟨hreps, hbrk, htrace⟩

theorem Receives.moves {msg : Option McMessage} (h : endpt.Shows s)
    (hrecv : Receives endpt endpt' s.entries msg) :
    ∃ s', endpt'.Shows s' ∧ ReflTransGen Move s s' := by
  obtain ⟨l, b, t⟩ := s
  have hb := hrecv.brk.trans h.next
  have ht := h.trace
  simp only at hb ht
  rcases hack : mcMessageIsAck msg with _ | _
  · obtain ⟨hqueue, htrace⟩ := hrecv.other hack
    refine ⟨_, ⟨?_, hb, htrace.trans ht⟩, ReflTransGen.refl⟩
    rw [hqueue]
    exact h.reps
  · obtain ⟨message, xs, a, v, ys, _, hl, _, _, hreps, htrace⟩ := hrecv.ack hack
    simp only at hl
    subst hl
    rw [ht] at htrace
    exact ⟨_, ⟨hreps, hb, htrace⟩, ReflTransGen.single Move.acked⟩

theorem Passed.moves {tmout tmout' : MnTimeout} {host host' : Host} (h : endpt.Shows s)
    (hpassed : Passed endpt endpt' (checkPass s.entries tmout host).entries
      (checkPass s.entries tmout host).events tmout' host') :
    ∃ s', endpt'.Shows s' ∧ ReflTransGen Move s s' := by
  have htrace := hpassed.trace
  rw [h.trace] at htrace
  refine ⟨_, ?_, checkPass_moves [] s.entries s.next s.trace tmout host⟩
  exact ⟨hpassed.reps, hpassed.brk.trans h.next, htrace⟩

/-- Step: an operation that returns is a sequence of moves. -/
theorem endptStep_moves {qsort : Qsort McOption} {op : EndpointOp} (h : endpt.Shows s)
    (hstep : endptStep qsort endpt op endpt') :
    ∃ s', endpt'.Shows s' ∧ ReflTransGen Move s s' := by
  cases op with
  | send toaddr msg resultfn =>
    obtain ⟨⟨err, endpt1⟩, hsend, hret⟩ := bind_eq_ok.mp hstep
    cases hret
    exact (mcEndptUdpSend_spec h.reps hsend).moves h
  | recv arrival =>
    obtain ⟨⟨msg, endpt1⟩, hrecv, hret⟩ := bind_eq_ok.mp hstep
    cases hret
    exact (mcEndptUdpRecv_spec h.reps hrecv).moves h
  | checkQueues =>
    obtain ⟨endpt1, hcheck, hpassed⟩ := mcEndptUdpCheckQueues_spec h.reps
    have heq : Except.ok endpt1 = Except.ok endpt' := hcheck.symm.trans hstep
    cases heq
    exact hpassed.moves h
  -- what is drawn is no part of the ledger
  | nextid =>
    cases hstep
    exact ⟨s, ⟨h.reps, h.next, h.trace⟩, ReflTransGen.refl⟩
  | rand =>
    cases hstep
    exact ⟨s, ⟨h.reps, h.next, h.trace⟩, ReflTransGen.refl⟩

theorem run_send {qsort : Qsort McOption} {toaddr : SockAddr} {msg : McMessage}
    {resultfn : ResultFn} {err : Int}
    (hsend : mcEndptUdpSend endpt toaddr msg resultfn = .ok (err, endpt')) :
    Run (endptStep qsort) endpt [.send toaddr msg resultfn] endpt' :=
  Run.single (bind_eq_ok.mpr ⟨_, hsend, rfl⟩)

/-- An endpoint starts with nothing queued and nothing done. -/
theorem mcEndptUdpInit_shows (rdsize wrsize : UInt32) (host : Host) :
    (mcEndptUdpInit rdsize wrsize host).Shows ⟨[], 0, []⟩ where
  reps := mcBufferQueueInit_reps fun _ => rfl
  next := rfl
  trace := rfl

/-- Run: so is a whole run. -/
theorem run_moves {qsort : Qsort McOption} {ops : List EndpointOp} (h : endpt.Shows s)
    (hrun : Run (endptStep qsort) endpt ops endpt') :
    ∃ s', endpt'.Shows s' ∧ ReflTransGen Move s s' :=
  hrun.invariant (P := fun t => ∃ s', t.Shows s' ∧ ReflTransGen Move s s')
    ⟨s, h, ReflTransGen.refl⟩ fun _ _ _ ⟨_, hshows, hmoves⟩ hstep => by
      obtain ⟨s'', hshows', hmoves'⟩ := endptStep_moves hshows hstep
      exact ⟨s'', hshows', hmoves.trans hmoves'⟩

end

/-! ## Section 3: Stories -/

/-- The message an event is about. -/
def Event.owner : Event → Option Addr
  | .queued a _ _ _ _ => some a
  | .sent owner _ _ _ => owner
  | .called a _ _ _ => some a
  | .removed a _ => some a

/-- All that was done about one message. -/
def story (a : Addr) (trace : List Event) : List Event :=
  trace.filter fun event => event.owner = some a

/-- The events are all about one message. -/
def OwnedBy (a : Addr) (events : List Event) : Prop := ∀ event ∈ events, event.owner = some a

theorem story_append (a : Addr) (t t' : List Event) : story a (t ++ t') = story a t ++ story a t' :=
  List.filter_append ..

theorem OwnedBy.story_self {a : Addr} {events : List Event} (h : OwnedBy a events) :
    story a events = events := by
  unfold story
  rw [List.filter_eq_self]
  intro event hevent
  simp [h event hevent]

theorem OwnedBy.story_other {a b : Addr} {events : List Event} (h : OwnedBy a events)
    (hne : b ≠ a) : story b events = [] := by
  unfold story
  rw [List.filter_eq_nil_iff]
  intro event hevent
  rw [h event hevent]
  simp [hne.symm]

theorem OwnedBy.cons {a : Addr} {event : Event} {events : List Event}
    (hevent : event.owner = some a) (h : OwnedBy a events) : OwnedBy a (event :: events) := by
  intro e he
  rcases List.mem_cons.mp he with rfl | he
  · exact hevent
  · exact h e he

theorem OwnedBy.nil {a : Addr} : OwnedBy a [] := fun _ he => absurd he List.not_mem_nil

theorem ownedBy_result (a : Addr) (v : Pending) (err : Int) (remover : Remover) :
    OwnedBy a (resultOf a v err ++ [.removed a remover]) := by
  unfold resultOf
  split
  · exact OwnedBy.cons rfl (OwnedBy.cons rfl OwnedBy.nil)
  · exact OwnedBy.cons rfl OwnedBy.nil

/-- The story of a message that has been sent `k` times. -/
def opening (a : Addr) (v : Pending) (k : Nat) : List Event :=
  queuedEvent a v :: List.replicate k (sentEvent a v mnDone)

theorem opening_succ (a : Addr) (v : Pending) (k : Nat) :
    opening a v (k + 1) = opening a v k ++ [sentEvent a v mnDone] := by
  rw [opening, List.replicate_succ']
  rfl

/-- The story of an entry that is queued: it has been sent as often as it
    counts, at least once, and no more than `MAX_RETRANSMIT` times. -/
structure InQueue (a : Addr) (v : Pending) (told : List Event) : Prop where
  told    : told = opening a v v.xmitcounter.toNat
  pos     : 1 ≤ v.xmitcounter.toNat
  le      : v.xmitcounter.toNat ≤ maxRetransmit.toNat
  waiting : Waiting v

/-- The ways a story ends, after `k` transmissions that went well. -/
inductive Ending (a : Addr) (v : Pending) : Nat → List Event → Prop where
  | acked {k : Nat} (hpos : 1 ≤ k) (hle : k ≤ maxRetransmit.toNat) :
    Ending a v k (resultOf a v mnDone ++ [.removed a .recv])
  | exhausted : Ending a v maxRetransmit.toNat (resultOf a v mnTimeout ++ [.removed a .checkQueues])
  | failed {k : Nat} {err : Int} {remover : Remover} (hlt : k < maxRetransmit.toNat)
      (herr : err ≠ mnDone) (hremover : remover ≠ .recv) :
    Ending a v k (sentEvent a v err :: (resultOf a v err ++ [.removed a remover]))

/-- The story of an entry that has left the queue. -/
def HasLeft (a : Addr) (told : List Event) : Prop :=
  ∃ v k ending, told = opening a v k ++ ending ∧ Ending a v k ending

theorem Ending.ownedBy {a : Addr} {v : Pending} {k : Nat} {ending : List Event}
    (h : Ending a v k ending) : OwnedBy a ending := by
  cases h with
  | acked _ _ => exact ownedBy_result a v _ _
  | exhausted => exact ownedBy_result a v _ _
  | failed _ _ _ => exact OwnedBy.cons rfl (ownedBy_result a v _ _)

/-! ## Section 4: The trace tells every story -/

structure Ledger.Sound (s : Ledger) : Prop where
  nodup  : (addrs s.entries).Nodup
  below  : ∀ a ∈ addrs s.entries, a < s.next
  queued : ∀ a v, (a, v) ∈ s.entries → InQueue a v (story a s.trace)
  left   : ∀ a, a < s.next → a ∉ addrs s.entries → HasLeft a (story a s.trace)
  unused : ∀ a, s.next ≤ a → story a s.trace = []

section

variable {l l' xs ys : Nodes Pending} {a b b' : Addr} {v w : Pending} {t events : List Event}

/-- Other messages are not concerned. -/
theorem story_frame (h : OwnedBy a events) {c : Addr} (hne : c ≠ a) :
    story c (t ++ events) = story c t := by
  rw [story_append, h.story_other hne, List.append_nil]

/-- A step about one message: the others keep their entries and stories. -/
theorem Ledger.Sound.step (h : Ledger.Sound ⟨l, b, t⟩) (hown : OwnedBy a events)
    (hnodup : (addrs l').Nodup) (hbelow : ∀ c ∈ addrs l', c < b') (ha : a < b')
    (hframe : ∀ c u, c ≠ a → ((c, u) ∈ l' ↔ (c, u) ∈ l))
    (hnext : ∀ c, c ≠ a → (c < b' ↔ c < b))
    (hqueued : ∀ u, (a, u) ∈ l' → InQueue a u (story a t ++ events))
    (hleft : a ∉ addrs l' → HasLeft a (story a t ++ events)) :
    Ledger.Sound ⟨l', b', t ++ events⟩ := by
  have htold : story a (t ++ events) = story a t ++ events := by
    rw [story_append, hown.story_self]
  have hmem : ∀ c, c ≠ a → (c ∈ addrs l' ↔ c ∈ addrs l) := by
    intro c hca
    simp only [mem_addrs, hframe c _ hca]
  -- in each part: either it is about `a`, or nothing has changed
  refine ⟨hnodup, hbelow, ?_, ?_, ?_⟩
  · intro c u hc
    by_cases hca : c = a
    · rw [hca, htold]
      exact hqueued u (hca ▸ hc)
    · rw [story_frame hown hca]
      exact h.queued c u ((hframe c u hca).mp hc)
  · intro c hc hout
    by_cases hca : c = a
    · rw [hca, htold]
      exact hleft (hca ▸ hout)
    · rw [story_frame hown hca]
      exact h.left c ((hnext c hca).mp hc) (mt (hmem c hca).mpr hout)
  · intro c hc
    have hca : c ≠ a := Nat.ne_of_gt (ha.trans_le hc)
    -- an address that is still unused is not the one the step is about
    rw [story_frame hown hca]
    exact h.unused c (Nat.le_of_not_lt (mt (hnext c hca).mpr (Nat.not_lt.mpr hc)))

theorem mem_middle_frame {c : Addr} {u : Pending} (hca : c ≠ a) :
    (c, u) ∈ xs ++ (a, v) :: ys ↔ (c, u) ∈ xs ++ ys := by
  simp [hca]

theorem nodup_middle_iff : (addrs (xs ++ (a, v) :: ys)).Nodup ↔
    a ∉ addrs (xs ++ ys) ∧ (addrs (xs ++ ys)).Nodup := by
  simp only [addrs_append, addrs_cons]
  rw [List.nodup_middle, List.nodup_cons]

/-- The entry of an address that occurs once. -/
theorem entry_unique (h : (addrs (xs ++ (a, v) :: ys)).Nodup) {u : Pending}
    (hu : (a, u) ∈ xs ++ (a, v) :: ys) : u = v := by
  have hout := (nodup_middle_iff.mp h).1
  rcases List.mem_append.mp hu with hx | hy
  · have hmem := mem_addrs.mpr ⟨u, hx⟩
    exact absurd hmem fun hx => hout (by simp [hx])
  · rcases List.mem_cons.mp hy with heq | hy
    · exact congrArg Prod.snd heq
    · have hmem := mem_addrs.mpr ⟨u, hy⟩
      exact absurd hmem fun hy => hout (by simp [hy])

/-- A queued entry is sent once more. -/
theorem Ledger.Sound.change (h : Ledger.Sound ⟨xs ++ (a, v) :: ys, b, t⟩)
    (hown : OwnedBy a events) (hqueued : InQueue a w (story a t ++ events)) :
    Ledger.Sound ⟨xs ++ (a, w) :: ys, b, t ++ events⟩ := by
  have hsame : addrs (xs ++ (a, w) :: ys) = addrs (xs ++ (a, v) :: ys) := by simp
  have hmem : a ∈ addrs (xs ++ (a, w) :: ys) := by simp
  have hnodup : (addrs (xs ++ (a, w) :: ys)).Nodup := by
    rw [hsame]
    exact h.nodup
  have hbelow : ∀ c ∈ addrs (xs ++ (a, w) :: ys), c < b := by
    rw [hsame]
    exact h.below
  refine h.step hown hnodup hbelow (hbelow a hmem) ?_ (fun _ _ => Iff.rfl) ?_
    fun hout => absurd hmem hout
  · intro c u hca
    rw [mem_middle_frame hca, mem_middle_frame hca]
  · intro u hu
    rw [entry_unique hnodup hu]
    exact hqueued

/-- A queued entry leaves, for one of the reasons there are. -/
theorem Ledger.Sound.leave (h : Ledger.Sound ⟨xs ++ (a, v) :: ys, b, t⟩)
    (hend : Ending a v v.xmitcounter.toNat events) :
    Ledger.Sound ⟨xs ++ ys, b, t ++ events⟩ := by
  have hmem : a ∈ addrs (xs ++ (a, v) :: ys) := by simp
  have hin := h.queued a v (by simp)
  obtain ⟨hout, hnodup⟩ := nodup_middle_iff.mp h.nodup
  refine h.step hend.ownedBy hnodup (fun c hc => h.below c ?_) (h.below a hmem)
    (fun c u hca => (mem_middle_frame hca).symm) (fun _ _ => Iff.rfl) ?_ fun _ => ?_
  · simp only [addrs_append, addrs_cons, List.mem_append, List.mem_cons] at hc ⊢
    exact hc.imp_right Or.inr
  · intro u hu
    exact absurd (mem_addrs.mpr ⟨u, hu⟩) hout
  · rw [hin.told]
    exact ⟨v, v.xmitcounter.toNat, events, rfl, hend⟩

theorem lt_succ_frame {c : Addr} (hne : c ≠ b) : c < b + 1 ↔ c < b := by
  constructor
  · intro h
    exact (Nat.lt_succ_iff_lt_or_eq.mp h).resolve_right hne
  · exact Nat.lt_succ_of_lt

/-- A new entry comes in. -/
theorem Ledger.Sound.enter (h : Ledger.Sound ⟨l, b, t⟩) (hown : OwnedBy b events)
    (hqueued : InQueue b v events) : Ledger.Sound ⟨l ++ [(b, v)], b + 1, t ++ events⟩ := by
  have hfresh : b ∉ addrs l := fun hmem => Nat.lt_irrefl b (h.below b hmem)
  have hnodup : (addrs (l ++ (b, v) :: [])).Nodup := by
    rw [nodup_middle_iff, List.append_nil]
    exact ⟨hfresh, h.nodup⟩
  refine h.step hown hnodup ?_ (Nat.lt_succ_self b) ?_ (fun _ => lt_succ_frame) ?_ ?_
  · intro c hc
    simp only [addrs_append, addrs_cons, addrs_nil, List.mem_append, List.mem_singleton] at hc
    rcases hc with hc | rfl
    · exact Nat.lt_succ_of_lt (h.below c hc)
    · exact Nat.lt_succ_self c
  · intro c u hca
    rw [mem_middle_frame hca, List.append_nil]
  · intro u hu
    rw [entry_unique hnodup hu, h.unused b (Nat.le_refl b)]
    exact hqueued
  · intro hout
    exact absurd (by simp) hout

/-- A new entry comes in and leaves at once. -/
theorem Ledger.Sound.vanish (h : Ledger.Sound ⟨l, b, t⟩) (hown : OwnedBy b events)
    (hleft : HasLeft b events) : Ledger.Sound ⟨l, b + 1, t ++ events⟩ := by
  have hfresh : b ∉ addrs l := fun hmem => Nat.lt_irrefl b (h.below b hmem)
  refine h.step hown h.nodup (fun c hc => Nat.lt_succ_of_lt (h.below c hc)) (Nat.lt_succ_self b)
    (fun _ _ _ => Iff.rfl) (fun _ => lt_succ_frame) ?_ fun _ => ?_
  · intro u hu
    exact absurd (mem_addrs.mpr ⟨u, hu⟩) hfresh
  · rw [h.unused b (Nat.le_refl b)]
    exact hleft

theorem succ_toNat {n : UInt16} (h : n.toNat < maxRetransmit.toNat) :
    (n + 1).toNat = n.toNat + 1 := by
  have hmax : maxRetransmit.toNat = 4 := rfl
  rw [UInt16.toNat_add, UInt16.toNat_one]
  omega

/-- Step: every move keeps the stories right. -/
theorem Move.sound {s s' : Ledger} (hmove : Move s s') (h : s.Sound) : s'.Sound := by
  cases hmove with
  | plain data dest err =>
    -- the datagram belongs to no entry, so it is in no story
    have htold : ∀ a (t : List Event), story a (t ++ [.sent none data dest err]) = story a t := by
      intro a t
      rw [story_append]
      simp [story, Event.owner]
    exact ⟨h.nodup, h.below, fun a v hv => by rw [htold]; exact h.queued a v hv,
      fun a ha hout => by rw [htold]; exact h.left a ha hout,
      fun a ha => by rw [htold]; exact h.unused a ha⟩
  | first hnew hwait =>
    -- a new story, with one transmission
    have h1 : (1 : UInt16).toNat = 1 := rfl
    refine h.enter (OwnedBy.cons rfl (OwnedBy.cons rfl OwnedBy.nil))
      ⟨rfl, Nat.le_of_eq h1.symm, ?_, ⟨hwait.block, hwait.total⟩⟩
    show (1 : UInt16).toNat ≤ maxRetransmit.toNat
    decide
  | @firstFailed l b t v err herr =>
    -- a story that ends where it begins
    have hend : Ending b v 0 (sentEvent b v err :: (resultOf b v err ++ [.removed b .send])) :=
      Ending.failed (by decide) herr (by decide)
    exact h.vanish (OwnedBy.cons rfl hend.ownedBy) ⟨v, 0, _, rfl, hend⟩
  | @resent xs ys a v b t start hlt =>
    -- the counter is below `MAX_RETRANSMIT`, so it does not wrap
    have hin := h.queued a v (List.mem_append_right _ List.mem_cons_self)
    have hlt' : v.xmitcounter.toNat < maxRetransmit.toNat :=
      UInt16.lt_iff_toNat_lt.mp (UInt16.not_le.mp hlt)
    have hsucc := succ_toNat hlt'
    refine h.change (OwnedBy.cons rfl OwnedBy.nil) ⟨?_, ?_, ?_, rfl, ?_⟩
    · show story a t ++ _ = opening a v (v.xmitcounter + 1).toNat
      rw [hin.told, hsucc, opening_succ]
    · show 1 ≤ (v.xmitcounter + 1).toNat
      rw [hsucc]
      exact Nat.succ_pos _
    · show (v.xmitcounter + 1).toNat ≤ _
      rw [hsucc]
      exact hlt'
    · exact mul_nonneg hin.waiting.total (by norm_num)
  | resendFailed hlt herr =>
    exact h.leave (Ending.failed (UInt16.lt_iff_toNat_lt.mp (UInt16.not_le.mp hlt)) herr
      (by decide))
  | @exhausted xs ys a v b t hge =>
    -- a queued entry never counts further than `MAX_RETRANSMIT`
    have hin := h.queued a v (List.mem_append_right _ List.mem_cons_self)
    have hfull : v.xmitcounter.toNat = maxRetransmit.toNat :=
      Nat.le_antisymm hin.le (UInt16.le_iff_toNat_le.mp hge)
    apply h.leave
    rw [hfull]
    exact Ending.exhausted
  | acked =>
    have hin := h.queued _ _ (List.mem_append_right _ List.mem_cons_self)
    exact h.leave (Ending.acked hin.pos hin.le)

theorem Ledger.sound_empty : Ledger.Sound ⟨[], 0, []⟩ where
  nodup := List.nodup_nil
  below _ ha := absurd ha List.not_mem_nil
  queued _ _ ha := absurd ha List.not_mem_nil
  left a ha _ := absurd ha (Nat.not_lt_zero a)
  unused _ _ := rfl

/-- Run: so does every sequence of moves. -/
theorem moves_sound {s s' : Ledger} (hmoves : ReflTransGen Move s s') (h : s.Sound) : s'.Sound := by
  induction hmoves with
  | refl => exact h
  | tail _ hmove ih => exact hmove.sound ih

end

/-! ## Section 5: One message, after every run -/

def Event.isSent : Event → Bool
  | .sent _ _ _ _ => true
  | _ => false

def Event.isCalled : Event → Bool
  | .called _ _ _ _ => true
  | _ => false

def Event.isRemoved : Event → Bool
  | .removed _ _ => true
  | _ => false

/-- A call of a result function hands over nothing. -/
theorem sent_resultOf (a : Addr) (v : Pending) (err : Int) :
    (resultOf a v err).filter Event.isSent = [] := by
  unfold resultOf
  split
  · rfl
  · rfl

theorem sent_removed (a : Addr) (v : Pending) (err : Int) (b : Addr) (remover : Remover) :
    (resultOf a v err ++ [Event.removed b remover]).filter Event.isSent = [] := by
  rw [List.filter_append, sent_resultOf]
  rfl

/-- What a trace says about the confirmable message `a`, with its id,
    destination, bytes and result function, when the queue stands for `l`. -/
structure Accounted (trace : List Event) (l : Nodes Pending) (a : Addr) (msgid : UInt16)
    (dest : SockAddr) (data : List UInt8) (resultfn : ResultFn) : Prop where
  /-- its result function is not called while it is queued -/
  silent   : a ∈ addrs l → (story a trace).filter Event.isCalled = []
  /-- and once in all when it has left: with `MN_DONE` if an ack removed it -/
  once     : a ∉ addrs l → resultfn > 1 → ∃ err,
    (story a trace).filter Event.isCalled = [.called a resultfn msgid err] ∧
    (err = mnDone ↔ .removed a .recv ∈ trace)
  /-- the socket always gets the same bytes, for the same destination -/
  faithful : ∀ data' dest' err, .sent (some a) data' dest' err ∈ trace → data' = data ∧ dest' = dest
  /-- a queued entry counts its transmissions -/
  counter  : ∀ v, (a, v) ∈ l →
    v.xmitcounter.toNat = ((story a trace).filter Event.isSent).length ∧
    1 ≤ v.xmitcounter.toNat ∧ v.xmitcounter.toNat ≤ maxRetransmit.toNat
  /-- and there is none once it has left -/
  finished : ∀ before remover after, trace = before ++ .removed a remover :: after →
    ∀ data' dest' err, .sent (some a) data' dest' err ∉ after

section

variable {a : Addr} {v : Pending} {k : Nat} {ending trace : List Event}

theorem mem_story {event : Event} (h : event.owner = some a) :
    event ∈ story a trace ↔ event ∈ trace := by
  simp [story, h]

theorem called_opening : (opening a v k).filter Event.isCalled = [] := by
  simp [opening, queuedEvent, sentEvent, Event.isCalled]

theorem sent_opening : (opening a v k).filter Event.isSent = List.replicate k (sentEvent a v mnDone) := by
  simp [opening, queuedEvent, sentEvent, Event.isSent]

theorem removed_opening : ∀ event ∈ opening a v k, event.isRemoved = false := by
  intro event hevent
  rcases List.mem_cons.mp hevent with rfl | hsent
  · rfl
  · rw [List.eq_of_mem_replicate hsent]
    rfl

theorem called_result (hfn : v.resultfn > 1) (err : Int) (remover : Remover) :
    (resultOf a v err ++ [Event.removed a remover]).filter Event.isCalled =
      [Event.called a v.resultfn v.msgid err] := by
  rw [resultOf, if_pos hfn]
  rfl

theorem removed_result {err : Int} {remover : Remover} {event : Event}
    (h : event ∈ resultOf a v err ++ [.removed a remover]) (hr : event.isRemoved = true) :
    event = .removed a remover := by
  unfold resultOf at h
  split at h
  · rcases List.mem_cons.mp h with rfl | h
    · exact absurd hr (by simp [Event.isRemoved])
    · exact List.mem_singleton.mp h
  · exact List.mem_singleton.mp h

/-- The end of a story calls the result function once. -/
theorem Ending.called (h : Ending a v k ending) (hfn : v.resultfn > 1) :
    ∃ err, ending.filter Event.isCalled = [.called a v.resultfn v.msgid err] ∧
      (err = mnDone ↔ .removed a .recv ∈ ending) := by
  cases h with
  | acked _ _ => exact ⟨mnDone, called_result hfn _ _, by simp⟩
  | exhausted =>
    refine ⟨mnTimeout, called_result hfn _ _, ?_⟩
    constructor
    · intro h
      exact absurd h (by decide)
    · intro h
      cases removed_result h rfl
  | @failed _ err remover _ herr hremover =>
    refine ⟨err, ?_, ?_⟩
    · rw [List.filter_cons_of_neg (by simp [sentEvent, Event.isCalled])]
      exact called_result hfn _ _
    · constructor
      · intro h
        exact absurd h herr
      · intro h
        rcases List.mem_cons.mp h with h | h
        · cases h
        · cases removed_result h rfl
          exact absurd rfl hremover

/-- What is sent at the end of a story is what was sent before. -/
theorem Ending.sent (h : Ending a v k ending) {data : List UInt8} {dest : SockAddr} {err : Int}
    (hsent : .sent (some a) data dest err ∈ ending) : data = v.msg.toList ∧ dest = v.dest := by
  have hresult : ∀ err' remover,
      Event.sent (some a) data dest err ∉ resultOf a v err' ++ [.removed a remover] := by
    intro err' remover hmem
    unfold resultOf at hmem
    split at hmem
    · simp at hmem
    · simp at hmem
  cases h with
  | acked _ _ => exact absurd hsent (hresult _ _)
  | exhausted => exact absurd hsent (hresult _ _)
  | failed _ _ _ =>
    rcases List.mem_cons.mp hsent with h | h
    · simp only [sentEvent, Event.sent.injEq] at h
      exact ⟨h.2.1, h.2.2.1⟩
    · exact absurd h (hresult _ _)

/-- A story ends with the removal. -/
theorem Ending.last (h : Ending a v k ending) : ∃ init remover,
    ending = init ++ [.removed a remover] ∧ ∀ event ∈ init, event.isRemoved = false := by
  have hresult : ∀ err, ∀ event ∈ resultOf a v err, event.isRemoved = false := by
    intro err event hevent
    unfold resultOf at hevent
    split at hevent
    · rw [List.mem_singleton.mp hevent]
      rfl
    · exact absurd hevent List.not_mem_nil
  cases h with
  | acked _ _ => exact ⟨_, _, rfl, hresult _⟩
  | exhausted => exact ⟨_, _, rfl, hresult _⟩
  | @failed _ err _ _ _ _ =>
    refine ⟨sentEvent a v err :: resultOf a v err, _, rfl, ?_⟩
    intro event hevent
    rcases List.mem_cons.mp hevent with rfl | hevent
    · rfl
    · exact hresult err event hevent

/-- Nothing comes after the one removal, if that is last. -/
theorem eq_nil_of_last {init before after : List Event} {x y : Event}
    (h : init ++ [x] = before ++ y :: after) (hinit : ∀ event ∈ init, event.isRemoved = false)
    (hy : y.isRemoved = true) : after = [] := by
  rcases List.eq_nil_or_concat after with rfl | ⟨after', z, rfl⟩
  · rfl
  · have hcut : init ++ [x] = (before ++ y :: after') ++ [z] := by
      rw [h, List.concat_eq_append, List.append_assoc, List.cons_append]
    have hmem : y ∈ init := by
      rw [(List.append_inj' hcut rfl).1]
      simp
    rw [hinit y hmem] at hy
    exact absurd hy (by simp)

end

/-- The two kinds of story at once. -/
theorem Ledger.Sound.told {s : Ledger} (h : s.Sound) {a : Addr} (ha : a < s.next) :
    (∃ v, (a, v) ∈ s.entries ∧ InQueue a v (story a s.trace)) ∨
      (a ∉ addrs s.entries ∧ HasLeft a (story a s.trace)) := by
  by_cases hmem : a ∈ addrs s.entries
  · obtain ⟨v, hv⟩ := mem_addrs.mp hmem
    exact Or.inl ⟨v, hv, h.queued a v hv⟩
  · exact Or.inr ⟨hmem, h.left a ha hmem⟩

/-- The entry that a story tells of is the one that was queued. -/
theorem queued_of_opening {a b : Addr} {v : Pending} {k : Nat} {ending : List Event}
    {msgid : UInt16} {dest : SockAddr} {data : List UInt8} {resultfn : ResultFn}
    (hend : ∀ event ∈ ending, event ≠ .queued b msgid dest data resultfn)
    (h : .queued b msgid dest data resultfn ∈ opening a v k ++ ending) :
    msgid = v.msgid ∧ dest = v.dest ∧ data = v.msg.toList ∧ resultfn = v.resultfn := by
  rcases List.mem_append.mp h with hopen | hmem
  · rcases List.mem_cons.mp hopen with heq | hsent
    · simp only [queuedEvent, Event.queued.injEq] at heq
      exact heq.2
    · exact absurd (List.eq_of_mem_replicate hsent) (by simp [sentEvent])
  · exact absurd rfl (hend _ hmem)

theorem Ending.not_queued {a b : Addr} {v : Pending} {k : Nat} {ending : List Event}
    (h : Ending a v k ending) (msgid : UInt16) (dest : SockAddr) (data : List UInt8)
    (resultfn : ResultFn) : ∀ event ∈ ending, event ≠ .queued b msgid dest data resultfn := by
  intro event hevent heq
  subst heq
  cases h with
  | acked _ _ => simp [resultOf] at hevent
  | exhausted => simp [resultOf] at hevent
  | failed _ _ _ => simp [resultOf, sentEvent] at hevent

theorem sent_of_opening {a : Addr} {v : Pending} {k : Nat} {data : List UInt8} {dest : SockAddr}
    {err : Int} (h : .sent (some a) data dest err ∈ opening a v k) :
    data = v.msg.toList ∧ dest = v.dest := by
  rcases List.mem_cons.mp h with heq | hsent
  · exact absurd heq (by simp [queuedEvent])
  · have heq := List.eq_of_mem_replicate hsent
    simp only [sentEvent, Event.sent.injEq] at heq
    exact ⟨heq.2.1, heq.2.2.1⟩

/-- An entry was queued as it is. -/
theorem Ledger.Sound.queuedEvent_mem {s : Ledger} (h : s.Sound) {a : Addr} {v : Pending}
    (hv : (a, v) ∈ s.entries) : queuedEvent a v ∈ s.trace := by
  have htold := (h.queued a v hv).told
  have hmem : queuedEvent a v ∈ story a s.trace := by
    rw [htold]
    exact List.mem_cons_self
  exact (mem_story rfl).mp hmem

/-- What is sent for an entry was queued. -/
theorem Ledger.Sound.sent_queued {s : Ledger} (h : s.Sound) {a : Addr} {data : List UInt8}
    {dest : SockAddr} {err : Int} (hsent : .sent (some a) data dest err ∈ s.trace) :
    ∃ msgid resultfn, .queued a msgid dest data resultfn ∈ s.trace := by
  have hmem := (mem_story rfl).mpr hsent
  have ha : a < s.next := by
    by_contra hle
    rw [h.unused a (Nat.not_lt.mp hle)] at hmem
    exact absurd hmem List.not_mem_nil
  have hfrom : ∀ (v : Pending) rest, story a s.trace = queuedEvent a v :: rest →
      data = v.msg.toList → dest = v.dest →
      ∃ msgid resultfn, .queued a msgid dest data resultfn ∈ s.trace := by
    intro v rest htold hdata hdest
    have hqueued : queuedEvent a v ∈ story a s.trace := by
      rw [htold]
      exact List.mem_cons_self
    rw [hdata, hdest]
    exact ⟨_, _, (mem_story rfl).mp hqueued⟩
  rcases h.told ha with ⟨v, _, hin⟩ | ⟨_, v, k, ending, htold, hend⟩
  · rw [hin.told] at hmem
    obtain ⟨hdata, hdest⟩ := sent_of_opening hmem
    exact hfrom v _ hin.told hdata hdest
  · rw [htold] at hmem
    obtain ⟨hdata, hdest⟩ : data = v.msg.toList ∧ dest = v.dest := by
      rcases List.mem_append.mp hmem with hopen | hend'
      · exact sent_of_opening hopen
      · exact hend.sent hend'
    exact hfrom v _ htold hdata hdest

section

variable {s : Ledger} {a : Addr} {msgid : UInt16} {dest : SockAddr} {data : List UInt8}
  {resultfn : ResultFn}

theorem Ledger.Sound.accounted_queued (h : s.Sound) {v : Pending} (hv : (a, v) ∈ s.entries)
    (hin : InQueue a v (story a s.trace))
    (hqueued : .queued a msgid dest data resultfn ∈ s.trace) :
    Accounted s.trace s.entries a msgid dest data resultfn := by
  have hmem : a ∈ addrs s.entries := mem_addrs.mpr ⟨v, hv⟩
  have htold : story a s.trace = opening a v v.xmitcounter.toNat ++ [] := by
    rw [List.append_nil]
    exact hin.told
  have hq : .queued a msgid dest data resultfn ∈ story a s.trace := (mem_story rfl).mpr hqueued
  rw [htold] at hq
  obtain ⟨_, hdest, hdata, _⟩ :=
    queued_of_opening (fun event hevent => absurd hevent List.not_mem_nil) hq
  refine ⟨?_, ?_, ?_, ?_, ?_⟩
  · intro _
    rw [hin.told, called_opening]
  · intro hout _
    exact absurd hmem hout
  · intro data' dest' err hsent
    have hsent' := (mem_story (a := a) (by rfl)).mpr hsent
    rw [hin.told] at hsent'
    obtain ⟨hd, ht⟩ := sent_of_opening hsent'
    exact ⟨hd.trans hdata.symm, ht.trans hdest.symm⟩
  · intro w hw
    have hin' := h.queued a w hw
    refine ⟨?_, hin'.pos, hin'.le⟩
    rw [hin'.told, sent_opening, List.length_replicate]
  · -- a queued entry has not been removed
    intro before remover after hcut
    have hremoved : .removed a remover ∈ story a s.trace :=
      (mem_story rfl).mpr (by rw [hcut]; simp)
    rw [hin.told] at hremoved
    exact absurd (removed_opening _ hremoved) (by simp [Event.isRemoved])

theorem Ledger.Sound.accounted_left (hout : a ∉ addrs s.entries)
    (hleft : HasLeft a (story a s.trace))
    (hqueued : .queued a msgid dest data resultfn ∈ s.trace) :
    Accounted s.trace s.entries a msgid dest data resultfn := by
  obtain ⟨v, k, ending, htold, hend⟩ := hleft
  have hq : .queued a msgid dest data resultfn ∈ story a s.trace := (mem_story rfl).mpr hqueued
  rw [htold] at hq
  obtain ⟨rfl, rfl, rfl, rfl⟩ := queued_of_opening (hend.not_queued _ _ _ _) hq
  refine ⟨?_, ?_, ?_, ?_, ?_⟩
  · intro hmem
    exact absurd hmem hout
  · intro _ hfn
    obtain ⟨err, hcalled, hdone⟩ := hend.called hfn
    refine ⟨err, ?_, ?_⟩
    · rw [htold, List.filter_append, called_opening, List.nil_append]
      exact hcalled
    · have hiff : .removed a .recv ∈ story a s.trace ↔ .removed a .recv ∈ s.trace := mem_story rfl
      rw [hdone, ← hiff, htold, List.mem_append]
      constructor
      · exact Or.inr
      · intro hmem
        rcases hmem with hopen | hmem
        · exact absurd (removed_opening _ hopen) (by simp [Event.isRemoved])
        · exact hmem
  · intro data' dest' err hsent
    have hsent' := (mem_story (a := a) (by rfl)).mpr hsent
    rw [htold, List.mem_append] at hsent'
    rcases hsent' with hopen | hmem
    · exact sent_of_opening hopen
    · exact hend.sent hmem
  · intro w hw
    exact absurd (mem_addrs.mpr ⟨w, hw⟩) hout
  · intro before remover after hcut data' dest' err hsent
    obtain ⟨init, remover', hlast, hinit⟩ := hend.last
    have hall : ∀ event ∈ opening a v k ++ init, event.isRemoved = false := by
      intro event hevent
      rcases List.mem_append.mp hevent with hevent | hevent
      · exact removed_opening event hevent
      · exact hinit event hevent
    have hstory : opening a v k ++ init ++ [.removed a remover'] =
        story a before ++ .removed a remover :: story a after := by
      rw [List.append_assoc, ← hlast, ← htold, hcut, story_append]
      simp [story, Event.owner]
    have hnil := eq_nil_of_last hstory hall rfl
    have hmem := (mem_story (a := a) (by rfl)).mpr hsent
    rw [hnil] at hmem
    exact absurd hmem List.not_mem_nil

theorem Ledger.Sound.accounted (h : s.Sound) (ha : a < s.next)
    (hqueued : .queued a msgid dest data resultfn ∈ s.trace) :
    Accounted s.trace s.entries a msgid dest data resultfn := by
  rcases h.told ha with ⟨v, hv, hin⟩ | ⟨hout, hleft⟩
  · exact h.accounted_queued hv hin hqueued
  · exact Ledger.Sound.accounted_left hout hleft hqueued

end

/-- Moves only add to the trace, and addresses are not given back. -/
theorem Move.grows {s s' : Ledger} (h : Move s s') :
    (∃ events, s'.trace = s.trace ++ events) ∧ s.next ≤ s'.next := by
  cases h with
  | plain _ _ _ => exact ⟨⟨_, rfl⟩, Nat.le_refl _⟩
  | first _ _ => exact ⟨⟨_, rfl⟩, Nat.le_succ _⟩
  | firstFailed _ _ => exact ⟨⟨_, rfl⟩, Nat.le_succ _⟩
  | resent _ _ => exact ⟨⟨_, rfl⟩, Nat.le_refl _⟩
  | resendFailed _ _ => exact ⟨⟨_, rfl⟩, Nat.le_refl _⟩
  | exhausted _ => exact ⟨⟨_, rfl⟩, Nat.le_refl _⟩
  | acked => exact ⟨⟨_, rfl⟩, Nat.le_refl _⟩

theorem moves_grow {s s' : Ledger} (h : ReflTransGen Move s s') :
    (∃ events, s'.trace = s.trace ++ events) ∧ s.next ≤ s'.next := by
  induction h with
  | refl => exact ⟨⟨[], (List.append_nil _).symm⟩, Nat.le_refl _⟩
  | tail _ hmove ih =>
    obtain ⟨⟨events, htrace⟩, hnext⟩ := ih
    obtain ⟨⟨events', htrace'⟩, hnext'⟩ := hmove.grows
    refine ⟨⟨events ++ events', ?_⟩, hnext.trans hnext'⟩
    rw [htrace', htrace, List.append_assoc]

/-- The trace of a confirmable message begins with its first transmission. -/
theorem Sends.begins {endpt endpt' : Endpoint} {l : Nodes Pending} {toaddr : SockAddr}
    {msg : McMessage} {resultfn : ResultFn} {err : Int}
    (h : Sends endpt endpt' l toaddr msg resultfn err) (hcon : mcMessageIsConfirmable msg = true) :
    ∃ data rest, endpt'.confirmq.brk = endpt.confirmq.brk + 1 ∧
      endpt'.trace = endpt.trace ++
        .queued endpt.confirmq.brk (mcMessageGetMessageId msg) toaddr data resultfn ::
        .sent (some endpt.confirmq.brk) data toaddr err :: rest := by
  obtain ⟨v, hfresh, hfirst⟩ := h.con hcon
  have htrace : ∃ rest, endpt'.trace = endpt.trace ++
      queuedEvent endpt.confirmq.brk v :: sentEvent endpt.confirmq.brk v err :: rest := by
    by_cases herr : err = mnDone
    · exact ⟨[], (hfirst.done herr).2⟩
    · exact ⟨_, (hfirst.failed herr).2⟩
  obtain ⟨rest, htrace⟩ := htrace
  rw [queuedEvent, sentEvent, hfresh.msgid, hfresh.dest, hfresh.resultfn] at htrace
  exact ⟨v.msg.toList, rest, hfirst.brk, htrace⟩

/-- The state of a run from the start, as a ledger. -/
theorem reachable_shows {qsort : Qsort McOption} {rdsize wrsize : UInt32} {host : Host}
    {ops : List EndpointOp} {endpt : Endpoint}
    (hrun : Run (endptStep qsort) (mcEndptUdpInit rdsize wrsize host) ops endpt) :
    ∃ s, endpt.Shows s ∧ s.Sound := by
  obtain ⟨s, hshows, hmoves⟩ := run_moves (mcEndptUdpInit_shows rdsize wrsize host) hrun
  exact ⟨s, hshows, moves_sound hmoves Ledger.sound_empty⟩

/-- A confirmable message that is sent in a run is accounted for ever after:
    whatever is sent, received and checked before and after it. -/
theorem confirmable_accounted {qsort : Qsort McOption} {rdsize wrsize : UInt32} {host : Host}
    {before after : List EndpointOp} {endpt endpt1 endpt2 : Endpoint} {toaddr : SockAddr}
    {msg : McMessage} {resultfn : ResultFn} {err : Int}
    (hbefore : Run (endptStep qsort) (mcEndptUdpInit rdsize wrsize host) before endpt1)
    (hcon : mcMessageIsConfirmable msg = true)
    (hsend : mcEndptUdpSend endpt1 toaddr msg resultfn = .ok (err, endpt2))
    (hafter : Run (endptStep qsort) endpt2 after endpt) :
    ∃ l data rest, endpt.confirmq.Reps l ∧
      endpt2.trace = endpt1.trace ++
        .queued endpt1.confirmq.brk (mcMessageGetMessageId msg) toaddr data resultfn ::
        .sent (some endpt1.confirmq.brk) data toaddr err :: rest ∧
      Accounted endpt.trace l endpt1.confirmq.brk (mcMessageGetMessageId msg) toaddr data
        resultfn := by
  obtain ⟨s1, hshows1, hsound1⟩ := reachable_shows hbefore
  have hsends := mcEndptUdpSend_spec hshows1.reps hsend
  obtain ⟨s2, hshows2, hmoves12⟩ := hsends.moves hshows1
  obtain ⟨s, hshows, hmoves⟩ := run_moves hshows2 hafter
  have hsound := moves_sound (hmoves12.trans hmoves) hsound1
  obtain ⟨data, rest, hbrk, htrace⟩ := hsends.begins hcon
  obtain ⟨⟨events, hgrow⟩, hnext⟩ := moves_grow hmoves
  have hlt : endpt1.confirmq.brk < s.next := by
    rw [← hshows2.next, hbrk] at hnext
    exact hnext
  have hmem : .queued endpt1.confirmq.brk (mcMessageGetMessageId msg) toaddr data resultfn
      ∈ s.trace := by
    rw [hgrow, ← hshows2.trace, htrace]
    simp
  refine ⟨s.entries, data, rest, hshows.reps, htrace, ?_⟩
  rw [hshows.trace]
  exact hsound.accounted hlt hmem

/-- An empty confirmable message, and somebody to send it to. -/
def ping : McMessage := mcMessageConInit 0 7 ⟨0, fun _ => 0⟩ none none

def peer : SockAddr := ⟨2, 5683, 1, 0⟩

theorem run_ping {endpt : Endpoint}
    (hsend : mcEndptUdpSend (mcEndptUdpInit 64 64 stillHost) peer ping 9 = .ok (mnDone, endpt)) :
    Run (endptStep (insertion McOption)) (mcEndptUdpInit 64 64 stillHost) [.send peer ping 9]
      endpt := run_send hsend

/-- The message is sent, and the queue is checked once. -/
theorem confirmable_accounted_ping :
    ∃ err endpt2 endpt,
      mcEndptUdpSend (mcEndptUdpInit 64 64 stillHost) peer ping 9 = .ok (err, endpt2) ∧
      mcEndptUdpCheckQueues endpt2 = .ok endpt ∧
      ∃ l data rest, endpt.confirmq.Reps l ∧
        endpt2.trace = [] ++ .queued 0 7 peer data 9 :: .sent (some 0) data peer err :: rest ∧
        Accounted endpt.trace l 0 7 peer data 9 := by
  have hinit := mcEndptUdpInit_shows 64 64 stillHost
  obtain ⟨err, endpt2, hsend, _⟩ := mcEndptUdpSend_fits hinit.reps ping listEncodable_none
    (by rw [messageBytes_length]; decide) peer 9
  obtain ⟨s2, hshows, _⟩ := (mcEndptUdpSend_spec hinit.reps hsend).moves hinit
  obtain ⟨endpt, hcheck, _⟩ := mcEndptUdpCheckQueues_spec hshows.reps
  have hstep : endptStep (insertion McOption) endpt2 .checkQueues endpt := hcheck
  exact ⟨err, endpt2, endpt, hsend, hcheck,
    confirmable_accounted Run.nil rfl hsend (Run.single hstep)⟩

end Mcoap
