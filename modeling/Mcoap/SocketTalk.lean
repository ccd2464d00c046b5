import Mcoap.Socket

/-! # What a socket says to the kernel

    The loops of the socket as a grammar of conversations.

    * `Waited`, `Attempted`: the calls a loop makes, with their answers, and
      what it gives back;
    * `attemptLoop_talk`: every call of a loop has such a conversation, and
      one that its fuel is not enough for is as long as the fuel;
    * `Attempted.length_le`: only signals and refusals make it long. -/

namespace Mcoap

namespace Unix

/-! ## Section 1: Conversations -/

/-- Calls with their answers. -/
abbrev Talk := List (SysCall × Reply)

/-- What is said on the way from `kernel` to `kernel'`. -/
structure Said (kernel : Kernel) (talk : Talk) (kernel' : Kernel) : Prop where
  calls   : kernel'.calls = kernel.calls ++ talk
  replies : kernel'.replies = kernel.replies
  answers : ∀ entry ∈ talk, ∃ n, entry.2 = kernel.replies n entry.1

/-- A `select` by a clock that shows `now`. -/
def selectCall (sw : WaitFor) (tout : MnTimeout) (now : ℚ) : SysCall :=
  .select sw now (timeval (retryLeft tout now))

/-- The conversation of `selectLoop`; no answer if it has not come to an
    end. -/
inductive Waited (sw : WaitFor) (tout : MnTimeout) : Talk → Option Reply → Prop where
  | fuelUp : Waited sw tout [] none
  | interrupted {now : ℚ} {reply : Reply} {talk : Talk} {answer : Option Reply}
      (hreply : reply.interrupted = true) (hrest : Waited sw tout talk answer) :
      Waited sw tout ((selectCall sw tout now, reply) :: talk) answer
  | answered {now : ℚ} {reply : Reply} (hreply : reply.interrupted = false) :
      Waited sw tout [(selectCall sw tout now, reply)] (some reply)

section

variable (att : Attempts)

/-- The call was interrupted by a signal. -/
def Attempts.signalled (reply : Reply) : Prop :=
  att.done reply = false ∧ att.closed reply = false ∧ reply.errno = eintr

/-- There is nothing to be had now. -/
def Attempts.refused (reply : Reply) : Prop :=
  att.done reply = false ∧ att.closed reply = false ∧ reply.errno ≠ eintr ∧
    att.again reply.errno = true

/-- The conversation of `attemptLoop`. -/
inductive Attempted (tout : MnTimeout) : Talk → Option (Int × Option Reply) → Prop where
  | fuelUp : Attempted tout [] none
  | done {reply : Reply} (hreply : att.done reply = true) :
      Attempted tout [(att.call, reply)] (some (mnDone, some reply))
  | closed {reply : Reply} (hdone : att.done reply = false) (hreply : att.closed reply = true) :
      Attempted tout [(att.call, reply)] (some (mnClosed, none))
  | failed {reply : Reply} (hdone : att.done reply = false) (hclosed : att.closed reply = false)
      (hintr : reply.errno ≠ eintr) (hagain : att.again reply.errno = false) :
      Attempted tout [(att.call, reply)] (some (reply.errno, none))
  | signalled {reply : Reply} {talk : Talk} {result : Option (Int × Option Reply)}
      (hreply : att.signalled reply) (hrest : Attempted tout talk result) :
      Attempted tout ((att.call, reply) :: talk) result
  | expired {reply : Reply} (hreply : att.refused reply) :
      Attempted tout [(att.call, reply)] (some (mnTimeout, none))
  | waiting {reply : Reply} {waits : Talk} (hreply : att.refused reply)
      (hwait : Waited att.sw tout waits none) :
      Attempted tout ((att.call, reply) :: waits) none
  | unready {reply answer : Reply} {waits : Talk} (hreply : att.refused reply)
      (hwait : Waited att.sw tout waits (some answer))
      (hverdict : waitVerdict att.sw answer ≠ mnDone) :
      Attempted tout ((att.call, reply) :: waits) (some (waitVerdict att.sw answer, none))
  | ready {reply answer : Reply} {waits talk : Talk} {result : Option (Int × Option Reply)}
      (hreply : att.refused reply) (hwait : Waited att.sw tout waits (some answer))
      (hverdict : waitVerdict att.sw answer = mnDone) (hrest : Attempted tout talk result) :
      Attempted tout ((att.call, reply) :: (waits ++ talk)) result

end

/-! ## Section 2: The loops have conversations -/

section

variable {kernel kernel' kernel'' : Kernel} {talk talk' : Talk} {sw : WaitFor} {tout : MnTimeout}
  {att : Attempts} {fuel : Nat}

theorem Said.refl (kernel : Kernel) : Said kernel [] kernel where
  calls   := (List.append_nil _).symm
  replies := rfl
  answers := by simp

theorem Said.trans (h : Said kernel talk kernel') (h' : Said kernel' talk' kernel'') :
    Said kernel (talk ++ talk') kernel'' where
  calls   := by rw [h'.calls, h.calls, List.append_assoc]
  replies := h'.replies.trans h.replies
  answers := by
    intro entry hentry
    rcases List.mem_append.mp hentry with hmem | hmem
    · exact h.answers entry hmem
    · rw [← h.replies]
      exact h'.answers entry hmem

/-- A call, whatever has been done to the host before. -/
theorem Said.ask (kernel : Kernel) (host : Host) (call : SysCall) :
    Said kernel [(call, kernel.replies kernel.calls.length call)]
      ({ kernel with host := host }.ask call).2 where
  calls   := rfl
  replies := rfl
  answers := by
    intro entry hentry
    rw [List.mem_singleton] at hentry
    exact ⟨kernel.calls.length, by rw [hentry]⟩

theorem mnTimeoutGetretry_left (tout : MnTimeout) (host : Host) :
    (mnTimeoutGetretry tout host).1 = retryLeft tout (host.clock host.ticks) := by
  unfold mnTimeoutGetretry
  split
  · rfl
  · rfl

theorem selectLoop_talk (sw : WaitFor) (tout : MnTimeout) (fuel : Nat) (kernel : Kernel) :
    ∃ talk, Said kernel talk (selectLoop sw tout fuel kernel).2 ∧
      Waited sw tout talk (selectLoop sw tout fuel kernel).1 ∧
      ((selectLoop sw tout fuel kernel).1 = none → fuel ≤ talk.length) := by
  induction fuel generalizing kernel with
  | zero => exact ⟨[], Said.refl kernel, .fuelUp, fun _ => Nat.zero_le _⟩
  | succ fuel ih =>
    simp only [selectLoop]
    rw [mnTimeoutGetretry_left]
    have hask := Said.ask kernel (mnTimeoutGetretry tout kernel.host).2
      (selectCall sw tout (kernel.host.clock kernel.host.ticks))
    split
    · next hreply =>
      obtain ⟨talk, hsaid, hwaited, hfuel⟩ := ih _
      refine ⟨_, hask.trans hsaid, .interrupted hreply hwaited, ?_⟩
      intro hnone
      have hlen := hfuel hnone
      simp only [List.length_append, List.length_singleton]
      omega
    · next hreply =>
      exact ⟨_, hask, .answered (Bool.eq_false_iff.mpr hreply), fun hnone => nomatch hnone⟩

/-- A wait of no length asks for nothing. -/
theorem mnSocketWaitfd_talk (sw : WaitFor) (tout : MnTimeout) (fuel : Nat) (kernel : Kernel) :
    mnSocketWaitfd sw tout fuel kernel = (some mnTimeout, kernel) ∨
      ∃ waits answer, Said kernel waits (mnSocketWaitfd sw tout fuel kernel).2 ∧
        Waited sw tout waits answer ∧
        (mnSocketWaitfd sw tout fuel kernel).1 = answer.map (waitVerdict sw) ∧
        (answer = none → fuel ≤ waits.length) := by
  unfold mnSocketWaitfd
  split
  · exact .inl rfl
  · obtain ⟨waits, hsaid, hwaited, hfuel⟩ := selectLoop_talk sw tout fuel kernel
    exact .inr ⟨waits, _, hsaid, hwaited, rfl, hfuel⟩

theorem attemptLoop_talk (att : Attempts) (tout : MnTimeout) (fuel : Nat) (kernel : Kernel) :
    ∃ talk, Said kernel talk (attemptLoop att tout fuel kernel).2 ∧
      Attempted att tout talk (attemptLoop att tout fuel kernel).1 ∧
      ((attemptLoop att tout fuel kernel).1 = none → fuel ≤ talk.length) := by
  induction fuel generalizing kernel with
  | zero => exact ⟨[], Said.refl kernel, .fuelUp, fun _ => Nat.zero_le _⟩
  | succ fuel ih =>
    have hask := Said.ask kernel kernel.host att.call
    simp only [attemptLoop]
    split
    · next hdone => exact ⟨_, hask, .done hdone, fun hnone => nomatch hnone⟩
    next hdone =>
    have hdone := Bool.eq_false_iff.mpr hdone
    split
    · next hclosed => exact ⟨_, hask, .closed hdone hclosed, fun hnone => nomatch hnone⟩
    next hclosed =>
    have hclosed := Bool.eq_false_iff.mpr hclosed
    split
    · next hintr =>
      obtain ⟨talk, hsaid, hattempted, hfuel⟩ := ih _
      refine ⟨_, hask.trans hsaid, .signalled ⟨hdone, hclosed, hintr⟩ hattempted, ?_⟩
      intro hnone
      have hlen := hfuel hnone
      simp only [List.length_append, List.length_singleton]
      omega
    next hintr =>
    split
    · next hagain => exact ⟨_, hask, .failed hdone hclosed hintr hagain, fun hnone => nomatch hnone⟩
    next hagain =>
    have hreply : att.refused _ := ⟨hdone, hclosed, hintr, by simpa using hagain⟩
    have hwaitfd := mnSocketWaitfd_talk att.sw tout fuel (kernel.ask att.call).2
    generalize mnSocketWaitfd att.sw tout fuel (kernel.ask att.call).2 = waited at hwaitfd ⊢
    obtain ⟨err, kernel1⟩ := waited
    rcases hwaitfd with heq | ⟨waits, answer, hsaid, hwaited, herr, hfuel⟩
    · cases heq
      exact ⟨_, hask, .expired hreply, fun hnone => nomatch hnone⟩
    cases herr
    cases answer with
    | none =>
      refine ⟨_, hask.trans hsaid, .waiting hreply hwaited, fun _ => ?_⟩
      have hlen := hfuel rfl
      simp only [List.length_append, List.length_singleton]
      omega
    | some answer =>
      simp only
      by_cases hverdict : waitVerdict att.sw answer = mnDone
      · rw [if_neg (not_not.mpr hverdict)]
        obtain ⟨talk, hsaid', hattempted, hfuel'⟩ := ih kernel1
        refine ⟨(att.call, _) :: (waits ++ talk), hask.trans (hsaid.trans hsaid'),
          .ready hreply hwaited hverdict hattempted, fun hnone => ?_⟩
        have hlen := hfuel' hnone
        simp only [List.length_cons, List.length_append]
        omega
      · rw [if_pos hverdict]
        exact ⟨_, hask.trans hsaid, .unready hreply hwaited hverdict, fun hnone => nomatch hnone⟩

end

/-! ## Section 3: How long a conversation is -/

/-- The loops' calls. -/
inductive Transfer where
  | send (count : Nat)
  | sendto (count : Nat)
  | recv (count : Nat)
  | recvfrom (count : Nat)
  | accept
  deriving DecidableEq, Repr

def Transfer.attempts : Transfer → Attempts
  | .send count     => sendAttempts count
  | .sendto count   => sendtoAttempts count
  | .recv count     => recvAttempts count
  | .recvfrom count => recvfromAttempts count
  | .accept         => acceptAttempts

/-- What the loops have in common. -/
structure Attempts.Sound (att : Attempts) : Prop where
  call  : ∀ sw now timeout, att.call ≠ .select sw now timeout
  fails : ∀ reply, att.done reply = false → att.closed reply = false → reply.ret < 0

theorem Transfer.sound (transfer : Transfer) : transfer.attempts.Sound := by
  cases transfer with
  | send count =>
    refine ⟨fun _ _ _ heq => SysCall.noConfusion heq, fun reply hdone hclosed => ?_⟩
    simp only [attempts, sendAttempts, decide_eq_false_iff_not] at hdone hclosed
    omega
  | sendto count =>
    refine ⟨fun _ _ _ heq => SysCall.noConfusion heq, fun reply hdone hclosed => ?_⟩
    simp only [attempts, sendtoAttempts, decide_eq_false_iff_not] at hdone hclosed
    omega
  | recv count =>
    refine ⟨fun _ _ _ heq => SysCall.noConfusion heq, fun reply hdone hclosed => ?_⟩
    simp only [attempts, recvAttempts, decide_eq_false_iff_not] at hdone hclosed
    omega
  | recvfrom count =>
    refine ⟨fun _ _ _ heq => SysCall.noConfusion heq, fun reply hdone hclosed => ?_⟩
    simp only [attempts, recvfromAttempts, decide_eq_false_iff_not] at hdone hclosed
    omega
  | accept =>
    refine ⟨fun _ _ _ heq => SysCall.noConfusion heq, fun reply hdone _ => ?_⟩
    have hret : reply.ret = mnSocketInvalid := not_not.mp (of_decide_eq_false hdone)
    rw [hret]
    decide

/-- The calls that a signal interrupted. -/
def interruptions (talk : Talk) : Nat :=
  talk.countP fun entry => entry.2.ret < 0 ∧ entry.2.errno = eintr

/-- The attempts after which there is a wait. -/
def refusals (att : Attempts) (talk : Talk) : Nat :=
  talk.countP fun entry => entry.1 = att.call ∧ entry.2.ret < 0 ∧ att.again entry.2.errno

section

variable {kernel kernel' : Kernel} {talk talk' : Talk} {sw : WaitFor} {tout : MnTimeout}
  {att : Attempts} {call : SysCall} {reply : Reply} {answer : Option Reply}
  {result : Option (Int × Option Reply)}

theorem interruptions_append (talk talk' : Talk) :
    interruptions (talk ++ talk') = interruptions talk + interruptions talk' :=
  List.countP_append

theorem refusals_append (att : Attempts) (talk talk' : Talk) :
    refusals att (talk ++ talk') = refusals att talk + refusals att talk' :=
  List.countP_append

theorem interruptions_cons_le (call : SysCall) (reply : Reply) (talk : Talk) :
    interruptions talk ≤ interruptions ((call, reply) :: talk) :=
  (List.sublist_cons_self _ _).countP_le

theorem refusals_cons_le (att : Attempts) (call : SysCall) (reply : Reply) (talk : Talk) :
    refusals att talk ≤ refusals att ((call, reply) :: talk) :=
  (List.sublist_cons_self _ _).countP_le

theorem interruptions_cons (hret : reply.ret < 0) (herrno : reply.errno = eintr) :
    interruptions ((call, reply) :: talk) = interruptions talk + 1 :=
  List.countP_cons_of_pos (by simp [hret, herrno])

theorem refusals_cons (hsound : att.Sound) (hreply : att.refused reply) :
    refusals att ((att.call, reply) :: talk) = refusals att talk + 1 := by
  have hret := hsound.fails reply hreply.1 hreply.2.1
  exact List.countP_cons_of_pos (by simp [hret, hreply.2.2.2])

/-- A wait makes one call more than there are signals. -/
theorem Waited.length_le (h : Waited sw tout talk answer) :
    talk.length ≤ interruptions talk + (if answer.isSome then 1 else 0) := by
  induction h with
  | fuelUp => exact Nat.zero_le _
  | interrupted hreply _ ih =>
    simp only [Reply.interrupted, decide_eq_true_eq] at hreply
    rw [interruptions_cons (by omega) hreply.2, List.length_cons]
    omega
  | answered _ =>
    simp only [List.length_singleton, Option.isSome_some, if_true]
    omega

/-- A loop goes round once for a signal, and makes one more call for a
    refusal, to wait. -/
theorem Attempted.length_le (hsound : att.Sound) (h : Attempted att tout talk result) :
    talk.length ≤ interruptions talk + 2 * refusals att talk + (if result.isSome then 1 else 0) := by
  induction h with
  | fuelUp => exact Nat.zero_le _
  | done _ => simp
  | closed _ _ => simp
  | failed _ _ _ _ => simp
  | expired _ => simp
  | @signalled reply talk result hreply _ ih =>
    have hret := hsound.fails reply hreply.1 hreply.2.1
    have hrefusals := refusals_cons_le att att.call reply talk
    rw [interruptions_cons hret hreply.2.2, List.length_cons]
    omega
  | @waiting reply waits hreply hwait =>
    have hlen := hwait.length_le
    have hinterruptions := interruptions_cons_le att.call reply waits
    rw [refusals_cons hsound hreply, List.length_cons]
    simp only [Option.isSome_none] at hlen ⊢
    omega
  | @unready reply answer waits hreply hwait _ =>
    have hlen := hwait.length_le
    have hinterruptions := interruptions_cons_le att.call reply waits
    rw [refusals_cons hsound hreply, List.length_cons]
    simp only [Option.isSome_some, if_true] at hlen ⊢
    omega
  | @ready reply answer waits talk result hreply hwait _ _ ih =>
    have hlen := hwait.length_le
    have hinterruptions := interruptions_cons_le att.call reply (waits ++ talk)
    rw [interruptions_append] at hinterruptions
    rw [refusals_cons hsound hreply, refusals_append, List.length_cons, List.length_append]
    simp only [Option.isSome_some, if_true] at hlen
    omega

/-- The loops make as many calls as there are signals and refusals make
    necessary, and come to an end unless their fuel is less than that. -/
theorem transfer_ends (transfer : Transfer) (sock : Int) (tout : MnTimeout) (fuel : Nat)
    (kernel : Kernel) :
    ∃ talk, (attemptOn sock transfer.attempts tout fuel kernel).2.calls = kernel.calls ++ talk ∧
      talk.length ≤ interruptions talk + 2 * refusals transfer.attempts talk + 1 ∧
      (interruptions talk + 2 * refusals transfer.attempts talk < fuel →
        (attemptOn sock transfer.attempts tout fuel kernel).1.isSome) := by
  unfold attemptOn
  split
  · exact ⟨[], (List.append_nil _).symm, by simp, fun _ => rfl⟩
  obtain ⟨talk, hsaid, hattempted, hfuel⟩ := attemptLoop_talk transfer.attempts tout fuel kernel
  have hlen := hattempted.length_le transfer.sound
  refine ⟨talk, hsaid.calls, ?_, ?_⟩
  · split at hlen
    · exact hlen
    · omega
  · intro hlt
    by_contra hnone
    have hnone : (attemptLoop transfer.attempts tout fuel kernel).1 = none := by simpa using hnone
    have henough := hfuel hnone
    rw [hnone] at hlen
    simp only [Option.isSome_none, Bool.false_eq_true, if_false] at hlen
    omega

end

end Unix

end Mcoap
