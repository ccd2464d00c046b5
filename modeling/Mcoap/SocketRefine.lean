import Mcoap.SocketTime

/-! # The socket of the endpoint

    The endpoint's `sendto` and `recvfrom` are one outcome each.  Here they
    are what the loops of the socket come to:

    * `Attempted.moved`: a loop moves what it says it has moved, once;
    * `sendto_refines`: a send of the endpoint is done if and only if the
      kernel has taken its datagram, once;
    * `recvfrom_refines`: an arrival is the one datagram that the kernel has
      given, or none. -/

namespace Mcoap

open ByteMem DList

namespace Unix

/-- A call that fails sets `errno`. -/
def Kernel.SetsErrno (kernel : Kernel) : Prop :=
  ∀ n call, (kernel.replies n call).ret < 0 → 0 < (kernel.replies n call).errno

/-- The answers with which something was moved. -/
def moved (att : Attempts) (talk : Talk) : List Reply :=
  (talk.filter fun entry => entry.1 = att.call ∧ att.done entry.2).map Prod.snd

section

variable {kernel kernel' : Kernel} {talk : Talk} {sw : WaitFor} {tout : MnTimeout} {att : Attempts}
  {answer moving : Option Reply} {reply : Reply} {result : Option (Int × Option Reply)} {err : Int}

theorem moved_append (att : Attempts) (talk talk' : Talk) :
    moved att (talk ++ talk') = moved att talk ++ moved att talk' := by
  unfold moved
  rw [List.filter_append, List.map_append]

theorem moved_cons (hdone : att.done reply = true) :
    moved att ((att.call, reply) :: talk) = reply :: moved att talk := by
  unfold moved
  rw [List.filter_cons_of_pos (by simp [hdone]), List.map_cons]

theorem moved_cons_not (hdone : att.done reply = false) :
    moved att ((att.call, reply) :: talk) = moved att talk := by
  unfold moved
  rw [List.filter_cons_of_neg (by simp [hdone])]

/-- A wait moves nothing. -/
theorem Waited.moved (hsound : att.Sound) (h : Waited sw tout talk answer) : moved att talk = [] := by
  unfold Unix.moved
  rw [List.map_eq_nil_iff, List.filter_eq_nil_iff]
  induction h with
  | fuelUp => exact fun entry hentry => absurd hentry List.not_mem_nil
  | interrupted _ _ ih =>
    intro entry hentry
    rcases List.mem_cons.mp hentry with heq | hentry
    · simp [heq, selectCall, (hsound.call _ _ _).symm]
    · exact ih entry hentry
  | answered _ =>
    intro entry hentry
    simp [List.mem_singleton.mp hentry, selectCall, (hsound.call _ _ _).symm]

/-- A loop moves what it gives back, and does so once. -/
theorem Attempted.moved (hsound : att.Sound) (h : Attempted att tout talk result) :
    moved att talk = (result.bind Prod.snd).toList := by
  induction h with
  | fuelUp => rfl
  | done hdone => exact moved_cons hdone
  | closed hdone _ => exact moved_cons_not hdone
  | failed hdone _ _ _ => exact moved_cons_not hdone
  | expired hreply => exact moved_cons_not hreply.1
  | signalled hreply _ ih =>
    rw [moved_cons_not hreply.1]
    exact ih
  | waiting hreply hwait =>
    rw [moved_cons_not hreply.1]
    exact hwait.moved hsound
  | unready hreply hwait _ =>
    rw [moved_cons_not hreply.1]
    exact hwait.moved hsound
  | ready hreply hwait _ _ ih =>
    rw [moved_cons_not hreply.1, moved_append, hwait.moved hsound]
    exact ih

/-- The code is `MN_DONE` if something was moved, and only then. -/
theorem Attempted.code (hsound : att.Sound)
    (herrno : ∀ entry ∈ talk, entry.2.ret < 0 → 0 < entry.2.errno)
    (h : Attempted att tout talk (some (err, moving))) : err = mnDone ↔ moving.isSome := by
  generalize hresult : some (err, moving) = result at h
  induction h with
  | fuelUp => cases hresult
  | done _ =>
    cases hresult
    simp
  | closed _ _ =>
    cases hresult
    decide
  | failed hdone hclosed _ _ =>
    cases hresult
    have hpos := herrno _ List.mem_cons_self (hsound.fails _ hdone hclosed)
    simp only [mnDone, Option.isSome_none, Bool.false_eq_true, iff_false]
    exact hpos.ne'
  | signalled _ _ ih => exact ih (fun entry hentry => herrno entry (List.mem_cons_of_mem _ hentry)) hresult
  | expired _ =>
    cases hresult
    decide
  | waiting _ _ => cases hresult
  | unready _ _ hverdict =>
    cases hresult
    simp [hverdict]
  | ready _ _ _ _ ih =>
    apply ih _ hresult
    intro entry hentry
    exact herrno entry (List.mem_cons_of_mem _ (List.mem_append_right _ hentry))

/-- What can be said of a loop that has come to an end. -/
theorem attemptOn_spec (loop : Transfer) {sock : Int} {fuel : Nat} (herrno : kernel.SetsErrno)
    (h : attemptOn sock loop.attempts tout fuel kernel = (some (err, moving), kernel')) :
    ∃ talk, Said kernel talk kernel' ∧ moved loop.attempts talk = moving.toList ∧
      (err = mnDone ↔ moving.isSome) := by
  unfold attemptOn at h
  split at h
  · cases h
    exact ⟨[], Said.refl kernel, rfl, by decide⟩
  obtain ⟨talk, hsaid, hattempted, _⟩ := attemptLoop_talk loop.attempts tout fuel kernel
  rw [h] at hsaid hattempted
  refine ⟨talk, hsaid, hattempted.moved loop.sound, hattempted.code loop.sound ?_⟩
  intro entry hentry
  obtain ⟨n, hn⟩ := hsaid.answers entry hentry
  rw [hn]
  exact herrno n entry.1

/-- What was moved is an answer of the kernel that brought success. -/
theorem moving_reply (loop : Transfer) (hsaid : Said kernel talk kernel')
    (hmoved : moved loop.attempts talk = (some reply).toList) :
    loop.attempts.done reply = true ∧ ∃ n, reply = kernel.replies n loop.attempts.call := by
  have hmem : reply ∈ moved loop.attempts talk := by
    rw [hmoved]
    exact List.mem_singleton_self _
  obtain ⟨entry, hentry, heq⟩ := List.mem_map.mp hmem
  obtain ⟨hentry, hcond⟩ := List.mem_filter.mp hentry
  simp only [decide_eq_true_eq] at hcond
  obtain ⟨n, hn⟩ := hsaid.answers entry hentry
  rw [← heq]
  exact ⟨hcond.2, n, by rw [hn, hcond.1]⟩

end

/-- A kernel that interrupts the first call, refuses the second one, and
    then moves three bytes at a time. -/
def busyKernel : Kernel where
  host  := stillHost
  calls := []
  replies n call :=
    match call, n with
    | .select _ _ _, _ => ⟨1, 0, false, [], ⟨2, 5683, 0, 0⟩⟩
    | _, 0 => ⟨-1, eintr, false, [], ⟨2, 5683, 0, 0⟩⟩
    | _, 1 => ⟨-1, eagain, false, [], ⟨2, 5683, 0, 0⟩⟩
    | _, _ + 2 => ⟨3, 0, false, [7, 8, 9], ⟨2, 5683, 0, 0⟩⟩

/-- It sets `errno`, and moves three bytes if it moves any. -/
theorem busyKernel_replies (n : Nat) (call : SysCall) :
    ((busyKernel.replies n call).ret < 0 → 0 < (busyKernel.replies n call).errno) ∧
      ((∀ sw now timeout, call ≠ .select sw now timeout) → 0 ≤ (busyKernel.replies n call).ret →
        (busyKernel.replies n call).ret = 3 ∧ (busyKernel.replies n call).bytes = [7, 8, 9]) := by
  unfold busyKernel
  simp only
  split
  · next sw now timeout =>
    exact ⟨fun hneg => absurd hneg (by decide), fun hcall => absurd rfl (hcall sw now timeout)⟩
  · exact ⟨fun _ => by decide, fun _ hpos => absurd hpos (by decide)⟩
  · exact ⟨fun _ => by decide, fun _ hpos => absurd hpos (by decide)⟩
  · exact ⟨fun hneg => absurd hneg (by decide), fun _ _ => ⟨rfl, rfl⟩⟩

/-- A send of the endpoint: whatever `mn_socket_sendto` gives back, the
    endpoint that is handed this outcome records it, and `MN_DONE` stands
    for exactly one datagram that the kernel has taken. -/
theorem sendto_refines {sock : Int} {tout : MnTimeout} {fuel : Nat} {kernel kernel' : Kernel}
    {err sent : Int} (owner : Option Addr) (data : List UInt8) (dest : SockAddr)
    (herrno : kernel.SetsErrno)
    (hwhole : ∀ n, 0 ≤ (kernel.replies n (.sendto data.length)).ret →
      (kernel.replies n (.sendto data.length)).ret = data.length)
    (h : mnSocketSendto sock data.length tout fuel kernel = (some (err, sent), kernel')) :
    ∃ talk, kernel'.calls = kernel.calls ++ talk ∧
      (moved (sendtoAttempts data.length) talk).length = (if err = mnDone then 1 else 0) ∧
      sent = (if err = mnDone then (data.length : Int) else 0) ∧
      ∀ endpt : Endpoint, endpt.host.sends endpt.host.nsends = err →
        (sendtoSocket endpt owner data dest).1 = err ∧
        (sendtoSocket endpt owner data dest).2.trace =
          endpt.trace ++ [.sent owner data dest err] := by
  simp only [mnSocketSendto] at h
  cases hloop : attemptOn sock (sendtoAttempts data.length) tout fuel kernel with
  | mk result kernel1 =>
  rw [hloop] at h
  cases result with
  | none => cases h
  | some result =>
  obtain ⟨err1, moving⟩ := result
  cases h
  obtain ⟨talk, hsaid, hmoved, hcode⟩ := attemptOn_spec (.sendto data.length) herrno hloop
  have hwhole' : ∀ reply, moving = some reply → reply.ret = data.length ∧ data.length ≠ 0 := by
    intro reply hreply
    rw [hreply] at hmoved
    obtain ⟨hdone, n, hn⟩ := moving_reply (.sendto data.length) hsaid hmoved
    have hpos : reply.ret > 0 := of_decide_eq_true hdone
    have hret := hwhole n
    rw [show kernel.replies n (.sendto data.length) = reply from hn.symm] at hret
    have hlen := hret hpos.le
    exact ⟨hlen, by omega⟩
  have hmoved : (moved (sendtoAttempts data.length) talk).length = moving.toList.length :=
    congrArg List.length hmoved
  refine ⟨talk, hsaid.calls, ?_, ?_, ?_⟩
  · rw [hmoved]
    cases moving with
    | none =>
      rw [if_neg (by simpa using hcode)]
      rfl
    | some reply =>
      rw [if_pos (hcode.mpr rfl)]
      rfl
  · cases moving with
    | none =>
      rw [if_neg (by simpa using hcode)]
      rfl
    | some reply =>
      rw [if_pos (hcode.mpr rfl)]
      exact (hwhole' reply rfl).1
  · intro endpt (hsends : endpt.host.sends endpt.host.nsends = err1)
    have hcount : ¬ (err1 = 0 ∧ data.length = 0) := by
      intro hboth
      obtain ⟨reply, hreply⟩ := Option.isSome_iff_exists.mp (hcode.mp hboth.1)
      exact (hwhole' reply hreply).2 hboth.2
    have herr : (sendtoSocket endpt owner data dest).1 = err1 := by
      rw [← hsends] at hcount ⊢
      exact if_neg hcount
    refine ⟨herr, ?_⟩
    rw [← herr]
    rfl

/-- Three bytes are sent, by the fourth call. -/
theorem sendto_refines_busy :
    ∃ talk, (mnSocketSendto 5 3 ⟨1, -1, 0⟩ 8 busyKernel).2.calls = [] ++ talk ∧
      (moved (sendtoAttempts 3) talk).length = 1 ∧ (3 : Int) = 3 ∧
      ∀ endpt : Endpoint, endpt.host.sends endpt.host.nsends = 0 →
        (sendtoSocket endpt none [7, 8, 9] ⟨2, 5683, 0, 0⟩).1 = 0 ∧
        (sendtoSocket endpt none [7, 8, 9] ⟨2, 5683, 0, 0⟩).2.trace =
          endpt.trace ++ [.sent none [7, 8, 9] ⟨2, 5683, 0, 0⟩ 0] :=
  @sendto_refines 5 ⟨1, -1, 0⟩ 8 busyKernel _ 0 3 none [7, 8, 9] ⟨2, 5683, 0, 0⟩
    (fun n call => (busyKernel_replies n call).1)
    (fun n hpos => ((busyKernel_replies n _).2 (by simp) hpos).1) (Prod.ext rfl rfl)

/-- What is in the caller's buffer after `mn_socket_recvfrom`, and in its
    variables. -/
def readInto (buffer : McBuffer) : Int × Option Reply → Int × Option SockAddr × McBuffer
  | (err, none) => (err, none, { buffer with nbytes := 0 })
  | (err, some reply) =>
    (err, some reply.source,
      ⟨UInt32.ofNat reply.ret.toNat, blit buffer.bytes 0 (reply.bytes.take buffer.nbytes.toNat)⟩)

/-- An arrival at the endpoint: whatever `mn_socket_recvfrom` leaves in the
    buffer is what one arrival leaves there, a datagram that the kernel has
    given once, or a failure after which it has given none. -/
theorem recvfrom_refines {sock : Int} {tout : MnTimeout} {fuel : Nat} {kernel kernel' : Kernel}
    {result : Int × Option Reply} (buffer : McBuffer) (herrno : kernel.SetsErrno)
    (hwhole : ∀ n, 0 ≤ (kernel.replies n (.recvfrom buffer.nbytes.toNat)).ret →
      (kernel.replies n (.recvfrom buffer.nbytes.toNat)).ret =
        ((kernel.replies n (.recvfrom buffer.nbytes.toNat)).bytes.take buffer.nbytes.toNat).length)
    (h : mnSocketRecvfrom sock buffer.nbytes.toNat tout fuel kernel = (some result, kernel')) :
    ∃ talk arrival, kernel'.calls = kernel.calls ++ talk ∧
      Mcoap.mnSocketRecvfrom arrival buffer = readInto buffer result ∧
      ((∃ reply, arrival = .datagram reply.bytes reply.source ∧
          moved (recvfromAttempts buffer.nbytes.toNat) talk = [reply]) ∨
        ∃ err hne, arrival = .failed err hne ∧
          moved (recvfromAttempts buffer.nbytes.toNat) talk = []) := by
  obtain ⟨err, moving⟩ := result
  obtain ⟨talk, hsaid, hmoved, hcode⟩ :=
    attemptOn_spec (.recvfrom buffer.nbytes.toNat) herrno h
  cases moving with
  | none =>
    have hne : err ≠ mnDone := fun hdone => absurd (hcode.mp hdone) (by simp)
    exact ⟨talk, .failed err hne, hsaid.calls, rfl, .inr ⟨err, hne, rfl, hmoved⟩⟩
  | some reply =>
    obtain ⟨hdone, n, hn⟩ := moving_reply (.recvfrom buffer.nbytes.toNat) hsaid hmoved
    have hpos : reply.ret > 0 := of_decide_eq_true hdone
    have hret := hwhole n
    rw [show kernel.replies n (.recvfrom buffer.nbytes.toNat) = reply from hn.symm] at hret
    have hlen := hret hpos.le
    have hne : reply.bytes.take buffer.nbytes.toNat ≠ [] := by
      intro hnil
      rw [hnil, List.length_nil] at hlen
      omega
    refine ⟨talk, .datagram reply.bytes reply.source, hsaid.calls, ?_, .inl ⟨reply, rfl, hmoved⟩⟩
    simp only [Mcoap.mnSocketRecvfrom, readInto]
    rw [if_neg hne, hcode.mpr rfl, hlen]
    rfl

/-- Three bytes are received, by the fourth call. -/
theorem recvfrom_refines_busy :
    ∃ talk arrival, (mnSocketRecvfrom 5 64 ⟨1, -1, 0⟩ 8 busyKernel).2.calls = [] ++ talk ∧
      Mcoap.mnSocketRecvfrom arrival ⟨64, fun _ => 0⟩ =
        readInto ⟨64, fun _ => 0⟩ (0, some ⟨3, 0, false, [7, 8, 9], ⟨2, 5683, 0, 0⟩⟩) ∧
      ((∃ reply, arrival = .datagram reply.bytes reply.source ∧
          moved (recvfromAttempts 64) talk = [reply]) ∨
        ∃ err hne, arrival = .failed err hne ∧ moved (recvfromAttempts 64) talk = []) :=
  @recvfrom_refines 5 ⟨1, -1, 0⟩ 8 busyKernel _ _ ⟨64, fun _ => 0⟩
    (fun n call => (busyKernel_replies n call).1)
    (fun n hpos => by
      obtain ⟨hret, hbytes⟩ := (busyKernel_replies n _).2 (by simp) hpos
      rw [hret, hbytes]
      rfl)
    (Prod.ext rfl rfl)

end Unix

end Mcoap
