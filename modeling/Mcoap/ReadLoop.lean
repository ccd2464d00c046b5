import Mcoap.Ledger

/-! # The read/dispatch loop

    `endpt_udp_loop`, and the flag that stops it.

    The flag is written by the loop, from the value of the read function,
    and by the program, at any time; each read and each write of it is one
    step.

    * `loopStep`: the loop between two accesses of the flag, and the stop;
    * `stop_kept_iff`: a stop request is never lost in exactly the runs in
      which no read function's nonzero value is stored over it. -/

namespace Mcoap

open ByteMem ByteProg StableSort DList Runs

/-! ## Section 1: The loop -/

/-- Where the loop is. -/
inductive LoopPoint where
  /-- `while (endpt->running)` comes next -/
  | test
  /-- an iteration has started, and reads a message -/
  | recv
  /-- the read function is running -/
  | read (msg : McMessage)
  /-- it has returned, and its value will be stored in `endpt->running` -/
  | store (value : Int)
  /-- the confirm queue is checked -/
  | check
  | done

structure ReadLoop where
  running : Int
  point   : LoopPoint
  endpt   : Endpoint

/-- The loop as `mc_endpt_udp_loop` and `mc_endpt_udp_start` start it. -/
def mcEndptUdpLoop (endpt : Endpoint) : ReadLoop := ⟨1, .test, endpt⟩

inductive LoopOp where
  /-- the program sets `endpt->running` to 0, as `mc_endpt_udp_stop` does -/
  | stop
  /-- the loop finds the flag set, and starts an iteration -/
  | enter
  /-- it does not, and ends -/
  | leave
  | recv (arrival : Arrival)
  /-- the read function returns; meanwhile it may have used the endpoint -/
  | readfn (value : Int) (ops : List EndpointOp)
  /-- its value is stored -/
  | store
  | check

/-- What comes after `mc_endpt_udp_recv`. -/
def afterRecv : Option McMessage → LoopPoint
  | some msg => .read msg
  | none => .check

def loopStep (qsort : Qsort McOption) (s : ReadLoop) (op : LoopOp) (s' : ReadLoop) : Prop :=
  match op with
  | .stop => s' = { s with running := 0 }
  | .enter => s.point = .test ∧ s.running ≠ 0 ∧ s' = { s with point := .recv }
  | .leave => s.point = .test ∧ s.running = 0 ∧ s' = { s with point := .done }
  | .recv arrival => s.point = .recv ∧
      ∃ msg endpt', mcEndptUdpRecv qsort arrival s.endpt = .ok (msg, endpt') ∧
        s' = { s with point := afterRecv msg, endpt := endpt' }
  | .readfn value ops => ∃ msg, s.point = .read msg ∧
      ∃ endpt', Run (endptStep qsort) s.endpt ops endpt' ∧
        s' = { s with point := .store value, endpt := endpt' }
  | .store => ∃ value, s.point = .store value ∧ s' = { s with running := value, point := .check }
  | .check => s.point = .check ∧
      ∃ endpt', mcEndptUdpCheckQueues s.endpt = .ok endpt' ∧
        s' = { s with point := .test, endpt := endpt' }

/-! ## Section 2: Stop requests -/

/-- Once the program has set the flag to 0 it stays 0, and no iteration
    starts any more. -/
def StopsKept (qsort : Qsort McOption) (start : ReadLoop) (ops : List LoopOp) : Prop :=
  ∀ before after later stopped s, ops = before ++ .stop :: (after ++ later) →
    Run (loopStep qsort) start (before ++ [.stop]) stopped →
    Run (loopStep qsort) stopped after s → s.running = 0 ∧ LoopOp.enter ∉ after

/-- Whenever a value of the read function is stored, it is 0, or the flag
    is still set. -/
def StoresOverSet (qsort : Qsort McOption) (start : ReadLoop) (ops : List LoopOp) : Prop :=
  ∀ before after s value, ops = before ++ .store :: after →
    Run (loopStep qsort) start before s → s.point = .store value →
    value = 0 ∨ s.running ≠ 0

section

variable {qsort : Qsort McOption} {endpt : Endpoint} {start s s' : ReadLoop} {ops : List LoopOp}

/-- Only a stop and a store write the flag. -/
theorem running_kept {op : LoopOp} (h : loopStep qsort s op s') (hstop : op ≠ .stop)
    (hstore : op ≠ .store) : s'.running = s.running := by
  cases op with
  | stop => exact absurd rfl hstop
  | enter =>
    obtain ⟨_, _, rfl⟩ := h
    rfl
  | leave =>
    obtain ⟨_, _, rfl⟩ := h
    rfl
  | recv arrival =>
    obtain ⟨_, _, _, _, rfl⟩ := h
    rfl
  | readfn value ops =>
    obtain ⟨_, _, _, _, rfl⟩ := h
    rfl
  | store => exact absurd rfl hstore
  | check =>
    obtain ⟨_, _, _, rfl⟩ := h
    rfl

/-- Run: a flag that is 0 stays 0 as long as nothing else is stored. -/
theorem stays_zero (h : StoresOverSet qsort start ops) {before after later : List LoopOp}
    {stopped : ReadLoop} (hops : ops = before ++ .stop :: (after ++ later))
    (hbefore : Run (loopStep qsort) start (before ++ [.stop]) stopped)
    (hafter : Run (loopStep qsort) stopped after s) :
    s.running = 0 ∧ LoopOp.enter ∉ after := by
  induction hafter generalizing later with
  | nil =>
    -- the stop itself
    obtain ⟨_, _, hstop⟩ := hbefore.last
    exact ⟨congrArg ReadLoop.running hstop, List.not_mem_nil⟩
  | @snoc cs t t' op hrun hstep ih =>
    have hops' : ops = before ++ .stop :: (cs ++ (op :: later)) := by
      rw [hops, List.append_assoc]
      rfl
    obtain ⟨hzero, hno⟩ := ih hops'
    by_cases hstop : op = .stop
    · subst hstop
      refine ⟨congrArg ReadLoop.running hstep, ?_⟩
      simp [hno]
    · by_cases hstore : op = .store
      -- a store puts a 0 over the 0
      · subst hstore
        obtain ⟨value, hpoint, rfl⟩ := hstep
        have hover := h ((before ++ [.stop]) ++ cs) later t value
          (by rw [hops']; simp) (hbefore.append hrun) hpoint
        refine ⟨hover.resolve_right (not_not.mpr hzero), ?_⟩
        simp [hno]
      · have henter : op ≠ .enter := by
          rintro rfl
          obtain ⟨_, hset, _⟩ := hstep
          exact hset hzero
        refine ⟨(running_kept hstep hstop hstore).trans hzero, ?_⟩
        simp [hno, henter.symm]

/-- The loop is between its test of the flag and the end of the store. -/
def Iterating : LoopPoint → Prop
  | .recv => True
  | .read _ => True
  | .store _ => True
  | _ => False

/-- Run: an iteration that finds the flag at 0 has been stopped. -/
theorem stopped_of_zero (h : Run (loopStep qsort) (mcEndptUdpLoop endpt) ops s) :
    LoopOp.stop ∈ ops ∨ (Iterating s.point → s.running ≠ 0) := by
  refine h.history (P := fun cs t => LoopOp.stop ∈ cs ∨ (Iterating t.point → t.running ≠ 0))
    (Or.inr fun hpoint => absurd hpoint id) ?_
  intro cs t op t' ih hstep
  rcases ih with hmem | ih
  · exact Or.inl (List.mem_append_left _ hmem)
  cases op with
  | stop => exact Or.inl (by simp)
  | enter =>
    obtain ⟨_, hset, rfl⟩ := hstep
    exact Or.inr fun _ => hset
  | leave =>
    obtain ⟨_, _, rfl⟩ := hstep
    exact Or.inr fun hpoint => absurd hpoint id
  | recv arrival =>
    obtain ⟨hpoint, msg, _, _, rfl⟩ := hstep
    rw [hpoint] at ih
    exact Or.inr fun _ => ih trivial
  | readfn value ops =>
    obtain ⟨msg, hpoint, _, _, rfl⟩ := hstep
    rw [hpoint] at ih
    exact Or.inr fun _ => ih trivial
  | store =>
    obtain ⟨value, _, rfl⟩ := hstep
    exact Or.inr fun hpoint => absurd hpoint id
  | check =>
    obtain ⟨_, _, _, rfl⟩ := hstep
    exact Or.inr fun hpoint => absurd hpoint id

end

/-- In every run of the loop: no stop request is lost, if and only if no
    value but 0 is stored after one. -/
theorem stop_kept_iff (qsort : Qsort McOption) (endpt : Endpoint) (ops : List LoopOp) :
    StopsKept qsort (mcEndptUdpLoop endpt) ops ↔
      StoresOverSet qsort (mcEndptUdpLoop endpt) ops := by
  constructor
  · intro hkept before after s value hops hrun hpoint
    by_contra hover
    obtain ⟨hvalue, hzero⟩ := not_or.mp hover
    -- the flag is 0 inside an iteration, so a stop came before
    have hmem : LoopOp.stop ∈ before := by
      rcases stopped_of_zero hrun with hmem | hset
      · exact hmem
      · rw [hpoint] at hset
        exact absurd (hset trivial) hzero
    obtain ⟨cs, ds, rfl⟩ := List.append_of_mem hmem
    rw [List.append_cons] at hrun
    obtain ⟨stopped, hbefore, hmiddle⟩ := hrun.split
    have hstore : loopStep qsort s .store { s with running := value, point := .check } :=
      ⟨value, hpoint, rfl⟩
    have hlost := hkept cs (ds ++ [.store]) after stopped _ (by rw [hops]; simp) hbefore
      (hmiddle.snoc hstore)
    exact hvalue hlost.1
  · intro hover before after later stopped s hops hbefore hafter
    exact stays_zero hover hops hbefore hafter

/-! ## Section 3: A request that is lost -/

/-- A message that is neither an ack nor confirmable. -/
def notice : Arrival := .datagram [0x50, 0, 0, 7] peer

theorem recv_notice : ∃ msg endpt endpt',
    mcEndptUdpRecv (insertion McOption) notice (mcEndptUdpInit 64 64 stillHost) =
      .ok (some msg, endpt) ∧ mcEndptUdpCheckQueues endpt = .ok endpt' :=
  ⟨_, _, _, rfl, rfl⟩

/-- The program stops the loop while it waits for a message; the message
    comes, the read function returns 1, and another iteration starts. -/
theorem stop_lost : ¬ ∀ (qsort : Qsort McOption) (endpt : Endpoint) (ops : List LoopOp)
    (s : ReadLoop), Run (loopStep qsort) (mcEndptUdpLoop endpt) ops s →
    StopsKept qsort (mcEndptUdpLoop endpt) ops := by
  intro hall
  obtain ⟨msg, endpt, endpt', hrecv, hcheck⟩ := recv_notice
  generalize mcEndptUdpInit 64 64 stillHost = start at hrecv
  have hentered : Run (loopStep (insertion McOption)) (mcEndptUdpLoop start) [.enter]
      ⟨1, .recv, start⟩ := Run.single ⟨rfl, Int.one_ne_zero, rfl⟩
  have hstopped : Run (loopStep (insertion McOption)) (mcEndptUdpLoop start) [.enter, .stop]
      ⟨0, .recv, start⟩ := hentered.snoc rfl
  have hread : Run (loopStep (insertion McOption)) ⟨0, .recv, start⟩ [.recv notice]
      ⟨0, .read msg, endpt⟩ := Run.single ⟨rfl, _, _, hrecv, rfl⟩
  have hreturned : Run (loopStep (insertion McOption)) ⟨0, .recv, start⟩
      [.recv notice, .readfn 1 []] ⟨0, .store 1, endpt⟩ :=
    hread.snoc ⟨msg, rfl, endpt, Run.nil, rfl⟩
  have hstored : Run (loopStep (insertion McOption)) ⟨0, .recv, start⟩
      [.recv notice, .readfn 1 [], .store] ⟨1, .check, endpt⟩ := hreturned.snoc ⟨1, rfl, rfl⟩
  have hchecked : Run (loopStep (insertion McOption)) ⟨0, .recv, start⟩
      [.recv notice, .readfn 1 [], .store, .check] ⟨1, .test, endpt'⟩ :=
    hstored.snoc ⟨rfl, endpt', hcheck, rfl⟩
  have hagain : Run (loopStep (insertion McOption)) ⟨0, .recv, start⟩
      [.recv notice, .readfn 1 [], .store, .check, .enter] ⟨1, .recv, endpt'⟩ :=
    hchecked.snoc ⟨rfl, Int.one_ne_zero, rfl⟩
  obtain ⟨_, hno⟩ := hall _ start _ _ (hstopped.append hagain) [.enter]
    [.recv notice, .readfn 1 [], .store, .check, .enter] [] _ _ rfl hstopped hagain
  exact hno (by simp)

end Mcoap
