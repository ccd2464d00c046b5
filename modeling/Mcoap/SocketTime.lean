import Mathlib.Tactic.Ring
import Mathlib.Tactic.NormNum
import Mcoap.SocketTalk

/-! # How long a socket waits

    * `deadline`: when the time of an operation is up;
    * `Timely`: a `select` that gives up at the deadline, or never if there
      is none; `InRange`: the times for which the casts and the rounding are
      harmless;
    * `waits_by_deadline`: every wait of every operation is timely, and if
      the kernel is never late by more than `late`, the last one is over at
      the deadline, a microsecond, and `late` and a microsecond for each wait
      before it. -/

namespace Mcoap

namespace Unix

/-! ## Section 1: The deadline -/

/-- When the time is up. -/
def deadline (tout : MnTimeout) : Option ℚ :=
  if tout.block < 0 ∧ tout.total < 0 then none
  else if 0 ≤ tout.block ∧ tout.total < 0 then some (tout.start + tout.block)
  else some (tout.start + tout.total)

def Timeval.seconds (tv : Timeval) : ℚ := tv.tvSec + tv.tvUsec / 1000000

def microsecond : ℚ := 1 / 1000000

/-- The times that a program has: the clock is below 2^32 s, which it comes
    to in 2106, an `int` has room for the time that is left, and a maximum
    for a single call that comes beside a limit is a double. -/
structure InRange (tout : MnTimeout) (now : ℚ) : Prop where
  start : 0 ≤ tout.start ∧ tout.start < 2 ^ 32
  clock : 0 ≤ now ∧ now < 2 ^ 32
  left  : ∀ limit, deadline tout = some limit → limit - now ≤ 2147483647
  block : 0 ≤ tout.total → Binary64.IsDouble tout.block

/-- A `select` at the time `now` that is over at the deadline, by the
    rounding a microsecond later.  It is cut short by less than two, unless
    a maximum for a single call comes first. -/
structure Timely (tout : MnTimeout) (now : ℚ) (timeout : Option Timeval) : Prop where
  unlimited : timeout = none ↔ deadline tout = none
  valid     : ∀ tv, timeout = some tv → InRange tout now →
    0 ≤ tv.tvSec ∧ 0 ≤ tv.tvUsec ∧ tv.tvUsec < 1000000
  within    : ∀ tv limit, timeout = some tv → deadline tout = some limit → InRange tout now →
    now + tv.seconds ≤ max now limit + microsecond
  full      : ∀ tv limit, timeout = some tv → deadline tout = some limit → InRange tout now →
    (tout.block < 0 ∨ tout.total < 0 ∨ limit ≤ now + tout.block) →
    limit < now + tv.seconds + 2 * microsecond

variable {tout : MnTimeout} {now limit tleft : ℚ} {tv : Timeval}

theorem toInt_floor {x : ℚ} (h : 0 ≤ x) (hlt : x < 2147483648) : toInt x = ⌊x⌋ := by
  have hlow := Int.floor_nonneg.mpr h
  have hhigh : ⌊x⌋ < 2147483648 := Int.floor_lt.mpr (by exact_mod_cast hlt)
  unfold toInt
  simp only [if_pos h]
  rw [if_pos ⟨by omega, by omega⟩]

/-- The argument of `select` is the time that is left, rounded down to
    microseconds. -/
theorem timeval_seconds (hdouble : Binary64.IsDouble tleft) (hleft : 0 ≤ tleft)
    (hmax : tleft < 2147483648) :
    ∃ tv, timeval tleft = some tv ∧ 0 ≤ tv.tvSec ∧ 0 ≤ tv.tvUsec ∧ tv.tvUsec < 1000000 ∧
      tv.seconds ≤ tleft + 1 / 8 * microsecond ∧ tleft < tv.seconds + 9 / 8 * microsecond := by
  have hfract := hdouble.fract hleft
  have hpos : 0 ≤ tleft - ⌊tleft⌋ := sub_nonneg.mpr (Int.floor_le tleft)
  have hlt : tleft - ⌊tleft⌋ < 1 := by
    have hceil := Int.lt_floor_add_one tleft
    linarith
  have hlast := hfract.le_of_lt_one hlt
  -- the product is rounded, and stays below a million
  have hulp := Binary64.ulp_le (k := 19) (x := (tleft - ⌊tleft⌋) * 1000000) (by norm_num) (by
    have hpow : (2 : ℚ) ^ (19 + 1 : ℤ) = 1048576 := by norm_num
    rw [abs_of_nonneg (by linarith), hpow]
    linarith)
  have hnear := Binary64.abs_round_sub_le ((tleft - ⌊tleft⌋) * 1000000)
  have hnonneg := Binary64.round_nonneg (x := (tleft - ⌊tleft⌋) * 1000000) (by linarith)
  generalize Binary64.ulp ((tleft - ⌊tleft⌋) * 1000000) = last at hulp hnear
  have htv : timeval tleft = some ⟨⌊tleft⌋,
      toInt (Binary64.round ((tleft - ⌊tleft⌋) * 1000000))⟩ := by
    unfold timeval
    simp only [if_pos hleft, toInt_floor hleft hmax, hfract.round_eq]
  generalize Binary64.round ((tleft - ⌊tleft⌋) * 1000000) = usec at hnear hnonneg htv
  generalize hrest : tleft - (⌊tleft⌋ : ℚ) = rest at hnear hlast hpos hlt
  rw [abs_le] at hnear
  norm_num at hulp hlast
  have husec : usec < 1000000 := by linarith
  have hfloor := Int.floor_le usec
  have hceil := Int.lt_floor_add_one usec
  rw [toInt_floor hnonneg (by linarith)] at htv
  refine ⟨_, htv, Int.floor_nonneg.mpr hleft, Int.floor_nonneg.mpr hnonneg, ?_, ?_, ?_⟩
  · exact Int.floor_lt.mpr (by exact_mod_cast husec)
  · simp only [Timeval.seconds, microsecond]
    linarith
  · simp only [Timeval.seconds, microsecond]
    linarith

/-- What is computed to be left is what is left, up to the rounding. -/
theorem remaining_near {start : ℚ} (hlimit : start ≤ limit) (hstart : 0 ≤ start ∧ start < 2 ^ 32)
    (hnow : 0 ≤ now ∧ now < 2 ^ 32) (hleft : limit - now ≤ 2147483647) :
    |remaining (limit - start) now start - (limit - now)| ≤ 3 / 4 * microsecond := by
  obtain ⟨hstart0, hstart1⟩ := hstart
  obtain ⟨hnow0, hnow1⟩ := hnow
  norm_num at hstart1 hnow1
  unfold remaining
  -- the difference
  have hulp := Binary64.ulp_le (k := 31) (x := limit - start - now) (by norm_num) (by
    rw [abs_lt]
    norm_num
    exact ⟨by linarith, by linarith⟩)
  have hnear := Binary64.abs_round_sub_le (limit - start - now)
  generalize Binary64.ulp (limit - start - now) = last at hulp hnear
  generalize Binary64.round (limit - start - now) = diff at hnear ⊢
  rw [abs_le] at hnear
  norm_num at hulp
  -- the sum
  have hulp' := Binary64.ulp_le (k := 32) (x := diff + start) (by norm_num) (by
    rw [abs_lt]
    norm_num
    exact ⟨by linarith, by linarith⟩)
  have hnear' := Binary64.abs_round_sub_le (diff + start)
  generalize Binary64.ulp (diff + start) = last' at hulp' hnear'
  generalize Binary64.round (diff + start) = sum at hnear' ⊢
  rw [abs_le] at hnear' ⊢
  norm_num at hulp'
  unfold microsecond
  constructor
  · linarith
  · linarith

theorem retryLeft_unlimited (h : deadline tout = none) : retryLeft tout now = -1 := by
  unfold deadline at h
  split at h
  · next hboth => exact if_pos hboth
  · split at h
    · cases h
    · cases h

theorem deadline_start_le (h : deadline tout = some limit) : tout.start ≤ limit := by
  unfold deadline at h
  split at h
  · cases h
  next hboth =>
  split at h
  · next hblock =>
    cases h
    linarith [hblock.1]
  · next hblock =>
    cases h
    have htotal : 0 ≤ tout.total := by
      by_contra htotal
      rw [not_le] at htotal
      by_cases hneg : tout.block < 0
      · exact hboth ⟨hneg, htotal⟩
      · exact hblock ⟨not_lt.mp hneg, htotal⟩
    linarith

/-- What is left is what is missing to the deadline, or 0, or the maximum
    for a single call. -/
theorem retryLeft_limited (now : ℚ) (h : deadline tout = some limit) :
    retryLeft tout now = max (remaining (limit - tout.start) now tout.start) 0 ∨
      (0 ≤ tout.block ∧ 0 ≤ tout.total ∧ retryLeft tout now = tout.block ∧
        tout.block < max (remaining (limit - tout.start) now tout.start) 0) := by
  have hmax : ∀ t : ℚ, (if t > 0 then t else 0) = max t 0 := by
    intro t
    split
    · next hpos => exact (max_eq_left hpos.le).symm
    · next hneg => exact (max_eq_right (not_lt.mp hneg)).symm
  unfold deadline at h
  unfold retryLeft
  simp only [hmax]
  split at h
  · cases h
  next hboth =>
  rw [if_neg hboth]
  split at h
  · next hblock =>
    cases h
    rw [if_neg (not_lt.mpr hblock.1), if_pos hblock.2, add_sub_cancel_left]
    exact .inl rfl
  · next hblock =>
    cases h
    rw [add_sub_cancel_left]
    by_cases hneg : tout.block < 0
    · rw [if_pos hneg]
      exact .inl rfl
    · have htotal : ¬ tout.total < 0 := fun htotal => hblock ⟨not_lt.mp hneg, htotal⟩
      rw [if_neg hneg, if_neg htotal]
      split
      · next hlt => exact .inr ⟨not_lt.mp hneg, not_lt.mp htotal, rfl, hlt⟩
      · exact .inl rfl

/-- The time that is left lies between 0 and the deadline, and is a double
    an `int` has room for. -/
theorem retryLeft_bounds (hrange : InRange tout now) (h : deadline tout = some limit) :
    Binary64.IsDouble (retryLeft tout now) ∧ retryLeft tout now < 2147483648 ∧
      retryLeft tout now ≤ max (limit - now) 0 + 3 / 4 * microsecond ∧
      ((tout.block < 0 ∨ tout.total < 0 ∨ limit ≤ now + tout.block) →
        limit - now ≤ retryLeft tout now + 3 / 4 * microsecond) := by
  have hleft := hrange.left limit h
  have hnear := remaining_near (deadline_start_le h) hrange.start hrange.clock hleft
  have hdouble : Binary64.IsDouble (remaining (limit - tout.start) now tout.start) :=
    Binary64.isDouble_round _
  have hlimited := retryLeft_limited now h
  generalize remaining (limit - tout.start) now tout.start = left at hnear hdouble hlimited
  rw [abs_le] at hnear
  unfold microsecond at hnear ⊢
  have hmax : max left 0 ≤ max (limit - now) 0 + 3 / 4 * (1 / 1000000) := by
    apply max_le
    · linarith [le_max_left (limit - now) 0]
    · linarith [le_max_right (limit - now) 0]
  have hint : max (limit - now) 0 ≤ 2147483647 := max_le hleft (by norm_num)
  rcases hlimited with heq | ⟨hblock, htotal, heq, hlt⟩
  · rw [heq]
    refine ⟨?_, by linarith, hmax, fun _ => by linarith [le_max_left left 0]⟩
    rcases max_choice left 0 with hchoice | hchoice
    · rw [hchoice]
      exact hdouble
    · rw [hchoice]
      exact Binary64.isDouble_zero
  · rw [heq]
    refine ⟨hrange.block htotal, by linarith, by linarith, fun hcases => ?_⟩
    rcases hcases with hneg | hneg | hfits
    · linarith
    · linarith
    · linarith

theorem retryLeft_nonneg (now : ℚ) (h : deadline tout = some limit) : 0 ≤ retryLeft tout now := by
  rcases retryLeft_limited now h with heq | ⟨hblock, _, heq, _⟩
  · rw [heq]
    exact le_max_right _ _
  · rw [heq]
    exact hblock

theorem retryLeft_timely (tout : MnTimeout) (now : ℚ) :
    Timely tout now (timeval (retryLeft tout now)) := by
  cases hdeadline : deadline tout with
  | none =>
    have hnone : timeval (retryLeft tout now) = none := by
      rw [retryLeft_unlimited hdeadline]
      rfl
    rw [hnone]
    refine ⟨⟨fun _ => hdeadline, fun _ => rfl⟩, ?_, ?_, ?_⟩
    · intro tv htv
      cases htv
    · intro tv limit htv
      cases htv
    · intro tv limit htv
      cases htv
  | some limit =>
    have hnonneg := retryLeft_nonneg now hdeadline
    have hsome : ∃ tv, timeval (retryLeft tout now) = some tv := ⟨_, if_pos hnonneg⟩
    have hseconds : InRange tout now → ∃ tv, timeval (retryLeft tout now) = some tv ∧
        0 ≤ tv.tvSec ∧ 0 ≤ tv.tvUsec ∧ tv.tvUsec < 1000000 ∧
        tv.seconds ≤ retryLeft tout now + 1 / 8 * microsecond ∧
        retryLeft tout now < tv.seconds + 9 / 8 * microsecond := fun hrange =>
      timeval_seconds (retryLeft_bounds hrange hdeadline).1 hnonneg
        (retryLeft_bounds hrange hdeadline).2.1
    have hmax : now + max (limit - now) 0 = max now limit := by
      rw [← max_add_add_left, add_sub_cancel, add_zero, max_comm]
    refine ⟨⟨fun hnone => ?_, fun hnone => ?_⟩, ?_, ?_, ?_⟩
    · obtain ⟨tv, htv⟩ := hsome
      rw [htv] at hnone
      cases hnone
    · rw [hdeadline] at hnone
      cases hnone
    · intro tv htv hrange
      obtain ⟨tv', htv', hsec, husec, hlt, _⟩ := hseconds hrange
      cases htv.symm.trans htv'
      exact ⟨hsec, husec, hlt⟩
    · intro tv limit' htv hlimit' hrange
      obtain ⟨tv', htv', _, _, _, hle, _⟩ := hseconds hrange
      cases htv.symm.trans htv'
      cases hdeadline.symm.trans hlimit'
      obtain ⟨_, _, hwithin, _⟩ := retryLeft_bounds hrange hdeadline
      unfold microsecond at *
      linarith
    · intro tv limit' htv hlimit' hrange hcases
      obtain ⟨tv', htv', _, _, _, _, hgt⟩ := hseconds hrange
      cases htv.symm.trans htv'
      cases hdeadline.symm.trans hlimit'
      obtain ⟨_, _, _, hfull⟩ := retryLeft_bounds hrange hdeadline
      have hfull := hfull hcases
      unfold microsecond at *
      linarith

/-! ## Section 2: The waits of a conversation -/

/-- The `select`s: when, and for how long. -/
def waits (talk : Talk) : List (ℚ × Option Timeval) :=
  talk.filterMap fun entry => match entry.1 with
    | .select _ now timeout => some (now, timeout)
    | _ => none

/-- When a wait is over that has a limit. -/
def waitEnd (wait : ℚ × Option Timeval) : ℚ := wait.1 + (wait.2.map Timeval.seconds).getD 0

/-- From the end of a wait to the next one no more than `late` goes by. -/
def OnTime (late : ℚ) (ws : List (ℚ × Option Timeval)) : Prop :=
  ws.IsChain fun wait wait' => wait'.1 ≤ waitEnd wait + late

theorem waits_append (talk talk' : Talk) : waits (talk ++ talk') = waits talk ++ waits talk' :=
  List.filterMap_append

variable {sw : WaitFor} {talk : Talk} {att : Attempts} {answer : Option Reply}
  {result : Option (Int × Option Reply)} {wait : ℚ × Option Timeval}
  {ws : List (ℚ × Option Timeval)} {late : ℚ}

theorem waits_other {call : SysCall} (hcall : ∀ sw now timeout, call ≠ .select sw now timeout)
    (reply : Reply) (talk : Talk) : waits ((call, reply) :: talk) = waits talk := by
  apply List.filterMap_cons_none
  cases call with
  | select sw now timeout => exact absurd rfl (hcall sw now timeout)
  | _ => rfl

theorem waits_attempt (hsound : att.Sound) (reply : Reply) : waits [(att.call, reply)] = [] :=
  waits_other hsound.call reply []

theorem Waited.timely (h : Waited sw tout talk answer) :
    ∀ wait ∈ waits talk, Timely tout wait.1 wait.2 := by
  induction h with
  | fuelUp => simp [waits]
  | interrupted _ _ ih =>
    intro wait hwait
    rcases List.mem_cons.mp hwait with heq | hwait
    · rw [heq]
      exact retryLeft_timely tout _
    · exact ih wait hwait
  | answered _ =>
    intro wait hwait
    rw [List.mem_singleton.mp hwait]
    exact retryLeft_timely tout _

theorem Attempted.timely (hsound : att.Sound) (h : Attempted att tout talk result) :
    ∀ wait ∈ waits talk, Timely tout wait.1 wait.2 := by
  induction h with
  | fuelUp => simp [waits]
  | done _ => simp [waits_attempt hsound]
  | closed _ _ => simp [waits_attempt hsound]
  | failed _ _ _ _ => simp [waits_attempt hsound]
  | expired _ => simp [waits_attempt hsound]
  | signalled _ _ ih =>
    rw [waits_other hsound.call]
    exact ih
  | waiting _ hwait =>
    rw [waits_other hsound.call]
    exact hwait.timely
  | unready _ hwait _ =>
    rw [waits_other hsound.call]
    exact hwait.timely
  | ready _ hwait _ _ ih =>
    rw [waits_other hsound.call, waits_append]
    intro wait hmem
    rcases List.mem_append.mp hmem with hmem | hmem
    · exact hwait.timely wait hmem
    · exact ih wait hmem

/-- Lateness adds up, the waits themselves do not: each is cut to end at
    the deadline. -/
theorem OnTime.waitEnd_le (hlimit : deadline tout = some limit) (hlate : 0 ≤ late)
    (htimely : ∀ wait ∈ ws, Timely tout wait.1 wait.2) (hrange : ∀ wait ∈ ws, InRange tout wait.1)
    (hontime : OnTime late ws) {first : ℚ}
    (hfirst : ∀ wait, ws.head? = some wait → wait.1 ≤ first) (i : Nat) (hwait : ws[i]? = some wait) :
    waitEnd wait ≤ max first limit + microsecond + i * (late + microsecond) := by
  have hmicro : 0 < microsecond := by
    unfold microsecond
    norm_num
  have hends : ∀ wait ∈ ws, waitEnd wait ≤ max wait.1 limit + microsecond := by
    intro wait hmem
    have ht := htimely wait hmem
    have hr := hrange wait hmem
    obtain ⟨now, timeout⟩ := wait
    cases timeout with
    | none =>
      have hnone := ht.unlimited.mp rfl
      rw [hlimit] at hnone
      cases hnone
    | some tv => exact ht.within tv limit rfl hlimit hr
  induction ws generalizing first i with
  | nil => cases hwait
  | cons w ws ih =>
    have hend := hends w List.mem_cons_self
    have hle := max_le_max_right limit (hfirst w rfl)
    cases i with
    | zero =>
      cases hwait
      simp only [Nat.cast_zero, zero_mul, add_zero]
      linarith
    | succ i =>
      cases ws with
      | nil => cases hwait
      | cons w' ws =>
        obtain ⟨hnext, htail⟩ := List.isChain_cons_cons.mp hontime
        have hfirst' : ∀ v, (w' :: ws).head? = some v →
            v.1 ≤ max first limit + microsecond + late := by
          intro v hv
          cases hv
          linarith
        have hrest := ih (fun v hv => htimely v (List.mem_cons_of_mem _ hv))
          (fun v hv => hrange v (List.mem_cons_of_mem _ hv)) htail hfirst' i hwait
          (fun v hv => hends v (List.mem_cons_of_mem _ hv))
        have hmax : max (max first limit + microsecond + late) limit =
            max first limit + microsecond + late := by
          apply max_eq_left
          have hright := le_max_right first limit
          linarith
        rw [hmax] at hrest
        push_cast
        linarith

/-! ## Section 3: Every operation -/

/-- The operations that may have to wait. -/
inductive Operation where
  | transfer (loop : Transfer)
  | connect
  deriving DecidableEq, Repr

/-- The kernel after an operation. -/
def Operation.kernel (op : Operation) (sock : Int) (tout : MnTimeout) (fuel : Nat)
    (kernel : Kernel) : Kernel :=
  match op with
  | .transfer loop => (attemptOn sock loop.attempts tout fuel kernel).2
  | .connect => (mnSocketConnect sock tout fuel kernel).2

theorem connectLoop_talk (fuel : Nat) (kernel : Kernel) :
    ∃ talk, Said kernel talk (connectLoop fuel kernel).2 ∧ waits talk = [] := by
  induction fuel generalizing kernel with
  | zero => exact ⟨[], Said.refl kernel, rfl⟩
  | succ fuel ih =>
    have hask := Said.ask kernel kernel.host .connect
    simp only [connectLoop]
    split
    · obtain ⟨talk, hsaid, hwaits⟩ := ih (kernel.ask .connect).2
      refine ⟨_, hask.trans hsaid, ?_⟩
      rw [waits_append, hwaits]
      rfl
    · exact ⟨_, hask, rfl⟩

theorem mnSocketConnect_talk (sock : Int) (tout : MnTimeout) (fuel : Nat) (kernel : Kernel) :
    ∃ talk, Said kernel talk (mnSocketConnect sock tout fuel kernel).2 ∧
      ∀ wait ∈ waits talk, Timely tout wait.1 wait.2 := by
  unfold mnSocketConnect
  split
  · exact ⟨[], Said.refl kernel, by simp [waits]⟩
  obtain ⟨talk, hsaid, hnone⟩ := connectLoop_talk fuel kernel
  have hnone : ∀ wait ∈ waits talk, Timely tout wait.1 wait.2 := by simp [hnone]
  cases hloop : connectLoop fuel kernel with
  | mk reply kernel1 =>
  rw [hloop] at hsaid
  cases reply with
  | none => exact ⟨talk, hsaid, hnone⟩
  | some reply =>
    simp only
    split
    · exact ⟨talk, hsaid, hnone⟩
    split
    · exact ⟨talk, hsaid, hnone⟩
    split
    · exact ⟨talk, hsaid, hnone⟩
    have hwaitfd := mnSocketWaitfd_talk .connected tout fuel kernel1
    generalize mnSocketWaitfd .connected tout fuel kernel1 = waited at hwaitfd ⊢
    obtain ⟨err, kernel2⟩ := waited
    rcases hwaitfd with heq | ⟨ws, answer, hsaid', hwaited, _, _⟩
    · cases heq
      exact ⟨talk, hsaid, hnone⟩
    have hboth : ∀ wait ∈ waits (talk ++ ws), Timely tout wait.1 wait.2 := by
      intro wait hmem
      rw [waits_append] at hmem
      rcases List.mem_append.mp hmem with hmem | hmem
      · exact hnone wait hmem
      · exact hwaited.timely wait hmem
    cases err with
    | none => exact ⟨_, hsaid.trans hsaid', hboth⟩
    | some err =>
      simp only
      split
      · refine ⟨_, (hsaid.trans hsaid').trans (Said.ask kernel2 kernel2.host (.recv 0)), ?_⟩
        intro wait hmem
        rw [waits_append] at hmem
        rcases List.mem_append.mp hmem with hmem | hmem
        · exact hboth wait hmem
        · exact absurd hmem (by simp [waits])
      · exact ⟨_, hsaid.trans hsaid', hboth⟩

theorem operation_talk (op : Operation) (sock : Int) (tout : MnTimeout) (fuel : Nat)
    (kernel : Kernel) :
    ∃ talk, Said kernel talk (op.kernel sock tout fuel kernel) ∧
      ∀ wait ∈ waits talk, Timely tout wait.1 wait.2 := by
  cases op with
  | connect => exact mnSocketConnect_talk sock tout fuel kernel
  | transfer loop =>
    simp only [Operation.kernel, attemptOn]
    split
    · exact ⟨[], Said.refl kernel, by simp [waits]⟩
    · obtain ⟨talk, hsaid, hattempted, _⟩ := attemptLoop_talk loop.attempts tout fuel kernel
      exact ⟨talk, hsaid, hattempted.timely loop.sound⟩

/-- Every wait of every operation, whatever the kernel answers and even if
    the operation does not come to an end, is over at the deadline and a
    microsecond; the i-th one is late by the sum of what its i predecessors
    were late. -/
theorem waits_by_deadline (op : Operation) (sock : Int) (tout : MnTimeout) (fuel : Nat)
    (kernel : Kernel) :
    ∃ talk, (op.kernel sock tout fuel kernel).calls = kernel.calls ++ talk ∧
      (∀ wait ∈ waits talk, Timely tout wait.1 wait.2) ∧
      ∀ limit late, deadline tout = some limit → 0 ≤ late →
        (∀ wait ∈ waits talk, InRange tout wait.1) → OnTime late (waits talk) →
        ∀ (i : Nat) wait first, (waits talk)[0]? = some first → (waits talk)[i]? = some wait →
          waitEnd wait ≤ max first.1 limit + microsecond + i * (late + microsecond) := by
  obtain ⟨talk, hsaid, htimely⟩ := operation_talk op sock tout fuel kernel
  refine ⟨talk, hsaid.calls, htimely, ?_⟩
  intro limit late hlimit hlate hrange hontime i wait first hfirst hwait
  refine hontime.waitEnd_le hlimit hlate htimely hrange ?_ i hwait
  intro wait' hhead
  rw [List.head?_eq_getElem?, hfirst] at hhead
  cases hhead
  exact le_refl _

/-- A kernel that has nothing to read: its first answer says so, and the
    second one that the time is up. -/
def idleKernel : Kernel :=
  ⟨{ stillHost with clock := fun _ => 1700000000 },
    fun n _ => ⟨if n = 0 then -1 else 0, eagain, false, [], ⟨0, 0, 0, 0⟩⟩, []⟩

/-- The witness: a receive with the timeout of an endpoint waits once, until
    its deadline but for a microsecond. -/
theorem waits_by_deadline_idle :
    ∃ talk wait, (Operation.kernel (.transfer (.recvfrom 1024)) 3
        ⟨defaultEndptTimeout, -1, 1700000000⟩ 5 idleKernel).calls = talk ∧ waits talk = [wait] ∧
      waitEnd wait ≤ 1700000000 + 1 / 20 + microsecond ∧
      1700000000 + 1 / 20 < waitEnd wait + 2 * microsecond := by
  obtain ⟨talk, hcalls, htimely, hends⟩ := waits_by_deadline (.transfer (.recvfrom 1024)) 3
    ⟨defaultEndptTimeout, -1, 1700000000⟩ 5 idleKernel
  have htalk : ∃ timeout, waits talk = [(1700000000, timeout)] := by
    have hsaid : talk = [(.recvfrom 1024, idleKernel.replies 0 (.recvfrom 1024)),
        (.select .readable 1700000000 (timeval (retryLeft
          ⟨defaultEndptTimeout, -1, 1700000000⟩ 1700000000)), ⟨0, eagain, false, [], ⟨0, 0, 0, 0⟩⟩)] := by
      refine hcalls.symm.trans ?_
      norm_num [Operation.kernel, attemptOn, Transfer.attempts, recvfromAttempts, attemptLoop,
        mnSocketWaitfd, mnTimeoutIszero, selectLoop, mnTimeoutGetretry, mnGettime, Kernel.ask,
        Reply.interrupted, waitVerdict, idleKernel, defaultEndptTimeout, mnSocketInvalid,
        eagain, eintr, mnTimeout, mnDone]
    rw [hsaid]
    exact ⟨_, rfl⟩
  obtain ⟨timeout, htalk⟩ := htalk
  have hlimit : deadline ⟨defaultEndptTimeout, -1, 1700000000⟩ =
      some (1700000000 + 1 / 20) := by
    unfold deadline defaultEndptTimeout
    norm_num
  have hrange : InRange ⟨defaultEndptTimeout, -1, 1700000000⟩ 1700000000 := by
    refine ⟨by norm_num, by norm_num, ?_, by norm_num⟩
    intro limit h
    cases hlimit.symm.trans h
    norm_num
  have hwait := htimely _ (htalk ▸ List.mem_singleton_self _)
  have hend := hends _ 0 hlimit (le_refl _) (by simpa [htalk] using hrange)
    (by rw [htalk]; exact List.IsChain.singleton _) 0 _ _ (by rw [htalk]; rfl) (by rw [htalk]; rfl)
  refine ⟨talk, _, hcalls.trans (List.nil_append talk), htalk, ?_, ?_⟩
  · norm_num at hend ⊢
    linarith
  · cases timeout with
    | none =>
      have hnone := hwait.unlimited.mp rfl
      rw [hlimit] at hnone
      cases hnone
    | some tv => exact hwait.full tv _ rfl hlimit hrange (Or.inr (Or.inl (by norm_num)))

end Unix

end Mcoap
