import Mathlib.Data.Rat.Floor
import Mathlib.Tactic.Linarith
import Mcoap.Endpoint
import Mcoap.Lib.Binary64

/-! # The socket

    `mnet/mn_socket_unix.c`: the loops around the system calls of a socket
    that does not block, and `mn_timeout_getretry`.

    What the kernel answers is given beforehand, for every number of calls
    that have been made and for every call; a statement about every
    `Kernel` covers every network and every sequence of signals.  The calls
    are kept with their answers.  A loop whose fuel is up gives no value.

    The time that is left is computed as the doubles of the source do it,
    with a rounding after each operation; clock readings and limits are
    doubles that are given. -/

namespace Mcoap

namespace Unix

def mnSocketInvalid : Int := -1

/-! ## Section 1: The kernel -/

/-- The `errno`s that the loops look for, as Linux numbers them. -/
def eintr        : Int := 4
def eagain       : Int := 11
def epipe        : Int := 32
def econnaborted : Int := 103
def einprogress  : Int := 115

/-- `WAITFD_R`, `WAITFD_W` and `WAITFD_C`. -/
inductive WaitFor where
  | readable
  | writable
  | connected
  deriving DecidableEq, Repr

/-- `struct timeval`. -/
structure Timeval where
  tvSec  : Int
  tvUsec : Int
  deriving DecidableEq, Repr

/-- A system call.  A `select` carries the last reading of the clock when
    it was made, which is not in the source. -/
inductive SysCall where
  | send (count : Nat)
  | sendto (count : Nat)
  | recv (count : Nat)
  | recvfrom (count : Nat)
  | accept
  | connect
  | select (sw : WaitFor) (now : ℚ) (timeout : Option Timeval)
  deriving DecidableEq, Repr

/-- What a call returns, `errno`, whether `select` has left the socket in
    the set of the readable ones, and what a receiving call has for the
    caller. -/
structure Reply where
  ret    : Int
  errno  : Int
  isset  : Bool
  bytes  : List UInt8
  source : SockAddr

structure Kernel where
  host    : Host
  replies : Nat → SysCall → Reply
  calls   : List (SysCall × Reply)

/-- Make a system call. -/
def Kernel.ask (kernel : Kernel) (call : SysCall) : Reply × Kernel :=
  let reply := kernel.replies kernel.calls.length call
  (reply, { kernel with calls := kernel.calls ++ [(call, reply)] })

/-! ## Section 2: Waiting -/

/-- `limit - now + start` in doubles. -/
def remaining (limit now start : ℚ) : ℚ := Binary64.round (Binary64.round (limit - now) + start)

/-- The time that is left after a call that failed, by a clock that shows
    `now`. -/
def retryLeft (tout : MnTimeout) (now : ℚ) : ℚ :=
  if tout.block < 0 ∧ tout.total < 0 then
    -1
  else if tout.block < 0 then
    let t := remaining tout.total now tout.start
    if t > 0 then t else 0
  else if tout.total < 0 then
    let t := remaining tout.block now tout.start
    if t > 0 then t else 0
  else
    let t := remaining tout.total now tout.start
    let left := if t > 0 then t else 0
    if tout.block < left then tout.block else left

/-- Without a limit the clock is not read. -/
def mnTimeoutGetretry (tout : MnTimeout) (host : Host) : ℚ × Host :=
  if tout.block < 0 ∧ tout.total < 0 then
    (retryLeft tout (host.clock host.ticks), host)
  else
    let (now, host) := mnGettime host
    (retryLeft tout now, host)

def mnTimeoutIszero (tout : MnTimeout) : Bool := tout.block = 0

/-- `(int)` of a double: what is behind the point is cut off.  What an `int`
    has no room for becomes the smallest one on x86-64; the standard leaves
    it open. -/
def toInt (x : ℚ) : Int :=
  let n := if 0 ≤ x then ⌊x⌋ else ⌈x⌉
  if -2147483648 ≤ n ∧ n ≤ 2147483647 then n else -2147483648

/-- The argument of `select`. -/
def timeval (tleft : ℚ) : Option Timeval :=
  if tleft ≥ 0 then
    let tvSec := toInt tleft
    some ⟨tvSec, toInt (Binary64.round (Binary64.round (tleft - tvSec) * 1000000))⟩
  else
    none

def Reply.interrupted (reply : Reply) : Bool := reply.ret = -1 ∧ reply.errno = eintr

/-- `do ... while (ret == -1 && errno == EINTR)`. -/
def selectLoop (sw : WaitFor) (tout : MnTimeout) : Nat → Kernel → Option Reply × Kernel
  | 0, kernel => (none, kernel)
  | fuel + 1, kernel =>
    let now := kernel.host.clock kernel.host.ticks
    let (tleft, host) := mnTimeoutGetretry tout kernel.host
    let (reply, kernel) := { kernel with host := host }.ask (.select sw now (timeval tleft))
    if reply.interrupted then selectLoop sw tout fuel kernel else (some reply, kernel)

/-- What `mn_socket_waitfd` makes of the answer. -/
def waitVerdict (sw : WaitFor) (reply : Reply) : Int :=
  if reply.ret = -1 then reply.errno
  else if reply.ret = 0 then mnTimeout
  else if sw = .connected ∧ reply.isset then mnClosed
  else mnDone

def mnSocketWaitfd (sw : WaitFor) (tout : MnTimeout) (fuel : Nat) (kernel : Kernel) :
    Option Int × Kernel :=
  -- optimize timeout == 0 case
  if mnTimeoutIszero tout then
    (some mnTimeout, kernel)
  else
    let (reply, kernel) := selectLoop sw tout fuel kernel
    (reply.map (waitVerdict sw), kernel)

/-! ## Section 3: The loops -/

/-- What sets the loops around `send`, `sendto`, `recv`, `recvfrom` and
    `accept` apart: the call, what is waited for, and the answers that end
    the loop with success, that mean a closed connection, and after which
    it waits. -/
structure Attempts where
  call   : SysCall
  sw     : WaitFor
  done   : Reply → Bool
  closed : Reply → Bool
  again  : Int → Bool

/-- `for ( ;; )`: the code that is returned, and the answer that brought
    success. -/
def attemptLoop (att : Attempts) (tout : MnTimeout) :
    Nat → Kernel → Option (Int × Option Reply) × Kernel
  | 0, kernel => (none, kernel)
  | fuel + 1, kernel =>
    let (reply, kernel) := kernel.ask att.call
    if att.done reply then (some (mnDone, some reply), kernel)
    else if att.closed reply then (some (mnClosed, none), kernel)
    else if reply.errno = eintr then attemptLoop att tout fuel kernel
    else if att.again reply.errno = false then (some (reply.errno, none), kernel)
    else
      match mnSocketWaitfd att.sw tout fuel kernel with
      | (none, kernel) => (none, kernel)
      | (some err, kernel) =>
        if err ≠ mnDone then (some (err, none), kernel) else attemptLoop att tout fuel kernel

/-- The test in front of the loops. -/
def attemptOn (sock : Int) (att : Attempts) (tout : MnTimeout) (fuel : Nat) (kernel : Kernel) :
    Option (Int × Option Reply) × Kernel :=
  -- avoid making system calls on closed sockets
  if sock = mnSocketInvalid then (some (mnClosed, none), kernel)
  else attemptLoop att tout fuel kernel

def sendAttempts (count : Nat) : Attempts where
  call   := .send count
  sw     := .writable
  done   := fun reply => reply.ret > 0
  -- send can't really return 0, but EPIPE means the connection was closed
  closed := fun reply => reply.ret = 0 ∨ reply.errno = epipe
  again  := fun err => err = eagain

def sendtoAttempts (count : Nat) : Attempts where
  call   := .sendto count
  sw     := .writable
  done   := fun reply => reply.ret > 0
  closed := fun reply => reply.ret = 0 ∨ reply.errno = epipe
  again  := fun err => err = eagain

def recvAttempts (count : Nat) : Attempts where
  call   := .recv count
  sw     := .readable
  done   := fun reply => reply.ret > 0
  closed := fun reply => reply.ret = 0
  again  := fun err => err = eagain

def recvfromAttempts (count : Nat) : Attempts where
  call   := .recvfrom count
  sw     := .readable
  done   := fun reply => reply.ret > 0
  closed := fun reply => reply.ret = 0
  again  := fun err => err = eagain

/-- Any answer but the invalid socket is a socket. -/
def acceptAttempts : Attempts where
  call   := .accept
  sw     := .readable
  done   := fun reply => reply.ret ≠ mnSocketInvalid
  closed := fun _ => false
  again  := fun err => err = eagain ∨ err = econnaborted

section

variable (sock : Int) (count : Nat) (tout : MnTimeout) (fuel : Nat) (kernel : Kernel)

/-- The code and `*sent`. -/
def sentCount (result : Int × Option Reply) : Int × Int :=
  (result.1, (result.2.map Reply.ret).getD 0)

def mnSocketSend : Option (Int × Int) × Kernel :=
  let (result, kernel) := attemptOn sock (sendAttempts count) tout fuel kernel
  (result.map sentCount, kernel)

def mnSocketSendto : Option (Int × Int) × Kernel :=
  let (result, kernel) := attemptOn sock (sendtoAttempts count) tout fuel kernel
  (result.map sentCount, kernel)

def mnSocketRecv : Option (Int × Option Reply) × Kernel :=
  attemptOn sock (recvAttempts count) tout fuel kernel

def mnSocketRecvfrom : Option (Int × Option Reply) × Kernel :=
  attemptOn sock (recvfromAttempts count) tout fuel kernel

/-- The answer that brought success carries the new socket. -/
def mnSocketAccept : Option (Int × Option Reply) × Kernel :=
  attemptOn sock acceptAttempts tout fuel kernel

end

/-- `do if (connect(...) == 0) return MN_DONE; while ((err = errno) == EINTR)`:
    the last answer. -/
def connectLoop : Nat → Kernel → Option Reply × Kernel
  | 0, kernel => (none, kernel)
  | fuel + 1, kernel =>
    let (reply, kernel) := kernel.ask .connect
    if reply.ret ≠ 0 ∧ reply.errno = eintr then connectLoop fuel kernel else (some reply, kernel)

def mnSocketConnect (sock : Int) (tout : MnTimeout) (fuel : Nat) (kernel : Kernel) :
    Option Int × Kernel :=
  if sock = mnSocketInvalid then
    (some mnClosed, kernel)
  else
    match connectLoop fuel kernel with
    | (none, kernel) => (none, kernel)
    | (some reply, kernel) =>
      if reply.ret = 0 then (some mnDone, kernel)
      -- if connection failed immediately, return error code
      else if reply.errno ≠ einprogress ∧ reply.errno ≠ eagain then (some reply.errno, kernel)
      -- zero timeout case optimization
      else if mnTimeoutIszero tout then (some mnTimeout, kernel)
      else
        match mnSocketWaitfd .connected tout fuel kernel with
        | (some err, kernel) =>
          if err = mnClosed then
            let (reply, kernel) := kernel.ask (.recv 0)
            (some (if reply.ret = 0 then mnDone else reply.errno), kernel)
          else
            (some err, kernel)
        | (none, kernel) => (none, kernel)

end Unix

end Mcoap
