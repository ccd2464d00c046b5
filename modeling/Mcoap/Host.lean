import Mathlib.Data.Rat.Defs
import Mathlib.Algebra.Order.Ring.Rat
import Mcoap.Lib.ByteProg

/-! # The host

    What the program takes from the system it runs on, and `mnet/mn_timeout.c`.

    Clock readings, random numbers, the outcomes of `sendto` and the values
    of uninitialised locals are sequences that are given beforehand and
    used one after the other; a statement about every `Host` covers every
    clock, every random generator and every network.  Times are exact
    rationals instead of doubles. -/

namespace Mcoap

open ByteProg

/-- The ways in which a function does not return. -/
inductive Fault where
  /-- a null pointer is dereferenced -/
  | nullDeref
  /-- a pointer to freed memory is dereferenced -/
  | dangling
  /-- an access past the end of an allocated block -/
  | outOfBounds
  /-- a loop that does not come to an end -/
  | endless
  /-- a signed number past the largest one -/
  | overflow
  deriving DecidableEq, Repr

/-- A sequence of two steps returns if both do. -/
theorem bind_eq_ok {α β : Type} {x : Except Fault α} {f : α → Except Fault β} {b : β} :
    (x >>= f) = .ok b ↔ ∃ a, x = .ok a ∧ f a = .ok b := by
  cases x with
  | ok a => simp [bind, Except.bind]
  | error fault => simp [bind, Except.bind]

/-- What the host has in store, and how much of it has been used. -/
structure Host where
  clock   : Nat → ℚ
  ticks   : Nat
  rands   : Nat → Nat
  nrands  : Nat
  randMax : Nat
  sends   : Nat → Int
  nsends  : Nat
  junk    : Supply UInt16

/-- A host whose clock stands still, and whose socket takes every datagram. -/
def stillHost : Host where
  clock _ := 0
  ticks := 0
  rands _ := 0
  nrands := 0
  randMax := 1
  sends _ := 0
  nsends := 0
  junk _ := 0

def mnGettime (host : Host) : ℚ × Host :=
  (host.clock host.ticks, { host with ticks := host.ticks + 1 })

def rand (host : Host) : Nat × Host :=
  (host.rands host.nrands, { host with nrands := host.nrands + 1 })

/-- Error codes; a positive code is an `errno`. -/
def mnDone    : Int := 0
def mnTimeout : Int := -1
def mnClosed  : Int := -2

/-- `mn_socket_sendto` of `count` bytes.  The outcome 0 is a `sendto` that
    takes the whole datagram; one that took 0 bytes counts as closed. -/
def mnSocketSendto (count : Nat) (host : Host) : Int × Host :=
  let outcome := host.sends host.nsends
  let err := if outcome = 0 ∧ count = 0 then mnClosed else outcome
  (err, { host with nsends := host.nsends + 1 })

/-- `mn_timeout_t`. -/
structure MnTimeout where
  block : ℚ
  total : ℚ
  start : ℚ
  deriving DecidableEq, Repr

def mnTimeoutInit (block total : ℚ) : MnTimeout := ⟨block, total, 0⟩

/-- The time that is left, or -1 if there is no limit. -/
def mnTimeoutGet (tout : MnTimeout) (host : Host) : ℚ × Host :=
  if tout.block < 0 ∧ tout.total < 0 then
    (-1, host)
  else if tout.block < 0 then
    let (now, host) := mnGettime host
    let delta := tout.total - now + tout.start
    (if delta > 0 then delta else 0, host)
  else if tout.total < 0 then
    (tout.block, host)
  else
    let (now, host) := mnGettime host
    let delta := tout.total - now + tout.start
    let left := if delta > 0 then delta else 0
    (if tout.block < left then tout.block else left, host)

def mnTimeoutMarkstart (tout : MnTimeout) (host : Host) : MnTimeout × Host :=
  let (now, host) := mnGettime host
  ({ tout with start := now }, host)

end Mcoap
