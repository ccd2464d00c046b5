import Mcoap.Lib.DList
import Mcoap.Host
import Mcoap.Message

/-! # The confirm queue

    `mcoap/mc_buffer_queue.c`: a doubly linked list of the confirmable
    messages that wait for an acknowledgement.

    The entries lie in a heap of their own: `cells` holds those that are
    allocated, `brk` is the address the next one gets.  An address is never
    given out twice, so a pointer to a freed entry stays recognisable.  A
    function returns a `Fault` where the C code dereferences a null or
    freed pointer.  A loop along the links that takes more steps than there
    have been entries goes round in a circle, and does not end.

    An entry owns its destination and its bytes; they are values here. -/

namespace Mcoap

open DList

/-- `mc_endpt_result_fn_t`: a function pointer, by its address. -/
abbrev ResultFn : Type := Nat

/-- `mc_buffer_queue_entry_t` without its links. -/
structure Pending where
  msgid       : UInt16
  xmitcounter : UInt16
  dest        : SockAddr
  timeout     : MnTimeout
  resultfn    : ResultFn
  msg         : McBuffer

/-- `mc_buffer_queue_entry_t`. -/
abbrev McBufferQueueEntry : Type := Node Pending

/-- `mc_buffer_queue_t`, with the heap its entries lie in. -/
structure McBufferQueue where
  cells : Heap Pending
  brk   : Addr
  first : Option Addr
  last  : Option Addr

/-- Dereference a pointer to an entry. -/
def entryAt (cells : Heap Pending) (p : Option Addr) : Except Fault (Addr × McBufferQueueEntry) :=
  match p with
  | none => .error .nullDeref
  | some a =>
    match cells a with
    | none => .error .dangling
    | some entry => .ok (a, entry)

@[simp] theorem entryAt_null (cells : Heap Pending) : entryAt cells none = .error .nullDeref := rfl

theorem entryAt_some {cells : Heap Pending} {a : Addr} {entry : McBufferQueueEntry}
    (h : cells a = some entry) : entryAt cells (some a) = .ok (a, entry) := by
  simp only [entryAt, h]

/-! ## Section 1: Entries -/

def ackTimeout : ℚ := 2
def ackRandomFactor : ℚ := 3 / 2

/-- Generate a timeout value between ACK_TIMEOUT and ACK_TIMEOUT * ACK_RANDOM_FACTOR. -/
def mkTimeout (host : Host) : ℚ × Host :=
  let delta := (ackTimeout * ackRandomFactor) - ackTimeout
  let (randfraction, host) := rand host
  (ackTimeout + ((randfraction : ℚ) / (host.randMax : ℚ)) * delta, host)

/-- Initialize the entry fields. -/
def queueEntryInit (msgid : UInt16) (dest : SockAddr) (msg : McBuffer) (resultfn : ResultFn)
    (prev next : Option Addr) (host : Host) : McBufferQueueEntry × Host :=
  let (total, host) := mkTimeout host
  let (timeout, host) := mnTimeoutMarkstart (mnTimeoutInit (-1) total) host
  (⟨⟨msgid, 0, dest, timeout, resultfn, msg⟩, prev, next⟩, host)

/-! ## Section 2: The queue -/

/-- Init a queue. -/
def mcBufferQueueInit (queue : McBufferQueue) : McBufferQueue :=
  { queue with first := none, last := none }

/-- Add to the end of the queue. -/
def mcBufferQueueAdd (queue : McBufferQueue) (msgid : UInt16) (dest : SockAddr) (msg : McBuffer)
    (resultfn : ResultFn) (host : Host) : Except Fault (Addr × McBufferQueue × Host) :=
  let a := queue.brk
  match queue.first with
  | none =>
    -- the entry is the first and the last one
    let (entry, host) := queueEntryInit msgid dest msg resultfn none none host
    .ok (a, ⟨put queue.cells a entry, a + 1, some a, some a⟩, host)
  | some first => do
    let (entry, host) := queueEntryInit msgid dest msg resultfn queue.last none host
    let cells := put queue.cells a entry
    -- `queue->last->next = entry`
    let (last, _) ← entryAt cells queue.last
    return (a, ⟨setNext cells last (some a), a + 1, some first, some a⟩, host)

def countLoop (cells : Heap Pending) : Nat → Option Addr → UInt32 → Except Fault UInt32
  | _, none, count => .ok count
  | 0, some _, _ => .error .endless
  | fuel + 1, some a, count => do
    let (_, current) ← entryAt cells (some a)
    countLoop cells fuel current.next (count + 1)

/-- Count the number of entries in the queue. -/
def mcBufferQueueCount (queue : McBufferQueue) : Except Fault UInt32 :=
  countLoop queue.cells (queue.brk + 1) queue.first 0

/-- The first half of `remove_entry`: detach the prev node and make it
    point to the next node, or reset `queue->first`. -/
def detachPrev (queue : McBufferQueue) (current : McBufferQueueEntry) :
    Except Fault McBufferQueue :=
  match current.prev with
  | some p => do
    let (p, _) ← entryAt queue.cells (some p)
    return { queue with cells := setNext queue.cells p current.next }
  | none => return { queue with first := current.next }

/-- The second half: detach the next node and make it point to the prev
    node, or reset `queue->last`. -/
def detachNext (queue : McBufferQueue) (current : McBufferQueueEntry) :
    Except Fault McBufferQueue :=
  match current.next with
  | some n => do
    let (n, _) ← entryAt queue.cells (some n)
    return { queue with cells := setPrev queue.cells n current.prev }
  | none => return { queue with last := current.prev }

/-- Remove an entry from the queue; its prev and next pointers are 0'd. -/
def removeEntry (queue : McBufferQueue) (a : Addr) : Except Fault McBufferQueue := do
  let (_, current) ← entryAt queue.cells (some a)
  let queue ← detachPrev queue current
  -- read again, as the source does: the first half has written to the heap
  let (_, current) ← entryAt queue.cells (some a)
  let queue ← detachNext queue current
  return { queue with
    cells := modify queue.cells a fun entry => { entry with prev := none, next := none } }

/-- Remove the given entry and delete it; returns the next entry.  The
    fields that `queue_entry_deinit` clears are freed right after. -/
def mcBufferQueueRemoveEntry (queue : McBufferQueue) (entry : Option Addr) :
    Except Fault (Option Addr × McBufferQueue) :=
  match entry with
  | none => .ok (none, queue)
  | some a => do
    let (_, current) ← entryAt queue.cells (some a)
    let queue ← removeEntry queue a
    -- `current.next` was read before the entry's links were cleared
    return (current.next, { queue with cells := free queue.cells a })

def getLoop (cells : Heap Pending) (msgid : UInt16) :
    Nat → Option Addr → Except Fault (Option Addr)
  | _, none => .ok none
  | 0, some _ => .error .endless
  | fuel + 1, some a => do
    let (_, current) ← entryAt cells (some a)
    if current.val.msgid = msgid then return some a else getLoop cells msgid fuel current.next

/-- Return the entry with the matching message id. -/
def mcBufferQueueGet (queue : McBufferQueue) (msgid : UInt16) : Except Fault (Option Addr) :=
  getLoop queue.cells msgid (queue.brk + 1) queue.first

/-- `UINT32_MAX`. -/
def uint32Max : UInt32 := 0xFFFFFFFF

/-- Remove the first entry with the given id; returns the id, or `UINT32_MAX`. -/
def mcBufferQueueRemove (queue : McBufferQueue) (msgid : UInt16) :
    Except Fault (UInt32 × McBufferQueue) := do
  let entry ← mcBufferQueueGet queue msgid
  match entry with
  | none => return (uint32Max, queue)
  | some a =>
    let (_, queue) ← mcBufferQueueRemoveEntry queue (some a)
    return (msgid.toUInt32, queue)

def freeLoop : Nat → McBufferQueue → Except Fault McBufferQueue
  | fuel, queue =>
    match queue.first with
    | none => .ok queue
    | some a =>
      match fuel with
      | 0 => .error .endless
      | fuel + 1 => do
        let (_, queue) ← mcBufferQueueRemoveEntry queue (some a)
        freeLoop fuel queue

/-- Free the contents of a queue. -/
def mcBufferQueueFree (queue : McBufferQueue) : Except Fault McBufferQueue :=
  freeLoop (queue.brk + 1) queue

def nextTimeoutLoop (cells : Heap Pending) :
    Nat → Option Addr → Host → Except Fault (Option Addr × Host)
  | _, none, host => .ok (none, host)
  | 0, some _, _ => .error .endless
  | fuel + 1, some a, host => do
    let (_, entry) ← entryAt cells (some a)
    let (left, host) := mnTimeoutGet entry.val.timeout host
    if left ≠ 0 then nextTimeoutLoop cells fuel entry.next host else return (some a, host)

/-- Return the next entry, including this one, that has a timeout. -/
def mcBufferQueueNextTimeout (queue : McBufferQueue) (entry : Option Addr) (host : Host) :
    Except Fault (Option Addr × Host) :=
  nextTimeoutLoop queue.cells (queue.brk + 1) entry host

/-- Scan the pending queue for timeouts, but do not modify the queue. -/
def mcBufferQueueHasTimeout (queue : McBufferQueue) (host : Host) : Except Fault (Bool × Host) := do
  let (entry, host) ← mcBufferQueueNextTimeout queue queue.first host
  return (entry.isSome, host)

def timeoutLoop (queue : McBufferQueue) :
    Nat → Option Addr → Host → Except Fault (Option Addr × McBufferQueue × Host)
  | _, none, host => .ok (none, queue, host)
  | 0, some _, _ => .error .endless
  | fuel + 1, some a, host => do
    let (_, current) ← entryAt queue.cells (some a)
    let (left, host) := mnTimeoutGet current.val.timeout host
    if left = 0 then
      -- detached, but not freed: it belongs to the caller now
      let queue ← removeEntry queue a
      return (some a, queue, host)
    else
      timeoutLoop queue fuel current.next host

/-- Scan the pending queue for timeouts and remove the first one found. -/
def mcBufferQueueTimeout (queue : McBufferQueue) (host : Host) :
    Except Fault (Option Addr × McBufferQueue × Host) :=
  timeoutLoop queue (queue.brk + 1) queue.first host

end Mcoap
