import Mcoap.Lib.Runs
import Mcoap.BufferQueue

/-! # The confirm queue refines a list

    The heap of a queue stands for a list of entries, each with its address.

    * `Reps`: the queue stands for a list;
    * one lemma for each operation: what it returns and which list the
      queue stands for afterwards;
    * `queue_refines`: both hold after every sequence of operations. -/

namespace Mcoap

open DList Runs

/-! ## Section 1: Queues that stand for a list -/

/-- The queue stands for the list `l`; nothing lies at or past `brk`. -/
structure McBufferQueue.Reps (queue : McBufferQueue) (l : Nodes Pending) : Prop where
  isList : IsList queue.cells queue.first queue.last l
  fresh  : ∀ a, queue.brk ≤ a → queue.cells a = none

namespace McBufferQueue.Reps

variable {queue : McBufferQueue} {l : Nodes Pending}

theorem lt (h : queue.Reps l) {a : Addr} (ha : a ∈ addrs l) : a < queue.brk := by
  by_contra hge
  obtain ⟨xs, v, ys, _, hnode⟩ := h.isList.split ha
  rw [h.fresh a (Nat.le_of_not_lt hge)] at hnode
  exact absurd hnode (by simp)

/-- The list is no longer than the loops of the queue allow for. -/
theorem length_le (h : queue.Reps l) : l.length ≤ queue.brk := by
  have hsub : addrs l ⊆ List.range queue.brk := fun a ha => List.mem_range.mpr (h.lt ha)
  have hle := (List.subperm_of_subset h.isList.nodup hsub).length_le
  rw [List.length_range] at hle
  simpa [addrs] using hle

theorem unique (h : queue.Reps l) {l' : Nodes Pending} (h' : queue.Reps l') : l = l' :=
  h.isList.unique h'.isList

end McBufferQueue.Reps

theorem mcBufferQueueInit_reps {queue : McBufferQueue} (hcells : ∀ a, queue.cells a = none) :
    (mcBufferQueueInit queue).Reps [] where
  isList := IsList.empty fun a node ha => by
    have hnone : (mcBufferQueueInit queue).cells a = none := hcells a
    rw [hnone] at ha
    exact absurd ha (by simp)
  fresh a _ := hcells a

/-! ## Section 2: Scans -/

theorem countLoop_spec {cells : Heap Pending} {l : Nodes Pending} {prev : Option Addr}
    (hl : Linked cells prev l none) {fuel : Nat} (hfuel : l.length < fuel) (count : UInt32) :
    countLoop cells fuel (headOf l none) count = .ok (count + UInt32.ofNat l.length) := by
  induction l generalizing prev fuel count with
  | nil => simp [headOf, countLoop]
  | cons x l ih =>
    obtain ⟨a, v⟩ := x
    obtain ⟨ha, hrest⟩ := hl
    obtain ⟨n, rfl⟩ : ∃ n, fuel = n + 1 := ⟨fuel - 1, by omega⟩
    rw [List.length_cons] at hfuel
    -- the counter wraps, so the sum is one of `UInt32`
    simp only [headOf, countLoop, entryAt_some ha]
    show countLoop cells n (headOf l none) (count + 1) = _
    have hsum : UInt32.ofNat (l.length + 1) = 1 + UInt32.ofNat l.length := by
      rw [UInt32.ofNat_add, UInt32.add_comm]
      rfl
    rw [ih hrest (by omega) (count + 1), List.length_cons, hsum, UInt32.add_assoc]

/-- The first entry with an id. -/
def findId (msgid : UInt16) (l : Nodes Pending) : Option Addr :=
  (l.find? fun x => x.2.msgid = msgid).map Prod.fst

theorem findId_cons (msgid : UInt16) (x : Addr × Pending) (l : Nodes Pending) :
    findId msgid (x :: l) = if x.2.msgid = msgid then some x.1 else findId msgid l := by
  by_cases h : x.2.msgid = msgid
  · simp [findId, h]
  · simp [findId, h]

theorem findId_none {msgid : UInt16} {l : Nodes Pending} :
    findId msgid l = none ↔ ∀ x ∈ l, x.2.msgid ≠ msgid := by
  simp [findId]

/-- The entry that is found is the first of its id. -/
theorem findId_some {msgid : UInt16} {l : Nodes Pending} {a : Addr}
    (h : findId msgid l = some a) :
    ∃ xs v ys, l = xs ++ (a, v) :: ys ∧ v.msgid = msgid ∧ ∀ x ∈ xs, x.2.msgid ≠ msgid := by
  induction l with
  | nil => exact absurd h (by simp [findId])
  | cons x l ih =>
    obtain ⟨b, w⟩ := x
    rw [findId_cons] at h
    by_cases hw : w.msgid = msgid
    · rw [if_pos hw] at h
      cases h
      exact ⟨[], w, l, rfl, hw, fun y hy => absurd hy List.not_mem_nil⟩
    · rw [if_neg hw] at h
      obtain ⟨xs, v, ys, rfl, hv, hxs⟩ := ih h
      refine ⟨(b, w) :: xs, v, ys, rfl, hv, fun y hy => ?_⟩
      rcases List.mem_cons.mp hy with rfl | hy
      · exact hw
      · exact hxs y hy

theorem getLoop_spec {cells : Heap Pending} {l : Nodes Pending} {prev : Option Addr}
    (hl : Linked cells prev l none) (msgid : UInt16) {fuel : Nat} (hfuel : l.length < fuel) :
    getLoop cells msgid fuel (headOf l none) = .ok (findId msgid l) := by
  induction l generalizing prev fuel with
  | nil => simp [headOf, getLoop, findId]
  | cons x l ih =>
    obtain ⟨a, v⟩ := x
    obtain ⟨ha, hrest⟩ := hl
    obtain ⟨n, rfl⟩ : ∃ n, fuel = n + 1 := ⟨fuel - 1, by omega⟩
    rw [List.length_cons] at hfuel
    rw [findId_cons]
    simp only [headOf, getLoop, entryAt_some ha]
    show (if v.msgid = msgid then Except.ok (some a)
      else getLoop cells msgid n (headOf l none)) = _
    rw [ih hrest (by omega)]
    by_cases hv : v.msgid = msgid
    · rw [if_pos hv, if_pos hv]
    · rw [if_neg hv, if_neg hv]

/-- The first entry whose time is up, each entry taking its own reading of
    the clock. -/
def findDue : Nodes Pending → Host → Option Addr × Host
  | [], host => (none, host)
  | (a, v) :: rest, host =>
    let (left, host) := mnTimeoutGet v.timeout host
    if left ≠ 0 then findDue rest host else (some a, host)

theorem nextTimeoutLoop_spec {cells : Heap Pending} {l : Nodes Pending} {prev : Option Addr}
    (hl : Linked cells prev l none) {fuel : Nat} (hfuel : l.length < fuel) (host : Host) :
    nextTimeoutLoop cells fuel (headOf l none) host = .ok (findDue l host) := by
  induction l generalizing prev fuel host with
  | nil => simp [headOf, nextTimeoutLoop, findDue]
  | cons x l ih =>
    obtain ⟨a, v⟩ := x
    obtain ⟨ha, hrest⟩ := hl
    obtain ⟨n, rfl⟩ : ∃ n, fuel = n + 1 := ⟨fuel - 1, by omega⟩
    rw [List.length_cons] at hfuel
    simp only [headOf, nextTimeoutLoop, entryAt_some ha, findDue]
    show (if (mnTimeoutGet v.timeout host).1 ≠ 0 then
        nextTimeoutLoop cells n (headOf l none) (mnTimeoutGet v.timeout host).2
      else Except.ok (some a, (mnTimeoutGet v.timeout host).2)) = _
    rw [ih hrest (by omega)]
    by_cases hdue : (mnTimeoutGet v.timeout host).1 ≠ 0
    · rw [if_pos hdue, if_pos hdue]
    · rw [if_neg hdue, if_neg hdue]

/-! ## Section 3: Detaching and removing -/

/-- The node in front, if there is one, is led past the entry. -/
theorem detachPrev_eq {queue : McBufferQueue} {xs ys : Nodes Pending} {a : Addr} {v : Pending}
    (h : queue.Reps (xs ++ (a, v) :: ys)) :
    detachPrev queue ⟨v, lastOf none xs, headOf ys none⟩ =
      .ok ⟨setNextAt queue.cells (lastOf none xs) (headOf ys none), queue.brk,
        headOf (xs ++ ys) none, queue.last⟩ := by
  have hlist := h.isList
  unfold detachPrev
  cases hp : lastOf none xs with
  | none =>
    -- the entry is the first one: `queue->first` is reset
    have hnil := (lastOf_none.mp hp).2
    subst hnil
    rfl
  | some p =>
    -- `queue->first` stays, also if the node in front is the first one
    obtain ⟨init, w, rfl⟩ := exists_snoc_of_lastOf hp
    have hsplit : init ++ [(p, w)] ++ (a, v) :: ys = init ++ (p, w) :: (a, v) :: ys := by simp
    rw [hsplit] at hlist
    have hfirst : headOf (init ++ [(p, w)] ++ ys) none = queue.first := by
      rw [hlist.first_eq]
      cases init with
      | nil => rfl
      | cons x init => rfl
    simp only [entryAt_some hlist.node, hfirst]
    rfl

/-- The node behind, if there is one, is led back past the entry. -/
theorem detachNext_eq {queue : McBufferQueue} {xs ys : Nodes Pending} {a : Addr} {v : Pending}
    (h : queue.Reps (xs ++ (a, v) :: ys)) (cells : Heap Pending) (first : Option Addr)
    (hsame : ∀ b ∈ addrs ys, cells b = queue.cells b) :
    detachNext ⟨cells, queue.brk, first, queue.last⟩ ⟨v, lastOf none xs, headOf ys none⟩ =
      .ok ⟨setPrevAt cells (headOf ys none) (lastOf none xs), queue.brk, first,
        lastOf none (xs ++ ys)⟩ := by
  have hlist := h.isList
  unfold detachNext
  cases ys with
  | nil =>
    -- the entry is the last one: `queue->last` is reset
    rw [List.append_nil]
    rfl
  | cons y ys =>
    obtain ⟨n, w⟩ := y
    have hsplit : xs ++ (a, v) :: (n, w) :: ys = (xs ++ [(a, v)]) ++ (n, w) :: ys := by simp
    rw [hsplit] at hlist
    have hn := (hsame n List.mem_cons_self).trans hlist.node
    have hlast : lastOf none (xs ++ (n, w) :: ys) = queue.last := by
      rw [hlist.last_eq, lastOf_append, lastOf_append]
      rfl
    simp only [headOf, entryAt_some hn, hlast]
    rfl

/-- `remove_entry` joins the two parts around the entry. -/
theorem removeEntry_eq {queue : McBufferQueue} {xs ys : Nodes Pending} {a : Addr} {v : Pending}
    (h : queue.Reps (xs ++ (a, v) :: ys)) :
    removeEntry queue a = .ok ⟨unlink queue.cells a ⟨v, lastOf none xs, headOf ys none⟩, queue.brk,
      headOf (xs ++ ys) none, lastOf none (xs ++ ys)⟩ := by
  have hnd := h.isList.nodup
  rw [addrs_append, List.nodup_append, addrs_cons] at hnd
  obtain ⟨_, hys, hdisj⟩ := hnd
  obtain ⟨hays, _⟩ := List.nodup_cons.mp hys
  have haxs : a ∉ addrs xs := fun hmem => hdisj a hmem a List.mem_cons_self rfl
  have hx : ∀ b ∈ addrs ys, b ∉ addrs xs := fun b hb hc =>
    hdisj b hc b (List.mem_cons_of_mem _ hb) rfl
  have ha := h.isList.node
  -- neither half writes to the entry itself
  have ha1 : setNextAt queue.cells (lastOf none xs) (headOf ys none) a =
      some ⟨v, lastOf none xs, headOf ys none⟩ := by
    rw [setNextAt_ne _ _ (lastOf_not_mem haxs)]
    exact ha
  have ha2 : setPrevAt (setNextAt queue.cells (lastOf none xs) (headOf ys none)) (headOf ys none)
      (lastOf none xs) a = some ⟨v, lastOf none xs, headOf ys none⟩ := by
    rw [setPrevAt_ne _ _ (headOf_not_mem hays)]
    exact ha1
  have hnext := detachNext_eq h (setNextAt queue.cells (lastOf none xs) (headOf ys none))
    (headOf (xs ++ ys) none) fun b hb => setNextAt_ne _ _ (lastOf_not_mem (hx b hb))
  have hclear : modify (setPrevAt (setNextAt queue.cells (lastOf none xs) (headOf ys none))
      (headOf ys none) (lastOf none xs)) a (fun entry => { entry with prev := none, next := none }) =
      unlink queue.cells a ⟨v, lastOf none xs, headOf ys none⟩ := by
    unfold unlink put DList.modify
    rw [ha2]
    rfl
  rw [← hclear]
  -- the four statements, one after the other
  unfold removeEntry
  rw [entryAt_some ha]
  show (detachPrev queue _ >>= _) = _
  rw [detachPrev_eq h]
  show (entryAt _ (some a) >>= _) = _
  rw [entryAt_some ha1]
  show (detachNext _ _ >>= _) = _
  rw [hnext]
  rfl

theorem removeEntry_reps {queue : McBufferQueue} {xs ys : Nodes Pending} {a : Addr} {v : Pending}
    (h : queue.Reps (xs ++ (a, v) :: ys)) :
    ∃ queue', removeEntry queue a = .ok queue' ∧ queue'.Reps (xs ++ ys) ∧
      queue'.brk = queue.brk ∧ queue'.cells a = some ⟨v, none, none⟩ := by
  refine ⟨_, removeEntry_eq h, ⟨h.isList.takeOut, ?_⟩, rfl, put_self ..⟩
  -- nothing is written at or past `brk`
  intro b hb
  have hlt : ∀ c ∈ addrs (xs ++ (a, v) :: ys), c < b := fun c hc => (h.lt hc).trans_le hb
  have hxs : b ∉ addrs xs := fun hmem => Nat.lt_irrefl b (hlt b (by simp [hmem]))
  have hys : b ∉ addrs ys := fun hmem => Nat.lt_irrefl b (hlt b (by simp [hmem]))
  have hba : b ≠ a := fun hba => Nat.lt_irrefl b (hlt b (by simp [hba]))
  show unlink queue.cells a _ b = none
  rw [unlink_outside hba (lastOf_not_mem hxs) (headOf_not_mem hys)]
  exact h.fresh b hb

/-- Removing an entry deletes it, frees it and returns its successor. -/
theorem mcBufferQueueRemoveEntry_spec {queue : McBufferQueue} {xs ys : Nodes Pending} {a : Addr}
    {v : Pending} (h : queue.Reps (xs ++ (a, v) :: ys)) :
    ∃ queue', mcBufferQueueRemoveEntry queue (some a) = .ok (headOf ys none, queue') ∧
      queue'.Reps (xs ++ ys) ∧ queue'.brk = queue.brk ∧ queue'.cells a = none := by
  obtain ⟨queue', hremove, hreps, hbrk, _⟩ := removeEntry_reps h
  have hout : a ∉ addrs (xs ++ ys) := by
    have hnd := h.isList.nodup
    rw [addrs_append, addrs_cons] at hnd
    rw [addrs_append]
    exact (List.nodup_cons.mp (List.nodup_middle.mp hnd)).1
  refine ⟨{ queue' with cells := free queue'.cells a }, ?_, ⟨hreps.isList.release hout, ?_⟩,
    hbrk, free_self ..⟩
  · simp only [mcBufferQueueRemoveEntry, entryAt_some h.isList.node]
    show (removeEntry queue a >>= _) = _
    rw [hremove]
    rfl
  · intro b hb
    by_cases hba : b = a
    · rw [hba]
      exact free_self ..
    -- an address that is not in use was not in use before either
    · show free queue'.cells a b = none
      rw [free_ne _ hba]
      exact hreps.fresh b hb

/-! ## Section 4: Adding, and the loops that remove -/

/-- What a new entry holds. -/
def newPending (msgid : UInt16) (dest : SockAddr) (msg : McBuffer) (resultfn : ResultFn)
    (host : Host) : Pending :=
  (queueEntryInit msgid dest msg resultfn none none host).1.val

/-- A new entry lies at a fresh address, at the end of the list. -/
theorem mcBufferQueueAdd_spec {queue : McBufferQueue} {l : Nodes Pending} (h : queue.Reps l)
    (msgid : UInt16) (dest : SockAddr) (msg : McBuffer) (resultfn : ResultFn) (host : Host) :
    ∃ queue', mcBufferQueueAdd queue msgid dest msg resultfn host =
        .ok (queue.brk, queue', (queueEntryInit msgid dest msg resultfn none none host).2) ∧
      queue'.Reps (l ++ [(queue.brk, newPending msgid dest msg resultfn host)]) ∧
      queue'.brk = queue.brk + 1 := by
  have hfresh : queue.brk ∉ addrs l := fun hmem => Nat.lt_irrefl _ (h.lt hmem)
  unfold mcBufferQueueAdd
  cases hfirst : queue.first with
  | none =>
    -- the queue is empty, and the new entry is all there is
    have hnil := h.isList.first_none.mp hfirst
    subst hnil
    refine ⟨_, rfl, ⟨h.isList.push_empty _, ?_⟩, rfl⟩
    intro b hb
    have hne : b ≠ queue.brk := Nat.ne_of_gt hb
    exact (put_ne _ _ hne).trans (h.fresh b (Nat.le_of_succ_le hb))
  | some first =>
    -- so it has a last entry, which gets a successor
    obtain ⟨last, hlast⟩ : ∃ last, queue.last = some last := by
      rcases hp : queue.last with _ | last
      · rw [h.isList.wellFormed.ends.mpr hp] at hfirst
        exact absurd hfirst (by simp)
      · exact ⟨last, rfl⟩
    have hlist := h.isList
    rw [hfirst, hlast] at hlist
    obtain ⟨init, w, rfl⟩ := exists_snoc_of_lastOf hlist.last_eq.symm
    have hmem : last ∈ addrs (init ++ [(last, w)]) := by simp
    have hne : last ≠ queue.brk := fun hbrk => hfresh (hbrk ▸ hmem)
    have hat : put queue.cells queue.brk
        ⟨newPending msgid dest msg resultfn host, some last, none⟩ last =
        some ⟨w, lastOf none init, none⟩ := by
      rw [put_ne _ _ hne]
      exact hlist.node
    refine ⟨⟨setNext (put queue.cells queue.brk
      ⟨newPending msgid dest msg resultfn host, some last, none⟩) last (some queue.brk),
      queue.brk + 1, some first, some queue.brk⟩, ?_, ⟨hlist.push _ hfresh, ?_⟩, rfl⟩
    · show (entryAt (put queue.cells queue.brk
        ⟨newPending msgid dest msg resultfn host, queue.last, none⟩) queue.last >>= _) = _
      rw [hlast, entryAt_some hat]
      rfl
    · intro b hb
      have hb' : queue.brk < b := hb
      have hblast : b ≠ last := Nat.ne_of_gt ((h.lt hmem).trans hb')
      show DList.modify _ last _ b = none
      rw [modify_ne _ _ hblast, put_ne _ _ (Nat.ne_of_gt hb')]
      exact h.fresh b hb'.le

theorem freeLoop_spec {l : Nodes Pending} {queue : McBufferQueue} (h : queue.Reps l) {fuel : Nat}
    (hfuel : l.length < fuel) : ∃ queue', freeLoop fuel queue = .ok queue' ∧ queue'.Reps [] := by
  induction l generalizing queue fuel with
  | nil =>
    refine ⟨queue, ?_, h⟩
    unfold freeLoop
    rw [h.isList.first_none.mpr rfl]
  | cons x l ih =>
    obtain ⟨a, v⟩ := x
    obtain ⟨n, rfl⟩ : ∃ n, fuel = n + 1 := ⟨fuel - 1, by omega⟩
    rw [List.length_cons] at hfuel
    -- the loop always removes the entry that is first by then
    have h' : queue.Reps ([] ++ (a, v) :: l) := h
    obtain ⟨next, hremove, hnext, _⟩ := mcBufferQueueRemoveEntry_spec h'
    obtain ⟨last, hloop, hreps⟩ := ih hnext (Nat.lt_of_succ_lt_succ hfuel)
    refine ⟨last, ?_, hreps⟩
    unfold freeLoop
    rw [h.isList.first_eq]
    show (mcBufferQueueRemoveEntry queue (some a) >>= _) = _
    rw [hremove]
    exact hloop

/-- The scan that removes agrees with the scan that only looks. -/
theorem timeoutLoop_spec {queue : McBufferQueue} {xs l : Nodes Pending} (h : queue.Reps (xs ++ l))
    {fuel : Nat} (hfuel : l.length < fuel) (host : Host) :
    timeoutLoop queue fuel (headOf l none) host =
      match findDue l host with
      | (none, host) => .ok (none, queue, host)
      | (some a, host) => (removeEntry queue a).map fun queue => (some a, queue, host) := by
  induction l generalizing xs fuel host with
  | nil => simp [headOf, timeoutLoop, findDue]
  | cons x l ih =>
    obtain ⟨a, v⟩ := x
    obtain ⟨n, rfl⟩ : ∃ n, fuel = n + 1 := ⟨fuel - 1, by omega⟩
    rw [List.length_cons] at hfuel
    have h' : queue.Reps ((xs ++ [(a, v)]) ++ l) := by
      rw [List.append_assoc]
      exact h
    have hstep := ih h' (Nat.lt_of_succ_lt_succ hfuel) (mnTimeoutGet v.timeout host).2
    simp only [headOf, timeoutLoop, findDue, entryAt_some h.isList.node]
    show (if (mnTimeoutGet v.timeout host).1 = 0 then
        removeEntry queue a >>= fun queue => pure (some a, queue, (mnTimeoutGet v.timeout host).2)
      else timeoutLoop queue n (headOf l none) (mnTimeoutGet v.timeout host).2) = _
    rw [hstep]
    by_cases hdue : (mnTimeoutGet v.timeout host).1 = 0
    · rw [if_pos hdue, if_neg (not_not.mpr hdue)]
      show _ = (removeEntry queue a).map _
      cases removeEntry queue a with
      | ok queue' => rfl
      | error fault => rfl
    · rw [if_neg hdue, if_pos hdue]

theorem findDue_cons (a : Addr) (v : Pending) (l : Nodes Pending) (host : Host) :
    findDue ((a, v) :: l) host =
      if (mnTimeoutGet v.timeout host).1 ≠ 0 then findDue l (mnTimeoutGet v.timeout host).2
      else (some a, (mnTimeoutGet v.timeout host).2) := rfl

/-- The entry that is due is one of the list. -/
theorem findDue_mem {l : Nodes Pending} {host : Host} {a : Addr}
    (h : (findDue l host).1 = some a) : a ∈ addrs l := by
  induction l generalizing host with
  | nil => exact absurd h (by simp [findDue])
  | cons x l ih =>
    obtain ⟨b, v⟩ := x
    rw [findDue_cons] at h
    by_cases hdue : (mnTimeoutGet v.timeout host).1 ≠ 0
    · rw [if_pos hdue] at h
      exact List.mem_cons_of_mem _ (ih h)
    · rw [if_neg hdue] at h
      rw [← Option.some.inj h]
      exact List.mem_cons_self

/-! ## Section 5: Every sequence of operations -/

/-- The operations that change the queue. -/
inductive QueueOp where
  | add (msgid : UInt16) (dest : SockAddr) (msg : McBuffer) (resultfn : ResultFn)
  | removeEntry (a : Addr)
  | remove (msgid : UInt16)
  | timeout
  | free

/-- `remove_entry` is called on an entry that is currently in the queue. -/
def QueueOp.Legal : QueueOp → McBufferQueue → Prop
  | .removeEntry a, queue => ∃ chain, Chain queue.cells queue.first chain ∧ a ∈ chain
  | _, _ => True

def QueueOp.exec : QueueOp → McBufferQueue × Host → Except Fault (McBufferQueue × Host)
  | .add msgid dest msg resultfn, (queue, host) => do
    let (_, queue, host) ← mcBufferQueueAdd queue msgid dest msg resultfn host
    return (queue, host)
  | .removeEntry a, (queue, host) => do
    let (_, queue) ← mcBufferQueueRemoveEntry queue (some a)
    return (queue, host)
  | .remove msgid, (queue, host) => do
    let (_, queue) ← mcBufferQueueRemove queue msgid
    return (queue, host)
  | .timeout, (queue, host) => do
    let (_, queue, host) ← mcBufferQueueTimeout queue host
    return (queue, host)
  | .free, (queue, host) => do
    let queue ← mcBufferQueueFree queue
    return (queue, host)

def queueStep (s : McBufferQueue × Host) (op : QueueOp) (s' : McBufferQueue × Host) : Prop :=
  op.Legal s.1 ∧ op.exec s = .ok s'

/-- What each operation returns and does, on a queue that stands for `l`. -/
structure Operations (queue : McBufferQueue) (host : Host) (l : Nodes Pending) : Prop where
  add : ∀ msgid dest msg resultfn, ∃ queue',
    mcBufferQueueAdd queue msgid dest msg resultfn host =
        .ok (queue.brk, queue', (queueEntryInit msgid dest msg resultfn none none host).2) ∧
      queue'.Reps (l ++ [(queue.brk, newPending msgid dest msg resultfn host)])
  count : mcBufferQueueCount queue = .ok (UInt32.ofNat l.length)
  removeEntry : ∀ xs a v ys, l = xs ++ (a, v) :: ys → ∃ queue',
    mcBufferQueueRemoveEntry queue (some a) = .ok (headOf ys none, queue') ∧
      queue'.Reps (xs ++ ys) ∧ queue'.cells a = none
  get : ∀ msgid, mcBufferQueueGet queue msgid = .ok (findId msgid l)
  remove_none : ∀ msgid, findId msgid l = none →
    mcBufferQueueRemove queue msgid = .ok (uint32Max, queue)
  remove_some : ∀ msgid xs a v ys, l = xs ++ (a, v) :: ys → findId msgid l = some a → ∃ queue',
    mcBufferQueueRemove queue msgid = .ok (msgid.toUInt32, queue') ∧ queue'.Reps (xs ++ ys)
  next_timeout : mcBufferQueueNextTimeout queue queue.first host = .ok (findDue l host)
  has_timeout : mcBufferQueueHasTimeout queue host =
    .ok ((findDue l host).1.isSome, (findDue l host).2)
  timeout_none : (findDue l host).1 = none →
    mcBufferQueueTimeout queue host = .ok (none, queue, (findDue l host).2)
  timeout_some : ∀ xs a v ys, l = xs ++ (a, v) :: ys → (findDue l host).1 = some a → ∃ queue',
    mcBufferQueueTimeout queue host = .ok (some a, queue', (findDue l host).2) ∧
      queue'.Reps (xs ++ ys) ∧ queue'.cells a = some ⟨v, none, none⟩
  free : ∃ queue', mcBufferQueueFree queue = .ok queue' ∧ queue'.Reps []

section

variable {queue : McBufferQueue} {l : Nodes Pending}

theorem mcBufferQueueGet_spec (h : queue.Reps l) (msgid : UInt16) :
    mcBufferQueueGet queue msgid = .ok (findId msgid l) := by
  unfold mcBufferQueueGet
  rw [h.isList.first_eq]
  exact getLoop_spec h.isList.linked msgid (Nat.lt_succ_of_le h.length_le)

theorem mcBufferQueueRemove_some (h : queue.Reps l) {msgid : UInt16} {a : Addr}
    (ha : findId msgid l = some a) {xs ys : Nodes Pending} {v : Pending}
    (hl : l = xs ++ (a, v) :: ys) :
    ∃ queue', mcBufferQueueRemove queue msgid = .ok (msgid.toUInt32, queue') ∧
      queue'.Reps (xs ++ ys) := by
  subst hl
  obtain ⟨queue', hremove, hreps, _, _⟩ := mcBufferQueueRemoveEntry_spec h
  refine ⟨queue', ?_, hreps⟩
  unfold mcBufferQueueRemove
  rw [mcBufferQueueGet_spec h msgid, ha]
  show (mcBufferQueueRemoveEntry queue (some a) >>= _) = _
  rw [hremove]
  rfl

theorem mcBufferQueueTimeout_eq (h : queue.Reps l) (host : Host) :
    mcBufferQueueTimeout queue host =
      match findDue l host with
      | (none, host) => .ok (none, queue, host)
      | (some a, host) => (removeEntry queue a).map fun queue => (some a, queue, host) := by
  have h' : queue.Reps ([] ++ l) := h
  unfold mcBufferQueueTimeout
  rw [h.isList.first_eq]
  exact timeoutLoop_spec h' (Nat.lt_succ_of_le h.length_le) host

theorem McBufferQueue.Reps.operations (h : queue.Reps l) (host : Host) :
    Operations queue host l where
  add msgid dest msg resultfn := by
    obtain ⟨queue', hadd, hreps, _⟩ := mcBufferQueueAdd_spec h msgid dest msg resultfn host
    exact ⟨queue', hadd, hreps⟩
  count := by
    unfold mcBufferQueueCount
    rw [h.isList.first_eq, countLoop_spec h.isList.linked (Nat.lt_succ_of_le h.length_le)]
    simp
  removeEntry xs a v ys hl := by
    subst hl
    obtain ⟨queue', hremove, hreps, _, hfreed⟩ := mcBufferQueueRemoveEntry_spec h
    exact ⟨queue', hremove, hreps, hfreed⟩
  get := mcBufferQueueGet_spec h
  remove_none msgid hnone := by
    unfold mcBufferQueueRemove
    rw [mcBufferQueueGet_spec h msgid, hnone]
    rfl
  remove_some msgid xs a v ys hl ha := mcBufferQueueRemove_some h ha hl
  next_timeout := by
    unfold mcBufferQueueNextTimeout
    rw [h.isList.first_eq]
    exact nextTimeoutLoop_spec h.isList.linked (Nat.lt_succ_of_le h.length_le) host
  has_timeout := by
    unfold mcBufferQueueHasTimeout mcBufferQueueNextTimeout
    rw [h.isList.first_eq,
      nextTimeoutLoop_spec h.isList.linked (Nat.lt_succ_of_le h.length_le) host]
    rfl
  timeout_none hnone := by
    rw [mcBufferQueueTimeout_eq h]
    generalize findDue l host = found at hnone ⊢
    obtain ⟨_, host'⟩ := found
    cases hnone
    rfl
  timeout_some xs a v ys hl ha := by
    subst hl
    obtain ⟨queue', hremove, hreps, _, hcell⟩ := removeEntry_reps h
    refine ⟨queue', ?_, hreps, hcell⟩
    rw [mcBufferQueueTimeout_eq h]
    generalize findDue (xs ++ (a, v) :: ys) host = found at ha ⊢
    obtain ⟨_, host'⟩ := found
    cases ha
    show (removeEntry queue a).map _ = _
    rw [hremove]
    rfl
  free := freeLoop_spec h (Nat.lt_succ_of_le h.length_le)

end

/-- Step: each operation leads from a list to a list. -/
theorem queueStep_reps {s s' : McBufferQueue × Host} {op : QueueOp} (hstep : queueStep s op s')
    {l : Nodes Pending} (h : s.1.Reps l) : ∃ l', s'.1.Reps l' := by
  obtain ⟨queue, host⟩ := s
  obtain ⟨hlegal, hexec⟩ := hstep
  have hops := McBufferQueue.Reps.operations h host
  cases op with
  | add msgid dest msg resultfn =>
    obtain ⟨queue', hadd, hreps⟩ := hops.add msgid dest msg resultfn
    simp only [QueueOp.exec, hadd] at hexec
    cases hexec
    exact ⟨_, hreps⟩
  | removeEntry a =>
    -- the chain along the links is the list
    obtain ⟨chain, hchain, hmem⟩ := hlegal
    rw [hchain.unique h.isList.wellFormed.is_chain] at hmem
    obtain ⟨xs, v, ys, hl, _⟩ := h.isList.split hmem
    obtain ⟨queue', hremove, hreps, _⟩ := hops.removeEntry xs a v ys hl
    simp only [QueueOp.exec, hremove] at hexec
    cases hexec
    exact ⟨_, hreps⟩
  | remove msgid =>
    rcases hfound : findId msgid l with _ | a
    · simp only [QueueOp.exec, hops.remove_none msgid hfound] at hexec
      cases hexec
      exact ⟨l, h⟩
    · obtain ⟨xs, v, ys, hl, _⟩ := findId_some hfound
      obtain ⟨queue', hremove, hreps⟩ := hops.remove_some msgid xs a v ys hl hfound
      simp only [QueueOp.exec, hremove] at hexec
      cases hexec
      exact ⟨_, hreps⟩
  | timeout =>
    rcases hfound : (findDue l host).1 with _ | a
    · simp only [QueueOp.exec, hops.timeout_none hfound] at hexec
      cases hexec
      exact ⟨l, h⟩
    · obtain ⟨xs, v, ys, hl, _⟩ := h.isList.split (findDue_mem hfound)
      obtain ⟨queue', htimeout, hreps, _⟩ := hops.timeout_some xs a v ys hl hfound
      simp only [QueueOp.exec, htimeout] at hexec
      cases hexec
      exact ⟨_, hreps⟩
  | free =>
    obtain ⟨queue', hfree, hreps⟩ := hops.free
    simp only [QueueOp.exec, hfree] at hexec
    cases hexec
    exact ⟨[], hreps⟩

/-- A queue nothing has been added to yet. -/
def emptyQueue (brk : Addr) : McBufferQueue := mcBufferQueueInit ⟨fun _ => none, brk, none, none⟩

theorem emptyQueue_reps (brk : Addr) : (emptyQueue brk).Reps [] :=
  mcBufferQueueInit_reps fun _ => rfl

/-- After every sequence of operations the heap is a well-formed doubly
    linked list, and the operations are those of the list it stands for. -/
theorem queue_refines {brk : Addr} {host : Host} {ops : List QueueOp} {s : McBufferQueue × Host}
    (hrun : Run queueStep (emptyQueue brk, host) ops s) :
    ∃ l, s.1.Reps l ∧ WellFormed s.1.cells s.1.first s.1.last (addrs l) ∧
      Operations s.1 s.2 l := by
  have hreps : ∃ l, s.1.Reps l := hrun.invariant (P := fun t => ∃ l, t.1.Reps l)
    ⟨[], emptyQueue_reps brk⟩ fun _ _ _ ⟨_, h⟩ hstep => queueStep_reps hstep h
  obtain ⟨l, h⟩ := hreps
  exact ⟨l, h, h.isList.wellFormed, h.operations s.2⟩

/-- Two entries are added, and the first of them is removed by its id. -/
theorem queue_refines_remove :
    ∃ s, Run queueStep (emptyQueue 0, stillHost) [.add 7 ⟨2, 5683, 1, 0⟩ ⟨0, fun _ => 0⟩ 9,
        .add 8 ⟨2, 5683, 2, 0⟩ ⟨0, fun _ => 0⟩ 9, .remove 7] s ∧
      ∃ l, s.1.Reps l ∧ WellFormed s.1.cells s.1.first s.1.last (addrs l) ∧
        Operations s.1 s.2 l := by
  have hrun : ∃ s, Run queueStep (emptyQueue 0, stillHost) [.add 7 ⟨2, 5683, 1, 0⟩
      ⟨0, fun _ => 0⟩ 9, .add 8 ⟨2, 5683, 2, 0⟩ ⟨0, fun _ => 0⟩ 9, .remove 7] s :=
    ⟨_, Run.cons ⟨trivial, rfl⟩ (Run.cons ⟨trivial, rfl⟩ (Run.single ⟨trivial, rfl⟩))⟩
  obtain ⟨s, hrun⟩ := hrun
  exact ⟨s, hrun, queue_refines hrun⟩

/-- Queues of every length are reached. -/
theorem exists_run_length (dest : SockAddr) (msg : McBuffer) (host : Host) (n : Nat) :
    ∃ ops s l, Run queueStep (emptyQueue 0, host) ops s ∧ s.1.Reps l ∧ l.length = n := by
  induction n with
  | zero => exact ⟨[], _, [], Run.nil, emptyQueue_reps 0, rfl⟩
  | succ n ih =>
    obtain ⟨ops, s, l, hrun, hreps, hlen⟩ := ih
    -- one more entry, with an id that does not matter
    obtain ⟨queue', hadd, hreps'⟩ := (hreps.operations s.2).add 0 dest msg 0
    have hexec : (QueueOp.add 0 dest msg 0).exec s =
        .ok (queue', (queueEntryInit 0 dest msg 0 none none s.2).2) := by
      show (mcBufferQueueAdd s.1 0 dest msg 0 s.2 >>= _) = _
      rw [hadd]
      rfl
    have hlegal : (QueueOp.add 0 dest msg 0).Legal s.1 := trivial
    refine ⟨_, _, _, hrun.snoc ⟨hlegal, hexec⟩, hreps', ?_⟩
    rw [List.length_append, hlen]
    rfl

/-- `count` is 32 bits wide. -/
theorem count_wraps :
    ∃ ops s l, Run queueStep (emptyQueue 0, stillHost) ops s ∧ s.1.Reps l ∧
      l.length = 2 ^ 32 ∧ mcBufferQueueCount s.1 = .ok 0 := by
  obtain ⟨ops, s, l, hrun, hreps, hlen⟩ :=
    exists_run_length ⟨2, 5683, 0, 0⟩ ⟨0, fun _ => 0⟩ stillHost (2 ^ 32)
  refine ⟨ops, s, l, hrun, hreps, hlen, ?_⟩
  rw [(hreps.operations s.2).count, hlen]
  rfl

end Mcoap
