import Mcoap.Requests
import Mcoap.Ledger

/-! # The ids of pending messages

    Which message ids the entries of the confirm queue carry, in every run
    of requests, receives and checks.

    * `idAfter`: the id that is drawn after `n` others;
    * `clientStep_cases`: what one operation does to the counter and to the
      ids that are queued;
    * `Numbered`: every queued entry carries the id that its request drew;
    * `pending_ids_congruent`: two entries carry the same id if and only if
      a multiple of 65535 ids was drawn in between;
    * `ids_repeat_iff`: the same of all ids that are drawn, one after the
      other. -/

namespace Mcoap

open ByteMem ByteProg StableSort DList Runs

/-! ## Section 1: The counter -/

/-- The id that is drawn after `n` others, if `first` is drawn first. -/
def idAfter (first n : Nat) : Nat := (first - 1 + n) % 65535 + 1

theorem idAfter_zero {first : Nat} (hpos : 0 < first) (hle : first ≤ 65535) :
    idAfter first 0 = first := by
  unfold idAfter
  omega

/-- Ids repeat after 65535 draws, and not before. -/
theorem idAfter_inj {first i j : Nat} :
    idAfter first i = idAfter first j ↔ i % 65535 = j % 65535 := by
  unfold idAfter
  omega

theorem mcEndptUdpNextid_idAfter {endpt : Endpoint} {first n : Nat}
    (h : endpt.nextid.toNat = idAfter first n) :
    (mcEndptUdpNextid endpt).2.nextid.toNat = idAfter first (n + 1) := by
  have hsum : (endpt.nextid + 1).toNat = (endpt.nextid.toNat + 1) % 65536 := UInt16.toNat_add _ _
  show (if endpt.nextid + 1 = 0 then (1 : UInt16) else endpt.nextid + 1).toNat = _
  rw [h] at hsum
  unfold idAfter at hsum ⊢
  split
  · -- the counter skips 0
    rename_i hzero
    rw [hzero] at hsum
    have hlast : (0 : UInt16).toNat = 0 := rfl
    have hone : (1 : UInt16).toNat = 1 := rfl
    omega
  · rename_i hne
    have hpos : (endpt.nextid + 1).toNat ≠ 0 := fun h0 => hne (UInt16.toNat_inj.mp h0)
    omega

theorem mcEndptUdpInit_nextid (rdsize wrsize : UInt32) (host : Host) :
    0 < (mcEndptUdpInit rdsize wrsize host).nextid.toNat := by
  show 0 < (if (randomId host).1 = 0 then (1 : UInt16) else (randomId host).1).toNat
  split
  · decide
  · rename_i hne
    exact Nat.pos_of_ne_zero fun h0 => hne (UInt16.toNat_inj.mp h0)

/-! ## Section 2: The ids that are queued -/

/-- The addresses of the entries, and the ids they carry. -/
def keys (l : Nodes Pending) : List (Addr × UInt16) := l.map fun x => (x.1, x.2.msgid)

theorem keys_append (l l' : Nodes Pending) : keys (l ++ l') = keys l ++ keys l' :=
  List.map_append

theorem mem_keys {l : Nodes Pending} {x : Addr × Pending} (h : x ∈ l) : (x.1, x.2.msgid) ∈ keys l :=
  List.mem_map_of_mem (f := fun x : Addr × Pending => (x.1, x.2.msgid)) h

theorem ids_of_keys (l : Nodes Pending) : (l.map fun x => x.2.msgid) = (keys l).map Prod.snd := by
  rw [keys, List.map_map]
  rfl

theorem keys_lt {queue : McBufferQueue} {l : Nodes Pending} (h : queue.Reps l)
    {k : Addr × UInt16} (hk : k ∈ keys l) : k.1 < queue.brk := by
  obtain ⟨x, hx, rfl⟩ := List.mem_map.mp hk
  exact h.lt (List.mem_map_of_mem hx)

/-- A visit leaves an entry its id. -/
theorem visitEntry_keys (a : Addr) (v : Pending) (tmout : MnTimeout) (host : Host) :
    (keys ((visitEntry a v tmout host).entry.map fun v => (a, v)).toList).Sublist
      [(a, v.msgid)] := by
  unfold visitEntry
  simp only
  split
  · unfold resendEntry
    split
    · exact List.nil_sublist _
    · simp only
      split
      · exact List.nil_sublist _
      · exact List.Sublist.refl _
  · exact List.Sublist.refl _

theorem checkPass_keys (l : Nodes Pending) (tmout : MnTimeout) (host : Host) :
    (keys (checkPass l tmout host).entries).Sublist (keys l) := by
  induction l generalizing tmout host with
  | nil => exact List.Sublist.refl _
  | cons x l ih =>
    obtain ⟨a, v⟩ := x
    show (keys (_ ++ _)).Sublist _
    rw [keys_append]
    exact (visitEntry_keys a v tmout host).append (ih _ _)

/-! ## Section 3: One operation -/

/-- The operations that draw an id. -/
def ClientOp.isRequest : ClientOp → Bool
  | .get .. | .put .. | .post .. | .delete .. => true
  | .recv _ | .checkQueues => false

section

variable {qsort : Qsort McOption} {mcUriToOptions : UriToOptions} {endpt endpt' : Endpoint}
  {l : Nodes Pending}

/-- A request is confirmable if somebody wants to know the result. -/
theorem isConfirmable_request (resultfn : ResultFn) (code : UInt8) (msgid : UInt16)
    (token : McBuffer) (list : Option McOptionsList) (payload : Option McBuffer) :
    mcMessageIsConfirmable (mcMessageInit messageVersion
      (if resultfn = 0 then mcNoconfirm else mcConfirm) code msgid token list payload) =
        decide (resultfn ≠ 0) := by
  unfold mcMessageIsConfirmable mcMessageGetType mcMessageInit
  rw [mcHeaderGetMessageType_create]
  by_cases hfn : resultfn = 0
  · rw [if_pos hfn, decide_eq_false (not_not.mpr hfn)]
    rfl
  · rw [if_neg hfn, decide_eq_true hfn]
    rfl

/-- The message of a request carries the id that is drawn for it and a token
    of 6 bytes. -/
theorem mkMessage_eq (endpt : Endpoint) (code : UInt8) (resultfn : ResultFn)
    (list : Option McOptionsList) (payload : Option McBuffer) :
    ∃ token host, token.nbytes = 6 ∧
      mkMessage endpt code resultfn list payload =
        (endpt.nextid,
          mcMessageInit messageVersion (if resultfn = 0 then mcNoconfirm else mcConfirm) code
            endpt.nextid token list payload,
          { (mcEndptUdpNextid endpt).2 with host := host }) ∧
      host = (rand endpt.host).2 := by
  unfold mkMessage
  by_cases hfn : resultfn = 0
  · simp only [hfn, ne_eq, not_true_eq_false, if_false, if_true]
    exact ⟨_, _, rfl, rfl, rfl⟩
  · simp only [hfn, ne_eq, not_false_eq_true, if_true, if_false]
    exact ⟨_, _, rfl, rfl, rfl⟩

/-- What the sending of that message needs to know. -/
theorem mkMessage_spec (endpt : Endpoint) (code : UInt8) (resultfn : ResultFn)
    (list : Option McOptionsList) (payload : Option McBuffer) :
    ∃ msg host, mkMessage endpt code resultfn list payload =
        (endpt.nextid, msg, { (mcEndptUdpNextid endpt).2 with host := host }) ∧
      mcMessageGetMessageId msg = endpt.nextid ∧
      mcMessageIsConfirmable msg = decide (resultfn ≠ 0) ∧
      msg.options = list ∧ msg.payload = payload ∧ msg.token.nbytes = 6 ∧
      host.sends = endpt.host.sends := by
  obtain ⟨token, host, htoken, hmade, hhost⟩ := mkMessage_eq endpt code resultfn list payload
  refine ⟨_, host, hmade, mcHeaderGetMessageId_create .., isConfirmable_request .., rfl, rfl,
    htoken, ?_⟩
  rw [hhost]
  rfl

/-- A request whose options were made and whose message was sent. -/
theorem sendMsg_eq {endpt1 : Endpoint} {addr : SockAddr} {resultfn : ResultFn} {code : UInt8}
    {uri : List UInt8} {extra list : Option McOptionsList} {payload : Option McBuffer} {host : Host}
    {msgid : UInt16} {msg : McMessage}
    (hoptions : mkOptions qsort mcUriToOptions uri addr extra endpt.host = .ok (list, host))
    (hmade : mkMessage { endpt with host := host } code resultfn list payload =
      (msgid, msg, endpt1))
    (hsent : mcEndptUdpSend endpt1 addr msg resultfn = .ok (mnDone, endpt')) :
    sendMsg qsort mcUriToOptions endpt addr resultfn code uri extra payload =
      .ok (msgid, endpt') := by
  unfold sendMsg
  rw [hoptions]
  show (mcEndptUdpSend (mkMessage { endpt with host := host } code resultfn list payload).2.2 addr
    (mkMessage { endpt with host := host } code resultfn list payload).2.1 resultfn >>= fun sent =>
      pure (if sent.1 ≠ mnDone then 0
        else (mkMessage { endpt with host := host } code resultfn list payload).1, sent.2)) = _
  rw [hmade, hsent]
  rfl

/-- A request draws an id, and sends a message that carries it. -/
theorem sendMsg_draws {addr : SockAddr} {resultfn : ResultFn} {code : UInt8} {uri : List UInt8}
    {extra : Option McOptionsList} {payload : Option McBuffer} {r : UInt16}
    (hsend : sendMsg qsort mcUriToOptions endpt addr resultfn code uri extra payload =
      .ok (r, endpt')) :
    ∃ drawn msg err, drawn.confirmq = endpt.confirmq ∧ drawn.trace = endpt.trace ∧
      drawn.nextid = (mcEndptUdpNextid endpt).2.nextid ∧
      mcMessageGetMessageId msg = endpt.nextid ∧ mcMessageIsAck (some msg) = false ∧
      mcEndptUdpSend drawn addr msg resultfn = .ok (err, endpt') := by
  obtain ⟨⟨list, host⟩, _, hrest⟩ := bind_eq_ok.mp hsend
  obtain ⟨token, host', _, hmade, _⟩ :=
    mkMessage_eq { endpt with host := host } code resultfn list payload
  simp only [hmade] at hrest
  obtain ⟨⟨err, endpt1⟩, hsent, hret⟩ := bind_eq_ok.mp hrest
  cases hret
  refine ⟨_, _, err, ?_, ?_, ?_, ?_, ?_, hsent⟩
  · rfl
  · rfl
  · rfl
  · exact mcHeaderGetMessageId_create ..
  · -- it is confirmable or not
    show (mcAck == mcHeaderGetMessageType (mcHeaderCreate _ _ _ _ _)) = false
    rw [mcHeaderGetMessageType_create]
    split
    · rfl
    · rfl

/-- What one operation can do to the queue's ids: a request draws the next
    id, and either nothing is added to the queue or one entry with that id;
    no operation gives an entry another id. -/
structure KeyStep (endpt endpt' : Endpoint) (l l' : Nodes Pending) (isRequest : Bool) : Prop where
  reps   : endpt'.confirmq.Reps l'
  nextid : endpt'.nextid =
    if isRequest then (mcEndptUdpNextid endpt).2.nextid else endpt.nextid
  ids    : (keys l').Sublist (keys l) ∨
    isRequest = true ∧ keys l' = keys l ++ [(endpt.confirmq.brk, endpt.nextid)] ∧
    ∃ dest data resultfn rest, endpt'.trace = endpt.trace ++
      .queued endpt.confirmq.brk endpt.nextid dest data resultfn :: rest

theorem sendMsg_keyStep (h : endpt.confirmq.Reps l) {addr : SockAddr} {resultfn : ResultFn}
    {code : UInt8} {uri : List UInt8} {extra : Option McOptionsList} {payload : Option McBuffer}
    {r : UInt16}
    (hsend : sendMsg qsort mcUriToOptions endpt addr resultfn code uri extra payload =
      .ok (r, endpt')) : ∃ l', KeyStep endpt endpt' l l' true := by
  obtain ⟨drawn, msg, err, hqueue, htrace, hnextid, hid, _, hsent⟩ := sendMsg_draws hsend
  have hreps : drawn.confirmq.Reps l := by
    rw [hqueue]
    exact h
  have hsends := mcEndptUdpSend_spec hreps hsent
  rcases hcon : mcMessageIsConfirmable msg with _ | _
  · obtain ⟨hqueue', hnextid', _⟩ := hsends.non hcon
    refine ⟨l, ?_, hnextid'.trans hnextid, Or.inl (List.Sublist.refl _)⟩
    rw [hqueue']
    exact hreps
  · obtain ⟨v, hfresh, hfirst⟩ := hsends.con hcon
    by_cases herr : err = mnDone
    · obtain ⟨hreps', htrace'⟩ := hfirst.done herr
      have hmsgid : v.msgid = endpt.nextid := hfresh.msgid.trans hid
      refine ⟨_, hreps', hfirst.nextid.trans hnextid, Or.inr ⟨rfl, ?_, ?_⟩⟩
      · rw [keys_append, hqueue]
        show keys l ++ [(_, v.msgid)] = _
        rw [hmsgid]
      · rw [htrace, hqueue, queuedEvent, hmsgid] at htrace'
        exact ⟨_, _, _, _, htrace'⟩
    · obtain ⟨hreps', _⟩ := hfirst.failed herr
      exact ⟨l, hreps', hfirst.nextid.trans hnextid, Or.inl (List.Sublist.refl _)⟩

/-- Step: the same for every operation. -/
theorem clientStep_keyStep (h : endpt.confirmq.Reps l) {op : ClientOp}
    (hstep : clientStep qsort mcUriToOptions endpt op endpt') :
    ∃ l', KeyStep endpt endpt' l l' op.isRequest := by
  cases op with
  | get addr resultfn uri extra =>
    obtain ⟨⟨r, endpt1⟩, hsend, hret⟩ := bind_eq_ok.mp hstep
    cases hret
    exact sendMsg_keyStep h hsend
  | put addr resultfn uri extra payload =>
    obtain ⟨⟨r, endpt1⟩, hsend, hret⟩ := bind_eq_ok.mp hstep
    cases hret
    exact sendMsg_keyStep h hsend
  | post addr resultfn uri extra payload =>
    obtain ⟨⟨r, endpt1⟩, hsend, hret⟩ := bind_eq_ok.mp hstep
    cases hret
    exact sendMsg_keyStep h hsend
  | delete addr resultfn uri extra =>
    obtain ⟨⟨r, endpt1⟩, hsend, hret⟩ := bind_eq_ok.mp hstep
    cases hret
    exact sendMsg_keyStep h hsend
  | recv arrival =>
    obtain ⟨⟨msg, endpt1⟩, hrecv, hret⟩ := bind_eq_ok.mp hstep
    cases hret
    have hspec := mcEndptUdpRecv_spec h hrecv
    rcases hack : mcMessageIsAck msg with _ | _
    · refine ⟨l, ?_, hspec.nextid, Or.inl (List.Sublist.refl _)⟩
      rw [(hspec.other hack).1]
      exact h
    -- an ack takes one entry out
    · obtain ⟨message, xs, a, v, ys, _, rfl, _, _, hreps, _⟩ := hspec.ack hack
      refine ⟨xs ++ ys, hreps, hspec.nextid, Or.inl ?_⟩
      exact ((List.sublist_cons_self _ _).append_left xs).map _
  | checkQueues =>
    obtain ⟨endpt1, hcheck, hpassed⟩ := mcEndptUdpCheckQueues_spec h
    have heq : Except.ok endpt1 = Except.ok endpt' := hcheck.symm.trans hstep
    cases heq
    exact ⟨_, hpassed.reps, hpassed.nextid, Or.inl (checkPass_keys _ _ _)⟩

end

/-! ## Section 4: Every run -/

/-- The number of ids that are drawn. -/
def requests (ops : List ClientOp) : Nat := (ops.filter ClientOp.isRequest).length

theorem requests_snoc (ops : List ClientOp) (op : ClientOp) :
    requests (ops ++ [op]) = requests ops + if op.isRequest then 1 else 0 := by
  unfold requests
  rw [List.filter_append, List.length_append]
  cases h : op.isRequest <;> simp [h]

section

variable (qsort : Qsort McOption) (mcUriToOptions : UriToOptions)

/-- In the run `ops` from `start`, the entry `a` was queued by the request
    that `i` others came before. -/
def QueuedBy (start : Endpoint) (ops : List ClientOp) (a : Addr) (i : Nat) : Prop :=
  ∃ before op after endpt endpt' msgid dest data resultfn rest, ops = before ++ op :: after ∧
    op.isRequest = true ∧ requests before = i ∧
    Run (clientStep qsort mcUriToOptions) start before endpt ∧
    clientStep qsort mcUriToOptions endpt op endpt' ∧
    endpt'.trace = endpt.trace ++ .queued a msgid dest data resultfn :: rest

/-- `draw a` is the number of ids that were drawn before the one of the
    entry `a`.  The queue is in the order of the draws, and each entry
    carries the id that was drawn for it. -/
structure Numbered (start : Endpoint) (ops : List ClientOp) (endpt : Endpoint)
    (l : Nodes Pending) (draw : Addr → Nat) : Prop where
  reps   : endpt.confirmq.Reps l
  nextid : endpt.nextid.toNat = idAfter start.nextid.toNat (requests ops)
  ids    : ∀ k ∈ keys l, k.2.toNat = idAfter start.nextid.toNat (draw k.1)
  drawn  : ∀ k ∈ keys l, draw k.1 < requests ops
  order  : ((keys l).map fun k => draw k.1).Pairwise (· < ·)
  queued : ∀ k ∈ keys l, QueuedBy qsort mcUriToOptions start ops k.1 (draw k.1)

end

section

variable {qsort : Qsort McOption} {mcUriToOptions : UriToOptions} {start endpt endpt' : Endpoint}
  {ops : List ClientOp} {l l' : Nodes Pending} {draw : Addr → Nat}

theorem QueuedBy.snoc {a : Addr} {i : Nat} (h : QueuedBy qsort mcUriToOptions start ops a i)
    (op : ClientOp) : QueuedBy qsort mcUriToOptions start (ops ++ [op]) a i := by
  obtain ⟨before, op', after, endpt, endpt', msgid, dest, data, resultfn, rest, rfl, hrest⟩ := h
  exact ⟨before, op', after ++ [op], endpt, endpt', msgid, dest, data, resultfn, rest,
    List.append_assoc .., hrest⟩

/-- The counter after one more operation. -/
theorem Numbered.step_nextid {op : ClientOp}
    (h : Numbered qsort mcUriToOptions start ops endpt l draw)
    (hstep : KeyStep endpt endpt' l l' op.isRequest) :
    endpt'.nextid.toNat = idAfter start.nextid.toNat (requests (ops ++ [op])) := by
  rw [hstep.nextid, requests_snoc]
  cases op.isRequest with
  | false => exact h.nextid
  | true => exact mcEndptUdpNextid_idAfter h.nextid

/-- Entries leave the queue. -/
theorem Numbered.drop {op : ClientOp} (h : Numbered qsort mcUriToOptions start ops endpt l draw)
    (hstep : KeyStep endpt endpt' l l' op.isRequest) (hsub : (keys l').Sublist (keys l)) :
    Numbered qsort mcUriToOptions start (ops ++ [op]) endpt' l' draw where
  reps := hstep.reps
  nextid := h.step_nextid hstep
  ids k hk := h.ids k (hsub.subset hk)
  drawn k hk := by
    rw [requests_snoc]
    exact Nat.lt_add_right _ (h.drawn k (hsub.subset hk))
  order := List.Pairwise.sublist (hsub.map _) h.order
  queued k hk := (h.queued k (hsub.subset hk)).snoc op

/-- An entry comes in, with the id that was just drawn. -/
theorem Numbered.push {op : ClientOp} (h : Numbered qsort mcUriToOptions start ops endpt l draw)
    (hstep : KeyStep endpt endpt' l l' op.isRequest)
    (hkeys : keys l' = keys l ++ [(endpt.confirmq.brk, endpt.nextid)])
    (hop : op.isRequest = true)
    (hby : QueuedBy qsort mcUriToOptions start (ops ++ [op]) endpt.confirmq.brk (requests ops)) :
    Numbered qsort mcUriToOptions start (ops ++ [op]) endpt' l'
      (Function.update draw endpt.confirmq.brk (requests ops)) := by
  have hold : ∀ k ∈ keys l,
      Function.update draw endpt.confirmq.brk (requests ops) k.1 = draw k.1 := fun k hk =>
    Function.update_of_ne (Nat.ne_of_lt (keys_lt h.reps hk)) _ _
  have hnew : Function.update draw endpt.confirmq.brk (requests ops) endpt.confirmq.brk =
      requests ops := Function.update_self ..
  -- what holds of the old entries and of the new one, holds of all
  have hcases : ∀ {P : Addr × UInt16 → Prop}, (∀ k ∈ keys l, P k) →
      P (endpt.confirmq.brk, endpt.nextid) → ∀ k ∈ keys l', P k := by
    intro P hall hlast k hk
    rw [hkeys] at hk
    rcases List.mem_append.mp hk with hk | hk
    · exact hall k hk
    · rw [List.mem_singleton.mp hk]
      exact hlast
  refine ⟨hstep.reps, h.step_nextid hstep, hcases ?_ ?_, hcases ?_ ?_, ?_, hcases ?_ ?_⟩
  · intro k hk
    rw [hold k hk]
    exact h.ids k hk
  · rw [hnew]
    exact h.nextid
  · intro k hk
    rw [hold k hk, requests_snoc]
    exact Nat.lt_add_right _ (h.drawn k hk)
  · rw [hnew, requests_snoc, if_pos hop]
    exact Nat.lt_succ_self _
  · -- the new entry was drawn after all the others
    have hmap : (keys l).map (fun k => Function.update draw endpt.confirmq.brk (requests ops) k.1) =
        (keys l).map fun k => draw k.1 := List.map_congr_left hold
    rw [hkeys, List.map_append, hmap, List.pairwise_append]
    refine ⟨h.order, List.pairwise_singleton _ _, ?_⟩
    intro i hi j hj
    obtain ⟨k, hk, rfl⟩ := List.mem_map.mp hi
    rw [List.map_singleton, hnew] at hj
    rw [List.mem_singleton.mp hj]
    exact h.drawn k hk
  · intro k hk
    rw [hold k hk]
    exact (h.queued k hk).snoc op
  · rw [hnew]
    exact hby

/-- Run: every entry is numbered, whatever has happened. -/
theorem run_numbered (hpos : 0 < start.nextid.toNat) (hreps : start.confirmq.Reps [])
    (hrun : Run (clientStep qsort mcUriToOptions) start ops endpt) :
    ∃ l draw, Numbered qsort mcUriToOptions start ops endpt l draw := by
  induction hrun with
  | nil =>
    refine ⟨[], fun _ => 0, hreps, ?_, ?_, ?_, List.Pairwise.nil, ?_⟩
    · have hlt := start.nextid.toNat_lt
      exact (idAfter_zero hpos (by omega)).symm
    all_goals exact fun k hk => absurd hk List.not_mem_nil
  | snoc hbefore hstep ih =>
    rename_i before endpt1 endpt2 op
    obtain ⟨l, draw, h⟩ := ih
    obtain ⟨l', hkey⟩ := clientStep_keyStep h.reps hstep
    -- entries only leave, or one comes in
    rcases hkey.ids with hsub | ⟨hop, hkeys, dest, data, resultfn, rest, htrace⟩
    · exact ⟨l', draw, h.drop hkey hsub⟩
    · have hby : QueuedBy qsort mcUriToOptions start (before ++ [op]) endpt1.confirmq.brk
          (requests before) :=
        ⟨before, op, [], endpt1, endpt2, _, dest, data, resultfn, rest, rfl, hop, rfl, hbefore,
          hstep, htrace⟩
      exact ⟨l', _, h.push hkey hkeys hop hby⟩

/-- Two entries carry the same id if and only if their draws are congruent. -/
theorem Numbered.same_id (h : Numbered qsort mcUriToOptions start ops endpt l draw)
    {x y : Addr × Pending} (hx : x ∈ l) (hy : y ∈ l) :
    x.2.msgid = y.2.msgid ↔ draw x.1 % 65535 = draw y.1 % 65535 := by
  have hidx := h.ids _ (mem_keys hx)
  have hidy := h.ids _ (mem_keys hy)
  simp only at hidx hidy
  rw [← UInt16.toNat_inj, hidx, hidy, idAfter_inj]

theorem Numbered.ascending (h : Numbered qsort mcUriToOptions start ops endpt l draw) :
    l.Pairwise fun x y => draw x.1 < draw y.1 := by
  have hmap := h.order
  rw [keys, List.map_map] at hmap
  exact List.pairwise_map.mp hmap

/-- As long as 65535 ids suffice, they are different. -/
theorem Numbered.nodup (h : Numbered qsort mcUriToOptions start ops endpt l draw)
    (hfew : requests ops ≤ 65535) : (l.map fun x => x.2.msgid).Nodup := by
  rw [List.nodup_iff_pairwise_ne, List.pairwise_map]
  refine h.ascending.imp_of_mem ?_
  intro x y hx hy hlt heq
  -- both draws are below 65535, where congruent means equal
  have hdx := h.drawn _ (mem_keys hx)
  have hdy := h.drawn _ (mem_keys hy)
  have hsame := (h.same_id hx hy).mp heq
  simp only at hdx hdy
  rw [Nat.mod_eq_of_lt (hdx.trans_le hfew), Nat.mod_eq_of_lt (hdy.trans_le hfew)] at hsame
  exact absurd hsame (Nat.ne_of_lt hlt)

end

/-- Two pending messages carry the same id if and only if a multiple of
    65535 ids was drawn in between; the first 65535 requests of a run all
    have different ids. -/
theorem pending_ids_congruent {qsort : Qsort McOption} {mcUriToOptions : UriToOptions}
    {rdsize wrsize : UInt32} {host : Host} {ops : List ClientOp} {endpt : Endpoint}
    (hrun : Run (clientStep qsort mcUriToOptions) (mcEndptUdpInit rdsize wrsize host) ops endpt) :
    ∃ (l : Nodes Pending) (draw : Addr → Nat), endpt.confirmq.Reps l ∧
      (∀ x ∈ l, QueuedBy qsort mcUriToOptions (mcEndptUdpInit rdsize wrsize host) ops x.1
        (draw x.1)) ∧
      (l.Pairwise fun x y => draw x.1 < draw y.1) ∧
      (∀ x ∈ l, ∀ y ∈ l, x.2.msgid = y.2.msgid ↔ draw x.1 % 65535 = draw y.1 % 65535) ∧
      (requests ops ≤ 65535 → (l.map fun x => x.2.msgid).Nodup) := by
  obtain ⟨l, draw, h⟩ := run_numbered (mcEndptUdpInit_nextid rdsize wrsize host)
    (mcBufferQueueInit_reps fun _ => rfl) hrun
  exact ⟨l, draw, h.reps, fun x hx => h.queued _ (mem_keys hx), h.ascending,
    fun x hx y hy => h.same_id hx hy, h.nodup⟩

/-! ## Section 5: A run in which the counter comes round -/

section

variable {qsort : Qsort McOption} {mcUriToOptions : UriToOptions} {endpt : Endpoint}
  {l : Nodes Pending}

/-- A request whose message fits into the write buffer, on an endpoint whose
    socket takes everything. -/
theorem sendMsg_taken (h : endpt.confirmq.Reps l) (htakes : ∀ n, endpt.host.sends n = mnDone)
    {addr : SockAddr} {uri : List UInt8} {list : Option McOptionsList}
    (huri : mcUriToOptions addr uri endpt.host = .ok (list, endpt.host))
    (hlist : ListEncodable list) {payload : Option McBuffer}
    (hfit : 10 + ((listBytes list).length + (payloadBytes payload).length) ≤
      endpt.wrbuffer.nbytes.toNat) (resultfn : ResultFn) (code : UInt8) :
    ∃ endpt' l', sendMsg qsort mcUriToOptions endpt addr resultfn code uri none payload =
        .ok (endpt.nextid, endpt') ∧
      endpt'.confirmq.Reps l' ∧ endpt'.nextid = (mcEndptUdpNextid endpt).2.nextid ∧
      SendFrame endpt endpt' ∧
      keys l' = keys l ++ if resultfn = 0 then [] else [(endpt.confirmq.brk, endpt.nextid)] := by
  obtain ⟨msg, host, hmade, hid, hcon, hoptions, hpayload, htoken, hsends⟩ :=
    mkMessage_spec endpt code resultfn list payload
  have hlength : (messageBytes msg).length =
      10 + ((listBytes list).length + (payloadBytes payload).length) := by
    rw [messageBytes_length, htoken, hoptions, hpayload, ← Nat.add_assoc]
    rfl
  have hreps : ({ (mcEndptUdpNextid endpt).2 with host := host } : Endpoint).confirmq.Reps l := h
  rw [← hlength] at hfit
  rw [← hoptions] at hlist
  obtain ⟨err, endpt', hsend, hsent, hframe, herr⟩ :=
    mcEndptUdpSend_fits hreps msg hlist hfit addr resultfn
  -- the datagram has at least the header, so it does not count as closed
  have hdone : err = mnDone := by
    have houtcome : host.sends host.nsends = mnDone := by
      rw [hsends]
      exact htakes _
    exact herr.trans (mnSocketSendto_done (by omega) houtcome)
  have hoptions' : mkOptions qsort mcUriToOptions uri addr none endpt.host =
      .ok (list, endpt.host) := by
    rw [mkOptions, huri]
    rfl
  rw [hdone] at hsend
  have hcode := sendMsg_eq hoptions' hmade hsend
  have hframe' : SendFrame endpt endpt' :=
    ⟨hframe.rdbuffer, hframe.wrsize, hframe.sends.trans hsends⟩
  by_cases hfn : resultfn = 0
  · obtain ⟨hqueue, hnextid, _⟩ := hsent.non (hcon.trans (by simp [hfn]))
    refine ⟨endpt', l, hcode, ?_, hnextid, hframe', ?_⟩
    · rw [hqueue]
      exact h
    · rw [if_pos hfn, List.append_nil]
  · obtain ⟨v, hfresh, _, hfirst⟩ := hsent.con (hcon.trans (by simp [hfn]))
    obtain ⟨hreps', _⟩ := hfirst.done hdone
    refine ⟨endpt', _, hcode, hreps', hfirst.nextid, hframe', ?_⟩
    rw [if_neg hfn, keys_append, ← hid, ← hfresh.msgid]
    rfl

end

/-- `coap://peer`, of which the Uri-Host and the Uri-Port are left, since
    the destination of the request has another address. -/
def peerUri : List UInt8 := [0x63, 0x6f, 0x61, 0x70, 0x3a, 0x2f, 0x2f, 0x70, 0x65, 0x65, 0x72]

def peerOptions : McOptionsList :=
  mcOptionsListInit (insertion McOption)
    [mcOptionInit 3 4 [0x70, 0x65, 0x65, 0x72], mcOptionInit 7 2 [0x16, 0x33]]

def peerUriToOptions : UriToOptions := fun _ _ host => .ok (some peerOptions, host)

/-- A get of that URI, with or without a result function. -/
def getPeer (resultfn : ResultFn) : ClientOp := .get peer resultfn peerUri none

theorem peerOptions_encodable : ListEncodable (some peerOptions) := by
  apply mcOptionsListInit_encodable
  unfold ValuesFit
  decide

theorem peerOptions_length :
    (listBytes (some peerOptions)).length + (payloadBytes none).length = 8 := by
  decide

/-- An endpoint with room for the message, and a socket that takes it. -/
structure Ready (endpt : Endpoint) (l : Nodes Pending) : Prop where
  reps  : endpt.confirmq.Reps l
  room  : endpt.wrbuffer.nbytes = 64
  takes : ∀ n, endpt.host.sends n = mnDone

theorem Ready.get {endpt : Endpoint} {l : Nodes Pending} (h : Ready endpt l) (first n : Nat)
    (hnextid : endpt.nextid.toNat = idAfter first n) (resultfn : ResultFn) :
    ∃ endpt' l', clientStep (insertion McOption) peerUriToOptions endpt (getPeer resultfn) endpt' ∧
      Ready endpt' l' ∧ endpt'.nextid.toNat = idAfter first (n + 1) ∧
      keys l' = keys l ++ if resultfn = 0 then [] else [(endpt.confirmq.brk, endpt.nextid)] := by
  have hfit : 10 + ((listBytes (some peerOptions)).length + (payloadBytes none).length) ≤
      endpt.wrbuffer.nbytes.toNat := by
    rw [h.room, peerOptions_length]
    decide
  have huri : peerUriToOptions peer peerUri endpt.host = .ok (some peerOptions, endpt.host) := rfl
  obtain ⟨endpt', l', hsend, hreps, hdrawn, hframe, hkeys⟩ :=
    sendMsg_taken h.reps h.takes huri peerOptions_encodable hfit resultfn mcGet
  refine ⟨endpt', l', bind_eq_ok.mpr ⟨_, hsend, rfl⟩, ⟨hreps, ?_, ?_⟩, ?_, hkeys⟩
  · exact hframe.wrsize.trans h.room
  · intro k
    rw [hframe.sends]
    exact h.takes k
  · rw [hdrawn]
    exact mcEndptUdpNextid_idAfter hnextid

/-- The witness: two requests that want a result, and are both pending. -/
theorem pending_ids_congruent_get :
    ∃ endpt, Run (clientStep (insertion McOption) peerUriToOptions)
        (mcEndptUdpInit 64 64 stillHost) [getPeer 9, getPeer 9] endpt ∧
      ∃ (l : Nodes Pending) (draw : Addr → Nat), endpt.confirmq.Reps l ∧
        (l.map fun x => x.2.msgid) = [1, 2] ∧
        (∀ x ∈ l, QueuedBy (insertion McOption) peerUriToOptions (mcEndptUdpInit 64 64 stillHost)
          [getPeer 9, getPeer 9] x.1 (draw x.1)) ∧
        (l.Pairwise fun x y => draw x.1 < draw y.1) ∧
        (∀ x ∈ l, ∀ y ∈ l, x.2.msgid = y.2.msgid ↔ draw x.1 % 65535 = draw y.1 % 65535) ∧
        (requests [getPeer 9, getPeer 9] ≤ 65535 → (l.map fun x => x.2.msgid).Nodup) := by
  have hready : Ready (mcEndptUdpInit 64 64 stillHost) [] :=
    ⟨mcBufferQueueInit_reps fun _ => rfl, rfl, fun _ => rfl⟩
  obtain ⟨endpt1, l1, hfirst, hready1, hnext1, hkeys1⟩ := hready.get 1 0 rfl 9
  obtain ⟨endpt2, l2, hsecond, hready2, _, hkeys2⟩ := hready1.get 1 1 hnext1 9
  have hrun : Run (clientStep (insertion McOption) peerUriToOptions)
      (mcEndptUdpInit 64 64 stillHost) [getPeer 9, getPeer 9] endpt2 :=
    Run.cons hfirst (Run.single hsecond)
  obtain ⟨l, draw, hreps, hqueued, hascending, hcongruent, hfew⟩ := pending_ids_congruent hrun
  refine ⟨endpt2, hrun, l, draw, hreps, ?_, hqueued, hascending, hcongruent, hfew⟩
  have hid : endpt1.nextid = 2 := UInt16.toNat_inj.mp hnext1
  rw [hreps.unique hready2.reps, ids_of_keys, hkeys2, hkeys1, hid]
  rfl

/-- Requests that want no result draw ids, and leave the queue alone. -/
theorem Ready.gets {endpt : Endpoint} {l : Nodes Pending} (h : Ready endpt l) {first n : Nat}
    (hnextid : endpt.nextid.toNat = idAfter first n) (m : Nat) :
    ∃ endpt' l', Run (clientStep (insertion McOption) peerUriToOptions) endpt
        (List.replicate m (getPeer 0)) endpt' ∧
      Ready endpt' l' ∧ endpt'.nextid.toNat = idAfter first (n + m) ∧ keys l' = keys l := by
  induction m with
  | zero => exact ⟨endpt, l, Run.nil, h, hnextid, rfl⟩
  | succ m ih =>
    obtain ⟨endpt1, l1, hrun, hready, hnext, hkeys⟩ := ih
    obtain ⟨endpt2, l2, hstep, hready', hnext', hkeys'⟩ := hready.get first (n + m) hnext 0
    rw [if_pos rfl, List.append_nil] at hkeys'
    refine ⟨endpt2, l2, ?_, hready', hnext', hkeys'.trans hkeys⟩
    rw [List.replicate_succ']
    exact hrun.snoc hstep

/-- A request that wants a result, 65534 that do not, and one more that
    does: the two pending messages carry the same id. -/
theorem pending_ids_collide :
    ∃ endpt l, Run (clientStep (insertion McOption) peerUriToOptions)
        (mcEndptUdpInit 64 64 stillHost)
        (getPeer 9 :: (List.replicate 65534 (getPeer 0) ++ [getPeer 9])) endpt ∧
      endpt.confirmq.Reps l ∧ ¬ (l.map fun x => x.2.msgid).Nodup := by
  have hready : Ready (mcEndptUdpInit 64 64 stillHost) [] :=
    ⟨mcBufferQueueInit_reps fun _ => rfl, rfl, fun _ => rfl⟩
  obtain ⟨endpt1, l1, hfirst, hready1, hnext1, hkeys1⟩ := hready.get 1 0 rfl 9
  obtain ⟨endpt2, l2, hidle, hready2, hnext2, hkeys2⟩ := hready1.gets hnext1 65534
  obtain ⟨endpt3, l3, hlast, hready3, _, hkeys3⟩ := hready2.get 1 (0 + 1 + 65534) hnext2 9
  -- 65535 ids have been drawn
  have hround : endpt2.nextid = 1 := UInt16.toNat_inj.mp (hnext2.trans (by decide))
  have hids : l3.map (fun x => x.2.msgid) = [1, 1] := by
    rw [ids_of_keys, hkeys3, hkeys2, hkeys1, hround]
    rfl
  refine ⟨endpt3, l3, Run.cons hfirst (hidle.snoc hlast), hready3.reps, ?_⟩
  rw [hids]
  decide

/-! ## Section 6: Every id of a run -/

/-- What `n` calls of `mc_endpt_udp_nextid` return, and the endpoint after
    them. -/
def nextids : Nat → Endpoint → List UInt16 × Endpoint
  | 0, endpt => ([], endpt)
  | n + 1, endpt =>
    let (msgid, endpt) := mcEndptUdpNextid endpt
    let (msgids, endpt) := nextids n endpt
    (msgid :: msgids, endpt)

theorem idAfter_succ {first : Nat} (hpos : 0 < first) (n : Nat) :
    idAfter (idAfter first 1) n = idAfter first (n + 1) := by
  unfold idAfter
  omega

/-- Run: the counter and the ids, by the number of calls. -/
theorem nextids_idAfter {endpt : Endpoint} (hpos : endpt.nextid ≠ 0) (n : Nat) :
    (nextids n endpt).2.nextid.toNat = idAfter endpt.nextid.toNat n ∧
      (nextids n endpt).1.map UInt16.toNat =
        (List.range n).map (idAfter endpt.nextid.toNat) := by
  induction n generalizing endpt with
  | zero =>
    have hfirst : 0 < endpt.nextid.toNat :=
      Nat.pos_of_ne_zero fun h0 => hpos (UInt16.toNat_inj.mp h0)
    exact ⟨(idAfter_zero hfirst (Nat.le_of_lt_succ endpt.nextid.toNat_lt)).symm, rfl⟩
  | succ n ih =>
    have hfirst : 0 < endpt.nextid.toNat :=
      Nat.pos_of_ne_zero fun h0 => hpos (UInt16.toNat_inj.mp h0)
    have hzero := idAfter_zero hfirst (Nat.le_of_lt_succ endpt.nextid.toNat_lt)
    -- the call in front of the others
    have hstep := mcEndptUdpNextid_idAfter (n := 0) hzero.symm
    have hne : (mcEndptUdpNextid endpt).2.nextid ≠ 0 := by
      intro h0
      rw [h0] at hstep
      exact absurd hstep (Nat.succ_ne_zero _).symm
    obtain ⟨hcounter, hids⟩ := ih hne
    rw [hstep] at hcounter hids
    constructor
    · exact hcounter.trans (idAfter_succ hfirst n)
    · show endpt.nextid.toNat ::
        (nextids n (mcEndptUdpNextid endpt).2).1.map UInt16.toNat = _
      rw [hids, List.range_succ_eq_map, List.map_cons, List.map_map, hzero]
      congr 1
      apply List.map_congr_left
      intro i _
      exact idAfter_succ hfirst i

theorem nextids_length (n : Nat) (endpt : Endpoint) : (nextids n endpt).1.length = n := by
  induction n generalizing endpt with
  | zero => rfl
  | succ n ih => exact congrArg Nat.succ (ih _)

/-- From a counter that is not 0: no id is 0, the counter never becomes 0,
    and two ids are equal if and only if a multiple of 65535 calls lies
    between them; so 65535 ids in a row are distinct. -/
theorem ids_repeat_iff {endpt : Endpoint} (hpos : endpt.nextid ≠ 0) (n : Nat) :
    (nextids n endpt).2.nextid ≠ 0 ∧ (∀ msgid ∈ (nextids n endpt).1, msgid ≠ 0) ∧
      (∀ (i j : Nat) (hi : i < (nextids n endpt).1.length) (hj : j < (nextids n endpt).1.length),
        (nextids n endpt).1[i] = (nextids n endpt).1[j] ↔ i % 65535 = j % 65535) ∧
      ∀ k, (((nextids n endpt).1.drop k).take 65535).Nodup := by
  obtain ⟨hcounter, hids⟩ := nextids_idAfter hpos n
  have hat : ∀ (i : Nat) (hi : i < (nextids n endpt).1.length),
      (nextids n endpt).1[i].toNat = idAfter endpt.nextid.toNat i := by
    intro i hi
    have hget := congrArg (fun l => l[i]?) hids
    simp only [List.getElem?_map, List.getElem?_eq_getElem hi] at hget
    rw [nextids_length] at hi
    simpa [hi] using hget
  have hequal : ∀ (i j : Nat) (hi : i < (nextids n endpt).1.length)
      (hj : j < (nextids n endpt).1.length),
      (nextids n endpt).1[i] = (nextids n endpt).1[j] ↔ i % 65535 = j % 65535 := by
    intro i j hi hj
    rw [← UInt16.toNat_inj, hat i hi, hat j hj]
    exact idAfter_inj
  refine ⟨?_, ?_, hequal, ?_⟩
  · intro h0
    rw [h0] at hcounter
    exact absurd hcounter (Nat.succ_ne_zero _).symm
  · intro msgid hmem h0
    obtain ⟨i, hi, rfl⟩ := List.getElem_of_mem hmem
    have hid := hat i hi
    rw [h0] at hid
    exact absurd hid (Nat.succ_ne_zero _).symm
  · intro k
    apply List.pairwise_iff_getElem.mpr
    intro i j hi hj hij hsame
    have hlast := hj
    rw [List.length_take, List.length_drop] at hlast
    simp only [List.getElem_take, List.getElem_drop] at hsame
    have hmod := (hequal _ _ (by omega) (by omega)).mp hsame
    omega

/-- The witness: the endpoint as it is initialized. -/
theorem ids_repeat_iff_init :
    (∀ msgid ∈ (nextids 70000 (mcEndptUdpInit 64 64 stillHost)).1, msgid ≠ 0) ∧
      ∀ k, (((nextids 70000 (mcEndptUdpInit 64 64 stillHost)).1.drop k).take 65535).Nodup := by
  have hpos : (mcEndptUdpInit 64 64 stillHost).nextid ≠ 0 := by decide
  obtain ⟨_, hids, _, hwindow⟩ := ids_repeat_iff hpos 70000
  exact ⟨hids, hwindow⟩

end Mcoap
