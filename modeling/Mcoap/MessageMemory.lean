import Mcoap.Lib.Lockstep
import Mcoap.Storage

/-! # Reading a message into memory

    `mc_options_list_from_buffer` and `mc_message_from_buffer` on the blocks
    of `Mcoap.Storage`.

    The decoder allocates as it reads.  On values it has been translated in
    `Mcoap.Options` and `Mcoap.Message`; here are the same functions with
    their blocks, and the two keep step.

    * `optionsFromBuffer_lockstep`, `payloadFromBuffer_lockstep`: the loop
      over the options, and the end of a message;
    * `MessageTaken`: what an accepted message is made of, and what is lost;
    * `message_decoded`: the decoder in memory reads, writes and rejects as
      the one on values; what it accepts lies in new blocks, all of which
      `mc_message_deinit` gives back, but for the message itself, and for a
      list that was made for a message without options. -/

namespace Mcoap

open ByteMem ByteProg Blocks StableSort

/-! ## Section 1: The functions -/

/-- A step in memory between two accesses of the buffer. -/
def inMemory {α : Type} (x : Except Fault α) : Code α :=
  match x with
  | .ok a => return a
  | .error _ => Prog.abort

@[simp] theorem inMemory_bind {α β : Type} (a : α) (f : α → Code β) :
    (inMemory (.ok a) >>= f) = f a := rfl

namespace Memory

/-- Read the option at a place of the array; whether it succeeded. -/
def optionFromBuffer (options : Option Ptr) (ioption : Nat) (nbytes : UInt32) (prevnum : UInt16)
    (bpos : UInt32) (mem : Memory) : Code (Bool × UInt32 × Memory) := do
  if nbytes < 1 then
    return (false, bpos, mem)
  else
    let (byte, bpos) ← mcBufferNextUint8 bpos
    let delta := byte >>> 4
    let len := byte &&& 0x0f
    let (optnum, bpos) ← optionNumFromBuffer delta bpos
    let optnum := optnum + prevnum
    let (optlen, bpos) ← optionNumFromBuffer len bpos
    let (optbytes, bpos) := mcBufferNextPtr nbytes optlen.toUInt32 bpos
    let data ← Mcoap.msCopyUint8 optlen.toUInt32 optbytes
    let option ← inMemory (mem.loadOption options ioption)
    -- `mc_option_init` with a copy of the bytes
    let (option, mem) ← inMemory (mem.initOption (.copied optnum data) option)
    let mem ← inMemory (mem.storeOption options ioption option)
    return (true, bpos, mem)

/-- The calls of `option_from_buffer`: `n` of them are left, the next one is
    for the place `ioption`. -/
def optionsFromBuffer (options : Option Ptr) (nbytes : UInt32) :
    Nat → Nat → UInt16 → UInt32 → Memory → Code (Bool × UInt32 × Memory)
  | 0, _, _, bpos, mem => return (true, bpos, mem)
  | n + 1, ioption, prevnum, bpos, mem => do
    let (ok, bpos, mem) ← optionFromBuffer options ioption nbytes prevnum bpos mem
    if ok then
      let current ← inMemory (mem.loadOption options ioption)
      optionsFromBuffer options nbytes n (ioption + 1) current.optionNum bpos mem
    else
      return (false, bpos, mem)

/-- Into a list that was allocated before.  Without options null is returned,
    and the list is not used. -/
def mcOptionsListFromBuffer (mem : Memory) (qsort : Qsort OptionCell) (list : Option Ptr)
    (nbytes bpos : UInt32) : Code (Option Ptr × UInt32 × Memory) := do
  let noptions ← countOptions nbytes bpos
  if noptions = 0 then
    return (none, bpos, mem)
  else
    let (options, mem) := mem.mcOptionNalloc noptions
    let (ok, bpos, mem) ← optionsFromBuffer options nbytes noptions.toNat 0 0 bpos mem
    if ok then
      let (list, mem) ← inMemory (mem.mcOptionsListInit qsort list noptions options)
      return (list, bpos, mem)
    else
      return (none, bpos, mem)

end Memory

namespace Storage

/-- The end of `mc_message_from_buffer`; whether it succeeded. -/
def payloadFromBuffer (message : Ptr) (nbytes bpos : UInt32) (st : Storage) :
    Code (Bool × UInt32 × Storage) := do
  let remaining := nbytes - bpos
  if remaining > 1 then
    let marker ← Prog.readByte bpos.toNat
    if marker ≠ 0xff then
      return (false, bpos, st)
    else
      let bpos := bpos + 1
      let pllen := remaining - 1
      let (payload, st) ← inMemory (st.newBuffer pllen (List.replicate pllen.toNat 0))
      let st ← inMemory (st.setMessage message fun cell => { cell with payload := some payload })
      -- `mc_buffer_copy_to` into the new buffer, which has room
      if copyFits pllen 0 nbytes bpos pllen then
        let data ← Prog.readBytes bpos.toNat pllen.toNat
        let cell ← inMemory (st.loadBuffer payload)
        let mem ← inMemory (st.mem.storeBytes cell.bytes data)
        return (true, bpos + pllen, { st with mem := mem })
      else
        return (false, bpos, st)
  else
    return (true, bpos, st)

/-- Into a message that was allocated before; null for a buffer that is
    rejected. -/
def mcMessageFromBuffer (st : Storage) (qsort : Qsort OptionCell) (message : Ptr)
    (nbytes bpos : UInt32) : Code (Option Ptr × UInt32 × Storage) := do
  if nbytes < 4 then
    return (none, bpos, st)
  else
    let (word, bpos) ← mcBufferNextUint32 bpos
    let header := msSwapU32 word
    let st ← inMemory (st.setMessage message fun cell => { cell with header := header })
    let tklen := (mcHeaderGetTokenLength header).toUInt32
    let (tkdata, bpos) := mcBufferNextPtr nbytes tklen bpos
    let data ← msCopyUint8 tklen tkdata
    let (token, st) ← inMemory (st.newBuffer tklen data)
    let st ← inMemory (st.setMessage message fun cell => { cell with token := some token })
    let (list, mem) := st.mem.mcOptionsListAlloc
    let (options, bpos, mem) ← mem.mcOptionsListFromBuffer qsort list nbytes bpos
    let st ← inMemory (({ st with mem := mem } : Storage).setMessage message
      fun cell => { cell with options := options })
    let (ok, bpos, st) ← st.payloadFromBuffer message nbytes bpos
    return (if ok then some message else none, bpos, st)

end Storage

/-! ## Section 2: Options -/

section

open Memory

variable {mem mem' : Memory} {options : Option Ptr} {filled blanks : List OptionCell}
  {blank : OptionCell} {os : List Wire.Opt} {ps : List Ptr} {nbytes bpos : UInt32}

/-- Both have read one option, and it is in its place. -/
def OptionTaken (mem : Memory) (options : Option Ptr) (filled blanks : List OptionCell)
    (ps : List Ptr) (r : Bool × UInt32 × Memory) (v : Option McOption × UInt32) : Prop :=
  r.1 = true ∧ r.2.1 = v.2 ∧ ∃ option cell, v.1 = some option ∧
    cell.optionNum = option.optionNum ∧ OptionAt r.2.2 cell option.wire ∧
    ArrayAt r.2.2 options (filled ++ cell :: blanks) ∧
    Owned r.2.2.store (arrayBlocks options (filled ++ cell :: blanks) ++ ps) ∧
    Same ((filled ++ blanks).filterMap OptionCell.bytes ++ ps) mem.store r.2.2.store

/-- The option goes to the first blank place. -/
theorem optionFromBuffer_lockstep (hpos : ¬ nbytes < 1) (prevnum : UInt16)
    (harr : ArrayAt mem options (filled ++ blank :: blanks)) (hblank : blank.bytes = none)
    (h : Owned mem.store (arrayBlocks options (filled ++ blank :: blanks) ++ ps)) :
    Lockstep (OptionTaken mem options filled blanks ps)
      (Memory.optionFromBuffer options filled.length nbytes prevnum bpos mem)
      (Mcoap.optionFromBuffer nbytes prevnum bpos) := by
  have hperm := (arrayBlocks_perm options filled blanks blank).append_right ps
  rw [hblank, Option.toList_none, List.nil_append] at hperm
  unfold Memory.optionFromBuffer Mcoap.optionFromBuffer
  rw [if_neg hpos, if_neg hpos]
  apply Lockstep.bind (Lockstep.self _)
  rintro ⟨byte, p1⟩ _ rfl
  apply Lockstep.bind (Lockstep.self _)
  rintro ⟨optnum, p2⟩ _ rfl
  apply Lockstep.bind (Lockstep.self _)
  rintro ⟨optlen, p3⟩ _ rfl
  simp only [mcBufferNextPtr_eq]
  apply Lockstep.bind (Lockstep.readBytes _ _)
  rintro data _ ⟨rfl, hlen⟩
  -- what is left is done in memory
  have hsmall : data.length < 2 ^ 32 := hlen ▸ optlen.toUInt32.toNat_lt
  obtain ⟨cell, mem1, hinit, hat1, hown1, hsame1⟩ :=
    initOption_owned (.copied (optnum + prevnum) data) hsmall hblank (h.perm hperm)
  have harr1 := harr.same (hsame1.subset (options_subset options (filled ++ blanks) ps))
  obtain ⟨mem', hstore, harr', hown', hsame'⟩ := storeOption_owned harr1 hown1
  simp only [harr.load, inMemory_bind, hinit, hstore]
  refine Lockstep.pure ⟨rfl, rfl, _, cell, rfl, ?_, ?_, harr', hown', ?_⟩
  · exact UInt16.toNat_inj.mp hat1.num
  · have hat' := hat1.same (hsame'.subset (List.subset_append_left _ _))
    rw [McOption.wire_init _ hlen.symm]
    exact hat'
  · have hrest : (filled ++ blanks).filterMap OptionCell.bytes ++ ps ⊆
        arrayBlocks options (filled ++ blanks) ++ ps := by
      rw [arrayBlocks, List.append_assoc]
      exact List.subset_append_right _ _
    exact (hsame1.subset hrest).trans (hsame'.subset (List.subset_append_right _ _))

/-- Both have read the options, and they are in the array. -/
def OptionsTaken (mem : Memory) (options : Option Ptr) (count : Nat) (os : List Wire.Opt)
    (ps : List Ptr) (r : Bool × UInt32 × Memory) (v : Option (List McOption) × UInt32) : Prop :=
  r.1 = true ∧ r.2.1 = v.2 ∧ ∃ opts cells, v.1 = some opts ∧ cells.length = count ∧
    ArrayAt r.2.2 options cells ∧
    List.Forall₂ (OptionAt r.2.2) cells (os ++ wireOptions opts) ∧
    Owned r.2.2.store (arrayBlocks options cells ++ ps) ∧ Same ps mem.store r.2.2.store

/-- The loop: by induction on the blank places, behind those that are filled. -/
theorem optionsFromBuffer_lockstep (hpos : ¬ nbytes < 1) (prevnum : UInt16)
    (harr : ArrayAt mem options (filled ++ blanks)) (hblanks : ∀ c ∈ blanks, c.bytes = none)
    (hfilled : List.Forall₂ (OptionAt mem) filled os)
    (h : Owned mem.store (arrayBlocks options (filled ++ blanks) ++ ps)) :
    Lockstep (OptionsTaken mem options (filled.length + blanks.length) os ps)
      (Memory.optionsFromBuffer options nbytes blanks.length filled.length prevnum bpos mem)
      (Mcoap.optionsFromBuffer nbytes blanks.length prevnum bpos) := by
  induction blanks generalizing filled os prevnum bpos mem with
  | nil =>
    rw [List.append_nil] at harr h
    exact Lockstep.pure ⟨rfl, rfl, [], filled, rfl, rfl, harr, by simpa [wireOptions] using hfilled, h,
      Same.refl _ _⟩
  | cons blank blanks ih =>
    rw [List.length_cons, Memory.optionsFromBuffer, Mcoap.optionsFromBuffer]
    apply Lockstep.bind
      (optionFromBuffer_lockstep hpos prevnum harr (hblanks blank List.mem_cons_self) h)
    rintro ⟨ok, p1, mem1⟩ ⟨current, p2⟩ ⟨rfl, rfl, option, cell, rfl, hnum, hat, harr1, hown1, hsame1⟩
    have hload := harr1.load
    rw [List.append_cons] at harr1 hown1
    have hold : Same (filled.filterMap OptionCell.bytes) mem.store mem1.store := by
      apply hsame1.subset
      rw [List.filterMap_append, List.append_assoc]
      exact List.subset_append_left _ _
    have hfilled1 : List.Forall₂ (OptionAt mem1) (filled ++ [cell]) (os ++ [option.wire]) :=
      List.rel_append (optionsAt_same hfilled hold) (List.Forall₂.cons hat List.Forall₂.nil)
    have hnext : filled.length + 1 = (filled ++ [cell]).length := by
      rw [List.length_append, List.length_singleton]
    simp only [if_true, hload, inMemory_bind, hnum, hnext]
    apply Lockstep.map_right (ih option.optionNum harr1
      (fun c hc => hblanks c (List.mem_cons_of_mem blank hc)) hfilled1 hown1)
    rintro ⟨ok, p3, mem'⟩ ⟨rest, p4⟩
      ⟨rfl, rfl, opts, cells, rfl, hcount, harr', hcells, hown', hsame'⟩
    rw [List.append_assoc] at hcells
    have hlen : cells.length = filled.length + (blanks.length + 1) := by omega
    exact ⟨rfl, rfl, option :: opts, cells, rfl, hlen, harr', hcells, hown',
      (hsame1.subset (List.subset_append_right _ _)).trans hsame'⟩

/-- What a stable sort makes of an array, by number. -/
theorem init_byNumber {qsort : Qsort McOption} (hqsort : qsort.Stable) (options : List McOption) :
    wireOptions (mcOptionsListInit qsort options).options = byNumber (wireOptions options) :=
  (inNumberOrder_init hqsort options).unique (byNumber_inNumberOrder _)

/-- Both have read the list; without options the new list is lost. -/
def ListTaken (mem : Memory) (ps : List Ptr) (r : Option Ptr × UInt32 × Memory)
    (v : Option McOptionsList × UInt32) : Prop :=
  r.2.1 = v.2 ∧ ∃ qs lost,
    ListOwns r.2.2 r.1 (v.1.map fun list => wireOptions list.options) qs ∧
    lost.length = (if v.1.isNone then 1 else 0) ∧
    Owned r.2.2.store (qs ++ (lost ++ ps)) ∧ Same ps mem.store r.2.2.store

theorem mcOptionsListFromBuffer_lockstep {q : Qsort OptionCell} {qsort : Qsort McOption}
    (hq : q.Stable) (hqsort : qsort.Stable) (hpos : ¬ nbytes < 1) {p : Ptr} {list : ListCell}
    (hlist : mem.store.blocks p = some (.list list)) (h : Owned mem.store (p :: ps)) :
    Lockstep (ListTaken mem ps) (mem.mcOptionsListFromBuffer q (some p) nbytes bpos)
      (Mcoap.mcOptionsListFromBuffer qsort nbytes bpos) := by
  unfold Memory.mcOptionsListFromBuffer Mcoap.mcOptionsListFromBuffer
  apply Lockstep.bind (Lockstep.self _)
  rintro noptions _ rfl
  by_cases hzero : noptions = 0
  · rw [if_pos hzero, if_pos hzero]
    exact Lockstep.pure ⟨rfl, [], [p], ListOwns.null, rfl, h, Same.refl _ _⟩
  · rw [if_neg hzero, if_neg hzero]
    obtain ⟨options, mem1, hnew⟩ : ∃ options mem1, mem.mcOptionNalloc noptions = (options, mem1) :=
      ⟨_, _, rfl⟩
    obtain ⟨blanks, hblanks, hnone, harr1, hown1, hsame1⟩ := nalloc_owned h hnew
    simp only [hnew]
    rw [← hblanks]
    rw [← List.nil_append blanks] at harr1 hown1
    apply Lockstep.bind (optionsFromBuffer_lockstep hpos 0 harr1 hnone List.Forall₂.nil hown1)
    rintro ⟨ok, p1, mem2⟩ ⟨opts, p2⟩
      ⟨rfl, rfl, opts, cells, rfl, hcount, harr2, hcells, hown2, hsame2⟩
    rw [List.nil_append] at hcells
    have hlen : noptions.toNat = (wireOptions opts).length := by
      rw [← hcells.length_eq, hcount, hblanks, List.length_nil, Nat.zero_add]
    have hlist2 : mem2.store.blocks p = some (.list list) :=
      (hsame2 p List.mem_cons_self).trans ((hsame1 p List.mem_cons_self).trans hlist)
    obtain ⟨mem', qs, hinit, howns, hown', hsame'⟩ :=
      init_owned hq harr2.withNone (by simp) hcells hlen hlist2 (hown2.perm List.perm_middle)
    simp only [if_true, hinit, inMemory_bind]
    refine Lockstep.pure ⟨rfl, qs, [], ?_, rfl, hown', ?_⟩
    · show ListOwns mem' (some p) (some (wireOptions (mcOptionsListInit qsort opts).options)) qs
      rw [init_byNumber hqsort]
      exact howns
    · have hsame12 := hsame1.trans hsame2
      exact (hsame12.subset (List.subset_cons_self p ps)).trans hsame'

end

/-! ## Section 3: The payload -/

section

variable {st : Storage} {locs : List Loc} {message : Ptr} {cell : MessageCell} {nbytes bpos : UInt32}

/-- Both have read the payload, if there is one; or both reject it. -/
def PayloadTaken (st : Storage) (locs : List Loc) (message : Ptr) (cell : MessageCell)
    (r : Bool × UInt32 × Storage) (v : Option (Option McBuffer) × UInt32) : Prop :=
  r.2.1 = v.2 ∧ r.1 = v.1.isSome ∧ ∀ payload, v.1 = some payload → ∃ ptr ls,
    r.2.2.structs.blocks message = some (.message { cell with payload := ptr }) ∧
    BufferOwns r.2.2 ptr (payload.map McBuffer.toList) ls ∧
    r.2.2.Owned (ls ++ (.struct message :: locs)) ∧ Storage.Same locs st r.2.2

theorem payloadFromBuffer_lockstep (hblock : st.structs.blocks message = some (.message cell))
    (hnull : cell.payload = none) (h : st.Owned (.struct message :: locs)) :
    Lockstep (PayloadTaken st locs message cell) (st.payloadFromBuffer message nbytes bpos)
      (Mcoap.payloadFromBuffer nbytes bpos) := by
  unfold Storage.payloadFromBuffer Mcoap.payloadFromBuffer
  have hreject : ∀ st' p, PayloadTaken st locs message cell (false, p, st') (none, p) :=
    fun st' p => ⟨rfl, rfl, by simp⟩
  by_cases hleft : nbytes - bpos > 1
  · simp only [if_pos hleft]
    apply Lockstep.bind (Lockstep.self _)
    rintro marker _ rfl
    by_cases hmarker : marker ≠ 0xff
    · rw [if_pos hmarker, if_pos hmarker]
      exact Lockstep.pure (hreject _ _)
    · rw [if_neg hmarker, if_neg hmarker]
      have hzeros : (nbytes - bpos - 1).toNat =
          (List.replicate (nbytes - bpos - 1).toNat (0 : UInt8)).length :=
        List.length_replicate.symm
      obtain ⟨payload, st1, ls, hnew, hbuffer, hown1, hsame1⟩ := newBuffer_owned h hzeros
      have hfirst : (ls ++ (.struct message :: locs)).Perm (.struct message :: (ls ++ locs)) :=
        List.perm_middle
      obtain ⟨st2, hset, hblock2, _, hown2, hsame2⟩ := setMessage_owned (hsame1.struct hblock)
        (hown1.perm hfirst) fun cell => { cell with payload := some payload }
      have hbuffer2 := hbuffer.same (hsame2.subset (List.subset_append_left _ _))
      simp only [hnew, inMemory_bind, hset, mcBufferCopyFrom]
      by_cases hfits : copyFits (nbytes - bpos - 1) 0 nbytes (bpos + 1) (nbytes - bpos - 1) = true
      · simp only [hfits, if_true, bind_assoc]
        apply Lockstep.bind (Lockstep.readBytes _ _)
        rintro data _ ⟨rfl, hlen⟩
        obtain ⟨c, mem', hload, hstore, hfilled, hown', hsame3⟩ :=
          fillBuffer_owned hbuffer2 (hzeros.symm.trans hlen.symm) (hown2.perm hfirst.symm)
        have hbs : (McBuffer.mk (nbytes - bpos - 1)
            (blit (ofList []) (0 : UInt32).toNat data)).toList = data := by
          rw [McBuffer.toList, ← hlen]
          exact slice_of_holds (holds_blit _ _ _)
        simp only [hload, inMemory_bind, hstore]
        refine Lockstep.pure ⟨rfl, rfl, ?_⟩
        intro value hvalue
        cases hvalue
        refine ⟨some payload, ls, hblock2, ?_, hown', ?_⟩
        · rw [Option.map_some, hbs]
          exact hfilled
        · have hold := hsame1.subset (List.subset_cons_self _ locs)
          have hset' := hsame2.subset (List.subset_append_right ls locs)
          exact (hold.trans hset').trans (hsame3.subset (List.subset_cons_self _ locs))
      · simp only [hfits]
        exact Lockstep.pure (hreject _ _)
  · simp only [if_neg hleft]
    refine Lockstep.pure ⟨rfl, rfl, ?_⟩
    intro value hvalue
    cases hvalue
    refine ⟨none, [], ?_, BufferOwns.null, h, Storage.Same.refl _ _⟩
    rw [hblock, ← hnull]

end

/-! ## Section 4: The message -/

/-- The message behind a pointer, and the blocks it points to. -/
def MessageAt (st : Storage) (message : Ptr) (msg : McMessage) (ls : List Loc) : Prop :=
  ∃ cell, st.structs.blocks message = some (.message cell) ∧ MessageOwns st cell msg ls

/-- The list that is allocated for a message and not used if it has no
    options. -/
def unusedLists (msg : McMessage) : Nat := if msg.options.isNone then 1 else 0

/-- Both have read the message, or both reject it. -/
def MessageTaken (st : Storage) (locs : List Loc) (message : Ptr)
    (r : Option Ptr × UInt32 × Storage) (v : Option McMessage × UInt32) : Prop :=
  r.2.1 = v.2 ∧ r.1 = v.1.map (fun _ => message) ∧ ∀ msg, v.1 = some msg →
    msg.fromAddr = none ∧ ∃ ls lost, MessageAt r.2.2 message msg ls ∧
      lost.length = unusedLists msg ∧
      r.2.2.Owned (ls ++ (.struct message :: (lost ++ locs))) ∧ Storage.Same locs st r.2.2

section

variable {st : Storage} {locs : List Loc} {message : Ptr} {cell : MessageCell}
  {nbytes bpos : UInt32} {q : Qsort OptionCell} {qsort : Qsort McOption}

/-- What `mc_message_from_buffer` does after the token. -/
theorem afterToken_lockstep {header tklen : UInt32} {data : List UInt8} {ls : List Loc}
    (hq : q.Stable) (hqsort : qsort.Stable) (hpos : ¬ nbytes < 1)
    (hcount : tklen.toNat = data.length)
    (hblock : st.structs.blocks message = some (.message cell)) (hheader : cell.header = header)
    (htoken : BufferOwns st cell.token (some data) ls) (hpayload : cell.payload = none)
    (haddr : cell.fromAddr = none) (h : st.Owned (.struct message :: (ls ++ locs))) :
    Lockstep (MessageTaken st locs message)
      (do
        let (list, mem) := st.mem.mcOptionsListAlloc
        let (options, bpos, mem) ← mem.mcOptionsListFromBuffer q list nbytes bpos
        let st ← inMemory (({ st with mem := mem } : Storage).setMessage message
          fun cell => { cell with options := options })
        let (ok, bpos, st) ← st.payloadFromBuffer message nbytes bpos
        return (if ok then some message else none, bpos, st))
      (do
        let (options, bpos) ← Mcoap.mcOptionsListFromBuffer qsort nbytes bpos
        let (payload, bpos) ← Mcoap.payloadFromBuffer nbytes bpos
        match payload with
        | none => return (none, bpos)
        | some payload => return (some ⟨header, ⟨tklen, ofList data⟩, options, payload, none⟩, bpos)) := by
  obtain ⟨_, mem1, halloc, hlist, hmem1, hsame1⟩ := listAlloc_owned h.mem
  simp only [halloc]
  apply Lockstep.bind (mcOptionsListFromBuffer_lockstep hq hqsort hpos hlist hmem1)
  rintro ⟨options, p1, mem2⟩ ⟨list, p2⟩ ⟨rfl, qs, lost, howns, hlost, hmem2, hsame2⟩
  rw [← List.append_assoc] at hmem2
  have hown2 := @Storage.Owned.withMem st mem2 _ [] (qs ++ lost) h hmem2
  have hkept2 := Storage.same_withMem (hsame1.trans hsame2)
  -- the message in front, for the store that sets its options
  have hfirst : ((qs ++ lost).map Loc.mem ++ (.struct message :: (ls ++ locs))).Perm
      (.struct message :: (qs.map Loc.mem ++ (lost.map Loc.mem ++ (ls ++ locs)))) := by
    rw [List.map_append, List.append_assoc, List.perm_iff_count]
    intro a
    simp only [List.count_append, List.count_cons]
    omega
  obtain ⟨st3, hset, hblock3, _, hown3, hsame3⟩ := setMessage_owned (hkept2.struct hblock)
    (hown2.perm hfirst) fun cell => { cell with options := options }
  simp only [hset, inMemory_bind]
  apply Lockstep.bind (payloadFromBuffer_lockstep hblock3 hpayload hown3)
  rintro ⟨ok, p3, st'⟩ ⟨payload, p4⟩ ⟨rfl, hok, htaken⟩
  simp only at hok
  subst hok
  cases payload with
  | none => exact Lockstep.pure ⟨rfl, rfl, fun msg hmsg => by cases hmsg⟩
  | some payload =>
    obtain ⟨ptr, pls, hblock', hpl, hown', hsame'⟩ := htaken payload rfl
    refine Lockstep.pure ⟨rfl, rfl, ?_⟩
    intro msg hmsg
    cases hmsg
    have hkept : Storage.Same (ls ++ locs) st st' := by
      have hold := hkept2.subset (List.subset_cons_self _ _)
      have hrest : ls ++ locs ⊆ qs.map Loc.mem ++ (lost.map Loc.mem ++ (ls ++ locs)) :=
        List.subset_append_of_subset_right _ (List.subset_append_right _ _)
      exact (hold.trans (hsame3.subset hrest)).trans (hsame'.subset hrest)
    have hlists : Storage.Same (qs.map Loc.mem) { st with mem := mem2 } st' :=
      (hsame3.subset (List.subset_append_left _ _)).trans
        (hsame'.subset (List.subset_append_left _ _))
    have hdata : (McBuffer.mk tklen (ofList data)).toList = data := by
      rw [McBuffer.toList, hcount, slice_ofList]
    refine ⟨rfl, ls ++ (qs.map Loc.mem ++ (pls ++ [])), lost.map Loc.mem, ⟨_, hblock',
      MessageOwns.parts hheader ?_ (listOwns_same howns hlists) hpl ?_⟩, ?_, hown'.perm ?_,
      hkept.subset (List.subset_append_right _ _)⟩
    · rw [hdata]
      exact htoken.same (hkept.subset (List.subset_append_left _ _))
    · show AddrOwns st' cell.fromAddr none []
      rw [haddr]
      exact AddrOwns.null
    · rw [List.length_map, hlost]
      rfl
    · rw [List.perm_iff_count]
      intro a
      simp only [List.count_append, List.count_cons, List.count_nil]
      omega

/-- The whole of it. -/
theorem mcMessageFromBuffer_lockstep (hq : q.Stable) (hqsort : qsort.Stable)
    (hblock : st.structs.blocks message = some (.message ⟨0, none, none, none, none⟩))
    (h : st.Owned (.struct message :: locs)) :
    Lockstep (MessageTaken st locs message) (st.mcMessageFromBuffer q message nbytes bpos)
      (Mcoap.mcMessageFromBuffer qsort nbytes bpos) := by
  unfold Storage.mcMessageFromBuffer Mcoap.mcMessageFromBuffer
  by_cases hshort : nbytes < 4
  · rw [if_pos hshort, if_pos hshort]
    exact Lockstep.pure ⟨rfl, rfl, fun msg hmsg => by cases hmsg⟩
  · rw [if_neg hshort, if_neg hshort]
    have hpos : ¬ nbytes < 1 := by
      rw [UInt32.lt_iff_toNat_lt] at hshort ⊢
      have h4 : (4 : UInt32).toNat = 4 := rfl
      have h1 : (1 : UInt32).toNat = 1 := rfl
      omega
    apply Lockstep.bind (Lockstep.self _)
    rintro ⟨word, p1⟩ _ rfl
    obtain ⟨st1, hset1, hblock1, _, hown1, hsame1⟩ := setMessage_owned hblock h
      fun cell => { cell with header := msSwapU32 word }
    simp only [hset1, inMemory_bind, mcBufferNextPtr_eq]
    apply Lockstep.bind (Lockstep.readBytes _ _)
    rintro data _ ⟨rfl, hlen⟩
    obtain ⟨token, st2, ls, hnew, htoken, hown2, hsame2⟩ := newBuffer_owned hown1 hlen.symm
    obtain ⟨st3, hset3, hblock3, _, hown3, hsame3⟩ := setMessage_owned (hsame2.struct hblock1)
      (hown2.perm List.perm_middle) fun cell => { cell with token := some token }
    have htoken3 := htoken.same (hsame3.subset (List.subset_append_left _ _))
    simp only [hnew, inMemory_bind, hset3]
    apply (afterToken_lockstep hq hqsort hpos hlen.symm hblock3 rfl htoken3 rfl rfl hown3).mono
    rintro r v ⟨hbpos, hptr, htaken⟩
    refine ⟨hbpos, hptr, fun msg hmsg => ?_⟩
    obtain ⟨haddr, ls', lost, hat, hlost, hown', hsame'⟩ := htaken msg hmsg
    have hold := hsame2.subset (List.subset_cons_self _ locs)
    exact ⟨haddr, ls', lost, hat, hlost, hown',
      ((hsame1.trans hold).trans (hsame3.subset (List.subset_append_right _ _))).trans hsame'⟩

end

/-! ## Section 5: Read and given up -/

section

variable {st : Storage} {locs : List Loc} {q : Qsort OptionCell} {qsort : Qsort McOption}

theorem mcMessageAlloc_owned (h : st.Owned locs) : ∃ message st',
    st.mcMessageAlloc = (message, st') ∧
    st'.structs.blocks message = some (.message ⟨0, none, none, none, none⟩) ∧
    st'.Owned (.struct message :: locs) ∧ Storage.Same locs st st' := by
  obtain ⟨hown, hsame⟩ := h.allocStruct (.message ⟨0, none, none, none, none⟩)
  exact ⟨_, _, rfl, st.structs.alloc_self _, hown, hsame⟩

theorem MessageAt.released {message : Ptr} {msg : McMessage} {ls : List Loc}
    (hat : MessageAt st message msg ls) (h : st.Owned (ls ++ (.struct message :: locs))) :
    ∃ st', st.releaseMessage message = .ok st' ∧ st'.Owned (.struct message :: locs) ∧
      Storage.Same locs st st' := by
  obtain ⟨cell, hblock, howns⟩ := hat
  exact releaseMessage_owned hblock howns h

end

/-- Whatever the buffer holds, the decoder in memory reads and writes as the
    one on values, does not return if that one does not, and rejects what
    that one rejects.  A message it accepts lies in new blocks and holds what
    it should.  Once it has been given up all of them are free again, but for
    the block of the message, and for a list if it had no options. -/
theorem message_decoded {q : Qsort OptionCell} {qsort : Qsort McOption} (hq : q.Stable)
    (hqsort : qsort.Stable) {st st1 : Storage} {locs : List Loc} {message : Ptr}
    (h : st.Owned locs) (halloc : st.mcMessageAlloc = (message, st1)) (nbytes : UInt32) (m : Mem)
    (s : Supply UInt16) {decoded : Outcome UInt16 (Option Ptr × UInt32 × Storage)}
    {onValues : Outcome UInt16 (Option McMessage × UInt32)}
    (hmemory : run (st1.mcMessageFromBuffer q message nbytes 0) m s = decoded)
    (hvalues : run (mcMessageFromBuffer qsort nbytes 0) m s = onValues) :
    decoded.mem = onValues.mem ∧ decoded.trace = onValues.trace ∧
    (decoded.value = none ↔ onValues.value = none) ∧
    (∀ bpos, onValues.value = some (none, bpos) →
      ∃ st2, decoded.value = some (none, bpos, st2)) ∧
    ∀ msg bpos, onValues.value = some (some msg, bpos) → ∃ st2 ls lost,
      decoded.value = some (some message, bpos, st2) ∧ MessageAt st2 message msg ls ∧
      st2.Owned (ls ++ (.struct message :: (lost ++ locs))) ∧
      lost.length = unusedLists msg ∧ ∃ st3, st2.releaseMessage message = .ok st3 ∧
        st3.Owned (.struct message :: (lost ++ locs)) ∧ Storage.Same locs st st3 := by
  obtain ⟨_, _, halloc', hblock, hown1, hsame1⟩ := mcMessageAlloc_owned h
  cases halloc'.symm.trans halloc
  have hstep : Lockstep (MessageTaken st1 locs message)
      (st1.mcMessageFromBuffer q message nbytes 0) (mcMessageFromBuffer qsort nbytes 0) :=
    mcMessageFromBuffer_lockstep hq hqsort hblock hown1
  obtain ⟨hmem, _, htrace, hvalue⟩ := hstep.run m s
  rw [hmemory, hvalues] at hmem htrace hvalue
  refine ⟨hmem, htrace, ?_, ?_, ?_⟩
  · generalize decoded.value = value at hvalue ⊢
    generalize onValues.value = value' at hvalue ⊢
    cases hvalue with
    | some => simp
    | none => simp
  · intro bpos hrejected
    rw [hrejected] at hvalue
    generalize decoded.value = value at hvalue ⊢
    cases hvalue with
    | @some r _ htaken =>
      obtain ⟨ptr, p, st2⟩ := r
      obtain ⟨hp, hptr, _⟩ := htaken
      cases hp
      cases hptr
      exact ⟨st2, rfl⟩
  · intro msg bpos haccepted
    rw [haccepted] at hvalue
    generalize decoded.value = value at hvalue ⊢
    cases hvalue with
    | @some r _ htaken =>
      obtain ⟨ptr, p, st2⟩ := r
      obtain ⟨hp, hptr, hmsg⟩ := htaken
      cases hp
      cases hptr
      obtain ⟨_, ls, lost, hat, hlost, hown2, hsame2⟩ := hmsg msg rfl
      obtain ⟨st3, hrelease, hown3, hsame3⟩ := hat.released hown2
      exact ⟨st2, ls, lost, rfl, hat, hown2, hlost, st3, hrelease, hown3,
        (hsame1.trans hsame2).trans (hsame3.subset (List.subset_append_right lost locs))⟩

/-- Nothing is allocated yet. -/
def noStorage (nullEmpty : Bool) : Storage := ⟨⟨Store.empty, nullEmpty⟩, Store.empty⟩

theorem noStorage_owned (nullEmpty : Bool) : (noStorage nullEmpty).Owned [] :=
  ⟨owned_empty, owned_empty⟩

/-- The witness: a response with a token of two bytes, an option and a
    payload; only the block of the message is left of it. -/
theorem message_decoded_response : ∃ st2 st3 msg ls,
    (run ((noStorage true).mcMessageAlloc.2.mcMessageFromBuffer (insertion OptionCell) 0 10 0)
      (ofList [0x52, 0x45, 0x12, 0x34, 0xaa, 0xbb, 0xb1, 0x78, 0xff, 0x61]) fun _ => 0).value =
        some (some 0, 10, st2) ∧
    MessageAt st2 0 msg ls ∧ st2.Owned (ls ++ [.struct 0]) ∧
    msg.token.toList = [0xaa, 0xbb] ∧ bytesOf msg.payload = [0x61] ∧
    wireOptions (listOptions msg.options) = [⟨11, [0x78]⟩] ∧
    st2.releaseMessage 0 = .ok st3 ∧ st3.Owned [.struct 0] := by
  obtain ⟨_, _, _, _, haccepted⟩ := message_decoded (insertion_stable OptionCell)
    (insertion_stable McOption) (noStorage_owned true) rfl 10
    (ofList [0x52, 0x45, 0x12, 0x34, 0xaa, 0xbb, 0xb1, 0x78, 0xff, 0x61]) (fun _ => 0) rfl rfl
  obtain ⟨st2, ls, lost, hvalue, hat, hown, hlost, st3, hrelease, hown', _⟩ := haccepted _ 10 rfl
  obtain rfl : lost = [] := List.length_eq_zero_iff.mp (hlost.trans rfl)
  exact ⟨st2, st3, _, ls, hvalue, hat, hown, rfl, rfl, rfl, hrelease, hown'⟩

end Mcoap
