import Mcoap.RoundTrip
import Mcoap.OptionOwnership

/-! # Messages in memory

    `mcoap/mc_buffer.c` and `mcoap/mc_message.c` on the blocks that `calloc`
    gives out and `free` takes back.

    `Mcoap.Message` has the same functions on values.  Here a message holds
    pointers to its token, its options, its payload and the address it came
    from, and each of them is a block, or several.

    * `Storage`: the blocks; `Loc`: one of them;
    * `Storage.Owned`: an account of all blocks, `Storage.Same`: blocks that
      are left alone;
    * `BufferOwns`, `MessageOwns`: what is behind a pointer, and the blocks it
      is made of;
    * `newBuffer_owned`, `releaseBuffer_owned`, `mcMessageDeinit_owned`: one
      lemma for each function. -/

namespace Mcoap

open ByteMem Blocks

/-! ## Section 1: Blocks -/

/-- `mc_buffer_t` as it lies in memory. -/
structure BufferCell where
  nbytes : UInt32
  bytes  : Option Ptr
  deriving DecidableEq, Repr

/-- `mc_message_t` as it lies in memory. -/
structure MessageCell where
  header   : UInt32
  token    : Option Ptr
  options  : Option Ptr
  payload  : Option Ptr
  fromAddr : Option Ptr
  deriving DecidableEq, Repr

/-- A block that holds one structure. -/
inductive Struct where
  | buffer (cell : BufferCell)
  | sockaddr (addr : SockAddr)
  | message (cell : MessageCell)
  deriving DecidableEq, Repr

/-- The blocks of a program.  Bytes, arrays of options and lists lie in `mem`,
    the structures in a store of their own: a pointer to one is never taken
    for a pointer to the other. -/
structure Storage where
  mem     : Memory
  structs : Store Struct

/-- A block, by the store it lies in. -/
inductive Loc where
  | mem (p : Ptr)
  | struct (p : Ptr)
  deriving DecidableEq, Repr

def Loc.inMem : Loc → Option Ptr
  | .mem p => some p
  | .struct _ => none

def Loc.inStructs : Loc → Option Ptr
  | .mem _ => none
  | .struct p => some p

/-- `memcpy` to the front of a block of bytes. -/
def Memory.storeBytes (mem : Memory) (ptr : Option Ptr) (bs : List UInt8) : Except Fault Memory :=
  match ptr with
  | none => if bs = [] then .ok mem else .error .nullDeref
  | some p =>
    match mem.store.blocks p with
    | some (.bytes old) =>
      if bs.length ≤ old.length then
        .ok { mem with store := mem.store.store p (.bytes (bs ++ old.drop bs.length)) }
      else .error .outOfBounds
    | _ => .error .dangling

/-! ## Section 2: The functions -/

namespace Storage

/-- `calloc` of one structure, and what is put into it. -/
def allocStruct (st : Storage) (struct : Struct) : Ptr × Storage :=
  ((st.structs.alloc struct).1, { st with structs := (st.structs.alloc struct).2 })

def freeStruct (st : Storage) (ptr : Option Ptr) : Except Fault Storage :=
  match ptr with
  | none => .ok st
  | some p =>
    if (st.structs.blocks p).isSome then .ok { st with structs := st.structs.free p }
    else .error .dangling

def loadBuffer (st : Storage) (buffer : Ptr) : Except Fault BufferCell :=
  match st.structs.blocks buffer with
  | some (.buffer cell) => .ok cell
  | _ => .error .dangling

def loadMessage (st : Storage) (message : Ptr) : Except Fault MessageCell :=
  match st.structs.blocks message with
  | some (.message cell) => .ok cell
  | _ => .error .dangling

/-- Set fields of the message behind a pointer. -/
def setMessage (st : Storage) (message : Ptr) (f : MessageCell → MessageCell) :
    Except Fault Storage := do
  let cell ← st.loadMessage message
  return { st with structs := st.structs.store message (.message (f cell)) }

def mcBufferAlloc (st : Storage) : Ptr × Storage := st.allocStruct (.buffer ⟨0, none⟩)

def mcBufferInit (st : Storage) (buffer : Ptr) (nbytes : UInt32) (bytes : Option Ptr) :
    Except Fault Storage := do
  let _ ← st.loadBuffer buffer
  return { st with structs := st.structs.store buffer (.buffer ⟨nbytes, bytes⟩) }

/-- Free the contents of a buffer. -/
def mcBufferDeinit (st : Storage) (buffer : Ptr) : Except Fault Storage := do
  let cell ← st.loadBuffer buffer
  let mem ← st.mem.msFree cell.bytes
  return { mem := mem, structs := st.structs.store buffer (.buffer ⟨0, none⟩) }

/-- `ms_free(mc_buffer_deinit(buffer))` -/
def releaseBuffer (st : Storage) (buffer : Ptr) : Except Fault Storage := do
  let st ← st.mcBufferDeinit buffer
  st.freeStruct (some buffer)

/-- `mc_buffer_init(mc_buffer_alloc(), nbytes, bytes)`, where `bytes` is a new
    block of that size. -/
def newBuffer (st : Storage) (nbytes : UInt32) (bs : List UInt8) : Except Fault (Ptr × Storage) := do
  let (buffer, st) := st.mcBufferAlloc
  let (bytes, mem) := st.mem.allocate (nbytes = 0) (.bytes bs)
  let st ← ({ st with mem := mem } : Storage).mcBufferInit buffer nbytes bytes
  return (buffer, st)

def mcMessageAlloc (st : Storage) : Ptr × Storage :=
  st.allocStruct (.message ⟨0, none, none, none, none⟩)

/-- `ms_free(mc_options_list_deinit(list))` -/
def releaseList (st : Storage) (list : Ptr) : Except Fault Storage := do
  let mem ← st.mem.releaseList (some list)
  return { st with mem := mem }

/-- Unless the pointer is null. -/
def ifAny (ptr : Option Ptr) (f : Storage → Ptr → Except Fault Storage) (st : Storage) :
    Except Fault Storage :=
  match ptr with
  | none => .ok st
  | some p => f st p

/-- Free what a message points to; the message is left. -/
def mcMessageDeinit (st : Storage) (message : MessageCell) :
    Except Fault (MessageCell × Storage) := do
  let st ← ifAny message.token releaseBuffer st
  let st ← ifAny message.options releaseList st
  let st ← ifAny message.payload releaseBuffer st
  let st ← st.freeStruct message.fromAddr
  return (⟨message.header, none, none, none, none⟩, st)

/-- `ms_free(mc_message_deinit(message))`, the way a message that was received
    is given up everywhere. -/
def releaseMessage (st : Storage) (message : Ptr) : Except Fault Storage := do
  let cell ← st.loadMessage message
  let (cell, st) ← st.mcMessageDeinit cell
  let st ← st.setMessage message fun _ => cell
  -- `mc_message_deinit` returns 0: the block of the message is not freed
  st.freeStruct none

end Storage

/-! ## Section 3: The account of all blocks -/

/-- The list names the blocks that are there, each once. -/
structure Storage.Owned (st : Storage) (locs : List Loc) : Prop where
  mem     : Blocks.Owned st.mem.store (locs.filterMap Loc.inMem)
  structs : Blocks.Owned st.structs (locs.filterMap Loc.inStructs)

/-- These blocks hold what they held. -/
structure Storage.Same (locs : List Loc) (st st' : Storage) : Prop where
  mem     : Blocks.Same (locs.filterMap Loc.inMem) st.mem.store st'.mem.store
  structs : Blocks.Same (locs.filterMap Loc.inStructs) st.structs st'.structs

section

variable {st st' st'' : Storage} {mem' : Memory} {locs locs' : List Loc} {ps qs : List Ptr} {p : Ptr}
  {s : Struct}

theorem inMem_append (ps : List Ptr) (locs : List Loc) :
    (ps.map Loc.mem ++ locs).filterMap Loc.inMem = ps ++ locs.filterMap Loc.inMem := by
  induction ps with
  | nil => rfl
  | cons p ps ih => exact congrArg (p :: ·) ih

theorem inStructs_append (ps : List Ptr) (locs : List Loc) :
    (ps.map Loc.mem ++ locs).filterMap Loc.inStructs = locs.filterMap Loc.inStructs := by
  induction ps with
  | nil => rfl
  | cons p ps ih => exact ih

theorem Storage.Owned.perm (h : st.Owned locs) (hp : locs.Perm locs') : st.Owned locs' :=
  ⟨h.mem.perm (hp.filterMap _), h.structs.perm (hp.filterMap _)⟩

theorem Storage.Same.refl (locs : List Loc) (st : Storage) : Storage.Same locs st st :=
  ⟨Blocks.Same.refl _ _, Blocks.Same.refl _ _⟩

theorem Storage.Same.trans (h : Storage.Same locs st st') (h' : Storage.Same locs st' st'') :
    Storage.Same locs st st'' :=
  ⟨h.mem.trans h'.mem, h.structs.trans h'.structs⟩

theorem Storage.Same.subset (h : Storage.Same locs st st') (hsub : locs' ⊆ locs) :
    Storage.Same locs' st st' :=
  ⟨h.mem.subset (List.filterMap_subset _ hsub), h.structs.subset (List.filterMap_subset _ hsub)⟩

/-- The account of the bytes, the arrays and the lists. -/
theorem Storage.Owned.onMem (h : st.Owned (ps.map Loc.mem ++ locs)) :
    Blocks.Owned st.mem.store (ps ++ locs.filterMap Loc.inMem) :=
  inMem_append ps locs ▸ h.mem

/-- A step on them is a step of the whole. -/
theorem Storage.Owned.withMem (h : st.Owned (ps.map Loc.mem ++ locs))
    (hown : Blocks.Owned mem'.store (qs ++ locs.filterMap Loc.inMem)) :
    ({ st with mem := mem' } : Storage).Owned (qs.map Loc.mem ++ locs) := by
  constructor
  · rw [inMem_append]
    exact hown
  · have hstructs := h.structs
    rw [inStructs_append] at hstructs ⊢
    exact hstructs

theorem Storage.same_withMem
    (hsame : Blocks.Same (locs.filterMap Loc.inMem) st.mem.store mem'.store) :
    Storage.Same locs st { st with mem := mem' } :=
  ⟨hsame, Blocks.Same.refl _ _⟩

theorem Storage.Owned.allocStruct (h : st.Owned locs) (s : Struct) :
    (st.allocStruct s).2.Owned (.struct st.structs.brk :: locs) ∧
      Storage.Same locs st (st.allocStruct s).2 :=
  ⟨⟨h.mem, h.structs.alloc s⟩,
    ⟨Blocks.Same.refl _ _, h.structs.same_of_extends (extends_alloc _ _)⟩⟩

theorem Storage.Owned.storeStruct (h : st.Owned (.struct p :: locs)) (s : Struct) :
    ({ st with structs := st.structs.store p s } : Storage).Owned (.struct p :: locs) ∧
      Storage.Same locs st { st with structs := st.structs.store p s } :=
  ⟨⟨h.mem, h.structs.store p s⟩, ⟨Blocks.Same.refl _ _, h.structs.same_of_store s⟩⟩

theorem Storage.Owned.freeStruct (h : st.Owned (.struct p :: locs)) :
    ∃ st', st.freeStruct (some p) = .ok st' ∧ st'.Owned locs ∧ Storage.Same locs st st' := by
  obtain ⟨s, hblock⟩ := h.structs.block (List.mem_cons_self ..)
  refine ⟨{ st with structs := st.structs.free p }, ?_, ⟨h.mem, h.structs.free⟩,
    ⟨Blocks.Same.refl _ _, h.structs.same_of_free⟩⟩
  rw [Storage.freeStruct, hblock]
  rfl

/-- A structure that is left alone. -/
theorem Storage.Same.struct (h : Storage.Same (.struct p :: locs) st st')
    (hblock : st.structs.blocks p = some s) : st'.structs.blocks p = some s :=
  (h.structs p List.mem_cons_self).trans hblock

end

/-! ## Section 4: What is behind a pointer -/

/-- The bytes in a block of their own, or the null pointer for none. -/
def BytesAt (mem : Memory) (ptr : Option Ptr) (bs : List UInt8) : Prop :=
  ptr = none ∧ bs = [] ∨ ∃ p, ptr = some p ∧ mem.store.blocks p = some (.bytes bs)

/-- The buffer that a pointer names, the bytes it holds, and its blocks. -/
inductive BufferOwns (st : Storage) : Option Ptr → Option (List UInt8) → List Loc → Prop where
  | null : BufferOwns st none none []
  | buffer {p : Ptr} {cell : BufferCell} {bs : List UInt8}
      (block : st.structs.blocks p = some (.buffer cell)) (count : cell.nbytes.toNat = bs.length)
      (bytes : BytesAt st.mem cell.bytes bs) :
      BufferOwns st (some p) (some bs) (.struct p :: cell.bytes.toList.map Loc.mem)

/-- The address that a pointer names, and its block. -/
inductive AddrOwns (st : Storage) : Option Ptr → Option SockAddr → List Loc → Prop where
  | null : AddrOwns st none none []
  | addr {p : Ptr} {addr : SockAddr} (block : st.structs.blocks p = some (.sockaddr addr)) :
      AddrOwns st (some p) (some addr) [.struct p]

/-- The message whose pointers these are, and the blocks behind them. -/
inductive MessageOwns (st : Storage) (cell : MessageCell) (msg : McMessage) : List Loc → Prop where
  | parts {tokens payloads addrs : List Loc} {lists : List Ptr} (header : cell.header = msg.header)
      (token : BufferOwns st cell.token (some msg.token.toList) tokens)
      (options : ListOwns st.mem cell.options
        (msg.options.map fun list => wireOptions list.options) lists)
      (payload : BufferOwns st cell.payload (msg.payload.map McBuffer.toList) payloads)
      (source : AddrOwns st cell.fromAddr msg.fromAddr addrs) :
      MessageOwns st cell msg (tokens ++ (lists.map Loc.mem ++ (payloads ++ addrs)))

section

variable {st st' : Storage} {mem mem' : Memory} {locs ls : List Loc} {ps qs : List Ptr} {p : Ptr}
  {ptr : Option Ptr} {bs : List UInt8} {v : Option (List UInt8)} {cell : MessageCell}
  {msg : McMessage} {addr : Option SockAddr}

theorem BytesAt.same (h : BytesAt mem ptr bs)
    (hsame : Blocks.Same ptr.toList mem.store mem'.store) : BytesAt mem' ptr bs := by
  obtain hnull | ⟨p, rfl, hblock⟩ := h
  · exact Or.inl hnull
  · exact Or.inr ⟨p, rfl, (hsame p (List.mem_singleton_self p)).trans hblock⟩

theorem BytesAt.load {nbytes : Nat} (h : BytesAt mem ptr bs) (hcount : nbytes = bs.length) :
    mem.load ptr nbytes = .ok bs := by
  obtain ⟨rfl, rfl⟩ | ⟨p, rfl, hblock⟩ := h
  · simp [Memory.load, hcount]
  · simp [Memory.load, hblock, hcount]

theorem toList_inMem (ptr : Option Ptr) :
    (ptr.toList.map Loc.mem).filterMap Loc.inMem = ptr.toList := by
  cases ptr <;> rfl

theorem BufferOwns.same (h : BufferOwns st ptr v ls) (hsame : Storage.Same ls st st') :
    BufferOwns st' ptr v ls := by
  cases h with
  | null => exact BufferOwns.null
  | buffer hblock hcount hbytes =>
    refine BufferOwns.buffer (hsame.struct hblock) hcount (hbytes.same ?_)
    exact toList_inMem _ ▸ hsame.mem

theorem AddrOwns.same (h : AddrOwns st ptr addr ls) (hsame : Storage.Same ls st st') :
    AddrOwns st' ptr addr ls := by
  cases h with
  | null => exact AddrOwns.null
  | addr hblock => exact AddrOwns.addr (hsame.struct hblock)

theorem listOwns_same {w : Option (List Wire.Opt)} (h : ListOwns st.mem ptr w ps)
    (hsame : Storage.Same (ps.map Loc.mem) st st') : ListOwns st'.mem ptr w ps := by
  apply h.same
  have hmem := hsame.mem
  rw [← List.append_nil (ps.map Loc.mem), inMem_append, List.filterMap_nil, List.append_nil] at hmem
  exact hmem

theorem MessageOwns.same (h : MessageOwns st cell msg ls) (hsame : Storage.Same ls st st') :
    MessageOwns st' cell msg ls := by
  obtain ⟨hheader, htoken, hoptions, hpayload, hsource⟩ := h
  have hrest := hsame.subset (List.subset_append_right _ _)
  have hends := hrest.subset (List.subset_append_right _ _)
  exact MessageOwns.parts hheader (htoken.same (hsame.subset (List.subset_append_left _ _)))
    (listOwns_same hoptions (hrest.subset (List.subset_append_left _ _)))
    (hpayload.same (hends.subset (List.subset_append_left _ _)))
    (hsource.same (hends.subset (List.subset_append_right _ _)))

/-! ## Section 5: What the functions do to the account -/

/-- A new buffer is made of new blocks. -/
theorem newBuffer_owned (h : st.Owned locs) {nbytes : UInt32} (hcount : nbytes.toNat = bs.length) :
    ∃ p st' ls, st.newBuffer nbytes bs = .ok (p, st') ∧ BufferOwns st' (some p) (some bs) ls ∧
      st'.Owned (ls ++ locs) ∧ Storage.Same locs st st' := by
  obtain ⟨hown1, hsame1⟩ := h.allocStruct (.buffer ⟨0, none⟩)
  obtain ⟨bytes, mem', halloc, _, hcases⟩ := st.mem.allocate_spec (nbytes = 0) (.bytes bs)
  obtain ⟨hmem, hsame2⟩ := allocate_owned hown1.mem halloc
  have hown2 := @Storage.Owned.withMem _ mem' _ [] bytes.toList hown1 hmem
  have hbytes : BytesAt mem' bytes bs := by
    obtain ⟨hnull, hempty⟩ | ⟨hptr, hstore⟩ := hcases
    · have hzero : nbytes = 0 := of_decide_eq_true hempty
      rw [hzero] at hcount
      exact Or.inl ⟨hnull, List.length_eq_zero_iff.mp hcount.symm⟩
    · refine Or.inr ⟨_, hptr, ?_⟩
      rw [hstore]
      exact st.mem.store.alloc_self _
  -- the structure in front, for the store that sets its fields
  have hfirst : (bytes.toList.map Loc.mem ++ (.struct st.structs.brk :: locs)).Perm
      (.struct st.structs.brk :: (bytes.toList.map Loc.mem ++ locs)) := List.perm_middle
  obtain ⟨hown3, hsame3⟩ := (hown2.perm hfirst).storeStruct (.buffer ⟨nbytes, bytes⟩)
  have hself : (st.structs.alloc (.buffer ⟨0, none⟩)).2.blocks st.structs.brk =
      some (.buffer ⟨0, none⟩) := st.structs.alloc_self _
  refine ⟨st.structs.brk, _, .struct st.structs.brk :: bytes.toList.map Loc.mem, ?_,
    @BufferOwns.buffer _ _ ⟨nbytes, bytes⟩ _ (Store.store_self _ _ hself) hcount hbytes, hown3, ?_⟩
  · simp only [Storage.newBuffer, Storage.mcBufferAlloc, Storage.allocStruct, halloc,
      Storage.mcBufferInit, Storage.loadBuffer, Store.alloc_ptr, hself]
    rfl
  · have hold := (Storage.same_withMem hsame2).subset (List.subset_cons_self _ locs)
    exact (hsame1.trans hold).trans (hsame3.subset (List.subset_append_right _ _))

/-- The bytes are written over those that are there. -/
theorem storeBytes_owned {old : List UInt8} (hold : BytesAt mem ptr old)
    (hlen : old.length = bs.length) (h : Blocks.Owned mem.store (ptr.toList ++ ps)) :
    ∃ mem', mem.storeBytes ptr bs = .ok mem' ∧ BytesAt mem' ptr bs ∧
      Blocks.Owned mem'.store (ptr.toList ++ ps) ∧ Blocks.Same ps mem.store mem'.store := by
  obtain ⟨rfl, rfl⟩ | ⟨p, rfl, hblock⟩ := hold
  · obtain rfl := List.length_eq_zero_iff.mp hlen.symm
    exact ⟨mem, rfl, Or.inl ⟨rfl, rfl⟩, h, Blocks.Same.refl _ _⟩
  · have hdrop : bs ++ old.drop bs.length = bs := by
      rw [← hlen, List.drop_length, List.append_nil]
    refine ⟨{ mem with store := mem.store.store p (.bytes bs) }, ?_,
      Or.inr ⟨p, rfl, Store.store_self _ _ hblock⟩, h.store p _, h.same_of_store _⟩
    simp only [Memory.storeBytes, hblock, if_pos (Nat.le_of_eq hlen.symm), hdrop]

/-- A buffer is filled: it keeps its blocks. -/
theorem fillBuffer_owned {old : List UInt8} (hbuffer : BufferOwns st (some p) (some old) ls)
    (hlen : old.length = bs.length) (h : st.Owned (ls ++ locs)) :
    ∃ c mem', st.loadBuffer p = .ok c ∧ st.mem.storeBytes c.bytes bs = .ok mem' ∧
      BufferOwns { st with mem := mem' } (some p) (some bs) ls ∧
      ({ st with mem := mem' } : Storage).Owned (ls ++ locs) ∧
      Storage.Same locs st { st with mem := mem' } := by
  cases hbuffer with
  | @buffer _ c _ hblock hcount hbytes =>
    -- the bytes in front, for the copy
    have hperm : (.struct p :: c.bytes.toList.map Loc.mem ++ locs).Perm
        (c.bytes.toList.map Loc.mem ++ (.struct p :: locs)) := List.perm_middle.symm
    obtain ⟨mem', hstore, hcopied, hmem, hsame⟩ :=
      storeBytes_owned hbytes hlen (h.perm hperm).onMem
    refine ⟨c, mem', ?_, hstore, BufferOwns.buffer hblock (hcount.trans hlen) hcopied,
      ((h.perm hperm).withMem hmem).perm hperm.symm, Storage.same_withMem hsame⟩
    rw [Storage.loadBuffer, hblock]

/-- A buffer is given up with its bytes. -/
theorem releaseBuffer_owned (hbuffer : BufferOwns st (some p) v ls) (h : st.Owned (ls ++ locs)) :
    ∃ st', st.releaseBuffer p = .ok st' ∧ st'.Owned locs ∧ Storage.Same locs st st' := by
  cases hbuffer with
  | @buffer _ cell bs hblock hcount hbytes =>
    have hperm : (.struct p :: cell.bytes.toList.map Loc.mem ++ locs).Perm
        (cell.bytes.toList.map Loc.mem ++ (.struct p :: locs)) := List.perm_middle.symm
    obtain ⟨mem', hfree, hmem, hsame1⟩ := msFree_owned (h.perm hperm).onMem
    have hown1 := @Storage.Owned.withMem _ mem' _ _ [] (h.perm hperm) hmem
    obtain ⟨hown2, hsame2⟩ := hown1.storeStruct (.buffer ⟨0, none⟩)
    obtain ⟨st', hdone, hown', hsame'⟩ := hown2.freeStruct
    refine ⟨st', ?_, hown', ?_⟩
    · simp only [Storage.releaseBuffer, Storage.mcBufferDeinit, Storage.loadBuffer, hblock, bind,
        Except.bind, hfree]
      exact hdone
    · have hold := (Storage.same_withMem hsame1).subset (List.subset_cons_self (.struct p) locs)
      exact (hold.trans hsame2).trans hsame'

theorem ifAny_releaseBuffer_owned (hbuffer : BufferOwns st ptr v ls) (h : st.Owned (ls ++ locs)) :
    ∃ st', Storage.ifAny ptr Storage.releaseBuffer st = .ok st' ∧ st'.Owned locs ∧
      Storage.Same locs st st' := by
  cases ptr with
  | none =>
    cases hbuffer
    exact ⟨st, rfl, h, Storage.Same.refl _ _⟩
  | some p => exact releaseBuffer_owned hbuffer h

/-- So is a list, with its array and their bytes. -/
theorem ifAny_releaseList_owned {w : Option (List Wire.Opt)} (hlist : ListOwns st.mem ptr w ps)
    (h : st.Owned (ps.map Loc.mem ++ locs)) :
    ∃ st', Storage.ifAny ptr Storage.releaseList st = .ok st' ∧ st'.Owned locs ∧
      Storage.Same locs st st' := by
  cases ptr with
  | none =>
    cases hlist
    exact ⟨st, rfl, h, Storage.Same.refl _ _⟩
  | some p =>
    obtain ⟨mem', hrelease, hmem, hsame⟩ := release_owned hlist h.onMem
    refine ⟨{ st with mem := mem' }, ?_, @Storage.Owned.withMem _ _ _ _ [] h hmem,
      Storage.same_withMem hsame⟩
    simp only [Storage.ifAny, Storage.releaseList, hrelease]
    rfl

theorem freeAddr_owned (haddr : AddrOwns st ptr addr ls) (h : st.Owned (ls ++ locs)) :
    ∃ st', st.freeStruct ptr = .ok st' ∧ st'.Owned locs ∧ Storage.Same locs st st' := by
  cases haddr with
  | null => exact ⟨st, rfl, h, Storage.Same.refl _ _⟩
  | addr => exact h.freeStruct

/-- Fields of a message are set: only its own block is written. -/
theorem setMessage_owned (hblock : st.structs.blocks p = some (.message cell))
    (h : st.Owned (.struct p :: locs)) (f : MessageCell → MessageCell) :
    ∃ st', st.setMessage p f = .ok st' ∧ st'.structs.blocks p = some (.message (f cell)) ∧
      st'.mem = st.mem ∧ st'.Owned (.struct p :: locs) ∧ Storage.Same locs st st' := by
  obtain ⟨hown, hsame⟩ := h.storeStruct (.message (f cell))
  refine ⟨{ st with structs := st.structs.store p (.message (f cell)) }, ?_,
    Store.store_self _ _ hblock, rfl, hown, hsame⟩
  simp only [Storage.setMessage, Storage.loadMessage, hblock]
  rfl

/-- What a message points to is given up; its own block is not. -/
theorem mcMessageDeinit_owned (hmsg : MessageOwns st cell msg ls) (h : st.Owned (ls ++ locs)) :
    ∃ st', st.mcMessageDeinit cell = .ok (⟨cell.header, none, none, none, none⟩, st') ∧
      st'.Owned locs ∧ Storage.Same locs st st' := by
  obtain ⟨_, htoken, hoptions, hpayload, hsource⟩ := hmsg
  simp only [List.append_assoc] at h
  obtain ⟨st1, hfree1, hown1, hsame1⟩ := ifAny_releaseBuffer_owned htoken h
  have hoptions1 := listOwns_same hoptions (hsame1.subset (List.subset_append_left _ _))
  obtain ⟨st2, hfree2, hown2, hsame2⟩ := ifAny_releaseList_owned hoptions1 hown1
  have hsame12 := (hsame1.subset (List.subset_append_right _ _)).trans hsame2
  have hpayload2 := hpayload.same (hsame12.subset (List.subset_append_left _ _))
  obtain ⟨st3, hfree3, hown3, hsame3⟩ := ifAny_releaseBuffer_owned hpayload2 hown2
  have hsame13 := (hsame12.subset (List.subset_append_right _ _)).trans hsame3
  have hsource3 := hsource.same (hsame13.subset (List.subset_append_left _ _))
  obtain ⟨st', hfree4, hown', hsame'⟩ := freeAddr_owned hsource3 hown3
  refine ⟨st', ?_, hown', (hsame13.subset (List.subset_append_right _ _)).trans hsame'⟩
  simp only [Storage.mcMessageDeinit, hfree1, bind, Except.bind, hfree2, hfree3, hfree4]
  rfl

/-- A message that was received is given up: its own block stays. -/
theorem releaseMessage_owned (hblock : st.structs.blocks p = some (.message cell))
    (hmsg : MessageOwns st cell msg ls) (h : st.Owned (ls ++ (.struct p :: locs))) :
    ∃ st', st.releaseMessage p = .ok st' ∧ st'.Owned (.struct p :: locs) ∧
      Storage.Same locs st st' := by
  obtain ⟨st1, hdeinit, hown1, hsame1⟩ := mcMessageDeinit_owned hmsg h
  obtain ⟨st', hset, _, _, hown', hsame'⟩ := setMessage_owned (hsame1.struct hblock) hown1
    fun _ => ⟨cell.header, none, none, none, none⟩
  refine ⟨st', ?_, hown', (hsame1.subset (List.subset_cons_self _ _)).trans hsame'⟩
  simp only [Storage.releaseMessage, Storage.loadMessage, hblock, bind, Except.bind, hdeinit, hset]
  rfl

end

end Mcoap
