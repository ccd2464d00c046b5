import Mcoap.Lib.Blocks
import Mcoap.Host
import Mcoap.Encoder

/-! # Options in memory

    `mcoap/mc_option.c`, and what `mcoap/mc_options_list.c` does with arrays
    of options, on the blocks that `malloc` gives out.

    `Mcoap.Options` has the same functions on values.  Here an option holds a
    pointer to its bytes, which may be null, a list a pointer to its array,
    and every byte that is read lies in a block, or else the function does
    not return.

    * `Memory`: the blocks, and what `malloc` of nothing returns;
    * `OptionAt`: the option that lies in memory;
    * `ListAt`: the list that lies in memory;
    * `copyOption_from`, `copyOption_at`: what a copy holds. -/

namespace Mcoap

open Blocks

/-! ## Section 1: Blocks -/

/-- `mc_option_t` as it lies in memory. -/
structure OptionCell where
  optionNum : UInt16
  nbytes    : UInt32
  bytes     : Option Ptr
  deriving DecidableEq, Repr

/-- `mc_options_list_t` as it lies in memory. -/
structure ListCell where
  noptions : UInt32
  options  : Option Ptr
  deriving DecidableEq, Repr

/-- What a block holds.  Of a block of bytes these are the ones that were
    written; `ms_copy_uint16` and `ms_copy_uint32` ask for more. -/
inductive Block where
  | bytes (bs : List UInt8)
  | options (cells : List OptionCell)
  | list (cell : ListCell)
  deriving DecidableEq, Repr

/-- The blocks, and whether `malloc` and `calloc` of nothing return the null
    pointer. -/
structure Memory where
  store     : Store Block
  nullEmpty : Bool

namespace Memory

/-- `malloc` or `calloc`, and what is put into the block. -/
def allocate (mem : Memory) (empty : Bool) (block : Block) : Option Ptr × Memory :=
  if empty && mem.nullEmpty then (none, mem)
  else (some (mem.store.alloc block).1, { mem with store := (mem.store.alloc block).2 })

/-- Free the bytes of an option if there are any. -/
def msFree (mem : Memory) (ptr : Option Ptr) : Except Fault Memory :=
  match ptr with
  | none => .ok mem
  | some p =>
    if (mem.store.blocks p).isSome then .ok { mem with store := mem.store.free p }
    else .error .dangling

/-- The bytes a pointer points to, as many as are read. -/
def load (mem : Memory) (ptr : Option Ptr) (count : Nat) : Except Fault (List UInt8) :=
  match ptr with
  | none => if count = 0 then .ok [] else .error .nullDeref
  | some p =>
    match mem.store.blocks p with
    | some (.bytes bs) => if count ≤ bs.length then .ok (bs.take count) else .error .outOfBounds
    | _ => .error .dangling

/-- `*(bytes + i)`. -/
def loadByte (mem : Memory) (p : Ptr) (i : Nat) : Except Fault UInt8 :=
  match mem.store.blocks p with
  | some (.bytes bs) =>
    match bs[i]? with
    | some b => .ok b
    | none => .error .outOfBounds
  | _ => .error .dangling

/-- `options[i]`. -/
def loadOption (mem : Memory) (options : Option Ptr) (i : Nat) : Except Fault OptionCell :=
  match options with
  | none => .error .nullDeref
  | some p =>
    match mem.store.blocks p with
    | some (.options cells) =>
      match cells[i]? with
      | some cell => .ok cell
      | none => .error .outOfBounds
    | _ => .error .dangling

def storeOption (mem : Memory) (options : Option Ptr) (i : Nat) (cell : OptionCell) :
    Except Fault Memory :=
  match options with
  | none => .error .nullDeref
  | some p =>
    match mem.store.blocks p with
    | some (.options cells) =>
      if i < cells.length then
        .ok { mem with store := mem.store.store p (.options (cells.set i cell)) }
      else .error .outOfBounds
    | _ => .error .dangling

def loadList (mem : Memory) (list : Ptr) : Except Fault ListCell :=
  match mem.store.blocks list with
  | some (.list cell) => .ok cell
  | _ => .error .dangling

/-- Allocate and copy an array of uint8's. -/
def msCopyUint8 (mem : Memory) (count : UInt32) (data : Option Ptr) :
    Except Fault (Option Ptr × Memory) := do
  let bs ← mem.load data count.toNat
  return mem.allocate (count = 0) (.bytes bs)

/-! ## Section 2: One option -/

/-- Initialize an option: its old bytes are freed. -/
def mcOptionInit (mem : Memory) (option : OptionCell) (optionNum : UInt16) (nbytes : UInt32)
    (bytes : Option Ptr) : Except Fault (OptionCell × Memory) := do
  let mem ← mem.msFree option.bytes
  return (⟨optionNum, nbytes, bytes⟩, mem)

/-- Initialize an option with a number, in network order, in one, two or
    four bytes of its own. -/
def mcOptionInitUint32 (mem : Memory) (option : OptionCell) (optionNum : UInt16)
    (value : UInt32) : Except Fault (OptionCell × Memory) := do
  let mem ← mem.msFree option.bytes
  if value ≤ 0xff then
    let (bytes, mem) := mem.allocate false (.bytes [value.toUInt8])
    return (⟨optionNum, 1, bytes⟩, mem)
  else if value ≤ 0xffff then
    let (bytes, mem) := mem.allocate false (.bytes (image16 (msSwapU16 value.toUInt16)))
    return (⟨optionNum, 2, bytes⟩, mem)
  else
    let (bytes, mem) := mem.allocate false (.bytes (image32 (msSwapU32 value)))
    return (⟨optionNum, 4, bytes⟩, mem)

/-- `mc_option_copy_to` behind its null test: the bytes are copied first,
    and then those of the destination are freed. -/
def copyOption (mem : Memory) (target source : OptionCell) :
    Except Fault (OptionCell × Memory) := do
  let (bytes, mem) ← mem.msCopyUint8 source.nbytes source.bytes
  mem.mcOptionInit target source.optionNum source.nbytes bytes

/-- Copy an option to a destination option pointer. -/
def mcOptionCopyTo (mem : Memory) (target : Option OptionCell) (source : OptionCell) :
    Except Fault (Option OptionCell × Memory) :=
  match target with
  | none => return (none, mem)
  | some target => do
    let (option, mem) ← mem.copyOption target source
    return (some option, mem)

/-- The number in the bytes of an option.  Any count but 1 and 2 is taken
    for 4. -/
def mcOptionAsUint32 (mem : Memory) (option : Option OptionCell) : Except Fault UInt32 :=
  match option with
  | none => return 0
  | some option =>
    match option.bytes with
    | none => return 0
    | some p =>
      if option.nbytes = 1 then do
        let b0 ← mem.loadByte p 0
        return b0.toUInt32
      else if option.nbytes = 2 then do
        let b0 ← mem.loadByte p 0
        let b1 ← mem.loadByte p 1
        return (msSwapU16 (msWord16 b1 b0)).toUInt32
      else do
        let b0 ← mem.loadByte p 0
        let b1 ← mem.loadByte p 1
        let b2 ← mem.loadByte p 2
        let b3 ← mem.loadByte p 3
        return msSwapU32 (msWord32 b3 b2 b1 b0)

/-! ## Section 3: What a step leaves -/

/-- The bytes that were there are still there. -/
def KeepsBytes (mem mem' : Memory) : Prop :=
  ∀ p bs, mem.store.blocks p = some (.bytes bs) → mem'.store.blocks p = some (.bytes bs)

theorem keepsBytes {mem mem' : Memory} (h : Extends mem.store mem'.store) : KeepsBytes mem mem' :=
  fun p bs hp => h.kept p (.bytes bs) hp

/-- Not if the one block is an array of options. -/
theorem keepsBytes_but {mem mem' : Memory} {p : Ptr} {cells : List OptionCell}
    (h : ExtendsBut p mem.store mem'.store) (hp : mem.store.blocks p = some (.options cells)) :
    KeepsBytes mem mem' := by
  intro q bs hq
  apply h.kept q _ _ hq
  rintro rfl
  cases hp.symm.trans hq

theorem msFree_live {mem : Memory} {p : Ptr} {block : Block} (h : mem.store.blocks p = some block) :
    mem.msFree (some p) = .ok { mem with store := mem.store.free p } := by
  rw [msFree, h]
  rfl

/-- A block nobody else uses, or the null pointer for an empty one. -/
theorem allocate_spec (mem : Memory) (empty : Bool) (block : Block) :
    ∃ ptr mem', mem.allocate empty block = (ptr, mem') ∧ Extends mem.store mem'.store ∧
      (ptr = none ∧ empty = true ∨
        ptr = some mem.store.brk ∧ mem'.store = (mem.store.alloc block).2) := by
  unfold allocate
  split
  · next hnull =>
    exact ⟨_, _, rfl, Extends.refl _, Or.inl ⟨rfl, (Bool.and_eq_true_iff.mp hnull).1⟩⟩
  · exact ⟨_, _, rfl, extends_alloc _ _, Or.inr ⟨rfl, rfl⟩⟩

end Memory

/-! ## Section 4: The option that lies in memory -/

/-- The cell holds the number and the value, and its bytes are in a block
    that is not older than `lo`. -/
structure OptionFrom (lo : Ptr) (mem : Memory) (cell : OptionCell) (o : Wire.Opt) : Prop where
  num   : cell.optionNum.toNat = o.num
  count : cell.nbytes.toNat = o.value.length
  bytes : cell.bytes = none ∧ o.value = [] ∨
    ∃ p rest, cell.bytes = some p ∧ lo ≤ p ∧ mem.store.blocks p = some (.bytes (o.value ++ rest))

/-- The cell holds the number and the value. -/
def OptionAt (mem : Memory) (cell : OptionCell) (o : Wire.Opt) : Prop := OptionFrom 0 mem cell o

/-- The bytes of an option may be freed. -/
def Freeable (mem : Memory) (cell : OptionCell) : Prop :=
  ∀ p, cell.bytes = some p → (mem.store.blocks p).isSome

section

open Memory

variable {mem mem' : Memory} {lo lo' : Ptr} {cell target source : OptionCell} {o : Wire.Opt}

theorem OptionFrom.kept (h : OptionFrom lo mem cell o) (hkept : KeepsBytes mem mem') :
    OptionFrom lo mem' cell o := by
  obtain ⟨hnum, hcount, hnull | ⟨p, rest, hp, hlo, hblock⟩⟩ := h
  · exact ⟨hnum, hcount, Or.inl hnull⟩
  · exact ⟨hnum, hcount, Or.inr ⟨p, rest, hp, hlo, hkept p _ hblock⟩⟩

theorem OptionFrom.mono (h : OptionFrom lo mem cell o) (hle : lo' ≤ lo) :
    OptionFrom lo' mem cell o := by
  obtain ⟨hnum, hcount, hnull | ⟨p, rest, hp, hlo, hblock⟩⟩ := h
  · exact ⟨hnum, hcount, Or.inl hnull⟩
  · exact ⟨hnum, hcount, Or.inr ⟨p, rest, hp, Nat.le_trans hle hlo, hblock⟩⟩

theorem OptionFrom.optionAt (h : OptionFrom lo mem cell o) : OptionAt mem cell o :=
  h.mono (Nat.zero_le lo)

/-- The bytes of an option, where there is a pointer to them. -/
theorem OptionFrom.block (h : OptionFrom lo mem cell o) {p : Ptr} (hp : cell.bytes = some p) :
    lo ≤ p ∧ ∃ rest, mem.store.blocks p = some (.bytes (o.value ++ rest)) := by
  obtain ⟨_, _, ⟨hnull, _⟩ | ⟨q, rest, hq, hlo, hblock⟩⟩ := h
  · rw [hnull] at hp
    cases hp
  · rw [hq] at hp
    cases hp
    exact ⟨hlo, rest, hblock⟩

/-- The bytes of an option in a block that is not used for anything else. -/
theorem copyUint8_spec (h : OptionAt mem source o) :
    ∃ bytes mem', mem.msCopyUint8 source.nbytes source.bytes = .ok (bytes, mem') ∧
      Extends mem.store mem'.store ∧
      OptionFrom mem.store.brk mem' ⟨source.optionNum, source.nbytes, bytes⟩ o := by
  have hload : mem.load source.bytes source.nbytes.toNat = .ok o.value := by
    obtain ⟨_, hcount, ⟨hnull, hempty⟩ | ⟨p, rest, hp, _, hblock⟩⟩ := h
    · rw [hcount, hnull, hempty]
      rfl
    · simp [Memory.load, hp, hblock, hcount]
  obtain ⟨bytes, mem', hnew, hextends, hcases⟩ :=
    mem.allocate_spec (source.nbytes = 0) (.bytes o.value)
  refine ⟨bytes, mem', by rw [Memory.msCopyUint8, hload, ← hnew]; rfl, hextends, h.num, h.count, ?_⟩
  rcases hcases with ⟨hnull, hempty⟩ | ⟨hptr, hstore⟩
  · refine Or.inl ⟨hnull, ?_⟩
    have hzero : source.nbytes = 0 := of_decide_eq_true hempty
    have hcount := h.count
    rw [hzero] at hcount
    exact List.length_eq_zero_iff.mp hcount.symm
  · refine Or.inr ⟨mem.store.brk, [], hptr, Nat.le_refl _, ?_⟩
    rw [hstore, List.append_nil]
    exact mem.store.alloc_self _

/-- A copy into an option that may hold bytes already. -/
theorem copyOption_at (h : OptionAt mem source o) (hfree : Freeable mem target) :
    ∃ cell mem', mem.copyOption target source = .ok (cell, mem') ∧ OptionAt mem' cell o := by
  obtain ⟨bytes, mem1, hcopy, hextends, hfrom⟩ := copyUint8_spec h
  cases hold : target.bytes with
  | none =>
    refine ⟨⟨source.optionNum, source.nbytes, bytes⟩, mem1, ?_, hfrom.optionAt⟩
    rw [copyOption, hcopy]
    simp only [bind, Except.bind, Memory.mcOptionInit, hold, msFree]
    rfl
  | some old =>
    obtain ⟨block, hblock⟩ := Option.isSome_iff_exists.mp (hfree old hold)
    refine ⟨⟨source.optionNum, source.nbytes, bytes⟩, { mem1 with store := mem1.store.free old },
      ?_, ?_⟩
    · rw [copyOption, hcopy]
      simp only [bind, Except.bind, Memory.mcOptionInit, hold,
        msFree_live (hextends.kept old block hblock)]
      rfl
    · obtain ⟨hnum, hcount, hnull | ⟨p, rest, hp, hlo, hp1⟩⟩ := hfrom
      · exact ⟨hnum, hcount, Or.inl hnull⟩
      · -- the copy lies in a new block, which is not the freed one
        have hne : p ≠ old := Nat.ne_of_gt (Nat.lt_of_lt_of_le (mem.store.lt_brk hblock) hlo)
        exact ⟨hnum, hcount, Or.inr ⟨p, rest, hp, Nat.zero_le p,
          (mem1.store.free_ne hne).trans hp1⟩⟩

/-- A copy into an option without bytes. -/
theorem copyOption_from (h : OptionAt mem source o) (hnone : target.bytes = none) :
    ∃ cell mem', mem.copyOption target source = .ok (cell, mem') ∧
      Extends mem.store mem'.store ∧ OptionFrom mem.store.brk mem' cell o := by
  obtain ⟨bytes, mem1, hcopy, hextends, hfrom⟩ := copyUint8_spec h
  refine ⟨_, mem1, ?_, hextends, hfrom⟩
  rw [copyOption, hcopy]
  simp only [bind, Except.bind, Memory.mcOptionInit, hnone, msFree]
  rfl

end

/-! ## Section 5: The list that lies in memory -/

/-- The array holds the options, and perhaps more behind them; it and their
    bytes are in blocks that are not older than `lo`. -/
structure ArrayFrom (lo : Ptr) (mem : Memory) (list : ListCell) (os : List Wire.Opt) : Prop where
  count : list.noptions.toNat = os.length
  array : list.options = none ∧ os = [] ∨
    ∃ p cells rest, list.options = some p ∧ lo ≤ p ∧
      mem.store.blocks p = some (.options (cells ++ rest)) ∧
      List.Forall₂ (OptionFrom lo mem) cells os

/-- The list, or the null list, with its array and their bytes. -/
def ListFrom (lo : Ptr) (mem : Memory) : Option Ptr → Option (List Wire.Opt) → Prop
  | none, none => True
  | some p, some os => ∃ list, lo ≤ p ∧ mem.store.blocks p = some (.list list) ∧
      ArrayFrom lo mem list os
  | _, _ => False

/-- The list that the pointer names holds these options. -/
def ListAt (mem : Memory) (list : Option Ptr) (os : Option (List Wire.Opt)) : Prop :=
  ListFrom 0 mem list os

section

open Memory

variable {mem mem' : Memory} {lo lo' : Ptr} {list : ListCell} {os : List Wire.Opt}

theorem ArrayFrom.kept (h : ArrayFrom lo mem list os) (hext : Extends mem.store mem'.store) :
    ArrayFrom lo mem' list os := by
  obtain ⟨hcount, hnull | ⟨p, cells, rest, hp, hlo, hblock, hcells⟩⟩ := h
  · exact ⟨hcount, Or.inl hnull⟩
  · refine ⟨hcount, Or.inr ⟨p, cells, rest, hp, hlo, hext.kept p _ hblock, ?_⟩⟩
    exact hcells.imp fun _ _ hcell => hcell.kept (keepsBytes hext)

theorem ArrayFrom.mono (h : ArrayFrom lo mem list os) (hle : lo' ≤ lo) :
    ArrayFrom lo' mem list os := by
  obtain ⟨hcount, hnull | ⟨p, cells, rest, hp, hlo, hblock, hcells⟩⟩ := h
  · exact ⟨hcount, Or.inl hnull⟩
  · refine ⟨hcount, Or.inr ⟨p, cells, rest, hp, Nat.le_trans hle hlo, hblock, ?_⟩⟩
    exact hcells.imp fun _ _ hcell => hcell.mono hle

/-- The options can be read one by one. -/
theorem ArrayFrom.load (h : ArrayFrom lo mem list os) {i : Nat} (hi : i < os.length) :
    ∃ cell, mem.loadOption list.options i = .ok cell ∧ OptionAt mem cell (os[i]) := by
  obtain ⟨_, ⟨_, hempty⟩ | ⟨p, cells, rest, hp, _, hblock, hcells⟩⟩ := h
  · rw [hempty] at hi
    exact absurd hi (Nat.not_lt_zero i)
  · have hlen := hcells.length_eq
    have hi' : i < cells.length := by omega
    have hget : (cells ++ rest)[i]? = some (cells[i]) := by
      rw [List.getElem?_append_left hi', List.getElem?_eq_getElem hi']
    refine ⟨cells[i], ?_, (hcells.get hi' hi).optionAt⟩
    simp only [loadOption, hp, hblock, hget]

theorem loadOption_kept {options : Option Ptr} {i : Nat} {cell : OptionCell}
    (h : mem.loadOption options i = .ok cell) (hext : Extends mem.store mem'.store) :
    mem'.loadOption options i = .ok cell := by
  cases options with
  | none => cases h
  | some p =>
    simp only [loadOption] at h ⊢
    split at h
    · next cells hblock =>
      rw [hext.kept p _ hblock]
      exact h
    · cases h

theorem ListFrom.kept {p : Option Ptr} {v : Option (List Wire.Opt)} (h : ListFrom lo mem p v)
    (hext : Extends mem.store mem'.store) : ListFrom lo mem' p v := by
  match p, v, h with
  | none, none, _ => trivial
  | some p, some os, ⟨list, hlo, hp, harray⟩ =>
    exact ⟨list, hlo, hext.kept p _ hp, harray.kept hext⟩

theorem ListFrom.listAt {p : Option Ptr} {v : Option (List Wire.Opt)} (h : ListFrom lo mem p v) :
    ListAt mem p v := by
  match p, v, h with
  | none, none, _ => trivial
  | some p, some os, ⟨list, _, hp, harray⟩ =>
    exact ⟨list, Nat.zero_le p, hp, harray.mono (Nat.zero_le lo)⟩

theorem ListAt.load {p : Ptr} {v : Option (List Wire.Opt)} (h : ListAt mem (some p) v) :
    ∃ list os, v = some os ∧ mem.loadList p = .ok list ∧ ArrayFrom 0 mem list os := by
  match v, h with
  | some os, ⟨list, _, hp, harray⟩ =>
    refine ⟨list, os, rfl, ?_, harray⟩
    rw [loadList, hp]

end

end Mcoap
