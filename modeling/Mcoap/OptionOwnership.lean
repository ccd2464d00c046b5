import Mcoap.Lib.CString
import Mcoap.Lib.Ownership
import Mcoap.OptionsMerge
import Mcoap.OptionNumbers

/-! # Who owns the options

    Lists of options that are made, copied, merged and freed, on the blocks
    that `malloc` gives out: `mc_option_deinit`, `mc_option_ndeinit`,
    `mc_options_list_deinit` and `mc_options_list_vinit` beside the functions
    of `Mcoap.OptionsMerge`.

    * `ListOwns`: the list in memory, and every block it is made of;
    * `copy_owned`, `merge_owned`, `newInit_owned`, `newVinit_owned`,
      `release_owned`: one lemma for each way to make a list or to give it
      up, on the account of all blocks. -/

namespace Mcoap

open Blocks CString StableSort

/-! ## Section 1: The functions -/

namespace Memory

def mcOptionAlloc (mem : Memory) : Option Ptr × Memory :=
  mem.allocate false (.options [⟨0, 0, none⟩])

/-- Free the contents of an option: `mc_buffer_deinit` of its value. -/
def mcOptionDeinit (mem : Memory) (option : OptionCell) : Except Fault (OptionCell × Memory) := do
  let mem ← mem.msFree option.bytes
  return (⟨option.optionNum, 0, none⟩, mem)

/-- Free the contents of a block of options: `n` of them are left, the next
    one is at `noption`. -/
def mcOptionNdeinit (options : Option Ptr) : Nat → Nat → Memory → Except Fault Memory
  | 0, _, mem => return mem
  | n + 1, noption, mem => do
    let current ← mem.loadOption options noption
    let (current, mem) ← mem.mcOptionDeinit current
    let mem ← mem.storeOption options noption current
    mcOptionNdeinit options n (noption + 1) mem

def mcOptionsListDeinit (mem : Memory) (list : Option Ptr) : Except Fault (Option Ptr × Memory) :=
  match list with
  | none => .error .nullDeref
  | some p => do
    let cell ← mem.loadList p
    let mem ← mcOptionNdeinit cell.options cell.noptions.toNat 0 mem
    let mem ← mem.msFree cell.options
    return (list, { mem with store := mem.store.store p (.list ⟨0, none⟩) })

/-- `ms_free(mc_options_list_deinit(list))`, the way a list is given up
    everywhere. -/
def releaseList (mem : Memory) (list : Option Ptr) : Except Fault Memory := do
  let (list, mem) ← mem.mcOptionsListDeinit list
  mem.msFree list

/-- The loop of `mc_options_list_vinit`: each option is moved into the array,
    and its pointer freed but not the contents. -/
def vinitLoop (options : Option Ptr) : List (Option Ptr) → Nat → Memory → Except Fault Memory
  | [], _, mem => return mem
  | option :: argp, ioption, mem => do
    let cell ← mem.loadOption option 0
    let mem ← mem.storeOption options ioption cell
    let mem ← mem.msFree option
    vinitLoop options argp (ioption + 1) mem

/-- The arguments are as many as the caller says. -/
def mcOptionsListVinit (mem : Memory) (qsort : Qsort OptionCell) (list : Option Ptr)
    (argp : List (Option Ptr)) : Except Fault (Option Ptr × Memory) := do
  let noptions := UInt32.ofNat argp.length
  let (options, mem) := mem.mcOptionNalloc noptions
  let mem ← vinitLoop options argp 0 mem
  mem.mcOptionsListInit qsort list noptions options

end Memory

/-- An option that is made for a new list; here for
    `mc_options_list_vinit`. -/
inductive NewOption where
  /-- `mc_option_init_uint32(mc_option_alloc(), num, value)` -/
  | uint (num : UInt16) (value : UInt32)
  /-- `mc_option_init(mc_option_alloc(), num, n, ms_copy_uint8(n, data))` -/
  | copied (num : UInt16) (data : List UInt8)
  /-- `mc_option_init_str(mc_option_alloc(), num, ms_copy_str(value))` -/
  | str (num : UInt16) (value : List UInt8)

namespace Memory

/-- `ms_copy_cstr` or `ms_copy_str`: the characters and the null behind them. -/
def newString (mem : Memory) (str : List UInt8) : Option Ptr × Memory :=
  mem.allocate false (.bytes (str ++ [0]))

/-- What the initializers do to the option behind a pointer. -/
def initOption (mem : Memory) (new : NewOption) (option : OptionCell) :
    Except Fault (OptionCell × Memory) :=
  match new with
  | .uint num value => mem.mcOptionInitUint32 option num value
  | .copied num data =>
    let (bytes, mem) := mem.allocate (data = []) (.bytes data)
    mem.mcOptionInit option num (UInt32.ofNat data.length) bytes
  | .str num value =>
    -- the bytes that were there are not freed
    let (bytes, mem) := mem.newString (cstring value)
    return (⟨num, UInt32.ofNat (cstring value).length, bytes⟩, mem)

def newOption (mem : Memory) (new : NewOption) : Except Fault (Option Ptr × Memory) := do
  let (option, mem) := mem.mcOptionAlloc
  let cell ← mem.loadOption option 0
  let (cell, mem) ← mem.initOption new cell
  let mem ← mem.storeOption option 0 cell
  return (option, mem)

/-- The arguments of `mc_options_list_vinit`. -/
def newOptions : List NewOption → Memory → Except Fault (List (Option Ptr) × Memory)
  | [], mem => return ([], mem)
  | new :: news, mem => do
    let (option, mem) ← mem.newOption new
    let (argp, mem) ← newOptions news mem
    return (option :: argp, mem)

/-- A new list of new options. -/
def newVinit (mem : Memory) (qsort : Qsort OptionCell) (news : List NewOption) :
    Except Fault (Option Ptr × Memory) := do
  let (list, mem) := mem.mcOptionsListAlloc
  let (argp, mem) ← newOptions news mem
  mem.mcOptionsListVinit qsort list argp

/-- The options of an array are set up one by one. -/
def fillOptions (options : Option Ptr) : List NewOption → Nat → Memory → Except Fault Memory
  | [], _, mem => return mem
  | new :: news, ioption, mem => do
    let cell ← mem.loadOption options ioption
    let (cell, mem) ← mem.initOption new cell
    let mem ← mem.storeOption options ioption cell
    fillOptions options news (ioption + 1) mem

/-- The other way to a new list: `mc_options_list_init` with an array of
    `mc_option_nalloc`. -/
def newInit (mem : Memory) (qsort : Qsort OptionCell) (news : List NewOption) :
    Except Fault (Option Ptr × Memory) := do
  let noptions := UInt32.ofNat news.length
  let (options, mem) := mem.mcOptionNalloc noptions
  let mem ← fillOptions options news 0 mem
  let (list, mem) := mem.mcOptionsListAlloc
  mem.mcOptionsListInit qsort list noptions options

end Memory

/-! ## Section 2: The blocks of an option -/

section

open Memory

variable {mem mem' : Memory} {ps qs : List Ptr} {options source : Option Ptr}
  {cell target : OptionCell} {cells : List OptionCell} {o : Wire.Opt}

theorem allocate_owned (h : Owned mem.store ps) {empty : Bool} {block : Block} {ptr : Option Ptr}
    (hnew : mem.allocate empty block = (ptr, mem')) :
    Owned mem'.store (ptr.toList ++ ps) ∧ Same ps mem.store mem'.store := by
  unfold allocate at hnew
  split at hnew
  · cases hnew
    exact ⟨h, Same.refl _ _⟩
  · cases hnew
    exact ⟨h.alloc block, h.same_of_extends (extends_alloc _ _)⟩

/-- A block of its own. -/
theorem newBlock_owned (h : Owned mem.store ps) (block : Block) :
    ∃ p mem', mem.allocate false block = (some p, mem') ∧ mem'.store.blocks p = some block ∧
      Owned mem'.store (p :: ps) ∧ Same ps mem.store mem'.store := by
  obtain ⟨mem', hnew⟩ : ∃ mem', mem.allocate false block = (some mem.store.brk, mem') := ⟨_, rfl⟩
  obtain ⟨hown, hsame⟩ := allocate_owned h hnew
  refine ⟨mem.store.brk, mem', hnew, ?_, hown, hsame⟩
  cases hnew
  exact mem.store.alloc_self block

theorem listAlloc_owned (h : Owned mem.store ps) :
    ∃ p mem', mem.mcOptionsListAlloc = (some p, mem') ∧
      mem'.store.blocks p = some (.list ⟨0, none⟩) ∧ Owned mem'.store (p :: ps) ∧
      Same ps mem.store mem'.store :=
  newBlock_owned h _

theorem newString_owned (h : Owned mem.store ps) (str : List UInt8) :
    ∃ p mem', mem.newString str = (some p, mem') ∧
      mem'.store.blocks p = some (.bytes (str ++ [0])) ∧ Owned mem'.store (p :: ps) ∧
      Same ps mem.store mem'.store :=
  newBlock_owned h _

theorem msFree_owned {ptr : Option Ptr} (h : Owned mem.store (ptr.toList ++ ps)) :
    ∃ mem', mem.msFree ptr = .ok mem' ∧ Owned mem'.store ps ∧ Same ps mem.store mem'.store := by
  cases ptr with
  | none => exact ⟨mem, rfl, h, Same.refl _ _⟩
  | some p =>
    obtain ⟨block, hblock⟩ := h.block (List.mem_cons_self ..)
    exact ⟨_, msFree_live hblock, h.free, h.same_of_free⟩

theorem OptionAt.same (h : OptionAt mem cell o) (hsame : Same cell.bytes.toList mem.store mem'.store) :
    OptionAt mem' cell o := by
  obtain ⟨hnum, hcount, hnull | ⟨p, rest, hp, hlo, hblock⟩⟩ := h
  · exact ⟨hnum, hcount, Or.inl hnull⟩
  · refine ⟨hnum, hcount, Or.inr ⟨p, rest, hp, hlo, ?_⟩⟩
    rw [hsame p (by rw [hp]; exact List.mem_singleton_self p)]
    exact hblock

/-- Setting an option up exchanges its bytes: the old ones are freed. -/
theorem mcOptionInit_owned {bytes : Option Ptr}
    (h : Owned mem.store (target.bytes.toList ++ (bytes.toList ++ ps))) (num : UInt16)
    (nbytes : UInt32) :
    ∃ mem', mem.mcOptionInit target num nbytes bytes = .ok (⟨num, nbytes, bytes⟩, mem') ∧
      Owned mem'.store (bytes.toList ++ ps) ∧
      Same (bytes.toList ++ ps) mem.store mem'.store := by
  obtain ⟨mem', hfree, hown, hsame⟩ := msFree_owned h
  refine ⟨mem', ?_, hown, hsame⟩
  rw [Memory.mcOptionInit, hfree]
  rfl

/-- A copy owns its bytes, and nothing of the option it replaces is left. -/
theorem copyOption_owned {source copied : OptionCell}
    (hcopy : mem.copyOption target source = .ok (copied, mem'))
    (h : Owned mem.store (target.bytes.toList ++ ps)) :
    Owned mem'.store (copied.bytes.toList ++ ps) ∧ Same ps mem.store mem'.store := by
  obtain ⟨⟨bytes, mem1⟩, hbytes, hinit⟩ := bind_eq_ok.mp hcopy
  obtain ⟨bs, _, hnew⟩ := bind_eq_ok.mp hbytes
  obtain ⟨hown1, hsame1⟩ := allocate_owned h (Except.ok.inj hnew)
  have hperm : (bytes.toList ++ (target.bytes.toList ++ ps)).Perm
      (target.bytes.toList ++ (bytes.toList ++ ps)) := List.perm_append_comm_assoc ..
  obtain ⟨mem2, hinit', hown2, hsame2⟩ :=
    mcOptionInit_owned (hown1.perm hperm) source.optionNum source.nbytes
  cases hinit'.symm.trans hinit
  refine ⟨hown2, ?_⟩
  have hkept := hsame1.subset (List.subset_append_right _ ps)
  exact hkept.trans (hsame2.subset (List.subset_append_right _ ps))

end

/-! ## Section 3: The blocks of an array -/

/-- The array of these options, or the null pointer for none. -/
def ArrayAt (mem : Memory) (options : Option Ptr) (cells : List OptionCell) : Prop :=
  options = none ∧ cells = [] ∨
    ∃ p, options = some p ∧ mem.store.blocks p = some (.options cells)

/-- The block of the array, and those of the bytes. -/
def arrayBlocks (options : Option Ptr) (cells : List OptionCell) : List Ptr :=
  options.toList ++ cells.filterMap OptionCell.bytes

section

open Memory

variable {mem mem' mem1 : Memory} {ps : List Ptr} {options source : Option Ptr}
  {old new : OptionCell} {cells xs ys : List OptionCell} {os : List Wire.Opt}

theorem ArrayAt.same (h : ArrayAt mem options cells)
    (hsame : Same options.toList mem.store mem'.store) : ArrayAt mem' options cells := by
  obtain hnull | ⟨p, hp, hblock⟩ := h
  · exact Or.inl hnull
  · refine Or.inr ⟨p, hp, ?_⟩
    rw [hsame p (by rw [hp]; exact List.mem_singleton_self p)]
    exact hblock

/-- No places behind the options. -/
theorem ArrayAt.withNone (h : ArrayAt mem options cells) : ArrayAt mem options (cells ++ []) :=
  (List.append_nil cells).symm ▸ h

theorem options_subset (options : Option Ptr) (cells : List OptionCell) (ps : List Ptr) :
    options.toList ⊆ arrayBlocks options cells ++ ps := by
  rw [arrayBlocks, List.append_assoc]
  exact List.subset_append_left _ _

theorem filterMap_bytes_cons (cell : OptionCell) (ys : List OptionCell) :
    (cell :: ys).filterMap OptionCell.bytes =
      cell.bytes.toList ++ ys.filterMap OptionCell.bytes := by
  cases hbytes : cell.bytes <;> simp [hbytes]

/-- The bytes of one option, and all the others. -/
theorem arrayBlocks_perm (options : Option Ptr) (xs ys : List OptionCell) (cell : OptionCell) :
    (arrayBlocks options (xs ++ cell :: ys)).Perm
      (cell.bytes.toList ++ arrayBlocks options (xs ++ ys)) := by
  rw [arrayBlocks, arrayBlocks, List.filterMap_append, List.filterMap_append,
    filterMap_bytes_cons, List.perm_iff_count]
  intro p
  simp only [List.count_append]
  omega

theorem ArrayAt.load (h : ArrayAt mem options (xs ++ old :: ys)) :
    mem.loadOption options xs.length = .ok old := by
  obtain ⟨_, hnil⟩ | ⟨p, rfl, hblock⟩ := h
  · exact absurd hnil (by simp)
  · have hget : (xs ++ old :: ys)[xs.length]? = some old := by simp
    simp only [loadOption, hblock, hget]

/-- An option that is loaded lies in its array. -/
theorem loadOption_split {i : Nat} (hload : mem.loadOption options i = .ok old)
    (h : ArrayAt mem options cells) : ∃ xs ys, cells = xs ++ old :: ys ∧ xs.length = i := by
  obtain ⟨rfl, _⟩ | ⟨p, rfl, hblock⟩ := h
  · cases hload
  · simp only [loadOption, hblock] at hload
    split at hload
    · next cell hget =>
      cases hload
      obtain ⟨hi, rfl⟩ := List.getElem?_eq_some_iff.mp hget
      refine ⟨cells.take i, cells.drop (i + 1), ?_, by simp; omega⟩
      rw [← List.drop_eq_getElem_cons hi, List.take_append_drop]
    · cases hload

/-- An option is stored: the array owns the bytes of the new one. -/
theorem storeOption_owned (harr : ArrayAt mem options (xs ++ old :: ys))
    (h : Owned mem.store (new.bytes.toList ++ (arrayBlocks options (xs ++ ys) ++ ps))) :
    ∃ mem', mem.storeOption options xs.length new = .ok mem' ∧
      ArrayAt mem' options (xs ++ new :: ys) ∧
      Owned mem'.store (arrayBlocks options (xs ++ new :: ys) ++ ps) ∧
      Same (new.bytes.toList ++ ((xs ++ ys).filterMap OptionCell.bytes ++ ps))
        mem.store mem'.store := by
  obtain ⟨_, hnil⟩ | ⟨p, rfl, hblock⟩ := harr
  · exact absurd hnil (by simp)
  have hset : (xs ++ old :: ys).set xs.length new = xs ++ new :: ys := by
    rw [List.set_append_right _ _ (Nat.le_refl _), Nat.sub_self, List.set_cons_zero]
  have hlt : xs.length < (xs ++ old :: ys).length := by simp
  have hperm := ((arrayBlocks_perm (some p) xs ys new).append_right ps).symm
  rw [List.append_assoc] at hperm
  have hfirst : (new.bytes.toList ++ (arrayBlocks (some p) (xs ++ ys) ++ ps)).Perm
      (p :: (new.bytes.toList ++ ((xs ++ ys).filterMap OptionCell.bytes ++ ps))) :=
    List.perm_middle
  refine ⟨{ mem with store := mem.store.store p (.options (xs ++ new :: ys)) }, ?_,
    Or.inr ⟨p, rfl, Store.store_self _ _ hblock⟩, (h.perm hperm).store p _,
    (h.perm hfirst).same_of_store _⟩
  simp only [storeOption, hblock, if_pos hlt, hset]

/-- The blank options of a new array own nothing. -/
theorem nalloc_owned (h : Owned mem.store ps) {count : UInt32}
    (hnew : mem.mcOptionNalloc count = (options, mem')) :
    ∃ blanks, blanks.length = count.toNat ∧ (∀ c ∈ blanks, c.bytes = none) ∧
      ArrayAt mem' options blanks ∧ Owned mem'.store (arrayBlocks options blanks ++ ps) ∧
      Same ps mem.store mem'.store := by
  have hblank : (List.replicate count.toNat (⟨0, 0, none⟩ : OptionCell)).filterMap
      OptionCell.bytes = [] := by
    simp
  obtain ⟨ptr, mem1, halloc, _, hcases⟩ :=
    mem.allocate_spec (count = 0) (.options (List.replicate count.toNat ⟨0, 0, none⟩))
  cases halloc.symm.trans hnew
  refine ⟨List.replicate count.toNat ⟨0, 0, none⟩, List.length_replicate, ?_, ?_, ?_⟩
  · intro c hc
    rw [List.eq_of_mem_replicate hc]
  · obtain ⟨hnull, hempty⟩ | ⟨hptr, hstore⟩ := hcases
    · have hzero : count = 0 := of_decide_eq_true hempty
      exact Or.inl ⟨hnull, by rw [hzero]; rfl⟩
    · refine Or.inr ⟨_, hptr, ?_⟩
      rw [hstore]
      exact mem.store.alloc_self _
  · rw [arrayBlocks, hblank, List.append_nil]
    exact allocate_owned h halloc

/-- An option that is copied into an array: whatever the place held before is
    freed. -/
theorem copyOptionTo_owned {ito ifrom : UInt32}
    (hcopy : mem.copyOptionTo options ito source ifrom = .ok mem') (harr : ArrayAt mem options cells)
    (h : Owned mem.store (arrayBlocks options cells ++ ps)) :
    ∃ cells', ArrayAt mem' options cells' ∧ Owned mem'.store (arrayBlocks options cells' ++ ps) := by
  unfold copyOptionTo at hcopy
  split at hcopy
  · cases hcopy
    exact ⟨cells, harr, h⟩
  obtain ⟨src, _, hcopy⟩ := bind_eq_ok.mp hcopy
  obtain ⟨target, hload, hcopy⟩ := bind_eq_ok.mp hcopy
  obtain ⟨⟨option, mem1⟩, hcopied, hstore⟩ := bind_eq_ok.mp hcopy
  obtain ⟨xs, ys, rfl, hlen⟩ := loadOption_split hload harr
  have hperm := (arrayBlocks_perm options xs ys target).append_right ps
  rw [List.append_assoc] at hperm
  obtain ⟨hown1, hsame1⟩ := copyOption_owned hcopied (h.perm hperm)
  -- the array itself is not among the bytes that are freed
  have harr1 := harr.same (hsame1.subset (options_subset options (xs ++ ys) ps))
  obtain ⟨mem2, hstore', harr2, hown2, _⟩ := storeOption_owned harr1 hown1
  rw [hlen] at hstore'
  cases hstore'.symm.trans hstore
  exact ⟨_, harr2, hown2⟩

/-- The loops that copy a list: by induction on the options that are left. -/
theorem copyOptions_owned {offset ioption : UInt32} {n : Nat}
    (hcopy : copyOptions options offset source n ioption mem = .ok mem')
    (harr : ArrayAt mem options cells) (h : Owned mem.store (arrayBlocks options cells ++ ps)) :
    ∃ cells', ArrayAt mem' options cells' ∧ Owned mem'.store (arrayBlocks options cells' ++ ps) := by
  induction n generalizing ioption mem cells with
  | zero =>
    cases hcopy
    exact ⟨cells, harr, h⟩
  | succ n ih =>
    obtain ⟨mem1, hstep, hrest⟩ := bind_eq_ok.mp hcopy
    obtain ⟨cells1, harr1, h1⟩ := copyOptionTo_owned hstep harr h
    exact ih hrest harr1 h1

end

/-! ## Section 4: The blocks of a list -/

/-- The list that the pointer names, the options it holds, and the blocks it
    is made of.  Its array may have places that are not used. -/
inductive ListOwns (mem : Memory) : Option Ptr → Option (List Wire.Opt) → List Ptr → Prop where
  | null : ListOwns mem none none []
  | list {p : Ptr} {cell : ListCell} {cells blanks : List OptionCell} {os : List Wire.Opt}
      (block : mem.store.blocks p = some (.list cell)) (count : cell.noptions.toNat = os.length)
      (array : ArrayAt mem cell.options (cells ++ blanks))
      (unused : ∀ c ∈ blanks, c.bytes = none) (options : List.Forall₂ (OptionAt mem) cells os) :
      ListOwns mem (some p) (some os) (p :: arrayBlocks cell.options cells)

section

open Memory

variable {mem mem' : Memory} {q : Qsort OptionCell} {ps qs : List Ptr} {p : Ptr}
  {options list : Option Ptr} {cell : ListCell} {cells blanks : List OptionCell}
  {os : List Wire.Opt} {v : Option (List Wire.Opt)}

theorem optionsAt_same (h : List.Forall₂ (OptionAt mem) cells os)
    (hsame : Same (cells.filterMap OptionCell.bytes) mem.store mem'.store) :
    List.Forall₂ (OptionAt mem') cells os := by
  induction h with
  | nil => exact List.Forall₂.nil
  | @cons c o cs os hc _ ih =>
    apply List.Forall₂.cons
    · apply hc.same
      intro p hp
      apply hsame p
      rw [List.mem_filterMap]
      exact ⟨c, List.mem_cons_self, Option.mem_toList.mp hp⟩
    · apply ih
      intro p hp
      apply hsame p
      rw [List.mem_filterMap] at hp ⊢
      obtain ⟨c', hc', hp⟩ := hp
      exact ⟨c', List.mem_cons_of_mem c hc', hp⟩

theorem ListOwns.same (h : ListOwns mem list v ps) (hsame : Same ps mem.store mem'.store) :
    ListOwns mem' list v ps := by
  cases h with
  | null => exact ListOwns.null
  | list block count array unused options =>
    have hcells := hsame.subset (List.subset_cons_self _ _)
    refine ListOwns.list ?_ count (array.same (hcells.subset (List.subset_append_left _ _))) unused ?_
    · rw [hsame _ List.mem_cons_self]
      exact block
    · exact optionsAt_same options (hcells.subset (List.subset_append_right _ _))

theorem ListOwns.listAt (h : ListOwns mem list v ps) : ListAt mem list v := by
  cases h with
  | null => trivial
  | @list p cell cells blanks os block count array unused options =>
    refine ⟨cell, Nat.zero_le p, block, count, ?_⟩
    obtain ⟨hnull, hnil⟩ | ⟨a, ha, hblock⟩ := array
    · obtain ⟨rfl, rfl⟩ := List.append_eq_nil_iff.mp hnil
      exact Or.inl ⟨hnull, List.forall₂_nil_left_iff.mp options⟩
    · exact Or.inr ⟨a, cells, blanks, ha, Nat.zero_le a, hblock, options⟩

/-- The options are sorted, and the places behind them are left alone. -/
theorem optionsSort_front {count : UInt32} {items : Ptr}
    (hblock : mem.store.blocks items = some (.options (cells ++ blanks)))
    (hcount : count.toNat = cells.length) :
    mem.optionsSort q count (some items) = .ok { mem with
      store := mem.store.store items (.options (q.sort compareOptionCells cells ++ blanks)) } := by
  have hle : cells.length ≤ (cells ++ blanks).length := by
    rw [List.length_append]
    exact Nat.le_add_right _ _
  simp only [Memory.optionsSort, hblock, hcount, if_pos hle, List.take_left, List.drop_left]

/-- A list is set up with an array: it owns the array. -/
theorem init_owned (hq : q.Stable) (harr : ArrayAt mem options (cells ++ blanks))
    (hunused : ∀ c ∈ blanks, c.bytes = none) (hcells : List.Forall₂ (OptionAt mem) cells os)
    {noptions : UInt32}
    (hcount : noptions.toNat = os.length) (hlist : mem.store.blocks p = some (.list cell))
    (h : Owned mem.store (p :: (arrayBlocks options cells ++ ps))) :
    ∃ mem' qs, mem.mcOptionsListInit q (some p) noptions options = .ok (some p, mem') ∧
      ListOwns mem' (some p) (some (byNumber os)) qs ∧ Owned mem'.store (qs ++ ps) ∧
      Same ps mem.store mem'.store := by
  have hlen := hcells.length_eq
  have hcount' : noptions.toNat = (byNumber os).length := by
    rw [(byNumber_perm os).length_eq, hcount]
  have hstored := h.store p (.list ⟨noptions, options⟩)
  have hself : (mem.store.store p (.list ⟨noptions, options⟩)).blocks p = _ :=
    Store.store_self _ _ hlist
  have hsame := h.same_of_store (.list ⟨noptions, options⟩)
  generalize hstore : mem.store.store p (.list ⟨noptions, options⟩) = store at hstored hself hsame
  have hinit : mem.mcOptionsListInit q (some p) noptions options =
      (do
        let mem' ← ({ mem with store := store } : Memory).optionsSort q noptions options
        return (some p, mem')) := by
    rw [Memory.mcOptionsListInit, loadList, hlist, ← hstore]
    rfl
  have hsame' : Same (arrayBlocks options cells) mem.store store :=
    hsame.subset (List.subset_append_left _ _)
  obtain ⟨rfl, hnil⟩ | ⟨items, rfl, hblock⟩ := harr
  · obtain ⟨rfl, rfl⟩ := List.append_eq_nil_iff.mp hnil
    obtain rfl := List.forall₂_nil_left_iff.mp hcells
    refine ⟨{ mem with store := store }, _, hinit, ListOwns.list hself hcount'
      (Or.inl ⟨rfl, hnil⟩) hunused List.Forall₂.nil, hstored,
      hsame.subset (List.subset_append_right _ _)⟩
  · have hblock' : store.blocks items = some (.options (cells ++ blanks)) := by
      rw [hsame' items (by simp [arrayBlocks])]
      exact hblock
    have hnodup : (cells.filterMap OptionCell.bytes).Nodup :=
      (List.nodup_cons.mp (h.nodup.sublist
        ((List.sublist_append_left _ _).cons p))).2
    have hat : List.Forall₂ (OptionAt { mem with store := store }) cells os :=
      optionsAt_same hcells (hsame'.subset (List.subset_append_right _ _))
    have hcopies : Copies 0 { mem with store := store } (q.sort compareOptionCells cells)
        (byNumber os) := Copies.sort hq ⟨hat, hnodup⟩
    have hsort := @optionsSort_front { mem with store := store } q cells blanks noptions items
      hblock' (hcount.trans hlen.symm)
    have hperm := (q.perm compareOptionCells cells).filterMap OptionCell.bytes
    generalize q.sort compareOptionCells cells = sorted at hcopies hsort hperm
    -- the account names the array first, then what sorting leaves alone
    have haccount : (p :: (arrayBlocks (some items) cells ++ ps)).Perm
        (items :: (p :: (sorted.filterMap OptionCell.bytes ++ ps))) := by
      apply (List.Perm.swap items p _).trans
      exact ((hperm.symm.append_right ps).cons p).cons items
    have hown := hstored.perm haccount
    have hleft := hown.same_of_store (.options (sorted ++ blanks))
    have hbytes := hleft.subset (List.subset_cons_of_subset p (List.subset_append_left _ ps))
    refine ⟨{ mem with store := store.store items (.options (sorted ++ blanks)) },
      p :: arrayBlocks (some items) sorted, ?_,
      @ListOwns.list _ p ⟨noptions, some items⟩ sorted blanks _ ?_ hcount' (Or.inr ⟨items, rfl, ?_⟩)
        hunused (optionsAt_same hcopies.holds hbytes), ?_, ?_⟩
    · rw [hinit, hsort]
      rfl
    · exact (hleft p List.mem_cons_self).trans hself
    · exact Store.store_self _ _ hblock'
    · exact (hown.store items _).perm (List.Perm.swap p items _)
    · have hps := hsame.subset (List.subset_append_right (arrayBlocks (some items) cells) ps)
      exact hps.trans (hleft.subset
        (List.subset_cons_of_subset p (List.subset_append_right _ ps)))

/-- The array that the loops have filled holds the options. -/
theorem Filled.optionsAt {base : Memory} (hfilled : Filled base mem options os 0)
    (harr : ArrayAt mem options cells) : List.Forall₂ (OptionAt mem) cells os := by
  obtain ⟨_, ⟨rfl, rfl, _⟩ | ⟨p, cells', blanks, rfl, _, hblock, hnone, _, hcopies⟩⟩ := hfilled
  · obtain ⟨_, rfl⟩ | ⟨p, hp, _⟩ := harr
    · exact List.Forall₂.nil
    · cases hp
  · obtain ⟨hp, _⟩ | ⟨p', hp', hblock'⟩ := harr
    · cases hp
    · cases hp'
      obtain rfl := List.length_eq_zero_iff.mp hnone
      rw [List.append_nil] at hblock
      cases hblock.symm.trans hblock'
      exact hcopies.holds.imp fun _ _ hcell => hcell.optionAt

/-- A new list takes the array over. -/
theorem newList_owned (hq : q.Stable) (harr : ArrayAt mem options (cells ++ blanks))
    (hunused : ∀ c ∈ blanks, c.bytes = none) (hcells : List.Forall₂ (OptionAt mem) cells os)
    {noptions : UInt32}
    (hcount : noptions.toNat = os.length)
    (h : Owned mem.store (arrayBlocks options cells ++ ps)) :
    ∃ new mem1 mem' qs, mem.mcOptionsListAlloc = (some new, mem1) ∧
      mem1.mcOptionsListInit q (some new) noptions options = .ok (some new, mem') ∧
      ListOwns mem' (some new) (some (byNumber os)) qs ∧ Owned mem'.store (qs ++ ps) ∧
      Same ps mem.store mem'.store := by
  obtain ⟨p, mem1, halloc, hlist, hown1, hsame1⟩ := listAlloc_owned h
  have hsame := hsame1.subset (List.subset_append_left (arrayBlocks options cells) ps)
  have hcells1 := optionsAt_same hcells (hsame.subset (List.subset_append_right _ _))
  obtain ⟨mem', qs, hinit, hlist', hown', hsame'⟩ :=
    init_owned hq (harr.same (hsame.subset (List.subset_append_left _ _))) hunused hcells1 hcount
      hlist hown1
  exact ⟨_, mem1, mem', qs, halloc, hinit, hlist', hown',
    (hsame1.subset (List.subset_append_right _ ps)).trans hsame'⟩

/-- A copy is made of new blocks. -/
theorem copy_owned (hq : q.Stable) (hlist : ListOwns mem list v qs) (h : Owned mem.store ps) :
    ∃ r mem' rs, mem.mcOptionsListCopy q list = .ok (r, mem') ∧
      ListOwns mem' r (v.map byNumber) rs ∧ Owned mem'.store (rs ++ ps) ∧
      Same ps mem.store mem'.store := by
  cases hlist with
  | null => exact ⟨none, mem, [], rfl, ListOwns.null, h, Same.refl _ _⟩
  | @list p cell cells unused os hblock hcount harr hunused hcells =>
    have hat := (ListOwns.list hblock hcount harr hunused hcells).listAt
    obtain ⟨cell', os', hos, hload, harray⟩ := hat.load
    cases hos
    have hlt := cell'.noptions.toNat_lt
    rw [harray.count] at hlt
    obtain ⟨options, mem1, hnew, hfilled⟩ := nalloc_filled mem cell'.noptions
    obtain ⟨blanks, _, _, harr1, hown1, _⟩ := nalloc_owned h hnew
    rw [harray.count] at hfilled
    obtain ⟨mem2, hcopy, hfilled2⟩ := copyList_filled 0 0 hfilled rfl (by simpa using hlt) harray
    rw [List.nil_append] at hfilled2
    obtain ⟨cells2, harr2, hown2⟩ := copyOptions_owned hcopy harr1 hown1
    obtain ⟨new, mem3, mem', rs, halloc, hinit, hlist', hown', hsame'⟩ :=
      newList_owned hq (harr2.withNone) (by simp) (hfilled2.optionsAt harr2) harray.count hown2
    refine ⟨some new, mem', rs, ?_, hlist', hown',
      (h.same_of_extends hfilled2.kept).trans hsame'⟩
    rw [Memory.mcOptionsListCopy, hload]
    simp only [bind, Except.bind, hnew, hcopy, halloc, hinit]

/-- So is a merged list. -/
theorem merge_owned (hq : q.Stable) {list1 list2 : Option Ptr} {v w : Option (List Wire.Opt)}
    {qs1 qs2 : List Ptr} (hlist1 : ListOwns mem list1 v qs1) (hlist2 : ListOwns mem list2 w qs2)
    (hn : (v.getD []).length + (w.getD []).length < 2 ^ 32) (h : Owned mem.store ps) :
    ∃ r mem' rs, mem.mcOptionsListMerge q list1 list2 = .ok (r, mem') ∧
      ListOwns mem' r (union v w) rs ∧ Owned mem'.store (rs ++ ps) ∧
      Same ps mem.store mem'.store := by
  have hat1 := hlist1.listAt
  have hat2 := hlist2.listAt
  cases list1 with
  | none =>
    cases hlist1
    obtain ⟨r, mem', rs, hcopy, hr, hown, hsame⟩ := copy_owned hq hlist2 h
    have hunion : union none w = w.map byNumber := by cases w <;> rfl
    exact ⟨r, mem', rs, hcopy, hunion ▸ hr, hown, hsame⟩
  | some p1 =>
    cases list2 with
    | none =>
      cases hlist2
      obtain ⟨r, mem', rs, hcopy, hr, hown, hsame⟩ := copy_owned hq hlist1 h
      have hunion : union v none = v.map byNumber := by cases v <;> rfl
      exact ⟨r, mem', rs, hcopy, hunion ▸ hr, hown, hsame⟩
    | some p2 =>
      obtain ⟨cell1, os1, rfl, hload1, harray1⟩ := hat1.load
      obtain ⟨cell2, os2, rfl, hload2, harray2⟩ := hat2.load
      rw [Option.getD_some, Option.getD_some] at hn
      have hcount1 := harray1.count
      have hcount2 := harray2.count
      have hsum : (cell1.noptions + cell2.noptions).toNat = os1.length + os2.length := by
        rw [position_no_wrap (by omega), hcount1, hcount2]
      obtain ⟨options, mem1, hnew, hfilled⟩ := nalloc_filled mem (cell1.noptions + cell2.noptions)
      obtain ⟨blanks, _, _, harr1, hown1, _⟩ := nalloc_owned h hnew
      rw [hsum] at hfilled
      obtain ⟨mem2, hcopy1, hfilled2⟩ :=
        copyList_filled 0 os2.length hfilled rfl (by simp; omega) harray1
      obtain ⟨cells2, harr2, hown2⟩ := copyOptions_owned hcopy1 harr1 hown1
      obtain ⟨mem3, hcopy2, hfilled3⟩ :=
        copyList_filled cell1.noptions 0 hfilled2 hcount1 (by simpa using hn) harray2
      obtain ⟨cells3, harr3, hown3⟩ := copyOptions_owned hcopy2 harr2 hown2
      obtain ⟨new, mem4, mem', rs, halloc, hinit, hlist', hown', hsame'⟩ :=
        newList_owned hq (harr3.withNone) (by simp) (hfilled3.optionsAt harr3)
          (hsum.trans (by simp)) hown3
      refine ⟨some new, mem', rs, ?_, hlist', hown',
        (h.same_of_extends hfilled3.kept).trans hsame'⟩
      rw [Memory.mcOptionsListMerge, hload1]
      simp only [bind, Except.bind, hload2, hnew, hcopy1, hcopy2, halloc, hinit]

/-- The options of an array are given up one by one: by induction on those
    that are left, behind the ones that own nothing any more. -/
theorem ndeinit_owned {spent left : List OptionCell}
    (harr : ArrayAt mem options (spent ++ (left ++ blanks))) (hspent : ∀ c ∈ spent, c.bytes = none)
    (hblanks : ∀ c ∈ blanks, c.bytes = none)
    (h : Owned mem.store (arrayBlocks options (spent ++ (left ++ blanks)) ++ ps)) :
    ∃ mem', mcOptionNdeinit options left.length spent.length mem = .ok mem' ∧
      Owned mem'.store (options.toList ++ ps) ∧ Same ps mem.store mem'.store := by
  induction left generalizing spent mem with
  | nil =>
    have hnone : (spent ++ ([] ++ blanks)).filterMap OptionCell.bytes = [] := by
      rw [List.filterMap_eq_nil_iff]
      intro c hc
      rcases List.mem_append.mp hc with hc | hc
      · exact hspent c hc
      · exact hblanks c hc
    rw [arrayBlocks, hnone, List.append_nil] at h
    exact ⟨mem, rfl, h, Same.refl _ _⟩
  | cons c left ih =>
    have hperm := (arrayBlocks_perm options spent (left ++ blanks) c).append_right ps
    rw [List.append_assoc] at hperm
    obtain ⟨mem1, hfree, hown1, hsame1⟩ := msFree_owned (h.perm hperm)
    have harr1 := harr.same (hsame1.subset (options_subset options (spent ++ (left ++ blanks)) ps))
    obtain ⟨mem2, hstore, harr2, hown2, hsame2⟩ :=
      @storeOption_owned mem1 ps options c ⟨c.optionNum, 0, none⟩ spent (left ++ blanks) harr1 hown1
    rw [List.append_cons] at harr2 hown2
    have hspent2 : ∀ c' ∈ spent ++ [⟨c.optionNum, 0, none⟩], c'.bytes = none := by
      intro c' hc'
      rcases List.mem_append.mp hc' with hc' | hc'
      · exact hspent c' hc'
      · rw [List.mem_singleton.mp hc']
    obtain ⟨mem', hloop, hown', hsame'⟩ := ih harr2 hspent2 hown2
    rw [List.length_append, List.length_singleton] at hloop
    refine ⟨mem', ?_, hown', ?_⟩
    · rw [List.length_cons, mcOptionNdeinit, harr.load]
      simp only [bind, Except.bind, Memory.mcOptionDeinit, hfree, pure, Except.pure, hstore, hloop]
    · have hfreed := hsame1.subset (List.subset_append_right
        (arrayBlocks options (spent ++ (left ++ blanks))) ps)
      have hstored := hsame2.subset (List.subset_append_of_subset_right _
        (List.subset_append_right _ ps))
      exact (hfreed.trans hstored).trans hsame'

/-- A list is given up: its blocks are freed, each once, and no others. -/
theorem release_owned (hlist : ListOwns mem (some p) v qs) (h : Owned mem.store (qs ++ ps)) :
    ∃ mem', mem.releaseList (some p) = .ok mem' ∧ Owned mem'.store ps ∧
      Same ps mem.store mem'.store := by
  cases hlist with
  | @list _ cell cells blanks os hblock hcount harr hunused hcells =>
    have hnone : blanks.filterMap OptionCell.bytes = [] := List.filterMap_eq_nil_iff.mpr hunused
    have hfirst : (p :: arrayBlocks cell.options cells ++ ps).Perm
        (arrayBlocks cell.options ([] ++ (cells ++ blanks)) ++ (p :: ps)) := by
      rw [List.nil_append, arrayBlocks, arrayBlocks, List.filterMap_append, hnone, List.append_nil]
      exact List.perm_middle.symm
    obtain ⟨mem1, hloop, hown1, hsame1⟩ :=
      @ndeinit_owned mem (p :: ps) cell.options blanks [] cells harr (by simp) hunused
        (h.perm hfirst)
    obtain ⟨mem2, hfree, hown2, hsame2⟩ := msFree_owned hown1
    have hown3 := hown2.store p (.list ⟨0, none⟩)
    have hsame3 := hown2.same_of_store (.list ⟨0, none⟩)
    obtain ⟨mem', hrelease, hown', hsame'⟩ :=
      @msFree_owned { mem2 with store := mem2.store.store p (.list ⟨0, none⟩) } ps (some p) hown3
    refine ⟨mem', ?_, hown', ?_⟩
    · have hcount' : cell.noptions.toNat = cells.length := hcount.trans hcells.length_eq.symm
      rw [releaseList, Memory.mcOptionsListDeinit, loadList, hblock]
      simp only [bind, Except.bind, hcount', List.length_nil] at hloop ⊢
      rw [hloop]
      simp only [hfree, pure, Except.pure]
      exact hrelease
    · have hkept := (hsame1.trans hsame2).subset (List.subset_cons_self p ps)
      exact (hkept.trans hsame3).trans hsame'

end

/-! ## Section 5: New options -/

/-- The number and the value an option is made with. -/
def NewOption.opt : NewOption → Wire.Opt
  | .uint num value => ⟨num.toNat, uintValue value⟩
  | .copied num data => ⟨num.toNat, data⟩
  | .str num value => ⟨num.toNat, cstring value⟩

/-- The length of the data is what `ms_copy_uint8` is called with, or what
    `mc_buffer_init` stores. -/
def NewOption.Fits : NewOption → Prop
  | .uint _ _ => True
  | .copied _ data => data.length < 2 ^ 32
  | .str _ value => (cstring value).length < 2 ^ 32

/-- Each argument points to one option. -/
def ArgsAt (mem : Memory) (argp : List (Option Ptr)) (cells : List OptionCell) : Prop :=
  List.Forall₂ (fun option c => ArrayAt mem option [c]) argp cells

/-- The blocks of the options themselves. -/
def argBlocks (argp : List (Option Ptr)) : List Ptr := argp.flatMap Option.toList

section

open Memory

variable {mem mem' : Memory} {q : Qsort OptionCell} {ps : List Ptr} {p : Ptr}
  {options : Option Ptr} {argp : List (Option Ptr)} {cell target new : OptionCell}
  {cells : List OptionCell} {os : List Wire.Opt}

theorem arrayBlocks_single (options : Option Ptr) (cell : OptionCell) :
    arrayBlocks options [cell] = options.toList ++ cell.bytes.toList := by
  cases hbytes : cell.bytes <;> simp [arrayBlocks, hbytes]

theorem initUint32_owned {num : UInt16} {value : UInt32}
    (hinit : mem.mcOptionInitUint32 target num value = .ok (new, mem'))
    (h : Owned mem.store (target.bytes.toList ++ ps)) :
    Owned mem'.store (new.bytes.toList ++ ps) ∧ Same ps mem.store mem'.store := by
  obtain ⟨mem1, hfree, hrest⟩ := bind_eq_ok.mp hinit
  obtain ⟨mem2, hfree', hown, hsame⟩ := msFree_owned h
  cases hfree'.symm.trans hfree
  have hnew : ∀ {bs : List UInt8} {nbytes : UInt32},
      (⟨num, nbytes, (mem1.allocate false (.bytes bs)).1⟩,
        (mem1.allocate false (.bytes bs)).2) = (new, mem') →
      Owned mem'.store (new.bytes.toList ++ ps) ∧ Same ps mem.store mem'.store := by
    intro bs nbytes heq
    cases heq
    obtain ⟨hown', hsame'⟩ := @allocate_owned _ _ _ hown false (.bytes bs) _ rfl
    exact ⟨hown', hsame.trans hsame'⟩
  split at hrest
  · exact hnew (Except.ok.inj hrest)
  · split at hrest
    · exact hnew (Except.ok.inj hrest)
    · exact hnew (Except.ok.inj hrest)

/-- An option is set up: it holds what it should, and owns its bytes. -/
theorem initOption_owned (made : NewOption) (hfits : made.Fits)
    (hnone : target.bytes = none) (h : Owned mem.store ps) :
    ∃ new mem', mem.initOption made target = .ok (new, mem') ∧ OptionAt mem' new made.opt ∧
      Owned mem'.store (new.bytes.toList ++ ps) ∧ Same ps mem.store mem'.store := by
  have h0 : Owned mem.store (target.bytes.toList ++ ps) := by
    rw [hnone]
    exact h
  cases made with
  | uint num value =>
    have hfree : Freeable mem target := fun p hp => by
      rw [hnone] at hp
      cases hp
    obtain ⟨new, mem', hinit, hat⟩ := initUint32_at hfree num value
    obtain ⟨hown, hsame⟩ := initUint32_owned hinit h0
    exact ⟨new, mem', hinit, hat, hown, hsame⟩
  | copied num data =>
    obtain ⟨bytes, mem1, halloc, _, hcases⟩ := mem.allocate_spec (data = []) (.bytes data)
    obtain ⟨hown1, hsame1⟩ := allocate_owned h halloc
    have hown1' : Owned mem1.store (target.bytes.toList ++ (bytes.toList ++ ps)) := by
      rw [hnone]
      exact hown1
    obtain ⟨mem', hinit, hown, hsame⟩ :=
      mcOptionInit_owned hown1' num (UInt32.ofNat data.length)
    refine ⟨⟨num, UInt32.ofNat data.length, bytes⟩, mem', ?_, ?_, hown,
      hsame1.trans (hsame.subset (List.subset_append_right _ ps))⟩
    · rw [initOption, halloc]
      exact hinit
    · have hcount : (UInt32.ofNat data.length).toNat = data.length := Nat.mod_eq_of_lt hfits
      have hat1 : OptionAt mem1 ⟨num, UInt32.ofNat data.length, bytes⟩ ⟨num.toNat, data⟩ := by
        obtain ⟨hnull, hempty⟩ | ⟨hptr, hstore⟩ := hcases
        · exact ⟨rfl, hcount, Or.inl ⟨hnull, of_decide_eq_true hempty⟩⟩
        · refine ⟨rfl, hcount, Or.inr ⟨_, [], hptr, Nat.zero_le _, ?_⟩⟩
          rw [hstore, List.append_nil]
          exact mem.store.alloc_self _
      exact hat1.same (hsame.subset (List.subset_append_left _ _))
  | str num value =>
    obtain ⟨p, mem1, hnew, hblock, hown1, hsame1⟩ := newString_owned h (cstring value)
    have hcount : (UInt32.ofNat (cstring value).length).toNat = (cstring value).length :=
      Nat.mod_eq_of_lt hfits
    refine ⟨⟨num, UInt32.ofNat (cstring value).length, some p⟩, mem1, ?_,
      ⟨rfl, hcount, Or.inr ⟨p, [0], rfl, Nat.zero_le p, hblock⟩⟩, hown1, hsame1⟩
    rw [initOption, hnew]
    rfl

theorem newOption_owned (made : NewOption) (hfits : made.Fits) (h : Owned mem.store ps) :
    ∃ option new mem', mem.newOption made = .ok (option, mem') ∧ ArrayAt mem' option [new] ∧
      OptionAt mem' new made.opt ∧ Owned mem'.store (option.toList ++ (new.bytes.toList ++ ps)) ∧
      Same ps mem.store mem'.store := by
  obtain ⟨p, mem1, halloc, hblock, hown1, hsame1⟩ : ∃ p mem1, mem.mcOptionAlloc = (some p, mem1) ∧
      mem1.store.blocks p = some (.options [⟨0, 0, none⟩]) ∧ Owned mem1.store (p :: ps) ∧
      Same ps mem.store mem1.store := newBlock_owned h _
  have harr1 : ArrayAt mem1 (some p) ([] ++ ⟨0, 0, none⟩ :: []) := Or.inr ⟨p, rfl, hblock⟩
  obtain ⟨new, mem2, hinit, hat2, hown2, hsame2⟩ :=
    @initOption_owned mem1 ((some p).toList ++ ps) ⟨0, 0, none⟩ made hfits rfl hown1
  have harr2 := harr1.same (hsame2.subset (List.subset_append_left _ ps))
  obtain ⟨mem', hstore, harr', hown', hsame'⟩ :=
    @storeOption_owned mem2 ps (some p) ⟨0, 0, none⟩ new [] [] harr2 hown2
  refine ⟨_, new, mem', ?_, harr', hat2.same (hsame'.subset (List.subset_append_left _ _)), ?_, ?_⟩
  · have hload : mem1.loadOption (some p) 0 = .ok ⟨0, 0, none⟩ := harr1.load
    rw [Memory.newOption, halloc]
    simp only [bind, Except.bind, hload, hinit, pure, Except.pure]
    rw [List.length_nil] at hstore
    rw [hstore]
  · rw [List.nil_append, arrayBlocks_single, List.append_assoc] at hown'
    exact hown'
  · have hmade := hsame1.trans (hsame2.subset (List.subset_append_right _ ps))
    exact hmade.trans (hsame'.subset (List.subset_append_of_subset_right _
      (List.subset_append_right _ ps)))

theorem ArgsAt.same {argp : List (Option Ptr)} (h : ArgsAt mem argp cells)
    (hsame : Same (argBlocks argp) mem.store mem'.store) : ArgsAt mem' argp cells := by
  induction h with
  | nil => exact List.Forall₂.nil
  | cons hc _ ih =>
    apply List.Forall₂.cons
    · exact hc.same (hsame.subset (List.subset_append_left _ _))
    · exact ih (hsame.subset (List.subset_append_right _ _))

/-- The arguments are made one by one. -/
theorem newOptions_owned (news : List NewOption) (hfits : ∀ made ∈ news, made.Fits)
    (h : Owned mem.store ps) :
    ∃ argp cells mem', newOptions news mem = .ok (argp, mem') ∧ ArgsAt mem' argp cells ∧
      List.Forall₂ (OptionAt mem') cells (news.map NewOption.opt) ∧
      Owned mem'.store (argBlocks argp ++ (cells.filterMap OptionCell.bytes ++ ps)) ∧
      Same ps mem.store mem'.store := by
  induction news generalizing mem ps with
  | nil => exact ⟨[], [], mem, rfl, List.Forall₂.nil, List.Forall₂.nil, h, Same.refl _ _⟩
  | cons made news ih =>
    obtain ⟨option, new, mem1, hmade, harr1, hat1, hown1, hsame1⟩ :=
      newOption_owned made (hfits made List.mem_cons_self) h
    obtain ⟨argp, cells, mem', hrest, hargs, hcells, hown', hsame'⟩ :=
      ih (fun made' hmade' => hfits made' (List.mem_cons_of_mem made hmade')) hown1
    have hps := List.subset_append_of_subset_right option.toList
      (List.subset_append_right new.bytes.toList ps)
    have hnew := List.subset_append_of_subset_right option.toList
      (List.subset_append_left new.bytes.toList ps)
    refine ⟨option :: argp, new :: cells, mem', ?_, ?_, ?_, ?_, hsame1.trans (hsame'.subset hps)⟩
    · rw [newOptions, hmade]
      simp only [bind, Except.bind, hrest, pure, Except.pure]
    · exact List.Forall₂.cons (harr1.same (hsame'.subset (List.subset_append_left _ _))) hargs
    · exact List.Forall₂.cons (hat1.same (hsame'.subset hnew)) hcells
    · apply hown'.perm
      rw [filterMap_bytes_cons, List.perm_iff_count]
      intro p
      simp only [argBlocks, List.flatMap_cons, List.count_append]
      omega

/-- The arguments are moved into the array: by induction on those that are
    left, with as many blank places behind the ones that are `filled`. -/
theorem vinitLoop_owned {filled blanks : List OptionCell} (hargs : ArgsAt mem argp cells)
    (harr : ArrayAt mem options (filled ++ blanks)) (hroom : blanks.length = argp.length)
    (hblank : ∀ c ∈ blanks, c.bytes = none)
    (h : Owned mem.store (argBlocks argp ++ (cells.filterMap OptionCell.bytes ++
      (arrayBlocks options (filled ++ blanks) ++ ps)))) :
    ∃ mem', vinitLoop options argp filled.length mem = .ok mem' ∧
      ArrayAt mem' options (filled ++ cells) ∧
      Owned mem'.store (arrayBlocks options (filled ++ cells) ++ ps) ∧
      Same (cells.filterMap OptionCell.bytes ++ (filled.filterMap OptionCell.bytes ++ ps))
        mem.store mem'.store := by
  induction argp generalizing mem cells filled blanks with
  | nil =>
    cases hargs
    obtain rfl := List.length_eq_zero_iff.mp hroom
    exact ⟨mem, rfl, harr, h, Same.refl _ _⟩
  | cons option argp ih =>
    obtain ⟨c, cells, hc, hrest, rfl⟩ := List.forall₂_cons_left_iff.mp hargs
    obtain ⟨blank, blanks, rfl⟩ := List.exists_cons_of_length_pos
      (by rw [hroom]; exact Nat.succ_pos _ : 0 < blanks.length)
    have hnone := hblank blank List.mem_cons_self
    -- the account, with the bytes of the option that is moved in front
    have hmoved : Owned mem.store (c.bytes.toList ++ (arrayBlocks options (filled ++ blanks) ++
        (option.toList ++ (argBlocks argp ++ (cells.filterMap OptionCell.bytes ++ ps))))) := by
      apply h.perm
      have hperm := arrayBlocks_perm options filled blanks blank
      rw [hnone, List.perm_iff_count] at hperm
      rw [filterMap_bytes_cons, List.perm_iff_count]
      intro p
      have hp := hperm p
      simp only [argBlocks, List.flatMap_cons, List.count_append, Option.toList_none,
        List.count_nil] at hp ⊢
      omega
    obtain ⟨mem1, hstore, harr1, hown1, hsame1⟩ := storeOption_owned harr hmoved
    rw [List.append_cons] at harr1 hown1
    have hfirst : Owned mem1.store (option.toList ++ (argBlocks argp ++
        (cells.filterMap OptionCell.bytes ++
          (arrayBlocks options ((filled ++ [c]) ++ blanks) ++ ps)))) := by
      apply hown1.perm
      rw [List.perm_iff_count]
      intro p
      simp only [List.count_append]
      omega
    obtain ⟨mem2, hfree, hown2, hsame2⟩ := msFree_owned hfirst
    have hsame12 : Same (argBlocks argp ++ (cells.filterMap OptionCell.bytes ++
        (c.bytes.toList ++ (filled.filterMap OptionCell.bytes ++ ps)))) mem.store mem2.store := by
      intro p hp
      have hp1 : p ∈ c.bytes.toList ++ ((filled ++ blanks).filterMap OptionCell.bytes ++
          (option.toList ++ (argBlocks argp ++ (cells.filterMap OptionCell.bytes ++ ps)))) := by
        simp only [List.filterMap_append, List.mem_append] at hp ⊢
        tauto
      have hp2 : p ∈ argBlocks argp ++ (cells.filterMap OptionCell.bytes ++
          (arrayBlocks options (filled ++ [c] ++ blanks) ++ ps)) := by
        simp only [arrayBlocks, List.filterMap_append, filterMap_bytes_cons, List.mem_append] at hp ⊢
        tauto
      exact (hsame2 p hp2).trans (hsame1 p hp1)
    have hargs2 := ArgsAt.same hrest (hsame12.subset (List.subset_append_left _ _))
    have harr2 := harr1.same (hsame2.subset
      (List.subset_append_of_subset_right _ (List.subset_append_of_subset_right _
        (options_subset options _ ps))))
    obtain ⟨mem', hloop, harr', hown', hsame'⟩ := ih hargs2 harr2 (Nat.succ.inj hroom)
      (fun c' hc' => hblank c' (List.mem_cons_of_mem blank hc')) hown2
    rw [← List.append_cons] at harr' hown'
    refine ⟨mem', ?_, harr', hown', ?_⟩
    · have hload : mem.loadOption option 0 = .ok c :=
        @ArrayAt.load mem option c [] [] hc
      rw [List.length_append, List.length_singleton] at hloop
      rw [vinitLoop, hload]
      simp only [bind, Except.bind, hstore, hfree, hloop]
    · intro p hp
      have hp12 : p ∈ argBlocks argp ++ (cells.filterMap OptionCell.bytes ++
          (c.bytes.toList ++ (filled.filterMap OptionCell.bytes ++ ps))) := by
        simp only [filterMap_bytes_cons, List.mem_append] at hp ⊢
        tauto
      have hp' : p ∈ cells.filterMap OptionCell.bytes ++
          ((filled ++ [c]).filterMap OptionCell.bytes ++ ps) := by
        simp only [List.filterMap_append, filterMap_bytes_cons, List.mem_append] at hp ⊢
        tauto
      exact (hsame' p hp').trans (hsame12 p hp12)

/-- A list of new options owns what they owned; their own blocks are gone. -/
theorem vinit_owned (hq : q.Stable) {list : ListCell} (hlist : mem.store.blocks p = some (.list list))
    (hargs : ArgsAt mem argp cells) (hcells : List.Forall₂ (OptionAt mem) cells os)
    (hn : argp.length < 2 ^ 32)
    (h : Owned mem.store (argBlocks argp ++ (cells.filterMap OptionCell.bytes ++ (p :: ps)))) :
    ∃ mem' qs, mem.mcOptionsListVinit q (some p) argp = .ok (some p, mem') ∧
      ListOwns mem' (some p) (some (byNumber os)) qs ∧ Owned mem'.store (qs ++ ps) ∧
      Same ps mem.store mem'.store := by
  have hcount : (UInt32.ofNat argp.length).toNat = argp.length := Nat.mod_eq_of_lt hn
  have hlength : argp.length = os.length := hargs.length_eq.trans hcells.length_eq
  obtain ⟨options, mem1, hnew, _⟩ := nalloc_filled mem (UInt32.ofNat argp.length)
  obtain ⟨blanks, hblanks, hnone, harr1, hown1, hsame1⟩ := nalloc_owned h hnew
  have hargs1 := hargs.same (hsame1.subset (List.subset_append_left _ _))
  have hfirst : Owned mem1.store (argBlocks argp ++ (cells.filterMap OptionCell.bytes ++
      (arrayBlocks options ([] ++ blanks) ++ (p :: ps)))) := by
    apply hown1.perm
    rw [List.nil_append, List.perm_iff_count]
    intro a
    simp only [List.count_append]
    omega
  obtain ⟨mem2, hloop, harr2, hown2, hsame2⟩ :=
    vinitLoop_owned hargs1 harr1 (hblanks.trans hcount) hnone hfirst
  rw [List.nil_append] at harr2 hown2
  have hsame12 : Same (cells.filterMap OptionCell.bytes ++ (p :: ps)) mem.store mem2.store :=
    (hsame1.subset (List.subset_append_right _ _)).trans hsame2
  have hlist2 : mem2.store.blocks p = some (.list list) :=
    (hsame12 p (by simp)).trans hlist
  have hcells2 := optionsAt_same hcells (hsame12.subset (List.subset_append_left _ _))
  obtain ⟨mem', qs, hinit, hlist', hown', hsame'⟩ :=
    init_owned hq harr2.withNone (by simp) hcells2 (hcount.trans hlength) hlist2
      (hown2.perm List.perm_middle)
  have hps := List.subset_append_of_subset_right (cells.filterMap OptionCell.bytes)
    (List.subset_cons_self p ps)
  refine ⟨mem', qs, ?_, hlist', hown', (hsame12.subset hps).trans hsame'⟩
  rw [Memory.mcOptionsListVinit]
  simp only [hnew, bind, Except.bind]
  rw [List.length_nil] at hloop
  rw [hloop]
  exact hinit

/-- A new list of new options, the one way. -/
theorem newVinit_owned (hq : q.Stable) {news : List NewOption} (hfits : ∀ made ∈ news, made.Fits)
    (hn : news.length < 2 ^ 32) (h : Owned mem.store ps) :
    ∃ list mem' qs, mem.newVinit q news = .ok (list, mem') ∧
      ListOwns mem' list (some (byNumber (news.map NewOption.opt))) qs ∧
      Owned mem'.store (qs ++ ps) ∧ Same ps mem.store mem'.store := by
  obtain ⟨p, mem1, halloc, hlist1, hown1, hsame1⟩ := listAlloc_owned h
  obtain ⟨argp, cells, mem2, hnew, hargs, hcells, hown2, hsame2⟩ :=
    newOptions_owned news hfits hown1
  have hlist2 := (hsame2 p List.mem_cons_self).trans hlist1
  have hlength : argp.length < 2 ^ 32 := by
    rw [hargs.length_eq, hcells.length_eq, List.length_map]
    exact hn
  obtain ⟨mem', qs, hvinit, hlist, hown, hsame⟩ := vinit_owned hq hlist2 hargs hcells hlength hown2
  refine ⟨_, mem', qs, ?_, hlist, hown,
    (hsame1.trans (hsame2.subset (List.subset_cons_self _ _))).trans hsame⟩
  rw [newVinit, halloc]
  simp only [bind, Except.bind, hnew, hvinit]

/-- The options of an array are set up: by induction on those that are left,
    with as many blank places behind the ones that are `filled`. -/
theorem fillOptions_owned {news : List NewOption} (hfits : ∀ made ∈ news, made.Fits)
    {filled blanks : List OptionCell} (harr : ArrayAt mem options (filled ++ blanks))
    (hroom : blanks.length = news.length) (hblank : ∀ c ∈ blanks, c.bytes = none)
    (hcells : List.Forall₂ (OptionAt mem) filled os)
    (h : Owned mem.store (arrayBlocks options (filled ++ blanks) ++ ps)) :
    ∃ cells mem', fillOptions options news filled.length mem = .ok mem' ∧
      ArrayAt mem' options cells ∧
      List.Forall₂ (OptionAt mem') cells (os ++ news.map NewOption.opt) ∧
      Owned mem'.store (arrayBlocks options cells ++ ps) ∧ Same ps mem.store mem'.store := by
  induction news generalizing mem filled blanks os with
  | nil =>
    obtain rfl := List.length_eq_zero_iff.mp hroom
    rw [List.append_nil] at harr h
    refine ⟨filled, mem, rfl, harr, ?_, h, Same.refl _ _⟩
    rw [List.map_nil, List.append_nil]
    exact hcells
  | cons made news ih =>
    obtain ⟨blank, blanks, rfl⟩ := List.exists_cons_of_length_pos
      (by rw [hroom]; exact Nat.succ_pos _ : 0 < blanks.length)
    have hnone := hblank blank List.mem_cons_self
    have hperm := (arrayBlocks_perm options filled blanks blank).append_right ps
    rw [hnone, Option.toList_none, List.nil_append] at hperm
    obtain ⟨new, mem1, hinit, hat1, hown1, hsame1⟩ :=
      initOption_owned made (hfits made List.mem_cons_self) hnone (h.perm hperm)
    have hall := hsame1.subset hperm.subset
    have harr1 := harr.same (hall.subset (options_subset options _ ps))
    obtain ⟨mem2, hstore, harr2, hown2, hsame2⟩ := storeOption_owned harr1 hown1
    rw [List.append_cons] at harr2 hown2
    have hfilled : filled.filterMap OptionCell.bytes ⊆ (filled ++ blanks).filterMap OptionCell.bytes := by
      rw [List.filterMap_append]
      exact List.subset_append_left _ _
    have hbytes : filled.filterMap OptionCell.bytes ⊆ arrayBlocks options (filled ++ blanks) ++ ps :=
      List.subset_append_of_subset_left _ (List.subset_append_of_subset_right _ hfilled)
    have hcells2 : List.Forall₂ (OptionAt mem2) (filled ++ [new]) (os ++ [made.opt]) := by
      apply List.rel_append
      · exact optionsAt_same (optionsAt_same hcells (hsame1.subset hbytes))
          (hsame2.subset (List.subset_append_of_subset_right _
            (List.subset_append_of_subset_left _ hfilled)))
      · exact List.Forall₂.cons (hat1.same (hsame2.subset (List.subset_append_left _ _)))
          List.Forall₂.nil
    obtain ⟨cells, mem', hloop, harr', hcells', hown', hsame'⟩ :=
      ih (fun made' hmade' => hfits made' (List.mem_cons_of_mem made hmade')) harr2
        (Nat.succ.inj hroom) (fun c hc => hblank c (List.mem_cons_of_mem blank hc)) hcells2 hown2
    rw [List.length_append, List.length_singleton] at hloop
    refine ⟨cells, mem', ?_, harr', ?_, hown', ?_⟩
    · rw [fillOptions, harr.load]
      simp only [bind, Except.bind, hinit, hstore, hloop]
    · rw [List.map_cons, List.append_cons]
      exact hcells'
    · have hfirst := hsame1.subset (List.subset_append_right (arrayBlocks options (filled ++ blanks)) ps)
      have hstored := hsame2.subset (List.subset_append_of_subset_right _
        (List.subset_append_right _ ps))
      exact (hfirst.trans hstored).trans hsame'

/-- A new list of new options, the other way. -/
theorem newInit_owned (hq : q.Stable) {news : List NewOption} (hfits : ∀ made ∈ news, made.Fits)
    (hn : news.length < 2 ^ 32) (h : Owned mem.store ps) :
    ∃ list mem' qs, mem.newInit q news = .ok (list, mem') ∧
      ListOwns mem' list (some (byNumber (news.map NewOption.opt))) qs ∧
      Owned mem'.store (qs ++ ps) ∧ Same ps mem.store mem'.store := by
  have hcount : (UInt32.ofNat news.length).toNat = news.length := Nat.mod_eq_of_lt hn
  obtain ⟨options, mem1, hnew⟩ :
      ∃ options mem1, mem.mcOptionNalloc (UInt32.ofNat news.length) = (options, mem1) := ⟨_, _, rfl⟩
  obtain ⟨blanks, hblanks, hnone, harr1, hown1, hsame1⟩ := nalloc_owned h hnew
  obtain ⟨cells, mem2, hfill, harr2, hcells2, hown2, hsame2⟩ :=
    @fillOptions_owned mem1 ps options [] news hfits [] blanks harr1 (hblanks.trans hcount) hnone
      List.Forall₂.nil hown1
  obtain ⟨list, mem3, mem', qs, halloc, hinit, hlist, hown', hsame'⟩ :=
    newList_owned hq harr2.withNone (by simp) hcells2 (hcount.trans (by simp)) hown2
  refine ⟨some list, mem', qs, ?_, hlist, hown', (hsame1.trans hsame2).trans hsame'⟩
  rw [List.length_nil] at hfill
  rw [newInit]
  simp only [hnew, bind, Except.bind, hfill, halloc, hinit]

end

end Mcoap
