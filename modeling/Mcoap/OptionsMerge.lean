import Mcoap.OptionMemory
import Mcoap.OptionOrder

/-! # Merging options

    `mc_options_list_copy` and `mc_options_list_merge` on the blocks that
    `malloc` gives out.

    Both lists are copied, option by option, into one new array, which is
    then sorted.  A null list counts as no options; two of them give the
    null list.

    * `Filled`: the new array, with some options copied and some to come;
      `copyOptions_filled`: what the loops make of it;
    * `union`: the options of both lists, by number;
    * `mcOptionsListMerge_spec`: the merged list is their union, in new
      memory;
    * `merge_union`: the laws of merging. -/

namespace Mcoap

open Blocks StableSort

/-! ## Section 1: The functions -/

/-- Compare two items by tag. -/
def compareOptionCells (left right : OptionCell) : Int :=
  (left.optionNum.toNat : Int) - (right.optionNum.toNat : Int)

theorem compareOptionCells_isOrder : IsOrder compareOptionCells where
  total a b := by simp only [compareOptionCells]; omega
  trans a b c h1 h2 := by simp only [compareOptionCells] at *; omega
  equal a b := by simp only [compareOptionCells]; omega

namespace Memory

/-- Allocate a block of options, without numbers and bytes. -/
def mcOptionNalloc (mem : Memory) (count : UInt32) : Option Ptr × Memory :=
  mem.allocate (count = 0) (.options (List.replicate count.toNat ⟨0, 0, none⟩))

/-- `mc_option_copy_to(options + ito, source + ifrom)`, which returns at once
    if the first pointer is null. -/
def copyOptionTo (mem : Memory) (options : Option Ptr) (ito : UInt32) (source : Option Ptr)
    (ifrom : UInt32) : Except Fault Memory :=
  if options = none ∧ ito = 0 then return mem
  else do
    let source ← mem.loadOption source ifrom.toNat
    let target ← mem.loadOption options ito.toNat
    let (option, mem) ← mem.copyOption target source
    mem.storeOption options ito.toNat option

/-- The loops that copy a list's options to the places from `offset` on:
    `n` of them are left, the next one is at `ioption`. -/
def copyOptions (options : Option Ptr) (offset : UInt32) (source : Option Ptr) :
    Nat → UInt32 → Memory → Except Fault Memory
  | 0, _, mem => return mem
  | n + 1, ioption, mem => do
    let mem ← mem.copyOptionTo options (offset + ioption) source ioption
    copyOptions options offset source n (ioption + 1) mem

def mcOptionsListAlloc (mem : Memory) : Option Ptr × Memory :=
  mem.allocate false (.list ⟨0, none⟩)

/-- Sort an array of items by tag, if there is one. -/
def optionsSort (mem : Memory) (qsort : Qsort OptionCell) (count : UInt32) (items : Option Ptr) :
    Except Fault Memory :=
  match items with
  | none => return mem
  | some items =>
    match mem.store.blocks items with
    | some (.options cells) =>
      if count.toNat ≤ cells.length then
        let sorted := qsort.sort compareOptionCells (cells.take count.toNat)
        .ok { mem with
          store := mem.store.store items (.options (sorted ++ cells.drop count.toNat)) }
      else .error .outOfBounds
    | _ => .error .dangling

def mcOptionsListInit (mem : Memory) (qsort : Qsort OptionCell) (list : Option Ptr)
    (noptions : UInt32) (options : Option Ptr) : Except Fault (Option Ptr × Memory) :=
  match list with
  | none => .error .nullDeref
  | some p => do
    let _ ← mem.loadList p
    let mem := { mem with store := mem.store.store p (.list ⟨noptions, options⟩) }
    let mem ← mem.optionsSort qsort noptions options
    return (list, mem)

def mcOptionsListCopy (mem : Memory) (qsort : Qsort OptionCell) (list : Option Ptr) :
    Except Fault (Option Ptr × Memory) :=
  match list with
  | none => return (none, mem)
  | some p => do
    let list ← mem.loadList p
    let (options, mem) := mem.mcOptionNalloc list.noptions
    let mem ← copyOptions options 0 list.options list.noptions.toNat 0 mem
    let (new, mem) := mem.mcOptionsListAlloc
    mem.mcOptionsListInit qsort new list.noptions options

/-- Create a new list from two lists. -/
def mcOptionsListMerge (mem : Memory) (qsort : Qsort OptionCell) (list1 list2 : Option Ptr) :
    Except Fault (Option Ptr × Memory) :=
  match list1, list2 with
  | none, list2 => mem.mcOptionsListCopy qsort list2
  | list1, none => mem.mcOptionsListCopy qsort list1
  | some p1, some p2 => do
    let list1 ← mem.loadList p1
    let list2 ← mem.loadList p2
    let noptions := list1.noptions + list2.noptions
    let (options, mem) := mem.mcOptionNalloc noptions
    let mem ← copyOptions options 0 list1.options list1.noptions.toNat 0 mem
    let mem ← copyOptions options list1.noptions list2.options list2.noptions.toNat 0 mem
    let (new, mem) := mem.mcOptionsListAlloc
    mem.mcOptionsListInit qsort new noptions options

end Memory

/-! ## Section 2: The new array -/

/-- The cells are copies of the options, each with bytes of its own. -/
structure Copies (lo : Ptr) (mem : Memory) (cells : List OptionCell) (os : List Wire.Opt) :
    Prop where
  holds    : List.Forall₂ (OptionFrom lo mem) cells os
  unshared : (cells.filterMap OptionCell.bytes).Nodup

/-- The array holds copies of `os`, with room for `todo` more options;
    nothing of `base` has changed. -/
structure Filled (base mem : Memory) (options : Option Ptr) (os : List Wire.Opt) (todo : Nat) :
    Prop where
  kept  : Extends base.store mem.store
  array : options = none ∧ os = [] ∧ todo = 0 ∨
    ∃ p cells blanks, options = some p ∧ base.store.brk ≤ p ∧
      mem.store.blocks p = some (.options (cells ++ blanks)) ∧ blanks.length = todo ∧
      (∀ c ∈ blanks, c.bytes = none) ∧ Copies base.store.brk mem cells os

section

open Memory

variable {base mem mem' : Memory} {lo : Ptr} {options source : Option Ptr} {os vals : List Wire.Opt}
  {o : Wire.Opt} {cell src : OptionCell} {cells : List OptionCell} {todo : Nat}

theorem Copies.lt_brk (h : Copies lo mem cells os) :
    ∀ p ∈ cells.filterMap OptionCell.bytes, p < mem.store.brk := by
  intro p hp
  obtain ⟨c, hc, hcp⟩ := List.mem_filterMap.mp hp
  obtain ⟨i, hi, rfl⟩ := List.mem_iff_getElem.mp hc
  have hlen := h.holds.length_eq
  have hcell := h.holds.get hi (by omega)
  obtain ⟨_, rest, hblock⟩ := hcell.block hcp
  exact mem.store.lt_brk hblock

theorem Copies.kept (h : Copies lo mem cells os) (hkept : KeepsBytes mem mem') :
    Copies lo mem' cells os :=
  ⟨h.holds.imp fun _ _ hc => hc.kept hkept, h.unshared⟩

theorem Copies.snoc (h : Copies lo mem cells os) (hkept : KeepsBytes mem mem')
    (hlo : lo ≤ mem.store.brk) (hcell : OptionFrom mem.store.brk mem' cell o) :
    Copies lo mem' (cells ++ [cell]) (os ++ [o]) := by
  constructor
  · apply List.rel_append
    · exact (h.kept hkept).holds
    · exact List.Forall₂.cons (hcell.mono hlo) List.Forall₂.nil
  · rw [List.filterMap_append, List.nodup_append]
    refine ⟨h.unshared, ?_, ?_⟩
    · cases hbytes : cell.bytes with
      | none => simp [hbytes]
      | some p => simp [hbytes]
    · -- the new bytes are in a newer block than all others
      intro p hp q hq
      obtain ⟨c, hc, hcq⟩ := List.mem_filterMap.mp hq
      rw [List.mem_singleton] at hc
      subst hc
      exact Nat.ne_of_lt (Nat.lt_of_lt_of_le (h.lt_brk p hp) (hcell.block hcq).1)

theorem nalloc_filled (mem : Memory) (count : UInt32) :
    ∃ options mem', mem.mcOptionNalloc count = (options, mem') ∧
      Filled mem mem' options [] count.toNat := by
  obtain ⟨options, mem', hnew, hext, hcases⟩ :=
    mem.allocate_spec (count = 0) (.options (List.replicate count.toNat ⟨0, 0, none⟩))
  refine ⟨options, mem', hnew, hext, ?_⟩
  rcases hcases with ⟨hnull, hempty⟩ | ⟨hptr, hstore⟩
  · have hzero : count = 0 := of_decide_eq_true hempty
    exact Or.inl ⟨hnull, rfl, by rw [hzero]; rfl⟩
  · refine Or.inr ⟨mem.store.brk, [], List.replicate count.toNat ⟨0, 0, none⟩, hptr, Nat.le_refl _,
      ?_, List.length_replicate, ?_, List.Forall₂.nil, List.nodup_nil⟩
    · rw [hstore]
      exact mem.store.alloc_self _
    · intro c hc
      rw [List.eq_of_mem_replicate hc]

/-- One option is copied into the next place. -/
theorem copyOptionTo_filled (h : Filled base mem options os (todo + 1)) {ito ifrom : UInt32}
    (hito : ito.toNat = os.length) (hload : base.loadOption source ifrom.toNat = .ok src)
    (hat : OptionAt base src o) :
    ∃ mem', mem.copyOptionTo options ito source ifrom = .ok mem' ∧
      Filled base mem' options (os ++ [o]) todo := by
  obtain ⟨hkept, ⟨_, _, hzero⟩ | ⟨p, cells, blanks, hp, hlo, hblock, htodo, hblank, hcopies⟩⟩ := h
  · exact absurd hzero (Nat.succ_ne_zero todo)
  obtain ⟨blank, blanks, rfl⟩ := List.exists_cons_of_length_pos (by omega : 0 < blanks.length)
  have hlen := hcopies.holds.length_eq
  have hitoCells : ito.toNat = cells.length := by omega
  have htarget : mem.loadOption (some p) cells.length = .ok blank := by
    simp only [loadOption, hblock, List.getElem?_append_right (Nat.le_refl _), Nat.sub_self,
      List.getElem?_cons_zero]
  have hsource := loadOption_kept hload hkept
  obtain ⟨cell, mem1, hcopy, hext1, hcell⟩ :=
    copyOption_from (hat.kept (keepsBytes hkept)) (hblank blank List.mem_cons_self)
  have hblock1 := hext1.kept p _ hblock
  have hset : (cells ++ blank :: blanks).set cells.length cell = (cells ++ [cell]) ++ blanks := by
    rw [List.set_append_right _ _ (Nat.le_refl _), Nat.sub_self, List.set_cons_zero,
      List.append_assoc]
    rfl
  refine ⟨{ mem1 with store := mem1.store.store p (.options ((cells ++ [cell]) ++ blanks)) },
    ?_, ?_, Or.inr ⟨p, cells ++ [cell], blanks, hp, hlo, mem1.store.store_self _ hblock1, ?_, ?_,
      ?_⟩⟩
  · subst hp
    have hroom : cells.length < (cells ++ blank :: blanks).length := by simp
    rw [copyOptionTo, if_neg (by simp), hsource, hitoCells]
    simp only [bind, Except.bind, htarget, hcopy, storeOption, hblock1, if_pos hroom, hset]
  · exact hkept.trans_but (hext1.store p _) hlo
  · simpa using htodo
  · exact fun c hc => hblank c (List.mem_cons_of_mem blank hc)
  · apply hcopies.snoc (keepsBytes_but (hext1.store p _) hblock) hkept.brk
    exact hcell.kept (keepsBytes_but ((Extends.refl mem1.store).store p _) hblock1)

/-- The loops: by induction on the options that are left. -/
theorem copyOptions_filled {offset ioption : UInt32}
    (h : Filled base mem options os (vals.length + todo))
    (hat : offset.toNat + ioption.toNat = os.length) (hbound : os.length + vals.length < 2 ^ 32)
    (hsrc : ∀ i (hi : i < vals.length), ∃ cell,
      base.loadOption source (ioption.toNat + i) = .ok cell ∧ OptionAt base cell (vals[i])) :
    ∃ mem', copyOptions options offset source vals.length ioption mem = .ok mem' ∧
      Filled base mem' options (os ++ vals) todo := by
  induction vals generalizing ioption os mem with
  | nil =>
    rw [List.length_nil, Nat.zero_add] at h
    rw [List.append_nil]
    exact ⟨mem, rfl, h⟩
  | cons o vals ih =>
    rw [List.length_cons] at h hbound
    have hto : (offset + ioption).toNat = os.length := by
      rw [position_no_wrap (by omega), hat]
    have hnext : (ioption + 1).toNat = ioption.toNat + 1 := by
      rw [position_no_wrap (by rw [UInt32.toNat_one]; omega), UInt32.toNat_one]
    obtain ⟨cell, hload, hcell⟩ := hsrc 0 (Nat.succ_pos _)
    have hplaces : vals.length + 1 + todo = vals.length + todo + 1 := by omega
    rw [hplaces] at h
    obtain ⟨mem1, hstep, h1⟩ := copyOptionTo_filled (o := o) h hto hload hcell
    have hrest : ∀ i (hi : i < vals.length), ∃ cell,
        base.loadOption source ((ioption + 1).toNat + i) = .ok cell ∧
          OptionAt base cell (vals[i]) := by
      intro i hi
      obtain ⟨cell, hload, hcell⟩ := hsrc (i + 1) (Nat.succ_lt_succ hi)
      refine ⟨cell, ?_, hcell⟩
      rw [hnext, Nat.add_assoc, Nat.add_comm 1 i]
      exact hload
    have hlen : (os ++ [o]).length = os.length + 1 := by simp
    obtain ⟨mem', hloop, hfilled⟩ := ih h1 (by omega) (by omega) hrest
    refine ⟨mem', ?_, ?_⟩
    · rw [List.length_cons, copyOptions, hstep]
      exact hloop
    · rw [List.append_assoc] at hfilled
      exact hfilled

/-- A whole list is copied behind what is there. -/
theorem copyList_filled {list : ListCell} (offset : UInt32) (todo : Nat)
    (h : Filled base mem options os (vals.length + todo)) (hoffset : offset.toNat = os.length)
    (hbound : os.length + vals.length < 2 ^ 32) (hlist : ArrayFrom lo base list vals) :
    ∃ mem', copyOptions options offset list.options list.noptions.toNat 0 mem = .ok mem' ∧
      Filled base mem' options (os ++ vals) todo := by
  rw [hlist.count]
  apply copyOptions_filled h
  · rw [UInt32.toNat_zero, Nat.add_zero, hoffset]
  · exact hbound
  · intro i hi
    rw [UInt32.toNat_zero, Nat.zero_add]
    exact hlist.load hi

end

/-! ## Section 3: The union -/

/-- The options by number, those of one number in their order. -/
def byNumber (os : List Wire.Opt) : List Wire.Opt := (insertion Wire.Opt).sort compareNums os

/-- The options of two lists; null if both are. -/
def union : Option (List Wire.Opt) → Option (List Wire.Opt) → Option (List Wire.Opt)
  | none, none => none
  | some os, none => some (byNumber os)
  | none, some os => some (byNumber os)
  | some os1, some os2 => some (byNumber (os1 ++ os2))

theorem byNumber_perm (os : List Wire.Opt) : (byNumber os).Perm os :=
  (insertion Wire.Opt).perm compareNums os

theorem byNumber_inNumberOrder (os : List Wire.Opt) : InNumberOrder os (byNumber os) := by
  constructor
  · apply ((insertion Wire.Opt).sorted compareNums os compareNums_isOrder).imp
    intro o o' hle
    rw [compareNums] at hle
    omega
  · intro n
    have hkept := insertion_stable Wire.Opt compareNums os compareNums_isOrder ⟨n, []⟩
    rw [equals_compareNums, equals_compareNums] at hkept
    exact hkept

theorem union_eq_none {v w : Option (List Wire.Opt)} : union v w = none ↔ v = none ∧ w = none := by
  cases v <;> cases w <;> simp [union]

/-- Whatever is null, these are the options of both lists. -/
theorem union_some {v w : Option (List Wire.Opt)} {os : List Wire.Opt} (h : union v w = some os) :
    os = byNumber (v.getD [] ++ w.getD []) := by
  cases v with
  | none =>
    cases w with
    | none => cases h
    | some os2 =>
      cases h
      rfl
  | some os1 =>
    cases w with
    | none =>
      cases h
      rw [Option.getD_some, Option.getD_none, List.append_nil]
    | some os2 =>
      cases h
      rfl

theorem union_length (v w : Option (List Wire.Opt)) :
    ((union v w).getD []).length = (v.getD []).length + (w.getD []).length := by
  cases hunion : union v w with
  | none =>
    obtain ⟨rfl, rfl⟩ := union_eq_none.mp hunion
    rfl
  | some os =>
    rw [Option.getD_some, union_some hunion, (byNumber_perm _).length_eq, List.length_append]

theorem union_assoc (u v w : Option (List Wire.Opt)) :
    union (union u v) w = union u (union v w) := by
  have hq := insertion_stable Wire.Opt
  have hleft : ∀ l l', byNumber (byNumber l ++ l') = byNumber (l ++ l') :=
    hq.sort_sort_append compareNums_isOrder
  have hright : ∀ l l', byNumber (l ++ byNumber l') = byNumber (l ++ l') :=
    hq.sort_append_sort compareNums_isOrder
  have htwice : ∀ l, byNumber (byNumber l) = byNumber l := fun l => by
    simpa using hleft l []
  cases u <;> cases v <;> cases w <;> simp [union, hleft, hright, htwice]

/-! ## Section 4: The new list -/

/-- No two options of the list share their bytes. -/
def Unshared (mem : Memory) (list : Option Ptr) : Prop :=
  ∀ p, list = some p → ∀ cell, mem.store.blocks p = some (.list cell) →
    ∀ q, cell.options = some q → ∀ cells, mem.store.blocks q = some (.options cells) →
      (cells.filterMap OptionCell.bytes).Nodup

/-- The list is made of new blocks only, and nothing of `base` has changed. -/
structure CopiedList (base mem : Memory) (list : Option Ptr) (v : Option (List Wire.Opt)) : Prop where
  kept     : Extends base.store mem.store
  holds    : ListFrom base.store.brk mem list v
  unshared : Unshared mem list

section

open Memory

variable {base mem : Memory} {lo : Ptr} {q : Qsort OptionCell} {options : Option Ptr}
  {os : List Wire.Opt} {cells : List OptionCell}

/-- Sorting the cells sorts the options. -/
theorem Copies.sort (hq : q.Stable) (h : Copies lo mem cells os) :
    Copies lo mem (q.sort compareOptionCells cells) (byNumber os) := by
  constructor
  · rw [hq.sort_eq compareOptionCells_isOrder]
    apply insertion_forall₂ _ h.holds
    intro c c' o o' hc hc'
    rw [compareOptionCells, compareNums, hc.num, hc'.num]
  · exact ((q.perm compareOptionCells cells).filterMap _).nodup_iff.mpr h.unshared

theorem optionsSort_copies (hq : q.Stable) {count : UInt32} {items : Ptr}
    (hblock : mem.store.blocks items = some (.options cells)) (h : Copies lo mem cells os)
    (hcount : count.toNat = os.length) :
    ∃ mem' sorted, mem.optionsSort q count (some items) = .ok mem' ∧
      ExtendsBut items mem.store mem'.store ∧
      mem'.store.blocks items = some (.options sorted) ∧ Copies lo mem' sorted (byNumber os) := by
  have hlen := h.holds.length_eq
  have hall : count.toNat ≤ cells.length := by omega
  have htake : cells.take count.toNat = cells := List.take_of_length_le (by omega)
  have hdrop : cells.drop count.toNat = [] := List.drop_of_length_le (by omega)
  have hbut := (Extends.refl mem.store).store items (.options (q.sort compareOptionCells cells))
  refine ⟨{ mem with store := mem.store.store items (.options (q.sort compareOptionCells cells)) },
    q.sort compareOptionCells cells, ?_, hbut, Store.store_self _ _ hblock,
    (h.sort hq).kept (keepsBytes_but hbut hblock)⟩
  simp only [Memory.optionsSort, hblock, if_pos hall, htake, hdrop, List.append_nil]

/-- The list itself, in a new block. -/
theorem alloc_init (mem : Memory) (q : Qsort OptionCell) (noptions : UInt32)
    (options : Option Ptr) :
    ∃ mem1 mem2 : Memory, mem.mcOptionsListAlloc = (some mem.store.brk, mem1) ∧
      Extends mem.store mem2.store ∧
      mem2.store.blocks mem.store.brk = some (.list ⟨noptions, options⟩) ∧
      mem1.mcOptionsListInit q (some mem.store.brk) noptions options = (do
        let mem' ← mem2.optionsSort q noptions options
        return (some mem.store.brk, mem')) := by
  have hself := mem.store.alloc_self (.list ⟨0, none⟩)
  have hlist := (Extends.refl (mem.store.alloc (.list ⟨0, none⟩)).2).store mem.store.brk
    (.list ⟨noptions, options⟩)
  refine ⟨_, { mem with
    store := (mem.store.alloc (.list ⟨0, none⟩)).2.store mem.store.brk (.list ⟨noptions, options⟩) },
    rfl, ?_, Store.store_self _ _ hself, ?_⟩
  · exact (extends_alloc mem.store _).trans_but hlist (Nat.le_refl _)
  · rw [Memory.mcOptionsListInit, loadList, hself]
    rfl

theorem init_filled (hq : q.Stable) {noptions : UInt32} (h : Filled base mem options os 0)
    (hcount : noptions.toNat = os.length) :
    ∃ new mem1 mem', mem.mcOptionsListAlloc = (some new, mem1) ∧
      mem1.mcOptionsListInit q (some new) noptions options = .ok (some new, mem') ∧
      CopiedList base mem' (some new) (some (byNumber os)) := by
  obtain ⟨hkept, harray⟩ := h
  have hcount' : noptions.toNat = (byNumber os).length := by
    rw [(byNumber_perm os).length_eq, hcount]
  obtain ⟨mem1, mem2, halloc, hext, hlist, hinit⟩ := alloc_init mem q noptions options
  have hkept2 := hkept.trans hext
  rcases harray with ⟨rfl, rfl, _⟩ | ⟨items, cells, blanks, rfl, hlo, hblock, hnone, _, hcopies⟩
  · refine ⟨_, mem1, mem2, halloc, hinit, hkept2, ?_, ?_⟩
    · exact ⟨_, hkept.brk, hlist, hcount', Or.inl ⟨rfl, rfl⟩⟩
    · rintro p hp cell hcell r hr
      cases hp
      cases hlist.symm.trans hcell
      cases hr
  · obtain rfl := List.length_eq_zero_iff.mp hnone
    rw [List.append_nil] at hblock
    have hne : mem.store.brk ≠ items := Nat.ne_of_gt (mem.store.lt_brk hblock)
    obtain ⟨mem', sorted, hsort, hbut, hsorted, hcopies'⟩ :=
      optionsSort_copies hq (hext.kept items _ hblock) (hcopies.kept (keepsBytes hext)) hcount
    have hlist' := hbut.kept _ _ hne hlist
    refine ⟨_, mem1, mem', halloc, ?_, hkept2.trans_but hbut hlo, ?_, ?_⟩
    · rw [hinit, hsort]
      rfl
    · refine ⟨_, hkept.brk, hlist', hcount', Or.inr ⟨items, sorted, [], rfl, hlo, ?_,
        hcopies'.holds⟩⟩
      rw [List.append_nil]
      exact hsorted
    · rintro p hp cell hcell r hr cells' hcells
      cases hp
      cases hlist'.symm.trans hcell
      cases hr
      cases hsorted.symm.trans hcells
      exact hcopies'.unshared

variable {a b : Option Ptr} {v w : Option (List Wire.Opt)}

theorem mcOptionsListCopy_spec (hq : q.Stable) (ha : ListAt mem a v) :
    ∃ r mem', mem.mcOptionsListCopy q a = .ok (r, mem') ∧ CopiedList mem mem' r (v.map byNumber) := by
  cases a with
  | none =>
    cases v with
    | none => exact ⟨none, mem, rfl, Extends.refl _, trivial, fun p hp => by cases hp⟩
    | some os => exact ha.elim
  | some p =>
    obtain ⟨list, os, rfl, hload, harray⟩ := ha.load
    have hlt := list.noptions.toNat_lt
    rw [harray.count] at hlt
    obtain ⟨options, mem1, hnew, hfilled⟩ := nalloc_filled mem list.noptions
    rw [harray.count] at hfilled
    obtain ⟨mem2, hcopy, hfilled2⟩ :=
      copyList_filled 0 0 hfilled rfl (by simpa using hlt) harray
    rw [List.nil_append] at hfilled2
    obtain ⟨new, mem3, mem', halloc, hinit, hcopied⟩ := init_filled hq hfilled2 harray.count
    refine ⟨some new, mem', ?_, hcopied⟩
    rw [Memory.mcOptionsListCopy, hload]
    simp only [bind, Except.bind, hnew, hcopy, halloc, hinit]

/-- The merged list is the union of the two, in new memory. -/
theorem mcOptionsListMerge_spec (hq : q.Stable) (ha : ListAt mem a v) (hb : ListAt mem b w)
    (hn : (v.getD []).length + (w.getD []).length < 2 ^ 32) :
    ∃ r mem', mem.mcOptionsListMerge q a b = .ok (r, mem') ∧ CopiedList mem mem' r (union v w) := by
  cases a with
  | none =>
    cases v with
    | some os => exact ha.elim
    | none =>
      obtain ⟨r, mem', hcopy, hcopied⟩ := mcOptionsListCopy_spec hq hb
      have hunion : union none w = w.map byNumber := by cases w <;> rfl
      exact ⟨r, mem', hcopy, hunion ▸ hcopied⟩
  | some p1 =>
    cases b with
    | none =>
      cases w with
      | some os => exact hb.elim
      | none =>
        obtain ⟨r, mem', hcopy, hcopied⟩ := mcOptionsListCopy_spec hq ha
        have hunion : union v none = v.map byNumber := by cases v <;> rfl
        exact ⟨r, mem', hcopy, hunion ▸ hcopied⟩
    | some p2 =>
      obtain ⟨list1, os1, rfl, hload1, harray1⟩ := ha.load
      obtain ⟨list2, os2, rfl, hload2, harray2⟩ := hb.load
      rw [Option.getD_some, Option.getD_some] at hn
      have hcount1 := harray1.count
      have hcount2 := harray2.count
      have hsum : (list1.noptions + list2.noptions).toNat = os1.length + os2.length := by
        rw [position_no_wrap (by omega), hcount1, hcount2]
      obtain ⟨options, mem1, hnew, hfilled⟩ := nalloc_filled mem (list1.noptions + list2.noptions)
      rw [hsum] at hfilled
      obtain ⟨mem2, hcopy1, hfilled2⟩ :=
        copyList_filled 0 os2.length hfilled rfl (by simp; omega) harray1
      obtain ⟨mem3, hcopy2, hfilled3⟩ :=
        copyList_filled list1.noptions 0 hfilled2 hcount1 (by simpa using hn) harray2
      obtain ⟨new, mem4, mem', halloc, hinit, hcopied⟩ :=
        init_filled hq hfilled3 (hsum.trans (by simp))
      refine ⟨some new, mem', ?_, hcopied⟩
      rw [Memory.mcOptionsListMerge, hload1]
      simp only [bind, Except.bind, hload2, hnew, hcopy1, hcopy2, halloc, hinit]

theorem ListFrom.none_iff {p : Option Ptr} (h : ListFrom lo mem p v) : p = none ↔ v = none := by
  cases p <;> cases v <;> simp_all [ListFrom]

end

/-! ## Section 5: The laws of merging -/

/-- With a stable `qsort` the merged list is null exactly when both lists
    are, and otherwise has copies of the options of both, sorted, and for
    each number those of the first list first; nothing else has changed.
    And it makes no difference how three lists are put together. -/
theorem merge_union (q : Qsort OptionCell) (hq : q.Stable) (mem : Memory) (a b c : Option Ptr)
    (u v w : Option (List Wire.Opt)) (ha : ListAt mem a u) (hb : ListAt mem b v)
    (hc : ListAt mem c w)
    (hn : (u.getD []).length + (v.getD []).length + (w.getD []).length < 2 ^ 32) :
    (∃ r mem' os, mem.mcOptionsListMerge q a b = .ok (r, mem') ∧ CopiedList mem mem' r os ∧
      (r = none ↔ a = none ∧ b = none) ∧
      ∀ l, os = some l →
        l.Pairwise (fun o o' => o.num ≤ o'.num) ∧ l.Perm (u.getD [] ++ v.getD []) ∧
        ∀ n, l.filter (fun o => o.num = n) =
          (u.getD []).filter (fun o => o.num = n) ++ (v.getD []).filter (fun o => o.num = n)) ∧
    ∃ ab mem1 left mem2 bc mem3 right mem4 os,
      mem.mcOptionsListMerge q a b = .ok (ab, mem1) ∧
      mem1.mcOptionsListMerge q ab c = .ok (left, mem2) ∧
      mem2.mcOptionsListMerge q b c = .ok (bc, mem3) ∧
      mem3.mcOptionsListMerge q a bc = .ok (right, mem4) ∧
      ListAt mem4 left os ∧ ListAt mem4 right os := by
  constructor
  · obtain ⟨r, mem', hmerge, hcopied⟩ := mcOptionsListMerge_spec hq ha hb (by omega)
    refine ⟨r, mem', union u v, hmerge, hcopied, ?_, ?_⟩
    · rw [hcopied.holds.none_iff, union_eq_none, ha.none_iff, hb.none_iff]
    · intro l hl
      rw [union_some hl]
      have horder := byNumber_inNumberOrder (u.getD [] ++ v.getD [])
      refine ⟨horder.ordered, byNumber_perm _, fun n => ?_⟩
      rw [horder.kept, List.filter_append]
  · have hab := union_length u v
    have hbc := union_length v w
    obtain ⟨ab, mem1, hmerge1, h1⟩ := mcOptionsListMerge_spec hq ha hb (by omega)
    have hc1 := hc.kept h1.kept
    obtain ⟨left, mem2, hmerge2, h2⟩ := mcOptionsListMerge_spec hq h1.holds.listAt hc1 (by omega)
    have hkept2 := h1.kept.trans h2.kept
    obtain ⟨bc, mem3, hmerge3, h3⟩ :=
      mcOptionsListMerge_spec hq (hb.kept hkept2) (hc.kept hkept2) (by omega)
    obtain ⟨right, mem4, hmerge4, h4⟩ :=
      mcOptionsListMerge_spec hq (ha.kept (hkept2.trans h3.kept)) h3.holds.listAt (by omega)
    refine ⟨ab, mem1, left, mem2, bc, mem3, right, mem4, union (union u v) w, hmerge1, hmerge2,
      hmerge3, hmerge4, (h2.holds.kept (h3.kept.trans h4.kept)).listAt, ?_⟩
    rw [union_assoc]
    exact h4.holds.listAt

/-- Two options out of order in one list, and one with the number of the
    first in another. -/
def listsMemory : Memory :=
  let (_, store) := Store.empty.alloc (.bytes [0x62])
  let (_, store) := store.alloc (.bytes [0x68, 0])
  let (_, store) := store.alloc (.options [⟨11, 1, some 0⟩, ⟨3, 1, some 1⟩])
  let (_, store) := store.alloc (.list ⟨2, some 2⟩)
  let (_, store) := store.alloc (.bytes [0x61])
  let (_, store) := store.alloc (.options [⟨11, 1, some 4⟩])
  let (_, store) := store.alloc (.list ⟨1, some 5⟩)
  ⟨store, false⟩

theorem listsMemory_pair :
    ListAt listsMemory (some 3) (some [⟨11, [0x62]⟩, ⟨3, [0x68]⟩]) := by
  refine ⟨⟨2, some 2⟩, Nat.zero_le 3, rfl, rfl, Or.inr
    ⟨2, [⟨11, 1, some 0⟩, ⟨3, 1, some 1⟩], [], rfl, Nat.zero_le 2, rfl, ?_⟩⟩
  apply List.Forall₂.cons
  · exact ⟨rfl, rfl, Or.inr ⟨0, [], rfl, Nat.le_refl 0, rfl⟩⟩
  · apply List.Forall₂.cons
    · exact ⟨rfl, rfl, Or.inr ⟨1, [0], rfl, Nat.zero_le 1, rfl⟩⟩
    · exact List.Forall₂.nil

theorem listsMemory_single : ListAt listsMemory (some 6) (some [⟨11, [0x61]⟩]) := by
  refine ⟨⟨1, some 5⟩, Nat.zero_le 6, rfl, rfl, Or.inr
    ⟨5, [⟨11, 1, some 4⟩], [], rfl, Nat.zero_le 5, rfl, ?_⟩⟩
  exact List.Forall₂.cons ⟨rfl, rfl, Or.inr ⟨4, [], rfl, Nat.zero_le 4, rfl⟩⟩ List.Forall₂.nil

/-- The witness: these two lists; of the options of one number those of the
    first list come first. -/
theorem merge_union_lists :
    ∃ r mem' l, listsMemory.mcOptionsListMerge (insertion OptionCell) (some 3) (some 6) =
        .ok (r, mem') ∧ CopiedList listsMemory mem' r (some l) ∧
      l.Pairwise (fun o o' => o.num ≤ o'.num) ∧
      l.filter (fun o => o.num = 11) = [⟨11, [0x62]⟩, ⟨11, [0x61]⟩] := by
  obtain ⟨⟨r, mem', os, hmerge, hcopied, hnull, hunion⟩, _⟩ :=
    merge_union (insertion OptionCell) (insertion_stable OptionCell) listsMemory (some 3) (some 6)
      none _ _ none listsMemory_pair listsMemory_single trivial (by decide)
  cases os with
  | none =>
    have hr : r = none := hcopied.holds.none_iff.mpr rfl
    exact absurd (hnull.mp hr).1 (Option.some_ne_none 3)
  | some l =>
    obtain ⟨hsorted, _, hkept⟩ := hunion l rfl
    exact ⟨r, mem', l, hmerge, hcopied, hsorted, hkept 11⟩

/-! ## Section 6: Lists as values -/

theorem wireOptions_sort {qsort : Qsort McOption} (hq : qsort.Stable) (options : List McOption) :
    wireOptions (mcOptionsListInit qsort options).options = byNumber (wireOptions options) :=
  (inNumberOrder_init hq options).unique (byNumber_inNumberOrder _)

/-- The lists as values are merged alike. -/
theorem mcOptionsListMerge_values {qsort : Qsort McOption} (hq : qsort.Stable)
    (list1 list2 : Option McOptionsList) :
    (mcOptionsListMerge qsort list1 list2).map (fun list => wireOptions list.options) =
      union (list1.map fun list => wireOptions list.options)
        (list2.map fun list => wireOptions list.options) := by
  have hcopied : ∀ options : List McOption,
      wireOptions (options.map mcOptionCopyTo) = wireOptions options := by
    intro options
    rw [wireOptions, List.map_map]
    exact List.map_congr_left fun option _ => mcOptionCopyTo_wire option
  have hlist : ∀ options : List McOption,
      wireOptions (mcOptionsListInit qsort (options.map mcOptionCopyTo)).options =
        byNumber (wireOptions options) := by
    intro options
    rw [wireOptions_sort hq, hcopied]
  cases list1 with
  | none =>
    cases list2 with
    | none => rfl
    | some list2 => exact congrArg some (hlist list2.options)
  | some list1 =>
    cases list2 with
    | none => exact congrArg some (hlist list1.options)
    | some list2 =>
      have hboth := hlist (list1.options ++ list2.options)
      have hwire : wireOptions (list1.options ++ list2.options) =
          wireOptions list1.options ++ wireOptions list2.options := List.map_append
      rw [List.map_append, hwire] at hboth
      exact congrArg some hboth

end Mcoap
