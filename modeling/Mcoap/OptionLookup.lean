import Mcoap.OptionMemory

/-! # Looking options up

    `mc_options_list_get_index`, `mc_options_list_at` and
    `mc_options_list_get` on a list in memory, and a caller that visits all
    options of a number.

    The index is an `int` and the number of options a `uint32_t`; a list
    that may be null is dereferenced by all three.

    * `matchingFrom`: the places where a number stands;
    * `mcOptionsListGetIndex_eq`: what the search returns;
    * `lookups_exact_iff`: where each of the lookups is exact. -/

namespace Mcoap

open Blocks

/-! ## Section 1: The functions -/

/-- The largest `int`. -/
def intMax : Int := 2147483647

/-- A `uint32_t` as an `int`. -/
def intOf (n : UInt32) : Int :=
  if n.toNat < 2 ^ 31 then (n.toNat : Int) else (n.toNat : Int) - 2 ^ 32

/-- `options + i`. -/
abbrev OptionPtr : Type := Ptr × Nat

namespace Memory

/-- `*list`. -/
def derefList (mem : Memory) (list : Option Ptr) : Except Fault ListCell :=
  match list with
  | none => .error .nullDeref
  | some p => mem.loadList p

/-- The loop of `mc_options_list_get_index`.  The index is taken for an
    unsigned number where it is compared. -/
def getIndexLoop (mem : Memory) (list : ListCell) (optnum : UInt16) :
    Nat → Int → Except Fault Int
  | 0, _ => .error .endless
  | fuel + 1, iopt =>
    if UInt32.ofInt iopt < list.noptions then
      if iopt < 0 then .error .outOfBounds
      else do
        let option ← mem.loadOption list.options iopt.toNat
        if option.optionNum = optnum then return iopt
        else if iopt = intMax then .error .overflow
        else getIndexLoop mem list optnum fuel (iopt + 1)
    else return -1

def mcOptionsListGetIndex (mem : Memory) (list : Option Ptr) (start : UInt32) (optnum : UInt16) :
    Except Fault Int := do
  let list ← mem.derefList list
  mem.getIndexLoop list optnum (list.noptions.toNat + 1) (intOf start)

def mcOptionsListAt (mem : Memory) (list : Option Ptr) (index : Int) :
    Except Fault (Option OptionPtr) :=
  if index < 0 then return none
  else do
    let list ← mem.derefList list
    if UInt32.ofInt index > list.noptions then return none
    else return list.options.map fun options => (options, index.toNat)

def mcOptionsListGet (mem : Memory) (list : Option Ptr) (num : UInt16) :
    Except Fault (Option OptionPtr) := do
  let index ← mem.mcOptionsListGetIndex list 0 num
  mem.mcOptionsListAt list index

/-- A caller that continues from the previous index plus one until -1, and
    reads each option. -/
def visit (mem : Memory) (list : Option Ptr) (num : UInt16) :
    Nat → UInt32 → Except Fault (List (Option OptionPtr))
  | 0, _ => .error .endless
  | fuel + 1, start => do
    let index ← mem.mcOptionsListGetIndex list start num
    if index = -1 then return []
    else
      let option ← mem.mcOptionsListAt list index
      if index = intMax then .error .overflow
      else
        let rest ← visit mem list num fuel (UInt32.ofInt (index + 1))
        return option :: rest

/-- The pointer to an option of the list. -/
def optionPtr (mem : Memory) (list : Option Ptr) (i : Nat) : Option OptionPtr :=
  match mem.derefList list with
  | .ok list => list.options.map fun options => (options, i)
  | .error _ => none

end Memory

/-! ## Section 2: Where a number stands -/

/-- The places from `k` on where the number stands, in order. -/
def matchingFrom (os : List Wire.Opt) (num : UInt16) (k : Nat) : List Nat :=
  (List.range' k (os.length - k)).filter fun i => os[i]?.map Wire.Opt.num = some num.toNat

section

variable {os : List Wire.Opt} {num : UInt16} {k : Nat}

theorem matchingFrom_end (h : os.length ≤ k) : matchingFrom os num k = [] := by
  rw [matchingFrom, Nat.sub_eq_zero_of_le h]
  rfl

theorem matchingFrom_here (h : k < os.length) (hnum : os[k].num = num.toNat) :
    matchingFrom os num k = k :: matchingFrom os num (k + 1) := by
  have hsub : os.length - k = os.length - (k + 1) + 1 := by omega
  rw [matchingFrom, hsub, List.range'_succ, List.filter_cons_of_pos (by simp [h, hnum])]
  rfl

theorem matchingFrom_later (h : k < os.length) (hnum : os[k].num ≠ num.toNat) :
    matchingFrom os num k = matchingFrom os num (k + 1) := by
  have hsub : os.length - k = os.length - (k + 1) + 1 := by omega
  rw [matchingFrom, hsub, List.range'_succ, List.filter_cons_of_neg (by simp [h, hnum])]
  rfl

theorem matchingFrom_bounds {i : Nat} (h : i ∈ matchingFrom os num k) : k ≤ i ∧ i < os.length := by
  have hi := List.mem_range'_1.mp (List.mem_of_mem_filter h)
  omega

/-- Behind the first place come the places from the next one on. -/
theorem matchingFrom_cons {j : Nat} {rest : List Nat} (h : matchingFrom os num k = j :: rest) :
    k ≤ j ∧ j < os.length ∧ rest = matchingFrom os num (j + 1) := by
  generalize hleft : os.length - k = left
  induction left generalizing k with
  | zero =>
    rw [matchingFrom_end (by omega)] at h
    cases h
  | succ left ih =>
    have hk : k < os.length := by omega
    by_cases hnum : os[k].num = num.toNat
    · rw [matchingFrom_here hk hnum] at h
      cases h
      exact ⟨Nat.le_refl _, hk, rfl⟩
    · rw [matchingFrom_later hk hnum] at h
      obtain ⟨hle, hj, hrest⟩ := ih h (by omega)
      exact ⟨by omega, hj, hrest⟩

theorem matchingFrom_first {i j : Nat} {rest : List Nat} (h : matchingFrom os num k = j :: rest)
    (hi : i ∈ matchingFrom os num k) : j ≤ i := by
  obtain ⟨_, _, hrest⟩ := matchingFrom_cons h
  rw [h, hrest] at hi
  rcases List.mem_cons.mp hi with rfl | hi
  · exact Nat.le_refl _
  · exact Nat.le_of_succ_le (matchingFrom_bounds hi).1

end

/-! ## Section 3: What the functions return -/

theorem ofInt_toNat {k : Nat} (h : k < 2 ^ 32) : (UInt32.ofInt (k : Int)).toNat = k := by
  rw [ofInt32_natCast h, ofNat32_toNat h]

/-- What the search returns, by the places that are left: an index that is
    no `int` is not reached. -/
def searched (os : List Wire.Opt) : List Nat → Except Fault Int
  | [] => if os.length < 2 ^ 31 then .ok (-1) else .error .overflow
  | j :: _ => if j < 2 ^ 31 then .ok (j : Int) else .error .overflow

/-- Past the largest `int` nothing is found. -/
theorem searched_past {os : List Wire.Opt} {num : UInt16} (h : 2 ^ 31 ≤ os.length) :
    searched os (matchingFrom os num (2 ^ 31)) = .error .overflow := by
  cases hplaces : matchingFrom os num (2 ^ 31) with
  | nil => exact if_neg (Nat.not_lt.mpr h)
  | cons j rest => exact if_neg (Nat.not_lt.mpr (matchingFrom_cons hplaces).1)

section

open Memory

variable {mem : Memory} {lo p : Ptr} {list : ListCell} {os : List Wire.Opt} {num : UInt16} {k : Nat}

/-- By induction on the fuel; at the largest index the search cannot go on. -/
theorem getIndexLoop_eq (h : ArrayFrom lo mem list os) {fuel : Nat} (hk : k < 2 ^ 31)
    (hle : k ≤ os.length) (hfuel : os.length < fuel + k) :
    mem.getIndexLoop list num fuel (k : Int) = searched os (matchingFrom os num k) := by
  induction fuel generalizing k with
  | zero => omega
  | succ fuel ih =>
    have hlt : UInt32.ofInt (k : Int) < list.noptions ↔ k < os.length := by
      rw [UInt32.lt_iff_toNat_lt, ofInt_toNat (by omega), h.count]
    rw [getIndexLoop]
    by_cases hend : k < os.length
    · have hnonneg : ¬ (k : Int) < 0 := by omega
      obtain ⟨cell, hload, hcell⟩ := h.load hend
      have hnum : cell.optionNum = num ↔ os[k].num = num.toNat := by
        rw [← hcell.num, UInt16.toNat_inj]
      rw [if_pos (hlt.mpr hend), if_neg hnonneg, Int.toNat_natCast, hload]
      simp only [bind, Except.bind]
      by_cases hfound : os[k].num = num.toNat
      · rw [if_pos (hnum.mpr hfound), matchingFrom_here hend hfound, searched, if_pos hk]
        rfl
      · rw [if_neg (mt hnum.mp hfound), matchingFrom_later hend hfound]
        by_cases hmax : (k : Int) = intMax
        · rw [if_pos hmax]
          unfold intMax at hmax
          have hnext : k + 1 = 2 ^ 31 := by omega
          rw [hnext, searched_past (by omega)]
        · rw [if_neg hmax]
          unfold intMax at hmax
          exact ih (k := k + 1) (by omega) hend (by omega)
    · rw [if_neg (mt hlt.mp hend), matchingFrom_end (Nat.le_of_not_lt hend), searched,
        if_pos (by omega)]
      rfl

/-- `mc_options_list_get_index` from a place that is an `int`. -/
theorem mcOptionsListGetIndex_eq (hload : mem.loadList p = .ok list) (h : ArrayFrom lo mem list os)
    {start : UInt32} (hk : start.toNat < 2 ^ 31) (hle : start.toNat ≤ os.length) :
    mem.mcOptionsListGetIndex (some p) start num =
      searched os (matchingFrom os num start.toNat) := by
  have hint : intOf start = (start.toNat : Int) := if_pos hk
  have hcount := h.count
  rw [mcOptionsListGetIndex, derefList, hload]
  simp only [bind, Except.bind]
  rw [hint]
  exact getIndexLoop_eq h hk hle (by omega)

theorem optionPtr_eq (hload : mem.loadList p = .ok list) (i : Nat) :
    mem.optionPtr (some p) i = list.options.map fun options => (options, i) := by
  simp only [optionPtr, derefList, hload]

/-- `mc_options_list_at` compares with the number of options, not with the
    last index. -/
theorem mcOptionsListAt_eq (hload : mem.loadList p = .ok list) (h : ArrayFrom lo mem list os)
    (hk : k < 2 ^ 31) :
    mem.mcOptionsListAt (some p) (k : Int) =
      .ok (if k ≤ os.length then mem.optionPtr (some p) k else none) := by
  have hnonneg : ¬ (k : Int) < 0 := by omega
  have hgt : UInt32.ofInt (k : Int) > list.noptions ↔ ¬ k ≤ os.length := by
    rw [gt_iff_lt, UInt32.lt_iff_toNat_lt, ofInt_toNat (by omega), h.count, Nat.not_le]
  rw [mcOptionsListAt, if_neg hnonneg, derefList, hload, optionPtr_eq hload]
  simp only [bind, Except.bind, Int.toNat_natCast]
  by_cases hinside : k ≤ os.length
  · rw [if_neg (fun hc => hgt.mp hc hinside), if_pos hinside]
    rfl
  · rw [if_pos (hgt.mpr hinside), if_neg hinside]
    rfl

end

/-! ## Section 4: Where they are exact -/

/-- The options of the number are visited, each once and in list order. -/
def VisitsExactly (mem : Memory) (list : Option Ptr) (os : List Wire.Opt) (num : UInt16) : Prop :=
  ∃ fuel, mem.visit list num fuel 0 = .ok ((matchingFrom os num 0).map (mem.optionPtr list))

/-- The first option of the number comes back, or null. -/
def GetsFirst (mem : Memory) (list : Option Ptr) (os : List Wire.Opt) (num : UInt16) : Prop :=
  mem.mcOptionsListGet list num = .ok ((matchingFrom os num 0).head?.bind (mem.optionPtr list))

/-- The option at the index comes back, or null if there is none. -/
def IndexesExactly (mem : Memory) (list : Option Ptr) (os : List Wire.Opt) (index : Int) : Prop :=
  mem.mcOptionsListAt list index =
    .ok (if 0 ≤ index ∧ index < os.length then mem.optionPtr list index.toNat else none)

section

open Memory

variable {mem : Memory} {lo p : Ptr} {list : ListCell} {os : List Wire.Opt} {num : UInt16}

theorem ofInt_succ {j : Nat} (h : j + 1 < 2 ^ 32) : (UInt32.ofInt ((j : Int) + 1)).toNat = j + 1 :=
  ofInt_toNat (k := j + 1) h

/-- By induction on the places that are left. -/
theorem visit_eq (hload : mem.loadList p = .ok list) (h : ArrayFrom lo mem list os)
    (hlen : os.length < 2 ^ 31) {start : UInt32} (hle : start.toNat ≤ os.length)
    {places : List Nat} (hplaces : matchingFrom os num start.toNat = places) :
    mem.visit (some p) num (places.length + 1) start =
      .ok (places.map (mem.optionPtr (some p))) := by
  induction places generalizing start with
  | nil =>
    have hindex : mem.mcOptionsListGetIndex (some p) start num = .ok (-1) := by
      rw [mcOptionsListGetIndex_eq hload h (by omega) hle, hplaces, searched, if_pos hlen]
    rw [visit, hindex]
    rfl
  | cons j places ih =>
    obtain ⟨_, hj, hrest⟩ := matchingFrom_cons hplaces
    have hindex : mem.mcOptionsListGetIndex (some p) start num = .ok (j : Int) := by
      rw [mcOptionsListGetIndex_eq hload h (by omega) hle, hplaces, searched, if_pos (by omega)]
    have hmore : (j : Int) ≠ -1 := by omega
    have hmax : (j : Int) ≠ intMax := by unfold intMax; omega
    have hnext := ofInt_succ (j := j) (by omega)
    have hvisit := @ih (UInt32.ofInt ((j : Int) + 1)) (by omega) (by rw [hnext, hrest])
    rw [List.length_cons, visit, hindex]
    simp only [bind, Except.bind, if_neg hmore, mcOptionsListAt_eq hload h (by omega : j < 2 ^ 31),
      if_pos (Nat.le_of_lt hj), if_neg hmax, hvisit]
    rfl

/-- The caller of a longer list comes to the largest `int`, if not to an
    option at it. -/
theorem visit_overflows (hload : mem.loadList p = .ok list) (h : ArrayFrom lo mem list os)
    (hlen : 2 ^ 31 ≤ os.length) (fuel : Nat) {start : UInt32} (hk : start.toNat < 2 ^ 31)
    (r : List (Option OptionPtr)) : mem.visit (some p) num fuel start ≠ .ok r := by
  induction fuel generalizing start r with
  | zero => exact fun hok => by cases hok
  | succ fuel ih =>
    intro hok
    rw [visit, bind_eq_ok] at hok
    obtain ⟨index, hindex, hok⟩ := hok
    rw [mcOptionsListGetIndex_eq hload h hk (by omega)] at hindex
    cases hplaces : matchingFrom os num start.toNat with
    | nil =>
      rw [hplaces, searched, if_neg (by omega)] at hindex
      cases hindex
    | cons j rest =>
      rw [hplaces, searched] at hindex
      by_cases hj : j < 2 ^ 31
      · rw [if_pos hj] at hindex
        cases hindex
        rw [if_neg (by omega), bind_eq_ok] at hok
        obtain ⟨option, _, hok⟩ := hok
        by_cases hmax : (j : Int) = intMax
        · rw [if_pos hmax] at hok
          cases hok
        · rw [if_neg hmax, bind_eq_ok] at hok
          obtain ⟨rest', hrest, _⟩ := hok
          unfold intMax at hmax
          have hnext := ofInt_succ (j := j) (by omega)
          exact ih (by omega) rest' hrest
      · rw [if_neg hj] at hindex
        cases hindex

/-- A null list is dereferenced whatever is looked for. -/
theorem getIndex_null (start : UInt32) :
    mem.mcOptionsListGetIndex none start num = .error .nullDeref := rfl

theorem visitsExactly_iff {pointer : Option Ptr} {v : Option (List Wire.Opt)}
    (h : ListAt mem pointer v) :
    VisitsExactly mem pointer (v.getD []) num ↔ pointer ≠ none ∧ (v.getD []).length < 2 ^ 31 := by
  cases pointer with
  | none =>
    refine iff_of_false ?_ (fun hc => hc.1 rfl)
    rintro ⟨fuel, hvisit⟩
    cases fuel with
    | zero => cases hvisit
    | succ fuel =>
      rw [visit, getIndex_null] at hvisit
      cases hvisit
  | some p =>
    obtain ⟨list, os, rfl, hload, harray⟩ := h.load
    rw [Option.getD_some]
    constructor
    · rintro ⟨fuel, hvisit⟩
      refine ⟨Option.some_ne_none p, ?_⟩
      by_contra hlen
      exact visit_overflows hload harray (Nat.le_of_not_lt hlen) fuel (by decide) _ hvisit
    · rintro ⟨_, hlen⟩
      exact ⟨_, visit_eq hload harray hlen (Nat.zero_le _) rfl⟩

theorem getsFirst_iff {pointer : Option Ptr} {v : Option (List Wire.Opt)}
    (h : ListAt mem pointer v) :
    GetsFirst mem pointer (v.getD []) num ↔ pointer ≠ none ∧
      ((v.getD []).length < 2 ^ 31 ∨ ∃ i ∈ matchingFrom (v.getD []) num 0, i < 2 ^ 31) := by
  unfold GetsFirst
  cases pointer with
  | none =>
    refine iff_of_false ?_ (fun hc => hc.1 rfl)
    intro hget
    rw [mcOptionsListGet, getIndex_null] at hget
    cases hget
  | some p =>
    obtain ⟨list, os, rfl, hload, harray⟩ := h.load
    have hindex : mem.mcOptionsListGetIndex (some p) 0 num = searched os (matchingFrom os num 0) :=
      mcOptionsListGetIndex_eq hload harray (by decide) (Nat.zero_le _)
    rw [Option.getD_some, mcOptionsListGet, hindex]
    cases hplaces : matchingFrom os num 0 with
    | nil =>
      by_cases hlen : os.length < 2 ^ 31
      · rw [searched, if_pos hlen]
        exact iff_of_true rfl ⟨Option.some_ne_none p, Or.inl hlen⟩
      · rw [searched, if_neg hlen]
        refine iff_of_false (fun hc => by cases hc) ?_
        rintro ⟨_, hc | ⟨i, hi, _⟩⟩
        · exact hlen hc
        · exact absurd hi List.not_mem_nil
    | cons j rest =>
      obtain ⟨_, hj, _⟩ := matchingFrom_cons hplaces
      by_cases hint : j < 2 ^ 31
      · rw [searched, if_pos hint]
        refine iff_of_true ?_ ⟨Option.some_ne_none p, Or.inr ⟨j, List.mem_cons_self, hint⟩⟩
        simp only [bind, Except.bind, mcOptionsListAt_eq hload harray hint,
          if_pos (Nat.le_of_lt hj)]
        rfl
      · rw [searched, if_neg hint]
        refine iff_of_false (fun hc => by cases hc) ?_
        rintro ⟨_, hc | ⟨i, hi, hlt⟩⟩
        · omega
        · rw [← hplaces] at hi
          have hfirst := matchingFrom_first hplaces hi
          omega

theorem indexesExactly_iff {pointer : Option Ptr} {v : Option (List Wire.Opt)}
    (h : ListAt mem pointer v) {index : Int} (hmax : index ≤ intMax) :
    IndexesExactly mem pointer (v.getD []) index ↔ index < 0 ∨
      (pointer ≠ none ∧
        (index ≠ ((v.getD []).length : Int) ∨ mem.optionPtr pointer index.toNat = none)) := by
  unfold intMax at hmax
  unfold IndexesExactly
  by_cases hneg : index < 0
  · refine iff_of_true ?_ (Or.inl hneg)
    have hout : ¬ (0 ≤ index ∧ index < ((v.getD []).length : Int)) := by omega
    rw [mcOptionsListAt, if_pos hneg, if_neg hout]
    rfl
  · obtain ⟨k, rfl⟩ := Int.eq_ofNat_of_zero_le (Int.not_lt.mp hneg)
    cases pointer with
    | none =>
      refine iff_of_false ?_ ?_
      · intro hat
        rw [mcOptionsListAt, if_neg hneg] at hat
        cases hat
      · rintro (hc | ⟨hc, _⟩)
        · exact hneg hc
        · exact hc rfl
    | some p =>
      obtain ⟨list, os, rfl, hload, harray⟩ := h.load
      have hinside : (0 ≤ (k : Int) ∧ (k : Int) < (os.length : Int)) ↔ k < os.length := by omega
      rw [Option.getD_some, mcOptionsListAt_eq hload harray (by omega), Int.toNat_natCast]
      simp only [hinside]
      rcases Nat.lt_trichotomy k os.length with hlt | rfl | hgt
      · rw [if_pos (Nat.le_of_lt hlt), if_pos hlt]
        exact iff_of_true rfl (Or.inr ⟨Option.some_ne_none p, Or.inl (by omega)⟩)
      · -- the index behind the last one
        rw [if_pos (Nat.le_refl _), if_neg (Nat.lt_irrefl _), Except.ok.injEq]
        constructor
        · exact fun hnull => Or.inr ⟨Option.some_ne_none p, Or.inr hnull⟩
        · rintro (hc | ⟨_, hc | hnull⟩)
          · exact absurd hc hneg
          · exact absurd rfl hc
          · exact hnull
      · rw [if_neg (by omega), if_neg (by omega)]
        exact iff_of_true rfl (Or.inr ⟨Option.some_ne_none p, Or.inl (by omega)⟩)

end

/-- A list that is null is dereferenced, one that is too long overflows the
    index, and the index that follows the last one gives a pointer past the
    array; everything else is looked up exactly. -/
theorem lookups_exact_iff (mem : Memory) (list : Option Ptr) (v : Option (List Wire.Opt))
    (h : ListAt mem list v) (num : UInt16) :
    (VisitsExactly mem list (v.getD []) num ↔ list ≠ none ∧ (v.getD []).length < 2 ^ 31) ∧
    (GetsFirst mem list (v.getD []) num ↔ list ≠ none ∧
      ((v.getD []).length < 2 ^ 31 ∨ ∃ i ∈ matchingFrom (v.getD []) num 0, i < 2 ^ 31)) ∧
    ∀ index : Int, index ≤ intMax →
      (IndexesExactly mem list (v.getD []) index ↔ index < 0 ∨
        (list ≠ none ∧
          (index ≠ ((v.getD []).length : Int) ∨ mem.optionPtr list index.toNat = none))) :=
  ⟨visitsExactly_iff h, getsFirst_iff h, fun _ hmax => indexesExactly_iff h hmax⟩

/-- A list of one option, without bytes. -/
def formatMemory : Memory :=
  let (_, store) := Store.empty.alloc (.options [⟨12, 0, none⟩])
  let (_, store) := store.alloc (.list ⟨1, some 0⟩)
  ⟨store, false⟩

theorem formatMemory_list : ListAt formatMemory (some 1) (some [⟨12, []⟩]) := by
  refine ⟨⟨1, some 0⟩, Nat.zero_le 1, rfl, rfl, Or.inr
    ⟨0, [⟨12, 0, none⟩], [], rfl, Nat.le_refl 0, rfl, ?_⟩⟩
  exact List.Forall₂.cons ⟨rfl, rfl, Or.inl ⟨rfl, rfl⟩⟩ List.Forall₂.nil

/-- The options of a message without options, and the index behind the last
    option. -/
theorem lookups_not_exact :
    ListAt formatMemory none none ∧ ¬ GetsFirst formatMemory none [] 12 ∧
      ListAt formatMemory (some 1) (some [⟨12, []⟩]) ∧
      ¬ IndexesExactly formatMemory (some 1) [⟨12, []⟩] 1 := by
  refine ⟨trivial, ?_, formatMemory_list, ?_⟩
  · intro hget
    cases hget
  · intro hat
    cases hat

/-- The witness: the list of one option. -/
theorem lookups_exact_iff_format :
    VisitsExactly formatMemory (some 1) [⟨12, []⟩] 12 ∧
      GetsFirst formatMemory (some 1) [⟨12, []⟩] 12 ∧
      IndexesExactly formatMemory (some 1) [⟨12, []⟩] 0 ∧
      ¬ IndexesExactly formatMemory (some 1) [⟨12, []⟩] 1 := by
  obtain ⟨hvisits, hgets, hindexes⟩ := lookups_exact_iff formatMemory (some 1) _ formatMemory_list 12
  have hnonnull : (some 1 : Option Ptr) ≠ none := Option.some_ne_none 1
  refine ⟨hvisits.mpr ⟨hnonnull, by decide⟩, hgets.mpr ⟨hnonnull, Or.inl (by decide)⟩,
    (hindexes 0 (by decide)).mpr (Or.inr ⟨hnonnull, Or.inl (by decide)⟩), ?_⟩
  intro hat
  rcases (hindexes 1 (by decide)).mp hat with hneg | ⟨_, hother | hnull⟩
  · exact absurd hneg (by decide)
  · exact absurd rfl hother
  · cases hnull

end Mcoap
