import Mcoap.Decoder
import Mcoap.UriPort

/-! # The order of repeated options

    Every list is sorted by `qsort` with a comparator that looks at the
    option number only, and the C standard says nothing about the order of
    elements that compare equal.

    * `KeepsOrder`: the options of each number are in the order they were in;
    * `Uniform`: options with the same number have the same value;
    * `InNumberOrder`: options in stable number order;
    * `order_kept_iff`: for each way to make a list, every conforming
      `qsort` keeps the order exactly when there is none to be seen. -/

namespace Mcoap

open ByteMem ByteProg CString StableSort

/-! ## Section 1: Sorting -/

/-- The options with a number, in their order. -/
def numbered (n : UInt16) (options : List McOption) : List McOption :=
  options.filter (fun o => decide (o.optionNum = n))

/-- The options of each number, as they go on the wire, are in the same order. -/
def KeepsOrder (options sorted : List McOption) : Prop :=
  ∀ n, wireOptions (numbered n sorted) = wireOptions (numbered n options)

/-- Options with the same number have the same value. -/
def Uniform (options : List McOption) : Prop :=
  ∀ x ∈ options, ∀ y ∈ options, x.optionNum = y.optionNum → x.value.toList = y.value.toList

theorem numbered_equals (n : UInt16) (options : List McOption) :
    numbered n options = equals compareOptions (mcOptionInit n 0 []) options := by
  apply List.filter_congr
  intro o _
  rw [decide_eq_decide]
  have hnum : (mcOptionInit n 0 []).optionNum = n := rfl
  rw [compareOptions, hnum]
  constructor
  · intro h
    rw [h]
    exact Int.sub_self _
  · intro h
    exact UInt16.toNat_inj.mp (by omega)

theorem wire_eq_iff {x y : McOption} (hnum : x.optionNum = y.optionNum) :
    x.wire = y.wire ↔ x.value.toList = y.value.toList := by
  rw [McOption.wire, McOption.wire, hnum]
  simp

/-- The options of one number. -/
theorem numbered_kept_iff (n : UInt16) (options : List McOption) :
    (∀ qsort, wireOptions (numbered n (mcOptionsListInit qsort options).options) =
        wireOptions (numbered n options)) ↔
      ∀ x ∈ numbered n options, ∀ y ∈ numbered n options, x.wire = y.wire := by
  simp only [numbered_equals]
  exact kept_iff compareOptions_isOrder McOption.wire _ options

theorem uniform_iff (options : List McOption) :
    Uniform options ↔
      ∀ n, ∀ x ∈ numbered n options, ∀ y ∈ numbered n options, x.wire = y.wire := by
  have hmem : ∀ n x, x ∈ numbered n options ↔ x ∈ options ∧ x.optionNum = n := by
    intro n x
    rw [numbered, List.mem_filter, decide_eq_true_eq]
  constructor
  · intro huniform n x hx y hy
    obtain ⟨hx, hxn⟩ := (hmem n x).mp hx
    obtain ⟨hy, hyn⟩ := (hmem n y).mp hy
    have hnum : x.optionNum = y.optionNum := hxn.trans hyn.symm
    exact (wire_eq_iff hnum).mpr (huniform x hx y hy hnum)
  · intro hclass x hx y hy hnum
    have hwire := hclass y.optionNum x ((hmem _ x).mpr ⟨hx, hnum⟩) y ((hmem _ y).mpr ⟨hy, rfl⟩)
    exact (wire_eq_iff hnum).mp hwire

theorem uniform_wire (options : List McOption) :
    Uniform options ↔
      ∀ o ∈ wireOptions options, ∀ o' ∈ wireOptions options, o.num = o'.num → o = o' := by
  constructor
  · intro h o ho o' ho' hnum
    obtain ⟨x, hx, rfl⟩ := List.mem_map.mp ho
    obtain ⟨y, hy, rfl⟩ := List.mem_map.mp ho'
    have hnum : x.optionNum = y.optionNum := UInt16.toNat_inj.mp hnum
    exact (wire_eq_iff hnum).mpr (h x hx y hy hnum)
  · intro h x hx y hy hnum
    have hsame := h x.wire (List.mem_map_of_mem hx) y.wire (List.mem_map_of_mem hy)
      (congrArg UInt16.toNat hnum)
    exact (wire_eq_iff hnum).mp hsame

/-- An array that is sorted into a list. -/
theorem init_keeps_iff (options : List McOption) :
    (∀ qsort, KeepsOrder options (mcOptionsListInit qsort options).options) ↔ Uniform options := by
  rw [uniform_iff]
  constructor
  · intro hkeeps n
    rw [← numbered_kept_iff]
    exact fun qsort => hkeeps qsort n
  · intro hclass qsort n
    exact (numbered_kept_iff n options).mpr (hclass n) qsort

theorem wireOptions_ordered {options : List McOption} (h : Sorted compareOptions options) :
    (wireOptions options).Pairwise fun o o' => o.num ≤ o'.num := by
  rw [wireOptions, List.pairwise_map]
  apply h.imp
  intro a b hle
  rw [McOption.wire_num, McOption.wire_num]
  rw [compareOptions] at hle
  omega

theorem wireOptions_filter (n : Nat) (options : List McOption) :
    (wireOptions options).filter (fun o => decide (o.num = n)) =
      if n < 65536 then wireOptions (numbered (UInt16.ofNat n) options) else [] := by
  rw [wireOptions, List.filter_map]
  split
  · next hn =>
    have hnum : (UInt16.ofNat n).toNat = n := UInt16.toNat_ofNat_of_lt' hn
    congr 1
    apply List.filter_congr
    intro o _
    show decide (o.optionNum.toNat = n) = decide (o.optionNum = UInt16.ofNat n)
    rw [decide_eq_decide, ← UInt16.toNat_inj, hnum]
  · next hn =>
    rw [List.map_eq_nil_iff, List.filter_eq_nil_iff]
    intro o _
    have hlt := o.optionNum.toNat_lt
    have hne : ¬ o.optionNum.toNat = n := by omega
    show ¬ decide (o.optionNum.toNat = n) = true
    simpa using hne

/-- The same options on the wire, in the same order. -/
theorem KeepsOrder.congr {options sorted sorted' : List McOption}
    (h : KeepsOrder options sorted) (hsame : wireOptions sorted' = wireOptions sorted) :
    KeepsOrder options sorted' := by
  intro n
  have hfilter := wireOptions_filter n.toNat sorted
  have hfilter' := wireOptions_filter n.toNat sorted'
  rw [if_pos n.toNat_lt, UInt16.ofNat_toNat] at hfilter hfilter'
  rw [← hfilter', hsame, hfilter]
  exact h n

/-- A stable `qsort` keeps the order. -/
theorem keepsOrder_of_stable {qsort : Qsort McOption} (hq : qsort.Stable)
    (options : List McOption) : KeepsOrder options (mcOptionsListInit qsort options).options := by
  intro n
  rw [numbered_equals, numbered_equals]
  exact congrArg wireOptions (hq compareOptions options compareOptions_isOrder _)

/-- `os` are the options of `given` in number order, those of one number in
    the order they had. -/
structure InNumberOrder (given os : List Wire.Opt) : Prop where
  ordered : os.Pairwise fun o o' => o.num ≤ o'.num
  kept    : ∀ n, os.filter (fun o => decide (o.num = n)) =
    given.filter (fun o => decide (o.num = n))

/-- The comparator of the source, on what goes on the wire. -/
def compareNums (left right : Wire.Opt) : Int := (left.num : Int) - (right.num : Int)

theorem compareNums_isOrder : IsOrder compareNums where
  total a b := by simp only [compareNums]; omega
  trans a b c h1 h2 := by simp only [compareNums] at *; omega
  equal a b := by simp only [compareNums]; omega

theorem equals_compareNums (a : Wire.Opt) (os : List Wire.Opt) :
    equals compareNums a os = os.filter (fun o => decide (o.num = a.num)) := by
  apply List.filter_congr
  intro o _
  rw [decide_eq_decide, compareNums]
  omega

theorem InNumberOrder.sorted {given os : List Wire.Opt} (h : InNumberOrder given os) :
    Sorted compareNums os := by
  apply h.ordered.imp
  intro a b hle
  rw [compareNums]
  omega

/-- There is only one such order. -/
theorem InNumberOrder.unique {given os os' : List Wire.Opt} (h : InNumberOrder given os)
    (h' : InNumberOrder given os') : os = os' := by
  apply sorted_unique compareNums_isOrder h.sorted h'.sorted
  intro a
  rw [equals_compareNums, equals_compareNums, h.kept, h'.kept]

/-- Every `qsort` puts the numbers in order. -/
theorem inNumberOrder_iff (qsort : Qsort McOption) (options : List McOption) :
    InNumberOrder (wireOptions options) (wireOptions (mcOptionsListInit qsort options).options) ↔
      KeepsOrder options (mcOptionsListInit qsort options).options := by
  constructor
  · intro h n
    have hkept := h.kept n.toNat
    rw [wireOptions_filter, wireOptions_filter, if_pos n.toNat_lt, if_pos n.toNat_lt,
      UInt16.ofNat_toNat] at hkept
    exact hkept
  · intro h
    refine ⟨wireOptions_ordered (qsort.sorted _ options compareOptions_isOrder), fun n => ?_⟩
    rw [wireOptions_filter, wireOptions_filter, h]

/-- A stable `qsort` puts an array in number order. -/
theorem inNumberOrder_init {qsort : Qsort McOption} (hq : qsort.Stable)
    (options : List McOption) :
    InNumberOrder (wireOptions options)
      (wireOptions (mcOptionsListInit qsort options).options) :=
  (inNumberOrder_iff qsort options).mpr (keepsOrder_of_stable hq options)

/-! ## Section 2: The ways to make a list -/

theorem mcOptionCopyTo_wire (option : McOption) : (mcOptionCopyTo option).wire = option.wire :=
  McOption.wire_init _ option.value.toList_length.symm

theorem numbered_copies (n : UInt16) (options : List McOption) :
    wireOptions (numbered n (options.map mcOptionCopyTo)) = wireOptions (numbered n options) := by
  induction options with
  | nil => rfl
  | cons o rest ih =>
    have hnum : (mcOptionCopyTo o).optionNum = o.optionNum := rfl
    unfold numbered wireOptions at ih ⊢
    rw [List.map_cons, List.filter_cons, List.filter_cons, hnum]
    split
    · rw [List.map_cons, List.map_cons, ih, mcOptionCopyTo_wire]
    · exact ih

theorem uniform_copies (options : List McOption) :
    Uniform (options.map mcOptionCopyTo) ↔ Uniform options := by
  have hbytes : ∀ o : McOption, (mcOptionCopyTo o).value.toList = o.value.toList :=
    fun o => congrArg Wire.Opt.value (mcOptionCopyTo_wire o)
  constructor
  · intro h x hx y hy hnum
    have hxy := h _ (List.mem_map_of_mem hx) _ (List.mem_map_of_mem hy) hnum
    rw [hbytes, hbytes] at hxy
    exact hxy
  · intro h x hx y hy hnum
    obtain ⟨a, ha, rfl⟩ := List.mem_map.mp hx
    obtain ⟨b, hb, rfl⟩ := List.mem_map.mp hy
    rw [hbytes, hbytes]
    exact h a ha b hb hnum

/-- What is merged, if anything is. -/
theorem mcOptionsListMerge_eq (qsort : Qsort McOption) (list1 list2 : Option McOptionsList) :
    mcOptionsListMerge qsort list1 list2 =
      if list1.isNone ∧ list2.isNone then none
      else some (mcOptionsListInit qsort
        ((listOptions list1 ++ listOptions list2).map mcOptionCopyTo)) := by
  cases list1 with
  | none =>
    cases list2 with
    | none => rfl
    | some _ => rfl
  | some list1 =>
    cases list2 with
    | none => simp [mcOptionsListMerge, mcOptionsListCopy]
    | some list2 => simp [mcOptionsListMerge]

/-- `mc_options_list_from_buffer` up to the sorting. -/
def optionsArrayFromBuffer (nbytes bpos : UInt32) : Code (Option (List McOption) × UInt32) := do
  let noptions ← countOptions nbytes bpos
  if noptions = 0 then return (none, bpos)
  else optionsFromBuffer nbytes noptions.toNat 0 bpos

theorem mcOptionsListFromBuffer_array (qsort : Qsort McOption) (nbytes bpos : UInt32) :
    mcOptionsListFromBuffer qsort nbytes bpos =
      optionsArrayFromBuffer nbytes bpos >>= fun r =>
        pure (r.1.map (mcOptionsListInit qsort), r.2) := by
  rw [mcOptionsListFromBuffer, optionsArrayFromBuffer, bind_assoc]
  congr 1
  funext noptions
  split
  · rfl
  · rfl

/-- The values a list has for a number. -/
def valuesOf (n : UInt16) (list : McOptionsList) : List (List UInt8) :=
  (numbered n list.options).map (·.value.toList)

theorem valuesOf_kept_iff (n : UInt16) (options : List McOption) :
    (∀ qsort, valuesOf n (mcOptionsListInit qsort options) =
        (numbered n options).map (·.value.toList)) ↔
      ∀ x ∈ numbered n options, ∀ y ∈ numbered n options, x.value.toList = y.value.toList := by
  simp only [valuesOf, numbered_equals]
  exact kept_iff compareOptions_isOrder (·.value.toList) _ options

/-! ## Section 3: URIs -/

namespace UriParts

variable (parts : UriParts)

theorem numbered_words (n optionNum : UInt16) (words : List (List UInt8)) :
    numbered n (words.map (mcOptionInitStr optionNum)) =
      if optionNum = n then words.map (mcOptionInitStr optionNum) else [] := by
  have hnum : ∀ o ∈ words.map (mcOptionInitStr optionNum), o.optionNum = optionNum := by
    intro o ho
    obtain ⟨w, _, rfl⟩ := List.mem_map.mp ho
    rfl
  split
  · next h =>
    apply List.filter_eq_self.mpr
    intro o ho
    rw [hnum o ho]
    simpa using h
  · next h =>
    apply List.filter_eq_nil_iff.mpr
    intro o ho
    rw [hnum o ho]
    simpa using h

/-- The options of the path or of the query, in the array. -/
theorem numbered_array (n : UInt16) (elided : Bool) (hn : n = optionUriPath ∨ n = optionUriQuery) :
    numbered n ((if elided then [] else parts.authority) ++ parts.components) =
      (if n = optionUriPath then parts.segments else parts.arguments).map (mcOptionInitStr n) := by
  have hfirst : numbered n (if elided then [] else parts.authority) = [] := by
    cases elided with
    | true => rfl
    | false =>
      have hhost : (mcOptionInitStr optionUriHost parts.host).optionNum = optionUriHost := rfl
      have hport := mcOptionInitUint32_num optionUriPort (UInt32.ofNat (decimal parts.port))
      apply List.filter_eq_nil_iff.mpr
      intro o ho
      rcases List.mem_cons.mp ho with rfl | ho
      · rw [hhost]
        rcases hn with rfl | rfl <;> decide
      · rw [List.mem_singleton.mp ho, hport]
        rcases hn with rfl | rfl <;> decide
  have hsplit : ∀ l l', numbered n (l ++ l') = numbered n l ++ numbered n l' :=
    fun l l' => List.filter_append ..
  rw [hsplit, hfirst, List.nil_append, components, hsplit, numbered_words, numbered_words]
  rcases hn with rfl | rfl
  · simp [optionUriPath, optionUriQuery]
  · simp [optionUriPath, optionUriQuery]

/-- The words of a URI that come back in their order from every sort. -/
theorem words_kept_iff (hfits : parts.Fits) (n : UInt16) (elided : Bool)
    (hn : n = optionUriPath ∨ n = optionUriQuery) :
    let words := if n = optionUriPath then parts.segments else parts.arguments
    (∀ qsort, valuesOf n (mcOptionsListInit qsort
        ((if elided then [] else parts.authority) ++ parts.components)) = words) ↔
      ∀ v ∈ words, ∀ w ∈ words, v = w := by
  intro words
  have hshort : ∀ w ∈ words, Short w := by
    intro w hw
    simp only [words] at hw
    split at hw
    · exact hfits.segments w hw
    · exact hfits.arguments w hw
  have hvalue : ∀ w ∈ words, (mcOptionInitStr n w).value.toList = w := fun w hw =>
    congrArg Wire.Opt.value (mcOptionInitStr_wire n (hshort w hw))
  have hnumbered := parts.numbered_array n elided hn
  have hwords : (numbered n ((if elided then [] else parts.authority) ++
      parts.components)).map (·.value.toList) = words := by
    rw [hnumbered, List.map_map]
    exact (List.map_congr_left hvalue).trans (List.map_id words)
  have hkept := valuesOf_kept_iff n ((if elided then [] else parts.authority) ++ parts.components)
  rw [hwords, hnumbered] at hkept
  rw [hkept]
  constructor
  · intro h v hv w hw
    have hvw := h _ (List.mem_map_of_mem hv) _ (List.mem_map_of_mem hw)
    rw [hvalue v hv, hvalue w hw] at hvw
    exact hvw
  · intro h x hx y hy
    obtain ⟨v, hv, rfl⟩ := List.mem_map.mp hx
    obtain ⟨w, hw, rfl⟩ := List.mem_map.mp hy
    rw [h v hv w hw]

end UriParts

/-! ## Section 4: When the order is kept -/

/-- The same for a function that gives the sorted array. -/
theorem kept_iff_of_init {gives : Qsort McOption → McOptionsList → Prop} {options : List McOption}
    (h : ∀ qsort list, gives qsort list ↔ list = mcOptionsListInit qsort options) :
    (∀ qsort list, gives qsort list → KeepsOrder options list.options) ↔ Uniform options := by
  rw [← init_keeps_iff]
  constructor
  · intro hkept qsort
    exact hkept qsort _ ((h qsort _).mpr rfl)
  · intro hkept qsort list hgives
    rw [(h qsort list).mp hgives]
    exact hkept qsort

/-- Every conforming `qsort` keeps the order of repeated options exactly
    when they do not differ: for an array, for a URI and its segments and
    arguments, for two lists that are merged, and for a buffer. -/
theorem order_kept_iff (options : List McOption) (env : UriEnv) (dest : Option SockAddr)
    (uri : List UInt8) (parts : UriParts) (list1 list2 : Option McOptionsList)
    (nbytes bpos bpos' : UInt32) (m : Mem) (s : Supply UInt16) :
    ((∀ qsort, KeepsOrder options (mcOptionsListInit qsort options).options) ↔
      Uniform options) ∧
    (uriArray env dest uri = .ok (some options) →
      ((∀ qsort list, mcUriToOptions qsort env dest uri = .ok (some list) →
          KeepsOrder options list.options) ↔ Uniform options)) ∧
    (parts.Fits →
      ((∀ qsort list, mcUriToOptions qsort env dest parts.uri = .ok (some list) →
          valuesOf optionUriPath list = parts.segments ∧
            valuesOf optionUriQuery list = parts.arguments) ↔
        (∀ v ∈ parts.segments, ∀ w ∈ parts.segments, v = w) ∧
          ∀ v ∈ parts.arguments, ∀ w ∈ parts.arguments, v = w)) ∧
    ((∀ qsort list, mcOptionsListMerge qsort list1 list2 = some list →
        KeepsOrder (listOptions list1 ++ listOptions list2) list.options) ↔
      Uniform (listOptions list1 ++ listOptions list2)) ∧
    ((run (optionsArrayFromBuffer nbytes bpos) m s).value = some (some options, bpos') →
      ((∀ qsort list, (run (mcOptionsListFromBuffer qsort nbytes bpos) m s).value =
            some (some list, bpos') → KeepsOrder options list.options) ↔ Uniform options)) := by
  refine ⟨init_keeps_iff options, ?_, ?_, ?_, ?_⟩
  · intro harray
    apply kept_iff_of_init
    intro qsort list
    rw [mcUriToOptions, harray]
    simp [eq_comm]
  · intro hfits
    have hlist : ∀ qsort, mcUriToOptions qsort env dest parts.uri = .ok (some
        (mcOptionsListInit qsort ((if parts.elided env dest then [] else parts.authority) ++
          parts.components))) := by
      intro qsort
      rw [mcUriToOptions, parts.uriArray_uri hfits env dest]
      rfl
    have hpath := parts.words_kept_iff hfits optionUriPath (parts.elided env dest) (Or.inl rfl)
    have hquery := parts.words_kept_iff hfits optionUriQuery (parts.elided env dest) (Or.inr rfl)
    have hne : ¬ optionUriQuery = optionUriPath := by decide
    simp only [if_true, if_neg hne] at hpath hquery
    rw [← hpath, ← hquery]
    constructor
    · intro h
      exact ⟨fun qsort => (h qsort _ (hlist qsort)).1, fun qsort => (h qsort _ (hlist qsort)).2⟩
    · rintro ⟨h1, h2⟩ qsort list hok
      rw [hlist qsort] at hok
      cases hok
      exact ⟨h1 qsort, h2 qsort⟩
  · have hcopies : ∀ sorted, KeepsOrder (listOptions list1 ++ listOptions list2) sorted ↔
        KeepsOrder ((listOptions list1 ++ listOptions list2).map mcOptionCopyTo) sorted := by
      intro sorted
      unfold KeepsOrder
      simp only [numbered_copies]
    rw [← uniform_copies]
    simp only [mcOptionsListMerge_eq, hcopies]
    split
    · next hnone =>
      -- two null lists give a null list, and there is nothing to sort
      have hempty : listOptions list1 ++ listOptions list2 = [] := by
        rw [Option.isNone_iff_eq_none.mp hnone.1, Option.isNone_iff_eq_none.mp hnone.2]
        rfl
      rw [hempty]
      exact iff_of_true (fun _ _ h => absurd h (by simp)) (fun _ hx => absurd hx List.not_mem_nil)
    · apply kept_iff_of_init
      intro qsort list
      simp [eq_comm]
  · intro harray
    apply kept_iff_of_init
    intro qsort list
    rw [mcOptionsListFromBuffer_array, run_map_value, harray]
    simp [eq_comm]

/-- coap://h:1000/a/a?q&q -/
def partsOfTwice : UriParts :=
  { partsOfGet with
    segments      := [[0x61], [0x61]]
    arguments     := [[0x71], [0x71]]
    segmentsFree  := by simp [slash, question]
    argumentsFree := by simp [ampersand]
    noZero        := by simp [partsOfGet] }

theorem partsOfTwice_fits : partsOfTwice.Fits := by
  constructor
  · exact (by decide : 1 < 2 ^ 32 - 1)
  · exact (by decide : 4 < 2 ^ 32 - 1)
  · show ∀ s ∈ [[0x61], [0x61]], Short s
    simp [Short]
  · show ∀ a ∈ [[0x71], [0x71]], Short a
    simp [Short]
  · exact (by decide : 4 + 2 < 2 ^ 32)

/-- The witness: that URI, and a `qsort` that is not stable. -/
theorem order_kept_iff_get :
    valuesOf optionUriPath (mcOptionsListInit (rotated McOption 3)
        (partsOfTwice.authority ++ partsOfTwice.components)) = [[0x61], [0x61]] :=
  (((order_kept_iff [] ⟨fun _ => none, ⟨0, 0, 0, 0⟩, false, id⟩ none [] partsOfTwice none none 0 0 0
    (ofList []) fun _ => 0).2.2.1 partsOfTwice_fits).mpr
      ⟨by simp [partsOfTwice], by simp [partsOfTwice]⟩ (rotated McOption 3) _ rfl).1

/-- coap://h:1/a/b, with a `qsort` that meets the standard and puts b first. -/
theorem path_reordered :
    ∃ list, mcUriToOptions (rotated McOption 3) ⟨fun _ => none, ⟨0, 0, 0, 0⟩, false, id⟩ none
        (schemeCoap ++ (schemeEnd ++ [0x68, colon, 0x31, slash, 0x61, slash, 0x62])) =
          .ok (some list) ∧
      valuesOf optionUriPath list = [[0x62], [0x61]] :=
  ⟨_, rfl, by decide⟩

end Mcoap
